import NekoOs.Preemption

/-!
The interrupt flag across `scheduler_yield`. `scheduler_context_switch` does not
save it: only a task that a tick interrupted gets it back, from the frame of
`isr_timer`. A task that yielded by itself goes on with the flag of the code
that switches to it.
-/
namespace NekoOs.Interrupts
open RunQueue Transitions Preemption
open Scheduler (Locals Stack isRunning)
universe v

/-- The machine and, for each stack, the interrupt flag with which the task on it
    called `scheduler_yield`, until it goes on. The latter is no part of the code. -/
structure Traced (Task : Type v) where
  state : State Task
  called : Stack Unit Task → Option Bool

section
variable {Task : Type v} [DecidableEq Task]

def track (x : Traced Task) (choice : Choice Task) : Stack Unit Task → Option Bool :=
  match x.state.running.ops with
  | .code :: _ =>
    Function.update x.called x.state.running.stack
      (match choice with
        | .yield => some x.state.interrupts
        | _ => none)
  | _ => x.called

def step (c : Locals Unit Task) (x : Traced Task) : Action Task → Option (Traced Task)
  | .step choice => (exec c x.state choice).map (fun s => ⟨s,track x choice⟩)
  | .tick => (tick x.state).map (fun s => ⟨s,x.called⟩)

structure Started (c : Locals Unit Task) (x : Traced Task) : Prop where
  state : Preemption.Started c x.state
  called : ∀ stack, x.called stack = none

/-- The boot processor, with the calls of `scheduler_yield` recorded. -/
def traced (c : Locals Unit Task) : System (Traced Task) (Action Task) := .ofFunction (Started c) (step c)

/-- A task that returns from `scheduler_yield` has interrupts enabled if it had them enabled at the call. -/
def Restored (x : Traced Task) : Prop :=
  ∀ rest, x.state.running.ops = .code :: rest → x.called x.state.running.stack = some true → x.state.interrupts = true

/-- A task is suspended in a `scheduler_yield` that it called with interrupts enabled. -/
def Waits (x : Traced Task) (t : Task) : Prop :=
  ∃ rest, (x.state.rsp t).ops = .code :: rest ∧ x.called (x.state.rsp t).stack = some true

/-- Code that a tick has interrupted, up to the `iretq` of `isr_timer`. -/
def InHandler (ops : List (Op Task)) : Prop := ∃ rest, ops = .iretq true :: rest

/-- A tick that saves its stack pointer in `old` and switches to `next` goes to a frame of `isr_timer`. -/
def Framed (s : State Task) (old next : Task) : Prop := next = old ∨ InHandler (s.rsp next).ops

/-- The `scheduler_yield` of a tick returns at once or switches to a frame of
    `isr_timer`, when `scheduler_dequeue` gives it the task `next`. -/
def Returns (c : Locals Unit Task) (s : State Task) (old next : Option Task) : Prop :=
  match next with
  | none => isRunning s.sched old = true ∨ Framed s (old.getD (c.idle ())) (c.idle ())
  | some next => Framed s (old.getD (c.idle ())) next

/-- A tick whose `scheduler_yield` does not go to a frame of `isr_timer` arrives
    only while no task waits in a `scheduler_yield` of its own. -/
def Careful (c : Locals Unit Task) (x : Traced Task) (a : Action Task) : Prop :=
  a = .tick → Returns c x.state x.state.current x.state.sched.head ∨ ∀ t, ¬ Waits x t

/-! ### The invariant -/

/-- An `iretq` that enables interrupts comes before the code of a task. -/
def Guarded : List (Op Task) → Prop
  | [] => True
  | .code :: _ => False
  | .iretq true :: _ => True
  | _ :: rest => Guarded rest

/-- What a saved stack pointer finds: a task that yielded by itself, or an `iretq` before the code of one. -/
def Resumable (ops : List (Op Task)) : Prop := Guarded ops ∨ ∃ tail, ops = .code :: tail

/-- What follows a step that remains to be done. -/
def After (rest : List (Op Task)) : Op Task → Prop
  | .code | .task_exit | .worker | .saveIdle | .setIdle => Guarded rest
  | .unlink .worker | .dequeued .worker _ => Guarded rest
  | .scheduler_yield | .unlink (.scheduler_yield _) | .dequeued (.scheduler_yield _) _ | .requeue _ _ => Resumable rest
  | .setCurrent _ _ | .save _ _ => Resumable rest
  | .iretq interrupts => interrupts = true
  | .acquire _ | .release _ | .kvlog | .makeReady _ | .link _ | .setRunning _ | .load _ | .setDead => True

def Shaped : List (Op Task) → Prop
  | [] => True
  | op :: rest => After rest op ∧ Shaped rest

structure Invariant (x : Traced Task) : Prop where
  running : Shaped x.state.running.ops
  saved : ∀ t, Shaped (x.state.rsp t).ops ∧ Resumable (x.state.rsp t).ops
  flag : x.state.interrupts = true ∨ x.called x.state.running.stack ≠ some true ∨ Guarded x.state.running.ops

/-- A handler on the way from the test of the dequeued task to its switch. -/
def Leads (s : State Task) : List (Op Task) → Prop
  | .makeReady _ :: rest | .acquire _ :: rest | .link _ :: rest | .release _ :: rest | .setRunning _ :: rest => Leads s rest
  | .setCurrent old next :: rest | .save old next :: rest => InHandler rest ∧ Framed s old next
  | .load next :: _ => InHandler (s.rsp next).ops
  | .iretq interrupts :: _ => interrupts = true
  | _ => False

/-- A handler that returns or switches to a frame of `isr_timer`. -/
inductive Aimed (c : Locals Unit Task) (s : State Task) : List (Op Task) → Prop
  | entered {rest : List (Op Task)} : Returns c s s.current s.sched.head → Aimed c s (.scheduler_yield :: .iretq true :: rest)
  | acquiring {old : Option Task} {rest : List (Op Task)} : Returns c s old s.sched.head →
      Aimed c s (.acquire .run_queue :: .unlink (.scheduler_yield old) :: .iretq true :: rest)
  | unlinking {old : Option Task} {rest : List (Op Task)} : Returns c s old s.sched.head →
      Aimed c s (.unlink (.scheduler_yield old) :: .iretq true :: rest)
  | releasing {old next : Option Task} {rest : List (Op Task)} : Returns c s old next →
      Aimed c s (.release .run_queue :: .dequeued (.scheduler_yield old) next :: .iretq true :: rest)
  | testing {old next : Option Task} {rest : List (Op Task)} : Returns c s old next →
      Aimed c s (.dequeued (.scheduler_yield old) next :: .iretq true :: rest)
  | requeueing {old : Option Task} {next : Task} {rest : List (Op Task)} : Framed s (old.getD (c.idle ())) next →
      Aimed c s (.requeue old next :: .iretq true :: rest)
  | leading {ops : List (Op Task)} : Leads s ops → Aimed c s ops

/-- What runs with interrupts disabled is such a handler, or no task waits for its flag. -/
def Masked (c : Locals Unit Task) (x : Traced Task) : Prop :=
  x.state.interrupts = true ∨ Aimed c x.state x.state.running.ops ∨ ∀ t, ¬ Waits x t

variable {c : Locals Unit Task} {x x' : Traced Task}

omit [DecidableEq Task] in
theorem Invariant.restored (inv : Invariant x) : Restored x := by
  intro rest ops called
  rcases inv.flag with enabled | other | guarded
  · exact enabled
  · exact absurd called other
  · rw [ops] at guarded
    exact guarded.elim

theorem initial_invariant (started : Started c x) : Invariant x := by
  obtain ⟨⟨_,_,_,_,_,_,rsp,_,running,interrupts⟩,_⟩ := started
  refine ⟨?_,fun t => ?_,.inl interrupts⟩
  · rw [running]
    exact ⟨trivial,trivial⟩
  · rw [rsp]
    by_cases idle : t = c.idle ()
    · rw [if_pos idle]
      exact ⟨trivial,.inl trivial⟩
    · rw [if_neg idle]
      exact ⟨⟨trivial,trivial⟩,.inr ⟨[],rfl⟩⟩

omit [DecidableEq Task] in
theorem tick_step (inv : Invariant x) {s : State Task} (taken : tick x.state = some s) : Invariant ⟨s,x.called⟩ := by
  unfold tick at taken
  by_cases enabled : x.state.interrupts = true
  · rw [if_pos enabled] at taken
    obtain rfl := Option.some.inj taken
    exact ⟨⟨.inl trivial,rfl,inv.running⟩,inv.saved,.inr (.inr trivial)⟩
  · rw [if_neg enabled] at taken
    cases taken

omit [DecidableEq Task] in
theorem guarded_afterWorker {rest : List (Op Task)} (guarded : Guarded rest) : Guarded (klog ++ rest) := guarded

/-- Without a waiting task, `scheduler_yield` returns or goes to the idle task. -/
theorem afterDequeue_none {s : Sched Task} {old : Option Task} : afterDequeue c s (.scheduler_yield old) none = [] ∨
    afterDequeue c s (.scheduler_yield old) none = [.requeue old (c.idle ())] := by
  by_cases runs : isRunning s old = true
  · exact .inl (if_pos runs)
  · exact .inr (if_neg runs)

theorem guarded_afterDequeue {s : Sched Task} {caller : Caller Task} {next : Option Task} {rest : List (Op Task)}
    (guarded : Guarded rest) : Guarded (afterDequeue c s caller next ++ rest) := by
  cases caller with
  | scheduler_yield old =>
    cases next with
    | none =>
      rcases @afterDequeue_none _ _ c s old with stays | idles
      · rw [stays]
        exact guarded
      · rw [idles]
        exact guarded
    | some next => exact guarded
  | worker =>
    cases next with
    | none => exact guarded
    | some next => exact guarded

theorem shaped_afterDequeue {s : Sched Task} {caller : Caller Task} {next : Option Task} {rest : List (Op Task)}
    (after : After rest (.dequeued caller next)) (shaped : Shaped rest) :
    Shaped (afterDequeue c s caller next ++ rest) := by
  cases caller with
  | scheduler_yield old =>
    cases next with
    | none =>
      rcases @afterDequeue_none _ _ c s old with stays | idles
      · rw [stays]
        exact shaped
      · rw [idles]
        exact ⟨after,shaped⟩
    | some next => exact ⟨after,shaped⟩
  | worker =>
    cases next with
    | none => exact shaped
    | some next =>
      have resumable : Resumable (klog ++ rest) := .inl (guarded_afterWorker after)
      exact ⟨trivial,trivial,trivial,trivial,resumable,trivial,trivial,trivial,shaped⟩

omit [DecidableEq Task] in
/-- Enqueueing a task on the way does not change what comes before the code of a task. -/
theorem enqueued_then {back rest : List (Op Task)} (enqueues : back = [] ∨ ∃ t, back = enqueue t) :
    (Guarded rest → Guarded (back ++ rest)) ∧ (Shaped rest → Shaped (back ++ rest)) := by
  rcases enqueues with rfl | ⟨t,rfl⟩
  · exact ⟨id,id⟩
  · exact ⟨id,fun shaped => ⟨trivial,trivial,trivial,trivial,shaped⟩⟩

omit [DecidableEq Task] in
/-- Code that stays on its stack, leaves the flag and saves nothing. -/
theorem goes_on (inv : Invariant x) {ops : List (Op Task)} {s : State Task}
    (running : s.running = ⟨x.state.running.stack,ops⟩) (rsp : s.rsp = x.state.rsp)
    (interrupts : s.interrupts = x.state.interrupts) (shaped : Shaped ops)
    (guarded : Guarded x.state.running.ops → Guarded ops) : Invariant ⟨s,x.called⟩ := by
  refine ⟨?_,?_,?_⟩
  · rw [running]
    exact shaped
  · rw [rsp]
    exact inv.saved
  · rw [running,interrupts]
    exact inv.flag.imp_right (Or.imp_right guarded)

/-- The code of a task has gone on, and it may have called `scheduler_yield` with the flag it has. -/
theorem code_goes_on (inv : Invariant x) {s : State Task} {flag : Option Bool} {ops : List (Op Task)}
    (running : s.running = ⟨x.state.running.stack,ops⟩) (rsp : s.rsp = x.state.rsp)
    (interrupts : s.interrupts = x.state.interrupts) (shaped : Shaped ops)
    (kept : flag = some true → x.state.interrupts = true) :
    Invariant ⟨s,Function.update x.called x.state.running.stack flag⟩ := by
  refine ⟨?_,?_,?_⟩
  · rw [running]
    exact shaped
  · rw [rsp]
    exact inv.saved
  · rw [running,interrupts]
    show _ ∨ Function.update x.called x.state.running.stack flag x.state.running.stack ≠ some true ∨ _
    rw [Function.update_self]
    by_cases enabled : flag = some true
    · exact .inl (kept enabled)
    · exact .inr (.inl enabled)

/-- The code of a task or of `kernel_main` calls a function, or returns. -/
theorem code_step (inv : Invariant x) {choice : Choice Task} {rest : List (Op Task)}
    (ops : x.state.running.ops = .code :: rest) (after : After rest .code) (later : Shaped rest) {s : State Task}
    (taken : exec c x.state choice = some s) : Invariant ⟨s,track x choice⟩ := by
  have code : Shaped (.code :: rest) := ⟨after,later⟩
  simp only [track,ops]
  simp only [exec,ops] at taken
  split at taken
  · cases taken
    refine code_goes_on inv (by rfl) (by rfl) (by rfl) ?_ (by simp)
    exact ⟨trivial,trivial,trivial,code⟩
  · split at taken
    · cases taken
    · cases taken
      refine code_goes_on inv (by rfl) (by rfl) (by rfl) ?_ (by simp)
      exact ⟨trivial,trivial,trivial,trivial,trivial,trivial,trivial,trivial,trivial,trivial,code⟩
  · cases taken
    refine code_goes_on inv (by rfl) (by rfl) (by rfl) ?_ Option.some.inj
    exact ⟨.inr ⟨rest,rfl⟩,code⟩
  · cases taken
    refine code_goes_on inv (by rfl) (by rfl) (by rfl) ?_ (by simp)
    exact ⟨after,later⟩
  · cases taken
    refine code_goes_on inv (by rfl) (by rfl) (by rfl) ?_ (by simp)
    exact ⟨trivial,trivial,trivial,after,after,trivial,trivial,trivial,after,later⟩
  · cases taken

/-- A step, where a switch with interrupts disabled does not go to a task that waits for its flag. -/
theorem exec_step (inv : Invariant x) {choice : Choice Task} {s : State Task} (taken : exec c x.state choice = some s)
    (lands : x.state.interrupts = false → ∀ new rest, x.state.running.ops = .load new :: rest → ¬ Waits x new) :
    Invariant ⟨s,track x choice⟩ := by
  cases ops : x.state.running.ops with
  | nil => simp [exec,ops] at taken
  | cons op rest =>
    have shaped := inv.running
    rw [ops] at shaped
    obtain ⟨after,later⟩ := shaped
    have guarded (whole : Guarded x.state.running.ops) : Guarded (op :: rest) := by rwa [ops] at whole
    cases op with
    | code => exact code_step inv ops after later taken
    | task_exit =>
      simp only [track,ops]
      simp only [exec,ops,Option.some.injEq] at taken
      subst taken
      exact goes_on inv rfl rfl rfl ⟨trivial,trivial,trivial,trivial,.inl after,after,later⟩ guarded
    | worker =>
      simp only [track,ops]
      simp only [exec,ops,Option.some.injEq] at taken
      subst taken
      exact goes_on inv rfl rfl rfl ⟨trivial,after,after,later⟩ guarded
    | acquire lock =>
      simp only [track,ops]
      cases free : x.state.locked lock with
      | none =>
        simp only [exec,ops,free,Option.some.injEq] at taken
        subst taken
        exact goes_on inv rfl rfl rfl later guarded
      | some holder =>
        simp only [exec,ops,free,Option.some.injEq] at taken
        subst taken
        exact inv
    | scheduler_yield =>
      simp only [track,ops]
      simp only [exec,ops,Option.some.injEq] at taken
      subst taken
      exact goes_on inv rfl rfl rfl ⟨trivial,after,later⟩ guarded
    | unlink caller =>
      simp only [track,ops]
      simp only [exec,ops,Option.some.injEq] at taken
      subst taken
      refine goes_on inv rfl rfl rfl ⟨trivial,?_,later⟩ guarded
      cases caller <;> exact after
    | dequeued caller next =>
      simp only [track,ops]
      simp only [exec,ops,Option.some.injEq] at taken
      subst taken
      exact goes_on inv rfl rfl rfl (shaped_afterDequeue after later)
        (fun whole => guarded_afterDequeue (guarded whole))
    | requeue old next =>
      simp only [track,ops]
      simp only [exec,ops,Option.some.injEq] at taken
      subst taken
      cases old with
      | none => exact goes_on inv rfl rfl rfl ⟨trivial,after,later⟩ guarded
      | some t =>
        have back : (if x.state.sched.state t = .TASK_RUNNING then enqueue t else []) = [] ∨
            ∃ u, (if x.state.sched.state t = .TASK_RUNNING then enqueue t else []) = enqueue u := by
          by_cases runs : x.state.sched.state t = .TASK_RUNNING
          · exact .inr ⟨t,if_pos runs⟩
          · exact .inl (if_neg runs)
        refine goes_on inv rfl rfl rfl ?_ ?_
        · rw [List.append_assoc]
          exact (enqueued_then back).2 ⟨trivial,after,later⟩
        · rw [List.append_assoc]
          exact fun whole => (enqueued_then back).1 (guarded whole)
    | setCurrent old next =>
      simp only [track,ops]
      simp only [exec,ops,Option.some.injEq] at taken
      subst taken
      exact goes_on inv rfl rfl rfl ⟨after,later⟩ guarded
    | save old new =>
      simp only [track,ops]
      simp only [exec,ops,Option.some.injEq] at taken
      subst taken
      refine ⟨⟨trivial,later⟩,?_,inv.flag.imp_right (Or.imp_right guarded)⟩
      exact (Function.forall_update_iff x.state.rsp (fun _ context => Shaped context.ops ∧ Resumable context.ops)).mpr
        ⟨⟨later,after⟩,fun t _ => inv.saved t⟩
    | load new =>
      simp only [track,ops]
      simp only [exec,ops,Option.some.injEq] at taken
      subst taken
      refine ⟨(inv.saved new).1,inv.saved,?_⟩
      by_cases enabled : x.state.interrupts = true
      · exact .inl enabled
      · rcases (inv.saved new).2 with before | ⟨tail,code⟩
        · exact .inr (.inr before)
        · exact .inr (.inl (fun waits => lands (by simpa using enabled) new rest ops ⟨tail,code,waits⟩))
    | setDead =>
      simp only [track,ops]
      simp only [exec,ops] at taken
      obtain ⟨t,_,rfl⟩ := Option.map_eq_some_iff.mp taken
      exact goes_on inv rfl rfl rfl later guarded
    | iretq interrupts =>
      obtain rfl : interrupts = true := after
      simp only [track,ops]
      simp only [exec,ops,Option.some.injEq] at taken
      subst taken
      exact ⟨later,inv.saved,.inl rfl⟩
    | saveIdle =>
      simp only [track,ops]
      simp only [exec,ops,Option.some.injEq] at taken
      subst taken
      refine ⟨later,?_,inv.flag.imp_right (Or.imp_right guarded)⟩
      exact (Function.forall_update_iff x.state.rsp (fun _ context => Shaped context.ops ∧ Resumable context.ops)).mpr
        ⟨⟨later,.inl after⟩,fun t _ => inv.saved t⟩
    | release | kvlog | makeReady | link | setRunning | setIdle =>
      simp only [track,ops]
      simp only [exec,ops,Option.some.injEq] at taken
      subst taken
      exact goes_on inv rfl rfl rfl later guarded

/-! ### Handlers and tasks that wait -/

omit [DecidableEq Task] in
theorem Masked.lands (masked : Masked c x) (disabled : x.state.interrupts = false) {new : Task} {rest : List (Op Task)}
    (ops : x.state.running.ops = .load new :: rest) : ¬ Waits x new := by
  rcases masked with enabled | aimed | nobody
  · exact absurd (enabled.symm.trans disabled) (by simp)
  · rw [ops] at aimed
    cases aimed with
    | leading leads =>
      obtain ⟨_,frame⟩ : InHandler (x.state.rsp new).ops := leads
      rintro ⟨_,code,_⟩
      rw [frame] at code
      cases code
  · exact nobody new

omit [DecidableEq Task] in
theorem returns_congr {s s' : State Task} {old next : Option Task} (state : s'.sched.state = s.sched.state)
    (rsp : s'.rsp = s.rsp) (returns : Returns c s old next) : Returns c s' old next := by
  have runs : isRunning s'.sched old = isRunning s.sched old := by
    cases old with
    | none => rfl
    | some t => simp only [isRunning,state]
  unfold Returns Framed at returns ⊢
  rwa [rsp,runs]

theorem dequeue_head (s : Sched Task) : (scheduler_dequeue s).1 = s.head ∧ (scheduler_dequeue s).2.state = s.state := by
  unfold scheduler_dequeue
  split
  next empty => exact ⟨empty.symm,rfl⟩
  next task found => exact ⟨found.symm,rfl⟩

omit [DecidableEq Task] in
theorem leads_congr {s s' : State Task} {ops : List (Op Task)} (rsp : s'.rsp = s.rsp) (leads : Leads s ops) :
    Leads s' ops := by
  induction ops with
  | nil => exact leads
  | cons op rest ih =>
    cases op with
    | makeReady | acquire | link | release | setRunning => exact ih leads
    | setCurrent | save => exact ⟨leads.1,by rw [Framed,rsp]; exact leads.2⟩
    | load => exact (show InHandler _ by rw [rsp]; exact leads)
    | _ => exact leads

/-- A step of a handler between the test of the dequeued task and its `iretq`. -/
theorem leads_step {s s' : State Task} {choice : Choice Task} (leads : Leads s s.running.ops)
    (taken : exec c s choice = some s') : s'.interrupts = true ∨ Leads s' s'.running.ops := by
  cases ops : s.running.ops with
  | nil => simp [exec,ops] at taken
  | cons op rest =>
    rw [ops] at leads
    cases op with
    | acquire lock =>
      cases free : s.locked lock with
      | none =>
        simp only [exec,ops,free,Option.some.injEq] at taken
        subst taken
        exact .inr (leads_congr (s := s) rfl (show Leads s rest from leads))
      | some holder =>
        simp only [exec,ops,free,Option.some.injEq] at taken
        subst taken
        exact .inr (ops ▸ leads)
    | makeReady | link | release | setRunning =>
      simp only [exec,ops,Option.some.injEq] at taken
      subst taken
      exact .inr (leads_congr (s := s) rfl (show Leads s rest from leads))
    | setCurrent old next =>
      simp only [exec,ops,Option.some.injEq] at taken
      subst taken
      exact .inr (leads_congr (s := s) rfl (show Leads s (.save old next :: rest) from leads))
    | save old new =>
      obtain ⟨frame,framed⟩ := leads
      simp only [exec,ops,Option.some.injEq] at taken
      subst taken
      refine .inr (show InHandler (Function.update s.rsp old ⟨s.running.stack,rest⟩ new).ops from ?_)
      by_cases same : new = old
      · rw [same,Function.update_self]
        exact frame
      · rw [Function.update_of_ne same]
        exact framed.resolve_left same
    | load new =>
      simp only [exec,ops,Option.some.injEq] at taken
      subst taken
      obtain ⟨rest,frame⟩ : InHandler (s.rsp new).ops := leads
      exact .inr (show Leads _ (s.rsp new).ops by rw [frame]; rfl)
    | iretq interrupts =>
      simp only [exec,ops,Option.some.injEq] at taken
      subst taken
      exact .inl leads
    | _ => exact leads.elim

/-- A step of a handler that returns or switches to a frame of `isr_timer`. -/
theorem aimed_step {s s' : State Task} {choice : Choice Task} {ops : List (Op Task)} (aimed : Aimed c s ops)
    (here : s.running.ops = ops) (taken : exec c s choice = some s') :
    s'.interrupts = true ∨ Aimed c s' s'.running.ops := by
  cases aimed with
  | entered returns =>
    simp only [exec,here,Option.some.injEq] at taken
    subst taken
    exact .inr (.acquiring (returns_congr rfl rfl returns))
  | @acquiring old rest returns =>
    cases free : s.locked .run_queue with
    | none =>
      simp only [exec,here,free,Option.some.injEq] at taken
      subst taken
      exact .inr (.unlinking (returns_congr rfl rfl returns))
    | some holder =>
      simp only [exec,here,free,Option.some.injEq] at taken
      subst taken
      exact .inr (here ▸ .acquiring returns)
  | unlinking returns =>
    obtain ⟨found,states⟩ := dequeue_head s.sched
    simp only [exec,here,Option.some.injEq] at taken
    subst taken
    exact .inr (.releasing (returns_congr states rfl (found ▸ returns)))
  | releasing returns =>
    simp only [exec,here,Option.some.injEq] at taken
    subst taken
    exact .inr (.testing (returns_congr rfl rfl returns))
  | @testing old next rest returns =>
    simp only [exec,here,Option.some.injEq] at taken
    subst taken
    cases next with
    | some next => exact .inr (.requeueing returns)
    | none =>
      by_cases runs : isRunning s.sched old = true
      · have stays : afterDequeue c s.sched (.scheduler_yield old) none = [] := if_pos runs
        rw [stays]
        exact .inr (.leading rfl)
      · have leaves : afterDequeue c s.sched (.scheduler_yield old) none = [.requeue old (c.idle ())] := if_neg runs
        rw [leaves]
        exact .inr (.requeueing (returns.resolve_left runs))
  | @requeueing old next rest framed =>
    simp only [exec,here,Option.some.injEq] at taken
    subst taken
    have leads : Leads s (switchTo (old.getD (c.idle ())) next ++ .iretq true :: rest) := ⟨⟨rest,rfl⟩,framed⟩
    refine .inr (.leading (leads_congr (s := s) rfl ?_))
    show Leads s (_ ++ switchTo (old.getD (c.idle ())) next ++ .iretq true :: rest)
    rw [List.append_assoc]
    cases old with
    | none => exact leads
    | some t =>
      simp only
      split <;> exact leads
  | leading leads => exact (leads_step (here ▸ leads) taken).imp_right .leading

/-- The task whose stack pointer a step saves, and the steps that remain on its stack. -/
def saved (c : Locals Unit Task) : List (Op Task) → Option (Task × List (Op Task))
  | .save old _ :: rest => some (old,rest)
  | .saveIdle :: rest => some (c.idle (),rest)
  | _ => none

/-- Only `scheduler_context_switch` and `cpu_enter_worker` save a stack pointer, and only `iretq` sets the flag. -/
theorem exec_effects {s s' : State Task} {choice : Choice Task} (taken : exec c s choice = some s') :
    (s'.rsp = match saved c s.running.ops with
      | none => s.rsp
      | some (t,rest) => Function.update s.rsp t ⟨s.running.stack,rest⟩) ∧
    s'.interrupts = match s.running.ops with
      | .iretq interrupts :: _ => interrupts
      | _ => s.interrupts := by
  cases ops : s.running.ops with
  | nil => simp [exec,ops] at taken
  | cons op rest =>
    cases op with
    | code =>
      simp only [exec,ops] at taken
      split at taken
      · cases taken
        exact ⟨rfl,rfl⟩
      · split at taken
        · cases taken
        · cases taken
          exact ⟨rfl,rfl⟩
      · cases taken
        exact ⟨rfl,rfl⟩
      · cases taken
        exact ⟨rfl,rfl⟩
      · cases taken
        exact ⟨rfl,rfl⟩
      · cases taken
    | acquire lock =>
      cases free : s.locked lock with
      | none =>
        simp only [exec,ops,free,Option.some.injEq] at taken
        subst taken
        exact ⟨rfl,rfl⟩
      | some holder =>
        simp only [exec,ops,free,Option.some.injEq] at taken
        subst taken
        exact ⟨rfl,rfl⟩
    | setDead =>
      simp only [exec,ops] at taken
      obtain ⟨u,_,rfl⟩ := Option.map_eq_some_iff.mp taken
      exact ⟨rfl,rfl⟩
    | _ =>
      simp only [exec,ops,Option.some.injEq] at taken
      subst taken
      exact ⟨rfl,rfl⟩

/-- Only a call of `scheduler_yield` with interrupts enabled is recorded as one. -/
theorem track_other {choice : Choice Task} (other : choice = .yield → x.state.interrupts = false) {stack : Stack Unit Task}
    (called : track x choice stack = some true) : x.called stack = some true := by
  cases ops : x.state.running.ops with
  | nil => simpa only [track,ops] using called
  | cons op rest =>
    cases op with
    | code =>
      simp only [track,ops] at called
      by_cases here : stack = x.state.running.stack
      · rw [here,Function.update_self] at called
        cases choice with
        | yield =>
          rw [other rfl] at called
          cases called
        | _ => cases called
      · rwa [Function.update_of_ne here] at called
    | _ => simpa only [track,ops] using called

omit [DecidableEq Task] in
theorem saved_guarded {t : Task} {ops rest : List (Op Task)} (shaped : Shaped ops) (saves : saved c ops = some (t,rest))
    (guarded : Guarded ops) : Guarded rest := by
  cases ops with
  | nil => cases saves
  | cons op tail =>
    cases op with
    | save old new =>
      obtain rfl : tail = rest := (Prod.mk.inj (Option.some.inj saves)).2
      exact guarded
    | saveIdle =>
      obtain rfl : tail = rest := (Prod.mk.inj (Option.some.inj saves)).2
      exact shaped.1
    | _ => cases saves

/-- With interrupts disabled, no task begins to wait for them. -/
theorem nobody_step (inv : Invariant x) (disabled : x.state.interrupts = false) (nobody : ∀ t, ¬ Waits x t)
    {choice : Choice Task} {s : State Task} (taken : exec c x.state choice = some s) (t : Task) :
    ¬ Waits ⟨s,track x choice⟩ t := by
  rintro ⟨tail,code,called⟩
  have before := track_other (fun _ => disabled) called
  have rsp := (exec_effects taken).1
  cases saves : saved c x.state.running.ops with
  | none =>
    rw [saves] at rsp
    simp only [rsp] at code before
    exact nobody t ⟨tail,code,before⟩
  | some p =>
    obtain ⟨u,rest⟩ := p
    rw [saves] at rsp
    simp only [rsp] at code before
    by_cases same : t = u
    · rw [same,Function.update_self] at code before
      have guarded : Guarded x.state.running.ops → Guarded rest := saved_guarded inv.running saves
      rcases inv.flag with enabled | other | shielded
      · exact absurd (enabled.symm.trans disabled) (by simp)
      · exact other before
      · have later := guarded shielded
        rw [show rest = .code :: tail from code] at later
        exact later
    · rw [Function.update_of_ne same] at code before
      exact nobody t ⟨tail,code,before⟩

omit [DecidableEq Task] in
theorem tick_masked {s : State Task} (careful : Returns c x.state x.state.current x.state.sched.head ∨ ∀ t, ¬ Waits x t)
    (ticked : tick x.state = some s) : Masked c ⟨s,x.called⟩ := by
  unfold tick at ticked
  by_cases enabled : x.state.interrupts = true
  · rw [if_pos enabled] at ticked
    obtain rfl := Option.some.inj ticked
    rcases careful with returns | nobody
    · exact .inr (.inl (.entered returns))
    · exact .inr (.inr nobody)
  · rw [if_neg enabled] at ticked
    cases ticked

theorem masked_step (inv : Invariant x) (masked : Masked c x) {choice : Choice Task} {s : State Task}
    (taken : exec c x.state choice = some s) : Masked c ⟨s,track x choice⟩ := by
  cases flag : x.state.interrupts with
  | true =>
    have shaped := inv.running
    have kept := (exec_effects taken).2
    refine .inl ?_
    split at kept
    next interrupts rest ops =>
      rw [ops] at shaped
      exact kept.trans shaped.1
    next => exact kept.trans flag
  | false =>
    rcases masked with enabled | aimed | nobody
    · exact absurd (enabled.symm.trans flag) (by simp)
    · exact (aimed_step aimed rfl taken).imp_right .inl
    · exact .inr (.inr (nobody_step inv flag nobody taken))

/-- As long as every tick returns at once, switches to a frame of `isr_timer` or
    arrives while no task waits in a `scheduler_yield` that it called with
    interrupts enabled, such a call returns with interrupts enabled. -/
theorem flag_restored (reached : ((traced c).restrict (Careful c)).Reachable x) : Restored x := by
  have inv : Invariant x ∧ Masked c x := by
    refine reached.invariant (P := fun x => Invariant x ∧ Masked c x) ?_ ?_
    · exact fun x started => ⟨initial_invariant started,.inl started.state.interrupts⟩
    rintro x a x' ⟨inv,masked⟩ ⟨careful,taken⟩
    cases a with
    | tick =>
      obtain ⟨s,ticked,rfl⟩ := Option.map_eq_some_iff.mp taken
      exact ⟨tick_step inv ticked,tick_masked (careful rfl) ticked⟩
    | step choice =>
      obtain ⟨s,executed,rfl⟩ := Option.map_eq_some_iff.mp taken
      exact ⟨exec_step inv executed (fun disabled _ _ => masked.lands disabled),masked_step inv masked executed⟩
  exact inv.1.restored

/-- A switch with interrupts disabled to a task that waits for its flag loses it. -/
theorem careless_switch {choice : Choice Task} {new : Task} {rest : List (Op Task)} (ops : x.state.running.ops = .load new :: rest)
    (disabled : x.state.interrupts = false) (waits : Waits x new) (taken : step c x (.step choice) = some x') :
    ¬ Restored x' := by
  obtain ⟨tail,code,called⟩ := waits
  obtain ⟨s,executed,rfl⟩ := Option.map_eq_some_iff.mp taken
  simp only [exec,ops,Option.some.injEq] at executed
  subst executed
  intro restored
  have enabled := restored tail code (by simp only [track,ops]; exact called)
  rw [disabled] at enabled
  cases enabled

/-- A sequence of steps without ticks, where a condition restricts ticks only. -/
theorem run_steps {allowed : Traced Task → Action Task → Prop} (free : ∀ x choice, allowed x (.step choice))
    {choices : List (Choice Task)} (run : choices.foldlM (fun x choice => step c x (.step choice)) x = some x') :
    ((traced c).restrict allowed).Run x (choices.map .step) x' := by
  induction choices generalizing x with
  | nil =>
    obtain rfl : x = x' := by simpa using run
    exact .refl x
  | cons choice rest ih =>
    rw [List.foldlM_cons,Option.bind_eq_bind,Option.bind_eq_some_iff] at run
    obtain ⟨y,first,later⟩ := run
    exact .cons ⟨free x choice,first⟩ (ih later)

/-- Without a call of `scheduler_yield`, no task waits. -/
theorem nobody_run {choices : List (Choice Task)} (quiet : ∀ stack, x.called stack ≠ some true) (silent : Choice.yield ∉ choices)
    (run : choices.foldlM (fun x choice => step c x (.step choice)) x = some x') (t : Task) : ¬ Waits x' t := by
  suffices none : ∀ stack, x'.called stack ≠ some true from fun waits => none _ waits.choose_spec.2
  induction choices generalizing x with
  | nil =>
    obtain rfl : x = x' := by simpa using run
    exact quiet
  | cons choice rest ih =>
    rw [List.foldlM_cons,Option.bind_eq_bind,Option.bind_eq_some_iff] at run
    obtain ⟨y,first,later⟩ := run
    rw [List.mem_cons,not_or] at silent
    refine ih ?_ silent.2 later
    obtain ⟨s,_,rfl⟩ := Option.map_eq_some_iff.mp first
    exact fun stack called => quiet stack (track_other (fun same => (silent.1 same.symm).elim) called)

end

/-! ### Tasks 1 and 2 -/

def tracedStart : Traced Nat := ⟨sampleStart,fun _ => none⟩

theorem traced_started : Started sampleLocals tracedStart := ⟨sample_started,fun _ => rfl⟩

/-- Both tasks are enqueued, and the worker loop has picked task 1. -/
def pickOne : List (Choice Nat) :=
  .spawn 1 :: List.replicate 10 .klog ++ .spawn 2 :: List.replicate 10 .klog ++ .enterWorker :: List.replicate 20 .klog

/-- A task yields to the other one. -/
def yieldOnce : List (Choice Nat) := .yield :: List.replicate 14 .klog

/-- Task 1 yields to task 2, and a tick there switches back to task 1, which returns with interrupts disabled. -/
theorem flag_lost : ∃ x, (traced sampleLocals).Reachable x ∧ x.state.running = ⟨.own 1,[.code]⟩ ∧
    x.called (.own 1) = some true ∧ x.state.interrupts = false ∧ ¬ Restored x := by
  have yielded := (System.reachable_initial (M := traced sampleLocals) traced_started).run
    (@run_steps _ _ _ _ _ (fun _ _ => True) (fun _ _ => trivial) (pickOne ++ yieldOnce) rfl).unrestricted
  have returned := (yielded.step (a := Action.tick) rfl).run
    (@run_steps _ _ _ _ _ (fun _ _ => True) (fun _ _ => trivial) (List.replicate 14 .klog) rfl).unrestricted
  refine ⟨_,returned,rfl,rfl,rfl,fun restored => ?_⟩
  exact absurd (restored [] rfl rfl) (by decide)

/-- A tick in task 1, where no task waits, starts task 2 with interrupts disabled.
    Task 2 yields back into the handler. Task 1 yields, task 2 yields again, and
    task 1 returns with interrupts enabled. -/
theorem flag_restored_yield :
    ∃ x, ((traced sampleLocals).restrict (Careful sampleLocals)).Reachable x ∧ x.state.running = ⟨.own 1,[.code]⟩ ∧
    x.called (.own 1) = some true ∧ Restored x := by
  have free (x : Traced Nat) (choice : Choice Nat) : Careful sampleLocals x (.step choice) :=
    fun impossible => by contradiction
  have picked := (System.reachable_initial (M := (traced sampleLocals).restrict (Careful sampleLocals)) traced_started).run
    (@run_steps _ _ _ _ _ _ free pickOne rfl)
  have quiet (stack : Stack Unit Nat) : tracedStart.called stack ≠ some true := by simp [tracedStart]
  have nobody := @nobody_run _ _ sampleLocals tracedStart _ pickOne quiet (by simp [pickOne]) rfl
  have returned := (picked.step (a := Action.tick) ⟨fun _ => .inr nobody,rfl⟩).run
    (@run_steps _ _ _ _ _ _ free (List.replicate 14 .klog ++ yieldOnce ++ .klog :: yieldOnce ++ yieldOnce) rfl)
  exact ⟨_,returned,rfl,rfl,flag_restored returned⟩

end NekoOs.Interrupts
