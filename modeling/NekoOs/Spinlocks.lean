import NekoOs.Preemption

/-!
The spinlocks of the boot processor. `spinlock_acquire` does not mask
interrupts, so a tick can find its own processor inside a critical section. If
none does, or only in `klog` with a yield that returns at once, every lock is
free whenever it is acquired.
-/
namespace NekoOs.Spinlocks
open RunQueue Transitions Preemption
open Scheduler (Locals Stack isRunning)
universe v

section
variable {Task : Type v}

/-- The processor spins with interrupts disabled on a lock that some code holds.
    That code is suspended, since it is this processor that would run it. -/
def Deadlocked (s : State Task) : Prop :=
  ∃ lock holder rest, s.running.ops = .acquire lock :: rest ∧ s.locked lock = some holder ∧ s.interrupts = false

/-- A tick arrives while `run_queue.lock` is free, and while `klog_lock` is free
    unless its `scheduler_yield` returns at once. -/
def Unlocked (s : State Task) (a : Action Task) : Prop :=
  a = .tick → s.locked .run_queue = none ∧ (s.locked .klog_lock = none ∨ Quiet s)

/-- Code that holds at most the given lock releases it and takes others one at a time. -/
def Bracketed : Option Lock → List (Op Task) → Prop
  | held, [] => held = none
  | held, .acquire lock :: rest => held = none ∧ Bracketed (some lock) rest
  | held, .release lock :: rest => held = some lock ∧ Bracketed none rest
  | held, .kvlog :: rest => held = some .klog_lock ∧ Bracketed held rest
  | held, .link _ :: rest => held = some .run_queue ∧ Bracketed held rest
  -- the release follows when the result is known
  | held, .unlink _ :: rest => held = some .run_queue ∧ Bracketed none rest
  | held, _ :: rest => held = none ∧ Bracketed none rest

/-- The locked locks are those the running code holds. -/
def Holds (s : State Task) (held : Option Lock) : Prop := ∀ lock, (s.locked lock).isSome = true ↔ held = some lock

/-- The running code is bracketed, perhaps under a handler that yields to nobody. -/
inductive Placed (s : State Task) : Prop
  | plain (held : Option Lock) : Bracketed held s.running.ops → Holds s held → Placed s
  | handling (h : Handler) (rest : List (Op Task)) : s.running.ops = h.ops s.current ++ rest →
      Bracketed (some .klog_lock) rest → (s.locked .klog_lock).isSome = true →
      (s.locked .run_queue).isSome = h.locks → s.interrupts = false → Quiet s → Placed s

structure Invariant (s : State Task) : Prop where
  saved : ∀ t, Bracketed none (s.rsp t).ops
  running : Placed s

variable {c : Locals Unit Task} {s s' : State Task}

theorem bracketed_append {held : Option Lock} {left right : List (Op Task)} (first : Bracketed held left)
    (second : Bracketed none right) : Bracketed held (left ++ right) := by
  induction left generalizing held with
  | nil =>
    obtain rfl : held = none := first
    exact second
  | cons op rest ih =>
    cases op <;> exact ⟨first.1,ih first.2⟩

theorem bracketed_klog : Bracketed none (klog : List (Op Task)) := ⟨rfl,rfl,rfl,rfl⟩
theorem bracketed_enqueue (t : Task) : Bracketed none (enqueue t) := ⟨rfl,rfl,rfl,rfl,rfl⟩
theorem bracketed_switchTo (old next : Task) : Bracketed none (switchTo old next) := ⟨rfl,rfl,rfl⟩

theorem holds_none {held : Option Lock} (holds : Holds s held) (free : held = none) (lock : Lock) :
    s.locked lock = none := by
  cases locked : s.locked lock with
  | none => rfl
  | some holder => exact absurd ((holds lock).mp (by simp [locked])) (by simp [free])

theorem tick_step (inv : Invariant s) (unlocked : Unlocked s .tick) (taken : tick s = some s') : Invariant s' := by
  obtain ⟨saved,running⟩ := inv
  obtain ⟨queueFree,logging⟩ := unlocked rfl
  cases enabled : s.interrupts with
  | false => simp [tick,enabled] at taken
  | true =>
    simp only [tick,enabled,if_true,Option.some.injEq] at taken
    subst taken
    cases running with
    | handling h rest ops brackets _ _ masked => simp [enabled] at masked
    | plain held brackets holds =>
      cases held with
      | none => exact ⟨saved,.plain none ⟨rfl,rfl,brackets⟩ holds⟩
      | some lock =>
        have locked := (holds lock).mpr rfl
        cases lock with
        | run_queue => simp [queueFree] at locked
        | klog_lock =>
          have quiet : Quiet s := logging.resolve_left (fun free => by simp [free] at locked)
          exact ⟨saved,.handling .entered s.running.ops rfl brackets locked
            (by simp [queueFree,Handler.locks]) rfl quiet⟩

theorem Invariant.live (inv : Invariant s) : ¬ Deadlocked s := by
  rintro ⟨lock,holder,rest,ops,locked,_⟩
  cases inv.running with
  | plain held brackets holds =>
    rw [ops] at brackets
    simp [holds_none holds brackets.1 lock] at locked
  | handling h rest' ops' _ _ queueing =>
    rw [ops] at ops'
    -- the only acquire of a quiet handler is that of `run_queue.lock`, which is free then
    cases h with
    | acquiring =>
      simp only [Handler.ops,List.cons_append,List.cons.injEq,Op.acquire.injEq] at ops'
      rw [ops'.1] at locked
      simp [locked,Handler.locks] at queueing
    | _ => simp [Handler.ops] at ops'

variable [DecidableEq Task]

theorem bracketed_afterDequeue (caller : Caller Task) (next : Option Task) :
    Bracketed none (afterDequeue c s.sched caller next) := by
  cases caller with
  | scheduler_yield old =>
    cases next with
    | none =>
      simp only [afterDequeue]
      split
      · exact rfl
      · exact ⟨rfl,rfl⟩
    | some next => exact ⟨rfl,rfl⟩
  | worker =>
    cases next with
    | none => exact rfl
    | some t => exact bracketed_append (bracketed_append bracketed_klog (bracketed_switchTo _ t)) bracketed_klog

omit [DecidableEq Task] in
/-- The code that takes a lock, or gives it back, holds what it holds. -/
theorem holds_acquire {held : Option Lock} {lock : Lock} {holder : Stack Unit Task} (holds : Holds s held) (free : held = none)
    (same : s'.locked = Function.update s.locked lock (some holder)) : Holds s' (some lock) := by
  intro other
  rw [same]
  by_cases here : other = lock
  · subst here
    simp
  · simp only [Function.update_of_ne here,holds_none holds free other,Option.isSome_none,Option.some.injEq]
    exact iff_of_false (by simp) (fun equal => here equal.symm)

omit [DecidableEq Task] in
theorem holds_release {lock : Lock} (holds : Holds s (some lock)) (same : s'.locked = Function.update s.locked lock none) :
    Holds s' none := by
  intro other
  rw [same]
  by_cases here : other = lock
  · subst here
    simp
  · simp only [Function.update_of_ne here,reduceCtorEq,iff_false]
    intro locked
    exact here (Option.some.inj ((holds other).mp locked)).symm

/-- A step outside such a handler. -/
theorem plain_step {choice : Choice Task} {held : Option Lock} (saved : ∀ t, Bracketed none (s.rsp t).ops)
    (brackets : Bracketed held s.running.ops) (holds : Holds s held) (taken : exec c s choice = some s') :
    Invariant s' := by
  cases ops : s.running.ops with
  | nil => simp [exec,ops] at taken
  | cons op rest =>
    rw [ops] at brackets
    cases op with
    | acquire lock =>
      obtain ⟨free,later⟩ := brackets
      simp only [exec,ops,holds_none holds free lock,Option.some.injEq] at taken
      subst taken
      exact ⟨saved,.plain (some lock) later (holds_acquire holds free rfl)⟩
    | release lock =>
      obtain ⟨rfl,later⟩ := brackets
      simp only [exec,ops,Option.some.injEq] at taken
      subst taken
      exact ⟨saved,.plain none later (holds_release holds rfl)⟩
    | kvlog | link =>
      simp only [exec,ops,Option.some.injEq] at taken
      subst taken
      exact ⟨saved,.plain held brackets.2 holds⟩
    | unlink caller =>
      obtain ⟨rfl,later⟩ := brackets
      simp only [exec,ops,Option.some.injEq] at taken
      subst taken
      exact ⟨saved,.plain (some .run_queue) ⟨rfl,rfl,later⟩ holds⟩
    | makeReady | setRunning | iretq | setIdle =>
      obtain ⟨rfl,later⟩ := brackets
      simp only [exec,ops,Option.some.injEq] at taken
      subst taken
      exact ⟨saved,.plain none later holds⟩
    | setDead =>
      obtain ⟨rfl,later⟩ := brackets
      simp only [exec,ops] at taken
      obtain ⟨t,_,rfl⟩ := Option.map_eq_some_iff.mp taken
      exact ⟨saved,.plain none later holds⟩
    | setCurrent old next =>
      obtain ⟨rfl,later⟩ := brackets
      simp only [exec,ops,Option.some.injEq] at taken
      subst taken
      exact ⟨saved,.plain none ⟨rfl,later⟩ holds⟩
    | save old new =>
      obtain ⟨rfl,later⟩ := brackets
      simp only [exec,ops,Option.some.injEq] at taken
      subst taken
      refine ⟨?_,.plain none ⟨rfl,later⟩ holds⟩
      exact (Function.forall_update_iff s.rsp (fun _ context => Bracketed none context.ops)).mpr
        ⟨later,fun t _ => saved t⟩
    | saveIdle =>
      obtain ⟨rfl,later⟩ := brackets
      simp only [exec,ops,Option.some.injEq] at taken
      subst taken
      refine ⟨?_,.plain none later holds⟩
      exact (Function.forall_update_iff s.rsp (fun _ context => Bracketed none context.ops)).mpr
        ⟨later,fun t _ => saved t⟩
    | load new =>
      obtain ⟨rfl,_⟩ := brackets
      simp only [exec,ops,Option.some.injEq] at taken
      subst taken
      exact ⟨saved,.plain none (saved new) holds⟩
    | task_exit =>
      obtain ⟨rfl,later⟩ := brackets
      simp only [exec,ops,Option.some.injEq] at taken
      subst taken
      exact ⟨saved,.plain none (bracketed_append bracketed_klog ⟨rfl,rfl,rfl,later⟩) holds⟩
    | worker =>
      obtain ⟨rfl,later⟩ := brackets
      simp only [exec,ops,Option.some.injEq] at taken
      subst taken
      exact ⟨saved,.plain none ⟨rfl,rfl,rfl,later⟩ holds⟩
    | scheduler_yield =>
      obtain ⟨rfl,later⟩ := brackets
      simp only [exec,ops,Option.some.injEq] at taken
      subst taken
      exact ⟨saved,.plain none ⟨rfl,rfl,later⟩ holds⟩
    | dequeued caller next =>
      obtain ⟨rfl,later⟩ := brackets
      simp only [exec,ops,Option.some.injEq] at taken
      subst taken
      exact ⟨saved,.plain none (bracketed_append (bracketed_afterDequeue caller next) later) holds⟩
    | requeue old next =>
      obtain ⟨rfl,later⟩ := brackets
      simp only [exec,ops,Option.some.injEq] at taken
      subst taken
      refine ⟨saved,.plain none (bracketed_append (bracketed_append ?_ (bracketed_switchTo _ next)) later) holds⟩
      cases old with
      | none => exact rfl
      | some t =>
        simp only
        split
        · exact bracketed_enqueue t
        · exact rfl
    | code =>
      obtain ⟨rfl,later⟩ := brackets
      have code : Bracketed none (.code :: rest) := ⟨rfl,later⟩
      simp only [exec,ops] at taken
      split at taken
      · cases taken
        exact ⟨saved,.plain none (bracketed_append bracketed_klog code) holds⟩
      · split at taken
        · contradiction
        · cases taken
          exact ⟨saved,.plain none (bracketed_append (bracketed_append (bracketed_append bracketed_klog bracketed_klog)
            (bracketed_enqueue _)) code) holds⟩
      · cases taken
        exact ⟨saved,.plain none ⟨rfl,code⟩ holds⟩
      · cases taken
        exact ⟨saved,.plain none ⟨rfl,later⟩ holds⟩
      · cases taken
        have worker : Bracketed none (enterWorker : List (Op Task)) :=
          bracketed_append (bracketed_append bracketed_klog ⟨rfl,rfl,bracketed_klog⟩) ⟨rfl,rfl⟩
        exact ⟨saved,.plain none (bracketed_append worker later) holds⟩
      · contradiction

/-- A step of such a handler. -/
theorem handling_step {choice : Choice Task} {h : Handler} {rest : List (Op Task)}
    (saved : ∀ t, Bracketed none (s.rsp t).ops) (ops : s.running.ops = h.ops s.current ++ rest)
    (brackets : Bracketed (some .klog_lock) rest) (logging : (s.locked .klog_lock).isSome = true)
    (queueing : (s.locked .run_queue).isSome = h.locks) (masked : s.interrupts = false) (quiet : Quiet s)
    (taken : exec c s choice = some s') : Invariant s' := by
  obtain ⟨⟨sched,klogKept,rsp,current,_⟩,outcome⟩ := quiet_step quiet ops taken
  have saved' : ∀ t, Bracketed none (s'.rsp t).ops := by rwa [rsp]
  have quiet' : Quiet s' := by rwa [Quiet,sched,current]
  rcases outcome with ⟨h',ops',flag,queueing'⟩ | ⟨ops',_,queueKept,unlocked⟩
  · exact ⟨saved',.handling h' rest (current ▸ ops') brackets (klogKept ▸ logging) (queueing' queueing)
      (flag.trans masked) quiet'⟩
  · refine ⟨saved',.plain (some .klog_lock) (by rwa [ops']) ?_⟩
    intro lock
    cases lock with
    | run_queue => simp [queueKept,queueing,unlocked]
    | klog_lock => simpa [klogKept] using logging

theorem initial_invariant (started : Started c s) : Invariant s := by
  refine ⟨fun t => ?_,.plain none ?_ ?_⟩
  · rw [started.rsp]
    split
    · exact rfl
    · exact ⟨rfl,rfl⟩
  · rw [started.running]
    exact ⟨rfl,rfl⟩
  · intro lock
    simp [started.locked]

theorem step_invariant {a : Action Task} (inv : Invariant s) (unlocked : Unlocked s a) (taken : step c s a = some s') :
    Invariant s' := by
  obtain ⟨saved,running⟩ := inv
  cases a with
  | tick => exact tick_step ⟨saved,running⟩ unlocked taken
  | step choice =>
    cases running with
    | plain held brackets holds => exact plain_step saved brackets holds taken
    | handling h rest ops brackets logging queueing masked quiet =>
      exact handling_step saved ops brackets logging queueing masked quiet taken

/-- As long as ticks find the locks free, or find `klog_lock` locked and yield
    to nobody, the processor never waits for itself. -/
theorem spinlocks_live (reached : ((bootProcessor c).restrict Unlocked).Reachable s) : ¬ Deadlocked s := by
  have inv : Invariant s := by
    refine reached.invariant (P := Invariant) (fun s started => initial_invariant started) ?_
    exact fun s a s' inv step => step_invariant inv step.1 step.2
  exact inv.live

end

/-- A tick arrives while `kernel_main` enqueues its first task and holds `run_queue.lock`. -/
theorem spinlocks_deadlock : ∃ s, (bootProcessor sampleLocals).Reachable s ∧ Deadlocked s ∧
    s.locked .run_queue = some s.running.stack ∧ ∀ choice, step sampleLocals s (.step choice) = some s := by
  have locked := (System.reachable_initial (M := bootProcessor sampleLocals) sample_started).run
    (@run_steps _ _ _ _ _ (fun _ _ => True) (fun _ _ => trivial) (.spawn 1 :: List.replicate 8 .klog) rfl).unrestricted
  have ticked := (locked.step (a := Action.tick) rfl).step (a := Action.step Choice.klog) rfl
  exact ⟨_,ticked,⟨.run_queue,.boot (),_,rfl,rfl,rfl⟩,rfl,fun _ => rfl⟩

/-- A tick between two steps of `kernel_main` that hold no lock. -/
theorem spinlocks_live_one_tick : ∃ s, ((bootProcessor sampleLocals).restrict Unlocked).Reachable s ∧
    s.interrupts = false ∧ ¬ Deadlocked s := by
  have free (s : State Nat) (choice : Choice Nat) : Unlocked s (.step choice) := fun impossible => by contradiction
  have enqueued := (System.reachable_initial (M := (bootProcessor sampleLocals).restrict Unlocked) sample_started).run
    (@run_steps _ _ _ _ _ _ free (.spawn 1 :: List.replicate 10 .klog) rfl)
  have ticked := (enqueued.step (a := Action.tick) ⟨fun _ => ⟨rfl,.inl rfl⟩,rfl⟩).run
    (@run_steps _ _ _ _ _ _ free [.klog,.klog] rfl)
  exact ⟨_,ticked,rfl,spinlocks_live ticked⟩

end NekoOs.Spinlocks
