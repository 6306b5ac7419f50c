import NekoOs.Contexts
import NekoOs.Custody
import NekoOs.Spinlocks

/-!
Tasks between the run queue and the processor. A task that `scheduler_dequeue`
has returned is only known to the code that called it, until that code switches
to it. A tick there may abandon the code: `task_exit` yields for a task that is
dead, and a task that has put itself into the queue is no longer `TASK_RUNNING`.
-/
namespace NekoOs.Handover
open RunQueue TaskState Transitions Preemption
open Scheduler (Locals Stack isRunning)
open Contexts (Switching)
open Custody (Threads)
open Spinlocks (Deadlocked Unlocked)
universe v

section
variable {Task : Type v}

/-- The task that a step puts into the queue or goes on to switch to. -/
def hand : Op Task → Option Task
  | .link t | .dequeued _ (some t) | .requeue _ t | .setCurrent _ t => some t
  | _ => none

/-- A task in the local variables of code with these steps to do. -/
def InHand (ops : List (Op Task)) (t : Task) : Prop := ∃ op ∈ ops, hand op = some t

variable [DecidableEq Task] (c : Locals Unit Task)

/-- The idle task lives on the boot stack. -/
def stackOf (t : Task) : Stack Unit Task := if t = c.idle () then .boot () else .own t

/-- The steps that remain to be done by a task, whether it runs or not. -/
def pending (s : State Task) (t : Task) : List (Op Task) :=
  if s.running.stack = stackOf c t then s.running.ops else (s.rsp t).ops

/-- The run queue holds a list, and leads to a task: it waits there or is current,
    or it is the idle task, which runs when the queue is empty, or such a task has it in hand. -/
inductive Leads (s : State Task) (l : List Task) : Task → Prop
  | current {t : Task} : s.current = some t → Leads s l t
  | queued {t : Task} : t ∈ l → Leads s l t
  | idle : Leads s l (c.idle ())
  | held {u t : Task} : Leads s l u → InHand (pending c s u) t → Leads s l t

/-- A task that can be resumed. None can once the processor spins with interrupts
    disabled on a lock, also if the code below the handler that spins is current. -/
def Resumable (s : State Task) (l : List Task) (t : Task) : Prop := ¬ Deadlocked s ∧ Leads c s l t

/-- Every task that is not dead is in the run queue, or current, or in the hand
    of a task that can be resumed. -/
def Kept (s : State Task) : Prop :=
  ∃ l, Queue s.sched l ∧ ∀ t, s.created t = true → s.sched.state t ≠ TASK_DEAD →
    t ∈ l ∨ s.current = some t ∨ ∃ u, Resumable c s l u ∧ InHand (pending c s u) t

/-- A tick arrives while `run_queue.lock` is free, and `klog_lock` too unless its
    `scheduler_yield` returns at once. None arrives between the store of
    `cpu->current` and the load of the stack pointer, unless it returns at once.
    And none arrives while a task that is not `TASK_RUNNING` has another one in
    hand, unless it is dead and has only the idle task. -/
def Harmless (s : State Task) (a : Action Task) : Prop :=
  Unlocked s a ∧ (a = .tick → (Switching s = true → Quiet s) ∧
    ∀ t u, s.running.stack = .own t → InHand s.running.ops u →
      s.sched.state t = TASK_RUNNING ∨ s.sched.state t = TASK_DEAD ∧ u = c.idle ())

/-! ### Shapes of code -/

/-- The tasks in hand, other than the one whose code it is. -/
def hands (u : Task) (ops : List (Op Task)) : List Task := (ops.filterMap hand).filter (fun t => t ≠ u)

/-- The next thing that happens to the task is that it becomes current. -/
def Armed (n : Task) : List (Op Task) → Prop
  | [] => False
  | .setRunning t :: rest => t ≠ n ∧ Armed n rest
  | .setCurrent _ t :: rest => t = n ∨ Armed n rest
  | _ :: rest => Armed n rest

/-- A step of `scheduler_yield`, up to where the task itself is in the queue. -/
def yields (u : Task) : Op Task → Bool
  | .scheduler_yield | .unlink (.scheduler_yield _) | .dequeued (.scheduler_yield _) _ | .requeue _ _ => true
  | .makeReady t | .link t => t = u
  | _ => false

def Passive (u : Task) (ops : List (Op Task)) : Prop := ∀ op ∈ ops, yields u op = false

/-- A task that waits in the queue or is about to, up to its switch to the next one. -/
inductive Leaving
  | acquiring | linking | releasing | marking | storing
deriving DecidableEq, Repr

def Leaving.ops (t next : Task) : Leaving → List (Op Task)
  | .acquiring => [.acquire .run_queue,.link t,.release .run_queue,.setRunning next,.setCurrent t next]
  | .linking => [.link t,.release .run_queue,.setRunning next,.setCurrent t next]
  | .releasing => [.release .run_queue,.setRunning next,.setCurrent t next]
  | .marking => [.setRunning next,.setCurrent t next]
  | .storing => [.setCurrent t next]

def Leaving.linked : Leaving → Bool
  | .acquiring | .linking => false
  | .releasing | .marking | .storing => true

/-- The `scheduler_yield` of a task that does not stay `TASK_RUNNING`. -/
inductive Resigning (Task : Type v)
  | entered | acquiring | unlinking
  | releasing (next : Option Task)
  | testing (next : Option Task)
  | requeueing (next : Task)
  | marking (next : Task)
  | storing (next : Task)
deriving DecidableEq, Repr

def Resigning.ops (current : Option Task) : Resigning Task → List (Op Task)
  | .entered => [.scheduler_yield]
  | .acquiring => [.acquire .run_queue,.unlink (.scheduler_yield current)]
  | .unlinking => [.unlink (.scheduler_yield current)]
  | .releasing next => [.release .run_queue,.dequeued (.scheduler_yield current) next]
  | .testing next => [.dequeued (.scheduler_yield current) next]
  | .requeueing next => [.requeue current next]
  | .marking next => switchTo (current.getD (c.idle ())) next
  | .storing next => [.setCurrent (current.getD (c.idle ())) next]

/-- The task it switches to. -/
def Resigning.next : Resigning Task → Option Task
  | .entered | .acquiring | .unlinking => none
  | .releasing next | .testing next => next
  | .requeueing next | .marking next | .storing next => some next

/-- What a step of a task says about the steps after it. -/
def After (u : Task) (rest : List (Op Task)) : Op Task → Prop
  | .code => rest = []
  | .task_exit => u ≠ c.idle () ∧ rest = []
  | .worker => u = c.idle () ∧ rest = []
  | .setDead => u ≠ c.idle () ∧ ∃ tail, rest = .scheduler_yield :: tail ∧ hands u tail = []
  | .makeReady t => t ≠ u ∧ ∃ tail, rest = .acquire .run_queue :: .link t :: tail
  | .link t => t ≠ u
  | .setRunning t => u = c.idle () ∧ ∃ tail, rest = .setCurrent u t :: tail
  | .setCurrent old t => u = c.idle () ∧ old = u ∧ t ≠ u ∧ Passive u rest
  | .unlink .worker => u = c.idle () ∧ Passive u rest
  | .dequeued .worker next => u = c.idle () ∧ next ≠ some u ∧ Passive u rest
  | .scheduler_yield | .iretq _ => u = c.idle () → Passive u rest
  | .unlink (.scheduler_yield old) => old = some u ∧ (u = c.idle () → Passive u rest)
  | .dequeued (.scheduler_yield old) next => old = some u ∧ next ≠ some u ∧ (u = c.idle () → Passive u rest)
  | .requeue old next => old = some u ∧ next ≠ u ∧ (u = c.idle () → Passive u rest)
  | .saveIdle | .setIdle => u = c.idle ()
  | .save _ _ | .load _ => False
  | .acquire _ | .release _ | .kvlog => True

/-- The code of a task that is `TASK_RUNNING` when it runs, or of the idle task. -/
inductive Shaped (u : Task) : List (Op Task) → Prop
  | nil : Shaped u []
  | cons {op : Op Task} {rest : List (Op Task)} : After c u rest op → Shaped u rest → Shaped u (op :: rest)
  | requeues {n : Task} {base : List (Op Task)} : n ≠ u → (u = c.idle () → Passive u base) → Shaped u base →
      Shaped u (.makeReady u :: Leaving.acquiring.ops u n ++ base)

/-- The code of a task that does not run. -/
structure Parked (u : Task) (ops : List (Op Task)) : Prop where
  shaped : Shaped c u ops
  distinct : (hands u ops).Nodup
  passive : u = c.idle () → Passive u ops

/-! ### The invariant -/

/-- The run queue and the tasks in hand. -/
def custody (s : State Task) (l : List Task) : Threads Task :=
  ⟨s.current.getD (c.idle ()),l,c.idle (),fun u => hands u (pending c s u)⟩

/-- What holds of all tasks, where `r` is the one whose stack is in use. -/
structure Core (s : State Task) (r : Task) (l : List Task) : Prop where
  place : s.running.stack = stackOf c r
  filed : ∀ t, t ≠ r → (s.rsp t).stack = stackOf c t
  queue : Queue s.sched l
  sound : (custody c s l).Sound
  kept : ∀ t, s.created t = true → s.sched.state t ≠ TASK_DEAD → (custody c s l).Live t
  known : ∀ t, (custody c s l).Live t → s.created t = true ∨ t = c.idle ()
  fresh : ∀ t, s.created t = false → t ≠ c.idle () → (s.rsp t).ops = [.code]
  notIdle : s.created (c.idle ()) = false
  parked : ∀ t, (custody c s l).Live t → t ≠ r → Parked c t (s.rsp t).ops
  armed : ∀ n, n ≠ c.idle () → Armed n (pending c s (c.idle ())) → s.sched.state n = TASK_RUNNING

/-- Code that will be resumed where it stops. -/
structure Steady (s : State Task) (r : Task) (l : List Task) : Prop where
  absent : r ∉ l
  mine : s.current.getD (c.idle ()) = r
  shaped : Shaped c r s.running.ops
  distinct : (hands r s.running.ops).Nodup
  runs : s.current = some r ∧ s.sched.state r = TASK_RUNNING ∧
      (r = c.idle () → Passive r s.running.ops ∨ s.interrupts = false) ∨
    r = c.idle () ∧ Passive r s.running.ops

structure Leaves (s : State Task) (r : Task) (l : List Task) (at' : Leaving) (n : Task) (base : List (Op Task)) : Prop where
  ops : s.running.ops = at'.ops r n ++ base
  linked : r ∈ l ↔ at'.linked = true
  mine : s.current.getD (c.idle ()) = r
  other : n ≠ r
  waits : s.sched.state r = TASK_READY
  shaped : Shaped c r base
  distinct : (n :: hands r base).Nodup
  masked : r = c.idle () → s.interrupts = false ∧ Passive r base
  ready : at' = .storing → s.sched.state n = TASK_RUNNING

structure Resigns (s : State Task) (r : Task) (l : List Task) (at' : Resigning Task) (base : List (Op Task)) : Prop where
  ops : s.running.ops = at'.ops c s.current ++ base
  mine : s.current.getD (c.idle ()) = r
  absent : r ∉ l
  stopped : (∀ n, at' ≠ .storing n) → isRunning s.sched s.current = false
  other : ∀ n, at'.next = some n → n = r → r = c.idle ()
  leaves : r ≠ c.idle () ∧ s.sched.state r = TASK_DEAD ∧ (∀ t ∈ hands r base, t = c.idle ()) ∨
    r = c.idle () ∧ s.interrupts = false ∧ Parked c r base ∧ ∀ n, at'.next = some n → n ∉ hands r base
  alone : at' = .releasing none ∨ at' = .testing none → l = []
  ready : ∀ n, at' = .storing n → s.sched.state n = TASK_RUNNING

structure Switches (s : State Task) (r : Task) (l : List Task) (above : Option Handler) (n : Task) (base : List (Op Task)) : Prop where
  ops : s.running.ops = above.elim [] (Handler.ops s.current) ++ .save r n :: base ∨
    s.running.ops = above.elim [] (Handler.ops s.current) ++ .load n :: base ∧ s.rsp r = ⟨s.running.stack,base⟩
  quiet : ∀ handler, above = some handler → s.interrupts = false ∧ Quiet s
  current : s.current = some n
  absent : n ∉ l
  ready : s.sched.state n = TASK_RUNNING
  parked : (custody c s l).Live r → Parked c r base
  same : n = r → r = c.idle ()
  known : s.created r = true ∨ r = c.idle ()

inductive Mode (s : State Task) (r : Task) (l : List Task) : Prop
  | steady : Steady c s r l → Mode s r l
  | leaving (at' : Leaving) (n : Task) (base : List (Op Task)) : Leaves c s r l at' n base → Mode s r l
  | resigning (at' : Resigning Task) (base : List (Op Task)) : Resigns c s r l at' base → Mode s r l
  | switching (above : Option Handler) (n : Task) (base : List (Op Task)) : Switches c s r l above n base → Mode s r l

def Invariant (s : State Task) : Prop := ∃ r l, Core c s r l ∧ Mode c s r l

end

section
variable {Task : Type v} [DecidableEq Task] {c : Locals Unit Task} {s s' : State Task}
  {r t u n : Task} {l l' : List Task}
  {op : Op Task} {ops ops' rest base : List (Op Task)}

/-! ### Tasks in hand -/

@[simp] theorem hands_nil : hands u [] = [] := rfl

theorem hands_skip (none : hand op = none) : hands u (op :: rest) = hands u rest := by
  rw [hands,List.filterMap_cons,none,hands]

theorem hands_own (own : hand op = some u) : hands u (op :: rest) = hands u rest := by
  rw [hands,List.filterMap_cons,own,hands]
  exact List.filter_cons_of_neg (by simp)

theorem hands_some (some : hand op = some t) (other : t ≠ u) : hands u (op :: rest) = t :: hands u rest := by
  rw [hands,List.filterMap_cons,some,hands]
  exact List.filter_cons_of_pos (by simpa using other)

theorem mem_hands : t ∈ hands u ops ↔ InHand ops t ∧ t ≠ u := by
  simp [hands,InHand]

@[simp] theorem hands_klog : hands u (klog ++ rest) = hands u rest := rfl

/-- A handler that yields to nobody has nobody in hand. -/
theorem hands_above (above : Option Handler) (current : Option Task) :
    hands u (above.elim [] (Handler.ops current) ++ rest) = hands u rest := by
  cases above with
  | none => rfl
  | some handler => cases handler <;> rfl

omit [DecidableEq Task] in
theorem armed_above (above : Option Handler) (current : Option Task) :
    Armed n (above.elim [] (Handler.ops current) ++ rest) ↔ Armed n rest := by
  cases above with
  | none => rfl
  | some handler => cases handler <;> rfl

omit [DecidableEq Task] in
/-- A task that is about to become current is in hand. -/
theorem armed_inHand (armed : Armed n ops) : InHand ops n := by
  induction ops with
  | nil => exact armed.elim
  | cons op rest ih =>
    have later (armed : Armed n rest) : InHand (op :: rest) n := by
      obtain ⟨member,found,held⟩ := ih armed
      exact ⟨member,List.mem_cons_of_mem op found,held⟩
    cases op with
    | setRunning t => exact later armed.2
    | setCurrent old t =>
      rcases armed with rfl | armed
      · exact ⟨.setCurrent old t,List.mem_cons_self,rfl⟩
      · exact later armed
    | _ => exact later armed

theorem passive_cons : Passive u (op :: rest) ↔ yields u op = false ∧ Passive u rest := List.forall_mem_cons

theorem passive_append : Passive u (ops ++ rest) ↔ Passive u ops ∧ Passive u rest := List.forall_mem_append

theorem passive_klog : Passive u klog := by simp [Passive,klog,yields]

/-! ### Shapes -/

theorem shaped_tail (shaped : Shaped c u (op :: rest)) (other : ∀ t, op ≠ .makeReady t) :
    After c u rest op ∧ Shaped c u rest := by
  cases shaped with
  | cons after later => exact ⟨after,later⟩
  | requeues => exact (other u rfl).elim

theorem shaped_klog (shaped : Shaped c u rest) : Shaped c u (klog ++ rest) :=
  .cons trivial (.cons trivial (.cons trivial shaped))

theorem shaped_enqueue (other : t ≠ u) (shaped : Shaped c u rest) : Shaped c u (enqueue t ++ rest) :=
  .cons ⟨other,_,rfl⟩ (.cons trivial (.cons other (.cons trivial shaped)))

/-! ### Stacks -/

theorem stackOf_injective (same : stackOf c t = stackOf c u) : t = u := by
  unfold stackOf at same
  by_cases first : t = c.idle () <;> by_cases second : u = c.idle ()
  · exact first.trans second.symm
  · rw [if_pos first,if_neg second] at same
    cases same
  · rw [if_neg first,if_pos second] at same
    cases same
  · rw [if_neg first,if_neg second] at same
    exact Stack.own.inj same

theorem stackOf_own (own : stackOf c t = .own u) : u = t ∧ t ≠ c.idle () := by
  unfold stackOf at own
  by_cases idle : t = c.idle ()
  · rw [if_pos idle] at own
    cases own
  · rw [if_neg idle] at own
    exact ⟨(Stack.own.inj own).symm,idle⟩

theorem stackOf_boot {i : Unit} (boot : stackOf c t = .boot i) : t = c.idle () := by
  by_contra busy
  rw [stackOf,if_neg busy] at boot
  cases boot

theorem pending_here (place : s.running.stack = stackOf c r) : pending c s r = s.running.ops := if_pos place

theorem pending_away (place : s.running.stack = stackOf c r) (other : u ≠ r) : pending c s u = (s.rsp u).ops :=
  if_neg (fun same => other (stackOf_injective (same.symm.trans place)))

/-! ### What every step keeps -/

/-- The stack stays in use, with other steps to do, and nothing is saved. -/
structure Onward (s s' : State Task) (ops : List (Op Task)) : Prop where
  running : s'.running = ⟨s.running.stack,ops⟩
  rsp : s'.rsp = s.rsp

theorem Onward.place (onward : Onward s s' ops) (place : s.running.stack = stackOf c r) :
    s'.running.stack = stackOf c r := by
  rw [onward.running]
  exact place

theorem Onward.pending_here (onward : Onward s s' ops) (place : s.running.stack = stackOf c r) :
    pending c s' r = ops := by
  rw [Handover.pending_here (onward.place place),onward.running]

theorem Onward.pending_away (onward : Onward s s' ops) (place : s.running.stack = stackOf c r) (other : u ≠ r) :
    pending c s' u = pending c s u := by
  rw [Handover.pending_away (onward.place place) other,Handover.pending_away place other,onward.rsp]

theorem Onward.grasps (onward : Onward s s' ops) (place : s.running.stack = stackOf c r)
    (mine : s.current.getD (c.idle ()) = r) :
    Threads.Grasps (custody c s l) (custody c s' l') (hands r ops) := by
  subst mine
  refine ⟨rfl,?_,?_⟩
  · exact congrArg (hands _) (onward.pending_here place)
  · intro u other
    exact congrArg (hands u) (onward.pending_away place other)

theorem custody_here (place : s.running.stack = stackOf c r) : (custody c s l).holds r = hands r s.running.ops :=
  congrArg (hands r) (Handover.pending_here place)

theorem Onward.custody_eq (onward : Onward s s' ops) (place : s.running.stack = stackOf c r)
    (current : s'.current.getD (c.idle ()) = s.current.getD (c.idle ())) (same : hands r ops = hands r s.running.ops) :
    custody c s' l = custody c s l := by
  unfold custody
  rw [current]
  refine congrArg _ (funext fun u => ?_)
  by_cases here : u = r
  · subst here
    rw [onward.pending_here place,Handover.pending_here place,same]
  · rw [onward.pending_away place here]

theorem Core.onward (core : Core c s r l) (onward : Onward s s' ops) (created : s'.created = s.created)
    (queue : Queue s'.sched l') (sound : (custody c s' l').Sound)
    (back : ∀ t, (custody c s' l').Live t → (custody c s l).Live t)
    (kept : ∀ t, s.created t = true → s'.sched.state t ≠ TASK_DEAD → (custody c s' l').Live t)
    (arms : ∀ n, n ≠ c.idle () → Armed n (pending c s (c.idle ())) → s'.sched.state n = TASK_RUNNING)
    (here : r = c.idle () → ∀ n, n ≠ c.idle () → Armed n ops → Armed n s.running.ops ∨
    s'.sched.state n = TASK_RUNNING) :
    Core c s' r l' := by
  refine ⟨onward.place core.place,?_,queue,sound,?_,?_,?_,?_,?_,?_⟩
  · rw [onward.rsp]
    exact core.filed
  · rw [created]
    exact kept
  · rw [created]
    exact fun t live => core.known t (back t live)
  · rw [created,onward.rsp]
    exact core.fresh
  · rw [created]
    exact core.notIdle
  · rw [onward.rsp]
    exact fun t live => core.parked t (back t live)
  · intro n busy armed
    by_cases idle : r = c.idle ()
    · subst idle
      rw [onward.pending_here core.place] at armed
      rcases here rfl n busy armed with before | runs
      · exact arms n busy (by rwa [Handover.pending_here core.place])
      · exact runs
    · rw [onward.pending_away core.place (Ne.symm idle)] at armed
      exact arms n busy armed

/-- A step after which everybody has the same tasks in hand. -/
theorem Core.silent (core : Core c s r l) (onward : Onward s s' ops) (created : s'.created = s.created)
    (queue : Queue s'.sched l) (current : s'.current.getD (c.idle ()) = s.current.getD (c.idle ()))
    (same : hands r ops = hands r s.running.ops)
    (states : ∀ t, s'.sched.state t ≠ TASK_DEAD → s.sched.state t ≠ TASK_DEAD ∨ (custody c s l).Live t)
    (arms : ∀ n, n ≠ c.idle () → Armed n (pending c s (c.idle ())) → s'.sched.state n = TASK_RUNNING)
    (here : r = c.idle () → ∀ n, n ≠ c.idle () → Armed n ops → Armed n s.running.ops ∨
    s'.sched.state n = TASK_RUNNING) :
    Core c s' r l := by
  have equal := onward.custody_eq (l := l) core.place current same
  refine core.onward onward created queue (equal ▸ core.sound) (fun t live => equal ▸ live) ?_ arms here
  intro t old alive
  rw [equal]
  exact (states t alive).elim (core.kept t old) id

/-- A step that leaves the scheduler as it is. -/
theorem Core.goes_on (core : Core c s r l) (onward : Onward s s' ops) (created : s'.created = s.created)
    (sched : s'.sched = s.sched) (current : s'.current.getD (c.idle ()) = s.current.getD (c.idle ()))
    (same : hands r ops = hands r s.running.ops) (arms : ∀ n, Armed n ops → Armed n s.running.ops) :
    Core c s' r l := by
  refine core.silent onward created (sched ▸ core.queue) current same ?_ ?_ (fun _ n _ armed => .inl (arms n armed))
  · rw [sched]
    exact fun t alive => .inl alive
  · rw [sched]
    exact core.armed

/-- The idle task is not about to make a task current that runs or that a running task has in hand. -/
theorem Core.unarmed (core : Core c s r l) (busy : t ≠ c.idle ()) (mine : s.current.getD (c.idle ()) = r)
    (place : t = r ∨ r ≠ c.idle () ∧ t ∈ hands r s.running.ops) : ¬ Armed t (pending c s (c.idle ())) := by
  intro armed
  have held : t ∈ (custody c s l).holds (c.idle ()) := mem_hands.mpr ⟨armed_inHand armed,busy⟩
  have running : (custody c s l).running = r := mine
  rcases place with rfl | ⟨other,here⟩
  · have free := core.sound.free (c.idle ()) Threads.live_idle
    rw [running] at free
    exact free held
  · have live : (custody c s l).Live r := running ▸ Threads.live_running
    exact other (core.sound.single r (c.idle ()) t live Threads.live_idle (custody_here core.place ▸ here) held)

/-! ### Steps that move a task -/

/-- `scheduler_dequeue` hands the first task to the code that runs. -/
theorem Core.takes (core : Core c s r (t :: l)) (onward : Onward s s' ops) (created : s'.created = s.created)
    (sched : s'.sched = (scheduler_dequeue s.sched).2) (current : s'.current = s.current)
    (mine : s.current.getD (c.idle ()) = r) (absent : r ∉ t :: l) (hands : hands r ops = t :: hands r s.running.ops)
    (arms : ∀ n, Armed n ops → Armed n s.running.ops) :
    Core c s' r l := by
  obtain ⟨_,queue,states⟩ := core.queue.dequeue_cons
  have grasps : Threads.Grasps (custody c s (t :: l)) (custody c s' l) (t :: (custody c s (t :: l)).holds r) := by
    rw [custody_here core.place,← hands]
    exact onward.grasps core.place mine
  have running : (custody c s' l).running = (custody c s (t :: l)).running := by
    simp only [custody,current]
  subst mine
  have same : s'.sched.state = s.sched.state := sched ▸ states
  refine core.onward onward created (sched ▸ queue) ?_ ?_ ?_ ?_ (fun _ n _ armed => .inl (arms n armed))
  · exact core.sound.take grasps running rfl core.queue.distinct absent
  · exact fun u live => Threads.take_back grasps running rfl live
  · intro u old alive
    exact Threads.take_live grasps running rfl (core.kept u old (same ▸ alive))
  · rw [same]
    exact core.armed

/-- What `scheduler_enqueue` does for a task in hand. -/
theorem Core.puts (core : Core c s r l) (onward : Onward s s' ops) (created : s'.created = s.created)
    (sched : s'.sched = s.sched.link t) (current : s'.current = s.current) (mine : s.current.getD (c.idle ()) = r)
    (held : hands r s.running.ops = t :: hands r ops) (once : t ∉ hands r ops)
    (arms : ∀ n, Armed n ops → Armed n s.running.ops) :
    Core c s' r (l ++ [t]) := by
  have grasps : Threads.Grasps (custody c s l) (custody c s' (l ++ [t])) (hands r ops) := onward.grasps core.place mine
  have running : (custody c s' (l ++ [t])).running = (custody c s l).running := by
    simp only [custody,current]
  have here : (custody c s l).holds r = t :: hands r ops := (custody_here core.place).trans held
  subst mine
  have puts := core.sound.puts_held grasps here once running rfl
  have absent : t ∉ l := core.sound.queued _ t Threads.live_running (here ▸ List.mem_cons_self)
  have same : s'.sched.state = s.sched.state := by rw [sched,link_state]
  refine core.onward onward created (sched ▸ core.queue.link absent) (core.sound.put puts)
    (fun u live => puts.back live) ?_ ?_
    (fun _ n _ armed => .inl (arms n armed))
  · rw [same]
    exact fun u old alive => puts.keeps (core.kept u old alive)
  · rw [same]
    exact core.armed

/-- What it does for the task that runs. -/
theorem Core.puts_running (core : Core c s r l) (onward : Onward s s' ops) (created : s'.created = s.created)
    (sched : s'.sched = s.sched.link r) (current : s'.current = s.current) (mine : s.current.getD (c.idle ()) = r)
    (absent : r ∉ l) (hands : hands r ops = hands r s.running.ops) (arms : ∀ n, Armed n ops → Armed n s.running.ops) :
    Core c s' r (l ++ [r]) := by
  have grasps : Threads.Grasps (custody c s l) (custody c s' (l ++ [r])) ((custody c s l).holds r) := by
    rw [custody_here core.place,← hands]
    exact onward.grasps core.place mine
  have running : (custody c s' (l ++ [r])).running = (custody c s l).running := by
    simp only [custody,current]
  subst mine
  have puts := core.sound.puts_running grasps running rfl
  have same : s'.sched.state = s.sched.state := by rw [sched,link_state]
  refine core.onward onward created (sched ▸ core.queue.link absent) (core.sound.put puts)
    (fun u live => puts.back live) ?_ ?_
    (fun _ n _ armed => .inl (arms n armed))
  · rw [same]
    exact fun u old alive => puts.keeps (core.kept u old alive)
  · rw [same]
    exact core.armed

/-- `scheduler_yield` turns to the idle task. -/
theorem Core.turns (core : Core c s r []) (onward : Onward s s' ops) (created : s'.created = s.created)
    (sched : s'.sched = s.sched) (current : s'.current = s.current) (mine : s.current.getD (c.idle ()) = r)
    (busy : r ≠ c.idle ()) (hands : hands r ops = c.idle () :: hands r s.running.ops)
    (only : ∀ t ∈ Handover.hands r s.running.ops, t = c.idle ()) (arms : ∀ n, Armed n ops → Armed n s.running.ops) :
    Core c s' r [] := by
  have grasps : Threads.Grasps (custody c s []) (custody c s' []) (c.idle () :: (custody c s []).holds r) := by
    rw [custody_here core.place,← hands]
    exact onward.grasps core.place mine
  have running : (custody c s' []).running = (custody c s []).running := by
    simp only [custody,current]
  have here : ∀ v ∈ (custody c s []).holds r, v = c.idle () := by
    rw [custody_here core.place]
    exact only
  subst mine
  refine core.onward onward created (sched ▸ core.queue) ?_ ?_ ?_ ?_ (fun _ n _ armed => .inl (arms n armed))
  · exact core.sound.turn grasps running rfl rfl here busy
  · exact fun u live => Threads.turn_back grasps running rfl live
  · rw [sched]
    exact fun u old alive => Threads.gain_live (t := c.idle ()) grasps running rfl (core.kept u old alive)
  · rw [sched]
    exact core.armed

/-- A new task, in the hand of the task that created it. -/
theorem Core.spawns (core : Core c s r l) (onward : Onward s s' ops)
    (created : s'.created = Function.update s.created t true) (new : s.created t = false) (busy : t ≠ c.idle ())
    (sched : s'.sched = s.sched) (current : s'.current = s.current) (mine : s.current.getD (c.idle ()) = r)
    (hands : hands r ops = t :: hands r s.running.ops)
    (arms : r = c.idle () → ∀ n, n ≠ c.idle () → Armed n ops → Armed n s.running.ops) : Core c s' r l := by
  have unknown : ¬ (custody c s l).Live t := by
    intro live
    rcases core.known t live with old | idle
    · rw [new] at old
      cases old
    · exact busy idle
  have grasps : Threads.Grasps (custody c s l) (custody c s' l) (t :: (custody c s l).holds r) := by
    rw [custody_here core.place,← hands]
    exact onward.grasps core.place mine
  have running : (custody c s' l).running = (custody c s l).running := by
    simp only [custody,current]
  have other : t ≠ r := by
    rintro rfl
    exact unknown (mine ▸ Threads.live_running)
  have empty : (custody c s l).holds t = [] := by
    show Handover.hands t (pending c s t) = []
    rw [pending_away core.place other,core.fresh t new busy]
    rfl
  subst mine
  have back {u : Task} (live : (custody c s' l).Live u) : (custody c s l).Live u ∨ u = t :=
    Threads.gain_back grasps running rfl unknown empty live
  have later {u : Task} (live : (custody c s l).Live u) :
    (custody c s' l).Live u := Threads.gain_live grasps running rfl live
  refine ⟨onward.place core.place,?_,sched ▸ core.queue,core.sound.gain grasps running rfl
    unknown empty,?_,?_,?_,?_,?_,?_⟩
  · rw [onward.rsp]
    exact core.filed
  · intro u old alive
    by_cases same : u = t
    · subst same
      refine (later Threads.live_running).held ?_
      show u ∈ (custody c s' l).holds _
      rw [grasps.same]
      exact List.mem_cons_self
    · rw [created,Function.update_of_ne same] at old
      exact later (core.kept u old (sched ▸ alive))
  · intro u live
    rw [created]
    rcases back live with old | rfl
    · refine (core.known u old).imp_left (fun known => ?_)
      rw [Function.update_apply,known,ite_self]
    · exact .inl (Function.update_self _ _ _)
  · intro u fresh
    have different : u ≠ t := by
      rintro rfl
      rw [created,Function.update_self] at fresh
      cases fresh
    rw [created,Function.update_of_ne different] at fresh
    rw [onward.rsp]
    exact core.fresh u fresh
  · rw [created,Function.update_of_ne busy.symm]
    exact core.notIdle
  · rw [onward.rsp]
    intro u live away
    rcases back live with old | rfl
    · exact core.parked u old away
    · rw [core.fresh u new busy]
      exact ⟨.cons rfl .nil,List.nodup_nil,fun idle => (busy idle).elim⟩
  · intro n other armed
    rw [sched]
    refine core.armed n other ?_
    by_cases idle : s.current.getD (c.idle ()) = c.idle ()
    · have pendingHere := onward.pending_here core.place
      rw [idle] at pendingHere
      rw [pendingHere] at armed
      rw [← idle,pending_here core.place]
      exact arms idle n other armed
    · rwa [onward.pending_away core.place (Ne.symm idle)] at armed

/-- `cpu->current = next`: the task in hand runs. -/
theorem Core.switches (core : Core c s r l) (onward : Onward s s' (.save r n :: base))
    (created : s'.created = s.created) (sched : s'.sched = s.sched) (current : s'.current = some n)
    (mine : s.current.getD (c.idle ()) = r) (held : hands r s.running.ops = n :: hands r base)
    (arms : ∀ n, Armed n base → Armed n s.running.ops)
    (leaves : (r ∈ l ∨ r = c.idle ()) ∧ n ∉ hands r base ∨ r ∉ l ∧ r ≠ c.idle () ∧ s.sched.state r = TASK_DEAD ∧ ∀ t ∈
    hands r base, t = c.idle ()) :
    Core c s' r l ∧ n ≠ r ∧ n ∉ l ∧ ((custody c s' l).Live r → r ∈ l ∨ r = c.idle ()) := by
  have here : (custody c s l).holds r = n :: hands r base := (custody_here core.place).trans held
  have before : (custody c s l).running = r := mine
  have after : (custody c s' l).running = n := by simp only [custody,current,Option.getD_some]
  have live : (custody c s l).Live r := before ▸ Threads.live_running
  have member : n ∈ (custody c s l).holds r := here ▸ List.mem_cons_self
  have switches : Threads.Switches (custody c s l) (custody c s' l) (hands r base) := by
    refine ⟨onward.grasps core.place mine,?_,rfl,?_⟩
    · rw [before,after]
      exact here
    · rw [before,after]
      exact leaves.imp_right (fun ⟨absent,busy,_,only⟩ => ⟨absent,busy,only⟩)
  refine ⟨?_,?_,core.sound.queued r n live member,?_⟩
  · refine core.onward onward created (sched ▸ core.queue) (core.sound.switch switches)
      (fun t later => switches.back later) ?_ ?_
      (fun _ n _ armed => .inl (arms n armed))
    · intro t old alive
      rw [sched] at alive
      refine (switches.keeps (core.kept t old alive)).resolve_right ?_
      rw [before]
      rintro ⟨rfl,absent,busy⟩
      rcases leaves with ⟨stays,_⟩ | ⟨_,_,dead,_⟩
      · exact stays.elim absent busy
      · exact alive dead
    · rw [sched]
      exact core.armed
  · have free := core.sound.free r live
    rw [before] at free
    rintro rfl
    exact free member
  · intro later
    rcases leaves with ⟨stays,_⟩ | ⟨absent,busy,_⟩
    · exact stays
    · have gone : (custody c s l).running ∉ l → (custody c s l).running ≠ c.idle () → r ≠ (custody c s l).running :=
        fun absent busy => switches.gone core.sound absent busy later
      rw [before] at gone
      exact (gone absent busy rfl).elim
/-- The state after the stack pointer of the task `r` is saved. -/
def saving (s : State Task) (r : Task) (saved : Context Task) (ops : List (Op Task)) : State Task :=
  { s with rsp := Function.update s.rsp r saved, running := ⟨s.running.stack,ops⟩ }

theorem saving_here (place : s.running.stack = stackOf c r) (saved : Context Task) :
    pending c (saving s r saved ops) r = ops :=
  if_pos place

theorem saving_away (place : s.running.stack = stackOf c r) (saved : Context Task) (other : u ≠ r) :
    pending c (saving s r saved ops) u = pending c s u := by
  have place' : (saving s r saved ops).running.stack = stackOf c r := place
  rw [pending_away place other,pending_away place' other]
  exact congrArg Context.ops (Function.update_of_ne other _ _)

theorem saving_custody (place : s.running.stack = stackOf c r) (saved : Context Task)
    (same : hands r ops = hands r s.running.ops) :
    custody c (saving s r saved ops) l = custody c s l := by
  refine congrArg _ (funext fun u => ?_)
  by_cases own : u = r
  · subst own
    rw [saving_here place,pending_here place,same]
  · rw [saving_away place saved own]

/-- The stack pointer of the task that runs is saved. -/
theorem Core.saves (core : Core c s r l) (ops : List (Op Task)) (saved : Context Task)
    (same : hands r ops = hands r s.running.ops) (arms : ∀ n, Armed n ops → Armed n s.running.ops)
    (known : s.created r = true ∨ r = c.idle ()) :
    Core c (saving s r saved ops) r l := by
  have equal := saving_custody (l := l) core.place saved same
  refine ⟨core.place,?_,core.queue,equal ▸ core.sound,equal ▸ core.kept,equal ▸ core.known,?_,core.notIdle,?_,?_⟩
  · intro t other
    exact (congrArg Context.stack (Function.update_of_ne other _ _)).trans (core.filed t other)
  · intro t fresh busy
    have other : t ≠ r := by
      rintro rfl
      rcases known with old | idle
      · exact absurd (old.symm.trans fresh) (by simp)
      · exact busy idle
    exact (congrArg Context.ops (Function.update_of_ne other _ _)).trans (core.fresh t fresh busy)
  · rw [equal]
    intro t live other
    show Parked c t (Function.update s.rsp r saved t).ops
    rw [Function.update_of_ne other]
    exact core.parked t live other
  · intro n busy armed
    refine core.armed n busy ?_
    by_cases idle : c.idle () = r
    · rw [idle,saving_here core.place] at armed
      rw [idle,pending_here core.place]
      exact arms n armed
    · rwa [saving_away core.place saved idle] at armed

/-- `mov rsp, [rsi]` -/
theorem Core.loads (core : Core c s r l) (ops : s.running.ops = .load n :: base)
    (saved : s.rsp r = ⟨s.running.stack,base⟩) (parked : (custody c s l).Live r → Parked c r base) :
    Core c { s with running := s.rsp n } n l := by
  let s' : State Task := { s with running := s.rsp n }
  have stack (t : Task) : (s.rsp t).stack = stackOf c t := by
    by_cases same : t = r
    · rw [same,saved]
      exact core.place
    · exact core.filed t same
  have place : s'.running.stack = stackOf c n := stack n
  have code (u : Task) : pending c s' u = (s.rsp u).ops := by
    by_cases same : u = n
    · subst same
      exact pending_here place
    · exact pending_away place same
  have resumed (u : Task) : pending c s u = (s.rsp u).ops ∨ u = r ∧ pending c s u = .load n :: (s.rsp u).ops := by
    by_cases same : u = r
    · subst same
      exact .inr ⟨rfl,by rw [pending_here core.place,ops,saved]⟩
    · exact .inl (pending_away core.place same)
  have equal : custody c s' l = custody c s l := by
    refine congrArg _ (funext fun u => ?_)
    rw [code u]
    rcases resumed u with same | ⟨_,same⟩
    · rw [same]
    · rw [same]
      rfl
  refine ⟨place,fun t _ => stack t,core.queue,equal ▸ core.sound,equal ▸ core.kept,equal ▸
    core.known,core.fresh,core.notIdle,?_,?_⟩
  · rw [equal]
    intro t live _
    by_cases same : t = r
    · subst same
      show Parked c t (s.rsp t).ops
      rw [saved]
      exact parked live
    · exact core.parked t live same
  · intro m busy armed
    refine core.armed m busy ?_
    rw [code] at armed
    rcases resumed (c.idle ()) with same | ⟨_,same⟩
    · rwa [same]
    · rw [same]
      exact armed

/-! ### Steps that change a state -/

/-- `scheduler_enqueue` prepares a task in hand, or the one that runs. -/
theorem Core.readies (core : Core c s r l) (onward : Onward s s' ops) (created : s'.created = s.created)
    (sched : s'.sched = s.sched.makeReady t) (current : s'.current = s.current) (mine : s.current.getD (c.idle ()) = r)
    (same : hands r ops = hands r s.running.ops) (arms : ∀ n, Armed n ops → Armed n s.running.ops)
    (place : t = r ∧ r ∉ l ∨ t ∈ hands r s.running.ops) (disarmed : r = c.idle () → t ≠ r → ¬ Armed t s.running.ops) :
    Core c s' r l := by
  have live : (custody c s l).Live r := (show (custody c s l).running = r from mine) ▸ Threads.live_running
  have here := custody_here (l := l) core.place
  have absent : t ∉ l := by
    rcases place with ⟨rfl,absent⟩ | held
    · exact absent
    · exact core.sound.queued r t live (here ▸ held)
  have states : s'.sched.state = Function.update s.sched.state t TASK_READY := by rw [sched,makeReady_state]
  refine core.silent onward created (sched ▸ core.queue.makeReady absent) (by rw [current]) same ?_ ?_
    (fun _ n _ armed => .inl (arms n armed))
  · intro u alive
    by_cases changed : u = t
    · subst changed
      rcases place with ⟨rfl,_⟩ | held
      · exact .inr live
      · exact .inr (live.held (here ▸ held))
    · rw [states,Function.update_of_ne changed] at alive
      exact .inl alive
  · intro n busy armed
    have changed : n ≠ t := by
      rintro rfl
      by_cases idle : r = c.idle ()
      · rcases place with ⟨rfl,_⟩ | held
        · exact busy idle
        · rw [← idle,pending_here core.place] at armed
          exact disarmed idle (mem_hands.mp held).2 armed
      · refine core.unarmed busy mine ?_ armed
        exact place.imp (fun own => own.1) (fun held => ⟨idle,held⟩)
    rw [states,Function.update_of_ne changed]
    exact core.armed n busy armed

/-- `next->state = TASK_RUNNING` -/
theorem Core.marks (core : Core c s r l) (onward : Onward s s' rest) (created : s'.created = s.created) {cpu : Nat}
    (ops : s.running.ops = .setRunning t :: rest) (sched : s'.sched = s.sched.run t cpu)
    (current : s'.current = s.current) (mine : s.current.getD (c.idle ()) = r)
    (held : t = c.idle () ∨ t ∈ hands r s.running.ops) : Core c s' r l := by
  have live : (custody c s l).Live r := (show (custody c s l).running = r from mine) ▸ Threads.live_running
  have states : s'.sched.state = Function.update s.sched.state t TASK_RUNNING := by rw [sched,run_state]
  refine core.silent onward created (sched ▸ core.queue.run cpu) (by rw [current]) (by rw [ops,hands_skip rfl]) ?_ ?_ ?_
  · intro u alive
    by_cases changed : u = t
    · subst changed
      rcases held with rfl | held
      · exact .inr Threads.live_idle
      · exact .inr (live.held (custody_here core.place ▸ held))
    · rw [states,Function.update_of_ne changed] at alive
      exact .inl alive
  · intro n busy armed
    by_cases changed : n = t
    · rw [states,changed,Function.update_self]
    · rw [states,Function.update_of_ne changed]
      exact core.armed n busy armed
  · intro _ n _ armed
    by_cases changed : t = n
    · rw [states,changed,Function.update_self]
      exact .inr rfl
    · rw [ops]
      exact .inl ⟨changed,armed⟩

/-- `cpu->current->state = TASK_DEAD` -/
theorem Core.dies (core : Core c s r l) (onward : Onward s s' rest) (created : s'.created = s.created)
    (ops : s.running.ops = .setDead :: rest) (sched : s'.sched = s.sched.kill r) (current : s'.current = s.current)
    (mine : s.current.getD (c.idle ()) = r) (busy : r ≠ c.idle ()) : Core c s' r l := by
  have states : s'.sched.state = Function.update s.sched.state r TASK_DEAD := by rw [sched,kill_state]
  refine core.silent onward created (sched ▸ core.queue.kill) (by rw [current]) (by rw [ops,hands_skip rfl]) ?_ ?_
    (fun idle => (busy idle).elim)
  · intro u alive
    by_cases changed : u = r
    · rw [states,changed,Function.update_self] at alive
      exact (alive rfl).elim
    · rw [states,Function.update_of_ne changed] at alive
      exact .inl alive
  · intro n other armed
    have changed : n ≠ r := by
      rintro rfl
      exact core.unarmed other mine (.inl rfl) armed
    rw [states,Function.update_of_ne changed]
    exact core.armed n other armed

end

end NekoOs.Handover
