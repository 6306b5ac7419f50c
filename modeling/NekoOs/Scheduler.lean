import NekoOs.RunQueue
import NekoOs.Transitions

/-!
The scheduler functions as atomic steps of a machine with any number of
processors, and the round robin they give on one processor without interrupts.
-/
namespace NekoOs.Scheduler
open RunQueue TaskState Transitions
universe u v

/-- The stacks of the kernel: each processor boots on one, and each task has its own. -/
inductive Stack (Cpu : Type u) (Task : Type v)
  | boot (i : Cpu)
  | own (t : Task)
deriving DecidableEq, Repr

/-- What `scheduler_init` sets up once: the idle task of each processor, and its APIC id. -/
structure Locals (Cpu : Type u) (Task : Type v) where
  idle : Cpu → Task
  lapic_id : Cpu → Nat

/-- The memory of the scheduler and the stack pointers, in tasks and in processors,
    by the stack they point into. -/
structure Machine (Cpu : Type u) (Task : Type v) where
  sched : Sched Task
  current : Cpu → Option Task
  rsp : Task → Stack Cpu Task
  running : Cpu → Stack Cpu Task

section
variable {Cpu : Type u} {Task : Type v} [DecidableEq Cpu] [DecidableEq Task]

/-- `scheduler_context_switch(old, new)` on a processor. -/
def scheduler_context_switch (m : Machine Cpu Task) (i : Cpu) (old new : Task) : Machine Cpu Task :=
  let rsp := Function.update m.rsp old (m.running i)
  { m with rsp := rsp, running := Function.update m.running i (rsp new) }

/-- `task && task->state == TASK_RUNNING` -/
def isRunning (s : Sched Task) (task : Option Task) : Bool :=
  match task with
  | none => false
  | some t => s.state t = TASK_RUNNING

/-- The part of `scheduler_yield` after the choice of the next task. -/
def switchTo (c : Locals Cpu Task) (m : Machine Cpu Task) (i : Cpu) (old : Option Task) (next : Task) :
    Machine Cpu Task :=
  let sched := match old with
    | none => m.sched
    | some t => if m.sched.state t = TASK_RUNNING then scheduler_enqueue m.sched t else m.sched
  let m := { m with sched := sched.run next (c.lapic_id i), current := Function.update m.current i (some next) }
  scheduler_context_switch m i (old.getD (c.idle i)) next

def scheduler_yield (c : Locals Cpu Task) (m : Machine Cpu Task) (i : Cpu) : Machine Cpu Task :=
  let old := m.current i
  let (next,sched) := scheduler_dequeue m.sched
  let m := { m with sched := sched }
  match next with
  | some next => switchTo c m i old next
  | none => if isRunning sched old then m else switchTo c m i old (c.idle i)

/-- `none` where the code follows a null pointer. -/
def task_exit (c : Locals Cpu Task) (m : Machine Cpu Task) (i : Cpu) : Option (Machine Cpu Task) :=
  (m.current i).map (fun t => scheduler_yield c { m with sched := m.sched.kill t } i)

/-- One iteration of the loop in `cpu_enter_worker`. -/
def worker (c : Locals Cpu Task) (m : Machine Cpu Task) (i : Cpu) : Machine Cpu Task :=
  let (next,sched) := scheduler_dequeue m.sched
  match next with
  | none => { m with sched := sched }
  | some task =>
    let m := { m with sched := sched.run task (c.lapic_id i), current := Function.update m.current i (some task) }
    scheduler_context_switch m i (c.idle i) task

end

section
variable {Cpu : Type u} {Task : Type v} [DecidableEq Cpu] [DecidableEq Task] {c : Locals Cpu Task}
  {m : Machine Cpu Task} {i : Cpu} {l : List Task} {t next : Task}

/-- The queue after a switch away from `t`: a running task goes to its end. -/
def requeued (s : Sched Task) (t : Task) (l : List Task) : List Task :=
  if s.state t = TASK_RUNNING then l ++ [t] else l

/-- What a switch of processor `i` from `t` to `next` leaves. -/
structure Switched (m m' : Machine Cpu Task) (i : Cpu) (t next : Task) (l : List Task) : Prop where
  queue : Queue m'.sched (requeued m.sched t l)
  states : ∀ u, m'.sched.state u =
    if u = next then TASK_RUNNING else if u = t ∧ m.sched.state t = TASK_RUNNING then TASK_READY else m.sched.state u
  current : m'.current = Function.update m.current i (some next)
  rsp : m'.rsp = Function.update m.rsp t (m.running i)
  running : m'.running = Function.update m.running i (m'.rsp next)

theorem switchTo_spec (queue : Queue m.sched l) (absent : t ∉ l) :
    Switched m (switchTo c m i (some t) next) i t next l := by
  by_cases isRunning : m.sched.state t = TASK_RUNNING
  · refine ⟨?_,fun u => ?_,rfl,rfl,rfl⟩
    · simp only [requeued,switchTo,isRunning,if_true,scheduler_context_switch]
      exact (queue.enqueue absent).run _
    · simp only [switchTo,isRunning,if_true,scheduler_context_switch,run_state,enqueue_state,and_true]
      simp only [Function.update_apply]
  · refine ⟨?_,fun u => ?_,rfl,rfl,rfl⟩
    · simp only [requeued,switchTo,isRunning,if_false,scheduler_context_switch]
      exact queue.run _
    · simp only [switchTo,isRunning,if_false,scheduler_context_switch,run_state,and_false]
      simp only [Function.update_apply]

/-- With nothing else to run, a running task returns from the yield. -/
theorem yield_alone (queue : Queue m.sched []) (current : m.current i = some t)
    (running : m.sched.state t = TASK_RUNNING) :
    scheduler_yield c m i = m := by
  simp [scheduler_yield,queue.dequeue_nil,current,isRunning,running]

theorem yield_next (queue : Queue m.sched (next :: l)) (current : m.current i = some t) (absent : t ∉ l) :
    Switched m (scheduler_yield c m i) i t next l := by
  obtain ⟨found,rest,states⟩ := queue.dequeue_cons
  have split : scheduler_dequeue m.sched = (some next,(scheduler_dequeue m.sched).2) := Prod.ext found rfl
  have executed : scheduler_yield c m i = switchTo c
      { m with sched := (scheduler_dequeue m.sched).2 } i (some t) next := by
    rw [scheduler_yield,split,current]
  rw [executed]
  obtain ⟨queue',states',current',rsp',running'⟩ := @switchTo_spec _ _ _ _ c
    { m with sched := (scheduler_dequeue m.sched).2 } i l t next rest absent
  exact ⟨by simpa only [requeued,states] using queue',by simpa only [states] using states',current',rsp',running'⟩

/-- With nothing else to run, a task that does not run any more leaves to the idle task. -/
theorem yield_idle (queue : Queue m.sched []) (current : m.current i = some t)
    (stopped : m.sched.state t ≠ TASK_RUNNING) :
    Switched m (scheduler_yield c m i) i t (c.idle i) [] := by
  have executed : scheduler_yield c m i = switchTo c m i (some t) (c.idle i) := by
    simp [scheduler_yield,queue.dequeue_nil,current,isRunning,stopped]
  rw [executed]
  exact switchTo_spec queue (by simp)

theorem worker_alone (queue : Queue m.sched []) : worker c m i = m := by
  simp [worker,queue.dequeue_nil]

theorem worker_next (queue : Queue m.sched (next :: l)) :
    Queue (worker c m i).sched l ∧ (worker c m i).sched.state = Function.update m.sched.state next TASK_RUNNING ∧
    (worker c m i).current = Function.update m.current i (some next) ∧
    (worker c m i).rsp = Function.update m.rsp (c.idle i) (m.running i) ∧
    (worker c m i).running = Function.update m.running i ((worker c m i).rsp next) := by
  obtain ⟨found,rest,states⟩ := queue.dequeue_cons
  have split : scheduler_dequeue m.sched = (some next,(scheduler_dequeue m.sched).2) := Prod.ext found rfl
  rw [worker,split]
  exact ⟨rest.run _,by simp only [scheduler_context_switch,run_state,states],rfl,rfl,rfl⟩

end

/-! ### One processor without interrupts -/

/-- The machine with the tasks that were ever enqueued and those that exited. -/
structure Session (Task : Type v) where
  machine : Machine Unit Task
  enqueued : List Task
  exited : List Task

inductive Action (Task : Type v)
  | enqueue (t : Task)
  | pick
  | yield
  | exit
deriving DecidableEq, Repr

section
variable {Task : Type v} [DecidableEq Task]

/-- The code on a stack decides what can happen: the worker loop on the boot
    stack, the code of a task on its own. Any code enqueues new tasks. -/
def step (c : Locals Unit Task) (r : Session Task) : Action Task → Option (Session Task)
  | .enqueue t =>
    if t ∈ r.enqueued ∨ t = c.idle () then none
    else some { r with machine := { r.machine with sched := scheduler_enqueue r.machine.sched t },
                       enqueued := t :: r.enqueued }
  | .pick =>
    match r.machine.running () with
    | .boot _ => some { r with machine := worker c r.machine () }
    | .own _ => none
  | .yield =>
    match r.machine.running () with
    | .boot _ => none
    | .own _ => some { r with machine := scheduler_yield c r.machine () }
  | .exit =>
    match r.machine.running () with
    | .boot _ => none
    | .own t => (task_exit c r.machine ()).map (fun m => { r with machine := m, exited := t :: r.exited })

/-- The processor has entered the worker loop, nothing is enqueued, and the
    saved stack pointer of every task is the one from `task_create`. -/
structure Started (c : Locals Unit Task) (r : Session Task) : Prop where
  head : r.machine.sched.head = none
  tail : r.machine.sched.tail = none
  count : r.machine.sched.count = 0
  next : ∀ t, r.machine.sched.next t = none
  current : r.machine.current () = some (c.idle ())
  running : r.machine.running () = .boot ()
  rsp : ∀ t, t ≠ c.idle () → r.machine.rsp t = .own t
  enqueued : r.enqueued = []
  exited : r.exited = []

/-- The steps that hand the processor to another task. -/
def switching (r : Session Task) : Action Task → Bool
  | .enqueue _ => false
  | .exit => true
  | .pick | .yield => r.machine.sched.head.isSome

/-- Where every task is. -/
structure Invariant (c : Locals Unit Task) (r : Session Task) (l : List Task) : Prop where
  queue : Queue r.machine.sched l
  ready : ∀ t ∈ l, r.machine.sched.state t = TASK_READY
  members : ∀ t ∈ l, t ∈ r.enqueued ∧ t ∉ r.exited
  noIdle : c.idle () ∉ r.enqueued
  dead : ∀ t ∈ r.exited, t ∈ r.enqueued ∧ r.machine.sched.state t = TASK_DEAD
  waiting : ∀ t, t ≠ c.idle () → t ∈ l ∨ t ∉ r.enqueued → r.machine.rsp t = .own t
  current : r.machine.current () = some (c.idle ()) ∧ r.machine.running () = .boot () ∨
    ∃ t, r.machine.current () = some t ∧ r.machine.running () = .own t ∧ t ∈ r.enqueued ∧ t ∉ r.exited ∧ t ∉ l ∧
      r.machine.sched.state t = TASK_RUNNING ∧ r.machine.rsp (c.idle ()) = .boot ()
  located : ∀ t ∈ r.enqueued, t ∈ r.exited ∨ t ∈ l ∨ r.machine.current () = some t

variable {c : Locals Unit Task} {r r' : Session Task} {l : List Task}

omit [DecidableEq Task] in
theorem initial_invariant (started : Started c r) : Invariant c r [] :=
  ⟨queue_empty started.head started.tail started.count started.next,by simp,by simp,by simp [started.enqueued],
    by simp [started.exited],fun t other _ => started.rsp t other,.inl ⟨started.current,started.running⟩,
    by simp [started.enqueued]⟩

omit [DecidableEq Task] in
/-- The stack in use belongs to the current task, or to the worker loop if that is the idle task. -/
theorem Invariant.stack (inv : Invariant c r l) {t : Task} (current : r.machine.current () = some t) :
    t = c.idle () ∧ r.machine.running () = .boot () ∨
    t ≠ c.idle () ∧ r.machine.running () = .own t ∧ t ∈ r.enqueued ∧ t ∉ r.exited ∧
      r.machine.sched.state t = TASK_RUNNING ∧ r.machine.rsp (c.idle ()) = .boot () := by
  rcases inv.current with ⟨idle,running⟩ | ⟨u,isCurrent,stack,enqueued,alive,_,running,saved⟩
  · exact .inl ⟨Option.some.inj (current.symm.trans idle),running⟩
  · obtain rfl : t = u := Option.some.inj (current.symm.trans isCurrent)
    exact .inr ⟨fun same => inv.noIdle (same ▸ enqueued),stack,enqueued,alive,running,saved⟩

end

/-- The idle task 0 and the boot processor before any task is enqueued. -/
private def sampleLocals : Locals Unit Nat := ⟨fun _ => 0,fun _ => 0⟩
private def sampleStart : Session Nat where
  machine := ⟨⟨none,none,0,fun _ => none,fun _ => TASK_READY,fun _ => 0xFF⟩,fun _ => some 0,.own,fun _ => .boot ()⟩
  enqueued := []
  exited := []

end NekoOs.Scheduler
