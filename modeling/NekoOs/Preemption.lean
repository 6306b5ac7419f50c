import NekoOs.Scheduler

/-!
The boot processor with its timer. Kernel code runs in the small steps between
which a tick can arrive: the acquire and the release of a lock, each store, the
save and the load of the stack pointer. A stack is described by the steps that
remain to be done on it.
-/
namespace NekoOs.Preemption
open RunQueue Scheduler Transitions
universe v

inductive Lock
  | run_queue | klog_lock
deriving DecidableEq, Repr

/-- The two callers of `scheduler_dequeue`. -/
inductive Caller (Task : Type v)
  | scheduler_yield (old : Option Task)
  | worker
deriving DecidableEq, Repr

/-- A step of kernel code with the values of its local variables. -/
inductive Op (Task : Type v)
  /-- the code of a task, or `kernel_main` -/
  | code
  | task_exit
  /-- the loop in `cpu_enter_worker` -/
  | worker
  | acquire (lock : Lock)
  | release (lock : Lock)
  | kvlog
  /-- `task->state = TASK_READY; task->next = nullptr` in `scheduler_enqueue` -/
  | makeReady (task : Task)
  /-- the critical section of `scheduler_enqueue` -/
  | link (task : Task)
  /-- `scheduler_yield` before it reads `cpu->current` -/
  | scheduler_yield
  /-- the critical section of `scheduler_dequeue` -/
  | unlink (caller : Caller Task)
  /-- the caller of `scheduler_dequeue` before its test of the result -/
  | dequeued (caller : Caller Task) (next : Option Task)
  /-- `scheduler_yield` before the test of `old->state` -/
  | requeue (old : Option Task) (next : Task)
  /-- `next->state = TASK_RUNNING; next->cpu_id = lapic_id()` -/
  | setRunning (task : Task)
  /-- `cpu->current = next`, and then the call `scheduler_context_switch(old, next)` -/
  | setCurrent (old next : Task)
  /-- `scheduler_context_switch(old, new)` before `mov [rdi], rsp` -/
  | save (old new : Task)
  /-- `scheduler_context_switch(old, new)` before `mov rsp, [rsi]` -/
  | load (new : Task)
  /-- `cpu->current->state = TASK_DEAD` -/
  | setDead
  /-- `iretq` with the interrupt flag of its frame -/
  | iretq (interrupts : Bool)
  /-- `cpu->idle->rsp = rsp` in `cpu_enter_worker` -/
  | saveIdle
  /-- `cpu->current = cpu->idle` in `cpu_enter_worker` -/
  | setIdle
deriving DecidableEq, Repr

/-- A stack and the steps that remain on it, as a stack pointer into it finds them. -/
structure Context (Task : Type v) where
  stack : Stack Unit Task
  ops : List (Op Task)
deriving DecidableEq, Repr

/-- `locked` holds for each lock the stack of the code that acquired it. -/
structure State (Task : Type v) where
  sched : Sched Task
  locked : Lock → Option (Stack Unit Task)
  created : Task → Bool
  rsp : Task → Context Task
  current : Option Task
  running : Context Task
  interrupts : Bool

/-- What the code of tasks and of `kernel_main` can do next. -/
inductive Choice (Task : Type v)
  | klog
  /-- `task_create` and `scheduler_enqueue` -/
  | spawn (task : Task)
  | yield
  | exit
  | enterWorker
deriving DecidableEq, Repr

inductive Action (Task : Type v)
  | step (choice : Choice Task)
  | tick
deriving DecidableEq, Repr

section
variable {Task : Type v}

def klog : List (Op Task) := [.acquire .klog_lock,.kvlog,.release .klog_lock]

def enqueue (t : Task) : List (Op Task) := [.makeReady t,.acquire .run_queue,.link t,.release .run_queue]

/-- The end of `scheduler_yield` and of a pick in the worker loop. -/
def switchTo (old next : Task) : List (Op Task) := [.setRunning next,.setCurrent old next]

/-- `cpu_enter_worker` -/
def enterWorker : List (Op Task) := klog ++ .saveIdle :: .setIdle :: klog ++ [.worker]

/-- What a caller of `scheduler_dequeue` does with the result. -/
def afterDequeue (c : Locals Unit Task) [DecidableEq Task] (s : Sched Task) : Caller Task → Option Task → List (Op Task)
  | .scheduler_yield old, none => if isRunning s old then [] else [.requeue old (c.idle ())]
  | .scheduler_yield old, some next => [.requeue old next]
  | .worker, none => []
  | .worker, some task => klog ++ switchTo (c.idle ()) task ++ klog

variable [DecidableEq Task]

/-- One step of the code that runs; `none` where there is none. -/
def exec (c : Locals Unit Task) (s : State Task) (choice : Choice Task) : Option (State Task) :=
  let goOn (s : State Task) (ops : List (Op Task)) : State Task := { s with running := { s.running with ops := ops } }
  match s.running.ops with
  | [] => none
  | .code :: rest =>
    match choice, s.running.stack with
    | .klog, _ => some (goOn s (klog ++ .code :: rest))
    | .spawn t, _ =>
      if s.created t = true ∨ t = c.idle () then none
      else some (goOn { s with created := Function.update s.created t true } (klog ++ klog ++ enqueue t ++ .code :: rest))
    | .yield, .own _ => some (goOn s (.scheduler_yield :: .code :: rest))
    | .exit, .own _ => some (goOn s (.task_exit :: rest))
    | .enterWorker, .boot _ => some (goOn s (enterWorker ++ rest))
    | _, _ => none
  -- the word above the frame of `task_exit` returns into `task_exit` again
  | .task_exit :: rest => some (goOn s (klog ++ .setDead :: .scheduler_yield :: .task_exit :: rest))
  | .worker :: rest => some (goOn s (.acquire .run_queue :: .unlink .worker :: .worker :: rest))
  | .acquire lock :: rest =>
    match s.locked lock with
    | none => some (goOn { s with locked := Function.update s.locked lock (some s.running.stack) } rest)
    | some _ => some s
  | .release lock :: rest => some (goOn { s with locked := Function.update s.locked lock none } rest)
  | .kvlog :: rest => some (goOn s rest)
  | .makeReady t :: rest => some (goOn { s with sched := s.sched.makeReady t } rest)
  | .link t :: rest => some (goOn { s with sched := s.sched.link t } rest)
  | .scheduler_yield :: rest =>
    some (goOn s (.acquire .run_queue :: .unlink (.scheduler_yield s.current) :: rest))
  | .unlink caller :: rest =>
    let (next,sched) := scheduler_dequeue s.sched
    some (goOn { s with sched := sched } (.release .run_queue :: .dequeued caller next :: rest))
  | .dequeued caller next :: rest => some (goOn s (afterDequeue c s.sched caller next ++ rest))
  | .requeue old next :: rest =>
    let back := match old with
      | none => []
      | some t => if s.sched.state t = .TASK_RUNNING then enqueue t else []
    some (goOn s (back ++ switchTo (old.getD (c.idle ())) next ++ rest))
  | .setRunning t :: rest => some (goOn { s with sched := s.sched.run t (c.lapic_id ()) } rest)
  | .setCurrent old next :: rest => some (goOn { s with current := some next } (.save old next :: rest))
  | .save old new :: rest =>
    some (goOn { s with rsp := Function.update s.rsp old ⟨s.running.stack,rest⟩ } (.load new :: rest))
  | .load new :: _ => some { s with running := s.rsp new }
  | .setDead :: rest => s.current.map (fun t => goOn { s with sched := s.sched.kill t } rest)
  | .iretq interrupts :: rest => some (goOn { s with interrupts := interrupts } rest)
  | .saveIdle :: rest => some (goOn { s with rsp := Function.update s.rsp (c.idle ()) ⟨s.running.stack,rest⟩ } rest)
  | .setIdle :: rest => some (goOn { s with current := some (c.idle ()) } rest)

/-- A tick enters `isr_timer` through an interrupt gate: `timer_handler` yields
    with interrupts disabled, and `iretq` enables them again. -/
def tick (s : State Task) : Option (State Task) :=
  if s.interrupts then
    some { s with running := { s.running with ops := .scheduler_yield :: .iretq true :: s.running.ops }, interrupts := false }
  else none

def step (c : Locals Unit Task) (s : State Task) : Action Task → Option (State Task)
  | .step choice => exec c s choice
  | .tick => tick s

/-- `kernel_main` has enabled interrupts, before any task is enqueued. -/
structure Started (c : Locals Unit Task) (s : State Task) : Prop where
  head : s.sched.head = none
  tail : s.sched.tail = none
  count : s.sched.count = 0
  next : ∀ t, s.sched.next t = none
  locked : ∀ lock, s.locked lock = none
  created : ∀ t, s.created t = false
  rsp : ∀ t, s.rsp t = ⟨.own t,if t = c.idle () then [] else [.code]⟩
  current : s.current = none
  running : s.running = ⟨.boot (),[.code]⟩
  interrupts : s.interrupts = true

/-- The boot processor from there on. -/
def bootProcessor (c : Locals Unit Task) : System (State Task) (Action Task) := .ofFunction (Started c) (step c)

/-- `scheduler_yield` would return at once. -/
def Quiet (s : State Task) : Prop := s.sched.head = none ∧ isRunning s.sched s.current = true

/-! ### A tick that switches to nothing -/

/-- The places in a handler whose `scheduler_yield` returns at once. -/
inductive Handler
  | entered | acquiring | unlinking | releasing | testing | returning
deriving DecidableEq, Repr

def Handler.ops (old : Option Task) : Handler → List (Op Task)
  | .entered => [.scheduler_yield,.iretq true]
  | .acquiring => [.acquire .run_queue,.unlink (.scheduler_yield old),.iretq true]
  | .unlinking => [.unlink (.scheduler_yield old),.iretq true]
  | .releasing => [.release .run_queue,.dequeued (.scheduler_yield old) none,.iretq true]
  | .testing => [.dequeued (.scheduler_yield old) none,.iretq true]
  | .returning => [.iretq true]

/-- Whether the handler holds `run_queue.lock`. -/
def Handler.locks : Handler → Bool
  | .unlinking | .releasing => true
  | .entered | .acquiring | .testing | .returning => false

/-- The code below a handler is undisturbed: only the handler's place, the
    interrupt flag and `run_queue.lock` have changed. -/
structure Undisturbed (s s' : State Task) : Prop where
  sched : s'.sched = s.sched
  klog_lock : s'.locked .klog_lock = s.locked .klog_lock
  rsp : s'.rsp = s.rsp
  current : s'.current = s.current
  stack : s'.running.stack = s.running.stack

variable {c : Locals Unit Task} {s s' : State Task}

theorem quiet_step {h : Handler} {rest : List (Op Task)} {choice : Choice Task} (quiet : Quiet s)
    (ops : s.running.ops = h.ops s.current ++ rest) (taken : exec c s choice = some s') :
    Undisturbed s s' ∧
    ((∃ h' : Handler, s'.running.ops = h'.ops s.current ++ rest ∧ s'.interrupts = s.interrupts ∧
        ((s.locked .run_queue).isSome = h.locks → (s'.locked .run_queue).isSome = h'.locks)) ∨
      s'.running.ops = rest ∧ s'.interrupts = true ∧ s'.locked .run_queue = s.locked .run_queue ∧ h.locks = false) := by
  obtain ⟨empty,running⟩ := quiet
  have kept (holder : Option (Stack Unit Task)) :
      Function.update s.locked .run_queue holder .klog_lock = s.locked .klog_lock := by
    simp
  cases h with
  | entered =>
    simp only [Handler.ops,List.cons_append,List.nil_append] at ops
    simp only [exec,ops,Option.some.injEq] at taken
    subst taken
    exact ⟨⟨rfl,rfl,rfl,rfl,rfl⟩,.inl ⟨.acquiring,rfl,rfl,id⟩⟩
  | acquiring =>
    simp only [Handler.ops,List.cons_append,List.nil_append] at ops
    cases free : s.locked .run_queue with
    | none =>
      simp only [exec,ops,free,Option.some.injEq] at taken
      subst taken
      refine ⟨⟨rfl,kept (some s.running.stack),rfl,rfl,rfl⟩,.inl ⟨.unlinking,rfl,rfl,fun _ => ?_⟩⟩
      simp [Handler.locks]
    | some holder =>
      simp only [exec,ops,free,Option.some.injEq] at taken
      subst taken
      exact ⟨⟨rfl,rfl,rfl,rfl,rfl⟩,.inl ⟨.acquiring,ops,rfl,by rw [free]; exact id⟩⟩
  | unlinking =>
    simp only [Handler.ops,List.cons_append,List.nil_append] at ops
    have none : scheduler_dequeue s.sched = (none,s.sched) := by rw [scheduler_dequeue,empty]
    simp only [exec,ops,none,Option.some.injEq] at taken
    subst taken
    exact ⟨⟨rfl,rfl,rfl,rfl,rfl⟩,.inl ⟨.releasing,rfl,rfl,id⟩⟩
  | releasing =>
    simp only [Handler.ops,List.cons_append,List.nil_append] at ops
    simp only [exec,ops,Option.some.injEq] at taken
    subst taken
    refine ⟨⟨rfl,kept none,rfl,rfl,rfl⟩,.inl ⟨.testing,rfl,rfl,fun _ => ?_⟩⟩
    simp [Handler.locks]
  | testing =>
    simp only [Handler.ops,List.cons_append,List.nil_append] at ops
    simp only [exec,ops,afterDequeue,running,if_true,List.nil_append,Option.some.injEq] at taken
    subst taken
    exact ⟨⟨rfl,rfl,rfl,rfl,rfl⟩,.inl ⟨.returning,rfl,rfl,id⟩⟩
  | returning =>
    simp only [Handler.ops,List.cons_append,List.nil_append] at ops
    simp only [exec,ops,Option.some.injEq] at taken
    subst taken
    exact ⟨⟨rfl,rfl,rfl,rfl,rfl⟩,.inr ⟨rfl,rfl,rfl,rfl⟩⟩

/-- A sequence of steps without ticks, where a condition restricts ticks only. -/
theorem run_steps {allowed : State Task → Action Task → Prop} (free : ∀ s choice, allowed s (.step choice))
    {choices : List (Choice Task)} (run : choices.foldlM (exec c) s = some s') :
    ((bootProcessor c).restrict allowed).Run s (choices.map .step) s' := by
  induction choices generalizing s with
  | nil =>
    obtain rfl : s = s' := by simpa using run
    exact .refl s
  | cons choice rest ih =>
    rw [List.foldlM_cons,Option.bind_eq_bind,Option.bind_eq_some_iff] at run
    obtain ⟨r,first,later⟩ := run
    exact .cons ⟨free _ _,first⟩ (ih later)

end

/-- An idle task 0 and the boot processor in `kernel_main`. -/
def sampleLocals : Locals Unit Nat := ⟨fun _ => 0,fun _ => 0⟩

def sampleStart : State Nat where
  sched := ⟨none,none,0,fun _ => none,fun _ => .TASK_READY,fun _ => 0xFF⟩
  locked := fun _ => none
  created := fun _ => false
  rsp := fun t => ⟨.own t,if t = 0 then [] else [.code]⟩
  current := none
  running := ⟨.boot (),[.code]⟩
  interrupts := true

theorem sample_started : Started sampleLocals sampleStart :=
  ⟨rfl,rfl,rfl,fun _ => rfl,fun _ => rfl,fun _ => rfl,fun _ => rfl,rfl,rfl,rfl⟩

end NekoOs.Preemption
