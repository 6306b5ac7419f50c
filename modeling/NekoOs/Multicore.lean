import NekoOs.Scheduler

/-!
Processors that share one run queue, with interrupts masked. The steps of
`scheduler_yield` and of the worker loop interleave between the locked
operations on the queue, the store of `cpu->current`, and the save and the load
of the stack pointer.
-/
namespace NekoOs.Multicore
open RunQueue Scheduler Transitions
universe u v

/-- A stack pointer: the stack it points into, and how deep. -/
structure Pointer (Cpu : Type u) (Task : Type v) where
  stack : Stack Cpu Task
  depth : Nat
deriving DecidableEq, Repr

/-- Where a processor is in the code, with the local variables there. -/
inductive Pc (Task : Type v)
  /-- the kernel before `cpu_enter_worker` -/
  | enter
  /-- the worker loop before `scheduler_dequeue` -/
  | poll
  /-- the worker loop with a task in hand -/
  | picked (task : Task)
  /-- the code of a task -/
  | code
  /-- `scheduler_yield` before `scheduler_dequeue` -/
  | yield (old : Option Task)
  /-- `scheduler_yield` before the test of `old` -/
  | chosen (old : Option Task) (next : Task)
  /-- `scheduler_yield` before the store of `cpu->current` -/
  | requeued (old : Option Task) (next : Task)
  /-- `scheduler_context_switch` before the save -/
  | save (old new : Task)
  /-- `scheduler_context_switch` before the load -/
  | load (new : Task)
deriving DecidableEq, Repr

/-- The shared memory and the registers of every processor. `suspension` is not
    part of the code: it records the stack pointer that the latest suspension of
    a task saved, until the task is resumed. -/
structure State (Cpu : Type u) (Task : Type v) where
  sched : Sched Task
  created : Task → Bool
  rsp : Task → Pointer Cpu Task
  suspension : Task → Option (Pointer Cpu Task)
  current : Cpu → Option Task
  sp : Cpu → Pointer Cpu Task
  pc : Cpu → Pc Task

inductive Action (Task : Type v)
  /-- the next step of a kernel function -/
  | kernel
  /-- code that moves its stack pointer on its own stack -/
  | move (depth : Nat)
  /-- `task_create` and `scheduler_enqueue` -/
  | spawn (t : Task)
  | yield
  | exit
deriving DecidableEq, Repr

section
variable {Cpu : Type u} {Task : Type v} [DecidableEq Cpu] [DecidableEq Task]

/-- What runs where a loaded stack pointer points: the worker loop or a task. -/
def resume : Stack Cpu Task → Pc Task
  | .boot _ => .poll
  | .own _ => .code

/-- One atomic step of the kernel functions on processor `i`. -/
def kernelStep (c : Locals Cpu Task) (s : State Cpu Task) (i : Cpu) : Option (State Cpu Task) :=
  match s.pc i with
  | .enter => some { s with rsp := Function.update s.rsp (c.idle i) (s.sp i),
                            current := Function.update s.current i (some (c.idle i)),
                            pc := Function.update s.pc i .poll }
  | .poll =>
    match scheduler_dequeue s.sched with
    | (none,sched) => some { s with sched := sched }
    | (some task,sched) => some { s with sched := sched, pc := Function.update s.pc i (.picked task) }
  | .picked task => some { s with sched := s.sched.run task (c.lapic_id i),
                                  current := Function.update s.current i (some task),
                                  pc := Function.update s.pc i (.save (c.idle i) task) }
  | .code => none
  | .yield old =>
    match scheduler_dequeue s.sched with
    | (none,sched) =>
      if isRunning sched old then some { s with sched := sched, pc := Function.update s.pc i .code }
      else some { s with sched := sched, pc := Function.update s.pc i (.chosen old (c.idle i)) }
    | (some task,sched) => some { s with sched := sched, pc := Function.update s.pc i (.chosen old task) }
  | .chosen old next =>
    let sched := match old with
      | none => s.sched
      | some t => if s.sched.state t = TaskState.TASK_RUNNING then scheduler_enqueue s.sched t else s.sched
    some { s with sched := sched, pc := Function.update s.pc i (.requeued old next) }
  | .requeued old next => some { s with sched := s.sched.run next (c.lapic_id i),
                                        current := Function.update s.current i (some next),
                                        pc := Function.update s.pc i (.save (old.getD (c.idle i)) next) }
  | .save old new => some { s with rsp := Function.update s.rsp old (s.sp i),
                                   suspension := Function.update s.suspension old (some (s.sp i)),
                                   pc := Function.update s.pc i (.load new) }
  | .load new => some { s with sp := Function.update s.sp i (s.rsp new),
                               suspension := Function.update s.suspension new none,
                               pc := Function.update s.pc i (resume (s.rsp new).stack) }

/-- One step of processor `i`. Tasks move their stack pointer, create and
    enqueue tasks, yield and exit; the kernel creates tasks before it enters the
    worker loop. -/
def step (c : Locals Cpu Task) (s : State Cpu Task) (i : Cpu) : Action Task → State Cpu Task → Prop
  | .kernel, s' => kernelStep c s i = some s'
  | .move depth, s' => s.pc i = .code ∧ s' = { s with sp := Function.update s.sp i ⟨(s.sp i).stack,depth⟩ }
  | .spawn t, s' => (s.pc i = .code ∨ s.pc i = .enter) ∧ s.created t = false ∧ (∀ j, t ≠ c.idle j) ∧
      s' = { s with created := Function.update s.created t true, sched := scheduler_enqueue s.sched t }
  | .yield, s' => s.pc i = .code ∧ s' = { s with pc := Function.update s.pc i (.yield (s.current i)) }
  | .exit, s' => s.pc i = .code ∧ ∃ t, s.current i = some t ∧
      s' = { s with sched := s.sched.kill t, pc := Function.update s.pc i (.yield (s.current i)) }

/-- Every processor is in the kernel on its boot stack, the run queue is empty,
    and the tasks to be created have their stack pointer from `task_create`. -/
structure Started (s : State Cpu Task) : Prop where
  head : s.sched.head = none
  tail : s.sched.tail = none
  count : s.sched.count = 0
  next : ∀ t, s.sched.next t = none
  created : ∀ t, s.created t = false
  pc : ∀ i, s.pc i = .enter
  sp : ∀ i, (s.sp i).stack = .boot i
  rsp : ∀ t, (s.rsp t).stack = .own t
  suspension : ∀ t, s.suspension t = some (s.rsp t)

/-- Any number of processors that take turns in any order. -/
def processors (c : Locals Cpu Task) : System (State Cpu Task) (Cpu × Action Task) where
  initial := Started
  step s a s' := step c s a.1 a.2 s'

/-- No two processors use one stack, and a stack pointer about to be loaded is
    the one that the latest suspension of its task saved. -/
structure Exclusive (s : State Cpu Task) : Prop where
  separate : ∀ i j, (s.sp i).stack = (s.sp j).stack → i = j
  loads : ∀ i n, s.pc i = .load n → s.suspension n = some (s.rsp n)

/-- `scheduler_dequeue` does not return a task whose stack another processor is
    still on. -/
def Settled (s : State Cpu Task) (a : Cpu × Action Task) : Prop :=
  a.2 = .kernel → (s.pc a.1 = .poll ∨ ∃ old, s.pc a.1 = .yield old) →
    ∀ t, s.sched.head = some t → ∀ j, j ≠ a.1 → (s.sp j).stack ≠ .own t

/-! ### The invariant -/

/-- The task a processor has dequeued and not switched to yet. -/
def Pc.taken : Pc Task → Option Task
  | .picked t | .chosen _ t | .requeued _ t | .save _ t | .load t => some t
  | .enter | .poll | .code | .yield _ => none

/-- A yield that may have put its task back and has not saved it. -/
def Pc.unsaved : Pc Task → Bool
  | .requeued _ _ | .save _ _ => true
  | _ => false

/-- A processor before its load of the next stack pointer. -/
def Pc.loading : Pc Task → Bool
  | .load _ => true
  | _ => false

/-- The stack pointer of a task is that of its latest suspension, on a given stack. -/
def Suspended (s : State Cpu Task) (t : Task) (stack : Stack Cpu Task) : Prop :=
  s.suspension t = some (s.rsp t) ∧ (s.rsp t).stack = stack

/-- What a processor's place in the code says about its stack, `cpu->current` and the queue. -/
def Located (c : Locals Cpu Task) (i : Cpu) (stack : Stack Cpu Task) (current : Option Task) (l : List Task) :
    Pc Task → Prop
  | .enter | .poll | .picked _ => stack = .boot i
  | .code => ∃ t, stack = .own t ∧ current = some t ∧ t ∉ l
  | .yield old => ∃ t, stack = .own t ∧ old = some t ∧ current = some t ∧ t ∉ l
  | .chosen old _ => ∃ t, stack = .own t ∧ old = some t ∧ t ∉ l
  | .requeued old _ => ∃ t, stack = .own t ∧ old = some t
  | .save old new => current = some new ∧ (old = c.idle i ∧ stack = .boot i ∨ stack = .own old)
  | .load new => current = some new

structure Invariant (c : Locals Cpu Task) (s : State Cpu Task) (l : List Task) : Prop where
  queue : Queue s.sched l
  queued : ∀ t ∈ l, s.created t = true
  created : ∀ t, s.created t = true → ∀ i, t ≠ c.idle i
  boots : ∀ i k, (s.sp i).stack = .boot k → k = i
  owns : ∀ i t, (s.sp i).stack = .own t → s.created t = true ∧ ∀ j, j ≠ i → (s.sp j).stack ≠ .own t
  located : ∀ i, Located c i (s.sp i).stack (s.current i) l (s.pc i)
  taken : ∀ i n, (s.pc i).taken = some n →
    n = c.idle i ∧ (s.sp i).stack ≠ .boot i ∨
    s.created n = true ∧ Suspended s n (.own n) ∧ n ∉ l ∧ (∀ j, (s.sp j).stack ≠ .own n) ∧
      ∀ j, j ≠ i → (s.pc j).taken ≠ some n
  waiting : ∀ t ∈ l, Suspended s t (.own t) ∨ ∃ j, (s.sp j).stack = .own t ∧ (s.pc j).unsaved = true
  leaving : ∀ i t, (s.pc i).loading = true → (s.sp i).stack = .own t → Suspended s t (.own t)
  idles : ∀ i, (s.sp i).stack ≠ .boot i ∨ (s.pc i).loading = true → Suspended s (c.idle i) (.boot i)
  fresh : ∀ t, s.created t = false → (∀ i, t ≠ c.idle i) → Suspended s t (.own t)

omit [DecidableEq Cpu] [DecidableEq Task] in
/-- A processor's place in the code does not depend on tasks of other stacks. -/
theorem Located.mono {c : Locals Cpu Task} {i : Cpu} {stack : Stack Cpu Task} {current : Option Task} {l l' : List Task}
    {pc : Pc Task} (located : Located c i stack current l pc) (same : ∀ t, stack = .own t → t ∈ l' → t ∈ l) :
    Located c i stack current l' pc := by
  have absent (t : Task) (own : stack = .own t) (outside : t ∉ l) : t ∉ l' := fun inside => outside (same t own inside)
  cases pc with
  | code =>
    obtain ⟨t,own,isCurrent,outside⟩ := located
    exact ⟨t,own,isCurrent,absent t own outside⟩
  | yield old =>
    obtain ⟨t,own,isOld,isCurrent,outside⟩ := located
    exact ⟨t,own,isOld,isCurrent,absent t own outside⟩
  | chosen old next =>
    obtain ⟨t,own,isOld,outside⟩ := located
    exact ⟨t,own,isOld,absent t own outside⟩
  | enter => exact located
  | poll => exact located
  | picked => exact located
  | requeued => exact located
  | save => exact located
  | load => exact located

variable {c : Locals Cpu Task} {s s' : State Cpu Task} {l : List Task} {i : Cpu}

omit [DecidableEq Cpu] [DecidableEq Task] in
theorem initial_invariant (started : Started s) : Invariant c s [] := by
  obtain ⟨head,tail,count,next,created,pc,sp,rsp,suspension⟩ := started
  have suspended (t : Task) : Suspended s t (.own t) := ⟨suspension t,rsp t⟩
  refine ⟨queue_empty head tail count next,by simp,?_,?_,?_,?_,?_,by simp,?_,?_,fun t _ _ => suspended t⟩
  · simp [created]
  · intro i k stack
    exact (Stack.boot.inj ((sp i).symm.trans stack)).symm
  · simp [sp]
  · intro i
    rw [pc]
    exact sp i
  · simp [pc,Pc.taken]
  · simp [pc,Pc.loading]
  · simp [pc,sp,Pc.loading]

theorem move_step (inv : Invariant c s l) {depth : Nat} (taken : step c s i (.move depth) s') : Invariant c s' l := by
  obtain ⟨pc,rfl⟩ := taken
  have same : ∀ j, (Function.update s.sp i ⟨(s.sp i).stack,depth⟩ j).stack = (s.sp j).stack := by
    intro j
    by_cases here : j = i
    · rw [here,Function.update_self]
    · rw [Function.update_of_ne here]
  obtain ⟨queue,queued,created,boots,owns,located,taken,waiting,leaving,idles,fresh⟩ := inv
  constructor <;> simp only [same,Suspended] <;> assumption

theorem spawn_step (inv : Invariant c s l) {t : Task} (taken : step c s i (.spawn t) s') :
    Invariant c s' (l ++ [t]) := by
  obtain ⟨_,isNew,notIdle,rfl⟩ := taken
  have absent : t ∉ l := fun waiting => by simp [inv.queued t waiting] at isNew
  have fresh := inv.fresh t isNew notIdle
  obtain ⟨queue,queued,created,boots,owns,located,taken,waiting,leaving,idles,fresh⟩ := inv
  refine ⟨queue.enqueue absent,?_,?_,boots,?_,?_,?_,?_,leaving,idles,?_⟩
  · intro u member
    simp only [Function.update_apply]
    grind
  · intro u
    simp only [Function.update_apply]
    grind
  · intro j u
    simp only [Function.update_apply]
    grind
  · intro j
    refine (located j).mono ?_
    grind
  · intro j n
    have := taken j n
    simp only [Function.update_apply,Suspended] at this ⊢
    grind
  · intro u member
    simp only [Suspended] at *
    grind
  · intro u
    simp only [Function.update_apply,Suspended] at *
    grind

omit [DecidableEq Task] in
/-- A step of processor `i` that changes no stack pointer: its place in the
    code, its `cpu->current`, and states of tasks. -/
theorem local_step (inv : Invariant c s l) {sched : Sched Task} {current : Option Task} {pc : Pc Task}
    (queue : Queue sched l) (located : Located c i (s.sp i).stack current l pc)
    (taken : ∀ n, pc.taken = some n → (s.pc i).taken = some n ∨ n = c.idle i ∧ (s.sp i).stack ≠ .boot i)
    (unsaved : (s.pc i).unsaved = true → pc.unsaved = true) (loading : pc.loading = false) :
    Invariant c { s with sched := sched, current := Function.update s.current i current,
                         pc := Function.update s.pc i pc } l := by
  obtain ⟨_,queued,created,boots,owns,located',taken',waiting,leaving,idles,fresh⟩ := inv
  refine ⟨queue,queued,created,boots,owns,?_,?_,?_,?_,?_,fresh⟩
  · intro j
    by_cases here : j = i
    · subst here
      simpa only [Function.update_self] using located
    · simpa only [Function.update_of_ne here] using located' j
  · intro j n
    simp only [Function.update_apply,Suspended]
    simp only [Suspended] at taken'
    grind
  · intro t member
    simp only [Function.update_apply,Suspended]
    simp only [Suspended] at waiting
    grind
  · intro j t
    simp only [Function.update_apply,Suspended]
    simp only [Suspended] at leaving
    grind
  · intro j
    simp only [Function.update_apply,Suspended]
    simp only [Suspended] at idles
    grind

omit [DecidableEq Task] in
/-- A processor takes the head of the queue, a task on no other processor's stack. -/
theorem take_step {t : Task} {rest : List Task} (inv : Invariant c s (t :: rest)) {sched : Sched Task} {pc : Pc Task}
    (queue : Queue sched rest) (located : Located c i (s.sp i).stack (s.current i) rest pc)
    (taken : pc.taken = some t) (free : (s.pc i).taken = none) (unsaved : (s.pc i).unsaved = false)
    (loading : pc.loading = false) (settled : ∀ j, (s.sp j).stack ≠ .own t) :
    Invariant c { s with sched := sched, pc := Function.update s.pc i pc } rest := by
  obtain ⟨queue',queued,created,boots,owns,located',taken',waiting,leaving,idles,fresh⟩ := inv
  have distinct := List.nodup_cons.mp queue'.distinct
  refine ⟨queue,?_,created,boots,owns,?_,?_,?_,?_,?_,fresh⟩
  · exact fun u member => queued u (List.mem_cons_of_mem _ member)
  · intro j
    by_cases here : j = i
    · subst here
      simpa only [Function.update_self] using located
    · simp only [Function.update_of_ne here]
      exact (located' j).mono (fun u _ member => List.mem_cons_of_mem _ member)
  · intro j n
    simp only [Function.update_apply,Suspended]
    simp only [Suspended] at taken' waiting
    grind
  · intro u member
    simp only [Function.update_apply,Suspended]
    simp only [Suspended] at waiting
    grind
  · intro j u
    simp only [Function.update_apply,Suspended]
    simp only [Suspended] at leaving
    grind
  · intro j
    simp only [Function.update_apply,Suspended]
    simp only [Suspended] at idles
    grind

/-- A yield puts its task back. -/
theorem requeue_step (inv : Invariant c s l) {t next : Task} (pc : s.pc i = .chosen (some t) next)
    (stack : (s.sp i).stack = .own t) (absent : t ∉ l) :
    Invariant c { s with sched := scheduler_enqueue s.sched t, pc := Function.update s.pc i (.requeued (some t) next) }
      (l ++ [t]) := by
  obtain ⟨queue,queued,created,boots,owns,located,taken,waiting,leaving,idles,fresh⟩ := inv
  refine ⟨queue.enqueue absent,?_,created,boots,owns,?_,?_,?_,?_,?_,fresh⟩
  · intro u member
    grind
  · intro j
    by_cases here : j = i
    · subst here
      simp only [Function.update_self]
      exact ⟨t,stack,rfl⟩
    · simp only [Function.update_of_ne here]
      refine (located j).mono ?_
      grind
  · intro j n
    simp only [Function.update_apply,Suspended]
    simp only [Suspended] at taken
    have := taken i next (by rw [pc,Pc.taken])
    grind [Pc.taken]
  · intro u member
    simp only [Function.update_apply,Suspended]
    simp only [Suspended] at waiting
    grind [Pc.unsaved]
  · intro j u
    simp only [Function.update_apply,Suspended]
    simp only [Suspended] at leaving
    grind [Pc.loading]
  · intro j
    simp only [Function.update_apply,Suspended]
    simp only [Suspended] at idles
    grind [Pc.loading]

/-- Processor `i` saves its stack pointer in the task whose stack it uses, or in its idle task. -/
theorem store_step (distinct : Function.Injective c.idle) (inv : Invariant c s l) {old : Task}
    {suspension : Task → Option (Pointer Cpu Task)} {current : Option Task} {pc : Pc Task}
    (place : old = c.idle i ∧ (s.sp i).stack = .boot i ∨ (s.sp i).stack = .own old)
    (located : Located c i (s.sp i).stack current l pc) (taken : ∀ n, pc.taken = some n → (s.pc i).taken = some n)
    (others : ∀ t, t ≠ old → suspension t = s.suspension t)
    (latest : pc.loading = true ∨ (s.sp i).stack = .own old → suspension old = some (s.sp i)) :
    Invariant c { s with rsp := Function.update s.rsp old (s.sp i), suspension := suspension,
                         current := Function.update s.current i current, pc := Function.update s.pc i pc } l := by
  obtain ⟨queue,queued,created,boots,owns,located',taken',waiting,leaving,idles,fresh⟩ := inv
  refine ⟨queue,queued,created,boots,owns,?_,?_,?_,?_,?_,?_⟩
  · intro j
    by_cases here : j = i
    · subst here
      simpa only [Function.update_self] using located
    · simpa only [Function.update_of_ne here] using located' j
  · intro j n
    simp only [Function.update_apply,Suspended]
    simp only [Suspended] at taken'
    grind
  · intro u member
    simp only [Function.update_apply,Suspended]
    simp only [Suspended] at waiting
    grind
  · intro j u
    simp only [Function.update_apply,Suspended]
    simp only [Suspended] at leaving
    grind
  · intro j
    simp only [Function.update_apply,Suspended]
    simp only [Suspended] at idles
    grind
  · intro u isNew notIdle
    simp only [Function.update_apply,Suspended]
    simp only [Suspended] at fresh
    grind

/-- The save makes the stack in use resumable. -/
theorem save_step (distinct : Function.Injective c.idle) (inv : Invariant c s l) {old new : Task}
    (pc : s.pc i = .save old new) :
    Invariant c { s with rsp := Function.update s.rsp old (s.sp i),
                         suspension := Function.update s.suspension old (some (s.sp i)),
                         pc := Function.update s.pc i (.load new) } l := by
  have here := inv.located i
  rw [pc] at here
  obtain ⟨current,place⟩ := here
  have step := @store_step _ _ _ _ c s l i distinct inv old (Function.update s.suspension old (some (s.sp i)))
    (s.current i) (.load new) place current (fun n found => by rw [pc]; exact found)
    (fun t other => Function.update_of_ne other _ _) (fun _ => Function.update_self _ _ _)
  rwa [Function.update_eq_self] at step

/-- After the load the processor is on the stack of the task it switched to. -/
theorem load_step (distinct : Function.Injective c.idle) (inv : Invariant c s l) {new : Task}
    (pc : s.pc i = .load new) :
    Invariant c { s with sp := Function.update s.sp i (s.rsp new),
                         suspension := Function.update s.suspension new none,
                         pc := Function.update s.pc i (resume (s.rsp new).stack) } l := by
  have current := inv.located i
  rw [pc] at current
  have target := inv.taken i new (by rw [pc]; rfl)
  have stack : new = c.idle i ∧ (s.sp i).stack ≠ .boot i ∧ (s.rsp new).stack = .boot i ∨
      s.created new = true ∧ (s.rsp new).stack = .own new ∧ new ∉ l ∧ ∀ j, (s.sp j).stack ≠ .own new := by
    rcases target with ⟨rfl,away⟩ | ⟨created,suspended,absent,free,_⟩
    · exact .inl ⟨rfl,away,(inv.idles i (.inl away)).2⟩
    · exact .inr ⟨created,suspended.2,absent,free⟩
  obtain ⟨queue,queued,created,boots,owns,located,taken,waiting,leaving,idles,fresh⟩ := inv
  refine ⟨queue,queued,created,?_,?_,?_,?_,?_,?_,?_,?_⟩
  · intro j k
    simp only [Function.update_apply]
    grind
  · intro j u
    simp only [Function.update_apply]
    grind
  · intro j
    by_cases here : j = i
    · subst here
      simp only [Function.update_self]
      rcases stack with ⟨_,_,boot⟩ | ⟨_,own,absent,_⟩
      · rw [boot]
        exact rfl
      · rw [own]
        exact ⟨new,rfl,current,absent⟩
    · simpa only [Function.update_of_ne here] using located j
  · intro j n
    simp only [Function.update_apply,Suspended]
    simp only [Suspended] at taken
    grind [Pc.taken,resume]
  · intro u member
    simp only [Function.update_apply,Suspended]
    simp only [Suspended] at waiting leaving
    grind [Pc.unsaved,resume]
  · intro j u
    simp only [Function.update_apply,Suspended]
    simp only [Suspended] at leaving
    grind [Pc.loading,resume]
  · intro j
    simp only [Function.update_apply,Suspended]
    simp only [Suspended] at idles
    grind [Pc.loading,resume]
  · intro u isNew notIdle
    simp only [Function.update_apply,Suspended]
    simp only [Suspended] at fresh
    grind

/-- `cpu_enter_worker` writes the idle task, which nobody resumes meanwhile. -/
theorem enter_step (distinct : Function.Injective c.idle) (inv : Invariant c s l) (pc : s.pc i = .enter) :
    Invariant c { s with rsp := Function.update s.rsp (c.idle i) (s.sp i),
                         current := Function.update s.current i (some (c.idle i)),
                         pc := Function.update s.pc i .poll } l := by
  have stack : (s.sp i).stack = .boot i := by
    have here := inv.located i
    rwa [pc] at here
  refine store_step distinct inv (.inl ⟨rfl,stack⟩) stack (by simp [Pc.taken]) (fun _ _ => rfl) ?_
  simp [stack,Pc.loading]

/-- `scheduler_dequeue` in the worker loop and in a yield takes the head of the
    queue, unless the queue is empty. -/
theorem dequeue_step (takenPc : Task → Pc Task) (inv : Invariant c s l)
    (settled : ∀ t, s.sched.head = some t → ∀ j, j ≠ i → (s.sp j).stack ≠ .own t)
    (taken : ∀ t, (takenPc t).taken = some t ∧ (takenPc t).loading = false ∧
      ∀ rest, l = t :: rest → Located c i (s.sp i).stack (s.current i) rest (takenPc t))
    (free : (s.pc i).taken = none) (unsaved : (s.pc i).unsaved = false) (elsewhere : ∀ t ∈ l, (s.sp i).stack ≠ .own t) :
    l = [] ∧ scheduler_dequeue s.sched = (none,s.sched) ∨
    ∃ t rest sched, l = t :: rest ∧ scheduler_dequeue s.sched = (some t,sched) ∧
      Invariant c { s with sched := sched, pc := Function.update s.pc i (takenPc t) } rest := by
  cases l with
  | nil => exact .inl ⟨rfl,inv.queue.dequeue_nil⟩
  | cons t rest =>
    obtain ⟨found,queue,_⟩ := inv.queue.dequeue_cons
    obtain ⟨takes,loading,located⟩ := taken t
    refine .inr ⟨t,rest,_,rfl,Prod.ext found rfl,take_step inv queue (located rest rfl) takes free unsaved loading ?_⟩
    intro j
    by_cases here : j = i
    · exact here ▸ elsewhere t (by simp)
    · exact settled t inv.queue.linked.1 j here

theorem kernel_step (distinct : Function.Injective c.idle) (inv : Invariant c s l)
    (settled : Settled s (i,.kernel)) (taken : kernelStep c s i = some s') : ∃ l', Invariant c s' l' := by
  have here := inv.located i
  have head := settled rfl
  simp only at head
  cases pc : s.pc i with
  | enter =>
    simp only [kernelStep,pc,Option.some.injEq] at taken
    exact ⟨l,taken ▸ enter_step distinct inv pc⟩
  | poll =>
    rw [pc] at here
    have stack : (s.sp i).stack = .boot i := here
    have takes := dequeue_step .picked inv (head (.inl pc)) (fun t => ⟨rfl,rfl,fun _ _ => stack⟩)
      (by rw [pc]; rfl) (by rw [pc]; rfl) (by simp [stack])
    rcases takes with ⟨rfl,empty⟩ | ⟨t,rest,sched,rfl,found,inv'⟩
    · simp only [kernelStep,pc,empty,Option.some.injEq] at taken
      exact ⟨[],taken ▸ inv⟩
    · simp only [kernelStep,pc,found,Option.some.injEq] at taken
      exact ⟨rest,taken ▸ inv'⟩
  | picked t =>
    simp only [kernelStep,pc,Option.some.injEq] at taken
    rw [pc] at here
    have stack : (s.sp i).stack = .boot i := here
    refine ⟨l,taken ▸ local_step inv (inv.queue.run _) ⟨rfl,.inl ⟨rfl,stack⟩⟩ ?_ ?_ rfl⟩
    · exact fun n found => .inl (by rw [pc]; exact found)
    · simp [pc,Pc.unsaved]
  | code => simp [kernelStep,pc] at taken
  | yield old =>
    rw [pc] at here
    obtain ⟨t,stack,rfl,current,absent⟩ := here
    have takes := dequeue_step (.chosen (some t)) inv (head (.inr ⟨_,pc⟩))
      (fun n => ⟨rfl,rfl,fun rest same => ⟨t,stack,rfl,fun inside => absent (by simp [same,inside])⟩⟩)
      (by rw [pc]; rfl) (by rw [pc]; rfl) (fun n inside own => absent (Stack.own.inj (stack.symm.trans own) ▸ inside))
    rcases takes with ⟨rfl,empty⟩ | ⟨n,rest,sched,rfl,found,inv'⟩
    · have away : (s.sp i).stack ≠ .boot i := by simp [stack]
      have step (pc' : Pc Task) := @local_step _ _ _ _ _ _ i inv s.sched (s.current i) pc' inv.queue
      simp only [Function.update_eq_self] at step
      simp only [kernelStep,pc,empty] at taken
      split at taken <;> cases taken
      · exact ⟨[],step .code ⟨t,stack,current,absent⟩ (by simp [Pc.taken]) (by simp [pc,Pc.unsaved]) rfl⟩
      · refine ⟨[],step (.chosen (some t) (c.idle i)) ⟨t,stack,rfl,absent⟩ ?_ (by simp [pc,Pc.unsaved]) rfl⟩
        exact fun n found => .inr ⟨(Option.some.inj found).symm,away⟩
    · simp only [kernelStep,pc,found,Option.some.injEq] at taken
      exact ⟨rest,taken ▸ inv'⟩
  | chosen old next =>
    rw [pc] at here
    obtain ⟨t,stack,rfl,absent⟩ := here
    simp only [kernelStep,pc,Option.some.injEq] at taken
    by_cases running : s.sched.state t = TaskState.TASK_RUNNING
    · rw [if_pos running] at taken
      exact ⟨l ++ [t],taken ▸ requeue_step inv pc stack absent⟩
    · rw [if_neg running] at taken
      have step := @local_step _ _ _ _ _ _ i inv s.sched (s.current i) (.requeued (some t) next) inv.queue
        ⟨t,stack,rfl⟩ (fun n found => .inl (by rw [pc]; exact found)) (by simp [pc,Pc.unsaved]) rfl
      rw [Function.update_eq_self] at step
      exact ⟨l,taken ▸ step⟩
  | requeued old next =>
    rw [pc] at here
    obtain ⟨t,stack,rfl⟩ := here
    simp only [kernelStep,pc,Option.some.injEq,Option.getD_some] at taken
    refine ⟨l,taken ▸ local_step inv (inv.queue.run _) ⟨rfl,.inr stack⟩ ?_ ?_ rfl⟩
    · exact fun n found => .inl (by rw [pc]; exact found)
    · exact fun _ => rfl
  | save old new =>
    simp only [kernelStep,pc,Option.some.injEq] at taken
    exact ⟨l,taken ▸ save_step distinct inv pc⟩
  | load new =>
    simp only [kernelStep,pc,Option.some.injEq] at taken
    exact ⟨l,taken ▸ load_step distinct inv pc⟩

theorem step_invariant (distinct : Function.Injective c.idle) {a : Action Task} (inv : Invariant c s l)
    (settled : Settled s (i,a)) (taken : step c s i a s') : ∃ l', Invariant c s' l' := by
  -- a yield starts with the task that is current, on its own stack
  have start (pc : s.pc i = .code) (sched : Sched Task) (queue : Queue sched l) :
      Invariant c { s with sched := sched, pc := Function.update s.pc i (.yield (s.current i)) } l := by
    have here := inv.located i
    rw [pc] at here
    obtain ⟨t,stack,current,absent⟩ := here
    have step := @local_step _ _ _ _ _ _ i inv sched (s.current i) (.yield (s.current i)) queue
      ⟨t,stack,current,current,absent⟩ (by simp [Pc.taken]) (by simp [pc,Pc.unsaved]) rfl
    rwa [Function.update_eq_self] at step
  cases a with
  | kernel => exact kernel_step distinct inv settled taken
  | move depth => exact ⟨l,move_step inv taken⟩
  | spawn t => exact ⟨_,spawn_step inv taken⟩
  | yield =>
    obtain ⟨pc,rfl⟩ := taken
    exact ⟨l,start pc s.sched inv.queue⟩
  | exit =>
    obtain ⟨pc,t,_,rfl⟩ := taken
    exact ⟨l,start pc _ inv.queue.kill⟩

omit [DecidableEq Cpu] [DecidableEq Task] in
theorem Invariant.exclusive (inv : Invariant c s l) : Exclusive s := by
  constructor
  · intro i j same
    by_contra other
    cases stack : (s.sp i).stack with
    | boot k => exact other ((inv.boots i k stack).symm.trans (inv.boots j k (same ▸ stack)))
    | own t => exact (inv.owns i t stack).2 j (Ne.symm other) (same ▸ stack)
  · intro i n pc
    rcases inv.taken i n (by rw [pc]; rfl) with ⟨rfl,away⟩ | ⟨_,suspended,_⟩
    · exact (inv.idles i (.inl away)).1
    · exact suspended.1

/-- As long as no processor dequeues a task before the processor that put it
    back has left its stack, no two processors use one stack and every stack
    pointer that is loaded is the one saved last. -/
theorem processors_exclusive (distinct : Function.Injective c.idle)
    (reached : ((processors c).restrict Settled).Reachable s) : Exclusive s := by
  have invariant : ∃ l, Invariant c s l := by
    refine reached.invariant (P := fun s => ∃ l, Invariant c s l) (fun s started => ⟨[],initial_invariant started⟩) ?_
    rintro s ⟨i,a⟩ s' ⟨l,inv⟩ ⟨settled,taken⟩
    exact step_invariant distinct inv settled taken
  obtain ⟨l,inv⟩ := invariant
  exact inv.exclusive

/-- Steps of kernel functions by a sequence of processors, in states that pass a check. -/
theorem kernel_run {allowed : State Cpu Task → Cpu × Action Task → Prop} {check : State Cpu Task → Cpu → Bool}
    (fits : ∀ s i, check s i = true → allowed s (i,.kernel)) {turns : List Cpu}
    (run : turns.foldlM (fun s i => if check s i then kernelStep c s i else none) s = some s') :
    ((processors c).restrict allowed).Run s (turns.map (fun i => (i,.kernel))) s' := by
  induction turns generalizing s with
  | nil =>
    obtain rfl : s = s' := by simpa using run
    exact .refl s
  | cons i rest ih =>
    rw [List.foldlM_cons,Option.bind_eq_bind,Option.bind_eq_some_iff] at run
    obtain ⟨r,first,later⟩ := run
    by_cases checked : check s i = true
    · rw [if_pos checked] at first
      exact .cons ⟨fits s i checked,first⟩ (ih later)
    · rw [if_neg checked] at first
      cases first

end

/-! ### Two processors and the tasks 2 and 3 -/

private def sampleLocals : Locals Bool Nat := ⟨fun i => if i then 1 else 0,fun i => if i then 1 else 0⟩

private def sampleStart : State Bool Nat where
  sched := ⟨none,none,0,fun _ => none,fun _ => .TASK_READY,fun _ => 0xFF⟩
  created := fun _ => false
  rsp := fun t => ⟨.own t,64⟩
  suspension := fun t => some ⟨.own t,64⟩
  current := fun _ => none
  sp := fun i => ⟨.boot i,0⟩
  pc := fun _ => .enter

private theorem sample_started : Started sampleStart :=
  ⟨rfl,rfl,rfl,fun _ => rfl,fun _ => rfl,fun _ => rfl,fun _ => rfl,fun _ => rfl,fun _ => rfl⟩

private theorem sample_created : ∀ t, 2 ≤ t → ∀ j, t ≠ sampleLocals.idle j := by
  rintro t large j rfl
  cases j <;> simp [sampleLocals] at large

/-- Task 2 runs on the first processor, yields and is put back; before it is
    saved, the second processor dequeues it and loads its old stack pointer. -/
theorem processors_share_a_stack :
    (∃ s, (processors sampleLocals).Reachable s ∧ s.pc true = .load 2 ∧ s.suspension 2 ≠ some (s.rsp 2)) ∧
    ∃ s, (processors sampleLocals).Reachable s ∧ (s.sp false).stack = .own 2 ∧ (s.sp true).stack = .own 2 ∧
      ¬ Exclusive s := by
  have created := (System.reachable_initial (M := processors sampleLocals) sample_started)
    |>.step (a := (false,Action.spawn 2)) ⟨.inr rfl,rfl,sample_created 2 (by decide),rfl⟩
    |>.step (a := (false,Action.spawn 3)) ⟨.inr rfl,rfl,sample_created 3 (by decide),rfl⟩
  have running := created.run
    (@kernel_run _ _ _ _ _ _ _ (fun _ _ => True) (fun _ _ => true) (fun _ _ _ => trivial) (List.replicate 5 false) rfl).unrestricted
  have yielding := (running.step (a := (false,Action.move 40)) ⟨rfl,rfl⟩).step (a := (false,Action.yield)) ⟨rfl,rfl⟩
  have taken := yielding.run
    (@kernel_run _ _ _ _ _ _ _ (fun _ _ => True) (fun _ _ => true) (fun _ _ _ => trivial)
      (List.replicate 2 false ++ List.replicate 4 true) rfl).unrestricted
  have loaded := taken.step (a := (true,Action.kernel)) rfl
  refine ⟨⟨_,taken,rfl,by decide⟩,⟨_,loaded,rfl,rfl,?_⟩⟩
  intro exclusive
  exact absurd (exclusive.separate false true rfl) (by decide)

/-- The other processor is not on the stack of the first task in the queue. -/
private def apart (s : State Bool Nat) (i : Bool) : Bool := s.sched.head.all (fun t => decide ((s.sp (!i)).stack ≠ .own t))

private theorem settled_apart (s : State Bool Nat) (i : Bool) {a : Action Nat} (checked : apart s i = true) :
    Settled s (i,a) := by
  intro _ _ t head j other
  obtain rfl : j = !i := by revert other; cases j <;> cases i <;> simp
  simpa [apart,head] using checked

/-- Task 2 yields on the first processor, which saves it and goes on with task 3.
    The second processor dequeues task 2 and resumes it where it was saved. -/
theorem processors_exclusive_two_tasks : ∃ s, ((processors sampleLocals).restrict Settled).Reachable s ∧
    (s.sp false).stack = .own 3 ∧ s.sp true = ⟨.own 2,40⟩ ∧ Exclusive s := by
  have created := (System.reachable_initial (M := (processors sampleLocals).restrict Settled) sample_started)
    |>.step (a := (false,Action.spawn 2)) ⟨settled_apart _ _ rfl,.inr rfl,rfl,sample_created 2 (by decide),rfl⟩
    |>.step (a := (false,Action.spawn 3)) ⟨settled_apart _ _ rfl,.inr rfl,rfl,sample_created 3 (by decide),rfl⟩
  have running := created.run (@kernel_run _ _ _ _ _ _ _ Settled apart (fun s i => settled_apart s i) (List.replicate 5 false) rfl)
  have yielding := (running.step (a := (false,Action.move 40)) ⟨settled_apart _ _ rfl,rfl,rfl⟩).step
    (a := (false,Action.yield)) ⟨settled_apart _ _ rfl,rfl,rfl⟩
  have resumed := yielding.run
    (@kernel_run _ _ _ _ _ _ _ Settled apart (fun s i => settled_apart s i) (List.replicate 5 false ++ List.replicate 5 true) rfl)
  have distinct : Function.Injective sampleLocals.idle := by
    intro i j same
    cases i <;> cases j <;> simp [sampleLocals] at same ⊢
  exact ⟨_,resumed,rfl,rfl,processors_exclusive distinct resumed⟩

end NekoOs.Multicore
