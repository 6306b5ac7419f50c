import NekoOs.Scheduler

/-!
The scheduler functions as atomic steps on any number of processors, now with
timer ticks in tasks and in the worker loop. A tick in the worker loop yields
while `cpu->current` is the idle task of the processor.
-/
namespace NekoOs.Idle
open RunQueue Scheduler Transitions TaskState
universe u v

/-- The machine, the processors that have reached their worker loop, the
    interrupt flags, and the stacks whose code was suspended inside `isr_timer`. -/
structure State (Cpu : Type u) (Task : Type v) where
  machine : Machine Cpu Task
  created : Task → Bool
  entered : Cpu → Bool
  interrupts : Cpu → Bool
  framed : Stack Cpu Task → Bool

inductive Action (Task : Type v)
  /-- `task_create` and `scheduler_enqueue` -/
  | spawn (t : Task)
  /-- `cpu_enter_worker` up to its loop -/
  | enter
  | pick
  | yield
  | exit
  | tick
deriving DecidableEq, Repr

section
variable {Cpu : Type u} {Task : Type v} [DecidableEq Cpu] [DecidableEq Task]

/-- A scheduler function has run with the given interrupt flag, and the code on
    the stack in use goes on: from `isr_timer`, `iretq` enables interrupts. -/
def goOn (s : State Cpu Task) (i : Cpu) (machine : Machine Cpu Task) (interrupts : Bool) : State Cpu Task :=
  { s with
    machine := machine
    interrupts := Function.update s.interrupts i (s.framed (machine.running i) || interrupts)
    framed := Function.update s.framed (machine.running i) false }

/-- One step of processor `i`. The code on the stack in use decides which: tasks
    on their own stacks, the kernel and then the worker loop on a boot stack. -/
def step (c : Locals Cpu Task) (s : State Cpu Task) (i : Cpu) : Action Task → State Cpu Task → Prop
  | .spawn t, s' => (∀ k, s.machine.running i = .boot k → s.entered k = false) ∧ s.created t = false ∧ (∀ j, t ≠ c.idle j) ∧
      s' = { s with created := Function.update s.created t true,
                    machine := { s.machine with sched := scheduler_enqueue s.machine.sched t } }
  | .enter, s' => ∃ k, s.machine.running i = .boot k ∧ s.entered k = false ∧
      s' = { s with entered := Function.update s.entered k true,
                    machine := { s.machine with rsp := Function.update s.machine.rsp (c.idle i) (s.machine.running i),
                                                current := Function.update s.machine.current i (some (c.idle i)) } }
  | .pick, s' => (∃ k, s.machine.running i = .boot k ∧ s.entered k = true) ∧
      s' = goOn s i (worker c s.machine i) (s.interrupts i)
  | .yield, s' => (∃ t, s.machine.running i = .own t) ∧ s' = goOn s i (scheduler_yield c s.machine i) (s.interrupts i)
  | .exit, s' => (∃ t, s.machine.running i = .own t) ∧
      ∃ machine, task_exit c s.machine i = some machine ∧ s' = goOn s i machine (s.interrupts i)
  | .tick, s' => s.interrupts i = true ∧
      s' = goOn { s with framed := Function.update s.framed (s.machine.running i) true } i (scheduler_yield c s.machine i) false

/-- Every processor is in the kernel on its boot stack, some with interrupts
    enabled, and nothing is enqueued. -/
structure Started (s : State Cpu Task) : Prop where
  head : s.machine.sched.head = none
  tail : s.machine.sched.tail = none
  count : s.machine.sched.count = 0
  next : ∀ t, s.machine.sched.next t = none
  state : ∀ t, s.machine.sched.state t = TASK_READY
  created : ∀ t, s.created t = false
  entered : ∀ i, s.entered i = false
  framed : ∀ stack, s.framed stack = false
  current : ∀ i, s.machine.current i = none
  running : ∀ i, s.machine.running i = .boot i
  rsp : ∀ t, s.machine.rsp t = .own t

/-- Any number of processors that take turns in any order. -/
def processors (c : Locals Cpu Task) : System (State Cpu Task) (Cpu × Action Task) where
  initial := Started
  step s a s' := step c s a.1 a.2 s'

/-- No tick arrives at an idle task that is `TASK_RUNNING` while a task waits. -/
def Calm (c : Locals Cpu Task) (s : State Cpu Task) (a : Cpu × Action Task) : Prop :=
  a.2 = .tick → s.machine.current a.1 = some (c.idle a.1) → s.machine.sched.state (c.idle a.1) = TASK_RUNNING →
    s.machine.sched.head = none

/-- No idle task waits in the run queue, and no processor is on the boot stack of another. -/
def Apart (c : Locals Cpu Task) (s : State Cpu Task) : Prop :=
  (∃ l, Queue s.machine.sched l ∧ ∀ i, c.idle i ∉ l) ∧ ∀ i k, s.machine.running i = .boot k → k = i

/-! ### The invariant -/

/-- A processor is on its boot stack with no task or its idle task current, or
    on the stack of its current task, which does not wait. -/
inductive Placed (c : Locals Cpu Task) (m : Machine Cpu Task) (created : Task → Bool) (l : List Task) (i : Cpu) : Prop
  | boot : m.running i = .boot i → m.current i = none ∨ m.current i = some (c.idle i) → Placed c m created l i
  | task (t : Task) : m.running i = .own t → m.current i = some t → created t = true → t ∉ l → m.rsp (c.idle i) = .boot i →
      Placed c m created l i

structure Invariant (c : Locals Cpu Task) (m : Machine Cpu Task) (created : Task → Bool) (l : List Task) : Prop where
  queue : Queue m.sched l
  queued : ∀ t ∈ l, created t = true ∧ m.rsp t = .own t
  notIdle : ∀ t, created t = true → ∀ i, t ≠ c.idle i
  placed : ∀ i, Placed c m created l i
  alone : ∀ i j t, m.running i = .own t → m.running j = .own t → i = j
  fresh : ∀ t, created t = false → (∀ i, t ≠ c.idle i) → m.rsp t = .own t

variable {c : Locals Cpu Task} {s s' : State Cpu Task} {m m' : Machine Cpu Task} {created : Task → Bool}
  {l l' : List Task} {i : Cpu}

omit [DecidableEq Cpu] [DecidableEq Task] in
theorem initial_invariant (started : Started s) : Invariant c s.machine s.created [] := by
  obtain ⟨head,tail,count,next,_,created,_,_,current,running,rsp⟩ := started
  refine ⟨queue_empty head tail count next,by simp,by simp [created],fun i => .boot (running i)
    (.inl (current i)),?_,fun t _ _ => rsp t⟩
  simp [running]

omit [DecidableEq Cpu] [DecidableEq Task] in
theorem Invariant.apart (inv : Invariant c s.machine s.created l) : Apart c s := by
  refine ⟨⟨l,inv.queue,fun i waiting => inv.notIdle _ (inv.queued _ waiting).1 i rfl⟩,fun i k boot => ?_⟩
  cases inv.placed i with
  | boot running => exact Stack.boot.inj (boot.symm.trans running)
  | task t running => cases boot.symm.trans running

/-- A processor switches from its idle task or a created one to its idle task or
    the first task of the queue. -/
theorem switch_invariant (distinct : Function.Injective c.idle) (inv : Invariant c m created l) {saved next : Task}
    (queue : Queue m'.sched l') (current : m'.current = Function.update m.current i (some next))
    (rsp : m'.rsp = Function.update m.rsp saved (m.running i))
    (running : m'.running = Function.update m.running i (m'.rsp next))
    (leaves : saved = c.idle i ∧ m.running i = .boot i ∨ created saved = true ∧ m.running i = .own saved ∧
    m.rsp (c.idle i) = .boot i)
    (enters : next = c.idle i ∨ next ∈ l ∧ next ∉ l') (other : next = saved → next = c.idle i)
    (kept : ∀ t ∈ l', t ∈ l ∨ created saved = true ∧ t = saved) : Invariant c m' created l' := by
  -- the stack pointer of the task that is left
  have own : saved = c.idle i ∧ m'.rsp saved = .boot i ∨ created saved = true ∧ m'.rsp saved = .own saved := by
    rw [rsp,Function.update_self]
    exact leaves.imp_right (fun left => ⟨left.1,left.2.1⟩)
  have idle : m'.rsp (c.idle i) = .boot i := by
    rcases leaves with ⟨same,boot⟩ | ⟨task,_,boot⟩
    · rw [rsp,same,Function.update_self,boot]
    · rw [rsp,Function.update_of_ne (Ne.symm (inv.notIdle _ task i)),boot]
  have entered : next = c.idle i ∧ m'.running i = .boot i ∨ next ∈ l ∧ next ∉ l' ∧ created next = true ∧
      m'.running i = .own next := by
    rw [running,Function.update_self]
    rcases enters with same | ⟨waiting,gone⟩
    · exact .inl ⟨same,by rw [same]; exact idle⟩
    · have waits := inv.queued next waiting
      have different : next ≠ saved := fun same => inv.notIdle next waits.1 i (other same)
      exact .inr ⟨waiting,gone,waits.1,by rw [rsp,Function.update_of_ne different]; exact waits.2⟩
  refine ⟨queue,?_,inv.notIdle,?_,?_,?_⟩
  · intro t waiting
    rcases kept t waiting with old | ⟨task,rfl⟩
    · refine ⟨(inv.queued t old).1,?_⟩
      by_cases same : t = saved
      · subst same
        rcases own with ⟨idles,_⟩ | own
        · exact absurd idles (inv.notIdle t (inv.queued t old).1 i)
        · exact own.2
      · rw [rsp,Function.update_of_ne same]
        exact (inv.queued t old).2
    · rcases own with ⟨idles,_⟩ | own
      · exact absurd idles (inv.notIdle t task i)
      · exact ⟨task,own.2⟩
  · intro j
    by_cases here : j = i
    · subst here
      have isCurrent : m'.current j = some next := by rw [current,Function.update_self]
      rcases entered with ⟨rfl,boot⟩ | ⟨_,gone,task,stack⟩
      · exact .boot boot (.inr isCurrent)
      · exact .task next stack isCurrent task gone idle
    · have stack : m'.running j = m.running j := by rw [running,Function.update_of_ne here]
      have isCurrent : m'.current j = m.current j := by rw [current,Function.update_of_ne here]
      cases inv.placed j with
      | boot boot is => exact .boot (stack.trans boot) (by rw [isCurrent]; exact is)
      | task t running' is task absent boot =>
        refine .task t (stack.trans running') (isCurrent.trans is) task ?_ ?_
        · intro waiting
          rcases kept t waiting with old | ⟨task',rfl⟩
          · exact absent old
          · rcases leaves with ⟨same,_⟩ | ⟨_,left,_⟩
            · exact inv.notIdle t task i same
            · exact here (inv.alone j i t running' left)
        · have different : c.idle j ≠ saved := by
            rintro same
            rcases leaves with ⟨same',_⟩ | ⟨task',_⟩
            · exact here (distinct (same.trans same'))
            · exact inv.notIdle saved task' j same.symm
          rw [rsp,Function.update_of_ne different]
          exact boot
  · have alone (j : Cpu) (t : Task) (here : j ≠ i) (mine : m'.running i = .own t)
      (theirs : m'.running j = .own t) : False := by
      rcases entered with ⟨_,boot⟩ | ⟨waiting,_,_,stack⟩
      · cases mine.symm.trans boot
      · obtain rfl : t = next := Stack.own.inj (mine.symm.trans stack)
        rw [running,Function.update_of_ne here] at theirs
        cases inv.placed j with
        | boot boot => cases theirs.symm.trans boot
        | task u stack' _ _ absent =>
          obtain rfl : t = u := Stack.own.inj (theirs.symm.trans stack')
          exact absent waiting
    intro j k t first second
    by_cases here : j = i
    · subst here
      by_contra different
      exact alone k t (Ne.symm different) first second
    · by_cases there : k = i
      · subst there
        exact (alone j t here second first).elim
      · rw [running,Function.update_of_ne here] at first
        rw [running,Function.update_of_ne there] at second
        exact inv.alone j k t first second
  · intro t new notIdle
    have different : t ≠ saved := by
      rintro rfl
      rcases leaves with ⟨same,_⟩ | ⟨task,_⟩
      · exact notIdle i same
      · rw [new] at task
        cases task
    rw [rsp,Function.update_of_ne different]
    exact inv.fresh t new notIdle

/-- A first switch, before the processor has a current task, saves into its idle task. -/
theorem yield_first (current : m.current i = none) {next : Task} {rest : List Task} (queue : Queue m.sched l)
    (chosen : l = next :: rest ∨ l = [] ∧ rest = [] ∧ next = c.idle i) :
    Queue (scheduler_yield c m i).sched rest ∧ (scheduler_yield c m i).current = Function.update
      m.current i (some next) ∧
    (scheduler_yield c m i).rsp = Function.update m.rsp (c.idle i) (m.running i) ∧
    (scheduler_yield c m i).running = Function.update m.running i ((scheduler_yield c m i).rsp next) := by
  rcases chosen with rfl | ⟨rfl,rfl,rfl⟩
  · obtain ⟨found,queue',_⟩ := queue.dequeue_cons
    have split : scheduler_dequeue m.sched = (some next,(scheduler_dequeue m.sched).2) := Prod.ext found rfl
    rw [scheduler_yield,split,current]
    exact ⟨queue'.run _,rfl,rfl,rfl⟩
  · have idles : scheduler_yield c m i = switchTo c m i none (c.idle i) := by
      simp [scheduler_yield,queue.dequeue_nil,current,isRunning]
    rw [idles]
    exact ⟨queue.run _,rfl,rfl,rfl⟩

/-- A yield keeps the idle task out of the queue unless it is `TASK_RUNNING` and current. -/
theorem yield_invariant (distinct : Function.Injective c.idle) (inv : Invariant c m created l)
    (calm : m.current i = some (c.idle i) → m.sched.state (c.idle i) = TASK_RUNNING → m.sched.head = none) :
    ∃ l', Invariant c (scheduler_yield c m i) created l' := by
  have noIdle : c.idle i ∉ l := fun waiting => inv.notIdle _ (inv.queued _ waiting).1 i rfl
  cases place : inv.placed i with
  | boot running current =>
    have leaves : c.idle i = c.idle i ∧ m.running i = .boot i ∨
      created (c.idle i) = true ∧ m.running i = .own (c.idle i) ∧ m.rsp (c.idle i) = .boot i := .inl ⟨rfl,running⟩
    cases waiting : l with
    | nil =>
      subst waiting
      rcases current with none | idle
      · obtain ⟨queue,current',rsp',running'⟩ := @yield_first _ _ _ _ c _ _ _ none _ _ inv.queue (.inr ⟨rfl,rfl,rfl⟩)
        exact ⟨[],switch_invariant distinct inv queue current' rsp' running' leaves (.inl rfl) (fun _ => rfl) (by simp)⟩
      · by_cases runs : m.sched.state (c.idle i) = TASK_RUNNING
        · rw [yield_alone inv.queue idle runs]
          exact ⟨[],inv⟩
        · obtain ⟨queue,_,current',rsp',running'⟩ := @yield_idle _ _ _ _ c _ _ _ inv.queue idle runs
          rw [requeued,if_neg runs] at queue
          exact ⟨[],switch_invariant distinct inv queue current' rsp' running' leaves (.inl rfl)
            (fun _ => rfl) (by simp)⟩
    | cons next rest =>
      subst waiting
      have gone : next ∉ rest := (List.nodup_cons.mp inv.queue.distinct).1
      have kept : ∀ t ∈ rest, t ∈ next :: rest ∨ created (c.idle i) = true ∧ t = c.idle i :=
        fun t member => .inl (List.mem_cons_of_mem next member)
      rcases current with none | idle
      · obtain ⟨queue,current',rsp',running'⟩ := @yield_first _ _ _ _ c _ _ _ none next rest inv.queue (.inl rfl)
        exact ⟨rest,switch_invariant distinct inv queue current' rsp' running' leaves
          (.inr ⟨List.mem_cons_self,gone⟩) id kept⟩
      · have stopped : m.sched.state (c.idle i) ≠ TASK_RUNNING := fun runs => by
          have empty := calm idle runs
          rw [inv.queue.head_eq] at empty
          cases empty
        obtain ⟨queue,_,current',rsp',running'⟩ := @yield_next _ _ _ _ c _ _ _ _ _ inv.queue idle
          (fun inside => noIdle (List.mem_cons_of_mem next inside))
        rw [requeued,if_neg stopped] at queue
        exact ⟨rest,switch_invariant distinct inv queue current' rsp' running' leaves
          (.inr ⟨List.mem_cons_self,gone⟩) id kept⟩
  | task t running current task absent boot =>
    have leaves : t = c.idle i ∧ m.running i = .boot i ∨ created t = true ∧ m.running i = .own t ∧
        m.rsp (c.idle i) = .boot i :=
      .inr ⟨task,running,boot⟩
    cases waiting : l with
    | nil =>
      subst waiting
      by_cases runs : m.sched.state t = TASK_RUNNING
      · rw [yield_alone inv.queue current runs]
        exact ⟨[],inv⟩
      · obtain ⟨queue,_,current',rsp',running'⟩ := @yield_idle _ _ _ _ c _ _ _ inv.queue current runs
        rw [requeued,if_neg runs] at queue
        exact ⟨[],switch_invariant distinct inv queue current' rsp' running' leaves (.inl rfl) (fun _ => rfl) (by simp)⟩
    | cons next rest =>
      subst waiting
      have gone : next ∉ rest := (List.nodup_cons.mp inv.queue.distinct).1
      have other : next ≠ t := fun same => absent (by simp [same])
      obtain ⟨queue,_,current',rsp',running'⟩ := @yield_next _ _ _ _ c _ _ _ _ _ inv.queue current
        (fun inside => absent (List.mem_cons_of_mem next inside))
      refine ⟨_,switch_invariant distinct inv queue current' rsp' running' leaves (.inr ⟨List.mem_cons_self,?_⟩)
        (fun same => absurd same other) ?_⟩
      · unfold requeued
        split
        · simp [gone,other]
        · exact gone
      · intro u member
        unfold requeued at member
        split at member
        · rcases List.mem_append.mp member with old | new
          · exact .inl (List.mem_cons_of_mem next old)
          · exact .inr ⟨task,List.mem_singleton.mp new⟩
        · exact .inl (List.mem_cons_of_mem next member)

omit [DecidableEq Cpu] in
theorem spawn_invariant (inv : Invariant c m created l) {t : Task} (new : created t = false)
    (notIdle : ∀ j, t ≠ c.idle j) :
    Invariant c { m with sched := scheduler_enqueue m.sched t } (Function.update created t true) (l ++ [t]) := by
  have absent : t ∉ l := fun waiting => by
    have old := (inv.queued t waiting).1
    rw [new] at old
    cases old
  have grows (u : Task) (old : created u = true) : Function.update created t true u = true := by
    rw [Function.update_apply,old,ite_self]
  have cases (u : Task) (now : Function.update created t true u = true) : u = t ∨ created u = true := by
    by_cases same : u = t
    · exact .inl same
    · rw [Function.update_of_ne same] at now
      exact .inr now
  refine ⟨inv.queue.enqueue absent,?_,?_,?_,inv.alone,?_⟩
  · intro u waiting
    rcases List.mem_append.mp waiting with old | single
    · exact ⟨grows u (inv.queued u old).1,(inv.queued u old).2⟩
    · rw [List.mem_singleton.mp single]
      exact ⟨Function.update_self _ _ _,inv.fresh t new notIdle⟩
  · intro u now
    rcases cases u now with rfl | old
    · exact notIdle
    · exact inv.notIdle u old
  · intro j
    cases inv.placed j with
    | boot running current => exact .boot running current
    | task u running current task outside boot =>
      refine .task u running current (grows u task) ?_ boot
      intro waiting
      rcases List.mem_append.mp waiting with old | single
      · exact outside old
      · rw [List.mem_singleton.mp single,new] at task
        cases task
  · intro u fresh
    have different : u ≠ t := by
      rintro rfl
      rw [Function.update_self] at fresh
      cases fresh
    rw [Function.update_of_ne different] at fresh
    exact inv.fresh u fresh

theorem enter_invariant (distinct : Function.Injective c.idle) (inv : Invariant c m created l) {k : Cpu}
    (boot : m.running i = .boot k) :
    Invariant c { m with rsp := Function.update m.rsp (c.idle i) (m.running i),
                         current := Function.update m.current i (some (c.idle i)) } created l := by
  cases inv.placed i with
  | task t running => cases boot.symm.trans running
  | boot running current =>
    -- as if the processor switched from its idle task to its idle task
    refine switch_invariant distinct inv inv.queue rfl rfl ?_ (.inl ⟨rfl,running⟩) (.inl rfl) (fun _ => rfl)
      (fun t waiting => .inl waiting)
    show m.running = Function.update m.running i (Function.update m.rsp (c.idle i) (m.running i) (c.idle i))
    rw [Function.update_self,Function.update_eq_self]

theorem pick_invariant (distinct : Function.Injective c.idle) (inv : Invariant c m created l) {k : Cpu}
    (boot : m.running i = .boot k) :
    ∃ l', Invariant c (worker c m i) created l' := by
  cases inv.placed i with
  | task t running => cases boot.symm.trans running
  | boot running current =>
    cases waiting : l with
    | nil =>
      subst waiting
      rw [worker_alone inv.queue]
      exact ⟨[],inv⟩
    | cons next rest =>
      subst waiting
      have gone : next ∉ rest := (List.nodup_cons.mp inv.queue.distinct).1
      obtain ⟨queue,_,current',rsp',running'⟩ := @worker_next _ _ _ _ c _ i _ _ inv.queue
      exact ⟨rest,switch_invariant distinct inv queue current' rsp' running' (.inl ⟨rfl,running⟩)
        (.inr ⟨List.mem_cons_self,gone⟩) id
        (fun t member => .inl (List.mem_cons_of_mem next member))⟩

omit [DecidableEq Cpu] in
theorem kill_invariant (inv : Invariant c m created l) (t : Task) :
    Invariant c { m with sched := m.sched.kill t } created l := by
  refine ⟨inv.queue.kill,inv.queued,inv.notIdle,fun j => ?_,inv.alone,inv.fresh⟩
  cases inv.placed j with
  | boot running current => exact .boot running current
  | task u running current task absent boot => exact .task u running current task absent boot

omit [DecidableEq Cpu] [DecidableEq Task] in
/-- On the stack of a task, the idle task is not current. -/
theorem Invariant.busy (inv : Invariant c m created l) {t : Task} (own : m.running i = .own t) :
    m.current i ≠ some (c.idle i) := by
  intro idle
  cases inv.placed i with
  | boot running => cases own.symm.trans running
  | task u _ current task => exact inv.notIdle u task i (Option.some.inj (current.symm.trans idle))

theorem step_invariant (distinct : Function.Injective c.idle) {a : Action Task}
    (inv : Invariant c s.machine s.created l) (calm : Calm c s (i,a)) (taken : step c s i a s') :
    ∃ l', Invariant c s'.machine s'.created l' := by
  cases a with
  | spawn t =>
    obtain ⟨_,new,notIdle,rfl⟩ := taken
    exact ⟨_,spawn_invariant inv new notIdle⟩
  | enter =>
    obtain ⟨k,boot,_,rfl⟩ := taken
    exact ⟨l,enter_invariant distinct inv boot⟩
  | pick =>
    obtain ⟨⟨k,boot,_⟩,rfl⟩ := taken
    exact pick_invariant distinct inv boot
  | yield =>
    obtain ⟨⟨t,own⟩,rfl⟩ := taken
    exact yield_invariant distinct inv (fun idle => absurd idle (inv.busy own))
  | exit =>
    obtain ⟨⟨t,own⟩,machine,exited,rfl⟩ := taken
    obtain ⟨u,_,rfl⟩ := Option.map_eq_some_iff.mp exited
    exact yield_invariant distinct (kill_invariant inv u) (fun idle => absurd idle (inv.busy own))
  | tick =>
    obtain ⟨_,rfl⟩ := taken
    exact yield_invariant distinct inv (calm rfl)

/-- In a run whose ticks are calm, no idle task enters the run queue, and every
    worker loop stays on its own processor. -/
theorem idle_stays_out (distinct : Function.Injective c.idle)
    (reached : ((processors c).restrict (Calm c)).Reachable s) : Apart c s := by
  have invariant : ∃ l, Invariant c s.machine s.created l := by
    refine reached.invariant (P := fun s => ∃ l, Invariant c s.machine s.created l)
      (fun s started => ⟨[],initial_invariant started⟩) ?_
    rintro s ⟨i,a⟩ s' ⟨l,inv⟩ ⟨calm,taken⟩
    exact step_invariant distinct inv calm taken
  obtain ⟨l,inv⟩ := invariant
  exact inv.apart

/-- A tick that is not calm puts the idle task into the run queue. -/
theorem tick_enqueues_idle (inv : Invariant c s.machine s.created l) (current : s.machine.current i = some (c.idle i))
    (runs : s.machine.sched.state (c.idle i) = TASK_RUNNING) (waiting : s.machine.sched.head ≠ none)
    (taken : step c s i .tick s') :
    ¬ Apart c s' := by
  obtain ⟨_,rfl⟩ := taken
  cases l with
  | nil => exact absurd inv.queue.head_eq waiting
  | cons next rest =>
    have noIdle : c.idle i ∉ rest := fun inside => inv.notIdle _
      (inv.queued _ (List.mem_cons_of_mem next inside)).1 i rfl
    have queue := (@yield_next _ _ _ _ c _ _ _ _ _ inv.queue current noIdle).queue
    rw [requeued,if_pos runs] at queue
    rintro ⟨⟨l,queue',absent⟩,_⟩
    rw [queue_unique queue' queue] at absent
    exact absent i (by simp)

end

/-! ### Two processors, their idle tasks 0 and 1 and the tasks 2, 3 and 4 -/

def pairLocals : Locals Bool Nat := ⟨fun i => if i then 1 else 0,fun i => if i then 1 else 0⟩

/-- The boot processor has enabled its interrupts, and the other one never does. -/
def pairStart : State Bool Nat where
  machine := ⟨⟨none,none,0,fun _ => none,fun _ => .TASK_READY,fun _ => 0xFF⟩,fun _ => none,.own,.boot⟩
  created := fun _ => false
  entered := fun _ => false
  interrupts := fun i => !i
  framed := fun _ => false

theorem pair_started : Started pairStart :=
  ⟨rfl,rfl,rfl,fun _ => rfl,fun _ => rfl,fun _ => rfl,fun _ => rfl,fun _ => rfl,fun _ => rfl,fun _ => rfl,fun _ => rfl⟩

theorem pair_created {t : Nat} (large : 2 ≤ t) : ∀ j, t ≠ pairLocals.idle j := by
  rintro j rfl
  cases j <;> simp [pairLocals] at large

/-- Task 2 exits while no task waits, and the idle task 0 is `TASK_RUNNING`. Task 3
    creates task 4 on the other processor, and a tick comes before the worker
    loop has picked it: task 0 waits, and the other processor resumes it. -/
theorem idle_enters_queue :
    (∃ s, (processors pairLocals).Reachable s ∧ s.machine.sched.head = some
      (pairLocals.idle false) ∧ ¬ Apart pairLocals s) ∧
    ∃ s, (processors pairLocals).Reachable s ∧ s.machine.running true = .boot false ∧ ¬ Apart pairLocals s := by
  have spawned := (System.reachable_initial (M := processors pairLocals) pair_started)
    |>.step (a := (false,Action.spawn 2)) ⟨fun _ _ => rfl,rfl,pair_created (by decide),rfl⟩
    |>.step (a := (false,Action.spawn 3)) ⟨fun _ _ => rfl,rfl,pair_created (by decide),rfl⟩
  have entered := (spawned.step (a := (false,Action.enter)) ⟨false,rfl,rfl,rfl⟩).step
    (a := (true,Action.enter)) ⟨true,rfl,rfl,rfl⟩
  have picked := (entered.step (a := (false,Action.pick)) ⟨⟨false,rfl,rfl⟩,rfl⟩).step
    (a := (true,Action.pick)) ⟨⟨true,rfl,rfl⟩,rfl⟩
  have idles := picked.step (a := (false,Action.exit)) ⟨⟨2,rfl⟩,_,rfl,rfl⟩
  have waiting := idles.step (a := (true,Action.spawn 4))
    ⟨fun _ boot => (by cases boot),rfl,pair_created (by decide),rfl⟩
  have ticked := waiting.step (a := (false,Action.tick)) ⟨rfl,rfl⟩
  have resumed := ticked.step (a := (true,Action.exit)) ⟨⟨3,rfl⟩,_,rfl,rfl⟩
  refine ⟨⟨_,ticked,rfl,?_⟩,⟨_,resumed,rfl,fun apart => absurd (apart.2 true false rfl) (by decide)⟩⟩
  rintro ⟨⟨l,queue,absent⟩,_⟩
  have first : l.head? = some (pairLocals.idle false) := queue.head_eq.symm
  exact absent false (List.mem_of_head? first)

theorem pair_distinct : Function.Injective pairLocals.idle := by
  intro i j same
  cases i <;> cases j <;> simp [pairLocals] at same ⊢

/-- A tick in task 2 hands the boot processor to task 3. -/
theorem idle_stays_out_tick : ∃ s, ((processors pairLocals).restrict (Calm pairLocals)).Reachable s ∧
    s.machine.running false = .own 3 ∧ Apart pairLocals s := by
  have calm (s : State Bool Nat) (a : Bool × Action Nat) (other : a.2 ≠ .tick) : Calm pairLocals s a :=
    fun tick => absurd tick other
  have spawned := (System.reachable_initial (M := (processors pairLocals).restrict (Calm pairLocals)) pair_started)
    |>.step (a := (false,Action.spawn 2)) ⟨calm _ _ (by decide),fun _ _ => rfl,rfl,pair_created (by decide),rfl⟩
    |>.step (a := (false,Action.spawn 3)) ⟨calm _ _ (by decide),fun _ _ => rfl,rfl,pair_created (by decide),rfl⟩
  have entered := spawned.step (a := (false,Action.enter)) ⟨calm _ _ (by decide),false,rfl,rfl,rfl⟩
  have picked := entered.step (a := (false,Action.pick)) ⟨calm _ _ (by decide),⟨false,rfl,rfl⟩,rfl⟩
  have ticked := picked.step (a := (false,Action.tick)) ⟨fun _ idle => absurd idle (by decide),rfl,rfl⟩
  exact ⟨_,ticked,rfl,idle_stays_out pair_distinct ticked⟩

end NekoOs.Idle
