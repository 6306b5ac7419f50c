import NekoOs.Handover

/-!
No task is lost as long as every tick is harmless: what each step of the boot
processor does to the run queue and to the tasks in hand.
-/
namespace NekoOs.Conservation
open RunQueue TaskState Transitions Preemption Handover
open Scheduler (Locals Stack isRunning)
open Contexts (Switching)
open Custody (Threads)
open Spinlocks (Deadlocked Unlocked)
universe v

section
variable {Task : Type v} [DecidableEq Task] {c : Locals Unit Task} {s s' : State Task} {r t n : Task} {l l' : List Task}
  {ops rest base : List (Op Task)} {choice : Choice Task}

/-! ### Code that is not in the middle of a switch -/

theorem steady_next (steady : Steady c s r l) (running : s'.running.ops = ops) (absent : r ∉ l')
    (current : s'.current = s.current ∨ s'.current = some r) (state : s'.sched.state r = s.sched.state r)
    (interrupts : s'.interrupts = s.interrupts) (shaped : Shaped c r ops) (distinct : (hands r ops).Nodup)
    (passive : r = c.idle () → Passive r s.running.ops → Passive r ops) : Steady c s' r l' := by
  refine ⟨absent,?_,running ▸ shaped,running ▸ distinct,?_⟩
  · rcases current with same | own
    · rw [same]
      exact steady.mine
    · rw [own]
      rfl
  · rw [running,state,interrupts]
    rcases steady.runs with ⟨own,runs,masked⟩ | ⟨idle,before⟩
    · exact .inl ⟨current.elim (·.trans own) id,runs,fun idle => (masked idle).imp_left (passive idle)⟩
    · exact .inr ⟨idle,passive idle before⟩

/-- Code that goes on without a change to the scheduler. -/
theorem steady_goes_on (core : Core c s r l) (steady : Steady c s r l) (ops : List (Op Task))
    (onward : Onward s s' ops) (created : s'.created = s.created) (sched : s'.sched = s.sched)
    (current : s'.current = s.current ∨ s'.current = some r) (interrupts : s'.interrupts = s.interrupts)
    (same : hands r ops = hands r s.running.ops) (arms : ∀ n, Armed n ops → Armed n s.running.ops)
    (shaped : Shaped c r ops) (passive : r = c.idle () → Passive r s.running.ops → Passive r ops) :
    Invariant c s' := by
  have running : s'.running.ops = ops := by rw [onward.running]
  refine ⟨r,l,core.goes_on onward created sched ?_ same arms,.steady
    (steady_next steady running steady.absent current ?_ interrupts
    shaped (same ▸ steady.distinct) passive)⟩
  · rcases current with unchanged | own
    · rw [unchanged]
    · rw [own,steady.mine]
      rfl
  · rw [sched]

/-- Code that yields runs as `TASK_RUNNING`. -/
theorem steady_running (steady : Steady c s r l) {op : Op Task} (ops : s.running.ops = op :: rest)
    (yielding : yields r op = true) :
    s.current = some r ∧ s.sched.state r = TASK_RUNNING ∧ (r = c.idle () → s.interrupts = false) := by
  have active : ¬ Passive r s.running.ops := by
    rw [ops,passive_cons,yielding]
    simp
  rcases steady.runs with ⟨own,runs,masked⟩ | ⟨_,passive⟩
  · exact ⟨own,runs,fun idle => (masked idle).resolve_left active⟩
  · exact (active passive).elim

/-- What the code of a task and of `kernel_main` can do next. -/
theorem code_step (core : Core c s r l) (steady : Steady c s r l) (ops : s.running.ops = .code :: rest)
    (taken : exec c s choice = some s') : Invariant c s' := by
  have shaped := steady.shaped
  rw [ops] at shaped
  obtain ⟨rfl,_⟩ : rest = [] ∧ Shaped c r rest := shaped_tail shaped (by simp)
  have stack := core.place
  simp only [exec,ops] at taken
  split at taken
  · cases taken
    refine steady_goes_on core steady (klog ++ [.code]) ⟨rfl,rfl⟩ rfl rfl (.inl rfl) rfl ?_ ?_ (shaped_klog shaped) ?_
    · rw [ops]
      rfl
    · rw [ops]
      exact fun _ armed => armed
    · rw [ops]
      exact fun _ passive => passive_append.mpr ⟨passive_klog,passive⟩
  · rename_i t
    by_cases old : s.created t = true ∨ t = c.idle ()
    · rw [if_pos old] at taken
      cases taken
    · rw [if_neg old] at taken
      cases taken
      rw [not_or,Bool.not_eq_true] at old
      have live : (custody c s l).Live r := (show (custody c s l).running = r from steady.mine) ▸ Threads.live_running
      have other : t ≠ r := by
        rintro rfl
        rcases core.known t live with known | idle
        · rw [old.1] at known
          cases known
        · exact old.2 idle
      have grown : hands r (klog ++ klog ++ enqueue t ++ [.code]) = t :: hands r s.running.ops := by
        rw [ops]
        exact hands_some (show hand (.link t) = some t from rfl) other
      have single : hands r s.running.ops = [] := by
        rw [ops]
        rfl
      refine ⟨r,l,core.spawns ⟨rfl,rfl⟩ rfl old.1 old.2 rfl rfl steady.mine grown ?_,.steady ?_⟩
      · rw [ops]
        exact fun _ _ _ armed => armed
      · refine steady_next steady (by rfl) steady.absent (.inl rfl) rfl rfl ?_ ?_ ?_
        · exact shaped_klog (shaped_klog (shaped_enqueue other shaped))
        · rw [grown,single]
          exact List.nodup_singleton t
        · rw [ops]
          intro _ passive
          refine passive_append.mpr ⟨?_,passive⟩
          simp [Passive,klog,enqueue,yields,other]
  · rename_i own
    rw [own] at stack
    have busy := (stackOf_own stack.symm).2
    cases taken
    refine steady_goes_on core steady (.scheduler_yield :: [.code]) ⟨rfl,rfl⟩ rfl rfl (.inl rfl) rfl ?_ ?_
      (.cons (fun idle => (busy idle).elim) shaped)
      (fun idle => (busy idle).elim)
    · rw [ops]
      rfl
    · rw [ops]
      exact fun _ armed => armed
  · rename_i own
    rw [own] at stack
    have busy := (stackOf_own stack.symm).2
    cases taken
    refine steady_goes_on core steady [.task_exit] ⟨rfl,rfl⟩ rfl rfl (.inl rfl) rfl ?_ ?_ (.cons ⟨busy,rfl⟩ .nil)
      (fun idle => (busy idle).elim)
    · rw [ops]
      rfl
    · rw [ops]
      exact fun _ armed => armed
  · rename_i boot
    rw [boot] at stack
    have idle := stackOf_boot stack.symm
    cases taken
    refine steady_goes_on core steady (enterWorker ++ []) ⟨rfl,rfl⟩ rfl rfl (.inl rfl) rfl ?_ ?_ ?_ ?_
    · rw [ops]
      rfl
    · rw [ops]
      exact fun _ armed => armed
    · exact shaped_klog (.cons idle (.cons idle (shaped_klog (.cons ⟨idle,rfl⟩ .nil))))
    · intro _ _
      simp [Passive,enterWorker,klog,yields]
  · cases taken

/-- A step that only leads to the next one. -/
theorem passes_step (core : Core c s r l) (steady : Steady c s r l) {op : Op Task} (ops : s.running.ops = op :: rest)
    (onward : Onward s s' rest) (created : s'.created = s.created) (sched : s'.sched = s.sched)
    (current : s'.current = s.current ∨ s'.current = some r) (interrupts : s'.interrupts = s.interrupts)
    (skip : hand op = none) (prepares : ∀ t, op ≠ .makeReady t) (arms : ∀ n, Armed n rest → Armed n (op :: rest)) :
    Invariant c s' := by
  have shaped := steady.shaped
  rw [ops] at shaped
  refine steady_goes_on core steady rest onward created sched current interrupts ?_ ?_
    (shaped_tail shaped prepares).2 ?_
  · rw [ops,hands_skip skip]
  · rw [ops]
    exact arms
  · rw [ops]
    exact fun _ passive => (passive_cons.mp passive).2

/-- `scheduler_enqueue` for another task, or for the one that runs and is about to leave. -/
theorem makeReady_step (core : Core c s r l) (steady : Steady c s r l) (ops : s.running.ops = .makeReady t :: rest)
    (taken : exec c s choice = some s') : Invariant c s' := by
  have shaped := steady.shaped
  have distinct := steady.distinct
  rw [ops] at shaped distinct
  simp only [exec,ops,Option.some.injEq] at taken
  subst taken
  have arms (n : Task) (armed : Armed n rest) : Armed n s.running.ops := by
    rw [ops]
    exact armed
  cases shaped with
  | cons after later =>
    obtain ⟨other,tail,rfl⟩ := after
    have held : hands r (.makeReady t :: .acquire .run_queue :: .link t :: tail) = t :: hands r tail :=
      hands_some (show hand (.link t) = some t from rfl) other
    rw [held,List.nodup_cons] at distinct
    refine ⟨r,l,core.readies ⟨rfl,rfl⟩ rfl rfl rfl steady.mine (by rw [ops]; rfl) arms (.inr ?_) ?_,.steady ?_⟩
    · rw [ops,held]
      exact List.mem_cons_self
    · intro _ _ armed
      rw [ops] at armed
      exact distinct.1 (mem_hands.mpr ⟨armed_inHand armed,other⟩)
    · refine steady_next steady (by rfl) steady.absent (.inl rfl) (Function.update_of_ne other.symm _ _) rfl later ?_ ?_
      · have same : hands r (.acquire .run_queue :: .link t :: tail) = t :: hands r tail := held
        rw [same]
        exact List.nodup_cons.mpr distinct
      · rw [ops]
        exact fun _ passive => (passive_cons.mp passive).2
  | @requeues n base other passive later =>
    obtain ⟨_,_,masked⟩ := steady_running steady ops (by simp [yields])
    have held : hands r (.makeReady r :: Leaving.acquiring.ops r n ++ base) = n :: hands r base :=
      (hands_own (show hand (.link r) = some r from rfl)).trans
        (hands_some (show hand (.setCurrent r n) = some n from rfl) other)
    refine ⟨r,l,core.readies ⟨rfl,rfl⟩ rfl rfl rfl steady.mine (by rw [ops,hands_skip rfl]) arms
      (.inl ⟨rfl,steady.absent⟩)
      (fun _ same => (same rfl).elim),.leaving .acquiring n base ⟨rfl,?_,steady.mine,other,?_,later,?_,?_,?_⟩⟩
    · exact ⟨fun waits => (steady.absent waits).elim,fun linked => (by cases linked)⟩
    · exact Function.update_self _ _ _
    · exact held ▸ distinct
    · exact fun idle => ⟨masked idle,passive idle⟩
    · intro impossible
      cases impossible

theorem link_step (core : Core c s r l) (steady : Steady c s r l) (ops : s.running.ops = .link t :: rest)
    (taken : exec c s choice = some s') : Invariant c s' := by
  have shaped := steady.shaped
  have distinct := steady.distinct
  rw [ops] at shaped distinct
  obtain ⟨other,later⟩ : t ≠ r ∧ Shaped c r rest := shaped_tail shaped (by simp)
  rw [hands_some rfl other,List.nodup_cons] at distinct
  simp only [exec,ops,Option.some.injEq] at taken
  subst taken
  refine ⟨r,l ++ [t],core.puts (t := t) ⟨rfl,rfl⟩ rfl rfl rfl steady.mine (by rw [ops,hands_some rfl other])
    distinct.1 ?_,.steady ?_⟩
  · rw [ops]
    exact fun _ armed => armed
  · refine steady_next steady (by rfl) ?_ (.inl rfl) (by rw [link_state]) rfl later distinct.2 ?_
    · rw [List.mem_append,List.mem_singleton,not_or]
      exact ⟨steady.absent,other.symm⟩
    · rw [ops]
      exact fun _ passive => (passive_cons.mp passive).2

/-- `scheduler_dequeue` -/
theorem unlink_step (core : Core c s r l) (steady : Steady c s r l) {caller : Caller Task}
    (ops : s.running.ops = .unlink caller :: rest) (taken : exec c s choice = some s') : Invariant c s' := by
  have shaped := steady.shaped
  rw [ops] at shaped
  obtain ⟨after,later⟩ := shaped_tail shaped (by simp)
  have follows (next : Option Task) (other : next ≠ some r) :
      Shaped c r (.release .run_queue :: .dequeued caller next :: rest) := by
    refine .cons trivial (.cons ?_ later)
    cases caller with
    | scheduler_yield old => exact ⟨after.1,other,after.2⟩
    | worker => exact ⟨after.1,other,after.2⟩
  have passive (next : Option Task) (before : Passive r s.running.ops) :
      Passive r (.release .run_queue :: .dequeued caller next :: rest) := by
    rw [ops,passive_cons] at before
    refine passive_cons.mpr ⟨rfl,passive_cons.mpr ⟨?_,before.2⟩⟩
    cases caller with
    | scheduler_yield old => exact before.1
    | worker => rfl
  simp only [exec,ops,Option.some.injEq] at taken
  subst taken
  cases l with
  | nil =>
    rw [core.queue.dequeue_nil]
    refine steady_goes_on core steady (.release .run_queue :: .dequeued caller none :: rest)
      ⟨rfl,rfl⟩ rfl rfl (.inl rfl) rfl ?_ ?_
      (follows none (by simp)) (fun _ => passive none)
    · rw [ops]
      rfl
    · rw [ops]
      exact fun _ armed => armed
  | cons t l =>
    have found := (core.queue.dequeue_cons).1
    have other : t ≠ r := fun same => steady.absent (by simp [same])
    have absent : r ∉ l := fun waits => steady.absent (List.mem_cons_of_mem t waits)
    have live : (custody c s (t :: l)).Live r := (show (custody c s (t :: l)).running = r
      from steady.mine) ▸ Threads.live_running
    have before : hands r s.running.ops = hands r rest := by
      rw [ops]
      rfl
    have grown : hands r (.release .run_queue :: .dequeued caller (some t) :: rest) = t :: hands r s.running.ops := by
      rw [before]
      exact hands_some (show hand (.dequeued caller (some t)) = some t from rfl) other
    have once : t ∉ hands r s.running.ops := fun held =>
      core.sound.queued r t live (custody_here core.place ▸ held) List.mem_cons_self
    rw [found]
    refine ⟨r,l,core.takes (t := t) ⟨rfl,rfl⟩ rfl rfl rfl steady.mine steady.absent grown ?_,.steady ?_⟩
    · rw [ops]
      exact fun _ armed => armed
    · refine steady_next steady (by rfl) absent (.inl rfl) ?_ rfl (follows (some t) (by simpa using other)) ?_
        (fun _ => passive (some t))
      · exact congrFun core.queue.dequeue_cons.2.2 r
      · rw [grown]
        exact List.nodup_cons.mpr ⟨once,steady.distinct⟩

/-- The test of the result of `scheduler_dequeue`. -/
theorem dequeued_step (core : Core c s r l) (steady : Steady c s r l) {caller : Caller Task} {next : Option Task}
    (ops : s.running.ops = .dequeued caller next :: rest) (taken : exec c s choice = some s') : Invariant c s' := by
  have shaped := steady.shaped
  rw [ops] at shaped
  obtain ⟨after,later⟩ := shaped_tail shaped (by simp)
  simp only [exec,ops,Option.some.injEq] at taken
  subst taken
  cases caller with
  | worker =>
    obtain ⟨rfl,other,passive⟩ := after
    cases next with
    | none =>
      refine steady_goes_on core steady rest ⟨rfl,rfl⟩ rfl rfl (.inl rfl) rfl ?_ ?_ later (fun _ _ => passive)
      · rw [ops]
        rfl
      · rw [ops]
        exact fun _ armed => armed
    | some t =>
      have different : t ≠ c.idle () := fun same => other (by rw [same])
      have picked : Passive (c.idle ()) (klog ++ rest) := passive_append.mpr ⟨passive_klog,passive⟩
      refine steady_goes_on core steady (klog ++ switchTo (c.idle ()) t ++ klog ++ rest) ⟨rfl,rfl⟩ rfl rfl
        (.inl rfl) rfl ?_ ?_ ?_ ?_
      · rw [ops]
        rfl
      · rw [ops]
        rintro n ⟨apart,same | armed⟩
        · exact (apart same).elim
        · exact armed
      · exact shaped_klog (.cons ⟨rfl,_,rfl⟩ (.cons ⟨rfl,rfl,different,picked⟩ (shaped_klog later)))
      · intro _ _
        exact passive_append.mpr ⟨by simp [Passive,klog,switchTo,yields],passive⟩
  | scheduler_yield old =>
    obtain ⟨rfl,other,passive⟩ := after
    obtain ⟨_,runs,_⟩ := steady_running steady ops rfl
    cases next with
    | none =>
      have stays : afterDequeue c s.sched (.scheduler_yield (some r)) none = [] := if_pos (by simp [isRunning,runs])
      rw [stays]
      refine steady_goes_on core steady rest ⟨rfl,rfl⟩ rfl rfl (.inl rfl) rfl ?_ ?_ later (fun idle _ => passive idle)
      · rw [ops]
        rfl
      · rw [ops]
        exact fun _ armed => armed
    | some t =>
      have different : t ≠ r := fun same => other (by rw [same])
      refine steady_goes_on core steady (.requeue (some r) t :: rest) ⟨rfl,rfl⟩ rfl rfl (.inl rfl) rfl ?_ ?_
        (.cons ⟨rfl,different,passive⟩ later) ?_
      · rw [ops]
        rfl
      · rw [ops]
        exact fun _ armed => armed
      · rw [ops]
        intro _ before
        exact absurd (passive_cons.mp before).1 (by simp [yields])

/-- A task that is `TASK_RUNNING` enqueues itself. -/
theorem requeue_step (core : Core c s r l) (steady : Steady c s r l) {old : Option Task}
    (ops : s.running.ops = .requeue old n :: rest) (taken : exec c s choice = some s') : Invariant c s' := by
  have shaped := steady.shaped
  rw [ops] at shaped
  obtain ⟨⟨rfl,other,passive⟩,later⟩ := shaped_tail shaped (by simp)
  obtain ⟨_,runs,_⟩ := steady_running steady ops rfl
  simp only [exec,ops,if_pos runs,Option.getD_some,Option.some.injEq] at taken
  subst taken
  refine steady_goes_on core steady (enqueue r ++ switchTo r n ++ rest) ⟨rfl,rfl⟩ rfl rfl (.inl rfl) rfl ?_ ?_
    (.requeues other passive later) ?_
  · rw [ops]
    exact hands_own (show hand (.link r) = some r from rfl)
  · rw [ops]
    rintro m ⟨apart,same | armed⟩
    · exact (apart same).elim
    · exact armed
  · rw [ops]
    intro _ before
    exact absurd (passive_cons.mp before).1 (by simp [yields])

theorem setRunning_step (core : Core c s r l) (steady : Steady c s r l) (ops : s.running.ops = .setRunning t :: rest)
    (taken : exec c s choice = some s') : Invariant c s' := by
  have shaped := steady.shaped
  rw [ops] at shaped
  obtain ⟨⟨_,tail,rfl⟩,later⟩ := shaped_tail shaped (by simp)
  have other : t ≠ r := (shaped_tail later (by simp)).1.2.2.1
  simp only [exec,ops,Option.some.injEq] at taken
  subst taken
  refine ⟨r,l,core.marks ⟨rfl,rfl⟩ rfl ops rfl rfl steady.mine (.inr ?_),.steady ?_⟩
  · rw [ops]
    exact mem_hands.mpr ⟨⟨.setCurrent r t,by simp,rfl⟩,other⟩
  · refine steady_next steady (by rfl) steady.absent (.inl rfl) (Function.update_of_ne other.symm _ _) rfl later ?_ ?_
    · have distinct := steady.distinct
      rw [ops,hands_skip rfl] at distinct
      exact distinct
    · rw [ops]
      exact fun _ passive => (passive_cons.mp passive).2

/-- The worker loop switches to the task it has picked. -/
theorem setCurrent_step (core : Core c s r l) (steady : Steady c s r l) {old : Task}
    (ops : s.running.ops = .setCurrent old n :: rest) (taken : exec c s choice = some s') : Invariant c s' := by
  have shaped := steady.shaped
  rw [ops] at shaped
  obtain ⟨⟨idle,rfl,other,passive⟩,later⟩ := shaped_tail shaped (by simp)
  simp only [exec,ops,Option.some.injEq] at taken
  subst taken
  have held : hands old s.running.ops = n :: hands old rest := by
    rw [ops]
    exact hands_some rfl other
  have distinct := steady.distinct
  rw [held,List.nodup_cons] at distinct
  have onward : Onward s { s with current := some n, running := { s.running with ops := .save old n :: rest } }
      (.save old n :: rest) :=
    ⟨rfl,rfl⟩
  obtain ⟨core',_,absent,_⟩ := core.switches onward rfl rfl rfl steady.mine held (by rw [ops]; exact fun _ => .inr)
    (.inl ⟨.inr idle,distinct.1⟩)
  have ready : s.sched.state n = TASK_RUNNING := by
    refine core.armed n (idle ▸ other) ?_
    rw [← idle,pending_here core.place,ops]
    exact .inl rfl
  exact ⟨old,l,core',.switching none n rest ⟨.inl rfl,by simp,rfl,absent,ready,fun _ =>
    ⟨later,distinct.2,fun _ => passive⟩,
    fun same => (other same).elim,.inr idle⟩⟩

/-- `task_exit` marks the task dead, and goes on to yield. -/
theorem setDead_step (core : Core c s r l) (steady : Steady c s r l) (ops : s.running.ops = .setDead :: rest)
    (taken : exec c s choice = some s') : Invariant c s' := by
  have shaped := steady.shaped
  rw [ops] at shaped
  obtain ⟨⟨busy,tail,rfl,empty⟩,_⟩ := shaped_tail shaped (by simp)
  have current : s.current = some r := steady.runs.elim And.left (fun idle => (busy idle.1).elim)
  simp only [exec,ops] at taken
  obtain ⟨t,found,rfl⟩ := Option.map_eq_some_iff.mp taken
  obtain rfl : t = r := Option.some.inj (found.symm.trans current)
  have dead : (s.sched.kill t).state t = TASK_DEAD := Function.update_self _ _ _
  refine ⟨t,l,core.dies ⟨rfl,rfl⟩ rfl ops rfl rfl steady.mine busy,.resigning .entered tail
    ⟨by rfl,steady.mine,steady.absent,?_,?_,
    .inl ⟨busy,dead,?_⟩,?_,?_⟩⟩
  · intro _
    show isRunning (s.sched.kill t) s.current = false
    simp [isRunning,current]
  · simp [Resigning.next]
  · rw [empty]
    simp
  · simp
  · simp

theorem steady_step (core : Core c s r l) (steady : Steady c s r l) (taken : exec c s choice = some s') :
    Invariant c s' := by
  cases ops : s.running.ops with
  | nil => simp [exec,ops] at taken
  | cons op rest =>
    have shaped := steady.shaped
    rw [ops] at shaped
    cases op with
    | code => exact code_step core steady ops taken
    | makeReady t => exact makeReady_step core steady ops taken
    | link t => exact link_step core steady ops taken
    | unlink caller => exact unlink_step core steady ops taken
    | dequeued caller next => exact dequeued_step core steady ops taken
    | requeue old next => exact requeue_step core steady ops taken
    | setRunning t => exact setRunning_step core steady ops taken
    | setCurrent old next => exact setCurrent_step core steady ops taken
    | setDead => exact setDead_step core steady ops taken
    | save | load => exact (shaped_tail shaped (by simp)).1.elim
    | task_exit =>
      obtain ⟨⟨busy,rfl⟩,_⟩ := shaped_tail shaped (by simp)
      simp only [exec,ops,Option.some.injEq] at taken
      subst taken
      refine steady_goes_on core steady (klog ++ [.setDead,.scheduler_yield,.task_exit])
        ⟨rfl,rfl⟩ rfl rfl (.inl rfl) rfl ?_ ?_ ?_
        (fun idle => (busy idle).elim)
      · rw [ops]
        rfl
      · rw [ops]
        exact fun _ armed => armed
      · exact shaped_klog (.cons ⟨busy,_,rfl,rfl⟩ (.cons (fun idle => (busy idle).elim) shaped))
    | worker =>
      obtain ⟨⟨idle,rfl⟩,_⟩ := shaped_tail shaped (by simp)
      simp only [exec,ops,Option.some.injEq] at taken
      subst taken
      have passive : Passive r [.worker] := by simp [Passive,yields]
      refine steady_goes_on core steady [.acquire .run_queue,.unlink .worker,.worker] ⟨rfl,rfl⟩ rfl rfl
        (.inl rfl) rfl ?_ ?_ ?_ ?_
      · rw [ops]
        rfl
      · rw [ops]
        exact fun _ armed => armed
      · exact .cons trivial (.cons ⟨idle,passive⟩ shaped)
      · intro _ _
        simp [Passive,yields]
    | acquire lock =>
      cases free : s.locked lock with
      | none =>
        simp only [exec,ops,free,Option.some.injEq] at taken
        subst taken
        exact passes_step core steady ops ⟨rfl,rfl⟩ rfl rfl (.inl rfl) rfl rfl (by simp) (fun _ armed => armed)
      | some holder =>
        simp only [exec,ops,free,Option.some.injEq] at taken
        subst taken
        exact ⟨r,l,core,.steady steady⟩
    | release | kvlog =>
      simp only [exec,ops,Option.some.injEq] at taken
      subst taken
      exact passes_step core steady ops ⟨rfl,rfl⟩ rfl rfl (.inl rfl) rfl rfl (by simp) (fun _ armed => armed)
    | scheduler_yield =>
      obtain ⟨passive,later⟩ := shaped_tail shaped (by simp)
      obtain ⟨current,_,_⟩ := steady_running steady ops rfl
      simp only [exec,ops,current,Option.some.injEq] at taken
      subst taken
      refine steady_goes_on core steady (.acquire .run_queue :: .unlink (.scheduler_yield (some r)) :: rest)
        ⟨rfl,rfl⟩ rfl rfl (.inl current.symm)
        rfl ?_ ?_ (.cons trivial (.cons ⟨rfl,passive⟩ later)) ?_
      · rw [ops]
        rfl
      · rw [ops]
        exact fun _ armed => armed
      · rw [ops]
        intro _ before
        exact absurd (passive_cons.mp before).1 (by simp [yields])
    | iretq interrupts =>
      obtain ⟨passive,later⟩ := shaped_tail shaped (by simp)
      simp only [exec,ops,Option.some.injEq] at taken
      subst taken
      refine ⟨r,l,core.goes_on ⟨rfl,rfl⟩ rfl rfl rfl ?_ ?_,.steady ⟨steady.absent,steady.mine,later,?_,?_⟩⟩
      · rw [ops]
        rfl
      · rw [ops]
        exact fun _ armed => armed
      · have distinct := steady.distinct
        rw [ops,hands_skip rfl] at distinct
        exact distinct
      · rcases steady.runs with ⟨current,runs,_⟩ | ⟨idle,_⟩
        · exact .inl ⟨current,runs,fun idle => .inl (passive idle)⟩
        · exact .inr ⟨idle,passive idle⟩
    | saveIdle =>
      obtain ⟨idle,later⟩ := shaped_tail shaped (by simp)
      simp only [exec,ops,Option.some.injEq] at taken
      subst taken
      have saved := core.saves rest ⟨s.running.stack,rest⟩ (by rw [ops]; rfl)
        (by rw [ops]; exact fun _ armed => armed) (.inr idle)
      rw [idle] at saved steady later
      refine ⟨c.idle (),l,saved,.steady (steady_next steady (by rfl) steady.absent (.inl rfl) rfl rfl later ?_ ?_)⟩
      · have distinct := steady.distinct
        rw [ops,hands_skip rfl] at distinct
        exact distinct
      · rw [ops]
        exact fun _ passive => (passive_cons.mp passive).2
    | setIdle =>
      obtain ⟨idle,_⟩ := shaped_tail shaped (by simp)
      simp only [exec,ops,Option.some.injEq] at taken
      subst taken
      exact passes_step core steady ops ⟨rfl,rfl⟩ rfl rfl (.inr (congrArg some (Eq.symm idle))) rfl rfl
        (by simp) (fun _ armed => armed)

/-! ### A task on its way into the queue -/

/-- What stays the same while such a task goes on. -/
theorem leaving_next {at' next' : Leaving} (leaves : Leaves c s r l at' n base)
    (running : s'.running.ops = next'.ops r n ++ base) (linked : r ∈ l' ↔ next'.linked = true)
    (current : s'.current = s.current) (state : s'.sched.state r = s.sched.state r)
    (interrupts : s'.interrupts = s.interrupts) (ready : next' = .storing → s'.sched.state n = TASK_RUNNING) :
    Leaves c s' r l' next' n base :=
  ⟨running,linked,current ▸ leaves.mine,leaves.other,state ▸
    leaves.waits,leaves.shaped,leaves.distinct,interrupts ▸ leaves.masked,ready⟩

theorem leaving_step {at' : Leaving} (core : Core c s r l) (leaves : Leaves c s r l at' n base)
    (taken : exec c s choice = some s') :
    Invariant c s' := by
  have ops := leaves.ops
  have linked := leaves.linked
  cases at' with
  | acquiring =>
    cases free : s.locked .run_queue with
    | none =>
      simp only [Leaving.ops,List.cons_append] at ops
      simp only [exec,ops,free,Option.some.injEq] at taken
      subst taken
      refine ⟨r,l,core.goes_on ⟨rfl,rfl⟩ rfl rfl rfl ?_ ?_,.leaving .linking n base
        (leaving_next leaves (by rfl) linked rfl rfl rfl (by simp))⟩
      · rw [ops]
        rfl
      · rw [ops]
        exact fun _ armed => armed
    | some holder =>
      simp only [Leaving.ops,List.cons_append] at ops
      simp only [exec,ops,free,Option.some.injEq] at taken
      subst taken
      exact ⟨r,l,core,.leaving .acquiring n base leaves⟩
  | linking =>
    have absent : r ∉ l := fun waits => by simpa [Leaving.linked] using linked.mp waits
    simp only [Leaving.ops,List.cons_append] at ops
    simp only [exec,ops,Option.some.injEq] at taken
    subst taken
    refine ⟨r,l ++ [r],core.puts_running ⟨rfl,rfl⟩ rfl rfl rfl leaves.mine absent ?_ ?_,
      .leaving .releasing n base (leaving_next leaves (by rfl) (by simp [Leaving.linked]) rfl
        (by rw [link_state]) rfl (by simp))⟩
    · rw [ops]
      exact (hands_own (show hand (.link r) = some r from rfl)).symm
    · rw [ops]
      exact fun _ armed => armed
  | releasing =>
    simp only [Leaving.ops,List.cons_append] at ops
    simp only [exec,ops,Option.some.injEq] at taken
    subst taken
    refine ⟨r,l,core.goes_on ⟨rfl,rfl⟩ rfl rfl rfl ?_ ?_,.leaving .marking n base
      (leaving_next leaves (by rfl) linked rfl rfl rfl (by simp))⟩
    · rw [ops]
      rfl
    · rw [ops]
      exact fun _ armed => armed
  | marking =>
    simp only [Leaving.ops,List.cons_append] at ops
    simp only [exec,ops,Option.some.injEq] at taken
    subst taken
    refine ⟨r,l,core.marks ⟨rfl,rfl⟩ rfl ops rfl rfl leaves.mine (.inr ?_),.leaving .storing n base
      (leaving_next leaves (by rfl) linked rfl
      (Function.update_of_ne leaves.other.symm _ _) rfl (fun _ => Function.update_self _ _ _))⟩
    rw [ops]
    exact mem_hands.mpr ⟨⟨.setCurrent r n,by simp,rfl⟩,leaves.other⟩
  | storing =>
    have waits : r ∈ l := linked.mpr rfl
    simp only [Leaving.ops,List.cons_append,List.nil_append] at ops
    simp only [exec,ops,Option.some.injEq] at taken
    subst taken
    have distinct := List.nodup_cons.mp leaves.distinct
    have held : hands r s.running.ops = n :: hands r base := by
      rw [ops]
      exact hands_some rfl leaves.other
    have onward : Onward s { s with current := some n, running := { s.running with ops := .save r n :: base } }
        (.save r n :: base) :=
      ⟨rfl,rfl⟩
    obtain ⟨core',_,absent,_⟩ := core.switches onward rfl rfl rfl leaves.mine held (by rw [ops]; exact fun _ => .inr)
      (.inl ⟨.inl waits,distinct.1⟩)
    exact ⟨r,l,core',.switching none n base ⟨.inl rfl,by simp,rfl,absent,leaves.ready rfl,
      fun _ => ⟨leaves.shaped,distinct.2,fun idle => (leaves.masked idle).2⟩,fun same => (leaves.other same).elim,
      core.known r (Threads.live_queue waits)⟩⟩

/-! ### A task that does not come back -/

/-- What stays the same while such a task goes on. -/
theorem resigning_next {at' next' : Resigning Task} (resigns : Resigns c s r l at' base)
    (running : s'.running.ops = next'.ops c s'.current ++ base) (absent : r ∉ l') (current : s'.current = s.current)
    (state : (∀ n, next' ≠ .storing n) → s'.sched.state = s.sched.state)
    (own : r ≠ c.idle () → s'.sched.state r = s.sched.state r) (interrupts : s'.interrupts = s.interrupts)
    (before : (∀ n, next' ≠ .storing n) → ∀ n, at' ≠ .storing n)
    (next : ∀ n, next'.next = some n → (n = r → r = c.idle ()) ∧ (r = c.idle () → n ∉ hands r base))
    (alone : next' = .releasing none ∨ next' = .testing none → l' = [])
    (ready : ∀ n, next' = .storing n → s'.sched.state n = TASK_RUNNING) :
    Resigns c s' r l' next' base := by
  refine ⟨running,current ▸ resigns.mine,absent,?_,fun n found => (next n found).1,?_,alone,ready⟩
  · intro early
    have stopped := resigns.stopped (before early)
    rw [current]
    cases still : s.current with
    | none => rfl
    | some t =>
      rw [still] at stopped
      simpa only [isRunning,state early] using stopped
  · rw [interrupts]
    rcases resigns.leaves with ⟨busy,dead,only⟩ | ⟨idle,masked,parked,_⟩
    · exact .inl ⟨busy,(own busy).trans dead,only⟩
    · exact .inr ⟨idle,masked,parked,fun n found => (next n found).2 idle⟩

/-- Such a task is dead, unless it is the idle task. -/
theorem idle_resigns {at' : Resigning Task} (resigns : Resigns c s r l at' base) (idle : r = c.idle ()) :
    s.interrupts = false ∧ Parked c r base ∧ ∀ n, at'.next = some n → n ∉ hands r base := by
  rcases resigns.leaves with ⟨busy,_⟩ | ⟨_,parked⟩
  · exact (busy idle).elim
  · exact parked

/-- A step of such a task that leaves the scheduler as it is. -/
theorem resigning_goes_on {at' : Resigning Task} (next' : Resigning Task) (core : Core c s r l)
    (resigns : Resigns c s r l at' base) (onward : Onward s s' (next'.ops c s'.current ++ base))
    (created : s'.created = s.created) (sched : s'.sched = s.sched) (current : s'.current = s.current)
    (interrupts : s'.interrupts = s.interrupts) (same : next'.next = at'.next)
    (hands : hands r (next'.ops c s.current ++ base) = hands r s.running.ops)
    (arms : ∀ n, Armed n (next'.ops c s.current ++ base) → Armed n s.running.ops) (before : ∀ n, at' ≠ .storing n)
    (early : ∀ n, next' ≠ .storing n) (alone : next' = .releasing none ∨ next' = .testing none → l = []) :
    Invariant c s' := by
  refine ⟨r,l,core.goes_on (current ▸ onward) created sched (by rw [current]) hands arms,.resigning next' base
    (resigning_next resigns (by rw [onward.running]) resigns.absent current (fun _ => by rw [sched])
      (fun _ => by rw [sched]) interrupts
      (fun _ => before) ?_ alone (fun n storing => (early n storing).elim))⟩
  rw [same]
  intro n found
  exact ⟨resigns.other n found,fun idle => (idle_resigns resigns idle).2.2 n found⟩

/-- Such a task takes the first task of the queue, if there is one. -/
theorem resigning_unlinks (core : Core c s r l) (resigns : Resigns c s r l .unlinking base)
    (taken : exec c s choice = some s') : Invariant c s' := by
  have ops := resigns.ops
  have live : (custody c s l).Live r := (show (custody c s l).running = r from resigns.mine) ▸ Threads.live_running
  simp only [Resigning.ops,List.cons_append,List.nil_append] at ops
  simp only [exec,ops,Option.some.injEq] at taken
  subst taken
  cases l with
  | nil =>
    rw [core.queue.dequeue_nil]
    refine resigning_goes_on (.releasing none) core resigns ⟨rfl,rfl⟩ rfl rfl rfl rfl rfl ?_ ?_
      (by simp) (by simp) (fun _ => rfl)
    · rw [ops]
      rfl
    · rw [ops]
      exact fun _ armed => armed
  | cons t l =>
    obtain ⟨found,_,states⟩ := core.queue.dequeue_cons
    have other : t ≠ r := fun same => resigns.absent (by simp [same])
    have before : hands r s.running.ops = hands r base := by
      rw [ops]
      rfl
    have once : t ∉ hands r base := fun held =>
      core.sound.queued r t live (custody_here core.place ▸ before ▸ held) List.mem_cons_self
    rw [found]
    refine ⟨r,l,core.takes (t := t) ⟨rfl,rfl⟩ rfl rfl rfl resigns.mine resigns.absent ?_ ?_,.resigning
      (.releasing (some t)) base
      (resigning_next resigns (by rfl) (fun waits => resigns.absent (List.mem_cons_of_mem t waits)) rfl
        (fun _ => states)
        (fun _ => congrFun states r) rfl (by simp) ?_ (by simp) (by simp))⟩
    · rw [before]
      exact hands_some (show hand (.dequeued (.scheduler_yield s.current) (some t)) = some t from rfl) other
    · rw [ops]
      exact fun _ armed => armed
    · rintro n same
      obtain rfl : t = n := Option.some.inj same
      exact ⟨fun same => (other same).elim,fun _ => once⟩

/-- With an empty queue it turns to the idle task. -/
theorem resigning_tests {next : Option Task} (core : Core c s r l) (resigns : Resigns c s r l (.testing next) base)
    (taken : exec c s choice = some s') : Invariant c s' := by
  have ops := resigns.ops
  simp only [Resigning.ops,List.cons_append,List.nil_append] at ops
  simp only [exec,ops,Option.some.injEq] at taken
  subst taken
  cases next with
  | some n =>
    refine resigning_goes_on (.requeueing n) core resigns ⟨rfl,rfl⟩ rfl rfl rfl rfl rfl ?_ ?_
      (by simp) (by simp) (by simp)
    · rw [ops]
      rfl
    · rw [ops]
      exact fun _ armed => armed
  | none =>
    obtain rfl : l = [] := resigns.alone (.inr rfl)
    have stopped := resigns.stopped (by simp)
    have turns : afterDequeue c s.sched (.scheduler_yield s.current) none = [.requeue s.current (c.idle ())] := by
      simp [afterDequeue,stopped]
    rw [turns]
    have before : hands r s.running.ops = hands r base := by
      rw [ops]
      rfl
    have arms (n : Task) (armed : Armed n (.requeue s.current (c.idle ()) :: base)) : Armed n s.running.ops := by
      rw [ops]
      exact armed
    refine ⟨r,[],?_,.resigning (.requeueing (c.idle ())) base
      (resigning_next resigns (by rfl) resigns.absent rfl (fun _ => rfl)
      (fun _ => rfl) rfl (by simp) ?_ (by simp) (by simp))⟩
    · by_cases idle : r = c.idle ()
      · refine core.goes_on ⟨rfl,rfl⟩ rfl rfl rfl ?_ arms
        rw [before]
        exact hands_own (show hand (.requeue s.current (c.idle ())) = some r from congrArg some idle.symm)
      · refine core.turns ⟨rfl,rfl⟩ rfl rfl rfl resigns.mine idle ?_ ?_ arms
        · rw [before]
          exact hands_some (show hand (.requeue s.current (c.idle ())) = some (c.idle ()) from rfl) (Ne.symm idle)
        · rw [before]
          rcases resigns.leaves with ⟨_,_,only⟩ | ⟨same,_⟩
          · exact only
          · exact (idle same).elim
    · rintro n same
      obtain rfl : c.idle () = n := Option.some.inj same
      exact ⟨Eq.symm,fun idle held => (mem_hands.mp held).2 idle.symm⟩

/-- It does not go back to the queue. -/
theorem resigning_requeues {n : Task} (core : Core c s r l) (resigns : Resigns c s r l (.requeueing n) base)
    (taken : exec c s choice = some s') : Invariant c s' := by
  have ops := resigns.ops
  have stopped := resigns.stopped (by simp)
  simp only [Resigning.ops,List.cons_append,List.nil_append] at ops
  simp only [exec,ops,Option.some.injEq] at taken
  subst taken
  have code (back : List (Op Task)) (nothing : back = []) : Context.mk s.running.stack
      (back ++ switchTo (s.current.getD (c.idle ())) n ++ base) =
      Context.mk s.running.stack (switchTo (s.current.getD (c.idle ())) n ++ base) := by rw [nothing,List.nil_append]
  refine resigning_goes_on (.marking n) core resigns ⟨code _ ?_,rfl⟩ rfl rfl rfl rfl rfl ?_ ?_
    (by simp) (by simp) (by simp)
  · -- the task that yields does not go back to the queue
    cases current : s.current with
    | none => rfl
    | some t =>
      have other : s.sched.state t ≠ .TASK_RUNNING := by simpa [isRunning,current] using stopped
      exact if_neg other
  · rw [ops]
    rfl
  · rw [ops]
    rintro m ⟨apart,same | armed⟩
    · exact (apart same).elim
    · exact armed

/-- It marks the next task as running. -/
theorem resigning_marks {n : Task} (core : Core c s r l) (resigns : Resigns c s r l (.marking n) base)
    (taken : exec c s choice = some s') : Invariant c s' := by
  have ops := resigns.ops
  have other := resigns.other n rfl
  simp only [Resigning.ops,switchTo,List.cons_append,List.nil_append] at ops
  simp only [exec,ops,Option.some.injEq] at taken
  subst taken
  refine ⟨r,l,core.marks ⟨rfl,rfl⟩ rfl ops rfl rfl resigns.mine ?_,.resigning (.storing n) base
    (resigning_next resigns (by rfl) resigns.absent
    rfl (fun early => (early n rfl).elim) ?_ rfl (by simp) ?_ (by simp) ?_)⟩
  · by_cases same : n = r
    · exact .inl (same.trans (other same))
    · refine .inr (mem_hands.mpr ⟨?_,same⟩)
      rw [ops]
      exact ⟨.setCurrent (s.current.getD (c.idle ())) n,by simp,rfl⟩
  · intro busy
    exact Function.update_of_ne (fun same => busy (other same.symm)) _ _
  · rintro m same
    obtain rfl : n = m := Option.some.inj same
    exact ⟨other,fun idle => (idle_resigns resigns idle).2.2 n rfl⟩
  · rintro m same
    obtain rfl : n = m := by simpa using same
    exact Function.update_self _ _ _

/-- It hands the processor over. The idle task may hand it to itself. -/
theorem resigning_stores {n : Task} (core : Core c s r l) (resigns : Resigns c s r l (.storing n) base)
    (taken : exec c s choice = some s') : Invariant c s' := by
  have ops := resigns.ops
  have live : (custody c s l).Live r := (show (custody c s l).running = r from resigns.mine) ▸ Threads.live_running
  have ready := resigns.ready n rfl
  simp only [Resigning.ops,resigns.mine,List.cons_append,List.nil_append] at ops
  simp only [exec,ops,Option.some.injEq] at taken
  subst taken
  have onward : Onward s { s with current := some n, running := { s.running with ops := .save r n :: base } }
      (.save r n :: base) :=
    ⟨rfl,rfl⟩
  by_cases same : n = r
  · -- the idle task switches to itself
    subst same
    have idle := resigns.other n rfl rfl
    refine ⟨n,l,core.goes_on onward rfl rfl resigns.mine.symm ?_ ?_,.switching none n base
      ⟨.inl rfl,by simp,rfl,resigns.absent,ready,?_,
      fun _ => idle,.inr idle⟩⟩
    · rw [ops]
      exact (hands_own (show hand (.setCurrent n n) = some n from rfl)).symm
    · rw [ops]
      exact fun _ => .inr
    · exact fun _ => (idle_resigns resigns idle).2.1
  · have held : hands r s.running.ops = n :: hands r base := by
      rw [ops]
      exact hands_some rfl same
    obtain ⟨core',_,absent,stays⟩ := core.switches onward rfl rfl rfl resigns.mine held
      (by rw [ops]; exact fun _ => .inr) (by
      rcases resigns.leaves with ⟨busy,dead,only⟩ | ⟨idle,_,_,once⟩
      · exact .inr ⟨resigns.absent,busy,dead,only⟩
      · exact .inl ⟨.inr idle,once n rfl⟩)
    refine ⟨r,l,core',.switching none n base ⟨.inl rfl,by simp,rfl,absent,ready,?_,fun own =>
      (same own).elim,core.known r live⟩⟩
    intro later
    rcases resigns.leaves with ⟨busy,_⟩ | ⟨_,_,parked,_⟩
    · exact ((stays later).elim resigns.absent busy).elim
    · exact parked

theorem resigning_step {at' : Resigning Task} (core : Core c s r l) (resigns : Resigns c s r l at' base)
    (taken : exec c s choice = some s') :
    Invariant c s' := by
  have ops := resigns.ops
  cases at' with
  | entered =>
    simp only [Resigning.ops,List.cons_append,List.nil_append] at ops
    simp only [exec,ops,Option.some.injEq] at taken
    subst taken
    refine resigning_goes_on .acquiring core resigns ⟨rfl,rfl⟩ rfl rfl rfl rfl rfl ?_ ?_ (by simp) (by simp) (by simp)
    · rw [ops]
      rfl
    · rw [ops]
      exact fun _ armed => armed
  | acquiring =>
    simp only [Resigning.ops,List.cons_append,List.nil_append] at ops
    cases free : s.locked .run_queue with
    | none =>
      simp only [exec,ops,free,Option.some.injEq] at taken
      subst taken
      refine resigning_goes_on .unlinking core resigns ⟨rfl,rfl⟩ rfl rfl rfl rfl rfl ?_ ?_ (by simp) (by simp) (by simp)
      · rw [ops]
        rfl
      · rw [ops]
        exact fun _ armed => armed
    | some holder =>
      simp only [exec,ops,free,Option.some.injEq] at taken
      subst taken
      exact ⟨r,l,core,.resigning .acquiring base resigns⟩
  | unlinking => exact resigning_unlinks core resigns taken
  | releasing next =>
    simp only [Resigning.ops,List.cons_append,List.nil_append] at ops
    simp only [exec,ops,Option.some.injEq] at taken
    subst taken
    refine resigning_goes_on (.testing next) core resigns ⟨rfl,rfl⟩ rfl rfl rfl rfl rfl ?_ ?_ (by simp) (by simp) ?_
    · rw [ops]
      rfl
    · rw [ops]
      exact fun _ armed => armed
    · intro empty
      exact resigns.alone (.inl (by simpa using empty))
  | testing next => exact resigning_tests core resigns taken
  | requeueing n => exact resigning_requeues core resigns taken
  | marking n => exact resigning_marks core resigns taken
  | storing n => exact resigning_stores core resigns taken

/-! ### A switch -/

/-- Only the code of a task or of `kernel_main` creates tasks. -/
theorem created_kept (taken : exec c s choice = some s') (other : ∀ rest, s.running.ops ≠ .code :: rest) :
    s'.created = s.created := by
  cases ops : s.running.ops with
  | nil => simp [exec,ops] at taken
  | cons op rest =>
    cases op with
    | code => exact (other rest ops).elim
    | setDead =>
      simp only [exec,ops] at taken
      obtain ⟨t,_,rfl⟩ := Option.map_eq_some_iff.mp taken
      rfl
    | acquire lock =>
      cases free : s.locked lock <;> simp only [exec,ops,free,Option.some.injEq] at taken <;> subst taken <;> rfl
    | _ =>
      simp only [exec,ops,Option.some.injEq] at taken
      subst taken
      rfl

/-- A handler that yields to nobody comes or goes above a switch. -/
theorem switching_undisturbed {above : Option Handler} (above' : Option Handler) {tail : List (Op Task)}
    (core : Core c s r l) (switches : Switches c s r l above n base) (undisturbed : Undisturbed s s')
    (created : s'.created = s.created) (quiet : ∀ handler, above' = some handler → s'.interrupts = false ∧ Quiet s)
    (ops : s.running.ops = above.elim [] (Handler.ops s.current) ++ tail)
    (place : tail = .save r n :: base ∨ tail = .load n :: base ∧ s.rsp r = ⟨s.running.stack,base⟩)
    (ops' : s'.running.ops = above'.elim [] (Handler.ops s.current) ++ tail) : Invariant c s' := by
  obtain ⟨sched,_,rsp,current,stack⟩ := undisturbed
  have running : s'.running = ⟨s.running.stack,above'.elim [] (Handler.ops s.current) ++ tail⟩ := by rw [← stack,← ops']
  have same : hands r (above'.elim [] (Handler.ops s.current) ++ tail) = hands r s.running.ops := by
    rw [ops,hands_above,hands_above]
  have onward : Onward s s' (above'.elim [] (Handler.ops s.current) ++ tail) := ⟨running,rsp⟩
  have equal : custody c s' l = custody c s l := onward.custody_eq core.place (by rw [current]) same
  refine ⟨r,l,core.goes_on onward created sched (by rw [current]) same ?_,.switching above' n base
    ⟨?_,?_,current.trans switches.current,
    switches.absent,sched ▸ switches.ready,fun live => switches.parked
      (equal ▸ live),switches.same,created ▸ switches.known⟩⟩
  · rw [ops]
    exact fun m armed => (armed_above _ _).mpr ((armed_above _ _).mp armed)
  · rw [ops',current,rsp,stack]
    rcases place with rfl | ⟨rfl,saved⟩
    · exact .inl rfl
    · exact .inr ⟨rfl,saved⟩
  · intro handler found
    simpa only [Quiet,sched,current] using quiet handler found

/-- The switch below a handler. -/
theorem switching_tail {above : Option Handler} (switches : Switches c s r l above n base) :
    ∃ tail, s.running.ops = above.elim [] (Handler.ops s.current) ++ tail ∧
      (tail = .save r n :: base ∨ tail = .load n :: base ∧ s.rsp r = ⟨s.running.stack,base⟩) := by
  rcases switches.ops with ops | ⟨ops,saved⟩
  · exact ⟨_,ops,.inl rfl⟩
  · exact ⟨_,ops,.inr ⟨rfl,saved⟩⟩

theorem switching_step {above : Option Handler} (core : Core c s r l) (switches : Switches c s r l above n base)
    (taken : exec c s choice = some s') : Invariant c s' := by
  cases above with
  | none =>
    rcases switches.ops with ops | ⟨ops,saved⟩ <;> simp only [Option.elim_none,List.nil_append] at ops
    · simp only [exec,ops,Option.some.injEq] at taken
      subst taken
      have same : hands r (.load n :: base) = hands r s.running.ops := by
        rw [ops]
        rfl
      have core' := core.saves (.load n :: base) ⟨s.running.stack,base⟩ same
        (by rw [ops]; exact fun _ armed => armed) switches.known
      have equal := saving_custody (l := l) core.place ⟨s.running.stack,base⟩ same
      exact ⟨r,l,core',.switching none n base ⟨.inr ⟨rfl,Function.update_self _ _ _⟩,by
        simp,switches.current,switches.absent,switches.ready,
        fun live => switches.parked (equal ▸ live),switches.same,switches.known⟩⟩
    · simp only [exec,ops,Option.some.injEq] at taken
      subst taken
      have core' := core.loads ops saved switches.parked
      have mine : s.current.getD (c.idle ()) = n := by rw [switches.current]; rfl
      have live : (custody c s l).Live n := (show (custody c s l).running = n from mine) ▸ Threads.live_running
      have parked : Parked c n (s.rsp n).ops := by
        by_cases same : n = r
        · subst same
          rw [saved]
          exact switches.parked live
        · exact core.parked n live same
      exact ⟨n,l,core',.steady ⟨switches.absent,mine,parked.shaped,parked.distinct,.inl
        ⟨switches.current,switches.ready,
        fun idle => .inl (parked.passive idle)⟩⟩⟩
  | some handler =>
    obtain ⟨masked,silent⟩ := switches.quiet handler rfl
    obtain ⟨tail,ops,place⟩ := switching_tail switches
    have created : s'.created = s.created := by
      refine created_kept taken ?_
      rw [ops]
      cases handler <;> simp [Handler.ops]
    obtain ⟨undisturbed,⟨h',ops',flag,_⟩ | ⟨ops',_⟩⟩ := quiet_step silent ops taken
    · exact switching_undisturbed (some h') core switches undisturbed created
        (fun _ _ => ⟨flag.trans masked,silent⟩) ops place ops'
    · exact switching_undisturbed none core switches undisturbed created (by simp) ops place ops'

/-! ### A tick -/

/-- The handler has been entered. -/
def interrupted (s : State Task) : State Task :=
  { s with running := ⟨s.running.stack,.scheduler_yield :: .iretq true :: s.running.ops⟩, interrupts := false }

omit [DecidableEq Task] in
theorem tick_eq (taken : tick s = some s') : s.interrupts = true ∧ s' = interrupted s := by
  unfold tick at taken
  by_cases enabled : s.interrupts = true
  · rw [if_pos enabled] at taken
    exact ⟨enabled,(Option.some.inj taken).symm⟩
  · rw [if_neg enabled] at taken
    cases taken

theorem interrupted_core (core : Core c s r l) : Core c (interrupted s) r l :=
  core.goes_on ⟨rfl,rfl⟩ rfl rfl rfl rfl (fun _ armed => armed)

/-- A task that is `TASK_RUNNING` yields, and the idle task yields or resigns. -/
theorem steady_tick (core : Core c s r l) (steady : Steady c s r l) (enabled : s.interrupts = true) :
    Invariant c (interrupted s) := by
  by_cases runs : s.current = some r ∧ s.sched.state r = TASK_RUNNING
  · have passive (idle : r = c.idle ()) : Passive r s.running.ops := by
      rcases steady.runs with ⟨_,_,masked⟩ | ⟨_,passive⟩
      · exact (masked idle).resolve_right (by simp [enabled])
      · exact passive
    have shaped : Shaped c r (.scheduler_yield :: .iretq true :: s.running.ops) :=
      .cons (fun idle => passive_cons.mpr ⟨rfl,passive idle⟩) (.cons passive steady.shaped)
    exact ⟨r,l,interrupted_core core,.steady ⟨steady.absent,steady.mine,shaped,steady.distinct,
      .inl ⟨runs.1,runs.2,fun _ => .inr rfl⟩⟩⟩
  · obtain ⟨idle,passive⟩ := steady.runs.resolve_left (fun found => runs ⟨found.1,found.2.1⟩)
    have parked : Parked c r (.iretq true :: s.running.ops) :=
      ⟨.cons (fun _ => passive) steady.shaped,steady.distinct,fun _ => passive_cons.mpr ⟨rfl,passive⟩⟩
    have stopped : isRunning s.sched s.current = false := by
      have mine := steady.mine
      cases current : s.current with
      | none => rfl
      | some t =>
        obtain rfl : t = r := by simpa [current] using mine
        simpa [isRunning,current] using runs
    exact ⟨r,l,interrupted_core core,.resigning .entered (.iretq true :: s.running.ops)
      ⟨by rfl,steady.mine,steady.absent,
      fun _ => stopped,by simp [Resigning.next],.inr ⟨idle,rfl,parked,by simp [Resigning.next]⟩,by simp,by simp⟩⟩

/-- A dead task with nobody but the idle task in hand yields again. -/
theorem resigning_tick {at' : Resigning Task} (core : Core c s r l) (resigns : Resigns c s r l at' base)
    (enabled : s.interrupts = true)
    (careful : ∀ t u, s.running.stack = .own t → InHand s.running.ops u →
      s.sched.state t = TASK_RUNNING ∨ s.sched.state t = TASK_DEAD ∧ u = c.idle ()) : Invariant c (interrupted s) := by
  rcases resigns.leaves with ⟨busy,dead,_⟩ | ⟨_,masked,_⟩
  · have own : s.running.stack = .own r := core.place.trans (if_neg busy)
    have stopped : isRunning s.sched s.current = false := by
      have mine := resigns.mine
      cases current : s.current with
      | none => rfl
      | some t =>
        obtain rfl : t = r := by simpa [current] using mine
        simp [isRunning,dead]
    have only : ∀ t ∈ hands r (.iretq true :: s.running.ops), t = c.idle () := by
      intro t held
      rw [hands_skip rfl] at held
      rcases careful r t own (mem_hands.mp held).1 with runs | ⟨_,idle⟩
      · exact absurd (runs.symm.trans dead) (by simp)
      · exact idle
    exact ⟨r,l,interrupted_core core,.resigning .entered (.iretq true :: s.running.ops)
      ⟨by rfl,resigns.mine,resigns.absent,
      fun _ => stopped,by simp [Resigning.next],.inl ⟨busy,dead,only⟩,by simp,by simp⟩⟩
  · exact absurd (enabled.symm.trans masked) (by simp)

/-- No harmless tick arrives while a task is on its way into the queue. -/
theorem leaving_untouched {at' : Leaving} (core : Core c s r l) (leaves : Leaves c s r l at' n base)
    (enabled : s.interrupts = true)
    (careful : ∀ t u, s.running.stack = .own t → InHand s.running.ops u →
      s.sched.state t = TASK_RUNNING ∨ s.sched.state t = TASK_DEAD ∧ u = c.idle ()) : False := by
  have busy : r ≠ c.idle () := fun idle => absurd (enabled.symm.trans (leaves.masked idle).1) (by simp)
  have own : s.running.stack = .own r := core.place.trans (if_neg busy)
  have inHand : InHand s.running.ops n := by
    rw [leaves.ops]
    exact ⟨.setCurrent r n,List.mem_append_left _ (by cases at' <;> simp [Leaving.ops]),rfl⟩
  rcases careful r n own inHand with runs | ⟨dead,_⟩
  · exact absurd (runs.symm.trans leaves.waits) (by simp)
  · exact absurd (dead.symm.trans leaves.waits) (by simp)

theorem tick_step (core : Core c s r l) (mode : Mode c s r l) (harmless : Harmless c s .tick)
    (taken : tick s = some s') :
    Invariant c s' := by
  obtain ⟨timely,careful⟩ := harmless.2 rfl
  obtain ⟨enabled,rfl⟩ := tick_eq taken
  cases mode with
  | switching above n base switches =>
    cases above with
    | some handler => exact absurd (enabled.symm.trans (switches.quiet handler rfl).1) (by simp)
    | none =>
      obtain ⟨tail,ops,place⟩ := switching_tail switches
      have quiet : Quiet s := by
        refine timely ?_
        rcases place with rfl | ⟨rfl,_⟩ <;> simp [Switching,ops]
      refine switching_undisturbed (some .entered) core switches ⟨rfl,rfl,rfl,rfl,rfl⟩ rfl
        (fun _ _ => ⟨rfl,quiet⟩) ops place ?_
      show .scheduler_yield :: .iretq true :: s.running.ops = _
      rw [ops]
      rfl
  | steady steady => exact steady_tick core steady enabled
  | leaving at' n base leaves => exact (leaving_untouched core leaves enabled careful).elim
  | resigning at' base resigns => exact resigning_tick core resigns enabled careful

/-! ### Runs -/

theorem initial_invariant (started : Started c s) : Invariant c s := by
  obtain ⟨head,tail,count,next,_,created,rsp,current,running,_⟩ := started
  have place : s.running.stack = stackOf c (c.idle ()) := by
    rw [running]
    exact (if_pos rfl).symm
  have idles : (custody c s []).running = c.idle () := by simp only [custody,current,Option.getD_none]
  have code (u : Task) : pending c s u = [] ∨ pending c s u = [.code] := by
    by_cases idle : u = c.idle ()
    · rw [idle,pending_here place,running]
      exact .inr rfl
    · rw [pending_away place idle,rsp,if_neg idle]
      exact .inr rfl
  have empty (u : Task) : (custody c s []).holds u = [] := by
    show hands u (pending c s u) = []
    rcases code u with none | code
    · rw [none]
      rfl
    · rw [code]
      rfl
  have only {u : Task} (live : (custody c s []).Live u) : u = c.idle () := by
    refine live.induct (P := fun u => u = c.idle ()) idles ?_ rfl ?_
    · intro t waits
      cases waits
    · intro u t _ _ held
      rw [empty] at held
      cases held
  refine ⟨c.idle (),[],⟨place,?_,queue_empty head tail count next,⟨?_,?_,?_,?_⟩,?_,fun t live => .inr
    (only live),?_,created _,?_,?_⟩,
    .steady ⟨List.not_mem_nil,idles,?_,?_,.inr ⟨rfl,?_⟩⟩⟩
  · intro t busy
    rw [rsp]
    exact (if_neg busy).symm
  · intro u t _ held
    simp [empty] at held
  · intro u v t _ _ held
    simp [empty] at held
  · intro u _ held
    simp [empty] at held
  · intro u _ held
    simp [empty] at held
  · intro t old
    simp [created] at old
  · intro t _ busy
    rw [rsp,if_neg busy]
  · intro t live busy
    exact (busy (only live)).elim
  · intro n _ armed
    rcases code (c.idle ()) with none | code
    · rw [none] at armed
      exact armed.elim
    · rw [code] at armed
      exact armed.elim
  · rw [running]
    exact .cons rfl .nil
  · rw [running]
    exact List.nodup_nil
  · rw [running]
    simp [Passive,yields]

theorem leads_of_live (live : (custody c s l).Live t) : Leads c s l t := by
  refine live.induct (P := Leads c s l) ?_ (fun _ => .queued) .idle
    (fun _ _ _ holder held => .held holder (mem_hands.mp held).1)
  show Leads c s l (s.current.getD (c.idle ()))
  cases current : s.current with
  | none => exact .idle
  | some t => exact .current current

theorem invariant_kept (core : Core c s r l) (live : ¬ Deadlocked s) : Kept c s := by
  refine ⟨l,core.queue,fun t old alive => ?_⟩
  have busy : t ≠ c.idle () := by
    rintro rfl
    rw [core.notIdle] at old
    cases old
  have reached := core.kept t old alive
  cases reached with
  | base root =>
    rcases root with runs | waits | idle
    · refine .inr (.inl ?_)
      have current : t = s.current.getD (c.idle ()) := runs
      cases found : s.current with
      | none => exact (busy (by simpa [found] using current)).elim
      | some u => rw [current,found]; rfl
    · exact .inl waits
    · exact (busy idle).elim
  | held holder held => exact .inr (.inr ⟨_,⟨live,leads_of_live holder⟩,(mem_hands.mp held).1⟩)

theorem exec_step (core : Core c s r l) (mode : Mode c s r l) (taken : exec c s choice = some s') : Invariant c s' := by
  cases mode with
  | steady steady => exact steady_step core steady taken
  | leaving at' n base leaves => exact leaving_step core leaves taken
  | resigning at' base resigns => exact resigning_step core resigns taken
  | switching above n base switches => exact switching_step core switches taken

/-- As long as every tick is harmless, no task is lost, and the processor is never deadlocked. -/
theorem tasks_kept (reached : ((bootProcessor c).restrict (Harmless c)).Reachable s) : Kept c s ∧ ¬ Deadlocked s := by
  have invariant : Invariant c s ∧ Spinlocks.Invariant s := by
    refine reached.invariant (P := fun s => Invariant c s ∧ Spinlocks.Invariant s) ?_ ?_
    · exact fun s started => ⟨initial_invariant started,Spinlocks.initial_invariant started⟩
    rintro s a s' ⟨⟨r,l,core,mode⟩,locks⟩ ⟨harmless,taken⟩
    refine ⟨?_,Spinlocks.step_invariant locks harmless.1 taken⟩
    cases a with
    | tick => exact tick_step core mode harmless taken
    | step choice => exact exec_step core mode taken
  obtain ⟨⟨_,_,core,_⟩,locks⟩ := invariant
  exact ⟨invariant_kept core locks.live,locks.live⟩

end

/-! ### A tick while task 1 exits -/

/-- Tasks 1, 2 and 3 are enqueued, and the worker loop has picked task 1. -/
def samplePick : List (Choice Nat) :=
  .spawn 1 :: List.replicate 10 .klog ++ .spawn 2 :: List.replicate 10 .klog ++ .spawn 3 :: List.replicate 10 .klog ++
    .enterWorker :: List.replicate 20 .klog

/-- Nothing leads to task 2 while task 3 runs and the worker loop waits. -/
theorem sample_lost {s : State Nat} (head : s.sched.head = none) (current : s.current = some 3)
    (created : s.created 2 = true) (waits : s.sched.state 2 = TASK_READY) (own : pending sampleLocals s 3 = [.code])
    (idle : pending sampleLocals s 0 = klog ++ [.worker]) :
    ¬ Kept sampleLocals s := by
  rintro ⟨l,queue,kept⟩
  have empty : l = [] := List.head?_eq_none_iff.mp (queue.head_eq.symm.trans head)
  subst empty
  -- task 3 and the idle task have nobody in hand
  have alone {u t : Nat} (known : u = 3 ∨ u = 0) : ¬ InHand (pending sampleLocals s u) t := by
    rcases known with rfl | rfl
    · simp [own,InHand,hand]
    · simp [idle,InHand,klog,hand]
  have known {u : Nat} (leads : Leads sampleLocals s [] u) : u = 3 ∨ u = 0 := by
    induction leads with
    | current runs => exact .inl (Option.some.inj (runs.symm.trans current))
    | queued waits => cases waits
    | idle => exact .inr rfl
    | held _ held before => exact (alone before held).elim
  rcases kept 2 created (by simp [waits]) with waits | runs | ⟨u,⟨_,leads⟩,held⟩
  · cases waits
  · exact absurd (runs.symm.trans current) (by simp)
  · exact alone (known leads) held

/-- Task 1 exits, and its `scheduler_yield` has dequeued task 2. A tick abandons
    the stack of task 1 for task 3, and task 2 is lost. -/
theorem task_lost : ∃ s s', (bootProcessor sampleLocals).Reachable s ∧
    s.running = ⟨.own 1,[.dequeued (.scheduler_yield (some 1)) (some 2),.task_exit]⟩ ∧
    (bootProcessor sampleLocals).Run s (.tick :: List.replicate 10 (.step .klog)) s' ∧
    s'.created 2 = true ∧ s'.sched.state 2 = TASK_READY ∧ ¬ Kept sampleLocals s' := by
  have exits := (System.reachable_initial (M := bootProcessor sampleLocals) sample_started).run
    (@run_steps _ _ _ _ _ (fun _ _ => True) (fun _ _ => trivial)
      (samplePick ++ .exit :: List.replicate 9 .klog) rfl).unrestricted
  exact ⟨_,_,exits,rfl,System.run_of_foldlM rfl,rfl,rfl,sample_lost rfl rfl rfl rfl rfl rfl⟩

/-- A tick is harmless in a task that is `TASK_RUNNING` while both locks are free. -/
theorem harmless_running {s : State Nat} {t : Nat} (free : ∀ lock, s.locked lock = none) (outside : Switching s = false)
    (own : s.running.stack = .own t) (runs : s.sched.state t = TASK_RUNNING) : Harmless sampleLocals s .tick := by
  refine ⟨fun _ => ⟨free .run_queue,.inl (free .klog_lock)⟩,fun _ => ⟨fun switching => ?_,fun u _ own' _ => .inl ?_⟩⟩
  · rw [outside] at switching
    cases switching
  · obtain rfl : t = u := Stack.own.inj (own.symm.trans own')
    exact runs

/-- Task 1 yields, and a tick after it has dequeued task 2 puts it into the queue with task 2 in hand. -/
theorem tasks_kept_tick : ∃ s, ((bootProcessor sampleLocals).restrict (Harmless sampleLocals)).Reachable s ∧
    s.running = ⟨.own 3,[.code]⟩ ∧ s.rsp 1 = ⟨.own
      1,[.iretq true,.dequeued (.scheduler_yield (some 1)) (some 2),.code]⟩ ∧
    Kept sampleLocals s := by
  have free (s : State Nat) (choice : Choice Nat) : Harmless sampleLocals s (.step choice) :=
    ⟨fun impossible => by contradiction,fun impossible => by contradiction⟩
  have yields := (System.reachable_initial (M := (bootProcessor sampleLocals).restrict
    (Harmless sampleLocals)) sample_started).run
    (@run_steps _ _ _ _ _ _ free (samplePick ++ .yield :: List.replicate 4 .klog) rfl)
  have ticked := (yields.step (a := Action.tick)
    ⟨harmless_running (t := 1) (fun lock => by cases lock <;> rfl) rfl rfl rfl,rfl⟩).run
    (@run_steps _ _ _ _ _ _ free (List.replicate 14 .klog) rfl)
  exact ⟨_,ticked,rfl,rfl,(tasks_kept ticked).1⟩

end NekoOs.Conservation
