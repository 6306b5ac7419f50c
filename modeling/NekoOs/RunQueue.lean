import Mathlib.Algebra.Group.Nat.Defs
import Mathlib.Logic.Function.Basic
import Mathlib.Data.List.Nodup

/-!
The run queue: a list linked through the `next` fields of the tasks, with a
pointer to its last task. As long as no queued task is enqueued again, it is a
first-in first-out queue.
-/
namespace NekoOs.RunQueue
universe u

inductive TaskState
  | TASK_READY | TASK_RUNNING | TASK_BLOCKED | TASK_DEAD
deriving DecidableEq, Repr

open TaskState

/-- `run_queue` and the fields of the tasks that the scheduler uses; `none` is `nullptr`. -/
structure Sched (Task : Type u) where
  head : Option Task
  tail : Option Task
  count : Nat
  next : Task → Option Task
  state : Task → TaskState
  cpu_id : Task → Nat

variable {Task : Type u}

section
variable [DecidableEq Task]

/-- `task->state = TASK_READY; task->next = nullptr`, before the lock is taken. -/
def Sched.makeReady (s : Sched Task) (task : Task) : Sched Task :=
  { s with state := Function.update s.state task TASK_READY, next := Function.update s.next task none }

/-- The critical section of `scheduler_enqueue`. -/
def Sched.link (s : Sched Task) (task : Task) : Sched Task :=
  match s.tail with
  | none => { s with head := some task, tail := some task, count := (s.count + 1) % 2 ^ 32 }
  | some last =>
    { s with next := Function.update s.next last (some task), tail := some task, count := (s.count + 1) % 2 ^ 32 }

def scheduler_enqueue (s : Sched Task) (task : Task) : Sched Task := (s.makeReady task).link task

def scheduler_dequeue (s : Sched Task) : Option Task × Sched Task :=
  match s.head with
  | none => (none,s)
  | some task =>
    let head := s.next task
    (some task,{ s with
      head := head
      tail := if head = none then none else s.tail
      count := (s.count + (2 ^ 32 - 1)) % 2 ^ 32
      next := Function.update s.next task none })

/-- `task->state = TASK_RUNNING; task->cpu_id = lapic_id()` -/
def Sched.run (s : Sched Task) (task : Task) (lapic_id : Nat) : Sched Task :=
  { s with state := Function.update s.state task TASK_RUNNING, cpu_id := Function.update s.cpu_id task lapic_id }

/-- `task->state = TASK_DEAD` -/
def Sched.kill (s : Sched Task) (task : Task) : Sched Task :=
  { s with state := Function.update s.state task TASK_DEAD }

end

/-- The tasks met by following `next` from a pointer. -/
def Linked (next : Task → Option Task) : Option Task → List Task → Prop
  | first, [] => first = none
  | first, task :: rest => first = some task ∧ Linked next (next task) rest

/-- The run queue is a list of distinct tasks, in order, that ends at the task `tail` points to. -/
structure Chain (s : Sched Task) (l : List Task) : Prop where
  linked : Linked s.next s.head l
  last : s.tail = l.getLast?
  counted : s.count = l.length % 2 ^ 32
  distinct : l.Nodup

/-- The run queue holds the tasks of a list, in order, and no other task points anywhere. -/
structure Queue (s : Sched Task) (l : List Task) : Prop where
  linked : Linked s.next s.head l
  last : s.tail = l.getLast?
  counted : s.count = l.length % 2 ^ 32
  distinct : l.Nodup
  cleared : ∀ t, t ∉ l → s.next t = none

theorem Queue.chain {s : Sched Task} {l : List Task} (queue : Queue s l) : Chain s l :=
  ⟨queue.linked,queue.last,queue.counted,queue.distinct⟩

theorem Chain.queue {s : Sched Task} {l : List Task} (chain : Chain s l) (cleared : ∀ t, t ∉ l → s.next t = none) :
    Queue s l :=
  ⟨chain.linked,chain.last,chain.counted,chain.distinct,cleared⟩

theorem linked_congr {next next' : Task → Option Task} {first : Option Task} {l : List Task}
    (linked : Linked next first l) (same : ∀ t ∈ l, next' t = next t) : Linked next' first l := by
  induction l generalizing first with
  | nil => exact linked
  | cons t rest ih =>
    refine ⟨linked.1,?_⟩
    rw [same t (by simp)]
    exact ih linked.2 (fun u member => same u (by simp [member]))

theorem Queue.head_eq {s : Sched Task} {l : List Task} (queue : Queue s l) : s.head = l.head? := by
  cases l with
  | nil => exact queue.linked
  | cons t rest => exact queue.linked.1

theorem linked_unique {next : Task → Option Task} {first : Option Task} {l r : List Task}
    (left : Linked next first l) (right : Linked next first r) : l = r := by
  induction l generalizing first r with
  | nil =>
    cases r with
    | nil => rfl
    | cons t rest => exact absurd (right.1.symm.trans left) (by simp)
  | cons t rest ih =>
    cases r with
    | nil => exact absurd (left.1.symm.trans right) (by simp)
    | cons u rest' =>
      obtain rfl : t = u := Option.some.inj (left.1.symm.trans right.1)
      rw [ih left.2 right.2]

/-- The run queue holds one list. -/
theorem queue_unique {s : Sched Task} {l r : List Task} (left : Queue s l) (right : Queue s r) : l = r :=
  linked_unique left.linked right.linked

/-- An empty run queue before any task has been enqueued. -/
theorem queue_empty {s : Sched Task} (head : s.head = none) (tail : s.tail = none) (count : s.count = 0)
    (cleared : ∀ t, s.next t = none) : Queue s [] :=
  ⟨head,tail,count,List.nodup_nil,fun t _ => cleared t⟩

section
variable [DecidableEq Task]

/-- Pointing the last task to a new one appends it. -/
theorem linked_snoc {next : Task → Option Task} {first : Option Task} {l : List Task} {last task : Task}
    (linked : Linked next first l) (isLast : l.getLast? = some last) (distinct : l.Nodup) (absent : task ∉ l)
    (ends : next task = none) : Linked (Function.update next last (some task)) first (l ++ [task]) := by
  induction l generalizing first with
  | nil => simp at isLast
  | cons t rest ih =>
    rw [List.mem_cons,not_or] at absent
    rw [List.nodup_cons] at distinct
    refine ⟨linked.1,?_⟩
    cases rest with
    | nil =>
      obtain rfl : t = last := by simpa using isLast
      have other : Function.update next t (some task) task = none := by
        rw [Function.update_of_ne absent.1,ends]
      rw [Function.update_self]
      exact ⟨rfl,other⟩
    | cons u rest =>
      have later : (u :: rest).getLast? = some last := by simpa using isLast
      have other : t ≠ last := by
        rintro rfl
        exact distinct.1 (List.mem_of_getLast? later)
      rw [Function.update_of_ne other]
      exact ih linked.2 later distinct.2 absent.2

@[simp] theorem makeReady_next (s : Sched Task) (t : Task) : (s.makeReady t).next = Function.update s.next t none := rfl
@[simp] theorem makeReady_state (s : Sched Task) (t : Task) :
    (s.makeReady t).state = Function.update s.state t TASK_READY := rfl
@[simp] theorem link_state (s : Sched Task) (t : Task) : (s.link t).state = s.state := by
  unfold Sched.link
  split <;> rfl
@[simp] theorem enqueue_state (s : Sched Task) (t : Task) :
    (scheduler_enqueue s t).state = Function.update s.state t TASK_READY := by
  rw [scheduler_enqueue,link_state,makeReady_state]
@[simp] theorem run_state (s : Sched Task) (t : Task) (cpu : Nat) :
    (s.run t cpu).state = Function.update s.state t TASK_RUNNING := rfl
@[simp] theorem kill_state (s : Sched Task) (t : Task) :
    (s.kill t).state = Function.update s.state t TASK_DEAD := rfl

namespace Chain
variable {s : Sched Task} {l : List Task} {t : Task}

/-- Preparing a task outside the queue changes nothing in it. -/
theorem makeReady (chain : Chain s l) (absent : t ∉ l) : Chain (s.makeReady t) l := by
  refine ⟨linked_congr chain.linked (fun u member => ?_),chain.last,chain.counted,chain.distinct⟩
  have other : u ≠ t := fun same => absent (same ▸ member)
  exact Function.update_of_ne other none s.next

theorem link (chain : Chain s l) (absent : t ∉ l) (ends : s.next t = none) : Chain (s.link t) (l ++ [t]) := by
  obtain ⟨linked,isLast,counted,distinct⟩ := chain
  have grown : (s.count + 1) % 2 ^ 32 = (l ++ [t]).length % 2 ^ 32 := by
    rw [counted,List.length_append,List.length_singleton,Nat.mod_add_mod]
  have nodup : (l ++ [t]).Nodup := List.nodup_append.mpr ⟨distinct,List.nodup_singleton t,by
    rintro u member v single rfl
    exact absent (List.mem_singleton.mp single ▸ member)⟩
  unfold Sched.link
  cases tail : s.tail with
  | none =>
    obtain rfl : l = [] := List.getLast?_eq_none_iff.mp (isLast.symm.trans tail)
    exact ⟨⟨rfl,ends⟩,rfl,grown,nodup⟩
  | some last =>
    have found := isLast.symm.trans tail
    exact ⟨linked_snoc linked found distinct absent ends,by simp,grown,nodup⟩

theorem enqueue (chain : Chain s l) (absent : t ∉ l) : Chain (scheduler_enqueue s t) (l ++ [t]) := by
  have ends : (s.makeReady t).next t = none := by rw [makeReady_next,Function.update_self]
  exact (chain.makeReady absent).link absent ends

theorem dequeue_nil (chain : Chain s []) : scheduler_dequeue s = (none,s) := by
  have empty : s.head = none := chain.linked
  rw [scheduler_dequeue,empty]

theorem dequeue_cons {rest : List Task} (chain : Chain s (t :: rest)) :
    (scheduler_dequeue s).1 = some t ∧ Chain (scheduler_dequeue s).2 rest ∧
      (scheduler_dequeue s).2.next = Function.update s.next t none ∧
      (scheduler_dequeue s).2.state = s.state := by
  obtain ⟨⟨head,linked⟩,isLast,counted,distinct⟩ := chain
  rw [List.nodup_cons] at distinct
  rw [scheduler_dequeue,head]
  refine ⟨rfl,⟨?_,?_,?_,distinct.2⟩,rfl,rfl⟩
  · refine linked_congr linked (fun u member => Function.update_of_ne ?_ _ _)
    rintro rfl
    exact distinct.1 member
  · cases rest with
    | nil => exact if_pos linked
    | cons u rest =>
      have more : s.next t ≠ none := by simp [linked.1]
      exact (if_neg more).trans (by simpa using isLast)
  · show (s.count + (2 ^ 32 - 1)) % 2 ^ 32 = rest.length % 2 ^ 32
    rw [counted,List.length_cons]
    omega

end Chain

namespace Queue
variable {s : Sched Task} {l : List Task} {t : Task}

theorem run (queue : Queue s l) (cpu : Nat) : Queue (s.run t cpu) l :=
  ⟨queue.linked,queue.last,queue.counted,queue.distinct,queue.cleared⟩

theorem kill (queue : Queue s l) : Queue (s.kill t) l :=
  ⟨queue.linked,queue.last,queue.counted,queue.distinct,queue.cleared⟩

theorem makeReady (queue : Queue s l) (absent : t ∉ l) : Queue (s.makeReady t) l := by
  have same : (s.makeReady t).next = s.next := by
    rw [makeReady_next,← queue.cleared t absent,Function.update_eq_self]
  exact (queue.chain.makeReady absent).queue (same ▸ queue.cleared)

theorem link (queue : Queue s l) (absent : t ∉ l) : Queue (s.link t) (l ++ [t]) := by
  refine (queue.chain.link absent (queue.cleared t absent)).queue (fun u outside => ?_)
  rw [List.mem_append,List.mem_singleton,not_or] at outside
  unfold Sched.link
  cases tail : s.tail with
  | none => exact queue.cleared u outside.1
  | some last =>
    have found := queue.last.symm.trans tail
    have other : u ≠ last := fun same => outside.1 (same ▸ List.mem_of_getLast? found)
    exact (Function.update_of_ne other _ _).trans (queue.cleared u outside.1)

theorem enqueue (queue : Queue s l) (absent : t ∉ l) : Queue (scheduler_enqueue s t) (l ++ [t]) :=
  (queue.makeReady absent).link absent

theorem dequeue_nil (queue : Queue s []) : scheduler_dequeue s = (none,s) := queue.chain.dequeue_nil

theorem dequeue_cons {rest : List Task} (queue : Queue s (t :: rest)) :
    (scheduler_dequeue s).1 = some t ∧ Queue (scheduler_dequeue s).2 rest ∧
      (scheduler_dequeue s).2.state = s.state := by
  obtain ⟨found,chain,next,states⟩ := queue.chain.dequeue_cons
  refine ⟨found,chain.queue (fun u outside => ?_),states⟩
  rw [next]
  by_cases same : u = t
  · subst same
    exact Function.update_self u none s.next
  · exact (Function.update_of_ne same _ _).trans (queue.cleared u (by simp [same,outside]))

end Queue

end
end NekoOs.RunQueue
