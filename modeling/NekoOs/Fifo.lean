import Mathlib.Data.List.ReduceOption
import Mathlib.Data.List.Perm.Subperm
import NekoOs.RunQueue
import NekoOs.Tasks

/-!
Every sequence of calls of the run queue answers as a list does that grows at
one end and shrinks at the other. The calls come from any processors; each is a
critical section, so a sequence is the order in which they take the lock.
-/
namespace NekoOs.Fifo
open RunQueue Tasks
universe u
variable {Task : Type u}

inductive Call (Task : Type u)
  | enqueue (task : Task)
  | dequeue

/-- A call on a list: the list it leaves. -/
def serve (l : List Task) : Call Task → List Task
  | .enqueue task => l ++ [task]
  | .dequeue => l.tail

/-- What the dequeues among the calls return. -/
def answers (l : List Task) : List (Call Task) → List (Option Task)
  | [] => []
  | .enqueue task :: calls => answers (l ++ [task]) calls
  | .dequeue :: calls => l.head? :: answers l.tail calls

/-- The tasks that are enqueued, in order. -/
def enqueued : List (Call Task) → List Task
  | [] => []
  | .enqueue task :: calls => task :: enqueued calls
  | .dequeue :: calls => enqueued calls

/-- What has been enqueued is what has been taken, and then what is left. -/
theorem taken_and_left (l : List Task) (calls : List (Call Task)) :
    l ++ enqueued calls = (answers l calls).reduceOption ++ calls.foldl serve l := by
  induction calls generalizing l with
  | nil => exact List.append_nil l
  | cons call calls ih =>
    cases call with
    | enqueue task =>
      have onward := ih (l ++ [task])
      rw [List.append_assoc] at onward
      exact onward
    | dequeue =>
      cases l with
      | nil => exact ih []
      | cons first rest =>
        show first :: (rest ++ enqueued calls) = first :: ((answers rest calls).reduceOption ++ calls.foldl serve rest)
        rw [ih rest]

/-- The task is on the list that starts at `head`. -/
def Queued (s : Sched Task) (task : Task) : Prop := ∃ l, Linked s.next s.head l ∧ task ∈ l

section
variable {s : Sched Task} {l : List Task}

theorem queued_iff (chain : Chain s l) (task : Task) : Queued s task ↔ task ∈ l := by
  constructor
  · rintro ⟨other,linked,member⟩
    rwa [← linked_unique linked chain.linked]
  · exact fun member => ⟨l,chain.linked,member⟩

theorem last_next {next : Task → Option Task} {first : Option Task} {last : Task} (linked : Linked next first l)
    (isLast : l.getLast? = some last) : next last = none := by
  induction l generalizing first with
  | nil => cases isLast
  | cons task rest ih =>
    cases rest with
    | nil =>
      obtain rfl : task = last := by simpa using isLast
      exact linked.2
    | cons second rest => exact ih linked.2 (by simpa using isLast)

theorem head_none_iff (chain : Chain s l) : s.head = none ↔ s.tail = none := by
  rw [chain.last,List.getLast?_eq_none_iff]
  cases l with
  | nil => exact iff_of_true chain.linked rfl
  | cons task rest => exact iff_of_false (by simp [chain.linked.1]) (by simp)

end

section
variable [DecidableEq Task]

def exec (s : Sched Task) : Call Task → Sched Task
  | .enqueue task => scheduler_enqueue s task
  | .dequeue => (scheduler_dequeue s).2

def results (s : Sched Task) : List (Call Task) → List (Option Task)
  | [] => []
  | .enqueue task :: calls => results (exec s (.enqueue task)) calls
  | .dequeue :: calls => (scheduler_dequeue s).1 :: results (exec s .dequeue) calls

/-- No task is enqueued while it is queued. -/
def Allowed (s : Sched Task) : List (Call Task) → Prop
  | [] => True
  | .enqueue task :: calls => ¬ Queued s task ∧ Allowed (exec s (.enqueue task)) calls
  | .dequeue :: calls => Allowed (exec s .dequeue) calls

/-- The same for the calls on a list. -/
def Fresh (l : List Task) : List (Call Task) → Prop
  | [] => True
  | .enqueue task :: calls => task ∉ l ∧ Fresh (l ++ [task]) calls
  | .dequeue :: calls => Fresh l.tail calls

variable {s : Sched Task} {l : List Task} {calls : List (Call Task)}

/-- A dequeue returns the head of the list. -/
theorem dequeue_chain (chain : Chain s l) :
    (scheduler_dequeue s).1 = l.head? ∧ Chain (scheduler_dequeue s).2 l.tail := by
  cases l with
  | nil =>
    rw [chain.dequeue_nil]
    exact ⟨rfl,chain⟩
  | cons first rest =>
    obtain ⟨found,left,_⟩ := chain.dequeue_cons
    exact ⟨found,left⟩

/-- A run on the linked list is the same run on the list. -/
theorem run_chain (chain : Chain s l) (allowed : Allowed s calls) :
    Chain (calls.foldl exec s) (calls.foldl serve l) ∧ results s calls = answers l calls := by
  induction calls generalizing s l with
  | nil => exact ⟨chain,rfl⟩
  | cons call calls ih =>
    cases call with
    | enqueue task =>
      have absent : task ∉ l := fun member => allowed.1 ((queued_iff chain task).mpr member)
      exact ih (chain.enqueue absent) allowed.2
    | dequeue =>
      obtain ⟨found,left⟩ := dequeue_chain chain
      obtain ⟨after,same⟩ := ih left allowed
      refine ⟨after,?_⟩
      show (scheduler_dequeue s).1 :: results (exec s .dequeue) calls = l.head? :: answers l.tail calls
      rw [found,show results (exec s .dequeue) calls = answers l.tail calls from same]

/-- A dequeue returns null exactly when the list is empty, and then changes nothing. -/
theorem dequeue_none_iff (chain : Chain s l) (s' : Sched Task) :
    scheduler_dequeue s = (none,s') ↔ l = [] ∧ s' = s := by
  cases l with
  | nil =>
    rw [chain.dequeue_nil]
    simp [eq_comm]
  | cons first rest =>
    have found := chain.dequeue_cons.1
    constructor
    · intro returned
      rw [returned] at found
      cases found
    · rintro ⟨impossible,_⟩
      cases impossible

theorem dequeued_next {task : Task} {s' : Sched Task} (returned : scheduler_dequeue s = (some task,s')) :
    s'.next task = none := by
  rw [scheduler_dequeue] at returned
  cases head : s.head with
  | none =>
    rw [head] at returned
    cases returned
  | some first =>
    rw [head] at returned
    obtain ⟨found,left⟩ := Prod.mk.inj returned
    obtain rfl : first = task := Option.some.inj found
    rw [← left]
    exact Function.update_self first none s.next

/-- Enqueuing only what the list does not hold is allowed. -/
theorem allowed_of_chain (chain : Chain s l) (fresh : Fresh l calls) : Allowed s calls := by
  induction calls generalizing s l with
  | nil => trivial
  | cons call calls ih =>
    cases call with
    | enqueue task =>
      exact ⟨fun queued => fresh.1 ((queued_iff chain task).mp queued),ih (chain.enqueue fresh.1) fresh.2⟩
    | dequeue => exact ih (dequeue_chain chain).2 fresh

end

/-- `ld_heap_end - ld_heap_start` -/
def heap_size : Nat := 256 * 2 ^ 20

/-- The tasks of a list are objects of their own in the heap, as `task_create` makes them. -/
structure Objects (address : Task → Nat) (ld_heap_start : Nat) (l : List Task) : Prop where
  low : ∀ t ∈ l, ld_heap_start ≤ address t
  high : ∀ t ∈ l, address t + sizeof_task ≤ ld_heap_start + heap_size
  apart : ∀ t ∈ l, ∀ u ∈ l, t ≠ u → address t + sizeof_task ≤ address u ∨ address u + sizeof_task ≤ address t

/-- So few tasks fit into the heap that their number does not wrap. -/
theorem Objects.few {address : Task → Nat} {ld_heap_start : Nat} {l : List Task}
    (objects : Objects address ld_heap_start l) (distinct : l.Nodup) : l.length < 2 ^ 32 := by
  have nodup : (l.map (fun t => (address t - ld_heap_start) / sizeof_task)).Nodup := by
    refine distinct.map_on (fun t first u second same => ?_)
    by_contra different
    have below := objects.low t first
    have below' := objects.low u second
    have apart := objects.apart t first u second different
    simp only [sizeof_task,TASK_STACK_SIZE] at apart same
    omega
  have inside : l.map (fun t => (address t - ld_heap_start) / sizeof_task) ⊆ List.range (2 ^ 28) := by
    intro k member
    obtain ⟨t,queued,rfl⟩ := List.mem_map.mp member
    have above := objects.high t queued
    simp only [sizeof_task,TASK_STACK_SIZE,heap_size,List.mem_range] at above ⊢
    omega
  have bound := (nodup.subperm inside).length_le
  rw [List.length_map,List.length_range] at bound
  omega

/-- From an empty queue, in every sequence of calls in which no queued task is enqueued, the links are at all
    times those of the list the calls make, and the dequeues return its heads. The 32-bit counter is its length,
    as more tasks than it can count do not fit into the heap. -/
theorem run_queue_fifo [DecidableEq Task] (s : Sched Task) (head : s.head = none) (tail : s.tail = none)
    (count : s.count = 0) (calls : List (Call Task)) (allowed : Allowed s calls) :
    let s' := calls.foldl exec s
    let l := calls.foldl serve []
    Linked s'.next s'.head l ∧ l.Nodup ∧ s'.tail = l.getLast? ∧
      (∀ last, s'.tail = some last → s'.next last = none) ∧ (s'.head = none ↔ s'.tail = none) ∧
      s'.count = l.length % 2 ^ 32 ∧
      (∀ address ld_heap_start, Objects address ld_heap_start l → s'.count = l.length) ∧
      results s calls = answers [] calls ∧ enqueued calls = (results s calls).reduceOption ++ l ∧
      (∀ task s'', scheduler_dequeue s' = (some task,s'') → s''.next task = none) ∧
      (∀ s'', scheduler_dequeue s' = (none,s'') ↔ l = [] ∧ s'' = s') := by
  intro s' l
  have empty : Chain s [] := ⟨head,tail,count,List.nodup_nil⟩
  obtain ⟨chain,same⟩ : Chain s' l ∧ results s calls = answers [] calls := run_chain empty allowed
  have conserved : enqueued calls = (results s calls).reduceOption ++ l := by
    rw [same]
    exact taken_and_left [] calls
  refine ⟨chain.linked,chain.distinct,chain.last,fun last isLast => ?_,head_none_iff chain,chain.counted,
    fun address start objects => ?_,same,conserved,fun task s'' returned => dequeued_next returned,fun s'' => ?_⟩
  · exact last_next chain.linked (chain.last.symm.trans isLast)
  · rw [chain.counted,Nat.mod_eq_of_lt (objects.few chain.distinct)]
  · rw [dequeue_none_iff chain]

/-- Two tasks of which one comes back after the queue has drained. -/
theorem run_queue_fifo_two :
    let s : Sched Nat := ⟨none,none,0,fun t => some (t + 1),fun _ => .TASK_DEAD,fun _ => 0⟩
    let calls : List (Call Nat) := [.enqueue 4,.dequeue,.dequeue,.enqueue 6,.enqueue 4,.dequeue]
    Allowed s calls ∧ results s calls = [some 4,none,some 6] ∧
      enqueued calls = (results s calls).reduceOption ++ calls.foldl serve [] := by
  intro s calls
  have empty : Chain s [] := ⟨rfl,rfl,rfl,List.nodup_nil⟩
  have allowed : Allowed s calls := allowed_of_chain empty (by simp [calls,Fresh])
  obtain ⟨_,_,_,_,_,_,_,same,conserved,_⟩ := run_queue_fifo s rfl rfl rfl calls allowed
  exact ⟨allowed,same,conserved⟩

end NekoOs.Fifo
