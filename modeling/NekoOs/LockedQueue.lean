import NekoOs.Fifo
import NekoOs.Locking

/-!
`scheduler_enqueue` and `scheduler_dequeue` on any number of processors, one access to
memory at a time. A task's own fields are written before the lock is taken, while other
processors are inside. Still every call takes effect at once, as on a list.
-/
namespace NekoOs.LockedQueue
open RunQueue Fifo Transitions Locking Simulation
open TaskState (TASK_READY)
universe u v
variable {Task : Type u} {Cpu : Type v}

inductive Answer (Task : Type u)
  | enqueued
  | dequeued (task : Option Task)
deriving DecidableEq

/-- The next access of a call, with what its registers hold. -/
inductive Code (Task : Type u)
  /-- `task->state = TASK_READY` -/
  | setReady (task : Task)
  /-- `task->next = nullptr` -/
  | clearNext (task : Task)
  | lockToEnqueue (task : Task)
  /-- `if (!run_queue.tail)` -/
  | testTail (task : Task)
  /-- `run_queue.head = task` -/
  | setHead (task : Task)
  /-- `run_queue.tail->next = task`; under the lock `run_queue.tail` is what the test has read. -/
  | linkTail (task last : Task)
  /-- `run_queue.tail = task` -/
  | setTail (task : Task)
  /-- `run_queue.count++` -/
  | loadCount (task : Task)
  | storeCount (task : Task) (count : Nat)
  | unlockEnqueued (task : Task)
  | lockToDequeue
  /-- `task_t *task = run_queue.head` -/
  | takeHead
  /-- `run_queue.head = task->next` -/
  | loadNext (task : Task)
  | moveHead (task : Task) (next : Option Task)
  /-- `run_queue.tail = nullptr` -/
  | clearTail (task : Task)
  /-- `run_queue.count--` -/
  | loadCountDown (task : Task)
  | storeCountDown (task : Task) (count : Nat)
  /-- `task->next = nullptr` -/
  | cutNext (task : Task)
  | unlockDequeued (task : Option Task)
  | done (answer : Answer Task)

/-- The task that a call works on. -/
def Code.task : Code Task → Option Task
  | .setReady t | .clearNext t | .lockToEnqueue t | .testTail t | .setHead t | .linkTail t _ | .setTail t
  | .loadCount t | .storeCount t _ | .unlockEnqueued t => some t
  | .loadNext t | .moveHead t _ | .clearTail t | .loadCountDown t | .storeCountDown t _ | .cutNext t => some t
  | .unlockDequeued t | .done (.dequeued t) => t
  | .lockToDequeue | .takeHead | .done .enqueued => none

variable [DecidableEq Task]

def start : Call Task → Code Task
  | .enqueue task => .setReady task
  | .dequeue => .lockToDequeue

def afterTail (t : Task) : Option Task → Code Task
  | none => .setHead t
  | some last => .linkTail t last

def afterHead : Option Task → Code Task
  | none => .unlockDequeued none
  | some t => .loadNext t

def afterNext (t : Task) : Option Task → Code Task
  | none => .clearTail t
  | some _ => .loadCountDown t

/-- `count--`, 32 bits wide -/
def countDown (n : Nat) : Nat := (n + (2 ^ 32 - 1)) % 2 ^ 32

def stmt : Code Task → Stmt (Sched Task) (Code Task) (Answer Task)
  | .setReady t => .atomic fun s => ({ s with state := Function.update s.state t TASK_READY },.clearNext t)
  | .clearNext t => .atomic fun s => ({ s with next := Function.update s.next t none },.lockToEnqueue t)
  | .lockToEnqueue t => .acquire (.testTail t)
  | .testTail t => .atomic fun s => (s,afterTail t s.tail)
  | .setHead t => .atomic fun s => ({ s with head := some t },.setTail t)
  | .linkTail t last => .atomic fun s => ({ s with next := Function.update s.next last (some t) },.setTail t)
  | .setTail t => .atomic fun s => ({ s with tail := some t },.loadCount t)
  | .loadCount t => .atomic fun s => (s,.storeCount t s.count)
  | .storeCount t n => .atomic fun s => ({ s with count := (n + 1) % 2 ^ 32 },.unlockEnqueued t)
  | .unlockEnqueued _ => .release (.done .enqueued)
  | .lockToDequeue => .acquire .takeHead
  | .takeHead => .atomic fun s => (s,afterHead s.head)
  | .loadNext t => .atomic fun s => (s,.moveHead t (s.next t))
  -- `if (!run_queue.head)` sees what has just been stored
  | .moveHead t next => .atomic fun s => ({ s with head := next },afterNext t next)
  | .clearTail t => .atomic fun s => ({ s with tail := none },.loadCountDown t)
  | .loadCountDown t => .atomic fun s => (s,.storeCountDown t s.count)
  | .storeCountDown t n => .atomic fun s => ({ s with count := countDown n },.cutNext t)
  | .cutNext t => .atomic fun s => ({ s with next := Function.update s.next t none },.unlockDequeued (some t))
  | .unlockDequeued t => .release (.done (.dequeued t))
  | .done answer => .answer answer

def place : Code Task → Place (Answer Task)
  | .setReady _ | .clearNext _ | .lockToEnqueue _ | .lockToDequeue => .before
  | .done answer => .after answer
  | _ => .inside

/-- The statements that are left. -/
def left : Code Task → Nat
  | .setReady _ => 12
  | .clearNext _ => 11
  | .lockToEnqueue _ => 10
  | .testTail _ => 9
  | .setHead _ | .linkTail _ _ => 8
  | .setTail _ => 7
  | .loadCount _ => 6
  | .storeCount _ _ => 5
  | .lockToDequeue => 9
  | .takeHead => 8
  | .loadNext _ => 7
  | .moveHead _ _ => 6
  | .clearTail _ => 5
  | .loadCountDown _ => 4
  | .storeCountDown _ _ => 3
  | .cutNext _ => 2
  | .unlockEnqueued _ | .unlockDequeued _ => 1
  | .done _ => 0

theorem place_keeps (k : Code Task) (effect : Sched Task → Sched Task × Code Task) (found : stmt k = .atomic effect)
    (s : Sched Task) : place (effect s).2 = place k := by
  cases k with
  | testTail t =>
    cases found
    show place (afterTail t s.tail) = _
    cases s.tail <;> rfl
  | takeHead =>
    cases found
    show place (afterHead s.head) = _
    cases s.head <;> rfl
  | moveHead t next =>
    cases found
    cases next <;> rfl
  | _ => cases found <;> rfl

omit [DecidableEq Task] in
theorem starts_before (c : Call Task) : place (start c) = .before := by
  cases c <;> rfl

theorem acquires_inside (k next : Code Task) (found : stmt k = .acquire next) : place k = .before ∧ place next = .inside := by
  cases k <;> cases found <;> exact ⟨rfl,rfl⟩

theorem releases_after (k next : Code Task) (found : stmt k = .release next) :
    place k = .inside ∧ ∃ r, place next = .after r := by
  cases k <;> cases found <;> exact ⟨rfl,_,rfl⟩

theorem answers_after (k : Code Task) (r : Answer Task) (found : stmt k = .answer r) : place k = .after r := by
  cases k <;> cases found
  rfl

def queue : Program (Sched Task) (Call Task) (Code Task) (Answer Task) where
  start := start
  stmt := stmt
  place := place
  starts := starts_before
  acquires := acquires_inside
  releases := releases_after
  keeps := place_keeps
  answers := answers_after

theorem queue_finite : Finite (@queue Task _) left where
  acquire k next found := by cases k <;> cases found <;> simp [left]
  release k next found := by cases k <;> cases found <;> simp [left]
  atomic k effect found s := by
    cases k with
    | testTail t =>
      cases found
      show left (afterTail t s.tail) < _
      cases s.tail <;> simp [afterTail,left]
    | takeHead =>
      cases found
      show left (afterHead s.head) < _
      cases s.head <;> simp [afterHead,left]
    | moveHead t next =>
      cases found
      cases next <;> simp [afterNext,left]
    | _ => cases found <;> simp [left]

/-- The list that the calls work on. -/
def fifo : Object (List Task) (Call Task) (Answer Task) where
  initial := []
  serve l
    | .enqueue task => (l ++ [task],.enqueued)
    | .dequeue => (l.tail,.dequeued l.head?)

/-- The call that has not yet left its critical section. -/
def Code.pending : Code Task → Option (Call Task)
  | .setReady t | .clearNext t | .lockToEnqueue t | .testTail t | .setHead t | .linkTail t _ | .setTail t
  | .loadCount t | .storeCount t _ | .unlockEnqueued t => some (.enqueue t)
  | .lockToDequeue | .takeHead | .loadNext _ | .moveHead _ _ | .clearTail _ | .loadCountDown _ | .storeCountDown _ _
  | .cutNext _ | .unlockDequeued _ => some .dequeue
  | .done _ => none

/-- A task whose `next` has been cleared and which nothing points to yet. -/
def Code.ready : Code Task → Option Task
  | .lockToEnqueue t | .testTail t | .setHead t | .linkTail t _ => some t
  | _ => none

/-- The queue during a critical section: what `head` leads to, what `tail` belongs to and what has been counted. -/
structure Shape (s : Sched Task) (chain upto : List Task) (counted : Nat) : Prop where
  linked : Linked s.next s.head chain
  tail : s.tail = upto.getLast?
  count : s.count = counted % 2 ^ 32

/-- The queue when the lock was taken, and what has become of it. -/
def Mid (l : List Task) (s : Sched Task) : Code Task → Prop
  | .testTail _ => Shape s l l l.length
  | .setHead _ => l = [] ∧ Shape s l l l.length
  | .linkTail _ last => l.getLast? = some last ∧ Shape s l l l.length
  | .setTail t => Shape s (l ++ [t]) l l.length
  | .loadCount t => Shape s (l ++ [t]) (l ++ [t]) l.length
  | .storeCount t n => n = l.length % 2 ^ 32 ∧ Shape s (l ++ [t]) (l ++ [t]) l.length
  | .unlockEnqueued t => Shape s (l ++ [t]) (l ++ [t]) (l ++ [t]).length
  | .takeHead => Shape s l l l.length
  | .loadNext t => l.head? = some t ∧ Shape s l l l.length
  | .moveHead t next => l.head? = some t ∧ next = l.tail.head? ∧ Shape s l l l.length
  | .clearTail t => l = [t] ∧ Shape s l.tail l l.length
  | .loadCountDown t => l.head? = some t ∧ Shape s l.tail l.tail l.length
  | .storeCountDown t n => l.head? = some t ∧ n = l.length % 2 ^ 32 ∧ Shape s l.tail l.tail l.length
  | .cutNext t => l.head? = some t ∧ Shape s l.tail l.tail l.tail.length
  | .unlockDequeued t => t = l.head? ∧ Shape s l.tail l.tail l.tail.length
  | _ => True

section
variable {s : Sched Task} {l reached upto : List Task} {n : Nat} {t u : Task} {k : Code Task}

omit [DecidableEq Task] in
theorem countDown_tail (head : l.head? = some t) (counted : n = l.length % 2 ^ 32) :
    countDown n = l.tail.length % 2 ^ 32 := by
  cases l with
  | nil => cases head
  | cons first rest =>
    rw [counted,countDown,List.length_cons,List.tail_cons]
    omega

omit [DecidableEq Task] in
/-- A linked list starts at its first task. -/
theorem linked_head {next : Task → Option Task} {first : Option Task} (linked : Linked next first l) :
    first = l.head? := by
  cases l with
  | nil => exact linked
  | cons t rest => exact linked.1

omit [DecidableEq Task] in
theorem Shape.chain (shape : Shape s l l l.length) (distinct : l.Nodup) : Chain s l :=
  ⟨shape.linked,shape.tail,shape.count,distinct⟩

/-- Another processor clears the `next` of a task outside the queue. -/
theorem Shape.clear (shape : Shape s reached upto n) (absent : u ∉ reached) :
    Shape { s with next := Function.update s.next u none } reached upto n := by
  refine ⟨linked_congr shape.linked (fun v member => ?_),shape.tail,shape.count⟩
  have other : v ≠ u := fun same => absent (same ▸ member)
  exact Function.update_of_ne other none s.next

omit [DecidableEq Task] in
/-- A change outside the critical section that keeps every list of tasks in use. -/
theorem Mid.map {s' : Sched Task} (mid : Mid l s k) (kept : ∀ reached upto n,
    (∀ t ∈ reached, t ∈ l ∨ k.pending = some (.enqueue t)) → Shape s reached upto n → Shape s' reached upto n) :
    Mid l s' k := by
  have same (upto : List Task) (n : Nat) := kept l upto n (fun t member => .inl member)
  have rest (upto : List Task) (n : Nat) := kept l.tail upto n (fun t member => .inl (List.mem_of_mem_tail member))
  have grown (t : Task) (pending : k.pending = some (.enqueue t)) (upto : List Task) (n : Nat) :=
    kept (l ++ [t]) upto n (fun u member => (List.mem_append.mp member).imp id (fun single => by
      rwa [List.mem_singleton.mp single]))
  cases k with
  | testTail t | takeHead => exact same _ _ mid
  | setHead t | linkTail t last | loadNext t => exact ⟨mid.1,same _ _ mid.2⟩
  | moveHead t next => exact ⟨mid.1,mid.2.1,same _ _ mid.2.2⟩
  | setTail t | loadCount t | unlockEnqueued t => exact grown t rfl _ _ mid
  | storeCount t n => exact ⟨mid.1,grown t rfl _ _ mid.2⟩
  | clearTail t | loadCountDown t | cutNext t | unlockDequeued t => exact ⟨mid.1,rest _ _ mid.2⟩
  | storeCountDown t n => exact ⟨mid.1,mid.2.1,rest _ _ mid.2.2⟩
  | _ => trivial

/-- Each statement of a critical section brings the queue to where the next one expects it. -/
theorem Mid.step (mid : Mid l s k) (distinct : l.Nodup) (absent : ∀ t, k.pending = some (.enqueue t) → t ∉ l)
    (ready : ∀ t, k.ready = some t → s.next t = none) {effect : Sched Task → Sched Task × Code Task}
    (found : stmt k = .atomic effect) (inside : place k = .inside) : Mid l (effect s).1 (effect s).2 := by
  cases k with
  | setReady | clearNext => cases inside
  | lockToEnqueue | unlockEnqueued | lockToDequeue | unlockDequeued | done => cases found
  | testTail t =>
    cases found
    have shape : Shape s l l l.length := mid
    show Mid l s (afterTail t s.tail)
    cases tail : s.tail with
    | none => exact ⟨List.getLast?_eq_none_iff.mp (shape.tail.symm.trans tail),shape⟩
    | some last => exact ⟨shape.tail.symm.trans tail,shape⟩
  | setHead t =>
    cases found
    obtain ⟨rfl,shape⟩ := mid
    show Shape _ ([] ++ [t]) [] ([] : List Task).length
    exact ⟨⟨rfl,ready t rfl⟩,shape.tail,shape.count⟩
  | linkTail t last =>
    cases found
    obtain ⟨isLast,shape⟩ := mid
    show Shape _ (l ++ [t]) l l.length
    exact ⟨linked_snoc shape.linked isLast distinct (absent t rfl) (ready t rfl),shape.tail,shape.count⟩
  | setTail t =>
    cases found
    have shape : Shape s (l ++ [t]) l l.length := mid
    show Shape _ (l ++ [t]) (l ++ [t]) l.length
    exact ⟨shape.linked,by simp,shape.count⟩
  | loadCount t =>
    cases found
    have shape : Shape s (l ++ [t]) (l ++ [t]) l.length := mid
    exact ⟨shape.count,shape⟩
  | storeCount t n =>
    cases found
    obtain ⟨counted,shape⟩ := mid
    have grown : (n + 1) % 2 ^ 32 = (l ++ [t]).length % 2 ^ 32 := by
      rw [counted,List.length_append,List.length_singleton,Nat.mod_add_mod]
    show Shape _ (l ++ [t]) (l ++ [t]) (l ++ [t]).length
    exact ⟨shape.linked,shape.tail,grown⟩
  | takeHead =>
    cases found
    have shape : Shape s l l l.length := mid
    show Mid l s (afterHead s.head)
    cases l with
    | nil =>
      have head : s.head = none := shape.linked
      rw [head]
      exact ⟨rfl,shape⟩
    | cons first rest =>
      rw [shape.linked.1]
      exact ⟨rfl,shape⟩
  | loadNext t =>
    cases found
    obtain ⟨head,shape⟩ := mid
    refine ⟨head,?_,shape⟩
    cases l with
    | nil => cases head
    | cons first rest =>
      obtain rfl : first = t := Option.some.inj head
      exact linked_head shape.linked.2
  | moveHead t next =>
    cases found
    obtain ⟨head,equal,shape⟩ := mid
    show Mid l { s with head := next } (afterNext t next)
    cases l with
    | nil => cases head
    | cons first rest =>
      obtain rfl : first = t := Option.some.inj head
      have linked : Linked s.next next rest := ((linked_head shape.linked.2).trans equal.symm) ▸ shape.linked.2
      cases next with
      | none =>
        obtain rfl : rest = [] := List.head?_eq_none_iff.mp equal.symm
        exact ⟨rfl,linked,shape.tail,shape.count⟩
      | some second =>
        have more : (first :: rest).getLast? = rest.getLast? := by
          cases rest with
          | nil => cases equal
          | cons other rest => exact List.getLast?_cons_cons
        exact ⟨rfl,linked,shape.tail.trans more,shape.count⟩
  | clearTail t =>
    cases found
    obtain ⟨rfl,shape⟩ := mid
    show [t].head? = some t ∧ Shape _ [] [] [t].length
    exact ⟨rfl,shape.linked,rfl,shape.count⟩
  | loadCountDown t =>
    cases found
    obtain ⟨head,shape⟩ := mid
    exact ⟨head,shape.count,shape⟩
  | storeCountDown t n =>
    cases found
    obtain ⟨head,counted,shape⟩ := mid
    have fewer : Shape { s with count := countDown n } l.tail l.tail l.tail.length :=
      ⟨shape.linked,shape.tail,countDown_tail head counted⟩
    exact ⟨head,fewer⟩
  | cutNext t =>
    cases found
    obtain ⟨head,shape⟩ := mid
    refine ⟨head.symm,shape.clear ?_⟩
    cases l with
    | nil => cases head
    | cons first rest =>
      obtain rfl : first = t := Option.some.inj head
      exact (List.nodup_cons.mp distinct).1

/-- A task outside the queue that points nowhere is left alone. -/
theorem Mid.next (mid : Mid l s k) (absent : u ∉ l) (ends : s.next u = none)
    {effect : Sched Task → Sched Task × Code Task} (found : stmt k = .atomic effect) : (effect s).1.next u = none := by
  cases k with
  | lockToEnqueue | unlockEnqueued | lockToDequeue | unlockDequeued | done => cases found
  | clearNext t | cutNext t =>
    cases found
    by_cases same : u = t
    · exact same ▸ Function.update_self ..
    · exact (Function.update_of_ne same ..).trans ends
  | linkTail t last =>
    cases found
    have other : u ≠ last := fun same => absent (same ▸ List.mem_of_getLast? mid.1)
    exact (Function.update_of_ne other ..).trans ends
  | _ =>
    cases found
    exact ends

theorem pending_kept {effect : Sched Task → Sched Task × Code Task} (found : stmt k = .atomic effect) :
    (effect s).2.pending = k.pending := by
  cases k with
  | testTail t =>
    cases found
    show (afterTail t s.tail).pending = _
    cases s.tail <;> rfl
  | takeHead =>
    cases found
    show (afterHead s.head).pending = _
    cases s.head <;> rfl
  | moveHead t next =>
    cases found
    cases next <;> rfl
  | _ => cases found <;> rfl

/-- A task that is ready after a step was so before, or has just been made so. -/
theorem ready_step {effect : Sched Task → Sched Task × Code Task} (found : stmt k = .atomic effect)
    (ready : ∀ t, k.ready = some t → s.next t = none) (t : Task) (now : (effect s).2.ready = some t) :
    (effect s).1.next t = none := by
  cases k with
  | clearNext u =>
    cases found
    obtain rfl : u = t := Option.some.inj now
    exact Function.update_self ..
  | testTail u =>
    cases found
    refine ready t ?_
    rw [show (afterTail u s.tail).ready = some u by cases s.tail <;> rfl] at now
    exact now
  | takeHead =>
    cases found
    rw [show (afterHead s.head).ready = none by cases s.head <;> rfl] at now
    cases now
  | moveHead u next =>
    cases found
    cases next <;> cases now
  | _ => cases found <;> cases now

end

/-! ### Any number of processors -/

abbrev Machine (Cpu : Type v) (Task : Type u) := State Cpu (Sched Task) (Call Task) (Code Task)

/-- No processor has the task in a register and it is not in the queue. -/
def Unused (s : Machine Cpu Task) (t : Task) : Prop :=
  ¬ Queued s.shared t ∧ ∀ i c k, s.thread i = .running c k → k.task ≠ some t

/-- A task is handed over only while nobody else uses it. -/
def Allowed (s : Machine Cpu Task) : Action Cpu (Call Task) (Answer Task) → Prop
  | .call _ (.enqueue t) => Unused s t
  | _ => True

/-- What a processor in a call relies on. -/
structure Own (l : List Task) (q : Sched Task) (c : Call Task) (k : Code Task) : Prop where
  mid : Mid l q k
  pending : ∀ p, k.pending = some p → p = c
  absent : ∀ t, k.pending = some (.enqueue t) → t ∉ l
  ready : ∀ t, k.ready = some t → q.next t = none

structure Represented (l : List Task) (s : Machine Cpu Task) : Prop where
  distinct : l.Nodup
  free : s.word = 0 → Shape s.shared l l l.length
  own : ∀ i c k, s.thread i = .running c k → Own l s.shared c k
  apart : ∀ i j c c' k k' t, s.thread i = .running c k → s.thread j = .running c' k' →
    k.pending = some (.enqueue t) → k'.pending = some (.enqueue t) → i = j

section
variable {s : Machine Cpu Task} {l : List Task} {i : Cpu} {c : Call Task} {k : Code Task} {t : Task}

omit [DecidableEq Task] in
theorem task_of_pending (pending : k.pending = some (.enqueue t)) : k.task = some t := by
  cases k <;> cases pending <;> rfl

omit [DecidableEq Task] in
theorem pending_of_ready (ready : k.ready = some t) : k.pending = some (.enqueue t) := by
  cases k <;> cases ready <;> rfl

omit [DecidableEq Task] in
/-- A task of the list that is not behind `head` is in the register of the processor inside. -/
theorem Mid.holds {q : Sched Task} (mid : Mid l q k) (inside : place k = .inside) (member : t ∈ l) :
    (∃ reached, Linked q.next q.head reached ∧ t ∈ reached) ∨ k.task = some t := by
  have taken (u : Task) (head : l.head? = some u) (linked : Linked q.next q.head l.tail) :
      (∃ reached, Linked q.next q.head reached ∧ t ∈ reached) ∨ u = t := by
    cases l with
    | nil => cases head
    | cons first rest =>
      obtain rfl : first = u := Option.some.inj head
      rcases List.mem_cons.mp member with rfl | later
      · exact .inr rfl
      · exact .inl ⟨rest,linked,later⟩
  cases k with
  | setReady | clearNext | lockToEnqueue | lockToDequeue | done => cases inside
  | testTail u | takeHead => exact .inl ⟨l,Shape.linked mid,member⟩
  | setHead u | linkTail u last | loadNext u => exact .inl ⟨l,mid.2.linked,member⟩
  | moveHead u next => exact .inl ⟨l,mid.2.2.linked,member⟩
  | setTail u | loadCount u | unlockEnqueued u => exact .inl ⟨l ++ [u],Shape.linked mid,by simp [member]⟩
  | storeCount u n => exact .inl ⟨l ++ [u],mid.2.linked,by simp [member]⟩
  | clearTail u =>
    obtain ⟨rfl,shape⟩ := mid
    exact (taken u rfl shape.linked).imp id (congrArg some)
  | loadCountDown u | cutNext u => exact (taken u mid.1 mid.2.linked).imp id (congrArg some)
  | storeCountDown u n => exact (taken u mid.1 mid.2.2.linked).imp id (congrArg some)
  | unlockDequeued found =>
    cases head : l.head? with
    | none => simp [List.head?_eq_none_iff.mp head] at member
    | some u =>
      refine (taken u head mid.2.linked).imp id (fun same => ?_)
      exact mid.1.trans (head.trans (congrArg some same))

theorem unused_absent (represented : Represented l s) (exclusive : Exclusive queue s) (unused : Unused s t) : t ∉ l := by
  intro member
  by_cases free : s.word = 0
  · exact unused.1 ⟨l,(represented.free free).linked,member⟩
  · obtain ⟨j,c',k',thread,inside⟩ := exclusive.held free
    rcases (represented.own j c' k' thread).mid.holds inside member with ⟨reached,linked,found⟩ | task
    · exact unused.1 ⟨reached,linked,found⟩
    · exact unused.2 j c' k' thread task

omit [DecidableEq Task] in
theorem outside_mid {q : Sched Task} (outside : place k ≠ .inside) : Mid l q k := by
  cases k with
  | setReady | clearNext | lockToEnqueue | lockToDequeue | done => trivial
  | _ => exact absurd rfl outside

/-- Before the lock is taken a call writes to its own task only, which no list in use contains. -/
theorem before_shape {q : Sched Task} {effect : Sched Task → Sched Task × Code Task} (found : stmt k = .atomic effect)
    (outside : place k ≠ .inside) {reached upto : List Task} {n : Nat}
    (absent : ∀ t, k.pending = some (.enqueue t) → t ∉ reached) (shape : Shape q reached upto n) :
    Shape (effect q).1 reached upto n := by
  cases k with
  | setReady t =>
    cases found
    exact ⟨shape.linked,shape.tail,shape.count⟩
  | clearNext t =>
    cases found
    exact shape.clear (absent t rfl)
  | lockToEnqueue | lockToDequeue | done => cases found
  | _ => exact absurd rfl outside

variable [DecidableEq Cpu]

omit [DecidableEq Task] in
/-- A call that goes on is pending with what it was pending with. -/
theorem apart_move {p : Thread (Call Task) (Code Task)} (represented : Represented l s)
    (mine : ∀ c k t, p = .running c k → k.pending = some (.enqueue t) →
      ∃ c' k', s.thread i = .running c' k' ∧ k'.pending = some (.enqueue t))
    (j j' : Cpu) (c c' : Call Task) (k k' : Code Task) (t : Task) (thread : (s.move i p).thread j = .running c k)
    (thread' : (s.move i p).thread j' = .running c' k') (pending : k.pending = some (.enqueue t))
    (pending' : k'.pending = some (.enqueue t)) : j = j' := by
  have before (j : Cpu) (c : Call Task) (k : Code Task) (thread : (s.move i p).thread j = .running c k)
      (pending : k.pending = some (.enqueue t)) : ∃ c k, s.thread j = .running c k ∧ k.pending = some (.enqueue t) := by
    rcases running_move thread with ⟨rfl,same⟩ | ⟨_,thread⟩
    · exact mine c k t same pending
    · exact ⟨c,k,thread,pending⟩
  obtain ⟨d,m,at',with'⟩ := before j c k thread pending
  obtain ⟨d',m',at'',with''⟩ := before j' c' k' thread' pending'
  exact represented.apart j j' d d' m m' t at' at'' with' with''

theorem represented_call (represented : Represented l s) (exclusive : Exclusive queue s)
    (allowed : Allowed s (.call i c)) : Represented l (s.move i (.running c (start c))) := by
  have fresh (u : Task) (pending : (start c).pending = some (.enqueue u)) : Unused s u := by
    cases c with
    | dequeue => cases pending
    | enqueue t =>
      cases pending
      exact allowed
  refine ⟨represented.distinct,represented.free,running_moved represented.own ?_ (fun _ _ _ _ _ own => own),?_⟩
  · intro c' k' same
    cases same
    refine ⟨outside_mid (by rw [starts_before]; simp),?_,
      fun t pending => unused_absent represented exclusive (fresh t pending),?_⟩
    · intro p pending
      cases c <;> exact (Option.some.inj pending).symm
    · intro t ready
      cases c <;> cases ready
  · intro j j' d d' m m' t thread thread' pending pending'
    rcases running_move thread with ⟨rfl,same⟩ | ⟨_,old⟩
    · cases same
      rcases running_move thread' with ⟨rfl,_⟩ | ⟨_,old'⟩
      · rfl
      · exact absurd (task_of_pending pending') ((fresh t pending).2 _ _ _ old')
    · rcases running_move thread' with ⟨rfl,same⟩ | ⟨_,old'⟩
      · cases same
        exact absurd (task_of_pending pending) ((fresh t pending').2 _ _ _ old)
      · exact represented.apart j j' d d' m m' t old old' pending pending'

theorem represented_acquire {next : Code Task} (represented : Represented l s) (thread : s.thread i = .running c k)
    (found : stmt k = .acquire next) (free : s.word = 0) : Represented l (s.move i (.running c next)).lock := by
  have own := represented.own i c k thread
  have shape := represented.free free
  have kept : Own l s.shared c next ∧ next.pending = k.pending := by
    cases k <;> cases found <;> exact ⟨⟨shape,own.pending,own.absent,fun t ready => own.ready t (by exact ready)⟩,rfl⟩
  refine ⟨represented.distinct,by simp,running_moved represented.own ?_ (fun _ _ _ _ _ own => own),apart_move represented ?_⟩
  · intro c' k' same
    cases same
    exact kept.1
  · intro c' k' t same pending
    cases same
    exact ⟨c,k,thread,kept.2 ▸ pending⟩

theorem represented_atomic {effect : Sched Task → Sched Task × Code Task} (represented : Represented l s)
    (thread : s.thread i = .running c k) (found : stmt k = .atomic effect) (exclusive : Exclusive queue s) :
    Represented l ((s.move i (.running c (effect s.shared).2)).put (effect s.shared).1) := by
  have own := represented.own i c k thread
  have pending : (effect s.shared).2.pending = k.pending := pending_kept found
  refine ⟨represented.distinct,?_,running_moved represented.own ?_ ?_,apart_move represented ?_⟩
  · intro free
    have outside : place k ≠ .inside := fun inside => exclusive.free free i ⟨c,k,thread,inside⟩
    exact before_shape found outside own.absent (represented.free free)
  · intro c' k' same
    cases same
    refine ⟨?_,pending ▸ own.pending,pending ▸ own.absent,ready_step found own.ready⟩
    by_cases inside : place k = .inside
    · exact own.mid.step represented.distinct own.absent own.ready found inside
    · exact outside_mid (by rwa [place_keeps k effect found])
  · intro j c' k' other thread' own'
    refine ⟨?_,own'.pending,own'.absent,fun t ready => own.mid.next (own'.absent t (pending_of_ready ready))
      (own'.ready t ready) found⟩
    by_cases inside : place k' = .inside
    · have outside : place k ≠ .inside := fun inside' => other (exclusive.one j i ⟨c',k',thread',inside⟩ ⟨c,k,thread,inside'⟩)
      refine own'.mid.map (fun reached upto n where' shape => before_shape found outside (fun t pending member => ?_) shape)
      rcases where' t member with queued | pending'
      · exact own.absent t pending queued
      · exact other (represented.apart j i c' c k' k t thread' thread pending' pending)
    · exact outside_mid inside
  · intro c' k' t same pending'
    cases same
    exact ⟨c,k,thread,pending ▸ pending'⟩

theorem represented_release {next : Code Task} (represented : Represented l s) (thread : s.thread i = .running c k)
    (found : stmt k = .release next) (exclusive : Exclusive queue s) :
    place next = .after (fifo.serve l c).2 ∧ Represented (fifo.serve l c).1 (s.move i (.running c next)).unlock := by
  have own := represented.own i c k thread
  -- the new list holds what the old one held, and perhaps the task of this call
  have served : place next = .after (fifo.serve l c).2 ∧ next.pending = none ∧ next.ready = none ∧ (fifo.serve l c).1.Nodup ∧
      Shape s.shared (fifo.serve l c).1 (fifo.serve l c).1 (fifo.serve l c).1.length ∧
      ∀ t ∈ (fifo.serve l c).1, t ∈ l ∨ k.pending = some (.enqueue t) := by
    cases k with
    | unlockEnqueued t =>
      cases found
      obtain rfl := own.pending _ rfl
      refine ⟨rfl,rfl,rfl,?_,own.mid,?_⟩
      · refine List.nodup_append.mpr ⟨represented.distinct,List.nodup_singleton t,?_⟩
        rintro u member v single rfl
        exact own.absent t rfl (List.mem_singleton.mp single ▸ member)
      · intro u member
        refine (List.mem_append.mp member).imp id (fun single => ?_)
        rw [List.mem_singleton.mp single]
        rfl
    | unlockDequeued t =>
      cases found
      obtain rfl := own.pending _ rfl
      obtain ⟨rfl,shape⟩ := own.mid
      exact ⟨rfl,rfl,rfl,represented.distinct.tail,shape,fun u member => .inl (List.mem_of_mem_tail member)⟩
    | _ => cases found
  obtain ⟨after,done,unready,distinct,shape,members⟩ := served
  refine ⟨after,distinct,fun _ => shape,running_moved represented.own ?_ ?_,apart_move represented ?_⟩
  · intro c' k' same
    cases same
    refine ⟨outside_mid (by simp [after]),?_,?_,?_⟩ <;> simp [done,unready]
  · intro j c' k' other thread' own'
    have outside : place k' ≠ .inside := fun inside =>
      other (exclusive.one j i ⟨c',k',thread',inside⟩ ⟨c,k,thread,(releases_after k next found).1⟩)
    refine ⟨outside_mid outside,own'.pending,fun t pending member => ?_,own'.ready⟩
    rcases members t member with queued | mine
    · exact own'.absent t pending queued
    · exact other (represented.apart j i c' c k' k t thread' thread pending mine)
  · intro c' k' t same pending
    cases same
    simp [done] at pending

omit [DecidableEq Task] [DecidableEq Cpu] in
theorem represented_initial {initial : Sched Task} (head : initial.head = none) (tail : initial.tail = none)
    (count : initial.count = 0) (quiet : Quiet s) (data : s.shared = initial) : Represented [] s := by
  have idle (j : Cpu) (d : Call Task) (m : Code Task) (thread : s.thread j = .running d m) : False := by
    rw [quiet.thread j] at thread
    cases thread
  have shape : Shape s.shared [] [] 0 := by
    rw [data]
    exact ⟨head,tail,count⟩
  exact ⟨List.nodup_nil,fun _ => shape,fun j d m thread => (idle j d m thread).elim,
    fun j _ d _ m _ _ thread => (idle j d m thread).elim⟩

theorem represents {initial : Sched Task} (head : initial.head = none) (tail : initial.tail = none) (count : initial.count = 0) :
    Represents queue fifo initial Allowed (Represented : List Task → Machine Cpu Task → Prop) where
  initial s quiet data := represented_initial head tail count quiet data
  call l s i c represented allowed _ exclusive := represented_call represented exclusive allowed
  acquire l s i c k next represented thread found free _ := represented_acquire represented thread found free
  spin l s represented taken := ⟨represented.distinct,by simp,represented.own,represented.apart⟩
  atomic l s i c k effect represented thread found exclusive := represented_atomic represented thread found exclusive
  release l s i c k next represented thread found exclusive := represented_release represented thread found exclusive
  answer l s i c k r represented _ _ := by
    refine ⟨represented.distinct,represented.free,running_moved represented.own ?_ (fun _ _ _ _ _ own => own),apart_move represented ?_⟩
    · intro c' k' same
      cases same
    · intro c' k' t same
      cases same

/-- However the processors interleave, their calls get the answers of a list that serves each call at once,
    between the call and its answer, and whenever the lock is free the queue is that list. -/
theorem run_queue_linearizable {initial : Sched Task} (head : initial.head = none) (tail : initial.tail = none)
    (count : initial.count = 0) {first s : Machine Cpu Task} {actions : List (Action Cpu (Call Task) (Answer Task))}
    (start : Quiet first ∧ first.shared = initial) (run : ((queue.system initial).restrict Allowed).Run first actions s) :
    ∃ (a b : Object.State Cpu (List Task) (Call Task) (Answer Task)) (actions' : _), fifo.system.initial a ∧
      fifo.system.Run a actions' b ∧
      trace Object.Action.event actions' = trace Action.event actions ∧
      (s.word = 0 → Chain s.shared b.value) ∧ ∀ i, b.client i = queue.client (s.thread i) := by
  obtain ⟨a,b,actions',starts,run',same,follows⟩ := (simulates (represents head tail count)).run start run
  exact ⟨a,b,actions',starts,run',same,fun free => (follows.value.free free).chain follows.value.distinct,follows.client⟩

/-- A run queue before `scheduler_init`. -/
def empty : Sched Nat := ⟨none,none,0,fun _ => none,fun _ => TASK_READY,fun _ => 0⟩

def begun : Machine Bool Nat := ⟨0,empty,fun _ => .idle⟩

def sampleSteps : List (Action Bool (Call Nat) (Answer Nat)) :=
  [.call true .dequeue,.step true,.step false,.step false,.step true,.step false,.step true,.answer true (.dequeued none)] ++
    List.replicate 7 (.step false) ++ [.answer false .enqueued]

/-- One processor finds the queue empty while another prepares a task, spins and then enqueues it. -/
theorem run_queue_linearizable_two : ∃ (a b : Object.State Bool (List Nat) (Call Nat) (Answer Nat)) (actions' : _), fifo.system.initial a ∧
    fifo.system.Run a actions' b ∧
    trace Object.Action.event actions' =
      [.call false (.enqueue 1),.call true .dequeue,.answer true (.dequeued none),.answer false .enqueued] ∧ b.value = [1] := by
  have unused : Unused begun 1 := by
    refine ⟨?_,fun i c k thread => by cases thread⟩
    rintro ⟨l,linked,member⟩
    cases l with
    | nil => cases member
    | cons t rest => cases linked.1
  have may : ∀ a ∈ sampleSteps, ∀ s, Allowed s a := by
    simp [sampleSteps,Allowed]
  have rest : ((queue.system empty).restrict Allowed).Run (begun.move false (.running (.enqueue 1) (.setReady 1))) sampleSteps _ :=
    System.Run.restricted (System.run_of_foldlM rfl) may
  have run : ((queue.system empty).restrict Allowed).Run begun (.call false (.enqueue 1) :: sampleSteps) _ := .cons ⟨unused,rfl⟩ rest
  obtain ⟨a,b,actions,starts,run',same,chain,_⟩ :=
    @run_queue_linearizable Nat Bool _ _ empty rfl rfl rfl begun _ _ ⟨⟨rfl,fun _ => rfl⟩,rfl⟩ run
  exact ⟨a,b,actions,starts,run',same,linked_unique (chain rfl).linked ⟨rfl,rfl⟩⟩

/-- At most one processor is between taking `run_queue.lock` and giving it back, and whatever the processors have
    done, any of them gets out of its call within 25 steps. -/
theorem run_queue_live {initial : Sched Task} {s : Machine Cpu Task} (reached : (queue.system initial).Reachable s) (i : Cpu) :
    (∀ j j', Holds queue s j → Holds queue s j' → j = j') ∧
      ∃ actions t, (queue.system initial).Run s actions t ∧ actions.length ≤ 25 ∧ t.thread i = .idle := by
  have bounded (k : Code Task) : left k ≤ 12 := by
    cases k <;> simp [left]
  exact ⟨(exclusive_of_reachable reached).one,can_return queue_finite bounded reached i⟩

/-- One processor is inside while the other waits. -/
theorem run_queue_live_two : ∃ s : Machine Bool Nat, Holds queue s true ∧
    ∃ actions t, (queue.system empty).Run s actions t ∧ actions.length ≤ 25 ∧ t.thread false = .idle := by
  have start : (queue.system empty).Reachable begun := System.reachable_initial ⟨⟨rfl,fun _ => rfl⟩,rfl⟩
  have run : (queue.system empty).Run begun [.call false .dequeue,.call true .dequeue,.step true,.step false] _ :=
    System.run_of_foldlM rfl
  exact ⟨_,⟨.dequeue,.takeHead,rfl,rfl⟩,(run_queue_live (start.run run) false).2⟩

end

end NekoOs.LockedQueue
