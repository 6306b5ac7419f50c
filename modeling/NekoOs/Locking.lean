import NekoOs.Simulation
import Mathlib.Logic.Function.Basic

/-!
Threads that call code with a critical section under a spinlock. They interleave
statement by statement, also in the code around the critical section. At most one
thread is inside, every call can return, and if the section keeps an invariant of
the data then the calls take effect one at a time, each between its call and its
answer.
-/
namespace NekoOs.Locking
open Transitions Simulation
universe u v w x y z

/-- The next statement of a thread. -/
inductive Stmt (Shared : Type u) (Code : Type v) (Result : Type w)
  /-- Exchanges the lock word with 1, again and again until it was 0. -/
  | acquire (next : Code)
  | release (next : Code)
  | atomic (effect : Shared → Shared × Code)
  | answer (result : Result)

/-- Where a statement stands in its call. The critical section decides the result. -/
inductive Place (Result : Type w)
  | before
  | inside
  | after (result : Result)
deriving DecidableEq

structure Routine (Shared : Type u) (Call : Type x) (Code : Type v) (Result : Type w) where
  start : Call → Code
  stmt : Code → Stmt Shared Code Result
  place : Code → Place Result

/-- A routine that takes the lock and gives it back once in a call. -/
structure Program (Shared : Type u) (Call : Type x) (Code : Type v) (Result : Type w) extends
    Routine Shared Call Code Result where
  starts : ∀ c, place (start c) = .before
  acquires : ∀ k next, stmt k = .acquire next → place k = .before ∧ place next = .inside
  releases : ∀ k next, stmt k = .release next → place k = .inside ∧ ∃ r, place next = .after r
  keeps : ∀ k effect, stmt k = .atomic effect → ∀ s, place (effect s).2 = place k
  answers : ∀ k r, stmt k = .answer r → place k = .after r

inductive Thread (Call : Type x) (Code : Type v)
  | idle
  | running (call : Call) (code : Code)

structure State (Id : Type y) (Shared : Type u) (Call : Type x) (Code : Type v) where
  word : Nat
  shared : Shared
  thread : Id → Thread Call Code

inductive Action (Id : Type y) (Call : Type x) (Result : Type w)
  | call (i : Id) (c : Call)
  | step (i : Id)
  | answer (i : Id) (result : Result)

/-- What the callers see. -/
inductive Event (Id : Type y) (Call : Type x) (Result : Type w)
  | call (i : Id) (c : Call)
  | answer (i : Id) (result : Result)
deriving DecidableEq

variable {Id : Type y} {Shared : Type u} {Call : Type x} {Code : Type v} {Result : Type w} {Value : Type z}

def Action.event : Action Id Call Result → Option (Event Id Call Result)
  | .call i c => some (.call i c)
  | .step _ => none
  | .answer i r => some (.answer i r)

section
variable [DecidableEq Id]

def State.move (s : State Id Shared Call Code) (i : Id) (thread : Thread Call Code) : State Id Shared Call Code :=
  { s with thread := Function.update s.thread i thread }

/-- A failed exchange leaves the lock word at 1. -/
def State.lock (s : State Id Shared Call Code) : State Id Shared Call Code := { s with word := 1 }
def State.unlock (s : State Id Shared Call Code) : State Id Shared Call Code := { s with word := 0 }
def State.put (s : State Id Shared Call Code) (shared : Shared) : State Id Shared Call Code := { s with shared := shared }

def Program.next [DecidableEq Result] (P : Program Shared Call Code Result) (s : State Id Shared Call Code) :
    Action Id Call Result → Option (State Id Shared Call Code)
  | .call i c =>
    match s.thread i with
    | .idle => some (s.move i (.running c (P.start c)))
    | .running _ _ => none
  | .step i =>
    match s.thread i with
    | .idle => none
    | .running c k =>
      match P.stmt k with
      | .acquire next => if s.word = 0 then some (s.move i (.running c next)).lock else some s.lock
      | .release next => some (s.move i (.running c next)).unlock
      | .atomic effect => some ((s.move i (.running c (effect s.shared).2)).put (effect s.shared).1)
      | .answer _ => none
  | .answer i r =>
    match s.thread i with
    | .idle => none
    | .running _ k =>
      match P.stmt k with
      | .answer result => if result = r then some (s.move i .idle) else none
      | _ => none

/-- No thread is in a call and the lock is free. -/
structure Quiet (s : State Id Shared Call Code) : Prop where
  word : s.word = 0
  thread : ∀ i, s.thread i = .idle

def Program.system [DecidableEq Result] (P : Program Shared Call Code Result) (initial : Shared) :
    System (State Id Shared Call Code) (Action Id Call Result) :=
  .ofFunction (fun s => Quiet s ∧ s.shared = initial) P.next

/-- All that a step can do. -/
inductive Step (P : Program Shared Call Code Result) (s : State Id Shared Call Code) :
    Action Id Call Result → State Id Shared Call Code → Prop
  | call {i : Id} {c : Call} : s.thread i = .idle → Step P s (.call i c) (s.move i (.running c (P.start c)))
  | acquire {i : Id} {c : Call} {k next : Code} : s.thread i = .running c k → P.stmt k = .acquire next → s.word = 0 →
      Step P s (.step i) (s.move i (.running c next)).lock
  | spin {i : Id} {c : Call} {k next : Code} : s.thread i = .running c k → P.stmt k = .acquire next → s.word ≠ 0 →
      Step P s (.step i) s.lock
  | release {i : Id} {c : Call} {k next : Code} : s.thread i = .running c k → P.stmt k = .release next →
      Step P s (.step i) (s.move i (.running c next)).unlock
  | atomic {i : Id} {c : Call} {k : Code} {effect : Shared → Shared × Code} : s.thread i = .running c k →
      P.stmt k = .atomic effect →
      Step P s (.step i) ((s.move i (.running c (effect s.shared).2)).put (effect s.shared).1)
  | answer {i : Id} {c : Call} {k : Code} {r : Result} : s.thread i = .running c k → P.stmt k = .answer r →
      Step P s (.answer i r) (s.move i .idle)

variable {P : Program Shared Call Code Result} {s t : State Id Shared Call Code}

theorem step_of_next [DecidableEq Result] {a : Action Id Call Result} (taken : P.next s a = some t) : Step P s a t := by
  cases a with
  | call i c =>
    cases thread : s.thread i with
    | idle =>
      simp only [Program.next,thread,Option.some.injEq] at taken
      exact taken ▸ .call thread
    | running => simp [Program.next,thread] at taken
  | step i =>
    cases thread : s.thread i with
    | idle => simp [Program.next,thread] at taken
    | running c k =>
      cases stmt : P.stmt k with
      | acquire next =>
        by_cases free : s.word = 0
        · simp only [Program.next,thread,stmt,free,if_true,Option.some.injEq] at taken
          exact taken ▸ .acquire thread stmt free
        · simp only [Program.next,thread,stmt,free,if_false,Option.some.injEq] at taken
          exact taken ▸ .spin thread stmt free
      | release next =>
        simp only [Program.next,thread,stmt,Option.some.injEq] at taken
        exact taken ▸ .release thread stmt
      | atomic effect =>
        simp only [Program.next,thread,stmt,Option.some.injEq] at taken
        exact taken ▸ .atomic thread stmt
      | answer r => simp [Program.next,thread,stmt] at taken
  | answer i r =>
    cases thread : s.thread i with
    | idle => simp [Program.next,thread] at taken
    | running c k =>
      cases stmt : P.stmt k with
      | answer result =>
        by_cases same : result = r
        · subst same
          simp only [Program.next,thread,stmt,if_true,Option.some.injEq] at taken
          exact taken ▸ .answer thread stmt
        · simp [Program.next,thread,stmt,same] at taken
      | _ => simp [Program.next,thread,stmt] at taken

theorem next_of_step [DecidableEq Result] {a : Action Id Call Result} (step : Step P s a t) : P.next s a = some t := by
  cases step with
  | call thread => simp [Program.next,thread]
  | acquire thread stmt free => simp [Program.next,thread,stmt,free]
  | spin thread stmt taken => simp [Program.next,thread,stmt,taken]
  | release thread stmt => simp [Program.next,thread,stmt]
  | atomic thread stmt => simp [Program.next,thread,stmt]
  | answer thread stmt => simp [Program.next,thread,stmt]

@[simp] theorem move_word (i : Id) (p : Thread Call Code) : (s.move i p).word = s.word := rfl
@[simp] theorem move_shared (i : Id) (p : Thread Call Code) : (s.move i p).shared = s.shared := rfl
@[simp] theorem move_self (i : Id) (p : Thread Call Code) : (s.move i p).thread i = p := Function.update_self ..
theorem move_other {i j : Id} (other : j ≠ i) (p : Thread Call Code) : (s.move i p).thread j = s.thread j :=
  Function.update_of_ne other ..

/-- Who is in a call after a thread has moved. -/
theorem running_move {i j : Id} {p : Thread Call Code} {c : Call} {k : Code} (thread : (s.move i p).thread j = .running c k) :
    j = i ∧ p = .running c k ∨ j ≠ i ∧ s.thread j = .running c k := by
  by_cases here : j = i
  · subst here
    exact .inl ⟨rfl,(move_self j p).symm.trans thread⟩
  · exact .inr ⟨here,(move_other here p).symm.trans thread⟩

/-- What holds of every call after a thread has moved. -/
theorem running_moved {Q Q' : Call → Code → Prop} {i : Id} {p : Thread Call Code}
    (own : ∀ j c k, s.thread j = .running c k → Q c k) (mine : ∀ c k, p = .running c k → Q' c k)
    (others : ∀ j c k, j ≠ i → s.thread j = .running c k → Q c k → Q' c k) (j : Id) (c : Call) (k : Code)
    (thread : (s.move i p).thread j = .running c k) : Q' c k := by
  rcases running_move thread with ⟨_,same⟩ | ⟨other,thread⟩
  · exact mine c k same
  · exact others j c k other thread (own j c k thread)

omit [DecidableEq Id] in
@[simp] theorem lock_word : s.lock.word = 1 := rfl
omit [DecidableEq Id] in
@[simp] theorem lock_shared : s.lock.shared = s.shared := rfl
omit [DecidableEq Id] in
@[simp] theorem lock_thread : s.lock.thread = s.thread := rfl
omit [DecidableEq Id] in
@[simp] theorem unlock_word : s.unlock.word = 0 := rfl
omit [DecidableEq Id] in
@[simp] theorem unlock_shared : s.unlock.shared = s.shared := rfl
omit [DecidableEq Id] in
@[simp] theorem unlock_thread : s.unlock.thread = s.thread := rfl
omit [DecidableEq Id] in
@[simp] theorem put_word (d : Shared) : (s.put d).word = s.word := rfl
omit [DecidableEq Id] in
@[simp] theorem put_shared (d : Shared) : (s.put d).shared = d := rfl
omit [DecidableEq Id] in
@[simp] theorem put_thread (d : Shared) : (s.put d).thread = s.thread := rfl

end

/-! ### Mutual exclusion -/

section
variable {P : Program Shared Call Code Result} {s t : State Id Shared Call Code}

/-- The thread is in its critical section. -/
def Holds (P : Program Shared Call Code Result) (s : State Id Shared Call Code) (i : Id) : Prop :=
  ∃ c k, s.thread i = .running c k ∧ P.place k = .inside

/-- The lock word says whether some thread is inside, and no two are. -/
structure Exclusive (P : Program Shared Call Code Result) (s : State Id Shared Call Code) : Prop where
  one : ∀ i j, Holds P s i → Holds P s j → i = j
  free : s.word = 0 → ∀ i, ¬ Holds P s i
  held : s.word ≠ 0 → ∃ i, Holds P s i

theorem holds_running {i : Id} {c : Call} {k : Code} (thread : s.thread i = .running c k) :
    Holds P s i ↔ P.place k = .inside := by
  constructor
  · rintro ⟨c',k',thread',inside⟩
    obtain ⟨rfl,rfl⟩ := Thread.running.inj (thread.symm.trans thread')
    exact inside
  · exact fun inside => ⟨c,k,thread,inside⟩

theorem not_holds_idle {i : Id} (thread : s.thread i = .idle) : ¬ Holds P s i := by
  rintro ⟨c,k,thread',_⟩
  rw [thread] at thread'
  cases thread'

variable [DecidableEq Id]

omit [DecidableEq Id] in
@[simp] theorem holds_lock (i : Id) : Holds P s.lock i ↔ Holds P s i := Iff.rfl
omit [DecidableEq Id] in
@[simp] theorem holds_unlock (i : Id) : Holds P s.unlock i ↔ Holds P s i := Iff.rfl
omit [DecidableEq Id] in
@[simp] theorem holds_put (d : Shared) (i : Id) : Holds P (s.put d) i ↔ Holds P s i := Iff.rfl

/-- A thread that moves changes nobody else's place. -/
theorem holds_other {i j : Id} (other : j ≠ i) {p : Thread Call Code} (same : t.thread = (s.move i p).thread) :
    Holds P t j ↔ Holds P s j := by
  simp only [Holds,same,move_other other]

omit [DecidableEq Id] in
/-- A step that neither takes the lock nor gives it back. -/
theorem Exclusive.congr (exclusive : Exclusive P s) (word : t.word = s.word) (same : ∀ j, Holds P t j ↔ Holds P s j) :
    Exclusive P t :=
  ⟨fun i j first second => exclusive.one i j ((same i).mp first) ((same j).mp second),
    fun free i holds => exclusive.free (word ▸ free) i ((same i).mp holds),
    fun taken => (exclusive.held (word ▸ taken)).imp (fun i holds => (same i).mpr holds)⟩

/-- A thread that stays inside or outside. -/
theorem Exclusive.stay (exclusive : Exclusive P s) {i : Id} {p : Thread Call Code} (word : t.word = s.word)
    (thread : t.thread = (s.move i p).thread) (same : Holds P t i ↔ Holds P s i) : Exclusive P t := by
  refine exclusive.congr word (fun j => ?_)
  by_cases here : j = i
  · exact here ▸ same
  · exact holds_other here thread

theorem Exclusive.step {a : Action Id Call Result} (exclusive : Exclusive P s) (step : Step P s a t) : Exclusive P t := by
  cases step with
  | @call i c thread =>
    refine exclusive.stay (i := i) rfl rfl (iff_of_false ?_ (not_holds_idle thread))
    rw [holds_running (move_self i _),P.starts]
    simp
  | @acquire i c k next thread stmt free =>
    have inside : Holds P (s.move i (.running c next)).lock i :=
      ⟨c,next,move_self i _,(P.acquires k next stmt).2⟩
    have alone (j : Id) (holds : Holds P (s.move i (.running c next)).lock j) : j = i := by
      by_contra other
      exact exclusive.free free j ((holds_other other rfl).mp holds)
    exact ⟨fun j j' first second => (alone j first).trans (alone j' second).symm,by simp,fun _ => ⟨i,inside⟩⟩
  | spin thread stmt taken =>
    exact ⟨exclusive.one,by simp,fun _ => exclusive.held taken⟩
  | @release i c k next thread stmt =>
    obtain ⟨inside,r,after⟩ := P.releases k next stmt
    have left (j : Id) : ¬ Holds P (s.move i (.running c next)).unlock j := by
      intro holds
      by_cases here : j = i
      · subst here
        rw [holds_unlock,holds_running (move_self j _),after] at holds
        cases holds
      · have before := (holds_other here rfl).mp holds
        exact here (exclusive.one j i before ⟨c,k,thread,inside⟩)
    exact ⟨fun j j' first => absurd first (left j),fun _ => left,by simp⟩
  | @atomic i c k effect thread stmt =>
    refine exclusive.stay (i := i) rfl rfl ?_
    rw [holds_put,holds_running (move_self i _),holds_running thread,P.keeps k effect stmt]
  | @answer i c k r thread stmt =>
    refine exclusive.stay (i := i) rfl rfl (iff_of_false (not_holds_idle (move_self i _)) ?_)
    rw [holds_running thread,P.answers k r stmt]
    simp

omit [DecidableEq Id] in
theorem Quiet.exclusive (quiet : Quiet s) : Exclusive P s :=
  ⟨fun i _ holds => absurd holds (not_holds_idle (quiet.thread i)),fun _ i => not_holds_idle (quiet.thread i),
    fun taken => absurd quiet.word taken⟩

theorem exclusive_of_reachable [DecidableEq Result] {initial : Shared} (reached : (P.system initial).Reachable s) :
    Exclusive P s :=
  reached.invariant (P := Exclusive P) (fun s (first : Quiet s ∧ s.shared = initial) => first.1.exclusive)
    (fun _ _ _ exclusive taken => exclusive.step (step_of_next taken))

end

/-! ### Every call can return -/

section
variable [DecidableEq Id] [DecidableEq Result] {P : Program Shared Call Code Result} {s t : State Id Shared Call Code}

/-- A bound on the statements that are left of a call. -/
structure Finite (P : Program Shared Call Code Result) (left : Code → Nat) : Prop where
  acquire : ∀ k next, P.stmt k = .acquire next → left next < left k
  release : ∀ k next, P.stmt k = .release next → left next < left k
  atomic : ∀ k effect, P.stmt k = .atomic effect → ∀ s, left (effect s).2 < left k

theorem step_run {initial : Shared} {a : Action Id Call Result} (step : Step P s a t) :
    (P.system initial).Run s [a] t := .cons (next_of_step step) (.refl t)

/-- The thread inside gets out on its own. -/
theorem can_leave {left : Code → Nat} (finite : Finite P left) (initial : Shared) {i : Id} {c : Call} {k : Code}
    (thread : s.thread i = .running c k) (inside : P.place k = .inside) :
    ∃ actions t, (P.system initial).Run s actions t ∧ actions.length ≤ left k ∧ t.word = 0 ∧
      ∀ j, j ≠ i → t.thread j = s.thread j := by
  induction size : left k using Nat.strongRecOn generalizing s k with
  | _ n ih =>
    cases stmt : P.stmt k with
    | acquire next => simp [(P.acquires k next stmt).1] at inside
    | answer r => simp [P.answers k r stmt] at inside
    | release next =>
      have more := finite.release k next stmt
      exact ⟨[.step i],_,step_run (.release thread stmt),Nat.le_trans (Nat.succ_le_succ (Nat.zero_le _)) (size ▸ more),rfl,
        fun j other => move_other other _⟩
    | atomic effect =>
      have fewer := finite.atomic k effect stmt s.shared
      have still := (P.keeps k effect stmt s.shared).trans inside
      obtain ⟨actions,t,run,short,free,others⟩ := ih _ (size ▸ fewer)
        (s := (s.move i (.running c (effect s.shared).2)).put (effect s.shared).1) (move_self i _) still rfl
      refine ⟨_,t,(step_run (.atomic thread stmt)).append run,?_,free,
        fun j other => (others j other).trans (move_other other _)⟩
      simp only [List.singleton_append,List.length_cons]
      omega

/-- A call goes on to its answer while every other thread waits, unless one of them is inside. -/
theorem can_answer {left : Code → Nat} (finite : Finite P left) (initial : Shared) {i : Id} {c : Call} {k : Code}
    (thread : s.thread i = .running c k) (clear : s.word = 0 ∨ P.place k = .inside) :
    ∃ actions t, (P.system initial).Run s actions t ∧ actions.length ≤ left k + 1 ∧ t.thread i = .idle := by
  induction size : left k using Nat.strongRecOn generalizing s k with
  | _ n ih =>
    -- one step, and what is left after it
    have onward {u : State Id Shared Call Code} {next : Code} (step : Step P s (.step i) u)
        (thread' : u.thread i = .running c next) (clear' : u.word = 0 ∨ P.place next = .inside) (fewer : left next < left k) :
        ∃ actions t, (P.system initial).Run s actions t ∧ actions.length ≤ n + 1 ∧ t.thread i = .idle := by
      obtain ⟨actions,t,run,short,ends⟩ := ih _ (size ▸ fewer) thread' clear' rfl
      refine ⟨_,t,(step_run step).append run,?_,ends⟩
      simp only [List.singleton_append,List.length_cons]
      omega
    cases stmt : P.stmt k with
    | acquire next =>
      have free : s.word = 0 := clear.resolve_right (by simp [(P.acquires k next stmt).1])
      exact onward (.acquire thread stmt free) (move_self i _) (.inr (P.acquires k next stmt).2) (finite.acquire k next stmt)
    | release next =>
      exact onward (.release thread stmt) (move_self i _) (.inl rfl) (finite.release k next stmt)
    | atomic effect =>
      have still := P.keeps k effect stmt s.shared
      exact onward (.atomic thread stmt) (move_self i _) (clear.imp id (fun inside => still.trans inside))
        (finite.atomic k effect stmt s.shared)
    | answer r => exact ⟨[.answer i r],_,step_run (.answer thread stmt),by simp,move_self i _⟩

/-- No run gets stuck: whatever the threads have done, a call that has begun can be answered within a few steps. -/
theorem can_return {left : Code → Nat} (finite : Finite P left) {most : Nat} (bounded : ∀ k, left k ≤ most) {initial : Shared}
    (reached : (P.system initial).Reachable s) (i : Id) :
    ∃ actions t, (P.system initial).Run s actions t ∧ actions.length ≤ 2 * most + 1 ∧ t.thread i = .idle := by
  cases thread : s.thread i with
  | idle => exact ⟨[],s,.refl s,Nat.zero_le _,thread⟩
  | running c k =>
    have bound := bounded k
    have alone (clear : s.word = 0 ∨ P.place k = .inside) :
        ∃ actions t, (P.system initial).Run s actions t ∧ actions.length ≤ 2 * most + 1 ∧ t.thread i = .idle := by
      obtain ⟨actions,t,run,short,ends⟩ := can_answer finite initial thread clear
      exact ⟨actions,t,run,by omega,ends⟩
    by_cases free : s.word = 0
    · exact alone (.inl free)
    · obtain ⟨j,c',k',thread',inside⟩ := (exclusive_of_reachable reached).held free
      by_cases same : j = i
      · subst same
        obtain ⟨rfl,rfl⟩ := Thread.running.inj (thread.symm.trans thread')
        exact alone (.inr inside)
      · have bound' := bounded k'
        obtain ⟨first,t,leaves,short,free',others⟩ := can_leave finite initial thread' inside
        obtain ⟨second,r,run,short',ends⟩ := can_answer finite initial ((others i (Ne.symm same)).trans thread) (.inl free')
        refine ⟨first ++ second,r,leaves.append run,?_,ends⟩
        rw [List.length_append]
        omega

end

/-! ### One call at a time -/

/-- A value that serves each call at once. -/
structure Object (Value : Type z) (Call : Type x) (Result : Type w) where
  initial : Value
  serve : Value → Call → Value × Result

namespace Object

inductive Client (Call : Type x) (Result : Type w)
  | idle
  | called (c : Call)
  | served (result : Result)

structure State (Id : Type y) (Value : Type z) (Call : Type x) (Result : Type w) where
  value : Value
  client : Id → Client Call Result

inductive Action (Id : Type y) (Call : Type x) (Result : Type w)
  | call (i : Id) (c : Call)
  | serve (i : Id)
  | answer (i : Id) (result : Result)

def Action.event : Action Id Call Result → Option (Event Id Call Result)
  | .call i c => some (.call i c)
  | .serve _ => none
  | .answer i r => some (.answer i r)

variable [DecidableEq Id]

/-- Each call is served in one step, between the call and its answer. -/
inductive Step (O : Object Value Call Result) (a : State Id Value Call Result) :
    Action Id Call Result → State Id Value Call Result → Prop
  | call {i : Id} {c : Call} : a.client i = .idle →
      Step O a (.call i c) { a with client := Function.update a.client i (.called c) }
  | serve {i : Id} {c : Call} : a.client i = .called c →
      Step O a (.serve i) ⟨(O.serve a.value c).1,Function.update a.client i (.served (O.serve a.value c).2)⟩
  | answer {i : Id} {r : Result} : a.client i = .served r →
      Step O a (.answer i r) { a with client := Function.update a.client i .idle }

def system (O : Object Value Call Result) : System (State Id Value Call Result) (Action Id Call Result) where
  initial a := a.value = O.initial ∧ ∀ i, a.client i = .idle
  step := O.Step

/-- The value after calls that are served one after the other. -/
def after (O : Object Value Call Result) (calls : List Call) (v : Value) : Value :=
  calls.foldl (fun v c => (O.serve v c).1) v

/-- The call that a client waits for. -/
def Client.pending : Client Call Result → List Call
  | .called c => [c]
  | _ => []

/-- The calls of one client, in its order. -/
def callsOf (i : Id) (events : List (Event Id Call Result)) : List Call :=
  events.flatMap fun
    | .call j c => if j = i then [c] else []
    | .answer _ _ => []

def servedOf (i : Id) (served : List (Id × Call)) : List Call := served.flatMap fun p => if p.1 = i then [p.2] else []

/-- Every call is served once, and the calls of one client in its order. -/
theorem run_value {O : Object Value Call Result} {a b : State Id Value Call Result}
    {actions : List (Action Id Call Result)} (run : O.system.Run a actions b) :
    ∃ served, b.value = O.after (served.map Prod.snd) a.value ∧
      ∀ i, (a.client i).pending ++ callsOf i (trace Action.event actions) = servedOf i served ++ (b.client i).pending := by
  induction run with
  | refl => exact ⟨[],rfl,fun i => List.append_nil _⟩
  | @cons a m b act rest step _ ih =>
    obtain ⟨served,value,order⟩ := ih
    cases (step : O.Step a act m) with
    | @call i c idle =>
      refine ⟨served,value,fun j => ?_⟩
      rw [← order j,trace_cons]
      by_cases here : j = i
      · subst here
        simp [idle,Client.pending,callsOf,Action.event]
      · simp [callsOf,Action.event,Function.update_of_ne here,Ne.symm here]
    | @serve i c called =>
      refine ⟨(i,c) :: served,value,fun j => ?_⟩
      by_cases here : j = i
      · subst here
        simpa [called,Client.pending,trace_cons,Action.event,servedOf] using order j
      · simpa [trace_cons,Action.event,servedOf,Function.update_of_ne here,Ne.symm here] using order j
    | @answer i r answered =>
      refine ⟨served,value,fun j => ?_⟩
      rw [← order j,trace_cons]
      by_cases here : j = i
      · subst here
        simp [answered,Client.pending,callsOf,Action.event]
      · simp [callsOf,Action.event,Function.update_of_ne here]

end Object

section
variable [DecidableEq Id] {P : Program Shared Call Code Result} {O : Object Value Call Result} {s t : State Id Shared Call Code}

/-- What the object knows of a thread. -/
def Program.client (P : Program Shared Call Code Result) : Thread Call Code → Object.Client Call Result
  | .idle => .idle
  | .running c k =>
    match P.place k with
    | .after r => .served r
    | _ => .called c

/-- The data represent the value of the object, which changes when the lock is released. -/
structure Represents (P : Program Shared Call Code Result) (O : Object Value Call Result) (initial : Shared)
    (allowed : State Id Shared Call Code → Action Id Call Result → Prop)
    (R : Value → State Id Shared Call Code → Prop) : Prop where
  initial : ∀ s, Quiet s → s.shared = initial → R O.initial s
  call : ∀ v s i c, R v s → allowed s (.call i c) → s.thread i = .idle → Exclusive P s →
    R v (s.move i (.running c (P.start c)))
  acquire : ∀ v s i c k next, R v s → s.thread i = .running c k → P.stmt k = .acquire next → s.word = 0 →
    Exclusive P s → R v (s.move i (.running c next)).lock
  spin : ∀ v s, R v s → s.word ≠ 0 → R v s.lock
  atomic : ∀ v s i c k effect, R v s → s.thread i = .running c k → P.stmt k = .atomic effect → Exclusive P s →
    R v ((s.move i (.running c (effect s.shared).2)).put (effect s.shared).1)
  release : ∀ v s i c k next, R v s → s.thread i = .running c k → P.stmt k = .release next → Exclusive P s →
    P.place next = .after (O.serve v c).2 ∧ R (O.serve v c).1 (s.move i (.running c next)).unlock
  answer : ∀ v s i c k r, R v s → s.thread i = .running c k → P.stmt k = .answer r → R v (s.move i .idle)

/-- The object beside the program. -/
structure Follows (P : Program Shared Call Code Result) (R : Value → State Id Shared Call Code → Prop)
    (s : State Id Shared Call Code) (a : Object.State Id Value Call Result) : Prop where
  exclusive : Exclusive P s
  value : R a.value s
  client : ∀ i, a.client i = P.client (s.thread i)

omit [DecidableEq Id] in
theorem client_running {c : Call} {k : Code} (early : P.place k = .before ∨ P.place k = .inside) :
    P.client (.running c k) = .called c := by
  rcases early with early | early <;> simp [Program.client,early]

omit [DecidableEq Id] in
theorem client_after {c : Call} {k : Code} {r : Result} (after : P.place k = .after r) :
    P.client (.running c k) = .served r := by
  simp [Program.client,after]

/-- Both sides move one thread. -/
theorem client_update {a : Object.State Id Value Call Result} (client : ∀ i, a.client i = P.client (s.thread i)) (i : Id)
    {p : Thread Call Code} (j : Id) :
    Function.update a.client i (P.client p) j = P.client ((s.move i p).thread j) := by
  by_cases here : j = i
  · subst here
    rw [Function.update_self,move_self]
  · rw [Function.update_of_ne here,move_other here,client]

/-- The same where the object need not move. -/
theorem client_same {a : Object.State Id Value Call Result} (client : ∀ i, a.client i = P.client (s.thread i)) {i : Id}
    {p : Thread Call Code} (same : P.client p = P.client (s.thread i)) (j : Id) :
    a.client j = P.client ((s.move i p).thread j) := by
  rw [← client_update client i j,same,← client i,Function.update_eq_self]

variable [DecidableEq Result] {initial : Shared} {allowed : State Id Shared Call Code → Action Id Call Result → Prop}
  {R : Value → State Id Shared Call Code → Prop}

omit [DecidableEq Result] in
theorem follows_step (represents : Represents P O initial allowed R) {act : Action Id Call Result}
    {a : Object.State Id Value Call Result} (follows : Follows P R s a) (may : allowed s act) (step : Step P s act t) :
    ∃ b actions, O.system.Run a actions b ∧ trace Object.Action.event actions = act.event.toList ∧ Follows P R t b := by
  obtain ⟨exclusive,value,client⟩ := follows
  have exclusive' := exclusive.step step
  cases step with
  | @call i c thread =>
    have called : P.client (.running c (P.start c)) = .called c := client_running (.inl (P.starts c))
    have idle : a.client i = .idle := (client i).trans (by rw [thread]; rfl)
    refine ⟨_,[.call i c],.cons (.call idle) (.refl _),rfl,exclusive',represents.call _ s i c value may thread exclusive,
      fun j => ?_⟩
    exact called ▸ client_update client i j
  | @acquire i c k next thread stmt free =>
    obtain ⟨before,inside⟩ := P.acquires k next stmt
    refine ⟨a,[],.refl a,rfl,exclusive',represents.acquire _ s i c k next value thread stmt free exclusive,fun j => ?_⟩
    refine client_same client ?_ j
    rw [thread,client_running (.inl before),client_running (.inr inside)]
  | spin thread stmt taken => exact ⟨a,[],.refl a,rfl,exclusive',represents.spin _ s value taken,client⟩
  | @release i c k next thread stmt =>
    obtain ⟨after,value'⟩ := represents.release _ s i c k next value thread stmt exclusive
    have called : a.client i = .called c := by
      rw [client i,thread,client_running (.inr (P.releases k next stmt).1)]
    have served : P.client (.running c next) = .served (O.serve a.value c).2 := client_after after
    refine ⟨_,[.serve i],.cons (.serve called) (.refl _),rfl,exclusive',value',fun j => ?_⟩
    exact served ▸ client_update client i j
  | @atomic i c k effect thread stmt =>
    refine ⟨a,[],.refl a,rfl,exclusive',represents.atomic _ s i c k effect value thread stmt exclusive,fun j => ?_⟩
    refine client_same client ?_ j
    rw [thread,Program.client,Program.client,P.keeps k effect stmt]
  | @answer i c k r thread stmt =>
    have served : a.client i = .served r := by rw [client i,thread,client_after (P.answers k r stmt)]
    refine ⟨_,[.answer i r],.cons (.answer served) (.refl _),rfl,exclusive',represents.answer _ s i c k r value thread stmt,
      fun j => ?_⟩
    exact client_update client i (p := .idle) j

/-- A program whose critical sections keep the data is a refinement of its object. -/
theorem simulates (represents : Represents P O initial allowed R) :
    Simulates ((P.system initial).restrict allowed) O.system Action.event Object.Action.event (Follows P R) where
  start s first := by
    obtain ⟨quiet,data⟩ := first
    refine ⟨⟨O.initial,fun _ => .idle⟩,⟨rfl,fun _ => rfl⟩,quiet.exclusive,represents.initial s quiet data,fun i => ?_⟩
    rw [quiet.thread i]
    rfl
  step s act t a follows taken := follows_step represents follows taken.1 (step_of_next taken.2)

end
end NekoOs.Locking
