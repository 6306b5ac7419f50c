import NekoOs.ByteMemory
import NekoOs.Outcome
import Mathlib.Logic.Relation

/-!
Code that reads a memory, with all it reads. A loop that walks over the memory
reads what its body reads at the positions that it passes.
-/
namespace NekoOs
open ByteMemory

/-- A read of `width` bytes at `address` through a pointer to `base`. -/
structure Read where
  base : Nat
  address : Nat
  width : Nat
deriving DecidableEq, Repr

/-- What an execution reads, in order, and what it comes to. -/
@[ext] structure Trace (α : Type) : Type where
  reads : List Read
  result : Outcome α

namespace Trace
variable {α β : Type}

protected def bind (first : Trace α) (next : α → Trace β) : Trace β :=
  match first.result with
  | .ok value => ⟨first.reads ++ (next value).reads,(next value).result⟩
  | .kpanic message => ⟨first.reads,.kpanic message⟩
  | .unfinished => ⟨first.reads,.unfinished⟩

instance : Monad Trace where
  pure value := ⟨[],.ok value⟩
  bind := Trace.bind

def kpanic (message : String) : Trace α := ⟨[],.kpanic message⟩

def read (m : Memory) (base address width : Nat) : Trace Nat := ⟨[⟨base,address,width⟩],.ok (load m address width)⟩

/-- A loop whose body leaves with a result or goes on at another position. -/
def loop {State Result : Type} (body : State → Nat → Trace (Result ⊕ State × Nat)) :
    (fuel : Nat) → State → (ptr : Nat) → Trace Result
  | 0, _, _ => ⟨[],.unfinished⟩
  | fuel+1, s, ptr => do
    match ← body s ptr with
    | .inl result => pure result
    | .inr (s,ptr) => loop body fuel s ptr

section
variable {first : Trace α} {next : α → Trace β} {r : Read} {m : Memory} {base address width : Nat}

@[simp] theorem pure_reads (value : α) : (pure value : Trace α).reads = [] := rfl
@[simp] theorem pure_result (value : α) : (pure value : Trace α).result = .ok value := rfl
@[simp] theorem kpanic_reads (message : String) : (kpanic message : Trace α).reads = [] := rfl
@[simp] theorem kpanic_result (message : String) : (kpanic message : Trace α).result = .kpanic message := rfl

theorem bind_ok (next : α → Trace β) {value : α} (ends : first.result = .ok value) :
    (first >>= next).reads = first.reads ++ (next value).reads ∧ (first >>= next).result = (next value).result := by
  show (Trace.bind first next).reads = _ ∧ (Trace.bind first next).result = _
  simp [Trace.bind,ends]

@[simp] theorem read_bind_reads (after : Nat → Trace β) :
    (read m base address width >>= after).reads = ⟨base,address,width⟩ :: (after (load m address width)).reads := rfl

@[simp] theorem read_bind_result (after : Nat → Trace β) :
    (read m base address width >>= after).result = (after (load m address width)).result := rfl

/-- What follows a read only has to agree on the value that is read. -/
theorem read_bind_congr {after after' : Nat → Trace β} (same : after (load m address width) = after' (load m address width)) :
    (read m base address width >>= after) = (read m base address width >>= after') :=
  Trace.ext (by rw [read_bind_reads,read_bind_reads,same]) (by rw [read_bind_result,read_bind_result,same])

theorem bind_pure (first : Trace α) : (first >>= pure) = first := by
  obtain ⟨reads,result⟩ := first
  cases result with
  | ok value => exact Trace.ext (List.append_nil reads) rfl
  | kpanic message => rfl
  | unfinished => rfl

/-- A sequence reads what its parts read. -/
theorem mem_bind : r ∈ (first >>= next).reads ↔
    r ∈ first.reads ∨ ∃ value, first.result = .ok value ∧ r ∈ (next value).reads := by
  show r ∈ (Trace.bind first next).reads ↔ _
  unfold Trace.bind
  cases first.result with
  | ok value => simp
  | kpanic message => simp
  | unfinished => simp

theorem bind_result {value : β} : (first >>= next).result = .ok value ↔
    ∃ v, first.result = .ok v ∧ (next v).result = .ok value := by
  show (Trace.bind first next).result = _ ↔ _
  unfold Trace.bind
  cases first.result with
  | ok value => simp
  | kpanic message => simp
  | unfinished => simp

end

/-! ### Loops -/

section
variable {State Result : Type} {body : State → Nat → Trace (Result ⊕ State × Nat)}

theorem loop_stop {s : State} {ptr : Nat} {result : Result} (stops : (body s ptr).result = .ok (.inl result))
    (fuel : Nat) : (loop body (fuel + 1) s ptr).reads = (body s ptr).reads ∧
      (loop body (fuel + 1) s ptr).result = .ok result := by
  rw [loop]
  obtain ⟨reads,ends⟩ := bind_ok (fun step => match step with
    | .inl result => pure result
    | .inr (s,ptr) => loop body fuel s ptr) stops
  exact ⟨reads.trans (List.append_nil _),ends⟩

theorem loop_go {s s' : State} {ptr ptr' : Nat} (goes : (body s ptr).result = .ok (.inr (s',ptr'))) (fuel : Nat) :
    (loop body (fuel + 1) s ptr).reads = (body s ptr).reads ++ (loop body fuel s' ptr').reads ∧
      (loop body (fuel + 1) s ptr).result = (loop body fuel s' ptr').result := by
  rw [loop]
  exact bind_ok _ goes

end

/-! ### Any number of iterations -/

/-- The code reads this if its loops may have enough iterations. -/
def Reads (code : Nat → Trace α) (r : Read) : Prop := ∃ fuel, r ∈ (code fuel).reads

/-- The code returns this if its loops may have enough iterations. -/
def Returns (code : Nat → Trace α) (value : α) : Prop := ∃ fuel, (code fuel).result = .ok value

/-- With more iterations the code reads at least as much, and what has returned is as it was. -/
def Growing (code : Nat → Trace α) : Prop := ∀ fuel more, fuel ≤ more →
  (code fuel).reads ⊆ (code more).reads ∧ ∀ value, (code fuel).result = .ok value → code more = code fuel

section
variable {code : Nat → Trace α} {next : Nat → α → Trace β} {r : Read}

theorem growing_const (t : Trace α) : Growing (fun _ => t) := fun _ _ _ => ⟨fun _ member => member,fun _ _ => rfl⟩

theorem reads_const {t : Trace α} : Reads (fun _ => t) r ↔ r ∈ t.reads := ⟨fun ⟨_,member⟩ => member,fun member => ⟨0,member⟩⟩

theorem returns_const {t : Trace α} {value : α} : Returns (fun _ => t) value ↔ t.result = .ok value :=
  ⟨fun ⟨_,ends⟩ => ends,fun ends => ⟨0,ends⟩⟩

theorem growing_bind (first : Growing code) (later : ∀ value, Growing (fun fuel => next fuel value)) :
    Growing (fun fuel => code fuel >>= next fuel) := by
  intro fuel more enough
  obtain ⟨readsMore,stays⟩ := first fuel more enough
  constructor
  · intro r member
    rcases mem_bind.mp member with before | ⟨value,ends,after⟩
    · exact mem_bind.mpr (.inl (readsMore before))
    · refine mem_bind.mpr (.inr ⟨value,?_,(later value fuel more enough).1 after⟩)
      rw [stays value ends]
      exact ends
  · intro value ends
    obtain ⟨v,first_,after⟩ := bind_result.mp ends
    have same := (later v fuel more enough).2 value after
    simp only [stays v first_]
    show Trace.bind _ _ = Trace.bind _ _
    unfold Trace.bind
    rw [first_]
    simp only [same]

/-- What has returned returns with every larger number of iterations. -/
theorem Growing.later (growing : Growing code) {fuel more : Nat} (enough : fuel ≤ more) {value : α}
    (ends : (code fuel).result = .ok value) : (code more).result = .ok value := by
  rw [(growing fuel more enough).2 value ends]
  exact ends

theorem reads_bind (first : Growing code) (later : ∀ value, Growing (fun fuel => next fuel value)) :
    Reads (fun fuel => code fuel >>= next fuel) r ↔
      Reads code r ∨ ∃ value, Returns code value ∧ Reads (fun fuel => next fuel value) r := by
  constructor
  · rintro ⟨fuel,member⟩
    rcases mem_bind.mp member with before | ⟨value,ends,after⟩
    · exact .inl ⟨fuel,before⟩
    · exact .inr ⟨value,⟨fuel,ends⟩,fuel,after⟩
  · rintro (⟨fuel,before⟩ | ⟨value,⟨fuel,ends⟩,fuel',after⟩)
    · exact ⟨fuel,mem_bind.mpr (.inl before)⟩
    · have long := (later value fuel' (max fuel fuel') (Nat.le_max_right _ _)).1 after
      exact ⟨max fuel fuel',mem_bind.mpr (.inr ⟨value,first.later (Nat.le_max_left _ _) ends,long⟩)⟩

theorem returns_bind (first : Growing code) (later : ∀ value, Growing (fun fuel => next fuel value)) {result : β} :
    Returns (fun fuel => code fuel >>= next fuel) result ↔
      ∃ value, Returns code value ∧ Returns (fun fuel => next fuel value) result := by
  constructor
  · rintro ⟨fuel,ends⟩
    obtain ⟨value,before,after⟩ := bind_result.mp ends
    exact ⟨value,⟨fuel,before⟩,fuel,after⟩
  · rintro ⟨value,⟨fuel,before⟩,fuel',after⟩
    have long := (later value).later (Nat.le_max_right fuel fuel') after
    exact ⟨max fuel fuel',bind_result.mpr ⟨value,first.later (Nat.le_max_left _ _) before,long⟩⟩

variable {m : Memory} {base address width : Nat}

/-- Code without loops comes first. -/
theorem growing_known {t : Trace α} {v : α} (ends : t.result = .ok v) (later : Growing (fun fuel => next fuel v)) :
    Growing (fun fuel => t >>= next fuel) := by
  intro fuel more enough
  obtain ⟨subset,stays⟩ := later fuel more enough
  obtain ⟨reads,result⟩ := bind_ok (next fuel) ends
  obtain ⟨reads',result'⟩ := bind_ok (next more) ends
  constructor
  · intro r member
    rw [reads,List.mem_append] at member
    rw [reads',List.mem_append]
    exact member.imp_right (fun after => subset after)
  · intro value returns
    rw [result] at returns
    have same : next more v = next fuel v := stays value returns
    exact Trace.ext (by rw [reads,reads',same]) (by rw [result,result',same])

theorem reads_known {t : Trace α} {v : α} (ends : t.result = .ok v) : Reads (fun fuel => t >>= next fuel) r ↔
    r ∈ t.reads ∨ Reads (fun fuel => next fuel v) r := by
  constructor
  · rintro ⟨fuel,member⟩
    rw [(bind_ok _ ends).1,List.mem_append] at member
    exact member.imp_right (fun later => ⟨fuel,later⟩)
  · rintro (before | ⟨fuel,later⟩)
    · exact ⟨0,mem_bind.mpr (.inl before)⟩
    · exact ⟨fuel,mem_bind.mpr (.inr ⟨v,ends,later⟩)⟩

theorem returns_known {t : Trace α} {v : α} (ends : t.result = .ok v) {result : β} :
    Returns (fun fuel => t >>= next fuel) result ↔ Returns (fun fuel => next fuel v) result :=
  exists_congr (fun _ => by rw [(bind_ok _ ends).2])

theorem growing_read {next : Nat → Nat → Trace β} (later : Growing (fun fuel => next fuel (load m address width))) :
    Growing (fun fuel => read m base address width >>= next fuel) := growing_known rfl later

theorem reads_read {next : Nat → Nat → Trace β} : Reads (fun fuel => read m base address width >>= next fuel) r ↔
    r = ⟨base,address,width⟩ ∨ Reads (fun fuel => next fuel (load m address width)) r :=
  (reads_known rfl).trans (or_congr_left List.mem_singleton)

theorem returns_read {next : Nat → Nat → Trace β} {result : β} :
    Returns (fun fuel => read m base address width >>= next fuel) result ↔
      Returns (fun fuel => next fuel (load m address width)) result := returns_known rfl

/-- A result that is only renamed. -/
theorem growing_map {f : α → β} (first : Growing code) : Growing (fun fuel => code fuel >>= fun value => pure (f value)) :=
  growing_bind first (fun _ => growing_const _)

theorem reads_map {f : α → β} : Reads (fun fuel => code fuel >>= fun value => pure (f value)) r ↔ Reads code r := by
  refine exists_congr (fun fuel => ?_)
  rw [mem_bind]
  simp

theorem returns_map {f : α → β} {result : β} : Returns (fun fuel => code fuel >>= fun value => pure (f value)) result ↔
    ∃ value, Returns code value ∧ f value = result := by
  constructor
  · rintro ⟨fuel,ends⟩
    obtain ⟨value,before,same⟩ := bind_result.mp ends
    exact ⟨value,⟨fuel,before⟩,Outcome.ok_injective same⟩
  · rintro ⟨value,⟨fuel,before⟩,rfl⟩
    exact ⟨fuel,bind_result.mpr ⟨value,before,rfl⟩⟩

end

/-! ### Walks -/

section
variable {State Result : Type} {body : State → Nat → Trace (Result ⊕ State × Nat)} {goes : Nat → Prop}
  {next : Nat → Nat} {seen : Nat → Read → Prop} {r : Read}

/-- A body that goes on from some positions and leaves at the others. What it
    reads and where it goes depend on the position only. -/
structure Walks (body : State → Nat → Trace (Result ⊕ State × Nat)) (goes : Nat → Prop) (next : Nat → Nat)
    (seen : Nat → Read → Prop) : Prop where
  go : ∀ s ptr, goes ptr → ∃ s', (body s ptr).result = .ok (.inr (s',next ptr))
  stop : ∀ s ptr, ¬goes ptr → ∃ result, (body s ptr).result = .ok (.inl result)
  reads : ∀ s ptr r, r ∈ (body s ptr).reads ↔ seen ptr r

/-- The positions a walk comes to. -/
def Passes (goes : Nat → Prop) (next : Nat → Nat) : Nat → Nat → Prop :=
  Relation.ReflTransGen (fun ptr ptr' => goes ptr ∧ next ptr = ptr')

theorem Passes.mono {goes' : Nat → Prop} (weaker : ∀ ptr, goes ptr → goes' ptr) {ptr q : Nat}
    (passes : Passes goes next ptr q) : Passes goes' next ptr q :=
  Relation.ReflTransGen.mono (fun _ _ step => ⟨weaker _ step.1,step.2⟩) _ _ passes

theorem growing_loop (walks : Walks body goes next seen) (s : State) (ptr : Nat) :
    Growing (fun fuel => loop body fuel s ptr) := by
  intro fuel
  induction fuel generalizing s ptr with
  | zero =>
    refine fun more _ => ⟨List.nil_subset _,fun value ends => ?_⟩
    simp [loop] at ends
  | succ fuel ih =>
    intro more enough
    obtain ⟨more,rfl⟩ : ∃ k, more = k + 1 := ⟨more - 1,by omega⟩
    have going (fuel : Nat) (s' : State) (ptr' : Nat) (step : (body s ptr).result = .ok (.inr (s',ptr'))) :
        loop body (fuel + 1) s ptr =
          ⟨(body s ptr).reads ++ (loop body fuel s' ptr').reads,(loop body fuel s' ptr').result⟩ := by
      obtain ⟨reads,ends⟩ := loop_go step fuel
      exact Trace.ext reads ends
    by_cases here : goes ptr
    · obtain ⟨s',step⟩ := walks.go s ptr here
      obtain ⟨subset,stays⟩ := ih s' (next ptr) more (by omega)
      simp only [going more s' (next ptr) step,going fuel s' (next ptr) step]
      refine ⟨List.append_subset.mpr ⟨List.subset_append_left _ _,?_⟩,fun value ends => ?_⟩
      · exact fun _ member => List.mem_append_right _ (subset member)
      · have same : loop body more s' (next ptr) = loop body fuel s' (next ptr) := stays value ends
        rw [same]
    · obtain ⟨result,stops⟩ := walks.stop s ptr here
      obtain ⟨reads,ends⟩ := loop_stop stops more
      obtain ⟨reads',ends'⟩ := loop_stop stops fuel
      have same : loop body (more + 1) s ptr = loop body (fuel + 1) s ptr :=
        Trace.ext (reads.trans reads'.symm) (ends.trans ends'.symm)
      simp only [same]
      exact ⟨fun _ member => member,fun _ _ => trivial⟩

/-- A loop reads what its body reads wherever it comes to. -/
theorem reads_loop (walks : Walks body goes next seen) (s : State) (ptr : Nat) :
    Reads (fun fuel => loop body fuel s ptr) r ↔ ∃ q, Passes goes next ptr q ∧ seen q r := by
  constructor
  · rintro ⟨fuel,member⟩
    induction fuel generalizing s ptr with
    | zero => simp [loop] at member
    | succ fuel ih =>
      by_cases here : goes ptr
      · obtain ⟨s',step⟩ := walks.go s ptr here
        rw [(loop_go step fuel).1,List.mem_append] at member
        rcases member with now | later
        · exact ⟨ptr,.refl,(walks.reads s ptr r).mp now⟩
        · obtain ⟨q,passes,found⟩ := ih s' (next ptr) later
          exact ⟨q,.head ⟨here,rfl⟩ passes,found⟩
      · obtain ⟨result,stops⟩ := walks.stop s ptr here
        rw [(loop_stop stops fuel).1] at member
        exact ⟨ptr,.refl,(walks.reads s ptr r).mp member⟩
  · rintro ⟨q,passes,found⟩
    induction passes using Relation.ReflTransGen.head_induction_on generalizing s with
    | refl =>
      have now := (walks.reads s q r).mpr found
      by_cases here : goes q
      · obtain ⟨s',step⟩ := walks.go s q here
        exact ⟨1,(loop_go step 0).1 ▸ List.mem_append_left _ now⟩
      · obtain ⟨result,stops⟩ := walks.stop s q here
        exact ⟨1,(loop_stop stops 0).1 ▸ now⟩
    | head step _ ih =>
      obtain ⟨here,rfl⟩ := step
      obtain ⟨s',went⟩ := walks.go s _ here
      obtain ⟨fuel,later⟩ := ih s'
      exact ⟨fuel + 1,(loop_go went fuel).1 ▸ List.mem_append_right _ later⟩

/-- It returns if it comes to a position that it does not go on from. -/
theorem returns_loop (walks : Walks body goes next seen) (s : State) (ptr : Nat) :
    (∃ result, Returns (fun fuel => loop body fuel s ptr) result) ↔ ∃ q, Passes goes next ptr q ∧ ¬goes q := by
  constructor
  · rintro ⟨result,fuel,ends⟩
    induction fuel generalizing s ptr with
    | zero => simp [loop] at ends
    | succ fuel ih =>
      by_cases here : goes ptr
      · obtain ⟨s',step⟩ := walks.go s ptr here
        rw [(loop_go step fuel).2] at ends
        obtain ⟨q,passes,stops⟩ := ih s' (next ptr) ends
        exact ⟨q,.head ⟨here,rfl⟩ passes,stops⟩
      · exact ⟨ptr,.refl,here⟩
  · rintro ⟨q,passes,stops⟩
    induction passes using Relation.ReflTransGen.head_induction_on generalizing s with
    | refl =>
      obtain ⟨result,left⟩ := walks.stop s q stops
      exact ⟨result,1,(loop_stop left 0).2⟩
    | head step _ ih =>
      obtain ⟨here,rfl⟩ := step
      obtain ⟨s',went⟩ := walks.go s _ here
      obtain ⟨result,fuel,later⟩ := ih s'
      exact ⟨result,fuel + 1,(loop_go went fuel).2.trans later⟩

/-- The body gives the result of the loop at a position that it does not go on from. -/
theorem loop_result (walks : Walks body goes next seen) {s : State} {ptr : Nat} {result : Result}
    (returns : Returns (fun fuel => loop body fuel s ptr) result) :
    ∃ q s', Passes goes next ptr q ∧ ¬goes q ∧ (body s' q).result = .ok (.inl result) := by
  obtain ⟨fuel,ends⟩ := returns
  induction fuel generalizing s ptr with
  | zero => simp [loop] at ends
  | succ fuel ih =>
    by_cases here : goes ptr
    · obtain ⟨s',step⟩ := walks.go s ptr here
      rw [(loop_go step fuel).2] at ends
      obtain ⟨q,r,passes,stops,left⟩ := ih ends
      exact ⟨q,r,.head ⟨here,rfl⟩ passes,stops,left⟩
    · obtain ⟨result',left⟩ := walks.stop s ptr here
      rw [(loop_stop left fuel).2] at ends
      obtain rfl := Outcome.ok_injective ends
      exact ⟨ptr,s,.refl,here,left⟩

/-- A walk stops at one position at most. -/
theorem passes_unique {ptr q q' : Nat} (passes : Passes goes next ptr q) (stops : ¬goes q)
    (passes' : Passes goes next ptr q') (stops' : ¬goes q') : q = q' := by
  induction passes using Relation.ReflTransGen.head_induction_on with
  | refl =>
    cases passes'.cases_head with
    | inl same => exact same
    | inr step =>
      obtain ⟨_,⟨here,_⟩,_⟩ := step
      exact absurd here stops
  | head step _ ih =>
    obtain ⟨here,rfl⟩ := step
    cases passes'.cases_head with
    | inl same => exact absurd here (same ▸ stops')
    | inr step' =>
      obtain ⟨_,⟨_,rfl⟩,later⟩ := step'
      exact ih later

end
end Trace
end NekoOs
