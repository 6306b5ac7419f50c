import NekoOs.ByteMemory
import Mathlib.Logic.Function.Iterate

/-!
Code that reads a memory below a limit and walks over it by a loop whose body
moves a position. A walk ends well exactly if the positions form a finite chain
whose last one stops the loop.
-/
namespace NekoOs
open ByteMemory

/-- What code that reads below a limit comes to. -/
inductive Access (α : Type) : Type
  | done (value : α)
  /-- a read at or beyond the limit -/
  | outside
  | dividesByZero
  | unfinished
deriving DecidableEq, Repr

namespace Access
variable {α β : Type}

protected def bind (first : Access α) (next : α → Access β) : Access β :=
  match first with
  | .done value => next value
  | .outside => .outside
  | .dividesByZero => .dividesByZero
  | .unfinished => .unfinished

instance : Monad Access where
  pure := .done
  bind := Access.bind

@[simp] theorem pure_eq (value : α) : (pure value : Access α) = .done value := rfl
@[simp] theorem bind_done (value : α) (next : α → Access β) : (Access.done value >>= next) = next value := rfl
@[simp] theorem bind_outside (next : α → Access β) : (Access.outside >>= next) = .outside := rfl
@[simp] theorem bind_dividesByZero (next : α → Access β) : (Access.dividesByZero >>= next) = .dividesByZero := rfl
@[simp] theorem bind_unfinished (next : α → Access β) : (Access.unfinished >>= next) = .unfinished := rfl

theorem bind_assoc {γ : Type} (first : Access α) (next : α → Access β) (last : β → Access γ) :
    (first >>= next >>= last) = (first >>= fun value => next value >>= last) := by
  cases first <;> rfl

theorem bind_pure (first : Access α) : (first >>= Access.done) = first := by
  cases first <;> rfl

/-- A composition that ends well had a first part that did. -/
theorem bind_eq_done {first : Access α} {next : α → Access β} {result : β} :
    (first >>= next) = .done result ↔ ∃ value, first = .done value ∧ next value = .done result := by
  cases first <;> simp

/-- A loop whose iterations end well ends well. -/
theorem foldlM_done {σ ι : Type} {items : List ι} {body : σ → ι → Access σ} {next : σ → ι → σ}
    (each : ∀ i ∈ items, ∀ s, body s i = .done (next s i)) (s : σ) : items.foldlM body s = .done (items.foldl next s) := by
  induction items generalizing s with
  | nil => rfl
  | cons i items ih =>
    rw [List.foldlM_cons,each i List.mem_cons_self,bind_done]
    exact ih (fun j member => each j (List.mem_cons_of_mem _ member)) _

/-- The code ends and reads nothing outside. -/
def Safe (code : Access α) : Prop := ∃ value, code = .done value

theorem safe_done (value : α) : Safe (.done value) := ⟨value,rfl⟩

@[simp] theorem not_safe_outside : ¬Safe (.outside : Access α) := by
  rintro ⟨value,impossible⟩
  cases impossible

@[simp] theorem not_safe_dividesByZero : ¬Safe (.dividesByZero : Access α) := by
  rintro ⟨value,impossible⟩
  cases impossible

theorem safe_bind {first : Access α} {next : α → Access β} :
    Safe (first >>= next) ↔ ∃ value, first = .done value ∧ Safe (next value) := by
  constructor
  · rintro ⟨result,ended⟩
    obtain ⟨value,first,later⟩ := bind_eq_done.mp ended
    exact ⟨value,first,result,later⟩
  · rintro ⟨value,first,result,later⟩
    exact ⟨result,bind_eq_done.mpr ⟨value,first,later⟩⟩

/-- A read of `width` bytes at `ptr` below the limit. -/
def read (stop : Nat) (m : Memory) (ptr width : Nat) : Access Nat :=
  if ptr + width ≤ stop then .done (load m ptr width) else .outside

theorem read_inside {stop ptr width : Nat} {m : Memory} (inside : ptr + width ≤ stop) :
    read stop m ptr width = .done (load m ptr width) := if_pos inside

theorem read_eq_done {stop ptr width value : Nat} {m : Memory} :
    read stop m ptr width = .done value ↔ ptr + width ≤ stop ∧ load m ptr width = value := by
  unfold read
  by_cases inside : ptr + width ≤ stop
  · rw [if_pos inside]
    simp [inside]
  · rw [if_neg inside]
    simp [inside]

/-- A read and what follows it. -/
theorem safe_read {stop ptr width : Nat} {m : Memory} {next : Nat → Access β} :
    Safe (read stop m ptr width >>= next) ↔ ptr + width ≤ stop ∧ Safe (next (load m ptr width)) := by
  rw [safe_bind]
  constructor
  · rintro ⟨value,found,safe⟩
    obtain ⟨inside,rfl⟩ := read_eq_done.mp found
    exact ⟨inside,safe⟩
  · rintro ⟨inside,safe⟩
    exact ⟨_,read_inside inside,safe⟩

/-! ### Loops -/

section
variable {State : Type} {Result : Type}

/-- A loop whose body leaves with a result or goes on at another position. -/
def loop (body : State → Nat → Access (Result ⊕ State × Nat)) : (fuel : Nat) → State → (ptr : Nat) → Access Result
  | 0, _, _ => .unfinished
  | fuel+1, s, ptr => do
    match ← body s ptr with
    | .inl result => .done result
    | .inr (s,ptr) => loop body fuel s ptr

/-- Positions from one to the next, up to one that stops the loop. -/
inductive Chain (stops goes : Nat → Prop) (next : Nat → Nat) : Nat → Prop
  | stop {ptr : Nat} : stops ptr → Chain stops goes next ptr
  | go {ptr : Nat} : goes ptr → Chain stops goes next (next ptr) → Chain stops goes next ptr

/-- What a body does at a position, whatever the state is. -/
structure Walks (body : State → Nat → Access (Result ⊕ State × Nat)) (stops goes : Nat → Prop) (next : Nat → Nat) : Prop where
  stop : ∀ s ptr, stops ptr → ∃ result, body s ptr = .done (.inl result)
  go : ∀ s ptr, goes ptr → ∃ s', body s ptr = .done (.inr (s',next ptr))
  only : ∀ s ptr, Safe (body s ptr) → stops ptr ∨ goes ptr

variable {body : State → Nat → Access (Result ⊕ State × Nat)} {stops goes : Nat → Prop} {next : Nat → Nat}

/-- The walk ends well exactly on finite chains. -/
theorem loop_safe_iff (walks : Walks body stops goes next) (s : State) (ptr : Nat) :
    (∃ fuel, Safe (loop body fuel s ptr)) ↔ Chain stops goes next ptr := by
  constructor
  · rintro ⟨fuel,safe⟩
    induction fuel generalizing s ptr with
    | zero =>
      obtain ⟨_,impossible⟩ := safe
      cases impossible
    | succ fuel ih =>
      rw [loop] at safe
      obtain ⟨value,first,later⟩ := safe_bind.mp safe
      rcases walks.only s ptr ⟨value,first⟩ with stopped | goesOn
      · exact .stop stopped
      · obtain ⟨s',moved⟩ := walks.go s ptr goesOn
        obtain rfl : .inr (s',next ptr) = value := by
          rw [moved] at first
          cases first
          rfl
        exact .go goesOn (ih s' (next ptr) later)
  · intro chain
    induction chain generalizing s with
    | stop stopped =>
      obtain ⟨result,left⟩ := walks.stop s _ stopped
      exact ⟨1,result,by rw [loop,left]; rfl⟩
    | @go ptr goesOn _ ih =>
      obtain ⟨s',moved⟩ := walks.go s ptr goesOn
      obtain ⟨fuel,result,later⟩ := ih s'
      exact ⟨fuel + 1,result,by rw [loop,moved]; exact later⟩

/-- A finite chain makes progress at every position that does not stop it. -/
theorem chain_progress {ptr : Nat} :
    Chain stops goes next ptr ↔ Chain stops (fun p => goes p ∧ next p ≠ p) next ptr := by
  constructor
  · intro chain
    induction chain with
    | stop stopped => exact .stop stopped
    | @go ptr goesOn later ih =>
      by_cases stuck : next ptr = ptr
      · exact stuck ▸ ih
      · exact .go ⟨goesOn,stuck⟩ ih
  · intro chain
    induction chain with
    | stop stopped => exact .stop stopped
    | go goesOn _ ih => exact .go goesOn.1 ih

theorem Chain.mono {goes' : Nat → Prop} {ptr : Nat} (chain : Chain stops goes next ptr)
    (weaker : ∀ p, goes p → goes' p) :
    Chain stops goes' next ptr := by
  induction chain with
  | stop stopped => exact .stop stopped
  | go goesOn _ ih => exact .go (weaker _ goesOn) ih

/-- A chain of rising positions below a limit needs no more iterations than there are positions. -/
theorem loop_bounded {limit fuel : Nat} (walks : Walks body stops goes next) (rises : ∀ ptr, goes ptr → ptr < limit)
    {s : State} {ptr : Nat} (chain : Chain stops (fun p => goes p ∧ p < next p) next ptr) (enough : limit < ptr + fuel)
    (positive : 0 < fuel) : Safe (loop body fuel s ptr) := by
  induction chain generalizing s fuel with
  | @stop ptr stopped =>
    obtain ⟨fuel,rfl⟩ : ∃ k, fuel = k + 1 := ⟨fuel - 1,by omega⟩
    obtain ⟨result,left⟩ := walks.stop s ptr stopped
    exact ⟨result,by rw [loop,left]; rfl⟩
  | @go ptr goesOn _ ih =>
    obtain ⟨fuel,rfl⟩ : ∃ k, fuel = k + 1 := ⟨fuel - 1,by omega⟩
    obtain ⟨s',moved⟩ := walks.go s ptr goesOn.1
    have below := rises ptr goesOn.1
    have risen := goesOn.2
    obtain ⟨result,later⟩ := @ih fuel s' (by omega) (by omega)
    exact ⟨result,by rw [loop,moved]; exact later⟩

/-- A walk that never goes back needs no more iterations than there are positions below the limit. -/
theorem loop_rising_iff {limit : Nat} (walks : Walks body stops goes next) (rises : ∀ ptr, goes ptr → ptr < limit)
    (up : ∀ ptr, ptr ≤ next ptr) (s : State) (ptr : Nat) :
    Safe (loop body (limit + 1) s ptr) ↔ Chain stops (fun p => goes p ∧ p < next p) next ptr := by
  constructor
  · intro safe
    have chain := chain_progress.mp ((loop_safe_iff walks s ptr).mp ⟨limit + 1,safe⟩)
    exact chain.mono (fun p moves => ⟨moves.1,Nat.lt_of_le_of_ne (up p) (Ne.symm moves.2)⟩)
  · intro chain
    exact loop_bounded walks rises chain (by omega) (Nat.succ_pos limit)

/-- The number of steps of a chain. -/
theorem chain_steps {ptr : Nat} : Chain stops goes next ptr ↔
    ∃ n, (∀ i < n, goes (next^[i] ptr)) ∧ stops (next^[n] ptr) := by
  constructor
  · intro chain
    induction chain with
    | stop stopped => exact ⟨0,by simp,stopped⟩
    | @go ptr goesOn _ ih =>
      obtain ⟨n,steps,stopped⟩ := ih
      refine ⟨n + 1,fun i small => ?_,stopped⟩
      cases i with
      | zero => exact goesOn
      | succ i => exact steps i (by omega)
  · rintro ⟨n,steps,stopped⟩
    induction n generalizing ptr with
    | zero => exact .stop stopped
    | succ n ih => exact .go (steps 0 (by omega)) (ih (fun i small => steps (i + 1) (by omega)) stopped)

/-- A chain of equal strides. -/
theorem chain_strides {step ptr : Nat} : Chain stops goes (· + step) ptr ↔
    ∃ n, (∀ i < n, goes (ptr + i * step)) ∧ stops (ptr + n * step) := by
  have position (n : Nat) : (· + step)^[n] ptr = ptr + n * step := by
    induction n with
    | zero => simp
    | succ n ih => rw [Function.iterate_succ_apply',ih,Nat.succ_mul,Nat.add_assoc]
  simp only [chain_steps,position]

end
/-! ### Walks over records -/

section
variable {State Result Header : Type}

/-- The body of a loop over records: it looks for another record, visits it, and goes
    on at the next one unless the visit returns. -/
def record (starts : Nat → Access (Option Header)) (visit : State → Header → Nat → Access (Result ⊕ State))
    (advance : Nat → Access Nat) (ended : State → Result) (s : State) (ptr : Nat) : Access (Result ⊕ State × Nat) := do
  match ← starts ptr with
  | none => .done (.inl (ended s))
  | some h =>
    match ← visit s h ptr with
    | .inl result => .done (.inl result)
    | .inr s => do
      let ptr ← advance ptr
      .done (.inr (s,ptr))

/-- What the parts of a loop over records do at each position. -/
structure Records (starts : Nat → Access (Option Header)) (advance : Nat → Access Nat) (header : Nat → Header)
    (readable last sized : Nat → Prop) (next : Nat → Nat) : Prop where
  ends : ∀ ptr, starts ptr = .done none ↔ readable ptr ∧ last ptr
  begins : ∀ ptr h, starts ptr = .done (some h) ↔ readable ptr ∧ ¬last ptr ∧ h = header ptr
  advance : ∀ ptr after, advance ptr = .done after ↔ sized ptr ∧ after = next ptr

/-- Which records a loop may visit is known from its visits. -/
theorem Records.walks {starts : Nat → Access (Option Header)} {advance : Nat → Access Nat} {header : Nat → Header}
    {readable last sized : Nat → Prop} {next : Nat → Nat}
    (records : Records starts advance header readable last sized next)
    {visit : State → Header → Nat → Access (Result ⊕ State)} (ended : State → Result) {returns fields : Nat → Prop}
    (stops : ∀ s ptr, returns ptr → ∃ result, visit s (header ptr) ptr = .done (.inl result))
    (goes : ∀ s ptr, sized ptr → fields ptr → ∃ s', visit s (header ptr) ptr = .done (.inr s'))
    (returned : ∀ s ptr result, visit s (header ptr) ptr = .done (.inl result) → returns ptr)
    (visited : ∀ s ptr s', visit s (header ptr) ptr = .done (.inr s') → fields ptr) :
    Walks (record starts visit advance ended) (fun ptr => readable ptr ∧ (last ptr ∨ returns ptr))
      (fun ptr => readable ptr ∧ ¬last ptr ∧ sized ptr ∧ fields ptr) next := by
  constructor
  · rintro s ptr ⟨inside,ends⟩
    by_cases final : last ptr
    · exact ⟨ended s,by rw [record,(records.ends ptr).mpr ⟨inside,final⟩]; rfl⟩
    · obtain ⟨result,left⟩ := stops s ptr (ends.resolve_left final)
      refine ⟨result,?_⟩
      rw [record,(records.begins ptr _).mpr ⟨inside,final,rfl⟩,bind_done]
      show (visit s (header ptr) ptr >>= _) = _
      rw [left]
      rfl
  · rintro s ptr ⟨inside,more,room,needed⟩
    obtain ⟨s',moved⟩ := goes s ptr room needed
    refine ⟨s',?_⟩
    rw [record,(records.begins ptr _).mpr ⟨inside,more,rfl⟩,bind_done]
    show (visit s (header ptr) ptr >>= _) = _
    rw [moved,bind_done]
    show (advance ptr >>= _) = _
    rw [(records.advance ptr _).mpr ⟨room,rfl⟩]
    rfl
  · intro s ptr safe
    obtain ⟨begun,found,safe⟩ := safe_bind.mp safe
    cases begun with
    | none =>
      obtain ⟨inside,final⟩ := (records.ends ptr).mp found
      exact .inl ⟨inside,.inl final⟩
    | some h =>
      obtain ⟨inside,more,rfl⟩ := (records.begins ptr h).mp found
      obtain ⟨value,seen,safe⟩ := safe_bind.mp safe
      cases value with
      | inl result => exact .inl ⟨inside,.inr (returned s ptr result seen)⟩
      | inr s' =>
        obtain ⟨after,moved,_⟩ := safe_bind.mp safe
        exact .inr ⟨inside,more,((records.advance ptr after).mp moved).1,visited s ptr s' seen⟩

end
end Access
end NekoOs
