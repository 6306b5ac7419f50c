import Mathlib.Algebra.Order.Group.Nat
import Mathlib.Data.Nat.Find
import Mathlib.Logic.Function.Iterate

/-!
Loops that poll a counter until it has reached a value. The counter advances by at
most a gap between two readings, for ever, and wraps. The loop sees a value from a
window of the length of the gap, and may miss all of a shorter one, again and again.
-/
namespace NekoOs.Polling

/-- The first index from `k` on that is done. -/
def await (done : Nat → Bool) : (fuel k : Nat) → Option Nat
  | 0, _ => none
  | fuel+1, k => if done k then some k else await done fuel (k + 1)

/-- How far a counter has advanced at each reading. -/
structure Sampled (gap : Nat) (elapsed : Nat → Nat) : Prop where
  start : elapsed 0 = 0
  mono : ∀ k, elapsed k ≤ elapsed (k + 1)
  near : ∀ k, elapsed (k + 1) ≤ elapsed k + gap
  unbounded : ∀ t, ∃ k, t ≤ elapsed k

section
variable {done : Nat → Bool} {k n : Nat}

/-- A loop that returns has seen no earlier index that is done. -/
theorem await_first {fuel : Nat} (returned : await done fuel k = some n) :
    k ≤ n ∧ done n = true ∧ ∀ j, k ≤ j → j < n → done j = false := by
  induction fuel generalizing k with
  | zero => cases returned
  | succ fuel ih =>
    rw [await] at returned
    by_cases now : done k = true
    · rw [if_pos now] at returned
      cases returned
      exact ⟨Nat.le_refl _,now,fun j from' before => absurd from' (Nat.not_le_of_lt before)⟩
    · rw [if_neg now] at returned
      obtain ⟨later,ends,waits⟩ := ih returned
      refine ⟨by omega,ends,fun j from' before => ?_⟩
      by_cases here : j = k
      · rw [here]
        exact Bool.eq_false_iff.mpr now
      · exact waits j (by omega) before

/-- With an index that is done the loop returns at that or an earlier one. -/
theorem await_returns (from' : k ≤ n) (ends : done n = true) : ∃ fuel j, await done fuel k = some j ∧ j ≤ n := by
  induction from' using Nat.decreasingInduction with
  | self => exact ⟨1,n,if_pos ends,Nat.le_refl _⟩
  | of_succ k before ih =>
    by_cases now : done k = true
    · exact ⟨1,k,if_pos now,before.le⟩
    · obtain ⟨fuel,j,returned,bound⟩ := ih
      exact ⟨fuel + 1,j,(if_neg now).trans returned,bound⟩

/-- What a loop returns does not depend on when it is stopped. -/
theorem await_unique {fuel fuel' : Nat} {m : Nat} (returned : await done fuel k = some n)
    (returned' : await done fuel' k = some m) : n = m := by
  obtain ⟨low,ends,waits⟩ := await_first returned
  obtain ⟨low',ends',waits'⟩ := await_first returned'
  rcases Nat.lt_trichotomy n m with before | same | after
  · rw [waits' n low before] at ends
    cases ends
  · exact same
  · rw [waits m low' after] at ends'
    cases ends'

end

section
variable {gap : Nat} {elapsed : Nat → Nat}

/-- A reading follows any time by less than a gap. -/
theorem Sampled.reaches (sampled : Sampled gap elapsed) {t : Nat} (later : 1 ≤ t) :
    ∃ k, 1 ≤ k ∧ t ≤ elapsed k ∧ elapsed k < t + gap := by
  have exists' := sampled.unbounded t
  have reached := Nat.find_spec exists'
  cases first : Nat.find exists' with
  | zero =>
    rw [first,sampled.start] at reached
    omega
  | succ k =>
    have before := Nat.find_min exists' (show k < Nat.find exists' by omega)
    have near := sampled.near k
    rw [first] at reached
    exact ⟨k + 1,by omega,reached,by omega⟩

/-- One tick between two readings, after a first reading at once. -/
theorem sampled_slow (positive : 1 ≤ gap) : Sampled gap (fun k => k - 1) :=
  ⟨rfl,fun k => by omega,fun k => by omega,fun t => ⟨t + 1,by omega⟩⟩

/-- One tick between two readings. -/
theorem sampled_id (positive : 1 ≤ gap) : Sampled gap id :=
  ⟨rfl,fun k => Nat.le_succ k,fun k => Nat.add_le_add_left positive k,fun t => ⟨t,Nat.le_refl t⟩⟩

/-! ### A counter that misses a window -/

variable {modulus target start : Nat}

/-- The next reading: one tick later, or the start of the next round where the window would be seen. -/
def skip (modulus target p : Nat) : Nat :=
  if (p + 1) % modulus < target then p + 1 else (p / modulus + 1) * modulus

theorem skip_below (positive : 0 < target) (p : Nat) : skip modulus target p % modulus < target := by
  unfold skip
  split
  case isTrue below => exact below
  case isFalse => rwa [Nat.mul_mod_left]

/-- A jump over the window is no longer than the gap. -/
theorem skip_near (inside : target < modulus) (short : modulus < target + gap) {p : Nat} (at' : p % modulus ≤ target) :
    p < skip modulus target p ∧ skip modulus target p ≤ p + gap := by
  have parts := Nat.div_add_mod p modulus
  have bound : p % modulus < modulus := Nat.mod_lt _ (by omega)
  have round : (p / modulus + 1) * modulus = modulus * (p / modulus) + modulus := by
    rw [Nat.add_mul,Nat.one_mul,Nat.mul_comm]
  unfold skip
  split
  case isTrue => omega
  case isFalse above =>
    have last : target ≤ p % modulus + 1 := by
      by_contra before
      have next : (p + 1) % modulus = p % modulus + 1 := by
        rw [← Nat.mod_add_mod,Nat.mod_eq_of_lt (by omega)]
      omega
    omega

/-- A counter may always miss a window that is shorter than the gap. -/
theorem skips (below : start ≤ target) (inside : target < modulus) (positive : 0 < target)
    (short : modulus < target + gap) :
    ∃ elapsed, Sampled gap elapsed ∧ ∀ k, 1 ≤ k → (start + elapsed k) % modulus < target := by
  let position (k : Nat) : Nat := (skip modulus target)^[k] start
  have step (k : Nat) : position (k + 1) = skip modulus target (position k) := Function.iterate_succ_apply' _ _ _
  have missed (k : Nat) : position (k + 1) % modulus < target := by
    rw [step]
    exact skip_below positive _
  have low (k : Nat) : position k % modulus ≤ target := by
    cases k with
    | zero => exact (Nat.mod_le _ _).trans below
    | succ k => exact (missed k).le
  have moves (k : Nat) : position k < position (k + 1) ∧ position (k + 1) ≤ position k + gap := by
    rw [step]
    exact skip_near inside short (low k)
  have far (k : Nat) : start + k ≤ position k := by
    induction k with
    | zero => exact Nat.le_refl _
    | succ k ih => exact Nat.succ_le_of_lt (ih.trans_lt (moves k).1)
  refine ⟨fun k => position k - start,⟨Nat.sub_self _,fun k => ?_,fun k => ?_,fun t => ⟨t,?_⟩⟩,fun k later => ?_⟩
  · exact Nat.sub_le_sub_right (moves k).1.le _
  · have := moves k
    have := far k
    omega
  · exact Nat.le_sub_of_add_le' (far t)
  · obtain ⟨j,rfl⟩ := Nat.exists_eq_add_of_le' later
    rw [Nat.add_sub_cancel' (Nat.le_trans (Nat.le_add_right _ _) (far (j + 1)))]
    exact missed j

/-- A counter cannot miss a window as long as the gap. -/
theorem Sampled.sees (sampled : Sampled gap elapsed) (window : target + gap ≤ modulus) (below : start ≤ target)
    (positive : 0 < modulus) : ∃ k, 1 ≤ k ∧ target ≤ (start + elapsed k) % modulus := by
  obtain ⟨k,later,low,high⟩ := @Sampled.reaches gap elapsed sampled (modulus + (target - start)) (by omega)
  have round : start + elapsed k = start + elapsed k - modulus + modulus := by omega
  refine ⟨k,later,?_⟩
  rw [round,Nat.add_mod_right,Nat.mod_eq_of_lt (by omega)]
  omega

end
end NekoOs.Polling
