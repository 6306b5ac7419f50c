import NekoOs.ByteMemory
import NekoOs.Words
import Mathlib.Logic.Function.Basic

/-!
`memmove`, which copies upwards or downwards as the two ranges require, and
`memset`, which fills upwards and goes on at address 0 after the last one.
-/
namespace NekoOs.Mem
open ByteMemory Words

/-- `for (size_t i = 0; i < n; i++) d[i] = s[i];` with `remaining` bytes left. -/
def copyUp (d s : Nat) : (i remaining : Nat) → Memory → Memory
  | _, 0, m => m
  | i, remaining+1, m => copyUp d s (i + 1) remaining (Function.update m (d + i) (m (s + i)))

/-- `for (size_t i = n; i > 0; i--) d[i - 1] = s[i - 1];` -/
def copyDown (d s : Nat) : (i : Nat) → Memory → Memory
  | 0, m => m
  | i+1, m => copyDown d s i (Function.update m (d + i) (m (s + i)))

def memmove (dest src n : Nat) (m : Memory) : Memory :=
  if dest < src then copyUp dest src 0 n m else copyDown dest src n m

/-- `for (size_t i = 0; i < n; i++) d[i] = val;` with `remaining` bytes left. -/
def setUp (d : Nat) (val : UInt8) : (i remaining : Nat) → Memory → Memory
  | _, 0, m => m
  | i, remaining+1, m => setUp d val (i + 1) remaining (Function.update m (add64 d i) val)

def memset (dest : Nat) (val : Int) (n : Nat) (m : Memory) : Memory := setUp dest (UInt8.ofInt val) 0 n m

section
variable {d s : Nat} {m : Memory}

/-- Going up, the bytes above are read before they are overwritten. -/
theorem copyUp_spec (below : d < s) (i remaining b : Nat) : copyUp d s i remaining m b =
    if d + i ≤ b ∧ b < d + i + remaining then m (s + (b - d)) else m b := by
  induction remaining generalizing i m with
  | zero => rw [copyUp,if_neg (by omega)]
  | succ remaining ih =>
    rw [copyUp,ih]
    by_cases first : b = d + i
    · subst first
      rw [if_neg (by omega),if_pos (by omega),Function.update_self,Nat.add_sub_cancel_left]
    · by_cases later : d + (i + 1) ≤ b ∧ b < d + (i + 1) + remaining
      · rw [if_pos later,if_pos (by omega),Function.update_of_ne (by omega)]
      · rw [if_neg later,if_neg (by omega),Function.update_of_ne first]

/-- Going down, the bytes below are read before they are overwritten. -/
theorem copyDown_spec (above : s ≤ d) (i b : Nat) : copyDown d s i m b =
    if d ≤ b ∧ b < d + i then m (s + (b - d)) else m b := by
  induction i generalizing m with
  | zero => rw [copyDown,if_neg (by omega)]
  | succ i ih =>
    rw [copyDown,ih]
    by_cases last : b = d + i
    · subst last
      rw [if_neg (by omega),if_pos (by omega),Function.update_self,Nat.add_sub_cancel_left]
    · by_cases earlier : d ≤ b ∧ b < d + i
      · rw [if_pos earlier,if_pos (by omega),Function.update_of_ne (by omega)]
      · rw [if_neg earlier,if_neg (by omega),Function.update_of_ne last]

/-- The destination holds what the source held, however the two overlap. -/
theorem memmove_byte (dest src n b : Nat) (m : Memory) : memmove dest src n m b =
    if dest ≤ b ∧ b < dest + n then m (src + (b - dest)) else m b := by
  unfold memmove
  by_cases below : dest < src
  · rw [if_pos below,copyUp_spec below,Nat.add_zero]
  · rw [if_neg below,copyDown_spec (by omega)]

/-- Disjoint, identical or overlapping either way, the destination holds the bytes that the source held
    before, and every other byte stays. The ranges do not wrap. -/
theorem memmove_correct (dest src n : Nat) (m : Memory) :
    (∀ i < n, memmove dest src n m (dest + i) = m (src + i)) ∧
      ∀ b, b < dest ∨ dest + n ≤ b → memmove dest src n m b = m b := by
  constructor
  · intro i inside
    rw [memmove_byte,if_pos ⟨Nat.le_add_right dest i,by omega⟩,Nat.add_sub_cancel_left]
  · intro b outside
    rw [memmove_byte,if_neg (by omega)]

/-- A load from inside the destination. -/
theorem load_memmove_inside {dest src n offset width : Nat} (inside : offset + width ≤ n) :
    load (memmove dest src n m) (dest + offset) width = load m (src + offset) width := by
  induction width generalizing offset with
  | zero => rfl
  | succ width ih =>
    rw [load,load,memmove_byte,if_pos (by omega),Nat.add_sub_cancel_left,Nat.add_assoc,Nat.add_assoc,ih (by omega)]

theorem setUp_outside {val : UInt8} {i remaining b : Nat}
    (outside : ∀ j, i ≤ j → j < i + remaining → b ≠ add64 d j) : setUp d val i remaining m b = m b := by
  induction remaining generalizing i m with
  | zero => rfl
  | succ remaining ih =>
    rw [setUp,ih (fun j low high => outside j (by omega) (by omega)),
      Function.update_of_ne (outside i (by omega) (by omega))]

theorem setUp_inside {val : UInt8} {i remaining j : Nat} (low : i ≤ j) (high : j < i + remaining) :
    setUp d val i remaining m (add64 d j) = val := by
  induction remaining generalizing i j m with
  | zero => omega
  | succ remaining ih =>
    rw [setUp]
    by_cases here : ∃ k, i + 1 ≤ k ∧ k < i + 1 + remaining ∧ add64 d j = add64 d k
    · obtain ⟨k,kLow,kHigh,same⟩ := here
      rw [same]
      exact ih kLow kHigh
    · -- the last write to this address is the one for `i`
      obtain rfl : j = i := by
        by_contra other
        exact here ⟨j,by omega,by omega,rfl⟩
      rw [setUp_outside (fun k kLow kHigh same => here ⟨k,kLow,kHigh,same⟩),Function.update_self]

/-- A fill that stays below the last address. -/
theorem memset_eq_fill {dest n : Nat} {val : Int} (fits : dest + n ≤ limit64) :
    memset dest val n m = fill m dest n (UInt8.ofInt val) := by
  funext b
  by_cases inside : dest ≤ b ∧ b < dest + n
  · have place : add64 dest (b - dest) = b := by
      rw [add64_eq (by omega)]
      omega
    rw [fill_inside inside.1 inside.2,memset]
    have filled := @setUp_inside dest m (UInt8.ofInt val) 0 n (b - dest) (by omega) (by omega)
    rwa [place] at filled
  · rw [fill_outside (by omega),memset]
    refine setUp_outside (fun j _ high => ?_)
    rw [add64_eq (by omega)]
    omega

end
end NekoOs.Mem
