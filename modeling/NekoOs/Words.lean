import Mathlib.Data.Nat.Bitwise
import Mathlib.Tactic.Ring

/-!
Unsigned 64-bit arithmetic on natural numbers. Every operation wraps modulo
`2^64`; the lemmas give its value where it does not wrap, and read masks that
clear the low bits as rounding down.
-/
namespace NekoOs.Words

/-- One more than the largest unsigned 64-bit value. -/
def limit64 : Nat := 2 ^ 64

def add64 (x y : Nat) : Nat := (x + y) % limit64
def sub64 (x y : Nat) : Nat := (x + (limit64 - y)) % limit64
def mul64 (x y : Nat) : Nat := (x * y) % limit64
/-- Bitwise complement. -/
def not64 (x : Nat) : Nat := limit64 - (x + 1)

theorem add64_lt (x y : Nat) : add64 x y < limit64 := Nat.mod_lt _ (by decide)

theorem add64_eq {x y : Nat} (fits : x + y < limit64) : add64 x y = x + y := Nat.mod_eq_of_lt fits

theorem sub64_eq {x y : Nat} (le : y ≤ x) (fits : x < limit64) : sub64 x y = x - y := by
  have split : x + (limit64 - y) = (x - y) + limit64 := by omega
  rw [sub64,split,Nat.add_mod_right,Nat.mod_eq_of_lt (by omega)]

theorem sub64_sub64 {x y z : Nat} (fits : y + z ≤ limit64) : sub64 (sub64 x y) z = sub64 x (y + z) := by
  simp only [sub64,Nat.mod_add_mod]
  have split : x + (limit64 - y) + (limit64 - z) = x + (limit64 - (y + z)) + limit64 := by omega
  rw [split,Nat.add_mod_right]

/-- A stride that starts before the end of `n` strides ends there or before. -/
theorem stride_le {i n k : Nat} (before : i < n) : i * k + k ≤ n * k := by
  rw [← Nat.succ_mul]
  exact Nat.mul_le_mul_right k before

/-- Clearing the low `k` bits rounds down to a multiple of `2^k`. -/
theorem land_not64 {x k : Nat} (fits : x < limit64) (small : k ≤ 64) :
    x &&& not64 (2 ^ k - 1) = x / 2 ^ k * 2 ^ k := by
  have low : 2 ^ k - 1 < 2 ^ 64 := by
    have := Nat.pow_le_pow_right (n := 2) (by decide) small
    have := Nat.two_pow_pos k
    omega
  apply Nat.eq_of_testBit_eq
  intro i
  rw [not64,limit64,Nat.testBit_and,Nat.testBit_two_pow_sub_succ low,Nat.testBit_two_pow_sub_one,
    Nat.testBit_mul_two_pow,Nat.testBit_div_two_pow]
  by_cases above : k ≤ i
  · have position : k + (i - k) = i := by omega
    by_cases inside : i < 64
    · simp [above,inside,Nat.not_lt.mpr above]
    · have clear : x.testBit i = false :=
        Nat.testBit_lt_two_pow (Nat.lt_of_lt_of_le fits (Nat.pow_le_pow_right (by decide) (by omega)))
      simp [above,clear,inside]
  · simp [above,Nat.lt_of_not_le above]

end NekoOs.Words
