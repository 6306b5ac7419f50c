import Mathlib.Algebra.Group.Nat.Defs
import Mathlib.Data.Nat.Init

/-!
A byte-addressed memory with little-endian loads and stores of any width. A load
depends on the bytes it covers and on nothing else, and a store changes the bytes
it covers and nothing else.
-/
namespace NekoOs.ByteMemory

abbrev Memory := Nat → UInt8

/-- The unsigned little-endian value of the `width` bytes at `a`. -/
def load (m : Memory) (a : Nat) : (width : Nat) → Nat
  | 0 => 0
  | width+1 => (m a).toNat + 256 * load m (a+1) width

/-- The low `width` bytes of `v` written at `a`, least significant first. -/
def store (m : Memory) (a width v : Nat) : Memory := fun b =>
  if a ≤ b ∧ b < a + width then UInt8.ofNat (v / 256 ^ (b - a)) else m b

/-- Every one of the `width` bytes at `a` set to `v`. -/
def fill (m : Memory) (a width : Nat) (v : UInt8) : Memory := fun b =>
  if a ≤ b ∧ b < a + width then v else m b

/-- Two memories that hold the same bytes on a range. -/
def AgreeOn (m n : Memory) (range : Nat → Prop) : Prop := ∀ b, range b → m b = n b

theorem load_lt (m : Memory) (a width : Nat) : load m a width < 256 ^ width := by
  induction width generalizing a with
  | zero => simp [load]
  | succ width ih =>
    have low := (m a).toNat_lt
    have high := ih (a+1)
    rw [load,Nat.pow_succ]
    omega

theorem load_congr {m n : Memory} {a width : Nat} (same : ∀ b, a ≤ b → b < a + width → m b = n b) :
    load m a width = load n a width := by
  induction width generalizing a with
  | zero => rfl
  | succ width ih =>
    rw [load,load,same a (by omega) (by omega),ih (fun b low high => same b (by omega) (by omega))]

/-- The bytes of a load in two parts. -/
theorem load_add (m : Memory) (a n w : Nat) : load m a (n + w) = load m a n + 256 ^ n * load m (a + n) w := by
  induction n generalizing a with
  | zero => simp [load]
  | succ n ih =>
    rw [Nat.add_right_comm,load,load,ih (a + 1),Nat.add_right_comm a 1 n,Nat.add_assoc a n 1,Nat.pow_succ,Nat.mul_add,
      Nat.mul_comm (256 ^ n) 256,Nat.mul_assoc,Nat.add_assoc]

/-- A load determines the bytes it covers. -/
theorem load_byte {m n : Memory} {a width b : Nat} (same : load m a width = load n a width) (low : a ≤ b)
    (high : b < a + width) : m b = n b := by
  induction width generalizing a with
  | zero => omega
  | succ width ih =>
    have first := (m a).toNat_lt
    have first' := (n a).toNat_lt
    rw [load,load] at same
    by_cases here : b = a
    · subst here
      exact UInt8.toNat_inj.mp (by omega)
    · exact @ih (a + 1) (by omega) (by omega) (by omega)

/-- The first bytes of a load are its low digits. -/
theorem load_mod (m : Memory) (a width more : Nat) : load m a (width + more) % 256 ^ width = load m a width := by
  induction width generalizing a with
  | zero => simp [load,Nat.mod_one]
  | succ width ih =>
    have low := (m a).toNat_lt
    have first : ((m a).toNat + 256 * load m (a+1) (width + more)) % 256 = (m a).toNat := by omega
    have rest : ((m a).toNat + 256 * load m (a+1) (width + more)) / 256 = load m (a+1) (width + more) := by omega
    rw [Nat.add_right_comm,load,load,Nat.pow_succ,Nat.mul_comm (256 ^ width),Nat.mod_mul,first,rest,ih]

theorem store_inside {m : Memory} {a width v b : Nat} (low : a ≤ b) (high : b < a + width) :
    store m a width v b = UInt8.ofNat (v / 256 ^ (b - a)) := if_pos ⟨low,high⟩

theorem store_outside {m : Memory} {a width v b : Nat} (outside : b < a ∨ a + width ≤ b) :
    store m a width v b = m b := if_neg (by omega)

theorem fill_inside {m : Memory} {a width b : Nat} {v : UInt8} (low : a ≤ b) (high : b < a + width) :
    fill m a width v b = v := if_pos ⟨low,high⟩

theorem fill_outside {m : Memory} {a width b : Nat} {v : UInt8} (outside : b < a ∨ a + width ≤ b) :
    fill m a width v b = m b := if_neg (by omega)

theorem load_store_disjoint {m : Memory} {a width v b other : Nat} (apart : b + other ≤ a ∨ a + width ≤ b) :
    load (store m a width v) b other = load m b other :=
  load_congr (fun _ low high => store_outside (by omega))

theorem load_fill_disjoint {m : Memory} {a width b other : Nat} {v : UInt8}
    (apart : b + other ≤ a ∨ a + width ≤ b) : load (fill m a width v) b other = load m b other :=
  load_congr (fun _ low high => fill_outside (by omega))

private theorem load_digits {m : Memory} {width : Nat} (a v : Nat)
    (digits : ∀ i, i < width → m (a + i) = UInt8.ofNat (v / 256 ^ i)) : load m a width = v % 256 ^ width := by
  induction width generalizing a v with
  | zero => simp [load,Nat.mod_one]
  | succ width ih =>
    have first : (m a).toNat = v % 256 := by
      have := digits 0 (by omega)
      simp only [Nat.add_zero,Nat.pow_zero,Nat.div_one] at this
      simp [this]
    have rest : load m (a+1) width = v / 256 % 256 ^ width := by
      apply ih
      intro i inside
      have := digits (i+1) (by omega)
      rw [Nat.add_assoc,Nat.add_comm 1 i,this,Nat.pow_succ,Nat.mul_comm,Nat.div_div_eq_div_mul]
    rw [load,first,rest,Nat.pow_succ,Nat.mul_comm (256 ^ width),Nat.mod_mul]

theorem load_store_mod (m : Memory) (a width v : Nat) : load (store m a width v) a width = v % 256 ^ width := by
  apply load_digits
  intro i inside
  rw [store_inside (by omega) (by omega),Nat.add_sub_cancel_left]

/-- A stored value that fits its width is read back. -/
theorem load_store_same {m : Memory} {a width v : Nat} (fits : v < 256 ^ width) :
    load (store m a width v) a width = v := by
  rw [load_store_mod,Nat.mod_eq_of_lt fits]

/-- To store what is there changes nothing. -/
theorem store_load (m : Memory) (a width : Nat) : store m a width (load m a width) = m := by
  funext b
  by_cases inside : a ≤ b ∧ b < a + width
  · have same : load (store m a width (load m a width)) a width = load m a width := load_store_same (load_lt m a width)
    exact load_byte same inside.1 inside.2
  · exact if_neg inside

theorem load_fill_zero {m : Memory} {a width b other : Nat} (low : a ≤ b) (high : b + other ≤ a + width) :
    load (fill m a width 0) b other = 0 := by
  induction other generalizing b with
  | zero => rfl
  | succ other ih =>
    rw [load,fill_inside low (by omega),ih (by omega) (by omega)]
    rfl

/-! ### Lists of bytes -/

/-- The bytes of a list stand in the memory from `a` on. -/
def Spells (m : Memory) : (a : Nat) → List UInt8 → Prop
  | _, [] => True
  | a, b :: bytes => m a = b ∧ Spells m (a + 1) bytes

/-- The low `width` bytes of a number, least significant first. -/
def littleEndian : (width v : Nat) → List UInt8
  | 0, _ => []
  | width+1, v => UInt8.ofNat v :: littleEndian width (v / 256)

instance decidableSpells (m : Memory) : (a : Nat) → (bytes : List UInt8) → Decidable (Spells m a bytes)
  | _, [] => inferInstanceAs (Decidable True)
  | a, _ :: bytes =>
    have : Decidable (Spells m (a + 1) bytes) := decidableSpells m (a + 1) bytes
    inferInstanceAs (Decidable (_ ∧ _))

@[simp] theorem length_littleEndian (width v : Nat) : (littleEndian width v).length = width := by
  induction width generalizing v with
  | zero => rfl
  | succ width ih => rw [littleEndian,List.length_cons,ih]

theorem spells_append {m : Memory} {a : Nat} {first second : List UInt8} :
    Spells m a (first ++ second) ↔ Spells m a first ∧ Spells m (a + first.length) second := by
  induction first generalizing a with
  | nil => simp [Spells]
  | cons b first ih =>
    rw [List.cons_append,Spells,Spells,ih,and_assoc,List.length_cons,Nat.add_assoc,Nat.add_comm 1]

/-- A load reads the number whose bytes stand there. -/
theorem load_littleEndian {m : Memory} {a width v : Nat} (spelled : Spells m a (littleEndian width v)) :
    load m a width = v % 256 ^ width := by
  induction width generalizing a v with
  | zero => simp [load,Nat.mod_one]
  | succ width ih =>
    obtain ⟨first,rest⟩ := spelled
    have low : (UInt8.ofNat v).toNat = v % 256 := by simp
    rw [load,first,low,ih rest,Nat.pow_succ,Nat.mul_comm (256 ^ width),Nat.mod_mul]

end NekoOs.ByteMemory
