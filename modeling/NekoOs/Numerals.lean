import NekoOs.Conversions

/-!
Numbers are printed faithfully: the digits can be read back. Reading is a
definition of its own, which knows nothing of the table of `sprint_uint`.
-/
namespace NekoOs.Numerals
open Printf Klog Conversions

/-! ### Reading digits -/

/-- The value of a digit of any case. -/
def digitValue (c : UInt8) : Option Nat :=
  if ch '0' ≤ c ∧ c ≤ ch '9' then some (c.toNat - 48)
  else if ch 'a' ≤ c ∧ c ≤ ch 'f' then some (c.toNat - 87)
  else if ch 'A' ≤ c ∧ c ≤ ch 'F' then some (c.toNat - 55)
  else none

/-- The number that digits stand for, of which the first is the most significant. -/
def decode (base : Nat) (n : Nat) : List UInt8 → Option Nat
  | [] => some n
  | c :: rest =>
    match digitValue c with
    | none => none
    | some d => if d < base then decode base (n * base + d) rest else none

section
variable {base : Nat} (upper : Bool)

theorem digitValue_digit {d : Nat} (small : d < 16) : digitValue (digit upper d) = some d := by
  have each : ∀ upper : Bool, ∀ d : Fin 16, digitValue (digit upper d) = some d.val := by decide
  exact each upper ⟨d,small⟩

theorem decode_digits (few : base ≤ 16) {ds : List Nat} (small : ∀ d ∈ ds, d < base) (n : Nat) :
    decode base n (ds.map (digit upper)) = some (ds.foldl (fun n d => n * base + d) n) := by
  induction ds generalizing n with
  | nil => rfl
  | cons d ds ih =>
    have below : d < base := small d List.mem_cons_self
    rw [List.map_cons,decode,digitValue_digit upper (by omega)]
    show (if d < base then _ else _) = _
    rw [if_pos below,ih (fun d member => small d (List.mem_cons_of_mem _ member))]
    rfl

end

/-- Digits from the least significant one on, read from the other end. -/
theorem fold_digits (base : Nat) (ds : List Nat) : ds.reverse.foldl (fun n d => n * base + d) 0 = Nat.ofDigits base ds := by
  induction ds with
  | nil => rfl
  | cons d ds ih =>
    rw [List.reverse_cons,List.foldl_append,ih,Nat.ofDigits_cons]
    simp only [List.foldl_cons,List.foldl_nil]
    ring

theorem fold_zeros (base k : Nat) : (List.replicate k 0).foldl (fun n d => n * base + d) 0 = 0 := by
  induction k with
  | zero => rfl
  | succ k ih =>
    rw [List.replicate_succ,List.foldl_cons,Nat.zero_mul,Nat.zero_add]
    exact ih

/-! ### What is printed -/

/-- Digits of a base, as many as the precision and the number need, of which there is one at least unless both are 0,
    and which stand for the number. -/
structure Faithful (base : Nat) (upper : Bool) (precision : Int) (n : Nat) (out : List UInt8) : Prop where
  digits : ∀ c ∈ out, ∃ d < base, c = digit upper d
  length : out.length = max precision.toNat (max (Nat.digits base n).length (if n = 0 ∧ precision ≠ 0 then 1 else 0))
  decoded : decode base 0 out = some n

section
variable {base : Nat} {upper : Bool} {precision : Int} {n : Nat}

/-- The zeros of the precision are digits too. -/
theorem atLeast_eq (base : Nat) (upper : Bool) (k n : Nat) : atLeast k (numeral base upper n) =
    (List.replicate (k - (Nat.digits base n).length) 0 ++ (Nat.digits base n).reverse).map (digit upper) := by
  have zero : digit upper 0 = ch '0' := by cases upper <;> decide
  rw [atLeast,numeral_length,numeral,zeros,List.map_append,List.map_reverse,List.map_replicate,zero]

theorem atLeast_faithful (large : 1 < base) (few : base ≤ 16) (upper : Bool) (precision : Int) (n : Nat) :
    Faithful base upper precision n (atLeast ((given precision).getD 1) (numeral base upper n)) := by
  have small : ∀ d ∈ List.replicate ((given precision).getD 1 - (Nat.digits base n).length) 0 ++ (Nat.digits base n).reverse,
      d < base := by
    intro d member
    rcases List.mem_append.mp member with zero | digit
    · rw [List.eq_of_mem_replicate zero]
      omega
    · exact Nat.digits_lt_base large (List.mem_reverse.mp digit)
  refine ⟨fun c member => ?_,?_,?_⟩
  · rw [atLeast_eq] at member
    obtain ⟨d,inside,rfl⟩ := List.mem_map.mp member
    exact ⟨d,small d inside,rfl⟩
  · rw [atLeast_length,numeral_length]
    have none : n = 0 ↔ (Nat.digits base n).length = 0 := by
      rw [List.length_eq_zero_iff,Nat.digits_eq_nil_iff_eq_zero]
    unfold given
    by_cases negative : precision < 0
    · rw [if_pos negative]
      simp only [Option.getD_none]
      split_ifs <;> omega
    · rw [if_neg negative]
      simp only [Option.getD_some]
      split_ifs <;> omega
  · rw [atLeast_eq,decode_digits upper few small,List.foldl_append,fold_zeros,fold_digits,Nat.ofDigits_digits]

/-- The number is determined by what is printed. -/
theorem Faithful.unique {n' : Nat} {out : List UInt8} (first : Faithful base upper precision n out)
    (second : Faithful base upper precision n' out) : n = n' :=
  Option.some.inj (first.decoded.symm.trans second.decoded)

end

/-- However long the loop may run, it stores the digits of the value. -/
theorem fillBuf_take {base : Nat} (large : 1 < base) (room value : Nat) :
    fillBuf base room value = (Nat.digits base value).take room := by
  induction room generalizing value with
  | zero => rfl
  | succ room ih =>
    rw [fillBuf]
    by_cases positive : value > 0
    · rw [if_pos positive,Nat.digits_def' large positive,ih,List.take_succ_cons]
    · obtain rfl : value = 0 := by omega
      rw [if_neg positive,Nat.digits_zero]
      rfl

/-- The buffer has room for the digits. -/
theorem buf_fits {base : Nat} (large : 1 < base) (value : BitVec 64) (room : Nat) :
    (fillBuf base room value.toNat).length ≤ 64 := by
  rw [fillBuf_take large,List.length_take]
  have few := numeral_short large false value
  rw [numeral_length] at few
  omega

/-- `sprint_uint` without `#` and without a width. -/
theorem sprint_uint_eq (value : BitVec 64) {base : Nat} (large : 1 < base) (upper : Bool) {precision : Int}
    (precise : precision < 2 ^ 30) {flags : Flags} (plain : flags.hash = false) (s : Streams) :
    sprint_uint value base 0 precision flags upper s = { s with
      serial := s.serial ++ atLeast ((given precision).getD 1) (numeral base upper value.toNat) } := by
  have bare (digits : List UInt8) : unsignedField flags 0 (alternate flags base upper) digits = digits := by
    unfold unsignedField alternate
    rw [plain]
    cases flags.minus <;> cases flags.zero <;> simp [spaces,zeros]
  rw [← serial_print_eq]
  refine (print_uint_eq serial_putchar value large 0 precise flags upper s).trans ?_
  rw [bare]
  rfl

/-- `sprint_int` without `+` and space and without a width. -/
theorem sprint_int_eq (value : BitVec 64) {precision : Int} (precise : precision < 2 ^ 30) {flags : Flags}
    (unsigned : flags.plus = false ∧ flags.space = false) (s : Streams) :
    sprint_int value 0 precision flags s = { s with
      serial := s.serial ++ ((if value.toInt < 0 then [ch '-'] else []) ++
        atLeast ((given precision).getD 1) (numeral 10 false value.toInt.natAbs)) } := by
  have bare (digits : List UInt8) : field flags 0 none (Conversion.lead.signText flags value.toInt) digits =
      (if value.toInt < 0 then [ch '-'] else []) ++ digits := by
    unfold field Conversion.lead.signText
    rw [unsigned.1,unsigned.2]
    cases flags.minus <;> cases flags.zero <;> simp [spaces,zeros]
  rw [← serial_print_eq]
  refine (print_int_eq serial_putchar value 0 precise flags s).trans ?_
  rw [bare]
  rfl

/-- The sign can be told from the digits. -/
theorem signed_unique {precision : Int} {value value' : BitVec 64} {out out' : List UInt8}
    (first : Faithful 10 false precision value.toInt.natAbs out)
    (second : Faithful 10 false precision value'.toInt.natAbs out')
    (same : (if value.toInt < 0 then [ch '-'] else []) ++ out = (if value'.toInt < 0 then [ch '-'] else []) ++ out') :
    value = value' := by
  have signless {n : Nat} {out : List UInt8} (faithful : Faithful 10 false precision n out) (rest : List UInt8) :
      out ≠ ch '-' :: rest := by
    rintro rfl
    obtain ⟨d,small,digit⟩ := faithful.digits (ch '-') List.mem_cons_self
    have each : ∀ d : Fin 10, ch '-' ≠ Printf.digit false d := by decide
    exact each ⟨d,small⟩ digit
  refine BitVec.eq_of_toInt_eq ?_
  by_cases negative : value.toInt < 0
  · by_cases negative' : value'.toInt < 0
    · rw [if_pos negative,if_pos negative'] at same
      have size := first.unique (List.append_cancel_left same ▸ second)
      omega
    · rw [if_pos negative,if_neg negative'] at same
      exact absurd same.symm (signless second out)
  · by_cases negative' : value'.toInt < 0
    · rw [if_neg negative,if_pos negative'] at same
      exact absurd same (signless first out')
    · rw [if_neg negative,if_neg negative'] at same
      have size := first.unique (List.append_cancel_left same ▸ second)
      omega

/-- With any precision, `sprint_uint` and `sprint_int` print digits that stand for the value, `sprint_int` after a `-` if
    the value is negative, and no digit is stored behind `buf`. Different values print differently. -/
theorem number_printing_faithful {precision : Int} (precise : precision < 2 ^ 30) (flags : Flags) (s : Streams) :
    (∀ (value : BitVec 64) (base : Nat) (upper : Bool), base = 8 ∨ base = 10 ∨ base = 16 → flags.hash = false →
      ∃ out, sprint_uint value base 0 precision flags upper s = { s with serial := s.serial ++ out } ∧
        Faithful base upper precision value.toNat out ∧ ∀ room, (fillBuf base room value.toNat).length ≤ 64) ∧
    (flags.plus = false ∧ flags.space = false →
      (∀ value : BitVec 64, ∃ out,
        sprint_int value 0 precision flags s = { s with
          serial := s.serial ++ ((if value.toInt < 0 then [ch '-'] else []) ++ out) } ∧
        Faithful 10 false precision value.toInt.natAbs out) ∧
      ∀ value value' : BitVec 64, sprint_int value 0 precision flags s = sprint_int value' 0 precision flags s →
        value = value') := by
  have faithful (value : BitVec 64) := @atLeast_faithful 10 (by decide) (by decide) false precision value.toInt.natAbs
  refine ⟨fun value base upper radix plain => ?_,fun unsigned => ⟨fun value => ?_,fun value value' same => ?_⟩⟩
  · have large : 1 < base := by omega
    exact ⟨_,sprint_uint_eq value large upper precise plain s,atLeast_faithful large (by omega) upper precision value.toNat,
      buf_fits large value⟩
  · exact ⟨_,sprint_int_eq value precise unsigned s,faithful value⟩
  · rw [sprint_int_eq value precise unsigned,sprint_int_eq value' precise unsigned] at same
    exact signed_unique (faithful value) (faithful value') (List.append_cancel_left (congrArg Streams.serial same))

/-- The least value, with twenty digits at least. -/
theorem number_printing_faithful_min : ∃ out,
    sprint_int (BitVec.intMin 64) 0 20 {} ⟨[],[]⟩ = ⟨[],ch '-' :: out⟩ ∧ Faithful 10 false 20 (2 ^ 63) out := by
  obtain ⟨_,signed⟩ := @number_printing_faithful 20 (by decide) {} ⟨[],[]⟩
  obtain ⟨out,printed,faithful⟩ := (signed ⟨rfl,rfl⟩).1 (BitVec.intMin 64)
  have least : (BitVec.intMin 64).toInt = -2 ^ 63 := by decide
  rw [least] at printed faithful
  exact ⟨out,printed,faithful⟩

end NekoOs.Numerals
