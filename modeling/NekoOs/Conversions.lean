import NekoOs.Klog
import Mathlib.Data.Nat.Digits.Lemmas
import Mathlib.Tactic.FinCases

/-!
What the C standard prescribes for `d i u o x X`, and when `svprintf` emits it.
-/
namespace NekoOs.Conversions
open Printf Klog

/-! ### Directives as they are written -/

inductive Flag
  | hash
  | minus
  | zero
  | plus
  | space
deriving DecidableEq, Repr

/-- A width or a precision: decimal digits, or `*` and its argument. -/
inductive Amount
  | literal (digits : List (Fin 10))
  | star (v : BitVec 32)
deriving DecidableEq, Repr

inductive Conversion
  | d
  | i
  | u
  | o
  | x
  | X
deriving DecidableEq, Repr

/-- A directive. It has no width if this is a literal without digits. -/
structure Request where
  flags : List Flag
  width : Amount
  precision : Option Amount
  length : Length
  conversion : Conversion
deriving DecidableEq, Repr

def Flag.text : Flag → UInt8
  | .hash => ch '#'
  | .minus => ch '-'
  | .zero => ch '0'
  | .plus => ch '+'
  | .space => ch ' '

def digitText (d : Fin 10) : UInt8 := UInt8.ofNat (48 + d)

def Amount.text : Amount → List UInt8
  | .literal digits => digits.map digitText
  | .star _ => [ch '*']

def lengthText : Length → List UInt8
  | .default => []
  | .h => [ch 'h']
  | .hh => [ch 'h',ch 'h']
  | .l => [ch 'l']
  | .ll => [ch 'l',ch 'l']
  | .z => [ch 'z']
  | .j => [ch 'j']
  | .t => [ch 't']

def Conversion.text : Conversion → UInt8
  | .d => ch 'd'
  | .i => ch 'i'
  | .u => ch 'u'
  | .o => ch 'o'
  | .x => ch 'x'
  | .X => ch 'X'

def precisionText : Option Amount → List UInt8
  | none => []
  | some amount => ch '.' :: amount.text

/-- The text after the `%`. -/
def Request.text (r : Request) : List UInt8 :=
  r.flags.map Flag.text ++ (r.width.text ++ (precisionText r.precision ++ (lengthText r.length ++ [r.conversion.text])))

def Amount.arguments : Amount → List Arg
  | .literal _ => []
  | .star v => [.int v]

/-- The arguments of the directive, of which `value` is the last. -/
def Request.arguments (r : Request) (value : Arg) : List Arg :=
  r.width.arguments ++ ((r.precision.elim [] Amount.arguments) ++ [value])

/-- A directive with a conversion character of any kind. -/
structure Spec where
  flags : List Flag
  width : Amount
  precision : Option Amount
  length : Length
  conversion : UInt8
deriving DecidableEq, Repr

def Spec.text (r : Spec) : List UInt8 :=
  r.flags.map Flag.text ++ (r.width.text ++ (precisionText r.precision ++ (lengthText r.length ++ [r.conversion])))

def Spec.arguments (r : Spec) (value : Arg) : List Arg :=
  r.width.arguments ++ ((r.precision.elim [] Amount.arguments) ++ [value])

def Request.spec (r : Request) : Spec := ⟨r.flags,r.width,r.precision,r.length,r.conversion.text⟩

/-- The number that the digits stand for. -/
def number (digits : List (Fin 10)) : Nat := digits.foldl (fun n d => n * 10 + d.val) 0

def Amount.value : Amount → Int
  | .literal digits => number digits
  | .star v => v.toInt

/-! ### The standard -/

/-- The flags in force. A negative width is a `-` and its absolute value. -/
def Request.inForce (r : Request) : Flags :=
  ⟨.hash ∈ r.flags,.minus ∈ r.flags || r.width.value < 0,.zero ∈ r.flags,.plus ∈ r.flags,.space ∈ r.flags⟩

def Spec.inForce (r : Spec) : Flags :=
  ⟨.hash ∈ r.flags,.minus ∈ r.flags || r.width.value < 0,.zero ∈ r.flags,.plus ∈ r.flags,.space ∈ r.flags⟩

def Request.fieldWidth (r : Request) : Nat := r.width.value.natAbs
def Spec.fieldWidth (r : Spec) : Nat := r.width.value.natAbs

/-- A negative precision counts as omitted. -/
def given (precision : Int) : Option Nat := if precision < 0 then none else some precision.toNat

def Request.fieldPrecision (r : Request) : Option Nat := r.precision.bind (fun amount => given amount.value)

def Conversion.signed : Conversion → Bool
  | .d => true
  | .i => true
  | _ => false

def Conversion.base : Conversion → Nat
  | .o => 8
  | .x => 16
  | .X => 16
  | _ => 10

/-- The value of an argument of the conversion's type. -/
def Conversion.read {w : Nat} (c : Conversion) (v : BitVec w) : Int := if c.signed then v.toInt else v.toNat

/-- The value to print: the argument is converted to the type that the length modifier names. -/
def Request.value (r : Request) : Arg → Int
  | .int v =>
    match r.length with
    | .h => r.conversion.read (v.setWidth 16)
    | .hh => r.conversion.read (v.setWidth 8)
    | _ => r.conversion.read v
  | .long v => r.conversion.read v
  | _ => 0

def spaces (n : Nat) : List UInt8 := List.replicate n (ch ' ')
def zeros (n : Nat) : List UInt8 := List.replicate n (ch '0')

/-- The significant digits, of which 0 has none. -/
def numeral (base : Nat) (upper : Bool) (n : Nat) : List UInt8 := ((Nat.digits base n).map (digit upper)).reverse

/-- At least as many digits as the precision says. -/
def atLeast (precision : Nat) (numeral : List UInt8) : List UInt8 := zeros (precision - numeral.length) ++ numeral

/-- The digits to print. With `#`, the precision of an octal number exceeds the number of its digits. -/
def Conversion.digits (c : Conversion) (flags : Flags) (precision : Option Nat) (n : Nat) : List UInt8 :=
  let numeral := numeral c.base (c = .X) n
  if c = .o ∧ flags.hash then atLeast (max (precision.getD 1) (numeral.length + 1)) numeral
  else atLeast (precision.getD 1) numeral

/-- The sign of a signed number, or the `0x` of one that is not 0. -/
def Conversion.lead (c : Conversion) (flags : Flags) (value : Int) : List UInt8 :=
  match c with
  | .d => signText flags value
  | .i => signText flags value
  | .x => if flags.hash ∧ value ≠ 0 then bytes "0x" else []
  | .X => if flags.hash ∧ value ≠ 0 then bytes "0X" else []
  | _ => []
where
  signText (flags : Flags) (value : Int) : List UInt8 :=
    if value < 0 then [ch '-'] else if flags.plus then [ch '+'] else if flags.space then [ch ' '] else []

/-- The field: `-` pads on the right, and `0` without a precision pads after the lead. -/
def field (flags : Flags) (width : Nat) (precision : Option Nat) (lead digits : List UInt8) : List UInt8 :=
  let padding := width - (lead.length + digits.length)
  if flags.minus then lead ++ digits ++ spaces padding
  else if flags.zero ∧ precision = none then lead ++ zeros padding ++ digits
  else spaces padding ++ lead ++ digits

def Request.prescribed (r : Request) (value : Arg) : List UInt8 :=
  field r.inForce r.fieldWidth r.fieldPrecision (r.conversion.lead r.inForce (r.value value))
    (r.conversion.digits r.inForce r.fieldPrecision (r.value value).natAbs)

/-- The directives that are considered, and an argument of the right type. -/
structure Formed (r : Request) (value : Arg) : Prop where
  width : ∀ digits, r.width = .literal digits → digits.head? ≠ some 0
  narrow : r.width.value.natAbs < 2 ^ 30
  precise : ∀ amount, r.precision = some amount → amount.value.natAbs < 2 ^ 30
  argument : kind value = if wide r.length then .long else .int

/-! ### Reading a directive -/

/-- A text that begins with a character that these tests refuse. -/
def Past (tests : List (UInt8 → Bool)) (p : List UInt8) : Prop := ∃ c rest, p = c :: rest ∧ ∀ test ∈ tests, test c = false

/-- The conversions that take an argument. -/
def letters : List UInt8 := bytes "csdiuoxXp"

def isDot (c : UInt8) : Bool := c = ch '.'
def isStar (c : UInt8) : Bool := c = ch '*'

section
variable {r : Request} {p : List UInt8}

theorem past_here {tests : List (UInt8 → Bool)} {c : UInt8}
    (refused : ∀ test ∈ tests, test c = false) (p : List UInt8) :
    Past tests (c :: p) := ⟨c,p,rfl,refused⟩

theorem Past.fewer {tests tests' : List (UInt8 → Bool)} (past : Past tests p)
    (fewer : ∀ test ∈ tests', test ∈ tests) : Past tests' p := by
  obtain ⟨c,rest,same,refused⟩ := past
  exact ⟨c,rest,same,fun test member => refused test (fewer test member)⟩

/-- No flag, digit, star or dot. -/
theorem refused_all {c : UInt8} (flag : isFlag c = false) (digit : isDigit c = false) (star : isStar c = false)
    (dot : isDot c = false) :
    ∀ test ∈ [isFlag,isDigit,isStar,isDot], test c = false := by
  simp [flag,digit,star,dot]

theorem Conversion.letter (c : Conversion) : c.text ∈ letters := by
  cases c <;> decide

theorem past_length (length : Length) {c : UInt8} (letter : c ∈ letters) (p : List UInt8) :
    Past [isFlag,isDigit,isStar,isDot] (lengthText length ++ c :: p) := by
  have each : ∀ c ∈ letters, isFlag c = false ∧ isDigit c = false ∧ isStar c = false ∧ isDot c = false := by decide +kernel
  obtain ⟨flag,digit,star,dot⟩ := each c letter
  cases length with
  | default => exact past_here (refused_all flag digit star dot) p
  | _ => exact past_here (refused_all rfl rfl rfl rfl) _

theorem past_precision (precision : Option Amount) (past : Past [isFlag,isDigit,isStar,isDot] p) :
    Past [isFlag,isDigit,isStar] (precisionText precision ++ p) := by
  cases precision with
  | none => exact past.fewer (by simp)
  | some amount =>
    have flag : isFlag (ch '.') = false := rfl
    have digit : isDigit (ch '.') = false := rfl
    have star : isStar (ch '.') = false := rfl
    exact past_here (by simp [flag,digit,star]) _

theorem digitText_isDigit (d : Fin 10) : isDigit (digitText d) = true := by
  fin_cases d <;> rfl

theorem digitText_read (d : Fin 10) : ((digitText d).toNat : Int) - 48 = d.val := by
  fin_cases d <;> rfl

theorem digitText_star (d : Fin 10) : isStar (digitText d) = false := by
  fin_cases d <;> rfl

theorem digitText_first (d : Fin 10) (first : d ≠ 0) : isFlag (digitText d) = false := by
  fin_cases d <;> first | rfl | exact absurd rfl first

theorem past_width (width : Amount) (first : ∀ digits, width = .literal digits → digits.head? ≠ some 0)
    (past : Past [isFlag,isDigit,isStar] p) : Past [isFlag] (width.text ++ p) := by
  cases width with
  | star v => exact past_here (fun test member => List.mem_singleton.mp member ▸ rfl) p
  | literal digits =>
    cases digits with
    | nil => exact past.fewer (by simp)
    | cons d digits =>
      have nonzero : d ≠ 0 := fun zero => first (d :: digits) rfl (congrArg some zero)
      exact past_here (fun test member => List.mem_singleton.mp member ▸ digitText_first d nonzero) _

theorem parseFlags_text (flags : Flags) (list : List Flag) (past : Past [isFlag] p) :
    parseFlags flags (list.map Flag.text ++ p) = .ok (⟨flags.hash || .hash ∈ list,flags.minus || .minus ∈ list,
      flags.zero || .zero ∈ list,flags.plus || .plus ∈ list,flags.space || .space ∈ list⟩,p) := by
  induction list generalizing flags with
  | nil =>
    obtain ⟨c,rest,rfl,refused⟩ := past
    have none : isFlag c = false := refused isFlag List.mem_cons_self
    simp only [isFlag,Bool.or_eq_false_iff,decide_eq_false_iff_not] at none
    obtain ⟨⟨⟨⟨hash,minus⟩,zero⟩,plus⟩,space⟩ := none
    simp [parseFlags,hash,minus,zero,plus,space]
  | cons flag list ih =>
    cases flag with
    | hash => exact (ih { flags with hash := true }).trans (by simp)
    | minus => exact (ih { flags with minus := true }).trans (by simp)
    | zero => exact (ih { flags with zero := true }).trans (by simp)
    | plus => exact (ih { flags with plus := true }).trans (by simp)
    | space => exact (ih { flags with space := true }).trans (by simp)

theorem int32_id {x : Int} (lower : -2 ^ 31 ≤ x) (upper : x < 2 ^ 31) : int32 x = x := by
  unfold int32
  rw [Int.bmod_eq_of_le]
  · omega
  · omega

theorem number_snoc (digits : List (Fin 10)) (d : Fin 10) : number (digits ++ [d]) = number digits * 10 + d := by
  rw [number,List.foldl_append]
  rfl

theorem int32_step (n d : Int) : int32 (int32 n * 10 + d) = int32 (n * 10 + d) := by
  unfold int32
  rw [Int.add_bmod,Int.bmod_mul_bmod,← Int.add_bmod]

/-- The digits of a number are read into an `int`. -/
theorem parseNumber_text (before digits : List (Fin 10)) (past : Past [isDigit] p) :
    parseNumber (int32 (number before)) (digits.map digitText ++ p) = .ok (int32 (number (before ++ digits)),p) := by
  induction digits generalizing before with
  | nil =>
    obtain ⟨c,rest,rfl,refused⟩ := past
    have none : isDigit c = false := refused isDigit List.mem_cons_self
    rw [List.append_nil]
    show parseNumber _ (c :: rest) = _
    rw [parseNumber,if_neg (by simpa [isDigit] using none)]
  | cons d digits ih =>
    have step : before ++ d :: digits = (before ++ [d]) ++ digits := by simp
    have isD : ch '0' ≤ digitText d ∧ digitText d ≤ ch '9' := by simpa [isDigit] using digitText_isDigit d
    rw [step]
    show parseNumber _ (digitText d :: (digits.map digitText ++ p)) = _
    rw [parseNumber,if_pos isD,← ih,digitText_read,int32_step,number_snoc]
    push_cast
    rfl

theorem past_literal (digits : List (Fin 10)) (past : Past [isStar] p) : Past [isStar] (digits.map digitText ++ p) := by
  cases digits with
  | nil => exact past
  | cons d digits => exact past_here (fun test member => List.mem_singleton.mp member ▸ digitText_star d) _

theorem int32_toInt (v : BitVec 32) : int32 v.toInt = v.toInt := by
  have lower := BitVec.le_toInt v
  have upper := BitVec.toInt_lt (x := v)
  exact int32_id (by omega) (by omega)

theorem parseWidth_text (flags : Flags) (width : Amount) (args : List Arg) (past : Past [isDigit,isStar] p) :
    parseWidth flags (width.arguments ++ args) (width.text ++ p) =
      .ok ({ flags with minus := flags.minus || width.value < 0 },int32 width.value.natAbs,args,p) := by
  cases width with
  | star v =>
    show (if v.toInt < 0 then _ else _) = Except.ok
      (Flags.mk _ (_ || decide (v.toInt < 0)) _ _ _,int32 (v.toInt.natAbs : Int),_)
    by_cases negative : v.toInt < 0
    · have same : (v.toInt.natAbs : Int) = -v.toInt := by omega
      rw [if_pos negative,decide_eq_true negative,Bool.or_true,same]
      rfl
    · have same : (v.toInt.natAbs : Int) = v.toInt := by omega
      rw [if_neg negative,decide_eq_false negative,Bool.or_false,same,int32_toInt]
      rfl
  | literal digits =>
    obtain ⟨c,rest,same,refused⟩ := past_literal digits (past.fewer (by simp))
    have other : c ≠ ch '*' := by simpa [isStar] using refused isStar List.mem_cons_self
    have parsed := parseNumber_text [] digits (past.fewer (by simp))
    have nonneg : ¬ (Amount.literal digits).value < 0 := Int.not_lt.mpr (Int.natCast_nonneg _)
    show parseWidth flags args (digits.map digitText ++ p) = _
    rw [same] at parsed ⊢
    show (if c = ch '*' then _ else _) = _
    rw [if_neg other]
    show (parseNumber (int32 (number [])) _ >>= _) = _
    rw [parsed,decide_eq_false nonneg,Bool.or_false]
    rfl

theorem parsePrecision_text (precision : Option Amount) (args : List Arg) (past : Past [isDigit,isStar,isDot] p) :
    parsePrecision (precision.elim [] Amount.arguments ++ args) (precisionText precision ++ p) =
      .ok (precision.elim (-1) (fun amount => int32 amount.value),args,p) := by
  cases precision with
  | none =>
    obtain ⟨c,rest,rfl,refused⟩ := past
    have other : c ≠ ch '.' := by simpa [isDot] using refused isDot (by simp)
    show (if c = ch '.' then _ else _) = _
    rw [if_neg other]
    rfl
  | some amount =>
    cases amount with
    | star v =>
      show _ = Except.ok (int32 v.toInt,_)
      rw [int32_toInt]
      rfl
    | literal digits =>
      obtain ⟨c,rest,same,refused⟩ := past_literal digits (past.fewer (by simp))
      have other : c ≠ ch '*' := by simpa [isStar] using refused isStar List.mem_cons_self
      have parsed := parseNumber_text [] digits (past.fewer (by simp))
      rw [List.nil_append] at parsed
      show parsePrecision args (ch '.' :: (digits.map digitText ++ p)) = _
      rw [same] at parsed ⊢
      show (if c = ch '*' then _ else _) = _
      rw [if_neg other]
      show (parseNumber (int32 (number [])) (c :: rest) >>= _) = _
      rw [parsed,Option.elim_some,Amount.value]
      generalize int32 (number digits) = n
      rfl

theorem parseLength_text (length : Length) {c : UInt8} (letter : c ∈ letters) :
    parseLength (lengthText length ++ c :: p) = .ok (length,c :: p) := by
  have each : ∀ c ∈ letters, c ≠ ch 'h' ∧ c ≠ ch 'l' ∧ c ≠ ch 'z' ∧ c ≠ ch 'j' ∧ c ≠ ch 't' := by decide +kernel
  obtain ⟨h,l,z,j,t⟩ := each c letter
  cases length with
  | default =>
    show (if c = ch 'h' then _ else if c = ch 'l' then _ else if c = ch 'z' then _ else if c = ch 'j' then _ else
      if c = ch 't' then _ else _) = _
    rw [if_neg h,if_neg l,if_neg z,if_neg j,if_neg t]
    rfl
  | h =>
    show (if c = ch 'h' then _ else _) = _
    rw [if_neg h]
    rfl
  | l =>
    show (if c = ch 'l' then _ else _) = _
    rw [if_neg l]
    rfl
  | _ => rfl

/-- What the code makes of a directive. -/
def Spec.directive (r : Spec) : Directive :=
  ⟨r.inForce,int32 r.fieldWidth,r.precision.elim (-1) (fun amount => int32 amount.value),r.length⟩

/-- A width is read as written, unless it begins with the flag `0`. -/
theorem parseDirective_spec {r : Spec} (letter : r.conversion ∈ letters)
    (first : ∀ digits, r.width = .literal digits → digits.head? ≠ some 0) (value : Arg) (args : List Arg) :
    parseDirective (r.arguments value ++ args) (r.text ++ p) = .ok (r.directive,value :: args,r.conversion :: p) := by
  have past := past_length r.length letter p
  have past' := past_precision r.precision past
  have past'' := past_width r.width first past'
  have flags := parseFlags_text {} r.flags past''
  have width := parseWidth_text (Flags.mk (.hash ∈ r.flags) (.minus ∈ r.flags) (.zero ∈ r.flags) (.plus ∈ r.flags)
    (.space ∈ r.flags)) r.width (r.precision.elim [] Amount.arguments ++ value :: args) (past'.fewer (by simp))
  have precision := parsePrecision_text r.precision (value :: args) (past.fewer (by simp))
  have length := parseLength_text (p := p) r.length letter
  simp only [Bool.false_or] at flags
  simp only [Spec.arguments,Spec.text,List.append_assoc,List.cons_append,List.nil_append]
  rw [parseDirective,flags]
  show (parseWidth _ _ _ >>= _) = _
  rw [width]
  show (parsePrecision _ _ >>= _) = _
  rw [precision]
  show (parseLength _ >>= _) = _
  rw [length]
  rfl

/-- What the code makes of a directive. -/
def Request.directive (r : Request) : Directive := ⟨r.inForce,r.fieldWidth,r.precision.elim (-1) Amount.value,r.length⟩

theorem Formed.directive {value : Arg} (formed : Formed r value) : r.spec.directive = r.directive := by
  have narrow := formed.narrow
  have width : int32 r.width.value.natAbs = r.width.value.natAbs := int32_id (by omega) (by omega)
  have precision : r.precision.elim (-1) (fun amount => int32 amount.value) = r.precision.elim (-1) Amount.value := by
    cases written : r.precision with
    | none => rfl
    | some amount =>
      have precise := formed.precise amount written
      exact int32_id (x := amount.value) (by omega) (by omega)
  show Directive.mk _ (int32 r.width.value.natAbs) (r.precision.elim (-1) (fun amount => int32 amount.value)) _ = _
  rw [width,precision]
  rfl

theorem parseDirective_text {value : Arg} (formed : Formed r value) (args : List Arg) :
    parseDirective (r.arguments value ++ args) (r.text ++ p) = .ok
      (r.directive,value :: args,r.conversion.text :: p) := by
  rw [← formed.directive]
  exact parseDirective_spec (r := r.spec) r.conversion.letter formed.width value args

theorem Formed.narrow_or_wide {value : Arg} (formed : Formed r value) :
    (∃ v, value = .int v ∧ wide r.length = false) ∨ ∃ v, value = .long v ∧ wide r.length = true := by
  have argument := formed.argument
  by_cases whole : wide r.length = true
  · rw [if_pos whole] at argument
    cases value with
    | long v => exact .inr ⟨v,rfl,whole⟩
    | _ => cases argument
  · rw [if_neg whole] at argument
    cases value with
    | int v => exact .inl ⟨v,rfl,Bool.not_eq_true _ ▸ whole⟩
    | _ => cases argument

/-- The argument of a signed conversion, extended to 64 bits, has the value to print. -/
theorem vaSigned_value {value : Arg} (signed : r.conversion.signed = true) (formed : Formed r value) (args : List Arg) :
    ∃ v : BitVec 64, vaSigned r.length (value :: args) = .ok (v,args) ∧ v.toInt = r.value value := by
  have read {w : Nat} (v : BitVec w) : r.conversion.read v = v.toInt := if_pos signed
  have extended {w : Nat} (v : BitVec w) (fits : w ≤ 64) : (v.signExtend 64).toInt = r.conversion.read v := by
    rw [read]
    exact BitVec.toInt_signExtend_of_le fits
  obtain ⟨v,rfl,narrow⟩ | ⟨v,rfl,whole⟩ := formed.narrow_or_wide
  · unfold Request.value
    cases length : r.length with
    | default => exact ⟨_,rfl,extended v (by decide)⟩
    | h => exact ⟨_,rfl,extended (v.setWidth 16) (by decide)⟩
    | hh => exact ⟨_,rfl,extended (v.setWidth 8) (by decide)⟩
    | _ =>
      rw [length] at narrow
      cases narrow
  · refine ⟨v,?_,(read v).symm⟩
    cases length : r.length <;> rw [length] at whole <;> first | rfl | cases whole

theorem vaUnsigned_value {value : Arg} (unsigned : r.conversion.signed = false) (formed : Formed r value)
    (args : List Arg) :
    ∃ v : BitVec 64, vaUnsigned r.length (value :: args) = .ok (v,args) ∧ (v.toNat : Int) = r.value value := by
  have read {w : Nat} (v : BitVec w) : r.conversion.read v = v.toNat := if_neg (by rw [unsigned]; decide)
  have extended {w : Nat} (v : BitVec w) (fits : w ≤ 64) : ((v.setWidth 64).toNat : Int) = r.conversion.read v := by
    rw [read,BitVec.toNat_setWidth_of_le fits]
  obtain ⟨v,rfl,narrow⟩ | ⟨v,rfl,whole⟩ := formed.narrow_or_wide
  · unfold Request.value
    cases length : r.length with
    | default => exact ⟨_,rfl,extended v (by decide)⟩
    | h => exact ⟨_,rfl,extended (v.setWidth 16) (by decide)⟩
    | hh => exact ⟨_,rfl,extended (v.setWidth 8) (by decide)⟩
    | _ =>
      rw [length] at narrow
      cases narrow
  · refine ⟨v,?_,(read v).symm⟩
    cases length : r.length <;> rw [length] at whole <;> first | rfl | cases whole

/-! ### What the code prints -/

theorem fillBuf_eq {base : Nat} (large : 1 < base) (room value : Nat) (fits : value < base ^ room) :
    fillBuf base room value = Nat.digits base value := by
  induction room generalizing value with
  | zero =>
    obtain rfl : value = 0 := by simpa using fits
    rw [fillBuf,Nat.digits_zero]
  | succ room ih =>
    rw [fillBuf]
    by_cases positive : value > 0
    · rw [if_pos positive,Nat.digits_def' large positive,ih]
      exact Nat.div_lt_of_lt_mul (by rw [← Nat.pow_succ']; exact fits)
    · obtain rfl : value = 0 := by omega
      rw [if_neg positive,Nat.digits_zero]

theorem countDigits_eq (room temp : Nat) (fits : temp < 10 ^ room) :
    countDigits room temp = (Nat.digits 10 temp).length := by
  induction room generalizing temp with
  | zero =>
    obtain rfl : temp = 0 := by simpa using fits
    rfl
  | succ room ih =>
    rw [countDigits]
    by_cases positive : temp > 0
    · rw [if_pos positive,Nat.digits_def' (by decide) positive,ih]
      · rfl
      · exact Nat.div_lt_of_lt_mul (by rw [← Nat.pow_succ']; exact fits)
    · obtain rfl : temp = 0 := by omega
      rw [if_neg positive,Nat.digits_zero]
      rfl

theorem numeral_length (base : Nat) (upper : Bool) (n : Nat) :
    (numeral base upper n).length = (Nat.digits base n).length := by
  rw [numeral,List.length_reverse,List.length_map]

theorem numeral_zero (base : Nat) (upper : Bool) : numeral base upper 0 = [] := by
  rw [numeral,Nat.digits_zero]
  rfl

theorem atLeast_length (precision : Nat) (numeral : List UInt8) :
    (atLeast precision numeral).length = max precision numeral.length := by
  rw [atLeast,zeros,List.length_append,List.length_replicate]
  omega

/-- The digits in `buf` and the zeros before them. -/
theorem buf_eq {base : Nat} (large : 1 < base) (value : BitVec 64) (precision : Int) (upper : Bool) {buf : List UInt8}
    (filled : (if value.toNat = 0 ∧ precision ≠ 0 then [ch '0'] else (fillBuf base 64 value.toNat).map (digit upper))
    = buf) :
    zeros (max precision buf.length - buf.length).toNat ++ buf.reverse =
      atLeast ((given precision).getD 1) (numeral base upper value.toNat) := by
  rw [fillBuf_eq large 64 _ (value.isLt.trans_le (Nat.pow_le_pow_left large 64))] at filled
  have omitted : (given precision).getD 1 = if precision < 0 then 1 else precision.toNat := by
    unfold given
    by_cases negative : precision < 0
    · rw [if_pos negative,if_pos negative]
      rfl
    · rw [if_neg negative,if_neg negative]
      rfl
  have same : zeros (max precision buf.length - buf.length).toNat = zeros (precision.toNat - buf.length) := by
    congr 1
    omega
  rw [same,omitted,atLeast,numeral_length]
  by_cases zero : value.toNat = 0 ∧ precision ≠ 0
  · -- the only digit is that of 0, which is no significant one
    rw [if_pos zero] at filled
    subst filled
    rw [zero.1,numeral_zero,Nat.digits_zero,List.append_nil]
    by_cases negative : precision < 0
    · rw [if_pos negative,Int.toNat_of_nonpos negative.le]
      rfl
    · obtain ⟨n,rfl⟩ : ∃ n : Nat, precision = (n + 1 : Nat) := ⟨(precision - 1).toNat,by omega⟩
      rw [if_neg negative,Int.toNat_natCast]
      exact List.replicate_succ'.symm
  · rw [if_neg zero] at filled
    subst filled
    rw [List.length_map]
    by_cases negative : precision < 0
    · have positive : value.toNat ≠ 0 := fun none => zero ⟨none,by omega⟩
      have some : 0 < (Nat.digits base value.toNat).length := List.length_pos_iff.mpr
        (Nat.digits_ne_nil_iff_ne_zero.mpr positive)
      have none : 1 - (Nat.digits base value.toNat).length = precision.toNat -
        (Nat.digits base value.toNat).length := by omega
      rw [if_pos negative,none]
      rfl
    · rw [if_neg negative]
      rfl

theorem print_append {σ : Type} (put : σ → UInt8 → σ) (str str' : List UInt8) (s : σ) :
    print put (str ++ str') s = print put str' (print put str s) := List.foldl_append

theorem putPadding_eq {σ : Type} (put : σ → UInt8 → σ) (c : UInt8) (width count : Int) (s : σ) :
    putPadding put c width count s = print put (List.replicate (width - count).toNat c) s := by
  have times (n : Nat) : putTimes put c n s = print put (List.replicate n c) s := by
    induction n generalizing s with
    | zero => rfl
    | succ n ih => exact ih (put s c)
  exact times _

theorem onlyIf_eq {σ : Type} (put : σ → UInt8 → σ) (cond : Bool) {f : σ → σ} {str : List UInt8}
    (prints : ∀ s, f s = print put str s) (s : σ) : onlyIf cond f s = print put (if cond then str else []) s := by
  unfold onlyIf
  cases cond with
  | true => exact prints s
  | false => rfl

/-- The prefix of the bases 16 and 8. -/
def alternate (flags : Flags) (base : Nat) (upper : Bool) : List UInt8 :=
  if flags.hash then if base = 16 then bytes (if upper then "0X" else "0x") else if base = 8 then [ch '0'] else [] else []

/-- `sprint_uint` pads before the prefix, with zeros also when a precision is given. -/
def unsignedField (flags : Flags) (width : Nat) (lead digits : List UInt8) : List UInt8 :=
  let padding := width - (lead.length + digits.length)
  if flags.minus then lead ++ digits ++ spaces padding
  else (if flags.zero then zeros padding else spaces padding) ++ lead ++ digits

theorem putPrefix_eq {σ : Type} (put : σ → UInt8 → σ) (flags : Flags) (base : Nat) (upper : Bool) (s : σ) :
    onlyIf flags.hash (putPrefix put base upper) s = print put (alternate flags base upper) s := by
  unfold alternate
  refine onlyIf_eq put flags.hash (fun s => ?_) s
  unfold putPrefix
  by_cases hex : base = 16
  · rw [if_pos hex,if_pos hex]
  · rw [if_neg hex,if_neg hex]
    by_cases octal : base = 8
    · rw [if_pos octal,if_pos octal]
      rfl
    · rw [if_neg octal,if_neg octal]
      rfl

theorem alternate_length (flags : Flags) (base : Nat) (upper : Bool) : (alternate flags base upper).length =
    if flags.hash then if base = 16 then 2 else if base = 8 then 1 else 0 else 0 := by
  unfold alternate
  cases flags.hash with
  | false => rfl
  | true =>
    rw [if_pos rfl,if_pos rfl]
    by_cases hex : base = 16
    · rw [if_pos hex,if_pos hex]
      cases upper <;> rfl
    · rw [if_neg hex,if_neg hex]
      by_cases octal : base = 8
      · rw [if_pos octal,if_pos octal]
        rfl
      · rw [if_neg octal,if_neg octal]
        rfl

theorem numeral_short {base : Nat} (large : 1 < base) (upper : Bool) (value : BitVec 64) :
    (numeral base upper value.toNat).length ≤ 64 := by
  rw [numeral_length,Nat.digits_length_le_iff large]
  exact value.isLt.trans_le (Nat.pow_le_pow_left large 64)

theorem given_le (precision : Int) : (given precision).getD 1 ≤ max 1 precision.toNat := by
  unfold given
  by_cases negative : precision < 0
  · rw [if_pos negative]
    exact Nat.le_max_left 1 _
  · rw [if_neg negative]
    exact Nat.le_max_right 1 _

theorem print_uint_eq {σ : Type} (put : σ → UInt8 → σ) (value : BitVec 64) {base : Nat} (large : 1 < base)
    (width : Nat) {precision : Int} (precise : precision < 2 ^ 30) (flags : Flags) (upper : Bool) (s : σ) :
    print_uint put value base width precision flags upper s = print put
      (unsignedField flags width (alternate flags base upper)
      (atLeast ((given precision).getD 1) (numeral base upper value.toNat))) s := by
  have digits := buf_eq large value precision upper rfl
  have short := atLeast_length ((given precision).getD 1) (numeral base upper value.toNat)
  have few := numeral_short large upper value
  have little := given_le precision
  simp only [print_uint]
  generalize (if value.toNat = 0 ∧ precision ≠ 0 then [ch '0'] else (fillBuf base 64 value.toNat).map
    (digit upper)) = buf at digits ⊢
  have actual : (if precision > buf.length then precision else (buf.length : Int)) = max
    precision buf.length := by omega
  rw [actual]
  generalize atLeast ((given precision).getD 1) (numeral base upper value.toNat) = shown at digits short ⊢
  have length : max precision buf.length = shown.length := by
    rw [← digits,zeros,List.length_append,List.length_replicate,List.length_reverse]
    omega
  have count : (if flags.hash = true then if base = 16 then int32 (max precision buf.length + 2)
      else if base = 8 then int32 (max precision buf.length + 1) else max precision buf.length else
        max precision buf.length) =
      ((alternate flags base upper).length + shown.length : Nat) := by
    rw [length,alternate_length,int32_id (by omega) (by omega),int32_id (by omega) (by omega)]
    cases flags.hash with
    | false => simp
    | true =>
      rw [if_pos rfl,if_pos rfl]
      by_cases hex : base = 16
      · rw [if_pos hex,if_pos hex]
        omega
      · rw [if_neg hex,if_neg hex]
        by_cases octal : base = 8
        · rw [if_pos octal,if_pos octal]
          omega
        · rw [if_neg octal,if_neg octal,Nat.zero_add]
  rw [count,onlyIf_eq put flags.minus (fun s => putPadding_eq put (ch ' ') width _ s),putPrefix_eq,
    onlyIf_eq put (!flags.minus) (fun s => putPadding_eq put _ width _ s),putPadding_eq]
  simp only [← print_append]
  congr 1
  have padding : ((width : Int) - ((alternate flags base upper).length + shown.length : Nat)).toNat =
    width - ((alternate flags base upper).length + shown.length) := by omega
  rw [padding]
  unfold unsignedField
  unfold zeros at digits
  cases flags.minus with
  | true =>
    simp only [Bool.not_true,Bool.false_eq_true,if_false,if_true,List.nil_append,List.append_assoc]
    rw [← digits,List.append_assoc]
    rfl
  | false =>
    simp only [Bool.not_false,Bool.false_eq_true,if_false,if_true,List.append_nil,List.append_assoc]
    rw [← digits]
    cases flags.zero <;> rfl

theorem magnitude (value : BitVec 64) :
    (if decide (value.toInt < 0) then -value else value).toNat = value.toInt.natAbs := by
  have bound := value.isLt
  have int := BitVec.toInt_eq_toNat_cond value
  by_cases negative : value.toInt < 0
  · rw [decide_eq_true negative,if_pos rfl,BitVec.toNat_neg]
    by_cases low : 2 * value.toNat < 2 ^ 64
    · rw [if_pos low] at int
      omega
    · rw [if_neg low] at int
      have small : 2 ^ 64 - value.toNat < 2 ^ 64 := by omega
      rw [Nat.mod_eq_of_lt small]
      omega
  · rw [decide_eq_false negative]
    by_cases low : 2 * value.toNat < 2 ^ 64
    · rw [if_pos low] at int
      exact int ▸ rfl
    · rw [if_neg low] at int
      omega

/-- `sprint_int` counts the digits that `sprint_uint` prints. -/
theorem count_eq (value : BitVec 64) (precision : Int) {count : Int}
    (counted : (if value.toNat = 0 ∧ precision ≠ 0 then 1 else 0) + countDigits 64 value.toNat = count) :
    (if precision > count then precision else count) =
      (atLeast ((given precision).getD 1) (numeral 10 false value.toNat)).length := by
  have digits := @buf_eq 10 (by decide) value precision false _ rfl
  have short : value.toNat < 10 ^ 64 := value.isLt.trans (by decide)
  have length : (((if value.toNat = 0 ∧ precision ≠ 0 then [ch '0'] else (fillBuf 10 64 value.toNat).map
      (digit false)).length : Nat) : Int) = count := by
    rw [← counted,countDigits_eq 64 _ short]
    by_cases zero : value.toNat = 0 ∧ precision ≠ 0
    · rw [if_pos zero,if_pos zero,zero.1,Nat.digits_zero]
      rfl
    · rw [if_neg zero,if_neg zero,List.length_map,fillBuf_eq (by decide) 64 _ short,zero_add]
  rw [← digits,List.length_append,zeros,List.length_replicate,List.length_reverse]
  omega

theorem signText_length (flags : Flags) (value : Int) :
    (Conversion.lead.signText flags value).length = if value < 0 ∨ flags.plus ∨ flags.space then 1 else 0 := by
  unfold Conversion.lead.signText
  by_cases negative : value < 0
  · rw [if_pos negative,if_pos (.inl negative)]
    rfl
  · rw [if_neg negative]
    cases flags.plus with
    | true => simp
    | false => cases flags.space <;> simp [negative]

theorem print_int_eq {σ : Type} (put : σ → UInt8 → σ) (value : BitVec 64) (width : Nat) {precision : Int}
    (precise : precision < 2 ^ 30) (flags : Flags) (s : σ) :
    print_int put value width precision flags s = print put
      (field flags width none (Conversion.lead.signText flags value.toInt)
      (atLeast ((given precision).getD 1) (numeral 10 false value.toInt.natAbs))) s := by
  have size := magnitude value
  simp only [print_int]
  generalize (if decide (value.toInt < 0) = true then -value else value) = absolute at size ⊢
  rw [count_eq absolute precision rfl,← size]
  have short := atLeast_length ((given precision).getD 1) (numeral 10 false absolute.toNat)
  have few := @numeral_short 10 (by decide) false absolute
  have little := given_le precision
  have digits (s : σ) : print_uint put absolute 10 (0 : Nat) precision {} false s = _ :=
    print_uint_eq put absolute (by decide) 0 precise {} false s
  generalize atLeast ((given precision).getD 1) (numeral 10 false absolute.toNat) = shown at short digits ⊢
  have plain : unsignedField {} 0 (alternate {} 10 false) shown = shown := by
    simp [unsignedField,alternate,spaces]
  rw [plain,Nat.cast_zero] at digits
  have sign (s : σ) : putSign put (decide (value.toInt < 0)) flags s = print put
      (Conversion.lead.signText flags value.toInt) s := by
    unfold putSign Conversion.lead.signText
    simp only [decide_eq_true_eq]
    split_ifs <;> rfl
  have columns := signText_length flags value.toInt
  generalize Conversion.lead.signText flags value.toInt = lead at columns sign ⊢
  have count : (if (decide (value.toInt < 0) || flags.plus || flags.space) = true then int32
    ((shown.length : Int) + 1) else shown.length) =
      (lead.length + shown.length : Nat) := by
    rw [columns,int32_id (by omega) (by omega)]
    simp only [Bool.or_eq_true,decide_eq_true_eq,or_assoc]
    split_ifs
    · omega
    · omega
  have padding : ((width : Int) - (lead.length + shown.length : Nat)).toNat = width -
    (lead.length + shown.length) := by omega
  rw [count,onlyIf_eq put flags.minus (fun s => putPadding_eq put _ width _ s),digits,
    onlyIf_eq put (!flags.minus && flags.zero) (fun s => putPadding_eq put _ width _ s),sign,
    onlyIf_eq put (!flags.minus && !flags.zero) (fun s => putPadding_eq put _ width _ s),padding]
  simp only [← print_append]
  congr 1
  unfold field spaces zeros
  cases flags.minus with
  | true => simp
  | false => cases flags.zero <;> simp

/-- What a directive prints. -/
def Request.emitted (r : Request) (value : Arg) : List UInt8 :=
  let digits := atLeast (r.fieldPrecision.getD 1) (numeral r.conversion.base (r.conversion = .X) (r.value value).natAbs)
  if r.conversion.signed then field r.inForce r.fieldWidth none (Conversion.lead.signText r.inForce (r.value value)) digits
  else unsignedField r.inForce r.fieldWidth (alternate r.inForce r.conversion.base (r.conversion = .X)) digits

theorem precision_given {value : Arg} (formed : Formed r value) :
    r.directive.precision < 2 ^ 30 ∧ given r.directive.precision = r.fieldPrecision := by
  show r.precision.elim (-1) Amount.value < _ ∧ given (r.precision.elim (-1) Amount.value) = r.precision.bind _
  cases written : r.precision with
  | none => exact ⟨by decide,rfl⟩
  | some amount =>
    have small := formed.precise amount written
    exact ⟨by show amount.value < _; omega,rfl⟩

section
variable {σ : Type} (put : σ → UInt8 → σ) {value : Arg} (formed : Formed r value) (args : List Arg) (s : σ)
include formed

theorem convert_signed (signed : r.conversion.signed = true) :
    (do
      let (v,args) ← vaSigned r.length (value :: args)
      .ok (print_int put v r.fieldWidth r.directive.precision r.inForce s,args)) = .ok
        (print put (r.emitted value) s,args) := by
  obtain ⟨precise,same⟩ := precision_given formed
  obtain ⟨v,taken,means⟩ := vaSigned_value signed formed args
  rw [taken]
  show Except.ok (print_int put v r.fieldWidth r.directive.precision r.inForce s,args) = _
  rw [print_int_eq put v r.fieldWidth precise,same,means,Request.emitted,if_pos signed]
  cases conversion : r.conversion with
  | d => rfl
  | i => rfl
  | _ =>
    rw [conversion] at signed
    cases signed

theorem convert_unsigned (unsigned : r.conversion.signed = false) :
    (do
      let (v,args) ← vaUnsigned r.length (value :: args)
      .ok (print_uint put v r.conversion.base r.fieldWidth r.directive.precision r.inForce
        (r.conversion = Conversion.X) s,args)) =
      .ok (print put (r.emitted value) s,args) := by
  obtain ⟨precise,same⟩ := precision_given formed
  obtain ⟨v,taken,means⟩ := vaUnsigned_value unsigned formed args
  have large : 1 < r.conversion.base := by cases r.conversion <;> decide
  rw [taken]
  show Except.ok (print_uint put v r.conversion.base r.fieldWidth r.directive.precision r.inForce _ s,args) = _
  rw [print_uint_eq put v large r.fieldWidth precise,same,Request.emitted,if_neg (by rw [unsigned]; decide),← means]
  rfl

theorem convert_text :
    convert put r.directive r.conversion.text (value :: args) s = .ok (print put (r.emitted value) s,args) := by
  cases conversion : r.conversion with
  | d => exact convert_signed put formed args s (by rw [conversion]; rfl)
  | i => exact convert_signed put formed args s (by rw [conversion]; rfl)
  | _ =>
    have unsigned := convert_unsigned put formed args s (by rw [conversion]; rfl)
    rw [conversion] at unsigned
    exact unsigned

/-- A directive anywhere in a format. -/
theorem vprintf_text (fuel : Nat) : vprintf put (fuel + 1) (ch '%' :: (r.text ++ p)) (r.arguments value ++ args) s =
    vprintf put fuel p args (print put (r.emitted value) s) := by
  rw [vprintf]
  show (parseDirective (r.arguments value ++ args) (r.text ++ p) >>= _) = _
  rw [parseDirective_text formed]
  show (convert put r.directive r.conversion.text (value :: args) s >>= _) = _
  rw [convert_text put formed]
  rfl

end

/-! ### Conformance -/

/-- The field is padded with zeros. -/
def Request.zeroed (r : Request) : Prop := r.inForce.zero = true ∧ r.inForce.minus = false

/-- The columns that the sign or the prefix and the digits fill. -/
def Request.columns (r : Request) (value : Arg) : Nat :=
  (r.conversion.lead r.inForce (r.value value)).length + (r.conversion.digits r.inForce r.fieldPrecision (r.value value).natAbs).length

/-- Where the code follows the standard. -/
structure Conforms (r : Request) (value : Arg) : Prop where
  /-- it pads with zeros although a precision is given -/
  precise : r.zeroed → r.fieldPrecision ≠ none → r.fieldWidth ≤ r.columns value
  /-- it puts `0x` before the value 0 -/
  nonzero : r.inForce.hash → r.conversion.base = 16 → r.value value ≠ 0
  /-- it pads with zeros before the `0x` -/
  hex : r.inForce.hash → r.conversion.base = 16 → r.zeroed → r.fieldWidth ≤ r.columns value
  /-- it puts a `0` before an octal number that has one -/
  octal : r.inForce.hash → r.conversion = .o →
    r.fieldPrecision.getD 1 ≤ (Nat.digits 8 (r.value value).natAbs).length ∨ r.zeroed ∧ r.fieldPrecision = none ∧ 2 ≤ r.fieldWidth

section
variable {flags : Flags} {width : Nat} {precision : Option Nat} {lead digits : List UInt8}

theorem field_eq_iff : field flags width none lead digits = field flags width precision lead digits ↔
    (flags.zero = true ∧ flags.minus = false → precision ≠ none → width ≤ lead.length + digits.length) := by
  unfold field
  cases flags.minus with
  | true => simp
  | false =>
    cases flags.zero with
    | false => simp
    | true =>
      cases precision with
      | none => simp
      | some n =>
        simp only [Bool.false_eq_true,if_false,and_self,if_true,reduceCtorEq,and_false,ne_eq,not_false_eq_true,forall_const]
        constructor
        · intro same
          have blanks := congrArg (List.count (ch ' ')) same
          simp only [List.count_append,zeros,spaces,List.count_replicate_self] at blanks
          rw [List.count_replicate,if_neg (by decide)] at blanks
          omega
        · intro fits
          rw [Nat.sub_eq_zero_of_le fits]
          simp [zeros,spaces]

/-- Without a prefix, `sprint_uint` ignores the precision only. -/
theorem unsignedField_nil : unsignedField flags width [] digits = field flags width none [] digits := by
  unfold unsignedField field
  cases flags.minus with
  | true => rfl
  | false => cases flags.zero <;> simp

theorem unsignedField_eq_iff {c : UInt8} (letter : c ≠ ch '0') :
    unsignedField flags width [ch '0',c] digits = field flags width precision [ch '0',c] digits ↔
      (flags.zero = true ∧ flags.minus = false → width ≤ 2 + digits.length) := by
  unfold unsignedField field
  cases flags.minus with
  | true => simp
  | false =>
    cases flags.zero with
    | false => simp
    | true =>
      simp only [Bool.false_eq_true,if_false,if_true,true_and,and_self,forall_const,List.length_cons,List.length_nil]
      constructor
      · intro same
        by_contra wide
        obtain ⟨n,padding⟩ : ∃ n, width - (0 + 1 + 1 + digits.length) = n + 1 :=
          ⟨width - (2 + digits.length) - 1,by omega⟩
        rw [padding] at same
        cases precision with
        | none =>
          rw [if_pos rfl,List.append_cancel_right_eq] at same
          have last := congrArg (fun chars => chars.reverse.head?) same
          exact letter (by simpa [zeros,List.head?_replicate] using last)
        | some p =>
          rw [if_neg (by simp),List.append_cancel_right_eq,List.append_cancel_right_eq] at same
          have first := congrArg List.head? same
          have same : ch '0' = ch ' ' := by simpa [zeros,spaces,List.replicate_succ] using first
          exact absurd same (by decide)
      · intro fits
        have none : width - (0 + 1 + 1 + digits.length) = 0 := by omega
        rw [none]
        simp [zeros,spaces]

end

/-- The value 0 with a prefix. -/
theorem prefixed_zero {flags : Flags} {width : Nat} {precision : Option Nat} {lead : List UInt8} {n : Nat} {c : UInt8}
    (letter : c ∈ lead) (other : c ≠ ch '0' ∧ c ≠ ch ' ') :
    unsignedField flags width lead (zeros n) ≠ field flags width precision [] (zeros n) := by
  have inside : c ∈ unsignedField flags width lead (zeros n) := by
    unfold unsignedField
    cases flags.minus with
    | true => simp [letter]
    | false => simp [letter]
  intro same
  rw [same] at inside
  unfold field at inside
  have blank (k : Nat) : c ∉ spaces k := fun member => other.2 (List.eq_of_mem_replicate member)
  have zero (k : Nat) : c ∉ zeros k := fun member => other.1 (List.eq_of_mem_replicate member)
  split_ifs at inside <;> simp [blank,zero] at inside

/-- An octal number that begins with a 0 already. -/
theorem octal_eq_iff {flags : Flags} {width : Nat} {precision : Option Nat} {numeral : List UInt8}
    (leading : numeral.length < precision.getD 1) :
    unsignedField flags width [ch '0'] (atLeast (precision.getD 1) numeral) =
        field flags width precision [] (atLeast (precision.getD 1) numeral) ↔
      (flags.zero = true ∧ flags.minus = false) ∧ precision = none ∧ 2 ≤ width := by
  have blanks (k : Nat) : (spaces k).countP (· != ch ' ') = 0 :=
    List.countP_eq_zero.mpr (fun c member => by rw [List.eq_of_mem_replicate member]; decide)
  have one : [ch '0'].countP (· != ch ' ') = 1 := by decide
  have columns := atLeast_length (precision.getD 1) numeral
  generalize atLeast (precision.getD 1) numeral = digits at columns ⊢
  -- otherwise the code prints one character more that is not a space
  unfold unsignedField field
  cases flags.minus with
  | true =>
    simp only [if_true,reduceCtorEq,and_false,false_and,iff_false,List.nil_append]
    intro same
    have more := congrArg (List.countP (· != ch ' ')) same
    simp only [List.countP_append,blanks,one] at more
    omega
  | false =>
    simp only [Bool.false_eq_true,if_false,and_true]
    cases flags.zero with
    | false =>
      simp only [Bool.false_eq_true,if_false,false_and,iff_false,List.append_nil]
      intro same
      have more := congrArg (List.countP (· != ch ' ')) same
      simp only [List.countP_append,blanks,one] at more
      omega
    | true =>
      cases precision with
      | some p =>
        simp only [reduceCtorEq,if_false,if_true,and_false,false_and,iff_false,List.append_nil]
        intro same
        have more := congrArg (List.countP (· != ch ' ')) same
        simp only [List.countP_append,blanks,one] at more
        omega
      | none =>
        have single : digits.length = 1 := by
          have leading : numeral.length < 1 := leading
          have columns : digits.length = max 1 numeral.length := columns
          omega
        simp only [if_true,true_and,and_self,List.nil_append,List.append_cancel_right_eq,List.length_cons,List.length_nil,single]
        constructor
        · intro same
          have lengths := congrArg List.length same
          simp only [zeros,List.length_append,List.length_replicate,List.length_cons,List.length_nil] at lengths
          omega
        · intro wide
          obtain ⟨k,rfl⟩ : ∃ k, width = k + 2 := ⟨width - 2,by omega⟩
          exact List.replicate_succ'.symm

section
variable {value : Arg}

theorem digits_plain {c : Conversion} {flags : Flags} (plain : ¬(c = .o ∧ flags.hash = true))
    (precision : Option Nat) (n : Nat) :
    c.digits flags precision n = atLeast (precision.getD 1) (numeral c.base (c = .X) n) := if_neg plain

theorem signed_base {c : Conversion} (signed : c.signed = true) : c.base = 10 := by
  cases c with
  | d => rfl
  | i => rfl
  | _ => cases signed

theorem conforms_plain (same : r.emitted value = field r.inForce r.fieldWidth none
    (r.conversion.lead r.inForce (r.value value)) (r.conversion.digits r.inForce
    r.fieldPrecision (r.value value).natAbs))
    (decimal : r.inForce.hash → r.conversion.base ≠ 16)
    (leading : r.inForce.hash → r.conversion = .o → r.fieldPrecision.getD 1 ≤
    (Nat.digits 8 (r.value value).natAbs).length) :
    r.emitted value = r.prescribed value ↔ Conforms r value := by
  rw [same]
  refine field_eq_iff.trans ⟨fun precise => ⟨precise,?_,?_,?_⟩,fun conforms => conforms.precise⟩
  · exact fun hash base => absurd base (decimal hash)
  · exact fun hash base => absurd base (decimal hash)
  · exact fun hash octal => .inl (leading hash octal)

theorem conforms_signed (signed : r.conversion.signed = true) :
    r.emitted value = r.prescribed value ↔ Conforms r value := by
  have plain : ¬(r.conversion = .o ∧ r.inForce.hash = true) := fun octal => by
    rw [octal.1] at signed
    cases signed
  apply conforms_plain
  · rw [digits_plain plain,Request.emitted,if_pos signed]
    cases conversion : r.conversion with
    | d => rfl
    | i => rfl
    | _ =>
      rw [conversion] at signed
      cases signed
  · intro _ hex
    have decimal := signed_base signed
    omega
  · exact fun hash octal => absurd ⟨octal,hash⟩ plain

/-- A conversion without a prefix. -/
theorem conforms_bare (unsigned : r.conversion.signed = false) (bare : r.inForce.hash = true → r.conversion = .u) :
    r.emitted value = r.prescribed value ↔ Conforms r value := by
  have alternate : alternate r.inForce r.conversion.base (r.conversion = .X) = [] := by
    unfold Conversions.alternate
    by_cases hash : r.inForce.hash = true
    · rw [if_pos hash,bare hash]
      rfl
    · rw [if_neg hash]
  have lead : r.conversion.lead r.inForce (r.value value) = [] := by
    cases conversion : r.conversion with
    | d => rw [conversion] at unsigned; cases unsigned
    | i => rw [conversion] at unsigned; cases unsigned
    | u => rfl
    | o => rfl
    | x => exact if_neg (fun shown => by rw [bare shown.1] at conversion; cases conversion)
    | X => exact if_neg (fun shown => by rw [bare shown.1] at conversion; cases conversion)
  have plain : ¬(r.conversion = .o ∧ r.inForce.hash = true) := fun octal => by
    have decimal := bare octal.2
    rw [octal.1] at decimal
    cases decimal
  apply conforms_plain
  · rw [digits_plain plain,Request.emitted,if_neg (by rw [unsigned]; decide),alternate,lead]
    exact unsignedField_nil
  · intro hash hex
    rw [bare hash] at hex
    cases hex
  · exact fun hash octal => absurd ⟨octal,hash⟩ plain

theorem unsignedField_zero {flags : Flags} {width : Nat} {digits : List UInt8} :
    unsignedField flags width [ch '0'] digits = unsignedField flags width [] (ch '0' :: digits) := by
  have columns : [ch '0'].length + digits.length = ([] : List UInt8).length + (ch '0' :: digits).length := by
    rw [List.length_singleton,List.length_nil,List.length_cons]
    omega
  unfold unsignedField
  rw [columns]
  simp

theorem conforms_octal (octal : r.conversion = .o) (hash : r.inForce.hash = true) :
    r.emitted value = r.prescribed value ↔ Conforms r value := by
  have digits : r.conversion.digits r.inForce r.fieldPrecision (r.value value).natAbs =
      atLeast (max (r.fieldPrecision.getD 1) ((numeral 8 false (r.value value).natAbs).length + 1))
        (numeral 8 false (r.value value).natAbs) := by
    rw [octal]
    exact if_pos ⟨rfl,hash⟩
  have emitted : r.emitted value = unsignedField r.inForce r.fieldWidth [ch '0']
      (atLeast (r.fieldPrecision.getD 1) (numeral 8 false (r.value value).natAbs)) := by
    have alternate : alternate r.inForce 8 false = [ch '0'] := if_pos hash
    rw [Request.emitted,octal,← alternate]
    rfl
  have lead : r.conversion.lead r.inForce (r.value value) = [] := by rw [octal]; rfl
  have length := numeral_length 8 false (r.value value).natAbs
  by_cases few : r.fieldPrecision.getD 1 ≤ (Nat.digits 8 (r.value value).natAbs).length
  · apply conforms_plain
    · rw [emitted,digits,lead,unsignedField_zero,unsignedField_nil]
      congr 1
      rw [← length] at few
      rw [atLeast,atLeast,Nat.sub_eq_zero_of_le few,Nat.max_eq_right (by omega),Nat.add_sub_cancel_left]
      rfl
    · rw [octal]
      exact fun _ => by decide
    · exact fun _ _ => few
  · have more : max (r.fieldPrecision.getD 1) ((numeral 8 false (r.value value).natAbs).length + 1) =
      r.fieldPrecision.getD 1 := by omega
    rw [emitted,Request.prescribed,digits,lead,more,octal_eq_iff (by omega)]
    constructor
    · rintro ⟨zeroed,omitted,wide⟩
      refine ⟨fun _ present => absurd omitted present,?_,?_,fun _ _ => .inr ⟨zeroed,omitted,wide⟩⟩
      · rw [octal]
        exact fun _ base => absurd base (by decide)
      · rw [octal]
        exact fun _ base => absurd base (by decide)
    · exact fun conforms => (conforms.octal hash octal).resolve_left few

theorem conforms_hex (hex : r.conversion.base = 16) (hash : r.inForce.hash = true) :
    r.emitted value = r.prescribed value ↔ Conforms r value := by
  obtain ⟨c,letter,written,lead⟩ : ∃ c, (c ≠ ch '0' ∧ c ≠ ch ' ') ∧ alternate r.inForce 16
    (r.conversion = .X) = [ch '0',c] ∧
      r.conversion.lead r.inForce (r.value value) = if r.value value ≠ 0 then [ch '0',c] else [] := by
    have shown : alternate r.inForce 16 (r.conversion = .X) = bytes (if r.conversion = .X then "0X" else "0x") := by
      unfold alternate
      rw [if_pos hash,if_pos rfl]
      simp
    rw [shown]
    cases conversion : r.conversion with
    | x => exact ⟨ch 'x',by decide,rfl,by simp [Conversion.lead,hash]; rfl⟩
    | X => exact ⟨ch 'X',by decide,rfl,by simp [Conversion.lead,hash]; rfl⟩
    | _ =>
      rw [conversion] at hex
      cases hex
  have plain : ¬(r.conversion = .o ∧ r.inForce.hash = true) := fun octal => by
    rw [octal.1] at hex
    cases hex
  have unsigned : ¬r.conversion.signed = true := fun signed => by
    have decimal := signed_base signed
    omega
  rw [Request.emitted,if_neg unsigned,hex,written,Request.prescribed,lead,digits_plain plain,hex]
  by_cases zero : r.value value = 0
  · rw [if_neg (by simpa using zero),zero]
    constructor
    · intro same
      rw [Int.natAbs_zero,numeral_zero,atLeast,List.append_nil] at same
      exact absurd same (prefixed_zero (List.mem_cons_of_mem _ List.mem_cons_self) letter)
    · exact fun conforms => absurd zero (conforms.nonzero hash hex)
  · rw [if_pos zero,unsignedField_eq_iff letter.1]
    constructor
    · intro fits
      have narrow : r.zeroed → r.fieldWidth ≤ r.columns value := by
        rw [Request.columns,lead,if_pos zero,digits_plain plain,hex]
        exact fits
      exact ⟨fun zeroed _ => narrow zeroed,fun _ _ => zero,fun _ _ => narrow,fun _ octal => absurd ⟨octal,hash⟩ plain⟩
    · intro conforms zeroed
      have narrow := conforms.hex hash hex zeroed
      rw [Request.columns,lead,if_pos zero,digits_plain plain,hex] at narrow
      exact narrow

theorem emitted_iff : r.emitted value = r.prescribed value ↔ Conforms r value := by
  by_cases signed : r.conversion.signed = true
  · exact conforms_signed signed
  by_cases hash : r.inForce.hash = true
  · cases conversion : r.conversion with
    | d => rw [conversion] at signed; exact absurd rfl signed
    | i => rw [conversion] at signed; exact absurd rfl signed
    | u => exact conforms_bare (by rw [conversion]; rfl) (fun _ => conversion)
    | o => exact conforms_octal conversion hash
    | x => exact conforms_hex (by rw [conversion]; rfl) hash
    | X => exact conforms_hex (by rw [conversion]; rfl) hash
  · exact conforms_bare (by simpa using signed) (fun shown => absurd shown hash)

end

/-- `svprintf` emits what the standard prescribes exactly where it conforms. -/
theorem svprintf_conforms_iff {value : Arg} (formed : Formed r value) (more : List Arg) (s : Streams) :
    svprintf (ch '%' :: (r.text ++ [0])) (r.arguments value ++ more) s =
      .ok ({ s with serial := s.serial ++ r.prescribed value },more) ↔ Conforms r value := by
  have printed : svprintf (ch '%' :: (r.text ++ [0])) (r.arguments value ++ more) s =
      .ok ({ s with serial := s.serial ++ r.emitted value },more) := by
    refine (vprintf_text serial_putchar formed more s _).trans ?_
    rw [← serial_print_eq]
    rfl
  rw [printed,← emitted_iff]
  constructor
  · intro same
    have streams := (Prod.mk.inj (Except.ok.inj same)).1
    exact List.append_cancel_left (congrArg Streams.serial streams)
  · intro same
    rw [same]

/-- `%+-*.3ld` with the width 8 -/
def leftAdjusted : Request := ⟨[.plus,.minus],.star 8,some (.literal [3]),.l,.d⟩

theorem leftAdjusted_formed : Formed leftAdjusted (.long (-42)) := by
  refine ⟨?_,by decide,?_,rfl⟩
  · rintro digits ⟨⟩
  · rintro amount ⟨⟩
    decide

theorem svprintf_conforms_iff_left : Conforms leftAdjusted (.long (-42)) ∧
    svprintf (bytes "%+-*.3ld" ++ [0]) [.int 8,.long (-42)] ⟨[],bytes "x = "⟩ = .ok (⟨[],bytes "x = -042    "⟩,[]) := by
  have plain : leftAdjusted.inForce.hash = false := by decide
  have conforms : Conforms leftAdjusted (.long (-42)) := by
    refine ⟨fun zeroed => ?_,?_,?_,?_⟩
    · exact absurd zeroed (by simp [Request.zeroed,Request.inForce,leftAdjusted])
    all_goals simp [plain]
  have printed := (svprintf_conforms_iff leftAdjusted_formed [] ⟨[],bytes "x = "⟩).mpr conforms
  have text : ch '%' :: (leftAdjusted.text ++ [0]) = bytes "%+-*.3ld" ++ [0] := by decide
  have prescribed : bytes "x = " ++ leftAdjusted.prescribed (.long (-42)) = bytes "x = -042    " := by decide
  rw [text,prescribed] at printed
  exact ⟨conforms,printed⟩

/-- `%#06x` -/
def zeroPadded : Request := ⟨[.hash,.zero],.literal [6],none,.default,.x⟩

theorem zeroPadded_formed : Formed zeroPadded (.int 1) := by
  refine ⟨?_,by decide,?_,rfl⟩
  · rintro digits ⟨⟩
    decide
  · rintro amount ⟨⟩

/-- The zeros stand before the `0x`. -/
theorem svprintf_deviates : Formed zeroPadded (.int 1) ∧ ch '%' :: (zeroPadded.text ++ [0]) = bytes "%#06x" ++ [0] ∧
    zeroPadded.arguments (.int 1) = [.int 1] ∧ zeroPadded.prescribed (.int 1) = bytes "0x0001" ∧
    svprintf (bytes "%#06x" ++ [0]) [.int 1] ⟨[],[]⟩ = .ok (⟨[],bytes "0000x1"⟩,[]) :=
  ⟨zeroPadded_formed,by decide,rfl,by decide,by decide⟩

end

end NekoOs.Conversions
