import NekoOs.Conversions

/-!
The field of a directive: its content, which does not depend on the width, and
the padding. The five places of `svprintf` that pad agree on how much.
-/
namespace NekoOs.Fields
open Printf Klog Conversions

/-- A format of one directive prints what its conversion does. -/
theorem vprintf_spec {σ : Type} (put : σ → UInt8 → σ) {r : Spec} (letter : r.conversion ∈ letters)
    (first : ∀ digits, r.width = .literal digits → digits.head? ≠ some 0) (value : Arg) (more : List Arg) (s : σ)
    (fuel : Nat) : vprintf put (fuel + 2) (ch '%' :: (r.text ++ [0])) (r.arguments value ++ more) s =
      convert put r.directive r.conversion (value :: more) s := by
  rw [vprintf]
  show (parseDirective (r.arguments value ++ more) (r.text ++ [0]) >>= _) = _
  rw [parseDirective_spec letter first]
  show (convert put r.directive r.conversion (value :: more) s >>= _) = _
  cases convert put r.directive r.conversion (value :: more) s <;> rfl

/-! ### The length of a string -/

/-- With a precision, the loop stops at a NUL before it or at the byte behind the last one, which it reads. -/
theorem measure_limit (N len : Nat) (str : List UInt8) (before : len ≤ N) : Printf.measure N len str =
    if 0 ∈ str.take (N - len) ∨ N - len < str.length then .ok ((str.take (N - len)).takeWhile (· ≠ 0))
    else .error .outside := by
  induction str generalizing len with
  | nil => simp [Printf.measure]
  | cons c str ih =>
    rw [Printf.measure]
    rcases Nat.lt_or_eq_of_le before with more | rfl
    · obtain ⟨k,left⟩ : ∃ k, N - len = k + 1 := ⟨N - len - 1,by omega⟩
      have left' : N - (len + 1) = k := by omega
      rw [left,List.take_succ_cons]
      by_cases nul : c = 0
      · rw [if_neg (fun goesOn => goesOn.1 nul),if_pos (.inl (by simp [nul]))]
        simp [nul]
      · have onward := ih (len + 1) (by omega)
        rw [left'] at onward
        rw [if_pos ⟨nul,.inr (by omega)⟩]
        push_cast at onward
        rw [onward]
        have same : (0 ∈ c :: str.take k ∨ k + 1 < (c :: str).length) ↔ 0 ∈ str.take k ∨ k < str.length := by
          simp [Ne.symm nul]
        simp only [same]
        by_cases readable : 0 ∈ str.take k ∨ k < str.length
        · rw [if_pos readable,if_pos readable]
          simp [nul]
          rfl
        · rw [if_neg readable,if_neg readable]
          rfl
    · rw [Nat.sub_self,if_neg (by omega),if_pos (.inr (by simp))]
      rfl

/-- Characters and the spaces before or behind them. -/
def spaced (minus : Bool) (width : Int) (chars : List UInt8) : List UInt8 :=
  if minus then chars ++ spaces (width - chars.length).toNat else spaces (width - chars.length).toNat ++ chars

/-- The characters of a string and spaces, up to the width as an `int` holds it. -/
def padded (r : Spec) (chars : List UInt8) : List UInt8 := spaced r.directive.flags.minus r.directive.width chars

section
variable {σ : Type} (put : σ → UInt8 → σ)

theorem putSpaced (minus : Bool) (width : Int) (chars : List UInt8) (s : σ) :
    onlyIf minus (putPadding put (ch ' ') width chars.length) (print put chars
      (onlyIf (!minus) (putPadding put (ch ' ') width chars.length) s)) = print put (spaced minus width chars) s := by
  rw [onlyIf_eq put minus (fun s => putPadding_eq put (ch ' ') width _ s),
    onlyIf_eq put (!minus) (fun s => putPadding_eq put (ch ' ') width _ s)]
  simp only [← print_append]
  unfold spaced spaces
  cases minus <;> simp

theorem convert_string (d : Directive) (str : Option (List UInt8)) {chars : List UInt8}
    (measured : Printf.measure d.precision 0 (str.getD (bytes "(null)" ++ [0])) = .ok chars) (more : List Arg) (s : σ) :
    convert put d (ch 's') (.string str :: more) s = .ok (print put (spaced d.flags.minus d.width chars) s,more) := by
  show (Printf.measure d.precision 0 (str.getD (bytes "(null)" ++ [0])) >>= _) = _
  rw [measured,← putSpaced]
  rfl

end
/-- `%s` with the precision `N`. -/
structure Bounded (r : Spec) (N : Nat) : Prop where
  conversion : r.conversion = ch 's'
  width : ∀ digits, r.width = .literal digits → digits.head? ≠ some 0
  precision : ∃ amount, r.precision = some amount ∧ amount.value = N
  /-- the precision is an `int` -/
  int : N < 2 ^ 31

theorem Bounded.precision_eq {r : Spec} {N : Nat} (bounded : Bounded r N) : r.directive.precision = N := by
  obtain ⟨amount,written,means⟩ := bounded.precision
  have int := bounded.int
  show r.precision.elim (-1) (fun amount => int32 amount.value) = N
  rw [written,Option.elim_some,means,int32_id (by omega) (by omega)]

/-- Of an array with a byte behind the first `N`, or with a NUL among them, the bytes up to the NUL are printed. -/
theorem vprintf_bounded {σ : Type} (put : σ → UInt8 → σ) {r : Spec} {N : Nat} (bounded : Bounded r N) (str : List UInt8)
    (more : List Arg) (s : σ) (fuel : Nat) :
    vprintf put (fuel + 2) (ch '%' :: (r.text ++ [0])) (r.arguments (.string (some str)) ++ more) s =
      if 0 ∈ str.take N ∨ N < str.length then .ok (print put (padded r ((str.take N).takeWhile (· ≠ 0))) s,more)
      else .error .outside := by
  have letter : r.conversion ∈ letters := by rw [bounded.conversion]; decide
  have measured : Printf.measure r.directive.precision 0 str =
      if 0 ∈ str.take N ∨ N < str.length then .ok ((str.take N).takeWhile (· ≠ 0)) else .error .outside := by
    rw [bounded.precision_eq]
    exact measure_limit N 0 str (Nat.zero_le N)
  rw [vprintf_spec put letter bounded.width,bounded.conversion]
  by_cases readable : 0 ∈ str.take N ∨ N < str.length
  · rw [if_pos readable] at measured ⊢
    rw [padded]
    exact convert_string put r.directive (some str) measured more s
  · rw [if_neg readable] at measured ⊢
    show (Printf.measure r.directive.precision 0 str >>= _) = _
    rw [measured]
    rfl

/-- What `svprintf` and `cvprintf` print of an array of which only the first `N` bytes can be read. -/
def PrintsBounded (r : Spec) (N : Nat) (str : List UInt8) : Prop := ∀ (more : List Arg) (s : Streams),
  let array : Arg := .string (some (str.take N))
  let output := padded r ((str.take N).takeWhile (· ≠ 0))
  svprintf (ch '%' :: (r.text ++ [0])) (r.arguments array ++ more) s =
      .ok ({ s with serial := s.serial ++ output },more) ∧
    cvprintf (ch '%' :: (r.text ++ [0])) (r.arguments array ++ more) s =
      .ok ({ s with console := s.console ++ output },more)

/-- For every array, width, set of flags and precision `N`, the directive makes do with the first `N` bytes of the array
    if and only if there is a NUL among them: otherwise it reads one byte more. -/
theorem string_precision_iff {r : Spec} {N : Nat} (bounded : Bounded r N) (str : List UInt8) :
    PrintsBounded r N str ↔ 0 ∈ str.take N := by
  have short : ¬N < (str.take N).length := by rw [List.length_take]; omega
  have take : (str.take N).take N = str.take N := by rw [List.take_take,Nat.min_self]
  have runs {σ : Type} (put : σ → UInt8 → σ) (more : List Arg) (s : σ) (fuel : Nat) := vprintf_bounded put bounded
    (str.take N) more s fuel
  simp only [take,short,or_false] at runs
  constructor
  · intro prints
    by_contra none
    have printed := (prints [] ⟨[],[]⟩).1
    have faulted := runs serial_putchar [] ⟨[],[]⟩ (r.text.length + 1)
    rw [if_neg none] at faulted
    have same : (ch '%' :: (r.text ++ [0])).length + 1 = r.text.length + 1 + 2 := by simp
    rw [svprintf,same,faulted] at printed
    cases printed
  · intro nul more s
    have same : (ch '%' :: (r.text ++ [0])).length + 1 = r.text.length + 1 + 2 := by simp
    show svprintf _ (r.arguments (.string (some (str.take N))) ++ more) s = _ ∧
      cvprintf _ (r.arguments (.string (some (str.take N))) ++ more) s = _
    rw [svprintf,cvprintf,same,runs,runs,if_pos nul,if_pos nul]
    rw [show print console_putchar = console_print from rfl,console_print_eq]
    rw [show print serial_putchar = serial_print from rfl,serial_print_eq]
    exact ⟨rfl,rfl⟩

private theorem four_digit : 4 < 10 := by decide

/-- `%.4s`, with which `acpi_parse_tables` prints signatures -/
def signature : Spec := ⟨[],.literal [],some (.literal [⟨4,four_digit⟩]),.default,ch 's'⟩

theorem signature_bounded : Bounded signature 4 := by
  refine ⟨rfl,?_,⟨_,rfl,rfl⟩,by decide⟩
  rintro digits ⟨⟩
  decide

theorem string_precision_iff_nul : PrintsBounded signature 4 [65,66,0,68] :=
  (string_precision_iff signature_bounded [65,66,0,68]).mpr (by decide)

/-- The four bytes of a signature are not enough for `%.4s`: it reads a fifth, which it does not print. -/
theorem signature_overread : ch '%' :: (signature.text ++ [0]) = bytes "%.4s" ++ [0] ∧
    svprintf (bytes "%.4s" ++ [0]) [.string (some (bytes "APIC"))] ⟨[],[]⟩ = .error .outside ∧
    svprintf (bytes "%.4s" ++ [0]) [.string (some (bytes "APIC" ++ [67]))] ⟨[],[]⟩ = .ok (⟨[],bytes "APIC"⟩,[]) ∧
    ¬PrintsBounded signature 4 (bytes "APIC") := by
  have faulted : svprintf (bytes "%.4s" ++ [0]) [.string (some (bytes "APIC"))] ⟨[],[]⟩ = .error .outside := by decide
  refine ⟨by decide,faulted,by decide,fun prints => ?_⟩
  have printed := (prints [] ⟨[],[]⟩).1
  have run : svprintf (ch '%' :: (signature.text ++ [0])) (signature.arguments (.string (some ((bytes "APIC").take 4))) ++ [])
    ⟨[],[]⟩ = .error .outside := faulted
  rw [run] at printed
  cases printed

/-! ### Content and padding -/

/-- A content with the width's padding: spaces behind it, or some character at one place before its end. -/
def Field (minus : Bool) (width : Nat) (content out : List UInt8) : Prop :=
  if minus then out = content ++ spaces (width - content.length)
  else ∃ lead digits fill, content = lead ++ digits ∧
    out = lead ++ List.replicate (width - content.length) fill ++ digits

section
variable {minus : Bool} {width : Nat} {content out : List UInt8}

theorem Field.length (field : Field minus width content out) : out.length = max width content.length := by
  unfold Field at field
  cases minus with
  | true =>
    rw [if_pos rfl] at field
    rw [field,List.length_append,spaces,List.length_replicate]
    omega
  | false =>
    rw [if_neg Bool.false_ne_true] at field
    obtain ⟨lead,digits,fill,rfl,rfl⟩ := field
    simp only [List.length_append,List.length_replicate]
    omega

theorem Field.left (field : Field true width content out) : out = content ++ spaces (width - content.length) := field

/-- Without a width there is no padding. -/
theorem Field.zero (field : Field minus 0 content out) : out = content := by
  unfold Field at field
  cases minus with
  | true => simpa [spaces] using field
  | false =>
    rw [if_neg Bool.false_ne_true] at field
    obtain ⟨lead,digits,fill,rfl,rfl⟩ := field
    simp

theorem field_spaced (minus : Bool) (width : Nat) (chars : List UInt8) :
    Field minus width chars (spaced minus width chars) := by
  have padding : ((width : Int) - chars.length).toNat = width - chars.length := by omega
  unfold Field spaced
  rw [padding]
  cases minus with
  | true => rfl
  | false => exact ⟨[],chars,ch ' ',rfl,rfl⟩

theorem field_number (flags : Flags) (width : Nat) (precision : Option Nat) (lead digits : List UInt8) :
    Field flags.minus width (lead ++ digits) (field flags width precision lead digits) := by
  unfold Field field
  rw [← List.length_append]
  cases flags.minus with
  | true => rfl
  | false =>
    by_cases zeroed : flags.zero = true ∧ precision = none
    · exact ⟨lead,digits,ch '0',rfl,by simp [zeroed,zeros]⟩
    · exact ⟨[],lead ++ digits,ch ' ',rfl,by simp [zeroed,spaces]⟩

theorem field_unsigned (flags : Flags) (width : Nat) (lead digits : List UInt8) :
    Field flags.minus width (lead ++ digits) (unsignedField flags width lead digits) := by
  unfold Field unsignedField
  rw [← List.length_append]
  cases flags.minus with
  | true => rfl
  | false => exact ⟨[],lead ++ digits,if flags.zero then ch '0' else ch ' ',rfl,by cases flags.zero <;> simp [zeros,spaces]⟩

end

/-! ### The law -/

/-- An argument of the type that the conversion takes. A string has a NUL or is longer than the precision. -/
structure Suits (c : UInt8) (length : Length) (precision : Int) (value : Arg) : Prop where
  kinds : conversionKinds (wide length) c = [kind value]
  string : ∀ str, value = .string (some str) → 0 ∈ str ∨ 0 ≤ precision ∧ precision < str.length

theorem measure_suits {precision : Int} {str : List UInt8} (readable : 0 ∈ str ∨ 0 ≤ precision ∧ precision < str.length) :
    ∃ chars, Printf.measure precision 0 str = .ok chars := by
  rcases readable with nul | ⟨some,long⟩
  · exact measure_done precision 0 nul
  · obtain ⟨N,rfl⟩ := Int.eq_ofNat_of_zero_le some
    have measured := measure_limit N 0 str (Nat.zero_le N)
    rw [if_pos (.inr (by omega))] at measured
    exact ⟨_,measured⟩

section
variable {length : Length} {value : Arg} (same : kind value = if wide length then .long else .int) (more : List Arg)
include same

theorem vaSigned_one : ∃ v, vaSigned length (value :: more) = .ok (v,more) := by
  cases length <;> cases value <;> first | exact ⟨_,rfl⟩ | cases same

theorem vaUnsigned_one : ∃ v, vaUnsigned length (value :: more) = .ok (v,more) := by
  cases length <;> cases value <;> first | exact ⟨_,rfl⟩ | cases same

end
section
variable {σ : Type} (put : σ → UInt8 → σ) {length : Length} {precision : Int} {value : Arg} (more : List Arg)

/-- The directive with a width and with or without a `-`, of which all else is given. -/
def fielded (flags : Flags) (precision : Int) (length : Length) (width : Nat) (minus : Bool) : Directive :=
  ⟨{ flags with minus := minus },width,precision,length⟩

/-- The conversion prints one content in a field of any width. -/
def PrintsField (flags : Flags) (precision : Int) (length : Length) (c : UInt8) (value : Arg) (more : List Arg) : Prop :=
  ∃ content, ∀ (width : Nat) (minus : Bool), ∃ out, Field minus width content out ∧
    ∀ s, convert put (fielded flags precision length width minus) c (value :: more) s = .ok (print put out s,more)

variable (flags : Flags)

theorem field_c (suits : Suits (ch 'c') length precision value) :
    PrintsField put flags precision length (ch 'c') value more := by
  cases value with
  | int v =>
    refine ⟨[UInt8.ofBitVec (v.setWidth 8)],fun width minus => ⟨_,field_spaced minus width _,fun s => ?_⟩⟩
    rw [← putSpaced]
    rfl
  | _ => cases suits.kinds

theorem field_s (suits : Suits (ch 's') length precision value) :
    PrintsField put flags precision length (ch 's') value more := by
  cases value with
  | string str =>
    obtain ⟨chars,measured⟩ : ∃ chars, Printf.measure precision 0 (str.getD (bytes "(null)" ++ [0])) = .ok chars := by
      cases str with
      | none => exact measure_done precision 0 (by decide)
      | some str => exact measure_suits (suits.string str rfl)
    exact ⟨chars,fun width minus => ⟨_,field_spaced minus width chars,fun s => convert_string put _ str measured more s⟩⟩
  | _ => cases suits.kinds

variable (precise : precision < 2 ^ 30)
include precise

/-- `d` and `i` -/
theorem field_signed {c : UInt8} (signed : c = ch 'd' ∨ c = ch 'i') (suits : Suits c length precision value) :
    PrintsField put flags precision length c value more := by
  have same : kind value = if wide length then .long else .int := by
    have kinds := suits.kinds
    rcases signed with rfl | rfl <;> exact (List.singleton_inj.mp kinds).symm
  obtain ⟨v,taken⟩ := vaSigned_one same more
  refine ⟨Conversion.lead.signText flags v.toInt ++ atLeast ((given precision).getD 1) (numeral 10 false v.toInt.natAbs),
    fun width minus => ⟨_,field_number { flags with minus := minus } width none _ _,fun s => ?_⟩⟩
  have converted : convert put (fielded flags precision length width minus) c (value :: more) s =
      (vaSigned length (value :: more) >>= fun taken =>
        .ok (print_int put taken.1 width precision { flags with minus := minus } s,taken.2)) := by
    rcases signed with rfl | rfl <;> rfl
  rw [converted,taken]
  show Except.ok (print_int put v width precision { flags with minus := minus } s,more) = _
  rw [print_int_eq put v width precise]
  rfl

/-- `u`, `o`, `x` and `X` -/
theorem field_unsigned_number {c : UInt8} (unsigned : c = ch 'u' ∨ c = ch 'o' ∨ c = ch 'x' ∨ c = ch 'X')
    (suits : Suits c length precision value) : PrintsField put flags precision length c value more := by
  have same : kind value = if wide length then .long else .int := by
    have kinds := suits.kinds
    rcases unsigned with rfl | rfl | rfl | rfl <;> exact (List.singleton_inj.mp kinds).symm
  obtain ⟨v,taken⟩ := vaUnsigned_one same more
  obtain ⟨base,upper,large,converted⟩ : ∃ base upper, 1 < base ∧ ∀ width minus s,
      convert put (fielded flags precision length width minus) c (value :: more) s =
        (vaUnsigned length (value :: more) >>= fun taken =>
          .ok (print_uint put taken.1 base width precision { flags with minus := minus } upper s,taken.2)) := by
    rcases unsigned with rfl | rfl | rfl | rfl
    · exact ⟨10,false,by decide,fun _ _ _ => rfl⟩
    · exact ⟨8,false,by decide,fun _ _ _ => rfl⟩
    · exact ⟨16,false,by decide,fun _ _ _ => rfl⟩
    · exact ⟨16,true,by decide,fun _ _ _ => rfl⟩
  refine ⟨alternate flags base upper ++ atLeast ((given precision).getD 1) (numeral base upper v.toNat),
    fun width minus => ⟨_,field_unsigned { flags with minus := minus } width _ _,fun s => ?_⟩⟩
  rw [converted,taken]
  show Except.ok (print_uint put v base width precision { flags with minus := minus } upper s,more) = _
  rw [print_uint_eq put v large width precise]
  rfl

theorem field_p (suits : Suits (ch 'p') length precision value) :
    PrintsField put flags precision length (ch 'p') value more := by
  cases value with
  | pointer v =>
    refine ⟨alternate { flags with hash := true } 16 false ++ atLeast ((given precision).getD 1) (numeral 16 false v.toNat),
      fun width minus => ⟨_,field_unsigned { flags with hash := true, minus := minus } width _ _,fun s => ?_⟩⟩
    show Except.ok (print_uint put v 16 width precision { flags with hash := true, minus := minus } false s,more) = _
    rw [print_uint_eq put v (by decide) width precise]
    rfl
  | _ => cases suits.kinds

theorem convert_field {c : UInt8} (letter : c ∈ letters) (suits : Suits c length precision value) :
    PrintsField put flags precision length c value more := by
  have each : ∀ c ∈ letters, c = ch 'c' ∨ c = ch 's' ∨ (c = ch 'd' ∨ c = ch 'i') ∨
    (c = ch 'u' ∨ c = ch 'o' ∨ c = ch 'x' ∨ c = ch 'X') ∨ c = ch 'p' := by decide +kernel
  rcases each c letter with rfl | rfl | signed | unsigned | rfl
  · exact field_c put more flags suits
  · exact field_s put more flags suits
  · exact field_signed put more flags precise signed suits
  · exact field_unsigned_number put more flags precise unsigned suits
  · exact field_p put more flags precise suits

end

/-- The directive without a width. -/
def unpadded (r : Spec) : Spec := { r with width := .literal [] }

/-- A directive whose width and precision are below `2 ^ 30`. -/
structure Small (r : Spec) : Prop where
  letter : r.conversion ∈ letters
  first : ∀ digits, r.width = .literal digits → digits.head? ≠ some 0
  narrow : r.width.value.natAbs < 2 ^ 30
  precise : ∀ amount, r.precision = some amount → amount.value.natAbs < 2 ^ 30

theorem Small.precision {r : Spec} (small : Small r) : r.directive.precision < 2 ^ 30 := by
  show r.precision.elim (-1) (fun amount => int32 amount.value) < 2 ^ 30
  cases written : r.precision with
  | none => decide
  | some amount =>
    have precise := small.precise amount written
    rw [Option.elim_some,int32_id (by omega) (by omega)]
    omega

theorem Small.unpadded {r : Spec} (small : Small r) : Small (unpadded r) := by
  refine ⟨small.letter,?_,Nat.two_pow_pos 30,small.precise⟩
  rintro digits ⟨⟩
  decide

theorem Small.directive {r : Spec} (small : Small r) :
    r.directive = fielded r.inForce r.directive.precision r.length r.fieldWidth r.inForce.minus := by
  have narrow : r.fieldWidth < 2 ^ 30 := small.narrow
  have width : int32 r.fieldWidth = r.fieldWidth := int32_id (by omega) (by omega)
  rw [fielded,← width]
  rfl

theorem svprintf_spec {r : Spec} (small : Small r) (value : Arg) (more : List Arg) (s : Streams) :
    svprintf (ch '%' :: (r.text ++ [0])) (r.arguments value ++ more) s =
      convert serial_putchar r.directive r.conversion (value :: more) s := by
  have length : (ch '%' :: (r.text ++ [0])).length + 1 = r.text.length + 1 + 2 := by simp
  rw [svprintf,length]
  exact vprintf_spec serial_putchar small.letter small.first value more s _

/-- A directive fills its width, or what it prints without one if that is longer. With `-` the padding is spaces behind
    that. -/
theorem field_width_law {r : Spec} (small : Small r) {value : Arg}
    (suits : Suits r.conversion r.length r.directive.precision value) (more : List Arg) (s : Streams) :
    ∃ out content,
      svprintf (ch '%' :: (r.text ++ [0])) (r.arguments value ++ more) s =
        .ok ({ s with serial := s.serial ++ out },more) ∧
      svprintf (ch '%' :: ((unpadded r).text ++ [0])) ((unpadded r).arguments value ++ more) s =
        .ok ({ s with serial := s.serial ++ content },more) ∧
      out.length = max r.fieldWidth content.length ∧
      (r.inForce.minus = true → out = content ++ spaces (r.fieldWidth - content.length)) := by
  obtain ⟨content,prints⟩ := convert_field serial_putchar more r.inForce small.precision small.letter suits
  obtain ⟨out,field,printed⟩ := prints r.fieldWidth r.inForce.minus
  obtain ⟨plain,alone,printed'⟩ := prints 0 (unpadded r).inForce.minus
  obtain rfl := alone.zero
  have sent (out : List UInt8) : print serial_putchar out s = { s with serial := s.serial ++ out } := serial_print_eq out s
  refine ⟨out,plain,?_,?_,field.length,fun minus => ?_⟩
  · rw [svprintf_spec small,small.directive,printed,sent]
  · rw [svprintf_spec small.unpadded,small.unpadded.directive,← sent]
    exact printed' s
  · rw [minus] at field
    exact field.left

/-- `%#*x` with the width -6 -/
def leftHex : Spec := ⟨[.hash],.star (-6),none,.default,ch 'x'⟩

theorem field_width_law_hex : ∃ out content,
    svprintf (bytes "%#*x" ++ [0]) [.int (-6),.int 10] ⟨[],[]⟩ = .ok (⟨[],out⟩,[]) ∧
    svprintf (bytes "%#x" ++ [0]) [.int 10] ⟨[],[]⟩ = .ok (⟨[],content⟩,[]) ∧ out.length = max 6 content.length ∧
    out = content ++ spaces (6 - content.length) := by
  have small : Small leftHex := ⟨by decide,by rintro _ ⟨⟩,by decide,by rintro _ ⟨⟩⟩
  have suits : Suits leftHex.conversion leftHex.length leftHex.directive.precision (.int 10) := ⟨rfl,by rintro _ ⟨⟩⟩
  obtain ⟨out,content,padded,plain,length,left⟩ := field_width_law small suits [] ⟨[],[]⟩
  exact ⟨out,content,padded,plain,length,left rfl⟩

end NekoOs.Fields
