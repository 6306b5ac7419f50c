import NekoOs.Klog

/-!
Where the formatters stop reading. The loop moves past the conversion of a
directive without looking at it, so a directive that the NUL cuts off takes the
loop past the end of the format.
-/
namespace NekoOs.FormatEnd
open Printf Klog

/-- A string up to its first NUL. -/
def Terminated (p : List UInt8) : Prop := ∃ text, p = text ++ [0] ∧ 0 ∉ text

section
variable {σ : Type} (putchar : σ → UInt8 → σ)

/-- Whether `vprintf` reads a character of the format that is not there. A `va_arg` without its argument and a
    string without an end stop the execution before that. -/
def overruns : (fuel : Nat) → (p : List UInt8) → List Arg → σ → Bool
  | 0, _, _, _ => false
  | _+1, [], _, _ => true
  | fuel+1, c :: p, args, s =>
    if c = 0 then false
    else if c ≠ ch '%' then overruns fuel p args (putchar s c)
    else
      match parseDirective args p with
      | .error fault => fault = .outside
      | .ok (_,_,[]) => true
      | .ok (d,args,c :: p) =>
        match convert putchar d c args s with
        | .error _ => false
        | .ok (s,args) => overruns fuel p args s

end

/-- `svprintf` and `cvprintf` read nothing beyond the end of the format, whatever the arguments are. -/
def StaysInside (fmt : List UInt8) : Prop := ∀ args s,
  overruns serial_putchar (fmt.length + 1) fmt args s = false ∧ overruns console_putchar (fmt.length + 1) fmt args s = false

/-! ### What is left of a terminated string -/

theorem Terminated.nul {p : List UInt8} (terminated : Terminated p) : 0 ∈ p := by
  obtain ⟨text,rfl,_⟩ := terminated
  simp

theorem Terminated.suffix {p q : List UInt8} (terminated : Terminated p) (suffix : q <:+ p) (nul : 0 ∈ q) :
    Terminated q := by
  obtain ⟨text,rfl,clean⟩ := terminated
  obtain ⟨first,whole⟩ := suffix
  have some : q ≠ [] := List.ne_nil_of_mem nul
  have split : first ++ q.dropLast ++ [q.getLast some] = text ++ [0] := by
    rw [List.append_assoc,List.dropLast_concat_getLast some,whole]
  obtain ⟨same,last⟩ := List.append_inj' split rfl
  refine ⟨q.dropLast,?_,fun inside => clean (same ▸ List.mem_append_right first inside)⟩
  rw [← List.singleton_inj.mp last,List.dropLast_concat_getLast some]

theorem Terminated.cons {c : UInt8} {p : List UInt8} (terminated : Terminated (c :: p)) (other : c ≠ 0) : Terminated p :=
  terminated.suffix (List.suffix_cons c p) ((List.mem_cons.mp terminated.nul).resolve_left (Ne.symm other))

/-- Nothing follows the NUL. -/
theorem Terminated.last {p : List UInt8} (terminated : Terminated (0 :: p)) : p = [] := by
  obtain ⟨text,whole,clean⟩ := terminated
  cases text with
  | nil => exact (List.cons.inj whole).2
  | cons c text =>
    obtain rfl := (List.cons.inj whole).1
    exact absurd List.mem_cons_self clean

/-- The conversion of a directive and what follows it. -/
def conversion (p : List UInt8) : List UInt8 := (afterLength (afterPrecision (afterNumber (p.dropWhile isFlag)).2).2).2

theorem afterNumber_suffix (p : List UInt8) : (afterNumber p).2 <:+ p := by
  unfold afterNumber
  split
  · exact List.tail_suffix p
  · exact List.dropWhile_suffix isDigit

theorem afterPrecision_suffix (p : List UInt8) : (afterPrecision p).2 <:+ p := by
  unfold afterPrecision
  split
  · exact (afterNumber_suffix p.tail).trans (List.tail_suffix p)
  · exact List.suffix_refl p

theorem afterLength_suffix (p : List UInt8) : (afterLength p).2 <:+ p := by
  have twice : p.tail.tail <:+ p := (List.tail_suffix p.tail).trans (List.tail_suffix p)
  unfold afterLength
  split
  · dsimp only
    split
    · exact twice
    · exact List.tail_suffix p
  split
  · dsimp only
    split
    · exact twice
    · exact List.tail_suffix p
  split
  · exact List.tail_suffix p
  · exact List.suffix_refl p

theorem conversion_suffix (p : List UInt8) : conversion p <:+ p :=
  (afterLength_suffix _).trans ((afterPrecision_suffix _).trans ((afterNumber_suffix _).trans
    (List.dropWhile_suffix isFlag)))

theorem nul_conversion {p : List UInt8} (nul : 0 ∈ p) : 0 ∈ conversion p := by
  have nul := nul_afterPrecision (nul_afterNumber (mem_dropWhile (f := isFlag) nul (by decide)))
  obtain ⟨_,_,_,left⟩ := parseLength_done nul
  exact left

/-! ### No part of the parser reads past a NUL -/

section
variable {args : List Arg} {p : List UInt8}

/-- A directive of a terminated string is parsed up to its conversion, unless it takes an argument that is not there. -/
theorem parseDirective_cases (args : List Arg) (nul : 0 ∈ p) : parseDirective args p = .error .argument ∨
    ∃ d rest, parseDirective args p = .ok (d,rest,conversion p) := by
  obtain ⟨flags,flagsParsed⟩ := parseFlags_done {} nul
  have nul := mem_dropWhile (f := isFlag) nul (by decide)
  rw [parseDirective,flagsParsed]
  show (parseWidth flags args _ >>= _) = _ ∨ ∃ d rest, (parseWidth flags args _ >>= _) = _
  rcases parseWidth_ends flags args nul with ⟨missing,_⟩ | ⟨flags',width,rest,widthParsed,_⟩
  · exact .inl (by rw [missing]; rfl)
  rw [widthParsed]
  show (parsePrecision rest _ >>= _) = _ ∨ ∃ d rest', (parsePrecision rest _ >>= _) = _
  have nul := nul_afterNumber nul
  rcases parsePrecision_ends rest nul with ⟨missing,_⟩ | ⟨precision,rest',precisionParsed,_⟩
  · exact .inl (by rw [missing]; rfl)
  obtain ⟨length,lengthParsed,_⟩ := parseLength_done (nul_afterPrecision nul)
  rw [precisionParsed]
  show (parseLength _ >>= _) = _ ∨ ∃ d rest'', (parseLength _ >>= _) = _
  rw [lengthParsed]
  exact .inr ⟨_,rest',rfl⟩

theorem conversion_complete {kinds : List Kind} {rest : List UInt8} (complete : directiveKinds p = some (kinds,rest)) :
    ∃ c, conversion p = c :: rest ∧ c ≠ 0 := by
  obtain ⟨_,_,c,rfl,rfl,left,other,_⟩ := directive_last complete
  exact ⟨c,left,other⟩

/-- A directive that is not complete is cut off by the NUL. -/
theorem conversion_cut (cut : directiveKinds p = none) (terminated : Terminated p) : conversion p = [0] := by
  have nul := nul_conversion terminated.nul
  have ends := terminated.suffix (conversion_suffix p) nul
  unfold directiveKinds at cut
  cases left : conversion p with
  | nil =>
    rw [left] at nul
    cases nul
  | cons c rest =>
    rw [conversion] at left
    simp only [left] at cut
    by_cases zero : c = 0
    · subst zero
      rw [conversion,left] at ends
      rw [ends.last]
    · rw [if_neg zero] at cut
      cases cut

end
/-! ### Complete and cut formats -/

section
variable {σ : Type} (putchar : σ → UInt8 → σ)

theorem complete_inside {fuel : Nat} {p : List UInt8} {kinds : List Kind} (complete : formatKinds fuel p = some kinds)
    (nul : 0 ∈ p) (args : List Arg) (s : σ) : overruns putchar fuel p args s = false := by
  induction fuel generalizing p kinds args s with
  | zero => rfl
  | succ fuel ih =>
    cases p with
    | nil => cases nul
    | cons c p =>
      rw [formatKinds] at complete
      rw [overruns]
      by_cases zero : c = 0
      · rw [if_pos zero]
      have later : 0 ∈ p := (List.mem_cons.mp nul).resolve_left (Ne.symm zero)
      rw [if_neg zero] at complete ⊢
      by_cases plain : c ≠ ch '%'
      · rw [if_pos plain] at complete ⊢
        exact ih complete later args (putchar s c)
      rw [if_neg plain] at complete ⊢
      cases directive : directiveKinds p with
      | none =>
        rw [directive] at complete
        cases complete
      | some taken =>
        obtain ⟨kinds',rest⟩ := taken
        rw [directive] at complete
        obtain ⟨kinds'',onward,_⟩ := Option.map_eq_some_iff.mp complete
        obtain ⟨c,left,other⟩ := conversion_complete directive
        have nul := nul_conversion later
        rw [left] at nul
        have nul : 0 ∈ rest := (List.mem_cons.mp nul).resolve_left (Ne.symm other)
        rcases parseDirective_cases args later with missing | ⟨d,args',parsed⟩
        · rw [missing]
          rfl
        rw [parsed,left]
        show (match convert putchar d c args' s with
          | .error _ => false
          | .ok (s,args) => overruns putchar fuel rest args s) = false
        cases convert putchar d c args' s with
        | error fault => rfl
        | ok result => exact ih onward nul result.2 result.1

/-- Some argument of a kind. -/
def sample : Kind → Arg
  | .int => .int 0
  | .long => .long 0
  | .pointer => .pointer 0
  | .string => .string none

theorem matching_samples (kinds : List Kind) {args : List Arg} (strings : ∀ str, .string (some str) ∈ args → 0 ∈ str) :
    Matching kinds (kinds.map sample ++ args) := by
  have same : (kinds.map sample).map kind = kinds := by
    rw [List.map_map]
    exact List.map_id'' (fun k => by cases k <;> rfl) kinds
  refine ⟨?_,fun str member => ?_⟩
  · rw [List.map_append,same]
    exact List.prefix_append _ _
  · rcases List.mem_append.mp member with sampled | given
    · obtain ⟨k,_,found⟩ := List.mem_map.mp sampled
      cases k <;> cases found
    · exact strings str given

/-- The arguments that are left after the samples have been taken. -/
theorem takes_samples {kinds : List Kind} {args rest : List Arg} (taken : Takes kinds (kinds.map sample ++ args) rest) :
    rest = args := by
  have length : rest.length = args.length := by
    have same := congrArg List.length taken.kinds
    simp only [List.length_map,List.length_append] at same
    omega
  obtain ⟨first,whole⟩ := taken.left
  exact (List.append_inj' whole length).2

/-- A directive that is cut off is parsed up to the NUL. -/
theorem cut_directive {p : List UInt8} (cut : directiveKinds p = none) (terminated : Terminated p) :
    ∃ args d rest, (∀ str, .string (some str) ∈ args → 0 ∈ str) ∧ parseDirective args p = .ok (d,rest,[0]) := by
  let taken := (afterNumber (p.dropWhile isFlag)).1 ++ (afterPrecision (afterNumber (p.dropWhile isFlag)).2).1 ++ []
  have fits : Matching taken (taken.map sample ++ []) := matching_samples taken (by simp)
  obtain ⟨d,rest,parsed,_⟩ := parseDirective_done terminated.nul rfl rfl fits
  have left := conversion_cut cut terminated
  rw [conversion] at left
  rw [left] at parsed
  exact ⟨_,d,rest,fits.strings,parsed⟩

/-- A complete directive takes the samples of its kinds. -/
theorem sampled_directive {p rest : List UInt8} {kinds : List Kind} (complete : directiveKinds p = some (kinds,rest))
    (nul : 0 ∈ p) {args : List Arg} (strings : ∀ str, .string (some str) ∈ args → 0 ∈ str) :
    ∃ d c args', parseDirective (kinds.map sample ++ args) p = .ok (d,args',c :: rest) ∧
      ∀ s, ∃ s', convert putchar d c args' s = .ok (s',args) := by
  obtain ⟨width,precision,c,w,pr,left,_,whole⟩ := directive_last complete
  have fits := matching_samples kinds strings
  rw [whole] at fits
  obtain ⟨d,args',parsed,taken,wide,_⟩ := parseDirective_done nul w pr fits
  rw [left,← whole] at parsed
  refine ⟨d,c,args',parsed,fun s => ?_⟩
  have onward := fits.after taken
  rw [← wide] at onward
  obtain ⟨s',args'',converted,taken'⟩ := convert_done putchar d c s onward
  rw [wide] at taken'
  obtain rfl := takes_samples (taken.trans taken')
  exact ⟨s',converted⟩

/-- If a directive is cut off, some arguments take the loop there and past the end. -/
theorem cut_overruns {fuel : Nat} {p : List UInt8} (cut : formatKinds fuel p = none) (enough : p.length < fuel)
    (terminated : Terminated p) : ∃ args : List Arg, (∀ str, .string (some str) ∈ args → 0 ∈ str) ∧
      ∀ s, overruns putchar fuel p args s = true := by
  induction fuel generalizing p with
  | zero => cases enough
  | succ fuel ih =>
    cases p with
    | nil => cases terminated.nul
    | cons c p =>
      rw [formatKinds] at cut
      rw [List.length_cons] at enough
      by_cases zero : c = 0
      · rw [if_pos zero] at cut
        cases cut
      rw [if_neg zero] at cut
      have later := terminated.cons zero
      by_cases plain : c ≠ ch '%'
      · rw [if_pos plain] at cut
        obtain ⟨args,strings,past⟩ := ih cut (by omega) later
        refine ⟨args,strings,fun s => ?_⟩
        rw [overruns,if_neg zero,if_pos plain]
        exact past (putchar s c)
      rw [if_neg plain] at cut
      cases directive : directiveKinds p with
      | none =>
        obtain ⟨args,d,rest,strings,parsed⟩ := cut_directive directive later
        obtain ⟨fuel,rfl⟩ : ∃ k, fuel = k + 1 := ⟨fuel - 1,by
          have some := List.length_pos_of_mem later.nul
          omega⟩
        refine ⟨args,strings,fun s => ?_⟩
        rw [overruns,if_neg zero,if_neg plain,parsed]
        rfl
      | some taken =>
        obtain ⟨kinds,rest⟩ := taken
        rw [directive] at cut
        obtain ⟨c',left,other⟩ := conversion_complete directive
        have suffix := conversion_suffix p
        have nul := nul_conversion later.nul
        rw [left] at suffix nul
        have shorter := suffix.length_le
        rw [List.length_cons] at shorter
        obtain ⟨args,strings,past⟩ := ih (Option.map_eq_none_iff.mp cut) (by omega) ((later.suffix suffix nul).cons other)
        obtain ⟨d,c'',args',parsed,converts⟩ := sampled_directive putchar directive later.nul strings
        refine ⟨kinds.map sample ++ args,(matching_samples kinds strings).strings,fun s => ?_⟩
        obtain ⟨s',converted⟩ := converts s
        rw [overruns,if_neg zero,if_neg plain,parsed]
        simp only [converted]
        exact past s'

/-- What overruns the format has no result. -/
theorem overruns_outside {fuel : Nat} {p : List UInt8} {args : List Arg} {s : σ}
    (past : overruns putchar fuel p args s = true) : vprintf putchar fuel p args s = .error .outside := by
  induction fuel generalizing p args s with
  | zero => cases past
  | succ fuel ih =>
    cases p with
    | nil => rfl
    | cons c p =>
      rw [overruns] at past
      rw [vprintf]
      show (if c = 0 then _ else _) = _
      by_cases zero : c = 0
      · rw [if_pos zero] at past
        cases past
      rw [if_neg zero] at past ⊢
      by_cases plain : c ≠ ch '%'
      · rw [if_pos plain] at past ⊢
        exact ih past
      rw [if_neg plain] at past ⊢
      show (parseDirective args p >>= _) = _
      cases parsed : parseDirective args p with
      | error fault =>
        rw [parsed] at past
        rw [of_decide_eq_true past]
        rfl
      | ok result =>
        obtain ⟨d,args',left⟩ := result
        cases left with
        | nil => rfl
        | cons c' rest =>
          rw [parsed] at past
          show (convert putchar d c' args' s >>= _) = _
          cases converted : convert putchar d c' args' s with
          | error fault =>
            simp only [converted] at past
            cases past
          | ok result =>
            simp only [converted] at past
            exact ih past

end

/-- For every NUL-terminated format, neither formatter reads past its end, for any arguments, if and only if the NUL
    cuts off none of its directives. -/
theorem stays_inside_iff {text : List UInt8} (clean : 0 ∉ text) :
    StaysInside (text ++ [0]) ↔ ∃ kinds, Complete (text ++ [0]) kinds := by
  have terminated : Terminated (text ++ [0]) := ⟨text,rfl,clean⟩
  constructor
  · intro inside
    cases complete : formatKinds ((text ++ [0]).length + 1) (text ++ [0]) with
    | some kinds => exact ⟨kinds,terminated.nul,complete⟩
    | none =>
      obtain ⟨args,_,past⟩ := cut_overruns serial_putchar complete (Nat.lt_succ_self _) terminated
      have within := (inside args ⟨[],[]⟩).1
      rw [past] at within
      cases within
  · rintro ⟨kinds,nul,complete⟩ args s
    exact ⟨complete_inside _ complete nul args s,complete_inside _ complete nul args s⟩

theorem stays_inside_signature : 0 ∉ bytes "%.4s" ∧ StaysInside (bytes "%.4s" ++ [0]) :=
  ⟨by decide,(stays_inside_iff (by decide)).mpr ⟨[.string],by decide,by decide⟩⟩

/-- A lone `%` at the end takes the loop past it, and a directive cut off after its flags, width, precision or length
    modifier does too. -/
theorem lone_percent_overruns : (∀ text ∈ ["%","%-","%8","%.3","%l"], 0 ∉ bytes text ∧
      overruns serial_putchar ((bytes text ++ [0]).length + 1) (bytes text ++ [0]) [] ⟨[],[]⟩ = true) ∧
    ¬∀ text, 0 ∉ text → StaysInside (text ++ [0]) := by
  have cut : ∀ text ∈ ["%","%-","%8","%.3","%l"], 0 ∉ bytes text ∧
      overruns serial_putchar ((bytes text ++ [0]).length + 1) (bytes text ++ [0]) [] ⟨[],[]⟩ = true := by decide
  refine ⟨cut,fun inside => ?_⟩
  obtain ⟨clean,past⟩ := cut "%" (by decide)
  have within := (inside (bytes "%") clean [] ⟨[],[]⟩).1
  rw [past] at within
  cases within

end NekoOs.FormatEnd
