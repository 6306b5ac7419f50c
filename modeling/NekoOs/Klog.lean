import NekoOs.Printf
import Mathlib.Data.List.Basic

/-!
The console and the serial port get the same log. What a formatter sends does not
depend on the function that takes the characters.
-/
namespace NekoOs.Klog
open Printf

/-! ### Two devices -/

/-- Results with related devices and the same arguments left, or the same fault. -/
def Agree {σ τ : Type} (R : σ → τ → Prop) : Except Fault (σ × List Arg) → Except Fault (τ × List Arg) → Prop
  | .ok (s,args), .ok (t,args') => R s t ∧ args = args'
  | .error fault, .error fault' => fault = fault'
  | _, _ => False

theorem Agree.bind {α σ τ : Type} {R : σ → τ → Prop} (first : Except Fault α) {f : α → Except Fault (σ × List Arg)}
    {g : α → Except Fault (τ × List Arg)} (later : ∀ value, Agree R (f value) (g value)) :
    Agree R (first >>= f) (first >>= g) := by
  cases first with
  | error fault => exact rfl
  | ok value => exact later value

/-- The results of a loop's rounds agree if the rounds do. -/
theorem Agree.next {σ τ : Type} {R : σ → τ → Prop} {first : Except Fault (σ × List Arg)}
    {first' : Except Fault (τ × List Arg)} {f : σ × List Arg → Except Fault (σ × List Arg)}
    {g : τ × List Arg → Except Fault (τ × List Arg)} (agree : Agree R first first')
    (later : ∀ s t args, R s t → Agree R (f (s,args)) (g (t,args))) :
    Agree R (first >>= f) (first' >>= g) := by
  cases first with
  | error fault =>
    cases first' with
    | error fault' => exact agree
    | ok value => exact agree.elim
  | ok value =>
    cases first' with
    | error fault' => exact agree.elim
    | ok value' =>
      obtain ⟨s,args⟩ := value
      obtain ⟨t,args'⟩ := value'
      obtain ⟨related,rfl⟩ := agree
      exact later s t args related

section
variable {σ τ : Type} {put : σ → UInt8 → σ} {put' : τ → UInt8 → τ} {R : σ → τ → Prop}
  (step : ∀ s t c, R s t → R (put s c) (put' t c)) {s : σ} {t : τ}
include step

theorem putTimes_related (c : UInt8) (n : Nat) (related : R s t) : R (putTimes put c n s) (putTimes put' c n t) := by
  induction n generalizing s t with
  | zero => exact related
  | succ n ih => exact ih (step s t c related)

theorem putPadding_related (c : UInt8) (width count : Int) (related : R s t) :
    R (putPadding put c width count s) (putPadding put' c width count t) := putTimes_related step c _ related

theorem print_related (str : List UInt8) (related : R s t) : R (print put str s) (print put' str t) := by
  induction str generalizing s t with
  | nil => exact related
  | cons c str ih => exact ih (step s t c related)

omit step in
theorem onlyIf_related (cond : Bool) {f : σ → σ} {g : τ → τ} (both : ∀ s t, R s t → R (f s) (g t)) (related : R s t) :
    R (onlyIf cond f s) (onlyIf cond g t) := by
  unfold onlyIf
  cases cond with
  | true => exact both s t related
  | false => exact related

theorem putPrefix_related (base : Nat) (upper : Bool) (related : R s t) :
    R (putPrefix put base upper s) (putPrefix put' base upper t) := by
  unfold putPrefix
  by_cases hex : base = 16
  · rw [if_pos hex,if_pos hex]
    exact print_related step _ related
  · rw [if_neg hex,if_neg hex]
    by_cases octal : base = 8
    · rw [if_pos octal,if_pos octal]
      exact step s t _ related
    · rw [if_neg octal,if_neg octal]
      exact related

theorem print_uint_related (value : BitVec 64) (base : Nat) (width precision : Int) (flags : Flags) (upper : Bool)
    (related : R s t) : R (print_uint put value base width precision flags upper s)
      (print_uint put' value base width precision flags upper t) := by
  have padded (c : UInt8) (width count : Int) (s : σ) (t : τ) (related : R s t) :=
    putPadding_related step c width count related
  apply onlyIf_related _ (padded _ _ _)
  apply print_related step
  apply putPadding_related step
  apply onlyIf_related _ (fun s t related => putPrefix_related step base upper related)
  exact onlyIf_related _ (padded _ _ _) related

theorem putSign_related (neg : Bool) (flags : Flags) (related : R s t) :
    R (putSign put neg flags s) (putSign put' neg flags t) := by
  unfold putSign
  cases neg with
  | true => exact step s t _ related
  | false =>
    cases flags.plus with
    | true => exact step s t _ related
    | false =>
      cases flags.space with
      | true => exact step s t _ related
      | false => exact related

theorem print_int_related (value : BitVec 64) (width precision : Int) (flags : Flags) (related : R s t) :
    R (print_int put value width precision flags s) (print_int put' value width precision flags t) := by
  have padded (c : UInt8) (width count : Int) (s : σ) (t : τ) (related : R s t) :=
    putPadding_related step c width count related
  apply onlyIf_related _ (padded _ _ _)
  apply print_uint_related step
  apply onlyIf_related _ (padded _ _ _)
  apply putSign_related step
  exact onlyIf_related _ (padded _ _ _) related

theorem convert_related (d : Directive) (c : UInt8) (args : List Arg) (related : R s t) :
    Agree R (convert put d c args s) (convert put' d c args t) := by
  have padded (c : UInt8) (width count : Int) (s : σ) (t : τ) (related : R s t) :=
    putPadding_related step c width count related
  unfold convert
  by_cases char : c = ch 'c'
  · rw [if_pos char,if_pos char]
    refine .bind _ (fun value => ⟨?_,rfl⟩)
    apply onlyIf_related _ (padded _ _ _)
    apply step
    exact onlyIf_related _ (padded _ _ _) related
  rw [if_neg char,if_neg char]
  by_cases string : c = ch 's'
  · rw [if_pos string,if_pos string]
    refine .bind _ (fun value => .bind _ (fun chars => ⟨?_,rfl⟩))
    apply onlyIf_related _ (padded _ _ _)
    apply print_related step
    exact onlyIf_related _ (padded _ _ _) related
  rw [if_neg string,if_neg string]
  by_cases signed : c = ch 'd' ∨ c = ch 'i'
  · rw [if_pos signed,if_pos signed]
    exact .bind _ (fun value => ⟨print_int_related step _ _ _ _ related,rfl⟩)
  rw [if_neg signed,if_neg signed]
  by_cases unsigned : c = ch 'u' ∨ c = ch 'o' ∨ c = ch 'x' ∨ c = ch 'X'
  · rw [if_pos unsigned,if_pos unsigned]
    exact .bind _ (fun value => ⟨print_uint_related step _ _ _ _ _ _ related,rfl⟩)
  rw [if_neg unsigned,if_neg unsigned]
  by_cases pointer : c = ch 'p'
  · rw [if_pos pointer,if_pos pointer]
    exact .bind _ (fun value => ⟨print_uint_related step _ _ _ _ _ _ related,rfl⟩)
  rw [if_neg pointer,if_neg pointer]
  by_cases percent : c = ch '%'
  · rw [if_pos percent,if_pos percent]
    exact ⟨step s t _ related,rfl⟩
  rw [if_neg percent,if_neg percent]
  have shown := step s t (ch '%') related
  refine ⟨?_,rfl⟩
  by_cases nul : c ≠ 0
  · rw [if_pos nul,if_pos nul]
    exact step _ _ c shown
  · rw [if_neg nul,if_neg nul]
    exact shown

theorem vprintf_related (fuel : Nat) (p : List UInt8) (args : List Arg) (related : R s t) :
    Agree R (vprintf put fuel p args s) (vprintf put' fuel p args t) := by
  induction fuel generalizing p args s t with
  | zero => exact rfl
  | succ fuel ih =>
    rw [vprintf,vprintf]
    refine .bind _ (fun c => ?_)
    by_cases nul : c = 0
    · rw [if_pos nul,if_pos nul]
      exact ⟨related,rfl⟩
    rw [if_neg nul,if_neg nul]
    by_cases plain : c ≠ ch '%'
    · rw [if_pos plain,if_pos plain]
      exact ih _ _ (step s t c related)
    · rw [if_neg plain,if_neg plain]
      refine .bind _ (fun parsed => .bind _ (fun c => ?_))
      exact (convert_related step _ c _ related).next (fun s t args related => ih _ _ related)

end
/-! ### Complete formats -/

/-- What kind of argument a directive takes. -/
inductive Kind
  | int
  | long
  | pointer
  | string
deriving DecidableEq, Repr

def kind : Arg → Kind
  | .int _ => .int
  | .long _ => .long
  | .pointer _ => .pointer
  | .string _ => .string

def isFlag (c : UInt8) : Bool := c = ch '#' || c = ch '-' || c = ch '0' || c = ch '+' || c = ch ' '

def isDigit (c : UInt8) : Bool := ch '0' ≤ c && c ≤ ch '9'

/-- The arguments of a width, and what follows it. -/
def afterNumber (p : List UInt8) : List Kind × List UInt8 :=
  if p.head? = some (ch '*') then ([.int],p.tail) else ([],p.dropWhile isDigit)

def afterPrecision (p : List UInt8) : List Kind × List UInt8 :=
  if p.head? = some (ch '.') then afterNumber p.tail else ([],p)

/-- Whether a length modifier asks for 64 bits, and what follows it. -/
def afterLength (p : List UInt8) : Bool × List UInt8 :=
  if p.head? = some (ch 'h') then (false,if p.tail.head? = some (ch 'h') then p.tail.tail else p.tail)
  else if p.head? = some (ch 'l') then (true,if p.tail.head? = some (ch 'l') then p.tail.tail else p.tail)
  else if p.head? = some (ch 'z') ∨ p.head? = some (ch 'j') ∨ p.head? = some (ch 't') then (true,p.tail)
  else (false,p)

def conversionKinds (wide : Bool) (c : UInt8) : List Kind :=
  if c = ch 'c' then [.int]
  else if c = ch 's' then [.string]
  else if (c = ch 'd' ∨ c = ch 'i') ∨ c = ch 'u' ∨ c = ch 'o' ∨ c = ch 'x' ∨ c = ch 'X' then [if wide then .long else .int]
  else if c = ch 'p' then [.pointer]
  else []

/-- The arguments of a directive and what follows it, unless the string ends inside it. -/
def directiveKinds (p : List UInt8) : Option (List Kind × List UInt8) :=
  let width := afterNumber (p.dropWhile isFlag)
  let precision := afterPrecision width.2
  let length := afterLength precision.2
  match length.2 with
  | [] => none
  | c :: rest => if c = 0 then none else some (width.1 ++ precision.1 ++ conversionKinds length.1 c,rest)

/-- The arguments of a format, all of whose directives are complete. -/
def formatKinds : (fuel : Nat) → List UInt8 → Option (List Kind)
  | fuel+1, c :: p =>
    if c = 0 then some []
    else if c ≠ ch '%' then formatKinds fuel p
    else
      match directiveKinds p with
      | none => none
      | some (kinds,rest) => (formatKinds fuel rest).map (kinds ++ ·)
  | _, _ => none

/-- A NUL-terminated format with complete directives that take arguments of these kinds. -/
def Complete (fmt : List UInt8) (kinds : List Kind) : Prop := 0 ∈ fmt ∧ formatKinds (fmt.length + 1) fmt = some kinds

/-- Arguments of the right kinds, with NUL-terminated strings. -/
structure Matching (kinds : List Kind) (args : List Arg) : Prop where
  kinds : kinds <+: args.map kind
  strings : ∀ str, .string (some str) ∈ args → 0 ∈ str

/-! ### Such formats are printed -/

/-- Some arguments have been taken, and the others are left. -/
structure Takes (kinds : List Kind) (args rest : List Arg) : Prop where
  kinds : args.map kind = kinds ++ rest.map kind
  left : rest <:+ args

theorem Takes.none (args : List Arg) : Takes [] args args := ⟨rfl,List.suffix_refl args⟩

theorem Takes.trans {kinds kinds' : List Kind} {args rest rest' : List Arg} (first : Takes kinds args rest)
    (second : Takes kinds' rest rest') : Takes (kinds ++ kinds') args rest' :=
  ⟨by rw [first.kinds,second.kinds,List.append_assoc],second.left.trans first.left⟩

theorem Matching.after {kinds kinds' : List Kind} {args rest : List Arg} (fits : Matching (kinds ++ kinds') args)
    (taken : Takes kinds args rest) : Matching kinds' rest := by
  refine ⟨?_,fun str member => fits.strings str (taken.left.subset member)⟩
  have whole := fits.kinds
  rw [taken.kinds] at whole
  exact (List.prefix_append_right_inj kinds).mp whole

theorem Matching.first {kinds kinds' : List Kind} {args : List Arg} (fits : Matching (kinds ++ kinds') args) :
    Matching kinds args :=
  ⟨(List.prefix_append kinds kinds').trans fits.kinds,fits.strings⟩

section
variable {args : List Arg} {p : List UInt8}

/-- An `int` is taken, unless the next argument is none. -/
theorem vaInt_ends (args : List Arg) : (vaInt args = .error .argument ∧ ¬[Kind.int] <+: args.map kind) ∨
    ∃ v rest, vaInt args = .ok (v,rest) ∧ Takes [.int] args rest := by
  cases args with
  | nil => exact .inl ⟨rfl,by simp⟩
  | cons arg rest =>
    have other (same : [Kind.int] <+: (arg :: rest).map kind) : Kind.int = kind arg := (List.cons_prefix_cons.mp same).1
    cases arg with
    | int v => exact .inr ⟨v,rest,rfl,rfl,List.suffix_cons _ rest⟩
    | long v => exact .inl ⟨rfl,fun same => by cases other same⟩
    | pointer v => exact .inl ⟨rfl,fun same => by cases other same⟩
    | string str => exact .inl ⟨rfl,fun same => by cases other same⟩

/-- An argument of a kind has a value of its type. -/
def Kind.Made (arg : Arg) : Kind → Prop
  | .int => ∃ v, arg = .int v
  | .long => ∃ v, arg = .long v
  | .pointer => ∃ v, arg = .pointer v
  | .string => ∃ str, arg = .string str

theorem kind_made (arg : Arg) : (kind arg).Made arg := by
  cases arg <;> exact ⟨_,rfl⟩

/-- Where the next argument has the kind that is asked for, its value is taken. -/
theorem va_takes {α : Type} (k : Kind) (make : α → Arg) (va : List Arg → Except Fault (α × List Arg))
    (takes : ∀ v rest, va (make v :: rest) = .ok (v,rest)) (only : ∀ arg, k.Made arg → ∃ v, arg = make v)
    (fits : Matching [k] args) : ∃ v rest, va args = .ok (v,rest) ∧ Takes [k] args rest ∧ make v ∈ args := by
  cases args with
  | nil => simpa using fits.kinds
  | cons arg rest =>
    have same : k = kind arg := (List.cons_prefix_cons.mp fits.kinds).1
    obtain ⟨v,rfl⟩ := only arg (same ▸ kind_made arg)
    exact ⟨v,rest,takes v rest,⟨by rw [same]; rfl,List.suffix_cons _ rest⟩,List.mem_cons_self⟩

theorem vaInt_takes (fits : Matching [.int] args) : ∃ v rest, vaInt args = .ok (v,rest) ∧ Takes [.int] args rest := by
  obtain ⟨v,rest,taken,takes,_⟩ := va_takes .int Arg.int vaInt (fun _ _ => rfl) (fun _ made => made) fits
  exact ⟨v,rest,taken,takes⟩

theorem vaString_takes (fits : Matching [.string] args) : ∃ str rest, vaString args = .ok (str,rest) ∧
    Takes [.string] args rest ∧ ∀ chars, str = some chars → 0 ∈ chars := by
  obtain ⟨str,rest,taken,takes,member⟩ := va_takes .string Arg.string vaString (fun _ _ => rfl) (fun _ made => made) fits
  refine ⟨str,rest,taken,takes,fun chars found => fits.strings chars ?_⟩
  rw [← found]
  exact member

theorem mem_dropWhile {f : UInt8 → Bool} (nul : 0 ∈ p) (stops : f 0 = false) : 0 ∈ p.dropWhile f := by
  induction p with
  | nil => cases nul
  | cons c p ih =>
    rw [List.dropWhile_cons]
    by_cases goesOn : f c = true
    · rw [if_pos goesOn]
      refine ih ((List.mem_cons.mp nul).resolve_left ?_)
      rintro rfl
      rw [stops] at goesOn
      cases goesOn
    · rw [if_neg goesOn]
      exact nul

theorem mem_tail {c : UInt8} (nul : 0 ∈ p) (head : p.head? = some c) (other : c ≠ 0) : 0 ∈ p.tail := by
  cases p with
  | nil => cases nul
  | cons d p =>
    obtain rfl := Option.some.inj head
    exact (List.mem_cons.mp nul).resolve_left (Ne.symm other)

theorem peek_eq (nul : 0 ∈ p) : ∃ c, peek p = .ok c ∧ p.head? = some c ∧ p = c :: p.tail := by
  cases p with
  | nil => cases nul
  | cons c p => exact ⟨c,rfl,rfl,rfl⟩

theorem parseFlags_done (flags : Flags) (nul : 0 ∈ p) :
    ∃ flags', parseFlags flags p = .ok (flags',p.dropWhile isFlag) := by
  induction p generalizing flags with
  | nil => cases nul
  | cons c p ih =>
    have later (flag : isFlag c = true) (flags : Flags) : ∃ flags', parseFlags flags p = .ok
        (flags',(c :: p).dropWhile isFlag) := by
      rw [List.dropWhile_cons,if_pos flag]
      refine ih flags ((List.mem_cons.mp nul).resolve_left ?_)
      rintro rfl
      exact absurd flag (by decide)
    rw [parseFlags]
    by_cases hash : c = ch '#'
    · rw [if_pos hash]
      exact later (by simp [isFlag,hash]) _
    rw [if_neg hash]
    by_cases minus : c = ch '-'
    · rw [if_pos minus]
      exact later (by simp [isFlag,minus]) _
    rw [if_neg minus]
    by_cases zero : c = ch '0'
    · rw [if_pos zero]
      exact later (by simp [isFlag,zero]) _
    rw [if_neg zero]
    by_cases plus : c = ch '+'
    · rw [if_pos plus]
      exact later (by simp [isFlag,plus]) _
    rw [if_neg plus]
    by_cases space : c = ch ' '
    · rw [if_pos space]
      exact later (by simp [isFlag,space]) _
    rw [if_neg space,List.dropWhile_cons,if_neg (by simp [isFlag,hash,minus,zero,plus,space])]
    exact ⟨flags,rfl⟩

theorem parseNumber_done (n : Int) (nul : 0 ∈ p) : ∃ n', parseNumber n p = .ok (n',p.dropWhile isDigit) := by
  induction p generalizing n with
  | nil => cases nul
  | cons c p ih =>
    rw [parseNumber,List.dropWhile_cons]
    by_cases isD : ch '0' ≤ c ∧ c ≤ ch '9'
    · rw [if_pos isD,if_pos (by simpa [isDigit] using isD)]
      refine ih _ ((List.mem_cons.mp nul).resolve_left ?_)
      rintro rfl
      exact absurd isD.1 (by decide)
    · rw [if_neg isD,if_neg (by simpa [isDigit] using isD)]
      exact ⟨n,rfl⟩

theorem nul_afterNumber (nul : 0 ∈ p) : 0 ∈ (afterNumber p).2 := by
  unfold afterNumber
  by_cases star : p.head? = some (ch '*')
  · rw [if_pos star]
    exact mem_tail nul star (by decide)
  · rw [if_neg star]
    exact mem_dropWhile nul (by decide)

theorem nul_afterPrecision (nul : 0 ∈ p) : 0 ∈ (afterPrecision p).2 := by
  unfold afterPrecision
  by_cases dot : p.head? = some (ch '.')
  · rw [if_pos dot]
    exact nul_afterNumber (mem_tail nul dot (by decide))
  · rw [if_neg dot]
    exact nul

/-- No width reads past a NUL: it is parsed, unless it takes an argument that is not there. -/
theorem parseWidth_ends (flags : Flags) (args : List Arg) (nul : 0 ∈ p) :
    (parseWidth flags args p = .error .argument ∧ ¬(afterNumber p).1 <+: args.map kind) ∨ ∃ flags' width rest,
      parseWidth flags args p = .ok (flags',width,rest,(afterNumber p).2) ∧ Takes (afterNumber p).1 args rest := by
  obtain ⟨c,found,head,-⟩ := peek_eq nul
  rw [parseWidth,found]
  show ((if c = ch '*' then _ else _) = _ ∧ _) ∨ ∃ flags' width rest, (if c = ch '*' then _ else _) = _ ∧ _
  unfold afterNumber
  by_cases star : c = ch '*'
  · have same : p.head? = some (ch '*') := by rw [head,star]
    rw [if_pos same,if_pos star]
    rcases vaInt_ends args with ⟨missing,other⟩ | ⟨v,rest,taken,takes⟩
    · exact .inl ⟨by rw [missing]; rfl,other⟩
    · rw [taken]
      refine .inr ?_
      show ∃ flags' width rest, (if v.toInt < 0 then _ else _) = _ ∧ _
      by_cases negative : v.toInt < 0
      · rw [if_pos negative]
        exact ⟨_,_,rest,rfl,takes⟩
      · rw [if_neg negative]
        exact ⟨_,_,rest,rfl,takes⟩
  · have other : p.head? ≠ some (ch '*') := fun same => star (Option.some.inj (head.symm.trans same))
    obtain ⟨width,parsed⟩ := parseNumber_done 0 nul
    rw [if_neg other,if_neg star,parsed]
    exact .inr ⟨flags,width,args,rfl,.none args⟩

theorem parsePrecision_ends (args : List Arg) (nul : 0 ∈ p) :
    (parsePrecision args p = .error .argument ∧ ¬(afterPrecision p).1 <+: args.map kind) ∨ ∃ precision rest,
      parsePrecision args p = .ok (precision,rest,(afterPrecision p).2) ∧ Takes (afterPrecision p).1 args rest := by
  obtain ⟨c,found,head,-⟩ := peek_eq nul
  rw [parsePrecision,found]
  show ((if c = ch '.' then _ else _) = _ ∧ _) ∨ ∃ precision rest, (if c = ch '.' then _ else _) = _ ∧ _
  unfold afterPrecision
  by_cases dot : c = ch '.'
  · have same : p.head? = some (ch '.') := by rw [head,dot]
    have later : 0 ∈ p.tail := mem_tail nul head (by rw [dot]; decide)
    obtain ⟨d,found,head,-⟩ := peek_eq later
    rw [if_pos same,if_pos dot,found]
    show ((if d = ch '*' then _ else _) = _ ∧ _) ∨ ∃ precision rest, (if d = ch '*' then _ else _) = _ ∧ _
    unfold afterNumber
    by_cases star : d = ch '*'
    · have same : p.tail.head? = some (ch '*') := by rw [head,star]
      rw [if_pos same,if_pos star]
      rcases vaInt_ends args with ⟨missing,other⟩ | ⟨v,rest,taken,takes⟩
      · exact .inl ⟨by rw [missing]; rfl,other⟩
      · rw [taken]
        exact .inr ⟨_,rest,rfl,takes⟩
    · have other : p.tail.head? ≠ some (ch '*') := fun same => star (Option.some.inj (head.symm.trans same))
      obtain ⟨precision,parsed⟩ := parseNumber_done 0 later
      rw [if_neg other,if_neg star,parsed]
      exact .inr ⟨precision,args,rfl,.none args⟩
  · have other : p.head? ≠ some (ch '.') := fun same => dot (Option.some.inj (head.symm.trans same))
    rw [if_neg other,if_neg dot]
    exact .inr ⟨-1,args,rfl,.none args⟩

/-- The lengths for which the argument has 64 bits. -/
def wide : Length → Bool
  | .default => false
  | .h => false
  | .hh => false
  | _ => true

theorem parseLength_done (nul : 0 ∈ p) : ∃ length, parseLength p = .ok (length,(afterLength p).2) ∧
    wide length = (afterLength p).1 ∧ 0 ∈ (afterLength p).2 := by
  obtain ⟨c,found,head,-⟩ := peek_eq nul
  rw [parseLength,found]
  show ∃ length, (if c = ch 'h' then _ else _) = _ ∧ _
  unfold afterLength
  simp only [head,Option.some.injEq]
  by_cases h : c = ch 'h'
  · have later : 0 ∈ p.tail := mem_tail nul head (by rw [h]; decide)
    obtain ⟨d,found,head,-⟩ := peek_eq later
    simp only [if_pos h,found,head,Option.some.injEq]
    show ∃ length, (if d = ch 'h' then _ else _) = _ ∧ _
    by_cases hh : d = ch 'h'
    · rw [if_pos hh,if_pos hh]
      exact ⟨.hh,rfl,rfl,mem_tail later head (by rw [hh]; decide)⟩
    · rw [if_neg hh,if_neg hh]
      exact ⟨.h,rfl,rfl,later⟩
  simp only [if_neg h]
  by_cases l : c = ch 'l'
  · have later : 0 ∈ p.tail := mem_tail nul head (by rw [l]; decide)
    obtain ⟨d,found,head,-⟩ := peek_eq later
    simp only [if_pos l,found,head,Option.some.injEq]
    show ∃ length, (if d = ch 'l' then _ else _) = _ ∧ _
    by_cases ll : d = ch 'l'
    · rw [if_pos ll,if_pos ll]
      exact ⟨.ll,rfl,rfl,mem_tail later head (by rw [ll]; decide)⟩
    · rw [if_neg ll,if_neg ll]
      exact ⟨.l,rfl,rfl,later⟩
  simp only [if_neg l]
  by_cases z : c = ch 'z'
  · rw [if_pos z,if_pos (.inl z)]
    exact ⟨.z,rfl,rfl,mem_tail nul head (by rw [z]; decide)⟩
  rw [if_neg z]
  by_cases j : c = ch 'j'
  · rw [if_pos j,if_pos (.inr (.inl j))]
    exact ⟨.j,rfl,rfl,mem_tail nul head (by rw [j]; decide)⟩
  rw [if_neg j]
  by_cases t : c = ch 't'
  · rw [if_pos t,if_pos (.inr (.inr t))]
    exact ⟨.t,rfl,rfl,mem_tail nul head (by rw [t]; decide)⟩
  rw [if_neg t,if_neg (fun same => same.elim z (fun same => same.elim j t))]
  exact ⟨.default,rfl,rfl,nul⟩

theorem parseDirective_done {width precision : List Kind × List UInt8} {kinds : List Kind} (nul : 0 ∈ p)
    (w : afterNumber (p.dropWhile isFlag) = width) (pr : afterPrecision width.2 = precision)
    (fits : Matching (width.1 ++ precision.1 ++ kinds) args) : ∃ d rest,
    parseDirective args p = .ok (d,rest,(afterLength precision.2).2) ∧ Takes (width.1 ++ precision.1) args rest ∧
    wide d.length = (afterLength precision.2).1 ∧ 0 ∈ (afterLength precision.2).2 := by
  subst w pr
  rw [List.append_assoc] at fits
  obtain ⟨flags,flagsParsed⟩ := parseFlags_done {} nul
  have nul := mem_dropWhile (f := isFlag) nul (by decide)
  obtain ⟨flags',w,rest,widthParsed,taken⟩ := (parseWidth_ends flags args nul).resolve_left
    (fun missing => missing.2 fits.first.kinds)
  have nul := nul_afterNumber nul
  obtain ⟨pr,rest',precisionParsed,taken'⟩ := (parsePrecision_ends rest nul).resolve_left
    (fun missing => missing.2 (fits.after taken).first.kinds)
  obtain ⟨length,lengthParsed,same,nul⟩ := parseLength_done (nul_afterPrecision nul)
  refine ⟨⟨flags',w,pr,length⟩,rest',?_,taken.trans taken',same,nul⟩
  rw [parseDirective,flagsParsed]
  show (parseWidth flags args _ >>= _) = _
  rw [widthParsed]
  show (parsePrecision rest _ >>= _) = _
  rw [precisionParsed]
  show (parseLength _ >>= _) = _
  rw [lengthParsed]
  rfl

/-- The last character of a complete directive. -/
theorem directive_last {kinds : List Kind} {rest : List UInt8} (complete : directiveKinds p = some (kinds,rest)) :
    ∃ width precision c, afterNumber (p.dropWhile isFlag) = width ∧ afterPrecision width.2 = precision ∧
      (afterLength precision.2).2 = c :: rest ∧ c ≠ 0 ∧
      kinds = width.1 ++ precision.1 ++ conversionKinds (afterLength precision.2).1 c := by
  unfold directiveKinds at complete
  rcases left : (afterLength (afterPrecision (afterNumber (p.dropWhile isFlag)).2).2).2 with _ | ⟨c,rest'⟩
  · simp only [left] at complete
    cases complete
  · simp only [left] at complete
    by_cases zero : c = 0
    · rw [if_pos zero] at complete
      cases complete
    · rw [if_neg zero] at complete
      cases complete
      exact ⟨_,_,c,rfl,rfl,left,zero,rfl⟩

/-! ### Conversions -/

/-- A number is taken as a `long`, or as an `int` that is narrowed and widened again. -/
theorem number_takes {va : Length → List Arg → Except Fault (BitVec 64 × List Arg)} {length : Length}
    (long : wide length = true → va length = vaLong)
    (narrow : wide length = false → ∃ f : BitVec 32 → BitVec 64, ∀ args,
      va length args = (vaInt args >>= fun (v,args) => .ok (f v,args)))
    (fits : Matching [if wide length then .long else .int] args) :
    ∃ v rest, va length args = .ok (v,rest) ∧ Takes [if wide length then .long else .int] args rest := by
  by_cases isWide : wide length = true
  · rw [if_pos isWide] at fits ⊢
    obtain ⟨v,rest,taken,takes,_⟩ := va_takes .long Arg.long vaLong (fun _ _ => rfl) (fun _ made => made) fits
    exact ⟨v,rest,by rw [long isWide,taken],takes⟩
  · rw [if_neg isWide] at fits ⊢
    obtain ⟨f,same⟩ := narrow (Bool.eq_false_iff.mpr isWide)
    obtain ⟨v,rest,taken,takes⟩ := vaInt_takes fits
    exact ⟨f v,rest,by rw [same,taken]; rfl,takes⟩

theorem vaSigned_takes {length : Length} (fits : Matching [if wide length then .long else .int] args) :
    ∃ v rest, vaSigned length args = .ok (v,rest) ∧ Takes [if wide length then .long else .int] args rest := by
  refine number_takes (fun isWide => ?_) (fun isNarrow => ?_) fits
  · cases length <;> first | rfl | cases isWide
  · cases length with
    | default => exact ⟨BitVec.signExtend 64,fun _ => rfl⟩
    | h => exact ⟨fun v => (v.setWidth 16).signExtend 64,fun _ => rfl⟩
    | hh => exact ⟨fun v => (v.setWidth 8).signExtend 64,fun _ => rfl⟩
    | _ => cases isNarrow

theorem vaUnsigned_takes {length : Length} (fits : Matching [if wide length then .long else .int] args) :
    ∃ v rest, vaUnsigned length args = .ok (v,rest) ∧ Takes [if wide length then .long else .int] args rest := by
  refine number_takes (fun isWide => ?_) (fun isNarrow => ?_) fits
  · cases length <;> first | rfl | cases isWide
  · cases length with
    | default => exact ⟨BitVec.setWidth 64,fun _ => rfl⟩
    | h => exact ⟨fun v => (v.setWidth 16).setWidth 64,fun _ => rfl⟩
    | hh => exact ⟨fun v => (v.setWidth 8).setWidth 64,fun _ => rfl⟩
    | _ => cases isNarrow

/-- The length of a NUL-terminated string can be measured. -/
theorem measure_done (precision len : Int) {str : List UInt8} (nul : 0 ∈ str) :
    ∃ chars, Printf.measure precision len str = .ok chars := by
  induction str generalizing len with
  | nil => cases nul
  | cons c str ih =>
    rw [Printf.measure]
    by_cases goesOn : c ≠ 0 ∧ (precision < 0 ∨ len < precision)
    · obtain ⟨chars,measured⟩ := ih (len + 1) ((List.mem_cons.mp nul).resolve_left goesOn.1.symm)
      rw [if_pos goesOn,measured]
      exact ⟨c :: chars,rfl⟩
    · rw [if_neg goesOn]
      exact ⟨[],rfl⟩

end
section
variable {σ : Type} (put : σ → UInt8 → σ)

theorem convert_done (d : Directive) (c : UInt8) {args : List Arg} (s : σ)
    (fits : Matching (conversionKinds (wide d.length) c) args) :
    ∃ s' rest, convert put d c args s = .ok (s',rest) ∧ Takes (conversionKinds (wide d.length) c) args rest := by
  unfold conversionKinds at fits ⊢
  unfold convert
  by_cases char : c = ch 'c'
  · rw [if_pos char] at fits ⊢
    obtain ⟨v,rest,taken,takes⟩ := vaInt_takes fits
    rw [if_pos char,taken]
    exact ⟨_,rest,rfl,takes⟩
  rw [if_neg char] at fits ⊢
  rw [if_neg char]
  by_cases string : c = ch 's'
  · rw [if_pos string] at fits ⊢
    obtain ⟨str,rest,taken,takes,ends⟩ := vaString_takes fits
    have nul : 0 ∈ str.getD (bytes "(null)" ++ [0]) := by
      cases str with
      | none => decide
      | some chars => exact ends chars rfl
    obtain ⟨chars,measured⟩ := measure_done d.precision 0 nul
    rw [if_pos string,taken]
    show ∃ s' rest, (Printf.measure _ _ _ >>= _) = _ ∧ _
    rw [measured]
    exact ⟨_,rest,rfl,takes⟩
  rw [if_neg string] at fits ⊢
  rw [if_neg string]
  by_cases signed : c = ch 'd' ∨ c = ch 'i'
  · have number : (c = ch 'd' ∨ c = ch 'i') ∨ c = ch 'u' ∨ c = ch 'o' ∨ c = ch 'x' ∨ c = ch 'X' := .inl signed
    rw [if_pos number] at fits ⊢
    obtain ⟨v,rest,taken,takes⟩ := vaSigned_takes fits
    rw [if_pos signed,taken]
    exact ⟨_,rest,rfl,takes⟩
  rw [if_neg signed]
  by_cases unsigned : c = ch 'u' ∨ c = ch 'o' ∨ c = ch 'x' ∨ c = ch 'X'
  · have number : (c = ch 'd' ∨ c = ch 'i') ∨ c = ch 'u' ∨ c = ch 'o' ∨ c = ch 'x' ∨ c = ch 'X' := .inr unsigned
    rw [if_pos number] at fits ⊢
    obtain ⟨v,rest,taken,takes⟩ := vaUnsigned_takes fits
    rw [if_pos unsigned,taken]
    exact ⟨_,rest,rfl,takes⟩
  have other : ¬((c = ch 'd' ∨ c = ch 'i') ∨ c = ch 'u' ∨ c = ch 'o' ∨ c = ch 'x' ∨ c = ch 'X') := by
    rintro (signed' | unsigned')
    · exact signed signed'
    · exact unsigned unsigned'
  rw [if_neg other] at fits ⊢
  rw [if_neg unsigned]
  by_cases pointer : c = ch 'p'
  · rw [if_pos pointer] at fits ⊢
    obtain ⟨v,rest,taken,takes,_⟩ := va_takes .pointer Arg.pointer vaPointer (fun _ _ => rfl) (fun _ made => made) fits
    rw [if_pos pointer,taken]
    exact ⟨_,rest,rfl,takes⟩
  rw [if_neg pointer] at fits ⊢
  rw [if_neg pointer]
  by_cases percent : c = ch '%'
  · rw [if_pos percent]
    exact ⟨_,args,rfl,.none args⟩
  · rw [if_neg percent]
    exact ⟨_,args,rfl,.none args⟩

/-- A complete format is printed to its end, and its arguments are taken. -/
theorem vprintf_done (fuel : Nat) {p : List UInt8} {kinds : List Kind} {args : List Arg} (s : σ) (nul : 0 ∈ p)
    (complete : formatKinds fuel p = some kinds) (fits : Matching kinds args) :
    ∃ s' rest, vprintf put fuel p args s = .ok (s',rest) ∧ Takes kinds args rest := by
  induction fuel generalizing p kinds args s with
  | zero =>
    cases p with
    | nil => cases nul
    | cons c p => cases complete
  | succ fuel ih =>
    cases p with
    | nil => cases nul
    | cons c p =>
      rw [formatKinds] at complete
      rw [vprintf]
      show ∃ s' rest, (if c = 0 then _ else _) = _ ∧ _
      by_cases zero : c = 0
      · rw [if_pos zero] at complete ⊢
        obtain rfl := Option.some.inj complete
        exact ⟨s,args,rfl,.none args⟩
      rw [if_neg zero] at complete ⊢
      have nul := (List.mem_cons.mp nul).resolve_left (Ne.symm zero)
      by_cases plain : c ≠ ch '%'
      · rw [if_pos plain] at complete ⊢
        exact ih _ nul complete fits
      rw [if_neg plain] at complete ⊢
      rcases directive : directiveKinds p with _ | ⟨taken,rest⟩
      · rw [directive] at complete
        cases complete
      rw [directive] at complete
      obtain ⟨later,remaining,rfl⟩ := Option.map_eq_some_iff.mp complete
      obtain ⟨width,precision,conversion,w,pr,last,other,rfl⟩ := directive_last directive
      rw [List.append_assoc] at fits
      obtain ⟨d,args',parsed,takes,same,nul⟩ := parseDirective_done nul w pr fits
      have fits := fits.after takes
      rw [last] at parsed nul
      rw [← same] at fits
      obtain ⟨s',rest'',converted,takes'⟩ := convert_done put d conversion s fits.first
      obtain ⟨printedOn,rest',printed,takes''⟩ := ih s' ((List.mem_cons.mp nul).resolve_left (Ne.symm other))
        remaining (fits.after takes')
      refine ⟨printedOn,rest',?_,?_⟩
      · show (parseDirective args p >>= _) = _
        rw [parsed]
        show (convert put d conversion args' s >>= _) = _
        rw [converted]
        exact printed
      · rw [← same]
        exact (takes.trans takes').trans takes''

end
/-! ### Both logs -/

/-- What a format and its arguments send, and the arguments that are left. -/
def sent (fmt : List UInt8) (args : List Arg) : Except Fault (List UInt8 × List Arg) :=
  vprintf (fun chars c => chars ++ [c]) (fmt.length + 1) fmt args []

theorem Agree.image {σ τ : Type} (f : τ → σ) {result : Except Fault (σ × List Arg)}
    {result' : Except Fault (τ × List Arg)} (agree : Agree (fun s t => s = f t) result result') :
    result = result'.map (Prod.map f id) := by
  cases result with
  | error fault =>
    cases result' with
    | error fault' => exact congrArg _ agree
    | ok value => exact agree.elim
  | ok value =>
    cases result' with
    | error fault => exact agree.elim
    | ok value' => exact congrArg _ (Prod.ext agree.1 agree.2)

/-- For any format and arguments, also where the code has no meaning. -/
theorem cvprintf_sends (fmt : List UInt8) (args : List Arg) (s : Streams) :
    cvprintf fmt args s = (sent fmt args).map (Prod.map
      (fun chars => { s with console := s.console ++ chars }) id) := by
  refine Agree.image (fun chars : List UInt8 => { s with console := s.console ++ chars }) (vprintf_related ?_ _ _ _ ?_)
  · rintro _ chars c rfl
    show Streams.mk _ _ = Streams.mk _ _
    rw [List.append_assoc]
  · rw [List.append_nil]

theorem svprintf_sends (fmt : List UInt8) (args : List Arg) (s : Streams) :
    svprintf fmt args s = (sent fmt args).map (Prod.map (fun chars => { s with serial := s.serial ++ chars }) id) := by
  refine Agree.image (fun chars : List UInt8 => { s with serial := s.serial ++ chars }) (vprintf_related ?_ _ _ _ ?_)
  · rintro _ chars c rfl
    show Streams.mk _ _ = Streams.mk _ _
    rw [List.append_assoc]
  · rw [List.append_nil]

theorem console_print_eq (str : List UInt8) (s : Streams) :
    console_print str s = { s with console := s.console ++ str } := by
  induction str generalizing s with
  | nil => exact congrArg (Streams.mk · s.serial) (List.append_nil s.console).symm
  | cons c str ih =>
    refine (ih (console_putchar s c)).trans ?_
    show Streams.mk (s.console ++ [c] ++ str) _ = _
    rw [List.append_assoc]
    rfl

theorem serial_print_eq (str : List UInt8) (s : Streams) :
    serial_print str s = { s with serial := s.serial ++ str } := by
  induction str generalizing s with
  | nil => exact congrArg (Streams.mk s.console) (List.append_nil s.serial).symm
  | cons c str ih =>
    refine (ih (serial_putchar s c)).trans ?_
    show Streams.mk _ (s.serial ++ [c] ++ str) = _
    rw [List.append_assoc]
    rfl

theorem kvlog_agrees {fmt : List UInt8} {kinds : List Kind} {args : List Arg} (level : Level) (s : Streams)
    (complete : Complete fmt kinds) (fits : Matching kinds args) : ∃ chars rest,
      cvprintf fmt args s = .ok ({ s with console := s.console ++ chars },rest) ∧
      svprintf fmt args s = .ok ({ s with serial := s.serial ++ chars },rest) ∧ Takes kinds args rest ∧
      kvlog true level fmt args s =
        .ok ⟨s.console ++ (tag level ++ chars ++ [10]),s.serial ++ (tag level ++ chars ++ [10])⟩ := by
  obtain ⟨chars,rest,printed,takes⟩ := vprintf_done (fun chars c => chars ++ [c]) _ [] complete.1 complete.2 fits
  have shown (s : Streams) : cvprintf fmt args s = .ok ({ s with console := s.console ++ chars },rest) := by
    rw [cvprintf_sends,sent,printed]
    rfl
  have sent (s : Streams) : svprintf fmt args s = .ok ({ s with serial := s.serial ++ chars },rest) := by
    rw [svprintf_sends,sent,printed]
    rfl
  refine ⟨chars,rest,shown s,sent s,takes,?_⟩
  rw [kvlog,if_pos rfl,if_pos rfl,serial_print_eq,console_print_eq,shown]
  show (svprintf fmt args _ >>= _) = _
  rw [sent]
  show Except.ok (Streams.mk (s.console ++ tag level ++ chars ++ [10]) (s.serial ++ tag level ++ chars ++ [10])) = _
  simp only [List.append_assoc]

/-- `klog(LOG_WARN, "%-4d|%s", -5, "ab")` -/
theorem kvlog_agrees_warn : ∃ chars rest,
    cvprintf (bytes "%-4d|%s" ++ [0]) [.int (-5),.string (some [97,98,0])] ⟨[],[]⟩ = .ok (⟨chars,[]⟩,rest) ∧
    svprintf (bytes "%-4d|%s" ++ [0]) [.int (-5),.string (some [97,98,0])] ⟨[],[]⟩ = .ok (⟨[],chars⟩,rest) ∧
    Takes [.int,.string] [.int (-5),.string (some [97,98,0])] rest ∧
    kvlog true .LOG_WARN (bytes "%-4d|%s" ++ [0]) [.int (-5),.string (some [97,98,0])] ⟨[],[]⟩ =
      .ok ⟨tag .LOG_WARN ++ chars ++ [10],tag .LOG_WARN ++ chars ++ [10]⟩ := by
  refine kvlog_agrees .LOG_WARN ⟨[],[]⟩ ⟨by decide,by decide⟩ ⟨List.prefix_refl _,?_⟩
  intro str member
  obtain rfl : str = [97,98,0] := by simpa using member
  decide

end NekoOs.Klog
