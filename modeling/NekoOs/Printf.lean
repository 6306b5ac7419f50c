import Mathlib.Data.Nat.Digits.Defs

/-!
The formatted output of `sprintf.c` and `console.c`, two copies of one text that
differ in the function that takes the characters, and `kvlog`, which calls both.
-/
namespace NekoOs.Printf

/-- An argument of a variadic call. All integer types that are not promoted to `int` have 64 bits. -/
inductive Arg
  | int (v : BitVec 32)
  | long (v : BitVec 64)
  | pointer (v : BitVec 64)
  /-- the bytes of the array, or `NULL` -/
  | string (str : Option (List UInt8))
deriving DecidableEq, Repr

/-- Where the code has no meaning: a read beyond the end of an array, or a `va_arg`
    that no argument is left for or that has another type. -/
inductive Fault
  | outside
  | argument
  | unfinished
deriving DecidableEq, Repr

def ch (c : Char) : UInt8 := UInt8.ofNat c.toNat

def bytes (str : String) : List UInt8 := str.toList.map ch

/-- The value that wraps into an `int`. -/
def int32 (x : Int) : Int := x.bmod (2 ^ 32)

/-- The bits of `flags`: `1:#, 2:-, 4:0, 8:+, 16:space`. -/
structure Flags where
  hash : Bool := false
  minus : Bool := false
  zero : Bool := false
  plus : Bool := false
  space : Bool := false
deriving DecidableEq, Repr

/-- `0:default, 1:h, 2:hh, 3:l, 4:ll, 5:z, 6:j, 7:t` -/
inductive Length
  | default
  | h
  | hh
  | l
  | ll
  | z
  | j
  | t
deriving DecidableEq, Repr

section
variable {σ : Type} (putchar : σ → UInt8 → σ)

/-- `n` times the same character. -/
def putTimes (c : UInt8) : (n : Nat) → σ → σ
  | 0, s => s
  | n+1, s => putTimes c n (putchar s c)

/-- `while (width > count) { putchar(c); width--; }` -/
def putPadding (c : UInt8) (width count : Int) (s : σ) : σ := putTimes putchar c (width - count).toNat s

/-- `if (cond) ...` -/
def onlyIf (cond : Bool) (f : σ → σ) (s : σ) : σ := if cond then f s else s

/-- The characters of a string. -/
def print (str : List UInt8) (s : σ) : σ := str.foldl putchar s

/-- `while (value > 0) { buf[i++] = value % base; value /= base; }` -/
def fillBuf (base : Nat) : (room value : Nat) → List Nat
  | 0, _ => []
  | room+1, value => if value > 0 then value % base :: fillBuf base room (value / base) else []

def digit (upper : Bool) (d : Nat) : UInt8 := (bytes (if upper then "0123456789ABCDEF" else "0123456789abcdef")).getD d 0

def putPrefix (base : Nat) (upper : Bool) (s : σ) : σ :=
  if base = 16 then print putchar (bytes (if upper then "0X" else "0x")) s
  else if base = 8 then putchar s (ch '0') else s

def print_uint (value : BitVec 64) (base : Nat) (width precision : Int) (flags : Flags) (upper : Bool) (s : σ) : σ :=
  let buf := if value.toNat = 0 ∧ precision ≠ 0 then [ch '0'] else (fillBuf base 64 value.toNat).map (digit upper)
  let i : Int := buf.length
  let actual_precision := if precision > i then precision else i
  let count := if flags.hash then
      if base = 16 then int32 (actual_precision + 2) else if base = 8 then int32 (actual_precision + 1) else actual_precision
    else actual_precision
  let s := onlyIf (!flags.minus) (putPadding putchar (if flags.zero then ch '0' else ch ' ') width count) s
  let s := onlyIf flags.hash (putPrefix putchar base upper) s
  let s := putPadding putchar (ch '0') actual_precision i s
  let s := print putchar buf.reverse s
  onlyIf flags.minus (putPadding putchar (ch ' ') width count) s

/-- `while (temp > 0) { count++; temp /= 10; }` -/
def countDigits : (room temp : Nat) → Int
  | 0, _ => 0
  | room+1, temp => if temp > 0 then countDigits room (temp / 10) + 1 else 0

def putSign (neg : Bool) (flags : Flags) (s : σ) : σ :=
  if neg then putchar s (ch '-') else if flags.plus then putchar s (ch '+')
  else if flags.space then putchar s (ch ' ') else s

def print_int (value : BitVec 64) (width precision : Int) (flags : Flags) (s : σ) : σ :=
  let neg := decide (value.toInt < 0)
  let value := if neg then -value else value
  let count := (if value.toNat = 0 ∧ precision ≠ 0 then 1 else 0) + countDigits 64 value.toNat
  let count := if precision > count then precision else count
  let count := if neg || flags.plus || flags.space then int32 (count + 1) else count
  let s := onlyIf (!flags.minus && !flags.zero) (putPadding putchar (ch ' ') width count) s
  let s := putSign putchar neg flags s
  let s := onlyIf (!flags.minus && flags.zero) (putPadding putchar (ch '0') width count) s
  let s := print_uint putchar value 10 0 precision {} false s
  onlyIf flags.minus (putPadding putchar (ch ' ') width count) s

end
/-! ### Directives -/

/-- `*p` -/
def peek : List UInt8 → Except Fault UInt8
  | [] => .error .outside
  | c :: _ => .ok c

def parseFlags (flags : Flags) : List UInt8 → Except Fault (Flags × List UInt8)
  | [] => .error .outside
  | c :: p =>
    if c = ch '#' then parseFlags { flags with hash := true } p
    else if c = ch '-' then parseFlags { flags with minus := true } p
    else if c = ch '0' then parseFlags { flags with zero := true } p
    else if c = ch '+' then parseFlags { flags with plus := true } p
    else if c = ch ' ' then parseFlags { flags with space := true } p
    else .ok (flags,c :: p)

/-- `while (*p >= '0' && *p <= '9') { n = n * 10 + (*p - '0'); p++; }` -/
def parseNumber (n : Int) : List UInt8 → Except Fault (Int × List UInt8)
  | [] => .error .outside
  | c :: p =>
    if ch '0' ≤ c ∧ c ≤ ch '9' then parseNumber (int32 (n * 10 + (c.toNat - 48))) p else .ok (n,c :: p)

def vaInt : List Arg → Except Fault (BitVec 32 × List Arg)
  | .int v :: args => .ok (v,args)
  | _ => .error .argument

def vaLong : List Arg → Except Fault (BitVec 64 × List Arg)
  | .long v :: args => .ok (v,args)
  | _ => .error .argument

def vaPointer : List Arg → Except Fault (BitVec 64 × List Arg)
  | .pointer v :: args => .ok (v,args)
  | _ => .error .argument

def vaString : List Arg → Except Fault (Option (List UInt8) × List Arg)
  | .string str :: args => .ok (str,args)
  | _ => .error .argument

def parseWidth (flags : Flags) (args : List Arg) (p : List UInt8) : Except Fault (Flags × Int × List Arg × List UInt8) := do
  if (← peek p) = ch '*' then
    let (v,args) ← vaInt args
    if v.toInt < 0 then .ok ({ flags with minus := true },int32 (-v.toInt),args,p.tail)
    else .ok (flags,v.toInt,args,p.tail)
  else
    let (width,p) ← parseNumber 0 p
    .ok (flags,width,args,p)

def parsePrecision (args : List Arg) (p : List UInt8) : Except Fault (Int × List Arg × List UInt8) := do
  if (← peek p) = ch '.' then
    let p := p.tail
    if (← peek p) = ch '*' then
      let (v,args) ← vaInt args
      .ok (v.toInt,args,p.tail)
    else
      let (precision,p) ← parseNumber 0 p
      .ok (precision,args,p)
  else .ok (-1,args,p)

def parseLength (p : List UInt8) : Except Fault (Length × List UInt8) := do
  let c ← peek p
  if c = ch 'h' then
    let p := p.tail
    if (← peek p) = ch 'h' then .ok (.hh,p.tail) else .ok (.h,p)
  else if c = ch 'l' then
    let p := p.tail
    if (← peek p) = ch 'l' then .ok (.ll,p.tail) else .ok (.l,p)
  else if c = ch 'z' then .ok (.z,p.tail)
  else if c = ch 'j' then .ok (.j,p.tail)
  else if c = ch 't' then .ok (.t,p.tail)
  else .ok (.default,p)

/-- A directive up to its conversion. -/
structure Directive where
  flags : Flags
  width : Int
  precision : Int
  length : Length
deriving DecidableEq, Repr

def parseDirective (args : List Arg) (p : List UInt8) : Except Fault (Directive × List Arg × List UInt8) := do
  let (flags,p) ← parseFlags {} p
  let (flags,width,args,p) ← parseWidth flags args p
  let (precision,args,p) ← parsePrecision args p
  let (length,p) ← parseLength p
  .ok (⟨flags,width,precision,length⟩,args,p)

/-- The argument of `d` and `i` as an `int64_t`. -/
def vaSigned (length : Length) (args : List Arg) : Except Fault (BitVec 64 × List Arg) :=
  match length with
  | .default => do
    let (v,args) ← vaInt args
    .ok (v.signExtend 64,args)
  | .h => do
    let (v,args) ← vaInt args
    .ok ((v.setWidth 16).signExtend 64,args)
  | .hh => do
    let (v,args) ← vaInt args
    .ok ((v.setWidth 8).signExtend 64,args)
  | _ => vaLong args

/-- The argument of `u`, `o`, `x` and `X` as a `uint64_t`. -/
def vaUnsigned (length : Length) (args : List Arg) : Except Fault (BitVec 64 × List Arg) :=
  match length with
  | .default => do
    let (v,args) ← vaInt args
    .ok (v.setWidth 64,args)
  | .h => do
    let (v,args) ← vaInt args
    .ok ((v.setWidth 16).setWidth 64,args)
  | .hh => do
    let (v,args) ← vaInt args
    .ok ((v.setWidth 8).setWidth 64,args)
  | _ => vaLong args

/-- `while (str[len] && (precision < 0 || len < precision)) len++;`: the characters before `len`. -/
def measure (precision : Int) (len : Int) : List UInt8 → Except Fault (List UInt8)
  | [] => .error .outside
  | c :: str =>
    if c ≠ 0 ∧ (precision < 0 ∨ len < precision) then do
      let rest ← measure precision (len + 1) str
      .ok (c :: rest)
    else .ok []

section
variable {σ : Type} (putchar : σ → UInt8 → σ)

/-- The `switch` over the conversion, which is the last character of the directive. -/
def convert (d : Directive) (c : UInt8) (args : List Arg) (s : σ) : Except Fault (σ × List Arg) :=
  if c = ch 'c' then do
    let (v,args) ← vaInt args
    let s := onlyIf (!d.flags.minus) (putPadding putchar (ch ' ') d.width 1) s
    let s := putchar s (UInt8.ofBitVec (v.setWidth 8))
    .ok (onlyIf d.flags.minus (putPadding putchar (ch ' ') d.width 1) s,args)
  else if c = ch 's' then do
    let (str,args) ← vaString args
    let chars ← measure d.precision 0 (str.getD (bytes "(null)" ++ [0]))
    let s := onlyIf (!d.flags.minus) (putPadding putchar (ch ' ') d.width chars.length) s
    let s := print putchar chars s
    .ok (onlyIf d.flags.minus (putPadding putchar (ch ' ') d.width chars.length) s,args)
  else if c = ch 'd' ∨ c = ch 'i' then do
    let (v,args) ← vaSigned d.length args
    .ok (print_int putchar v d.width d.precision d.flags s,args)
  else if c = ch 'u' ∨ c = ch 'o' ∨ c = ch 'x' ∨ c = ch 'X' then do
    let (v,args) ← vaUnsigned d.length args
    let base := if c = ch 'o' then 8 else if c = ch 'x' ∨ c = ch 'X' then 16 else 10
    .ok (print_uint putchar v base d.width d.precision d.flags (c = ch 'X') s,args)
  else if c = ch 'p' then do
    let (v,args) ← vaPointer args
    .ok (print_uint putchar v 16 d.width d.precision { d.flags with hash := true } false s,args)
  else if c = ch '%' then .ok (putchar s (ch '%'),args)
  else
    let s := putchar s (ch '%')
    .ok (if c ≠ 0 then putchar s c else s,args)

/-- The loop over the format. What is left of the arguments is returned too. -/
def vprintf : (fuel : Nat) → (p : List UInt8) → List Arg → σ → Except Fault (σ × List Arg)
  | 0, _, _, _ => .error .unfinished
  | fuel+1, p, args, s => do
    let c ← peek p
    if c = 0 then .ok (s,args)
    else if c ≠ ch '%' then vprintf fuel p.tail args (putchar s c)
    else do
      let (d,args,p) ← parseDirective args p.tail
      let (s,args) ← convert putchar d (← peek p) args s
      vprintf fuel p.tail args s

end
/-! ### The two copies -/

/-- The characters that the console and the serial port have been sent so far. -/
structure Streams where
  console : List UInt8
  serial : List UInt8
deriving DecidableEq, Repr

def console_putchar (s : Streams) (c : UInt8) : Streams := { s with console := s.console ++ [c] }
def serial_putchar (s : Streams) (c : UInt8) : Streams := { s with serial := s.serial ++ [c] }

def console_print : List UInt8 → Streams → Streams := print console_putchar
def serial_print : List UInt8 → Streams → Streams := print serial_putchar

def cprint_uint := @print_uint Streams console_putchar
def sprint_uint := @print_uint Streams serial_putchar

def cprint_int := @print_int Streams console_putchar
def sprint_int := @print_int Streams serial_putchar

/-- Every round of the loop moves past a character of the format. -/
def cvprintf (fmt : List UInt8) : List Arg → Streams → Except Fault (Streams × List Arg) := vprintf console_putchar (fmt.length + 1) fmt
def svprintf (fmt : List UInt8) : List Arg → Streams → Except Fault (Streams × List Arg) := vprintf serial_putchar (fmt.length + 1) fmt

/-! ### `kvlog` -/

inductive Level
  | LOG_INFO
  | LOG_WARN
  | LOG_ERROR
  | LOG_FATAL
deriving DecidableEq, Repr

def tag : Level → List UInt8
  | .LOG_INFO => bytes "[INFO]  "
  | .LOG_WARN => bytes "[WARN]  "
  | .LOG_ERROR => bytes "[ERROR] "
  | .LOG_FATAL => bytes "[FATAL] "

def kvlog (console_ready : Bool) (level : Level) (fmt : List UInt8) (args : List Arg) (s : Streams) : Except Fault Streams := do
  let s := serial_print (tag level) s
  let s := if console_ready then console_print (tag level) s else s
  let (s,_) ← if console_ready then cvprintf fmt args s else .ok (s,args)
  let (s,_) ← svprintf fmt args s
  let (s,_) ← svprintf [10,0] [] s
  .ok (if console_ready then console_putchar s 10 else s)

end NekoOs.Printf
