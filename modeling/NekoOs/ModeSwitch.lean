import NekoOs.ByteMemory
import NekoOs.Words

/-!
An x86 processor on its way from real mode to 64-bit mode: control registers, the
descriptor table, segment registers, and the paging that a walk of the page tables
decides. An instruction that faults has no result. The accessed bits that the
processor sets in descriptors are not modelled.
-/
namespace NekoOs.ModeSwitch
open ByteMemory Words

/-- The size as which the processor reads code. -/
inductive Bits
  | b16 | b32 | b64
deriving DecidableEq, Repr

inductive Seg
  | ds | es | fs | gs | ss
deriving DecidableEq, Repr

/-- A segment register with what it was loaded with. No byte of a null segment can be accessed. -/
structure Segment where
  selector : Nat
  base : Nat
  size : Nat
deriving DecidableEq, Repr

structure Cpu where
  rax : Nat
  rbx : Nat
  rcx : Nat
  rdx : Nat
  rsi : Nat
  rdi : Nat
  rsp : Nat
  rip : Nat
  /-- `RFLAGS.IF` -/
  interrupts : Bool
  /-- `RFLAGS.DF` -/
  backward : Bool
  cr0 : Nat
  cr3 : Nat
  cr4 : Nat
  efer : Nat
  gdtBase : Nat
  gdtLimit : Nat
  bits : Bits
  cs : Segment
  seg : Seg → Segment
  mem : Memory

/-- Physical address for a memory, `cr3` and a linear address. -/
abbrev Walk := Memory → Nat → Nat → Option Nat

/-- Protection, paging and long mode. -/
def Cpu.pe (c : Cpu) : Bool := c.cr0.testBit 0
def Cpu.pg (c : Cpu) : Bool := c.cr0.testBit 31
def Cpu.lma (c : Cpu) : Bool := c.efer.testBit 10

def Cpu.translate (walk : Walk) (c : Cpu) (a : Nat) : Option Nat := if c.pg then walk c.mem c.cr3 a else some a

/-! ### Memory -/

/-- The value of the bytes at some addresses in a row. -/
def readBytes (m : Memory) (translate : Nat → Option Nat) (a : Nat) : (width : Nat) → Option Nat
  | 0 => some 0
  | width+1 => do
    let p ← translate a
    let rest ← readBytes m translate (a + 1) width
    some ((m p).toNat + 256 * rest)

def writeBytes (translate : Nat → Option Nat) (m : Memory) (a : Nat) : (width v : Nat) → Option Memory
  | 0, _ => some m
  | width+1, v => do
    let p ← translate a
    writeBytes translate (store m p 1 v) (a + 1) width (v / 256)

/-- The linear address of an operand, if the segment has all of it. -/
def Cpu.linear (c : Cpu) (s : Segment) (offset width : Nat) : Option Nat :=
  if c.bits = .b64 then some offset
  else if offset + width ≤ s.size then some ((s.base + offset) % 2 ^ 32) else none

/-- An operand in the data segment. -/
def Cpu.read (walk : Walk) (c : Cpu) (offset width : Nat) : Option Nat := do
  let a ← c.linear (c.seg .ds) offset width
  readBytes c.mem (c.translate walk) a width

/-- Where the processor reads its next instruction. -/
def Cpu.fetches (walk : Walk) (c : Cpu) : Option Nat := c.translate walk (c.cs.base + c.rip)

/-! ### Descriptors -/

namespace Descriptor

def base (d : Nat) : Nat := d / 2 ^ 16 % 2 ^ 24 + d / 2 ^ 56 % 2 ^ 8 * 2 ^ 24
def limit (d : Nat) : Nat := d % 2 ^ 16 + d / 2 ^ 48 % 2 ^ 4 * 2 ^ 16
def privilege (d : Nat) : Nat := d / 2 ^ 45 % 4
def isPresent (d : Nat) : Bool := d.testBit 47
/-- Not a system descriptor. -/
def isSegment (d : Nat) : Bool := d.testBit 44
def isCode (d : Nat) : Bool := d.testBit 43
/-- Readable code, or writable data. -/
def isOpen (d : Nat) : Bool := d.testBit 41
def long (d : Nat) : Bool := d.testBit 53
def wide (d : Nat) : Bool := d.testBit 54
def size (d : Nat) : Nat := if d.testBit 55 then (limit d + 1) * 4096 else limit d + 1

/-- What the kernel may jump to, and what it may load into a data segment register. -/
def runs (d : Nat) : Bool := isPresent d && isSegment d && isCode d && privilege d == 0
def loads (s : Seg) (d : Nat) : Bool :=
  isPresent d && isSegment d &&
    if s = .ss then !isCode d && isOpen d && privilege d == 0 else !isCode d || isOpen d

end Descriptor

/-- The descriptor of a selector. -/
def Cpu.descriptor (walk : Walk) (c : Cpu) (selector : Nat) : Option Nat :=
  if selector / 4 % 2 = 0 ∧ selector / 8 * 8 + 7 ≤ c.gdtLimit then
    readBytes c.mem (c.translate walk) (c.gdtBase + selector / 8 * 8) 8
  else none

def Cpu.loadSegment (walk : Walk) (c : Cpu) (s : Seg) (selector : Nat) : Option Segment :=
  if c.pe then
    if selector / 4 = 0 then
      if s = .ss ∧ c.bits ≠ .b64 then none else some ⟨selector,0,0⟩
    else do
      let d ← c.descriptor walk selector
      if Descriptor.loads s d then some ⟨selector,Descriptor.base d,Descriptor.size d⟩ else none
  else some ⟨selector,selector * 16,(c.seg s).size⟩

def Cpu.jumpFar (walk : Walk) (c : Cpu) (offset selector : Nat) : Option Cpu :=
  if c.pe then
    if selector / 4 = 0 then none
    else do
      let d ← c.descriptor walk selector
      if !Descriptor.runs d then none
      else if c.lma && Descriptor.long d then
        if Descriptor.wide d then none else some { c with cs := ⟨selector,0,0⟩, bits := .b64, rip := offset }
      else if offset < Descriptor.size d then
        some { c with
          cs := ⟨selector,Descriptor.base d,Descriptor.size d⟩
          bits := if Descriptor.wide d then .b32 else .b16
          rip := offset }
      else none
  else if offset < c.cs.size then some { c with cs := ⟨selector,selector * 16,c.cs.size⟩, rip := offset } else none

/-- `mov cr0, eax`. Paging is modelled in long mode only. -/
def Cpu.setCr0 (c : Cpu) (v : Nat) : Option Cpu :=
  if !v.testBit 31 then if c.lma then none else some { c with cr0 := v }
  else if !v.testBit 0 then none
  else if c.pg then some { c with cr0 := v }
  else if c.efer.testBit 8 && c.cr4.testBit 5 && c.bits != .b64 then
    some { c with cr0 := v, efer := c.efer ||| 2 ^ 10 }
  else none

/-- The number of the register `EFER`. -/
def EFER : Nat := 0xC0000080

/-- Bits of `cr4`, `EFER` and `cr0`. -/
def PAE : Nat := 2 ^ 5
def LME : Nat := 2 ^ 8
def PG : Nat := 2 ^ 31

/-- The lower half of a register. -/
def low32 (x : Nat) : Nat := x % 2 ^ 32

/-- `wrmsr` to `EFER`. -/
def Cpu.setEfer (c : Cpu) (v : Nat) : Option Cpu :=
  if v.testBit 10 != c.lma || c.pg && v.testBit 8 != c.efer.testBit 8 then none else some { c with efer := v }

/-! ### Instructions -/

inductive Instr
  | cli
  | cld
  /-- `mov ax, v`, `xor ax, ax` -/
  | movAx (v : Nat)
  | movEax (v : Nat)
  | movEcx (v : Nat)
  | movRsp (v : Nat)
  /-- `mov s, ax` -/
  | movSeg (s : Seg)
  | lgdt (a : Nat)
  /-- `mov eax, cr0` and back -/
  | readCr0
  | writeCr0
  | writeCr3
  | readCr4
  | writeCr4
  | orEax (v : Nat)
  | rdmsr
  | wrmsr
  /-- `mov eax, [a]`, `mov rax, [a]`, `mov rsp, [a]` -/
  | loadEax (a : Nat)
  | loadRax (a : Nat)
  | loadRsp (a : Nat)
  | farJump (offset selector : Nat)
  /-- the far jump of 16-bit code whose bytes stand at an offset of the code segment -/
  | farJumpAt (offset : Nat)
  /-- `call` of an address, and `call rax`, with the address of the next instruction -/
  | call (target next : Nat)
  | callRax (next : Nat)
  /-- Nothing: the code goes on at the next block. -/
  | goOn (next : Nat)
deriving DecidableEq, Repr

/-- `call` in 64-bit mode -/
def Cpu.call (walk : Walk) (c : Cpu) (target next : Nat) : Option Cpu := do
  let mem ← writeBytes (c.translate walk) c.mem (sub64 c.rsp 8) 8 next
  some { c with rsp := sub64 c.rsp 8, mem := mem, rip := target }

def exec (walk : Walk) (c : Cpu) : Instr → Option Cpu
  | .cli => some { c with interrupts := false }
  | .cld => some { c with backward := false }
  | .movAx v => some { c with rax := c.rax / 2 ^ 16 * 2 ^ 16 + v }
  | .movEax v => some { c with rax := v }
  | .movEcx v => some { c with rcx := v }
  | .movRsp v => some { c with rsp := v }
  | .movSeg s => do
    let segment ← c.loadSegment walk s (c.rax % 2 ^ 16)
    some { c with seg := fun q => if q = s then segment else c.seg q }
  | .lgdt a => do
    -- 16-bit code loads a base of 24 bits only
    let operand ← c.read walk a (if c.bits = .b64 then 10 else 6)
    some { c with
      gdtLimit := operand % 2 ^ 16
      gdtBase := if c.bits = .b16 then operand / 2 ^ 16 % 2 ^ 24 else operand / 2 ^ 16 }
  | .readCr0 => some { c with rax := low32 c.cr0 }
  | .writeCr0 => c.setCr0 (low32 c.rax)
  | .writeCr3 => some { c with cr3 := low32 c.rax }
  | .readCr4 => some { c with rax := low32 c.cr4 }
  | .writeCr4 => if c.lma then none else some { c with cr4 := low32 c.rax }
  | .orEax v => some { c with rax := low32 c.rax ||| v }
  | .rdmsr => if c.rcx = EFER then some { c with rax := low32 c.efer, rdx := c.efer / 2 ^ 32 } else none
  | .wrmsr => if c.rcx = EFER then c.setEfer (c.rdx * 2 ^ 32 + low32 c.rax) else none
  | .loadEax a => do
    let v ← c.read walk a 4
    some { c with rax := v }
  | .loadRax a => do
    let v ← c.read walk a 8
    some { c with rax := v }
  | .loadRsp a => do
    let v ← c.read walk a 8
    some { c with rsp := v }
  | .farJump offset selector => c.jumpFar walk offset selector
  | .farJumpAt offset => do
    let v ← readBytes c.mem (c.translate walk) (c.cs.base + offset) 5
    if v % 256 = 0xEA then c.jumpFar walk (v / 2 ^ 8 % 2 ^ 16) (v / 2 ^ 24) else none
  | .call target next => c.call walk target next
  | .callRax next => c.call walk c.rax next
  | .goOn next => some { c with rip := next }

/-- Code in a row. Each instruction has to be where the code stands; `rip` moves at the last one. -/
def block (walk : Walk) (a : Nat) : List Instr → Cpu → Option Cpu
  | [], c => some c
  | i :: code, c => if c.fetches walk = some a then (exec walk c i).bind (block walk a code) else none

/-- Code that ends where `rip` moves, with the physical address and the bytes at which it stands. -/
structure Block where
  address : Nat
  bits : Bits
  bytes : List UInt8
  code : List Instr

/-- The processor runs the block at its instruction pointer, if the bytes of the block are there. -/
def step (walk : Walk) (blocks : List Block) (c : Cpu) : Option Cpu := do
  let a ← c.fetches walk
  let b ← blocks.find? (fun b => b.address = a ∧ b.bits = c.bits ∧ Spells c.mem a b.bytes)
  block walk a b.code c

/-! ### Addresses that stand for themselves -/

/-- No byte of a range is moved by paging. -/
def Cpu.Flat (walk : Walk) (c : Cpu) (a n : Nat) : Prop := ∀ x, a ≤ x → x < a + n → c.translate walk x = some x

section
variable {walk : Walk} {c : Cpu} {m : Memory} {translate : Nat → Option Nat} {a b n w : Nat} {l r : List Instr} {i : Instr}

theorem translate_off (off : c.pg = false) (x : Nat) : c.translate walk x = some x := by
  simp [Cpu.translate,off]

theorem flat_off (off : c.pg = false) : c.Flat walk a n := fun x _ _ => translate_off off x

theorem Cpu.Flat.inside (flat : c.Flat walk a n) (low : a ≤ b) (high : b + w ≤ a + n) : c.Flat walk b w :=
  fun x above below => flat x (by omega) (by omega)

theorem readBytes_eq (flat : ∀ x, a ≤ x → x < a + w → translate x = some x) : readBytes m translate a w = some (load m a w) := by
  induction w generalizing a with
  | zero => rfl
  | succ w ih =>
    have first := flat a (by omega) (by omega)
    have rest := @ih (a + 1) (fun x low high => flat x (by omega) (by omega))
    simp [readBytes,first,rest,load]

theorem store_succ (m : Memory) (a w v : Nat) : store (store m a 1 v) (a + 1) w (v / 256) = store m a (w + 1) v := by
  funext b
  by_cases first : b = a
  · rw [store_outside (by omega),store_inside (by omega) (by omega),store_inside (by omega) (by omega)]
  · by_cases inside : a + 1 ≤ b ∧ b < a + 1 + w
    · have power : b - a = (b - (a + 1)) + 1 := by omega
      rw [store_inside inside.1 inside.2,store_inside (by omega) (by omega),Nat.div_div_eq_div_mul,power,Nat.pow_succ,
        Nat.mul_comm 256]
    · rw [store_outside (by omega),store_outside (by omega),store_outside (by omega)]

theorem writeBytes_eq (flat : ∀ x, a ≤ x → x < a + w → translate x = some x) (v : Nat) :
    writeBytes translate m a w v = some (store m a w v) := by
  induction w generalizing a m v with
  | zero =>
    have same : store m a 0 v = m := funext fun b => store_outside (by omega)
    rw [same,writeBytes]
  | succ w ih =>
    have first := flat a (by omega) (by omega)
    have rest := @ih (store m a 1 v) (a + 1) (fun x low high => flat x (by omega) (by omega)) (v / 256)
    simp [writeBytes,first,rest,store_succ]

/-! ### Runs of instructions -/

theorem block_cons (here : c.fetches walk = some a) : block walk a (i :: l) c = (exec walk c i).bind (block walk a l) := if_pos here

/-- The last instruction of a block. -/
theorem block_one (here : c.fetches walk = some a) : block walk a [i] c = exec walk c i := by
  rw [block_cons here]
  exact Option.bind_fun_some _

theorem block_append : block walk a (l ++ r) c = (block walk a l c).bind (block walk a r) := by
  induction l generalizing c with
  | nil => rfl
  | cons i l ih =>
    rw [List.cons_append,block,block]
    split
    · rw [Option.bind_assoc]
      exact Option.bind_congr (fun d _ => ih)
    · rfl

/-! ### The way into 64-bit mode -/

/-- Paging with the tables at `eax`, and long mode. -/
def longMode : List Instr :=
  [.writeCr3,.readCr4,.orEax PAE,.writeCr4,.movEcx EFER,.rdmsr,.orEax LME,.wrmsr,.readCr0,.orEax PG,.writeCr0]

@[simp] theorem low32_low32 (x : Nat) : low32 (low32 x) = low32 x := Nat.mod_mod x _

theorem testBit_low32 {x k : Nat} (low : k < 32) : (low32 x).testBit k = x.testBit k := by
  rw [low32,Nat.testBit_mod_two_pow,decide_eq_true low,Bool.true_and]

theorem testBit_set {x y k : Nat} (low : k < 32) : (low32 (low32 x ||| y)).testBit k = (x.testBit k || y.testBit k) := by
  rw [testBit_low32 low,Nat.testBit_or,testBit_low32 low]

theorem testBit_words {x y k : Nat} (low : k < 32) : (x * 2 ^ 32 + low32 y).testBit k = y.testBit k := by
  rw [low32,Nat.mul_comm,Nat.testBit_two_pow_mul_add x (Nat.mod_lt _ (Nat.two_pow_pos 32)),if_pos low]
  exact testBit_low32 low

theorem longMode_spec (here : c.fetches walk = some a) (pe : c.pe = true) (pg : c.pg = false) (lma : c.lma = false)
    (bits : c.bits = .b32) : ∃ rax rcx rdx cr0 cr4 efer, block walk a longMode c = some { c with
      rax := rax, rcx := rcx, rdx := rdx, cr0 := cr0, cr3 := low32 c.rax, cr4 := cr4, efer := efer } ∧
      cr0.testBit 0 = true ∧ cr0.testBit 31 = true ∧ efer.testBit 10 = true := by
  have place : c.cs.base + c.rip = a := by simpa [Cpu.fetches,Cpu.translate,pg] using here
  unfold Cpu.pg at pg
  unfold Cpu.lma at lma
  unfold Cpu.pe at pe
  have enabled : (low32 c.efer ||| LME).testBit 8 = true := by
    rw [Nat.testBit_or,show LME.testBit 8 = true from rfl,Bool.or_true]
  have inactive : (low32 c.efer ||| LME).testBit 10 = false := by
    rw [Nat.testBit_or,testBit_low32 (by decide),lma]
    rfl
  have pae : (low32 (low32 c.cr4 ||| PAE)).testBit 5 = true := by
    rw [testBit_set (by decide),show PAE.testBit 5 = true from rfl,Bool.or_true]
  have paging : (low32 (low32 c.cr0 ||| PG)).testBit 31 = true := by
    rw [testBit_set (by decide),show PG.testBit 31 = true from rfl,Bool.or_true]
  have protection : (low32 (low32 c.cr0 ||| PG)).testBit 0 = true := by
    rw [testBit_set (by decide),pe]
    rfl
  have active (x : Nat) : (x ||| 2 ^ 10).testBit 10 = true := by
    rw [Nat.testBit_or,show Nat.testBit (2 ^ 10) 10 = true from rfl,Bool.or_true]
  refine ⟨low32 c.cr0 ||| PG,EFER,c.efer / 2 ^ 32,low32 (low32 c.cr0 ||| PG),low32 (low32 c.cr4 ||| PAE),
    (c.efer / 2 ^ 32 * 2 ^ 32 + low32 (low32 c.efer ||| LME)) ||| 2 ^ 10,?_,protection,paging,active _⟩
  simp only [longMode,block,exec,Cpu.fetches,Cpu.translate,Cpu.pg,Cpu.lma,pg,lma,place,Cpu.setEfer,Cpu.setCr0,bits,
    testBit_words (show 8 < 32 by decide),testBit_words (show 10 < 32 by decide),enabled,inactive,pae,paging,protection,
    low32_low32,if_true,if_false,Option.bind_some,Bool.false_eq_true,Bool.not_true,Bool.false_and,Bool.true_and,
    bne_self_eq_false,Bool.or_self]
  rfl

/-- A segment of all 4 GiB. -/
def Segment.Whole (s : Segment) : Prop := s.base = 0 ∧ s.size = 2 ^ 32

theorem linear_zero {s : Segment} (base : s.base = 0) (inside : a + w ≤ s.size) (small : a < 2 ^ 32) :
    c.linear s a w = some a := by
  by_cases long : c.bits = .b64
  · exact if_pos long
  · rw [Cpu.linear,if_neg long,if_pos inside,base,Nat.zero_add,Nat.mod_eq_of_lt small]

theorem linear_long {s : Segment} (bits : c.bits = .b64) : c.linear s a w = some a := if_pos bits

theorem read_eq (linear : c.linear (c.seg .ds) a w = some a) (flat : c.Flat walk a w) :
    c.read walk a w = some (load c.mem a w) := by
  rw [Cpu.read,linear]
  exact readBytes_eq flat

theorem call_spec {sp : Nat} (target next : Nat) (below : sub64 c.rsp 8 = sp) (flat : c.Flat walk sp 8) :
    c.call walk target next = some { c with rsp := sp, mem := store c.mem sp 8 next, rip := target } := by
  rw [Cpu.call,below,writeBytes_eq flat next]
  rfl

/-- The operand of `lgdt` at `g`. -/
def Table (m : Memory) (g limit base : Nat) : Prop := load m g 2 = limit ∧ load m (g + 2) 4 = base

theorem table_operand {g limit base : Nat} (table : Table m g limit base) :
    load m g 6 % 2 ^ 16 = limit ∧ load m g 6 / 2 ^ 16 = base := by
  have parts : load m g 6 = load m g 2 + 256 ^ 2 * load m (g + 2) 4 := load_add m g 2 4
  have low : load m g 2 < 256 ^ 2 := load_lt m g 2
  rw [table.1,table.2] at parts
  rw [table.1] at low
  omega

/-- The processor finds a descriptor in the memory. -/
theorem descriptor_eq {selector : Nat} (global : selector % 8 = 0) (inside : selector + 7 ≤ c.gdtLimit)
    (flat : c.Flat walk (c.gdtBase + selector) 8) :
    c.descriptor walk selector = some (load c.mem (c.gdtBase + selector) 8) := by
  have whole : selector / 8 * 8 = selector := by omega
  rw [Cpu.descriptor,whole,if_pos ⟨by omega,inside⟩]
  exact readBytes_eq flat

/-- A descriptor table and protected mode, from real mode. -/
theorem protect_spec {g limit base : Nat} (here : c.fetches walk = some a) (pg : c.pg = false) (lma : c.lma = false)
    (bits : c.bits = .b16) (linear : c.linear (c.seg .ds) g 6 = some g) (table : Table c.mem g limit base)
    (small : base < 2 ^ 24) : ∃ rax cr0, block walk a [.lgdt g,.readCr0,.orEax 1,.writeCr0] c = some { c with
      rax := rax, cr0 := cr0, gdtLimit := limit, gdtBase := base } ∧ cr0.testBit 0 = true ∧ cr0.testBit 31 = false := by
  obtain ⟨low,high⟩ := table_operand table
  have read := @read_eq walk c g 6 linear (flat_off pg)
  have loaded : exec walk c (.lgdt g) = some { c with gdtLimit := limit, gdtBase := base } := by
    simp only [exec,bits,read,reduceCtorEq,if_true,if_false,Option.bind_eq_bind,Option.bind_some,low,high,Nat.mod_eq_of_lt small]
  have here' : Cpu.fetches walk { c with gdtLimit := limit, gdtBase := base } = some a := here
  have place : c.cs.base + c.rip = a := by simpa [Cpu.fetches,Cpu.translate,pg] using here
  unfold Cpu.pg at pg
  unfold Cpu.lma at lma
  have protection : (low32 (low32 c.cr0 ||| 1)).testBit 0 = true := by
    rw [testBit_set (by decide),show Nat.testBit 1 0 = true from rfl,Bool.or_true]
  have paging : (low32 (low32 c.cr0 ||| 1)).testBit 31 = false := by
    rw [testBit_set (by decide),pg]
    rfl
  refine ⟨low32 c.cr0 ||| 1,low32 (low32 c.cr0 ||| 1),?_,protection,paging⟩
  rw [block_cons here,loaded,Option.bind_some]
  simp only [block,exec,Cpu.fetches,Cpu.translate,Cpu.pg,Cpu.lma,Cpu.setCr0,pg,lma,place,paging,low32_low32,if_true,if_false,
    Option.bind_some,Bool.false_eq_true,Bool.not_false]

/-- The first far jump of protected mode, to 32-bit code. -/
theorem farJumpAt_spec {offset target selector d : Nat} (pe : c.pe = true) (pg : c.pg = false) (lma : c.lma = false)
    (bytes : load c.mem (c.cs.base + offset) 5 = 0xEA + 2 ^ 8 * target + 2 ^ 24 * selector) (near : target < 2 ^ 16)
    (global : selector % 8 = 0) (named : 8 ≤ selector) (inside : selector + 7 ≤ c.gdtLimit)
    (found : load c.mem (c.gdtBase + selector) 8 = d) (code : Descriptor.runs d = true) (wide : Descriptor.wide d = true)
    (whole : target < Descriptor.size d) : exec walk c (.farJumpAt offset) = some { c with
      cs := ⟨selector,Descriptor.base d,Descriptor.size d⟩, bits := .b32, rip := target } := by
  have read : readBytes c.mem (c.translate walk) (c.cs.base + offset) 5 = some (0xEA + 2 ^ 8 * target + 2 ^ 24 * selector) := by
    rw [readBytes_eq (fun x _ _ => translate_off pg x),bytes]
  have descriptor : c.descriptor walk selector = some d := by
    rw [descriptor_eq global inside (flat_off pg),found]
  have opcode : (0xEA + 2 ^ 8 * target + 2 ^ 24 * selector) % 256 = 0xEA := by omega
  have low : (0xEA + 2 ^ 8 * target + 2 ^ 24 * selector) / 2 ^ 8 % 2 ^ 16 = target := by omega
  have high : (0xEA + 2 ^ 8 * target + 2 ^ 24 * selector) / 2 ^ 24 = selector := by omega
  have other : selector / 4 ≠ 0 := by omega
  simp only [exec,read,Option.bind_eq_bind,Option.bind_some,opcode,low,high,if_true,Cpu.jumpFar,pe,lma,other,descriptor,code,
    wide,whole,if_false,Bool.not_true,Bool.false_and,Bool.false_eq_true]

/-- Descriptors of 64-bit code. -/
def LongCode (d : Nat) : Prop := Descriptor.runs d = true ∧ Descriptor.long d = true ∧ Descriptor.wide d = false

/-- A far jump to 64-bit code after a new descriptor table. -/
theorem enter64_spec {g limit base offset selector : Nat} (here : c.fetches walk = some a) (pe : c.pe = true)
    (lma : c.lma = true) (bits : c.bits = .b32) (whole : (c.seg .ds).Whole) (table : Table c.mem g limit base)
    (operand : c.Flat walk g 6) (below : g + 6 ≤ 2 ^ 32) (global : selector % 8 = 0) (named : 8 ≤ selector)
    (inside : selector + 7 ≤ limit) (flat : c.Flat walk (base + selector) 8)
    (code : LongCode (load c.mem (base + selector) 8)) :
    block walk a [.lgdt g,.farJump offset selector] c = some { c with
      gdtLimit := limit, gdtBase := base, cs := ⟨selector,0,0⟩, bits := .b64, rip := offset } := by
  obtain ⟨low,high⟩ := table_operand table
  have loaded : exec walk c (.lgdt g) = some { c with gdtLimit := limit, gdtBase := base } := by
    have read := read_eq (linear_zero whole.1 (by rw [whole.2]; exact below) (by omega)) operand
    simp only [exec,bits,read,reduceCtorEq,if_false,Option.bind_eq_bind,Option.bind_some,low,high]
  have jumped : exec walk { c with gdtLimit := limit, gdtBase := base } (.farJump offset selector) = some { c with
      gdtLimit := limit, gdtBase := base, cs := ⟨selector,0,0⟩, bits := .b64, rip := offset } := by
    have found : Cpu.descriptor walk { c with gdtLimit := limit, gdtBase := base } selector =
        some (load c.mem (base + selector) 8) := descriptor_eq global inside flat
    have protection : Cpu.pe { c with gdtLimit := limit, gdtBase := base } = true := pe
    have active : Cpu.lma { c with gdtLimit := limit, gdtBase := base } = true := lma
    have other : selector / 4 ≠ 0 := by omega
    simp only [exec,Cpu.jumpFar,protection,active,found,other,code.1,code.2.1,code.2.2,if_true,if_false,Bool.not_true,
      Bool.false_eq_true,Bool.and_self,Option.bind_eq_bind,Option.bind_some]
  have here' : Cpu.fetches walk { c with gdtLimit := limit, gdtBase := base } = some a := here
  rw [block_cons here,loaded,Option.bind_some,block_cons here',jumped]
  rfl

/-- Segment registers that are loaded with one selector. -/
theorem movSegs_spec {segs : List Seg} {v : Segment} (here : c.fetches walk = some a)
    (loads : ∀ s ∈ segs, ∀ seg, (∀ q, seg q = c.seg q ∨ seg q = v) →
      Cpu.loadSegment walk { c with seg := seg } s (c.rax % 2 ^ 16) = some v) :
    block walk a (segs.map .movSeg) c = some { c with seg := fun q => if q ∈ segs then v else c.seg q } := by
  induction segs generalizing c with
  | nil => rfl
  | cons s segs ih =>
    set d : Cpu := { c with seg := fun q => if q = s then v else c.seg q } with d_eq
    have first : exec walk c (.movSeg s) = some d := by
      rw [exec,show c.loadSegment walk s (c.rax % 2 ^ 16) = some v from loads s (by simp) c.seg (fun _ => .inl rfl)]
      rfl
    have either (q : Seg) : d.seg q = c.seg q ∨ d.seg q = v := by
      by_cases this : q = s
      · exact .inr (if_pos this)
      · exact .inl (if_neg this)
    have rest : block walk a (segs.map .movSeg) d = some { d with seg := fun q => if q ∈ segs then v else d.seg q } :=
      ih here (fun s' later seg reached => loads s' (by simp [later]) seg (fun q => (reached q).elim (fun same => same ▸ either q) .inr))
    rw [List.map_cons,block_cons here,first,Option.bind_some,rest]
    have same : (fun q => if q ∈ segs then v else d.seg q) = fun q => if q ∈ s :: segs then v else c.seg q := by
      funext q
      by_cases later : q ∈ segs <;> simp [later,d_eq]
    rw [same]

/-- `mov ax, 0`, and null segments in the order of the code. -/
def nullSegments : List Instr := .movAx 0 :: [.ss,.ds,.es,.fs,.gs].map .movSeg

theorem nullSegments_spec (here : c.fetches walk = some a) (pe : c.pe = true) (bits : c.bits = .b64) :
    ∃ rax, block walk a nullSegments c = some { c with rax := rax, seg := fun _ => ⟨0,0,0⟩ } := by
  set d : Cpu := { c with rax := c.rax / 2 ^ 16 * 2 ^ 16 + 0 }
  have low : d.rax % 2 ^ 16 = 0 := by
    show (c.rax / 2 ^ 16 * 2 ^ 16 + 0) % 2 ^ 16 = 0
    omega
  have null (s : Seg) (seg : Seg → Segment) : Cpu.loadSegment walk { d with seg := seg } s (d.rax % 2 ^ 16) = some ⟨0,0,0⟩ := by
    have protection : Cpu.pe { d with seg := seg } = true := pe
    have wide : ¬(s = .ss ∧ Cpu.bits { d with seg := seg } ≠ .b64) := fun h => h.2 bits
    rw [low,Cpu.loadSegment,if_pos protection,if_pos rfl,if_neg wide]
  have here' : d.fetches walk = some a := here
  have loaded := movSegs_spec here' (fun s (_ : s ∈ [Seg.ss,.ds,.es,.fs,.gs]) seg _ => null s seg)
  refine ⟨d.rax,?_⟩
  rw [nullSegments,block_cons here]
  refine loaded.trans ?_
  have all : (fun q => if q ∈ [Seg.ss,.ds,.es,.fs,.gs] then (⟨0,0,0⟩ : Segment) else d.seg q) = fun _ => ⟨0,0,0⟩ := by
    funext q
    cases q <;> rfl
  rw [all]

end

end NekoOs.ModeSwitch
