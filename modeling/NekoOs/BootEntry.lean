import NekoOs.ModeSwitch
import NekoOs.Paging

/-!
From the boot loader to `kernel_main`: the checks of the processor, the first page
tables, and the switch to 64-bit mode. Calls between the routines are calls of
functions; what they leave on the stack is not modelled.
-/
namespace NekoOs.BootEntry
open ByteMemory Words ModeSwitch Paging

/-- The translation of the hardware. -/
def hardware : Walk := fun m cr3 a => (walk m (address cr3) a).map (fun t => t.frame + a % t.size)

/-- Where the symbols of `main.nasm` and `main64.nasm` are linked. The kernel lies in the first GiB. -/
structure Linked where
  start : Nat
  enable_paging : Nat
  long_mode_start : Nat
  /-- the label after the call of `kernel_main` -/
  hang : Nat
  kernel_main : Nat
  gdt64 : Nat
  page_table_l4 : Nat
  text : ∀ a ∈ [start,enable_paging,long_mode_start], a < 2 ^ 30
  rodata : gdt64 + 26 ≤ page_table_l4
  aligned : page_table_l4 % 4096 = 0
  bss : page_table_l4 + 28672 ≤ 2 ^ 30

/-- The tables and the stack follow one another. -/
def Linked.page_table_l3 (b : Linked) : Nat := b.page_table_l4 + 4096
def Linked.page_table_l2 (b : Linked) : Nat := b.page_table_l3 + 4096
def Linked.stack_top (b : Linked) : Nat := b.page_table_l2 + 4096 + 4096 * 4

theorem Linked.page_table_l2_eq (b : Linked) : b.page_table_l2 = b.page_table_l4 + 8192 := by
  unfold Linked.page_table_l2 Linked.page_table_l3
  omega

theorem Linked.stack_top_eq (b : Linked) : b.stack_top = b.page_table_l4 + 28672 := by
  have tables := b.page_table_l2_eq
  unfold Linked.stack_top
  omega

/-- What `cpuid` gives for a leaf. -/
structure Leaf where
  eax : Nat
  ebx : Nat
  ecx : Nat
  edx : Nat

/-- Whether the bit `ID` of the flags can be changed, and `cpuid`. -/
structure Processor where
  id_flag : Bool
  cpuid : Nat → Leaf

def popfd (p : Processor) (flags v : Nat) : Nat :=
  if p.id_flag || v.testBit 21 == flags.testBit 21 then v else v ^^^ 2 ^ 21

def MAGIC : Nat := 0x36d76289

def check_multiboot (eax : Nat) : Bool := eax == MAGIC

def check_cpuid (p : Processor) (flags : Nat) : Bool := popfd p flags (flags ^^^ 2 ^ 21) != flags

def check_long_mode (p : Processor) : Bool :=
  if (p.cpuid 0x80000000).eax < 0x80000001 then false else (p.cpuid 0x80000001).edx.testBit 29

/-- The last four stores before `hlt`. -/
def error (al : UInt8) (m : Memory) : Memory :=
  let m := store m 0xb8000 4 0x4f524f45
  let m := store m 0xb8004 4 0x4f3a4f52
  let m := store m 0xb8008 4 0x4f204f20
  store m 0xb800a 1 al.toNat

/-- The value of `eax` for the page with number `ecx`. -/
def huge_page (ecx : Nat) : Nat := 0x200000 * ecx % 2 ^ 32 ||| 0b10000011

/-- `.loop` in `setup_page_tables` -/
def setup_loop (page_table_l2 : Nat) : (ecx remaining : Nat) → Memory → Memory
  | _, 0, m => m
  | ecx, remaining+1, m => setup_loop page_table_l2 (ecx + 1) remaining (store m (page_table_l2 + ecx * 8) 4 (huge_page ecx))

def setup_page_tables (b : Linked) (m : Memory) : Memory :=
  let m := store m b.page_table_l4 4 (b.page_table_l3 ||| 0b11)
  let m := store m b.page_table_l3 4 (b.page_table_l2 ||| 0b11)
  setup_loop b.page_table_l2 0 512 m

def enable_paging (b : Linked) : List Instr := .movEax b.page_table_l4 :: longMode

/-- The end of `start`. -/
def leave (b : Linked) : List Instr := [.lgdt (b.gdt64 + 16),.farJump b.long_mode_start 8]

def long_mode_start (b : Linked) : List Instr := nullSegments ++ [.movRsp b.stack_top,.call b.kernel_main b.hang]

/-- The processor has stopped, or it is in `kernel_main`. -/
inductive Outcome
  | halted (m : Memory)
  | kernel_main (c : Cpu)

/-- From the call of `enable_paging` to the call of `kernel_main`. -/
def switch (b : Linked) (c : Cpu) : Option Cpu := do
  let c ← block hardware b.enable_paging (enable_paging b) { c with rip := b.enable_paging }
  let c ← block hardware b.start (leave b) { c with rip := b.start }
  block hardware b.long_mode_start (long_mode_start b) c

def start (b : Linked) (p : Processor) (flags : Nat) (c : Cpu) : Option Outcome :=
  let c := { c with rsp := b.stack_top, rdi := low32 c.rbx, rsi := low32 c.rax }
  if !check_multiboot (low32 c.rax) then some (.halted (error 77 c.mem))
  else if !check_cpuid p flags then some (.halted (error 67 c.mem))
  else if !check_long_mode p then some (.halted (error 76 c.mem))
  else (switch b { c with rbx := (p.cpuid 0x80000001).ebx, mem := setup_page_tables b c.mem }).map .kernel_main

/-! ### Checks -/

theorem check_cpuid_iff (p : Processor) (flags : Nat) : check_cpuid p flags = p.id_flag := by
  have flipped : (flags ^^^ 2 ^ 21).testBit 21 = !flags.testBit 21 := by
    rw [Nat.testBit_xor,Nat.testBit_two_pow_self,Bool.xor_true]
  cases able : p.id_flag with
  | true =>
    have changed : flags ^^^ 2 ^ 21 ≠ flags := by
      intro same
      rw [same] at flipped
      cases bit : flags.testBit 21 <;> simp [bit] at flipped
    rw [check_cpuid,popfd,able,Bool.true_or,if_pos rfl]
    exact bne_iff_ne.mpr changed
  | false =>
    have back : popfd p flags (flags ^^^ 2 ^ 21) = flags := by
      rw [popfd,able,flipped,if_neg (by cases flags.testBit 21 <;> simp),Nat.xor_assoc,Nat.xor_self,Nat.xor_zero]
    rw [check_cpuid,back,bne_self_eq_false]

/-- The first six characters on the screen, and their attributes. -/
def shown (m : Memory) : List (UInt8 × UInt8) := (List.range 6).map (fun i => (m (0xb8000 + 2 * i),m (0xb8001 + 2 * i)))

theorem error_shows (al : UInt8) (m : Memory) :
    shown (error al m) = [(69,0x4f),(82,0x4f),(82,0x4f),(58,0x4f),(32,0x4f),(al,0x4f)] := by
  simp [shown,error,store,List.range,List.range.loop]

/-! ### The page tables -/

section
variable {b : Linked} {m n : Memory}

theorem huge_page_eq {j : Nat} (small : j < 512) : huge_page j = j * 2 ^ 21 + 0x83 ∧
    huge_page j = j * 2 ^ 21 / 2 ^ 21 * 2 ^ 21 ||| PAGE_WRITABLE ||| (PAGE_PRESENT ||| PAGE_HUGE) := by
  have product : 0x200000 * j % 2 ^ 32 = 2 ^ 21 * j := Nat.mod_eq_of_lt (by omega)
  have whole : j * 2 ^ 21 / 2 ^ 21 * 2 ^ 21 = 2 ^ 21 * j := by omega
  constructor
  · rw [huge_page,product,← Nat.two_pow_add_eq_or_of_lt (by decide : 0b10000011 < 2 ^ 21),Nat.mul_comm]
  · rw [huge_page,product,whole,Nat.or_assoc]
    rfl

theorem setup_loop_outside {l2 ecx remaining x : Nat} (outside : x < l2 + ecx * 8 ∨ l2 + (ecx + remaining) * 8 ≤ x) :
    setup_loop l2 ecx remaining m x = m x := by
  induction remaining generalizing ecx m with
  | zero => rfl
  | succ remaining ih =>
    rw [setup_loop,ih (by omega)]
    exact store_outside (by omega)

/-- The loop writes the lower halves of the entries, -/
theorem setup_loop_low {l2 ecx remaining j : Nat} (stop : ecx + remaining ≤ 512) (from' : ecx ≤ j) (below : j < ecx + remaining) :
    load (setup_loop l2 ecx remaining m) (l2 + j * 8) 4 = huge_page j := by
  induction remaining generalizing ecx m with
  | zero => omega
  | succ remaining ih =>
    rw [setup_loop]
    by_cases first : j = ecx
    · subst first
      have later : load (setup_loop l2 (j + 1) remaining (store m (l2 + j * 8) 4 (huge_page j))) (l2 + j * 8) 4 =
          load (store m (l2 + j * 8) 4 (huge_page j)) (l2 + j * 8) 4 :=
        load_congr (fun x low high => setup_loop_outside (.inl (by omega)))
      rw [later]
      apply load_store_same
      rw [(huge_page_eq (show j < 512 by omega)).1]
      omega
    · exact ih (by omega) (by omega) (by omega)

/-- and not the upper ones. -/
theorem setup_loop_high (l2 ecx remaining j : Nat) :
    load (setup_loop l2 ecx remaining m) (l2 + j * 8 + 4) 4 = load m (l2 + j * 8 + 4) 4 := by
  induction remaining generalizing ecx m with
  | zero => rfl
  | succ remaining ih =>
    rw [setup_loop,ih]
    exact load_store_disjoint (by omega)

/-- The entries of the first page tables. -/
structure Tables (b : Linked) (m : Memory) : Prop where
  l4 : ∀ i < 512, entry m b.page_table_l4 i = if i = 0 then b.page_table_l3 + 3 else 0
  l3 : ∀ i < 512, entry m b.page_table_l3 i = if i = 0 then b.page_table_l2 + 3 else 0
  l2 : ∀ i < 512, entry m b.page_table_l2 i = huge_page i

theorem Tables.congr (tables : Tables b m) (same : ∀ x, b.page_table_l4 ≤ x → x < b.page_table_l4 + 12288 → n x = m x) :
    Tables b n := by
  have l3 : b.page_table_l3 = b.page_table_l4 + 4096 := rfl
  have l2 := b.page_table_l2_eq
  have keeps (table i : Nat) (small : i < 512) (low : b.page_table_l4 ≤ table) (high : table ≤ b.page_table_l4 + 8192) :
      entry n table i = entry m table i := entry_congr small (fun x above below => same x (by omega) (by omega))
  refine ⟨fun i small => ?_,fun i small => ?_,fun i small => ?_⟩
  · rw [keeps _ i small (by omega) (by omega),tables.l4 i small]
  · rw [keeps _ i small (by omega) (by omega),tables.l3 i small]
  · rw [keeps _ i small (by omega) (by omega),tables.l2 i small]

/-- Bytes that the loader has cleared. -/
def Zero (m : Memory) (a n : Nat) : Prop := ∀ x, a ≤ x → x < a + n → m x = 0

theorem Zero.loads {a len x w : Nat} (zero : Zero m a len) (low : a ≤ x) (high : x + w ≤ a + len) : load m x w = 0 := by
  have same : load m x w = load (fill m a len 0) x w :=
    load_congr (fun y above below => by rw [fill_inside (by omega) (by omega),zero y (by omega) (by omega)])
  rw [same,load_fill_zero low high]

theorem Zero.inside {a len x w : Nat} (zero : Zero m a len) (low : a ≤ x) (high : x + w ≤ a + len) : Zero m x w :=
  fun y above below => zero y (by omega) (by omega)

/-- A table with one entry whose lower half has been written. -/
theorem first_entry {table next i : Nat} (zero : Zero m table 4096) (aligned : next % 4096 = 0) (small : next < 2 ^ 30)
    (inside : i < 512) : entry (store m table 4 (next ||| 0b11)) table i = if i = 0 then next + 3 else 0 := by
  have value : next ||| 0b11 = next + 3 := (Nat.or_assoc next PAGE_PRESENT PAGE_WRITABLE).symm.trans (table_entry aligned)
  split
  next first =>
    have high : load (store m table 4 (next ||| 0b11)) (table + 4) 4 = 0 := by
      rw [load_store_disjoint (by omega),zero.loads (by omega) (by omega)]
    have low : load (store m table 4 (next ||| 0b11)) table 4 = next + 3 := by
      rw [load_store_same (by rw [value]; omega),value]
    rw [first,entry,Nat.mul_zero,Nat.add_zero,load_add _ table 4 4,high,low,Nat.mul_zero,Nat.add_zero]
  next other =>
    rw [entry,load_store_disjoint (by omega),zero.loads (by omega) (by omega)]

theorem setup_tables (zero : Zero m b.page_table_l4 12288) : Tables b (setup_page_tables b m) := by
  have aligned := b.aligned
  have bss := b.bss
  have l3 : b.page_table_l3 = b.page_table_l4 + 4096 := rfl
  have l2 := b.page_table_l2_eq
  set m₁ := store m b.page_table_l4 4 (b.page_table_l3 ||| 0b11)
  set m₂ := store m₁ b.page_table_l3 4 (b.page_table_l2 ||| 0b11)
  have zero₁ : Zero m₁ b.page_table_l3 8192 :=
    fun x low high => (store_outside (by omega)).trans (zero x (by omega) (by omega))
  have zero₂ : Zero m₂ b.page_table_l2 4096 :=
    fun x low high => (store_outside (by omega)).trans (zero₁ x (by omega) (by omega))
  have upper (table i : Nat) (small : i < 512) (below : table + 4096 ≤ b.page_table_l2) :
      entry (setup_page_tables b m) table i = entry m₂ table i :=
    entry_congr small (fun x _ high => setup_loop_outside (.inl (by omega)))
  refine ⟨fun i small => ?_,fun i small => ?_,fun i small => ?_⟩
  · have kept : entry m₂ b.page_table_l4 i = entry m₁ b.page_table_l4 i := load_store_disjoint (by omega)
    rw [upper _ i small (by omega),kept,first_entry (zero.inside (by omega) (by omega)) (by omega) (by omega) small]
  · rw [upper _ i small (by omega),first_entry (zero₁.inside (by omega) (by omega)) (by omega) (by omega) small]
  · have high : load m₂ (b.page_table_l2 + i * 8 + 4) 4 = 0 := zero₂.loads (by omega) (by omega)
    rw [entry,Nat.mul_comm 8,load_add _ _ 4 4,setup_page_tables,setup_loop_low (by omega) (by omega) (by omega),setup_loop_high,
      high,Nat.mul_zero,Nat.add_zero]

theorem setup_outside {x : Nat} (outside : x < b.page_table_l4 ∨ b.page_table_l4 + 12288 ≤ x) :
    setup_page_tables b m x = m x := by
  have l3 : b.page_table_l3 = b.page_table_l4 + 4096 := rfl
  have l2 := b.page_table_l2_eq
  rw [setup_page_tables,setup_loop_outside (by omega),store_outside (by omega),store_outside (by omega)]

/-- The first GiB is mapped to itself in pages of 2 MiB, and nothing else is mapped. -/
theorem walk_tables (tables : Tables b m) (v : Nat) : walk m b.page_table_l4 v =
    if v % 2 ^ 48 < 2 ^ 30 then some ⟨v % 2 ^ 48 / 2 ^ 21 * 2 ^ 21,PAGE_WRITABLE ||| PAGE_PRESENT,2 ^ 21⟩ else none := by
  have aligned := b.aligned
  have bss := b.bss
  have l3 : b.page_table_l3 = b.page_table_l4 + 4096 := rfl
  have l2 := b.page_table_l2_eq
  obtain ⟨present₃,huge₃,address₃⟩ := @table_entry_bits b.page_table_l3 (by omega) (by omega)
  obtain ⟨present₂,huge₂,address₂⟩ := @table_entry_bits b.page_table_l2 (by omega) (by omega)
  have index₄ := tables.l4 (v / 2 ^ 39 % 512) (Nat.mod_lt _ (by decide))
  have index₃ := tables.l3 (v / 2 ^ 30 % 512) (Nat.mod_lt _ (by decide))
  have index₂ := tables.l2 (v / 2 ^ 21 % 512) (Nat.mod_lt _ (by decide))
  have absent : present 0 = false := rfl
  rw [walk]
  by_cases inside : v % 2 ^ 48 < 2 ^ 30
  · rw [if_pos (by omega)] at index₄ index₃
    obtain ⟨_,leaf⟩ := @huge_page_eq (v / 2 ^ 21 % 512) (Nat.mod_lt _ (by decide))
    have page : v % 2 ^ 48 / 2 ^ 21 = v / 2 ^ 21 % 512 := by omega
    have isPresent : present (huge_page (v / 2 ^ 21 % 512)) = true := by
      rw [present,leaf,Nat.testBit_or,Nat.testBit_or,show (PAGE_PRESENT ||| PAGE_HUGE).testBit 0 = true from rfl,Bool.or_true]
    have isHuge : huge (huge_page (v / 2 ^ 21 % 512)) = true := by
      rw [huge,leaf,Nat.testBit_or,Nat.testBit_or,show (PAGE_PRESENT ||| PAGE_HUGE).testBit 7 = true from rfl,Bool.or_true]
    have translated : translation 1 (huge_page (v / 2 ^ 21 % 512)) =
        ⟨v / 2 ^ 21 % 512 * 2 ^ 21,PAGE_WRITABLE ||| PAGE_PRESENT,2 ^ 21⟩ := by
      rw [leaf]
      have read := translation_leaf (show 1 ≤ 1 from Nat.le_refl 1)
        (show v / 2 ^ 21 % 512 * 2 ^ 21 < 2 ^ 52 by omega) (show PAGE_WRITABLE &&& attributes = PAGE_WRITABLE from rfl)
        (show PAGE_PRESENT ||| PAGE_HUGE < 2 ^ 12 by decide) (by decide)
      have size : pageSize 1 = 2 ^ 21 := rfl
      rw [size,Nat.mul_div_cancel _ (by decide)] at read
      rw [Nat.mul_div_cancel _ (by decide)]
      exact read
    simp only [index₄,present₃,huge₃,address₃,index₃,present₂,huge₂,address₂,index₂,isPresent,isHuge,translated,page,inside,
      Bool.not_true,Bool.or_self,Bool.false_eq_true,if_true,if_false]
  · rw [if_neg inside]
    by_cases first : v / 2 ^ 39 % 512 = 0
    · rw [if_pos first] at index₄
      rw [if_neg (by omega)] at index₃
      simp only [index₄,present₃,huge₃,address₃,index₃,absent,Bool.not_true,Bool.not_false,Bool.or_self,Bool.false_eq_true,
        if_true,if_false]
    · rw [if_neg first] at index₄
      simp only [index₄,absent,Bool.not_false,Bool.true_or,if_true]

/-- With these tables no address of the first GiB is moved. -/
theorem flat_low {c : Cpu} {a len : Nat} (tables : Tables b c.mem) (cr3 : c.cr3 = b.page_table_l4) (pg : c.pg = true)
    (low : a + len ≤ 2 ^ 30) : c.Flat hardware a len := by
  intro x _ below
  have aligned := b.aligned
  have bss := b.bss
  have root : address b.page_table_l4 = b.page_table_l4 := by
    unfold address
    omega
  rw [Cpu.translate,if_pos pg,hardware,cr3,root,walk_tables tables,if_pos (by omega)]
  simp only [Option.map_some,Option.some.injEq]
  omega

/-! ### The whole way -/

/-- The descriptor of the code segment in `gdt64`. -/
def code64 : Nat := 2 ^ 43 + 2 ^ 44 + 2 ^ 47 + 2 ^ 53

theorem code64_long : LongCode code64 := ⟨by decide,by decide,by decide⟩

/-- 32-bit protected mode without paging, and flat segments. -/
structure Flat32 (c : Cpu) : Prop where
  pe : c.pe = true
  pg : c.pg = false
  lma : c.lma = false
  bits : c.bits = .b32
  cs : c.cs.base = 0
  ds : (c.seg .ds).Whole

structure Gdt64 (b : Linked) (m : Memory) : Prop where
  descriptor : load m (b.gdt64 + 8) 8 = code64
  pointer : Table m (b.gdt64 + 16) 15 b.gdt64

/-- What the boot loader hands over: protected mode with flat segments, and the kernel in memory with its `.bss` cleared. -/
structure Handoff (b : Linked) (c : Cpu) : Prop where
  flat : Flat32 c
  gdt : Gdt64 b c.mem
  cleared : Zero c.mem b.page_table_l4 12288

/-- `kernel_main(mb2_info, mb2_magic)` is called in 64-bit mode, on the stack and with the first GiB mapped to itself. -/
structure Booted (b : Linked) (c d : Cpu) : Prop where
  bits : d.bits = .b64
  active : d.pe = true ∧ d.pg = true ∧ d.lma = true
  rip : d.rip = b.kernel_main
  rdi : d.rdi = low32 c.rbx
  rsi : d.rsi = MAGIC
  rsp : d.rsp = b.stack_top - 8
  returns : load d.mem d.rsp 8 = b.hang % 256 ^ 8
  segments : d.cs = ⟨8,0,0⟩ ∧ ∀ s, d.seg s = ⟨0,0,0⟩
  interrupts : d.interrupts = c.interrupts
  cr3 : d.cr3 = b.page_table_l4
  map : ∀ v, walk d.mem b.page_table_l4 v =
    if v % 2 ^ 48 < 2 ^ 30 then some ⟨v % 2 ^ 48 / 2 ^ 21 * 2 ^ 21,PAGE_WRITABLE ||| PAGE_PRESENT,2 ^ 21⟩ else none
  memory : ∀ x, x < b.page_table_l4 ∨ b.stack_top ≤ x → d.mem x = c.mem x

variable {c : Cpu}

/-- `enable_paging`, on the tables that have been set up. -/
theorem enable_paging_spec (pe : c.pe = true) (pg : c.pg = false) (lma : c.lma = false)
    (bits : c.bits = .b32) (cs : c.cs.base = 0) (rip : c.rip = b.enable_paging) :
    ∃ rax rcx rdx cr0 cr4 efer, block hardware b.enable_paging (enable_paging b) c = some { c with
      rax := rax, rcx := rcx, rdx := rdx, cr0 := cr0, cr3 := b.page_table_l4, cr4 := cr4, efer := efer } ∧
      cr0.testBit 0 = true ∧ cr0.testBit 31 = true ∧ efer.testBit 10 = true := by
  have bss := b.bss
  have here : c.fetches hardware = some b.enable_paging := by
    rw [Cpu.fetches,cs,rip,Nat.zero_add,translate_off pg]
  obtain ⟨rax,rcx,rdx,cr0,cr4,efer,runs,bits'⟩ :=
    @longMode_spec hardware { c with rax := b.page_table_l4 } b.enable_paging here pe pg lma bits
  refine ⟨rax,rcx,rdx,cr0,cr4,efer,?_,bits'⟩
  have root : low32 b.page_table_l4 = b.page_table_l4 := Nat.mod_eq_of_lt (by omega)
  rw [enable_paging,block_cons here,exec,Option.bind_some,runs,root]

/-- The far jump to `long_mode_start`. -/
theorem leave_spec (tables : Tables b c.mem) (pe : c.pe = true) (pg : c.pg = true) (lma : c.lma = true) (bits : c.bits = .b32)
    (cs : c.cs.base = 0) (ds : (c.seg .ds).Whole) (cr3 : c.cr3 = b.page_table_l4) (rip : c.rip = b.start)
    (descriptor : load c.mem (b.gdt64 + 8) 8 = code64) (pointer : Table c.mem (b.gdt64 + 16) 15 b.gdt64) :
    block hardware b.start (leave b) c = some { c with
      gdtLimit := 15, gdtBase := b.gdt64, cs := ⟨8,0,0⟩, bits := .b64, rip := b.long_mode_start } := by
  have bss := b.bss
  have rodata := b.rodata
  have flat {a len : Nat} (low : a + len ≤ 2 ^ 30) : c.Flat hardware a len := flat_low tables cr3 pg low
  have text := b.text b.start (by simp)
  have here : c.fetches hardware = some b.start := by
    rw [Cpu.fetches,cs,rip,Nat.zero_add]
    exact flat (show b.start + 1 ≤ 2 ^ 30 by omega) _ (by omega) (by omega)
  exact enter64_spec here pe lma bits ds pointer (flat (by omega)) (by omega) (by decide) (by decide) (by decide)
    (flat (by omega)) (by rw [descriptor]; exact code64_long)

/-- `long_mode_start` up to the call. -/
theorem long_mode_start_spec (tables : Tables b c.mem) (pe : c.pe = true) (pg : c.pg = true) (bits : c.bits = .b64)
    (cs : c.cs.base = 0) (cr3 : c.cr3 = b.page_table_l4) (rip : c.rip = b.long_mode_start) :
    ∃ rax, block hardware b.long_mode_start (long_mode_start b) c = some { c with
      rax := rax, rsp := b.stack_top - 8, rip := b.kernel_main, seg := fun _ => ⟨0,0,0⟩
      mem := store c.mem (b.stack_top - 8) 8 b.hang } := by
  have bss := b.bss
  have top := b.stack_top_eq
  have flat {a len : Nat} (low : a + len ≤ 2 ^ 30) : c.Flat hardware a len := flat_low tables cr3 pg low
  have text := b.text b.long_mode_start (by simp)
  have here : c.fetches hardware = some b.long_mode_start := by
    rw [Cpu.fetches,cs,rip,Nat.zero_add]
    exact flat (show b.long_mode_start + 1 ≤ 2 ^ 30 by omega) _ (by omega) (by omega)
  obtain ⟨rax,nulls⟩ := nullSegments_spec here pe bits
  refine ⟨rax,?_⟩
  set d : Cpu := { c with rax := rax, seg := fun _ => ⟨0,0,0⟩ }
  have here' : d.fetches hardware = some b.long_mode_start := here
  have here'' : Cpu.fetches hardware { d with rsp := b.stack_top } = some b.long_mode_start := here
  have below : sub64 b.stack_top 8 = b.stack_top - 8 := sub64_eq (by omega) (by unfold limit64; omega)
  have called := @call_spec hardware { d with rsp := b.stack_top } _ b.kernel_main b.hang below (flat (by omega))
  rw [long_mode_start,block_append,nulls,Option.bind_some,block_cons here',exec,Option.bind_some,block_cons here'',exec,called]
  rfl

/-- The processor has stopped with `ERR: ` and a letter on the screen, white on red, and nothing else is changed. -/
def Failed (c : Cpu) (letter : UInt8) (result : Option Outcome) : Prop :=
  ∃ m, result = some (.halted m) ∧ shown m = [(69,0x4f),(82,0x4f),(82,0x4f),(58,0x4f),(32,0x4f),(letter,0x4f)] ∧
    ∀ x, x < 0xb8000 ∨ 0xb800c ≤ x → m x = c.mem x

theorem failed (letter : UInt8) : Failed c letter (some (.halted (error letter c.mem))) := by
  refine ⟨_,rfl,error_shows letter c.mem,fun x outside => ?_⟩
  rw [error,store_outside (by omega),store_outside (by omega),store_outside (by omega),store_outside (by omega)]

theorem check_long_mode_iff (p : Processor) : check_long_mode p = false ↔
    (p.cpuid 0x80000000).eax < 0x80000001 ∨ (p.cpuid 0x80000001).edx.testBit 29 = false := by
  rw [check_long_mode]
  split <;> simp [*]

/-- What the switch leaves, over what it starts from. -/
structure Switched (b : Linked) (c d : Cpu) : Prop where
  bits : d.bits = .b64
  active : d.pe = true ∧ d.pg = true ∧ d.lma = true
  segments : d.cs = ⟨8,0,0⟩ ∧ ∀ s, d.seg s = ⟨0,0,0⟩
  cr3 : d.cr3 = b.page_table_l4
  rip : d.rip = b.kernel_main
  rsp : d.rsp = b.stack_top - 8
  mem : d.mem = store c.mem (b.stack_top - 8) 8 b.hang
  kept : d.rdi = c.rdi ∧ d.rsi = c.rsi ∧ d.interrupts = c.interrupts

theorem switch_spec (tables : Tables b c.mem) (flat : Flat32 c) (gdt : Gdt64 b c.mem) :
    ∃ d, switch b c = some d ∧ Switched b c d := by
  obtain ⟨rax,rcx,rdx,cr0,cr4,efer,enabled,pe,pg,lma⟩ :=
    @enable_paging_spec b { c with rip := b.enable_paging } flat.pe flat.pg flat.lma flat.bits flat.cs rfl
  have left := @leave_spec b { c with
    rax := rax, rcx := rcx, rdx := rdx, cr0 := cr0, cr3 := b.page_table_l4, cr4 := cr4, efer := efer, rip := b.start }
    tables pe pg lma flat.bits flat.cs flat.ds rfl rfl gdt.descriptor gdt.pointer
  obtain ⟨rax',called⟩ := @long_mode_start_spec b { c with
    rax := rax, rcx := rcx, rdx := rdx, cr0 := cr0, cr3 := b.page_table_l4, cr4 := cr4, efer := efer
    gdtLimit := 15, gdtBase := b.gdt64, cs := ⟨8,0,0⟩, bits := .b64, rip := b.long_mode_start } tables pe pg rfl rfl rfl rfl
  refine ⟨_,Eq.trans ?_ called,?_⟩
  · rw [switch,enabled]
    simp only [Option.bind_eq_bind,Option.bind_some]
    rw [left,Option.bind_some]
  · exact ⟨rfl,⟨pe,pg,lma⟩,⟨rfl,fun _ => rfl⟩,rfl,rfl,rfl,rfl,rfl,rfl,rfl⟩

/-- After the three checks the kernel runs. -/
theorem start_runs {p : Processor} {flags : Nat} (handoff : Handoff b c) (magic : low32 c.rax = MAGIC) (able : p.id_flag = true)
    (long : check_long_mode p = true) : ∃ d, start b p flags c = some (.kernel_main d) ∧ Booted b c d := by
  have bss := b.bss
  have rodata := b.rodata
  have top := b.stack_top_eq
  have multiboot : check_multiboot (low32 c.rax) = true := by simp [check_multiboot,magic]
  have cpuid : check_cpuid p flags = true := by rw [check_cpuid_iff,able]
  obtain ⟨m,m_eq⟩ : ∃ m, m = setup_page_tables b c.mem := ⟨_,rfl⟩
  have tables : Tables b m := m_eq ▸ setup_tables handoff.cleared
  have outside {x : Nat} (away : x < b.page_table_l4 ∨ b.page_table_l4 + 12288 ≤ x) : m x = c.mem x := m_eq ▸ setup_outside away
  have kept (a w : Nat) (below : a + w ≤ b.page_table_l4) : load m a w = load c.mem a w :=
    load_congr (fun x _ high => outside (.inl (by omega)))
  have gdt : Gdt64 b m := by
    refine ⟨?_,?_,?_⟩
    · rw [kept _ _ (by omega),handoff.gdt.descriptor]
    · rw [kept _ _ (by omega),handoff.gdt.pointer.1]
    · rw [kept _ _ (by omega),handoff.gdt.pointer.2]
  have flat : Flat32 { c with
      rsp := b.stack_top, rdi := low32 c.rbx, rsi := low32 c.rax, rbx := (p.cpuid 0x80000001).ebx, mem := m } :=
    ⟨handoff.flat.pe,handoff.flat.pg,handoff.flat.lma,handoff.flat.bits,handoff.flat.cs,handoff.flat.ds⟩
  obtain ⟨d,runs,switched⟩ := switch_spec tables flat gdt
  have mem : d.mem = store m (b.stack_top - 8) 8 b.hang := switched.mem
  refine ⟨d,?_,?_⟩
  · simp only [start,multiboot,cpuid,long,Bool.not_true,Bool.false_eq_true,if_false,← m_eq,runs,Option.map_some]
  · obtain ⟨rdi,rsi,interrupts⟩ := switched.kept
    have tables' : Tables b d.mem := by
      rw [mem]
      exact tables.congr (fun x _ high => store_outside (.inl (by omega)))
    refine ⟨switched.bits,switched.active,switched.rip,rdi,rsi.trans magic,switched.rsp,?_,switched.segments,interrupts,
      switched.cr3,walk_tables tables',fun x away => ?_⟩
    · rw [mem,switched.rsp,load_store_mod]
    · rw [mem,store_outside (by omega),outside (by omega)]

/-- What the boot code does with any processor, in the order of its checks. -/
theorem start_boots (b : Linked) (p : Processor) (flags : Nat) (handoff : Handoff b c) :
    if low32 c.rax ≠ MAGIC then Failed c 77 (start b p flags c)
    else if p.id_flag = false then Failed c 67 (start b p flags c)
    else if (p.cpuid 0x80000000).eax < 0x80000001 ∨ (p.cpuid 0x80000001).edx.testBit 29 = false then
      Failed c 76 (start b p flags c)
    else ∃ d, start b p flags c = some (.kernel_main d) ∧ Booted b c d := by
  split_ifs with magic able long
  · have multiboot : check_multiboot (low32 c.rax) = false := by simp [check_multiboot,magic]
    simp only [start,multiboot,Bool.not_false,if_true]
    exact failed 77
  · have multiboot : check_multiboot (low32 c.rax) = true := by simpa [check_multiboot] using magic
    have cpuid : check_cpuid p flags = false := by rw [check_cpuid_iff,able]
    simp only [start,multiboot,cpuid,Bool.not_true,Bool.not_false,Bool.false_eq_true,if_true,if_false]
    exact failed 67
  · have multiboot : check_multiboot (low32 c.rax) = true := by simpa [check_multiboot] using magic
    have cpuid : check_cpuid p flags = true := by rw [check_cpuid_iff]; simpa using able
    have unsupported := (check_long_mode_iff p).mpr long
    simp only [start,multiboot,cpuid,unsupported,Bool.not_true,Bool.not_false,Bool.false_eq_true,if_true,if_false]
    exact failed 76
  · refine start_runs handoff (by simpa using magic) (by simpa using able) ?_
    rw [← check_long_mode_iff] at long
    simpa using long

end

theorem sample_text : ∀ a ∈ [0x101000,0x101100,0x101200], a < 2 ^ 30 := by simp

theorem sample_rodata : 0x300000 + 26 ≤ 0x400000 ∧ 0x400000 % 4096 = 0 ∧ 0x400000 + 28672 ≤ 2 ^ 30 := by decide

def sampleLinked : Linked where
  start := 0x101000
  enable_paging := 0x101100
  long_mode_start := 0x101200
  hang := 0x101230
  kernel_main := 0x102000
  gdt64 := 0x300000
  page_table_l4 := 0x400000
  text := sample_text
  rodata := sample_rodata.1
  aligned := sample_rodata.2.1
  bss := sample_rodata.2.2

def sampleMemory : Memory := store (store (store (fun _ => 0) 0x300008 8 code64) 0x300010 2 15) 0x300012 4 0x300000

/-- The loader's hand-over with the information at `0x9000`. -/
def sampleCpu : Cpu :=
  ⟨MAGIC,0x9000,0,0,0,0,0,0x101000,false,false,1,0,0,0,0,0,.b32,⟨8,0,2 ^ 32⟩,fun _ => ⟨16,0,2 ^ 32⟩,sampleMemory⟩

theorem sample_handoff : Handoff sampleLinked sampleCpu where
  flat := ⟨rfl,rfl,rfl,rfl,rfl,rfl,rfl⟩
  gdt := by
    refine ⟨?_,?_,?_⟩
    · show load sampleMemory 0x300008 8 = _
      rw [sampleMemory,load_store_disjoint (by decide),load_store_disjoint (by decide),load_store_same (by decide)]
    · show load sampleMemory 0x300010 2 = _
      rw [sampleMemory,load_store_disjoint (by decide),load_store_same (by decide)]
    · show load sampleMemory 0x300012 4 = _
      rw [sampleMemory,load_store_same (by decide)]
      rfl
  cleared x low _ := by
    have low' : 0x400000 ≤ x := low
    show sampleMemory x = 0
    rw [sampleMemory,store_outside (by omega),store_outside (by omega),store_outside (by omega)]

/-- A processor with long mode gets the information to the kernel. -/
theorem start_boots_sample : ∃ d, start sampleLinked ⟨true,fun _ => ⟨0x80000008,0,0,2 ^ 29⟩⟩ 2 sampleCpu = some (.kernel_main d) ∧
    d.rdi = 0x9000 ∧ d.rip = 0x102000 := by
  have boots := start_boots sampleLinked ⟨true,fun _ => ⟨0x80000008,0,0,2 ^ 29⟩⟩ 2 sample_handoff
  rw [if_neg (by decide),if_neg (by decide),if_neg (by decide)] at boots
  obtain ⟨d,runs,booted⟩ := boots
  exact ⟨d,runs,booted.rdi,booted.rip⟩

end NekoOs.BootEntry
