import NekoOs.ApStart
import NekoOs.BootEntry
import NekoOs.Mem
import NekoOs.Simulation

/-!
The trampoline of the application processors: `smp_init` copies and patches it, and a
processor that is started there goes through real, protected and 64-bit mode to
`ap_main`.
-/
namespace NekoOs.Trampoline
open ByteMemory ModeSwitch ApStart Transitions Simulation

def SMP_TRAMPOLINE_ADDR : Nat := 0x8000

/-- `label - trampoline_start + 0x8000`, as the assembly writes it. -/
def physical (label : Nat) : Nat := label + 0x8000

theorem physical_eq (label : Nat) : physical label = SMP_TRAMPOLINE_ADDR + label := Nat.add_comm label 0x8000

/-- What the assembler makes of the code, by its labels, and the bytes with which it aligns the tables. The code
    of `trampoline_lm` is cut after the load of the stack. -/
structure Assembled where
  start : List UInt8
  pm : List UInt8
  lm : List UInt8
  lm_call : List UInt8
  hang : List UInt8
  align_gdt : List UInt8
  align_gdt64 : List UInt8
  align_pml4 : List UInt8
  lm_some : 0 < lm.length
  page : start.length + pm.length + lm.length + lm_call.length + hang.length + align_gdt.length + align_gdt64.length +
    align_pml4.length + 81 ≤ 4096

section
variable (A : Assembled)

/-! Labels, from `trampoline_start` on. -/

def trampoline_pm_jmp : Nat := A.start.length
def trampoline_pm : Nat := trampoline_pm_jmp A + 5
def trampoline_lm : Nat := trampoline_pm A + A.pm.length
def lm_call : Nat := trampoline_lm A + A.lm.length
def hang : Nat := lm_call A + A.lm_call.length
def trampoline_gdt : Nat := hang A + A.hang.length + A.align_gdt.length
def trampoline_gdt_ptr : Nat := trampoline_gdt A + 24
def trampoline_gdt64 : Nat := trampoline_gdt_ptr A + 6 + A.align_gdt64.length
def trampoline_gdt64_ptr : Nat := trampoline_gdt64 A + 16
def trampoline_pml4 : Nat := trampoline_gdt64_ptr A + 10 + A.align_pml4.length
def trampoline_stack : Nat := trampoline_pml4 A + 4
def trampoline_entry : Nat := trampoline_stack A + 8
def trampoline_end : Nat := trampoline_entry A + 8

def code32 : Nat := 0x00CF9A000000FFFF
def data32 : Nat := 0x00CF92000000FFFF

/-- The bytes from `trampoline_start` to `trampoline_end`. -/
@[irreducible] def image : List UInt8 :=
  A.start ++ (0xEA :: littleEndian 2 0 ++ littleEndian 2 0x08) ++ A.pm ++ A.lm ++ A.lm_call ++ A.hang ++
  A.align_gdt ++ (littleEndian 8 0 ++ littleEndian 8 code32 ++ littleEndian 8 data32) ++
  (littleEndian 2 23 ++ littleEndian 4 (physical (trampoline_gdt A))) ++
  A.align_gdt64 ++ (littleEndian 8 0 ++ littleEndian 8 BootEntry.code64) ++
  (littleEndian 2 15 ++ littleEndian 8 (physical (trampoline_gdt64 A))) ++
  A.align_pml4 ++ littleEndian 4 0 ++ littleEndian 8 0 ++ littleEndian 8 0

theorem length_image : (image A).length = trampoline_end A := by
  simp only [image,List.length_append,List.length_cons,length_littleEndian,trampoline_end,trampoline_entry,trampoline_stack,
    trampoline_pml4,trampoline_gdt64_ptr,trampoline_gdt64,trampoline_gdt_ptr,trampoline_gdt,hang,lm_call,trampoline_lm,
    trampoline_pm,trampoline_pm_jmp]

theorem end_le : trampoline_end A ≤ 4096 := by
  have page := A.page
  simp only [trampoline_end,trampoline_entry,trampoline_stack,trampoline_pml4,trampoline_gdt64_ptr,trampoline_gdt64,
    trampoline_gdt_ptr,trampoline_gdt,hang,lm_call,trampoline_lm,trampoline_pm,trampoline_pm_jmp]
  omega

/-! ### `smp_init` -/

/-- The copy of the trampoline. -/
def copy (trampoline_start : Nat) (m : Memory) : Memory :=
  Mem.copyUp SMP_TRAMPOLINE_ADDR trampoline_start 0 (trampoline_end A) m

/-- The pointers to the tables and the far jump. -/
def patch (m : Memory) : Memory :=
  let gdt_phys := SMP_TRAMPOLINE_ADDR + trampoline_gdt A
  let gdt64_phys := SMP_TRAMPOLINE_ADDR + trampoline_gdt64 A
  let pm_target := SMP_TRAMPOLINE_ADDR + trampoline_pm A
  let jmp_patch := SMP_TRAMPOLINE_ADDR + trampoline_pm_jmp A
  let m := store m (SMP_TRAMPOLINE_ADDR + trampoline_gdt_ptr A + 2) 4 gdt_phys
  let m := store m (SMP_TRAMPOLINE_ADDR + trampoline_gdt64_ptr A + 2) 4 gdt64_phys
  let m := store m jmp_patch 1 0xEA
  let m := store m (jmp_patch + 1) 1 (pm_target % 2 ^ 8)
  let m := store m (jmp_patch + 2) 1 (pm_target / 2 ^ 8 % 2 ^ 8)
  let m := store m (jmp_patch + 3) 1 0x08
  store m (jmp_patch + 4) 1 0x00

/-- The data area, for one processor. -/
def patchAp (cr3 stack entry : Nat) (m : Memory) : Memory :=
  let m := store m (SMP_TRAMPOLINE_ADDR + trampoline_pml4 A) 4 (cr3 % 2 ^ 32)
  let m := store m (SMP_TRAMPOLINE_ADDR + trampoline_stack A) 8 stack
  store m (SMP_TRAMPOLINE_ADDR + trampoline_entry A) 8 entry

/-- The data area as `ApStart` has it. -/
def data (m : Memory) : Data where
  trampoline_pml4 := load m (SMP_TRAMPOLINE_ADDR + trampoline_pml4 A) 4
  trampoline_stack := load m (SMP_TRAMPOLINE_ADDR + trampoline_stack A) 8
  trampoline_entry := load m (SMP_TRAMPOLINE_ADDR + trampoline_entry A) 8

/-! ### The code -/

/-- The segments of `trampoline_start`, and the way to protected mode with the patched jump at its end. -/
def start_segments : List Instr := [.cli,.cld,.movAx 0] ++ [Seg.ds,.es,.ss].map .movSeg

def start_jump : List Instr :=
  [.lgdt (physical (trampoline_gdt_ptr A)),.readCr0,.orEax 1,.writeCr0] ++ [.farJumpAt (trampoline_pm_jmp A)]

def start_code : List Instr := start_segments ++ start_jump A

/-- The segments of `trampoline_pm` and the load of `eax`. -/
def pm_data : List Instr :=
  (.movAx 0x10 :: [Seg.ds,.es,.ss].map .movSeg) ++ [.loadEax (physical (trampoline_pml4 A))]

def pm_code : List Instr :=
  pm_data A ++ longMode ++ [.lgdt (physical (trampoline_gdt64_ptr A)),.farJump (physical (trampoline_lm A)) 0x08]

def lm_code : List Instr := nullSegments ++ [.loadRsp (physical (trampoline_stack A)),.goOn (physical (lm_call A))]

def call_code : List Instr := [.loadRax (physical (trampoline_entry A)),.callRax (physical (hang A))]

def blocks : List Block :=
  [⟨SMP_TRAMPOLINE_ADDR,.b16,A.start,start_code A⟩,
    ⟨SMP_TRAMPOLINE_ADDR + trampoline_pm A,.b32,A.pm,pm_code A⟩,
    ⟨SMP_TRAMPOLINE_ADDR + trampoline_lm A,.b64,A.lm,lm_code A⟩,
    ⟨SMP_TRAMPOLINE_ADDR + lm_call A,.b64,A.lm_call,call_code A⟩]

/-! ### What `smp_init` leaves at `SMP_TRAMPOLINE_ADDR` -/

variable {A} {m n : Memory}

theorem spells_shift {a b : Nat} {bytes : List UInt8} (same : ∀ i < bytes.length, n (b + i) = m (a + i))
    (spells : Spells m a bytes) : Spells n b bytes := by
  induction bytes generalizing a b with
  | nil => trivial
  | cons x bytes ih =>
    obtain ⟨first,rest⟩ := spells
    refine ⟨(same 0 (by simp)).trans first,ih (fun i inside => ?_) rest⟩
    rw [Nat.add_assoc,Nat.add_assoc,Nat.add_comm 1]
    exact same (i + 1) (by simpa using inside)

/-- The parts of the image that stay as they are assembled. -/
structure Placed (A : Assembled) (m : Memory) (a : Nat) : Prop where
  start : Spells m a A.start
  pm : Spells m (a + trampoline_pm A) A.pm
  lm : Spells m (a + trampoline_lm A) A.lm
  lm_call : Spells m (a + lm_call A) A.lm_call
  code32 : Spells m (a + trampoline_gdt A + 8) (littleEndian 8 code32)
  data32 : Spells m (a + trampoline_gdt A + 16) (littleEndian 8 data32)
  gdt_limit : Spells m (a + trampoline_gdt_ptr A) (littleEndian 2 23)
  code64 : Spells m (a + trampoline_gdt64 A + 8) (littleEndian 8 BootEntry.code64)
  gdt64_limit : Spells m (a + trampoline_gdt64_ptr A) (littleEndian 2 15)

/-- Where each label is, from the one before. -/
theorem labels (A : Assembled) : trampoline_pm_jmp A = A.start.length ∧ trampoline_pm A = trampoline_pm_jmp A + 5 ∧
    trampoline_lm A = trampoline_pm A + A.pm.length ∧ lm_call A = trampoline_lm A + A.lm.length ∧
    hang A = lm_call A + A.lm_call.length ∧ trampoline_gdt A = hang A + A.hang.length + A.align_gdt.length ∧
    trampoline_gdt_ptr A = trampoline_gdt A + 24 ∧
    trampoline_gdt64 A = trampoline_gdt_ptr A + 6 + A.align_gdt64.length ∧
    trampoline_gdt64_ptr A = trampoline_gdt64 A + 16 ∧
    trampoline_pml4 A = trampoline_gdt64_ptr A + 10 + A.align_pml4.length ∧
    trampoline_stack A = trampoline_pml4 A + 4 ∧ trampoline_entry A = trampoline_stack A + 8 ∧
    trampoline_end A = trampoline_entry A + 8 :=
  ⟨rfl,rfl,rfl,rfl,rfl,rfl,rfl,rfl,rfl,rfl,rfl,rfl,rfl⟩

theorem placed {a : Nat} (spells : Spells m a (image A)) : Placed A m a := by
  simp only [image,spells_append,List.length_append,List.length_cons,length_littleEndian,Nat.reduceAdd] at spells
  obtain ⟨⟨⟨⟨⟨⟨⟨⟨⟨⟨⟨⟨⟨⟨⟨start,_⟩,pm⟩,lm⟩,call⟩,_⟩,_⟩,⟨_,code⟩,data⟩,limit,_⟩,_⟩,_,long⟩,limit64,_⟩,_⟩,_⟩,_⟩,_⟩ := spells
  obtain ⟨jmp',pm',lm',call',hang',gdt',ptr',gdt64',ptr64',_⟩ := labels A
  have move {x y : Nat} {bytes : List UInt8} (there : Spells m x bytes) (same : x = y) : Spells m y bytes := same ▸ there
  exact ⟨start,move pm (by omega),move lm (by omega),move call (by omega),move code (by omega),
    move data (by omega),move limit (by omega),move long (by omega),move limit64 (by omega)⟩

/-- What a processor needs of the memory at `SMP_TRAMPOLINE_ADDR` besides its data. -/
structure Ready (A : Assembled) (m : Memory) : Prop where
  start : Spells m SMP_TRAMPOLINE_ADDR A.start
  jmp : load m (SMP_TRAMPOLINE_ADDR + trampoline_pm_jmp A) 5 =
    0xEA + 2 ^ 8 * (SMP_TRAMPOLINE_ADDR + trampoline_pm A) + 2 ^ 24 * 0x08
  pm : Spells m (SMP_TRAMPOLINE_ADDR + trampoline_pm A) A.pm
  lm : Spells m (SMP_TRAMPOLINE_ADDR + trampoline_lm A) A.lm
  lm_call : Spells m (SMP_TRAMPOLINE_ADDR + lm_call A) A.lm_call
  code32 : load m (SMP_TRAMPOLINE_ADDR + trampoline_gdt A + 8) 8 = code32
  data32 : load m (SMP_TRAMPOLINE_ADDR + trampoline_gdt A + 16) 8 = data32
  gdt : Table m (SMP_TRAMPOLINE_ADDR + trampoline_gdt_ptr A) 23 (SMP_TRAMPOLINE_ADDR + trampoline_gdt A)
  code64 : load m (SMP_TRAMPOLINE_ADDR + trampoline_gdt64 A + 8) 8 = BootEntry.code64
  gdt64 : Table m (SMP_TRAMPOLINE_ADDR + trampoline_gdt64_ptr A) 15 (SMP_TRAMPOLINE_ADDR + trampoline_gdt64 A)

theorem Spells.congr {a : Nat} {bytes : List UInt8} (spells : Spells m a bytes)
    (same : ∀ x, a ≤ x → x < a + bytes.length → n x = m x) : Spells n a bytes :=
  spells_shift (fun i inside => same (a + i) (by omega) (by omega)) spells

/-- Nothing of that is in the data area. -/
theorem Ready.congr (ready : Ready A m)
    (same : ∀ x, SMP_TRAMPOLINE_ADDR ≤ x → x < SMP_TRAMPOLINE_ADDR + trampoline_pml4 A → n x = m x) : Ready A n := by
  obtain ⟨jmp',pm',lm',call',hang',gdt',ptr',gdt64',ptr64',pml4',_⟩ := labels A
  have keeps {a w : Nat} (low : SMP_TRAMPOLINE_ADDR ≤ a) (high : a + w ≤ SMP_TRAMPOLINE_ADDR + trampoline_pml4 A) :
      load n a w = load m a w := load_congr (fun x above below => same x (by omega) (by omega))
  have stays {a : Nat} {bytes : List UInt8} (spells : Spells m a bytes) (low : SMP_TRAMPOLINE_ADDR ≤ a)
      (high : a + bytes.length ≤ SMP_TRAMPOLINE_ADDR + trampoline_pml4 A) : Spells n a bytes :=
    Spells.congr spells (fun x above below => same x (by omega) (by omega))
  exact ⟨stays ready.start (by omega) (by omega),(keeps (by omega) (by omega)).trans ready.jmp,
    stays ready.pm (by omega) (by omega),stays ready.lm (by omega) (by omega),stays ready.lm_call (by omega) (by omega),
    (keeps (by omega) (by omega)).trans ready.code32,(keeps (by omega) (by omega)).trans ready.data32,
    ⟨(keeps (by omega) (by omega)).trans ready.gdt.1,(keeps (by omega) (by omega)).trans ready.gdt.2⟩,
    (keeps (by omega) (by omega)).trans ready.code64,
    ⟨(keeps (by omega) (by omega)).trans ready.gdt64.1,(keeps (by omega) (by omega)).trans ready.gdt64.2⟩⟩

/-- Single bytes that follow one another. -/
theorem load_bytes (m : Memory) (a : Nat) : load m a 5 = load m a 1 + 2 ^ 8 * load m (a + 1) 1 + 2 ^ 16 * load m (a + 2) 1 +
    2 ^ 24 * load m (a + 3) 1 + 2 ^ 32 * load m (a + 4) 1 := by
  simp only [load,Nat.add_assoc,Nat.reduceAdd]
  omega

theorem patch_outside {x : Nat}
    (jmp : x < SMP_TRAMPOLINE_ADDR + trampoline_pm_jmp A ∨ SMP_TRAMPOLINE_ADDR + trampoline_pm A ≤ x)
    (gdt : x < SMP_TRAMPOLINE_ADDR + trampoline_gdt_ptr A + 2 ∨ SMP_TRAMPOLINE_ADDR + trampoline_gdt_ptr A + 6 ≤ x)
    (gdt64 : x < SMP_TRAMPOLINE_ADDR + trampoline_gdt64_ptr A + 2 ∨ SMP_TRAMPOLINE_ADDR + trampoline_gdt64_ptr A + 6 ≤ x) :
    patch A m x = m x := by
  obtain ⟨jmp',pm',_⟩ := labels A
  rw [patch,store_outside (by omega),store_outside (by omega),store_outside (by omega),store_outside (by omega),
    store_outside (by omega),store_outside (by omega),store_outside (by omega)]

/-- The patched far jump goes to `trampoline_pm`. -/
theorem patch_jmp (A : Assembled) (m : Memory) : load (patch A m) (SMP_TRAMPOLINE_ADDR + trampoline_pm_jmp A) 5 =
    0xEA + 2 ^ 8 * (SMP_TRAMPOLINE_ADDR + trampoline_pm A) + 2 ^ 24 * 0x08 := by
  obtain ⟨jmp',pm',lm',call',hang',gdt',ptr',gdt64',ptr64',pml4',stack',entry',end'⟩ := labels A
  have page := end_le A
  have address : SMP_TRAMPOLINE_ADDR = 0x8000 := rfl
  set jmp_patch := SMP_TRAMPOLINE_ADDR + trampoline_pm_jmp A with jmp_eq
  set pm_target := SMP_TRAMPOLINE_ADDR + trampoline_pm A
  have byte₀ : load (patch A m) jmp_patch 1 = 0xEA := by
    rw [patch,load_store_disjoint (by omega),load_store_disjoint (by omega),load_store_disjoint (by omega),
      load_store_disjoint (by omega),load_store_same (by decide)]
  have byte₁ : load (patch A m) (jmp_patch + 1) 1 = pm_target % 2 ^ 8 := by
    rw [patch,load_store_disjoint (by omega),load_store_disjoint (by omega),load_store_disjoint (by omega),
      load_store_same (by omega)]
  have byte₂ : load (patch A m) (jmp_patch + 2) 1 = pm_target / 2 ^ 8 % 2 ^ 8 := by
    rw [patch,load_store_disjoint (by omega),load_store_disjoint (by omega),load_store_same (by omega)]
  have byte₃ : load (patch A m) (jmp_patch + 3) 1 = 0x08 := by
    rw [patch,load_store_disjoint (by omega),load_store_same (by decide)]
  have byte₄ : load (patch A m) (jmp_patch + 4) 1 = 0x00 := by
    rw [patch,load_store_same (by decide)]
  rw [load_bytes,byte₀,byte₁,byte₂,byte₃,byte₄]
  omega

/-- The copied trampoline with its patches. -/
theorem patch_ready (placed : Placed A m SMP_TRAMPOLINE_ADDR) : Ready A (patch A m) := by
  obtain ⟨jmp',pm',lm',call',hang',gdt',ptr',gdt64',ptr64',pml4',stack',entry',end'⟩ := labels A
  have page := end_le A
  have address : SMP_TRAMPOLINE_ADDR = 0x8000 := rfl
  have stays {a len : Nat} {bytes : List UInt8} (spells : Spells m a bytes) (length : bytes.length = len)
      (jmp : a + len ≤ SMP_TRAMPOLINE_ADDR + trampoline_pm_jmp A ∨ SMP_TRAMPOLINE_ADDR + trampoline_pm A ≤ a)
      (gdt : a + len ≤ SMP_TRAMPOLINE_ADDR + trampoline_gdt_ptr A + 2 ∨ SMP_TRAMPOLINE_ADDR + trampoline_gdt_ptr A + 6 ≤ a)
      (gdt64 : a + len ≤ SMP_TRAMPOLINE_ADDR + trampoline_gdt64_ptr A + 2) : Spells (patch A m) a bytes :=
    Spells.congr spells (fun x low high => patch_outside (by omega) (by omega) (by omega))
  have number {a w v : Nat} (small : v < 256 ^ w) (spells : Spells (patch A m) a (littleEndian w v)) :
      load (patch A m) a w = v := by rw [load_littleEndian spells,Nat.mod_eq_of_lt small]
  have first : load (patch A m) (SMP_TRAMPOLINE_ADDR + trampoline_gdt_ptr A + 2) 4 = SMP_TRAMPOLINE_ADDR + trampoline_gdt A := by
    rw [patch,load_store_disjoint (by omega),load_store_disjoint (by omega),load_store_disjoint (by omega),
      load_store_disjoint (by omega),load_store_disjoint (by omega),load_store_disjoint (by omega),load_store_same (by omega)]
  have second : load (patch A m) (SMP_TRAMPOLINE_ADDR + trampoline_gdt64_ptr A + 2) 4 =
      SMP_TRAMPOLINE_ADDR + trampoline_gdt64 A := by
    rw [patch,load_store_disjoint (by omega),load_store_disjoint (by omega),load_store_disjoint (by omega),
      load_store_disjoint (by omega),load_store_disjoint (by omega),load_store_same (by omega)]
  have code32' := stays placed.code32 (length_littleEndian 8 _) (by omega) (by omega) (by omega)
  have data32' := stays placed.data32 (length_littleEndian 8 _) (by omega) (by omega) (by omega)
  have gdt_limit := stays placed.gdt_limit (length_littleEndian 2 _) (by omega) (by omega) (by omega)
  have code64 := stays placed.code64 (length_littleEndian 8 _) (by omega) (by omega) (by omega)
  have gdt64_limit := stays placed.gdt64_limit (length_littleEndian 2 _) (by omega) (by omega) (by omega)
  exact {
    start := stays placed.start rfl (by omega) (by omega) (by omega)
    jmp := patch_jmp A m
    pm := stays placed.pm rfl (by omega) (by omega) (by omega)
    lm := stays placed.lm rfl (by omega) (by omega) (by omega)
    lm_call := stays placed.lm_call rfl (by omega) (by omega) (by omega)
    code32 := number (by decide) code32'
    data32 := number (by decide) data32'
    gdt := ⟨number (by decide) gdt_limit,first⟩
    code64 := number (by decide) code64
    gdt64 := ⟨number (by decide) gdt64_limit,second⟩ }

theorem copy_placed {trampoline_start : Nat} (linked : Spells m trampoline_start (image A))
    (above : SMP_TRAMPOLINE_ADDR < trampoline_start) : Placed A (copy A trampoline_start m) SMP_TRAMPOLINE_ADDR := by
  refine placed (@spells_shift m _ trampoline_start _ (image A) (fun i inside => ?_) linked)
  rw [length_image] at inside
  rw [copy,Mem.copyUp_spec above,if_pos (by omega),Nat.add_sub_cancel_left]

theorem patchAp_outside {cr3 stack entry x : Nat}
    (outside : x < SMP_TRAMPOLINE_ADDR + trampoline_pml4 A ∨ SMP_TRAMPOLINE_ADDR + trampoline_end A ≤ x) :
    patchAp A cr3 stack entry m x = m x := by
  obtain ⟨_,_,_,_,_,_,_,_,_,pml4,stack',entry',end'⟩ := labels A
  rw [patchAp,store_outside (by omega),store_outside (by omega),store_outside (by omega)]

theorem patchAp_ready {cr3 stack entry : Nat} (ready : Ready A m) : Ready A (patchAp A cr3 stack entry m) :=
  ready.congr (fun _ _ below => patchAp_outside (.inl below))

theorem data_patchAp {cr3 stack entry : Nat} (small : stack < 2 ^ 64) (small' : entry < 2 ^ 64) :
    data A (patchAp A cr3 stack entry m) = ⟨cr3 % 2 ^ 32,stack,entry⟩ := by
  obtain ⟨_,_,_,_,_,_,_,_,_,pml4,stack',entry',end'⟩ := labels A
  have first : load (patchAp A cr3 stack entry m) (SMP_TRAMPOLINE_ADDR + trampoline_pml4 A) 4 = cr3 % 2 ^ 32 := by
    rw [patchAp,load_store_disjoint (by omega),load_store_disjoint (by omega),load_store_same (by omega)]
  have second : load (patchAp A cr3 stack entry m) (SMP_TRAMPOLINE_ADDR + trampoline_stack A) 8 = stack := by
    rw [patchAp,load_store_disjoint (by omega),load_store_same (by omega)]
  have third : load (patchAp A cr3 stack entry m) (SMP_TRAMPOLINE_ADDR + trampoline_entry A) 8 = entry := by
    rw [patchAp,load_store_same (by omega)]
  rw [data,first,second,third]

/-! ### The way of a processor -/

/-- After the start-up command for the page of the trampoline. -/
structure Started (c : Cpu) : Prop where
  pe : c.pe = false
  pg : c.pg = false
  lma : c.lma = false
  bits : c.bits = .b16
  cs : c.cs = ⟨0x800,0x8000,0x10000⟩
  rip : c.rip = 0
  seg : ∀ s, (c.seg s).size = 0x10000

/-- At `trampoline_pm`. -/
structure Protected (A : Assembled) (c : Cpu) : Prop where
  pe : c.pe = true
  pg : c.pg = false
  lma : c.lma = false
  bits : c.bits = .b32
  cs : c.cs.base = 0
  rip : c.rip = SMP_TRAMPOLINE_ADDR + trampoline_pm A
  gdt : c.gdtLimit = 23 ∧ c.gdtBase = SMP_TRAMPOLINE_ADDR + trampoline_gdt A
  interrupts : c.interrupts = false

/-- In 64-bit mode at an address. -/
structure Long (c : Cpu) (rip : Nat) : Prop where
  pe : c.pe = true
  pg : c.pg = true
  lma : c.lma = true
  bits : c.bits = .b64
  cs : c.cs = ⟨8,0,0⟩
  rip : c.rip = rip
  interrupts : c.interrupts = false

variable {walk : Walk} {c : Cpu}

/-- The processor takes a block of its mode whose bytes are there. -/
theorem step_block (before after : List Block) (b : Block) (whole : blocks A = before ++ b :: after)
    (other : ∀ b' ∈ before, b'.address ≠ b.address ∨ b'.bits ≠ b.bits) (here : c.fetches walk = some b.address)
    (bits : c.bits = b.bits) (spells : Spells c.mem b.address b.bytes) :
    ModeSwitch.step walk (blocks A) c = block walk b.address b.code c := by
  have none' : before.find? (fun b' => b'.address = b.address ∧ b'.bits = b.bits ∧ Spells c.mem b.address b'.bytes) = none := by
    rw [List.find?_eq_none]
    intro b' member taken
    obtain ⟨address,mode,_⟩ := of_decide_eq_true taken
    exact (other b' member).elim (fun away => away address) (fun away => away mode)
  rw [ModeSwitch.step,here,whole]
  simp only [Option.bind_eq_bind,Option.bind_some,List.find?_append,bits,none',Option.none_or,List.find?_cons,spells,true_and,
    decide_true]

theorem code32_runs : Descriptor.runs code32 = true ∧ Descriptor.wide code32 = true ∧ Descriptor.base code32 = 0 ∧
    Descriptor.size code32 = 2 ^ 32 := by decide

theorem data32_loads (s : Seg) : Descriptor.loads s data32 = true ∧ Descriptor.base data32 = 0 ∧
    Descriptor.size data32 = 2 ^ 32 := by
  cases s <;> decide

/-- Segments in real mode, for a data area in the first 64 KiB. -/
theorem real_segments {a : Nat} (here : c.fetches walk = some a) (pe : c.pe = false) (seg : ∀ s, (c.seg s).size = 0x10000) :
    ∃ rax seg, block walk a start_segments c = some { c with
      interrupts := false, backward := false, rax := rax, seg := seg } ∧ seg .ds = ⟨0,0,0x10000⟩ := by
  obtain ⟨rax,zero⟩ : ∃ rax, rax = c.rax / 2 ^ 16 * 2 ^ 16 + 0 := ⟨_,rfl⟩
  have low : rax % 2 ^ 16 = 0 := by omega
  have first : block walk a [.cli,.cld,.movAx 0] c = some { c with interrupts := false, backward := false, rax := rax } := by
    rw [block_cons here,exec,Option.bind_some,block_cons (by exact here),exec,Option.bind_some,block_one (by exact here),exec,
      zero]
  -- real mode keeps the sizes of the segments
  have real (s : Seg) (reached : Seg → Segment) (before : ∀ q, reached q = c.seg q ∨ reached q = ⟨0,0,0x10000⟩) :
      Cpu.loadSegment walk { c with interrupts := false, backward := false, rax := rax, seg := reached } s (rax % 2 ^ 16) =
        some ⟨0,0,0x10000⟩ := by
    have size : (reached s).size = 0x10000 := by
      rcases before s with same | same
      · rw [same]
        exact seg s
      · rw [same]
    have unprotected : Cpu.pe { c with interrupts := false, backward := false, rax := rax, seg := reached } = false := pe
    rw [low,Cpu.loadSegment,if_neg (by rw [unprotected]; decide),size]
  have loaded := @movSegs_spec walk { c with interrupts := false, backward := false, rax := rax } a [.ds,.es,.ss] _ here
    (fun s _ reached before => real s reached before)
  exact ⟨rax,_,by rw [start_segments,block_append,first,Option.bind_some,loaded],if_pos List.mem_cons_self⟩

/-- The descriptor table, protected mode, and the patched jump. -/
theorem real_jump (ready : Ready A c.mem) (here : c.fetches walk = some SMP_TRAMPOLINE_ADDR) (pg : c.pg = false)
    (lma : c.lma = false) (bits : c.bits = .b16) (cs : c.cs.base = SMP_TRAMPOLINE_ADDR) (rip : c.rip = 0)
    (ds : c.seg .ds = ⟨0,0,0x10000⟩) : ∃ rax cr0, block walk SMP_TRAMPOLINE_ADDR (start_jump A) c = some { c with
        rax := rax, cr0 := cr0, gdtLimit := 23, gdtBase := SMP_TRAMPOLINE_ADDR + trampoline_gdt A
        cs := ⟨8,0,2 ^ 32⟩, bits := .b32, rip := SMP_TRAMPOLINE_ADDR + trampoline_pm A } ∧
      cr0.testBit 0 = true ∧ cr0.testBit 31 = false := by
  obtain ⟨jmp',pm',lm',call',hang',gdt',ptr',gdt64',ptr64',pml4',stack',entry',end'⟩ := labels A
  have page := end_le A
  have address : SMP_TRAMPOLINE_ADDR = 0x8000 := rfl
  have place := physical_eq (trampoline_gdt_ptr A)
  have operand : c.linear (c.seg .ds) (physical (trampoline_gdt_ptr A)) 6 = some (physical (trampoline_gdt_ptr A)) :=
    linear_zero (by rw [ds]) (by rw [ds]; show _ ≤ 0x10000; omega) (by omega)
  have table : Table c.mem (physical (trampoline_gdt_ptr A)) 23 (SMP_TRAMPOLINE_ADDR + trampoline_gdt A) := by
    rw [place]
    exact ready.gdt
  obtain ⟨rax,cr0,protects,pe,pg'⟩ := protect_spec here pg lma bits operand table (by omega)
  refine ⟨rax,cr0,?_,pe,pg'⟩
  have here' : Cpu.fetches walk { c with
      rax := rax, cr0 := cr0, gdtLimit := 23, gdtBase := SMP_TRAMPOLINE_ADDR + trampoline_gdt A } = some SMP_TRAMPOLINE_ADDR := by
    simp only [Cpu.fetches,Cpu.translate,Cpu.pg,pg',Bool.false_eq_true,if_false,cs,rip,Nat.add_zero]
  have bytes : load c.mem (c.cs.base + trampoline_pm_jmp A) 5 =
      0xEA + 2 ^ 8 * (SMP_TRAMPOLINE_ADDR + trampoline_pm A) + 2 ^ 24 * 8 := by
    rw [cs]
    exact ready.jmp
  obtain ⟨runs,wide,base,size⟩ := code32_runs
  have near : SMP_TRAMPOLINE_ADDR + trampoline_pm A < 2 ^ 16 := by omega
  have jumps := @farJumpAt_spec walk { c with
    rax := rax, cr0 := cr0, gdtLimit := 23, gdtBase := SMP_TRAMPOLINE_ADDR + trampoline_gdt A } _ _ 8 code32 pe pg' lma bytes
    near (by decide) (by decide) (show 8 + 7 ≤ 23 by decide) ready.code32 runs wide (by rw [size]; omega)
  rw [start_jump,block_append,protects,Option.bind_some,block_one here',jumps,base,size]

/-- From real mode to protected mode. -/
theorem start_step (ready : Ready A c.mem) (started : Started c) :
    ∃ d, ModeSwitch.step walk (blocks A) c = some d ∧ Protected A d ∧ d.mem = c.mem := by
  have origin : c.cs.base = SMP_TRAMPOLINE_ADDR := by rw [started.cs]; rfl
  have here : c.fetches walk = some SMP_TRAMPOLINE_ADDR := by
    rw [Cpu.fetches,origin,started.rip,translate_off started.pg,Nat.add_zero]
  obtain ⟨rax,seg,first,ds⟩ := real_segments here started.pe started.seg
  obtain ⟨rax',cr0,second,pe,pg⟩ := @real_jump A walk { c with interrupts := false, backward := false, rax := rax, seg := seg }
    ready here started.pg started.lma started.bits origin started.rip ds
  refine ⟨_,Eq.trans ?_ second,⟨pe,pg,started.lma,rfl,rfl,rfl,⟨rfl,rfl⟩,rfl⟩,rfl⟩
  rw [step_block [] _ _ rfl (by simp) here started.bits ready.start]
  show block walk SMP_TRAMPOLINE_ADDR (start_code A) c = _
  rw [start_code,block_append,first,Option.bind_some]

/-- The page of the trampoline is mapped to itself, by the tables at a root. -/
def Mapped (walk : Walk) (m : Memory) (root : Nat) : Prop :=
  ∀ x, SMP_TRAMPOLINE_ADDR ≤ x → x < SMP_TRAMPOLINE_ADDR + 4096 → walk m root x = some x

theorem Mapped.flat {a len : Nat} (mapped : Mapped walk c.mem c.cr3) (pg : c.pg = true) (low : SMP_TRAMPOLINE_ADDR ≤ a)
    (high : a + len ≤ SMP_TRAMPOLINE_ADDR + 4096) : c.Flat walk a len := by
  intro x above below
  rw [Cpu.translate,if_pos pg]
  exact mapped x (by omega) (by omega)

/-- Data segments and the page tables of the data area. -/
theorem protected_data (ready : Ready A c.mem) (protected' : Protected A c) {a root : Nat} (here : c.fetches walk = some a)
    (root_eq : root = (data A c.mem).trampoline_pml4) :
    ∃ seg, block walk a (pm_data A) c = some { c with rax := root, seg := seg } ∧ (seg .ds).Whole := by
  obtain ⟨jmp',pm',lm',call',hang',gdt',ptr',gdt64',ptr64',pml4',stack',entry',end'⟩ := labels A
  have page := end_le A
  have address : SMP_TRAMPOLINE_ADDR = 0x8000 := rfl
  obtain ⟨rax,value⟩ : ∃ rax, rax = c.rax / 2 ^ 16 * 2 ^ 16 + 0x10 := ⟨_,rfl⟩
  have low : rax % 2 ^ 16 = 0x10 := by omega
  have limit : 0x10 + 7 ≤ c.gdtLimit := by rw [protected'.gdt.1]
  have load' (s : Seg) (seg : Seg → Segment) :
      Cpu.loadSegment walk { c with rax := rax, seg := seg } s (rax % 2 ^ 16) = some ⟨0x10,0,2 ^ 32⟩ := by
    have found : Cpu.descriptor walk { c with rax := rax, seg := seg } 0x10 = some data32 := by
      have read := @descriptor_eq walk { c with rax := rax, seg := seg } 0x10 (by decide) limit
        (flat_off (show Cpu.pg { c with rax := rax, seg := seg } = false from protected'.pg))
      rw [read]
      show some (load c.mem (c.gdtBase + 0x10) 8) = _
      rw [protected'.gdt.2,ready.data32]
    obtain ⟨loads,base,size⟩ := data32_loads s
    have protection : Cpu.pe { c with rax := rax, seg := seg } = true := protected'.pe
    rw [low,Cpu.loadSegment,if_pos protection,if_neg (by decide),found]
    simp only [Option.bind_eq_bind,Option.bind_some,loads,base,size,if_true]
  have loaded := @movSegs_spec walk { c with rax := rax } a [.ds,.es,.ss] _ here (fun s _ seg _ => load' s seg)
  obtain ⟨seg,seg_eq⟩ : ∃ seg : Seg → Segment, seg = fun q => if q ∈ [Seg.ds,.es,.ss] then ⟨0x10,0,2 ^ 32⟩ else c.seg q := ⟨_,rfl⟩
  have ds : seg .ds = ⟨0x10,0,2 ^ 32⟩ := by rw [seg_eq]; exact if_pos List.mem_cons_self
  rw [← seg_eq] at loaded
  have place := physical_eq (trampoline_pml4 A)
  have operand : Cpu.read walk { c with rax := rax, seg := seg } (physical (trampoline_pml4 A)) 4 = some root := by
    have read := @read_eq walk { c with rax := rax, seg := seg } (physical (trampoline_pml4 A)) 4
      (linear_zero (show (seg .ds).base = 0 by rw [ds]) (show _ ≤ (seg .ds).size by rw [ds]; show _ ≤ 2 ^ 32; omega) (by omega))
      (flat_off (show Cpu.pg { c with rax := rax, seg := seg } = false from protected'.pg))
    rw [read,root_eq,data,place]
  refine ⟨seg,?_,by rw [ds]; exact ⟨rfl,rfl⟩⟩
  rw [pm_data,block_append,block_cons here,exec,← value,Option.bind_some,loaded,Option.bind_some,block_one (by exact here),exec,
    operand]
  rfl

/-- From protected mode to 64-bit mode, with the page tables of the data area. -/
theorem pm_step (ready : Ready A c.mem) (protected' : Protected A c)
    (mapped : Mapped walk c.mem (data A c.mem).trampoline_pml4) : ∃ d, ModeSwitch.step walk (blocks A) c = some d ∧
      Long d (SMP_TRAMPOLINE_ADDR + trampoline_lm A) ∧ d.cr3 = (data A c.mem).trampoline_pml4 ∧ d.mem = c.mem := by
  obtain ⟨jmp',pm',lm',call',hang',gdt',ptr',gdt64',ptr64',pml4',stack',entry',end'⟩ := labels A
  have page := end_le A
  have address : SMP_TRAMPOLINE_ADDR = 0x8000 := rfl
  have here : c.fetches walk = some (SMP_TRAMPOLINE_ADDR + trampoline_pm A) := by
    rw [Cpu.fetches,protected'.cs,protected'.rip,translate_off protected'.pg,Nat.zero_add]
  obtain ⟨root,root_eq⟩ : ∃ root, root = (data A c.mem).trampoline_pml4 := ⟨_,rfl⟩
  obtain ⟨seg,first,ds⟩ := protected_data ready protected' here root_eq
  have word : low32 root = root := by
    rw [root_eq]
    exact Nat.mod_eq_of_lt (load_lt _ _ 4)
  rw [← root_eq] at mapped ⊢
  obtain ⟨rax,rcx,rdx,cr0,cr4,efer,second,pe,pg,lma⟩ := @longMode_spec walk { c with rax := root, seg := seg } _ here
    protected'.pe protected'.pg protected'.lma protected'.bits
  have flat {a len : Nat} (low : SMP_TRAMPOLINE_ADDR ≤ a) (high : a + len ≤ SMP_TRAMPOLINE_ADDR + 4096) : Cpu.Flat walk { c with
      rax := rax, rcx := rcx, rdx := rdx, cr0 := cr0, cr3 := root, cr4 := cr4, efer := efer, seg := seg } a len :=
    Mapped.flat mapped pg low high
  have here' : Cpu.fetches walk { c with
      rax := rax, rcx := rcx, rdx := rdx, cr0 := cr0, cr3 := root, cr4 := cr4, efer := efer, seg := seg } =
        some (SMP_TRAMPOLINE_ADDR + trampoline_pm A) := by
    have one := flat (show SMP_TRAMPOLINE_ADDR ≤ SMP_TRAMPOLINE_ADDR + trampoline_pm A by omega)
      (show SMP_TRAMPOLINE_ADDR + trampoline_pm A + 1 ≤ SMP_TRAMPOLINE_ADDR + 4096 by omega) _ (Nat.le_refl _) (by omega)
    rw [Cpu.fetches]
    show Cpu.translate walk _ (c.cs.base + c.rip) = _
    rw [protected'.cs,protected'.rip,Nat.zero_add]
    exact one
  have third := @enter64_spec walk { c with
      rax := rax, rcx := rcx, rdx := rdx, cr0 := cr0, cr3 := root, cr4 := cr4, efer := efer, seg := seg } _
    (SMP_TRAMPOLINE_ADDR + trampoline_gdt64_ptr A) 15 (SMP_TRAMPOLINE_ADDR + trampoline_gdt64 A)
    (SMP_TRAMPOLINE_ADDR + trampoline_lm A) 8 here' pe lma protected'.bits ds ready.gdt64
    (flat (by omega) (by omega)) (by omega) (by decide) (by decide) (by decide) (flat (by omega) (by omega))
    (by rw [ready.code64]; exact BootEntry.code64_long)
  refine ⟨_,Eq.trans ?_ third,⟨pe,pg,lma,rfl,rfl,rfl,protected'.interrupts⟩,rfl,rfl⟩
  have other : ∀ b' ∈ [(⟨SMP_TRAMPOLINE_ADDR,.b16,A.start,start_code A⟩ : Block)], b'.address ≠ SMP_TRAMPOLINE_ADDR + trampoline_pm A ∨
      b'.bits ≠ .b32 := by simp
  rw [step_block [_] _ _ rfl other here protected'.bits ready.pm]
  show block walk _ (pm_code A) c = _
  rw [pm_code,block_append,block_append,first,Option.bind_some,second,word,Option.bind_some,physical_eq,physical_eq]

/-- To the load of the stack. -/
theorem lm_step (ready : Ready A c.mem) (long : Long c (SMP_TRAMPOLINE_ADDR + trampoline_lm A)) (mapped : Mapped walk c.mem c.cr3) :
    ∃ d, ModeSwitch.step walk (blocks A) c = some d ∧ Long d (SMP_TRAMPOLINE_ADDR + lm_call A) ∧ d.cr3 = c.cr3 ∧
      d.rsp = (data A c.mem).trampoline_stack ∧ (∀ s, d.seg s = ⟨0,0,0⟩) ∧ d.mem = c.mem := by
  obtain ⟨jmp',pm',lm',call',hang',gdt',ptr',gdt64',ptr64',pml4',stack',entry',end'⟩ := labels A
  have page := end_le A
  have address : SMP_TRAMPOLINE_ADDR = 0x8000 := rfl
  have flat {a len : Nat} (low : SMP_TRAMPOLINE_ADDR ≤ a) (high : a + len ≤ SMP_TRAMPOLINE_ADDR + 4096) : c.Flat walk a len :=
    Mapped.flat mapped long.pg low high
  have here : c.fetches walk = some (SMP_TRAMPOLINE_ADDR + trampoline_lm A) := by
    rw [Cpu.fetches,long.cs,long.rip,Nat.zero_add]
    exact flat (show SMP_TRAMPOLINE_ADDR ≤ SMP_TRAMPOLINE_ADDR + trampoline_lm A by omega)
      (show SMP_TRAMPOLINE_ADDR + trampoline_lm A + 1 ≤ SMP_TRAMPOLINE_ADDR + 4096 by omega) _ (Nat.le_refl _) (by omega)
  obtain ⟨rax,first⟩ := nullSegments_spec here long.pe long.bits
  have place := physical_eq (trampoline_stack A)
  obtain ⟨stack,stack_eq⟩ : ∃ stack, stack = (data A c.mem).trampoline_stack := ⟨_,rfl⟩
  have operand : Cpu.read walk { c with rax := rax, seg := fun _ => ⟨0,0,0⟩ } (physical (trampoline_stack A)) 8 = some stack := by
    have read := @read_eq walk { c with rax := rax, seg := fun _ => ⟨0,0,0⟩ } (physical (trampoline_stack A)) 8
      (linear_long long.bits) (flat (by omega) (by omega))
    rw [read,stack_eq,data,place]
  rw [← stack_eq]
  refine ⟨{ c with rax := rax, seg := fun _ => ⟨0,0,0⟩, rsp := stack, rip := SMP_TRAMPOLINE_ADDR + lm_call A },?_,
    ⟨long.pe,long.pg,long.lma,long.bits,long.cs,rfl,long.interrupts⟩,rfl,rfl,fun _ => rfl,rfl⟩
  have other : ∀ b' ∈ [(⟨SMP_TRAMPOLINE_ADDR,.b16,A.start,start_code A⟩ : Block),
      ⟨SMP_TRAMPOLINE_ADDR + trampoline_pm A,.b32,A.pm,pm_code A⟩], b'.address ≠ SMP_TRAMPOLINE_ADDR + trampoline_lm A ∨
      b'.bits ≠ .b64 := by simp
  rw [step_block [_,_] _ _ rfl other here long.bits ready.lm]
  show block walk _ (lm_code A) c = _
  rw [lm_code,block_append,first,Option.bind_some,block_cons (by exact here),exec,operand]
  simp only [Option.bind_eq_bind,Option.bind_some]
  rw [block_one (by exact here),exec,physical_eq]

/-- The call. -/
theorem call_step (ready : Ready A c.mem) (long : Long c (SMP_TRAMPOLINE_ADDR + lm_call A)) (mapped : Mapped walk c.mem c.cr3)
    (above : 8 ≤ c.rsp) (below : c.rsp < 2 ^ 64) (stack : ∀ x, c.rsp - 8 ≤ x → x < c.rsp → walk c.mem c.cr3 x = some x) :
    ∃ d, ModeSwitch.step walk (blocks A) c = some d ∧ Long d (data A c.mem).trampoline_entry ∧ d.cr3 = c.cr3 ∧
      d.rsp = c.rsp - 8 ∧ d.seg = c.seg ∧ d.mem = store c.mem (c.rsp - 8) 8 (SMP_TRAMPOLINE_ADDR + hang A) := by
  obtain ⟨jmp',pm',lm',call',hang',gdt',ptr',gdt64',ptr64',pml4',stack',entry',end'⟩ := labels A
  have page := end_le A
  have address : SMP_TRAMPOLINE_ADDR = 0x8000 := rfl
  have some' := A.lm_some
  have apart : SMP_TRAMPOLINE_ADDR + trampoline_lm A ≠ SMP_TRAMPOLINE_ADDR + lm_call A := by omega
  have flat {a len : Nat} (low : SMP_TRAMPOLINE_ADDR ≤ a) (high : a + len ≤ SMP_TRAMPOLINE_ADDR + 4096) : c.Flat walk a len :=
    Mapped.flat mapped long.pg low high
  have here : c.fetches walk = some (SMP_TRAMPOLINE_ADDR + lm_call A) := by
    rw [Cpu.fetches,long.cs,long.rip,Nat.zero_add]
    exact flat (show SMP_TRAMPOLINE_ADDR ≤ SMP_TRAMPOLINE_ADDR + lm_call A by omega)
      (show SMP_TRAMPOLINE_ADDR + lm_call A + 1 ≤ SMP_TRAMPOLINE_ADDR + 4096 by omega) _ (Nat.le_refl _) (by omega)
  have place := physical_eq (trampoline_entry A)
  obtain ⟨entry,entry_eq⟩ : ∃ entry, entry = (data A c.mem).trampoline_entry := ⟨_,rfl⟩
  have operand : c.read walk (physical (trampoline_entry A)) 8 = some entry := by
    rw [read_eq (linear_long long.bits) (flat (by omega) (by omega)),entry_eq,data,place]
  have sp : Words.sub64 c.rsp 8 = c.rsp - 8 := Words.sub64_eq above (by unfold Words.limit64; omega)
  have room : c.Flat walk (c.rsp - 8) 8 := by
    intro x low high
    rw [Cpu.translate,if_pos long.pg]
    exact stack x low (by omega)
  have called := @call_spec walk { c with rax := entry } _ entry (physical (hang A)) sp room
  rw [physical_eq] at called
  rw [← entry_eq]
  refine ⟨_,Eq.trans ?_ called,⟨long.pe,long.pg,long.lma,long.bits,long.cs,rfl,long.interrupts⟩,rfl,rfl,rfl,rfl⟩
  have other : ∀ b' ∈ [(⟨SMP_TRAMPOLINE_ADDR,.b16,A.start,start_code A⟩ : Block),
      ⟨SMP_TRAMPOLINE_ADDR + trampoline_pm A,.b32,A.pm,pm_code A⟩,
      ⟨SMP_TRAMPOLINE_ADDR + trampoline_lm A,.b64,A.lm,lm_code A⟩], b'.address ≠ SMP_TRAMPOLINE_ADDR + lm_call A ∨
      b'.bits ≠ .b64 := by
    simp only [List.mem_cons,List.not_mem_nil,or_false]
    rintro b' (rfl | rfl | rfl)
    · exact .inr (by simp)
    · exact .inr (by simp)
    · exact .inl apart
  rw [step_block [_,_,_] _ _ rfl other here long.bits ready.lm_call]
  show block walk _ (call_code A) c = _
  rw [call_code,block_cons here,exec,operand]
  simp only [Option.bind_eq_bind,Option.bind_some]
  rw [block_one (by exact here),exec,physical_eq]

/-! ### Interleaved with the other processors -/

/-- A memory in which a processor can go on: the tables at `root` map the page and what is in `own` to themselves,
    and the data area holds `root`, a stack in `own` and an address outside the page. -/
structure Prepared (walk : Walk) (A : Assembled) (root : Nat) (own : Nat → Prop) (m : Memory) : Prop where
  ready : Ready A m
  mapped : Mapped walk m root
  held : ∀ x, own x → walk m root x = some x
  tables : (data A m).trampoline_pml4 = root
  low : 8 ≤ (data A m).trampoline_stack
  stack : ∀ x, (data A m).trampoline_stack - 8 ≤ x → x < (data A m).trampoline_stack → own x
  entry : SMP_TRAMPOLINE_ADDR + 4096 ≤ (data A m).trampoline_entry

/-- A processor and the number of blocks it has run. -/
structure Way where
  cpu : Cpu
  done : Nat

inductive Action
  | run
  | write (m : Memory)

/-- A started processor, while others write to the memory. -/
def machine (walk : Walk) (A : Assembled) (root : Nat) (own : Nat → Prop) : System Way Action where
  initial w := w.done = 0 ∧ Started w.cpu ∧ Prepared walk A root own w.cpu.mem
  step w action v := match action with
    | .run => w.cpu.rip < SMP_TRAMPOLINE_ADDR + 4096 ∧ ModeSwitch.step walk (blocks A) w.cpu = some v.cpu ∧ v.done = w.done + 1
    | .write m => Prepared walk A root own m ∧ v = ⟨{ w.cpu with mem := m },w.done⟩

/-- A processor of `ApStart`, while others write to the data area. -/
inductive Move
  | ap
  | write (d : Data)

def follower (b : Boot) (a : Nat) : System ApStart.State Move where
  initial s := s.aps a = .trampoline_start
  step s move t := match move with
    | .ap => apStep b s a = some t
    | .write d => t = { s with data := d }

def Action.writes (A : Assembled) : Action → Option Data
  | .run => none
  | .write m => some (data A m)

def Move.writes : Move → Option Data
  | .ap => none
  | .write d => some d

/-- Where a processor is after some blocks, and where it is for `ApStart`. -/
inductive At (A : Assembled) (root : Nat) (own : Nat → Prop) (c : Cpu) : (done : Nat) → Ap → Prop
  | start (started : Started c) : At A root own c 0 .trampoline_start
  | pm (protected' : Protected A c) : At A root own c 1 .trampoline_start
  | lm (long : Long c (SMP_TRAMPOLINE_ADDR + trampoline_lm A)) (cr3 : c.cr3 = root) : At A root own c 2 (.trampoline_lm root)
  | stacked (long : Long c (SMP_TRAMPOLINE_ADDR + lm_call A)) (cr3 : c.cr3 = root) (segments : ∀ s, c.seg s = ⟨0,0,0⟩)
      (low : 8 ≤ c.rsp) (high : c.rsp < 2 ^ 64) (stack : ∀ x, c.rsp - 8 ≤ x → x < c.rsp → own x) :
      At A root own c 3 (.stacked root c.rsp)
  | called (long : Long c c.rip) (cr3 : c.cr3 = root) (segments : ∀ s, c.seg s = ⟨0,0,0⟩)
      (outside : SMP_TRAMPOLINE_ADDR + 4096 ≤ c.rip) : At A root own c 4 (.ap_main root (c.rsp + 8) c.rip)

variable {root : Nat} {own : Nat → Prop} {done : Nat} {ap : Ap}

theorem Long.congr {rip : Nat} (long : Long c rip) (n : Memory) : Long { c with mem := n } rip :=
  ⟨long.pe,long.pg,long.lma,long.bits,long.cs,long.rip,long.interrupts⟩

/-- Nothing of that is in the memory. -/
theorem At.congr (there : At A root own c done ap) (n : Memory) : At A root own { c with mem := n } done ap := by
  cases there with
  | start started => exact .start ⟨started.pe,started.pg,started.lma,started.bits,started.cs,started.rip,started.seg⟩
  | pm p => exact .pm ⟨p.pe,p.pg,p.lma,p.bits,p.cs,p.rip,p.gdt,p.interrupts⟩
  | lm long cr3 => exact .lm (long.congr n) cr3
  | stacked long cr3 segments low high stack => exact .stacked (long.congr n) cr3 segments low high stack
  | called long cr3 segments outside => exact .called (long.congr n) cr3 segments outside

/-- What `ApStart` does with a processor that has come so far. -/
def follows (d : Data) : (done : Nat) → Ap → Ap
  | 1, _ => .trampoline_lm d.trampoline_pml4
  | 2, .trampoline_lm cr3 => .stacked cr3 d.trampoline_stack
  | 3, .stacked cr3 rsp => .ap_main cr3 rsp d.trampoline_entry
  | _, ap => ap

/-- One block, until `ap_main` is called. -/
theorem next_block (prepared : Prepared walk A root own c.mem) (there : At A root own c done ap) (before : done < 4) :
    c.rip < SMP_TRAMPOLINE_ADDR + 4096 ∧ ∃ d, ModeSwitch.step walk (blocks A) c = some d ∧
      At A root own d (done + 1) (follows (data A c.mem) done ap) ∧ (done + 1 < 4 → d.mem = c.mem) := by
  obtain ⟨jmp',pm',lm',call',hang',gdt',ptr',gdt64',ptr64',pml4',stack',entry',end'⟩ := labels A
  have page := end_le A
  have address : SMP_TRAMPOLINE_ADDR = 0x8000 := rfl
  cases there with
  | start started =>
    obtain ⟨d,runs,protected',same⟩ := @start_step A walk c prepared.ready started
    exact ⟨by rw [started.rip]; omega,d,runs,.pm protected',fun _ => same⟩
  | pm protected' =>
    have mapped : Mapped walk c.mem (data A c.mem).trampoline_pml4 := prepared.tables ▸ prepared.mapped
    obtain ⟨d,runs,long,cr3,same⟩ := pm_step prepared.ready protected' mapped
    refine ⟨by rw [protected'.rip]; omega,d,runs,?_,fun _ => same⟩
    rw [follows,prepared.tables]
    exact .lm long (cr3.trans prepared.tables)
  | lm long cr3 =>
    obtain ⟨d,runs,long',cr3',rsp,segments,same⟩ := lm_step prepared.ready long (cr3 ▸ prepared.mapped)
    refine ⟨by rw [long.rip]; omega,d,runs,?_,fun _ => same⟩
    rw [follows,← rsp]
    have small : (data A c.mem).trampoline_stack < 2 ^ 64 := load_lt c.mem _ 8
    exact .stacked long' (cr3'.trans cr3) segments (rsp ▸ prepared.low) (rsp ▸ small) (rsp ▸ prepared.stack)
  | stacked long cr3 segments low high stack =>
    obtain ⟨d,runs,long',cr3',rsp,seg,_⟩ := call_step prepared.ready long (cr3 ▸ prepared.mapped) low high
      (fun x from' below => cr3 ▸ prepared.held x (stack x from' below))
    refine ⟨by rw [long.rip]; omega,d,runs,?_,fun last => absurd last (by decide)⟩
    have top : c.rsp = d.rsp + 8 := by omega
    rw [follows,← long'.rip,top]
    exact .called (long'.rip ▸ long') (cr3'.trans cr3) (seg ▸ segments) (long'.rip ▸ prepared.entry)
  | called => omega

theorem apStep_follows (b : Boot) {a : Nat} {s : ApStart.State} (there : At A root own c done (s.aps a)) (before : done < 4) :
    ∃ t moves, (follower b a).Run s moves t ∧ trace Move.writes moves = [] ∧ t.aps a = follows s.data done (s.aps a) ∧
      t.data = s.data := by
  have one {ap' : Ap} (step : apStep b s a = some { s with aps := Function.update s.aps a ap' }) :
      ∃ t moves, (follower b a).Run s moves t ∧ trace Move.writes moves = [] ∧ t.aps a = ap' ∧ t.data = s.data :=
    ⟨_,[.ap],.cons step (.refl _),rfl,Function.update_self ..,rfl⟩
  obtain ⟨ap,ap_eq⟩ : ∃ ap, ap = s.aps a := ⟨_,rfl⟩
  rw [← ap_eq] at there ⊢
  cases there with
  | start started => exact ⟨s,[],.refl s,rfl,ap_eq.symm,rfl⟩
  | pm protected' => exact one (by rw [apStep,← ap_eq]; rfl)
  | lm long cr3 =>
    refine ⟨_,[.ap],.cons (t := { s with
      aps := Function.update s.aps a (.stacked root s.data.trampoline_stack)
      loads := ⟨a,s.data.trampoline_stack⟩ :: s.loads }) ?_ (.refl _),rfl,Function.update_self ..,rfl⟩
    show apStep b s a = _
    rw [apStep,← ap_eq]
  | stacked => exact one (by rw [apStep,← ap_eq]; rfl)
  | called => omega

/-- A processor and its model, with the same data area before the call. -/
structure Follows (walk : Walk) (A : Assembled) (root : Nat) (own : Nat → Prop) (a : Nat) (w : Way) (s : ApStart.State) : Prop where
  there : At A root own w.cpu w.done (s.aps a)
  prepared : w.done < 4 → Prepared walk A root own w.cpu.mem
  data : w.done < 4 → s.data = data A w.cpu.mem

theorem simulates (b : Boot) (a : Nat) : Simulates (machine walk A root own) (follower b a) (Action.writes A) Move.writes
    (Follows walk A root own a) where
  start w first := by
    obtain ⟨none',started,prepared⟩ := first
    refine ⟨{ ApStart.start with data := data A w.cpu.mem, aps := fun _ => .trampoline_start },rfl,?_,fun _ => prepared,fun _ => rfl⟩
    rw [none']
    exact .start started
  step w action v s follows' step := by
    obtain ⟨there,prepared,same⟩ := follows'
    cases action with
    | write m =>
      obtain ⟨prepared',rfl⟩ := step
      exact ⟨{ s with data := data A m },[.write (data A m)],.cons rfl (.refl _),rfl,there.congr m,fun _ => prepared',fun _ => rfl⟩
    | run =>
      obtain ⟨inside,runs,counts⟩ := step
      have before : w.done < 4 := by
        by_contra past
        obtain ⟨ap,ap_eq⟩ : ∃ ap, ap = s.aps a := ⟨_,rfl⟩
        rw [← ap_eq] at there
        generalize w.done = done at there past
        cases there <;> omega
      obtain ⟨_,d,runs',there',kept⟩ := next_block (prepared before) there before
      obtain rfl : v.cpu = d := Option.some.inj (runs.symm.trans runs')
      obtain ⟨t,moves,follow,silent,ap,data'⟩ := apStep_follows b there before
      refine ⟨t,moves,follow,silent,?_,fun more => ?_,fun more => ?_⟩
      · rw [counts,ap,same before]
        exact there'
      · rw [counts] at more
        rw [kept more]
        exact prepared before
      · rw [counts] at more
        rw [kept more,data',same before]

/-- However `smp_init` and the other processors write to the memory in between, a started processor never faults on its
    way: each block takes it one stage further, with the data area as it is at that moment, as `ApStart` has it, and
    after the fourth block it is in the function of the data area. -/
theorem trampoline_follows {first w : Way} {actions : List Action} (b : Boot) (a : Nat)
    (start : (machine walk A root own).initial first) (run : (machine walk A root own).Run first actions w) :
    (∃ s t moves, s.aps a = .trampoline_start ∧ (follower b a).Run s moves t ∧
      trace Move.writes moves = trace (Action.writes A) actions ∧ At A root own w.cpu w.done (t.aps a)) ∧
      (w.done < 4 → ∃ v, (machine walk A root own).step w .run v) := by
  obtain ⟨s,t,moves,starts,follow,same,follows'⟩ := (simulates b a).run start run
  refine ⟨⟨s,t,moves,starts,follow,same,follows'.there⟩,fun before => ?_⟩
  obtain ⟨inside,d,runs,_⟩ := next_block (follows'.prepared before) follows'.there before
  exact ⟨⟨d,w.done + 1⟩,inside,runs,rfl⟩

/-- The memory when `smp_init` signals a processor. -/
def smp_memory (A : Assembled) (b : Boot) (cpu trampoline_start : Nat) (m : Memory) : Memory :=
  patchAp A b.cr3 (get_ap_stack b cpu) b.ap_main (patch A (copy A trampoline_start m))

theorem smp_memory_outside {b : Boot} {cpu trampoline_start x : Nat} (above : SMP_TRAMPOLINE_ADDR < trampoline_start)
    (outside : x < SMP_TRAMPOLINE_ADDR ∨ SMP_TRAMPOLINE_ADDR + 4096 ≤ x) : smp_memory A b cpu trampoline_start m x = m x := by
  obtain ⟨jmp',pm',lm',call',hang',gdt',ptr',gdt64',ptr64',pml4',stack',entry',end'⟩ := labels A
  have page := end_le A
  rw [smp_memory,patchAp_outside (by omega),patch_outside (by omega) (by omega) (by omega),copy,Mem.copyUp_spec above,
    if_neg (by omega)]

/-- What the page tables of the kernel do for the processor `cpu`, whatever is in the page of the trampoline. -/
structure Identity (walk : Walk) (b : Boot) (cpu : Nat) (m : Memory) : Prop where
  stack : 8 ≤ get_ap_stack b cpu
  ap_main : SMP_TRAMPOLINE_ADDR + 4096 ≤ b.ap_main ∧ b.ap_main < 2 ^ 64
  maps : ∀ n, (∀ x, x < SMP_TRAMPOLINE_ADDR ∨ SMP_TRAMPOLINE_ADDR + 4096 ≤ x → n x = m x) → ∀ x,
    SMP_TRAMPOLINE_ADDR ≤ x ∧ x < SMP_TRAMPOLINE_ADDR + 4096 ∨ get_ap_stack b cpu - 8 ≤ x ∧ x < get_ap_stack b cpu →
    walk n (b.cr3 % 2 ^ 32) x = some x

/-- The eight bytes into which a processor pushes its return address. -/
def pushed (b : Boot) (cpu x : Nat) : Prop := get_ap_stack b cpu - 8 ≤ x ∧ x < get_ap_stack b cpu

theorem smp_memory_prepared {b : Boot} {cpu trampoline_start : Nat} (linked : Spells m trampoline_start (image A))
    (above : SMP_TRAMPOLINE_ADDR < trampoline_start) (identity : Identity walk b cpu m) :
    Prepared walk A (b.cr3 % 2 ^ 32) (pushed b cpu) (smp_memory A b cpu trampoline_start m) := by
  have maps := identity.maps _ (fun x outside => @smp_memory_outside A m b cpu _ x above outside)
  have top : get_ap_stack b cpu < 2 ^ 64 := Nat.mod_lt _ (by decide)
  have data' : data A (smp_memory A b cpu trampoline_start m) = ⟨b.cr3 % 2 ^ 32,get_ap_stack b cpu,b.ap_main⟩ :=
    data_patchAp top identity.ap_main.2
  exact {
    ready := patchAp_ready (patch_ready (copy_placed linked above))
    mapped := fun x low high => maps x (.inl ⟨low,high⟩)
    held := fun x own => maps x (.inr own)
    tables := by rw [data']
    low := by rw [data']; exact identity.stack
    stack := fun x low high => by rw [data'] at low high; exact ⟨low,high⟩
    entry := by rw [data']; exact identity.ap_main.1 }

theorem machine_runs {d : Cpu} (inside : c.rip < SMP_TRAMPOLINE_ADDR + 4096) (runs : ModeSwitch.step walk (blocks A) c = some d) :
    (machine walk A root own).step ⟨c,done⟩ .run ⟨d,done + 1⟩ := ⟨inside,runs,rfl⟩

theorem Prepared.widen {own' : Nat → Prop} (prepared : Prepared walk A root own m)
    (held : ∀ x, own' x → walk m root x = some x) (wider : ∀ x, own x → own' x) : Prepared walk A root own' m :=
  ⟨prepared.ready,prepared.mapped,held,prepared.tables,prepared.low,fun x low high => wider x (prepared.stack x low high),
    prepared.entry⟩

/-- Three blocks, with nothing between them. -/
theorem three_blocks {stack : Nat} (prepared : Prepared walk A root own c.mem) (started : Started c)
    (stack_eq : (data A c.mem).trampoline_stack = stack) : ∃ d, (machine walk A root own).Run ⟨c,0⟩ [.run,.run,.run] ⟨d,3⟩ ∧
      d.mem = c.mem ∧ At A root own d 3 (.stacked root stack) := by
  obtain ⟨d,d_eq⟩ : ∃ d, d = data A c.mem := ⟨_,rfl⟩
  have tables : d.trampoline_pml4 = root := d_eq ▸ prepared.tables
  obtain ⟨inside₁,c₁,runs₁,there₁,kept₁⟩ := next_block prepared (.start started) (by decide)
  have same₁ : c₁.mem = c.mem := kept₁ (by decide)
  have prepared₁ : Prepared walk A root own c₁.mem := by
    rw [same₁]
    exact prepared
  obtain ⟨inside₂,c₂,runs₂,there₂,kept₂⟩ := next_block prepared₁ there₁ (by decide)
  have same₂ : c₂.mem = c.mem := (kept₂ (by decide)).trans same₁
  have prepared₂ : Prepared walk A root own c₂.mem := by
    rw [same₂]
    exact prepared
  rw [same₁,← d_eq,follows,tables] at there₂
  obtain ⟨inside₃,c₃,runs₃,there₃,kept₃⟩ := next_block prepared₂ there₂ (by decide)
  have same₃ : c₃.mem = c.mem := (kept₃ (by decide)).trans same₂
  rw [same₂,← d_eq,follows,d_eq,stack_eq] at there₃
  exact ⟨c₃,.cons (machine_runs inside₁ runs₁) (.cons (machine_runs inside₂ runs₂) (.cons (machine_runs inside₃ runs₃) (.refl _))),
    same₃,there₃⟩

/-- A processor that has come from the start-up command to `ap_main`. -/
structure Arrived (A : Assembled) (b : Boot) (cpu : Nat) (m : Memory) (c : Cpu) : Prop where
  long : Long c b.ap_main
  cr3 : c.cr3 = b.cr3 % 2 ^ 32
  segments : ∀ s, c.seg s = ⟨0,0,0⟩
  rsp : c.rsp = get_ap_stack b cpu - 8
  returns : load c.mem c.rsp 8 = SMP_TRAMPOLINE_ADDR + hang A
  mem : ∀ x, x < SMP_TRAMPOLINE_ADDR ∨ SMP_TRAMPOLINE_ADDR + 4096 ≤ x → ¬ pushed b cpu x → c.mem x = m x

/-- What `smp_init` copies and patches takes a processor from the start-up command to `ap_main`, on its stack. -/
theorem smp_init_starts {trampoline_start cpu : Nat} (b : Boot) (linked : Spells m trampoline_start (image A))
    (above : SMP_TRAMPOLINE_ADDR < trampoline_start) (identity : Identity walk b cpu m) (started : Started c)
    (mem : c.mem = smp_memory A b cpu trampoline_start m) :
    ∃ d, (machine walk A (b.cr3 % 2 ^ 32) (pushed b cpu)).Run ⟨c,0⟩ [.run,.run,.run,.run] ⟨d,4⟩ ∧ Arrived A b cpu m d := by
  have prepared := smp_memory_prepared linked above identity
  have top : get_ap_stack b cpu < 2 ^ 64 := Nat.mod_lt _ (by decide)
  have data' : data A (smp_memory A b cpu trampoline_start m) = ⟨b.cr3 % 2 ^ 32,get_ap_stack b cpu,b.ap_main⟩ :=
    data_patchAp top identity.ap_main.2
  rw [← mem] at prepared data'
  obtain ⟨d,run,same,there⟩ := three_blocks prepared started (by rw [data'])
  obtain ⟨long,cr3,segments,rsp⟩ : Long d (SMP_TRAMPOLINE_ADDR + lm_call A) ∧ d.cr3 = b.cr3 % 2 ^ 32 ∧
      (∀ s, d.seg s = ⟨0,0,0⟩) ∧ d.rsp = get_ap_stack b cpu := by
    generalize last : Ap.stacked (b.cr3 % 2 ^ 32) (get_ap_stack b cpu) = ap at there
    cases there with
    | stacked long cr3 segments low high stack =>
      injection last with _ rsp
      exact ⟨long,cr3,segments,rsp.symm⟩
  have inside : d.rip < SMP_TRAMPOLINE_ADDR + 4096 := by
    obtain ⟨jmp',pm',lm',call',hang',gdt',ptr',gdt64',ptr64',pml4',stack',entry',end'⟩ := labels A
    have page := end_le A
    rw [long.rip]
    omega
  have ready : Ready A d.mem := same ▸ prepared.ready
  have held (x : Nat) (low : d.rsp - 8 ≤ x) (high : x < d.rsp) : walk d.mem d.cr3 x = some x := by
    rw [cr3,same]
    rw [rsp] at low high
    exact prepared.held x ⟨low,high⟩
  obtain ⟨e,runs,long',cr3',rsp',seg,stores⟩ := call_step ready long (by rw [cr3,same]; exact prepared.mapped)
    (rsp ▸ identity.stack) (rsp ▸ top) held
  rw [same] at long' stores
  rw [data'] at long'
  rw [rsp] at rsp' stores
  refine ⟨e,?_,long',cr3'.trans cr3,seg ▸ segments,rsp',?_,fun x outside apart => ?_⟩
  · exact run.snoc (machine_runs inside runs)
  · rw [stores,rsp',load_store_mod]
    obtain ⟨jmp',pm',lm',call',hang',gdt',ptr',gdt64',ptr64',pml4',stack',entry',end'⟩ := labels A
    have page := end_le A
    have address : SMP_TRAMPOLINE_ADDR = 0x8000 := rfl
    exact Nat.mod_eq_of_lt (by omega)
  · have low := identity.stack
    rw [stores,store_outside (by unfold pushed at apart; omega),mem,smp_memory_outside above outside]

end

/-- The first page tables are enough, with the stacks and the code in the first GiB. -/
theorem boot_identity {l : BootEntry.Linked} {b : Boot} {cpu : Nat} {m : Memory} (tables : BootEntry.Tables l m)
    (cr3 : b.cr3 = l.page_table_l4) (above : SMP_TRAMPOLINE_ADDR + 4096 ≤ l.page_table_l4)
    (stack : 8 ≤ get_ap_stack b cpu ∧ get_ap_stack b cpu ≤ 2 ^ 30)
    (ap_main : SMP_TRAMPOLINE_ADDR + 4096 ≤ b.ap_main ∧ b.ap_main < 2 ^ 64) : Identity BootEntry.hardware b cpu m := by
  refine ⟨stack.1,ap_main,fun n same x inside => ?_⟩
  have bss := l.bss
  have aligned := l.aligned
  have top := l.stack_top_eq
  have address : SMP_TRAMPOLINE_ADDR = 0x8000 := rfl
  have tables' : BootEntry.Tables l n := tables.congr (fun y low _ => same y (.inr (by omega)))
  have root : Paging.address (b.cr3 % 2 ^ 32) = l.page_table_l4 := by
    unfold Paging.address
    omega
  rw [BootEntry.hardware,root,BootEntry.walk_tables tables',if_pos (by omega)]
  simp only [Option.map_some,Option.some.injEq]
  omega

/-! ### Two processors of three -/

theorem sample_page : 0 < [(0xB8 : UInt8)].length ∧ 6 + 81 ≤ 4096 := by decide

def sampleAssembled : Assembled where
  start := [0xFA]
  pm := [0x66]
  lm := [0xB8]
  lm_call := [0xFF]
  hang := [0xF4]
  align_gdt := [0]
  align_gdt64 := []
  align_pml4 := []
  lm_some := sample_page.1
  page := sample_page.2

/-- The memory with some bytes put into it. -/
def put (a : Nat) (bytes : List UInt8) (m : Memory) : Memory := fun x =>
  if a ≤ x then bytes.getD (x - a) (m x) else m x

theorem spells_put (a : Nat) (bytes : List UInt8) (m : Memory) : Spells (put a bytes m) a bytes := by
  have from' (rest : List UInt8) (k : Nat) (same : ∀ i, rest[i]? = bytes[k + i]?) : Spells (put a bytes m) (a + k) rest := by
    induction rest generalizing k with
    | nil => trivial
    | cons x rest ih =>
      refine ⟨?_,ih (k + 1) (fun i => ?_)⟩
      · have first := same 0
        rw [List.getElem?_cons_zero] at first
        rw [put,if_pos (by omega),Nat.add_sub_cancel_left,List.getD_eq_getElem?_getD,← Nat.add_zero k,← first]
        rfl
      · have next := same (i + 1)
        rw [List.getElem?_cons_succ] at next
        rw [next,Nat.add_assoc,Nat.add_comm 1]
  exact from' bytes 0 (fun i => by rw [Nat.zero_add])

theorem put_above {a x : Nat} (bytes : List UInt8) (m : Memory) (above : a + bytes.length ≤ x) : put a bytes m x = m x := by
  rw [put,if_pos (by omega),List.getD_eq_default _ _ (by omega)]

/-- The kernel with its first page tables. -/
def sampleKernel : Memory :=
  put 0x101300 (image sampleAssembled) (BootEntry.setup_page_tables BootEntry.sampleLinked BootEntry.sampleMemory)

def sampleAps : Boot := { sampleBoot [0,1,2] with cr3 := 0x400000 }

def sampleAp (m : Memory) : Cpu :=
  ⟨0,0,0,0,0,0,0,0,false,false,0x10,0,0,0,0,0xFFFF,.b16,⟨0x800,0x8000,0x10000⟩,fun _ => ⟨0,0,0x10000⟩,m⟩

theorem sample_started (m : Memory) : Started (sampleAp m) := by
  have bits : Nat.testBit 0x10 0 = false ∧ Nat.testBit 0x10 31 = false ∧ Nat.testBit 0 10 = false := by decide
  exact ⟨bits.1,bits.2.1,bits.2.2,rfl,rfl,rfl,fun _ => rfl⟩

theorem sample_linked : Spells sampleKernel 0x101300 (image sampleAssembled) := spells_put ..

theorem sample_tables : BootEntry.Tables BootEntry.sampleLinked sampleKernel :=
  (BootEntry.setup_tables BootEntry.sample_handoff.cleared).congr (fun x low _ => by
    have low' : 0x400000 ≤ x := low
    have length : (image sampleAssembled).length ≤ 4096 := (length_image _).trans_le (end_le _)
    exact put_above _ _ (by omega))

theorem sample_identity (cpu : Nat) (few : cpu < 16) : Identity BootEntry.hardware sampleAps cpu sampleKernel := by
  have stack : get_ap_stack sampleAps cpu = (0x140000 + cpu * 0x4000 + 0x4000) % 2 ^ 64 := rfl
  exact boot_identity sample_tables rfl (by decide) (by omega) (by decide)

/-- The processor 1 of three. -/
theorem smp_init_starts_one : ∃ d, (machine BootEntry.hardware sampleAssembled 0x400000 (pushed sampleAps 1)).Run
    ⟨sampleAp (smp_memory sampleAssembled sampleAps 1 0x101300 sampleKernel),0⟩ [.run,.run,.run,.run] ⟨d,4⟩ ∧
    d.rip = 0x101000 ∧ d.rsp = 0x147ff8 := by
  obtain ⟨d,run,arrived⟩ := smp_init_starts (c := sampleAp (smp_memory sampleAssembled sampleAps 1 0x101300 sampleKernel))
    sampleAps sample_linked (by decide) (sample_identity 1 (by decide)) (sample_started _) rfl
  exact ⟨d,run,arrived.long.rip,arrived.rsp⟩

/-- What both processors push. -/
def either (x : Nat) : Prop := pushed sampleAps 1 x ∨ pushed sampleAps 2 x

theorem sample_prepared (cpu : Nat) (one : cpu = 1 ∨ cpu = 2) : Prepared BootEntry.hardware sampleAssembled 0x400000 either
    (smp_memory sampleAssembled sampleAps cpu 0x101300 sampleKernel) := by
  have away (x : Nat) (outside : x < SMP_TRAMPOLINE_ADDR ∨ SMP_TRAMPOLINE_ADDR + 4096 ≤ x) :
      smp_memory sampleAssembled sampleAps cpu 0x101300 sampleKernel x = sampleKernel x := smp_memory_outside (by decide) outside
  have prepared := smp_memory_prepared sample_linked (by decide) (sample_identity cpu (by omega))
  refine prepared.widen (fun x own => ?_) (fun x own => ?_)
  · rcases own with own | own
    · exact (sample_identity 1 (by decide)).maps _ away x (.inr own)
    · exact (sample_identity 2 (by decide)).maps _ away x (.inr own)
  · rcases one with rfl | rfl
    · exact .inl own
    · exact .inr own

/-- The processor 1 was signalled, and finds the data of the processor 2. -/
theorem trampoline_follows_other : ∃ v, (machine BootEntry.hardware sampleAssembled 0x400000 either).step
    ⟨sampleAp (smp_memory sampleAssembled sampleAps 2 0x101300 sampleKernel),0⟩ .run v := by
  have run : (machine BootEntry.hardware sampleAssembled 0x400000 either).Run
      ⟨sampleAp (smp_memory sampleAssembled sampleAps 1 0x101300 sampleKernel),0⟩
      [.write (smp_memory sampleAssembled sampleAps 2 0x101300 sampleKernel)]
      ⟨sampleAp (smp_memory sampleAssembled sampleAps 2 0x101300 sampleKernel),0⟩ :=
    .cons ⟨sample_prepared 2 (.inr rfl),rfl⟩ (.refl _)
  have follows' := trampoline_follows sampleAps 1 ⟨rfl,sample_started _,sample_prepared 1 (.inl rfl)⟩ run
  exact follows'.2 (by decide)

end NekoOs.Trampoline
