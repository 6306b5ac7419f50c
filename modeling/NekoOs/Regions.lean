import NekoOs.PageTables
import Mathlib.Data.List.Range

/-!
Regions of pages: `paging_init` maps the low memory, the kernel and the usable
RAM of the boot information with 2 MiB pages, and `paging_map_mmio_region` maps
the registers of a device with 4 KiB pages. A region is a run of single calls.
-/
namespace NekoOs.Regions
open ByteMemory PathTree Paging PageTables Transitions

/-- What the linker says about the kernel. -/
structure Image where
  kernel_start : Nat
  kernel_end : Nat
  page_table_pool : Nat

/-- The variables of `paging.c`, the memory, and CR3. -/
structure Kernel where
  g_pml4 : Nat
  cr3 : Nat
  state : State

/-- Iterations that no loop over 64-bit offsets needs. -/
def loopBound : Nat := 2 ^ 64

/-- `for (uint64_t offset = 0; offset < size; offset += step) ...` -/
def mapRegion (mapPage : Nat → State → Outcome State) (step size : Nat) : (fuel offset : Nat) → State → Outcome State
  | 0, _, _ => .unfinished
  | fuel+1, offset, s =>
    if offset < size then do
      let s ← mapPage offset s
      mapRegion mapPage step size fuel ((offset + step) % 2 ^ 64) s
    else .ok s

def map_region_4kb (pool : Nat) (s : State) (pml4 virt phys size flags : Nat) : Outcome State :=
  mapRegion (fun offset s => map_page_4kb pool s pml4 ((virt + offset) % 2 ^ 64) ((phys + offset) % 2 ^ 64) flags)
    0x1000 size loopBound 0 s

def map_region_2mb (pool : Nat) (s : State) (pml4 virt phys size flags : Nat) : Outcome State :=
  mapRegion (fun offset s => map_page_2mb pool s pml4 ((virt + offset) % 2 ^ 64) ((phys + offset) % 2 ^ 64) flags)
    0x200000 size loopBound 0 s

def paging_map_mmio_region (img : Image) (k : Kernel) (phys size : Nat) : Outcome Kernel := do
  let base := phys / 2 ^ 12 * 2 ^ 12
  let stop := (phys + size + 0xFFF) % 2 ^ 64 / 2 ^ 12 * 2 ^ 12
  let s ← map_region_4kb img.page_table_pool k.state k.g_pml4 base base ((stop + 2 ^ 64 - base) % 2 ^ 64)
    (PAGE_WRITABLE ||| PAGE_CACHE_DISABLE)
  .ok { k with state := s }

/-! ### The boot information -/

def MB2_TAG_END : Nat := 0
def MB2_TAG_MMAP : Nat := 6

def tagType (m : Memory) (tag : Nat) : Nat := load m tag 4
def tagSize (m : Memory) (tag : Nat) : Nat := load m (tag + 4) 4
/-- `mmap->entry_size` -/
def entrySize (m : Memory) (mmap : Nat) : Nat := load m (mmap + 8) 4
/-- `base_addr`, `length` and `type` of an `mb2_mmap_entry_t`. -/
def entryBase (m : Memory) (ptr : Nat) : Nat := load m ptr 8
def entryLength (m : Memory) (ptr : Nat) : Nat := load m (ptr + 8) 8
def entryType (m : Memory) (ptr : Nat) : Nat := load m (ptr + 16) 4

/-- The body of the loop over the entries of the memory map. -/
def mapEntry (pool pml4 ptr : Nat) (s : State) : Outcome State :=
  if entryType s.memory ptr = 1 then
    let base := entryBase s.memory ptr / 2 ^ 21 * 2 ^ 21
    let stop := (entryBase s.memory ptr + entryLength s.memory ptr + 0x1FFFFF) % 2 ^ 64 / 2 ^ 21 * 2 ^ 21
    map_region_2mb pool s pml4 base base ((stop + 2 ^ 64 - base) % 2 ^ 64) PAGE_WRITABLE
  else .ok s

/-- `while ((uint8_t*)entry < (uint8_t*)mmap + mmap->tag.size)` -/
def mapEntries (pool pml4 mmap : Nat) : (fuel ptr : Nat) → State → Outcome State
  | 0, _, _ => .unfinished
  | fuel+1, ptr, s =>
    if ptr < mmap + tagSize s.memory mmap then do
      let s ← mapEntry pool pml4 ptr s
      mapEntries pool pml4 mmap fuel (ptr + entrySize s.memory mmap) s
    else .ok s

/-- The body of the loop over the tags. -/
def mapTag (pool pml4 tag : Nat) (s : State) : Outcome State :=
  if tagType s.memory tag = MB2_TAG_MMAP then mapEntries pool pml4 tag loopBound (tag + 16) s else .ok s

/-- `while (tag->type != MB2_TAG_END)` -/
def mapTags (pool pml4 : Nat) : (fuel tag : Nat) → State → Outcome State
  | 0, _, _ => .unfinished
  | fuel+1, tag, s =>
    if tagType s.memory tag ≠ MB2_TAG_END then do
      let s ← mapTag pool pml4 tag s
      mapTags pool pml4 fuel (tag + (tagSize s.memory tag + 7) % 2 ^ 32 / 8 * 8) s
    else .ok s

def paging_init (img : Image) (k : Kernel) (info : Nat) : Outcome Kernel :=
  if k.g_pml4 ≠ 0 then .kpanic "Pml4 already initialized! Double INIT error"
  else do
    let (s,pml4) ← alloc_page_table img.page_table_pool k.state
    let kernel_size := (img.kernel_end + 2 ^ 64 - img.kernel_start) % 2 ^ 64
    let kernel_size := (kernel_size + 0x1FFFFF) % 2 ^ 64 / 2 ^ 21 * 2 ^ 21
    let map_size := (kernel_size + sizeof_page_table_pool) % 2 ^ 64
    let map_size := (map_size + 0x1FFFFF) % 2 ^ 64 / 2 ^ 21 * 2 ^ 21
    let s ← map_region_2mb img.page_table_pool s pml4 0 0 0x200000 PAGE_WRITABLE
    let s ← map_region_2mb img.page_table_pool s pml4 img.kernel_start img.kernel_start map_size PAGE_WRITABLE
    let s ← mapTags img.page_table_pool pml4 loopBound (info + 8) s
    .ok ⟨pml4,pml4,s⟩

/-! ### Regions as runs -/

/-- The calls for the pages of a region, one for each multiple of a step. -/
def regionCalls (make : (virt phys flags : Nat) → Call) (step virt phys flags count : Nat) : List Call :=
  (List.range' 0 count).map (fun i => make ((virt + i * step) % 2 ^ 64) ((phys + i * step) % 2 ^ 64) flags)

/-- Several calls one after the other. -/
def execAll (pool pml4 : Nat) (s : State) (calls : List Call) : Outcome State :=
  calls.foldlM (fun s c => c.exec pool pml4 s) s

section
variable {pool pml4 : Nat} {s s' : State}

/-- The loop does what a fold over its offsets does. The last page need not be whole. -/
theorem mapRegion_pages (mapPage : Nat → State → Outcome State) {step size first count fuel : Nat}
    (covered : size ≤ (first + count) * step) (needed : (first + count) * step < size + step)
    (small : (first + count + 1) * step ≤ 2 ^ 64) (enough : count < fuel) (s : State) :
    mapRegion mapPage step size fuel (first * step) s =
      (List.range' first count).foldlM (fun s i => mapPage (i * step) s) s := by
  induction count generalizing first fuel s with
  | zero =>
    obtain ⟨fuel,rfl⟩ : ∃ k, fuel = k + 1 := ⟨fuel - 1,by omega⟩
    rw [Nat.add_zero] at covered
    rw [mapRegion,if_neg (Nat.not_lt.mpr covered)]
    rfl
  | succ count ih =>
    obtain ⟨fuel,rfl⟩ : ∃ k, fuel = k + 1 := ⟨fuel - 1,by omega⟩
    have last : (first + (count + 1)) * step = (first + count) * step + step := Nat.succ_mul (first + count) step
    have before : first * step ≤ (first + count) * step := Nat.mul_le_mul_right step (Nat.le_add_right first count)
    have after : (first + (count + 1) + 1) * step = (first + (count + 1)) * step + step := Nat.succ_mul _ step
    have next : (first * step + step) % 2 ^ 64 = (first + 1) * step := by
      rw [Nat.mod_eq_of_lt (by omega),Nat.succ_mul]
    have same : first + 1 + count = first + (count + 1) := by omega
    rw [mapRegion,if_pos (by omega),List.range'_succ,List.foldlM_cons]
    cases mapPage (first * step) s with
    | ok s' =>
      rw [Outcome.bind_ok,Outcome.bind_ok,next]
      exact @ih (first + 1) fuel (same ▸ covered) (same ▸ needed) (same ▸ small) (by omega) s'
    | kpanic message => rfl
    | unfinished => rfl

theorem mapRegion_eq (mapPage : Nat → State → Outcome State) {step size first count fuel : Nat} (positive : 0 < step)
    (ends : (first + count) * step = size) (small : size + step ≤ 2 ^ 64) (enough : count < fuel) (s : State) :
    mapRegion mapPage step size fuel (first * step) s =
      (List.range' first count).foldlM (fun s i => mapPage (i * step) s) s := by
  subst ends
  refine mapRegion_pages mapPage (Nat.le_refl _) (Nat.lt_add_of_pos_right positive) ?_ enough s
  rw [Nat.succ_mul]
  exact small

theorem map_region_4kb_eq (s : State) (virt phys flags : Nat) {count : Nat} (small : (count + 1) * 0x1000 ≤ 2 ^ 64) :
    map_region_4kb pool s pml4 virt phys (count * 0x1000) flags =
      execAll pool pml4 s (regionCalls .map_page_4kb 0x1000 virt phys flags count) := by
  rw [map_region_4kb,execAll,regionCalls,List.foldlM_map]
  have enough : count < loopBound := by rw [loopBound]; omega
  exact @mapRegion_eq (fun offset s => map_page_4kb pool s pml4 ((virt + offset) % 2 ^ 64)
    ((phys + offset) % 2 ^ 64) flags)
    0x1000 (count * 0x1000) 0 count loopBound (by decide) (by rw [Nat.zero_add]) (by omega) enough s

/-- A region whose last page need not be whole. -/
theorem map_region_4kb_pages (s : State) (virt phys flags : Nat) {size : Nat} (small : size ≤ 2 ^ 48) :
    map_region_4kb pool s pml4 virt phys size flags =
      execAll pool pml4 s (regionCalls .map_page_4kb 0x1000 virt phys flags ((size + 0xFFF) / 0x1000)) := by
  rw [map_region_4kb,execAll,regionCalls,List.foldlM_map]
  have enough : (size + 0xFFF) / 0x1000 < loopBound := by rw [loopBound]; omega
  exact @mapRegion_pages (fun offset s => map_page_4kb pool s pml4 ((virt + offset) % 2 ^ 64)
    ((phys + offset) % 2 ^ 64) flags) 0x1000 size 0 ((size + 0xFFF) / 0x1000) loopBound (by omega) (by omega) (by omega)
    enough s

theorem map_region_2mb_eq (s : State) (virt phys flags : Nat) {count : Nat} (small : (count + 1) * 0x200000 ≤ 2 ^ 64) :
    map_region_2mb pool s pml4 virt phys (count * 0x200000) flags =
      execAll pool pml4 s (regionCalls .map_page_2mb 0x200000 virt phys flags count) := by
  rw [map_region_2mb,execAll,regionCalls,List.foldlM_map]
  have enough : count < loopBound := by rw [loopBound]; omega
  exact @mapRegion_eq (fun offset s => map_page_2mb pool s pml4 ((virt + offset) % 2 ^ 64)
    ((phys + offset) % 2 ^ 64) flags)
    0x200000 (count * 0x200000) 0 count loopBound (by decide) (by rw [Nat.zero_add]) (by omega) enough s

theorem regionCalls_mem {make : (virt phys flags : Nat) → Call} {step virt phys flags count : Nat} {c : Call}
    (member : c ∈ regionCalls make step virt phys flags count) :
    ∃ i < count, c = make ((virt + i * step) % 2 ^ 64) ((phys + i * step) % 2 ^ 64) flags := by
  obtain ⟨i,inside,rfl⟩ := List.mem_map.mp member
  rw [← List.range_eq_range',List.mem_range] at inside
  exact ⟨i,inside,rfl⟩

/-- 2 MiB pages may go anywhere. -/
theorem run_of_large {calls : List Call} (large : ∀ c ∈ calls, c.Fits ∧ c.level = 1)
    (run : execAll pool pml4 s calls = .ok s') : (mapping pool pml4).Run s calls s' := by
  induction calls generalizing s with
  | nil =>
    obtain rfl := Outcome.ok_injective run
    exact .refl s
  | cons c rest ih =>
    obtain ⟨fits,level⟩ := large c List.mem_cons_self
    obtain ⟨t,first,later⟩ := Outcome.bind_eq_ok.mp run
    refine .cons ⟨fits,fun small => ?_,first⟩ (ih (fun d member => large d (List.mem_cons_of_mem c member)) later)
    rw [level] at small
    cases small

/-- 4 KiB pages make no slot huge. -/
theorem run_of_small (layout : Layout pool pml4) (tables : Tables pool pml4 s) {calls : List Call}
    (small : ∀ c ∈ calls, c.Fits ∧ c.level = 0 ∧ ¬HugeSlot s.memory pml4 c.virt)
    (run : execAll pool pml4 s calls = .ok s') : (mapping pool pml4).Run s calls s' := by
  induction calls generalizing s with
  | nil =>
    obtain rfl := Outcome.ok_injective run
    exact .refl s
  | cons c rest ih =>
    obtain ⟨fits,level,notHuge⟩ := small c List.mem_cons_self
    obtain ⟨t,first,later⟩ := Outcome.bind_eq_ok.mp run
    have step : (mapping pool pml4).step s c t := ⟨fits,fun _ => notHuge,first⟩
    have mapped := step_mapped layout tables step
    refine .cons step (ih mapped.tables (fun d member => ?_) later)
    obtain ⟨fits',level',notHuge'⟩ := small d (List.mem_cons_of_mem c member)
    refine ⟨fits',level',fun isHuge => notHuge' ?_⟩
    obtain ⟨e,found⟩ := hugeSlot_iff.mp isHuge
    by_cases covers : c.Covers d.virt
    · rw [mapped.covered _ covers,level] at found
      cases found
    · exact hugeSlot_iff.mpr ⟨e,(mapped.others _ covers).symm.trans found⟩

/-- The 2 MiB pages of one GiB need two tables at most. -/
theorem large_room (layout : Layout pool pml4) (tables : Tables pool pml4 s) {calls : List Call} {virt stop : Nat}
    (large : ∀ c ∈ calls, c.Fits ∧ c.level = 1 ∧ c.virt % 2 ^ 48 / 2 ^ 30 = virt % 2 ^ 48 / 2 ^ 30)
    (inside : stop ≤ sizeof_page_table_pool) (lasts : Lasts pml4 s virt stop) :
    ∃ s', execAll pool pml4 s calls = .ok s' ∧ Lasts pml4 s' virt stop := by
  induction calls generalizing s with
  | nil => exact ⟨s,rfl,lasts⟩
  | cons c calls ih =>
    obtain ⟨fits,level,sameGiB⟩ := large c List.mem_cons_self
    cases c with
    | map_page_4kb _ _ _ => cases level
    | map_page_2mb v phys flags =>
      have sameIndex : index 3 v = index 3 virt ∧ index 2 v = index 2 virt := by
        simp only [Call.virt,index,Fin.mk.injEq] at *
        omega
      obtain ⟨t,run,mapped,lasts'⟩ := @large_lasts pool pml4 s layout tables v phys flags stop fits inside (by
        rw [Lasts,sameIndex.1,sameIndex.2]
        exact lasts)
      rw [Lasts,sameIndex.1,sameIndex.2] at lasts'
      obtain ⟨s',later,end'⟩ := ih mapped.tables (fun d member => large d (List.mem_cons_of_mem _ member)) lasts'
      refine ⟨s',?_,end'⟩
      show (map_page_2mb pool s pml4 v phys flags >>= _) = _
      rw [run,Outcome.bind_ok]
      exact later

theorem covers_large (virt phys flags a : Nat) :
    (Call.map_page_2mb virt phys flags).Covers a ↔ a % 2 ^ 48 / 2 ^ 21 = virt % 2 ^ 48 / 2 ^ 21 := by
  simp only [Call.Covers,Call.level,Call.virt,pageSize,Nat.reduceMul,Nat.reduceAdd]

/-- The leaf that maps the 2 MiB around an address to themselves. -/
def identityLeaf (a : Nat) : Nat × Nat := (1,(Call.map_page_2mb a a PAGE_WRITABLE).stored)

theorem identityLeaf_slot {a b : Nat} (same : a / 2 ^ 21 = b / 2 ^ 21) : identityLeaf a = identityLeaf b := by
  rw [identityLeaf,identityLeaf,Call.stored,Call.stored,same]

/-- The calls of an identity region cover its slots, which its first page need not begin. -/
theorem regionCalls_last {base count a : Nat} (low : base + count * 2 ^ 21 ≤ 2 ^ 48) (small : a < 2 ^ 48) :
    (lastCall (regionCalls .map_page_2mb 0x200000 base base PAGE_WRITABLE count) a).map (fun c => (c.level,c.stored)) =
      if base / 2 ^ 21 ≤ a / 2 ^ 21 ∧ a / 2 ^ 21 < base / 2 ^ 21 + count then some (identityLeaf a) else none := by
  cases found : lastCall (regionCalls .map_page_2mb 0x200000 base base PAGE_WRITABLE count) a with
  | none =>
    rw [Option.map_none,if_neg]
    rintro ⟨above,below⟩
    have inside : a / 2 ^ 21 - base / 2 ^ 21 < count := by omega
    have member : Call.map_page_2mb ((base + (a / 2 ^ 21 - base / 2 ^ 21) * 0x200000) % 2 ^ 64)
        ((base + (a / 2 ^ 21 - base / 2 ^ 21) * 0x200000) % 2 ^ 64) PAGE_WRITABLE ∈
        regionCalls .map_page_2mb 0x200000 base base PAGE_WRITABLE count := by
      refine List.mem_map.mpr ⟨a / 2 ^ 21 - base / 2 ^ 21,?_,rfl⟩
      rw [← List.range_eq_range',List.mem_range]
      exact inside
    have covers := (covers_large ((base + (a / 2 ^ 21 - base / 2 ^ 21) * 0x200000) % 2 ^ 64)
      ((base + (a / 2 ^ 21 - base / 2 ^ 21) * 0x200000) % 2 ^ 64) PAGE_WRITABLE a).mpr (by omega)
    exact List.find?_eq_none.mp found _ (List.mem_reverse.mpr member) (decide_eq_true covers)
  | some c =>
    obtain ⟨member,covers⟩ := lastCall_mem found
    obtain ⟨i,inside,rfl⟩ := regionCalls_mem member
    have slot := (covers_large _ _ _ a).mp covers
    have same : (base + i * 0x200000) % 2 ^ 64 / 2 ^ 21 = a / 2 ^ 21 := by omega
    rw [if_pos (by omega),← identityLeaf_slot same]
    rfl

theorem large_call {virt phys : Nat} (small : phys < 2 ^ 64) : (Call.map_page_2mb virt phys PAGE_WRITABLE).Fits ∧
    (Call.map_page_2mb virt phys PAGE_WRITABLE).level = 1 ∧ (Call.map_page_2mb virt phys PAGE_WRITABLE).virt = virt :=
  ⟨⟨small,(by decide : PAGE_WRITABLE < 2 ^ 64)⟩,rfl,rfl⟩

theorem regionCalls_fit {base count : Nat} {c : Call}
    (member : c ∈ regionCalls .map_page_2mb 0x200000 base base PAGE_WRITABLE count) : c.Fits ∧ c.level = 1 := by
  obtain ⟨i,_,rfl⟩ := regionCalls_mem member
  obtain ⟨fits,level,_⟩ := large_call (Nat.mod_lt (base + i * 0x200000) (Nat.two_pow_pos 64))
  exact ⟨fits,level⟩

/-- What an identity region below 2^48 leaves behind. -/
theorem identity_region (layout : Layout pool pml4) (tables : Tables pool pml4 s) {base count : Nat}
    (low : base + count * 2 ^ 21 ≤ 2 ^ 48)
    (run : map_region_2mb pool s pml4 base base (count * 0x200000) PAGE_WRITABLE = .ok s') :
    Tables pool pml4 s' ∧ (∀ b, Outside pool pml4 b → s'.memory b = s.memory b) ∧
      ∀ a < 2 ^ 48, leaf s'.memory pml4 a =
        if base / 2 ^ 21 ≤ a / 2 ^ 21 ∧ a / 2 ^ 21 < base / 2 ^ 21 + count then some (identityLeaf a)
        else leaf s.memory pml4 a := by
  rw [map_region_2mb_eq s base base PAGE_WRITABLE (by omega)] at run
  obtain ⟨tables',outside,leaves⟩ := run_mapped layout tables
    (run_of_large (fun c member => regionCalls_fit member) run)
  refine ⟨tables',outside,fun a small => ?_⟩
  rw [leaves,regionCalls_last low small]
  split
  · rw [Option.some_or]
  · rw [Option.none_or]

/-- An identity region in the first GiB is mapped while the pool has two tables. -/
theorem low_region (layout : Layout pool pml4) (tables : Tables pool pml4 s) {base count stop : Nat}
    (low : base + count * 2 ^ 21 ≤ 2 ^ 30) (inside : stop ≤ sizeof_page_table_pool) (lasts : Lasts pml4 s 0 stop) :
    ∃ s', map_region_2mb pool s pml4 base base (count * 0x200000) PAGE_WRITABLE = .ok s' ∧ Lasts pml4 s' 0 stop := by
  rw [map_region_2mb_eq s base base PAGE_WRITABLE (by omega)]
  refine large_room layout tables (fun c member => ⟨(regionCalls_fit member).1,(regionCalls_fit member).2,?_⟩) inside
    lasts
  obtain ⟨i,small,rfl⟩ := regionCalls_mem member
  rw [(large_call (Nat.mod_lt (base + i * 0x200000) (Nat.two_pow_pos 64))).2.2]
  omega

/-! ### What `paging_init` does -/

/-- A call of `paging_init`. -/
def BootCall (c : Call) : Prop := ∃ a < 2 ^ 64, c = .map_page_2mb a a PAGE_WRITABLE

/-- A run of such calls. -/
def Boots (pool pml4 : Nat) (s s' : State) : Prop :=
  ∃ calls, (∀ c ∈ calls, BootCall c) ∧ (mapping pool pml4).Run s calls s'

theorem Boots.refl (pool pml4 : Nat) (s : State) : Boots pool pml4 s s := ⟨[],by simp,.refl s⟩

theorem Boots.trans {r : State} (first : Boots pool pml4 s r) (second : Boots pool pml4 r s') :
    Boots pool pml4 s s' := by
  obtain ⟨calls,boot,run⟩ := first
  obtain ⟨calls',boot',run'⟩ := second
  refine ⟨calls ++ calls',fun c member => ?_,run.append run'⟩
  rcases List.mem_append.mp member with left | right
  · exact boot c left
  · exact boot' c right

/-- An identity region of 2 MiB pages. -/
theorem map_region_2mb_boots {base size : Nat} (whole : size % 2 ^ 21 = 0) (small : size < 2 ^ 64)
    (run : map_region_2mb pool s pml4 base base size PAGE_WRITABLE = .ok s') : Boots pool pml4 s s' := by
  have pages : size = size / 0x200000 * 0x200000 := by omega
  have room : (size / 0x200000 + 1) * 0x200000 ≤ 2 ^ 64 := by omega
  rw [pages,map_region_2mb_eq s base base PAGE_WRITABLE room] at run
  have boot (c : Call) (member : c ∈ regionCalls .map_page_2mb 0x200000 base base PAGE_WRITABLE (size / 0x200000)) :
      BootCall c := by
    obtain ⟨i,_,same⟩ := regionCalls_mem member
    exact ⟨_,Nat.mod_lt _ (by decide),same⟩
  refine ⟨_,boot,run_of_large (fun c member => ?_) run⟩
  obtain ⟨a,range,rfl⟩ := boot c member
  exact ⟨⟨range,(by decide : PAGE_WRITABLE < 2 ^ 64)⟩,rfl⟩

theorem mapEntry_boots {ptr : Nat} (run : mapEntry pool pml4 ptr s = .ok s') : Boots pool pml4 s s' := by
  unfold mapEntry at run
  split at run
  · refine map_region_2mb_boots ?_ (Nat.mod_lt _ (by decide)) run
    omega
  · obtain rfl := Outcome.ok_injective run
    exact .refl pool pml4 s

theorem mapEntries_boots {mmap fuel ptr : Nat} (run : mapEntries pool pml4 mmap fuel ptr s = .ok s') :
    Boots pool pml4 s s' := by
  induction fuel generalizing ptr s with
  | zero => cases run
  | succ fuel ih =>
    rw [mapEntries] at run
    split at run
    · obtain ⟨t,first,later⟩ := Outcome.bind_eq_ok.mp run
      exact (mapEntry_boots first).trans (ih later)
    · obtain rfl := Outcome.ok_injective run
      exact .refl pool pml4 s

theorem mapTag_boots {tag : Nat} (run : mapTag pool pml4 tag s = .ok s') : Boots pool pml4 s s' := by
  unfold mapTag at run
  split at run
  · exact mapEntries_boots run
  · obtain rfl := Outcome.ok_injective run
    exact .refl pool pml4 s

theorem mapTags_boots {fuel tag : Nat} (run : mapTags pool pml4 fuel tag s = .ok s') : Boots pool pml4 s s' := by
  induction fuel generalizing tag s with
  | zero => cases run
  | succ fuel ih =>
    rw [mapTags] at run
    split at run
    · obtain ⟨t,first,later⟩ := Outcome.bind_eq_ok.mp run
      exact (mapTag_boots first).trans (ih later)
    · obtain rfl := Outcome.ok_injective run
      exact .refl pool pml4 s

end

/-- `paging_init` has not run yet. -/
structure Fresh (k : Kernel) : Prop where
  g_pml4 : k.g_pml4 = 0
  pool_offset : k.state.pool_offset = 0
  handed_out : k.state.handed_out = []

/-- The first table of the pool as an empty PML4. -/
theorem first_table {pool : Nat} {s : State} (offset : s.pool_offset = 0) (handed : s.handed_out = []) :
    ∃ s', alloc_page_table pool s = .ok (s',pool) ∧ Tables pool pool s' ∧ (∀ a, leaf s'.memory pool a = none) ∧
      s'.pool_offset = 4096 ∧ ∀ b, b < pool ∨ pool + sizeof_page_table_pool ≤ b → s'.memory b = s.memory b := by
  have start : Tables pool pool ⟨fill s.memory pool 4096 0,4096,[(pool,fill s.memory pool 4096 0)]⟩ ∧
      ∀ a, leaf (fill s.memory pool 4096 0) pool a = none := by
    apply zero_tables
    · exact fun i => entry_fill s.memory pool i.isLt
    · exact Nat.mod_self 4096
    · exact (by decide : 4096 ≤ sizeof_page_table_pool)
    · exact .inl (Nat.le_refl _)
    · intro h member
      obtain rfl := List.mem_singleton.mp member
      exact ⟨⟨0,rfl,Nat.le_refl _⟩,fun b small => fill_inside (by omega) (by omega)⟩
  refine ⟨_,?_,start.1,start.2,rfl,fun b out => fill_outside ?_⟩
  · rw [alloc_page_table,offset,handed,if_neg (by decide)]
    rfl
  · have pool := pool_size
    omega

/-- The parts of a `paging_init` that returns: an empty PML4, the first 2 MiB, the kernel and the memory map. -/
theorem paging_init_parts {img : Image} {k k' : Kernel} {info : Nat} (fresh : Fresh k)
    (run : paging_init img k info = .ok k') : ∃ s₁ s₂ s₃ s₄, k' = ⟨img.page_table_pool,img.page_table_pool,s₄⟩ ∧
      (Tables img.page_table_pool img.page_table_pool s₁ ∧ (∀ a, leaf s₁.memory img.page_table_pool a = none) ∧
        ∀ b, b < img.page_table_pool ∨ img.page_table_pool + sizeof_page_table_pool ≤ b →
          s₁.memory b = k.state.memory b) ∧
      map_region_2mb img.page_table_pool s₁ img.page_table_pool 0 0 0x200000 PAGE_WRITABLE = .ok s₂ ∧
      Boots img.page_table_pool img.page_table_pool s₂ s₃ ∧
      mapTags img.page_table_pool img.page_table_pool loopBound (info + 8) s₃ = .ok s₄ := by
  obtain ⟨s₁,handed,start,none,_,kept⟩ := @first_table img.page_table_pool k.state fresh.pool_offset fresh.handed_out
  rw [paging_init,if_neg (by simp [fresh.g_pml4]),handed,Outcome.bind_ok] at run
  obtain ⟨s₂,low,run⟩ := Outcome.bind_eq_ok.mp run
  obtain ⟨s₃,kernel,run⟩ := Outcome.bind_eq_ok.mp run
  obtain ⟨s₄,tags,run⟩ := Outcome.bind_eq_ok.mp run
  obtain rfl := Outcome.ok_injective run
  exact ⟨s₁,s₂,s₃,s₄,rfl,⟨start,none,kept⟩,low,map_region_2mb_boots (by omega) (by omega) kernel,tags⟩

/-- The PML4 is the first table of the pool, and all leaves come from boot calls. -/
theorem paging_init_spec {img : Image} (layout : Layout img.page_table_pool img.page_table_pool) {k k' : Kernel}
    {info : Nat} (fresh : Fresh k) (run : paging_init img k info = .ok k') :
    k'.g_pml4 = img.page_table_pool ∧ k'.cr3 = img.page_table_pool ∧
      Tables img.page_table_pool img.page_table_pool k'.state ∧
      (∀ b, Outside img.page_table_pool img.page_table_pool b → k'.state.memory b = k.state.memory b) ∧
      ∃ calls, (∀ c ∈ calls, BootCall c) ∧ ∀ a, leaf k'.state.memory img.page_table_pool a =
        (lastCall calls a).map (fun c => (c.level,c.stored)) := by
  obtain ⟨s₁,s₂,s₃,s₄,rfl,⟨start,none,kept⟩,low,kernel,tags⟩ := paging_init_parts fresh run
  have boots := ((map_region_2mb_boots (by decide) (by decide) low).trans kernel).trans (mapTags_boots tags)
  obtain ⟨calls,boot,run⟩ := boots
  obtain ⟨tables,outside,leaves⟩ := run_mapped layout start run
  refine ⟨rfl,rfl,tables,fun b out => (outside b out).trans (kept b out.2),calls,boot,fun a => ?_⟩
  rw [leaves,none,Option.or_none]

/-- Boot calls keep a huge page huge. -/
theorem Boots.keeps_huge {pool pml4 : Nat} {s s' : State} (layout : Layout pool pml4) (tables : Tables pool pml4 s)
    (boots : Boots pool pml4 s s') {a : Nat} (isHuge : HugeSlot s.memory pml4 a) : HugeSlot s'.memory pml4 a := by
  obtain ⟨calls,boot,run⟩ := boots
  obtain ⟨e,found⟩ := hugeSlot_iff.mp isHuge
  rw [hugeSlot_iff,(run_mapped layout tables run).2.2]
  cases last : lastCall calls a with
  | none => exact ⟨e,by rw [Option.map_none,Option.none_or,found]⟩
  | some c =>
    obtain ⟨_,_,rfl⟩ := boot c (lastCall_mem last).1
    exact ⟨_,rfl⟩

/-- `paging_init` maps the first 2 MiB with a huge page. -/
theorem paging_init_low {img : Image} (layout : Layout img.page_table_pool img.page_table_pool) {k k' : Kernel}
    {info : Nat} (fresh : Fresh k) (run : paging_init img k info = .ok k') :
    HugeSlot k'.state.memory img.page_table_pool 0 := by
  obtain ⟨s₁,s₂,s₃,s₄,rfl,⟨start,_⟩,low,kernel,tags⟩ := paging_init_parts fresh run
  obtain ⟨tables,_,leaves⟩ := @identity_region img.page_table_pool img.page_table_pool s₁ s₂ layout start 0 1
    (by decide) low
  have first : HugeSlot s₂.memory img.page_table_pool 0 := hugeSlot_iff.mpr ⟨_,(leaves 0 (by decide)).trans (if_pos (by decide))⟩
  exact (kernel.trans (mapTags_boots tags)).keeps_huge layout tables first

end NekoOs.Regions
