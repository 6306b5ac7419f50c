import NekoOs.Mmio

/-!
Regions that are mapped again. A page that has a page table needs no other, and
a page that is mapped as it should be is left as it is, so the second of two
equal calls changes nothing.
-/
namespace NekoOs.Remap
open ByteMemory PathTree Paging PageTables Regions Mmio
open BootMap (leaf_low smallMachine smallFresh bootMemory bootSlot)

/-- The linker puts the pool behind the first MiB, the code and the heap of 256 MiB,
    inside the 2 MiB at 0x10000000: no 2 MiB page starts in it. -/
structure Linked (img : Image) : Prop where
  layout : Layout img.page_table_pool img.page_table_pool
  starts : 0 < img.page_table_pool % 2 ^ 21
  ends : img.page_table_pool % 2 ^ 21 + sizeof_page_table_pool ≤ 2 ^ 21

/-- 64-bit arguments, with no bit of an address among the flags of a 2 MiB page. -/
def Proper (c : Call) : Prop := c.Fits ∧ (c.level = 1 → c.flags / 2 ^ 12 % 2 ^ 40 = 0)

/-- No page of a region is in a slot with a huge page. -/
def ClearRegion (s : State) (pml4 virt size : Nat) : Prop :=
  ∀ offset < size, offset % 0x1000 = 0 → ¬HugeSlot s.memory pml4 ((virt + offset) % 2 ^ 64)

/-- The page at a frame and the pool have no byte in common. -/
def AwayFrom (pool frame : Nat) : Prop := frame + 4096 ≤ pool ∨ pool + sizeof_page_table_pool ≤ frame

/-- What boot and every later call keep: a tree of tables that no write through a
    huge page hits, and a huge page for the low memory. -/
structure Sound (pool : Nat) (s : State) : Prop where
  tables : Tables pool pool s
  away : ∀ a e, leaf s.memory pool a = some (1,e) → AwayFrom pool (e / 2 ^ 12 * 2 ^ 12)
  low : HugeSlot s.memory pool 0

/-- The address is mapped by a page of 4 KiB. -/
def SmallPage (pool : Nat) (s : State) (a : Nat) : Prop := ∃ e, leaf s.memory pool a = some (0,e)

/-! ### One call -/

section
variable {img : Image} {s s' : State}

/-- The frame of a 2 MiB page misses the pool. -/
theorem frame_away (linked : Linked img) {virt phys flags : Nat} (proper : Proper (.map_page_2mb virt phys flags)) :
    AwayFrom img.page_table_pool ((Call.map_page_2mb virt phys flags).stored / 2 ^ 12 * 2 ^ 12) := by
  obtain ⟨poolAligned,poolSmall,_⟩ := linked.layout
  have starts := linked.starts
  have ends := linked.ends
  have pool := pool_size
  have noFlags : flags / 2 ^ 12 % 2 ^ 40 = 0 := proper.2 rfl
  have frame : (Call.map_page_2mb virt phys flags).stored / 2 ^ 12 % 2 ^ 40 =
      phys / 2 ^ 21 * 2 ^ 21 / 2 ^ 12 % 2 ^ 40 := by
    rw [Call.stored,Nat.or_assoc,Nat.or_div_two_pow,Nat.or_div_two_pow,Nat.or_mod_two_pow,Nat.or_mod_two_pow,noFlags,
      show (PAGE_PRESENT ||| PAGE_HUGE) / 2 ^ 12 = 0 by decide,Nat.zero_mod,Nat.or_zero,Nat.or_zero]
  generalize (Call.map_page_2mb virt phys flags).stored = e at *
  unfold AwayFrom
  omega

/-- A page that is mapped as the call says. -/
theorem mapped_fixed (tables : Tables img.page_table_pool img.page_table_pool s) {c : Call} (level : c.level = 0)
    (mapped : leaf s.memory img.page_table_pool c.virt = some (0,c.stored)) :
    c.exec img.page_table_pool img.page_table_pool s = .ok s := by
  cases c with
  | map_page_2mb virt phys flags => cases level
  | map_page_4kb virt phys flags =>
    obtain ⟨pt,written,call⟩ := map_page_4kb_small tables mapped
    have same : s.setEntry pt (index 0 virt) (Call.map_page_4kb virt phys flags).stored = s := by
      rw [State.setEntry,← written]
      exact congrArg (fun memory => { s with memory := memory }) (store_load s.memory _ 8)
    exact (call phys flags).trans (congrArg Outcome.ok same)

/-- What a 4 KiB call leaves behind, in a slot with a huge page or not. -/
theorem small_step (linked : Linked img) (sound : Sound img.page_table_pool s) {c : Call} (fits : c.Fits)
    (level : c.level = 0) (run : c.exec img.page_table_pool img.page_table_pool s = .ok s') :
    Sound img.page_table_pool s' ∧ ∀ a, SmallPage img.page_table_pool s a → SmallPage img.page_table_pool s' a := by
  cases c with
  | map_page_2mb virt phys flags => cases level
  | map_page_4kb virt phys flags =>
    by_cases isHuge : HugeSlot s.memory img.page_table_pool virt
    · obtain ⟨e,found⟩ := hugeSlot_iff.mp isHuge
      obtain rfl := Outcome.ok_injective ((map_page_4kb_huge sound.tables found phys flags).symm.trans run)
      obtain ⟨tables,same⟩ := @setEntry_away _ s sound.tables _ _ (Call.map_page_4kb virt phys flags).stored
        (index 0 virt).isLt (sound.away virt e found)
      refine ⟨⟨tables,fun a f huge => sound.away a f ((same a).symm.trans huge),?_⟩,fun a ⟨f,small⟩ =>
        ⟨f,(same a).trans small⟩⟩
      obtain ⟨f,low⟩ := hugeSlot_iff.mp sound.low
      exact hugeSlot_iff.mpr ⟨f,(same 0).trans low⟩
    · have mapped := map_page_4kb_spec linked.layout sound.tables fits isHuge run
      refine ⟨⟨mapped.tables,fun a f huge => ?_,?_⟩,fun a ⟨f,small⟩ => ?_⟩
      · by_cases covers : (Call.map_page_4kb virt phys flags).Covers a
        · rw [mapped.covered a covers] at huge
          cases huge
        · exact sound.away a f ((mapped.others a covers).symm.trans huge)
      · obtain ⟨f,low⟩ := hugeSlot_iff.mp sound.low
        have apart : ¬(Call.map_page_4kb virt phys flags).Covers 0 := by
          intro covers
          have way : indices 0 = indices virt := (((covers_iff _ 0).mp covers).eq_of_length rfl).symm
          exact isHuge (hugeSlot_iff.mpr ⟨f,by rw [leaf,← way]; exact low⟩)
        exact hugeSlot_iff.mpr ⟨f,(mapped.others 0 apart).trans low⟩
      · by_cases covers : (Call.map_page_4kb virt phys flags).Covers a
        · exact ⟨_,mapped.covered a covers⟩
        · exact ⟨f,(mapped.others a covers).trans small⟩

theorem large_step (linked : Linked img) (sound : Sound img.page_table_pool s) {c : Call} (proper : Proper c)
    (level : c.level = 1) (run : c.exec img.page_table_pool img.page_table_pool s = .ok s') :
    Sound img.page_table_pool s' := by
  cases c with
  | map_page_4kb virt phys flags => cases level
  | map_page_2mb virt phys flags =>
    have mapped := map_page_2mb_spec linked.layout sound.tables proper.1 run
    refine ⟨mapped.tables,fun a e huge => ?_,?_⟩
    · by_cases covers : (Call.map_page_2mb virt phys flags).Covers a
      · obtain rfl := (Prod.mk.inj (Option.some.inj ((mapped.covered a covers).symm.trans huge))).2
        exact frame_away linked proper
      · exact sound.away a e ((mapped.others a covers).symm.trans huge)
    · by_cases covers : (Call.map_page_2mb virt phys flags).Covers 0
      · exact hugeSlot_iff.mpr ⟨_,mapped.covered 0 covers⟩
      · obtain ⟨e,low⟩ := hugeSlot_iff.mp sound.low
        exact hugeSlot_iff.mpr ⟨e,(mapped.others 0 covers).trans low⟩

/-- A call for a page that has a page table takes no table from the pool. -/
theorem small_room (sound : Sound img.page_table_pool s) {c : Call} (level : c.level = 0)
    (small : SmallPage img.page_table_pool s c.virt) : ∃ s', c.exec img.page_table_pool img.page_table_pool s = .ok s' ∧
      s'.pool_offset = s.pool_offset := by
  cases c with
  | map_page_2mb virt phys flags => cases level
  | map_page_4kb virt phys flags =>
    obtain ⟨e,found⟩ := small
    obtain ⟨pt,_,call⟩ := map_page_4kb_small sound.tables found
    exact ⟨_,call phys flags,rfl⟩

/-! ### Several calls -/

theorem execAll_sound (linked : Linked img) {calls : List Call} (proper : ∀ c ∈ calls, Proper c)
    (sound : Sound img.page_table_pool s)
    (run : execAll img.page_table_pool img.page_table_pool s calls = .ok s') : Sound img.page_table_pool s' := by
  induction calls generalizing s with
  | nil =>
    obtain rfl := Outcome.ok_injective run
    exact sound
  | cons c calls ih =>
    obtain ⟨t,first,later⟩ := Outcome.bind_eq_ok.mp run
    have here := proper c List.mem_cons_self
    refine ih (fun d member => proper d (List.mem_cons_of_mem c member)) ?_ later
    cases level : c.level with
    | zero => exact (small_step linked sound here.1 level first).1
    | succ n =>
      have large : c.level = 1 := by cases c <;> simp [Call.level] at level ⊢
      exact large_step linked sound here large first

theorem execAll_small (linked : Linked img) {calls : List Call} (pages : ∀ c ∈ calls, c.Fits ∧ c.level = 0)
    (sound : Sound img.page_table_pool s)
    (run : execAll img.page_table_pool img.page_table_pool s calls = .ok s') {a : Nat}
    (small : SmallPage img.page_table_pool s a) : SmallPage img.page_table_pool s' a := by
  induction calls generalizing s with
  | nil =>
    obtain rfl := Outcome.ok_injective run
    exact small
  | cons c calls ih =>
    obtain ⟨t,first,later⟩ := Outcome.bind_eq_ok.mp run
    obtain ⟨fits,level⟩ := pages c List.mem_cons_self
    obtain ⟨sound',kept⟩ := small_step linked sound fits level first
    exact ih (fun d member => pages d (List.mem_cons_of_mem c member)) sound' later (kept a small)

theorem execAll_fixed {pool pml4 : Nat} {calls : List Call} (fixed : ∀ c ∈ calls, c.exec pool pml4 s = .ok s) :
    execAll pool pml4 s calls = .ok s := by
  induction calls with
  | nil => rfl
  | cons c calls ih =>
    show (c.exec pool pml4 s >>= _) = _
    rw [fixed c List.mem_cons_self,Outcome.bind_ok]
    exact ih (fun d member => fixed d (List.mem_cons_of_mem c member))

/-- Calls succeed while three tables for each are left. -/
theorem execAll_lasts {pool pml4 room : Nat} (three : 3 * 4096 ≤ room) (calls : List Call)
    (left : s.pool_offset + calls.length * room ≤ sizeof_page_table_pool) :
    ∃ s', execAll pool pml4 s calls = .ok s' ∧ s'.pool_offset ≤ s.pool_offset + calls.length * room := by
  induction calls generalizing s with
  | nil => exact ⟨s,rfl,Nat.le_add_right _ _⟩
  | cons c calls ih =>
    rw [List.length_cons,Nat.succ_mul] at left ⊢
    obtain ⟨t,first,used⟩ := @exec_room pool pml4 s c (by omega)
    obtain ⟨s',later,last⟩ := @ih t (by omega)
    refine ⟨s',?_,by omega⟩
    show (c.exec pool pml4 s >>= _) = _
    rw [first,Outcome.bind_ok]
    exact later

theorem regionCalls_length (make : (virt phys flags : Nat) → Call) (step virt phys flags count : Nat) :
    (regionCalls make step virt phys flags count).length = count := by
  rw [regionCalls,List.length_map,List.length_range']

/-- Calls for pages that have page tables take no table from the pool. -/
theorem execAll_room (linked : Linked img) {calls : List Call} (pages : ∀ c ∈ calls, c.Fits ∧ c.level = 0)
    (sound : Sound img.page_table_pool s) (small : ∀ c ∈ calls, SmallPage img.page_table_pool s c.virt) :
    ∃ s', execAll img.page_table_pool img.page_table_pool s calls = .ok s' ∧ s'.pool_offset = s.pool_offset := by
  induction calls generalizing s with
  | nil => exact ⟨s,rfl,rfl⟩
  | cons c calls ih =>
    obtain ⟨fits,level⟩ := pages c List.mem_cons_self
    obtain ⟨t,first,offset⟩ := small_room sound level (small c List.mem_cons_self)
    obtain ⟨sound',kept⟩ := small_step linked sound fits level first
    obtain ⟨s',later,same⟩ := ih (fun d member => pages d (List.mem_cons_of_mem c member)) sound'
      (fun d member => kept _ (small d (List.mem_cons_of_mem c member)))
    refine ⟨s',?_,same.trans offset⟩
    show (c.exec _ _ s >>= _) = _
    rw [first,Outcome.bind_ok]
    exact later

/-! ### A region -/

theorem huge_page (m : Memory) (pml4 : Nat) {a b : Nat} (same : a % 2 ^ 48 / 2 ^ 12 = b % 2 ^ 48 / 2 ^ 12) :
    HugeSlot m pml4 a ↔ HugeSlot m pml4 b := by
  rw [hugeSlot_iff,hugeSlot_iff,← leaf_low m pml4 a,← leaf_low m pml4 b,leaf_page m same]

/-- A clear region misses the low memory, so that it cannot go around the 48-bit addresses. -/
theorem clear_size {pool virt size : Nat} (low : HugeSlot s.memory pool 0) (clear : ClearRegion s pool virt size) :
    size ≤ 2 ^ 48 := by
  by_contra long
  have first : (2 ^ 36 - virt / 2 ^ 12 % 2 ^ 36) * 0x1000 < size := by omega
  refine clear _ first (Nat.mul_mod_left _ _) ((huge_page _ _ ?_).mpr low)
  rw [Nat.mod_mod_of_dvd _ (by decide)]
  omega

/-- No two calls of a region are for one page. -/
theorem region_last {virt phys flags count : Nat} (small : count ≤ 2 ^ 36) {c : Call}
    (member : c ∈ regionCalls .map_page_4kb 0x1000 virt phys flags count) :
    lastCall (regionCalls .map_page_4kb 0x1000 virt phys flags count) c.virt = some c := by
  cases found : lastCall (regionCalls .map_page_4kb 0x1000 virt phys flags count) c.virt with
  | none => exact absurd (decide_eq_true rfl) (List.find?_eq_none.mp found c (List.mem_reverse.mpr member))
  | some d =>
    obtain ⟨other,covers⟩ := lastCall_mem found
    obtain ⟨i,inside,rfl⟩ := regionCalls_mem member
    obtain ⟨j,inside',rfl⟩ := regionCalls_mem other
    have page : (virt + i * 0x1000) % 2 ^ 64 % 2 ^ 48 / 2 ^ 12 =
      (virt + j * 0x1000) % 2 ^ 64 % 2 ^ 48 / 2 ^ 12 := covers
    rw [Nat.mod_mod_of_dvd _ (by decide),Nat.mod_mod_of_dvd _ (by decide)] at page
    have same : i = j := by omega
    rw [same]

/-- After a clear region is mapped, every call of it is in force. -/
theorem region_mapped (linked : Linked img) (sound : Sound img.page_table_pool s) {virt phys size flags : Nat}
    (fits : flags < 2 ^ 64) (clear : ClearRegion s img.page_table_pool virt size)
    (run : map_region_4kb img.page_table_pool s img.page_table_pool virt phys size flags = .ok s') :
    Tables img.page_table_pool img.page_table_pool s' ∧
      ∀ c ∈ regionCalls .map_page_4kb 0x1000 virt phys flags ((size + 0xFFF) / 0x1000),
        leaf s'.memory img.page_table_pool c.virt = some (0,c.stored) := by
  have small := clear_size sound.low clear
  rw [map_region_4kb_pages s virt phys flags small] at run
  have pages (c : Call) (member : c ∈ regionCalls .map_page_4kb 0x1000 virt phys flags ((size + 0xFFF) / 0x1000)) :
      c.Fits ∧ c.level = 0 ∧ ¬HugeSlot s.memory img.page_table_pool c.virt := by
    obtain ⟨i,inside,rfl⟩ := regionCalls_mem member
    exact ⟨⟨Nat.mod_lt _ (Nat.two_pow_pos 64),fits⟩,rfl,clear (i * 0x1000) (by omega) (Nat.mul_mod_left _ _)⟩
  obtain ⟨tables,_,leaves⟩ := run_mapped linked.layout sound.tables (run_of_small linked.layout sound.tables pages run)
  refine ⟨tables,fun c member => ?_⟩
  rw [leaves,region_last (by omega) member,Option.map_some,Option.some_or,(pages c member).2.1]

/-- The second of two equal calls finds everything as it should be. -/
theorem region_again (linked : Linked img) (sound : Sound img.page_table_pool s) {virt phys size flags : Nat}
    (fits : flags < 2 ^ 64) (clear : ClearRegion s img.page_table_pool virt size)
    (run : map_region_4kb img.page_table_pool s img.page_table_pool virt phys size flags = .ok s') :
    map_region_4kb img.page_table_pool s' img.page_table_pool virt phys size flags = .ok s' := by
  obtain ⟨tables,mapped⟩ := region_mapped linked sound fits clear run
  rw [map_region_4kb_pages s' virt phys flags (clear_size sound.low clear)]
  refine execAll_fixed (fun c member => ?_)
  obtain ⟨i,_,same⟩ := regionCalls_mem member
  have level : c.level = 0 := by rw [same]; rfl
  exact mapped_fixed tables level (mapped c member)

end
/-! ### The registers of the local APIC -/

/-- The size that `paging_map_mmio_region(base, 0x1000)` rounds to. -/
def lapicSize (base : Nat) : Nat := ((base + 0x1000 + 0xFFF) % 2 ^ 64 / 2 ^ 12 * 2 ^ 12 + 2 ^ 64 - base / 2 ^ 12 * 2 ^ 12) % 2 ^ 64

/-- The calls for its pages, of which there are two if the base is not aligned. -/
def lapicCalls (base : Nat) : List Call :=
  regionCalls .map_page_4kb 0x1000 (base / 2 ^ 12 * 2 ^ 12) (base / 2 ^ 12 * 2 ^ 12) (PAGE_WRITABLE ||| PAGE_CACHE_DISABLE)
    ((lapicSize base + 0xFFF) / 0x1000)

/-- The mappings of `lapic_init` on several processors, one after the other. -/
def lapicInits (img : Image) (base : Nat) : (cpus : Nat) → Kernel → Outcome Kernel
  | 0, k => .ok k
  | cpus+1, k => do
    let k ← paging_map_mmio_region img k base 0x1000
    lapicInits img base cpus k

section
variable {img : Image} {k k' : Kernel} {base : Nat}

theorem lapicSize_small (fits : base < 2 ^ 64) : lapicSize base = if base % 0x1000 = 0 then 0x1000 else 0x2000 := by
  unfold lapicSize
  split <;> omega

theorem lapic_region (g_pml4 : k.g_pml4 = img.page_table_pool) : paging_map_mmio_region img k base 0x1000 =
    (map_region_4kb img.page_table_pool k.state img.page_table_pool (base / 2 ^ 12 * 2 ^ 12) (base / 2 ^ 12 * 2 ^ 12)
      (lapicSize base) (PAGE_WRITABLE ||| PAGE_CACHE_DISABLE) >>= fun s => .ok { k with state := s }) := by
  rw [paging_map_mmio_region,g_pml4,lapicSize]

theorem lapic_pages (fits : base < 2 ^ 64) (s : State) :
    map_region_4kb img.page_table_pool s img.page_table_pool (base / 2 ^ 12 * 2 ^ 12) (base / 2 ^ 12 * 2 ^ 12)
      (lapicSize base) (PAGE_WRITABLE ||| PAGE_CACHE_DISABLE) =
      execAll img.page_table_pool img.page_table_pool s (lapicCalls base) := by
  have small : lapicSize base ≤ 2 ^ 48 := by
    rw [lapicSize_small fits]
    split <;> omega
  rw [lapicCalls,map_region_4kb_pages _ _ _ _ small]

theorem lapicCalls_fit {c : Call} (member : c ∈ lapicCalls base) : c.Fits ∧ c.level = 0 := by
  obtain ⟨i,_,rfl⟩ := regionCalls_mem member
  exact ⟨⟨Nat.mod_lt _ (Nat.two_pow_pos 64),(by decide : PAGE_WRITABLE ||| PAGE_CACHE_DISABLE < 2 ^ 64)⟩,rfl⟩

theorem proper_small {c : Call} (fits : c.Fits ∧ c.level = 0) : Proper c :=
  ⟨fits.1,fun large => by rw [fits.2] at large; cases large⟩

/-- A region of the local APIC without huge slots. -/
theorem lapic_clear (fits : base < 2 ^ 64) (clear : Clear k (.lapic base)) :
    ClearRegion k.state k.cr3 (base / 2 ^ 12 * 2 ^ 12) (lapicSize base) := by
  intro offset inside whole isHuge
  rw [lapicSize_small fits] at inside
  have has : (Device.lapic base).Has (max base (base / 2 ^ 12 * 2 ^ 12 + offset)) := by
    refine ⟨Nat.le_max_left _ _,?_⟩
    show max base (base / 2 ^ 12 * 2 ^ 12 + offset) < base + 0x1000
    split at inside <;> omega
  refine clear _ has ((huge_page _ _ ?_).mp isHuge)
  rw [Nat.mod_mod_of_dvd _ (by decide)]
  split at inside <;> omega

/-- One more `lapic_init` where the pages of the registers have page tables. -/
theorem lapic_room (linked : Linked img) (fits : base < 2 ^ 64) (g_pml4 : k.g_pml4 = img.page_table_pool)
    (sound : Sound img.page_table_pool k.state)
    (small : ∀ c ∈ lapicCalls base, SmallPage img.page_table_pool k.state c.virt) (cpus : Nat) :
    ∃ k', lapicInits img base cpus k = .ok k' ∧ k'.state.pool_offset = k.state.pool_offset := by
  induction cpus generalizing k with
  | zero => exact ⟨k,rfl,rfl⟩
  | succ cpus ih =>
    obtain ⟨s,run,offset⟩ := execAll_room linked (fun c member => lapicCalls_fit member) sound small
    have sound' := execAll_sound linked (fun c member => proper_small (lapicCalls_fit member)) sound run
    have small' (c : Call) (member : c ∈ lapicCalls base) : SmallPage img.page_table_pool s c.virt :=
      execAll_small linked (fun c member => lapicCalls_fit member) sound run (small c member)
    obtain ⟨k',later,same⟩ := @ih { k with state := s } g_pml4 sound' small'
    refine ⟨k',?_,same.trans offset⟩
    rw [lapicInits,lapic_region g_pml4,lapic_pages fits,run,Outcome.bind_ok,Outcome.bind_ok]
    exact later

/-- After the first `lapic_init` further ones change nothing, and take no table where
    other pages have been mapped in between. -/
theorem lapic_again (linked : Linked img) (fits : base < 2 ^ 64) (g_pml4 : k.g_pml4 = img.page_table_pool)
    (cr3 : k.cr3 = img.page_table_pool) (sound : Sound img.page_table_pool k.state) (clear : Clear k (.lapic base))
    (run : paging_map_mmio_region img k base 0x1000 = .ok k') : (∀ cpus, lapicInits img base cpus k' = .ok k') ∧
      ∀ later, (∀ c ∈ later, c.Fits ∧ c.level = 0) → ∀ t,
        execAll img.page_table_pool img.page_table_pool k'.state later = .ok t → ∀ cpus, ∃ k₂,
          lapicInits img base cpus { k' with state := t } = .ok k₂ ∧ k₂.state.pool_offset = t.pool_offset := by
  have clear' := lapic_clear fits clear
  have flags : PAGE_WRITABLE ||| PAGE_CACHE_DISABLE < 2 ^ 64 := by decide
  rw [cr3] at clear'
  rw [lapic_region g_pml4] at run
  obtain ⟨s,first,rest⟩ := Outcome.bind_eq_ok.mp run
  obtain rfl := Outcome.ok_injective rest
  constructor
  · have once : paging_map_mmio_region img { k with state := s } base 0x1000 = .ok { k with state := s } := by
      rw [@lapic_region img { k with state := s } base g_pml4,region_again linked sound flags clear' first]
      rfl
    intro cpus
    induction cpus with
    | zero => rfl
    | succ cpus ih => exact Outcome.bind_eq_ok.mpr ⟨_,once,ih⟩
  · intro later pages t after cpus
    obtain ⟨_,leaves⟩ := region_mapped linked sound flags clear' first
    rw [lapic_pages fits] at first
    have sound' := execAll_sound linked (fun c member => proper_small (lapicCalls_fit member)) sound first
    have sound'' := execAll_sound linked (fun c member => proper_small (pages c member)) sound' after
    have small (c : Call) (member : c ∈ lapicCalls base) : SmallPage img.page_table_pool t c.virt :=
      execAll_small linked pages sound' after ⟨_,leaves c member⟩
    exact @lapic_room img { k with state := t } base linked fits g_pml4 sound'' small cpus

/-- Boot makes a sound state. -/
theorem boot_sound (linked : Linked img) {info : Nat} (fresh : Fresh k) (boot : paging_init img k info = .ok k') :
    k'.g_pml4 = img.page_table_pool ∧ k'.cr3 = img.page_table_pool ∧ Sound img.page_table_pool k'.state := by
  obtain ⟨g_pml4,cr3,tables,_,calls,bootCalls,leaves⟩ := paging_init_spec linked.layout fresh boot
  refine ⟨g_pml4,cr3,tables,fun a e huge => ?_,paging_init_low linked.layout fresh boot⟩
  obtain ⟨c,last,same⟩ := Option.map_eq_some_iff.mp ((leaves a).symm.trans huge)
  obtain ⟨b,small,rfl⟩ := bootCalls c (lastCall_mem last).1
  obtain rfl := (Prod.mk.inj same).2
  exact frame_away linked ⟨⟨small,(by decide : PAGE_WRITABLE < 2 ^ 64)⟩,
    fun _ => (by decide : PAGE_WRITABLE / 2 ^ 12 % 2 ^ 40 = 0)⟩

end

/-- After boot and any calls, the second of two equal calls of `map_region_4kb` on a
    region without huge slots changes nothing, neither a table nor the offset in the
    pool. The same holds of all calls of `lapic_init` after the first one, and they
    take no table from the pool where other pages are mapped in between. -/
theorem remap_idempotent {img : Image} (linked : Linked img) {k₀ booted : Kernel} {info : Nat} (fresh : Fresh k₀)
    (boot : paging_init img k₀ info = .ok booted) {earlier : List Call} (proper : ∀ c ∈ earlier, Proper c) {s : State}
    (mapped : execAll img.page_table_pool booted.g_pml4 booted.state earlier = .ok s) :
    (∀ virt phys size flags, flags < 2 ^ 64 → ClearRegion s booted.g_pml4 virt size → ∀ s',
      map_region_4kb img.page_table_pool s booted.g_pml4 virt phys size flags = .ok s' →
        map_region_4kb img.page_table_pool s' booted.g_pml4 virt phys size flags = .ok s') ∧
    ∀ base < 2 ^ 64, Clear { booted with state := s } (.lapic base) → ∀ k₁,
      paging_map_mmio_region img { booted with state := s } base 0x1000 = .ok k₁ →
        (∀ cpus, lapicInits img base cpus k₁ = .ok k₁) ∧
        ∀ later, (∀ c ∈ later, c.Fits ∧ c.level = 0) → ∀ t,
          execAll img.page_table_pool booted.g_pml4 k₁.state later = .ok t → ∀ cpus, ∃ k₂,
            lapicInits img base cpus { k₁ with state := t } = .ok k₂ ∧ k₂.state.pool_offset = t.pool_offset := by
  obtain ⟨g_pml4,cr3,sound₀⟩ := boot_sound linked fresh boot
  rw [g_pml4] at mapped
  have sound := execAll_sound linked proper sound₀ mapped
  constructor
  · rw [g_pml4]
    exact fun virt phys size flags fits clear s' run => region_again linked sound fits clear run
  · intro base fits clear k₁ run
    rw [g_pml4]
    exact @lapic_again img { booted with state := s } k₁ base linked fits g_pml4 cr3 sound clear run

/-- An image with 256 KiB of code and data before the pool, besides the heap. -/
def builtImage : Image := ⟨0x100000,0x10180000,0x10140000⟩

theorem built_linked : Linked builtImage := ⟨⟨by decide,by decide,by decide⟩,by decide,by decide⟩

theorem built_first : BootMap.FirstGiB builtImage (BootMap.usable bootMemory [0x9008]) :=
  ⟨by decide,BootMap.small_first.ram⟩

theorem built_boots : ∃ k', paging_init builtImage smallMachine 0x9000 = .ok k' ∧
    k'.cr3 = builtImage.page_table_pool ∧
    BootMap.Identity False builtImage.page_table_pool bootMemory
      (bootSlot builtImage bootMemory [0x9008]) k'.state := by
  have well : BootMap.WellFormed builtImage bootMemory 0x9000 [0x9008] :=
    ⟨BootMap.small_wellFormed.tags,.inl (by decide)⟩
  have low : BootMap.Low builtImage (BootMap.usable bootMemory [0x9008]) := ⟨by decide,by decide,BootMap.small_low.ram⟩
  exact BootMap.paging_init_first built_linked.layout smallFresh well low built_first

/-- A page of 4 KiB outside the huge pages makes none. -/
theorem huge_kept {img : Image} (linked : Linked img) {s s' : State} (sound : Sound img.page_table_pool s)
    {virt phys flags a : Nat} (fits : (Call.map_page_4kb virt phys flags).Fits)
    (clear : ¬HugeSlot s.memory img.page_table_pool virt)
    (run : execAll img.page_table_pool img.page_table_pool s [.map_page_4kb virt phys flags] = .ok s')
    (huge : HugeSlot s'.memory img.page_table_pool a) : HugeSlot s.memory img.page_table_pool a := by
  obtain ⟨t,first,rest⟩ := Outcome.bind_eq_ok.mp run
  obtain rfl := Outcome.ok_injective rest
  have mapped := map_page_4kb_spec linked.layout sound.tables fits clear first
  obtain ⟨e,found⟩ := hugeSlot_iff.mp huge
  by_cases covers : (Call.map_page_4kb virt phys flags).Covers a
  · rw [mapped.covered a covers] at found
    cases found
  · exact hugeSlot_iff.mpr ⟨e,(mapped.others a covers).symm.trans found⟩

/-- Nothing is mapped above the first GiB, and most of the pool is left. -/
theorem built_above {booted : Kernel} (identity : BootMap.Identity False builtImage.page_table_pool bootMemory
      (bootSlot builtImage bootMemory [0x9008]) booted.state) :
    (∀ a, 2 ^ 30 ≤ a → a < 2 ^ 48 → ¬HugeSlot booted.state.memory builtImage.page_table_pool a) ∧
      booted.state.pool_offset ≤ 3 * 4096 := by
  refine ⟨fun a high small huge => ?_,?_⟩
  · obtain ⟨e,found⟩ := hugeSlot_iff.mp huge
    rw [identity.above built_first high small] at found
    cases found
  · rcases identity.lasts with impossible | early | late
    · exact impossible.elim
    · omega
    · exact late.1

/-- The page of an I/O APIC is mapped, and then twice two pages on both sides of 0xfee00000,
    which have different page tables. The registers of the local APIC are mapped by 15 processors more. -/
theorem remap_idempotent_built : ∃ booted s s' k₁, paging_init builtImage smallMachine 0x9000 = .ok booted ∧
    execAll builtImage.page_table_pool booted.g_pml4 booted.state [.map_page_4kb 0xfec00000 0xfec00000 PAGE_WRITABLE] = .ok s ∧
    map_region_4kb builtImage.page_table_pool s booted.g_pml4 0xfedff000 0xfedff000 0x2000 PAGE_WRITABLE = .ok s' ∧
    map_region_4kb builtImage.page_table_pool s' booted.g_pml4 0xfedff000 0xfedff000 0x2000 PAGE_WRITABLE = .ok s' ∧
    paging_map_mmio_region builtImage { booted with state := s } 0xfee00000 0x1000 = .ok k₁ ∧
    lapicInits builtImage 0xfee00000 15 k₁ = .ok k₁ := by
  obtain ⟨booted,boot,cr3,identity⟩ := built_boots
  obtain ⟨g_pml4,_,sound⟩ := boot_sound built_linked smallFresh boot
  obtain ⟨above,room⟩ := built_above identity
  have size := pool_size
  have fits : (Call.map_page_4kb 0xfec00000 0xfec00000 PAGE_WRITABLE).Fits := ⟨by decide,by decide⟩
  obtain ⟨s,earlier,room₁⟩ := @execAll_lasts booted.state builtImage.page_table_pool booted.g_pml4 _ Nat.le.refl
    [.map_page_4kb 0xfec00000 0xfec00000 PAGE_WRITABLE] (by rw [List.length_singleton]; omega)
  rw [List.length_singleton] at room₁
  have clear (a : Nat) (high : 2 ^ 30 ≤ a) (small : a < 2 ^ 48) : ¬HugeSlot s.memory builtImage.page_table_pool a := by
    intro huge
    rw [g_pml4] at earlier
    exact above a high small (huge_kept built_linked sound fits (above _ (by decide) (by decide)) earlier huge)
  obtain ⟨s',region,_⟩ := @execAll_lasts s builtImage.page_table_pool booted.g_pml4 _ Nat.le.refl
    (regionCalls .map_page_4kb 0x1000 0xfedff000 0xfedff000 PAGE_WRITABLE ((0x2000 + 0xFFF) / 0x1000))
    (by rw [regionCalls_length]; omega)
  rw [← map_region_4kb_pages s _ _ _ (by decide)] at region
  have clearRegion : ClearRegion s booted.g_pml4 0xfedff000 0x2000 := by
    intro offset inside _
    rw [g_pml4]
    exact clear _ (by omega) (by omega)
  have single : (lapicCalls 0xfee00000).length = 1 := by
    rw [lapicCalls,regionCalls_length,lapicSize_small (by decide),if_pos (by decide)]
  obtain ⟨t,pages,_⟩ := @execAll_lasts s builtImage.page_table_pool builtImage.page_table_pool _ Nat.le.refl
    (lapicCalls 0xfee00000) (by rw [single]; omega)
  have mapped : paging_map_mmio_region builtImage { booted with state := s } 0xfee00000 0x1000 =
      .ok { booted with state := t } := by
    rw [@lapic_region builtImage { booted with state := s } _ g_pml4,lapic_pages (by decide),pages]
    rfl
  have clearLapic : Clear { booted with state := s } (.lapic 0xfee00000) := by
    intro a inside
    rw [show ({ booted with state := s } : Kernel).cr3 = builtImage.page_table_pool from cr3]
    exact clear a (Nat.le_trans (by decide) inside.1) (Nat.lt_trans inside.2 (by decide))
  have proper (c : Call) (member : c ∈ [Call.map_page_4kb 0xfec00000 0xfec00000 PAGE_WRITABLE]) : Proper c := by
    obtain rfl := List.mem_singleton.mp member
    exact proper_small ⟨fits,rfl⟩
  obtain ⟨regions,lapics⟩ := remap_idempotent built_linked smallFresh boot proper earlier
  exact ⟨booted,s,s',_,boot,earlier,region,regions _ _ _ _ (by decide) clearRegion _ region,mapped,
    (lapics _ (by decide) clearLapic _ mapped).1 15⟩

end NekoOs.Remap
