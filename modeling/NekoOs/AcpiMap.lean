import NekoOs.AcpiReads
import NekoOs.BootMap

/-!
The ACPI tables under the page tables of `paging_init`, which maps the usable RAM
but not the regions in which the firmware leaves its tables. They can be read
where they share a page of 2 MiB with something that is mapped.
-/
namespace NekoOs.AcpiMap
open ByteMemory Trace Paging PageTables Regions BootMap AcpiReads
open Madt (tableLength)

/-- The RSDT or XSDT, the MADT and the HPET table. -/
def Concerned (m : Memory) (root : Root) (table : Nat) : Prop :=
  table = root.header ∨ ∃ i < root.count m,
    (signed m (root.table m i) APIC 0 = true ∨ signed m (root.table m i) HPET 0 = true) ∧ table = root.table m i

/-- The bytes of these tables that some reads cover. -/
def TableByte (m : Memory) (root : Root) (seen : Read → Prop) (a : Nat) : Prop :=
  ∃ r, seen r ∧ Concerned m root r.base ∧ r.base ≤ a ∧ a < r.base + tableLength m r.base ∧
    r.address ≤ a ∧ a < r.address + r.width

/-- A table inside one region of the memory map, of usable RAM, ACPI reclaimable
    memory or ACPI NVS, below 2^47. -/
def Declared (mem : Memory) (tags : List Nat) (m : Memory) (table : Nat) : Prop :=
  ∃ ptr ∈ entries mem tags, (entryType mem ptr = 1 ∨ entryType mem ptr = 3 ∨ entryType mem ptr = 4) ∧
    entryBase mem ptr ≤ table ∧ table + tableLength m table ≤ entryBase mem ptr + entryLength mem ptr ∧
    entryBase mem ptr + entryLength mem ptr ≤ 2 ^ 47

/-- The address has a page. -/
def Present (k : Kernel) (a : Nat) : Prop := (walk k.state.memory k.cr3 a).isSome = true

section
variable {img : Image} {k k' : Kernel} {info : Nat} {tags : List Nat}

/-- After boot the pages are those of the wanted bytes. -/
theorem present_iff (layout : Layout img.page_table_pool img.page_table_pool) (fresh : Fresh k)
    (well : WellFormed img k.state.memory info tags) (low : Low img (usable k.state.memory tags))
    (run : paging_init img k info = .ok k') {a : Nat} (small : a < 2 ^ 47) :
    Present k' a ↔ Wanted img (usable k.state.memory tags) a := by
  obtain ⟨inside,outside⟩ := boot_leaf layout fresh well low run (.inl small)
  rw [Present,walk_eq_leaf,Option.isSome_map]
  constructor
  · intro found
    by_contra unwanted
    simp [outside unwanted] at found
  · intro wanted
    rw [(inside wanted).2,Option.isSome_some]

/-- Every byte that the start-up reads of the tables is in a page, if and only if
    every byte that it needs of them is in the low memory, the mapped kernel, or a
    page of 2 MiB that holds usable RAM. -/
theorem acpi_present_iff (layout : Layout img.page_table_pool img.page_table_pool) (fresh : Fresh k)
    (well : WellFormed img k.state.memory info tags) (low : Low img (usable k.state.memory tags))
    (run : paging_init img k info = .ok k') (m : Memory) (rsdp : Nat) (listed : Listed m (root m rsdp))
    (declared : ∀ table, Concerned m (root m rsdp) table → Declared k.state.memory tags m table) :
    (∀ a, TableByte m (root m rsdp) (StartupReads m rsdp) a → Present k' a) ↔
      ∀ a, TableByte m (root m rsdp) (Needed m rsdp) a → Wanted img (usable k.state.memory tags) a := by
  refine forall_congr' (fun a => ?_)
  have same : TableByte m (root m rsdp) (StartupReads m rsdp) a ↔ TableByte m (root m rsdp) (Needed m rsdp) a :=
    exists_congr (fun _ => and_congr_left (fun _ => startup_reads_iff listed))
  rw [same]
  refine imp_congr_right (fun needed => present_iff layout fresh well low run ?_)
  obtain ⟨r,_,concerned,_,inside,_⟩ := needed
  obtain ⟨ptr,_,_,_,within,below⟩ := declared r.base concerned
  omega

end

/-! ### Two machines -/

/-- Boot information at 0x9000 with RAM from 0x100000 to 0x3ffe0000, 64 KiB of ACPI
    reclaimable memory at an address, and an RSDP with the RSDT at that address. -/
def acpiInfo (low high : UInt8) : List UInt8 :=
  [112,0,0,0, 0,0,0,0, 6,0,0,0, 64,0,0,0, 24,0,0,0, 0,0,0,0,
    0,0,0x10,0,0,0,0,0, 0,0,0xEE,0x3F,0,0,0,0, 1,0,0,0,0,0,0,0,
    0,0,low,high,0,0,0,0, 0,0,1,0,0,0,0,0, 3,0,0,0,0,0,0,0,
    14,0,0,0, 28,0,0,0, 82,83,68,32,80,84,82,32, 0, 0,0,0,0,0,0, 0, 0,0,low,high, 0,0,0,0,
    0,0,0,0,8,0,0,0]

/-- An RSDT with the pointers of a MADT with a processor and an I/O APIC, and of an HPET table behind it. -/
def acpiTables (low high : UInt8) : List UInt8 :=
  [82,83,68,84,44,0,0,0] ++ List.replicate 28 0 ++ [48,0,low,high,112,0,low,high] ++ List.replicate 4 0 ++
    [65,80,73,67,64,0,0,0] ++ List.replicate 36 0 ++ [0,8,0,0,1,0,0,0, 1,12,2,0,0,0,0xC0,0xFE,0,0,0,0] ++
    [72,80,69,84,56,0,0,0] ++ List.replicate 48 0

def tablesAt (low high : UInt8) : Nat := low.toNat * 2 ^ 16 + high.toNat * 2 ^ 24

def acpiMemory (low high : UInt8) : Memory := fun a =>
  if a < 0x9000 then 0 else if a < 0xA000 then (acpiInfo low high).getD (a - 0x9000) 0
  else if a < tablesAt low high then 0 else (acpiTables low high).getD (a - tablesAt low high) 0

def acpiMachine (low high : UInt8) : Kernel := ⟨0,0,⟨acpiMemory low high,0,[]⟩⟩

/-- The tables of a machine: the RSDT with two pointers, the MADT and the HPET table. -/
def TablesAt (m : Memory) (base : Nat) : Prop :=
  (root m 0x9050).header = base ∧ (root m 0x9050).entry_size = 4 ∧ (root m 0x9050).count m = 2 ∧
    (root m 0x9050).table m 0 = base + 48 ∧ (root m 0x9050).table m 1 = base + 112 ∧
    signed m (base + 48) APIC 0 = true ∧ signed m (base + 112) HPET 0 = true ∧
    tableLength m base = 44 ∧ tableLength m (base + 48) = 64 ∧ tableLength m (base + 112) = 56

instance (m : Memory) (base : Nat) : Decidable (TablesAt m base) := inferInstanceAs (Decidable (_ ∧ _))

/-- The tags of a machine, and its two regions. -/
def TagsAt (m : Memory) (base : Nat) : Prop :=
  (tagType m 0x9008 = 6 ∧ tagSize m 0x9008 = 64 ∧ entrySize m 0x9008 = 24 ∧ tagType m 0x9048 = 14 ∧
    tagSize m 0x9048 = 28 ∧ tagType m 0x9068 = 0 ∧ totalSize m 0x9000 = 112) ∧
  usable m [0x9008,0x9048] = [(0x100000,0x3fee0000)] ∧ 0x9030 ∈ entries m [0x9008,0x9048] ∧
    entryType m 0x9030 = 3 ∧ entryBase m 0x9030 = base ∧ entryLength m 0x9030 = 0x10000

instance (m : Memory) (base : Nat) : Decidable (TagsAt m base) := inferInstanceAs (Decidable (_ ∧ _))

section
variable {m : Memory} {base : Nat}

theorem tagsAt_wellFormed (tags : TagsAt m base) : WellFormed smallImage m 0x9000 [0x9008,0x9048] := by
  obtain ⟨mapType,mapSize,mapEntry,acpiType,acpiSize,endType,total⟩ := tags.1
  have last : TagList m (0x9000 + 112) 0x9068 [] := .ends (by decide) endType
  have second : TagList m (0x9000 + 112) 0x9048 [0x9048] := by
    refine .cons (by simp [acpiType,MB2_TAG_END]) (by rw [acpiSize]; decide) (by rw [acpiSize]; decide) (fun isMap => ?_)
      (by rw [acpiSize]; exact last)
    simp [acpiType,MB2_TAG_MMAP] at isMap
  have map : MapTag m 0x9008 := ⟨by rw [mapEntry],by rw [mapEntry],2,by rw [mapSize,mapEntry]⟩
  refine ⟨?_,.inl (by rw [total]; decide)⟩
  rw [total]
  exact .cons (by simp [mapType,MB2_TAG_END]) (by rw [mapSize]; decide) (by rw [mapSize]; decide) (fun _ => map)
    (by rw [mapSize]; exact second)

theorem tagsAt_first (tags : TagsAt m base) : FirstGiB smallImage (usable m [0x9008,0x9048]) := by
  rw [tags.2.1]
  exact ⟨by decide,by simp [roundUp]⟩

theorem tagsAt_boots (tags : TagsAt m base) : Low smallImage (usable m [0x9008,0x9048]) ∧
    ∃ k', paging_init smallImage ⟨0,0,⟨m,0,[]⟩⟩ 0x9000 = .ok k' := by
  have fresh : Fresh ⟨0,0,⟨m,0,[]⟩⟩ := ⟨rfl,rfl,rfl⟩
  have low : Low smallImage (usable m [0x9008,0x9048]) := by
    rw [tags.2.1]
    exact ⟨by decide,by decide,by simp [roundUp]⟩
  obtain ⟨k',run,_⟩ := paging_init_first smallLayout fresh (tagsAt_wellFormed tags) low (tagsAt_first tags)
  exact ⟨low,k',run⟩

/-- The three tables, and what is declared of them. -/
theorem tablesAt_concerned (tables : TablesAt m base) {table : Nat} (concerned : Concerned m (root m 0x9050) table) :
    base ≤ table ∧ table + tableLength m table ≤ base + 168 := by
  obtain ⟨header,_,count,madt,hpet,_,_,rootLength,madtLength,hpetLength⟩ := tables
  rcases concerned with rfl | ⟨i,inside,_,rfl⟩
  · rw [header,rootLength]
    omega
  · rw [count] at inside
    obtain rfl | rfl : i = 0 ∨ i = 1 := by omega
    · rw [madt,madtLength]
      omega
    · rw [hpet,hpetLength]
      omega

theorem tablesAt_listed (tables : TablesAt m base) : Listed m (root m 0x9050) := by
  obtain ⟨_,_,count,madt,hpet,isMadt,isHpet,_⟩ := tables
  exact ⟨⟨0,by omega,by rw [madt]; exact isMadt⟩,⟨1,by omega,by rw [hpet]; exact isHpet⟩⟩

theorem tagsAt_declared (tags : TagsAt m base) (tables : TablesAt m base) (low : base + 0x10000 ≤ 2 ^ 47) {table : Nat}
    (concerned : Concerned m (root m 0x9050) table) : Declared m [0x9008,0x9048] m table := by
  obtain ⟨_,_,member,type,start,length⟩ := tags
  obtain ⟨above,below⟩ := tablesAt_concerned tables concerned
  exact ⟨0x9030,member,.inr (.inl type),by omega,by omega,by omega⟩

end

theorem shared_page : TagsAt (acpiMemory 0xFE 0x3F) 0x3ffe0000 ∧ TablesAt (acpiMemory 0xFE 0x3F) 0x3ffe0000 := by
  decide +kernel

theorem own_page : TagsAt (acpiMemory 0 0x40) 0x40000000 ∧ TablesAt (acpiMemory 0 0x40) 0x40000000 := by
  decide +kernel

/-- Tables in the page in which the RAM ends can be read. -/
theorem acpi_present_shared : ∃ k', paging_init smallImage (acpiMachine 0xFE 0x3F) 0x9000 = .ok k' ∧
    ∀ a, TableByte (acpiMemory 0xFE 0x3F) (root (acpiMemory 0xFE 0x3F) 0x9050)
      (StartupReads (acpiMemory 0xFE 0x3F) 0x9050) a → Present k' a := by
  obtain ⟨tags,tables⟩ := shared_page
  obtain ⟨low,k',run⟩ := tagsAt_boots tags
  refine ⟨k',run,(acpi_present_iff smallLayout (k := acpiMachine 0xFE 0x3F) ⟨rfl,rfl,rfl⟩ (tagsAt_wellFormed tags) low run _ _
    (tablesAt_listed tables) (fun _ => tagsAt_declared tags tables (by decide))).mpr ?_⟩
  rintro a ⟨r,_,concerned,above,below,_⟩
  have inside := tablesAt_concerned tables concerned
  have ram : usable (acpiMachine 0xFE 0x3F).state.memory [0x9008,0x9048] = [(0x100000,0x3fee0000)] := tags.2.1
  rw [ram]
  have first : roundDown 0x100000 = 0 := by decide
  have last : roundUp (0x100000 + 0x3fee0000) = 0x40000000 := by decide
  exact .inr (.inr ⟨_,List.mem_singleton.mpr rfl,by rw [first]; exact Nat.zero_le a,by rw [last]; omega⟩)

/-- Tables in a page of their own cannot. -/
theorem acpi_absent : (∀ table, Concerned (acpiMemory 0 0x40) (root (acpiMemory 0 0x40) 0x9050) table →
      Declared (acpiMemory 0 0x40) [0x9008,0x9048] (acpiMemory 0 0x40) table) ∧
    ∃ k', paging_init smallImage (acpiMachine 0 0x40) 0x9000 = .ok k' ∧
      TableByte (acpiMemory 0 0x40) (root (acpiMemory 0 0x40) 0x9050) (StartupReads (acpiMemory 0 0x40) 0x9050) 0x40000004 ∧
      ¬Present k' 0x40000004 := by
  obtain ⟨tags,tables⟩ := own_page
  obtain ⟨low,k',run⟩ := tagsAt_boots tags
  refine ⟨fun _ => tagsAt_declared tags tables (by decide),k',run,?_,?_⟩
  · obtain ⟨header,_,_,_,_,_,_,rootLength,_⟩ := tables
    have read : StartupReads (acpiMemory 0 0x40) 0x9050 ⟨0x40000000,0x40000000 + 4,4⟩ := by
      refine .inl (acpi_init_reads.mpr (.inr ?_))
      rw [header]
      exact ⟨by decide,.inl (by rw [header])⟩
    refine ⟨_,read,.inl header.symm,by decide,?_,by decide,by decide⟩
    rw [rootLength]
    decide
  · rw [present_iff smallLayout (k := acpiMachine 0 0x40) ⟨rfl,rfl,rfl⟩ (tagsAt_wellFormed tags) low run (by decide)]
    exact fun wanted => absurd ((tagsAt_first tags).below wanted) (by decide)

end NekoOs.AcpiMap
