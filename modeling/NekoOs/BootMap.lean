import NekoOs.Regions

/-!
The map that `paging_init` leaves behind, for boot information of the form that
Multiboot2 gives it: the identity on the low memory, the kernel and the usable
RAM, each rounded to 2 MiB, and nothing else.
-/
namespace NekoOs.BootMap
open ByteMemory PathTree Paging PageTables Regions

def roundDown (a : Nat) : Nat := a / 2 ^ 21 * 2 ^ 21
def roundUp (a : Nat) : Nat := (a + 0x1FFFFF) / 2 ^ 21 * 2 ^ 21

/-! ### Well-formed boot information -/

/-- `info->total_size` -/
def totalSize (m : Memory) (info : Nat) : Nat := load m info 4

/-- A memory map that its entries fill. -/
structure MapTag (m : Memory) (mmap : Nat) : Prop where
  wide : 24 ≤ entrySize m mmap
  aligned : entrySize m mmap % 8 = 0
  filled : ∃ k, tagSize m mmap = 16 + k * entrySize m mmap

/-- The tags from an address on, up to the one that ends them. -/
inductive TagList (m : Memory) (stop : Nat) : (tag : Nat) → List Nat → Prop
  | ends {tag : Nat} : tag + 8 ≤ stop → tagType m tag = MB2_TAG_END → TagList m stop tag []
  | cons {tag : Nat} {rest : List Nat} : tagType m tag ≠ MB2_TAG_END → 8 ≤ tagSize m tag →
    tag + (tagSize m tag + 7) / 8 * 8 ≤ stop → (tagType m tag = MB2_TAG_MMAP → MapTag m tag) →
    TagList m stop (tag + (tagSize m tag + 7) / 8 * 8) rest → TagList m stop tag (tag :: rest)

/-- Boot information with its tags, outside the page table pool. -/
structure WellFormed (img : Image) (m : Memory) (info : Nat) (tags : List Nat) : Prop where
  tags : TagList m (info + totalSize m info) (info + 8) tags
  apart : info + totalSize m info ≤ img.page_table_pool ∨ img.page_table_pool + sizeof_page_table_pool ≤ info

def entryCount (m : Memory) (mmap : Nat) : Nat := (tagSize m mmap - 16) / entrySize m mmap

def entriesOf (m : Memory) (mmap : Nat) : List Nat :=
  (List.range (entryCount m mmap)).map (fun i => mmap + 16 + i * entrySize m mmap)

/-- The entries of all memory maps. -/
def entries (m : Memory) (tags : List Nat) : List Nat :=
  (tags.filter (fun tag => tagType m tag = MB2_TAG_MMAP)).flatMap (entriesOf m)

/-- The usable RAM, with the base and the length of each region. -/
def usable (m : Memory) (tags : List Nat) : List (Nat × Nat) :=
  ((entries m tags).filter (fun ptr => entryType m ptr = 1)).map (fun ptr => (entryBase m ptr,entryLength m ptr))

/-! ### What should be mapped -/

def mapSize (img : Image) : Nat := roundUp (roundUp (img.kernel_end - img.kernel_start) + sizeof_page_table_pool)

/-- The bytes of the low memory, of the kernel and of the usable RAM. -/
def Wanted (img : Image) (ram : List (Nat × Nat)) (a : Nat) : Prop :=
  a < 2 ^ 21 ∨ (roundDown img.kernel_start ≤ a ∧ a < roundDown img.kernel_start + mapSize img) ∨
    ∃ r ∈ ram, roundDown r.1 ≤ a ∧ a < roundUp (r.1 + r.2)

/-- The rounded ends of the kernel and of the usable RAM are below 2^47. -/
structure Low (img : Image) (ram : List (Nat × Nat)) : Prop where
  image : img.kernel_start ≤ img.kernel_end
  kernel : roundUp img.kernel_end < 2 ^ 47
  ram : ∀ r ∈ ram, roundUp (r.1 + r.2) < 2 ^ 47

/-- The kernel and the usable RAM are in the first GiB. -/
structure FirstGiB (img : Image) (ram : List (Nat × Nat)) : Prop where
  kernel : img.kernel_start + mapSize img ≤ 2 ^ 30
  ram : ∀ r ∈ ram, roundUp (r.1 + r.2) ≤ 2 ^ 30

/-- The mapped kernel contains the kernel, wherever it starts. -/
theorem kernel_mapped (img : Image) {a : Nat} (first : img.kernel_start ≤ a) (last : a < img.kernel_end) :
    roundDown img.kernel_start ≤ a ∧ a < roundDown img.kernel_start + mapSize img := by
  have pool := pool_size
  unfold roundDown mapSize roundUp
  omega

theorem kernel_low {img : Image} {ram : List (Nat × Nat)} (low : Low img ram) :
    roundDown img.kernel_start + mapSize img ≤ 2 ^ 47 := by
  have pool := pool_size
  have image := low.image
  have kernel := low.kernel
  unfold roundDown mapSize
  unfold roundUp at *
  omega

/-! ### Regions one after another -/

/-- The panic of `alloc_page_table`, where it may happen. -/
def exhausted (may : Prop) (message : String) : Prop := may ∧ message = "Page table pool exhausted"

section
variable {pool pml4 : Nat} {may : Prop}

theorem alloc_page_table_ends (fails : may) (s : State) :
    (alloc_page_table pool s).Ends (exhausted may) (fun _ => True) := by
  unfold alloc_page_table
  split
  · exact .kpanic ⟨fails,rfl⟩
  · exact .ok True.intro

theorem nextTable_ends (fails : may) (s : State) (table idx : Nat) :
    (nextTable pool s table idx).Ends (exhausted may) (fun _ => True) := by
  unfold nextTable
  by_cases isPresent : present (entry s.memory table idx)
  · rw [if_pos isPresent]
    exact .ok True.intro
  · rw [if_neg isPresent]
    exact (alloc_page_table_ends fails s).bind (fun r _ => .ok True.intro)

theorem exec_ends (fails : may) (s : State) (c : Call) : (c.exec pool pml4 s).Ends (exhausted may) (fun _ => True) := by
  cases c with
  | map_page_4kb virt phys flags =>
    exact (nextTable_ends fails s _ _).bind (fun r _ => (nextTable_ends fails r.1 _ _).bind (fun r _ =>
      (nextTable_ends fails r.1 _ _).bind (fun r _ => .ok True.intro)))
  | map_page_2mb virt phys flags =>
    exact (nextTable_ends fails s _ _).bind (fun r _ =>
      (nextTable_ends fails r.1 _ _).bind (fun r _ => .ok True.intro))

theorem execAll_ends (fails : may) (s : State) (calls : List Call) :
    (execAll pool pml4 s calls).Ends (exhausted may) (fun _ => True) := by
  induction calls generalizing s with
  | nil => exact .ok True.intro
  | cons c calls ih => exact (exec_ends fails s c).bind (fun t _ => ih t)

/-- Some slots are mapped to themselves and the others not at all, with the memory
    outside the pool as it was. The pool lasts for the first GiB at least where it
    must not be exhausted. -/
structure Identity (may : Prop) (pool : Nat) (m : Memory) (mapped : Nat → Prop) (s : State) : Prop where
  tables : Tables pool pool s
  outside : ∀ b, b < pool ∨ pool + sizeof_page_table_pool ≤ b → s.memory b = m b
  inside : ∀ a < 2 ^ 48, mapped (a / 2 ^ 21) → leaf s.memory pool a = some (identityLeaf a)
  other : ∀ a < 2 ^ 48, ¬mapped (a / 2 ^ 21) → leaf s.memory pool a = none
  lasts : may ∨ Lasts pool s 0 (3 * 4096)

variable {m : Memory} {mapped : Nat → Prop} {s : State}

theorem Identity.congr {mapped' : Nat → Prop} (identity : Identity may pool m mapped s)
    (same : ∀ n, mapped n ↔ mapped' n) :
    Identity may pool m mapped' s :=
  ⟨identity.tables,identity.outside,fun a small inside => identity.inside a small ((same _).mpr inside),
    fun a small out => identity.other a small (fun inside => out ((same _).mp inside)),identity.lasts⟩

theorem outside_pool {b : Nat} (out : b < pool ∨ pool + sizeof_page_table_pool ≤ b) : Outside pool pool b := by
  have pool := pool_size
  exact ⟨by omega,out⟩

/-- A region adds its slots. -/
theorem region_identity (layout : Layout pool pool) (identity : Identity may pool m mapped s) {base count : Nat}
    (low : base + count * 2 ^ 21 ≤ 2 ^ 48) (first : may ∨ base + count * 2 ^ 21 ≤ 2 ^ 30) :
    (map_region_2mb pool s pool base base (count * 0x200000) PAGE_WRITABLE).Ends (exhausted may)
      (Identity may pool m (fun n => mapped n ∨ base / 2 ^ 21 ≤ n ∧ n < base / 2 ^ 21 + count)) := by
  have ends : (map_region_2mb pool s pool base base (count * 0x200000) PAGE_WRITABLE).Ends (exhausted may)
      (fun t => may ∨ Lasts pool t 0 (3 * 4096)) := by
    by_cases fails : may
    · rw [map_region_2mb_eq s base base PAGE_WRITABLE (by omega)]
      exact (execAll_ends fails s _).imp (fun _ _ _ => .inl fails)
    · obtain ⟨t,run,lasts⟩ := low_region layout identity.tables (first.resolve_left fails)
        (by decide : 3 * 4096 ≤ sizeof_page_table_pool) (identity.lasts.resolve_left fails)
      rw [run]
      exact .ok (.inr lasts)
  refine ends.imp (fun t run lasts => ?_)
  obtain ⟨tables,outside,leaves⟩ := identity_region layout identity.tables low run
  refine ⟨tables,fun b out => (outside b (outside_pool out)).trans (identity.outside b out),
    fun a small covered => ?_,fun a small missed => ?_,lasts⟩
  · rw [leaves a small]
    by_cases fresh : base / 2 ^ 21 ≤ a / 2 ^ 21 ∧ a / 2 ^ 21 < base / 2 ^ 21 + count
    · rw [if_pos fresh]
    · rw [if_neg fresh]
      exact identity.inside a small (covered.resolve_right fresh)
  · rw [leaves a small,if_neg (fun fresh => missed (.inr fresh))]
    exact identity.other a small (fun old => missed (.inl old))

/-- A load from outside the pool sees the memory as it was. -/
theorem Identity.load (identity : Identity may pool m mapped s) {a width : Nat}
    (apart : a + width ≤ pool ∨ pool + sizeof_page_table_pool ≤ a) : load s.memory a width = load m a width :=
  load_congr (fun b low high => identity.outside b (by omega))

/-- Three tables can be taken from the pool where it must not be exhausted. -/
theorem Identity.room (identity : Identity False pool m mapped s) :
    s.pool_offset + 3 * 4096 ≤ sizeof_page_table_pool := by
  have size := pool_size
  rcases identity.lasts with impossible | early | ⟨late,_⟩
  · exact impossible.elim
  · omega
  · omega

/-- An end of a region that is low enough. -/
def Below (may : Prop) (stop : Nat) : Prop := stop < 2 ^ 47 ∧ (may ∨ stop ≤ 2 ^ 30)

/-- The slots of an entry of the memory map, if it is usable. -/
def entrySlot (m : Memory) (ptr n : Nat) : Prop :=
  entryType m ptr = 1 ∧ entryBase m ptr / 2 ^ 21 ≤ n ∧ n < (entryBase m ptr + entryLength m ptr + 0x1FFFFF) / 2 ^ 21

theorem mapEntry_identity (layout : Layout pool pool) (identity : Identity may pool m mapped s) {ptr : Nat}
    (apart : ptr + 24 ≤ pool ∨ pool + sizeof_page_table_pool ≤ ptr)
    (low : entryType m ptr = 1 → Below may (roundUp (entryBase m ptr + entryLength m ptr))) :
    (mapEntry pool pool ptr s).Ends (exhausted may) (Identity may pool m (fun n => mapped n ∨ entrySlot m ptr n)) := by
  have type : entryType s.memory ptr = entryType m ptr := identity.load (by omega)
  have base : entryBase s.memory ptr = entryBase m ptr := identity.load (by omega)
  have length : entryLength s.memory ptr = entryLength m ptr := identity.load (by omega)
  rw [mapEntry,type,base,length]
  unfold entrySlot
  by_cases usable : entryType m ptr = 1
  · rw [if_pos usable]
    obtain ⟨small,firstGiB⟩ := low usable
    unfold roundUp at small firstGiB
    generalize entryBase m ptr = first at *
    generalize entryLength m ptr = width at *
    have size : ((first + width + 0x1FFFFF) % 2 ^ 64 / 2 ^ 21 * 2 ^ 21 + 2 ^ 64 - first / 2 ^ 21 * 2 ^ 21) % 2 ^ 64 =
        ((first + width + 0x1FFFFF) / 2 ^ 21 - first / 2 ^ 21) * 0x200000 := by omega
    simp only [size]
    refine (region_identity layout identity (by omega) (firstGiB.imp_right (by omega))).imp
      (fun t _ after => after.congr (fun n => ?_))
    refine or_congr_right ?_
    simp only [usable,true_and]
    omega
  · rw [if_neg usable]
    exact .ok (identity.congr (fun n => by simp [usable]))

/-- The entries of a memory map from the `i`-th on. -/
def entriesFrom (m : Memory) (mmap i remaining : Nat) : List Nat :=
  (List.range' i remaining).map (fun j => mmap + 16 + j * entrySize m mmap)

theorem entryCount_eq {mmap k : Nat} (tag : MapTag m mmap) (filled : tagSize m mmap = 16 + k * entrySize m mmap) :
    entryCount m mmap = k := by
  have wide := tag.wide
  rw [entryCount,filled,Nat.add_sub_cancel_left,Nat.mul_div_cancel _ (by omega)]

/-- What holds of the entries of the memory maps and of their loads. -/
structure Entries (may : Prop) (pool : Nat) (m : Memory) (mmap : Nat) : Prop where
  tag : MapTag m mmap
  apart : mmap + tagSize m mmap ≤ pool ∨ pool + sizeof_page_table_pool ≤ mmap
  low : ∀ ptr ∈ entriesOf m mmap, entryType m ptr = 1 → Below may (roundUp (entryBase m ptr + entryLength m ptr))

theorem mapEntries_identity (layout : Layout pool pool) {mmap fuel i remaining : Nat} (all : Entries may pool m mmap)
    (count : i + remaining = entryCount m mmap) (enough : remaining < fuel) (identity : Identity may pool m mapped s) :
    (mapEntries pool pool mmap fuel (mmap + 16 + i * entrySize m mmap) s).Ends (exhausted may) (Identity may pool m
      (fun n => mapped n ∨ ∃ ptr ∈ entriesFrom m mmap i remaining, entrySlot m ptr n)) := by
  obtain ⟨k,filled⟩ := all.tag.filled
  have wide := all.tag.wide
  have apart := all.apart
  have whole := entryCount_eq all.tag filled
  have size : tagSize s.memory mmap = tagSize m mmap := identity.load (by omega)
  induction remaining generalizing i s fuel mapped with
  | zero =>
    obtain ⟨fuel,rfl⟩ : ∃ f, fuel = f + 1 := ⟨fuel - 1,by omega⟩
    obtain rfl : i = k := by omega
    have last : ¬mmap + 16 + i * entrySize m mmap < mmap + tagSize m mmap := by omega
    rw [mapEntries,size,if_neg last]
    exact .ok (identity.congr (fun n => by simp [entriesFrom]))
  | succ remaining ih =>
    obtain ⟨fuel,rfl⟩ : ∃ f, fuel = f + 1 := ⟨fuel - 1,by omega⟩
    have room : (i + 1) * entrySize m mmap ≤ k * entrySize m mmap := Nat.mul_le_mul_right _ (by omega)
    rw [Nat.succ_mul] at room
    rw [mapEntries,size,if_pos (by omega)]
    have member : mmap + 16 + i * entrySize m mmap ∈ entriesOf m mmap :=
      List.mem_map.mpr ⟨i,List.mem_range.mpr (by omega),rfl⟩
    have entry := @mapEntry_identity pool may m mapped s layout identity (mmap + 16 + i * entrySize m mmap) (by omega)
      (all.low _ member)
    refine entry.bind (fun t after => ?_)
    have stride : entrySize t.memory mmap = entrySize m mmap := after.load (by omega)
    rw [stride,Nat.add_assoc (mmap + 16),← Nat.succ_mul]
    refine (@ih _ t fuel (i + 1) (by omega) (by omega) after (after.load (by omega))).imp (fun u _ final => ?_)
    refine final.congr (fun n => ?_)
    rw [entriesFrom,entriesFrom,List.range'_succ,List.map_cons,List.exists_mem_cons_iff,or_assoc]

/-- The slots of the usable entries of some tags. -/
def ramSlot (m : Memory) (tags : List Nat) (n : Nat) : Prop := ∃ ptr ∈ entries m tags, entrySlot m ptr n

theorem entries_cons (m : Memory) (tag : Nat) (tags : List Nat) : entries m (tag :: tags) =
    if tagType m tag = MB2_TAG_MMAP then entriesOf m tag ++ entries m tags else entries m tags := by
  by_cases type : tagType m tag = MB2_TAG_MMAP
  · simp [entries,type]
  · simp [entries,type]

theorem mapTag_identity (layout : Layout pool pool) (identity : Identity may pool m mapped s) {tag : Nat}
    (all : tagType m tag = MB2_TAG_MMAP → Entries may pool m tag) (wide : 8 ≤ tagSize m tag)
    (apart : tag + tagSize m tag ≤ pool ∨ pool + sizeof_page_table_pool ≤ tag) :
    (mapTag pool pool tag s).Ends (exhausted may) (Identity may pool m (fun n => mapped n ∨ ramSlot m [tag] n)) := by
  have type : tagType s.memory tag = tagType m tag := identity.load (by omega)
  unfold ramSlot
  rw [mapTag,type,entries_cons]
  by_cases isMap : tagType m tag = MB2_TAG_MMAP
  · rw [if_pos isMap,if_pos isMap]
    have few : entryCount m tag < loopBound :=
      Nat.lt_of_le_of_lt (Nat.le_trans (Nat.div_le_self _ _) (Nat.sub_le _ _))
        (Nat.lt_trans (load_lt m (tag + 4) 4) (by decide))
    have first : tag + 16 = tag + 16 + 0 * entrySize m tag := by rw [Nat.zero_mul,Nat.add_zero]
    rw [first]
    refine (mapEntries_identity layout (all isMap) (Nat.zero_add _) few identity).imp
      (fun t _ after => after.congr (fun n => ?_))
    rw [entriesFrom,← List.range_eq_range']
    simp [entriesOf,entries]
  · rw [if_neg isMap,if_neg isMap]
    exact .ok (identity.congr (fun n => by simp [entries]))

/-- The loop over the tags. -/
theorem mapTags_identity (layout : Layout pool pool) {stop tag fuel : Nat} {tags : List Nat}
    (list : TagList m stop tag tags) (short : stop < tag + 2 ^ 32)
    (apart : stop ≤ pool ∨ pool + sizeof_page_table_pool ≤ tag)
    (low : ∀ ptr ∈ entries m tags, entryType m ptr = 1 → Below may (roundUp (entryBase m ptr + entryLength m ptr)))
    (enough : stop < tag + fuel) (identity : Identity may pool m mapped s) :
    (mapTags pool pool fuel tag s).Ends (exhausted may)
      (Identity may pool m (fun n => mapped n ∨ ramSlot m tags n)) := by
  induction list generalizing fuel s mapped with
  | @ends tag room type =>
    obtain ⟨fuel,rfl⟩ : ∃ f, fuel = f + 1 := ⟨fuel - 1,by omega⟩
    have same : tagType s.memory tag = tagType m tag := identity.load (by omega)
    rw [mapTags,same,if_neg (not_not.mpr type)]
    exact .ok (identity.congr (fun n => by simp [ramSlot,entries]))
  | @cons tag rest type wide room isMap list ih =>
    obtain ⟨fuel,rfl⟩ : ∃ f, fuel = f + 1 := ⟨fuel - 1,by omega⟩
    have same : tagType s.memory tag = tagType m tag := identity.load (by omega)
    rw [mapTags,same,if_pos type]
    have here (isMmap : tagType m tag = MB2_TAG_MMAP) : Entries may pool m tag := by
      refine ⟨isMap isMmap,by omega,fun ptr member => low ptr ?_⟩
      rw [entries_cons,if_pos isMmap]
      exact List.mem_append_left _ member
    have later (ptr : Nat) (member : ptr ∈ entries m rest) : ptr ∈ entries m (tag :: rest) := by
      rw [entries_cons]
      split
      · exact List.mem_append_right _ member
      · exact member
    refine (mapTag_identity layout identity here wide (by omega)).bind (fun t after => ?_)
    have size : tagSize t.memory tag = tagSize m tag := after.load (by omega)
    have fits : (tagSize m tag + 7) % 2 ^ 32 / 8 * 8 = (tagSize m tag + 7) / 8 * 8 := by omega
    rw [size,fits]
    refine (ih (by omega) (by omega) (fun ptr member => low ptr (later ptr member)) (by omega) after).imp
      (fun u _ final => ?_)
    refine final.congr (fun n => ?_)
    unfold ramSlot
    rw [entries_cons,entries_cons m tag rest,or_assoc]
    split <;> simp [entries,or_and_right,exists_or]

end
/-! ### `paging_init` -/

/-- The slots of the low memory, the kernel, and the usable RAM. -/
def bootSlot (img : Image) (m : Memory) (tags : List Nat) (n : Nat) : Prop :=
  (n < 1 ∨ img.kernel_start / 2 ^ 21 ≤ n ∧ n < img.kernel_start / 2 ^ 21 + mapSize img / 2 ^ 21) ∨ ramSlot m tags n

theorem entry_usable {m : Memory} {tags : List Nat} {ptr : Nat} (member : ptr ∈ entries m tags)
    (type : entryType m ptr = 1) :
    (entryBase m ptr,entryLength m ptr) ∈ usable m tags :=
  List.mem_map.mpr ⟨ptr,List.mem_filter.mpr ⟨member,decide_eq_true type⟩,rfl⟩

theorem ramSlot_iff (m : Memory) (tags : List Nat) (a : Nat) : ramSlot m tags (a / 2 ^ 21) ↔
    ∃ r ∈ usable m tags, roundDown r.1 ≤ a ∧ a < roundUp (r.1 + r.2) := by
  unfold ramSlot entrySlot usable roundDown roundUp
  simp only [List.mem_map,List.mem_filter,decide_eq_true_eq]
  constructor
  · rintro ⟨ptr,member,type,above,below⟩
    exact ⟨_,⟨ptr,⟨member,type⟩,rfl⟩,by omega,by omega⟩
  · rintro ⟨_,⟨ptr,⟨member,type⟩,rfl⟩,above,below⟩
    exact ⟨ptr,member,type,by omega,by omega⟩

theorem bootSlot_iff (img : Image) (m : Memory) (tags : List Nat) (a : Nat) :
    bootSlot img m tags (a / 2 ^ 21) ↔ Wanted img (usable m tags) a := by
  rw [bootSlot,Wanted,← ramSlot_iff,or_assoc]
  have whole : mapSize img % 2 ^ 21 = 0 := by
    unfold mapSize roundUp
    omega
  refine or_congr (by omega) (or_congr_left ?_)
  unfold roundDown
  omega

/-- The `map_size` that the code computes. -/
theorem mapSize_code {img : Image} {ram : List (Nat × Nat)} (low : Low img ram) :
    ((((img.kernel_end + 2 ^ 64 - img.kernel_start) % 2 ^ 64 + 0x1FFFFF) % 2 ^ 64 / 2 ^ 21 * 2 ^ 21 +
      sizeof_page_table_pool) % 2 ^ 64 + 0x1FFFFF) % 2 ^ 64 / 2 ^ 21 * 2 ^ 21 = mapSize img / 2 ^ 21 * 0x200000 := by
  have pool := pool_size
  have image := low.image
  have kernel := low.kernel
  rw [mapSize,pool]
  unfold roundUp at *
  omega

section
variable {img : Image} {k k' : Kernel} {info : Nat} {tags : List Nat}

theorem paging_init_identity (may : Prop) (layout : Layout img.page_table_pool img.page_table_pool) (fresh : Fresh k)
    (well : WellFormed img k.state.memory info tags) (low : Low img (usable k.state.memory tags))
    (small : may ∨ FirstGiB img (usable k.state.memory tags)) :
    (paging_init img k info).Ends (exhausted may) (fun k' => k'.cr3 = img.page_table_pool ∧
      Identity may img.page_table_pool k.state.memory (bootSlot img k.state.memory tags) k'.state) := by
  obtain ⟨s₁,handed,tables,empty,offset,kept⟩ := @first_table img.page_table_pool k.state
    fresh.pool_offset fresh.handed_out
  have first : Identity may img.page_table_pool k.state.memory (fun _ => False) s₁ :=
    ⟨tables,kept,fun _ _ impossible => impossible.elim,fun a _ _ => empty a,.inr (.inl (by rw [offset]))⟩
  rw [paging_init,if_neg (by simp [fresh.g_pml4]),handed,Outcome.bind_ok]
  simp only [mapSize_code low]
  have lowEnds := @region_identity img.page_table_pool may k.state.memory (fun _ => False) s₁ layout first 0 1
    (by decide) (.inr (by decide))
  rw [Nat.one_mul] at lowEnds
  refine lowEnds.bind (fun s₂ second => ?_)
  have kernelLow := kernel_low low
  have kernelFirst := small.imp_right FirstGiB.kernel
  have start : img.kernel_start + mapSize img / 2 ^ 21 * 2 ^ 21 ≤ 2 ^ 48 ∧
      (may ∨ img.kernel_start + mapSize img / 2 ^ 21 * 2 ^ 21 ≤ 2 ^ 30) := by
    unfold roundDown at kernelLow
    exact ⟨by omega,kernelFirst.imp_right (by omega)⟩
  refine (region_identity layout second start.1 start.2).bind (fun s₃ third => ?_)
  have total : totalSize k.state.memory info < 2 ^ 32 := load_lt _ _ _
  have apart := well.apart
  have enough : info + totalSize k.state.memory info < info + 8 + loopBound := by
    rw [loopBound]
    omega
  have ramLow (ptr : Nat) (member : ptr ∈ entries k.state.memory tags) (type : entryType k.state.memory ptr = 1) :
      Below may (roundUp (entryBase k.state.memory ptr + entryLength k.state.memory ptr)) := by
    have region := entry_usable member type
    have below := low.ram (entryBase k.state.memory ptr,entryLength k.state.memory ptr) region
    exact ⟨below,small.imp_right (fun first => first.ram
      (entryBase k.state.memory ptr,entryLength k.state.memory ptr) region)⟩
  refine (mapTags_identity layout well.tags (by omega) (by omega) ramLow enough third).bind (fun s₄ last => ?_)
  refine .ok ⟨rfl,last.congr (fun n => ?_)⟩
  rw [bootSlot,Nat.zero_div,Nat.zero_add,false_or]
  simp only [Nat.zero_le,true_and]

/-- An address that the processor accepts. -/
def Canonical (a : Nat) : Prop := a < 2 ^ 47 ∨ 2 ^ 64 - 2 ^ 47 ≤ a ∧ a < 2 ^ 64

/-- The walk of an address yields that address, present and writable. -/
def Itself (k : Kernel) (a : Nat) : Prop :=
  ∃ t, walk k.state.memory k.cr3 a = some t ∧ t.frame + a % t.size = a ∧ t.flags = PAGE_WRITABLE ||| PAGE_PRESENT

/-- The walk looks at 48 bits. -/
theorem leaf_low (m : Memory) (pml4 a : Nat) : leaf m pml4 (a % 2 ^ 48) = leaf m pml4 a := by
  have level (l : Nat) (small : l ≤ 3) : index l (a % 2 ^ 48) = index l a := by
    rw [index,index,Fin.mk.injEq]
    have : l = 0 ∨ l = 1 ∨ l = 2 ∨ l = 3 := by omega
    rcases this with rfl | rfl | rfl | rfl <;> omega
  rw [leaf,leaf,indices,indices,level 3 (by decide),level 2 (by decide),level 1 (by decide),level 0 (by decide)]

theorem identityLeaf_itself {a : Nat} (small : a < 2 ^ 47)
    (mapped : leaf k.state.memory k.cr3 a = some (identityLeaf a)) :
    Itself k a := by
  have valid : (Call.map_page_2mb a a PAGE_WRITABLE).Valid :=
    ⟨Nat.lt_trans small (by decide),(by decide : PAGE_WRITABLE &&& attributes = PAGE_WRITABLE)⟩
  refine ⟨(Call.map_page_2mb a a PAGE_WRITABLE).promise,?_,?_,rfl⟩
  · rw [walk_eq_leaf,mapped,Option.map_some]
    exact congrArg some (Call.translation_stored valid)
  · show a / 2 ^ 21 * 2 ^ 21 + a % 2 ^ 21 = a
    omega

/-- Nothing is wanted above the first GiB if everything is in it. -/
theorem FirstGiB.below {ram : List (Nat × Nat)} (first : FirstGiB img ram) {a : Nat} (wanted : Wanted img ram a) :
    a < 2 ^ 30 := by
  rcases wanted with low | ⟨_,kernel⟩ | ⟨r,member,_,last⟩
  · omega
  · have := first.kernel
    unfold roundDown at kernel
    omega
  · have := first.ram r member
    omega

/-- No page is mapped above the first GiB if everything is in it. -/
theorem Identity.above {may : Prop} {pool : Nat} {m m' : Memory} {s : State}
    (identity : Identity may pool m (bootSlot img m' tags) s) (first : FirstGiB img (usable m' tags)) {a : Nat}
    (high : 2 ^ 30 ≤ a) (small : a < 2 ^ 48) : leaf s.memory pool a = none :=
  identity.other a small (fun covered => Nat.not_lt.mpr high (first.below ((bootSlot_iff img m' tags a).mp covered)))

/-- The leaves after boot are those of the wanted bytes. -/
theorem boot_leaf (layout : Layout img.page_table_pool img.page_table_pool) (fresh : Fresh k)
    (well : WellFormed img k.state.memory info tags) (low : Low img (usable k.state.memory tags))
    (run : paging_init img k info = .ok k') {a : Nat} (canonical : Canonical a) :
    (Wanted img (usable k.state.memory tags) a → a < 2 ^ 47 ∧ leaf k'.state.memory k'.cr3 a = some (identityLeaf a)) ∧
      (¬Wanted img (usable k.state.memory tags) a → leaf k'.state.memory k'.cr3 a = none) := by
  obtain ⟨cr3,identity⟩ := (paging_init_identity True layout fresh well low (.inl trivial)).of_ok run
  have kernelLow := kernel_low low
  have bounded (b : Nat) (wanted : Wanted img (usable k.state.memory tags) b) : b < 2 ^ 47 := by
    rcases wanted with first | ⟨_,kernel⟩ | ⟨r,member,_,ram⟩
    · omega
    · omega
    · have := low.ram r member
      omega
  rw [cr3]
  constructor
  · intro wanted
    have small := bounded a wanted
    exact ⟨small,identity.inside a (by omega) ((bootSlot_iff img _ tags a).mpr wanted)⟩
  · intro unwanted
    rw [← leaf_low]
    refine identity.other _ (by omega) (fun covered => ?_)
    have wanted := (bootSlot_iff img _ tags _).mp covered
    have small := bounded _ wanted
    rcases canonical with below | above
    · rw [Nat.mod_eq_of_lt (by omega)] at wanted
      exact unwanted wanted
    · omega

/-- `paging_init` ends, with the wanted bytes mapped to themselves and nothing else
    mapped unless the pool is exhausted. The kernel and the usable RAM are among
    them, and the order of the entries of the memory map does not matter. -/
theorem paging_init_exact (layout : Layout img.page_table_pool img.page_table_pool) (fresh : Fresh k)
    (well : WellFormed img k.state.memory info tags) (low : Low img (usable k.state.memory tags)) :
    paging_init img k info = .kpanic "Page table pool exhausted" ∨ ∃ k', paging_init img k info = .ok k' ∧
      (∀ a, Canonical a → (Wanted img (usable k.state.memory tags) a → Itself k' a) ∧
        (¬Wanted img (usable k.state.memory tags) a → walk k'.state.memory k'.cr3 a = none)) ∧
      (∀ a, img.kernel_start ≤ a → a < img.kernel_end → Itself k' a) ∧
      (∀ r ∈ usable k.state.memory tags, ∀ a, r.1 ≤ a → a < r.1 + r.2 → Itself k' a) ∧
      ∀ (k₂ k₂' : Kernel) (info₂ : Nat) (tags₂ : List Nat), Fresh k₂ → WellFormed img k₂.state.memory info₂ tags₂ →
        (usable k.state.memory tags).Perm (usable k₂.state.memory tags₂) → paging_init img k₂ info₂ = .ok k₂' →
        ∀ a, Canonical a → walk k₂'.state.memory k₂'.cr3 a = walk k'.state.memory k'.cr3 a := by
  have ends := paging_init_identity True layout fresh well low (.inl trivial)
  generalize outcome : paging_init img k info = result at ends
  cases ends with
  | kpanic message => exact .inl (by rw [message.2])
  | @ok k' _ =>
    refine .inr ⟨k',rfl,?_⟩
    have leaves {a : Nat} (canonical : Canonical a) := boot_leaf layout fresh well low outcome canonical
    have itself {a : Nat} (canonical : Canonical a)
        (wanted : Wanted img (usable k.state.memory tags) a) : Itself k' a := by
      obtain ⟨small,mapped⟩ := (leaves canonical).1 wanted
      exact identityLeaf_itself small mapped
    refine ⟨fun a canonical => ⟨itself canonical,fun unwanted => ?_⟩,fun a first last => ?_,fun r
      member a first last => ?_,?_⟩
    · rw [walk_eq_leaf,(leaves canonical).2 unwanted,Option.map_none]
    · have covered := kernel_mapped img first last
      have := kernel_low low
      exact itself (.inl (by omega)) (.inr (.inl covered))
    · have := low.ram r member
      have covered : roundDown r.1 ≤ a ∧ a < roundUp (r.1 + r.2) := by
        unfold roundDown roundUp
        omega
      exact itself (.inl (by omega)) (.inr (.inr ⟨r,member,covered⟩))
    · intro k₂ k₂' info₂ tags₂ fresh₂ well₂ permuted run₂ a canonical
      have low₂ : Low img (usable k₂.state.memory tags₂) :=
        ⟨low.image,low.kernel,fun r member => low.ram r (permuted.mem_iff.mpr member)⟩
      have same : Wanted img (usable k₂.state.memory tags₂) a ↔ Wanted img (usable k.state.memory tags) a := by
        unfold Wanted
        simp only [permuted.mem_iff]
      have leaves₂ := boot_leaf layout fresh₂ well₂ low₂ run₂ canonical
      rw [walk_eq_leaf,walk_eq_leaf]
      by_cases wanted : Wanted img (usable k.state.memory tags) a
      · rw [((leaves canonical).1 wanted).2,(leaves₂.1 (same.mpr wanted)).2]
      · rw [(leaves canonical).2 wanted,leaves₂.2 (fun w => wanted (same.mp w))]

/-- A machine with nothing above the first GiB always boots. -/
theorem paging_init_first (layout : Layout img.page_table_pool img.page_table_pool) (fresh : Fresh k)
    (well : WellFormed img k.state.memory info tags) (low : Low img (usable k.state.memory tags))
    (small : FirstGiB img (usable k.state.memory tags)) : ∃ k', paging_init img k info = .ok k' ∧
      k'.cr3 = img.page_table_pool ∧
      Identity False img.page_table_pool k.state.memory (bootSlot img k.state.memory tags) k'.state := by
  have ends := paging_init_identity False layout fresh well low (.inr small)
  generalize paging_init img k info = result at ends
  cases ends with
  | kpanic message => exact message.1.elim
  | ok described => exact ⟨_,rfl,described⟩

end

/-! ### A machine -/

/-- A kernel of 2 MiB from 1 MiB on. -/
def smallImage : Image := ⟨0x100000,0x300000,0x200000⟩

/-- Boot information at 0x9000 that has RAM from 0x100000 to 0x3ffe0000. -/
def bootBytes : List UInt8 :=
  [56,0,0,0, 0,0,0,0, 6,0,0,0, 40,0,0,0, 24,0,0,0, 0,0,0,0,
    0,0,0x10,0,0,0,0,0, 0,0,0xEE,0x3F,0,0,0,0, 1,0,0,0,0,0,0,0, 0,0,0,0,8,0,0,0]

def bootMemory : Memory := fun a => if a < 0x9000 then 0 else bootBytes.getD (a - 0x9000) 0

def smallMachine : Kernel := ⟨0,0,⟨bootMemory,0,[]⟩⟩

theorem smallLayout : Layout smallImage.page_table_pool smallImage.page_table_pool := ⟨by decide,by decide,by decide⟩

theorem smallFresh : Fresh smallMachine := ⟨rfl,rfl,rfl⟩

theorem small_usable : usable bootMemory [0x9008] = [(0x100000,0x3fee0000)] := by decide

theorem small_wellFormed : WellFormed smallImage bootMemory 0x9000 [0x9008] := by
  refine ⟨.cons (by decide) (by decide) (by decide) (fun _ => ⟨by decide,by decide,1,by decide⟩) ?_,.inl (by decide)⟩
  exact .ends (by decide) (by decide)

theorem small_low : Low smallImage (usable bootMemory [0x9008]) := by
  rw [small_usable]
  exact ⟨by decide,by decide,by simp [roundUp]⟩

theorem small_first : FirstGiB smallImage (usable bootMemory [0x9008]) := by
  rw [small_usable]
  exact ⟨by decide,by simp [roundUp]⟩

theorem small_boots : ∃ k', paging_init smallImage smallMachine 0x9000 = .ok k' ∧ k'.cr3 = smallImage.page_table_pool ∧
    Identity False smallImage.page_table_pool bootMemory (bootSlot smallImage bootMemory [0x9008]) k'.state :=
  paging_init_first smallLayout smallFresh small_wellFormed small_low small_first

theorem paging_init_exact_small : ∃ k', paging_init smallImage smallMachine 0x9000 = .ok k' ∧ Itself k' 0x3fffffff ∧
    walk k'.state.memory k'.cr3 0x40000000 = none := by
  obtain ⟨k₁,boots,_⟩ := small_boots
  have ram : usable smallMachine.state.memory [0x9008] = [(0x100000,0x3fee0000)] := small_usable
  rcases paging_init_exact smallLayout smallFresh small_wellFormed small_low with panics | ⟨k',run,exactly,_⟩
  · rw [boots] at panics
    cases panics
  · rw [ram] at exactly
    refine ⟨k',run,(exactly _ (.inl (by decide))).1 ?_,(exactly _ (.inl (by decide))).2 ?_⟩
    · exact .inr (.inr ⟨_,List.mem_singleton.mpr rfl,by decide,by decide⟩)
    · rw [← ram]
      exact fun wanted => absurd (small_first.below wanted) (by decide)

end NekoOs.BootMap
