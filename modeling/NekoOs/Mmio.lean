import NekoOs.BootMap

/-!
The registers of devices, mapped after boot. A 4 KiB page in a slot that
`paging_init` has filled with a 2 MiB page is not mapped: the code takes the
frame of the large page for a page table and writes an entry into it.
-/
namespace NekoOs.Mmio
open ByteMemory PathTree Paging PageTables Regions Transitions
open BootMap (smallImage smallMachine smallLayout smallFresh small_boots bootMemory bootSlot)

/-- A device with the values that its driver reads. -/
inductive Device
  | framebuffer (addr pitch height : Nat)
  | lapic (base : Nat)
  | hpet (base : Nat)
deriving DecidableEq, Repr

/-- The `phys` and `size` that `fb_init`, `lapic_init` and `hpet_init` pass on. -/
def Device.region : Device → Nat × Nat
  | framebuffer addr pitch height =>
    let size := pitch * height % 2 ^ 32
    let base := addr / 2 ^ 12 * 2 ^ 12
    let stop := (addr + size + 0xFFF) % 2 ^ 64 / 2 ^ 12 * 2 ^ 12
    (base,(stop + 2 ^ 64 - base) % 2 ^ 64)
  | lapic base => (base,0x1000)
  | hpet base => (base,0x1000)

def Device.map (img : Image) (k : Kernel) (d : Device) : Outcome Kernel :=
  paging_map_mmio_region img k d.region.1 d.region.2

/-- A byte of the region. -/
def Device.Has (d : Device) (a : Nat) : Prop := d.region.1 ≤ a ∧ a < d.region.1 + d.region.2

/-- The region ends below 2^47. -/
def Device.Low (d : Device) : Prop := d.region.1 + d.region.2 + 0xFFF < 2 ^ 47

/-- No byte of the region is in a slot with a huge page. -/
def Clear (k : Kernel) (d : Device) : Prop := ∀ a, d.Has a → ¬HugeSlot k.state.memory k.cr3 a

/-- The walk of every byte of the region yields that byte, writable and uncached. -/
def Effective (k : Kernel) (d : Device) : Prop :=
  ∀ a, d.Has a → ∃ t, walk k.state.memory k.cr3 a = some t ∧ t.frame + a % t.size = a ∧
    t.flags &&& PAGE_WRITABLE ≠ 0 ∧ t.flags &&& PAGE_CACHE_DISABLE ≠ 0

/-- Only page tables have been modified. -/
def Harmless (img : Image) (k k' : Kernel) : Prop :=
  ∀ b, b < img.page_table_pool ∨ img.page_table_pool + sizeof_page_table_pool ≤ b → k'.state.memory b = k.state.memory b

/-- Where a slot of the region holds a huge page, no page table lies at the start of that page. -/
def Apart (img : Image) (k : Kernel) (d : Device) : Prop :=
  ∀ a e, d.Has a → leaf k.state.memory k.cr3 a = some (1,e) →
    e / 2 ^ 12 * 2 ^ 12 + 4096 ≤ img.page_table_pool ∨ img.page_table_pool + sizeof_page_table_pool ≤ e / 2 ^ 12 * 2 ^ 12

/-! ### The pages of a region -/

def pageCall (n : Nat) : Call := .map_page_4kb (n * 2 ^ 12) (n * 2 ^ 12) (PAGE_WRITABLE ||| PAGE_CACHE_DISABLE)

/-- The numbers of the pages of the region. -/
def Device.pages (d : Device) : List Nat :=
  List.range' (d.region.1 / 2 ^ 12) ((d.region.1 + d.region.2 + 0xFFF) / 2 ^ 12 - d.region.1 / 2 ^ 12)

/-- An empty region starts with a page. -/
theorem region_aligned (d : Device) (empty : d.region.2 = 0) : d.region.1 % 2 ^ 12 = 0 := by
  cases d with
  | framebuffer addr pitch height =>
    show addr / 2 ^ 12 * 2 ^ 12 % 2 ^ 12 = 0
    omega
  | lapic base => cases empty
  | hpet base => cases empty

theorem mem_pages {d : Device} {n : Nat} : n ∈ d.pages ↔ ∃ a, d.Has a ∧ a / 2 ^ 12 = n := by
  have aligned := region_aligned d
  rw [Device.pages,List.mem_range'_1]
  unfold Device.Has
  generalize d.region.1 = phys at *
  generalize d.region.2 = size at *
  constructor
  · intro inside
    by_cases first : n = phys / 2 ^ 12
    · exact ⟨phys,by omega,first.symm⟩
    · exact ⟨n * 2 ^ 12,by omega,by omega⟩
  · rintro ⟨a,inside,rfl⟩
    omega

theorem map_eq (img : Image) (k : Kernel) {d : Device} (low : d.Low) : d.map img k =
    (execAll img.page_table_pool k.g_pml4 k.state (d.pages.map pageCall) >>= fun s => .ok { k with state := s }) := by
  unfold Device.Low at low
  rw [Device.map,paging_map_mmio_region,Device.pages]
  generalize d.region.1 = phys at *
  generalize d.region.2 = size at *
  have count : ((phys + size + 0xFFF) % 2 ^ 64 / 2 ^ 12 * 2 ^ 12 + 2 ^ 64 - phys / 2 ^ 12 * 2 ^ 12) % 2 ^ 64 =
      ((phys + size + 0xFFF) / 2 ^ 12 - phys / 2 ^ 12) * 0x1000 := by omega
  have same : regionCalls .map_page_4kb 0x1000 (phys / 2 ^ 12 * 2 ^ 12) (phys / 2 ^ 12 * 2 ^ 12)
      (PAGE_WRITABLE ||| PAGE_CACHE_DISABLE) ((phys + size + 0xFFF) / 2 ^ 12 - phys / 2 ^ 12) =
      (List.range' (phys / 2 ^ 12) ((phys + size + 0xFFF) / 2 ^ 12 - phys / 2 ^ 12)).map pageCall := by
    rw [regionCalls,@List.range'_eq_map_range (phys / 2 ^ 12),List.map_map,← List.range_eq_range']
    apply List.map_congr_left
    intro i inside
    have small : (phys / 2 ^ 12 * 2 ^ 12 + i * 0x1000) % 2 ^ 64 = (phys / 2 ^ 12 + i) * 2 ^ 12 := by
      rw [List.mem_range] at inside
      omega
    rw [small,Function.comp_apply,pageCall]
  simp only [count]
  rw [map_region_4kb_eq _ _ _ _ (by omega),same]

theorem pageCall_valid {n : Nat} (small : n * 2 ^ 12 < 2 ^ 48) : (pageCall n).Valid :=
  ⟨Nat.lt_trans small (by decide),(by decide : (PAGE_WRITABLE ||| PAGE_CACHE_DISABLE) &&& attributes =
    PAGE_WRITABLE ||| PAGE_CACHE_DISABLE)⟩

theorem pageCall_covers {n a : Nat} (small : n * 2 ^ 12 < 2 ^ 48) (low : a < 2 ^ 48) :
    (pageCall n).Covers a ↔ a / 2 ^ 12 = n := by
  show a % 2 ^ 48 / 2 ^ 12 = n * 2 ^ 12 % 2 ^ 48 / 2 ^ 12 ↔ _
  omega

/-- The leaf of a page that has been mapped for a device. -/
def pageLeaf (a : Nat) : Nat × Nat := (0,(pageCall (a / 2 ^ 12)).stored)

theorem pageLeaf_effective {k : Kernel} {a : Nat} (low : a < 2 ^ 47)
    (mapped : leaf k.state.memory k.cr3 a = some (pageLeaf a)) : ∃ t, walk k.state.memory k.cr3 a = some t ∧
      t.frame + a % t.size = a ∧ t.flags &&& PAGE_WRITABLE ≠ 0 ∧ t.flags &&& PAGE_CACHE_DISABLE ≠ 0 := by
  have valid : (pageCall (a / 2 ^ 12)).Valid := pageCall_valid (by omega)
  refine ⟨(pageCall (a / 2 ^ 12)).promise,?_,?_,?_,?_⟩
  · rw [walk_eq_leaf,mapped,Option.map_some]
    exact congrArg some (Call.translation_stored valid)
  · show a / 2 ^ 12 * 2 ^ 12 / 2 ^ 12 * 2 ^ 12 + a % 2 ^ 12 = a
    omega
  · exact (by decide : (PAGE_WRITABLE ||| PAGE_CACHE_DISABLE ||| PAGE_PRESENT) &&& PAGE_WRITABLE ≠ 0)
  · exact (by decide : (PAGE_WRITABLE ||| PAGE_CACHE_DISABLE ||| PAGE_PRESENT) &&& PAGE_CACHE_DISABLE ≠ 0)

section
variable {pool pml4 : Nat} {s s' : State}

/-- A run over pages gives them their leaves and changes no other leaf. -/
theorem run_pages (layout : Layout pool pml4) (tables : Tables pool pml4 s) {ns : List Nat}
    (small : ∀ n ∈ ns, n * 2 ^ 12 < 2 ^ 48) (run : (mapping pool pml4).Run s (ns.map pageCall) s') {a : Nat}
    (low : a < 2 ^ 48) :
    leaf s'.memory pml4 a = if a / 2 ^ 12 ∈ ns then some (pageLeaf a) else leaf s.memory pml4 a := by
  rw [(run_mapped layout tables run).2.2]
  cases found : lastCall (ns.map pageCall) a with
  | none =>
    have missed : a / 2 ^ 12 ∉ ns := by
      intro inside
      have never := List.find?_eq_none.mp found (pageCall (a / 2 ^ 12))
        (List.mem_reverse.mpr (List.mem_map_of_mem inside))
      exact never (decide_eq_true ((pageCall_covers (small _ inside) low).mpr rfl))
    rw [if_neg missed,Option.map_none,Option.none_or]
  | some c =>
    obtain ⟨member,covers⟩ := lastCall_mem found
    obtain ⟨n,inside,rfl⟩ := List.mem_map.mp member
    obtain rfl := (pageCall_covers (small n inside) low).mp covers
    rw [if_pos inside]
    rfl

/-! ### A call on a huge slot -/

/-- A lookup from a table ends there or goes down. -/
theorem lookup_down {m : Memory} {level table : Nat} {i : Index} {word : List Index} {l : Nat × Nat}
    (found : lookup (slots m) (level + 1,table) (i :: word) = some l) : present (entry m table i) = true ∧
      (huge (entry m table i) = true ∧ l = (level + 1,entry m table i) ∨
        huge (entry m table i) = false ∧ lookup (slots m) (level,address (entry m table i)) word = some l) := by
  rw [lookup_table] at found
  cases isPresent : present (entry m table i) with
  | false => simp [isPresent] at found
  | true =>
    cases isHuge : huge (entry m table i) with
    | true =>
      simp only [isPresent,isHuge,Bool.not_true,Bool.false_eq_true,if_false,if_true] at found
      split at found
      · cases found
      · exact ⟨rfl,.inl ⟨rfl,(Option.some.inj found).symm⟩⟩
    | false => exact ⟨rfl,.inr ⟨rfl,by simpa only [isPresent,isHuge,Bool.not_true,Bool.false_eq_true,if_false] using found⟩⟩

/-- The tables on the way to a leaf are found down to the page directory. -/
theorem directory_found (tables : Tables pool pml4 s) {virt : Nat} {l : Nat × Nat}
    (found : leaf s.memory pml4 virt = some l) : ∃ pdpt pd, nextTable pool s pml4 (index 3 virt) = .ok (s,pdpt) ∧
      nextTable pool s pdpt (index 2 virt) = .ok (s,pd) ∧ reach s pml4 [index 3 virt,index 2 virt] = some (1,pd) ∧
      lookup (slots s.memory) (1,pd) [index 1 virt,index 0 virt] = some l := by
  have root : reach s pml4 [] = some (3,pml4) := rfl
  obtain ⟨present₃,_⟩ := lookup_down found
  have table₃ := tables.upper root (index 3 virt) present₃
  have child₃ : slots s.memory (3,pml4) (index 3 virt) = .child (2,address (entry s.memory pml4 (index 3 virt))) := by
    simp only [slots,present₃,table₃]
    rfl
  have here₃ : reach s pml4 ([] ++ [index 3 virt]) = some (2,_) := follow_child root child₃
  have found₃ := (lookup_append [index 2 virt,index 1 virt,index 0 virt] here₃).symm.trans found
  obtain ⟨present₂,_⟩ := lookup_down found₃
  have table₂ := tables.upper here₃ (index 2 virt) present₂
  have child₂ : slots s.memory (2,address (entry s.memory pml4 (index 3 virt))) (index 2 virt) =
      .child (1,address (entry s.memory (address (entry s.memory pml4 (index 3 virt))) (index 2 virt))) := by
    simp only [slots,present₂,table₂]
    rfl
  have here₂ : reach s pml4 ([] ++ [index 3 virt] ++ [index 2 virt]) = some (1,_) := follow_child here₃ child₂
  exact ⟨_,_,(nextTable_child tables root child₃).2,(nextTable_child tables here₃ child₂).2,here₂,
    (lookup_append [index 1 virt,index 0 virt] here₂).symm.trans found⟩

/-- A call that finds the tables down to the page directory, and an entry there. -/
theorem map_page_4kb_found {virt pdpt pd : Nat} (first : nextTable pool s pml4 (index 3 virt) = .ok (s,pdpt))
    (second : nextTable pool s pdpt (index 2 virt) = .ok (s,pd))
    (isPresent : present (entry s.memory pd (index 1 virt)) = true) (phys flags : Nat) :
    map_page_4kb pool s pml4 virt phys flags = .ok (s.setEntry (entry s.memory pd (index 1 virt) / 2 ^ 12 * 2 ^ 12)
      (index 0 virt) (Call.map_page_4kb virt phys flags).stored) := by
  have third := @nextTable_present pool s pd (index 1 virt) isPresent
  show (nextTable pool s pml4 (index 3 virt) >>= _) = _
  rw [first,Outcome.bind_ok]
  show (nextTable pool s pdpt (index 2 virt) >>= _) = _
  rw [second,Outcome.bind_ok]
  show (nextTable pool s pd (index 1 virt) >>= _) = _
  rw [third,Outcome.bind_ok]
  rfl

/-- The call writes into the frame of the huge page. -/
theorem map_page_4kb_huge (tables : Tables pool pml4 s) {virt e : Nat}
    (isHuge : leaf s.memory pml4 virt = some (1,e)) (phys flags : Nat) :
    map_page_4kb pool s pml4 virt phys flags =
      .ok (s.setEntry (e / 2 ^ 12 * 2 ^ 12) (index 0 virt) (Call.map_page_4kb virt phys flags).stored) := by
  obtain ⟨pdpt,pd,first,second,_,ends⟩ := directory_found tables isHuge
  obtain ⟨isPresent,(⟨_,same⟩ | ⟨_,isSmall⟩)⟩ := lookup_down ends
  · rw [map_page_4kb_found first second isPresent,← (Prod.mk.inj same).2]
  · rw [lookup_page_table] at isSmall
    split at isSmall
    · cases isSmall
    · cases isSmall

/-- The call writes into the page table. -/
theorem map_page_4kb_small (tables : Tables pool pml4 s) {virt e : Nat}
    (isSmall : leaf s.memory pml4 virt = some (0,e)) : ∃ pt, entry s.memory pt (index 0 virt) = e ∧
      ∀ phys flags, map_page_4kb pool s pml4 virt phys flags =
        .ok (s.setEntry pt (index 0 virt) (Call.map_page_4kb virt phys flags).stored) := by
  obtain ⟨pdpt,pd,first,second,here,ends⟩ := directory_found tables isSmall
  obtain ⟨isPresent,(⟨_,same⟩ | ⟨isTable,page⟩)⟩ := lookup_down ends
  · cases same
  · have below := (tables.plain _ 0 pd (index 1 virt) here isPresent).2 isTable
    refine ⟨address (entry s.memory pd (index 1 virt)),?_,fun phys flags => ?_⟩
    · rw [lookup_page_table] at page
      split at page
      · cases page
      · exact (Prod.mk.inj (Option.some.inj page)).2
    · rw [map_page_4kb_found first second isPresent,address_eq below]

/-- A write that no table of the pool sees. -/
theorem setEntry_away (tables : Tables pool pool s) {table i value : Nat} (small : i < 512)
    (apart : table + 4096 ≤ pool ∨ pool + sizeof_page_table_pool ≤ table) :
    Tables pool pool (s.setEntry table i value) ∧ ∀ a, leaf (s.setEntry table i value).memory pool a =
      leaf s.memory pool a := by
  have kept (q : List Index) (n : Nat × Nat) (reached : reach s pool q = some n) (j : Index) :
      entry (s.setEntry table i value).memory n.2 j = entry s.memory n.2 j := by
    apply entry_congr j.isLt
    intro b low high
    apply setEntry_outside small
    have room := tables.room
    rcases tables.place reached with same | ⟨k,same,inside⟩
    · have pool := pool_size
      omega
    · omega
  have same (q : List Index) := same_reached (fun q n reached j => slots_congr (kept q n reached j)) q
  refine ⟨?_,fun a => (same (indices a)).2⟩
  constructor
  · exact tables.offset
  · exact tables.room
  · exact tables.root
  · exact tables.separate.same_reached (fun q n reached j => slots_congr (kept q n reached j))
  · exact tables.handed
  · exact fun q n reached => tables.from_pool q n ((same q).1.symm.trans reached)
  · intro q above t j reached isPresent
    have old := (same q).1.symm.trans reached
    rw [kept q _ old j] at isPresent ⊢
    exact tables.plain q above t j old isPresent

/-- The bytes of a page have one walk. -/
theorem leaf_page (m : Memory) {a b : Nat} (same : a / 2 ^ 12 = b / 2 ^ 12) : leaf m pml4 a = leaf m pml4 b := by
  have level (l : Nat) : index l a = index l b := by
    rw [index,index,Fin.mk.injEq,Nat.pow_add,← Nat.div_div_eq_div_mul,← Nat.div_div_eq_div_mul,same]
  rw [leaf,leaf,indices,indices,level,level,level,level]

/-- Pages that miss the page tables change no huge slot, mapped or not. -/
theorem pages_keep_huge (layout : Layout pool pool) (tables : Tables pool pool s) {ns : List Nat}
    (small : ∀ n ∈ ns, n * 2 ^ 12 < 2 ^ 48)
    (apart : ∀ n ∈ ns, ∀ e, leaf s.memory pool (n * 2 ^ 12) = some (1,e) →
      e / 2 ^ 12 * 2 ^ 12 + 4096 ≤ pool ∨ pool + sizeof_page_table_pool ≤ e / 2 ^ 12 * 2 ^ 12)
    (run : execAll pool pool s (ns.map pageCall) = .ok s') (a e : Nat) :
    leaf s'.memory pool a = some (1,e) ↔ leaf s.memory pool a = some (1,e) := by
  induction ns generalizing s with
  | nil =>
    obtain rfl := Outcome.ok_injective run
    exact Iff.rfl
  | cons n ns ih =>
    obtain ⟨t,first,later⟩ := Outcome.bind_eq_ok.mp run
    have step : Tables pool pool t ∧ ∀ a e, leaf t.memory pool a = some (1,e) ↔ leaf s.memory pool a = some (1,e) := by
      by_cases isHuge : HugeSlot s.memory pool (n * 2 ^ 12)
      · obtain ⟨f,found⟩ := hugeSlot_iff.mp isHuge
        obtain rfl := Outcome.ok_injective ((map_page_4kb_huge tables found _ _).symm.trans first)
        obtain ⟨tables',same⟩ := @setEntry_away pool s tables _ _
          (pageCall n).stored (index 0 (n * 2 ^ 12)).isLt (apart n List.mem_cons_self f found)
        exact ⟨tables',fun a e => by rw [← same a]; rfl⟩
      · have mapped := step_mapped layout tables
          ⟨(pageCall_valid (small n List.mem_cons_self)).fits,fun _ => isHuge,first⟩
        refine ⟨mapped.tables,fun a e => ?_⟩
        by_cases covers : (pageCall n).Covers a
        · have indicesSame : indices a = indices (n * 2 ^ 12) :=
            (((covers_iff (pageCall n) a).mp covers).eq_of_length rfl).symm
          rw [mapped.covered a covers]
          constructor
          · intro found
            cases found
          · intro found
            exact absurd (hugeSlot_iff.mpr ⟨e,by rw [leaf,← indicesSame]; exact found⟩) isHuge
        · rw [mapped.others a covers]
    rw [ih step.1 (fun n member => small n (List.mem_cons_of_mem _ member)) (fun n member e found =>
      apart n (List.mem_cons_of_mem _ member) e ((step.2 _ _).mp found)) later,step.2]

end
/-! ### Devices after boot -/

/-- Every byte of the region has its own leaf. -/
def Placed (k : Kernel) (d : Device) : Prop := ∀ a, d.Has a → leaf k.state.memory k.cr3 a = some (pageLeaf a)

/-- A state after boot, with the huge slots that boot left. -/
structure Ready (img : Image) (booted k : Kernel) : Prop where
  g_pml4 : k.g_pml4 = img.page_table_pool
  cr3 : k.cr3 = img.page_table_pool
  tables : Tables img.page_table_pool img.page_table_pool k.state
  huge : ∀ a e, leaf k.state.memory img.page_table_pool a = some (1,e) ↔
    leaf booted.state.memory img.page_table_pool a = some (1,e)

section
variable {img : Image} {booted k k' : Kernel} {d : Device}

theorem Placed.effective (low : d.Low) (placed : Placed k d) : Effective k d := by
  intro a inside
  have small : a < 2 ^ 47 := by
    unfold Device.Low at low
    have := inside.2
    omega
  exact pageLeaf_effective small (placed a inside)

theorem pages_small (low : d.Low) {n : Nat} (member : n ∈ d.pages) : n * 2 ^ 12 < 2 ^ 48 := by
  obtain ⟨a,inside,rfl⟩ := mem_pages.mp member
  unfold Device.Low at low
  have := inside.2
  omega

/-- A clear region is mapped, and regions that were mapped stay mapped. -/
theorem map_clear (layout : Layout img.page_table_pool img.page_table_pool) (ready : Ready img booted k) (low : d.Low)
    (clear : Clear k d) (run : d.map img k = .ok k') : Ready img booted k' ∧ Harmless img k k' ∧ Placed k' d ∧
      ∀ other : Device, other.Low → Placed k other → Placed k' other := by
  obtain ⟨g_pml4,cr3⟩ := And.intro ready.g_pml4 ready.cr3
  rw [map_eq img k low,g_pml4] at run
  obtain ⟨s,mapped,rest⟩ := Outcome.bind_eq_ok.mp run
  obtain rfl := Outcome.ok_injective rest
  have free (n : Nat) (member : n ∈ d.pages) : ¬HugeSlot k.state.memory img.page_table_pool (n * 2 ^ 12) := by
    obtain ⟨a,inside,rfl⟩ := mem_pages.mp member
    have page : leaf k.state.memory img.page_table_pool (a / 2 ^ 12 * 2 ^ 12) = leaf
        k.state.memory img.page_table_pool a :=
      leaf_page _ (by omega)
    rw [hugeSlot_iff,page,← hugeSlot_iff,← cr3]
    exact clear a inside
  have pagesRun := run_of_small layout ready.tables (fun c member => by
    obtain ⟨n,inside,rfl⟩ := List.mem_map.mp member
    exact ⟨(pageCall_valid (pages_small low inside)).fits,rfl,free n inside⟩) mapped
  have leaves (a : Nat) (small : a < 2 ^ 48) := run_pages layout ready.tables (fun n => pages_small low) pagesRun small
  obtain ⟨tables,outside,_⟩ := run_mapped layout ready.tables pagesRun
  refine ⟨⟨rfl,cr3,tables,fun a e => ?_⟩,fun b out => outside b ⟨?_,out⟩,fun a inside => ?_,
    fun other otherLow placed a inside => ?_⟩
  · rw [← ready.huge]
    exact pages_keep_huge layout ready.tables (fun n => pages_small low) (fun n member e found =>
      absurd (hugeSlot_iff.mpr ⟨e,found⟩) (free n member)) mapped a e
  · have pool := pool_size
    omega
  · have small : a < 2 ^ 48 := by
      unfold Device.Low at low
      have := inside.2
      omega
    show leaf s.memory k.cr3 a = _
    rw [cr3,leaves a small,if_pos (mem_pages.mpr ⟨a,inside,rfl⟩)]
  · have small : a < 2 ^ 48 := by
      unfold Device.Low at otherLow
      have := inside.2
      omega
    have before := placed a inside
    show leaf s.memory k.cr3 a = _
    rw [cr3] at before ⊢
    rw [leaves a small,before,ite_self]

/-- The leaves that boot has left are cacheable. -/
theorem bootLeaf_cacheable {calls : List Call} (boot : ∀ c ∈ calls, BootCall c) {a level e : Nat}
    (found : (lastCall calls a).map (fun c => (c.level,c.stored)) = some (level,e)) : e.testBit 4 = false := by
  obtain ⟨c,last,same⟩ := Option.map_eq_some_iff.mp found
  obtain ⟨b,_,rfl⟩ := boot c (lastCall_mem last).1
  rw [← (Prod.mk.inj same).2,Call.stored,Nat.testBit_or,Nat.testBit_or,Nat.testBit_or,Nat.testBit_mul_two_pow]
  rfl

/-- A region with a byte in a huge slot is not mapped. -/
theorem map_huge (layout : Layout img.page_table_pool img.page_table_pool) (ready : Ready img booted k) (low : d.Low)
    (cacheable : ∀ a e, leaf booted.state.memory img.page_table_pool a = some (1,e) → e.testBit 4 = false)
    (apart : Apart img k d) (run : d.map img k = .ok k') (effective : Effective k' d) : Clear k d := by
  obtain ⟨g_pml4,cr3⟩ := And.intro ready.g_pml4 ready.cr3
  rw [map_eq img k low,g_pml4] at run
  obtain ⟨s,mapped,rest⟩ := Outcome.bind_eq_ok.mp run
  obtain rfl := Outcome.ok_injective rest
  intro a inside isHuge
  rw [cr3] at isHuge
  obtain ⟨e,found⟩ := hugeSlot_iff.mp isHuge
  have still : leaf s.memory img.page_table_pool a = some (1,e) := by
    refine (pages_keep_huge layout ready.tables (fun n => pages_small low) (fun n member f page => ?_) mapped a e).mpr
      found
    obtain ⟨b,has,rfl⟩ := mem_pages.mp member
    have same : leaf k.state.memory img.page_table_pool (b / 2 ^ 12 * 2 ^ 12) = leaf
        k.state.memory img.page_table_pool b :=
      leaf_page _ (by omega)
    exact apart b f has (by rw [cr3,← same]; exact page)
  obtain ⟨t,walked,_,_,uncached⟩ := effective a inside
  have walked' : walk s.memory img.page_table_pool a = some t := cr3 ▸ walked
  rw [walk_eq_leaf,still,Option.map_some] at walked'
  obtain rfl := Option.some.inj walked'
  refine uncached ?_
  show (e &&& attributes) &&& 2 ^ 4 = 0
  rw [Nat.and_two_pow,Nat.testBit_and,cacheable a e ((ready.huge a e).mp found)]
  rfl

theorem Ready.clear (start : booted.cr3 = img.page_table_pool) (ready : Ready img booted k) :
    Clear k d ↔ Clear booted d := by
  unfold Clear
  simp only [ready.cr3,start,hugeSlot_iff,ready.huge]

theorem Harmless.trans {r : Kernel} (first : Harmless img k r) (second : Harmless img r k') : Harmless img k k' :=
  fun b out => (second b out).trans (first b out)

/-- What one clear region does, several do. -/
theorem map_clear_all (layout : Layout img.page_table_pool img.page_table_pool)
    (start : booted.cr3 = img.page_table_pool) {devices : List Device} (low : ∀ d ∈ devices, d.Low)
    (clear : ∀ d ∈ devices, Clear booted d) (ready : Ready img booted k)
    (run : devices.foldlM (fun k d => Device.map img k d) k = .ok k') :
    Ready img booted k' ∧ Harmless img k k' ∧ (∀ d ∈ devices, Placed k' d) ∧
      ∀ other : Device, other.Low → Placed k other → Placed k' other := by
  induction devices generalizing k with
  | nil =>
    rw [List.foldlM_nil,Outcome.pure_eq] at run
    obtain rfl := Outcome.ok_injective run
    exact ⟨ready,fun _ _ => rfl,by simp,fun _ _ placed => placed⟩
  | cons d devices ih =>
    rw [List.foldlM_cons] at run
    obtain ⟨r,first,later⟩ := Outcome.bind_eq_ok.mp run
    have lowFirst := low d List.mem_cons_self
    obtain ⟨ready₁,harmless₁,placed₁,kept₁⟩ :=
      map_clear layout ready lowFirst ((ready.clear start).mpr (clear d List.mem_cons_self)) first
    obtain ⟨ready₂,harmless₂,placed₂,kept₂⟩ := ih (fun e member => low e (List.mem_cons_of_mem d member))
      (fun e member => clear e (List.mem_cons_of_mem d member)) ready₁ later
    refine ⟨ready₂,harmless₁.trans harmless₂,?_,fun other small placed => kept₂ other small (kept₁ other small placed)⟩
    exact List.forall_mem_cons.mpr ⟨kept₂ d lowFirst placed₁,placed₂⟩

end

/-- After boot, with clear devices mapped before, a device is mapped with nothing
    but page tables modified if its region is clear of huge slots, and, where the
    huge pages of its slots do not start with a page table, only then. -/
theorem mmio_mapped_iff {img : Image} (layout : Layout img.page_table_pool img.page_table_pool)
    {k₀ booted k k' : Kernel} {info : Nat} (fresh : Fresh k₀) (boot : paging_init img k₀ info = .ok booted)
    {earlier : List Device} (low : ∀ d ∈ earlier, d.Low) (clear : ∀ d ∈ earlier, Clear booted d)
    (mapped : earlier.foldlM (fun k d => d.map img k) booted = .ok k) {d : Device} (lowLast : d.Low)
    (run : d.map img k = .ok k') :
    (Clear booted d → Effective k' d ∧ (∀ other ∈ earlier, Effective k' other) ∧ Harmless img k₀ k') ∧
      (Apart img k d → (Effective k' d ∧ Harmless img k k' ↔ Clear booted d)) := by
  obtain ⟨g_pml4,cr3,tables,outside,calls,bootCalls,leaves⟩ := paging_init_spec layout fresh boot
  have ready₀ : Ready img booted booted := ⟨g_pml4,cr3,tables,fun _ _ => Iff.rfl⟩
  obtain ⟨ready,harmless,placed,_⟩ := map_clear_all layout cr3 low clear ready₀ mapped
  have bootHarmless : Harmless img k₀ booted := fun b out => outside b ⟨by
    have pool := pool_size
    omega,out⟩
  constructor
  · intro clearLast
    obtain ⟨_,harmlessLast,placedLast,kept⟩ := map_clear layout ready lowLast ((ready.clear cr3).mpr clearLast) run
    refine ⟨placedLast.effective lowLast,fun other member => ?_,bootHarmless.trans (harmless.trans harmlessLast)⟩
    exact (kept other (low other member) (placed other member)).effective (low other member)
  · intro apart
    constructor
    · rintro ⟨effective,_⟩
      have cacheable (a e : Nat) (found : leaf booted.state.memory img.page_table_pool a = some (1,e)) :
          e.testBit 4 = false := bootLeaf_cacheable bootCalls ((leaves a).symm.trans found)
      exact (ready.clear cr3).mp (map_huge layout ready lowLast cacheable apart run effective)
    · intro clearLast
      obtain ⟨_,harmlessLast,placedLast,_⟩ := map_clear layout ready lowLast ((ready.clear cr3).mpr clearLast) run
      exact ⟨placedLast.effective lowLast,harmlessLast⟩

/-- A device above everything that boot has mapped. -/
theorem clear_above {img : Image} {k : Kernel} {may : Prop} {m m' : Memory} {tags : List Nat}
    (cr3 : k.cr3 = img.page_table_pool)
    (identity : BootMap.Identity may img.page_table_pool m (bootSlot img m' tags) k.state)
    (first : BootMap.FirstGiB img (BootMap.usable m' tags)) {d : Device} (low : d.Low) (high : 2 ^ 30 ≤ d.region.1) :
    Clear k d := by
  intro a inside isHuge
  obtain ⟨e,found⟩ := hugeSlot_iff.mp isHuge
  have small : a < 2 ^ 48 := by
    unfold Device.Low at low
    have := inside.2
    omega
  rw [cr3,identity.above first (Nat.le_trans high inside.1) small] at found
  cases found

/-- The last 2 MiB that boot has mapped. -/
theorem last_slot : bootSlot smallImage bootMemory [0x9008] (0x3fff0000 / 2 ^ 21) := by
  rw [BootMap.bootSlot_iff,BootMap.small_usable]
  exact .inr (.inr ⟨_,List.mem_singleton.mpr rfl,by decide,by decide⟩)

theorem mmio_mapped_iff_small : ∃ booted k', paging_init smallImage smallMachine 0x9000 = .ok booted ∧
    Device.map smallImage booted (.lapic 0xfee00000) = .ok k' ∧ Effective k' (.lapic 0xfee00000) ∧
      Harmless smallImage smallMachine k' := by
  obtain ⟨booted,boot,cr3,identity⟩ := small_boots
  have low : (Device.lapic 0xfee00000).Low := by
    unfold Device.Low
    decide
  have pages : (Device.lapic 0xfee00000).pages = [0xfee00] := by decide
  obtain ⟨s,run,_⟩ := @exec_room smallImage.page_table_pool booted.g_pml4 booted.state (pageCall 0xfee00) identity.room
  have mapped : Device.map smallImage booted (.lapic 0xfee00000) = .ok { booted with state := s } := by
    rw [map_eq _ _ low,pages,List.map_singleton,execAll,List.foldlM_cons,run,Outcome.bind_ok]
    rfl
  have clear := clear_above cr3 identity BootMap.small_first low (by decide)
  obtain ⟨effective,_,harmless⟩ := (@mmio_mapped_iff _ smallLayout _ _ _ _ _ smallFresh boot [] (by simp) (by simp) rfl
    (.lapic 0xfee00000) low mapped).1 clear
  exact ⟨booted,_,boot,mapped,effective,harmless⟩

/-- The registers of the HPET are not mapped, and RAM has been written. -/
theorem mmio_not_mapped : ∃ booted k', paging_init smallImage smallMachine 0x9000 = .ok booted ∧
    (Device.hpet 0x3fff0000).Low ∧ Device.map smallImage booted (.hpet 0x3fff0000) = .ok k' ∧
      ¬Effective k' (.hpet 0x3fff0000) ∧ ¬Harmless smallImage booted k' := by
  obtain ⟨booted,boot,cr3,identity⟩ := small_boots
  have low : (Device.hpet 0x3fff0000).Low := by
    unfold Device.Low
    decide
  have pages : (Device.hpet 0x3fff0000).pages = [0x3fff0] := by decide
  have g_pml4 := (paging_init_spec smallLayout smallFresh boot).1
  have huge := identity.inside 0x3fff0000 (by decide) last_slot
  have run := map_page_4kb_huge identity.tables huge 0x3fff0000 (PAGE_WRITABLE ||| PAGE_CACHE_DISABLE)
  rw [show (Call.map_page_2mb 0x3fff0000 0x3fff0000 PAGE_WRITABLE).stored / 2 ^ 12 * 2 ^ 12 =
    0x3fe00000 by decide] at run
  have page : (pageCall 0x3fff0).exec smallImage.page_table_pool booted.g_pml4 booted.state =
      .ok (booted.state.setEntry 0x3fe00000 (index 0 0x3fff0000) (pageCall 0x3fff0).stored) := by
    rw [g_pml4]
    exact run
  have mapped : Device.map smallImage booted (.hpet 0x3fff0000) = .ok { booted with
      state := booted.state.setEntry 0x3fe00000 (index 0 0x3fff0000) (pageCall 0x3fff0).stored } := by
    rw [map_eq _ _ low,pages,List.map_singleton,execAll,List.foldlM_cons,page,Outcome.bind_ok]
    rfl
  refine ⟨booted,_,boot,low,mapped,fun effective => ?_,fun harmless => ?_⟩
  · obtain ⟨_,_,_,_,calls,bootCalls,leaves⟩ := paging_init_spec smallLayout smallFresh boot
    have cacheable (a e : Nat) (found : leaf booted.state.memory smallImage.page_table_pool a = some (1,e)) :
        e.testBit 4 = false := bootLeaf_cacheable bootCalls ((leaves a).symm.trans found)
    have apart : Apart smallImage booted (.hpet 0x3fff0000) := by
      intro a e inside found
      have above : 0x3fff0000 ≤ a := inside.1
      have below : a < 0x3fff0000 + 0x1000 := inside.2
      have slot : a / 2 ^ 21 = 0x3fff0000 / 2 ^ 21 := by omega
      rw [cr3,identity.inside a (by omega) (slot ▸ last_slot),identityLeaf_slot slot] at found
      obtain rfl := (Prod.mk.inj (Option.some.inj found)).2
      exact .inr (by decide)
    have clear := map_huge smallLayout ⟨g_pml4,cr3,identity.tables,fun _ _ => Iff.rfl⟩ low
      cacheable apart mapped effective
    refine clear 0x3fff0000 ⟨by decide,by decide⟩ (hugeSlot_iff.mpr ?_)
    rw [cr3]
    exact ⟨_,huge⟩
  · have same := harmless 0x3fe00f80 (.inr (by decide))
    have written := @store_inside booted.state.memory (0x3fe00000 + 8 * index 0 0x3fff0000) 8 (pageCall 0x3fff0).stored
      0x3fe00f80 (by decide) (by decide)
    rw [identity.outside 0x3fe00f80 (.inr (by decide))] at same
    exact absurd (written.symm.trans same) (by decide)

end NekoOs.Mmio
