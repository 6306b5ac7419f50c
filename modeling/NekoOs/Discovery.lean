import NekoOs.MadtEncoding
import NekoOs.RootTable

/-!
The tables of a firmware as data and as bytes: the RSDP, the RSDT or XSDT and the
tables that it lists. `acpi_init` over the bytes comes to what the data says.
-/
namespace NekoOs.Discovery
open ByteMemory Trace AcpiReads MadtEncoding
open Madt (tableLength)

/-- A table, with what the kernel uses of it. -/
inductive Table
  | madt (lapic_addr : UInt32) (entries : List Ics)
  | hpet (address : UInt64)
  | other (signature : List UInt8)

def Table.signature : Table → List UInt8
  | madt _ _ => [65,80,73,67]
  | hpet _ => [72,80,69,84]
  | other signature => signature

def Table.WellFormed : Table → Prop
  | madt _ entries => ∀ e ∈ entries, e.WellFormed
  | hpet _ => True
  | other signature => signature.length = 4 ∧ signature ≠ [65,80,73,67] ∧ signature ≠ [72,80,69,84]

/-- A table at its address. -/
structure Placed where
  address : Nat
  table : Table

structure Firmware where
  revision : UInt8
  root : Nat
  tables : List Placed

/-- The size of a pointer in the RSDT or the XSDT. -/
def Firmware.entry_size (f : Firmware) : Nat := if 2 ≤ f.revision.toNat then 8 else 4

def Firmware.pointers (f : Firmware) : List UInt8 := f.tables.flatMap (fun t => littleEndian f.entry_size t.address)

/-- The bytes of a table that the kernel looks at. -/
structure Stands (m : Memory) (t : Placed) : Prop where
  signature : Spells m t.address t.table.signature
  body : match t.table with
    | .madt lapic_addr entries => Spells m (t.address + 36) (littleEndian 4 lapic_addr.toNat) ∧ Encodes m t.address entries
    | .hpet address => Spells m (t.address + 44) (littleEndian 8 address.toNat)
    | .other _ => True

/-- The firmware in memory, with its RSDP at an address. -/
structure Describes (m : Memory) (rsdp : Nat) (f : Firmware) : Prop where
  revision : m (rsdp + 15) = f.revision
  pointer : Spells m (if 2 ≤ f.revision.toNat then rsdp + 24 else rsdp + 16) (littleEndian f.entry_size f.root)
  root : 0 < f.root ∧ f.root < 256 ^ f.entry_size
  length : tableLength m f.root = sizeof_sdt + f.pointers.length
  pointers : Spells m (f.root + sizeof_sdt) f.pointers
  addresses : ∀ t ∈ f.tables, 0 < t.address ∧ t.address < 256 ^ f.entry_size
  tables : ∀ t ∈ f.tables, t.table.WellFormed ∧ Stands m t

/-- A MADT by its address, and what `madt.c` takes from it. -/
structure Madt where
  address : Nat
  lapic_addr : UInt32
  entries : List Ics

def Placed.madt (t : Placed) : Option Madt := match t.table with
  | .madt lapic_addr entries => some ⟨t.address,lapic_addr,entries⟩
  | _ => none

def Placed.hpet (t : Placed) : Option (Nat × UInt64) := match t.table with
  | .hpet address => some (t.address,address)
  | _ => none

def Firmware.madts (f : Firmware) : List Madt := f.tables.filterMap Placed.madt
def Firmware.hpets (f : Firmware) : List (Nat × UInt64) := f.tables.filterMap Placed.hpet

/-- The number of enabled processors of a MADT. -/
def Madt.enabled (d : Madt) : Nat := d.entries.countP Ics.enabled

/-- What `acpi_parse_tables` does with one table after another. -/
def Placed.effect (g : Globals) (t : Placed) : Globals := match t.table with
  | .madt _ entries => { g with madt_table := t.address, cpu_count := (g.cpu_count + entries.countP Ics.enabled) % 2 ^ 32 }
  | .hpet _ => { g with hpet_table := t.address }
  | .other _ => g

section
variable {m : Memory} {g : Globals} {t : Placed} {f : Firmware} {rsdp : Nat}

/-! ### One table -/

theorem signed_iff {a i : Nat} {signature : List UInt8} {text : List Nat} (spelled : Spells m (a + i) signature)
    (same : signature.length = text.length) : signed m a text i = true ↔ signature.map UInt8.toNat = text := by
  induction text generalizing i signature with
  | nil =>
    obtain rfl := List.length_eq_zero_iff.mp same
    simp [signed]
  | cons c text ih =>
    cases signature with
    | nil => cases same
    | cons b signature =>
      obtain ⟨first,rest⟩ := spelled
      have later := @ih (i + 1) signature rest (Nat.succ.inj same)
      rw [signed,MadtReads.load_byte,first,Bool.and_eq_true,later,List.map_cons,List.cons.injEq,decide_eq_true_eq]

theorem four (wellFormed : t.table.WellFormed) : t.table.signature.length = 4 := by
  cases table : t.table with
  | madt lapic_addr entries => rfl
  | hpet address => rfl
  | other signature =>
    rw [table] at wellFormed
    exact wellFormed.1

/-- The signatures tell which kind of table it is. -/
theorem signed_madt (wellFormed : t.table.WellFormed) (stands : Stands m t) :
    signed m t.address APIC 0 = t.madt.isSome ∧ signed m t.address HPET 0 = t.hpet.isSome := by
  have spelled : Spells m (t.address + 0) t.table.signature := stands.signature
  have apic : signed m t.address APIC 0 = true ↔ _ := signed_iff spelled (four wellFormed)
  have hpet : signed m t.address HPET 0 = true ↔ _ := signed_iff spelled (four wellFormed)
  have injective : Function.Injective (List.map UInt8.toNat) := List.map_injective_iff.mpr (fun _ _ => UInt8.toNat_inj.mp)
  have apic' : APIC = [(65 : UInt8),80,73,67].map UInt8.toNat := rfl
  have hpet' : HPET = [(72 : UInt8),80,69,84].map UInt8.toNat := rfl
  rw [apic',injective.eq_iff,← apic'] at apic
  rw [hpet',injective.eq_iff,← hpet'] at hpet
  refine ⟨Bool.eq_iff_iff.mpr (apic.trans ?_),Bool.eq_iff_iff.mpr (hpet.trans ?_)⟩
  all_goals
    cases table : t.table with
    | madt lapic_addr entries => simp [Placed.madt,Placed.hpet,table,Table.signature]
    | hpet address => simp [Placed.madt,Placed.hpet,table,Table.signature]
    | other signature =>
      rw [table] at wellFormed
      simp [Placed.madt,Placed.hpet,table,Table.signature,wellFormed.2]

theorem parse_madt {madt : Nat} {entries : List Ics} (small : g.cpu_count < 2 ^ 32) (wellFormed : ∀ e ∈ entries, e.WellFormed)
    (encodes : Encodes m madt entries) : Returns (fun fuel => madt_parse m g madt fuel)
      { g with madt_table := madt, cpu_count := (g.cpu_count + entries.countP Ics.enabled) % 2 ^ 32 } := by
  have counted := table_walk id (@parseIcs_agrees m madt) wellFormed encodes g.cpu_count
  rw [visitAll_count entries small] at counted
  exact returns_read.mpr (returns_map.mpr ⟨_,counted,rfl⟩)

theorem parse_table (small : g.cpu_count < 2 ^ 32) (wellFormed : t.table.WellFormed) (stands : Stands m t) :
    Returns (fun fuel => parseTable m g t.address fuel) (t.effect g) := by
  obtain ⟨apic,hpet⟩ := signed_madt wellFormed stands
  have body := stands.body
  rw [parseTable_returns,apic,hpet,Placed.madt,Placed.hpet,Placed.effect]
  cases table : t.table with
  | madt lapic_addr entries =>
    rw [table] at wellFormed body
    exact ⟨_,parse_madt small wellFormed body.2,rfl⟩
  | hpet address => exact ⟨g,returns_const.mpr rfl,rfl⟩
  | other signature => exact ⟨g,returns_const.mpr rfl,rfl⟩

theorem effect_small (small : g.cpu_count < 2 ^ 32) : (t.effect g).cpu_count < 2 ^ 32 := by
  unfold Placed.effect
  split
  · exact Nat.mod_lt _ (Nat.two_pow_pos 32)
  · exact small
  · exact small

/-! ### All tables -/

theorem length_pointers (size : Nat) (tables : List Placed) :
    (tables.flatMap (fun t => littleEndian size t.address)).length = tables.length * size := by
  induction tables with
  | nil => simp
  | cons t tables ih => rw [List.flatMap_cons,List.length_append,length_littleEndian,ih,List.length_cons,Nat.succ_mul,Nat.add_comm]

/-- The pointers are followed in their order. -/
theorem parse_tables {header size i : Nat} {tables : List Placed} (small : g.cpu_count < 2 ^ 32)
    (spelled : Spells m (header + sizeof_sdt + i * size) (tables.flatMap (fun t => littleEndian size t.address)))
    (fits : (i + tables.length) * size ≤ 2 ^ 32) (positive : 0 < size) (addresses : ∀ t ∈ tables, t.address < 256 ^ size)
    (stand : ∀ t ∈ tables, t.table.WellFormed ∧ Stands m t) :
    Returns (fun fuel => parseTables m header size tables.length i g fuel) (tables.foldl Placed.effect g) := by
  induction tables generalizing g i with
  | nil => exact returns_const.mpr rfl
  | cons t tables ih =>
    rw [List.flatMap_cons,spells_append,length_littleEndian,Nat.add_assoc (header + sizeof_sdt),← Nat.succ_mul] at spelled
    obtain ⟨here,later⟩ := spelled
    have inside : i * size < 2 ^ 32 := by
      have more : (i + 1) * size ≤ (i + (t :: tables).length) * size := Nat.mul_le_mul_right _ (by rw [List.length_cons]; omega)
      rw [Nat.succ_mul] at more
      omega
    have pointed : AcpiReads.pointer m header size i = t.address := by
      rw [AcpiReads.pointer,slot,Nat.mod_eq_of_lt inside,load_littleEndian here,
        Nat.mod_eq_of_lt (addresses t List.mem_cons_self)]
    obtain ⟨wellFormed,stands⟩ := stand t List.mem_cons_self
    have first := parse_table small wellFormed stands
    rw [← pointed] at first
    refine (parseTables_succ tables.length i g _).mpr ⟨_,first,?_⟩
    refine ih (effect_small small) later ?_ (fun d member => addresses d (List.mem_cons_of_mem t member))
      (fun d member => stand d (List.mem_cons_of_mem t member))
    rwa [List.length_cons,← Nat.add_assoc,Nat.add_right_comm] at fits

/-- The last MADT and the last HPET table are kept, and the processors of all MADTs are counted. -/
theorem effects (tables : List Placed) (small : g.cpu_count < 2 ^ 32) : tables.foldl Placed.effect g =
    ⟨((tables.filterMap Placed.madt).getLast?.map Madt.address).getD g.madt_table,
      (g.cpu_count + ((tables.filterMap Placed.madt).map Madt.enabled).sum) % 2 ^ 32,
      ((tables.filterMap Placed.hpet).getLast?.map Prod.fst).getD g.hpet_table⟩ := by
  induction tables generalizing g with
  | nil =>
    show g = ⟨g.madt_table,(g.cpu_count + 0) % 2 ^ 32,g.hpet_table⟩
    rw [Nat.add_zero,Nat.mod_eq_of_lt small]
  | cons t tables ih =>
    rw [List.foldl_cons,ih (effect_small small),List.filterMap_cons,List.filterMap_cons,Placed.effect,Placed.madt,Placed.hpet]
    cases t.table with
    | madt lapic_addr entries =>
      simp only [List.getLast?_cons,List.map_cons,List.sum_cons,Madt.enabled,Nat.mod_add_mod,Nat.add_assoc,Option.map_some,
        Option.getD_some]
      cases (tables.filterMap Placed.madt).getLast? <;> rfl
    | hpet address =>
      simp only [List.getLast?_cons,Option.map_some,Option.getD_some]
      cases (tables.filterMap Placed.hpet).getLast? <;> rfl
    | other signature => rfl

theorem parse_all (describes : Describes m rsdp f) :
    Returns (fun fuel => acpi_init m noTables (some rsdp) fuel) (f.tables.foldl Placed.effect noTables) := by
  have revision : load m (rsdp + 15) 1 = f.revision.toNat := by rw [MadtReads.load_byte,describes.revision]
  have size : f.entry_size = 4 ∨ f.entry_size = 8 := by
    unfold Firmware.entry_size
    split <;> simp
  have fits : tableLength m f.root < 256 ^ 4 := load_lt m (f.root + 4) 4
  have length : f.pointers.length = f.tables.length * f.entry_size := length_pointers _ _
  have count : tableCount (tableLength m f.root) f.entry_size = f.tables.length := by
    rw [RootTable.tableCount_long size fits (by rw [describes.length]; omega),describes.length,length,Nat.add_sub_cancel_left,
      Nat.mul_div_cancel _ (by omega)]
  have parsed : Returns (fun fuel => acpi_parse_tables m noTables f.root f.entry_size fuel)
      (f.tables.foldl Placed.effect noTables) := by
    refine returns_read.mpr ?_
    show Returns (fun fuel => parseTables m f.root f.entry_size (tableCount (tableLength m f.root) f.entry_size) 0 noTables fuel) _
    rw [count]
    have total := describes.length
    refine parse_tables (Nat.two_pow_pos 32) ?_ (by rw [Nat.zero_add,← length]; omega) (by omega)
      (fun t member => (describes.addresses t member).2) describes.tables
    rw [Nat.zero_mul]
    exact describes.pointers
  have root : root m rsdp = ⟨f.root,f.entry_size⟩ := by
    have pointer := describes.pointer
    have fits := describes.root.2
    rw [AcpiReads.root,revision]
    unfold Firmware.entry_size at pointer fits ⊢
    split at pointer
    next new =>
      rw [if_pos new] at fits ⊢
      rw [if_pos new,load_littleEndian pointer,Nat.mod_eq_of_lt fits]
    next old =>
      rw [if_neg old] at fits ⊢
      rw [if_neg old,load_littleEndian pointer,Nat.mod_eq_of_lt fits]
  obtain ⟨fuel,ends⟩ := parsed
  exact ⟨fuel,((acpi_init_eq noTables fuel).2 _).mpr (by rw [root]; exact ⟨Nat.ne_of_gt describes.root.1,ends⟩)⟩

/-! ### The getters -/

theorem lapic_id_returns {u : Nat} {entries : List Ics} (wellFormed : ∀ e ∈ entries, e.WellFormed)
    (encodes : Encodes m g.madt_table entries) :
    Returns (fun fuel => madt_get_lapic_id m g u fuel) ((entries.findSome? (Ics.apicId u)).getD 0xFF) := by
  rw [← visitAll_search]
  exact returns_read.mpr (table_walk (fun _ => 0xFF) (@lapicIcs_agrees m g.madt_table u) wellFormed encodes ())

theorem ioapic_addr_returns {i : Nat} {entries : List Ics} (wellFormed : ∀ e ∈ entries, e.WellFormed)
    (encodes : Encodes m g.madt_table entries) :
    Returns (fun fuel => madt_get_ioapic_addr m g i fuel) ((entries.findSome? (Ics.ioapicAddr i)).getD 0) := by
  rw [← visitAll_search]
  exact returns_read.mpr (table_walk (fun _ => 0) (@ioapicIcs_agrees m g.madt_table i) wellFormed encodes ())

theorem lapic_base_returns {entries : List Ics} (wellFormed : ∀ e ∈ entries, e.WellFormed)
    (encodes : Encodes m g.madt_table entries) : Returns (fun fuel => madt_get_lapic_base m g fuel)
      ((entries.findSome? Ics.overrideAddr).getD (load m (g.madt_table + 36) 4)) := by
  have found := table_walk (fun _ => none) (@overrideIcs_agrees m g.madt_table) wellFormed encodes ()
  rw [visitAll_search,← Function.comp_def,← List.map_findSome?] at found
  have later (found : Option Nat) : Growing (fun _ => orLapicAddr m g.madt_table found) := growing_const _
  refine returns_read.mpr ((returns_bind growing_override later).mpr ⟨_,found,returns_const.mpr ?_⟩)
  cases entries.findSome? Ics.overrideAddr with
  | none => rfl
  | some addr => rfl

/-- From the RSDP on the kernel finds what the firmware describes: the processors of all MADTs are counted, the getters answer
    from the last MADT, and `hpet_init` takes the address from the last HPET table. -/
theorem acpi_discovers (describes : Describes m rsdp f) : ∃ g, Returns (fun fuel => acpi_init m noTables (some rsdp) fuel) g ∧
    g.cpu_count = (f.madts.map Madt.enabled).sum % 2 ^ 32 ∧
    (∀ d ∈ f.madts.getLast?, (∀ u, Returns (fun fuel => madt_get_lapic_id m g u fuel) ((d.entries.findSome? (Ics.apicId u)).getD 0xFF)) ∧
      (∀ i, Returns (fun fuel => madt_get_ioapic_addr m g i fuel) ((d.entries.findSome? (Ics.ioapicAddr i)).getD 0)) ∧
      Returns (fun fuel => madt_get_lapic_base m g fuel) ((d.entries.findSome? Ics.overrideAddr).getD d.lapic_addr.toNat)) ∧
    (hpet_init m g).result = match f.hpets.getLast? with
      | none => .kpanic "HPET table not found"
      | some (_,address) => .ok address.toNat := by
  have parsed := parse_all describes
  rw [effects f.tables (Nat.two_pow_pos 32)] at parsed
  refine ⟨_,parsed,by rw [noTables,Nat.zero_add]; rfl,fun d last => ?_,?_⟩
  · obtain ⟨t,member,madt⟩ := List.mem_filterMap.mp (List.mem_of_getLast? last)
    obtain ⟨wellFormed,stands⟩ := describes.tables t member
    have body := stands.body
    have address : ((f.tables.filterMap Placed.madt).getLast?.map Madt.address).getD noTables.madt_table = d.address := by
      rw [show (f.tables.filterMap Placed.madt).getLast? = some d from last]
      rfl
    rw [address]
    rw [Placed.madt] at madt
    cases table : t.table with
    | madt lapic_addr entries =>
      rw [table] at madt wellFormed body
      obtain rfl := Option.some.inj madt
      have base : load m (t.address + 36) 4 = lapic_addr.toNat := load_uint32 body.1
      refine ⟨fun u => lapic_id_returns wellFormed body.2,fun i => ioapic_addr_returns wellFormed body.2,?_⟩
      rw [← base]
      exact lapic_base_returns wellFormed body.2
    | hpet address => rw [table] at madt; cases madt
    | other signature => rw [table] at madt; cases madt
  · rw [hpet_init]
    cases last : f.hpets.getLast? with
    | none =>
      rw [show (f.tables.filterMap Placed.hpet).getLast? = none from last]
      rfl
    | some p =>
      obtain ⟨t,member,hpet⟩ := List.mem_filterMap.mp (List.mem_of_getLast? last)
      have present := (describes.addresses t member).1
      have body := (describes.tables t member).2.body
      rw [show (f.tables.filterMap Placed.hpet).getLast? = some p from last]
      rw [Placed.hpet] at hpet
      cases table : t.table with
      | hpet address =>
        rw [table] at hpet body
        obtain rfl := Option.some.inj hpet
        show (if t.address = 0 then _ else read m t.address (t.address + 44) 8).result = _
        rw [if_neg (by omega)]
        exact congrArg Outcome.ok (load_uint64 body)
      | madt lapic_addr entries => rw [table] at hpet; cases hpet
      | other signature => rw [table] at hpet; cases hpet

end

/-- An XSDT of three tables. -/
def sampleFirmware : Firmware where
  revision := 2
  root := 0x200
  tables := [⟨0x300,.other [70,65,67,80]⟩,⟨0x400,.madt 0xFEE00000 sampleEntries⟩,⟨0x500,.hpet 0xFED00000⟩]

/-- The RSDP at `0x100`, and the tables. -/
def sampleMemory : Memory := fun a =>
  if a < 0x200 then if a = 0x10F then 2 else (littleEndian 8 0x200).getD (a - 0x118) 0
  else if a < 0x300 then ([88,83,68,84] ++ littleEndian 4 60 ++ List.replicate 28 0 ++ sampleFirmware.pointers).getD (a - 0x200) 0
  else if a < 0x400 then [70,65,67,80].getD (a - 0x300) 0
  else if a < 0x500 then ([65,80,73,67] ++ littleEndian 4 90 ++ List.replicate 28 0 ++ littleEndian 4 0xFEE00000 ++
    List.replicate 4 0 ++ sampleEntries.flatMap Ics.bytes).getD (a - 0x400) 0
  else ([72,80,69,84] ++ List.replicate 40 0 ++ littleEndian 8 0xFED00000).getD (a - 0x500) 0

theorem sample_describes : Describes sampleMemory 0x100 sampleFirmware where
  revision := rfl
  pointer := by decide +kernel
  root := by decide
  length := by decide +kernel
  pointers := by decide +kernel
  addresses := by simp [sampleFirmware,Firmware.entry_size]
  tables t member := by
    have entries : ∀ e ∈ sampleEntries, e.WellFormed := by decide
    have encodes : Encodes sampleMemory 0x400 sampleEntries := ⟨by decide +kernel,by decide +kernel⟩
    simp only [sampleFirmware,List.mem_cons,List.not_mem_nil,or_false] at member
    rcases member with rfl | rfl | rfl
    · exact ⟨⟨rfl,by decide,by decide⟩,by show Spells sampleMemory 0x300 _; decide +kernel,trivial⟩
    · exact ⟨entries,by show Spells sampleMemory 0x400 _; decide +kernel,
        by show Spells sampleMemory 0x424 (littleEndian 4 0xFEE00000); decide +kernel,encodes⟩
    · exact ⟨trivial,by show Spells sampleMemory 0x500 _; decide +kernel,
        by show Spells sampleMemory 0x52C (littleEndian 8 0xFED00000); decide +kernel⟩

/-- One enabled processor, and the timer. -/
theorem acpi_discovers_xsdt : ∃ g, Returns (fun fuel => acpi_init sampleMemory noTables (some 0x100) fuel) g ∧ g.cpu_count = 1 ∧
    Returns (fun fuel => madt_get_lapic_id sampleMemory g 3 fuel) 6 ∧ (hpet_init sampleMemory g).result = .ok 0xFED00000 := by
  obtain ⟨g,returns,count,madt,hpet⟩ := acpi_discovers sample_describes
  obtain ⟨ids,_,_⟩ := madt ⟨0x400,0xFEE00000,sampleEntries⟩ rfl
  exact ⟨g,returns,count,ids 3,hpet⟩

end NekoOs.Discovery
