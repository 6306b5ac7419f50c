import NekoOs.AcpiReads

/-!
The entries of the MADT as data and as bytes. The walks of `madt.c` over the
bytes of a list of entries come to what the list says.
-/
namespace NekoOs.MadtEncoding
open ByteMemory Trace AcpiReads
open MadtReads (MADT_TYPE_IOAPIC MADT_TYPE_ISO MADT_TYPE_LAPIC_NMI MADT_TYPE_LAPIC_OVERRIDE)
open Madt (tableLength icsType icsLength sizeof_madt MADT_TYPE_LAPIC)

/-- An entry with the fields of its structure, and the bytes that its length adds to them. -/
inductive Ics
  | lapic (acpi_processor_uid apic_id : UInt8) (flags : UInt32) (more : List UInt8)
  | ioapic (ioapic_id reserved : UInt8) (ioapic_addr gsi_base : UInt32) (more : List UInt8)
  | iso (bus source : UInt8) (gsi : UInt32) (flags : UInt16) (more : List UInt8)
  | lapic_nmi (acpi_processor_uid : UInt8) (flags : UInt16) (lint : UInt8) (more : List UInt8)
  | lapic_override (reserved : UInt16) (addr : UInt64) (more : List UInt8)
  | unknown (type : UInt8) (more : List UInt8)
deriving DecidableEq, Repr

namespace Ics

def type : Ics → UInt8
  | lapic _ _ _ _ => 0
  | ioapic _ _ _ _ _ => 1
  | iso _ _ _ _ _ => 2
  | lapic_nmi _ _ _ _ => 4
  | lapic_override _ _ _ => 5
  | unknown type _ => type

/-- The fields of the structure behind `madt_ics_header_t`. -/
def fields : Ics → List UInt8
  | lapic acpi_processor_uid apic_id flags _ => [acpi_processor_uid,apic_id] ++ littleEndian 4 flags.toNat
  | ioapic ioapic_id reserved ioapic_addr gsi_base _ =>
    [ioapic_id,reserved] ++ littleEndian 4 ioapic_addr.toNat ++ littleEndian 4 gsi_base.toNat
  | iso bus source gsi flags _ => [bus,source] ++ littleEndian 4 gsi.toNat ++ littleEndian 2 flags.toNat
  | lapic_nmi acpi_processor_uid flags lint _ => [acpi_processor_uid] ++ littleEndian 2 flags.toNat ++ [lint]
  | lapic_override reserved addr _ => littleEndian 2 reserved.toNat ++ littleEndian 8 addr.toNat
  | unknown _ _ => []

def more : Ics → List UInt8
  | lapic _ _ _ more => more
  | ioapic _ _ _ _ more => more
  | iso _ _ _ _ more => more
  | lapic_nmi _ _ _ more => more
  | lapic_override _ _ more => more
  | unknown _ more => more

def length (e : Ics) : Nat := 2 + e.fields.length + e.more.length

def bytes (e : Ics) : List UInt8 := e.type :: UInt8.ofNat e.length :: (e.fields ++ e.more)

/-- A length that fits its byte, and no other structure for a known type. -/
def WellFormed (e : Ics) : Prop :=
  e.length ≤ 255 ∧ match e with
    | unknown type _ => type.toNat ∉ [MADT_TYPE_LAPIC,MADT_TYPE_IOAPIC,MADT_TYPE_ISO,MADT_TYPE_LAPIC_NMI,MADT_TYPE_LAPIC_OVERRIDE]
    | _ => True

instance : (e : Ics) → Decidable e.WellFormed
  | lapic _ _ _ _ => inferInstanceAs (Decidable (_ ∧ True))
  | ioapic _ _ _ _ _ => inferInstanceAs (Decidable (_ ∧ True))
  | iso _ _ _ _ _ => inferInstanceAs (Decidable (_ ∧ True))
  | lapic_nmi _ _ _ _ => inferInstanceAs (Decidable (_ ∧ True))
  | lapic_override _ _ _ => inferInstanceAs (Decidable (_ ∧ True))
  | unknown _ _ => inferInstanceAs (Decidable (_ ∧ _))

/-- A type-0 entry with flag bit 0 set. -/
def enabled : Ics → Bool
  | lapic _ _ flags _ => flags.toNat % 2 = 1
  | _ => false

/-- The APIC id of an enabled processor with a UID. -/
def apicId (cpu_id : Nat) : Ics → Option Nat
  | lapic acpi_processor_uid apic_id flags _ =>
    if acpi_processor_uid.toNat = cpu_id ∧ flags.toNat % 2 = 1 then some apic_id.toNat else none
  | _ => none

/-- The address of the I/O APIC with an id. -/
def ioapicAddr (id : Nat) : Ics → Option Nat
  | ioapic ioapic_id _ ioapic_addr _ _ => if ioapic_id.toNat = id then some ioapic_addr.toNat else none
  | _ => none

def overrideAddr : Ics → Option Nat
  | lapic_override _ addr _ => some addr.toNat
  | _ => none

end Ics

/-- The table: entries behind the 44 bytes of the header, whose length matches. -/
structure Encodes (m : Memory) (madt : Nat) (entries : List Ics) : Prop where
  length : tableLength m madt = sizeof_madt + (entries.flatMap Ics.bytes).length
  bytes : Spells m (madt + sizeof_madt) (entries.flatMap Ics.bytes)

/-! ### One entry -/

section
variable {m : Memory} {ptr : Nat} {e : Ics}

theorem length_bytes (e : Ics) : e.bytes.length = e.length := by
  simp only [Ics.bytes,Ics.length,List.length_cons,List.length_append]
  omega

theorem header_read (wellFormed : e.WellFormed) (spelled : Spells m ptr e.bytes) :
    icsType m ptr = e.type.toNat ∧ icsLength m ptr = e.length := by
  obtain ⟨type,length,_⟩ := spelled
  refine ⟨congrArg UInt8.toNat type,?_⟩
  rw [icsLength,length]
  exact UInt8.toNat_ofNat_of_lt' (Nat.lt_of_le_of_lt wellFormed.1 (by decide))

theorem fields_read (spelled : Spells m ptr e.bytes) : Spells m (ptr + 2) e.fields := (spells_append.mp spelled.2.2).1

theorem load_uint32 {a : Nat} {v : UInt32} (spelled : Spells m a (littleEndian 4 v.toNat)) : load m a 4 = v.toNat := by
  rw [load_littleEndian spelled]
  exact Nat.mod_eq_of_lt v.toNat_lt

theorem load_uint64 {a : Nat} {v : UInt64} (spelled : Spells m a (littleEndian 8 v.toNat)) : load m a 8 = v.toNat := by
  rw [load_littleEndian spelled]
  exact Nat.mod_eq_of_lt v.toNat_lt

/-- The fields that are looked at of a `madt_lapic_t`. -/
theorem lapic_read {uid apic_id : UInt8} {flags : UInt32} {more : List UInt8}
    (spelled : Spells m ptr (Ics.lapic uid apic_id flags more).bytes) :
    load m (ptr + 2) 1 = uid.toNat ∧ load m (ptr + 3) 1 = apic_id.toNat ∧ load m (ptr + 4) 4 = flags.toNat := by
  obtain ⟨first,second,third⟩ := fields_read spelled
  exact ⟨(MadtReads.load_byte m _).trans (congrArg UInt8.toNat first),
    (MadtReads.load_byte m _).trans (congrArg UInt8.toNat second),load_uint32 third⟩

/-- And of a `madt_ioapic_t`. -/
theorem ioapic_read {id reserved : UInt8} {addr gsi_base : UInt32} {more : List UInt8}
    (spelled : Spells m ptr (Ics.ioapic id reserved addr gsi_base more).bytes) :
    load m (ptr + 2) 1 = id.toNat ∧ load m (ptr + 4) 4 = addr.toNat := by
  obtain ⟨first,_,third⟩ := (spells_append.mp (fields_read spelled)).1
  exact ⟨(MadtReads.load_byte m _).trans (congrArg UInt8.toNat first),load_uint32 third⟩

theorem override_read {reserved : UInt16} {addr : UInt64} {more : List UInt8}
    (spelled : Spells m ptr (Ics.lapic_override reserved addr more).bytes) : load m (ptr + 4) 8 = addr.toNat := by
  have behind := (spells_append.mp (fields_read spelled)).2
  rw [length_littleEndian] at behind
  exact load_uint64 behind

/-! ### A walk over entries -/

/-- What a visitor comes to on the entries of a list, where it returns early or not. -/
def visitAll {State Result : Type} (f : State → Ics → Result ⊕ State) (ended : State → Result) : State → List Ics → Result
  | s, [] => ended s
  | s, e :: entries =>
    match f s e with
    | .inl result => result
    | .inr s => visitAll f ended s entries

variable {madt stop : Nat}

/-- A walk over the bytes of entries visits the entries in order. -/
theorem walk_entries {State Result : Type} {visit : State → (type ptr : Nat) → Trace (Result ⊕ State)}
    {f : State → Ics → Result ⊕ State} (ended : State → Result)
    (agrees : ∀ s ptr e, e.WellFormed → Spells m ptr e.bytes → (visit s e.type.toNat ptr).result = .ok (f s e))
    {entries : List Ics} (wellFormed : ∀ e ∈ entries, e.WellFormed) (spelled : Spells m ptr (entries.flatMap Ics.bytes))
    (ends : stop = ptr + (entries.flatMap Ics.bytes).length) (s : State) :
    (loop (icsBody m madt stop visit ended) (entries.length + 1) s ptr).result = .ok (visitAll f ended s entries) := by
  induction entries generalizing ptr s with
  | nil =>
    have stops : (icsBody m madt stop visit ended s ptr).result = .ok (.inl (ended s)) := by
      rw [icsBody,if_neg (by simp [ends])]
      rfl
    exact (loop_stop stops 0).2
  | cons e entries ih =>
    rw [List.flatMap_cons,spells_append,length_bytes] at spelled
    rw [List.flatMap_cons,List.length_append,length_bytes] at ends
    obtain ⟨here,later⟩ := spelled
    have first := wellFormed e List.mem_cons_self
    obtain ⟨type,length⟩ := header_read first here
    have visited := agrees s ptr e first here
    have inside : ptr < stop := by
      unfold Ics.length at ends
      omega
    have body : (icsBody m madt stop visit ended s ptr).result = match f s e with
        | .inl result => .ok (.inl result)
        | .inr s => .ok (.inr (s,ptr + e.length)) := by
      rw [icsBody,if_pos inside,read_bind_result,load_type,type,(bind_ok _ visited).2]
      cases f s e with
      | inl result => rfl
      | inr s =>
        simp only [read_bind_result,load_length,length]
        rfl
    rw [visitAll]
    cases found : f s e with
    | inl result =>
      rw [found] at body
      exact (loop_stop body _).2
    | inr s' =>
      rw [found] at body
      rw [List.length_cons,(loop_go body _).2]
      exact ih (fun d member => wellFormed d (List.mem_cons_of_mem e member)) later (by omega) s'

/-- A search that stops at the first entry with an answer. -/
def search {Result : Type} (answer : Ics → Option Result) (_ : Unit) (e : Ics) : Result ⊕ Unit :=
  match answer e with
  | some result => .inl result
  | none => .inr ()

theorem visitAll_search {Result : Type} (answer : Ics → Option Result) (missing : Result) (entries : List Ics) :
    visitAll (search answer) (fun _ => missing) () entries = (entries.findSome? answer).getD missing := by
  induction entries with
  | nil => rfl
  | cons e entries ih =>
    rw [visitAll,search,List.findSome?_cons]
    cases answer e with
    | none => exact ih
    | some result => rfl

theorem visitAll_count (entries : List Ics) {cpu_count : Nat} (small : cpu_count < 2 ^ 32) :
    visitAll (fun (cpu_count : Nat) e =>
      (.inr (if e.enabled then (cpu_count + 1) % 2 ^ 32 else cpu_count) : Nat ⊕ Nat)) id
      cpu_count entries = (cpu_count + entries.countP Ics.enabled) % 2 ^ 32 := by
  induction entries generalizing cpu_count with
  | nil => exact (Nat.mod_eq_of_lt small).symm
  | cons e entries ih =>
    rw [visitAll,List.countP_cons]
    cases e.enabled with
    | true =>
      refine (ih (Nat.mod_lt _ (by decide))).trans ?_
      rw [Nat.mod_add_mod,Nat.add_assoc,Nat.add_comm 1]
      rfl
    | false => exact ih small

/-! ### The four walks -/

theorem parseIcs_other {cpu_count type : Nat} (other : type ≠ MADT_TYPE_LAPIC) :
    (parseIcs m madt cpu_count type ptr).result = .ok (.inr cpu_count) := by
  rw [parseIcs,if_neg other]
  split
  · rfl
  · split
    · rfl
    · split <;> rfl

theorem parseIcs_agrees (cpu_count ptr : Nat) (e : Ics) (wellFormed : e.WellFormed) (spelled : Spells m ptr e.bytes) :
    (parseIcs m madt cpu_count e.type.toNat ptr).result =
      .ok (.inr (if e.enabled then (cpu_count + 1) % 2 ^ 32 else cpu_count)) := by
  cases e with
  | lapic uid apic_id flags more =>
    have isLapic : (Ics.lapic uid apic_id flags more).type.toNat = MADT_TYPE_LAPIC := rfl
    rw [parseIcs,if_pos isLapic]
    simp only [read_bind_result,(lapic_read spelled).2.2,Ics.enabled,decide_eq_true_eq]
    rfl
  | unknown type more => exact parseIcs_other (fun same => wellFormed.2 (by simp [← same,Ics.type]))
  | _ => exact parseIcs_other (by simp [Ics.type,MADT_TYPE_LAPIC])

theorem lapicIcs_agrees (cpu_id : Nat) (s : Unit) (ptr : Nat) (e : Ics) (wellFormed : e.WellFormed)
    (spelled : Spells m ptr e.bytes) : (lapicIcs m madt cpu_id s e.type.toNat ptr).result =
      .ok (search (Ics.apicId cpu_id) s e) := by
  have other (different : e.type.toNat ≠ MADT_TYPE_LAPIC) :
      (lapicIcs m madt cpu_id s e.type.toNat ptr).result = .ok (.inr ()) := by rw [lapicIcs,if_neg different]; rfl
  cases e with
  | lapic uid apic_id flags more =>
    obtain ⟨readUid,readId,readFlags⟩ := lapic_read spelled
    have isLapic : (Ics.lapic uid apic_id flags more).type.toNat = MADT_TYPE_LAPIC := rfl
    rw [lapicIcs,if_pos isLapic]
    simp only [read_bind_result,readUid,search,Ics.apicId]
    by_cases same : uid.toNat = cpu_id
    · by_cases isEnabled : flags.toNat % 2 = 1
      · simp only [same,isEnabled,if_true,and_self,read_bind_result,readFlags,readId]
        rfl
      · simp only [same,isEnabled,if_true,if_false,and_false,read_bind_result,readFlags]
        rfl
    · simp only [same,if_false,false_and]
      rfl
  | unknown type more => exact other (fun same => wellFormed.2 (by simp [← same,Ics.type]))
  | _ => exact other (by simp [Ics.type,MADT_TYPE_LAPIC])

theorem ioapicIcs_agrees (id : Nat) (s : Unit) (ptr : Nat) (e : Ics) (wellFormed : e.WellFormed)
    (spelled : Spells m ptr e.bytes) : (ioapicIcs m madt id s e.type.toNat ptr).result =
      .ok (search (Ics.ioapicAddr id) s e) := by
  have other (different : e.type.toNat ≠ MADT_TYPE_IOAPIC) :
      (ioapicIcs m madt id s e.type.toNat ptr).result = .ok (.inr ()) := by rw [ioapicIcs,if_neg different]; rfl
  cases e with
  | ioapic ioapic_id reserved addr gsi_base more =>
    obtain ⟨readId,readAddr⟩ := ioapic_read spelled
    have isIoapic : (Ics.ioapic ioapic_id reserved addr gsi_base more).type.toNat = MADT_TYPE_IOAPIC := rfl
    rw [ioapicIcs,if_pos isIoapic]
    simp only [read_bind_result,readId,search,Ics.ioapicAddr]
    by_cases same : ioapic_id.toNat = id
    · simp only [same,if_true,read_bind_result,readAddr]
      rfl
    · simp only [same,if_false]
      rfl
  | unknown type more => exact other (fun same => wellFormed.2 (by simp [← same,Ics.type]))
  | _ => exact other (by simp [Ics.type,MADT_TYPE_IOAPIC])

theorem overrideIcs_agrees (s : Unit) (ptr : Nat) (e : Ics) (wellFormed : e.WellFormed)
    (spelled : Spells m ptr e.bytes) : (overrideIcs m madt s e.type.toNat ptr).result =
      .ok (search (fun e => e.overrideAddr.map some) s e) := by
  have other (different : e.type.toNat ≠ MADT_TYPE_LAPIC_OVERRIDE) :
      (overrideIcs m madt s e.type.toNat ptr).result = .ok (.inr ()) := by rw [overrideIcs,if_neg different]; rfl
  cases e with
  | lapic_override reserved addr more =>
    have isOverride : (Ics.lapic_override reserved addr more).type.toNat = MADT_TYPE_LAPIC_OVERRIDE := rfl
    rw [overrideIcs,if_pos isOverride]
    simp only [read_bind_result,override_read spelled]
    rfl
  | unknown type more => exact other (fun same => wellFormed.2 (by simp [← same,Ics.type]))
  | _ => exact other (by simp [Ics.type,MADT_TYPE_LAPIC_OVERRIDE])

/-- A walk over an encoded table from its first entry to its end. -/
theorem table_walk {State Result : Type} {visit : State → (type ptr : Nat) → Trace (Result ⊕ State)}
    {f : State → Ics → Result ⊕ State} (ended : State → Result)
    (agrees : ∀ s ptr e, e.WellFormed → Spells m ptr e.bytes → (visit s e.type.toNat ptr).result = .ok (f s e))
    {entries : List Ics} (wellFormed : ∀ e ∈ entries, e.WellFormed) (encodes : Encodes m madt entries) (s : State) :
    Returns (fun fuel => loop (icsBody m madt (madt + tableLength m madt) visit ended) fuel s (madt + sizeof_madt))
      (visitAll f ended s entries) :=
  ⟨_,walk_entries ended agrees wellFormed encodes.bytes (by rw [encodes.length,Nat.add_assoc]) s⟩

theorem count_small {entries : List Ics} (encodes : Encodes m madt entries) : entries.countP Ics.enabled < 2 ^ 32 := by
  have short : entries.length ≤ (entries.flatMap Ics.bytes).length := by
    clear encodes
    induction entries with
    | nil => exact Nat.le_refl _
    | cons e entries ih =>
      rw [List.flatMap_cons,List.length_append,length_bytes,List.length_cons]
      unfold Ics.length
      omega
  have fits : tableLength m madt < 256 ^ 4 := load_lt m (madt + 4) 4
  have some : entries.countP Ics.enabled ≤ entries.length := List.countP_le_length
  have total := encodes.length
  omega

end

/-- `madt_get_cpu_count` -/
def madt_get_cpu_count (g : Globals) : Nat := g.cpu_count

/-- One `madt_parse` from a fresh state counts the enabled processors of the list,
    and after it the getters find the first entry of the list that they look for. -/
theorem decoding_inverts_encoding {m : Memory} {madt : Nat} {entries : List Ics}
    (wellFormed : ∀ e ∈ entries, e.WellFormed) (encodes : Encodes m madt entries) : ∃ g,
      Returns (fun fuel => madt_parse m noTables madt fuel) g ∧ g.madt_table = madt ∧
      madt_get_cpu_count g = entries.countP Ics.enabled ∧
      (∀ u, Returns (fun fuel => madt_get_lapic_id m g u fuel) ((entries.findSome? (Ics.apicId u)).getD 0xFF)) ∧
      (∀ i, Returns (fun fuel => madt_get_ioapic_addr m g i fuel) ((entries.findSome? (Ics.ioapicAddr i)).getD 0)) ∧
      Returns (fun fuel => madt_get_lapic_base m g fuel)
        ((entries.findSome? Ics.overrideAddr).getD (load m (madt + 36) 4)) := by
  have counted := table_walk id (@parseIcs_agrees m madt) wellFormed encodes 0
  rw [visitAll_count entries (by decide),Nat.zero_add,Nat.mod_eq_of_lt (count_small encodes)] at counted
  refine ⟨⟨madt,entries.countP Ics.enabled,0⟩,returns_read.mpr (returns_map.mpr ⟨_,counted,rfl⟩),rfl,rfl,?_,?_,?_⟩
  · intro u
    rw [← visitAll_search]
    exact returns_read.mpr (table_walk (fun _ => 0xFF) (@lapicIcs_agrees m madt u) wellFormed encodes ())
  · intro i
    rw [← visitAll_search]
    exact returns_read.mpr (table_walk (fun _ => 0) (@ioapicIcs_agrees m madt i) wellFormed encodes ())
  · have found := table_walk (fun _ => none) (@overrideIcs_agrees m madt) wellFormed encodes ()
    rw [visitAll_search,← Function.comp_def,← List.map_findSome?] at found
    have later (found : Option Nat) : Growing (fun _ => orLapicAddr m madt found) := growing_const _
    refine returns_read.mpr ((returns_bind growing_override later).mpr ⟨_,found,returns_const.mpr ?_⟩)
    cases entries.findSome? Ics.overrideAddr with
    | none => rfl
    | some addr => rfl

/-- An unknown entry, a disabled and an enabled processor with one UID, an I/O APIC and an override. -/
def sampleEntries : List Ics :=
  [.unknown 9 [7,7,7],.lapic 3 5 0 [],.lapic 3 6 1 [0xAA],.ioapic 2 0 0xFEC00000 0 [],.lapic_override 0 0x100000001 []]

def sampleTable : Memory := fun a =>
  ([0x41,0x50,0x49,0x43] ++ littleEndian 4 90 ++ List.replicate 36 0 ++ sampleEntries.flatMap Ics.bytes).getD (a - 0x1000) 0

theorem decoding_inverts_encoding_five : ∃ g, Returns (fun fuel => madt_parse sampleTable noTables 0x1000 fuel) g ∧
    madt_get_cpu_count g = 1 ∧ Returns (fun fuel => madt_get_lapic_id sampleTable g 3 fuel) 6 ∧
    Returns (fun fuel => madt_get_ioapic_addr sampleTable g 0 fuel) 0 ∧
    Returns (fun fuel => madt_get_lapic_base sampleTable g fuel) 0x100000001 := by
  obtain ⟨g,parsed,_,count,ids,addrs,base⟩ := @decoding_inverts_encoding sampleTable 0x1000 sampleEntries (by decide)
    ⟨by decide +kernel,by decide +kernel⟩
  exact ⟨g,parsed,count,ids 3,addrs 0,base⟩

end NekoOs.MadtEncoding
