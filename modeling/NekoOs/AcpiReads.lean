import NekoOs.Confined
import NekoOs.MadtReads

/-!
What the code reads from the ACPI tables: `acpi_init` and `acpi_parse_tables`
follow the pointers of the RSDT or XSDT, `madt_parse` and its getters walk over
the MADT, and `hpet_init` takes an address from the HPET table.
-/
namespace NekoOs.AcpiReads
open ByteMemory Trace
open MadtReads (MADT_TYPE_IOAPIC MADT_TYPE_ISO MADT_TYPE_LAPIC_NMI MADT_TYPE_LAPIC_OVERRIDE)
open Madt (tableLength icsType icsLength sizeof_madt MADT_TYPE_LAPIC)

/-- `sizeof(acpi_sdt_header_t)` -/
def sizeof_sdt : Nat := 36

/-- The variables `madt_table` and `cpu_count` of `madt.c`, and `hpet_table` of `hpet.c`. -/
structure Globals where
  madt_table : Nat
  cpu_count : Nat
  hpet_table : Nat

/-- `while (str[len] && len < precision) len++;` of the directive `%.4s`. -/
def readText (m : Memory) (table : Nat) : (precision len : Nat) → Trace Unit
  | 0, len => do
    let _ ← read m table (table + len) 1
    pure ()
  | precision+1, len => do
    let c ← read m table (table + len) 1
    if c = 0 then pure () else readText m table precision (len + 1)

/-- `memcmp(table->signature, text, 4) == 0` -/
def memcmp (m : Memory) (table : Nat) : (text : List Nat) → (i : Nat) → Trace Bool
  | [], _ => pure true
  | c :: text, i => do
    let pa ← read m table (table + i) 1
    if pa = c then memcmp m table text (i + 1) else pure false

def APIC : List Nat := [65,80,73,67]
def HPET : List Nat := [72,80,69,84]

/-- `while (ptr < end) { ...; ptr += h->length; }` -/
def icsBody {State Result : Type} (m : Memory) (madt stop : Nat)
    (visit : State → (type ptr : Nat) → Trace (Result ⊕ State)) (ended : State → Result) (s : State) (ptr : Nat) :
    Trace (Result ⊕ State × Nat) :=
  if ptr < stop then do
    let type ← read m madt ptr 1
    match ← visit s type ptr with
    | .inl result => pure (.inl result)
    | .inr s => do
      let length ← read m madt (ptr + 1) 1
      pure (.inr (s,ptr + length))
  else pure (.inl (ended s))

/-- The `switch` over the type of an entry, with the fields that are logged. -/
def parseIcs (m : Memory) (madt : Nat) (cpu_count type ptr : Nat) : Trace (Nat ⊕ Nat) :=
  if type = MADT_TYPE_LAPIC then do
    let flags ← read m madt (ptr + 4) 4
    let _ ← read m madt (ptr + 2) 1
    let _ ← read m madt (ptr + 3) 1
    pure (.inr (if flags % 2 = 1 then (cpu_count + 1) % 2 ^ 32 else cpu_count))
  else if type = MADT_TYPE_IOAPIC then do
    let _ ← read m madt (ptr + 2) 1
    let _ ← read m madt (ptr + 4) 4
    let _ ← read m madt (ptr + 8) 4
    pure (.inr cpu_count)
  else if type = MADT_TYPE_ISO then do
    let _ ← read m madt (ptr + 3) 1
    let _ ← read m madt (ptr + 4) 4
    let _ ← read m madt (ptr + 8) 2
    pure (.inr cpu_count)
  else if type = MADT_TYPE_LAPIC_NMI then do
    let _ ← read m madt (ptr + 2) 1
    let _ ← read m madt (ptr + 5) 1
    pure (.inr cpu_count)
  else pure (.inr cpu_count)

def madt_parse (m : Memory) (g : Globals) (madt fuel : Nat) : Trace Globals := do
  let length ← read m madt (madt + 4) 4
  let cpu_count ← loop (icsBody m madt (madt + length) (parseIcs m madt) id) fuel g.cpu_count (madt + sizeof_madt)
  pure { g with madt_table := madt, cpu_count := cpu_count }

def overrideIcs (m : Memory) (madt : Nat) (_ : Unit) (type ptr : Nat) : Trace (Option Nat ⊕ Unit) :=
  if type = MADT_TYPE_LAPIC_OVERRIDE then do
    let addr ← read m madt (ptr + 4) 8
    pure (.inl (some addr))
  else pure (.inr ())

/-- The address that was found, or else `madt_table->lapic_addr`. -/
def orLapicAddr (m : Memory) (madt : Nat) : Option Nat → Trace Nat
  | some addr => pure addr
  | none => read m madt (madt + 36) 4

def madt_get_lapic_base (m : Memory) (g : Globals) (fuel : Nat) : Trace Nat := do
  let length ← read m g.madt_table (g.madt_table + 4) 4
  let found ← loop (icsBody m g.madt_table (g.madt_table + length) (overrideIcs m g.madt_table) (fun _ => none)) fuel ()
    (g.madt_table + sizeof_madt)
  orLapicAddr m g.madt_table found

/-- The flags are read only of an entry with the UID. -/
def lapicIcs (m : Memory) (madt cpu_id : Nat) (_ : Unit) (type ptr : Nat) : Trace (Nat ⊕ Unit) :=
  if type = MADT_TYPE_LAPIC then do
    let acpi_processor_uid ← read m madt (ptr + 2) 1
    if acpi_processor_uid = cpu_id then do
      let flags ← read m madt (ptr + 4) 4
      if flags % 2 = 1 then do
        let apic_id ← read m madt (ptr + 3) 1
        pure (.inl apic_id)
      else pure (.inr ())
    else pure (.inr ())
  else pure (.inr ())

def madt_get_lapic_id (m : Memory) (g : Globals) (cpu_id fuel : Nat) : Trace Nat := do
  let length ← read m g.madt_table (g.madt_table + 4) 4
  loop (icsBody m g.madt_table (g.madt_table + length) (lapicIcs m g.madt_table cpu_id) (fun _ => 0xFF)) fuel ()
    (g.madt_table + sizeof_madt)

def ioapicIcs (m : Memory) (madt id : Nat) (_ : Unit) (type ptr : Nat) : Trace (Nat ⊕ Unit) :=
  if type = MADT_TYPE_IOAPIC then do
    let ioapic_id ← read m madt (ptr + 2) 1
    if ioapic_id = id then do
      let ioapic_addr ← read m madt (ptr + 4) 4
      pure (.inl ioapic_addr)
    else pure (.inr ())
  else pure (.inr ())

def madt_get_ioapic_addr (m : Memory) (g : Globals) (ioapic_id fuel : Nat) : Trace Nat := do
  let length ← read m g.madt_table (g.madt_table + 4) 4
  loop (icsBody m g.madt_table (g.madt_table + length) (ioapicIcs m g.madt_table ioapic_id) (fun _ => 0)) fuel ()
    (g.madt_table + sizeof_madt)

def hpet_parse (g : Globals) (hpet : Nat) : Globals := { g with hpet_table := hpet }

/-- `hpet_table->address.address`, the only field of the table that is used. -/
def hpet_init (m : Memory) (g : Globals) : Trace Nat :=
  if g.hpet_table = 0 then kpanic "HPET table not found" else read m g.hpet_table (g.hpet_table + 44) 8

/-- `if (...) madt_parse((madt_t*)table);` -/
def parseIf (m : Memory) (isMadt : Bool) (g : Globals) (table fuel : Nat) : Trace Globals :=
  if isMadt then madt_parse m g table fuel else pure g

/-- The body of the loop in `acpi_parse_tables`. -/
def parseTable (m : Memory) (g : Globals) (table fuel : Nat) : Trace Globals := do
  readText m table 4 0
  let isMadt ← memcmp m table APIC 0
  let g ← parseIf m isMadt g table fuel
  let isHpet ← memcmp m table HPET 0
  pure (if isHpet then hpet_parse g table else g)

/-- `for (uint32_t i = 0; i < count; i++)`; the offset of an entry is a `uint32_t` too. -/
def parseTables (m : Memory) (header entry_size : Nat) : (remaining i : Nat) → Globals → (fuel : Nat) → Trace Globals
  | 0, _, g, _ => pure g
  | remaining+1, i, g, fuel => do
    let table ← read m header (header + sizeof_sdt + i * entry_size % 2 ^ 32) entry_size
    let g ← parseTable m g table fuel
    parseTables m header entry_size remaining (i + 1) g fuel

/-- `(header->length - sizeof(acpi_sdt_header_t)) / entry_size` -/
def tableCount (length entry_size : Nat) : Nat := (length + 2 ^ 64 - sizeof_sdt) % 2 ^ 64 / entry_size % 2 ^ 32

def acpi_parse_tables (m : Memory) (g : Globals) (header entry_size fuel : Nat) : Trace Globals := do
  let length ← read m header (header + 4) 4
  parseTables m header entry_size (tableCount length entry_size) 0 g fuel

def acpi_init (m : Memory) (g : Globals) (rsdp : Option Nat) (fuel : Nat) : Trace Globals :=
  match rsdp with
  | none => kpanic "Failed to find ACPI RSDP"
  | some rsdp => do
    let revision ← read m rsdp (rsdp + 15) 1
    if 2 ≤ revision then do
      let xsdt_address ← read m rsdp (rsdp + 24) 8
      if xsdt_address = 0 then kpanic "ACPI 2.0 RSDP has no XSDT address"
      else acpi_parse_tables m g xsdt_address 8 fuel
    else do
      let rsdt_address ← read m rsdp (rsdp + 16) 4
      if rsdt_address = 0 then kpanic "ACPI 1.0 RSDP has no RSDT address"
      else acpi_parse_tables m g rsdt_address 4 fuel

theorem load_type {m : Memory} (ptr : Nat) : load m ptr 1 = icsType m ptr := MadtReads.load_byte m ptr
theorem load_length {m : Memory} (ptr : Nat) : load m (ptr + 1) 1 = icsLength m ptr := MadtReads.load_byte m (ptr + 1)

/-! ### The walks with the limit of the table -/

section
variable {m : Memory} {madt stop : Nat} {State State' Result Result' : Type} {states : State → State' → Prop}
  {results : Result → Result' → Prop} {visit : State → (type ptr : Nat) → Access (Result ⊕ State)}
  {visit' : State' → (type ptr : Nat) → Trace (Result' ⊕ State')} {ended : State → Result} {ended' : State' → Result'}

/-- A walk with the limit agrees with the recorded one if their visits do. -/
theorem walk_confined (each : ∀ s s' ptr, states s s' → Confined stop (Sum.LiftRel results states)
      (visit s (icsType m ptr) ptr) (visit' s' (icsType m ptr) ptr))
    (last : ∀ s s', states s s' → results (ended s) (ended' s')) (fuel : Nat) {s : State} {s' : State'}
    (start : states s s') (ptr : Nat) :
    Confined stop results (Access.loop (MadtReads.icsBody stop m visit ended) fuel s ptr)
      (loop (icsBody m madt stop visit' ended') fuel s' ptr) := by
  refine Confined.loop (fun s s' ptr same => ?_) fuel start ptr
  rw [MadtReads.icsBody,Access.record,icsBody]
  by_cases inside : ptr < stop
  · rw [if_pos inside,if_pos inside,Access.bind_assoc]
    refine .read_bind ?_
    rw [load_type,Access.bind_done]
    refine (each s s' ptr same).bind (fun left left' agree => ?_)
    cases agree with
    | inl agree => exact .pure (.inl agree)
    | inr agree =>
      dsimp only
      rw [Access.bind_assoc]
      refine .read_bind (.pure ?_)
      exact Sum.LiftRel.inr ⟨agree,rfl⟩
  · rw [if_neg inside,if_neg inside]
    exact .pure (.inl (last s s' same))

end

section
variable {m : Memory} {madt stop : Nat}

theorem parseIcs_confined (cpu_count type ptr : Nat) : Confined stop (fun parsed counted => counted = .inr parsed.1)
    (MadtReads.parseIcs stop m cpu_count type ptr) (parseIcs m madt cpu_count type ptr) := by
  unfold MadtReads.parseIcs parseIcs
  by_cases lapic : type = MADT_TYPE_LAPIC
  · rw [if_pos lapic,if_pos lapic]
    exact .read_bind (.read_bind (.read_bind (.pure rfl)))
  rw [if_neg lapic,if_neg lapic]
  by_cases ioapic : type = MADT_TYPE_IOAPIC
  · rw [if_pos ioapic,if_pos ioapic]
    exact .read_bind (.read_bind (.read_bind (.pure rfl)))
  rw [if_neg ioapic,if_neg ioapic]
  by_cases iso : type = MADT_TYPE_ISO
  · rw [if_pos iso,if_pos iso]
    exact .read_bind (.read_bind (.read_bind (.pure rfl)))
  rw [if_neg iso,if_neg iso]
  by_cases nmi : type = MADT_TYPE_LAPIC_NMI
  · rw [if_pos nmi,if_pos nmi]
    exact .read_bind (.read_bind (.pure rfl))
  · rw [if_neg nmi,if_neg nmi]
    exact .pure rfl

theorem overrideIcs_confined (s : Unit) (type ptr : Nat) : Confined stop (Sum.LiftRel (· = ·) (· = ·))
    (MadtReads.overrideIcs stop m s type ptr) (overrideIcs m madt s type ptr) := by
  unfold MadtReads.overrideIcs overrideIcs
  split
  · exact .read_bind (.pure (.inl rfl))
  · exact .pure (.inr rfl)

theorem lapicIcs_confined (cpu_id : Nat) (s : Unit) (type ptr : Nat) : Confined stop (Sum.LiftRel (· = ·) (· = ·))
    (MadtReads.lapicIcs stop m cpu_id s type ptr) (lapicIcs m madt cpu_id s type ptr) := by
  unfold MadtReads.lapicIcs lapicIcs
  split
  · refine .read_bind ?_
    split
    · refine .read_bind ?_
      split
      · exact .read_bind (.pure (.inl rfl))
      · exact .pure (.inr rfl)
    · exact .pure (.inr rfl)
  · exact .pure (.inr rfl)

theorem ioapicIcs_confined (id : Nat) (s : Unit) (type ptr : Nat) : Confined stop (Sum.LiftRel (· = ·) (· = ·))
    (MadtReads.ioapicIcs stop m id s type ptr) (ioapicIcs m madt id s type ptr) := by
  unfold MadtReads.ioapicIcs ioapicIcs
  split
  · refine .read_bind ?_
    split
    · exact .read_bind (.pure (.inl rfl))
    · exact .pure (.inr rfl)
  · exact .pure (.inr rfl)

/-- The count of one walk is that of the other, which keeps no lines. -/
def Counted (s : Nat × List MadtReads.Line) (cpu_count : Nat) : Prop := cpu_count = s.1

/-- The four functions with the limit of the table do what the recorded ones do as long as those read nothing
    beyond it. -/
theorem madt_parse_confined (g : Globals) (fuel : Nat) :
    Confined (MadtReads.tableEnd m madt) (fun parsed g' => g' = { g with madt_table := madt, cpu_count := parsed.1 })
      (MadtReads.madt_parse m g.cpu_count madt fuel) (madt_parse m g madt fuel) := by
  have each (s : Nat × List MadtReads.Line) (cpu_count ptr : Nat) (same : Counted s cpu_count) :
      Confined (madt + tableLength m madt) (Sum.LiftRel Counted Counted)
        (MadtReads.parseIcs (madt + tableLength m madt) m s.1 (icsType m ptr) ptr >>= fun parsed =>
          .done (.inr (parsed.1,s.2 ++ parsed.2)))
        (parseIcs m madt cpu_count (icsType m ptr) ptr) := by
    obtain rfl : cpu_count = s.1 := same
    refine (parseIcs_confined s.1 _ ptr).map ?_
    rintro parsed _ rfl
    exact .inr rfl
  have last (s : Nat × List MadtReads.Line) (cpu_count : Nat) (same : Counted s cpu_count) : Counted (id s) (id cpu_count) :=
    same
  refine .read_bind ((walk_confined each last fuel rfl _).map_traced (fun parsed cpu_count same => ?_))
  obtain rfl : cpu_count = parsed.1 := same
  rfl

theorem madt_get_lapic_base_confined (g : Globals) (fuel : Nat) :
    Confined (MadtReads.tableEnd m g.madt_table) (· = ·)
      (MadtReads.madt_get_lapic_base m g.madt_table fuel) (madt_get_lapic_base m g fuel) := by
  refine .read_bind (.bind (walk_confined (fun s _ ptr same => same ▸ overrideIcs_confined s _ ptr) (fun _ _ _ => rfl) fuel rfl _) ?_)
  rintro found _ rfl
  cases found with
  | none => exact (Confined.read m _ _ 4).imp (fun _ _ both => both.1.trans both.2.symm)
  | some addr => exact .pure rfl

theorem madt_get_lapic_id_confined (g : Globals) (cpu_id fuel : Nat) :
    Confined (MadtReads.tableEnd m g.madt_table) (· = ·)
      (MadtReads.madt_get_lapic_id m g.madt_table cpu_id fuel) (madt_get_lapic_id m g cpu_id fuel) :=
  .read_bind (walk_confined (fun s _ ptr same => same ▸ lapicIcs_confined cpu_id s _ ptr) (fun _ _ _ => rfl) fuel rfl _)

theorem madt_get_ioapic_addr_confined (g : Globals) (ioapic_id fuel : Nat) :
    Confined (MadtReads.tableEnd m g.madt_table) (· = ·)
      (MadtReads.madt_get_ioapic_addr m g.madt_table ioapic_id fuel) (madt_get_ioapic_addr m g ioapic_id fuel) :=
  .read_bind (walk_confined (fun s _ ptr same => same ▸ ioapicIcs_confined ioapic_id s _ ptr) (fun _ _ _ => rfl) fuel rfl _)

/-- A walk ends with enough iterations and reads nothing beyond a limit. -/
def Keeps {α : Type} (stop : Nat) (code : Nat → Trace α) : Prop :=
  ∃ fuel, (∃ value, (code fuel).result = .ok value) ∧ (code fuel).Below stop

theorem keeps_iff {α β : Type} {stop : Nat} {related : α → β → Prop} {code : Nat → Access α} {traced : Nat → Trace β}
    (confined : ∀ fuel, Confined stop related (code fuel) (traced fuel)) :
    Keeps stop traced ↔ ∃ fuel, Access.Safe (code fuel) := exists_congr (fun fuel => (confined fuel).safe.symm)

/-- A recorded walk ends and keeps to the table exactly on the tables where the one with the limit is safe. -/
theorem madt_walks_below (g : Globals) (wide : 44 ≤ tableLength m g.madt_table) (cpu_id ioapic_id : Nat) :
    (Keeps (MadtReads.tableEnd m g.madt_table) (madt_parse m g g.madt_table) ↔ MadtReads.IcsChain m g.madt_table (fun _ => False)
      (MadtReads.ParseFields (MadtReads.tableEnd m g.madt_table) m)) ∧
    (Keeps (MadtReads.tableEnd m g.madt_table) (madt_get_lapic_base m g) ↔ MadtReads.IcsChain m g.madt_table
      (fun ptr => icsType m ptr = MADT_TYPE_LAPIC_OVERRIDE ∧ ptr + 12 ≤ MadtReads.tableEnd m g.madt_table)
      (fun ptr => icsType m ptr ≠ MADT_TYPE_LAPIC_OVERRIDE)) ∧
    (Keeps (MadtReads.tableEnd m g.madt_table) (madt_get_lapic_id m g cpu_id) ↔ MadtReads.IcsChain m g.madt_table
      (MadtReads.IsLapic (MadtReads.tableEnd m g.madt_table) m cpu_id)
      (MadtReads.OtherLapic (MadtReads.tableEnd m g.madt_table) m cpu_id)) ∧
    (Keeps (MadtReads.tableEnd m g.madt_table) (madt_get_ioapic_addr m g ioapic_id) ↔ MadtReads.IcsChain m g.madt_table
      (MadtReads.IsIoapic (MadtReads.tableEnd m g.madt_table) m ioapic_id)
      (MadtReads.OtherIoapic (MadtReads.tableEnd m g.madt_table) m ioapic_id)) :=
  ⟨(keeps_iff (madt_parse_confined g)).trans (MadtReads.madt_parse_safe wide g.cpu_count),
    (keeps_iff (madt_get_lapic_base_confined g)).trans (MadtReads.madt_get_lapic_base_safe wide),
    (keeps_iff (madt_get_lapic_id_confined g cpu_id)).trans (MadtReads.madt_get_lapic_id_safe wide cpu_id),
    (keeps_iff (madt_get_ioapic_addr_confined g ioapic_id)).trans (MadtReads.madt_get_ioapic_addr_safe wide ioapic_id)⟩

end

/-! ### The entries of the MADT -/

section
variable {m : Memory} {madt stop : Nat} {r : Read}

def nextIcs (m : Memory) (ptr : Nat) : Nat := ptr + icsLength m ptr

/-- What is read of an entry: its type, the fields that a visit looks at, and its
    length unless the visit leaves. -/
def IcsSeen (madt stop : Nat) (leaves : Nat → Prop) (fields : Nat → Read → Prop) (ptr : Nat) (r : Read) : Prop :=
  ptr < stop ∧ (r = ⟨madt,ptr,1⟩ ∨ fields ptr r ∨ ¬leaves ptr ∧ r = ⟨madt,ptr + 1,1⟩)

theorem ics_walks {State Result : Type} {visit : State → (type ptr : Nat) → Trace (Result ⊕ State)}
    {ended : State → Result} {leaves : Nat → Prop} {fields : Nat → Read → Prop}
    (go : ∀ s ptr, ¬leaves ptr → ∃ s', (visit s (icsType m ptr) ptr).result = .ok (.inr s'))
    (leave : ∀ s ptr, leaves ptr → ∃ result, (visit s (icsType m ptr) ptr).result = .ok (.inl result))
    (reads : ∀ s ptr r, r ∈ (visit s (icsType m ptr) ptr).reads ↔ fields ptr r) :
    Walks (icsBody m madt stop visit ended) (fun ptr => ptr < stop ∧ ¬leaves ptr) (nextIcs m)
      (IcsSeen madt stop leaves fields) := by
  refine ⟨?_,?_,?_⟩
  · rintro s ptr ⟨inside,stays⟩
    obtain ⟨s',visited⟩ := go s ptr stays
    refine ⟨s',?_⟩
    rw [icsBody,if_pos inside,read_bind_result,load_type,(bind_ok _ visited).2,read_bind_result,load_length]
    rfl
  · intro s ptr ends
    by_cases inside : ptr < stop
    · obtain ⟨result,visited⟩ := leave s ptr (not_not.mp (fun stays => ends ⟨inside,stays⟩))
      refine ⟨result,?_⟩
      rw [icsBody,if_pos inside,read_bind_result,load_type,(bind_ok _ visited).2]
      rfl
    · exact ⟨ended s,by rw [icsBody,if_neg inside]; rfl⟩
  · intro s ptr r
    unfold IcsSeen
    by_cases inside : ptr < stop
    · rw [icsBody,if_pos inside,read_bind_reads,load_type,List.mem_cons,← reads s ptr r]
      by_cases stays : leaves ptr
      · obtain ⟨result,visited⟩ := leave s ptr stays
        rw [(bind_ok _ visited).1]
        simp [inside,stays]
      · obtain ⟨s',visited⟩ := go s ptr stays
        rw [(bind_ok _ visited).1]
        simp [inside,stays]
    · rw [icsBody,if_neg inside]
      simp [inside]

/-- A visit that never fails leaves or goes on, and reads what it reads. -/
theorem total_walks {Result : Type} {visit : Unit → (type ptr : Nat) → Trace (Result ⊕ Unit)} {ended : Unit → Result}
    (total : ∀ ptr, ∃ step, (visit () (icsType m ptr) ptr).result = .ok step) :
    Walks (icsBody m madt stop visit ended)
      (fun ptr => ptr < stop ∧ ¬∃ result, (visit () (icsType m ptr) ptr).result = .ok (.inl result)) (nextIcs m)
      (IcsSeen madt stop (fun ptr => ∃ result, (visit () (icsType m ptr) ptr).result = .ok (.inl result))
        (fun ptr r => r ∈ (visit () (icsType m ptr) ptr).reads)) := by
  refine ics_walks (fun _ ptr stays => ?_) (fun _ _ leaves => leaves) (fun _ _ _ => .rfl)
  obtain ⟨step,visited⟩ := total ptr
  cases step with
  | inl result => exact absurd ⟨result,visited⟩ stays
  | inr s => exact ⟨s,visited⟩

/-- The fields of an entry that `madt_parse` logs, by offset and width. -/
def icsFields (type : Nat) : List (Nat × Nat) :=
  if type = MADT_TYPE_LAPIC then [(4,4),(2,1),(3,1)]
  else if type = MADT_TYPE_IOAPIC then [(2,1),(4,4),(8,4)]
  else if type = MADT_TYPE_ISO then [(3,1),(4,4),(8,2)]
  else if type = MADT_TYPE_LAPIC_NMI then [(2,1),(5,1)]
  else []

theorem parseIcs_spec (cpu_count type ptr : Nat) :
    (∃ cpu_count', (parseIcs m madt cpu_count type ptr).result = .ok (.inr cpu_count')) ∧
      (parseIcs m madt cpu_count type ptr).reads = (icsFields type).map (fun f => ⟨madt,ptr + f.1,f.2⟩) := by
  unfold parseIcs icsFields
  split
  · exact ⟨⟨_,rfl⟩,rfl⟩
  · split
    · exact ⟨⟨_,rfl⟩,rfl⟩
    · split
      · exact ⟨⟨_,rfl⟩,rfl⟩
      · split
        · exact ⟨⟨_,rfl⟩,rfl⟩
        · exact ⟨⟨_,rfl⟩,rfl⟩

/-- The entries that a walk over the whole table comes to. -/
def Entry (m : Memory) (madt ptr : Nat) : Prop :=
  Passes (fun ptr => ptr < madt + tableLength m madt) (nextIcs m) (madt + sizeof_madt) ptr

/-- The walk over the whole table ends. -/
def Ends (m : Memory) (madt : Nat) : Prop := ∃ ptr, Entry m madt ptr ∧ madt + tableLength m madt ≤ ptr

/-- What `madt_parse` reads: the length of the table, and the type, the length and
    the fields of its entries. -/
inductive MadtSeen (m : Memory) (madt : Nat) : Read → Prop
  | length : MadtSeen m madt ⟨madt,madt + 4,4⟩
  | entryType {ptr : Nat} : Entry m madt ptr → ptr < madt + tableLength m madt → MadtSeen m madt ⟨madt,ptr,1⟩
  | entryLength {ptr : Nat} : Entry m madt ptr → ptr < madt + tableLength m madt → MadtSeen m madt ⟨madt,ptr + 1,1⟩
  | field {ptr offset width : Nat} : Entry m madt ptr → ptr < madt + tableLength m madt →
      (offset,width) ∈ icsFields (icsType m ptr) → MadtSeen m madt ⟨madt,ptr + offset,width⟩

theorem parse_walks : Walks (icsBody m madt stop (parseIcs m madt) id) (fun ptr => ptr < stop ∧ ¬False) (nextIcs m)
    (IcsSeen madt stop (fun _ => False)
      (fun ptr r => r ∈ (icsFields (icsType m ptr)).map (fun f => (⟨madt,ptr + f.1,f.2⟩ : Read)))) := by
  refine ics_walks (fun s ptr _ => (parseIcs_spec s _ ptr).1) (fun _ _ leaves => leaves.elim) (fun s ptr r => ?_)
  rw [(parseIcs_spec s _ ptr).2]

theorem growing_madt_parse (g : Globals) : Growing (fun fuel => madt_parse m g madt fuel) :=
  growing_read (growing_map (growing_loop parse_walks _ _))

/-- The walk of `madt_parse` never leaves early. -/
theorem entry_iff {ptr : Nat} : Passes (fun ptr => ptr < madt + tableLength m madt ∧ ¬False) (nextIcs m)
    (madt + sizeof_madt) ptr ↔ Entry m madt ptr := by
  simp only [Entry,not_false_eq_true,and_true]

theorem reads_madt_parse (g : Globals) : Reads (fun fuel => madt_parse m g madt fuel) r ↔ MadtSeen m madt r := by
  refine reads_read.trans ((or_congr_right (reads_map.trans (reads_loop parse_walks _ _))).trans ?_)
  constructor
  · rintro (rfl | ⟨ptr,passes,inside,rfl | field | ⟨_,rfl⟩⟩)
    · exact .length
    · exact .entryType (entry_iff.mp passes) inside
    · obtain ⟨⟨offset,width⟩,member,rfl⟩ := List.mem_map.mp field
      exact .field (entry_iff.mp passes) inside member
    · exact .entryLength (entry_iff.mp passes) inside
  · intro seen
    cases seen with
    | length => exact .inl rfl
    | entryType entry inside => exact .inr ⟨_,entry_iff.mpr entry,inside,.inl rfl⟩
    | entryLength entry inside => exact .inr ⟨_,entry_iff.mpr entry,inside,.inr (.inr ⟨not_false,rfl⟩)⟩
    | field entry inside member =>
      exact .inr ⟨_,entry_iff.mpr entry,inside,.inr (.inl (List.mem_map.mpr ⟨_,member,rfl⟩))⟩

/-- It returns if its walk ends, and keeps the table. -/
theorem returns_madt_parse (g : Globals) : (∃ g', Returns (fun fuel => madt_parse m g madt fuel) g') ↔ Ends m madt := by
  have walked := returns_loop (@parse_walks m madt (madt + tableLength m madt)) g.cpu_count (madt + sizeof_madt)
  constructor
  · rintro ⟨g',returns⟩
    obtain ⟨cpu_count,looped,_⟩ := returns_map.mp (returns_read.mp returns)
    obtain ⟨ptr,passes,stops⟩ := walked.mp ⟨cpu_count,looped⟩
    exact ⟨ptr,entry_iff.mp passes,Nat.le_of_not_lt (fun inside => stops ⟨inside,not_false⟩)⟩
  · rintro ⟨ptr,entry,ended⟩
    obtain ⟨cpu_count,looped⟩ := walked.mpr ⟨ptr,entry_iff.mpr entry,fun goes => absurd goes.1 (by omega)⟩
    exact ⟨_,returns_read.mpr (returns_map.mpr ⟨cpu_count,looped,rfl⟩)⟩

theorem madt_parse_tables {g g' : Globals} (returns : Returns (fun fuel => madt_parse m g madt fuel) g') :
    g'.madt_table = madt ∧ g'.hpet_table = g.hpet_table := by
  obtain ⟨cpu_count,_,rfl⟩ := returns_map.mp (returns_read.mp returns)
  exact ⟨rfl,rfl⟩

/-! ### The getters -/

/-- A getter reads only what `madt_parse` has read if its visit does. -/
theorem reads_getter {Result : Type} {visit : Unit → (type ptr : Nat) → Trace (Result ⊕ Unit)} {ended : Unit → Result}
    (total : ∀ ptr, ∃ step, (visit () (icsType m ptr) ptr).result = .ok step)
    (fields : ∀ ptr, ptr < madt + tableLength m madt → ∀ r ∈ (visit () (icsType m ptr) ptr).reads,
      ∃ f ∈ icsFields (icsType m ptr), r = ⟨madt,ptr + f.1,f.2⟩)
    (seen : Reads (fun fuel => loop (icsBody m madt (madt + tableLength m madt) visit ended) fuel ()
      (madt + sizeof_madt)) r) : MadtSeen m madt r := by
  obtain ⟨ptr,passes,inside,found⟩ := (reads_loop (total_walks total) _ _).mp seen
  have entry : Entry m madt ptr := passes.mono (fun _ goes => goes.1)
  rcases found with rfl | field | ⟨_,rfl⟩
  · exact .entryType entry inside
  · obtain ⟨f,member,rfl⟩ := fields ptr inside r field
    exact .field entry inside member
  · exact .entryLength entry inside

theorem lapicIcs_total (cpu_id type ptr : Nat) : ∃ step, (lapicIcs m madt cpu_id () type ptr).result = .ok step := by
  unfold lapicIcs
  split
  · simp only [read_bind_result]
    split
    · simp only [read_bind_result]
      split <;> exact ⟨_,rfl⟩
    · exact ⟨_,rfl⟩
  · exact ⟨_,rfl⟩

theorem lapicIcs_fields (cpu_id type ptr : Nat) : ∀ r ∈ (lapicIcs m madt cpu_id () type ptr).reads,
    ∃ f ∈ icsFields type, r = ⟨madt,ptr + f.1,f.2⟩ := by
  unfold lapicIcs
  split
  next isLapic =>
    rw [isLapic,icsFields,if_pos rfl]
    simp only [read_bind_reads]
    split
    · simp only [read_bind_reads]
      split <;> simp
    · simp
  next => simp

theorem ioapicIcs_total (id type ptr : Nat) : ∃ step, (ioapicIcs m madt id () type ptr).result = .ok step := by
  unfold ioapicIcs
  split
  · simp only [read_bind_result]
    split <;> exact ⟨_,rfl⟩
  · exact ⟨_,rfl⟩

theorem ioapicIcs_fields (id type ptr : Nat) : ∀ r ∈ (ioapicIcs m madt id () type ptr).reads,
    ∃ f ∈ icsFields type, r = ⟨madt,ptr + f.1,f.2⟩ := by
  unfold ioapicIcs
  split
  next isIoapic =>
    rw [isIoapic,icsFields,if_neg (by decide),if_pos rfl]
    simp only [read_bind_reads]
    split <;> simp
  next => simp

theorem reads_lapic_id {g : Globals} {cpu_id : Nat} (seen : Reads (fun fuel => madt_get_lapic_id m g cpu_id fuel) r) :
    MadtSeen m g.madt_table r := by
  rcases reads_read.mp seen with rfl | walked
  · exact .length
  · exact reads_getter (fun ptr => lapicIcs_total cpu_id _ ptr) (fun ptr _ => lapicIcs_fields cpu_id _ ptr) walked

theorem reads_ioapic_addr {g : Globals} {ioapic_id : Nat}
    (seen : Reads (fun fuel => madt_get_ioapic_addr m g ioapic_id fuel) r) : MadtSeen m g.madt_table r := by
  rcases reads_read.mp seen with rfl | walked
  · exact .length
  · exact reads_getter (fun ptr => ioapicIcs_total ioapic_id _ ptr) (fun ptr _ => ioapicIcs_fields ioapic_id _ ptr) walked

/-- The entries up to the first override of the local APIC address. -/
def BeforeOverride (m : Memory) (madt ptr : Nat) : Prop :=
  Passes (fun ptr => ptr < madt + tableLength m madt ∧ icsType m ptr ≠ MADT_TYPE_LAPIC_OVERRIDE) (nextIcs m)
    (madt + sizeof_madt) ptr

/-- What `madt_get_lapic_base` reads that `madt_parse` does not. -/
inductive BaseSeen (m : Memory) (madt : Nat) : Read → Prop
  | override {ptr : Nat} : BeforeOverride m madt ptr → ptr < madt + tableLength m madt →
      icsType m ptr = MADT_TYPE_LAPIC_OVERRIDE → BaseSeen m madt ⟨madt,ptr + 4,8⟩
  | lapic_addr {ptr : Nat} : BeforeOverride m madt ptr → madt + tableLength m madt ≤ ptr →
      BaseSeen m madt ⟨madt,madt + 36,4⟩

theorem override_walks : Walks (icsBody m madt stop (overrideIcs m madt) (fun _ => none))
    (fun ptr => ptr < stop ∧ ¬icsType m ptr = MADT_TYPE_LAPIC_OVERRIDE) (nextIcs m)
    (IcsSeen madt stop (fun ptr => icsType m ptr = MADT_TYPE_LAPIC_OVERRIDE)
      (fun ptr r => icsType m ptr = MADT_TYPE_LAPIC_OVERRIDE ∧ r = ⟨madt,ptr + 4,8⟩)) := by
  refine ics_walks ?_ ?_ ?_
  · intro s ptr other
    exact ⟨(),by rw [overrideIcs,if_neg other]; rfl⟩
  · intro s ptr isOverride
    exact ⟨some (load m (ptr + 4) 8),by rw [overrideIcs,if_pos isOverride]; rfl⟩
  · intro s ptr r
    by_cases isOverride : icsType m ptr = MADT_TYPE_LAPIC_OVERRIDE
    · rw [overrideIcs,if_pos isOverride]
      simp [isOverride]
    · rw [overrideIcs,if_neg isOverride]
      simp [isOverride]

/-- The walk of `madt_get_lapic_base` finds nothing if it comes to the end of the table. -/
theorem override_absent : Returns (fun fuel => loop (icsBody m madt (madt + tableLength m madt) (overrideIcs m madt)
      (fun _ => none)) fuel () (madt + sizeof_madt)) none ↔
    ∃ ptr, BeforeOverride m madt ptr ∧ madt + tableLength m madt ≤ ptr := by
  constructor
  · intro returns
    obtain ⟨ptr,_,passes,stops,left⟩ := loop_result override_walks returns
    refine ⟨ptr,passes,Nat.le_of_not_lt (fun inside => ?_)⟩
    have isOverride := not_not.mp (fun other => stops ⟨inside,other⟩)
    rw [icsBody,if_pos inside,read_bind_result,load_type,overrideIcs,if_pos isOverride] at left
    exact absurd (Sum.inl.inj (Outcome.ok_injective left)) (by simp)
  · rintro ⟨ptr,before,ended⟩
    have stops : ¬(ptr < madt + tableLength m madt ∧ ¬icsType m ptr = MADT_TYPE_LAPIC_OVERRIDE) :=
      fun goes => absurd goes.1 (by omega)
    obtain ⟨result,returns⟩ := (returns_loop override_walks () (madt + sizeof_madt)).mpr ⟨ptr,before,stops⟩
    obtain ⟨ptr',_,before',stops',left⟩ := loop_result override_walks returns
    obtain rfl := passes_unique before stops before' stops'
    rw [icsBody,if_neg (by omega)] at left
    obtain rfl := Sum.inl.inj (Outcome.ok_injective left)
    exact returns

theorem growing_override : Growing (fun fuel => loop (icsBody m madt (madt + tableLength m madt) (overrideIcs m madt)
    (fun _ => none)) fuel () (madt + sizeof_madt)) := growing_loop override_walks _ _

theorem reads_lapic_base {g : Globals} : Reads (fun fuel => madt_get_lapic_base m g fuel) r ↔
    r = ⟨g.madt_table,g.madt_table + 4,4⟩ ∨ (∃ ptr, BeforeOverride m g.madt_table ptr ∧
      IcsSeen g.madt_table (g.madt_table + tableLength m g.madt_table) (fun ptr => icsType m ptr = MADT_TYPE_LAPIC_OVERRIDE)
        (fun ptr r => icsType m ptr = MADT_TYPE_LAPIC_OVERRIDE ∧ r = ⟨g.madt_table,ptr + 4,8⟩) ptr r) ∨
      (∃ ptr, BeforeOverride m g.madt_table ptr ∧ g.madt_table + tableLength m g.madt_table ≤ ptr) ∧
        r = ⟨g.madt_table,g.madt_table + 36,4⟩ := by
  refine reads_read.trans (or_congr_right ?_)
  have later (found : Option Nat) : Growing (fun _ => orLapicAddr m g.madt_table found) := growing_const _
  refine (reads_bind growing_override later).trans (or_congr (reads_loop override_walks _ _) ?_)
  rw [← override_absent]
  constructor
  · rintro ⟨found,returns,later⟩
    cases found with
    | some addr => exact absurd (reads_const.mp later) (by simp [orLapicAddr])
    | none => exact ⟨returns,List.mem_singleton.mp (reads_const.mp later)⟩
  · rintro ⟨returns,rfl⟩
    exact ⟨none,returns,reads_const.mpr (List.mem_singleton_self _)⟩

/-! ### The tables of the RSDT or XSDT -/

/-- The bytes of a table from the `i`-th on are those of a text. -/
def signed (m : Memory) (table : Nat) : (text : List Nat) → (i : Nat) → Bool
  | [], _ => true
  | c :: text, i => load m (table + i) 1 = c && signed m table text (i + 1)

/-- What is read of the signature to log it: up to the first zero byte, and at most five bytes. -/
def TextSeen (m : Memory) (table : Nat) (r : Read) : Prop :=
  ∃ i ≤ 4, (∀ j < i, load m (table + j) 1 ≠ 0) ∧ r = ⟨table,table + i,1⟩

variable {table : Nat}

theorem readText_reads (precision len : Nat) : r ∈ (readText m table precision len).reads ↔
    ∃ i, len ≤ i ∧ i ≤ len + precision ∧ (∀ j, len ≤ j → j < i → load m (table + j) 1 ≠ 0) ∧ r = ⟨table,table + i,1⟩ := by
  induction precision generalizing len with
  | zero =>
    simp only [readText,read_bind_reads,pure_reads,List.mem_singleton]
    constructor
    · rintro rfl
      exact ⟨len,Nat.le_refl _,Nat.le_refl _,fun j low high => absurd high (by omega),rfl⟩
    · rintro ⟨i,low,high,_,rfl⟩
      obtain rfl : i = len := by omega
      rfl
  | succ precision ih =>
    simp only [readText,read_bind_reads,List.mem_cons]
    by_cases zero : load m (table + len) 1 = 0
    · rw [if_pos zero,pure_reads]
      constructor
      · rintro (rfl | absent)
        · exact ⟨len,Nat.le_refl _,by omega,fun j low high => absurd high (by omega),rfl⟩
        · simp at absent
      · rintro ⟨i,low,_,nonzero,rfl⟩
        by_cases first : i = len
        · exact .inl (by rw [first])
        · exact absurd zero (nonzero len (Nat.le_refl _) (by omega))
    · rw [if_neg zero,ih (len + 1)]
      constructor
      · rintro (rfl | ⟨i,low,high,nonzero,rfl⟩)
        · exact ⟨len,Nat.le_refl _,by omega,fun j low high => absurd high (by omega),rfl⟩
        · refine ⟨i,by omega,by omega,fun j jLow jHigh => ?_,rfl⟩
          by_cases first : j = len
          · exact first ▸ zero
          · exact nonzero j (by omega) jHigh
      · rintro ⟨i,low,high,nonzero,rfl⟩
        by_cases first : i = len
        · exact .inl (by rw [first])
        · exact .inr ⟨i,by omega,by omega,fun j jLow jHigh => nonzero j (by omega) jHigh,rfl⟩

theorem readText_result (precision len : Nat) : (readText m table precision len).result = .ok () := by
  induction precision generalizing len with
  | zero => rfl
  | succ precision ih =>
    simp only [readText,read_bind_result]
    split
    · rfl
    · exact ih (len + 1)

theorem textSeen_iff : r ∈ (readText m table 4 0).reads ↔ TextSeen m table r := by
  rw [readText_reads]
  exact ⟨fun ⟨i,_,high,nonzero,same⟩ => ⟨i,by omega,fun j small => nonzero j (Nat.zero_le _) small,same⟩,
    fun ⟨i,high,nonzero,same⟩ => ⟨i,Nat.zero_le _,by omega,fun j _ small => nonzero j small,same⟩⟩

theorem memcmp_result (text : List Nat) (i : Nat) : (memcmp m table text i).result = .ok (signed m table text i) := by
  induction text generalizing i with
  | nil => rfl
  | cons c text ih =>
    simp only [memcmp,read_bind_result,signed]
    by_cases same : load m (table + i) 1 = c
    · simp [same,ih]
    · simp [same]

/-- A comparison with a text without zero bytes stops before the first zero byte or at it. -/
theorem memcmp_reads {text : List Nat} (printable : 0 ∉ text) (i : Nat) (seen : r ∈ (memcmp m table text i).reads) :
    ∃ k, i ≤ k ∧ k < i + text.length ∧ (∀ j, i ≤ j → j < k → load m (table + j) 1 ≠ 0) ∧ r = ⟨table,table + k,1⟩ := by
  induction text generalizing i with
  | nil => simp [memcmp] at seen
  | cons c text ih =>
    simp only [memcmp,read_bind_reads,List.mem_cons] at seen
    rw [List.length_cons]
    rcases seen with rfl | later
    · exact ⟨i,Nat.le_refl _,by omega,fun j low high => absurd high (by omega),rfl⟩
    · by_cases same : load m (table + i) 1 = c
      · rw [if_pos same] at later
        obtain ⟨k,low,high,nonzero,rfl⟩ := ih (fun absent => printable (List.mem_cons_of_mem _ absent)) (i + 1) later
        refine ⟨k,by omega,by omega,fun j jLow jHigh => ?_,rfl⟩
        by_cases first : j = i
        · rw [first,same]
          exact fun zero => printable (zero ▸ List.mem_cons_self)
        · exact nonzero j (by omega) jHigh
      · rw [if_neg same] at later
        simp at later

theorem memcmp_textSeen {text : List Nat} (printable : 0 ∉ text) (four : text.length = 4)
    (seen : r ∈ (memcmp m table text 0).reads) : TextSeen m table r := by
  obtain ⟨k,_,high,nonzero,same⟩ := memcmp_reads printable 0 seen
  exact ⟨k,by omega,fun j small => nonzero j (Nat.zero_le _) small,same⟩

/-- What the body of the loop in `acpi_parse_tables` reads of a table. -/
def TableSeen (m : Memory) (table : Nat) (r : Read) : Prop :=
  TextSeen m table r ∨ signed m table APIC 0 = true ∧ MadtSeen m table r

/-- The walk over the table ends, if it is a MADT. -/
def TableEnds (m : Memory) (table : Nat) : Prop := signed m table APIC 0 = true → Ends m table

theorem growing_parseIf (isMadt : Bool) (g : Globals) : Growing (fun fuel => parseIf m isMadt g table fuel) := by
  cases isMadt with
  | false => exact growing_const _
  | true => exact growing_madt_parse g

theorem reads_parseIf (isMadt : Bool) (g : Globals) :
    Reads (fun fuel => parseIf m isMadt g table fuel) r ↔ isMadt = true ∧ MadtSeen m table r := by
  cases isMadt with
  | false => exact ⟨fun seen => absurd (reads_const.mp seen) (by simp),fun seen => absurd seen.1 (by simp)⟩
  | true => exact (reads_madt_parse g).trans (by simp)

theorem returns_parseIf (isMadt : Bool) (g : Globals) :
    (∃ g', Returns (fun fuel => parseIf m isMadt g table fuel) g') ↔ (isMadt = true → Ends m table) := by
  cases isMadt with
  | false => exact ⟨fun _ impossible => absurd impossible (by simp),fun _ => ⟨g,returns_const.mpr rfl⟩⟩
  | true => exact (returns_madt_parse g).trans (by simp)

theorem parseIf_tables {isMadt : Bool} {g g' : Globals} (returns : Returns (fun fuel => parseIf m isMadt g table fuel) g') :
    g'.madt_table = (if isMadt then table else g.madt_table) ∧ g'.hpet_table = g.hpet_table := by
  cases isMadt with
  | false =>
    obtain rfl := Outcome.ok_injective (returns_const.mp returns)
    exact ⟨rfl,rfl⟩
  | true => exact madt_parse_tables returns

/-- The second `if` of the body. -/
theorem growing_rest (g : Globals) : Growing (fun _ => memcmp m table HPET 0 >>= fun isHpet =>
    pure (if isHpet then hpet_parse g table else g)) := growing_const _

theorem growing_parseTable (g : Globals) : Growing (fun fuel => parseTable m g table fuel) :=
  growing_known (readText_result 4 0) (growing_known (memcmp_result APIC 0)
    (growing_bind (growing_parseIf _ g) (fun g => growing_rest g)))

theorem reads_parseTable (g : Globals) : Reads (fun fuel => parseTable m g table fuel) r ↔ TableSeen m table r := by
  refine (reads_known (readText_result 4 0)).trans ((or_congr textSeen_iff ((reads_known (memcmp_result APIC 0)).trans
    (or_congr_right (reads_bind (growing_parseIf _ g) (fun g => growing_rest g))))).trans ?_)
  rw [reads_parseIf]
  constructor
  · rintro (text | compared | madt | ⟨g',_,compared⟩)
    · exact .inl text
    · exact .inl (memcmp_textSeen (by decide) rfl compared)
    · exact .inr madt
    · rcases mem_bind.mp (reads_const.mp compared) with before | ⟨_,_,after⟩
      · exact .inl (memcmp_textSeen (by decide) rfl before)
      · simp at after
  · rintro (text | madt)
    · exact .inl text
    · exact .inr (.inr (.inl madt))

/-- What the body returns. -/
theorem parseTable_returns {g g' : Globals} : Returns (fun fuel => parseTable m g table fuel) g' ↔
    ∃ g₁, Returns (fun fuel => parseIf m (signed m table APIC 0) g table fuel) g₁ ∧
      g' = if signed m table HPET 0 then hpet_parse g₁ table else g₁ := by
  refine (returns_known (readText_result 4 0)).trans ((returns_known (memcmp_result APIC 0)).trans
    ((returns_bind (growing_parseIf _ g) (fun g => growing_rest g)).trans (exists_congr (fun g₁ => and_congr_right ?_))))
  intro _
  rw [returns_const,(bind_ok _ (memcmp_result HPET 0)).2,pure_result,Outcome.ok.injEq,eq_comm]

theorem returns_parseTable (g : Globals) : (∃ g', Returns (fun fuel => parseTable m g table fuel) g') ↔
    TableEnds m table := by
  refine Iff.trans ?_ (returns_parseIf _ g)
  constructor
  · rintro ⟨g',returns⟩
    obtain ⟨g₁,parsed,_⟩ := parseTable_returns.mp returns
    exact ⟨g₁,parsed⟩
  · rintro ⟨g₁,parsed⟩
    exact ⟨_,parseTable_returns.mpr ⟨g₁,parsed,rfl⟩⟩

/-- A table becomes the last one of its signature. -/
theorem parseTable_tables {g g' : Globals} (returns : Returns (fun fuel => parseTable m g table fuel) g') :
    g'.madt_table = (if signed m table APIC 0 then table else g.madt_table) ∧
      g'.hpet_table = if signed m table HPET 0 then table else g.hpet_table := by
  obtain ⟨g₁,parsed,rfl⟩ := parseTable_returns.mp returns
  obtain ⟨madt,hpet⟩ := parseIf_tables parsed
  split
  · exact ⟨madt,rfl⟩
  · exact ⟨madt,hpet⟩

/-- The `i`-th pointer of the RSDT or XSDT. -/
def slot (header entry_size i : Nat) : Nat := header + sizeof_sdt + i * entry_size % 2 ^ 32
def pointer (m : Memory) (header entry_size i : Nat) : Nat := load m (slot header entry_size i) entry_size

/-- The last table with a signature, from a number on. -/
def lastSigned (m : Memory) (header entry_size : Nat) (text : List Nat) : (remaining i : Nat) → (found : Nat) → Nat
  | 0, _, found => found
  | remaining+1, i, found => lastSigned m header entry_size text remaining (i + 1)
      (if signed m (pointer m header entry_size i) text 0 then pointer m header entry_size i else found)

variable {header entry_size : Nat}

theorem growing_parseTables (remaining i : Nat) (g : Globals) :
    Growing (fun fuel => parseTables m header entry_size remaining i g fuel) := by
  induction remaining generalizing i g with
  | zero => exact growing_const _
  | succ remaining ih => exact growing_read (growing_bind (growing_parseTable g) (fun g => ih (i + 1) g))

theorem parseTables_reads (remaining i : Nat) (g : Globals) :
    Reads (fun fuel => parseTables m header entry_size remaining i g fuel) r ↔ ∃ k, i ≤ k ∧ k < i + remaining ∧
      (∀ j, i ≤ j → j < k → TableEnds m (pointer m header entry_size j)) ∧
      (r = ⟨header,slot header entry_size k,entry_size⟩ ∨ TableSeen m (pointer m header entry_size k) r) := by
  induction remaining generalizing i g with
  | zero => exact ⟨fun seen => absurd (reads_const.mp seen) (by simp),fun ⟨k,low,high,_⟩ => absurd high (by omega)⟩
  | succ remaining ih =>
    refine (reads_read.trans (or_congr_right (reads_bind (growing_parseTable g)
      (fun g => growing_parseTables remaining (i + 1) g)))).trans ?_
    simp only [ih]
    constructor
    · rintro (rfl | seen | ⟨g',returns,k,low,high,before,seen⟩)
      · exact ⟨i,Nat.le_refl _,by omega,fun j low high => absurd high (by omega),.inl rfl⟩
      · exact ⟨i,Nat.le_refl _,by omega,fun j low high => absurd high (by omega),.inr ((reads_parseTable g).mp seen)⟩
      · refine ⟨k,by omega,by omega,fun j jLow jHigh => ?_,seen⟩
        by_cases first : j = i
        · exact first ▸ (returns_parseTable g).mp ⟨g',returns⟩
        · exact before j (by omega) jHigh
    · rintro ⟨k,low,high,before,seen⟩
      by_cases first : k = i
      · subst first
        exact seen.imp_right (fun table => .inl ((reads_parseTable g).mpr table))
      · obtain ⟨g',returns⟩ := (returns_parseTable g).mpr (before i (Nat.le_refl _) (by omega))
        exact .inr (.inr ⟨g',returns,k,by omega,by omega,fun j jLow jHigh => before j (by omega) jHigh,seen⟩)

theorem parseTables_succ (remaining i : Nat) (g g' : Globals) :
    Returns (fun fuel => parseTables m header entry_size (remaining + 1) i g fuel) g' ↔
      ∃ g₁, Returns (fun fuel => parseTable m g (pointer m header entry_size i) fuel) g₁ ∧
        Returns (fun fuel => parseTables m header entry_size remaining (i + 1) g₁ fuel) g' :=
  returns_read.trans (returns_bind (growing_parseTable g) (fun g => growing_parseTables remaining (i + 1) g))

theorem parseTables_returns (remaining i : Nat) (g : Globals) :
    (∃ g', Returns (fun fuel => parseTables m header entry_size remaining i g fuel) g') ↔
      ∀ j, i ≤ j → j < i + remaining → TableEnds m (pointer m header entry_size j) := by
  induction remaining generalizing i g with
  | zero => exact ⟨fun _ j low high => absurd high (by omega),fun _ => ⟨g,returns_const.mpr rfl⟩⟩
  | succ remaining ih =>
    constructor
    · rintro ⟨g',returns⟩ j low high
      obtain ⟨g₁,first,later⟩ := (parseTables_succ remaining i g g').mp returns
      by_cases here : j = i
      · exact here ▸ (returns_parseTable g).mp ⟨g₁,first⟩
      · exact (ih (i + 1) g₁).mp ⟨g',later⟩ j (by omega) (by omega)
    · intro ends
      obtain ⟨g₁,first⟩ := (returns_parseTable g).mpr (ends i (Nat.le_refl _) (by omega))
      obtain ⟨g',later⟩ := (ih (i + 1) g₁).mpr (fun j low high => ends j (by omega) (by omega))
      exact ⟨g',(parseTables_succ remaining i g g').mpr ⟨g₁,first,later⟩⟩

theorem parseTables_tables {remaining i : Nat} {g g' : Globals}
    (returns : Returns (fun fuel => parseTables m header entry_size remaining i g fuel) g') :
    g'.madt_table = lastSigned m header entry_size APIC remaining i g.madt_table ∧
      g'.hpet_table = lastSigned m header entry_size HPET remaining i g.hpet_table := by
  induction remaining generalizing i g with
  | zero =>
    obtain rfl := Outcome.ok_injective (returns_const.mp returns)
    exact ⟨rfl,rfl⟩
  | succ remaining ih =>
    obtain ⟨g₁,first,later⟩ := (parseTables_succ remaining i g g').mp returns
    obtain ⟨madt,hpet⟩ := parseTable_tables first
    rw [lastSigned,lastSigned,← madt,← hpet]
    exact ih later

end

/-! ### The whole start-up -/

section
variable {m : Memory} {rsdp : Nat} {r : Read}

/-- The RSDT or XSDT that an RSDP points to, with the size of its pointers. -/
structure Root where
  header : Nat
  entry_size : Nat

/-- `rsdp->revision`, and the pointer of that revision. -/
def root (m : Memory) (rsdp : Nat) : Root :=
  if 2 ≤ load m (rsdp + 15) 1 then ⟨load m (rsdp + 24) 8,8⟩ else ⟨load m (rsdp + 16) 4,4⟩

def Root.count (root : Root) (m : Memory) : Nat := tableCount (tableLength m root.header) root.entry_size

def Root.table (root : Root) (m : Memory) (i : Nat) : Nat := pointer m root.header root.entry_size i

/-- All tables before one are walked over to their ends. -/
def Root.Reaches (root : Root) (m : Memory) (i : Nat) : Prop := ∀ j < i, TableEnds m (root.table m j)

def Root.last (root : Root) (m : Memory) (text : List Nat) : Nat :=
  lastSigned m root.header root.entry_size text (root.count m) 0 0

/-- What `acpi_init` reads of the RSDP. -/
def RsdpSeen (m : Memory) (rsdp : Nat) (r : Read) : Prop :=
  r = ⟨rsdp,rsdp + 15,1⟩ ∨ if 2 ≤ load m (rsdp + 15) 1 then r = ⟨rsdp,rsdp + 24,8⟩ else r = ⟨rsdp,rsdp + 16,4⟩

/-- What `acpi_parse_tables` reads. -/
def RootSeen (m : Memory) (root : Root) (r : Read) : Prop :=
  r = ⟨root.header,root.header + 4,4⟩ ∨ ∃ i < root.count m, root.Reaches m i ∧
    (r = ⟨root.header,slot root.header root.entry_size i,root.entry_size⟩ ∨ TableSeen m (root.table m i) r)

/-- No MADT and no HPET table. -/
def noTables : Globals := ⟨0,0,0⟩

theorem reads_acpi_parse_tables (root : Root) (g : Globals) :
    Reads (fun fuel => acpi_parse_tables m g root.header root.entry_size fuel) r ↔ RootSeen m root r := by
  refine reads_read.trans (or_congr_right ((parseTables_reads _ _ _).trans ?_))
  refine exists_congr (fun i => ?_)
  rw [Nat.zero_add]
  exact ⟨fun ⟨_,inside,before,seen⟩ => ⟨inside,fun j small => before j (Nat.zero_le _) small,seen⟩,
    fun ⟨inside,before,seen⟩ => ⟨Nat.zero_le _,inside,fun j _ small => before j small,seen⟩⟩

/-- The code goes on with the tables of the root unless there is none. -/
theorem acpi_init_eq (g : Globals) (fuel : Nat) : (acpi_init m g (some rsdp) fuel).reads =
    ⟨rsdp,rsdp + 15,1⟩ :: (if 2 ≤ load m (rsdp + 15) 1 then ⟨rsdp,rsdp + 24,8⟩ else ⟨rsdp,rsdp + 16,4⟩) ::
      (if (root m rsdp).header = 0 then [] else
        (acpi_parse_tables m g (root m rsdp).header (root m rsdp).entry_size fuel).reads) ∧
    ∀ g', (acpi_init m g (some rsdp) fuel).result = .ok g' ↔ (root m rsdp).header ≠ 0 ∧
      (acpi_parse_tables m g (root m rsdp).header (root m rsdp).entry_size fuel).result = .ok g' := by
  simp only [acpi_init,root,read_bind_reads,read_bind_result]
  split
  · simp only [read_bind_reads,read_bind_result]
    split
    next missing => simp [missing]
    next found => simp [found]
  · simp only [read_bind_reads,read_bind_result]
    split
    next missing => simp [missing]
    next found => simp [found]

/-- What is read between `acpi_init` and the end of the start-up of the processors:
    by `acpi_init`, and if it returns, by the getters of the MADT for any arguments
    and by `hpet_init`. -/
def StartupReads (m : Memory) (rsdp : Nat) (r : Read) : Prop :=
  Reads (fun fuel => acpi_init m noTables (some rsdp) fuel) r ∨
    ∃ g, Returns (fun fuel => acpi_init m noTables (some rsdp) fuel) g ∧
      (Reads (fun fuel => madt_get_lapic_base m g fuel) r ∨
        (∃ cpu_id, Reads (fun fuel => madt_get_lapic_id m g cpu_id fuel) r) ∨
        (∃ ioapic_id, Reads (fun fuel => madt_get_ioapic_addr m g ioapic_id fuel) r) ∨ r ∈ (hpet_init m g).reads)

/-- The MADT and the HPET table are among the tables of the root. -/
structure Listed (m : Memory) (root : Root) : Prop where
  madt : ∃ i < root.count m, signed m (root.table m i) APIC 0 = true
  hpet : ∃ i < root.count m, signed m (root.table m i) HPET 0 = true

/-- The same by the layout of the tables. -/
inductive Needed (m : Memory) (rsdp : Nat) : Read → Prop
  | rsdp {r : Read} : RsdpSeen m rsdp r → Needed m rsdp r
  | tables {r : Read} : (root m rsdp).header ≠ 0 → RootSeen m (root m rsdp) r → Needed m rsdp r
  | lapic_base {r : Read} : (root m rsdp).header ≠ 0 → (root m rsdp).Reaches m ((root m rsdp).count m) →
      BaseSeen m ((root m rsdp).last m APIC) r → Needed m rsdp r
  | hpet : (root m rsdp).header ≠ 0 → (root m rsdp).Reaches m ((root m rsdp).count m) →
      (root m rsdp).last m HPET ≠ 0 →
      Needed m rsdp ⟨(root m rsdp).last m HPET,(root m rsdp).last m HPET + 44,8⟩

theorem lastSigned_cases (header entry_size : Nat) (text : List Nat) (remaining i found : Nat) :
    (∃ j, i ≤ j ∧ j < i + remaining ∧ signed m (pointer m header entry_size j) text 0 = true ∧
        lastSigned m header entry_size text remaining i found = pointer m header entry_size j) ∨
      (∀ j, i ≤ j → j < i + remaining → signed m (pointer m header entry_size j) text 0 = false) ∧
        lastSigned m header entry_size text remaining i found = found := by
  induction remaining generalizing i found with
  | zero => exact .inr ⟨fun j low high => absurd high (by omega),rfl⟩
  | succ remaining ih =>
    rw [lastSigned]
    rcases ih (i + 1) (if signed m (pointer m header entry_size i) text 0 then pointer m header entry_size i else found)
      with ⟨j,low,high,isSigned,same⟩ | ⟨absent,same⟩
    · exact .inl ⟨j,by omega,by omega,isSigned,same⟩
    · cases here : signed m (pointer m header entry_size i) text 0 with
      | true => exact .inl ⟨i,Nat.le_refl _,by omega,here,by simpa [here] using same⟩
      | false =>
        refine .inr ⟨fun j low high => ?_,by simpa [here] using same⟩
        by_cases first : j = i
        · exact first ▸ here
        · exact absent j (by omega) (by omega)

/-- The last table of a signature is one of the root, if there is one. -/
theorem Root.last_listed {root : Root} {text : List Nat}
    (listed : ∃ i < root.count m, signed m (root.table m i) text 0 = true) :
    ∃ i < root.count m, signed m (root.table m i) text 0 = true ∧ root.last m text = root.table m i := by
  rcases lastSigned_cases root.header root.entry_size text (root.count m) 0 0 with ⟨i,_,inside,isSigned,same⟩ | ⟨absent,_⟩
  · exact ⟨i,by omega,isSigned,same⟩
  · obtain ⟨i,inside,isSigned⟩ := listed
    have unsigned : signed m (root.table m i) text 0 = false := absent i (Nat.zero_le _) (by omega)
    simp [isSigned] at unsigned

/-- `acpi_init` returns with the last tables if all MADTs are walked over to their ends. -/
theorem acpi_init_returns : (∃ g, Returns (fun fuel => acpi_init m noTables (some rsdp) fuel) g) ↔
    (root m rsdp).header ≠ 0 ∧ (root m rsdp).Reaches m ((root m rsdp).count m) := by
  have parsed : (∃ g, Returns (fun fuel => acpi_parse_tables m noTables (root m rsdp).header (root m rsdp).entry_size fuel) g) ↔
      (root m rsdp).Reaches m ((root m rsdp).count m) := by
    refine Iff.trans (exists_congr (fun _ => returns_read)) ((parseTables_returns _ _ _).trans ?_)
    rw [Nat.zero_add]
    exact ⟨fun ends j small => ends j (Nat.zero_le _) small,fun ends j _ small => ends j small⟩
  rw [← parsed]
  constructor
  · rintro ⟨g,fuel,returns⟩
    obtain ⟨present,later⟩ := ((acpi_init_eq noTables fuel).2 g).mp returns
    exact ⟨present,g,fuel,later⟩
  · rintro ⟨present,g,fuel,later⟩
    exact ⟨g,fuel,((acpi_init_eq noTables fuel).2 g).mpr ⟨present,later⟩⟩

theorem acpi_init_tables {g : Globals} (returns : Returns (fun fuel => acpi_init m noTables (some rsdp) fuel) g) :
    g.madt_table = (root m rsdp).last m APIC ∧ g.hpet_table = (root m rsdp).last m HPET := by
  obtain ⟨fuel,ends⟩ := returns
  have parsed : Returns (fun fuel => acpi_parse_tables m noTables (root m rsdp).header (root m rsdp).entry_size fuel) g :=
    ⟨fuel,(((acpi_init_eq noTables fuel).2 g).mp ends).2⟩
  exact parseTables_tables (returns_read.mp parsed)

theorem acpi_init_reads : Reads (fun fuel => acpi_init m noTables (some rsdp) fuel) r ↔
    RsdpSeen m rsdp r ∨ (root m rsdp).header ≠ 0 ∧ RootSeen m (root m rsdp) r := by
  rw [← reads_acpi_parse_tables (root m rsdp) noTables]
  have member (fuel : Nat) : r ∈ (acpi_init m noTables (some rsdp) fuel).reads ↔ RsdpSeen m rsdp r ∨
      (root m rsdp).header ≠ 0 ∧
        r ∈ (acpi_parse_tables m noTables (root m rsdp).header (root m rsdp).entry_size fuel).reads := by
    rw [(acpi_init_eq noTables fuel).1,RsdpSeen]
    split <;> by_cases missing : (root m rsdp).header = 0 <;> simp [missing,or_assoc]
  constructor
  · rintro ⟨fuel,seen⟩
    exact ((member fuel).mp seen).imp_right (fun ⟨present,later⟩ => ⟨present,fuel,later⟩)
  · rintro (before | ⟨present,fuel,later⟩)
    · exact ⟨0,(member 0).mpr (.inl before)⟩
    · exact ⟨fuel,(member fuel).mpr (.inr ⟨present,later⟩)⟩

/-- The getters and `hpet_init` read the last tables, and of the MADT only what
    `madt_parse` has read and the address of the local APIC. -/
theorem startup_reads_iff (listed : Listed m (root m rsdp)) : StartupReads m rsdp r ↔ Needed m rsdp r := by
  obtain ⟨i,inside,isMadt,same⟩ := Root.last_listed listed.madt
  constructor
  · rintro (seen | ⟨g,returns,seen⟩)
    · rcases acpi_init_reads.mp seen with before | ⟨present,later⟩
      · exact .rsdp before
      · exact .tables present later
    · obtain ⟨present,reaches⟩ := acpi_init_returns.mp ⟨g,returns⟩
      obtain ⟨madt,hpet⟩ := acpi_init_tables returns
      -- the last MADT is one of those that `madt_parse` has read
      have again (again : MadtSeen m g.madt_table r) : Needed m rsdp r := by
        rw [madt,same] at again
        exact .tables present (.inr ⟨i,inside,fun j small => reaches j (by omega),.inr (.inr ⟨isMadt,again⟩)⟩)
      rcases seen with base | ⟨cpu_id,seen⟩ | ⟨ioapic_id,seen⟩ | seen
      · rcases reads_lapic_base.mp base with rfl | ⟨ptr,before,within,rfl | ⟨isOverride,rfl⟩ | ⟨_,rfl⟩⟩ |
          ⟨⟨ptr,before,ended⟩,rfl⟩
        · exact again .length
        · exact again (.entryType (before.mono (fun _ goes => goes.1)) within)
        · rw [madt] at before within ⊢
          exact .lapic_base present reaches (.override before within isOverride)
        · exact again (.entryLength (before.mono (fun _ goes => goes.1)) within)
        · rw [madt] at before ended ⊢
          exact .lapic_base present reaches (.lapic_addr before ended)
      · exact again (reads_lapic_id seen)
      · exact again (reads_ioapic_addr seen)
      · rw [hpet_init] at seen
        split at seen
        · simp at seen
        next found =>
          rw [hpet] at seen found
          obtain rfl := List.mem_singleton.mp seen
          exact .hpet present reaches found
  · intro needed
    cases needed with
    | rsdp before => exact .inl (acpi_init_reads.mpr (.inl before))
    | tables present later => exact .inl (acpi_init_reads.mpr (.inr ⟨present,later⟩))
    | lapic_base present reaches seen =>
      obtain ⟨g,returns⟩ := acpi_init_returns.mpr ⟨present,reaches⟩
      refine .inr ⟨g,returns,.inl (reads_lapic_base.mpr ?_)⟩
      rw [(acpi_init_tables returns).1]
      cases seen with
      | override before within isOverride => exact .inr (.inl ⟨_,before,within,.inr (.inl ⟨isOverride,rfl⟩)⟩)
      | lapic_addr before ended => exact .inr (.inr ⟨⟨_,before,ended⟩,rfl⟩)
    | hpet present reaches found =>
      obtain ⟨g,returns⟩ := acpi_init_returns.mpr ⟨present,reaches⟩
      refine .inr ⟨g,returns,.inr (.inr (.inr ?_))⟩
      have hpet := (acpi_init_tables returns).2
      rw [hpet_init,if_neg (hpet ▸ found),hpet]
      exact List.mem_singleton_self _

end
end NekoOs.AcpiReads
