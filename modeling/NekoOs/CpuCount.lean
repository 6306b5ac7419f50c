import Mathlib.Algebra.Ring.Nat
import NekoOs.MadtEncoding

/-!
The number of processors after `acpi_parse_tables`. The count goes on from one
MADT to the next, while only the last of them is kept for the getters.
-/
namespace NekoOs.CpuCount
open ByteMemory Trace AcpiReads
open MadtEncoding (parseIcs_other madt_get_cpu_count Ics)
open Madt (tableLength icsType icsLength sizeof_madt MADT_TYPE_LAPIC)

/-- The entries from a place to the end of a table, at most as many as are asked for. -/
def entriesFrom (m : Memory) (stop : Nat) : (most ptr : Nat) → List Nat
  | 0, _ => []
  | most+1, ptr => if ptr < stop then ptr :: entriesFrom m stop most (nextIcs m ptr) else []

/-- The entries of a table. There are no more of them than bytes, if none has length 0. -/
def entriesOf (m : Memory) (madt : Nat) : List Nat :=
  entriesFrom m (madt + tableLength m madt) (tableLength m madt) (madt + sizeof_madt)

/-- An enabled local APIC entry. -/
def isEnabled (m : Memory) (ptr : Nat) : Bool := icsType m ptr = MADT_TYPE_LAPIC ∧ load m (ptr + 4) 4 % 2 = 1

/-- The number of enabled local APIC entries in a table. -/
def enabledCount (m : Memory) (madt : Nat) : Nat := (entriesOf m madt).countP (isEnabled m)

/-- The tables with the signature of a MADT, in their order. -/
def madtsFrom (m : Memory) (header entry_size : Nat) : (remaining i : Nat) → List Nat
  | 0, _ => []
  | remaining+1, i =>
    if signed m (pointer m header entry_size i) APIC 0 then
      pointer m header entry_size i :: madtsFrom m header entry_size remaining (i + 1)
    else madtsFrom m header entry_size remaining (i + 1)

/-- The MADTs of an RSDT or XSDT. A table may be among them several times. -/
def madts (m : Memory) (root : Root) : List Nat := madtsFrom m root.header root.entry_size (root.count m) 0

section
variable {m : Memory} {madt stop : Nat}

/-! ### One table -/

/-- The body of `madt_parse` counts an enabled entry. -/
theorem parseIcs_counts (cpu_count ptr : Nat) : (parseIcs m madt cpu_count (icsType m ptr) ptr).result =
    .ok (.inr (if isEnabled m ptr then (cpu_count + 1) % 2 ^ 32 else cpu_count)) := by
  by_cases isLapic : icsType m ptr = MADT_TYPE_LAPIC
  · rw [parseIcs,if_pos isLapic]
    simp only [read_bind_result,isEnabled,isLapic,true_and,decide_eq_true_eq]
    rfl
  · rw [parseIcs_other isLapic]
    simp [isEnabled,isLapic]

theorem body_counts {ptr : Nat} (inside : ptr < stop) (cpu_count : Nat) :
    (icsBody m madt stop (parseIcs m madt) id cpu_count ptr).result =
      .ok (.inr (if isEnabled m ptr then (cpu_count + 1) % 2 ^ 32 else cpu_count,nextIcs m ptr)) := by
  rw [icsBody,if_pos inside,read_bind_result,load_type,(bind_ok _ (parseIcs_counts cpu_count ptr)).2,read_bind_result,
    load_length]
  rfl

/-- A walk does not get past an entry of length 0. -/
theorem stuck {ptr : Nat} (inside : ptr < stop) (empty : icsLength m ptr = 0) (fuel cpu_count result : Nat) :
    (loop (icsBody m madt stop (parseIcs m madt) id) fuel cpu_count ptr).result ≠ .ok result := by
  induction fuel generalizing cpu_count with
  | zero =>
    intro ends
    cases ends
  | succ fuel ih =>
    have same : nextIcs m ptr = ptr := by rw [nextIcs,empty,Nat.add_zero]
    have goes := @body_counts m madt stop ptr inside cpu_count
    rw [same] at goes
    rw [(loop_go goes fuel).2]
    exact ih _

theorem loop_counts {fuel cpu_count result ptr most : Nat} (small : cpu_count < 2 ^ 32) (enough : stop ≤ ptr + most)
    (ends : (loop (icsBody m madt stop (parseIcs m madt) id) fuel cpu_count ptr).result = .ok result) :
    result = (cpu_count + (entriesFrom m stop most ptr).countP (isEnabled m)) % 2 ^ 32 := by
  induction fuel generalizing cpu_count ptr most with
  | zero => cases ends
  | succ fuel ih =>
    by_cases inside : ptr < stop
    · have moves : icsLength m ptr ≠ 0 := fun empty => stuck inside empty (fuel + 1) cpu_count result ends
      obtain ⟨most,rfl⟩ : ∃ k, most = k + 1 := ⟨most - 1,by omega⟩
      rw [(loop_go (body_counts inside cpu_count) fuel).2] at ends
      have bounded : (if isEnabled m ptr then (cpu_count + 1) % 2 ^ 32 else cpu_count) < 2 ^ 32 := by
        split
        · exact Nat.mod_lt _ (Nat.two_pow_pos 32)
        · exact small
      have later := @ih _ (nextIcs m ptr) most bounded (by unfold nextIcs; omega) ends
      rw [later,entriesFrom,if_pos inside,List.countP_cons]
      split
      · rw [Nat.mod_add_mod,Nat.add_assoc,Nat.add_comm 1]
      · rw [Nat.add_zero]
    · have none : entriesFrom m stop most ptr = [] := by
        cases most with
        | zero => rfl
        | succ most => exact if_neg inside
      have stops : (icsBody m madt stop (parseIcs m madt) id cpu_count ptr).result = .ok (.inl cpu_count) := by
        rw [icsBody,if_neg inside]
        rfl
      rw [(loop_stop stops fuel).2] at ends
      rw [none,← Outcome.ok_injective ends,List.countP_nil,Nat.add_zero,Nat.mod_eq_of_lt small]

/-- `madt_parse` adds the enabled entries of the table to `cpu_count`. -/
theorem madt_parse_counts {g g' : Globals} (small : g.cpu_count < 2 ^ 32)
    (returns : Returns (fun fuel => madt_parse m g madt fuel) g') :
    g'.cpu_count = (g.cpu_count + enabledCount m madt) % 2 ^ 32 := by
  obtain ⟨cpu_count,⟨fuel,ends⟩,rfl⟩ := returns_map.mp (returns_read.mp returns)
  refine loop_counts small ?_ ends
  show madt + load m (madt + 4) 4 ≤ _
  unfold tableLength
  omega

/-- No table has 2^32 entries. -/
theorem enabledCount_small (m : Memory) (madt : Nat) : enabledCount m madt < 2 ^ 32 := by
  have few (most ptr : Nat) : (entriesFrom m (madt + tableLength m madt) most ptr).length ≤ most := by
    induction most generalizing ptr with
    | zero => exact Nat.le_refl _
    | succ most ih =>
      rw [entriesFrom]
      split
      · exact Nat.succ_le_succ (ih _)
      · exact Nat.zero_le _
  have fits : tableLength m madt < 256 ^ 4 := load_lt m (madt + 4) 4
  have counted : enabledCount m madt ≤ (entriesOf m madt).length := List.countP_le_length
  have bound := few (tableLength m madt) (madt + sizeof_madt)
  unfold entriesOf at counted
  omega

/-! ### All tables -/

theorem parseTable_counts {g g' : Globals} {table : Nat} (small : g.cpu_count < 2 ^ 32)
    (returns : Returns (fun fuel => parseTable m g table fuel) g') : g'.cpu_count =
      if signed m table APIC 0 then (g.cpu_count + enabledCount m table) % 2 ^ 32 else g.cpu_count := by
  obtain ⟨g₁,parsed,rfl⟩ := parseTable_returns.mp returns
  have kept : (if signed m table HPET 0 then hpet_parse g₁ table else g₁).cpu_count = g₁.cpu_count := by
    split <;> rfl
  rw [kept]
  cases isMadt : signed m table APIC 0 with
  | true =>
    rw [isMadt] at parsed
    exact madt_parse_counts small parsed
  | false =>
    rw [isMadt] at parsed
    rw [← Outcome.ok_injective (returns_const.mp parsed)]
    rfl

variable {header entry_size : Nat}

/-- The count is that of all MADTs, and the table that is kept is the last of them. -/
theorem parseTables_counts {remaining i : Nat} {g g' : Globals} (small : g.cpu_count < 2 ^ 32)
    (returns : Returns (fun fuel => parseTables m header entry_size remaining i g fuel) g') :
    g'.cpu_count = (g.cpu_count + ((madtsFrom m header entry_size remaining i).map (enabledCount m)).sum) % 2 ^ 32 ∧
      g'.madt_table = (madtsFrom m header entry_size remaining i).getLastD g.madt_table := by
  induction remaining generalizing i g with
  | zero =>
    obtain rfl := Outcome.ok_injective (returns_const.mp returns)
    exact ⟨(Nat.mod_eq_of_lt small).symm,rfl⟩
  | succ remaining ih =>
    obtain ⟨g₁,first,later⟩ := (parseTables_succ remaining i g g').mp returns
    have counted := parseTable_counts small first
    have kept := (parseTable_tables first).1
    rw [madtsFrom]
    cases isMadt : signed m (pointer m header entry_size i) APIC 0 with
    | true =>
      rw [isMadt,if_pos rfl] at counted kept
      obtain ⟨count,table⟩ := ih (by rw [counted]; exact Nat.mod_lt _ (Nat.two_pow_pos 32)) later
      rw [if_pos rfl,List.map_cons,List.sum_cons,List.getLastD_cons]
      refine ⟨?_,kept ▸ table⟩
      rw [count,counted,Nat.mod_add_mod,Nat.add_assoc]
    | false =>
      rw [isMadt,if_neg (by decide)] at counted kept
      rw [if_neg (by decide),← counted,← kept]
      exact ih (by rw [counted]; exact small) later

end

/-- What `acpi_parse_tables` comes to at boot. -/
theorem acpi_counts {m : Memory} {root : Root} {g : Globals}
    (returns : Returns (fun fuel => acpi_parse_tables m noTables root.header root.entry_size fuel) g) :
    madt_get_cpu_count g = ((madts m root).map (enabledCount m)).sum % 2 ^ 32 ∧
      g.madt_table = (madts m root).getLastD 0 := by
  have parsed : Returns (fun fuel => parseTables m root.header root.entry_size (root.count m) 0 noTables fuel) g :=
    returns_read.mp returns
  have counted := parseTables_counts (Nat.two_pow_pos 32) parsed
  rw [noTables,Nat.zero_add] at counted
  unfold madts madt_get_cpu_count
  exact counted

/-- The count is that of the table in use exactly if the MADTs before it have no
    enabled entry, but for multiples of 2^32. -/
theorem count_agrees_iff {m : Memory} {root : Root} {g : Globals} (listed : madts m root ≠ [])
    (returns : Returns (fun fuel => acpi_parse_tables m noTables root.header root.entry_size fuel) g) :
    g.madt_table = (madts m root).getLast listed ∧
      (madt_get_cpu_count g = enabledCount m g.madt_table ↔
        ((madts m root).dropLast.map (enabledCount m)).sum % 2 ^ 32 = 0) := by
  obtain ⟨count,table⟩ := acpi_counts returns
  generalize madts m root = tables at *
  have last : g.madt_table = tables.getLast listed := by
    rw [table,List.getLastD_eq_getLast?,List.getLast?_eq_some_getLast listed,Option.getD_some]
  have split : (tables.map (enabledCount m)).sum =
      (tables.dropLast.map (enabledCount m)).sum + enabledCount m g.madt_table := by
    conv => lhs; rw [← List.dropLast_append_getLast listed,List.map_append,List.sum_append]
    rw [last,List.map_singleton,List.sum_singleton]
  have small := enabledCount_small m g.madt_table
  refine ⟨last,?_⟩
  rw [count,split]
  omega

/-- A MADT with one processor. -/
def madtBytes (uid apic_id : UInt8) (flags : UInt32) : List UInt8 :=
  [0x41,0x50,0x49,0x43] ++ littleEndian 4 52 ++ List.replicate 36 0 ++ (Ics.lapic uid apic_id flags []).bytes

/-- An RSDT at 0x1000 that lists a MADT at 0x2000, whose processor has the given flags, and one at 0x3000. -/
def listing (flags : UInt32) : Memory := fun a =>
  if a < 0x2000 then
    (List.replicate 4 0 ++ littleEndian 4 44 ++ List.replicate 28 0 ++ littleEndian 4 0x2000 ++
      littleEndian 4 0x3000).getD (a - 0x1000) 0
  else if a < 0x3000 then (madtBytes 0 0 flags).getD (a - 0x2000) 0
  else (madtBytes 1 1 1).getD (a - 0x3000) 0

deriving instance DecidableEq for Globals

/-- The processor of the first table is disabled. -/
theorem count_agrees_iff_two : ∃ g,
    Returns (fun fuel => acpi_parse_tables (listing 0) noTables 0x1000 4 fuel) g ∧ g.madt_table = 0x3000 ∧
      madt_get_cpu_count g = enabledCount (listing 0) g.madt_table := by
  have tables : madts (listing 0) ⟨0x1000,4⟩ = [0x2000,0x3000] := by decide +kernel
  have disabled : enabledCount (listing 0) 0x2000 = 0 := by decide +kernel
  have returns : Returns (fun fuel => acpi_parse_tables (listing 0) noTables 0x1000 4 fuel) ⟨0x3000,1,0⟩ :=
    ⟨2,by decide +kernel⟩
  have agrees := (@count_agrees_iff _ ⟨0x1000,4⟩ _ (by rw [tables]; exact List.cons_ne_nil _ _) returns).2
  refine ⟨_,returns,rfl,agrees.mpr ?_⟩
  simp [tables,disabled]

/-- Two MADTs with one processor each give two processors, and a last table with one. -/
theorem counts_add_up : ∃ g,
    Returns (fun fuel => acpi_parse_tables (listing 1) noTables 0x1000 4 fuel) g ∧
      g.madt_table = 0x3000 ∧ madt_get_cpu_count g = 2 ∧ enabledCount (listing 1) g.madt_table = 1 :=
  ⟨⟨0x3000,2,0⟩,⟨2,by decide +kernel⟩,rfl,rfl,by decide +kernel⟩

end NekoOs.CpuCount
