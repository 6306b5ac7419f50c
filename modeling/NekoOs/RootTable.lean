import NekoOs.AcpiReads
import NekoOs.Words

/-!
The walk of `acpi_parse_tables` over the RSDT or XSDT. The number of entries is
computed from the length of the table, from which the size of the header is
taken without looking whether it is that long.
-/
namespace NekoOs.RootTable
open ByteMemory Trace AcpiReads
open Madt (tableLength)

/-- The tables that the entries at some offsets point to, one after another. -/
def visitEntries (m : Memory) (header entry_size : Nat) : (offsets : List Nat) → Globals → (fuel : Nat) → Trace Globals
  | [], g, _ => pure g
  | offset :: offsets, g, fuel => do
    let table ← read m header (header + offset) entry_size
    let g ← parseTable m g table fuel
    visitEntries m header entry_size offsets g fuel

/-- The offsets of the entries that lie wholly inside the table, in order. -/
structure Whole (length entry_size : Nat) (offsets : List Nat) : Prop where
  ordered : offsets.Pairwise (· < ·)
  inside : ∀ offset, offset ∈ offsets ↔ ∃ i, offset = sizeof_sdt + i * entry_size ∧ offset + entry_size ≤ length

/-- The code reads the length of the table, and visits the entries that lie wholly inside it, and nothing else. -/
def ExactWalk (m : Memory) (header entry_size : Nat) : Prop :=
  ∃ offsets, Whole (tableLength m header) entry_size offsets ∧ ∀ g fuel,
    acpi_parse_tables m g header entry_size fuel = do
      let _ ← read m header (header + 4) 4
      visitEntries m header entry_size offsets g fuel

section
variable {m : Memory} {header entry_size length : Nat}

/-- The offsets that the loop computes. -/
def loopOffsets (entry_size i remaining : Nat) : List Nat :=
  (List.range' i remaining).map (fun i => sizeof_sdt + i * entry_size % 2 ^ 32)

theorem parseTables_visits (i remaining : Nat) (g : Globals) (fuel : Nat) : parseTables m header entry_size remaining i g fuel =
    visitEntries m header entry_size (loopOffsets entry_size i remaining) g fuel := by
  induction remaining generalizing i g with
  | zero => rfl
  | succ remaining ih =>
    rw [parseTables,loopOffsets,List.range'_succ,List.map_cons,visitEntries,Nat.add_assoc]
    simp only [ih]
    rfl

theorem acpi_parse_tables_visits (g : Globals) (fuel : Nat) : acpi_parse_tables m g header entry_size fuel = (do
    let _ ← read m header (header + 4) 4
    visitEntries m header entry_size (loopOffsets entry_size 0 (tableCount (tableLength m header) entry_size)) g fuel) :=
  read_bind_congr (parseTables_visits 0 _ g fuel)

/-! ### The count -/

theorem tableCount_long (size : entry_size = 4 ∨ entry_size = 8) (fits : length < 2 ^ 32) (long : sizeof_sdt ≤ length) :
    tableCount length entry_size = (length - sizeof_sdt) / entry_size := by
  unfold tableCount sizeof_sdt at *
  rcases size with rfl | rfl <;> omega

/-- A table that is shorter than its header has billions of entries. -/
theorem tableCount_short (size : entry_size = 4 ∨ entry_size = 8) (short : length < sizeof_sdt) :
    2 ^ 32 - 9 ≤ tableCount length entry_size := by
  unfold tableCount sizeof_sdt at *
  rcases size with rfl | rfl <;> omega

theorem whole_loop (size : entry_size = 4 ∨ entry_size = 8) (fits : length < 2 ^ 32) (long : sizeof_sdt ≤ length) :
    Whole length entry_size (loopOffsets entry_size 0 (tableCount length entry_size)) := by
  have count := tableCount_long size fits long
  generalize tableCount length entry_size = n at *
  have last : n * entry_size ≤ length - sizeof_sdt := by
    rw [count]
    exact Nat.div_mul_le_self _ _
  have small (i : Nat) (early : i < n) : i * entry_size % 2 ^ 32 = i * entry_size := by
    have before : i * entry_size + entry_size ≤ n * entry_size := Words.stride_le early
    exact Nat.mod_eq_of_lt (by omega)
  constructor
  · rw [loopOffsets,← List.range_eq_range',List.pairwise_map]
    refine List.pairwise_lt_range.imp_of_mem (fun {i j} _ early before => ?_)
    have order : i * entry_size + entry_size ≤ j * entry_size := Words.stride_le before
    have some : 0 < entry_size := by omega
    rw [small i (Nat.lt_trans before (List.mem_range.mp early)),small j (List.mem_range.mp early)]
    omega
  · intro offset
    rw [loopOffsets,← List.range_eq_range',List.mem_map]
    constructor
    · rintro ⟨i,early,rfl⟩
      have before : i * entry_size + entry_size ≤ n * entry_size := Words.stride_le (List.mem_range.mp early)
      rw [small i (List.mem_range.mp early)]
      exact ⟨i,rfl,by omega⟩
    · rintro ⟨i,rfl,inside⟩
      have early : i < n := by
        rw [count]
        rcases size with rfl | rfl <;> omega
      exact ⟨i,List.mem_range.mpr early,by rw [small i early]⟩

theorem whole_short (short : length < sizeof_sdt) {offsets : List Nat} (whole : Whole length entry_size offsets) :
    offsets = [] := by
  refine List.eq_nil_iff_forall_not_mem.mpr (fun offset member => ?_)
  obtain ⟨i,rfl,inside⟩ := (whole.inside offset).mp member
  omega

/-- The walk reads the entry behind the header of a table that is shorter than that. -/
theorem short_not_exact (size : entry_size = 4 ∨ entry_size = 8) (short : tableLength m header < sizeof_sdt) :
    ¬ExactWalk m header entry_size := by
  rintro ⟨offsets,whole,walk⟩
  obtain rfl := whole_short short whole
  have many := tableCount_short size short
  obtain ⟨n,some⟩ : ∃ n, tableCount (tableLength m header) entry_size = n + 1 := ⟨_,(Nat.sub_add_cancel (by omega)).symm⟩
  have reads := congrArg Trace.reads ((acpi_parse_tables_visits noTables 0).symm.trans (walk noTables 0))
  rw [some,read_bind_reads,read_bind_reads] at reads
  have behind := (List.cons.inj reads).2
  rw [loopOffsets,List.range'_succ,List.map_cons,visitEntries,visitEntries,read_bind_reads] at behind
  cases behind

end

/-- The walk over an RSDT or XSDT is exact if and only if its length is at least that of its header. -/
theorem root_walk_exact_iff (m : Memory) (header : Nat) {entry_size : Nat} (size : entry_size = 4 ∨ entry_size = 8) :
    ExactWalk m header entry_size ↔ sizeof_sdt ≤ tableLength m header := by
  constructor
  · intro exactly
    by_contra tooShort
    exact short_not_exact size (Nat.not_le.mp tooShort) exactly
  · intro long
    exact ⟨_,whole_loop size (load_lt m (header + 4) 4) long,acpi_parse_tables_visits⟩

/-- An XSDT at 0 with three entries, one of them above 4 GiB, and two bytes after them. -/
def threeEntries : Memory := fun a => if a = 4 then 62 else
  [0,0x10,0,0,0,0,0,0, 0,0,0x20,0,0,0,0,0, 0,0x30,0,0,1,0,0,0, 0xFF,0xFF].getD (a - 36) 0

/-- The last two bytes are no entry. -/
theorem root_walk_exact_iff_three : tableLength threeEntries 0 = 62 ∧ ExactWalk threeEntries 0 8 ∧
    load threeEntries 36 8 = 0x1000 ∧ load threeEntries 44 8 = 0x200000 ∧ load threeEntries 52 8 = 0x100003000 :=
  ⟨by decide,(root_walk_exact_iff threeEntries 0 (.inr rfl)).mpr (by decide),by decide,by decide,by decide⟩

/-- A table at 0 of some length, all of whose other bytes are 0. -/
def tableOf (length : UInt8) : Memory := fun a => if a = 4 then length else 0

/-- In 35 bytes there is no entry, and the code visits 2^32 - 1. -/
theorem short_root_walk : tableLength (tableOf 35) 0 = 35 ∧ tableCount 35 4 = 2 ^ 32 - 1 ∧ ¬ExactWalk (tableOf 35) 0 4 :=
  ⟨by decide,by decide,short_not_exact (.inl rfl) (by decide)⟩

end NekoOs.RootTable
