import NekoOs.ByteMemory
import NekoOs.Outcome
import Mathlib.Data.List.Basic

/-!
The MADT and the functions that walk its entries. Each walk reads the type and
the length of an entry, looks into the entries of one type, and goes on at the
next entry or returns early.
-/
namespace NekoOs.Madt
open ByteMemory
universe u

def MADT_TYPE_LAPIC : Nat := 0

/-- `sizeof(madt_t)`: the ACPI header, `lapic_addr` and `flags`. -/
def sizeof_madt : Nat := 44

/-- `madt->header.length` -/
def tableLength (m : Memory) (madt : Nat) : Nat := load m (madt + 4) 4

def icsType (m : Memory) (ptr : Nat) : Nat := (m ptr).toNat
def icsLength (m : Memory) (ptr : Nat) : Nat := (m (ptr + 1)).toNat
/-- `acpi_processor_uid`, `apic_id` and `flags` of a `madt_lapic_t`. -/
def lapicUid (m : Memory) (ptr : Nat) : Nat := (m (ptr + 2)).toNat
def lapicApicId (m : Memory) (ptr : Nat) : Nat := (m (ptr + 3)).toNat
def lapicFlags (m : Memory) (ptr : Nat) : Nat := load m (ptr + 4) 4

/-- Iterations that no walk over a finite table needs. -/
def loopBound : Nat := 2 ^ 64

/-- `while (ptr < end) { ...; ptr += h->length; }`, where the body goes on with
    a new value or returns a result. -/
def walk {α β : Type u} (m : Memory) (stop : Nat) (body : α → Nat → α ⊕ β) : (fuel : Nat) → α → (ptr : Nat) → Outcome (α ⊕ β)
  | 0, _, _ => .unfinished
  | fuel+1, value, ptr =>
    if ptr < stop then
      match body value ptr with
      | .inl value => walk m stop body fuel value (ptr + icsLength m ptr)
      | .inr result => .ok (.inr result)
    else .ok (.inl value)

/-- The variables of `madt.c`. -/
structure Globals where
  madt_table : Nat
  cpu_count : Nat

def madt_parse (m : Memory) (g : Globals) (madt : Nat) : Outcome Globals := do
  let body (cpu_count ptr : Nat) : Nat ⊕ Unit :=
    if icsType m ptr = MADT_TYPE_LAPIC ∧ lapicFlags m ptr % 2 = 1 then .inl ((cpu_count + 1) % 2 ^ 32) else .inl cpu_count
  match ← walk m (madt + tableLength m madt) body loopBound g.cpu_count (madt + sizeof_madt) with
  | .inl cpu_count => .ok ⟨madt,cpu_count⟩
  | .inr _ => .ok ⟨madt,g.cpu_count⟩

def madt_get_lapic_id (m : Memory) (g : Globals) (cpu_id : Nat) : Outcome Nat := do
  let body (_ : Unit) (ptr : Nat) : Unit ⊕ Nat :=
    if icsType m ptr = MADT_TYPE_LAPIC then
      if lapicUid m ptr = cpu_id ∧ lapicFlags m ptr % 2 = 1 then .inr (lapicApicId m ptr) else .inl ()
    else .inl ()
  match ← walk m (g.madt_table + tableLength m g.madt_table) body loopBound () (g.madt_table + sizeof_madt) with
  | .inl _ => .ok 0xFF
  | .inr apic_id => .ok apic_id

def madt_get_cpu_count (g : Globals) : Nat := g.cpu_count

/-! ### Well-formed tables -/

/-- An entry of the table: of a local APIC, or of another type. -/
inductive Ics
  | lapic (length uid apic_id flags : Nat)
  | other (type length : Nat)
deriving DecidableEq, Repr

def Ics.length : Ics → Nat
  | .lapic length _ _ _ => length
  | .other _ length => length

/-- An entry in memory. Its length covers at least the fields of its type. -/
def Stored (m : Memory) (ptr : Nat) : Ics → Prop
  | .lapic length uid apic_id flags => icsType m ptr = MADT_TYPE_LAPIC ∧ icsLength m ptr = length ∧ 8 ≤ length ∧
      lapicUid m ptr = uid ∧ lapicApicId m ptr = apic_id ∧ lapicFlags m ptr = flags
  | .other type length => icsType m ptr = type ∧ type ≠ MADT_TYPE_LAPIC ∧ icsLength m ptr = length ∧ 2 ≤ length

instance (m : Memory) (ptr : Nat) : (e : Ics) → Decidable (Stored m ptr e)
  | .lapic _ _ _ _ => inferInstanceAs (Decidable (_ ∧ _ ∧ _ ∧ _ ∧ _ ∧ _))
  | .other _ _ => inferInstanceAs (Decidable (_ ∧ _ ∧ _ ∧ _))

/-- Entries that follow one another from `ptr` to `stop`. -/
def Sequence (m : Memory) : (ptr stop : Nat) → List Ics → Prop
  | ptr, stop, [] => ptr = stop
  | ptr, stop, e :: rest => Stored m ptr e ∧ Sequence m (ptr + e.length) stop rest

instance decidableSequence (m : Memory) : (ptr stop : Nat) → (l : List Ics) → Decidable (Sequence m ptr stop l)
  | ptr, stop, [] => inferInstanceAs (Decidable (ptr = stop))
  | ptr, stop, e :: rest =>
    have : Decidable (Sequence m (ptr + e.length) stop rest) := decidableSequence m _ stop rest
    inferInstanceAs (Decidable (_ ∧ _))

/-- The table at `madt` consists of the entries of a list. -/
def Table (m : Memory) (madt : Nat) (l : List Ics) : Prop :=
  Sequence m (madt + sizeof_madt) (madt + tableLength m madt) l

instance (m : Memory) (madt : Nat) (l : List Ics) : Decidable (Table m madt l) := decidableSequence m _ _ l

/-- A processor by its UID and its APIC id. -/
structure Processor where
  uid : Nat
  apic_id : Nat
deriving DecidableEq, Repr

/-- The processor of an enabled local APIC entry. -/
def Ics.processor : Ics → Option Processor
  | .lapic _ uid apic_id flags => if flags % 2 = 1 then some ⟨uid,apic_id⟩ else none
  | .other _ _ => none

/-- The enabled processors of a table, in its order. -/
def enabled (l : List Ics) : List Processor := l.filterMap Ics.processor

/-- What a body does on the entries of a list. -/
def visit {α β : Type u} (f : α → Ics → α ⊕ β) : α → List Ics → α ⊕ β
  | value, [] => .inl value
  | value, e :: rest =>
    match f value e with
    | .inl value => visit f value rest
    | .inr result => .inr result

section
variable {m : Memory} {ptr stop : Nat} {l : List Ics}

theorem stored_length {e : Ics} (stored : Stored m ptr e) : icsLength m ptr = e.length ∧ 2 ≤ e.length := by
  cases e with
  | lapic length uid apic_id flags =>
    obtain ⟨_,same,large,_⟩ := stored
    exact ⟨same,show 2 ≤ length by omega⟩
  | other type length =>
    obtain ⟨_,_,same,large⟩ := stored
    exact ⟨same,large⟩

theorem sequence_length (stored : Sequence m ptr stop l) : ptr + 2 * l.length ≤ stop := by
  induction l generalizing ptr with
  | nil => exact Nat.le_of_eq stored
  | cons e rest ih =>
    obtain ⟨first,later⟩ := stored
    have := ih later
    have := (stored_length first).2
    rw [List.length_cons]
    omega

/-- A walk over stored entries visits them in order. -/
theorem walk_eq {α β : Type u} (body : α → Nat → α ⊕ β) (f : α → Ics → α ⊕ β) {fuel : Nat} (value : α)
    (stored : Sequence m ptr stop l) (enough : l.length < fuel)
    (agrees : ∀ value ptr e, Stored m ptr e → body value ptr = f value e) :
    walk m stop body fuel value ptr = .ok (visit f value l) := by
  induction l generalizing fuel value ptr with
  | nil =>
    obtain ⟨fuel,rfl⟩ : ∃ k, fuel = k + 1 := ⟨fuel - 1,by simp only [List.length_nil] at enough; omega⟩
    have ends : ptr = stop := stored
    rw [walk,if_neg (by omega)]
    rfl
  | cons e rest ih =>
    obtain ⟨fuel,rfl⟩ : ∃ k, fuel = k + 1 := ⟨fuel - 1,by rw [List.length_cons] at enough; omega⟩
    have inside := sequence_length stored
    obtain ⟨first,later⟩ := stored
    rw [List.length_cons] at enough inside
    rw [walk,if_pos (by omega),agrees value ptr e first,visit]
    cases f value e with
    | inl value => simpa only [(stored_length first).1] using ih value later (by omega)
    | inr result => rfl

/-- No table has more entries than the loops have iterations. -/
theorem table_short {madt : Nat} (table : Table m madt l) : l.length < loopBound := by
  have inside := sequence_length table
  have small : tableLength m madt < 256 ^ 4 := load_lt m (madt + 4) 4
  simp only [loopBound,sizeof_madt] at *
  omega

/-- What the body of `madt_parse` does on an entry. -/
private def countEntry (cpu_count : Nat) (e : Ics) : Nat ⊕ Unit :=
  if e.processor.isSome then .inl ((cpu_count + 1) % 2 ^ 32) else .inl cpu_count

private theorem visit_count {cpu_count : Nat} (small : cpu_count < 2 ^ 32) :
    visit countEntry cpu_count l = .inl ((cpu_count + (enabled l).length) % 2 ^ 32) := by
  induction l generalizing cpu_count with
  | nil => exact congrArg Sum.inl (Nat.mod_eq_of_lt small).symm
  | cons e rest ih =>
    cases found : e.processor with
    | none =>
      rw [visit,countEntry,found]
      simpa [enabled,found] using ih small
    | some p =>
      rw [visit,countEntry,found]
      simp only [Option.isSome_some,if_true,enabled,List.filterMap_cons,found,List.length_cons]
      rw [ih (Nat.mod_lt _ (by decide)),Nat.mod_add_mod,enabled]
      congr 2
      omega

/-- `madt_parse` adds the number of enabled processors to `cpu_count`. -/
theorem madt_parse_spec {madt : Nat} {g : Globals} (table : Table m madt l) (small : g.cpu_count < 2 ^ 32) :
    madt_parse m g madt = .ok ⟨madt,(g.cpu_count + (enabled l).length) % 2 ^ 32⟩ := by
  have walked := walk_eq (fun cpu_count ptr => if icsType m ptr = MADT_TYPE_LAPIC ∧ lapicFlags m ptr % 2 = 1
    then .inl ((cpu_count + 1) % 2 ^ 32) else .inl cpu_count) countEntry g.cpu_count table (table_short table) (by
    intro cpu_count ptr e stored
    cases e with
    | lapic length uid apic_id flags =>
      obtain ⟨isLapic,_,_,_,_,sameFlags⟩ := stored
      by_cases isEnabled : flags % 2 = 1 <;> simp [countEntry,Ics.processor,isLapic,sameFlags,isEnabled]
    | other type length =>
      obtain ⟨same,isOther,_⟩ := stored
      simp [countEntry,Ics.processor,same,isOther])
  rw [madt_parse,walked,visit_count small]
  rfl

/-- What the body of `madt_get_lapic_id` does on an entry. -/
private def findEntry (cpu_id : Nat) (_ : Unit) (e : Ics) : Unit ⊕ Nat :=
  match e.processor with
  | some p => if p.uid = cpu_id then .inr p.apic_id else .inl ()
  | none => .inl ()

private theorem visit_find (cpu_id : Nat) : visit (findEntry cpu_id) () l =
    match (enabled l).find? (fun p => p.uid = cpu_id) with
    | some p => .inr p.apic_id
    | none => .inl () := by
  induction l with
  | nil => rfl
  | cons e rest ih =>
    cases found : e.processor with
    | none => simpa [visit,findEntry,enabled,found] using ih
    | some p =>
      by_cases same : p.uid = cpu_id
      · simp [visit,findEntry,enabled,found,same]
      · simpa [visit,findEntry,enabled,found,same] using ih

/-- `madt_get_lapic_id` finds the first enabled processor with the UID. -/
theorem madt_get_lapic_id_spec {g : Globals} (table : Table m g.madt_table l) (cpu_id : Nat) :
    madt_get_lapic_id m g cpu_id =
      .ok ((((enabled l).find? (fun p => p.uid = cpu_id)).map Processor.apic_id).getD 0xFF) := by
  have walked := walk_eq (fun (_ : Unit) ptr => if icsType m ptr = MADT_TYPE_LAPIC then
    if lapicUid m ptr = cpu_id ∧ lapicFlags m ptr % 2 = 1 then .inr (lapicApicId m ptr) else .inl () else .inl ())
    (findEntry cpu_id) () table (table_short table) (by
    intro _ ptr e stored
    cases e with
    | lapic length uid apic_id flags =>
      obtain ⟨isLapic,_,_,sameUid,sameApic,sameFlags⟩ := stored
      by_cases isEnabled : flags % 2 = 1 <;>
        simp [findEntry,Ics.processor,isLapic,sameUid,sameApic,sameFlags,isEnabled]
    | other type length =>
      obtain ⟨same,isOther,_⟩ := stored
      simp [findEntry,Ics.processor,same,isOther])
  rw [madt_get_lapic_id,walked,visit_find]
  cases (enabled l).find? (fun p => p.uid = cpu_id) <;> rfl

end
end NekoOs.Madt
