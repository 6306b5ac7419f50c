import NekoOs.Access
import NekoOs.Madt

/-!
The walks over the MADT with the limit of the table. Each of them compares the
place of an entry with the end of the table, and then reads the entry.
-/
namespace NekoOs.MadtReads
open ByteMemory Access
open Madt (Globals tableLength icsType icsLength lapicUid lapicApicId lapicFlags sizeof_madt MADT_TYPE_LAPIC)

def MADT_TYPE_IOAPIC : Nat := 1
def MADT_TYPE_ISO : Nat := 2
def MADT_TYPE_LAPIC_NMI : Nat := 4
def MADT_TYPE_LAPIC_OVERRIDE : Nat := 5

/-- The end of the table. -/
def tableEnd (m : Memory) (madt : Nat) : Nat := madt + tableLength m madt

/-- `while (ptr < end) { ...; ptr += h->length; }` -/
def icsBody {State Result : Type} (stop : Nat) (m : Memory) (visit : State → (type ptr : Nat) → Access (Result ⊕ State))
    (ended : State → Result) : State → (ptr : Nat) → Access (Result ⊕ State × Nat) :=
  record (fun ptr => if ptr < stop then do
        let type ← read stop m ptr 1
        .done (some type)
      else .done none)
    visit
    (fun ptr => do
      let length ← read stop m (ptr + 1) 1
      .done (ptr + length))
    ended

/-- What `madt_parse` logs. -/
inductive Line
  | lapic (acpi_processor_uid apic_id flags : Nat)
  | ioapic (ioapic_id ioapic_addr gsi_base : Nat)
  | iso (source gsi flags : Nat)
  | nmi (acpi_processor_uid lint : Nat)
deriving DecidableEq, Repr

/-- The `switch` over the type of an entry: the new `cpu_count`, and what is logged. -/
def parseIcs (stop : Nat) (m : Memory) (cpu_count type ptr : Nat) : Access (Nat × List Line) :=
  if type = MADT_TYPE_LAPIC then do
    let flags ← read stop m (ptr + 4) 4
    let acpi_processor_uid ← read stop m (ptr + 2) 1
    let apic_id ← read stop m (ptr + 3) 1
    .done (if flags % 2 = 1 then (cpu_count + 1) % 2 ^ 32 else cpu_count,[.lapic acpi_processor_uid apic_id flags])
  else if type = MADT_TYPE_IOAPIC then do
    let ioapic_id ← read stop m (ptr + 2) 1
    let ioapic_addr ← read stop m (ptr + 4) 4
    let gsi_base ← read stop m (ptr + 8) 4
    .done (cpu_count,[.ioapic ioapic_id ioapic_addr gsi_base])
  else if type = MADT_TYPE_ISO then do
    let source ← read stop m (ptr + 3) 1
    let gsi ← read stop m (ptr + 4) 4
    let flags ← read stop m (ptr + 8) 2
    .done (cpu_count,[.iso source gsi flags])
  else if type = MADT_TYPE_LAPIC_NMI then do
    let acpi_processor_uid ← read stop m (ptr + 2) 1
    let lint ← read stop m (ptr + 5) 1
    .done (cpu_count,[.nmi acpi_processor_uid lint])
  else .done (cpu_count,[])

def madt_parse (m : Memory) (cpu_count madt fuel : Nat) : Access (Nat × List Line) := do
  let length ← read (tableEnd m madt) m (madt + 4) 4
  loop (icsBody (madt + length) m (fun (s : Nat × List Line) type ptr => do
    let (cpu_count,lines) ← parseIcs (madt + length) m s.1 type ptr
    .done (.inr (cpu_count,s.2 ++ lines))) id) fuel (cpu_count,[]) (madt + sizeof_madt)

def overrideIcs (stop : Nat) (m : Memory) (_ : Unit) (type ptr : Nat) : Access (Option Nat ⊕ Unit) :=
  if type = MADT_TYPE_LAPIC_OVERRIDE then do
    let addr ← read stop m (ptr + 4) 8
    .done (.inl (some addr))
  else .done (.inr ())

def madt_get_lapic_base (m : Memory) (madt fuel : Nat) : Access Nat := do
  let length ← read (tableEnd m madt) m (madt + 4) 4
  match ← loop (icsBody (madt + length) m (overrideIcs (madt + length) m) (fun _ => none)) fuel () (madt + sizeof_madt) with
  | some addr => .done addr
  | none => read (tableEnd m madt) m (madt + 36) 4

/-- The flags are read only of an entry with the UID. -/
def lapicIcs (stop : Nat) (m : Memory) (cpu_id : Nat) (_ : Unit) (type ptr : Nat) : Access (Nat ⊕ Unit) :=
  if type = MADT_TYPE_LAPIC then do
    let acpi_processor_uid ← read stop m (ptr + 2) 1
    if acpi_processor_uid = cpu_id then do
      let flags ← read stop m (ptr + 4) 4
      if flags % 2 = 1 then do
        let apic_id ← read stop m (ptr + 3) 1
        .done (.inl apic_id)
      else .done (.inr ())
    else .done (.inr ())
  else .done (.inr ())

def madt_get_lapic_id (m : Memory) (madt cpu_id fuel : Nat) : Access Nat := do
  let length ← read (tableEnd m madt) m (madt + 4) 4
  loop (icsBody (madt + length) m (lapicIcs (madt + length) m cpu_id) (fun _ => 0xFF)) fuel () (madt + sizeof_madt)

def ioapicIcs (stop : Nat) (m : Memory) (id : Nat) (_ : Unit) (type ptr : Nat) : Access (Nat ⊕ Unit) :=
  if type = MADT_TYPE_IOAPIC then do
    let ioapic_id ← read stop m (ptr + 2) 1
    if ioapic_id = id then do
      let ioapic_addr ← read stop m (ptr + 4) 4
      .done (.inl ioapic_addr)
    else .done (.inr ())
  else .done (.inr ())

def madt_get_ioapic_addr (m : Memory) (madt ioapic_id fuel : Nat) : Access Nat := do
  let length ← read (tableEnd m madt) m (madt + 4) 4
  loop (icsBody (madt + length) m (ioapicIcs (madt + length) m ioapic_id) (fun _ => 0)) fuel () (madt + sizeof_madt)

/-! ### What each walk needs -/

section
variable {stop : Nat} {m : Memory}

theorem load_byte (m : Memory) (a : Nat) : load m a 1 = (m a).toNat := by
  rw [load,load]
  rfl

/-- The place of the entry after an entry. -/
def nextIcs (m : Memory) (ptr : Nat) : Nat := ptr + icsLength m ptr

/-- Where a walk stops, and where it goes on. -/
def Stops (stop : Nat) (returns : Nat → Prop) (ptr : Nat) : Prop := stop ≤ ptr ∨ returns ptr

def Goes (stop : Nat) (fields : Nat → Prop) (ptr : Nat) : Prop := ptr + 2 ≤ stop ∧ fields ptr

theorem ics_records : Records (fun ptr => if ptr < stop then do
        let type ← read stop m ptr 1
        .done (some type)
      else .done none)
    (fun ptr => do
      let length ← read stop m (ptr + 1) 1
      .done (ptr + length))
    (icsType m) (fun _ => True) (fun ptr => stop ≤ ptr) (fun ptr => ptr + 2 ≤ stop) (nextIcs m) := by
  constructor
  · intro ptr
    by_cases more : ptr < stop
    · rw [if_pos more,read_inside more]
      simp [more]
    · rw [if_neg more]
      simp [Nat.le_of_not_lt more]
  · intro ptr type
    by_cases more : ptr < stop
    · rw [if_pos more,read_inside more,load_byte]
      simp [icsType,eq_comm,more]
    · rw [if_neg more]
      simp [more]
  · intro ptr after
    simp only [bind_eq_done,read_eq_done,Access.done.injEq,load_byte]
    constructor
    · rintro ⟨_,⟨inside,rfl⟩,rfl⟩
      exact ⟨inside,rfl⟩
    · rintro ⟨inside,rfl⟩
      exact ⟨_,⟨inside,rfl⟩,rfl⟩

/-- A walk over entries ends well exactly on a finite chain of entries, none of
    which has length 0. -/
theorem ics_safe_iff {State Result : Type} {visit : State → (type ptr : Nat) → Access (Result ⊕ State)}
    (ended : State → Result) {returns fields : Nat → Prop}
    (stops : ∀ s ptr, returns ptr → ∃ result, visit s (icsType m ptr) ptr = .done (.inl result))
    (goes : ∀ s ptr, ptr + 2 ≤ stop → fields ptr → ∃ s', visit s (icsType m ptr) ptr = .done (.inr s'))
    (returned : ∀ s ptr result, visit s (icsType m ptr) ptr = .done (.inl result) → returns ptr)
    (visited : ∀ s ptr s', visit s (icsType m ptr) ptr = .done (.inr s') → fields ptr) (s : State) (ptr : Nat) :
    (∃ fuel, Safe (loop (icsBody stop m visit ended) fuel s ptr)) ↔
      Chain (Stops stop returns) (fun ptr => Goes stop fields ptr ∧ icsLength m ptr ≠ 0) (nextIcs m) ptr := by
  have walks : Walks (icsBody stop m visit ended) (Stops stop returns) (Goes stop fields) (nextIcs m) := by
    have exact := ics_records.walks ended stops goes returned visited
    constructor
    · intro s ptr ends
      exact exact.stop s ptr ⟨trivial,ends⟩
    · rintro s ptr ⟨inside,needed⟩
      exact exact.go s ptr ⟨trivial,by omega,inside,needed⟩
    · intro s ptr safe
      exact (exact.only s ptr safe).imp And.right (fun goesOn => ⟨goesOn.2.2.1,goesOn.2.2.2⟩)
  rw [loop_safe_iff walks,chain_progress]
  have moves (p : Nat) : nextIcs m p ≠ p ↔ icsLength m p ≠ 0 := by
    unfold nextIcs
    omega
  simp only [moves]

/-- The fields that `madt_parse` reads of an entry. -/
structure ParseFields (stop : Nat) (m : Memory) (ptr : Nat) : Prop where
  lapic : icsType m ptr = MADT_TYPE_LAPIC → ptr + 8 ≤ stop
  ioapic : icsType m ptr = MADT_TYPE_IOAPIC → ptr + 12 ≤ stop
  iso : icsType m ptr = MADT_TYPE_ISO → ptr + 10 ≤ stop
  nmi : icsType m ptr = MADT_TYPE_LAPIC_NMI → ptr + 6 ≤ stop

theorem parseIcs_safe (cpu_count ptr : Nat) :
    Safe (parseIcs stop m cpu_count (icsType m ptr) ptr) ↔ ParseFields stop m ptr := by
  unfold parseIcs
  by_cases lapic : icsType m ptr = MADT_TYPE_LAPIC
  · rw [if_pos lapic]
    simp only [safe_read,safe_done,and_true]
    have other {type : Nat} (different : MADT_TYPE_LAPIC ≠ type) (same : icsType m ptr = type) : False :=
      different (lapic.symm.trans same)
    exact ⟨fun inside => ⟨fun _ => by omega,fun t => (other (by decide) t).elim,fun t => (other (by decide) t).elim,
      fun t => (other (by decide) t).elim⟩,fun fields => by have := fields.lapic lapic; omega⟩
  rw [if_neg lapic]
  by_cases ioapic : icsType m ptr = MADT_TYPE_IOAPIC
  · rw [if_pos ioapic]
    simp only [safe_read,safe_done,and_true]
    have other {type : Nat} (different : MADT_TYPE_IOAPIC ≠ type) (same : icsType m ptr = type) : False :=
      different (ioapic.symm.trans same)
    exact ⟨fun inside => ⟨fun t => (lapic t).elim,fun _ => by omega,fun t => (other (by decide) t).elim,
      fun t => (other (by decide) t).elim⟩,fun fields => by have := fields.ioapic ioapic; omega⟩
  rw [if_neg ioapic]
  by_cases iso : icsType m ptr = MADT_TYPE_ISO
  · rw [if_pos iso]
    simp only [safe_read,safe_done,and_true]
    have other {type : Nat} (different : MADT_TYPE_ISO ≠ type) (same : icsType m ptr = type) : False :=
      different (iso.symm.trans same)
    exact ⟨fun inside => ⟨fun t => (lapic t).elim,fun t => (ioapic t).elim,fun _ => by omega,
      fun t => (other (by decide) t).elim⟩,fun fields => by have := fields.iso iso; omega⟩
  rw [if_neg iso]
  by_cases nmi : icsType m ptr = MADT_TYPE_LAPIC_NMI
  · rw [if_pos nmi]
    simp only [safe_read,safe_done,and_true]
    exact ⟨fun inside => ⟨fun t => (lapic t).elim,fun t => (ioapic t).elim,fun t => (iso t).elim,fun _ => by omega⟩,
      fun fields => by have := fields.nmi nmi; omega⟩
  rw [if_neg nmi]
  exact ⟨fun _ => ⟨fun t => (lapic t).elim,fun t => (ioapic t).elim,fun t => (iso t).elim,fun t => (nmi t).elim⟩,
    fun _ => safe_done _⟩

theorem parse_loop_safe (s : Nat × List Line) (ptr : Nat) :
    (∃ fuel, Safe (loop (icsBody stop m (fun (s : Nat × List Line) type ptr => do
      let (cpu_count,lines) ← parseIcs stop m s.1 type ptr
      .done (.inr (cpu_count,s.2 ++ lines))) id) fuel s ptr)) ↔
      Chain (Stops stop (fun _ => False)) (fun ptr => Goes stop (ParseFields stop m) ptr ∧ icsLength m ptr ≠ 0)
        (nextIcs m) ptr := by
  apply ics_safe_iff id
  · intro s ptr impossible
    exact impossible.elim
  · intro s ptr _ fields
    obtain ⟨value,found⟩ := (parseIcs_safe s.1 ptr).mpr fields
    exact ⟨_,by rw [found]; rfl⟩
  · intro s ptr result run
    obtain ⟨_,_,impossible⟩ := bind_eq_done.mp run
    cases impossible
  · intro s ptr s' run
    obtain ⟨value,found,_⟩ := bind_eq_done.mp run
    exact (parseIcs_safe s.1 ptr).mp ⟨value,found⟩

theorem override_loop_safe (ptr : Nat) :
    (∃ fuel, Safe (loop (icsBody stop m (overrideIcs stop m) (fun _ => none)) fuel () ptr)) ↔
      Chain (Stops stop (fun ptr => icsType m ptr = MADT_TYPE_LAPIC_OVERRIDE ∧ ptr + 12 ≤ stop))
        (fun ptr => Goes stop (fun ptr => icsType m ptr ≠ MADT_TYPE_LAPIC_OVERRIDE) ptr ∧ icsLength m ptr ≠ 0)
          (nextIcs m) ptr := by
  apply ics_safe_iff (fun _ => none)
  · rintro _ ptr ⟨type,room⟩
    exact ⟨_,by rw [overrideIcs,if_pos type,read_inside (by omega)]; rfl⟩
  · intro _ ptr _ other
    exact ⟨(),if_neg other⟩
  · intro _ ptr result run
    rw [overrideIcs] at run
    by_cases type : icsType m ptr = MADT_TYPE_LAPIC_OVERRIDE
    · rw [if_pos type] at run
      obtain ⟨_,found,_⟩ := bind_eq_done.mp run
      have := (read_eq_done.mp found).1
      exact ⟨type,by omega⟩
    · rw [if_neg type] at run
      cases run
  · intro _ ptr _ run type
    rw [overrideIcs,if_pos type] at run
    obtain ⟨_,_,impossible⟩ := bind_eq_done.mp run
    cases impossible

/-- The entry of the processor that is looked for. -/
def IsLapic (stop : Nat) (m : Memory) (cpu_id ptr : Nat) : Prop :=
  icsType m ptr = MADT_TYPE_LAPIC ∧ lapicUid m ptr = cpu_id ∧ ptr + 8 ≤ stop ∧ lapicFlags m ptr % 2 = 1

/-- An entry that is passed over: of another type, with another UID, or not enabled. -/
def OtherLapic (stop : Nat) (m : Memory) (cpu_id ptr : Nat) : Prop :=
  icsType m ptr = MADT_TYPE_LAPIC → ptr + 3 ≤ stop ∧
    (lapicUid m ptr = cpu_id → ptr + 8 ≤ stop ∧ lapicFlags m ptr % 2 ≠ 1)

theorem lapicIcs_found {cpu_id ptr result : Nat}
    (run : lapicIcs stop m cpu_id () (icsType m ptr) ptr = .done (.inl result)) :
    IsLapic stop m cpu_id ptr ∧ result = lapicApicId m ptr := by
  have uid : load m (ptr + 2) 1 = lapicUid m ptr := load_byte m (ptr + 2)
  have flags : load m (ptr + 4) 4 = lapicFlags m ptr := rfl
  rw [lapicIcs] at run
  by_cases type : icsType m ptr = MADT_TYPE_LAPIC
  · rw [if_pos type] at run
    obtain ⟨_,found,run⟩ := bind_eq_done.mp run
    obtain ⟨_,rfl⟩ := read_eq_done.mp found
    rw [uid] at run
    by_cases same : lapicUid m ptr = cpu_id
    · rw [if_pos same] at run
      obtain ⟨_,found,run⟩ := bind_eq_done.mp run
      obtain ⟨room,rfl⟩ := read_eq_done.mp found
      rw [flags] at run
      by_cases enabled : lapicFlags m ptr % 2 = 1
      · rw [if_pos enabled] at run
        obtain ⟨_,found,same'⟩ := bind_eq_done.mp run
        obtain ⟨_,rfl⟩ := read_eq_done.mp found
        cases same'
        exact ⟨⟨type,same,by omega,enabled⟩,load_byte m (ptr + 3)⟩
      · rw [if_neg enabled] at run
        cases run
    · rw [if_neg same] at run
      cases run
  · rw [if_neg type] at run
    cases run

theorem lapicIcs_passed {cpu_id ptr : Nat} (run : lapicIcs stop m cpu_id () (icsType m ptr) ptr = .done (.inr ())) :
    OtherLapic stop m cpu_id ptr := by
  have uid : load m (ptr + 2) 1 = lapicUid m ptr := load_byte m (ptr + 2)
  have flags : load m (ptr + 4) 4 = lapicFlags m ptr := rfl
  intro type
  rw [lapicIcs,if_pos type] at run
  obtain ⟨_,found,run⟩ := bind_eq_done.mp run
  obtain ⟨room,rfl⟩ := read_eq_done.mp found
  refine ⟨by omega,fun same => ?_⟩
  rw [uid,if_pos same] at run
  obtain ⟨_,found,run⟩ := bind_eq_done.mp run
  obtain ⟨room,rfl⟩ := read_eq_done.mp found
  refine ⟨by omega,fun enabled => ?_⟩
  rw [flags,if_pos enabled] at run
  obtain ⟨_,_,impossible⟩ := bind_eq_done.mp run
  cases impossible

theorem lapic_loop_safe (cpu_id ptr : Nat) :
    (∃ fuel, Safe (loop (icsBody stop m (lapicIcs stop m cpu_id) (fun _ => 0xFF)) fuel () ptr)) ↔
      Chain (Stops stop (IsLapic stop m cpu_id))
        (fun ptr => Goes stop (OtherLapic stop m cpu_id) ptr ∧ icsLength m ptr ≠ 0) (nextIcs m) ptr := by
  have uid (ptr : Nat) : load m (ptr + 2) 1 = lapicUid m ptr := load_byte m (ptr + 2)
  have flags (ptr : Nat) : load m (ptr + 4) 4 = lapicFlags m ptr := rfl
  apply ics_safe_iff (fun _ => 0xFF)
  · rintro _ ptr ⟨type,same,room,enabled⟩
    refine ⟨load m (ptr + 3) 1,?_⟩
    rw [lapicIcs,if_pos type,read_inside (by omega),bind_done,uid,if_pos same,read_inside (by omega),bind_done,flags,
      if_pos enabled,read_inside (by omega)]
    rfl
  · intro _ ptr _ other
    refine ⟨(),?_⟩
    rw [lapicIcs]
    by_cases type : icsType m ptr = MADT_TYPE_LAPIC
    · obtain ⟨room,rest⟩ := other type
      rw [if_pos type,read_inside (by omega),bind_done,uid]
      by_cases same : lapicUid m ptr = cpu_id
      · obtain ⟨room,disabled⟩ := rest same
        rw [if_pos same,read_inside (by omega),bind_done,flags,if_neg disabled]
      · rw [if_neg same]
    · rw [if_neg type]
  · exact fun _ ptr result run => (lapicIcs_found run).1
  · exact fun _ ptr _ run => lapicIcs_passed run

/-- `ioapic_id` of a `madt_ioapic_t`. -/
def ioapicId (m : Memory) (ptr : Nat) : Nat := (m (ptr + 2)).toNat

/-- The entry of the I/O APIC that is looked for, and an entry that is passed over. -/
def IsIoapic (stop : Nat) (m : Memory) (id ptr : Nat) : Prop :=
  icsType m ptr = MADT_TYPE_IOAPIC ∧ ioapicId m ptr = id ∧ ptr + 8 ≤ stop

def OtherIoapic (stop : Nat) (m : Memory) (id ptr : Nat) : Prop :=
  icsType m ptr = MADT_TYPE_IOAPIC → ptr + 3 ≤ stop ∧ ioapicId m ptr ≠ id

theorem ioapic_loop_safe (id ptr : Nat) :
    (∃ fuel, Safe (loop (icsBody stop m (ioapicIcs stop m id) (fun _ => 0)) fuel () ptr)) ↔
      Chain (Stops stop (IsIoapic stop m id))
        (fun ptr => Goes stop (OtherIoapic stop m id) ptr ∧ icsLength m ptr ≠ 0) (nextIcs m) ptr := by
  have same (ptr : Nat) : load m (ptr + 2) 1 = ioapicId m ptr := load_byte m (ptr + 2)
  apply ics_safe_iff (fun _ => 0)
  · rintro _ ptr ⟨type,found,room⟩
    refine ⟨load m (ptr + 4) 4,?_⟩
    rw [ioapicIcs,if_pos type,read_inside (by omega),bind_done,same,if_pos found,read_inside (by omega)]
    rfl
  · intro _ ptr _ other
    refine ⟨(),?_⟩
    rw [ioapicIcs]
    by_cases type : icsType m ptr = MADT_TYPE_IOAPIC
    · obtain ⟨room,different⟩ := other type
      rw [if_pos type,read_inside (by omega),bind_done,same,if_neg different]
    · rw [if_neg type]
  · intro _ ptr result run
    rw [ioapicIcs] at run
    by_cases type : icsType m ptr = MADT_TYPE_IOAPIC
    · rw [if_pos type] at run
      obtain ⟨_,found,run⟩ := bind_eq_done.mp run
      obtain ⟨_,rfl⟩ := read_eq_done.mp found
      rw [same] at run
      by_cases found : ioapicId m ptr = id
      · rw [if_pos found] at run
        obtain ⟨_,addr,_⟩ := bind_eq_done.mp run
        have := (read_eq_done.mp addr).1
        exact ⟨type,found,by omega⟩
      · rw [if_neg found] at run
        cases run
    · rw [if_neg type] at run
      cases run
  · intro _ ptr _ run type
    rw [ioapicIcs,if_pos type] at run
    obtain ⟨_,found,run⟩ := bind_eq_done.mp run
    obtain ⟨room,rfl⟩ := read_eq_done.mp found
    refine ⟨by omega,fun found => ?_⟩
    rw [same,if_pos found] at run
    obtain ⟨_,_,impossible⟩ := bind_eq_done.mp run
    cases impossible

/-! ### Whole walks -/

/-- The chain of entries that a walk needs: every entry has its header and the fields
    that the walk reads below the end of the table, and its length is not 0, up to the
    end of the table or an entry at which the walk returns. -/
def IcsChain (m : Memory) (madt : Nat) (returns fields : Nat → Prop) : Prop :=
  Chain (Stops (tableEnd m madt) returns) (fun ptr => Goes (tableEnd m madt) fields ptr ∧ icsLength m ptr ≠ 0)
    (nextIcs m) (madt + sizeof_madt)

theorem chain_goes {m : Memory} {madt : Nat} {returns fields : Nat → Prop} (n : Nat)
    (goes : ∀ i < n, Goes (tableEnd m madt) fields ((nextIcs m)^[i] (madt + sizeof_madt)) ∧
      icsLength m ((nextIcs m)^[i] (madt + sizeof_madt)) ≠ 0)
    (stops : Stops (tableEnd m madt) returns ((nextIcs m)^[n] (madt + sizeof_madt))) : IcsChain m madt returns fields := by
  unfold IcsChain
  generalize madt + sizeof_madt = ptr at goes stops ⊢
  induction n generalizing ptr with
  | zero => exact .stop stops
  | succ n ih => exact .go (goes 0 (Nat.succ_pos n)) (ih _ (fun i less => goes (i + 1) (Nat.succ_lt_succ less)) stops)

/-- The length of a table is read before its entries are walked. -/
theorem walk_safe {α : Type} {madt : Nat} (wide : 44 ≤ tableLength m madt) {next : Nat → Nat → Access α} :
    (∃ fuel, Safe (read (tableEnd m madt) m (madt + 4) 4 >>= next fuel)) ↔ ∃ fuel, Safe
      (next fuel (tableLength m madt)) := by
  have inside : madt + 4 + 4 ≤ tableEnd m madt := by
    unfold tableEnd
    omega
  simp only [safe_read,inside,true_and]
  rfl

variable {madt : Nat}

theorem madt_parse_safe (wide : 44 ≤ tableLength m madt) (cpu_count : Nat) :
    (∃ fuel, Safe (madt_parse m cpu_count madt fuel)) ↔
      IcsChain m madt (fun _ => False) (ParseFields (tableEnd m madt) m) := by
  unfold madt_parse
  rw [walk_safe wide]
  exact parse_loop_safe (cpu_count,[]) (madt + sizeof_madt)

theorem madt_get_lapic_base_safe (wide : 44 ≤ tableLength m madt) :
    (∃ fuel, Safe (madt_get_lapic_base m madt fuel)) ↔
      IcsChain m madt (fun ptr => icsType m ptr = MADT_TYPE_LAPIC_OVERRIDE ∧ ptr + 12 ≤ tableEnd m madt)
        (fun ptr => icsType m ptr ≠ MADT_TYPE_LAPIC_OVERRIDE) := by
  unfold madt_get_lapic_base
  rw [walk_safe wide]
  have inside : madt + 36 + 4 ≤ tableEnd m madt := by
    unfold tableEnd
    omega
  refine Iff.trans (exists_congr (fun fuel => ?_)) (override_loop_safe (madt + sizeof_madt))
  rw [safe_bind]
  constructor
  · rintro ⟨found,run,_⟩
    exact ⟨found,run⟩
  · rintro ⟨found,run⟩
    refine ⟨found,run,?_⟩
    cases found with
    | none => exact ⟨_,read_inside inside⟩
    | some addr => exact safe_done addr

theorem madt_get_lapic_id_safe (wide : 44 ≤ tableLength m madt) (cpu_id : Nat) :
    (∃ fuel, Safe (madt_get_lapic_id m madt cpu_id fuel)) ↔
      IcsChain m madt (IsLapic (tableEnd m madt) m cpu_id) (OtherLapic (tableEnd m madt) m cpu_id) := by
  unfold madt_get_lapic_id
  rw [walk_safe wide]
  exact lapic_loop_safe cpu_id (madt + sizeof_madt)

theorem madt_get_ioapic_addr_safe (wide : 44 ≤ tableLength m madt) (ioapic_id : Nat) :
    (∃ fuel, Safe (madt_get_ioapic_addr m madt ioapic_id fuel)) ↔
      IcsChain m madt (IsIoapic (tableEnd m madt) m ioapic_id) (OtherIoapic (tableEnd m madt) m ioapic_id) := by
  unfold madt_get_ioapic_addr
  rw [walk_safe wide]
  exact ioapic_loop_safe ioapic_id (madt + sizeof_madt)

end

/-- Each walk ends, with all reads inside the table, exactly on tables with the chain
    of entries that it needs. -/
theorem madt_safe_iff (m : Memory) (madt cpu_count cpu_id ioapic_id : Nat) (wide : 44 ≤ tableLength m madt) :
    ((∃ fuel, Safe (madt_parse m cpu_count madt fuel)) ↔
      IcsChain m madt (fun _ => False) (ParseFields (tableEnd m madt) m)) ∧
    ((∃ fuel, Safe (madt_get_lapic_base m madt fuel)) ↔
      IcsChain m madt (fun ptr => icsType m ptr = MADT_TYPE_LAPIC_OVERRIDE ∧ ptr + 12 ≤ tableEnd m madt)
        (fun ptr => icsType m ptr ≠ MADT_TYPE_LAPIC_OVERRIDE)) ∧
    ((∃ fuel, Safe (madt_get_lapic_id m madt cpu_id fuel)) ↔
      IcsChain m madt (IsLapic (tableEnd m madt) m cpu_id) (OtherLapic (tableEnd m madt) m cpu_id)) ∧
    ((∃ fuel, Safe (madt_get_ioapic_addr m madt ioapic_id fuel)) ↔
      IcsChain m madt (IsIoapic (tableEnd m madt) m ioapic_id) (OtherIoapic (tableEnd m madt) m ioapic_id)) :=
  ⟨madt_parse_safe wide cpu_count,madt_get_lapic_base_safe wide,madt_get_lapic_id_safe wide cpu_id,
    madt_get_ioapic_addr_safe wide ioapic_id⟩

/-- A table with a processor that is not enabled, a processor, an interrupt override, an NMI, an I/O APIC
    and the 64-bit address of the local APIC. -/
def sixEntries : Memory := fun a => if a = 4 then 100 else
  [0,8,0,0,0,0,0,0, 0,8,1,2,1,0,0,0, 2,10,0,0,2,0,0,0,0,0, 4,6,1,0,0,1, 1,12,3,0,0,0,0xC0,0xFE,0,0,0,0,
    5,12,0,0,0,0,0xE0,0xFE,0,0,0,0].getD (a - 44) 0

theorem madt_safe_iff_six :
    (∃ fuel, Safe (madt_parse sixEntries 0 0 fuel)) ∧ (∃ fuel, Safe (madt_get_lapic_base sixEntries 0 fuel)) ∧
    (∃ fuel, Safe (madt_get_lapic_id sixEntries 0 1 fuel)) ∧ ∃ fuel, Safe (madt_get_ioapic_addr sixEntries 0 3 fuel) := by
  obtain ⟨parse,base,lapic,ioapic⟩ := madt_safe_iff sixEntries 0 0 1 3 (by decide)
  have last : tableEnd sixEntries 0 = 100 := by decide
  -- no structure is longer than 12 bytes, and the last entry begins at 88
  have room : ∀ i < 6, (nextIcs sixEntries)^[i] 44 + 12 ≤ 100 := by decide
  have moves : ∀ i < 6, icsLength sixEntries ((nextIcs sixEntries)^[i] 44) ≠ 0 := by decide
  have goes {fields : Nat → Prop} {n : Nat} (few : n ≤ 6) (holds : ∀ i < n, fields ((nextIcs sixEntries)^[i] 44)) (i : Nat)
      (less : i < n) : Goes (tableEnd sixEntries 0) fields ((nextIcs sixEntries)^[i] 44) ∧
        icsLength sixEntries ((nextIcs sixEntries)^[i] 44) ≠ 0 := by
    have inside := room i (by omega)
    exact ⟨⟨by omega,holds i less⟩,moves i (by omega)⟩
  refine ⟨parse.mpr (chain_goes 6 (goes (by decide) ?_) (.inl (by decide))),
    base.mpr (chain_goes 5 (goes (by decide) ?_) (.inr (by decide))),
    lapic.mpr (chain_goes 1 (goes (by decide) ?_) (.inr ⟨by decide,by decide,by decide,by decide⟩)),
    ioapic.mpr (chain_goes 4 (goes (by decide) ?_) (.inr ⟨by decide,by decide,by decide⟩))⟩
  · intro i less
    have inside := room i less
    constructor <;> intro <;> omega
  · decide
  · have other : ∀ i < 1, lapicUid sixEntries ((nextIcs sixEntries)^[i] 44) ≠ 1 := by decide
    intro i less type
    have inside := room i (by omega)
    exact ⟨by omega,fun same => absurd same (other i less)⟩
  · have other : ∀ i < 4, icsType sixEntries ((nextIcs sixEntries)^[i] 44) ≠ MADT_TYPE_IOAPIC := by decide
    exact fun i less type => absurd type (other i less)

/-- A table with an entry of length 0. -/
def stuckTable : Memory := fun a => if a = 4 then 46 else if a = 44 then 7 else 0

theorem madt_unsafe : tableLength stuckTable 0 = 46 ∧ (¬∃ fuel, Safe (madt_parse stuckTable 0 0 fuel)) ∧
    (¬∃ fuel, Safe (madt_get_lapic_base stuckTable 0 fuel)) ∧ (¬∃ fuel, Safe (madt_get_lapic_id stuckTable 0 0 fuel)) ∧
    ¬∃ fuel, Safe (madt_get_ioapic_addr stuckTable 0 0 fuel) := by
  have wide : 44 ≤ tableLength stuckTable 0 := by decide
  have stuck {returns fields : Nat → Prop} (stays : ¬returns 44) : ¬IcsChain stuckTable 0 returns fields := by
    intro chain
    cases chain with
    | stop stopped => exact stopped.elim (by decide) stays
    | go moves => exact moves.2 (by decide)
  refine ⟨by decide,fun safe => ?_,fun safe => ?_,fun safe => ?_,fun safe => ?_⟩
  · exact stuck id ((madt_parse_safe wide 0).mp safe)
  · exact stuck (by decide) ((madt_get_lapic_base_safe wide).mp safe)
  · exact stuck (fun found => absurd found.1 (by decide)) ((madt_get_lapic_id_safe wide 0).mp safe)
  · exact stuck (fun found => absurd found.1 (by decide)) ((madt_get_ioapic_addr_safe wide 0).mp safe)

/-! ### The result of a walk -/

/-- A walk that stays inside the table has the result of the walk that is not confined to it. -/
theorem walk_agrees {State Result α β γ : Type} {stop : Nat} {m : Memory}
    {visit : State → (type ptr : Nat) → Access (Result ⊕ State)} {ended : State → Result} {body : α → Nat → α ⊕ β}
    (value : State → α) (seen : Result → γ) (known : α ⊕ β → γ)
    (stays : ∀ s ptr s', visit s (icsType m ptr) ptr = .done (.inr s') → body (value s) ptr = .inl (value s'))
    (leaves : ∀ s ptr result, visit s (icsType m ptr) ptr = .done (.inl result) → ∃ found, body
    (value s) ptr = .inr found ∧ known (.inr found) = seen result)
    (ends : ∀ s, known (.inl (value s)) = seen (ended s)) {fuel : Nat} {s : State} {ptr : Nat} {result : Result}
    (run : loop (icsBody stop m visit ended) fuel s ptr = .done result) :
    ∃ found, Madt.walk m stop body fuel (value s) ptr = .ok found ∧ known found = seen result := by
  induction fuel generalizing s ptr with
  | zero => cases run
  | succ fuel ih =>
    rw [loop] at run
    obtain ⟨moved,here,run⟩ := bind_eq_done.mp run
    rw [icsBody,record] at here
    obtain ⟨begun,first,here⟩ := bind_eq_done.mp here
    cases begun with
    | none =>
      have last := ((ics_records.ends ptr).mp first).2
      cases here
      cases run
      rw [Madt.walk,if_neg (by omega)]
      exact ⟨_,rfl,ends s⟩
    | some type =>
      obtain ⟨_,more,rfl⟩ := (ics_records.begins ptr type).mp first
      obtain ⟨value',visited,here⟩ := bind_eq_done.mp here
      rw [Madt.walk,if_pos (by omega)]
      cases value' with
      | inl result' =>
        obtain ⟨found,left,same⟩ := leaves s ptr result' visited
        cases here
        cases run
        rw [left]
        exact ⟨_,rfl,same⟩
      | inr s' =>
        obtain ⟨after,advanced,here⟩ := bind_eq_done.mp here
        obtain ⟨_,rfl⟩ := (ics_records.advance ptr after).mp advanced
        cases here
        rw [stays s ptr s' visited]
        exact ih run

/-- Only an enabled local APIC is counted. -/
theorem parseIcs_count {stop cpu_count ptr count : Nat} {m : Memory} {lines : List Line}
    (parsed : parseIcs stop m cpu_count (icsType m ptr) ptr = .done (count,lines)) :
    count = if icsType m ptr = MADT_TYPE_LAPIC ∧ lapicFlags m ptr % 2 = 1 then
      (cpu_count + 1) % 2 ^ 32 else cpu_count := by
  unfold parseIcs at parsed
  by_cases lapic : icsType m ptr = MADT_TYPE_LAPIC
  · rw [if_pos lapic] at parsed
    obtain ⟨flags,found,parsed⟩ := bind_eq_done.mp parsed
    obtain ⟨_,same⟩ := read_eq_done.mp found
    obtain rfl : lapicFlags m ptr = flags := same
    obtain ⟨_,_,parsed⟩ := bind_eq_done.mp parsed
    obtain ⟨_,_,same⟩ := bind_eq_done.mp parsed
    rw [← (Prod.mk.inj (Access.done.inj same)).1]
    simp only [lapic,true_and]
  rw [if_neg (fun both => lapic both.1)]
  rw [if_neg lapic] at parsed
  by_cases ioapic : icsType m ptr = MADT_TYPE_IOAPIC
  · rw [if_pos ioapic] at parsed
    obtain ⟨_,_,parsed⟩ := bind_eq_done.mp parsed
    obtain ⟨_,_,parsed⟩ := bind_eq_done.mp parsed
    obtain ⟨_,_,same⟩ := bind_eq_done.mp parsed
    exact (Prod.mk.inj (Access.done.inj same)).1.symm
  rw [if_neg ioapic] at parsed
  by_cases iso : icsType m ptr = MADT_TYPE_ISO
  · rw [if_pos iso] at parsed
    obtain ⟨_,_,parsed⟩ := bind_eq_done.mp parsed
    obtain ⟨_,_,parsed⟩ := bind_eq_done.mp parsed
    obtain ⟨_,_,same⟩ := bind_eq_done.mp parsed
    exact (Prod.mk.inj (Access.done.inj same)).1.symm
  rw [if_neg iso] at parsed
  by_cases nmi : icsType m ptr = MADT_TYPE_LAPIC_NMI
  · rw [if_pos nmi] at parsed
    obtain ⟨_,_,parsed⟩ := bind_eq_done.mp parsed
    obtain ⟨_,_,same⟩ := bind_eq_done.mp parsed
    exact (Prod.mk.inj (Access.done.inj same)).1.symm
  · rw [if_neg nmi] at parsed
    exact (Prod.mk.inj (Access.done.inj parsed)).1.symm

/-- A `madt_parse` that stays inside the table counts what the unconfined one counts. -/
theorem madt_parse_agrees {m : Memory} {g : Globals} {madt count : Nat} {lines : List Line}
    (run : madt_parse m g.cpu_count madt Madt.loopBound = .done (count,lines)) :
    Madt.madt_parse m g madt = .ok ⟨madt,count⟩ := by
  obtain ⟨length,found,run⟩ := bind_eq_done.mp run
  obtain ⟨_,rfl⟩ := read_eq_done.mp found
  have walked : ∃ found, Madt.walk m (madt + tableLength m madt) (fun cpu_count ptr =>
      if icsType m ptr = MADT_TYPE_LAPIC ∧ lapicFlags m ptr % 2 = 1 then .inl
        ((cpu_count + 1) % 2 ^ 32) else .inl cpu_count)
      Madt.loopBound g.cpu_count (madt + sizeof_madt) = .ok found ∧
        found.elim some (fun _ : Unit => none) = some count := by
    refine walk_agrees Prod.fst (fun s => some s.1)
      (fun found => found.elim some (fun _ => none)) ?_ ?_ (fun s => rfl) run
    · intro s ptr s' visited
      obtain ⟨⟨cpu_count,lines⟩,parsed,same⟩ := bind_eq_done.mp visited
      cases same
      show _ = Sum.inl cpu_count
      rw [parseIcs_count parsed]
      split <;> rfl
    · intro s ptr result visited
      obtain ⟨_,_,impossible⟩ := bind_eq_done.mp visited
      cases impossible
  obtain ⟨found,walked,same⟩ := walked
  cases found with
  | inl cpu_count =>
    obtain rfl := Option.some.inj same
    rw [Madt.madt_parse,walked]
    rfl
  | inr _ => cases same

theorem madt_get_lapic_id_agrees {m : Memory} {g : Globals} {cpu_id apic_id : Nat}
    (run : madt_get_lapic_id m g.madt_table cpu_id Madt.loopBound = .done apic_id) :
    Madt.madt_get_lapic_id m g cpu_id = .ok apic_id := by
  obtain ⟨length,found,run⟩ := bind_eq_done.mp run
  obtain ⟨_,rfl⟩ := read_eq_done.mp found
  have walked : ∃ found, Madt.walk m (g.madt_table + tableLength m g.madt_table) (fun _ ptr =>
      if icsType m ptr = MADT_TYPE_LAPIC then
        if lapicUid m ptr = cpu_id ∧ lapicFlags m ptr % 2 = 1 then .inr (lapicApicId m ptr) else .inl ()
      else .inl ()) Madt.loopBound () (g.madt_table + sizeof_madt) = .ok found ∧
        found.elim (fun _ : Unit => 0xFF) id = apic_id := by
    refine walk_agrees id id (fun found => found.elim (fun _ => 0xFF) id) ?_ ?_ (fun s => rfl) run
    · intro _ ptr _ passed
      have other := lapicIcs_passed passed
      by_cases type : icsType m ptr = MADT_TYPE_LAPIC
      · rw [if_pos type,if_neg (fun both => ((other type).2 both.1).2 both.2)]
      · rw [if_neg type]
    · intro _ ptr result found
      obtain ⟨⟨type,same,_,enabled⟩,rfl⟩ := lapicIcs_found found
      exact ⟨lapicApicId m ptr,by rw [if_pos type,if_pos ⟨same,enabled⟩],rfl⟩
  obtain ⟨found,walked,rfl⟩ := walked
  rw [Madt.madt_get_lapic_id,walked]
  cases found <;> rfl

end NekoOs.MadtReads
