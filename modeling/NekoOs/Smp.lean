import NekoOs.Madt
import Mathlib.Data.List.Perm.Basic
import Mathlib.Data.List.Nodup
import Mathlib.Data.List.Range

/-!
The start of the application processors. `smp_init` counts from 0 to the number
of enabled processors and looks each number up among the processor UIDs, which
finds every processor if the UIDs are those numbers.
-/
namespace NekoOs.Smp
open ByteMemory Madt

def LAPIC_ICR_LOW : Nat := 0x300
def LAPIC_ICR_HIGH : Nat := 0x310

/-- An interrupt that the local APIC has sent. -/
structure Ipi where
  destination : Nat
  command : Nat
deriving DecidableEq, Repr

/-- The interrupt command register of the boot processor, and what it has sent. -/
structure Lapic where
  icr_high : Nat
  ipis : List Ipi
deriving DecidableEq, Repr

/-- A write of the low half of the command register sends to the destination in the high half. -/
def lapic_write (s : Lapic) (reg val : Nat) : Lapic :=
  if reg = LAPIC_ICR_HIGH then { s with icr_high := val }
  else if reg = LAPIC_ICR_LOW then { s with ipis := s.ipis ++ [⟨s.icr_high / 2 ^ 24 % 256,val⟩] }
  else s

/-- The delivery status clears after each command. -/
def lapic_send_ipi (s : Lapic) (apic_id flags : Nat) : Lapic :=
  lapic_write (lapic_write s LAPIC_ICR_HIGH (apic_id * 2 ^ 24 % 2 ^ 32)) LAPIC_ICR_LOW flags

/-- `while (aps_started < expected) { ...; if (--timeout == 0) break; }`, where
    `aps_started` gives the value of the variable at each reading. -/
def awaitAp (aps_started : Nat → Nat) (expected : Nat) : (timeout now : Nat) → Nat
  | 0, now => now
  | timeout+1, now => if aps_started now < expected then awaitAp aps_started expected timeout (now + 1) else now + 1

/-- The loop over the processors in `smp_init`. -/
def smp_init_loop (m : Memory) (g : Globals) (bsp_id : Nat) (aps_started : Nat → Nat) :
    (fuel cpu now : Nat) → Lapic → Outcome Lapic
  | 0, _, _, _ => .unfinished
  | fuel+1, cpu, now, s =>
    if cpu < g.cpu_count % 256 then do
      let apic_id ← madt_get_lapic_id m g cpu
      if apic_id = bsp_id then smp_init_loop m g bsp_id aps_started fuel ((cpu + 1) % 256) now s
      else
        let expected := (aps_started now + 1) % 2 ^ 32
        let s := lapic_send_ipi s apic_id 0x00004500
        let s := lapic_send_ipi s apic_id 0x00004608
        let s := lapic_send_ipi s apic_id 0x00004608
        smp_init_loop m g bsp_id aps_started fuel ((cpu + 1) % 256) (awaitAp aps_started expected 5000 (now + 1)) s
    else .ok s

/-- `madt_parse` of the only MADT, and then the loop of `smp_init`. -/
def startAps (m : Memory) (madt bsp_id : Nat) (aps_started : Nat → Nat) (s : Lapic) : Outcome Lapic := do
  let g ← madt_parse m ⟨0,0⟩ madt
  smp_init_loop m g bsp_id aps_started 256 0 0 s

/-- The INIT, SIPI and SIPI commands to one destination. -/
def startup (apic_id : Nat) : List Ipi := [⟨apic_id,0x4500⟩,⟨apic_id,0x4608⟩,⟨apic_id,0x4608⟩]

/-- The start-up commands go once to every enabled processor except the boot
    processor, and nowhere else. -/
def StartsOthers (l : List Ics) (bsp_id : Nat) (ipis : List Ipi) : Prop :=
  ∃ order : List Nat, ipis = order.flatMap startup ∧ 0xFF ∉ order ∧
    order.Perm (((enabled l).filter (fun p => p.apic_id ≠ bsp_id)).map Processor.apic_id)

/-- A well-formed MADT with the boot processor among its enabled processors. -/
structure WellFormed (m : Memory) (madt : Nat) (l : List Ics) (bsp_id : Nat) : Prop where
  table : Table m madt l
  uids : ((enabled l).map Processor.uid).Nodup
  apic_ids : ((enabled l).map Processor.apic_id).Nodup
  boot : ∃ p ∈ enabled l, p.apic_id = bsp_id

/-- The UIDs of the enabled processors are below their number, which fits in 8
    bits, and 0xFF is nobody's APIC id; a boot processor with the APIC id 0xFF is
    skipped whatever its UID is. -/
structure Numbered (l : List Ics) (bsp_id : Nat) : Prop where
  few : (enabled l).length < 256
  others : ∀ p ∈ enabled l, p.apic_id ≠ bsp_id → p.uid < (enabled l).length ∧ p.apic_id ≠ 0xFF
  boot : bsp_id ≠ 0xFF → ∀ p ∈ enabled l, p.apic_id = bsp_id → p.uid < (enabled l).length

/-! ### What the loop sends -/

/-- The result of `madt_get_lapic_id` among the enabled processors. -/
def apicIdOf (ps : List Processor) (cpu : Nat) : Nat :=
  ((ps.find? (fun p => p.uid = cpu)).map Processor.apic_id).getD 0xFF

/-- The destinations for the numbers of a list. -/
def targets (ps : List Processor) (bsp_id : Nat) (cpus : List Nat) : List Nat :=
  (cpus.map (apicIdOf ps)).filter (fun a => a ≠ bsp_id)

theorem lapic_send_ipi_eq (s : Lapic) {apic_id : Nat} (small : apic_id < 256) (flags : Nat) :
    (lapic_send_ipi s apic_id flags).ipis = s.ipis ++ [⟨apic_id,flags⟩] := by
  have shifted : apic_id * 2 ^ 24 % 2 ^ 32 / 2 ^ 24 % 256 = apic_id := by omega
  simp only [lapic_send_ipi,lapic_write,LAPIC_ICR_HIGH,LAPIC_ICR_LOW,if_true,
    show (0x300 : Nat) ≠ 0x310 by decide,if_false,shifted]

/-- APIC ids are bytes. -/
theorem apic_id_lt {m : Memory} {ptr stop : Nat} {l : List Ics} (stored : Sequence m ptr stop l) :
    ∀ p ∈ enabled l, p.uid < 256 ∧ p.apic_id < 256 := by
  induction l generalizing ptr with
  | nil => simp [enabled]
  | cons e rest ih =>
    obtain ⟨first,later⟩ := stored
    intro p member
    cases e with
    | other type length => exact ih later p (by simpa [enabled,Ics.processor] using member)
    | lapic length uid apic_id flags =>
      by_cases isEnabled : flags % 2 = 1
      · simp only [enabled,List.filterMap_cons,Ics.processor,if_pos isEnabled,List.mem_cons] at member
        rcases member with rfl | member
        · obtain ⟨_,_,_,sameUid,sameApic,_⟩ := first
          exact ⟨sameUid ▸ (m (ptr + 2)).toNat_lt,sameApic ▸ (m (ptr + 3)).toNat_lt⟩
        · exact ih later p member
      · simp only [enabled,List.filterMap_cons,Ics.processor,if_neg isEnabled] at member
        exact ih later p member

theorem apicIdOf_lt {ps : List Processor} (small : ∀ p ∈ ps, p.apic_id < 256) (cpu : Nat) : apicIdOf ps cpu < 256 := by
  unfold apicIdOf
  cases found : ps.find? (fun p => p.uid = cpu) with
  | none => exact (by decide : 0xFF < 256)
  | some p => exact small p (List.mem_of_find?_eq_some found)

theorem smp_init_loop_spec {m : Memory} {g : Globals} {l : List Ics} (table : Table m g.madt_table l) (bsp_id : Nat)
    (aps_started : Nat → Nat) {count cpu fuel : Nat} (ends : cpu + count = g.cpu_count % 256) (enough : count < fuel)
    (now : Nat) (s : Lapic) :
    ∃ s', smp_init_loop m g bsp_id aps_started fuel cpu now s = .ok s' ∧
      s'.ipis = s.ipis ++ (targets (enabled l) bsp_id (List.range' cpu count)).flatMap startup := by
  induction count generalizing cpu fuel now s with
  | zero =>
    obtain ⟨fuel,rfl⟩ : ∃ k, fuel = k + 1 := ⟨fuel - 1,by omega⟩
    exact ⟨s,by rw [smp_init_loop,if_neg (by omega)],by simp [targets]⟩
  | succ count ih =>
    obtain ⟨fuel,rfl⟩ : ∃ k, fuel = k + 1 := ⟨fuel - 1,by omega⟩
    have limit : g.cpu_count % 256 < 256 := Nat.mod_lt _ (by decide)
    have next : (cpu + 1) % 256 = cpu + 1 := Nat.mod_eq_of_lt (by omega)
    have small := apicIdOf_lt (fun p member => (apic_id_lt table p member).2) cpu
    rw [smp_init_loop,if_pos (by omega),madt_get_lapic_id_spec table,Outcome.bind_ok,next,List.range'_succ]
    rw [show ((List.find? (fun p => decide (p.uid = cpu)) (enabled l)).map Processor.apic_id).getD 0xFF =
      apicIdOf (enabled l) cpu from rfl]
    by_cases boot : apicIdOf (enabled l) cpu = bsp_id
    · rw [if_pos boot]
      obtain ⟨s',run,sent⟩ := @ih (cpu + 1) fuel (by omega) (by omega) now s
      exact ⟨s',run,by rw [sent]; simp [targets,boot]⟩
    · rw [if_neg boot]
      obtain ⟨s',run,sent⟩ := @ih (cpu + 1) fuel (by omega) (by omega)
        (awaitAp aps_started ((aps_started now + 1) % 2 ^ 32) 5000 (now + 1))
        (lapic_send_ipi (lapic_send_ipi (lapic_send_ipi s (apicIdOf (enabled l) cpu) 0x4500)
          (apicIdOf (enabled l) cpu) 0x4608) (apicIdOf (enabled l) cpu) 0x4608)
      refine ⟨s',run,?_⟩
      rw [sent,lapic_send_ipi_eq _ small,lapic_send_ipi_eq _ small,lapic_send_ipi_eq _ small]
      simp [targets,boot,startup]

/-! ### Numbers and UIDs -/

section
variable {ps : List Processor} {bsp_id : Nat}

/-- A number is a UID or is looked up in vain. -/
theorem apicIdOf_cases (ps : List Processor) (cpu : Nat) :
    (∃ p ∈ ps, p.uid = cpu ∧ apicIdOf ps cpu = p.apic_id) ∨ (∀ p ∈ ps, p.uid ≠ cpu) ∧ apicIdOf ps cpu = 0xFF := by
  unfold apicIdOf
  cases found : ps.find? (fun p => p.uid = cpu) with
  | none => exact .inr ⟨by simpa using found,rfl⟩
  | some p => exact .inl ⟨p,List.mem_of_find?_eq_some found,by simpa using List.find?_some found,rfl⟩

theorem apicIdOf_uid (uids : (ps.map Processor.uid).Nodup) {p : Processor} (member : p ∈ ps) :
    apicIdOf ps p.uid = p.apic_id := by
  rcases apicIdOf_cases ps p.uid with ⟨q,inside,same,found⟩ | ⟨absent,_⟩
  · rw [found,List.inj_on_of_nodup_map uids inside member same]
  · exact absurd rfl (absent p member)

theorem startup_injective {left right : List Nat} (same : left.flatMap startup = right.flatMap startup) :
    left = right := by
  induction left generalizing right with
  | nil =>
    cases right with
    | nil => rfl
    | cons b right => simp [startup] at same
  | cons a left ih =>
    cases right with
    | nil => simp [startup] at same
    | cons b right =>
      simp only [List.flatMap_cons,startup,List.cons_append,List.nil_append,List.cons.injEq,Ipi.mk.injEq] at same
      rw [same.1.1,ih same.2.2.2]

/-- Distinct numbers below their count are all the numbers below it. -/
theorem perm_range {ns : List Nat} (distinct : ns.Nodup) (small : ∀ n ∈ ns, n < ns.length) :
    ns.Perm (List.range ns.length) := by
  have within : ns ⊆ List.range ns.length := fun n member => List.mem_range.mpr (small n member)
  exact (List.subperm_of_subset distinct within).perm_of_length_le (by rw [List.length_range])

/-- If every UID is below the number of processors, the loop finds every processor. -/
theorem targets_all (uids : (ps.map Processor.uid).Nodup) (small : ∀ p ∈ ps, p.uid < ps.length) :
    (targets ps bsp_id (List.range ps.length)).Perm
      ((ps.filter (fun p => p.apic_id ≠ bsp_id)).map Processor.apic_id) := by
  have numbers : (ps.map Processor.uid).Perm (List.range ps.length) := by
    have perm := perm_range uids (fun n member => by
      obtain ⟨p,inside,rfl⟩ := List.mem_map.mp member
      rw [List.length_map]
      exact small p inside)
    rwa [List.length_map] at perm
  have found : (ps.map Processor.uid).map (apicIdOf ps) = ps.map Processor.apic_id := by
    rw [List.map_map]
    exact List.map_congr_left (fun p member => apicIdOf_uid uids member)
  refine ((numbers.symm.map _).filter _).trans ?_
  rw [found,List.filter_map]
  exact .refl _

theorem mem_targets {cpus : List Nat} {a : Nat} :
    a ∈ targets ps bsp_id cpus ↔ (∃ k ∈ cpus, apicIdOf ps k = a) ∧ a ≠ bsp_id := by
  simp [targets]

/-- If the APIC id 0xFF is the boot processor's, numbers looked up in vain are
    skipped, and the other processors need UIDs below the count. -/
theorem targets_broadcast {n : Nat} (uids : (ps.map Processor.uid).Nodup) (apic_ids : (ps.map Processor.apic_id).Nodup)
    (small : ∀ p ∈ ps, p.apic_id ≠ 0xFF → p.uid < n) :
    (targets ps 0xFF (List.range n)).Perm ((ps.filter (fun p => p.apic_id ≠ 0xFF)).map Processor.apic_id) := by
  have found (k : Nat) (sent : apicIdOf ps k ≠ 0xFF) : ∃ p ∈ ps, p.uid = k ∧ apicIdOf ps k = p.apic_id :=
    (apicIdOf_cases ps k).resolve_right (fun vain => sent vain.2)
  have distinct : (targets ps 0xFF (List.range n)).Nodup := by
    rw [targets,List.filter_map]
    refine (List.nodup_range.filter _).map_on ?_
    intro j jSent k kSent same
    simp only [List.mem_filter,List.mem_range,Function.comp_apply,decide_eq_true_eq] at jSent kSent
    obtain ⟨p,pMember,rfl,pApic⟩ := found j jSent.2
    obtain ⟨q,qMember,rfl,qApic⟩ := found k kSent.2
    rw [List.inj_on_of_nodup_map apic_ids pMember qMember (pApic.symm.trans (same.trans qApic))]
  refine (List.perm_ext_iff_of_nodup distinct ((apic_ids.sublist (List.filter_sublist.map _)))).mpr ?_
  intro a
  simp only [mem_targets,List.mem_map,List.mem_filter,List.mem_range,decide_eq_true_eq]
  constructor
  · rintro ⟨⟨k,_,rfl⟩,sent⟩
    obtain ⟨p,member,_,apic⟩ := found k sent
    exact ⟨p,⟨member,apic ▸ sent⟩,apic.symm⟩
  · rintro ⟨p,⟨member,sent⟩,rfl⟩
    exact ⟨⟨p.uid,small p member sent,apicIdOf_uid uids member⟩,sent⟩

/-- The destinations are right exactly if the UIDs number the processors. -/
theorem targets_iff {l : List Ics} (uids : ((enabled l).map Processor.uid).Nodup)
    (apic_ids : ((enabled l).map Processor.apic_id).Nodup) (bytes : ∀ p ∈ enabled l, p.uid < 256)
    (boot : ∃ p ∈ enabled l, p.apic_id = bsp_id) :
    (0xFF ∉ targets (enabled l) bsp_id (List.range ((enabled l).length % 256)) ∧
      (targets (enabled l) bsp_id (List.range ((enabled l).length % 256))).Perm
        (((enabled l).filter (fun p => p.apic_id ≠ bsp_id)).map Processor.apic_id)) ↔ Numbered l bsp_id := by
  constructor
  · rintro ⟨noBroadcast,perm⟩
    have sent (p : Processor) (member : p ∈ enabled l) (other : p.apic_id ≠ bsp_id) :
        p.apic_id ∈ targets (enabled l) bsp_id (List.range ((enabled l).length % 256)) := by
      refine perm.mem_iff.mpr (List.mem_map.mpr ⟨p,List.mem_filter.mpr ⟨member,?_⟩,rfl⟩)
      simpa using other
    have few : (enabled l).length < 256 := by
      have most : ((enabled l).map Processor.uid).length ≤ (List.range 256).length := by
        refine (List.subperm_of_subset uids ?_).length_le
        intro uid inside
        obtain ⟨p,member,rfl⟩ := List.mem_map.mp inside
        exact List.mem_range.mpr (bytes p member)
      rw [List.length_map,List.length_range] at most
      by_contra many
      have all : (enabled l).length = 256 := by omega
      -- the loop bound is then 0, and 255 processors stay behind
      have only : (enabled l).map Processor.apic_id ⊆ [bsp_id] := by
        intro apic_id inside
        obtain ⟨p,member,rfl⟩ := List.mem_map.mp inside
        by_contra other
        have hit := sent p member (by simpa using other)
        simp [all,targets] at hit
      have single := (List.subperm_of_subset apic_ids only).length_le
      rw [List.length_map,List.length_singleton] at single
      omega
    rw [Nat.mod_eq_of_lt few] at noBroadcast sent
    refine ⟨few,?_,?_⟩
    · intro p member other
      have hit := sent p member other
      have real : p.apic_id ≠ 0xFF := fun same => noBroadcast (same ▸ hit)
      obtain ⟨⟨k,small,found⟩,_⟩ := mem_targets.mp hit
      rcases apicIdOf_cases (enabled l) k with ⟨q,inside,rfl,apic⟩ | ⟨_,vain⟩
      · obtain rfl := List.inj_on_of_nodup_map apic_ids inside member (apic.symm.trans found)
        exact ⟨List.mem_range.mp small,real⟩
      · exact absurd (found.symm.trans vain) real
    · intro noFF p member _
      have within : List.range (enabled l).length ⊆ (enabled l).map Processor.uid := by
        intro k small
        rcases apicIdOf_cases (enabled l) k with ⟨q,inside,rfl,_⟩ | ⟨_,vain⟩
        · exact List.mem_map_of_mem inside
        · exact absurd (mem_targets.mpr ⟨⟨k,small,vain⟩,Ne.symm noFF⟩) noBroadcast
      have perm' := (List.subperm_of_subset List.nodup_range within).perm_of_length_le (by simp)
      exact List.mem_range.mp (perm'.mem_iff.mpr (List.mem_map_of_mem member))
  · rintro ⟨few,others,bootNumbered⟩
    rw [Nat.mod_eq_of_lt few]
    have perm : (targets (enabled l) bsp_id (List.range (enabled l).length)).Perm
        (((enabled l).filter (fun p => p.apic_id ≠ bsp_id)).map Processor.apic_id) := by
      by_cases broadcast : bsp_id = 0xFF
      · subst broadcast
        exact targets_broadcast uids apic_ids (fun p member other => (others p member other).1)
      · refine targets_all uids (fun p member => ?_)
        by_cases same : p.apic_id = bsp_id
        · exact bootNumbered broadcast p member same
        · exact (others p member same).1
    refine ⟨fun hit => ?_,perm⟩
    obtain ⟨p,inside,same⟩ := List.mem_map.mp (perm.mem_iff.mp hit)
    obtain ⟨member,other⟩ := List.mem_filter.mp inside
    exact (others p member (by simpa using other)).2 same

end

/-- For every well-formed table, `smp_init` starts exactly the processors other
    than the boot processor if and only if the UIDs number the processors. -/
theorem startAps_iff {m : Memory} {madt bsp_id : Nat} {l : List Ics} (table : WellFormed m madt l bsp_id)
    (aps_started : Nat → Nat) : ∃ s, startAps m madt bsp_id aps_started ⟨0,[]⟩ = .ok s ∧
      (StartsOthers l bsp_id s.ipis ↔ Numbered l bsp_id) := by
  have uids (p : Processor) (member : p ∈ enabled l) : p.uid < 256 := (apic_id_lt table.table p member).1
  obtain ⟨s,run,sent⟩ := @smp_init_loop_spec m ⟨madt,(0 + (enabled l).length) % 2 ^ 32⟩ l table.table bsp_id aps_started
    ((enabled l).length % 256) 0 256 (by simp only; omega) (Nat.mod_lt _ (by decide)) 0 ⟨0,[]⟩
  refine ⟨s,?_,?_⟩
  · rw [startAps,madt_parse_spec table.table (by decide),Outcome.bind_ok]
    exact run
  · rw [List.nil_append,← List.range_eq_range'] at sent
    rw [← targets_iff table.uids table.apic_ids uids table.boot]
    constructor
    · rintro ⟨order,same,noBroadcast,perm⟩
      obtain rfl := startup_injective (sent.symm.trans same)
      exact ⟨noBroadcast,perm⟩
    · rintro ⟨noBroadcast,perm⟩
      exact ⟨_,sent,noBroadcast,perm⟩

/-- A table at address 0 of two enabled processors with the APIC ids 0 and 1. -/
def sampleTable (first second : UInt8) : Memory := fun a =>
  ([65,80,73,67,60,0,0,0] ++ List.replicate 36 0 ++ [0,8,first,0,1,0,0,0,0,8,second,1,1,0,0,0]).getD a 0

def sampleEntries (first second : Nat) : List Ics := [.lapic 8 first 0 1,.lapic 8 second 1 1]

private theorem sample_sparse : WellFormed (sampleTable 0 2) 0 (sampleEntries 0 2) 0 :=
  ⟨by decide +kernel,by decide,by decide,by decide⟩

private theorem sample_dense : WellFormed (sampleTable 0 1) 0 (sampleEntries 0 1) 0 :=
  ⟨by decide +kernel,by decide,by decide,by decide⟩

/-- With the UIDs 0 and 2 the second processor is not started, and the start-up
    commands go to 0xFF. -/
theorem startAps_broadcasts : WellFormed (sampleTable 0 2) 0 (sampleEntries 0 2) 0 ∧
    ∃ s, startAps (sampleTable 0 2) 0 0 id ⟨0,[]⟩ = .ok s ∧ s.ipis = startup 0xFF ∧
      ¬StartsOthers (sampleEntries 0 2) 0 s.ipis := by
  refine ⟨sample_sparse,⟨0xFF000000,startup 0xFF⟩,by decide +kernel,rfl,?_⟩
  rintro ⟨order,sent,noBroadcast,_⟩
  obtain rfl : [0xFF] = order := startup_injective (by rw [← sent]; rfl)
  exact noBroadcast (List.mem_singleton_self _)

theorem startAps_iff_two : ∃ s, startAps (sampleTable 0 1) 0 0 id ⟨0,[]⟩ = .ok s ∧
    StartsOthers (sampleEntries 0 1) 0 s.ipis := by
  obtain ⟨s,run,right⟩ := startAps_iff sample_dense id
  exact ⟨s,run,right.mpr ⟨by decide,by decide,by decide⟩⟩

end NekoOs.Smp
