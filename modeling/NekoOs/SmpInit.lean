import NekoOs.Smp

/-!
How long `smp_init` takes, in calls of `hpet_sleep_ms`. The wait for one
processor gives up after 5000 of them. The wait for all of them at the end does
not give up.
-/
namespace NekoOs.SmpInit
open ByteMemory Madt Smp

/-- A moment in `smp_init`: the sleeps that have returned, and the readings of `aps_started` since the last. -/
structure Moment where
  slept : Nat
  reads : Nat
deriving DecidableEq

def Moment.sleep (now : Moment) : Moment := ⟨now.slept + 1,0⟩
def Moment.read (now : Moment) : Moment := ⟨now.slept,now.reads + 1⟩

def Moment.before (a b : Moment) : Prop := a.slept < b.slept ∨ a.slept = b.slept ∧ a.reads ≤ b.reads

/-- The processors count `aps_started` up and never down. -/
def Grows (aps_started : Moment → Nat) : Prop := ∀ a b : Moment, a.before b → aps_started a ≤ aps_started b

/-- `while (aps_started < expected) { hpet_sleep_ms(1); if (--timeout == 0) break; }` -/
def awaitAp (aps_started : Moment → Nat) (expected : Nat) : (timeout : Nat) → Moment → Moment
  | 0, now => now
  | timeout+1, now =>
    if aps_started now < expected then awaitAp aps_started expected timeout now.read.sleep else now.read

/-- The loop over the processors. -/
def startEach (m : Memory) (g : Globals) (bsp_id : Nat) (aps_started : Moment → Nat) :
    (fuel cpu : Nat) → Moment → Lapic → Outcome (Moment × Lapic)
  | 0, _, _, _ => .unfinished
  | fuel+1, cpu, now, s =>
    if cpu < madt_get_cpu_count g % 256 then do
      let apic_id ← madt_get_lapic_id m g cpu
      if apic_id = bsp_id then startEach m g bsp_id aps_started fuel ((cpu + 1) % 256) now s
      else
        let expected := (aps_started now + 1) % 2 ^ 32
        let s := lapic_send_ipi s apic_id 0x00004500
        let now := now.read.sleep
        let s := lapic_send_ipi s apic_id 0x00004608
        let now := now.sleep
        let s := lapic_send_ipi s apic_id 0x00004608
        let now := now.sleep
        let timeout := 5000
        startEach m g bsp_id aps_started fuel ((cpu + 1) % 256) (awaitAp aps_started expected timeout now) s
    else .ok (now,s)

/-- `while (aps_started < cpu_count - 1) hpet_sleep_ms(1);` -/
def awaitAll (aps_started : Moment → Nat) (others : Nat) : (fuel : Nat) → Moment → Outcome Moment
  | 0, _ => .unfinished
  | fuel+1, now => if aps_started now < others then awaitAll aps_started others fuel now.read.sleep else .ok now.read

def smp_init (m : Memory) (g : Globals) (bsp_id : Nat) (aps_started : Moment → Nat) (fuel : Nat) (s : Lapic) :
    Outcome (Moment × Lapic) := do
  let (now,s) ← startEach m g bsp_id aps_started 256 0 ⟨0,0⟩ s
  let now ← awaitAll aps_started ((madt_get_cpu_count g + (2 ^ 32 - 1)) % 2 ^ 32) fuel now
  .ok (now,s)

/-- After `madt_parse` of the only MADT, `smp_init` returns within a number of sleeps. -/
def ReturnsWithin (m : Memory) (madt bsp_id : Nat) (aps_started : Moment → Nat) (s : Lapic) (sleeps : Nat) : Prop :=
  ∃ g fuel now s', madt_parse m ⟨0,0⟩ madt = .ok g ∧ smp_init m g bsp_id aps_started fuel s = .ok (now,s') ∧
    now.slept ≤ sleeps

section
variable {aps_started : Moment → Nat}

theorem awaitAp_slept (expected timeout : Nat) (now : Moment) :
    (awaitAp aps_started expected timeout now).slept ≤ now.slept + timeout := by
  induction timeout generalizing now with
  | zero => exact Nat.le_refl _
  | succ timeout ih =>
    rw [awaitAp]
    by_cases waiting : aps_started now < expected
    · rw [if_pos waiting]
      have later := ih now.read.sleep
      simp only [Moment.sleep,Moment.read] at later ⊢
      omega
    · rw [if_neg waiting]
      exact Nat.le_add_right _ _

/-- The loop over the processors returns, and has slept at most 5003 times for each. -/
theorem startEach_spec {m : Memory} {g : Globals} {l : List Ics} (table : Table m g.madt_table l) (bsp_id : Nat)
    {count cpu fuel : Nat} (ends : cpu + count = g.cpu_count % 256) (enough : count < fuel) (now : Moment)
    (s : Lapic) :
    ∃ now' s', startEach m g bsp_id aps_started fuel cpu now s = .ok (now',s') ∧
      now'.slept ≤ now.slept + 5003 * count ∧
      s'.ipis = s.ipis ++ (targets (enabled l) bsp_id (List.range' cpu count)).flatMap startup := by
  induction count generalizing cpu fuel now s with
  | zero =>
    obtain ⟨fuel,rfl⟩ : ∃ k, fuel = k + 1 := ⟨fuel - 1,by omega⟩
    refine ⟨now,s,?_,Nat.le_refl _,by simp [targets]⟩
    rw [startEach,madt_get_cpu_count,if_neg (by omega)]
  | succ count ih =>
    obtain ⟨fuel,rfl⟩ : ∃ k, fuel = k + 1 := ⟨fuel - 1,by omega⟩
    have limit : g.cpu_count % 256 < 256 := Nat.mod_lt _ (by decide)
    have next : (cpu + 1) % 256 = cpu + 1 := Nat.mod_eq_of_lt (by omega)
    have small := apicIdOf_lt (fun p member => (apic_id_lt table p member).2) cpu
    rw [startEach,madt_get_cpu_count,if_pos (by omega),madt_get_lapic_id_spec table,Outcome.bind_ok,next,
      List.range'_succ]
    rw [show ((List.find? (fun p => decide (p.uid = cpu)) (enabled l)).map Processor.apic_id).getD 0xFF =
      apicIdOf (enabled l) cpu from rfl]
    by_cases boot : apicIdOf (enabled l) cpu = bsp_id
    · rw [if_pos boot]
      obtain ⟨now',s',run,slept,sent⟩ := @ih (cpu + 1) fuel (by omega) (by omega) now s
      exact ⟨now',s',run,by omega,by rw [sent]; simp [targets,boot]⟩
    · rw [if_neg boot]
      have waited := @awaitAp_slept aps_started ((aps_started now + 1) % 2 ^ 32) 5000
        now.read.sleep.sleep.sleep
      obtain ⟨now',s',run,slept,sent⟩ := @ih (cpu + 1) fuel (by omega) (by omega)
        (awaitAp aps_started ((aps_started now + 1) % 2 ^ 32) 5000 now.read.sleep.sleep.sleep)
        (lapic_send_ipi (lapic_send_ipi (lapic_send_ipi s (apicIdOf (enabled l) cpu) 0x4500)
          (apicIdOf (enabled l) cpu) 0x4608) (apicIdOf (enabled l) cpu) 0x4608)
      refine ⟨now',s',run,?_,?_⟩
      · simp only [Moment.sleep,Moment.read] at waited slept
        omega
      · rw [sent,lapic_send_ipi_eq _ small,lapic_send_ipi_eq _ small,lapic_send_ipi_eq _ small]
        simp [targets,boot,startup]

/-- The last wait ends after a reading of the number it waits for, the first of all or the first after a sleep. -/
theorem awaitAll_reached {others fuel : Nat} {now now' : Moment}
    (returned : awaitAll aps_started others fuel now = .ok now') :
    ∃ reading : Moment, others ≤ aps_started reading ∧ reading.slept = now'.slept ∧
      (reading = now ∨ now.slept < reading.slept ∧ reading.reads = 0) := by
  induction fuel generalizing now with
  | zero => cases returned
  | succ fuel ih =>
    rw [awaitAll] at returned
    by_cases waiting : aps_started now < others
    · rw [if_pos waiting] at returned
      obtain ⟨reading,reached,same,place⟩ := ih returned
      refine ⟨reading,reached,same,.inr ?_⟩
      rcases place with rfl | ⟨later,first⟩
      · exact ⟨Nat.lt_succ_self _,rfl⟩
      · exact ⟨Nat.lt_of_succ_lt later,first⟩
    · rw [if_neg waiting] at returned
      cases returned
      exact ⟨now,Nat.not_lt.mp waiting,rfl,.inl rfl⟩

/-- The last wait ends as soon as the first reading after some sleep is the number it waits for. -/
theorem awaitAll_returns {others : Nat} {sleeps left : Nat} {now : Moment} (reached : others ≤ aps_started ⟨sleeps,0⟩)
    (ends : now.slept + left = sleeps) (fresh : left = 0 → now.reads = 0) :
    ∃ fuel now', awaitAll aps_started others fuel now = .ok now' ∧ now'.slept ≤ sleeps := by
  induction left generalizing now with
  | zero =>
    obtain ⟨slept,reads⟩ := now
    obtain rfl : slept = sleeps := ends
    obtain rfl : reads = 0 := fresh rfl
    exact ⟨1,_,by rw [awaitAll,if_neg (by omega)],Nat.le_refl _⟩
  | succ left ih =>
    by_cases waiting : aps_started now < others
    · obtain ⟨fuel,now',run,bound⟩ := @ih now.read.sleep (by simp only [Moment.sleep,Moment.read]; omega) (fun _ => rfl)
      exact ⟨fuel + 1,now',by rw [awaitAll,if_pos waiting]; exact run,bound⟩
    · refine ⟨1,now.read,by rw [awaitAll,if_neg waiting],?_⟩
      simp only [Moment.read]
      omega

theorem awaitAll_iff (grows : Grows aps_started) {others sleeps : Nat} {now : Moment} (ahead : now.slept < sleeps) :
    (∃ fuel now', awaitAll aps_started others fuel now = .ok now' ∧ now'.slept ≤ sleeps) ↔
      others ≤ aps_started ⟨sleeps,0⟩ := by
  constructor
  · rintro ⟨fuel,now',returned,bound⟩
    obtain ⟨reading,reached,same,place⟩ := awaitAll_reached returned
    refine reached.trans (grows reading ⟨sleeps,0⟩ ?_)
    rcases Nat.lt_or_eq_of_le (same ▸ bound) with sooner | last
    · exact .inl sooner
    · rcases place with rfl | ⟨_,first⟩
      · exact absurd last (Nat.ne_of_lt ahead)
      · exact .inr ⟨last,Nat.le_of_eq first⟩
  · intro reached
    exact @awaitAll_returns aps_started others sleeps (sleeps - now.slept) now reached (by omega) (fun none => absurd none (by omega))

end

/-- A table has fewer processors than its 32-bit length has values. -/
theorem few_enabled {m : Memory} {madt : Nat} {l : List Ics} (table : Table m madt l) :
    (enabled l).length < 2 ^ 32 := by
  have some : (enabled l).length ≤ l.length := List.length_filterMap_le Ics.processor l
  have inside := sequence_length table
  have small : tableLength m madt < 256 ^ 4 := load_lt m (madt + 4) 4
  simp only [sizeof_madt] at inside
  omega

/-- For every well-formed table of at least one enabled processor and every behaviour of the others, `smp_init`
    returns within a number of sleeps above 5003 for each if and only if by then all the others have checked in. -/
theorem smp_init_returns_iff {m : Memory} {madt : Nat} {l : List Ics} (table : Table m madt l) (some : enabled l ≠ [])
    (bsp_id : Nat) {aps_started : Moment → Nat} (grows : Grows aps_started) (s : Lapic) {sleeps : Nat}
    (enough : 5003 * ((enabled l).length % 256) < sleeps) :
    ReturnsWithin m madt bsp_id aps_started s sleeps ↔ (enabled l).length - 1 ≤ aps_started ⟨sleeps,0⟩ := by
  have few := few_enabled table
  have many : 0 < (enabled l).length := List.length_pos_iff.mpr some
  have parsed := madt_parse_spec (g := ⟨0,0⟩) table (by decide)
  rw [Nat.zero_add,Nat.mod_eq_of_lt few] at parsed
  have others : ((enabled l).length + (2 ^ 32 - 1)) % 2 ^ 32 = (enabled l).length - 1 := by omega
  obtain ⟨now,s',started,slept,_⟩ := @startEach_spec aps_started m ⟨madt,(enabled l).length⟩ l table bsp_id
    ((enabled l).length % 256) 0 256 (Nat.zero_add _) (Nat.mod_lt _ (by decide)) ⟨0,0⟩ s
  have run (fuel : Nat) : smp_init m ⟨madt,(enabled l).length⟩ bsp_id aps_started fuel s =
      (do let now ← awaitAll aps_started ((enabled l).length - 1) fuel now; .ok (now,s')) := by
    rw [smp_init,started,Outcome.bind_ok,madt_get_cpu_count,others]
  rw [← @awaitAll_iff aps_started grows _ sleeps now (by simp only at slept; omega)]
  constructor
  · rintro ⟨g,fuel,now',s'',parsed',returned,bound⟩
    obtain rfl : g = ⟨madt,(enabled l).length⟩ := Outcome.ok.inj (parsed'.symm.trans parsed)
    rw [run] at returned
    obtain ⟨now'',waited,same⟩ := Outcome.bind_eq_ok.mp returned
    cases same
    exact ⟨fuel,now',waited,bound⟩
  · rintro ⟨fuel,now',waited,bound⟩
    exact ⟨_,fuel,now',s',parsed,by rw [run,waited,Outcome.bind_ok],bound⟩

/-- The other one of two processors checks in after the third sleep. -/
theorem smp_init_returns_two :
    ReturnsWithin (sampleTable 0 1) 0 0 (fun now => if 3 ≤ now.slept then 1 else 0) ⟨0,[]⟩ 10007 := by
  have table : Table (sampleTable 0 1) 0 (sampleEntries 0 1) := by decide +kernel
  refine (smp_init_returns_iff table (by decide) 0 (fun a b order => ?_) ⟨0,[]⟩ (by decide)).mpr (by decide)
  rcases order with more | ⟨same,_⟩
  · show (if 3 ≤ a.slept then 1 else 0) ≤ (if 3 ≤ b.slept then 1 else 0)
    split <;> split <;> omega
  · exact Nat.le_of_eq (by simp only [same])

/-- No number of sleeps is enough for two processors of which one never checks in. -/
theorem smp_init_unbounded : ¬∃ bound : Nat → Nat, ∀ (m : Memory) (madt bsp_id : Nat) (l : List Ics)
    (aps_started : Moment → Nat) (s : Lapic), Table m madt l → enabled l ≠ [] → Grows aps_started →
      ReturnsWithin m madt bsp_id aps_started s (bound (enabled l).length) := by
  rintro ⟨bound,within⟩
  have table : Table (sampleTable 0 1) 0 (sampleEntries 0 1) := by decide +kernel
  obtain ⟨g,fuel,now,s,parsed,returned,_⟩ :=
    within (sampleTable 0 1) 0 0 (sampleEntries 0 1) (fun _ => 0) ⟨0,[]⟩ table (by decide) (fun _ _ _ => Nat.le_refl 0)
  obtain rfl : g = ⟨0,2⟩ := Outcome.ok.inj (parsed.symm.trans (madt_parse_spec table (by decide)))
  obtain ⟨started,_,last⟩ := Outcome.bind_eq_ok.mp returned
  obtain ⟨now',waited,_⟩ := Outcome.bind_eq_ok.mp last
  obtain ⟨_,reached,_⟩ := awaitAll_reached waited
  exact absurd reached (by decide)

end NekoOs.SmpInit
