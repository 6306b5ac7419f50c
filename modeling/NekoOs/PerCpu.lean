import NekoOs.ApStart
import Mathlib.Data.Nat.ModEq

/-!
The arrays with one element for each processor. `ap_stacks` is indexed by the
number in the loop of `smp_init`, `cpu_locals` by the APIC id of the processor
that runs, and both have 16 elements.
-/
namespace NekoOs.PerCpu
open Madt Smp Transitions ApStart

section
variable {b : Boot} {l : List Ics} {s : State}

/-- The boot processor runs `kernel_main`, and others have been called into `ap_main`. -/
def Running (b : Boot) (s : State) (lapic_id : Nat) : Prop :=
  lapic_id = b.bsp_id ∨ lapic_id ≠ b.bsp_id ∧ (s.aps lapic_id).running = true

/-- The index of the next stack and those of the running processors are in range,
    and running processors have different stacks and different local data. -/
structure InRange (b : Boot) (s : State) : Prop where
  stack_index : ∀ t, s.phase = .turn t .stack → t.cpu < MAX_APS
  local_index : ∀ a, Running b s a → a < MAX_CPUS
  tops : ∀ a a' top, a ≠ b.bsp_id → a' ≠ b.bsp_id → Running b s a → Running b s a' →
    (s.aps a).stack = some top → (s.aps a').stack = some top → a = a'
  locals : ∀ a a', Running b s a → Running b s a' → cpu_local b a = cpu_local b a' → a = a'

/-- The processors other than the boot processor that accept what is sent to a destination. -/
def Hears (l : List Ics) (bsp_id destination a : Nat) : Prop :=
  a ∈ (enabled l).map Processor.apic_id ∧ a ≠ bsp_id ∧ accepts destination a

/-- Every number that is not the boot processor's is an index of `ap_stacks`, and
    what is sent for it reaches at most one processor, which has an index of `cpu_locals`. -/
structure Roomy (l : List Ics) (bsp_id : Nat) : Prop where
  boot : bsp_id < MAX_CPUS
  number : ∀ k < (enabled l).length % 256, apicIdOf (enabled l) k ≠ bsp_id → k < MAX_APS
  heard : ∀ k < (enabled l).length % 256, apicIdOf (enabled l) k ≠ bsp_id →
    ∀ a, Hears l bsp_id (apicIdOf (enabled l) k) a → a < MAX_CPUS
  alone : ∀ k < (enabled l).length % 256, apicIdOf (enabled l) k ≠ bsp_id →
    ∀ a a', Hears l bsp_id (apicIdOf (enabled l) k) a → Hears l bsp_id (apicIdOf (enabled l) k) a' → a = a'

/-! ### Roomy tables -/

theorem running_stack {ap : Ap} (running : ap.running = true) : ∃ top, ap.stack = some top := by
  cases ap with
  | ap_main cr3 rsp rip | online cr3 rsp rip | worker cr3 rsp rip => exact ⟨rsp,rfl⟩
  | _ => simp [Ap.running] at running

/-- A stack that a processor has is that of a number whose commands reach it. -/
theorem stack_number (described : Described b l) (assigned : Assigned b accepts s) {a top : Nat}
    (held : (s.aps a).stack = some top) : ∃ k < (enabled l).length % 256, apicIdOf (enabled l) k ≠ b.bsp_id ∧
      Hears l b.bsp_id (apicIdOf (enabled l) k) a ∧ StackFor b (apicIdOf (enabled l) k) top := by
  obtain ⟨present,other,d,served,stack⟩ := assigned.loads _ (assigned.loaded a top held)
  have stack' := stack
  obtain ⟨k,inside,found,skipped,_⟩ := stack'
  obtain rfl := Outcome.ok_injective ((described.lookup k).symm.trans found)
  exact ⟨k,described.count ▸ inside,skipped,⟨described.processors ▸ present,other,served⟩,stack⟩

theorem cpu_local_injective {a a' : Nat} (small : a < MAX_CPUS) (small' : a' < MAX_CPUS)
    (same : cpu_local b a = cpu_local b a') : a = a' := by
  have apart : a * sizeof_cpu_local ≡ a' * sizeof_cpu_local [MOD 2 ^ 64] := Nat.ModEq.add_left_cancel' _ same
  simp only [sizeof_cpu_local,MAX_CPUS] at small small' apart
  have equal := apart.eq_of_lt_of_lt (by omega) (by omega)
  omega

theorem Roomy.inRange (roomy : Roomy l b.bsp_id) (described : Described b l) (assigned : Assigned b accepts s) :
    InRange b s := by
  have local_index (a : Nat) (running : Running b s a) : a < MAX_CPUS := by
    rcases running with rfl | ⟨_,running⟩
    · exact roomy.boot
    · obtain ⟨top,held⟩ := running_stack running
      obtain ⟨k,inside,skipped,hears,_⟩ := stack_number described assigned held
      exact roomy.heard k inside skipped a hears
  refine ⟨?_,local_index,?_,?_⟩
  · intro t phase
    have sound := assigned.phase
    rw [phase] at sound
    obtain ⟨inside,found,skipped⟩ := sound
    have same := Outcome.ok_injective ((described.lookup t.cpu).symm.trans found)
    exact roomy.number t.cpu (described.count ▸ inside) (same ▸ skipped)
  · intro a a' top _ _ _ _ held held'
    obtain ⟨k,inside,skipped,hears,stack⟩ := stack_number described assigned held
    obtain ⟨k',_,_,hears',stack'⟩ := stack_number described assigned held'
    rw [← stackFor_unique stack stack'] at hears'
    exact roomy.alone k inside skipped a a' hears hears'
  · exact fun a a' running running' => cpu_local_injective (local_index a running) (local_index a' running')

/-! ### Every number is reached -/

/-- If nobody checks in, each wait runs out and the loop comes to every number. -/
theorem reach_next (described : Described b l) {k : Nat} (inside : k ≤ (enabled l).length % 256) :
    ∃ s, ((startUp b).restrict (Prompt accepts)).Reachable s ∧ s.phase = .next k ∧ s.aps_started = 0 := by
  induction k with
  | zero => exact ⟨start,System.reachable_initial rfl,rfl,rfl⟩
  | succ k ih =>
    obtain ⟨s,reached,phase,started⟩ := ih (by omega)
    have limit : (enabled l).length % 256 < 256 := Nat.mod_lt _ (by omega)
    have next := bsp_step accepts (next_step described phase inside)
    by_cases boot : apicIdOf (enabled l) k = b.bsp_id
    · rw [if_pos boot] at next
      exact ⟨_,reached.step next,rfl,started⟩
    · rw [if_neg boot] at next
      obtain ⟨r,run,sent⟩ := turn_run (b := b) (s := { s with phase := .chosen k (apicIdOf (enabled l) k) })
        accepts rfl
      have early : r.aps_started < (s.aps_started + 1) % 2 ^ 32 := by
        rw [sent.started]
        simp only [started]
        omega
      have waited := wait_run (b := b) accepts 4999 sent.phase early
      simp only [Nat.mod_eq_of_lt (show k + 1 < 256 by omega)] at waited
      exact ⟨_,((reached.step next).run run).run waited,rfl,sent.started.trans started⟩

theorem reach_chosen (described : Described b l) {k : Nat} (inside : k < (enabled l).length % 256)
    (other : apicIdOf (enabled l) k ≠ b.bsp_id) : ∃ s, ((startUp b).restrict (Prompt accepts)).Reachable s ∧
      s.phase = .chosen k (apicIdOf (enabled l) k) := by
  obtain ⟨s,reached,phase,_⟩ := reach_next described (Nat.le_of_lt inside)
  have next := bsp_step accepts (next_step described phase inside)
  rw [if_neg other] at next
  exact ⟨_,reached.step next,rfl⟩

/-- Those that hear the commands for a number can run with its stack. -/
theorem reach_running (described : Described b l) {k : Nat} (inside : k < (enabled l).length % 256)
    (other : apicIdOf (enabled l) k ≠ b.bsp_id) {a a' : Nat} (hears : Hears l b.bsp_id (apicIdOf (enabled l) k) a)
    (hears' : Hears l b.bsp_id (apicIdOf (enabled l) k) a') :
    ∃ s, ((startUp b).restrict (Prompt accepts)).Reachable s ∧ Running b s a ∧ Running b s a' ∧
      (s.aps a).stack = some (get_ap_stack b k) ∧ (s.aps a').stack = some (get_ap_stack b k) := by
  obtain ⟨s,reached,phase⟩ := reach_chosen described inside other
  obtain ⟨r,run,sent⟩ := turn_run (b := b) accepts phase
  have first := ap_run accepts (sent.reached a hears.2.2) (described.processors ▸ hears.1) hears.2.1
    ⟨_,sent.patched,hears.2.2⟩
  have ran := (reached.run run).run first
  by_cases same : a' = a
  · subst same
    exact ⟨_,ran,by simp [Running,Ap.running,hears.2.1],by simp [Running,Ap.running,hears.2.1],
      by simp [Ap.stack,sent.stack],by simp [Ap.stack,sent.stack]⟩
  · have second := ap_run (b := b) (a := a') (s := { r with
      aps := Function.update r.aps a
        (.ap_main r.data.trampoline_pml4 r.data.trampoline_stack r.data.trampoline_entry)
      loads := ⟨a,r.data.trampoline_stack⟩ :: r.loads }) accepts (by simp [same,sent.reached a' hears'.2.2])
      (described.processors ▸ hears'.1) hears'.2.1 ⟨_,sent.patched,hears'.2.2⟩
    exact ⟨_,ran.run second,by simp [Running,Ap.running,hears.2.1,Ne.symm same],by simp [Running,Ap.running,hears'.2.1],
      by simp [Ap.stack,sent.stack,Ne.symm same],by simp [Ap.stack,sent.stack]⟩

/-- In every run in which processors load and check in while they are served, the
    per-processor arrays are indexed in range and not shared, if and only if the
    table is roomy. -/
theorem in_range_iff (described : Described b l) :
    (∀ s, ((startUp b).restrict (Prompt accepts)).Reachable s → InRange b s) ↔ Roomy l b.bsp_id := by
  constructor
  · intro always
    refine ⟨?_,?_,?_,?_⟩
    · exact (always start (System.reachable_initial rfl)).local_index b.bsp_id (.inl rfl)
    · intro k inside other
      obtain ⟨s,reached,phase⟩ := reach_chosen described inside other
      let expecting := { s with
        phase := .turn ⟨k,apicIdOf (enabled l) k,(s.aps_started + 1) % 2 ^ 32⟩ .pml4, signalled := none }
      have expect : bspStep b s = some expecting := by simp [bspStep,phase,expecting]
      have pml4 : bspStep b expecting = some { expecting with
          phase := .turn ⟨k,apicIdOf (enabled l) k,(s.aps_started + 1) % 2 ^ 32⟩ .stack
          data := { s.data with trampoline_pml4 := b.cr3 % 2 ^ 32 } } := rfl
      exact (always _ ((reached.step (bsp_step accepts expect)).step (bsp_step accepts pml4))).stack_index _ rfl
    · intro k inside other a hears
      obtain ⟨s,reached,running,_⟩ := reach_running described inside other hears hears
      exact (always s reached).local_index a running
    · intro k inside other a a' hears hears'
      obtain ⟨s,reached,running,running',held,held'⟩ := reach_running described inside other hears hears'
      exact (always s reached).tops a a' _ hears.2.1 hears'.2.1 running running' held held'
  · exact fun roomy s reached => roomy.inRange described (assigned_reachable reached)

end

/-- Three processors with the APIC ids 0, 1 and 2. -/
theorem three_roomy : Roomy (entriesOf [0,1,2]) 0 := by
  have same : ∀ k < 3, apicIdOf (enabled (entriesOf [0,1,2])) k = k := by decide
  have heard {k a : Nat} (inside : k < 3)
      (hears : Hears (entriesOf [0,1,2]) 0 (apicIdOf (enabled (entriesOf [0,1,2])) k) a) : a = k := by
    obtain ⟨_,_,exactly | everyone⟩ := hears
    · rw [← exactly,same k inside]
    · rw [same k inside] at everyone
      omega
  refine ⟨by decide,?_,?_,?_⟩
  · exact fun k inside _ => Nat.lt_trans (show k < 3 from inside) (by decide)
  · intro k inside _ a hears
    obtain rfl := heard inside hears
    exact Nat.lt_trans (show a < 3 from inside) (by decide)
  · exact fun k inside _ a a' hears hears' => (heard inside hears).trans (heard inside hears').symm

theorem in_range_three : Described (sampleBoot [0,1,2]) (entriesOf [0,1,2]) ∧
    ∀ s, ((startUp (sampleBoot [0,1,2])).restrict (Prompt accepts)).Reachable s → InRange (sampleBoot [0,1,2]) s :=
  ⟨three_described,(in_range_iff three_described).mpr three_roomy⟩

/-- A processor with the APIC id 16 has no local data. -/
theorem locals_exceeded : Described (sampleBoot [0,16]) (entriesOf [0,16]) ∧
    ∃ s, (startUp (sampleBoot [0,16])).Reachable s ∧ Running (sampleBoot [0,16]) s 16 ∧
      ¬InRange (sampleBoot [0,16]) s := by
  have table : Table (tableOf [0,16]) 0 (entriesOf [0,16]) := by decide +kernel
  have described : Described (sampleBoot [0,16]) (entriesOf [0,16]) := ⟨table,madt_parse_spec table (by simp),rfl⟩
  have hears : Hears (entriesOf [0,16]) 0 (apicIdOf (enabled (entriesOf [0,16])) 1) 16 :=
    ⟨by decide,by decide,accepts_self 16⟩
  obtain ⟨s,reached,running,_⟩ := reach_running (k := 1) described (by decide) (by decide) hears hears
  refine ⟨described,s,reached.unrestricted,running,fun inRange => ?_⟩
  exact absurd (inRange.local_index 16 running) (by decide)

end NekoOs.PerCpu
