import NekoOs.Smp
import NekoOs.Transitions
import Mathlib.Logic.Function.Basic

/-!
The boot processor and the application processors during `smp_init`. They share
the data that is patched into the trampoline and the counter `aps_started`, and
a processor that was signalled may load the one and count up the other at any
later time, also after `smp_init` has turned to another processor.
-/
namespace NekoOs.ApStart
open ByteMemory Madt Smp Transitions

def AP_STACK_SIZE : Nat := 0x4000
def MAX_APS : Nat := 16
def MAX_CPUS : Nat := 16

/-- `sizeof(cpu_local_t)` -/
def sizeof_cpu_local : Nat := 24

/-- What does not change during `smp_init`: the tables, the processors by their
    APIC ids, the addresses of `ap_stacks`, `cpu_locals` and `ap_main`, and `cr3`. -/
structure Boot where
  m : Memory
  g : Globals
  bsp_id : Nat
  processors : List Nat
  ap_stacks : Nat
  cpu_locals : Nat
  ap_main : Nat
  cr3 : Nat

def get_ap_stack (b : Boot) (cpu_id : Nat) : Nat := (b.ap_stacks + cpu_id * AP_STACK_SIZE + AP_STACK_SIZE) % 2 ^ 64

def cpu_local (b : Boot) (lapic_id : Nat) : Nat := (b.cpu_locals + lapic_id * sizeof_cpu_local) % 2 ^ 64

/-- `aps_expected`, which is set before the loop. -/
def aps_expected (b : Boot) : Nat := (madt_get_cpu_count b.g + 2 ^ 32 - 1) % 2 ^ 32

/-- The data area of the trampoline. -/
structure Data where
  trampoline_pml4 : Nat
  trampoline_stack : Nat
  trampoline_entry : Nat

/-- Where an application processor is, and the registers it has loaded. -/
inductive Ap
  | halted
  | trampoline_start
  | trampoline_lm (cr3 : Nat)
  | stacked (cr3 rsp : Nat)
  -- in the called function, before `__sync_fetch_and_add`
  | ap_main (cr3 rsp rip : Nat)
  | online (cr3 rsp rip : Nat)
  | worker (cr3 rsp rip : Nat)

def Ap.checkedIn : Ap → Bool
  | .online _ _ _ | .worker _ _ _ => true
  | _ => false

/-- The stack of a processor that has loaded one. -/
def Ap.stack : Ap → Option Nat
  | .stacked _ rsp | .ap_main _ rsp _ | .online _ rsp _ | .worker _ rsp _ => some rsp
  | _ => none

def Ap.running : Ap → Bool
  | .ap_main _ _ _ | .online _ _ _ | .worker _ _ _ => true
  | _ => false

/-- The variables of one iteration of the loop. -/
structure Turn where
  cpu : Nat
  apic_id : Nat
  expected : Nat

/-- What `smp_init` does next for a processor. -/
inductive Stage
  | pml4
  | stack
  | entry
  | init
  | sipi
  | second
  | waiting (timeout : Nat)

inductive Phase
  | next (cpu : Nat)
  | chosen (cpu apic_id : Nat)
  | turn (t : Turn) (stage : Stage)
  | joining
  | finished

/-- A processor has loaded a stack from the trampoline. -/
structure Load where
  apic_id : Nat
  top : Nat

/-- `loads` is a history. `patched` is the destination for which the stack in the
    trampoline is, and `signalled` that of the last start-up command until
    `smp_init` reads `aps_started` for the next one. -/
structure State where
  phase : Phase
  data : Data
  aps : Nat → Ap
  aps_started : Nat
  lapic : Lapic
  loads : List Load
  patched : Option Nat
  signalled : Option Nat

/-- A local APIC accepts what is sent to its id or to everyone. -/
def accepts (destination apic_id : Nat) : Prop := destination = apic_id ∨ destination = 0xFF

instance (destination apic_id : Nat) : Decidable (accepts destination apic_id) := inferInstanceAs (Decidable (_ ∨ _))

/-- The delivery modes 5 and 6 are INIT and start-up; only a halted processor starts. -/
def Ap.receive (ap : Ap) (command : Nat) : Ap :=
  if command / 2 ^ 8 % 8 = 5 then .halted
  else if command / 2 ^ 8 % 8 = 6 then
    match ap with
    | .halted => .trampoline_start
    | ap => ap
  else ap

/-- The command is sent, and arrives. -/
def send (s : State) (apic_id flags : Nat) : State :=
  { s with
    lapic := lapic_send_ipi s.lapic apic_id flags
    aps := fun a => if accepts apic_id a then (s.aps a).receive flags else s.aps a }

/-- The boot processor in `smp_init`, from the loop over the processors on. -/
def bspStep (b : Boot) (s : State) : Option State :=
  match s.phase with
  | .next cpu =>
    if cpu < madt_get_cpu_count b.g % 256 then
      match madt_get_lapic_id b.m b.g cpu with
      | .ok apic_id =>
        if apic_id = b.bsp_id then some { s with phase := .next ((cpu + 1) % 256) }
        else some { s with phase := .chosen cpu apic_id }
      | _ => none
    else some { s with phase := .joining }
  | .chosen cpu apic_id =>
    some { s with phase := .turn ⟨cpu,apic_id,(s.aps_started + 1) % 2 ^ 32⟩ .pml4, signalled := none }
  | .turn t .pml4 =>
    some { s with phase := .turn t .stack, data := { s.data with trampoline_pml4 := b.cr3 % 2 ^ 32 } }
  | .turn t .stack =>
    some { s with
      phase := .turn t .entry
      data := { s.data with trampoline_stack := get_ap_stack b t.cpu }
      patched := some t.apic_id }
  | .turn t .entry =>
    some { s with phase := .turn t .init, data := { s.data with trampoline_entry := b.ap_main } }
  | .turn t .init => some { send s t.apic_id 0x00004500 with phase := .turn t .sipi }
  | .turn t .sipi => some { send s t.apic_id 0x00004608 with phase := .turn t .second, signalled := some t.apic_id }
  | .turn t .second => some { send s t.apic_id 0x00004608 with phase := .turn t (.waiting 5000) }
  | .turn t (.waiting timeout) =>
    if s.aps_started < t.expected then
      -- `if (--timeout == 0) break;`
      if timeout - 1 = 0 then some { s with phase := .next ((t.cpu + 1) % 256) }
      else some { s with phase := .turn t (.waiting (timeout - 1)) }
    else some { s with phase := .next ((t.cpu + 1) % 256) }
  | .joining =>
    if s.aps_started < (madt_get_cpu_count b.g + 2 ^ 32 - 1) % 2 ^ 32 then some s else some { s with phase := .finished }
  | .finished => none

/-- An application processor in the trampoline and in `ap_main`. -/
def apStep (b : Boot) (s : State) (a : Nat) : Option State :=
  match s.aps a with
  | .halted => none
  | .trampoline_start =>
    some { s with aps := Function.update s.aps a (.trampoline_lm s.data.trampoline_pml4) }
  | .trampoline_lm cr3 =>
    some { s with
      aps := Function.update s.aps a (.stacked cr3 s.data.trampoline_stack)
      loads := ⟨a,s.data.trampoline_stack⟩ :: s.loads }
  | .stacked cr3 rsp =>
    some { s with aps := Function.update s.aps a (.ap_main cr3 rsp s.data.trampoline_entry) }
  | .ap_main cr3 rsp rip =>
    some { s with
      aps := Function.update s.aps a (.online cr3 rsp rip)
      aps_started := (s.aps_started + 1) % 2 ^ 32 }
  | .online cr3 rsp rip =>
    if s.aps_started < aps_expected b then some s
    else some { s with aps := Function.update s.aps a (.worker cr3 rsp rip) }
  | .worker _ _ _ => none

inductive Action
  | bsp
  | ap (apic_id : Nat)

def step (b : Boot) (s : State) : Action → Option State
  | .bsp => bspStep b s
  | .ap a => if a ∈ b.processors ∧ a ≠ b.bsp_id then apStep b s a else none

/-- The trampoline has been copied, and nothing is sent. -/
def start : State := ⟨.next 0,⟨0,0,0⟩,fun _ => .halted,0,⟨0,[]⟩,[],none,none⟩

def startUp (b : Boot) : System State Action := System.ofFunction (· = start) (step b)

/-- A processor loads its stack only while it is the one the trampoline is patched
    for, and checks in only while it is the one that was signalled last. -/
def Prompt (serves : Nat → Nat → Prop) (s : State) : Action → Prop
  | .bsp => True
  | .ap a =>
    match s.aps a with
    | .trampoline_lm _ => ∃ d, s.patched = some d ∧ serves d a
    | .ap_main _ _ _ => ∃ d, s.signalled = some d ∧ serves d a
    | _ => True

/-! ### What the steps can do -/

section
variable {b : Boot} {s s' : State} {serves : Nat → Nat → Prop}

/-- The steps of the boot processor. -/
inductive BspMove (b : Boot) (s : State) : State → Prop
  | skip (cpu : Nat) : s.phase = .next cpu → cpu < b.g.cpu_count % 256 → madt_get_lapic_id b.m b.g cpu = .ok b.bsp_id →
      BspMove b s { s with phase := .next (cpu + 1) }
  | choose (cpu apic_id : Nat) : s.phase = .next cpu → cpu < b.g.cpu_count % 256 →
      madt_get_lapic_id b.m b.g cpu = .ok apic_id → apic_id ≠ b.bsp_id →
      BspMove b s { s with phase := .chosen cpu apic_id }
  | join (cpu : Nat) : s.phase = .next cpu → b.g.cpu_count % 256 ≤ cpu → BspMove b s { s with phase := .joining }
  | expect (cpu apic_id : Nat) : s.phase = .chosen cpu apic_id →
      BspMove b s { s with phase := .turn ⟨cpu,apic_id,(s.aps_started + 1) % 2 ^ 32⟩ .pml4, signalled := none }
  | pml4 (t : Turn) : s.phase = .turn t .pml4 →
      BspMove b s { s with phase := .turn t .stack, data := { s.data with trampoline_pml4 := b.cr3 % 2 ^ 32 } }
  | stack (t : Turn) : s.phase = .turn t .stack → BspMove b s { s with
      phase := .turn t .entry
      data := { s.data with trampoline_stack := get_ap_stack b t.cpu }
      patched := some t.apic_id }
  | entry (t : Turn) : s.phase = .turn t .entry →
      BspMove b s { s with phase := .turn t .init, data := { s.data with trampoline_entry := b.ap_main } }
  | init (t : Turn) : s.phase = .turn t .init → BspMove b s { send s t.apic_id 0x00004500 with phase := .turn t .sipi }
  | sipi (t : Turn) : s.phase = .turn t .sipi →
      BspMove b s { send s t.apic_id 0x00004608 with phase := .turn t .second, signalled := some t.apic_id }
  | second (t : Turn) : s.phase = .turn t .second →
      BspMove b s { send s t.apic_id 0x00004608 with phase := .turn t (.waiting 5000) }
  | poll (t : Turn) (timeout : Nat) : s.phase = .turn t (.waiting timeout) → s.aps_started < t.expected →
      BspMove b s { s with phase := .turn t (.waiting (timeout - 1)) }
  | leave (t : Turn) (timeout : Nat) : s.phase = .turn t (.waiting timeout) →
      (s.aps_started < t.expected → timeout ≤ 1) → BspMove b s { s with phase := .next ((t.cpu + 1) % 256) }
  | stay : s.phase = .joining → BspMove b s s
  | finish : s.phase = .joining → BspMove b s { s with phase := .finished }

theorem bspStep_cases (taken : bspStep b s = some s') : BspMove b s s' := by
  unfold bspStep at taken
  split at taken
  next cpu phase =>
    by_cases inside : cpu < b.g.cpu_count % 256
    · have limit : b.g.cpu_count % 256 < 256 := Nat.mod_lt _ (by omega)
      simp only [madt_get_cpu_count,if_pos inside,Nat.mod_eq_of_lt (show cpu + 1 < 256 by omega)] at taken
      split at taken
      next apic_id found =>
        by_cases boot : apic_id = b.bsp_id
        · rw [if_pos boot] at taken
          obtain rfl := Option.some.inj taken
          exact .skip cpu phase inside (boot ▸ found)
        · rw [if_neg boot] at taken
          obtain rfl := Option.some.inj taken
          exact .choose cpu apic_id phase inside found boot
      next => simp at taken
    · rw [madt_get_cpu_count,if_neg inside] at taken
      obtain rfl := Option.some.inj taken
      exact .join cpu phase (by omega)
  next cpu apic_id phase => exact Option.some.inj taken ▸ .expect cpu apic_id phase
  next t phase => exact Option.some.inj taken ▸ .pml4 t phase
  next t phase => exact Option.some.inj taken ▸ .stack t phase
  next t phase => exact Option.some.inj taken ▸ .entry t phase
  next t phase => exact Option.some.inj taken ▸ .init t phase
  next t phase => exact Option.some.inj taken ▸ .sipi t phase
  next t phase => exact Option.some.inj taken ▸ .second t phase
  next t timeout phase =>
    by_cases early : s.aps_started < t.expected
    · rw [if_pos early] at taken
      by_cases last : timeout - 1 = 0
      · rw [if_pos last] at taken
        exact Option.some.inj taken ▸ .leave t timeout phase (fun _ => by omega)
      · rw [if_neg last] at taken
        exact Option.some.inj taken ▸ .poll t timeout phase early
    · rw [if_neg early] at taken
      exact Option.some.inj taken ▸ .leave t timeout phase (fun before => absurd before early)
  next phase =>
    split at taken
    · exact Option.some.inj taken ▸ .stay phase
    · exact Option.some.inj taken ▸ .finish phase
  next => simp at taken

/-- The steps of an application processor. -/
inductive ApMove (s : State) (a : Nat) : State → Prop
  | page : s.aps a = .trampoline_start →
      ApMove s a { s with aps := Function.update s.aps a (.trampoline_lm s.data.trampoline_pml4) }
  | load (cr3 : Nat) : s.aps a = .trampoline_lm cr3 → ApMove s a { s with
      aps := Function.update s.aps a (.stacked cr3 s.data.trampoline_stack)
      loads := ⟨a,s.data.trampoline_stack⟩ :: s.loads }
  | enter (cr3 rsp : Nat) : s.aps a = .stacked cr3 rsp →
      ApMove s a { s with aps := Function.update s.aps a (.ap_main cr3 rsp s.data.trampoline_entry) }
  | check_in (cr3 rsp rip : Nat) : s.aps a = .ap_main cr3 rsp rip → ApMove s a { s with
      aps := Function.update s.aps a (.online cr3 rsp rip)
      aps_started := (s.aps_started + 1) % 2 ^ 32 }
  | spin : ApMove s a s
  | work (cr3 rsp rip : Nat) : s.aps a = .online cr3 rsp rip →
      ApMove s a { s with aps := Function.update s.aps a (.worker cr3 rsp rip) }

theorem apStep_cases {a : Nat} (taken : apStep b s a = some s') : ApMove s a s' := by
  unfold apStep at taken
  split at taken
  next => simp at taken
  next place => exact Option.some.inj taken ▸ .page place
  next cr3 place => exact Option.some.inj taken ▸ .load cr3 place
  next cr3 rsp place => exact Option.some.inj taken ▸ .enter cr3 rsp place
  next cr3 rsp rip place => exact Option.some.inj taken ▸ .check_in cr3 rsp rip place
  next cr3 rsp rip place =>
    split at taken
    · exact Option.some.inj taken ▸ .spin
    · exact Option.some.inj taken ▸ .work cr3 rsp rip place
  next => simp at taken

/-- A step is one of the boot processor or of another processor that there is. -/
theorem step_cases {action : Action} (taken : step b s action = some s') :
    (action = .bsp ∧ BspMove b s s') ∨
      ∃ a, action = .ap a ∧ a ∈ b.processors ∧ a ≠ b.bsp_id ∧ ApMove s a s' := by
  cases action with
  | bsp => exact .inl ⟨rfl,bspStep_cases taken⟩
  | ap a =>
    simp only [step] at taken
    split at taken
    next present => exact .inr ⟨a,rfl,present.1,present.2,apStep_cases taken⟩
    next => simp at taken

/-! ### Whose stack a processor loads -/

/-- The stack of a number that `smp_init` looks up and does not skip. -/
def StackFor (b : Boot) (destination top : Nat) : Prop :=
  ∃ cpu, cpu < b.g.cpu_count % 256 ∧ madt_get_lapic_id b.m b.g cpu = .ok destination ∧ destination ≠ b.bsp_id ∧
    top = get_ap_stack b cpu

/-- The variables of an iteration are those of one number. -/
def Phase.Sound (b : Boot) : Phase → Prop
  | .chosen cpu apic_id | .turn ⟨cpu,apic_id,_⟩ _ =>
    cpu < b.g.cpu_count % 256 ∧ madt_get_lapic_id b.m b.g cpu = .ok apic_id ∧ apic_id ≠ b.bsp_id
  | _ => True

/-- Every loaded stack is that of a number whose destination serves the processor. -/
structure Assigned (b : Boot) (serves : Nat → Nat → Prop) (s : State) : Prop where
  phase : s.phase.Sound b
  patched : ∀ d, s.patched = some d → StackFor b d s.data.trampoline_stack
  loads : ∀ p ∈ s.loads, p.apic_id ∈ b.processors ∧ p.apic_id ≠ b.bsp_id ∧
    ∃ d, serves d p.apic_id ∧ StackFor b d p.top
  loaded : ∀ a top, (s.aps a).stack = some top → ⟨a,top⟩ ∈ s.loads

theorem receive_stack {ap : Ap} {command top : Nat} (held : (ap.receive command).stack = some top) :
    ap.stack = some top := by
  unfold Ap.receive at held
  split at held
  · simp [Ap.stack] at held
  · split at held
    · cases ap <;> exact held
    · exact held

/-- What is sent gives no processor a stack. -/
theorem send_stacks {apic_id flags a top : Nat} (held : ((send s apic_id flags).aps a).stack = some top) :
    (s.aps a).stack = some top := by
  simp only [send] at held
  split at held
  · exact receive_stack held
  · exact held

theorem Assigned.bsp (assigned : Assigned b serves s) (move : BspMove b s s') : Assigned b serves s' := by
  obtain ⟨sound,patched,loads,loaded⟩ := assigned
  cases move with
  | skip | join | leave | finish => exact ⟨trivial,patched,loads,loaded⟩
  | choose cpu apic_id phase inside found other => exact ⟨⟨inside,found,other⟩,patched,loads,loaded⟩
  | expect cpu apic_id phase =>
    rw [phase] at sound
    exact ⟨sound,patched,loads,loaded⟩
  | pml4 t phase | entry t phase | poll t timeout phase =>
    rw [phase] at sound
    exact ⟨sound,patched,loads,loaded⟩
  | stack t phase =>
    rw [phase] at sound
    refine ⟨sound,?_,loads,loaded⟩
    intro d same
    obtain rfl := Option.some.inj same
    exact ⟨t.cpu,sound.1,sound.2.1,sound.2.2,rfl⟩
  | init t phase | sipi t phase | second t phase =>
    rw [phase] at sound
    exact ⟨sound,patched,loads,fun a top held => loaded a top (send_stacks held)⟩
  | stay => exact ⟨sound,patched,loads,loaded⟩

/-- A place that shows the same stack leaves every stack in its place. -/
theorem update_stacks {a : Nat} {ap : Ap} (loaded : ∀ a top, (s.aps a).stack = some top → ⟨a,top⟩ ∈ s.loads)
    (same : ap.stack = (s.aps a).stack) (a' top : Nat) (held : (Function.update s.aps a ap a').stack = some top) :
    ⟨a',top⟩ ∈ s.loads := by
  by_cases here : a' = a
  · subst here
    rw [Function.update_self,same] at held
    exact loaded a' top held
  · rw [Function.update_of_ne here] at held
    exact loaded a' top held

theorem Assigned.ap (assigned : Assigned b serves s) {a : Nat} (prompt : Prompt serves s (.ap a))
    (present : a ∈ b.processors) (other : a ≠ b.bsp_id) (move : ApMove s a s') : Assigned b serves s' := by
  obtain ⟨sound,patched,loads,loaded⟩ := assigned
  cases move with
  | page place => exact ⟨sound,patched,loads,update_stacks loaded (by rw [place]; rfl)⟩
  | load cr3 place =>
    simp only [Prompt,place] at prompt
    obtain ⟨d,isPatched,served⟩ := prompt
    refine ⟨sound,patched,?_,?_⟩
    · intro p member
      rcases List.mem_cons.mp member with rfl | before
      · exact ⟨present,other,d,served,patched d isPatched⟩
      · exact loads p before
    · intro a' top held
      by_cases here : a' = a
      · subst here
        simp only [Function.update_self,Ap.stack,Option.some.injEq] at held
        exact held ▸ List.mem_cons_self
      · simp only [Function.update_of_ne here] at held
        exact List.mem_cons_of_mem _ (loaded a' top held)
  | enter cr3 rsp place => exact ⟨sound,patched,loads,update_stacks loaded (by rw [place]; rfl)⟩
  | check_in cr3 rsp rip place => exact ⟨sound,patched,loads,update_stacks loaded (by rw [place]; rfl)⟩
  | spin => exact ⟨sound,patched,loads,loaded⟩
  | work cr3 rsp rip place => exact ⟨sound,patched,loads,update_stacks loaded (by rw [place]; rfl)⟩

theorem assigned_reachable (reached : ((startUp b).restrict (Prompt serves)).Reachable s) : Assigned b serves s := by
  refine reached.invariant ?_ ?_
  · rintro s rfl
    exact ⟨trivial,by simp [start],by simp [start],by simp [start,Ap.stack]⟩
  · intro s action s' assigned taken
    rcases step_cases taken.2 with ⟨_,move⟩ | ⟨a,rfl,present,other,move⟩
    · exact assigned.bsp move
    · exact assigned.ap taken.1 present other move

/-- Different numbers below 256 have different stacks, wherever `ap_stacks` is. -/
theorem get_ap_stack_injective {j k : Nat} (jSmall : j < 256) (kSmall : k < 256)
    (same : get_ap_stack b j = get_ap_stack b k) : j = k := by
  simp only [get_ap_stack,AP_STACK_SIZE] at same
  omega

/-- A stack is for one destination. -/
theorem stackFor_unique {d d' top : Nat} (first : StackFor b d top) (second : StackFor b d' top) : d = d' := by
  obtain ⟨j,jSmall,jFound,_,jTop⟩ := first
  obtain ⟨k,kSmall,kFound,_,kTop⟩ := second
  have limit : b.g.cpu_count % 256 < 256 := Nat.mod_lt _ (by omega)
  obtain rfl := get_ap_stack_injective (by omega) (by omega) (jTop.symm.trans kTop)
  exact Outcome.ok_injective (jFound.symm.trans kFound)

/-! ### When a wait ends -/

/-- The processor that was signalled last has not checked in. -/
def awaited (s : State) : Nat :=
  match s.signalled with
  | some d => if (s.aps d).checkedIn then 0 else 1
  | none => 0

/-- How far `aps_started` can be. In an iteration it reaches `expected` only by
    the check-in of the processor the iteration is for. -/
def Counted (b : Boot) (s : State) : Prop :=
  match s.phase with
  | .next cpu => cpu ≤ b.g.cpu_count % 256 ∧ s.aps_started + awaited s ≤ cpu
  | .chosen cpu _ => s.aps_started + awaited s ≤ cpu
  | .turn t (.pml4) | .turn t .stack | .turn t .entry | .turn t .init =>
    s.signalled = none ∧ s.aps_started + 1 = t.expected ∧ t.expected ≤ t.cpu + 1
  | .turn t .sipi =>
    s.signalled = none ∧ s.aps_started + 1 = t.expected ∧ t.expected ≤ t.cpu + 1 ∧ s.aps t.apic_id = .halted
  | .turn t .second | .turn t (.waiting _) =>
    s.signalled = some t.apic_id ∧ s.aps_started + awaited s = t.expected ∧ t.expected ≤ t.cpu + 1
  | .joining | .finished => True

/-- What `awaited` reads. -/
theorem awaited_congr (same : s'.signalled = s.signalled) (kept : ∀ a, (s'.aps a).checkedIn = (s.aps a).checkedIn) :
    awaited s' = awaited s := by
  unfold awaited
  rw [same]
  cases s.signalled with
  | none => rfl
  | some d => simp only [kept d]

theorem accepts_self (a : Nat) : accepts a a := .inl rfl

theorem send_addressed (s : State) (a flags : Nat) : (send s a flags).aps a = (s.aps a).receive flags :=
  if_pos (accepts_self a)

/-- A start-up command checks nobody in. -/
theorem sipi_checkedIn (s : State) (apic_id a : Nat) :
    ((send s apic_id 0x00004608).aps a).checkedIn = (s.aps a).checkedIn := by
  simp only [send]
  split
  · cases s.aps a <;> rfl
  · rfl

theorem Counted.bsp (counted : Counted b s) (sound : s.phase.Sound b) (move : BspMove b s s') : Counted b s' := by
  have limit : b.g.cpu_count % 256 < 256 := Nat.mod_lt _ (by omega)
  cases move with
  | skip cpu phase inside =>
    simp only [Counted,phase] at counted
    exact ⟨inside,Nat.le_succ_of_le counted.2⟩
  | choose cpu apic_id phase =>
    simp only [Counted,phase] at counted
    exact counted.2
  | join => trivial
  | expect cpu apic_id phase =>
    simp only [Counted,phase] at counted
    simp only [phase,Phase.Sound] at sound
    have small : s.aps_started + 1 < 2 ^ 32 := by omega
    have most : (s.aps_started + 1) % 2 ^ 32 ≤ cpu + 1 := by omega
    exact ⟨rfl,(Nat.mod_eq_of_lt small).symm,most⟩
  | pml4 t phase | stack t phase | entry t phase =>
    simp only [Counted,phase] at counted
    exact counted
  | init t phase =>
    simp only [Counted,phase] at counted
    obtain ⟨none,started,most⟩ := counted
    exact ⟨none,started,most,send_addressed s t.apic_id 0x00004500⟩
  | sipi t phase =>
    simp only [Counted,phase] at counted
    obtain ⟨_,started,most,halted⟩ := counted
    have waits : awaited { send s t.apic_id 0x00004608 with phase := .turn t .second, signalled := some t.apic_id } = 1 := by
      simp only [awaited,sipi_checkedIn,halted]
      rfl
    exact ⟨rfl,by rw [waits]; exact started,most⟩
  | second t phase =>
    simp only [Counted,phase] at counted
    obtain ⟨signalled,started,most⟩ := counted
    have same : awaited { send s t.apic_id 0x00004608 with phase := .turn t (.waiting 5000) } = awaited s :=
      awaited_congr rfl (sipi_checkedIn s t.apic_id)
    exact ⟨signalled,by rw [same]; exact started,most⟩
  | poll t timeout phase =>
    simp only [Counted,phase] at counted
    exact counted
  | leave t timeout phase =>
    simp only [Counted,phase] at counted
    simp only [phase,Phase.Sound] at sound
    obtain ⟨_,started,most⟩ := counted
    have last : s.aps_started + awaited s ≤ t.cpu + 1 := by omega
    rw [Nat.mod_eq_of_lt (by omega)]
    exact ⟨sound.1,last⟩
  | stay => exact counted
  | finish => trivial

/-- A processor that does not check in changes nothing that is counted. -/
theorem Counted.frame (counted : Counted b s) {a : Nat} (moving : s.aps a ≠ .halted) (phase : s'.phase = s.phase)
    (signalled : s'.signalled = s.signalled) (started : s'.aps_started = s.aps_started)
    (others : ∀ a', a' ≠ a → s'.aps a' = s.aps a') (kept : (s'.aps a).checkedIn = (s.aps a).checkedIn) :
    Counted b s' := by
  have same : awaited s' = awaited s := by
    refine awaited_congr signalled (fun a' => ?_)
    by_cases here : a' = a
    · rw [here,kept]
    · rw [others a' here]
  cases place : s.phase with
  | turn t stage =>
    cases stage with
    | sipi =>
      simp only [Counted,phase,signalled,started,place] at counted ⊢
      obtain ⟨none,expected,most,halted⟩ := counted
      refine ⟨none,expected,most,?_⟩
      rw [others _ (fun here => moving (here ▸ halted)),halted]
    | _ =>
      simp only [Counted,phase,signalled,started,same,place] at counted ⊢
      exact counted
  | next cpu | chosen cpu apic_id =>
    simp only [Counted,phase,started,same,place] at counted ⊢
    exact counted
  | joining | finished => simp only [Counted,phase,place]

/-- The processor that was awaited is counted instead. -/
theorem Counted.checked_in (counted : Counted b s) (sound : s.phase.Sound b) {d : Nat} (signalled : s.signalled = some d)
    (before : awaited s = 1) (phase : s'.phase = s.phase) (kept : s'.signalled = s.signalled) (after : awaited s' = 0)
    (started : s'.aps_started = (s.aps_started + 1) % 2 ^ 32) : Counted b s' := by
  have limit : b.g.cpu_count % 256 < 256 := Nat.mod_lt _ (by omega)
  have next_one (small : s.aps_started < 256) : s'.aps_started = s.aps_started + 1 := by omega
  cases place : s.phase with
  | next cpu =>
    simp only [Counted,phase,place,before,after] at counted ⊢
    rw [next_one (by omega)]
    exact counted
  | chosen cpu apic_id =>
    simp only [place,Phase.Sound] at sound
    simp only [Counted,phase,place,before,after] at counted ⊢
    rw [next_one (by omega)]
    exact counted
  | turn t stage =>
    simp only [place,Phase.Sound] at sound
    cases stage with
    | second | waiting timeout =>
      simp only [Counted,phase,place,kept,before,after] at counted ⊢
      rw [next_one (by omega)]
      exact counted
    | _ =>
      simp only [Counted,place] at counted
      exact absurd (signalled.symm.trans counted.1) (by simp)
  | joining | finished => simp only [Counted,phase,place]

theorem Counted.ap (counted : Counted b s) (sound : s.phase.Sound b) {a : Nat} (prompt : Prompt (· = ·) s (.ap a))
    (move : ApMove s a s') : Counted b s' := by
  cases move with
  | page place | load cr3 place | enter cr3 rsp place | work cr3 rsp rip place =>
    refine counted.frame (a := a) (by rw [place]; simp) rfl rfl rfl (fun a' other => Function.update_of_ne other _ _) ?_
    rw [place]
    simp [Ap.checkedIn]
  | spin => exact counted
  | check_in cr3 rsp rip place =>
    simp only [Prompt,place] at prompt
    obtain ⟨d,signalled,rfl⟩ := prompt
    have before : awaited s = 1 := by simp [awaited,signalled,place,Ap.checkedIn]
    exact counted.checked_in sound signalled before rfl rfl (by simp [awaited,signalled,Ap.checkedIn]) rfl

/-- No two processors load the same stack, and where the wait for a processor
    ends without a timeout, that processor has checked in. -/
structure OwnStacks (s : State) : Prop where
  tops : ∀ p ∈ s.loads, ∀ q ∈ s.loads, p.top = q.top → p.apic_id = q.apic_id
  waits : ∀ t timeout, s.phase = .turn t (.waiting timeout) → ¬s.aps_started < t.expected →
    (s.aps t.apic_id).checkedIn = true

theorem Counted.waits (counted : Counted b s) {t : Turn} {timeout : Nat} (phase : s.phase = .turn t (.waiting timeout))
    (ended : ¬s.aps_started < t.expected) : (s.aps t.apic_id).checkedIn = true := by
  simp only [Counted,phase] at counted
  obtain ⟨signalled,started,_⟩ := counted
  have none_awaited : awaited s = 0 := by omega
  by_contra absent
  simp [awaited,signalled,absent] at none_awaited

theorem counted_reachable (reached : ((startUp b).restrict (Prompt (· = ·))).Reachable s) : Counted b s := by
  refine reached.strengthened ?_ ?_
  · rintro s rfl
    exact ⟨Nat.zero_le _,Nat.le_refl 0⟩
  · intro s action s' before counted taken
    have sound := (assigned_reachable before).phase
    rcases step_cases taken.2 with ⟨_,move⟩ | ⟨a,rfl,_,_,move⟩
    · exact counted.bsp sound move
    · exact counted.ap sound taken.1 move

/-- In every run in which each processor loads its stack while the trampoline is
    patched for it, and checks in before `smp_init` turns to another processor,
    every processor has its own stack and is the one waited for. -/
theorem own_stacks (reached : ((startUp b).restrict (Prompt (· = ·))).Reachable s) : OwnStacks s := by
  refine ⟨?_,fun t timeout => (counted_reachable reached).waits⟩
  intro p pLoaded q qLoaded same
  obtain ⟨_,_,d,rfl,pStack⟩ := (assigned_reachable reached).loads p pLoaded
  obtain ⟨_,_,d',rfl,qStack⟩ := (assigned_reachable reached).loads q qLoaded
  exact stackFor_unique pStack (same ▸ qStack)

/-! ### Runs of the boot processor -/

/-- The steps of the boot processor meet every condition on the others. -/
theorem bsp_step (serves : Nat → Nat → Prop) (taken : (startUp b).step s .bsp s') :
    ((startUp b).restrict (Prompt serves)).step s .bsp s' :=
  ⟨trivial,taken⟩

theorem bsp_run {n : Nat} (run : (List.replicate n Action.bsp).foldlM (step b) s = some s') :
    ((startUp b).restrict (Prompt serves)).Run s (List.replicate n .bsp) s' := by
  induction n generalizing s with
  | zero =>
    have same : s = s' := by simpa using run
    exact same ▸ .refl s
  | succ n ih =>
    rw [List.replicate_succ,List.foldlM_cons,Option.bind_eq_bind,Option.bind_eq_some_iff] at run
    obtain ⟨r,first,later⟩ := run
    exact .cons (bsp_step serves first) (ih later)

/-- All that are sent to have started, and the trampoline is patched. -/
structure Sent (b : Boot) (cpu d : Nat) (s s' : State) : Prop where
  phase : s'.phase = .turn ⟨cpu,d,(s.aps_started + 1) % 2 ^ 32⟩ (.waiting 5000)
  stack : s'.data.trampoline_stack = get_ap_stack b cpu
  patched : s'.patched = some d
  signalled : s'.signalled = some d
  started : s'.aps_started = s.aps_started
  loads : s'.loads = s.loads
  reached : ∀ a, accepts d a → s'.aps a = .trampoline_start
  others : ∀ a, ¬accepts d a → s'.aps a = s.aps a

theorem turn_run (serves : Nat → Nat → Prop) {cpu d : Nat} (phase : s.phase = .chosen cpu d) :
    ∃ s', ((startUp b).restrict (Prompt serves)).Run s (List.replicate 7 .bsp) s' ∧ Sent b cpu d s s' := by
  obtain ⟨_,data,aps,aps_started,lapic,loads,patched,signalled⟩ := s
  obtain rfl : _ = Phase.chosen cpu d := phase
  refine ⟨_,bsp_run rfl,rfl,rfl,rfl,rfl,rfl,rfl,?_,?_⟩
  · intro a hears
    simp [send,hears,Ap.receive]
  · intro a deaf
    simp [send,deaf]

/-- A wait runs out if nobody checks in. -/
theorem wait_run (serves : Nat → Nat → Prop) {t : Turn} (timeout : Nat) (phase : s.phase = .turn t (.waiting (timeout + 1)))
    (early : s.aps_started < t.expected) : ((startUp b).restrict (Prompt serves)).Run s
      (List.replicate (timeout + 1) .bsp) { s with phase := .next ((t.cpu + 1) % 256) } := by
  induction timeout generalizing s with
  | zero => exact bsp_run (by simp [step,bspStep,phase,early])
  | succ timeout ih =>
    have polled : bspStep b s = some { s with phase := .turn t (.waiting (timeout + 1)) } := by
      simp [bspStep,phase,early]
    exact .cons (bsp_step serves polled) (ih (s := { s with phase := .turn t (.waiting (timeout + 1)) }) rfl early)

/-- A processor that has started goes on into `ap_main` and has the stack from the trampoline. -/
theorem ap_run (serves : Nat → Nat → Prop) {a : Nat} (place : s.aps a = .trampoline_start) (present : a ∈ b.processors) (other : a ≠ b.bsp_id)
    (prompt : ∃ d, s.patched = some d ∧ serves d a) :
    ((startUp b).restrict (Prompt serves)).Run s [.ap a,.ap a,.ap a] { s with
      aps := Function.update s.aps a
        (.ap_main s.data.trampoline_pml4 s.data.trampoline_stack s.data.trampoline_entry)
      loads := ⟨a,s.data.trampoline_stack⟩ :: s.loads } := by
  let paged := { s with aps := Function.update s.aps a (.trampoline_lm s.data.trampoline_pml4) }
  let loaded := { s with
    aps := Function.update s.aps a (.stacked s.data.trampoline_pml4 s.data.trampoline_stack)
    loads := ⟨a,s.data.trampoline_stack⟩ :: s.loads }
  have page : step b s (.ap a) = some paged := by simp [step,apStep,present,other,place,paged]
  have load : step b paged (.ap a) = some loaded := by simp [step,apStep,present,other,paged,loaded]
  refine .cons ⟨by simp [Prompt,place],page⟩ (.cons ⟨by simpa [Prompt,paged] using prompt,load⟩ (.cons ⟨?_,?_⟩ (.refl _)))
  · simp [Prompt,loaded]
  · show step b loaded (.ap a) = _
    simp [step,apStep,present,other,loaded]

/-- The MADT that `madt_parse` has read, and the processors it lists. -/
structure Described (b : Boot) (l : List Ics) : Prop where
  table : Table b.m b.g.madt_table l
  parsed : madt_parse b.m ⟨0,0⟩ b.g.madt_table = .ok b.g
  processors : b.processors = (enabled l).map Processor.apic_id

theorem Described.lookup {l : List Ics} (described : Described b l) (cpu : Nat) :
    madt_get_lapic_id b.m b.g cpu = .ok (apicIdOf (enabled l) cpu) :=
  madt_get_lapic_id_spec described.table cpu

theorem Described.count {l : List Ics} (described : Described b l) :
    b.g.cpu_count % 256 = (enabled l).length % 256 := by
  have counted := described.parsed
  rw [madt_parse_spec described.table (by simp)] at counted
  rw [← Outcome.ok_injective counted]
  simp only
  omega

/-- The next number is skipped or chosen. -/
theorem next_step {l : List Ics} (described : Described b l) {cpu : Nat} (phase : s.phase = .next cpu)
    (inside : cpu < (enabled l).length % 256) : (startUp b).step s .bsp { s with
      phase := if apicIdOf (enabled l) cpu = b.bsp_id then .next (cpu + 1) else .chosen cpu (apicIdOf (enabled l) cpu) } := by
  show bspStep b s = _
  rw [← described.count] at inside
  have limit : b.g.cpu_count % 256 < 256 := Nat.mod_lt _ (by omega)
  simp only [bspStep,phase,madt_get_cpu_count,inside,if_true,described.lookup]
  rw [Nat.mod_eq_of_lt (by omega)]
  split <;> rfl

/-! ### What is sent -/

/-- The commands for the numbers before one. -/
def sentBefore (b : Boot) (l : List Ics) (cpu : Nat) : List Ipi :=
  (targets (enabled l) b.bsp_id (List.range cpu)).flatMap startup

/-- The commands of an iteration that have been sent. -/
def Stage.sent : Stage → Nat
  | .pml4 | .stack | .entry | .init => 0
  | .sipi => 1
  | .second => 2
  | .waiting _ => 3

/-- What has been sent when the boot processor is somewhere in the loop. -/
def Phase.sent (b : Boot) (l : List Ics) : Phase → List Ipi
  | .next cpu | .chosen cpu _ => sentBefore b l cpu
  | .turn t stage => sentBefore b l t.cpu ++ (startup t.apic_id).take stage.sent
  | .joining | .finished => sentBefore b l ((enabled l).length % 256)

/-- The loop has not passed the last number. -/
def Phase.Within (b : Boot) : Phase → Prop
  | .next cpu => cpu ≤ b.g.cpu_count % 256
  | _ => True

structure Sending (b : Boot) (l : List Ics) (s : State) : Prop where
  sound : s.phase.Sound b
  within : s.phase.Within b
  ipis : s.lapic.ipis = s.phase.sent b l

theorem sentBefore_succ {l : List Ics} (cpu : Nat) : sentBefore b l (cpu + 1) =
    sentBefore b l cpu ++ if apicIdOf (enabled l) cpu = b.bsp_id then [] else startup (apicIdOf (enabled l) cpu) := by
  simp only [sentBefore,targets,List.range_succ,List.map_append,List.filter_append,List.flatMap_append]
  split
  next boot => simp [boot]
  next other => simp [other]

theorem Sending.bsp {l : List Ics} (described : Described b l) (sending : Sending b l s) (move : BspMove b s s') :
    Sending b l s' := by
  obtain ⟨sound,within,ipis⟩ := sending
  have small (cpu : Nat) : apicIdOf (enabled l) cpu < 256 :=
    apicIdOf_lt (fun p member => (apic_id_lt described.table p member).2) cpu
  have limit : b.g.cpu_count % 256 < 256 := Nat.mod_lt _ (by omega)
  cases move with
  | skip cpu phase inside found =>
    rw [phase] at ipis
    have boot := Outcome.ok_injective ((described.lookup cpu).symm.trans found)
    exact ⟨trivial,inside,ipis.trans (by simp [Phase.sent,sentBefore_succ,boot])⟩
  | choose cpu apic_id phase inside found other =>
    rw [phase] at ipis
    exact ⟨⟨inside,found,other⟩,trivial,ipis⟩
  | join cpu phase passed =>
    rw [phase] at ipis within
    have last : cpu = (enabled l).length % 256 := by
      rw [← described.count]
      exact Nat.le_antisymm within passed
    exact ⟨trivial,trivial,ipis.trans (congrArg (sentBefore b l) last)⟩
  | expect cpu apic_id phase =>
    rw [phase] at ipis sound
    exact ⟨sound,trivial,ipis.trans (by simp [Phase.sent,Stage.sent])⟩
  | pml4 t phase | stack t phase | entry t phase | poll t timeout phase =>
    rw [phase] at ipis sound
    exact ⟨sound,trivial,ipis⟩
  | init t phase | sipi t phase | second t phase =>
    rw [phase] at ipis sound
    have same := Outcome.ok_injective (sound.2.1.symm.trans (described.lookup t.cpu))
    refine ⟨sound,trivial,?_⟩
    simp only [send]
    rw [lapic_send_ipi_eq _ (same ▸ small t.cpu),ipis]
    simp [Phase.sent,Stage.sent,startup]
  | leave t timeout phase =>
    rw [phase] at ipis sound
    have same := Outcome.ok_injective (sound.2.1.symm.trans (described.lookup t.cpu))
    have other : apicIdOf (enabled l) t.cpu ≠ b.bsp_id := same ▸ sound.2.2
    rw [Nat.mod_eq_of_lt (Nat.lt_of_le_of_lt sound.1 limit)]
    refine ⟨trivial,sound.1,ipis.trans ?_⟩
    simp [Phase.sent,Stage.sent,sentBefore_succ,other,same,startup]
  | stay => exact ⟨sound,within,ipis⟩
  | finish phase =>
    rw [phase] at ipis
    exact ⟨trivial,trivial,ipis⟩

/-- A processor that starts sends nothing and leaves the loop where it is. -/
theorem ApMove.frame {a : Nat} (move : ApMove s a s') : s'.phase = s.phase ∧ s'.lapic = s.lapic := by
  cases move <;> exact ⟨rfl,rfl⟩

theorem sending_reachable {l : List Ics} (described : Described b l) (reached : (startUp b).Reachable s) :
    Sending b l s := by
  refine reached.invariant ?_ ?_
  · rintro s rfl
    exact ⟨trivial,Nat.zero_le _,rfl⟩
  · intro s action s' sending taken
    rcases step_cases taken with ⟨_,move⟩ | ⟨a,_,_,_,move⟩
    · exact sending.bsp described move
    · obtain ⟨phase,lapic⟩ := move.frame
      exact ⟨phase ▸ sending.sound,phase ▸ sending.within,by rw [lapic,phase]; exact sending.ipis⟩

/-- In every interleaving the boot processor sends what the loop alone sends,
    whatever values of `aps_started` that reads. -/
theorem sends_as_loop {l : List Ics} (described : Described b l) (reached : (startUp b).Reachable s)
    (joined : s.phase = .joining ∨ s.phase = .finished) (aps_started : Nat → Nat) :
    ∃ s', startAps b.m b.g.madt_table b.bsp_id aps_started ⟨0,[]⟩ = .ok s' ∧ s.lapic.ipis = s'.ipis := by
  have limit : b.g.cpu_count % 256 < 256 := Nat.mod_lt _ (by omega)
  obtain ⟨s',run,sent⟩ := @smp_init_loop_spec b.m b.g l described.table b.bsp_id aps_started
    (b.g.cpu_count % 256) 0 256 (Nat.zero_add _) limit 0 ⟨0,[]⟩
  refine ⟨s',by rw [startAps,described.parsed]; exact run,?_⟩
  have sending := (sending_reachable described reached).ipis
  have last : s.phase.sent b l = sentBefore b l ((enabled l).length % 256) := by
    rcases joined with phase | phase <;> rw [phase] <;> rfl
  rw [sent,sending,last,described.count,sentBefore,List.range_eq_range']
  rfl

end

/-- A table at address 0 of enabled processors with the UIDs from 0 on. -/
def tableOf (apic_ids : List UInt8) : Memory := fun a =>
  ([65,80,73,67,UInt8.ofNat (sizeof_madt + 8 * apic_ids.length),0,0,0] ++ List.replicate 36 0 ++
    apic_ids.zipIdx.flatMap (fun (p : UInt8 × Nat) => [0,8,UInt8.ofNat p.2,p.1,1,0,0,0])).getD a 0

def entriesOf (apic_ids : List UInt8) : List Ics :=
  apic_ids.zipIdx.map (fun (p : UInt8 × Nat) => .lapic 8 p.2 p.1.toNat 1)

def sampleBoot (apic_ids : List UInt8) : Boot where
  m := tableOf apic_ids
  g := ⟨0,apic_ids.length⟩
  bsp_id := 0
  processors := apic_ids.map UInt8.toNat
  ap_stacks := 0x140000
  cpu_locals := 0x180000
  ap_main := 0x101000
  cr3 := 0x190000

theorem three_described : Described (sampleBoot [0,1,2]) (entriesOf [0,1,2]) := by
  have table : Table (tableOf [0,1,2]) 0 (entriesOf [0,1,2]) := by decide +kernel
  exact ⟨table,madt_parse_spec table (by simp),rfl⟩

private theorem three_chosen (serves : Nat → Nat → Prop) :
    ((startUp (sampleBoot [0,1,2])).restrict (Prompt serves)).Reachable { start with phase := .chosen 1 1 } := by
  have first : ((startUp (sampleBoot [0,1,2])).restrict (Prompt serves)).Reachable start := System.reachable_initial rfl
  have boot : (startUp (sampleBoot [0,1,2])).step start .bsp { start with phase := .next 1 } :=
    @next_step _ start _ three_described 0 rfl (by decide)
  have one : (startUp (sampleBoot [0,1,2])).step { start with phase := .next 1 } .bsp { start with phase := .chosen 1 1 } :=
    @next_step _ { start with phase := .next 1 } _ three_described 1 rfl (by decide)
  exact (first.step (bsp_step serves boot)).step (bsp_step serves one)

private theorem three_next (s : State) : (startUp (sampleBoot [0,1,2])).step { s with phase := .next 2 } .bsp
    { s with phase := .chosen 2 2 } :=
  @next_step _ { s with phase := .next 2 } _ three_described 2 rfl (by decide)

/-- The first of two application processors loads its page tables and then nothing
    until its wait has run out. -/
private theorem first_late : ∃ s, (startUp (sampleBoot [0,1,2])).Reachable s ∧
    s.phase = .turn ⟨2,2,1⟩ (.waiting 5000) ∧ s.patched = some 2 ∧ s.aps_started = 0 ∧
    (∃ cr3, s.aps 1 = .trampoline_lm cr3) ∧ s.aps 2 = .trampoline_start := by
  let b := sampleBoot [0,1,2]
  obtain ⟨s,run,sent⟩ := turn_run (b := b) (s := { start with phase := .chosen 1 1 }) (· = ·) rfl
  have place : s.aps 1 = .trampoline_start := sent.reached 1 (accepts_self 1)
  let late := { s with aps := Function.update s.aps 1 (.trampoline_lm s.data.trampoline_pml4) }
  have paged : (startUp b).step s (.ap 1) late := by
    show step b s (.ap 1) = some late
    simp [step,b,sampleBoot,apStep,place,late]
  have waited := wait_run (b := b) (s := late) (t := ⟨1,1,1⟩) (· = ·) 4999 sent.phase
    (by simp [late,sent.started,start])
  obtain ⟨r,run',sent'⟩ := turn_run (b := b) (s := { late with phase := .chosen 2 2 }) (· = ·) rfl
  have reached : (startUp b).Reachable r := (((((three_chosen (· = ·)).unrestricted.run run.unrestricted).step paged).run
    waited.unrestricted).step (three_next late)).run run'.unrestricted
  have phase : r.phase = .turn ⟨2,2,1⟩ (.waiting 5000) := by
    rw [sent'.phase]
    simp [late,sent.started,start]
  have first : r.aps 1 = .trampoline_lm s.data.trampoline_pml4 := by
    rw [sent'.others 1 (by decide)]
    exact Function.update_self 1 _ s.aps
  exact ⟨r,reached,phase,sent'.patched,sent'.started.trans sent.started,⟨_,first⟩,sent'.reached 2 (accepts_self 2)⟩

/-- It then loads the stack of the second one and, when it checks in, ends the
    wait for the second one. -/
theorem stacks_shared : Described (sampleBoot [0,1,2]) (entriesOf [0,1,2]) ∧
    ∃ s, (startUp (sampleBoot [0,1,2])).Reachable s ∧ ¬OwnStacks s ∧
      (∃ p ∈ s.loads, ∃ q ∈ s.loads, p.apic_id = 1 ∧ q.apic_id = 2 ∧ p.top = q.top) ∧
      (∃ t timeout, s.phase = .turn t (.waiting timeout) ∧ t.apic_id = 2 ∧ ¬s.aps_started < t.expected ∧
        (s.aps 2).checkedIn = false) := by
  refine ⟨three_described,?_⟩
  obtain ⟨r,reached,phase,patched,started,⟨cr3,first⟩,second⟩ := first_late
  let counted := { r with
    aps := Function.update r.aps 1 (.online cr3 r.data.trampoline_stack r.data.trampoline_entry)
    aps_started := 1
    loads := ⟨1,r.data.trampoline_stack⟩ :: r.loads }
  have late_run : (startUp (sampleBoot [0,1,2])).Run r [.ap 1,.ap 1,.ap 1] counted := by
    refine System.run_of_foldlM ?_
    simp [step,apStep,sampleBoot,first,started,counted]
  have waits : counted.aps 2 = .trampoline_start := by simp [counted,second]
  have own_run := ap_run (b := sampleBoot [0,1,2]) (· = ·) waits (by decide) (by decide)
    ⟨2,patched,rfl⟩
  refine ⟨_,(reached.run late_run).run own_run.unrestricted,?_,?_,⟨2,2,1⟩,5000,phase,rfl,by simp [counted],?_⟩
  · intro own
    have same : (1 : Nat) = 2 :=
      own.tops ⟨1,_⟩ (List.mem_cons_of_mem _ List.mem_cons_self) ⟨2,_⟩ List.mem_cons_self rfl
    omega
  · exact ⟨⟨1,_⟩,List.mem_cons_of_mem _ List.mem_cons_self,⟨2,_⟩,List.mem_cons_self,rfl,rfl,rfl⟩
  · simp [Ap.checkedIn]

/-- If the first one is in time, both have their own stacks. -/
theorem own_stacks_two : ∃ s, ((startUp (sampleBoot [0,1,2])).restrict (Prompt (· = ·))).Reachable s ∧
    s.loads.map Load.apic_id = [2,1] ∧ OwnStacks s := by
  let b := sampleBoot [0,1,2]
  obtain ⟨s,run,sent⟩ := turn_run (b := b) (s := { start with phase := .chosen 1 1 }) (· = ·) rfl
  have first_run := ap_run (b := b) (· = ·) (sent.reached 1 (accepts_self 1)) (by decide) (by decide)
    ⟨1,sent.patched,rfl⟩
  let counted := { s with
    aps := Function.update s.aps 1
      (.online s.data.trampoline_pml4 s.data.trampoline_stack s.data.trampoline_entry)
    aps_started := 1
    loads := ⟨1,s.data.trampoline_stack⟩ :: s.loads }
  have check_in := first_run.snoc (t := _) (a := .ap 1) (r := counted) ⟨by simp [Prompt,sent.signalled],by
    show step b _ (.ap 1) = some counted
    simp [step,apStep,b,sampleBoot,sent.started,start,counted]⟩
  have leave : bspStep b counted = some { counted with phase := .next 2 } := by
    simp [bspStep,counted,sent.phase,start]
  obtain ⟨r,run',sent'⟩ := turn_run (b := b) (s := { counted with phase := .chosen 2 2 }) (· = ·) rfl
  have second_run := ap_run (b := b) (· = ·) (sent'.reached 2 (accepts_self 2)) (by decide) (by decide)
    ⟨2,sent'.patched,rfl⟩
  have reached := (((((three_chosen (· = ·)).run run).run check_in).step (bsp_step _ leave)).step
    (bsp_step _ (three_next counted))).run (run'.append second_run)
  exact ⟨_,reached,by simp [sent'.loads,counted,sent.loads,start],own_stacks reached⟩

end NekoOs.ApStart
