import NekoOs.Isr

/-!
The interrupt descriptor table: `idt_init` writes its gates, and the processor decodes
them whenever it takes an interrupt.
-/
namespace NekoOs.Idt
open ByteMemory Words Isr

/-- The addresses that the linker gives to the stubs. -/
structure Stubs where
  isr : Nat → Nat
  isr_timer : Nat
  isr_spurious : Nat

/-- For the table at `idt`. -/
def idt_set_entry (idt : Nat) (m : Memory) (vector handler flags : Nat) : Memory :=
  let entry := idt + 16 * vector
  let m := store m entry 2 (handler % 2 ^ 16)
  let m := store m (entry + 6) 2 (handler / 2 ^ 16 % 2 ^ 16)
  let m := store m (entry + 8) 4 (handler / 2 ^ 32 % 2 ^ 32)
  let m := store m (entry + 2) 2 0x08
  let m := store m (entry + 4) 1 0
  let m := store m (entry + 5) 1 flags
  store m (entry + 12) 4 0

/-- The loop over the exceptions. -/
def setExceptions (idt : Nat) (handlers : Nat → Nat) : (i remaining : Nat) → Memory → Memory
  | _, 0, m => m
  | i, remaining+1, m => setExceptions idt handlers (i + 1) remaining (idt_set_entry idt m i (handlers i) 0x8E)

/-- The operand of `lidt`. -/
structure Idtr where
  limit : Nat
  base : Nat

def idt_init (idt : Nat) (stubs : Stubs) (m : Memory) : Memory × Idtr :=
  let m := setExceptions idt stubs.isr 0 32 m
  let m := idt_set_entry idt m 0x20 stubs.isr_timer 0x8E
  let m := idt_set_entry idt m 0xFF stubs.isr_spurious 0x8E
  (m,⟨256 * 16 - 1,idt⟩)

/-! ### The processor -/

/-- A gate as the processor reads it; `type` takes in the bit above it, which is 0 in a gate. -/
structure Gate where
  offset : Nat
  selector : Nat
  ist : Nat
  type : Nat
  dpl : Nat
  present : Bool
deriving DecidableEq

def gate (m : Memory) (base vector : Nat) : Gate :=
  let low := load m (base + 16 * vector) 8
  let high := load m (base + 16 * vector + 8) 8
  ⟨low % 2 ^ 16 + 2 ^ 16 * (low / 2 ^ 48) + 2 ^ 32 * (high % 2 ^ 32),low / 2 ^ 16 % 2 ^ 16,low / 2 ^ 32 % 8,low / 2 ^ 40 % 32,
    low / 2 ^ 45 % 4,low.testBit 47⟩

/-- The general protection fault and the fault for a segment that is not present, by their vectors. -/
inductive Fault
  | notPresent
  | protection
deriving DecidableEq

def Fault.vector : Fault → Nat
  | .notPresent => 11
  | .protection => 13

/-- The gate of a vector, unless it is beyond the table, no interrupt or trap gate, or not present. -/
def Idtr.find (idtr : Idtr) (m : Memory) (vector : Nat) : Except Fault Gate :=
  if idtr.limit < 16 * vector + 15 then .error .protection
  else
    let g := gate m idtr.base vector
    if g.type ≠ 14 ∧ g.type ≠ 15 then .error .protection
    else if g.present then .ok g
    else .error .notPresent

/-- Through an interrupt gate for the kernel's code segment, on the same stack. Other gates are left out. -/
def enter (g : Gate) (error : Option Nat) (c : Cpu) : Option Cpu :=
  if g.type = 14 ∧ g.selector = selector ∧ g.ist = 0 then some (interrupt g.offset error c) else none

/-- The error code for a gate: the vector, that it is in this table, and whether the event is from outside. -/
def gateError (vector : Nat) (external : Bool) : Nat := 8 * vector + 2 + external.toNat

/-- An interrupt or an exception, with its error code. A fault on the way is taken instead; where that faults again, or
    follows an exception, the double fault is left out. -/
def Idtr.take (idtr : Idtr) (vector : Nat) (external : Bool) (error : Option Nat) (c : Cpu) : Option Cpu :=
  match idtr.find c.mem vector with
  | .ok g => enter g error c
  | .error fault =>
    if vector < 32 then none
    else match idtr.find c.mem fault.vector with
      | .ok g => enter g (some (gateError vector external)) c
      | .error _ => none

/-! ### The table -/

/-- The stub of a vector. -/
def Stubs.stub (stubs : Stubs) (vector : Nat) : Option Nat :=
  if vector < 32 then some (stubs.isr vector)
  else if vector = 0x20 then some stubs.isr_timer
  else if vector = 0xFF then some stubs.isr_spurious
  else none

/-- The processor uses a table that has interrupt gates for the vectors with a stub and nothing else. -/
structure Installed (stubs : Stubs) (idtr : Idtr) (m : Memory) : Prop where
  limit : idtr.limit = 4095
  taken : ∀ v h, stubs.stub v = some h → gate m idtr.base v = ⟨h,8,0,14,0,true⟩
  others : ∀ v < 256, stubs.stub v = none → (gate m idtr.base v).type = 0

section
variable {m n : Memory} {idt vector handler flags : Nat} {stubs : Stubs}

theorem Installed.congr {idtr : Idtr} (installed : Installed stubs idtr m) (base : idtr.base = idt)
    (same : ∀ x, idt ≤ x → x < idt + 4096 → n x = m x) : Installed stubs idtr n := by
  have gates (v : Nat) (small : v < 256) : gate n idtr.base v = gate m idtr.base v := by
    rw [gate,gate,base,@load_congr n m _ _ (fun x low high => same x (by omega) (by omega)),
      @load_congr n m _ _ (fun x low high => same x (by omega) (by omega))]
  refine ⟨installed.limit,fun v h set => ?_,fun v small unset => ?_⟩
  · have small : v < 256 := by
      unfold Stubs.stub at set
      split_ifs at set <;> omega
    rw [gates v small,installed.taken v h set]
  · rw [gates v small,installed.others v small unset]

/-! ### Interrupts -/

variable {c : Cpu} {idtr : Idtr} {external : Bool} {error : Option Nat}

theorem stub_small {h : Nat} (set : stubs.stub vector = some h) : vector < 256 := by
  unfold Stubs.stub at set
  split_ifs at set <;> omega

theorem Installed.find {h : Nat} (installed : Installed stubs idtr m) (set : stubs.stub vector = some h) :
    idtr.find m vector = .ok ⟨h,8,0,14,0,true⟩ := by
  have small := stub_small set
  rw [Idtr.find,if_neg (by rw [installed.limit]; omega),installed.taken vector h set]
  rfl

theorem Installed.take {h : Nat} (installed : Installed stubs idtr c.mem) (set : stubs.stub vector = some h) :
    idtr.take vector external error c = some (interrupt h error c) := by
  rw [Idtr.take,installed.find set]
  rfl

/-- A handler without arguments is called with interrupts masked, and returns to the interrupted context. -/
def Resumes (c e : Cpu) : Prop :=
  e.rflags.testBit 9 = false ∧ ∀ d, Returned e (top c) d → run isr_timer_exit d = { c with mem := d.mem }

end

/-- A table at `0x2000` and stubs in the first 64 KiB. -/
def sampleStubs : Stubs := ⟨fun v => 0x1000 + 16 * (v % 32),0x1200,0x1300⟩

/-- The sample context with the table. -/
def sampleTable : Cpu := { sampleContext with mem := (idt_init 0x2000 sampleStubs (fun _ => 0)).1 }

end NekoOs.Idt
