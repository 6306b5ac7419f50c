import NekoOs.Transitions
import NekoOs.Uart
import Mathlib.Algebra.BigOperators.Group.Finset.Basic
import Mathlib.Algebra.Order.BigOperators.Group.Finset
import Mathlib.Data.Fintype.Card

/-!
`drivers/serial.c`: the set-up of the port, and processors that print at the same
time. `kpanic` prints without a lock, so nothing keeps one processor from writing
between the test and the write of another.
-/
namespace NekoOs.Serial
open Transitions Uart

/-- The writes to `COM1 + offset`, in their order. -/
def serial_init (u : Port) : Port :=
  [(1,0x00),(3,0x80),(0,0x03),(1,0x00),(3,0x03),(2,0xC7),(4,0x0B)].foldl (fun u (p : Nat × UInt8) => u.outb p.1 p.2) u

def serial_is_transmit_empty (u : Port) : Bool := u.lineStatus &&& 0x20 != 0

/-! ### `serial_init` -/

/-- 38400 baud, 8 bits, no parity, one stop bit, with an empty FIFO; interrupts are off unless the divisor latch was
    left open. -/
theorem serial_init_spec (u : Port) : serial_init u = { u with
    ier := if u.dlab then u.ier else 0, fifo := true, lcr := 0x03, mcr := 0x0B, dll := 3, dlm := 0, queue := [] } := by
  have latch : Nat.testBit 128 7 = true := by decide
  have control : Nat.testBit 199 0 = true ∧ Nat.testBit 199 2 = true := by decide
  cases first : u.lcr.toNat.testBit 7 <;> simp [serial_init,Port.outb,Port.control,Port.dlab,first,latch,control]

theorem serial_init_sending (u : Port) : Port.Sending (serial_init u) := by
  rw [serial_init_spec]
  have clear : Nat.testBit 3 7 = false ∧ Nat.testBit 3 6 = false ∧ Nat.testBit 11 4 = false := by decide
  exact ⟨rfl,by simp [Port.dlab,clear],by simp [Port.driven,clear]⟩

/-! ### Printing -/

/-- Where a processor is in `serial_print`: at the test of `serial_putchar`, or after it at the write, with what is
    left of the string. -/
inductive Printing
  | idle
  | test (c : UInt8) (rest : List UInt8)
  | write (c : UInt8) (rest : List UInt8)

def Printing.next : List UInt8 → Printing
  | [] => .idle
  | c :: rest => .test c rest

/-- What is still to be written. -/
def Printing.left : Printing → List UInt8
  | .idle => []
  | .test c rest | .write c rest => c :: rest

def Printing.passed : Printing → Bool
  | .write _ _ => true
  | _ => false

structure State (Cpu : Type) where
  port : Port
  printing : Cpu → Printing

/-- A call of `serial_print`, a step of a processor, or of the transmitter. -/
inductive Action (Cpu : Type)
  | print (i : Cpu) (str : List UInt8)
  | step (i : Cpu)
  | load
  | emit

section
variable {Cpu : Type} {s : State Cpu} {left : List UInt8}

/-- What the processor inside still has to write. -/
def Owes (s : State Cpu) (left : List UInt8) : Prop :=
  (∀ i, s.printing i = .idle) ∧ left = [] ∨
    ∃ i, left = (s.printing i).left ∧ ∀ j, s.printing j ≠ .idle → j = i

/-- Nothing is in the FIFO between a test and its write. -/
structure Single (s : State Cpu) (left : List UInt8) : Prop where
  sending : s.port.Sending
  owes : Owes s left
  empty : ∀ i c rest, s.printing i = .write c rest → s.port.queue = []

theorem owes_busy {i : Cpu} (owes : Owes s left) (busy : s.printing i ≠ .idle) :
    left = (s.printing i).left ∧ ∀ j, s.printing j ≠ .idle → j = i := by
  rcases owes with ⟨idle,_⟩ | ⟨k,rfl,others⟩
  · exact absurd (idle i) busy
  · obtain rfl := others i busy
    exact ⟨rfl,others⟩

/-- A step of the transmitter changes nothing of that. -/
theorem Single.transmitter {v : Port} (single : Single s left) (sending : v.Sending)
    (shorter : s.port.queue = [] → v.queue = []) : Single ({ s with port := v } : State Cpu) left :=
  ⟨sending,single.owes,fun i c rest write => shorter (single.empty i c rest write)⟩

end

section
variable {Cpu : Type} [Fintype Cpu] {s t : State Cpu}

/-- The processors between the test and the write. -/
def passed (s : State Cpu) : Finset Cpu := Finset.univ.filter (fun i => (s.printing i).passed)

/-- Every byte that may still be written without another test has its place. -/
structure Safe (s : State Cpu) : Prop where
  sending : s.port.Sending
  room : s.port.queue.length + (passed s).card ≤ Fintype.card Cpu

theorem mem_passed {i : Cpu} : i ∈ passed s ↔ (s.printing i).passed = true := by
  simp [passed]

theorem passed_congr (same : t.printing = s.printing) : passed t = passed s := by
  rw [passed,passed,same]

theorem safe_initial (u : Port) : Safe (⟨serial_init u,fun _ => .idle⟩ : State Cpu) := by
  refine ⟨serial_init_sending u,?_⟩
  have nobody : passed (⟨serial_init u,fun _ => .idle⟩ : State Cpu) = ∅ := by simp [passed,Printing.passed]
  have empty : (serial_init u).queue = [] := by rw [serial_init_spec]
  simp [nobody,empty]

end

section
variable {Cpu : Type} [DecidableEq Cpu]

def State.at (s : State Cpu) (i : Cpu) (p : Printing) : State Cpu := { s with printing := Function.update s.printing i p }

def step (s : State Cpu) : Action Cpu → Option (State Cpu)
  | .print i str => match s.printing i with
    | .idle => some (s.at i (.next str))
    | _ => none
  | .step i => match s.printing i with
    | .idle => none
    | .test c rest => some (if serial_is_transmit_empty s.port then s.at i (.write c rest) else s)
    | .write c rest => some (({ s with port := s.port.outb 0 c } : State Cpu).at i (.next rest))
  | .load => s.port.load.map (fun u => { s with port := u })
  | .emit => s.port.emit.map (fun u => { s with port := u })

/-- After `serial_init` on a port in any state. -/
def serial (u : Port) : System (State Cpu) (Action Cpu) :=
  .ofFunction (fun s => s = ⟨serial_init u,fun _ => .idle⟩) step

/-- What a processor was asked to print. -/
def asked (i : Cpu) (actions : List (Action Cpu)) : List UInt8 :=
  actions.flatMap (fun a => match a with
    | .print j str => if j = i then str else []
    | _ => [])

/-- What a processor has written. -/
def of (i : Cpu) (written : List (Cpu × UInt8)) : List UInt8 := (written.filter (fun w => w.1 = i)).map Prod.snd

/-- Between two states every byte that was written is accepted in its order, and every processor writes what it is asked
    to, in its order. -/
def Lossless (s : State Cpu) (actions : List (Action Cpu)) (t : State Cpu) : Prop :=
  ∃ written : List (Cpu × UInt8), t.port.accepted = s.port.accepted ++ written.map Prod.snd ∧
    ∀ i, (s.printing i).left ++ asked i actions = of i written ++ (t.printing i).left

variable {s t r : State Cpu} {a : Action Cpu} {actions rest : List (Action Cpu)} {u : Port}

/-! ### One step -/

/-- What a step can be. -/
inductive Steps (s : State Cpu) : Action Cpu → State Cpu → Prop
  | print (i : Cpu) (str : List UInt8) : s.printing i = .idle → Steps s (.print i str) (s.at i (.next str))
  | pass (i : Cpu) (c : UInt8) (rest : List UInt8) : s.printing i = .test c rest → s.port.queue = [] →
      Steps s (.step i) (s.at i (.write c rest))
  | spin (i : Cpu) (c : UInt8) (rest : List UInt8) : s.printing i = .test c rest → s.port.queue ≠ [] → Steps s (.step i) s
  | write (i : Cpu) (c : UInt8) (rest : List UInt8) : s.printing i = .write c rest →
      Steps s (.step i) (({ s with port := s.port.outb 0 c } : State Cpu).at i (.next rest))
  | load (u : Port) : s.port.load = some u → Steps s .load { s with port := u }
  | emit (u : Port) : s.port.emit = some u → Steps s .emit { s with port := u }

theorem transmit_empty_iff (u : Port) : serial_is_transmit_empty u = true ↔ u.queue = [] := by
  rw [serial_is_transmit_empty,bne_iff_ne]
  exact Port.lineStatus_empty

theorem steps_of_step (taken : step s a = some t) : Steps s a t := by
  cases a with
  | print i str =>
    rw [step] at taken
    split at taken
    · cases taken
      exact .print i str ‹_›
    · cases taken
  | step i =>
    rw [step] at taken
    split at taken
    · cases taken
    · cases taken
      split_ifs with empty
      · exact .pass i _ _ ‹_› ((transmit_empty_iff _).mp empty)
      · exact .spin i _ _ ‹_› (fun none' => empty ((transmit_empty_iff _).mpr none'))
    · cases taken
      exact .write i _ _ ‹_›
  | load =>
    obtain ⟨u,loaded,rfl⟩ := Option.map_eq_some_iff.mp taken
    exact .load u loaded
  | emit =>
    obtain ⟨u,emitted,rfl⟩ := Option.map_eq_some_iff.mp taken
    exact .emit u emitted

@[simp] theorem at_same (s : State Cpu) (i : Cpu) (p : Printing) : (s.at i p).printing i = p := Function.update_self ..

theorem at_other (s : State Cpu) {i j : Cpu} (p : Printing) (other : j ≠ i) : (s.at i p).printing j = s.printing j :=
  Function.update_of_ne other ..

@[simp] theorem idle_left : Printing.idle.left = [] := rfl
@[simp] theorem test_left (c : UInt8) (rest : List UInt8) : (Printing.test c rest).left = c :: rest := rfl
@[simp] theorem write_left (c : UInt8) (rest : List UInt8) : (Printing.write c rest).left = c :: rest := rfl

@[simp] theorem next_left (str : List UInt8) : (Printing.next str).left = str := by
  cases str <;> rfl

@[simp] theorem next_passed (str : List UInt8) : (Printing.next str).passed = false := by
  cases str <;> rfl

theorem lossless_cons (first : Lossless s [a] r) (later : Lossless r rest t) : Lossless s (a :: rest) t := by
  obtain ⟨written,accepted,order⟩ := first
  obtain ⟨written',accepted',order'⟩ := later
  refine ⟨written ++ written',by rw [accepted',accepted,List.map_append,List.append_assoc],fun i => ?_⟩
  have split : asked i (a :: rest) = asked i [a] ++ asked i rest := by simp [asked]
  have joined : of i (written ++ written') = of i written ++ of i written' := by simp [of]
  rw [split,← List.append_assoc,order i,List.append_assoc,order' i,joined,List.append_assoc]

/-- Each processor of a list takes one step of a kind. -/
theorem run_each {good : Port → Prop} {act : Cpu → Action Cpu} {p q : Printing}
    (one : ∀ (s : State Cpu) i, good s.port → s.printing i = p →
      ∃ v, good v ∧ step s (act i) = some (({ s with port := v } : State Cpu).at i q))
    {l : List Cpu} (distinct : l.Nodup) (start : good s.port) (all : ∀ i ∈ l, s.printing i = p) :
    ∃ t, (serial u).Run s (l.map act) t ∧ good t.port ∧ (∀ i ∈ l, t.printing i = q) ∧
      ∀ i, i ∉ l → t.printing i = s.printing i := by
  induction l generalizing s with
  | nil => exact ⟨s,.refl s,start,by simp,fun _ _ => rfl⟩
  | cons i l ih =>
    obtain ⟨alone,distinct'⟩ := List.nodup_cons.mp distinct
    obtain ⟨v,good',taken⟩ := one s i start (all i List.mem_cons_self)
    have rest (j : Cpu) (member : j ∈ l) : (({ s with port := v } : State Cpu).at i q).printing j = p := by
      have other : j ≠ i := fun same => alone (same ▸ member)
      rw [at_other _ q other]
      exact all j (List.mem_cons_of_mem i member)
    obtain ⟨t,run,good'',reached,away⟩ := @ih (({ s with port := v } : State Cpu).at i q) distinct' good' rest
    refine ⟨t,.cons taken run,good'',fun j member => ?_,fun j outside => ?_⟩
    · rcases List.mem_cons.mp member with rfl | later
      · rw [away j alone,at_same]
      · exact reached j later
    · have other : j ≠ i := fun same => outside (same ▸ List.mem_cons_self)
      rw [away j (fun later => outside (List.mem_cons_of_mem i later)),at_other _ q other]

def failedTest (s : State Cpu) : Action Cpu → Bool
  | .step i => match s.printing i with
    | .test _ _ => !serial_is_transmit_empty s.port
    | _ => false
  | _ => false

def isPrint : Action Cpu → Bool
  | .print _ _ => true
  | _ => false

def Finished (s : State Cpu) : Prop := (∀ i, s.printing i = .idle) ∧ s.port.queue = [] ∧ s.port.shift = none

theorem can_step (s : State Cpu) (more : ¬ Finished s) : ∃ a t, step s a = some t ∧ isPrint a = false ∧ failedTest s a = false := by
  by_cases silent : s.port.queue = [] ∧ s.port.shift = none
  · obtain ⟨i,busy⟩ : ∃ i, s.printing i ≠ .idle := by
      by_contra all
      exact more ⟨fun i => by_contra fun busy => all ⟨i,busy⟩,silent⟩
    have empty := (transmit_empty_iff s.port).mpr silent.1
    cases place : s.printing i with
    | idle => exact absurd place busy
    | test c rest => exact ⟨.step i,_,by rw [step,place],rfl,by simp [failedTest,place,empty]⟩
    | write c rest => exact ⟨.step i,_,by rw [step,place],rfl,by simp [failedTest,place]⟩
  · have left : s.port.queue ≠ [] ∨ s.port.shift ≠ none := by
      by_contra none'
      exact silent ⟨by_contra fun some' => none' (.inl some'),by_contra fun some' => none' (.inr some')⟩
    rcases Port.can_go_on left with ⟨v,loaded⟩ | ⟨v,emitted⟩
    · exact ⟨.load,_,by rw [step,loaded]; rfl,rfl,rfl⟩
    · exact ⟨.emit,_,by rw [step,emitted]; rfl,rfl,rfl⟩

/-! ### One at a time -/

/-- `serial_print` is only called while nobody else is inside, as under `klog_lock`. -/
def Alone (s : State Cpu) : Action Cpu → Prop
  | .print _ _ => ∀ j, s.printing j = .idle
  | _ => True

/-- The strings of the calls, one after another. -/
def strings (actions : List (Action Cpu)) : List UInt8 :=
  actions.flatMap (fun a => match a with
    | .print _ str => str
    | _ => [])

theorem owes_at {i : Cpu} (p : Printing) (others : ∀ j, s.printing j ≠ .idle → j = i) : Owes (s.at i p) p.left := by
  refine .inr ⟨i,by rw [at_same],fun j busy => ?_⟩
  by_contra other
  rw [at_other s p other] at busy
  exact other (others j busy)

theorem Single.step {left : List UInt8} (single : Single s left) (steps : Steps s a t) (alone : Alone s a) :
    ∃ left', Single t left' ∧ t.port.accepted ++ left' = s.port.accepted ++ left ++ strings [a] := by
  obtain ⟨sending,owes,empty⟩ := single
  cases steps with
  | print i str idle =>
    have nothing : left = [] := by
      rcases owes with ⟨_,rfl⟩ | ⟨k,rfl,_⟩
      · rfl
      · rw [alone k,idle_left]
    refine ⟨(Printing.next str).left,⟨sending,owes_at _ (fun j busy => absurd (alone j) busy),fun j c rest write => ?_⟩,?_⟩
    · by_cases same : j = i
      · rw [same,at_same] at write
        cases str <;> cases write
      · rw [at_other s _ same,alone j] at write
        cases write
    · show s.port.accepted ++ _ = _
      simp [nothing,strings]
  | pass i c rest test free =>
    obtain ⟨rfl,others⟩ := owes_busy owes (by rw [test]; simp)
    exact ⟨_,⟨sending,owes_at (.write c rest) others,fun _ _ _ _ => free⟩,by rw [test]; simp [State.at,strings]⟩
  | spin i c rest test full => exact ⟨left,⟨sending,owes,empty⟩,by simp [strings]⟩
  | write i c rest write =>
    obtain ⟨rfl,others⟩ := owes_busy owes (by rw [write]; simp)
    have room : s.port.queue.length < 16 := by rw [empty i c rest write]; decide
    obtain ⟨_,accepted,_⟩ := @Port.Sending.transmit_room _ c sending room
    refine ⟨_,⟨?_,@owes_at Cpu _ ({ s with port := s.port.outb 0 c } : State Cpu) i (.next rest) others,fun j d more again => ?_⟩,?_⟩
    · show (s.port.outb 0 c).Sending
      rw [sending.outb_data]
      exact sending.transmit
    · by_cases same : j = i
      · rw [same,at_same] at again
        cases rest <;> cases again
      · rw [at_other _ _ same] at again
        have busy : s.printing j ≠ .idle := by
          show ({ s with port := s.port.outb 0 c } : State Cpu).printing j ≠ .idle
          rw [again]
          simp
        exact absurd (others j busy) same
    · show (s.port.outb 0 c).accepted ++ _ = _
      rw [sending.outb_data,accepted,write]
      simp [strings]
  | load u loaded =>
    obtain ⟨_,accepted,shorter,_⟩ := Port.load_spec loaded
    refine ⟨left,Single.transmitter ⟨sending,owes,empty⟩ (sending.load loaded) (fun none' => ?_),?_⟩
    · rw [none'] at shorter
      cases shorter
    · show u.accepted ++ _ = _
      simp [accepted,strings]
  | emit u emitted =>
    obtain ⟨_,accepted,queue,_⟩ := sending.emit_spec emitted
    refine ⟨left,Single.transmitter ⟨sending,owes,empty⟩ (sending.emit emitted) (fun none' => queue.trans none'),?_⟩
    show u.accepted ++ _ = _
    simp [accepted,strings]

theorem single_run {left : List UInt8} (run : ((serial u).restrict Alone).Run s actions t) (single : Single s left) :
    ∃ left', Single t left' ∧ t.port.accepted ++ left' = s.port.accepted ++ left ++ strings actions := by
  induction run generalizing left with
  | refl s => exact ⟨left,single,by simp [strings]⟩
  | @cons s r t a rest step _ ih =>
    obtain ⟨left₁,single₁,first⟩ := single.step (steps_of_step step.2) step.1
    obtain ⟨left₂,single₂,later⟩ := ih single₁
    have split : strings (a :: rest) = strings [a] ++ strings rest := by simp [strings]
    exact ⟨left₂,single₂,by rw [later,first,split,List.append_assoc,List.append_assoc]⟩

/-- One at a time any number of processors can print: what is accepted, and what the one inside has left, are the strings
    of all calls in the order of the calls. -/
theorem serial_in_order (u : Port) {first s : State Cpu} {actions : List (Action Cpu)} (start : (serial u).initial first)
    (run : ((serial u).restrict Alone).Run first actions s) :
    ∃ left, Owes s left ∧ s.port.accepted ++ left = u.wire ++ u.shift.toList ++ strings actions := by
  obtain rfl : first = ⟨serial_init u,fun _ => .idle⟩ := start
  have base : (serial_init u).accepted = u.wire ++ u.shift.toList := by
    rw [serial_init_spec]
    simp [Port.accepted]
  have single : Single (⟨serial_init u,fun _ => .idle⟩ : State Cpu) [] :=
    ⟨serial_init_sending u,.inl ⟨fun _ => rfl,rfl⟩,fun _ _ _ write => by cases write⟩
  obtain ⟨left,single',order⟩ := single_run run single
  exact ⟨left,single'.owes,by rw [order,base,List.append_nil]⟩

/-! ### Room in the FIFO -/

variable [Fintype Cpu]

theorem passed_at (s : State Cpu) (i : Cpu) (p : Printing) :
    passed (s.at i p) = if p.passed then insert i (passed s) else (passed s).erase i := by
  ext j
  by_cases same : j = i
  · subst same
    split_ifs with past <;> simp [mem_passed,past]
  · split_ifs <;> simp [mem_passed,at_other s p same,same]

/-- A processor can only pass the test while the FIFO is empty, so that there is always a place for every processor
    that has passed it. -/
theorem Safe.step (safe : Safe s) (steps : Steps s a t) (few : Fintype.card Cpu ≤ 16) : Safe t ∧ Lossless s [a] t := by
  obtain ⟨sending,room⟩ := safe
  cases steps with
  | print i str idle =>
    refine ⟨⟨sending,?_⟩,[],(List.append_nil _).symm,fun j => ?_⟩
    · rw [passed_at,next_passed,if_neg (by decide)]
      have fewer := Finset.card_erase_le (s := passed s) (a := i)
      show s.port.queue.length + _ ≤ _
      omega
    · by_cases same : j = i
      · subst same
        simp [asked,of,idle]
      · simp [asked,of,at_other s _ same,Ne.symm same]
  | pass i c rest test empty =>
    refine ⟨⟨sending,?_⟩,[],(List.append_nil _).symm,fun j => ?_⟩
    · show s.port.queue.length + _ ≤ _
      rw [empty]
      simpa using Finset.card_le_univ (passed (s.at i (.write c rest)))
    · by_cases same : j = i
      · subst same
        simp [asked,of,test]
      · simp [asked,of,at_other s _ same]
  | spin i c rest test full => exact ⟨⟨sending,room⟩,[],(List.append_nil _).symm,fun j => by simp [asked,of]⟩
  | write i c rest write =>
    have inside : i ∈ passed s := mem_passed.mpr (by rw [write]; rfl)
    have some' := Finset.card_pos.mpr ⟨i,inside⟩
    have fewer := Finset.card_erase_of_mem inside
    obtain ⟨queue,accepted,_⟩ := sending.transmit_room (b := c) (by omega)
    refine ⟨⟨?_,?_⟩,[(i,c)],?_,fun j => ?_⟩
    · show (s.port.outb 0 c).Sending
      rw [sending.outb_data]
      exact sending.transmit
    · have others : passed ({ s with port := s.port.outb 0 c } : State Cpu) = passed s := passed_congr rfl
      rw [passed_at,next_passed,if_neg (by decide)]
      rw [others,fewer]
      show (s.port.outb 0 c).queue.length + _ ≤ _
      rw [sending.outb_data,queue,List.length_append,List.length_singleton]
      omega
    · show (s.port.outb 0 c).accepted = _
      rw [sending.outb_data,accepted]
      rfl
    · by_cases same : j = i
      · subst same
        simp [asked,of,write]
      · simp [asked,of,at_other _ _ same,Ne.symm same]
  | load u loaded =>
    obtain ⟨_,accepted,shorter,_⟩ := Port.load_spec loaded
    refine ⟨⟨sending.load loaded,?_⟩,[],by simpa using accepted,fun j => by simp [asked,of]⟩
    have others : passed ({ s with port := u } : State Cpu) = passed s := passed_congr rfl
    rw [others]
    show u.queue.length + _ ≤ _
    omega
  | emit u emitted =>
    obtain ⟨_,accepted,queue,_⟩ := sending.emit_spec emitted
    refine ⟨⟨sending.emit emitted,?_⟩,[],by simpa using accepted,fun j => by simp [asked,of]⟩
    have others : passed ({ s with port := u } : State Cpu) = passed s := passed_congr rfl
    rw [others]
    show u.queue.length + _ ≤ _
    rw [queue]
    exact room

theorem lossless_run (run : (serial u).Run s actions t) (safe : Safe s) (few : Fintype.card Cpu ≤ 16) :
    Lossless s actions t := by
  induction run with
  | refl s => exact ⟨[],(List.append_nil _).symm,fun i => by simp [asked,of]⟩
  | cons step _ ih =>
    obtain ⟨safe',first⟩ := safe.step (steps_of_step step) few
    exact lossless_cons first (ih safe')

/-- All processors pass the test before any of them writes. -/
theorem all_at_once (u : Port) : ∃ (actions : List (Action Cpu)) (t : State Cpu),
    (serial u).Run ⟨serial_init u,fun _ => .idle⟩ actions t ∧ t.port.accepted.length ≤ u.wire.length + u.shift.toList.length + 16 ∧
      ∀ i, 0 ∈ asked i actions ∧ t.printing i = .idle := by
  have distinct : (Finset.univ.toList : List Cpu).Nodup := Finset.nodup_toList _
  have everyone (i : Cpu) : i ∈ (Finset.univ.toList : List Cpu) := Finset.mem_toList.mpr (Finset.mem_univ i)
  have fresh := serial_init_spec u
  obtain ⟨s₁,run₁,port₁,at₁,_⟩ := @run_each Cpu _ ⟨serial_init u,fun _ => .idle⟩ u (· = serial_init u) (.print · [0]) .idle
    (.test 0 []) (fun s i same idle => ⟨s.port,same,by rw [step,idle]; rfl⟩) _ distinct rfl (fun _ _ => rfl)
  obtain ⟨s₂,run₂,port₂,at₂,_⟩ := @run_each Cpu _ s₁ u (· = serial_init u) .step (.test 0 [])
    (.write 0 []) (fun s i same test => ⟨s.port,same,by
      have empty : serial_is_transmit_empty s.port = true := by rw [transmit_empty_iff,same,fresh]
      rw [step,test]
      simp only [empty,if_true]⟩) _ distinct port₁ at₁
  obtain ⟨s₃,run₃,⟨_,fits,shift,wire⟩,at₃,_⟩ := @run_each Cpu _ s₂ u
    (fun v => v.Sending ∧ v.queue.length ≤ 16 ∧ v.shift = u.shift ∧ v.wire = u.wire) .step (.write 0 []) .idle
    (fun s i held write => by
      obtain ⟨sending,fits,shift,wire⟩ := held
      obtain ⟨fits',shift',wire'⟩ := @Port.Sending.transmit_fits _ 0 sending fits
      exact ⟨s.port.outb 0 0,by rw [sending.outb_data]; exact ⟨sending.transmit,fits',shift'.trans shift,wire'.trans wire⟩,
        by rw [step,write]; rfl⟩) _ distinct
    (by rw [port₂]; exact ⟨serial_init_sending u,by simp [fresh],by rw [fresh],by rw [fresh]⟩) at₂
  refine ⟨_,s₃,(run₁.append run₂).append run₃,?_,fun i => ⟨?_,at₃ i (everyone i)⟩⟩
  · simp only [Port.accepted,List.length_append,shift,wire]
    omega
  · have printed : Action.print i [0] ∈ (Finset.univ.toList : List Cpu).map (.print · [0]) := List.mem_map_of_mem (everyone i)
    exact List.mem_flatMap.mpr ⟨_,List.mem_append_left _ (List.mem_append_left _ printed),by simp⟩

/-- Processors that print without a lock never lose a byte, however their tests and writes and the transmitter
    interleave, exactly if there are at most as many of them as the FIFO has places. -/
theorem serial_lossless_iff : (∀ (u : Port) (first s : State Cpu) (actions : List (Action Cpu)),
    (serial u).initial first → (serial u).Run first actions s → Lossless first actions s) ↔ Fintype.card Cpu ≤ 16 := by
  constructor
  · intro lossless
    obtain ⟨actions,t,run,bound,all⟩ := @all_at_once Cpu _ _ ⟨0,false,0,0,0,0,0,[],none,[]⟩
    obtain ⟨written,accepted,order⟩ := lossless _ _ t actions rfl run
    have everyone : (Finset.univ : Finset Cpu) ⊆ (written.map Prod.fst).toFinset := by
      intro i _
      obtain ⟨told,idle⟩ := all i
      have same := order i
      rw [idle,idle_left,List.nil_append,List.append_nil] at same
      rw [same] at told
      obtain ⟨w,member,_⟩ := List.mem_map.mp told
      obtain ⟨inside,mine⟩ := List.mem_filter.mp member
      exact List.mem_toFinset.mpr (List.mem_map.mpr ⟨w,inside,of_decide_eq_true mine⟩)
    have start : (serial_init ⟨0,false,0,0,0,0,0,[],none,[]⟩).accepted = [] := by rw [serial_init_spec]; rfl
    rw [accepted,start,List.nil_append,List.length_map] at bound
    calc Fintype.card Cpu ≤ (written.map Prod.fst).toFinset.card := Finset.card_le_card everyone
      _ ≤ (written.map Prod.fst).length := List.toFinset_card_le _
      _ = written.length := List.length_map _
      _ ≤ 16 := bound
  · intro few u first s actions start run
    obtain rfl : first = ⟨serial_init u,fun _ => .idle⟩ := start
    exact lossless_run run (safe_initial u) few

/-! ### Progress -/

def Printing.weight : Printing → Nat
  | .idle => 0
  | .test _ rest => 4 * rest.length + 4
  | .write _ rest => 4 * rest.length + 3

/-- How many steps are left until everything is on the line, without the tests that fail. -/
def work (s : State Cpu) : Nat :=
  ∑ i, (s.printing i).weight + 2 * s.port.queue.length + s.port.shift.toList.length

theorem weight_test (c : UInt8) (rest : List UInt8) : (Printing.test c rest).weight = 4 * rest.length + 4 := rfl
theorem weight_write (c : UInt8) (rest : List UInt8) : (Printing.write c rest).weight = 4 * rest.length + 3 := rfl

theorem weight_next (str : List UInt8) : (Printing.next str).weight = 4 * str.length := by
  cases str <;> rfl

theorem sum_weight_at (s : State Cpu) (i : Cpu) (p : Printing) :
    ∑ j, ((s.at i p).printing j).weight + (s.printing i).weight = ∑ j, (s.printing j).weight + p.weight := by
  have before := Finset.add_sum_erase Finset.univ (fun j => (s.printing j).weight) (Finset.mem_univ i)
  have after := Finset.add_sum_erase Finset.univ (fun j => ((s.at i p).printing j).weight) (Finset.mem_univ i)
  have others : ∑ j ∈ Finset.univ.erase i, ((s.at i p).printing j).weight = ∑ j ∈ Finset.univ.erase i, (s.printing j).weight :=
    Finset.sum_congr rfl (fun j member => by rw [at_other s p (Finset.ne_of_mem_erase member)])
  rw [at_same] at after
  omega

/-- Every step but a failed test brings the end nearer. -/
theorem work_step (safe : Safe s) (steps : Steps s a t) (few : Fintype.card Cpu ≤ 16) (quiet : isPrint a = false) :
    work t + (if failedTest s a then 0 else 1) ≤ work s := by
  cases steps with
  | print i str idle => cases quiet
  | pass i c rest test empty =>
    have passes : failedTest s (.step i) = false := by
      simp [failedTest,test,(transmit_empty_iff s.port).mpr empty]
    have sum := sum_weight_at s i (.write c rest)
    rw [test,weight_test,weight_write] at sum
    rw [passes,work,work]
    show _ + 2 * s.port.queue.length + s.port.shift.toList.length + 1 ≤ _
    omega
  | spin i c rest test full =>
    have fails : failedTest s (.step i) = true := by
      have busy : ¬ serial_is_transmit_empty s.port = true := fun empty => full ((transmit_empty_iff _).mp empty)
      simp [failedTest,test,busy]
    simp [fails]
  | write i c rest write =>
    have inside : i ∈ passed s := mem_passed.mpr (by rw [write]; rfl)
    have some' := Finset.card_pos.mpr ⟨i,inside⟩
    have room := safe.room
    obtain ⟨queue,_,shift⟩ := @Port.Sending.transmit_room _ c safe.sending (by omega)
    have sum : ∑ j, ((({ s with port := s.port.outb 0 c } : State Cpu).at i (.next rest)).printing j).weight +
        (s.printing i).weight = ∑ j, (s.printing j).weight + (Printing.next rest).weight := sum_weight_at _ i _
    rw [write,weight_write,weight_next] at sum
    have goes : failedTest s (.step i) = false := by simp [failedTest,write]
    rw [goes,work,work]
    show _ + 2 * (s.port.outb 0 c).queue.length + (s.port.outb 0 c).shift.toList.length + 1 ≤ _
    have longer : (s.port.outb 0 c).queue.length = s.port.queue.length + 1 := by
      rw [safe.sending.outb_data,queue,List.length_append,List.length_singleton]
    have same : (s.port.outb 0 c).shift = s.port.shift := by rw [safe.sending.outb_data,shift]
    rw [longer,same]
    omega
  | load u loaded =>
    obtain ⟨empty,_,shorter,full⟩ := Port.load_spec loaded
    obtain ⟨b,shift⟩ := Option.isSome_iff_exists.mp full
    have goes : failedTest s .load = false := rfl
    rw [goes,work,work,empty]
    show _ + 2 * u.queue.length + u.shift.toList.length + 1 ≤ _
    rw [shift,shorter]
    simp only [Option.toList_some,Option.toList_none,List.length_singleton,List.length_nil]
    omega
  | emit u emitted =>
    obtain ⟨full,_,queue,empty⟩ := safe.sending.emit_spec emitted
    obtain ⟨b,shift⟩ := Option.isSome_iff_exists.mp full
    have goes : failedTest s .emit = false := rfl
    rw [goes,work,work,shift]
    show _ + 2 * u.queue.length + u.shift.toList.length + 1 ≤ _
    rw [queue,empty]
    simp only [Option.toList_some,Option.toList_none,List.length_singleton,List.length_nil]
    omega

theorem safe_of_reachable (reached : (serial u).Reachable s) (few : Fintype.card Cpu ≤ 16) : Safe s := by
  refine reached.invariant (fun s first => ?_) (fun s a t safe step => (safe.step (steps_of_step step) few).1)
  obtain rfl : s = ⟨serial_init u,fun _ => .idle⟩ := first
  exact safe_initial u

/-- Without new calls there are only so many steps besides failed tests, and there is one until everything is on the
    line: processors that print never wait for ever for each other. -/
theorem serial_finishes (few : Fintype.card Cpu ≤ 16) (reached : (serial u).Reachable s) :
    (∀ actions t n, (∀ a ∈ actions, isPrint a = false) →
      ((serial u).counting (fun s a => !failedTest s a)).Run (s,0) actions (t,n) → n + work t ≤ work s) ∧
    (Finished s ∨ ∃ a t, (serial u).step s a t ∧ isPrint a = false ∧ failedTest s a = false) := by
  refine ⟨fun actions t n quiet run => ?_,?_⟩
  · have safe := safe_of_reachable reached few
    obtain ⟨p,p_eq⟩ : ∃ p : State Cpu × Nat, p = (s,0) := ⟨_,rfl⟩
    obtain ⟨q,q_eq⟩ : ∃ q : State Cpu × Nat, q = (t,n) := ⟨_,rfl⟩
    rw [← p_eq,← q_eq] at run
    have bound : Safe p.1 → q.2 + work q.1 ≤ p.2 + work p.1 := by
      clear p_eq q_eq
      induction run with
      | refl => exact fun _ => Nat.le_refl _
      | @cons p q r a rest step _ ih =>
        intro safe
        obtain ⟨taken,counted⟩ := step
        have event : (if (!failedTest p.1 a) = true then 1 else 0) = if failedTest p.1 a then 0 else 1 := by
          cases failedTest p.1 a <;> rfl
        have safe' := (safe.step (steps_of_step taken) few).1
        have less := work_step safe (steps_of_step taken) few (quiet _ List.mem_cons_self)
        have later := ih (fun a member => quiet a (List.mem_cons_of_mem _ member)) safe'
        rw [counted,event] at later
        omega
    rw [p_eq,q_eq] at bound
    simpa using bound safe
  · by_cases finished : Finished s
    · exact .inl finished
    · obtain ⟨a,t,taken,quiet,goes⟩ := can_step s finished
      exact .inr ⟨a,t,taken,quiet,goes⟩

end

/-- The port after a reset. -/
def resetPort : Port := ⟨0,false,0,0,0,0,0x60,[],none,[]⟩

/-- Two processors have passed the test at once. -/
theorem serial_finishes_two : ∃ s : State Bool, s.printing true = .write 65 [] ∧ s.printing false = .write 66 [] ∧
    (Finished s ∨ ∃ a t, (serial resetPort).step s a t ∧ isPrint a = false ∧ failedTest s a = false) := by
  have run : (serial resetPort).Run ⟨serial_init resetPort,fun _ => .idle⟩
      [.print true [65],.print false [66],.step true,.step false] _ := System.run_of_foldlM rfl
  exact ⟨_,rfl,rfl,(serial_finishes (by decide) ((System.reachable_initial rfl).run run)).2⟩

/-- The second processor prints after the first has written everything. -/
theorem serial_in_order_two : ∃ s : State Bool, s.printing false = .test 66 [] ∧
    ∃ left, Owes s left ∧ s.port.accepted ++ left = [65,66] := by
  have run : ((serial resetPort).restrict Alone).Run (⟨serial_init resetPort,fun _ => .idle⟩ : State Bool)
      [.print true [65],.step true,.step true,.print false [66]] _ :=
    .cons ⟨fun _ => rfl,rfl⟩ (.cons ⟨trivial,rfl⟩ (.cons ⟨trivial,rfl⟩ (.cons ⟨fun j => by cases j <;> rfl,rfl⟩ (.refl _))))
  exact ⟨_,rfl,serial_in_order resetPort rfl run⟩

end NekoOs.Serial
