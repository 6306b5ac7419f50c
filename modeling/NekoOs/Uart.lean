import Mathlib.Data.List.Basic

/-!
A 16550 serial port: the registers that a program writes, the line status that it
reads, and the transmitter, which sends in its own time what the program has written.
-/
namespace NekoOs.Uart

/-- `queue` is the holding register or the FIFO, from its oldest byte on, and `wire` what has been sent. -/
structure Port where
  ier : UInt8
  fifo : Bool
  lcr : UInt8
  mcr : UInt8
  dll : UInt8
  dlm : UInt8
  /-- The bits of the receiver in the line status. -/
  received : UInt8
  queue : List UInt8
  shift : Option UInt8
  wire : List UInt8

namespace Port
variable (u : Port)

/-- The divisor latch takes the place of the first two registers. -/
def dlab : Bool := u.lcr.toNat.testBit 7

def depth : Nat := if u.fifo then 16 else 1

/-- A full FIFO drops a byte, a full holding register is overwritten. -/
def transmit (v : UInt8) : Port :=
  if u.queue.length < u.depth then { u with queue := u.queue ++ [v] }
  else if u.fifo then u
  else { u with queue := [v] }

/-- Turning the FIFO on or off empties it, and so does bit 2 while it is on. -/
def control (v : UInt8) : Port :=
  let fifo := v.toNat.testBit 0
  { u with
    fifo := fifo
    queue := if fifo = u.fifo ∧ (fifo = false ∨ v.toNat.testBit 2 = false) then u.queue else [] }

/-- A write to a register by its offset. -/
def outb (offset : Nat) (v : UInt8) : Port := match offset with
  | 0 => if u.dlab then { u with dll := v } else u.transmit v
  | 1 => if u.dlab then { u with dlm := v } else { u with ier := v }
  | 2 => u.control v
  | 3 => { u with lcr := v }
  | 4 => { u with mcr := v }
  | _ => u

/-- The line status: nothing is left to load, and nothing is left to send. -/
def lineStatus : UInt8 :=
  (u.received &&& 0x9F) ||| (if u.queue = [] then 0x20 else 0) ||| (if u.queue = [] ∧ u.shift = none then 0x40 else 0)

/-- Neither a break nor the loopback keeps what is sent from the line. -/
def driven : Bool := !u.lcr.toNat.testBit 6 && !u.mcr.toNat.testBit 4

/-- The shift register takes the next byte. -/
def load : Option Port := match u.shift, u.queue with
  | none, b :: rest => some { u with shift := some b, queue := rest }
  | _, _ => none

/-- The byte in the shift register has been sent. -/
def emit : Option Port := match u.shift with
  | some b => some { u with shift := none, wire := if u.driven then u.wire ++ [b] else u.wire }
  | none => none

/-- What has been accepted, in the order in which it is sent. -/
def accepted : List UInt8 := u.wire ++ u.shift.toList ++ u.queue

/-- Ready to send, with the FIFO on. -/
structure Sending : Prop where
  fifo : u.fifo = true
  data : u.dlab = false
  driven : u.driven = true

variable {u} {v : Port} {b : UInt8}

private theorem or_and (x y z : UInt8) : (x ||| y) &&& z = (x &&& z) ||| (y &&& z) := by
  rw [← UInt8.toBitVec_inj]
  exact BitVec.and_or_distrib_right

theorem lineStatus_empty : u.lineStatus &&& 0x20 ≠ 0 ↔ u.queue = [] := by
  have masked : u.received &&& 0x9F &&& 0x20 = 0 := by
    rw [UInt8.and_assoc]
    exact UInt8.and_zero
  rw [lineStatus,or_and,or_and,masked]
  by_cases empty : u.queue = []
  · by_cases silent : u.shift = none <;> simp [empty,silent]
  · simp [empty]

theorem Sending.outb_data (sending : Sending u) : u.outb 0 b = u.transmit b := by
  simp [outb,sending.data]

theorem Sending.transmit (sending : Sending u) : Sending (u.transmit b) := by
  unfold Port.transmit
  split_ifs
  · exact ⟨sending.fifo,sending.data,sending.driven⟩
  · exact sending
  · exact ⟨sending.fifo,sending.data,sending.driven⟩

theorem Sending.load (sending : Sending u) (loaded : u.load = some v) : Sending v := by
  unfold Port.load at loaded
  split at loaded
  · cases loaded
    exact ⟨sending.fifo,sending.data,sending.driven⟩
  · cases loaded

theorem Sending.emit (sending : Sending u) (emitted : u.emit = some v) : Sending v := by
  unfold Port.emit at emitted
  split at emitted
  · cases emitted
    exact ⟨sending.fifo,sending.data,sending.driven⟩
  · cases emitted

/-- With room in the FIFO a byte is accepted last. -/
theorem Sending.transmit_room (sending : Sending u) (room : u.queue.length < 16) :
    (u.transmit b).queue = u.queue ++ [b] ∧ (u.transmit b).accepted = u.accepted ++ [b] ∧ (u.transmit b).shift = u.shift := by
  have fits : u.queue.length < u.depth := by
    rw [depth,sending.fifo,if_pos rfl]
    exact room
  rw [Port.transmit,if_pos fits]
  exact ⟨rfl,by simp [accepted],rfl⟩

theorem Sending.transmit_full (sending : Sending u) (full : 16 ≤ u.queue.length) : u.transmit b = u := by
  have none' : ¬ u.queue.length < u.depth := by
    rw [depth,sending.fifo,if_pos rfl]
    omega
  rw [Port.transmit,if_neg none',if_pos sending.fifo]

theorem Sending.transmit_fits (sending : Sending u) (fits : u.queue.length ≤ 16) :
    (u.transmit b).queue.length ≤ 16 ∧ (u.transmit b).shift = u.shift ∧ (u.transmit b).wire = u.wire := by
  by_cases room : u.queue.length < 16
  · obtain ⟨queue,_,_⟩ := @Sending.transmit_room _ b sending room
    have taken : u.queue.length < u.depth := by
      rw [depth,sending.fifo,if_pos rfl]
      exact room
    rw [queue,List.length_append,List.length_singleton,Uart.Port.transmit,if_pos taken]
    exact ⟨room,rfl,rfl⟩
  · rw [sending.transmit_full (by omega)]
    exact ⟨fits,rfl,rfl⟩

/-- What the transmitter does on its own loses nothing and keeps the order. -/
theorem load_spec (loaded : u.load = some v) : u.shift = none ∧ v.accepted = u.accepted ∧
    u.queue.length = v.queue.length + 1 ∧ v.shift.isSome = true := by
  unfold load at loaded
  split at loaded
  next shift queue =>
    cases loaded
    simp [accepted,shift,queue]
  · cases loaded

theorem Sending.emit_spec (sending : Sending u) (emitted : u.emit = some v) : u.shift.isSome = true ∧
    v.accepted = u.accepted ∧ v.queue = u.queue ∧ v.shift = none := by
  unfold Port.emit at emitted
  split at emitted
  next shift =>
    cases emitted
    simp [accepted,shift,sending.driven]
  · cases emitted

/-- As long as something is accepted and not sent, the transmitter can go on. -/
theorem can_go_on (left : u.queue ≠ [] ∨ u.shift ≠ none) : (∃ v, u.load = some v) ∨ ∃ v, u.emit = some v := by
  cases shift : u.shift with
  | some b => exact .inr ⟨_,by rw [emit,shift]⟩
  | none =>
    cases queue : u.queue with
    | nil => simp [shift,queue] at left
    | cons b rest => exact .inl ⟨_,by rw [load,shift,queue]⟩

end Port

end NekoOs.Uart
