import NekoOs.ByteMemory
import NekoOs.Words
import Mathlib.Data.List.Nodup

/-!
The few x86-64 instructions of a context switch: stack pushes and pops, moves
through a pointer register and `ret`, with the values they leave in registers
and memory.
-/
namespace NekoOs.X86
open ByteMemory Words

inductive Reg
  | rsp | rbp | rbx | rdi | rsi | r12 | r13 | r14 | r15
deriving DecidableEq, Repr

structure Machine where
  reg : Reg → Nat
  rip : Nat
  mem : Memory

inductive Instr
  | push (r : Reg)
  | pop (r : Reg)
  /-- `mov [base], source` -/
  | store (base source : Reg)
  /-- `mov target, [base]` -/
  | load (target base : Reg)
  | ret
deriving DecidableEq, Repr

def Machine.set (c : Machine) (r : Reg) (v : Nat) : Machine :=
  { c with reg := fun q => if q = r then v else c.reg q }

def Instr.exec (c : Machine) : Instr → Machine
  | .push r =>
    let sp := sub64 (c.reg .rsp) 8
    { c.set .rsp sp with mem := ByteMemory.store c.mem sp 8 (c.reg r) }
  | .pop r => (c.set .rsp (add64 (c.reg .rsp) 8)).set r (ByteMemory.load c.mem (c.reg .rsp) 8)
  | .store base source => { c with mem := ByteMemory.store c.mem (c.reg base) 8 (c.reg source) }
  | .load target base => c.set target (ByteMemory.load c.mem (c.reg base) 8)
  | .ret => { c.set .rsp (add64 (c.reg .rsp) 8) with rip := ByteMemory.load c.mem (c.reg .rsp) 8 }

/-- The stack that a `call` leaves to its target. -/
def call (ret : Nat) (c : Machine) : Machine :=
  { c.set .rsp (sub64 (c.reg .rsp) 8) with mem := ByteMemory.store c.mem (sub64 (c.reg .rsp) 8) 8 ret }

/-- Straight-line code. -/
def run (code : List Instr) (c : Machine) : Machine := code.foldl Instr.exec c

section
variable {c : Machine}

theorem run_append (first second : List Instr) : run (first ++ second) c = run second (run first c) :=
  List.foldl_append

@[simp] theorem set_same (r : Reg) (v : Nat) : (c.set r v).reg r = v := if_pos rfl
theorem set_other {r q : Reg} (other : q ≠ r) (v : Nat) : (c.set r v).reg q = c.reg q := if_neg other
@[simp] theorem set_mem (r : Reg) (v : Nat) : (c.set r v).mem = c.mem := rfl

theorem push_rsp (r : Reg) : (Instr.exec c (.push r)).reg .rsp = sub64 (c.reg .rsp) 8 := by
  simp [Instr.exec]
theorem push_other (r : Reg) {q : Reg} (other : q ≠ .rsp) : (Instr.exec c (.push r)).reg q = c.reg q := by
  simp [Instr.exec,set_other other]
theorem push_mem (r : Reg) :
    (Instr.exec c (.push r)).mem = ByteMemory.store c.mem (sub64 (c.reg .rsp) 8) 8 (c.reg r) := by
  simp only [Instr.exec]
theorem pop_rsp {r : Reg} (other : .rsp ≠ r) : (Instr.exec c (.pop r)).reg .rsp = add64 (c.reg .rsp) 8 := by
  simp [Instr.exec,set_other other]
theorem pop_same (r : Reg) : (Instr.exec c (.pop r)).reg r = ByteMemory.load c.mem (c.reg .rsp) 8 := by
  simp [Instr.exec]
theorem pop_other {r q : Reg} (notTarget : q ≠ r) (notPointer : q ≠ .rsp) :
    (Instr.exec c (.pop r)).reg q = c.reg q := by
  simp [Instr.exec,set_other notTarget,set_other notPointer]

theorem call_rsp (ret : Nat) : (call ret c).reg .rsp = sub64 (c.reg .rsp) 8 := by
  simp [call]
theorem call_other (ret : Nat) {q : Reg} (other : q ≠ .rsp) : (call ret c).reg q = c.reg q := by
  simp [call,set_other other]
theorem call_mem (ret : Nat) : (call ret c).mem = ByteMemory.store c.mem (sub64 (c.reg .rsp) 8) 8 ret := by
  simp only [call]

/-- The address of the `i`-th word pushed from a stack pointer on. -/
def slot (sp i : Nat) : Nat := sub64 sp (8 * (i + 1))

theorem run_pushes_reg (rs : List Reg) {r : Reg} (other : r ≠ .rsp) :
    (run (rs.map .push) c).reg r = c.reg r := by
  induction rs generalizing c with
  | nil => rfl
  | cons q rs ih => exact ih.trans (push_other q other)

/-- Pushing writes the slots below the stack pointer and nothing else. -/
theorem run_pushes_outside (rs : List Reg) (room : 8 * rs.length ≤ limit64) {x : Nat}
    (outside : ∀ i, i < rs.length → x < slot (c.reg .rsp) i ∨ slot (c.reg .rsp) i + 8 ≤ x) :
    (run (rs.map .push) c).mem x = c.mem x := by
  induction rs generalizing c with
  | nil => rfl
  | cons q rs ih =>
    rw [List.length_cons] at room outside
    have later : (run (rs.map .push) (Instr.exec c (.push q))).mem x = (Instr.exec c (.push q)).mem x := by
      refine ih (by omega) (fun i inside => ?_)
      have moved : slot ((Instr.exec c (.push q)).reg .rsp) i = slot (c.reg .rsp) (i + 1) := by
        have sum : 8 + 8 * (i + 1) = 8 * (i + 1 + 1) := by omega
        rw [push_rsp,slot,slot,sub64_sub64 (by omega),sum]
      rw [moved]
      exact outside (i + 1) (by omega)
    have first := outside 0 (by omega)
    rw [slot,Nat.mul_one] at first
    refine later.trans ?_
    rw [push_mem,store_outside first]

theorem slot_eq {sp i : Nat} (room : 8 * (i + 1) ≤ sp) (fits : sp < limit64) : slot sp i = sp - 8 * (i + 1) :=
  sub64_eq room fits

/-- Pushes leave the words one below the other, the first one highest. -/
theorem run_pushes_words (rs : List Reg) (room : 8 * rs.length ≤ c.reg .rsp) (fits : c.reg .rsp < limit64)
    (values : ∀ r ∈ rs, r ≠ .rsp ∧ c.reg r < limit64) :
    (run (rs.map .push) c).reg .rsp = c.reg .rsp - 8 * rs.length ∧
    ∀ i r, rs[i]? = some r → ByteMemory.load (run (rs.map .push) c).mem (c.reg .rsp - 8 * (i + 1)) 8 = c.reg r := by
  induction rs generalizing c with
  | nil => exact ⟨rfl,by simp⟩
  | cons q rs ih =>
    rw [List.length_cons] at room
    obtain ⟨qOther,qFits⟩ := values q (by simp)
    have pointer : (Instr.exec c (.push q)).reg .rsp = c.reg .rsp - 8 := by
      rw [push_rsp,sub64_eq (by omega) fits]
    have memory : (Instr.exec c (.push q)).mem = ByteMemory.store c.mem (c.reg .rsp - 8) 8 (c.reg q) := by
      rw [push_mem,sub64_eq (by omega) fits]
    have others : ∀ r, r ≠ .rsp → (Instr.exec c (.push q)).reg r = c.reg r := fun r other => push_other q other
    rw [List.map_cons,show run (.push q :: rs.map .push) c = run (rs.map .push) (Instr.exec c (.push q)) from rfl]
    generalize Instr.exec c (.push q) = d at *
    obtain ⟨sp,words⟩ := @ih d (by omega) (by omega) (fun r member => by
      obtain ⟨other,small⟩ := values r (by simp [member])
      exact ⟨other,by rwa [others r other]⟩)
    refine ⟨by rw [sp,pointer,List.length_cons]; omega,fun i r found => ?_⟩
    cases i with
    | zero =>
      obtain rfl : q = r := by simpa using found
      have kept : ByteMemory.load (run (rs.map .push) d).mem (c.reg .rsp - 8) 8 =
          ByteMemory.load d.mem (c.reg .rsp - 8) 8 := by
        refine load_congr (fun x low high => run_pushes_outside rs (by omega) (fun j inside => ?_))
        rw [pointer,slot_eq (by omega) (by omega)]
        omega
      rw [kept,memory]
      exact load_store_same (by simpa [limit64] using qFits)
    | succ i =>
      have member : r ∈ rs := List.mem_of_getElem? (by simpa using found)
      have address : d.reg .rsp - 8 * (i + 1) = c.reg .rsp - 8 * (i + 1 + 1) := by omega
      rw [← others r (values r (by simp [member])).1,← words i r (by simpa using found),address]

theorem run_pops_mem (rs : List Reg) : (run (rs.map .pop) c).mem = c.mem := by
  induction rs generalizing c with
  | nil => rfl
  | cons q rs ih => exact ih

/-- Pops read consecutive words upwards from the stack pointer. -/
theorem run_pops (rs : List Reg) (noPointer : .rsp ∉ rs) (distinct : rs.Nodup)
    (room : c.reg .rsp + 8 * rs.length < limit64) :
    (run (rs.map .pop) c).mem = c.mem ∧ (run (rs.map .pop) c).rip = c.rip ∧
    (run (rs.map .pop) c).reg .rsp = c.reg .rsp + 8 * rs.length ∧
    (∀ r, r ∉ rs → r ≠ .rsp → (run (rs.map .pop) c).reg r = c.reg r) ∧
    ∀ i, ∀ r, rs[i]? = some r → (run (rs.map .pop) c).reg r = ByteMemory.load c.mem (c.reg .rsp + 8 * i) 8 := by
  induction rs generalizing c with
  | nil => exact ⟨rfl,rfl,rfl,fun _ _ _ => rfl,by simp⟩
  | cons q rs ih =>
    rw [List.mem_cons,not_or] at noPointer
    rw [List.nodup_cons] at distinct
    rw [List.length_cons] at room
    have pointer : (Instr.exec c (.pop q)).reg .rsp = c.reg .rsp + 8 := by
      rw [pop_rsp noPointer.1,add64_eq (by omega)]
    have popped : (Instr.exec c (.pop q)).reg q = ByteMemory.load c.mem (c.reg .rsp) 8 := pop_same q
    have others : ∀ r, r ≠ q → r ≠ .rsp → (Instr.exec c (.pop q)).reg r = c.reg r :=
      fun r notTarget notPointer => pop_other notTarget notPointer
    have memory : (Instr.exec c (.pop q)).mem = c.mem := rfl
    have counter : (Instr.exec c (.pop q)).rip = c.rip := rfl
    rw [List.map_cons,show run (.pop q :: rs.map .pop) c = run (rs.map .pop) (Instr.exec c (.pop q)) from rfl]
    generalize Instr.exec c (.pop q) = d at *
    obtain ⟨mem,rip,sp,kept,values⟩ := ih (c := d) noPointer.2 distinct.2 (by omega)
    refine ⟨mem.trans memory,rip.trans counter,?_,?_,?_⟩
    · rw [sp,pointer,List.length_cons]
      omega
    · intro r absent notPointer
      rw [List.mem_cons,not_or] at absent
      exact (kept r absent.2 notPointer).trans (others r absent.1 notPointer)
    · intro i r found
      cases i with
      | zero =>
        obtain rfl : q = r := by simpa using found
        exact (kept q distinct.1 (fun same => noPointer.1 same.symm)).trans popped
      | succ i =>
        have address : d.reg .rsp + 8 * i = c.reg .rsp + 8 * (i + 1) := by omega
        rw [values i r (by simpa using found),memory,address]

theorem run_ret : (run [.ret] c).rip = ByteMemory.load c.mem (c.reg .rsp) 8 ∧ (run [.ret] c).mem = c.mem ∧
    (run [.ret] c).reg .rsp = add64 (c.reg .rsp) 8 ∧ ∀ r, r ≠ .rsp → (run [.ret] c).reg r = c.reg r :=
  ⟨rfl,rfl,rfl,fun _ other => if_neg other⟩

end
end NekoOs.X86
