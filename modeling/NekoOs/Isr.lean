import NekoOs.PushWords
import NekoOs.RoundTrip

/-!
Interrupt entry and exit. The stubs save every register around the handler, so the
interrupted code goes on as if nothing had happened, also when the handler switches
to other tasks before it returns.
-/
namespace NekoOs.Isr
open ByteMemory Words PushWords Transitions

inductive Gpr
  | rax | rbx | rcx | rdx | rsi | rdi | rbp | rsp | r8 | r9 | r10 | r11 | r12 | r13 | r14 | r15
deriving DecidableEq, Repr

structure Cpu where
  reg : Gpr → Nat
  rip : Nat
  rflags : Nat
  cs : Nat
  ss : Nat
  mem : Memory

inductive Instr
  | push (r : Gpr)
  /-- `push imm` -/
  | pushImm (v : Nat)
  | pop (r : Gpr)
  /-- `mov target, [rsp + disp]` -/
  | load (target : Gpr) (disp : Nat)
  /-- `add rsp, n`, whose flags `iretq` overwrites -/
  | addRsp (n : Nat)
  | iretq
deriving DecidableEq, Repr

def Cpu.set (c : Cpu) (r : Gpr) (v : Nat) : Cpu := { c with reg := fun q => if q = r then v else c.reg q }

def Cpu.stack (c : Cpu) : Stack := ⟨c.mem,c.reg .rsp⟩
def Cpu.withStack (c : Cpu) (s : Stack) : Cpu := { c.set .rsp s.sp with mem := s.mem }

def Instr.exec (c : Cpu) : Instr → Cpu
  | .push r => c.withStack (c.stack.push (c.reg r))
  | .pushImm v => c.withStack (c.stack.push v)
  | .pop r => (c.set .rsp (add64 (c.reg .rsp) 8)).set r (ByteMemory.load c.mem (c.reg .rsp) 8)
  | .load target disp => c.set target (ByteMemory.load c.mem (add64 (c.reg .rsp) disp) 8)
  | .addRsp n => c.set .rsp (add64 (c.reg .rsp) n)
  -- back to the same privilege level; selectors are 16 bits wide
  | .iretq => { c.set .rsp (ByteMemory.load c.mem (add64 (c.reg .rsp) 24) 8) with
      rip := ByteMemory.load c.mem (c.reg .rsp) 8
      cs := ByteMemory.load c.mem (add64 (c.reg .rsp) 8) 8 % 2 ^ 16
      rflags := ByteMemory.load c.mem (add64 (c.reg .rsp) 16) 8
      ss := ByteMemory.load c.mem (add64 (c.reg .rsp) 32) 8 % 2 ^ 16 }

def run (code : List Instr) (c : Cpu) : Cpu := code.foldl Instr.exec c

/-- The kernel's code segment. -/
def selector : Nat := 0x08

/-- `VM`, `RF`, `NT`, `IF` and `TF`, which an interrupt gate clears. -/
def gateFlags : Nat := 0x34300

/-- The processor takes an interrupt through a gate without an interrupt stack: it aligns the stack,
    pushes the interrupted context and perhaps an error code, and enters the handler. -/
def interrupt (handler : Nat) (error : Option Nat) (c : Cpu) : Cpu :=
  { c.withStack (Stack.pushAll ⟨c.mem,c.reg .rsp / 16 * 16⟩ ([c.ss,c.reg .rsp,c.rflags,c.cs,c.rip] ++ error.toList)) with
    rip := handler
    cs := selector
    rflags := c.rflags &&& not64 gateFlags }

/-- The registers that every stub pushes, in this order. -/
def saved : List Gpr := [.rax,.rbx,.rcx,.rdx,.rsi,.rdi,.rbp,.r8,.r9,.r10,.r11,.r12,.r13,.r14,.r15]

/-- `isr_timer` and `isr_spurious` up to the call of the handler, and after it. -/
def isr_timer_entry : List Instr := saved.map .push
def isr_timer_exit : List Instr := saved.reverse.map .pop ++ [.iretq]

/-- The vectors whose stub comes from the macro `isr_err`; the others below 32 come from `isr_no_err`. -/
def isr_err (vector : Nat) : Bool := vector ∈ [8,10,11,12,13,14,17,21,30]

/-- `isr0` to `isr31` -/
def isr (vector : Nat) : List Instr := if isr_err vector then [.pushImm vector] else [.pushImm 0,.pushImm vector]

/-- `isr_common` up to the call of `exception_handler`, and after it. -/
def isr_common_entry : List Instr := saved.map .push ++ [.load .rdi (15 * 8),.load .rsi (16 * 8)]
def isr_common_exit : List Instr := saved.reverse.map .pop ++ [.addRsp 16,.iretq]

/-! ### Pushes and pops -/

section
variable {c d : Cpu} {rs : List Gpr}

theorem run_append (first second : List Instr) : run (first ++ second) c = run second (run first c) := List.foldl_append

theorem run_cons (i : Instr) (code : List Instr) : run (i :: code) c = run code (i.exec c) := by
  rw [run,List.foldl_cons,run]

@[simp] theorem set_same (r : Gpr) (v : Nat) : (c.set r v).reg r = v := if_pos rfl
theorem set_other {r q : Gpr} (other : q ≠ r) (v : Nat) : (c.set r v).reg q = c.reg q := if_neg other
@[simp] theorem withStack_stack (s : Stack) : (c.withStack s).stack = s := by
  simp [Cpu.withStack,Cpu.stack,Cpu.set]
@[simp] theorem withStack_rsp (s : Stack) : (c.withStack s).reg .rsp = s.sp := by
  simp [Cpu.withStack,Cpu.set]
theorem withStack_other {r : Gpr} (other : r ≠ .rsp) (s : Stack) : (c.withStack s).reg r = c.reg r := set_other other _
@[simp] theorem withStack_mem (s : Stack) : (c.withStack s).mem = s.mem := rfl
@[simp] theorem withStack_again (s s' : Stack) : (c.withStack s).withStack s' = c.withStack s' := by
  simp only [Cpu.withStack,Cpu.set,Cpu.mk.injEq,and_true]
  funext q
  split <;> rfl

/-- Registers are pushed as words. -/
theorem run_pushes (plain : .rsp ∉ rs) (s : Stack) :
    run (rs.map .push) (c.withStack s) = c.withStack (s.pushAll (rs.map c.reg)) := by
  induction rs generalizing s with
  | nil => rfl
  | cons r rs ih =>
    rw [List.mem_cons,not_or] at plain
    have first : Instr.exec (c.withStack s) (.push r) = c.withStack (s.push (c.reg r)) := by
      rw [Instr.exec,withStack_stack,withStack_other (Ne.symm plain.1),withStack_again]
    rw [List.map_cons,run_cons,first,ih plain.2,List.map_cons,pushAll_push]

/-- Words that are popped into the registers they came from. -/
theorem run_pops (plain : .rsp ∉ rs) (words : Holds d.mem (d.reg .rsp) (rs.map c.reg))
    (room : d.reg .rsp + 8 * rs.length < limit64) :
    ∃ reg, run (rs.map .pop) d = { d with reg := reg } ∧ reg .rsp = d.reg .rsp + 8 * rs.length ∧
      (∀ r ∈ rs, reg r = c.reg r) ∧ ∀ r, r ∉ rs → r ≠ .rsp → reg r = d.reg r := by
  induction rs generalizing d with
  | nil => exact ⟨d.reg,rfl,rfl,by simp,fun _ _ _ => rfl⟩
  | cons q rs ih =>
    rw [List.mem_cons,not_or] at plain
    rw [List.length_cons] at room
    have pointer : (Instr.exec d (.pop q)).reg .rsp = d.reg .rsp + 8 := by
      rw [Instr.exec,set_other plain.1,set_same,add64_eq (by omega)]
    have popped : (Instr.exec d (.pop q)).reg q = c.reg q := by
      rw [Instr.exec,set_same]
      exact words 0 (c.reg q) rfl
    have others (r : Gpr) (notTarget : r ≠ q) (notPointer : r ≠ .rsp) : (Instr.exec d (.pop q)).reg r = d.reg r := by
      rw [Instr.exec,set_other notTarget,set_other notPointer]
    have rest : Holds (Instr.exec d (.pop q)).mem ((Instr.exec d (.pop q)).reg .rsp) (rs.map c.reg) := by
      rw [pointer]
      exact (@holds_append _ _ [c.reg q] _).mp words |>.2
    obtain ⟨reg,runs,sp,values,kept⟩ := ih plain.2 rest (by omega)
    refine ⟨reg,runs,by rw [sp,pointer,List.length_cons]; omega,fun r member => ?_,fun r absent notPointer => ?_⟩
    · by_cases later : r ∈ rs
      · exact values r later
      · obtain rfl : r = q := (List.mem_cons.mp member).resolve_right later
        exact (kept r later (fun same => plain.1 same.symm)).trans popped
    · rw [List.mem_cons,not_or] at absent
      exact (kept r absent.2 notPointer).trans (others r absent.1 notPointer)

theorem saved_plain : .rsp ∉ saved := by
  simp [saved]

theorem mem_saved {r : Gpr} (other : r ≠ .rsp) : r ∈ saved := by
  cases r <;> simp [saved] at other ⊢

end

/-! ### The frame -/

/-- Registers of their widths, and room on the stack for what a stub pushes. -/
structure Interruptible (c : Cpu) : Prop where
  reg : ∀ r, c.reg r < limit64
  rip : c.rip < limit64
  rflags : c.rflags < limit64
  cs : c.cs < 2 ^ 16
  ss : c.ss < 2 ^ 16
  room : 256 ≤ c.reg .rsp

/-- The interrupted context as the processor saves it, lowest word first. -/
def frame (c : Cpu) : List Nat := [c.rip,c.cs,c.rflags,c.reg .rsp,c.ss]

/-- The aligned top of what is pushed. -/
def top (c : Cpu) : Nat := c.reg .rsp / 16 * 16

/-- The stack with further words below the frame: an error code, what a stub pushes, the registers. -/
def saves (c : Cpu) (extra : List Nat) : Stack := Stack.pushAll ⟨c.mem,top c⟩ ((frame c).reverse ++ extra ++ saved.map c.reg)

section
variable {c d : Cpu} {extra : List Nat} {handler : Nat}

theorem top_le : top c ≤ c.reg .rsp ∧ c.reg .rsp < top c + 16 := by
  unfold top
  omega

/-- What a stub leaves of the stack, for at most three further words. -/
theorem saves_spec (ready : Interruptible c) (few : extra.length ≤ 3) (words : ∀ v ∈ extra, v < limit64) :
    (saves c extra).sp = top c - 8 * (20 + extra.length) ∧
      Holds (saves c extra).mem (top c - 8 * (20 + extra.length)) (saved.reverse.map c.reg ++ extra.reverse ++ frame c) ∧
      ∀ x, x < top c - 8 * (20 + extra.length) ∨ top c ≤ x → (saves c extra).mem x = c.mem x := by
  have room := ready.room
  have small := ready.reg .rsp
  have near := @top_le c
  have count : ((frame c).reverse ++ extra ++ saved.map c.reg).length = 20 + extra.length := by
    simp [frame,saved]
    omega
  have fits : ∀ v ∈ (frame c).reverse ++ extra ++ saved.map c.reg, v < limit64 := by
    intro v member
    have selectors : (2 : Nat) ^ 16 < limit64 := by decide
    simp only [List.mem_append,List.mem_reverse,frame,List.mem_cons,List.not_mem_nil,or_false,List.mem_map] at member
    rcases member with ((rfl | rfl | rfl | rfl | rfl) | inside) | ⟨r,_,rfl⟩
    · exact ready.rip
    · exact Nat.lt_trans ready.cs selectors
    · exact ready.rflags
    · exact ready.reg .rsp
    · exact Nat.lt_trans ready.ss selectors
    · exact words v inside
    · exact ready.reg r
  have below : 8 * ((frame c).reverse ++ extra ++ saved.map c.reg).length ≤ (Stack.mk c.mem (top c)).sp := by
    rw [count]
    show _ ≤ top c
    omega
  have above : (Stack.mk c.mem (top c)).sp < limit64 := by
    show top c < _
    omega
  have held := pushAll_holds below above fits
  rw [count,List.reverse_append,List.reverse_append,List.reverse_reverse,← List.map_reverse,← List.append_assoc] at held
  have pointer := pushAll_sp below above
  rw [count] at pointer
  refine ⟨pointer,held,fun x outside => ?_⟩
  exact pushAll_outside below above (by rw [count]; exact outside)

/-- `iretq` takes up a frame. -/
theorem iretq_exec (ready : Interruptible c) (words : Holds d.mem (d.reg .rsp) (frame c)) (room : d.reg .rsp + 40 ≤ limit64)
    (registers : ∀ r, r ≠ .rsp → d.reg r = c.reg r) : Instr.exec d .iretq = { c with mem := d.mem } := by
  have word (i v : Nat) (inside : i < 5) (found : (frame c)[i]? = some v) :
      ByteMemory.load d.mem (add64 (d.reg .rsp) (8 * i)) 8 = v := by
    rw [add64_eq (by omega)]
    exact words i v found
  have pointer : ByteMemory.load d.mem (add64 (d.reg .rsp) 24) 8 = c.reg .rsp := word 3 _ (by decide) rfl
  have reg : (d.set .rsp (c.reg .rsp)).reg = c.reg := by
    funext r
    by_cases same : r = .rsp
    · rw [same,set_same]
    · rw [set_other same,registers r same]
  have rip : ByteMemory.load d.mem (d.reg .rsp) 8 = c.rip := words 0 _ rfl
  have cs : ByteMemory.load d.mem (add64 (d.reg .rsp) 8) 8 = c.cs := word 1 _ (by decide) rfl
  have rflags : ByteMemory.load d.mem (add64 (d.reg .rsp) 16) 8 = c.rflags := word 2 _ (by decide) rfl
  have ss : ByteMemory.load d.mem (add64 (d.reg .rsp) 32) 8 = c.ss := word 4 _ (by decide) rfl
  simp only [Instr.exec,pointer,reg,rip,cs,rflags,ss,Nat.mod_eq_of_lt ready.cs,Nat.mod_eq_of_lt ready.ss]
  rfl

/-- The way out of a stub, past some words between the registers and the frame. -/
theorem exit_exec (ready : Interruptible c) (skipped : List Instr)
    (skips : ∀ d : Cpu, d.reg .rsp + 8 * extra.length < limit64 → run skipped d = d.set .rsp (d.reg .rsp + 8 * extra.length))
    (words : Holds d.mem (d.reg .rsp) (saved.reverse.map c.reg ++ extra ++ frame c))
    (room : d.reg .rsp + 8 * (20 + extra.length) < limit64) :
    run (saved.reverse.map .pop ++ skipped ++ [.iretq]) d = { c with mem := d.mem } := by
  obtain ⟨upper,held⟩ := holds_append.mp words
  obtain ⟨registers,_⟩ := holds_append.mp upper
  have plain : .rsp ∉ saved.reverse := by
    simpa using saved_plain
  have count : saved.reverse.length = 15 := rfl
  obtain ⟨reg,popped,sp,values,_⟩ := run_pops plain registers (by rw [count]; omega)
  rw [count] at sp
  rw [run_append,run_append,popped,skips _ (by show reg .rsp + _ < _; omega)]
  refine iretq_exec ready ?_ ?_ (fun r other => ?_)
  · rw [set_same]
    show Holds d.mem (reg .rsp + 8 * extra.length) (frame c)
    rw [sp,Nat.add_assoc,← Nat.mul_add]
    simpa [show saved.length = 15 from rfl] using held
  · rw [set_same]
    show reg .rsp + 8 * extra.length + 40 ≤ _
    omega
  · rw [set_other other]
    exact values r (List.mem_reverse.mpr (mem_saved other))

/-- What a gate changes besides the stack. -/
def gated (handler : Nat) (c : Cpu) : Cpu :=
  { c with rip := handler, cs := selector, rflags := c.rflags &&& not64 gateFlags }

theorem interrupt_eq (handler : Nat) (error : Option Nat) (c : Cpu) : interrupt handler error c =
    (gated handler c).withStack (Stack.pushAll ⟨c.mem,top c⟩ ((frame c).reverse ++ error.toList)) := rfl

/-- A stub after its pushes. -/
theorem stub_eq (handler : Nat) (error : Option Nat) (c : Cpu) (stub : List Nat) :
    run (stub.map .pushImm ++ saved.map .push) (interrupt handler error c) =
      (gated handler c).withStack (saves c (error.toList ++ stub)) := by
  have constants (e : Cpu) (s : Stack) : run (stub.map .pushImm) (e.withStack s) = e.withStack (s.pushAll stub) := by
    induction stub generalizing s with
    | nil => rfl
    | cons v stub ih =>
      rw [List.map_cons,run_cons,Instr.exec,withStack_stack,withStack_again,ih,pushAll_push]
  rw [run_append,interrupt_eq,constants,run_pushes saved_plain,← pushAll_append,← pushAll_append]
  simp only [saves,List.append_assoc]
  rfl

/-! ### Handlers that return -/

/-- A handler that was called in `e` has returned to its caller: the stack pointer is back, and nothing
    was written from there up to a limit. Every register and flag may have changed. -/
structure Returned (e : Cpu) (high : Nat) (d : Cpu) : Prop where
  rsp : d.reg .rsp = e.reg .rsp
  stack : ∀ x, e.reg .rsp ≤ x → x < high → d.mem x = e.mem x

/-- The processor when `isr_timer` calls `timer_handler`. -/
def timerEntered (isr_timer : Nat) (c : Cpu) : Cpu := run isr_timer_entry (interrupt isr_timer none c)

theorem timerEntered_eq (isr_timer : Nat) : timerEntered isr_timer c =
    (gated isr_timer c).withStack (saves c []) :=
  stub_eq isr_timer none c []

theorem interrupts_masked (rflags : Nat) : (rflags &&& not64 gateFlags).testBit 9 = false := by
  rw [Nat.testBit_and,show (not64 gateFlags).testBit 9 = false by decide,Bool.and_false]

/-- After a handler that returns, a stub that skips its own words gives the context back. -/
theorem stub_returns {e : Cpu} (ready : Interruptible c) (few : extra.length ≤ 3) (words : ∀ v ∈ extra, v < limit64)
    (skipped : List Instr)
    (skips : ∀ d : Cpu, d.reg .rsp + 8 * extra.length < limit64 → run skipped d = d.set .rsp (d.reg .rsp + 8 * extra.length))
    (pointer : e.reg .rsp = (saves c extra).sp) (memory : e.mem = (saves c extra).mem) (returned : Returned e (top c) d) :
    run (saved.reverse.map .pop ++ skipped ++ [.iretq]) d = { c with mem := d.mem } := by
  obtain ⟨sp,held,_⟩ := saves_spec ready few words
  have near := @top_le c
  have room := ready.room
  have small := ready.reg .rsp
  rw [sp] at pointer
  have reversed : extra.reverse.length = extra.length := List.length_reverse
  have length : (saved.reverse.map c.reg ++ extra.reverse ++ frame c).length = 20 + extra.length := by
    simp [frame,saved]
    omega
  refine @exit_exec c d extra.reverse ready skipped (by rwa [reversed]) ?_ (by rw [reversed,returned.rsp,pointer]; omega)
  rw [returned.rsp,pointer]
  refine held.congr (fun x low high => ?_)
  rw [length] at high
  rw [returned.stack x (by omega) (by omega),memory]

theorem set_self (e : Cpu) : e.set .rsp (e.reg .rsp) = e := by
  have same : (e.set .rsp (e.reg .rsp)).reg = e.reg := by
    funext r
    by_cases here : r = .rsp
    · rw [here,set_same]
    · rw [set_other here]
  exact congrArg (fun reg => { e with reg := reg }) same

theorem timerEntered_spec (ready : Interruptible c) (isr_timer : Nat) :
    (timerEntered isr_timer c).reg .rsp = top c - 160 ∧
      ∀ x, x < top c - 160 ∨ top c ≤ x → (timerEntered isr_timer c).mem x = c.mem x := by
  obtain ⟨sp,_,outside⟩ := @saves_spec c [] ready (by simp) (by simp)
  rw [timerEntered_eq,withStack_rsp,withStack_mem]
  exact ⟨sp,outside⟩

theorem timer_returns (ready : Interruptible c) {isr_timer : Nat} (returned : Returned (timerEntered isr_timer c) (top c) d) :
    run isr_timer_exit d = { c with mem := d.mem } :=
  @stub_returns c d [] _ ready (by simp) (by simp) [] (fun e _ => (set_self e).symm)
    (by rw [timerEntered_eq,withStack_rsp]) (by rw [timerEntered_eq,withStack_mem]) returned

/-- The timer interrupt is invisible to the code that it interrupts: with interrupts masked the handler runs below its
    stack, and when the handler returns every register, the flags and the stack are as they were. -/
theorem timer_transparent (ready : Interruptible c) (isr_timer : Nat) (returned : Returned (timerEntered isr_timer c) (top c) d) :
    (timerEntered isr_timer c).rflags.testBit 9 = false ∧
      (∀ x, x < c.reg .rsp - 176 ∨ c.reg .rsp ≤ x → (timerEntered isr_timer c).mem x = c.mem x) ∧
      run isr_timer_exit d = { c with mem := d.mem } := by
  refine ⟨?_,fun x away => ?_,timer_returns ready returned⟩
  · rw [timerEntered_eq]
    exact interrupts_masked c.rflags
  · have near := @top_le c
    exact (timerEntered_spec ready isr_timer).2 x (by omega)

/-- A context at address 1. -/
def sampleContext : Cpu := ⟨fun _ => 4096,1,2,8,16,fun _ => 0⟩

theorem sample_interruptible : Interruptible sampleContext :=
  ⟨fun _ => (by decide : 4096 < limit64),by decide,by decide,by decide,by decide,by decide⟩

/-- A handler that returns at once. -/
theorem timer_transparent_sample : run isr_timer_exit (timerEntered 0x101000 sampleContext) =
    { sampleContext with mem := (timerEntered 0x101000 sampleContext).mem } :=
  (timer_transparent sample_interruptible 0x101000 ⟨rfl,fun _ _ _ => rfl⟩).2.2

end

/-! ### Exceptions -/

/-- What the stub of a vector pushes besides the registers. -/
def stubWords (vector : Nat) : List Nat := if isr_err vector then [vector] else [0,vector]

theorem isr_eq (vector : Nat) : isr vector = (stubWords vector).map .pushImm := by
  unfold isr stubWords
  split <;> rfl

/-- The processor when `isr_common` calls `exception_handler`. -/
def exceptionEntered (address vector : Nat) (error : Option Nat) (c : Cpu) : Cpu :=
  run (isr vector ++ isr_common_entry) (interrupt address error c)

/-- For every interrupted context `exception_handler(vector, error_code)` gets the vector and the error code that the
    processor pushed, or 0, and if it returns the context is as it was. -/
def Transparent (address vector : Nat) (error : Option Nat) : Prop :=
  ∀ c, Interruptible c →
    (exceptionEntered address vector error c).reg .rdi = vector ∧
    (exceptionEntered address vector error c).reg .rsi = error.getD 0 ∧
    ∀ d, Returned (exceptionEntered address vector error c) (top c) d → run isr_common_exit d = { c with mem := d.mem }

section
variable {address vector : Nat} {error : Option Nat} {c d : Cpu}

theorem stub_words (fits : ∀ x ∈ error, x < limit64) (small : vector < 32) :
    (error.toList ++ stubWords vector).length ≤ 3 ∧ ∀ v ∈ error.toList ++ stubWords vector, v < limit64 := by
  have stub : (stubWords vector).length ≤ 2 ∧ ∀ v ∈ stubWords vector, v < limit64 := by
    have bound : vector < limit64 := Nat.lt_trans small (by decide)
    unfold stubWords
    split <;> simpa [limit64] using bound
  cases error with
  | none => exact ⟨Nat.le_succ_of_le stub.1,stub.2⟩
  | some x =>
    refine ⟨Nat.succ_le_succ stub.1,fun v member => ?_⟩
    rcases List.mem_cons.mp member with rfl | inside
    · exact fits v rfl
    · exact stub.2 v inside

theorem loads_spec (e : Cpu) : (run [.load .rdi (15 * 8),.load .rsi (16 * 8)] e).reg .rsp = e.reg .rsp ∧
    (run [.load .rdi (15 * 8),.load .rsi (16 * 8)] e).mem = e.mem ∧
    (run [.load .rdi (15 * 8),.load .rsi (16 * 8)] e).reg .rdi = ByteMemory.load e.mem (add64 (e.reg .rsp) (15 * 8)) 8 ∧
    (run [.load .rdi (15 * 8),.load .rsi (16 * 8)] e).reg .rsi = ByteMemory.load e.mem (add64 (e.reg .rsp) (16 * 8)) 8 := by
  refine ⟨?_,?_,?_,?_⟩ <;> simp [run,Instr.exec,Cpu.set]

/-- The handler's arguments are the two words above the saved registers. -/
theorem exceptionEntered_spec (ready : Interruptible c) (fits : ∀ x ∈ error, x < limit64) (small : vector < 32) :
    (exceptionEntered address vector error c).reg .rsp = (saves c (error.toList ++ stubWords vector)).sp ∧
    (exceptionEntered address vector error c).mem = (saves c (error.toList ++ stubWords vector)).mem ∧
    ∀ v w rest, (error.toList ++ stubWords vector).reverse ++ frame c = v :: w :: rest →
      (exceptionEntered address vector error c).reg .rdi = v ∧ (exceptionEntered address vector error c).reg .rsi = w := by
  obtain ⟨few,words⟩ := @stub_words vector error fits small
  obtain ⟨sp,held,_⟩ := saves_spec ready few words
  have near := @top_le c
  have room := ready.room
  have fit := ready.reg .rsp
  have entered : exceptionEntered address vector error c = run [.load .rdi (15 * 8),.load .rsi (16 * 8)]
      ((gated address c).withStack (saves c (error.toList ++ stubWords vector))) := by
    rw [exceptionEntered,isr_common_entry,isr_eq,← List.append_assoc,run_append,stub_eq]
  obtain ⟨pointer,memory,first,second⟩ := loads_spec ((gated address c).withStack
    (saves c (error.toList ++ stubWords vector)))
  rw [← entered] at pointer memory first second
  simp only [withStack_rsp,withStack_mem] at pointer memory first second
  refine ⟨pointer,memory,fun v w rest found => ?_⟩
  have above : Holds (saves c (error.toList ++ stubWords vector)).mem
      ((saves c (error.toList ++ stubWords vector)).sp + 8 * (saved.reverse.map c.reg).length) (v :: w :: rest) := by
    rw [← found,sp]
    rw [List.append_assoc] at held
    exact (holds_append.mp held).2
  have length : (saved.reverse.map c.reg).length = 15 := rfl
  rw [length] at above
  rw [first,second,add64_eq (by omega),add64_eq (by omega)]
  exact ⟨above 0 v rfl,above 1 w rfl⟩

theorem exit_split : isr_common_exit = saved.reverse.map .pop ++ [.addRsp 16] ++ [.iretq] := by
  rw [isr_common_exit,List.append_assoc]
  rfl

/-- `iretq` returns to the third word above the saved registers. -/
theorem exit_rip {words : List Nat} {v w x : Nat} (held : Holds d.mem (d.reg .rsp) (saved.reverse.map c.reg ++ v :: w :: x :: words))
    (room : d.reg .rsp + 136 < limit64) : (run isr_common_exit d).rip = x := by
  obtain ⟨registers,above⟩ := holds_append.mp held
  have plain : .rsp ∉ saved.reverse := by
    simpa using saved_plain
  have count : saved.reverse.length = 15 := rfl
  have count' : (saved.reverse.map c.reg).length = 15 := rfl
  obtain ⟨reg,popped,sp,_⟩ := run_pops plain registers (by rw [count]; omega)
  rw [count] at sp
  rw [count'] at above
  have skipped : (Instr.exec { d with reg := reg } (.addRsp 16)).reg .rsp = d.reg .rsp + 136 := by
    rw [Instr.exec,set_same]
    show add64 (reg .rsp) 16 = _
    rw [sp,add64_eq (by omega)]
  rw [exit_split,run_append,run_append,popped]
  show ByteMemory.load d.mem ((Instr.exec { d with reg := reg } (.addRsp 16)).reg .rsp) 8 = x
  rw [skipped]
  exact above 2 x rfl

theorem transparent_of_match (fits : ∀ x ∈ error, x < limit64) (small : vector < 32)
    (pushes : error.isSome = isr_err vector) : Transparent address vector error := by
  intro c ready
  obtain ⟨pointer,memory,arguments⟩ := @exceptionEntered_spec address vector error c ready fits small
  obtain ⟨few,words⟩ := @stub_words vector error fits small
  have order : (error.toList ++ stubWords vector).reverse = [vector,error.getD 0] := by
    cases error with
    | none => simp [stubWords,← pushes]
    | some x => simp [stubWords,← pushes]
  have count : (error.toList ++ stubWords vector).length = 2 := by
    rw [← List.length_reverse,order]
    rfl
  obtain ⟨first,second⟩ := arguments vector (error.getD 0) (frame c) (by rw [order]; rfl)
  refine ⟨first,second,fun d returned => ?_⟩
  rw [exit_split]
  refine stub_returns ready few words [.addRsp 16] (fun e room => ?_) pointer memory returned
  rw [count] at room ⊢
  show e.set .rsp (add64 (e.reg .rsp) 16) = _
  rw [add64_eq room]

/-- A stub of `isr_common` is right exactly for the vectors for which the processor pushes an error code where the stub
    expects one; else the handler gets the return address or a wrong error code, or the code returns to the error code. -/
theorem exception_transparent_iff (fits : ∀ x ∈ error, x < limit64) (small : vector < 32) :
    Transparent address vector error ↔ error.isSome = isr_err vector := by
  refine ⟨fun transparent => ?_,transparent_of_match fits small⟩
  obtain ⟨_,second,returns⟩ := transparent sampleContext sample_interruptible
  obtain ⟨pointer,memory,arguments⟩ := @exceptionEntered_spec address vector error _ sample_interruptible fits small
  obtain ⟨few,words⟩ := @stub_words vector error fits small
  cases error with
  | none =>
    cases expected : isr_err vector with
    | false => rfl
    | true =>
      -- the stub takes the return address for the error code
      have order : ((none : Option Nat).toList ++ stubWords vector).reverse = [vector] := by
        simp [stubWords,expected]
      have wrong := (arguments vector 1 [8,2,4096,16] (by rw [order]; rfl)).2
      rw [second] at wrong
      cases wrong
  | some x =>
    cases expected : isr_err vector with
    | true => rfl
    | false =>
      have order : ((some x).toList ++ stubWords vector).reverse = [vector,0,x] := by
        simp [stubWords,expected]
      have zero := (arguments vector 0 (x :: frame sampleContext) (by rw [order]; rfl)).2
      have none' : x = 0 := second.symm.trans zero
      have same := returns _ ⟨rfl,fun _ _ _ => rfl⟩
      obtain ⟨sp,held,_⟩ := saves_spec sample_interruptible few words
      rw [order,← memory,← sp,← pointer,List.append_assoc] at held
      have high : top sampleContext + 136 < limit64 := by decide
      have returned := exit_rip held (by omega)
      rw [same] at returned
      exact absurd (returned.trans none') Nat.one_ne_zero

/-- The error code of a page fault is where its stub expects it, and without one its return address would be taken for it. -/
theorem exception_transparent_page_fault : Transparent 0x101000 14 (some 2) ∧ ¬Transparent 0x101000 14 none := by
  have exactly {error : Option Nat} (fits : ∀ x ∈ error, x < limit64) :
      Transparent 0x101000 14 error ↔ error.isSome = isr_err 14 := exception_transparent_iff fits (by decide)
  exact ⟨(exactly (by simp [limit64])).mpr rfl,fun wrong => absurd ((exactly (by simp)).mp wrong) (by decide)⟩

end

/-! ### Preempted tasks -/

open X86 (Reg)
open RoundTrip

/-- The registers of the model of the context switch. -/
def gpr : Reg → Gpr
  | .rsp => .rsp
  | .rbp => .rbp
  | .rbx => .rbx
  | .rdi => .rdi
  | .rsi => .rsi
  | .r12 => .r12
  | .r13 => .r13
  | .r14 => .r14
  | .r15 => .r15

def Cpu.view (c : Cpu) : X86.Machine := ⟨fun r => c.reg (gpr r),c.rip,c.mem⟩

/-- Tasks and the kernel code that runs on their stacks. It may write to anything but the stacks and the
    saved stack pointers of other tasks. -/
def preemptive (L : Layout) : System Processor RoundTrip.Event where
  initial s := L.isTask s.current
  step s e t := match e with
    | .work after => (∀ u, L.isTask u → u ≠ s.current → ∀ x, L.Owns u x → after.mem x = s.machine.mem x) ∧ t = ⟨after,s.current⟩
    | .switch new ret => (processor L).step s (.switch new ret) t

section
variable {L : Layout} {s t u v : Processor} {a : Nat}

theorem away_preemptive_step {m : Memory} {e : RoundTrip.Event} (aTask : L.isTask a) (away : Away L a m u)
    (step : (preemptive L).step u e v) (notBack : ∀ ret, e ≠ .switch a ret) : Away L a m v := by
  cases e with
  | work after =>
    obtain ⟨kept,rfl⟩ := step
    refine ⟨away.other,away.isTask,fun x owned => ?_⟩
    exact (kept a aTask (Ne.symm away.other) x owned).trans (away.kept x owned)
  | switch new ret => exact away_step (e := .switch new ret) aTask away step notBack

/-- A task `a` is interrupted by the timer in `c` and its handler comes to a switch in `d`. Other tasks run, and are
    preempted in turn, until one switches back. The handler goes on and has returned in `d'`. -/
structure Preempted (L : Layout) (isr_timer a : Nat) (c d d' : Cpu) (ret : Nat) (v : Processor) : Prop where
  isTask : L.isTask a
  within : c.reg .rsp ≤ L.high a
  works : ∀ x, (timerEntered isr_timer c).reg .rsp ≤ x → x < L.high a → d.mem x = (timerEntered isr_timer c).mem x
  deeper : d.reg .rsp ≤ (timerEntered isr_timer c).reg .rsp
  others : ∃ new t u events ret', new ≠ a ∧ (processor L).step ⟨d.view,a⟩ (.switch new ret) t ∧
    (preemptive L).Run t events u ∧ (∀ e ∈ events, ∀ r, e ≠ .switch a r) ∧ (processor L).step u (.switch a ret') v
  returns : d'.reg .rsp = (timerEntered isr_timer c).reg .rsp
  keeps : ∀ x, (timerEntered isr_timer c).reg .rsp ≤ x → x < L.high a → d'.mem x = v.machine.mem x

/-- The handler of a preempted task gets back what the switch saves, and then the interrupted code goes on with all its
    registers, its flags and its stack. -/
theorem preempted_task_resumes (L : Layout) {isr_timer a ret : Nat} {c d d' : Cpu} {v : Processor}
    (ready : Interruptible c) (preempted : Preempted L isr_timer a c d d' ret v) :
    (v.machine.rip = ret ∧ v.machine.reg .rsp = d.reg .rsp ∧ ∀ r ∈ calleeSaved, v.machine.reg r = d.reg (gpr r)) ∧
      run isr_timer_exit d' = { c with mem := d'.mem } ∧
      ∀ x, c.reg .rsp ≤ x → x < L.high a → d'.mem x = c.mem x := by
  obtain ⟨aTask,high,works,deeper,⟨new,t,u,events,ret',other,away,meanwhile,notBack,back⟩,returned,kept⟩ := preempted
  have near := @top_le c
  have room := ready.room
  obtain ⟨sp,outside⟩ := timerEntered_spec ready isr_timer
  obtain ⟨saved,_,above⟩ := switch_step aTask away
  obtain ⟨newTask,_,calls,after⟩ := away
  have start : Away L a t.machine.mem t :=
    ⟨by rw [after]; exact other,by rw [after]; exact newTask,fun _ _ => rfl⟩
  have gone := meanwhile.keeps (fun _ _ _ notBack away step => away_preemptive_step aTask away step notBack) notBack start
  have stackRoom : L.low a + 56 ≤ d.reg .rsp := calls.room
  have stackHigh : d.reg .rsp ≤ L.high a := calls.within
  have saved' := saved.congr stackRoom stackHigh gone.kept
  obtain ⟨_,resumed⟩ := resume_step gone.isTask aTask gone.other saved' stackRoom stackHigh (calls.words .rsp) back
  have stack (x : Nat) (from' : (timerEntered isr_timer c).reg .rsp ≤ x) (below : x < L.high a) :
      d'.mem x = (timerEntered isr_timer c).mem x := by
    have owned : L.Owns a x := .inr ⟨by omega,below⟩
    have foreign := L.apart a u.current aTask gone.isTask (Ne.symm gone.other) x owned
    calc d'.mem x = v.machine.mem x := kept x from' below
      _ = u.machine.mem x := (switch_step gone.isTask back).2.1 x foreign
      _ = t.machine.mem x := gone.kept x owned
      _ = d.mem x := above x (Nat.le_trans deeper from') below
      _ = (timerEntered isr_timer c).mem x := works x from' below
  refine ⟨resumed,timer_returns ready ⟨returned,fun x from' below => stack x from' (by omega)⟩,fun x from' below => ?_⟩
  exact (stack x (by omega) below).trans (outside x (.inr (by omega)))

/-! Two tasks with stacks of 256 bytes behind their `rsp` fields. -/

theorem sampleTasks_fits (t : Nat) (isTask : t = 0x1000 ∨ t = 0x2000) : t + 264 ≤ limit64 := by
  simp only [limit64]
  omega

theorem sampleTasks_field (t : Nat) (_ : t = 0x1000 ∨ t = 0x2000) : t + 8 ≤ t + 8 ∨ t + 264 ≤ t := .inl (Nat.le_refl _)

theorem sampleTasks_apart (t u : Nat) (first : t = 0x1000 ∨ t = 0x2000) (second : u = 0x1000 ∨ u = 0x2000) (other : t ≠ u)
    (x : Nat) (owned : t ≤ x ∧ x < t + 8 ∨ t + 8 ≤ x ∧ x < t + 264) :
    ¬(u ≤ x ∧ x < u + 8 ∨ u + 8 ≤ x ∧ x < u + 264) := by
  omega

def sampleTasks : Layout where
  isTask t := t = 0x1000 ∨ t = 0x2000
  low t := t + 8
  high t := t + 264
  fits := sampleTasks_fits
  field := sampleTasks_field
  apart := sampleTasks_apart

def sampleCpu (rdi rsi sp : Nat) (m : Memory) : Cpu where
  reg
    | .rdi => rdi
    | .rsi => rsi
    | .rsp => sp
    | _ => 7
  rip := 0x102000
  rflags := 0x202
  cs := 8
  ss := 0
  mem := m

theorem sampleCpu_mem (rdi rsi sp : Nat) (m : Memory) : (sampleCpu rdi rsi sp m).mem = m := rfl

theorem sampleCpu_words {rdi rsi sp : Nat} (m : Memory) (first : rdi < 0x10000) (second : rsi < 0x10000) (third : sp < 0x20000)
    (r : Gpr) : (sampleCpu rdi rsi sp m).reg r < limit64 := by
  simp only [limit64]
  cases r <;> simp only [sampleCpu] <;> omega

theorem sampleCpu_calls {task new sp : Nat} (m : Memory) (first : task < 0x10000) (second : new < 0x10000)
    (low : task + 64 ≤ sp) (high : sp ≤ task + 264) : Calls sampleTasks ⟨(sampleCpu task new sp m).view,task⟩ new :=
  ⟨rfl,rfl,fun r => sampleCpu_words m first second (by omega) (gpr r),
    by show task + 8 + 56 ≤ sp; omega,high⟩

/-- The first task is interrupted, the second one computes and switches back. -/
theorem preempted_task_resumes_two : ∃ c d' : Cpu, run isr_timer_exit d' = { c with mem := d'.mem } ∧
    c.reg .rsp = 0x1100 ∧ c.rflags.testBit 9 = true := by
  set c := sampleCpu 0 0 0x1100 (fun _ => 0)
  have ready : Interruptible c :=
    ⟨sampleCpu_words _ (by decide) (by decide) (by decide),by decide,by decide,by decide,by decide,by decide⟩
  obtain ⟨sp,_⟩ := timerEntered_spec ready 0x101000
  set d := sampleCpu 0x1000 0x2000 0x1060 (timerEntered 0x101000 c).mem
  have memory : d.mem = (timerEntered 0x101000 c).mem := sampleCpu_mem ..
  set t : Processor := ⟨X86.run Tasks.scheduler_context_switch (X86.call 0x8000 d.view),0x2000⟩
  have away : (processor sampleTasks).step ⟨d.view,0x1000⟩ (.switch 0x2000 0x8000) t :=
    ⟨.inr rfl,by decide,sampleCpu_calls _ (by decide) (by decide) (by decide) (by decide),rfl⟩
  set u : Processor := ⟨(sampleCpu 0x2000 0x1000 0x2100 t.machine.mem).view,0x2000⟩
  set v : Processor := ⟨X86.run Tasks.scheduler_context_switch (X86.call 0x8010 u.machine),0x1000⟩
  have computes : (preemptive sampleTasks).Run t [.work u.machine] u :=
    .cons ⟨fun _ _ _ _ _ => rfl,rfl⟩ (.refl u)
  have back : (processor sampleTasks).step u (.switch 0x1000 0x8010) v :=
    ⟨.inl rfl,by decide,sampleCpu_calls _ (by decide) (by decide) (by decide) (by decide),rfl⟩
  set d' := sampleCpu 0 0 0x1060 v.machine.mem
  have preempted : Preempted sampleTasks 0x101000 0x1000 c d d' 0x8000 v :=
    ⟨.inl rfl,by decide,fun x _ _ => by rw [memory],by rw [sp]; decide,
      ⟨0x2000,t,u,_,0x8010,by decide,away,computes,by simp,back⟩,by rw [sp]; decide,fun _ _ _ => rfl⟩
  exact ⟨c,d',(preempted_task_resumes sampleTasks ready preempted).2.1,rfl,by decide⟩

end
end NekoOs.Isr
