import NekoOs.Tasks

/-!
Switching away from a task and back. Between the two the task's stack and its
saved stack pointer belong to nobody else, so the frame that the first switch
pushed is the frame that the last one pops.
-/
namespace NekoOs.RoundTrip
open ByteMemory Words X86 Tasks Transitions

/-- The registers that `scheduler_context_switch` saves, in the order of the pushes. -/
def calleeSaved : List Reg := [.rbp,.rbx,.r12,.r13,.r14,.r15]

/-- Tasks with their stacks. A task owns its stack and its `rsp` field, and no
    two tasks own the same byte. -/
structure Layout where
  isTask : Nat → Prop
  low : Nat → Nat
  high : Nat → Nat
  fits : ∀ t, isTask t → high t ≤ limit64
  field : ∀ t, isTask t → t + 8 ≤ low t ∨ high t ≤ t
  apart : ∀ t u, isTask t → isTask u → t ≠ u → ∀ x,
    (t ≤ x ∧ x < t + 8 ∨ low t ≤ x ∧ x < high t) → ¬(u ≤ x ∧ x < u + 8 ∨ low u ≤ x ∧ x < high u)

def Layout.InStack (L : Layout) (t x : Nat) : Prop := L.low t ≤ x ∧ x < L.high t
def Layout.Owns (L : Layout) (t x : Nat) : Prop := t ≤ x ∧ x < t + 8 ∨ L.low t ≤ x ∧ x < L.high t

/-- One processor and the task that runs on it. -/
structure Processor where
  machine : Machine
  current : Nat

inductive Event
  /-- the current task computes, up to the given machine state -/
  | work (after : Machine)
  /-- it calls `scheduler_context_switch(current, new)`, and `ret` follows the call -/
  | switch (new ret : Nat)

/-- The current task at the call: its arguments, 64-bit registers, and room on its
    stack for the return address and the saved registers. -/
structure Calls (L : Layout) (s : Processor) (new : Nat) : Prop where
  old : s.machine.reg .rdi = s.current
  new : s.machine.reg .rsi = new
  words : ∀ r, s.machine.reg r < limit64
  room : L.low s.current + 56 ≤ s.machine.reg .rsp
  within : s.machine.reg .rsp ≤ L.high s.current

/-- Any interleaving of tasks that change registers and their own stacks, and switch. -/
def processor (L : Layout) : System Processor Event where
  initial s := L.isTask s.current
  step s e t := match e with
    | .work after => (∀ x, ¬L.InStack s.current x → after.mem x = s.machine.mem x) ∧ t = ⟨after,s.current⟩
    | .switch new ret => L.isTask new ∧ ret < limit64 ∧ Calls L s new ∧
        t = ⟨run scheduler_context_switch (call ret s.machine),new⟩

/-- The task of `s` goes on in `v` right after its call, with its stack as it was. -/
structure Resumes (L : Layout) (s : Processor) (ret : Nat) (v : Processor) : Prop where
  current : v.current = s.current
  rip : v.machine.rip = ret
  rsp : v.machine.reg .rsp = s.machine.reg .rsp
  registers : ∀ r ∈ calleeSaved, v.machine.reg r = s.machine.reg r
  stack : ∀ x, s.machine.reg .rsp ≤ x → x < L.high s.current → v.machine.mem x = s.machine.mem x

/-! ### The two halves of the switch -/

/-- The frame that a switch leaves below the stack pointer `sp` of its caller. -/
structure Saved (c : Machine) (task sp ret : Nat) (m : Memory) : Prop where
  pointer : load m task 8 = sp - 56
  registers : ∀ i r, calleeSaved[i]? = some r → load m (sp - 16 - 8 * i) 8 = c.reg r
  returns : load m (sp - 8) 8 = ret

section
variable {c : Machine} {ret : Nat}

theorem switch_split : scheduler_context_switch =
    calleeSaved.map .push ++ [.store .rdi .rsp] ++ ([.load .rsp .rsi] ++ calleeSaved.reverse.map .pop ++ [.ret]) := rfl

/-- The first half saves the caller's frame, writes nothing else and keeps `rsi`. -/
theorem switch_out {task sp : Nat} (field : c.reg .rdi = task) (pointer : c.reg .rsp = sp) (room : 56 ≤ sp)
    (words : ∀ r, c.reg r < limit64) (retFits : ret < limit64) (apart : task + 8 ≤ sp - 56 ∨ sp ≤ task) :
    let d := run (calleeSaved.map .push ++ [.store .rdi .rsp]) (call ret c)
    d.reg .rsi = c.reg .rsi ∧ Saved c task sp ret d.mem ∧
      ∀ x, x < sp - 56 ∨ sp ≤ x → x < task ∨ task + 8 ≤ x → d.mem x = c.mem x := by
  intro d
  have fits : sp < limit64 := pointer ▸ words .rsp
  have called : (call ret c).reg .rsp = sp - 8 := by
    rw [call_rsp,pointer,sub64_eq (by omega) fits]
  have kept (r : Reg) (other : r ≠ .rsp) : (call ret c).reg r = c.reg r := call_other ret other
  have memory : (call ret c).mem = store c.mem (sp - 8) 8 ret := by
    rw [call_mem,pointer,sub64_eq (by omega) fits]
  have plain : ∀ r ∈ calleeSaved, r ≠ .rsp ∧ (call ret c).reg r < limit64 := by
    intro r member
    have other : r ≠ .rsp := by
      rintro rfl
      simp [calleeSaved] at member
    exact ⟨other,by rw [kept r other]; exact words r⟩
  have length : 8 * calleeSaved.length = 48 := rfl
  obtain ⟨stackPointer,frame⟩ := run_pushes_words (c := call ret c) calleeSaved (by omega) (by omega) plain
  have outside (x : Nat) (away : x < sp - 56 ∨ sp - 8 ≤ x) :
      (run (calleeSaved.map .push) (call ret c)).mem x = (call ret c).mem x := by
    refine run_pushes_outside calleeSaved (by omega) (fun i inside => ?_)
    have small : i < 6 := inside
    rw [called,slot_eq (by omega) (by omega)]
    omega
  have registers (r : Reg) (other : r ≠ .rsp) : (run (calleeSaved.map .push) (call ret c)).reg r = c.reg r :=
    (run_pushes_reg _ other).trans (kept r other)
  have final : d.mem = store (run (calleeSaved.map .push) (call ret c)).mem task 8 (sp - 56) := by
    rw [← field,← registers .rdi (by decide),show sp - 56 = (run (calleeSaved.map .push) (call ret c)).reg .rsp by
      rw [stackPointer,called]; omega]
    exact congrArg Machine.mem (run_append _ _)
  have target : d.reg .rsi = c.reg .rsi :=
    (congrArg (fun m : Machine => m.reg .rsi) (run_append _ _)).trans (registers .rsi (by decide))
  refine ⟨target,⟨?_,?_,?_⟩,?_⟩
  · rw [final]
    exact load_store_same (by simp only [limit64] at fits; omega)
  · intro i r found
    have small : i < 6 := (List.getElem?_eq_some_iff.mp found).1
    have member : r ∈ calleeSaved := List.mem_of_getElem? found
    have address : sp - 16 - 8 * i = sp - 8 - 8 * (i + 1) := by omega
    rw [final,load_store_disjoint (by omega),address,← called,frame i r found,kept r (plain r member).1]
  · have above : load (run (calleeSaved.map .push) (call ret c)).mem (sp - 8) 8 = load (call ret c).mem (sp - 8) 8 :=
      load_congr (fun x low _ => outside x (.inr low))
    rw [final,load_store_disjoint (by omega),above,memory]
    exact load_store_same (by simpa [limit64] using retFits)
  · intro x offStack offField
    rw [final,store_outside offField,outside x (by omega),memory,store_outside (by omega)]

/-- The second half writes nothing. -/
theorem switch_in_mem (d : Machine) :
    (run ([.load .rsp .rsi] ++ calleeSaved.reverse.map .pop ++ [.ret]) d).mem = d.mem := by
  rw [run_append,run_append]
  have returned (c : Machine) : (run [.ret] c).mem = c.mem := rfl
  have loaded : (run [.load .rsp .rsi] d).mem = d.mem := rfl
  rw [returned,run_pops_mem,loaded]

/-- The second half takes up a saved frame. -/
theorem switch_in {d : Machine} {task sp : Nat} (target : d.reg .rsi = task) (low : 56 ≤ sp) (fits : sp < limit64)
    (saved : Saved c task sp ret d.mem) :
    let e := run ([.load .rsp .rsi] ++ calleeSaved.reverse.map .pop ++ [.ret]) d
    e.rip = ret ∧ e.reg .rsp = sp ∧ ∀ r ∈ calleeSaved, e.reg r = c.reg r := by
  have loaded : (run [.load .rsp .rsi] d).reg .rsp = sp - 56 := by
    rw [← saved.pointer,← target]
    exact set_same _ _
  have memory : (run [.load .rsp .rsi] d).mem = d.mem := rfl
  rw [run_append,run_append]
  generalize run [.load .rsp .rsi] d = f at *
  have length : 8 * calleeSaved.reverse.length = 48 := rfl
  obtain ⟨mem,_,pointer,_,values⟩ := run_pops (c := f) calleeSaved.reverse (by decide) (by decide) (by omega)
  generalize run (calleeSaved.reverse.map .pop) f = g at *
  obtain ⟨rip,_,rsp,others⟩ := run_ret (c := g)
  rw [loaded,length] at pointer
  have top : g.reg .rsp = sp - 8 := by omega
  refine ⟨?_,?_,?_⟩
  · rw [rip,mem,memory,top]
    exact saved.returns
  · rw [rsp,top,add64_eq (by omega)]
    omega
  · intro r member
    have notPointer : r ≠ .rsp := by
      rintro rfl
      simp [calleeSaved] at member
    obtain ⟨i,small,found⟩ := List.mem_iff_getElem.mp member
    have position : calleeSaved[i]? = some r := List.getElem?_eq_some_iff.mpr ⟨small,found⟩
    have bound : i < 6 := small
    have mirrored : calleeSaved.reverse[5 - i]? = some r := by
      rw [List.getElem?_reverse (by simp [calleeSaved]; omega)]
      rwa [show calleeSaved.length - 1 - (5 - i) = i by simp only [calleeSaved,List.length_cons,List.length_nil]; omega]
    have address : sp - 56 + 8 * (5 - i) = sp - 16 - 8 * i := by omega
    rw [others r notPointer,values (5 - i) r mirrored,memory,loaded,address]
    exact saved.registers i r position

end

/-! ### Between the two switches -/

section
variable {L : Layout} {s t u v : Processor} {a ret : Nat}

theorem Saved.congr {c : Machine} {sp : Nat} {m m' : Memory} (saved : Saved c a sp ret m)
    (room : L.low a + 56 ≤ sp) (within : sp ≤ L.high a) (same : ∀ x, L.Owns a x → m' x = m x) :
    Saved c a sp ret m' := by
  have field : load m' a 8 = load m a 8 := load_congr (fun x low high => same x (.inl ⟨low,high⟩))
  have word (b : Nat) (low : sp - 56 ≤ b) (high : b + 8 ≤ sp) : load m' b 8 = load m b 8 :=
    load_congr (fun x _ _ => same x (.inr ⟨by omega,by omega⟩))
  obtain ⟨pointer,registers,returns⟩ := saved
  refine ⟨field.trans pointer,fun i r found => ?_,(word _ (by omega) (by omega)).trans returns⟩
  have small : i < 6 := (List.getElem?_eq_some_iff.mp found).1
  exact (word _ (by omega) (by omega)).trans (registers i r found)

/-- What a call of the switch leaves in memory. -/
theorem switch_step {new : Nat} (isTask : L.isTask s.current) (step : (processor L).step s (.switch new ret) t) :
    Saved s.machine s.current (s.machine.reg .rsp) ret t.machine.mem ∧
      (∀ x, ¬L.Owns s.current x → t.machine.mem x = s.machine.mem x) ∧
      ∀ x, s.machine.reg .rsp ≤ x → x < L.high s.current → t.machine.mem x = s.machine.mem x := by
  obtain ⟨_,retFits,calls,rfl⟩ := step
  have room := calls.room
  have within := calls.within
  have field := L.field s.current isTask
  obtain ⟨_,saved,outside⟩ := switch_out calls.old rfl (by omega) calls.words retFits (by omega)
  have memory : (run scheduler_context_switch (call ret s.machine)).mem =
      (run (calleeSaved.map .push ++ [.store .rdi .rsp]) (call ret s.machine)).mem := by
    rw [switch_split,run_append]
    exact switch_in_mem _
  simp only [memory]
  refine ⟨saved,fun x foreign => ?_,fun x low high => outside x (.inr low) (by omega)⟩
  simp only [Layout.Owns,not_or,not_and,not_lt] at foreign
  exact outside x (by omega) (by omega)

/-- A frame that is not written meanwhile is taken up by the switch to its task. -/
theorem resume_step {c : Machine} {sp ret' : Nat} (isTask : L.isTask u.current) (aTask : L.isTask a) (other : u.current ≠ a)
    (saved : Saved c a sp ret u.machine.mem) (room : L.low a + 56 ≤ sp) (within : sp ≤ L.high a) (fits : sp < limit64)
    (step : (processor L).step u (.switch a ret') v) :
    v.current = a ∧ v.machine.rip = ret ∧ v.machine.reg .rsp = sp ∧
      ∀ r ∈ calleeSaved, v.machine.reg r = c.reg r := by
  obtain ⟨_,retFits,calls,rfl⟩ := step
  have uRoom := calls.room
  have uWithin := calls.within
  have field := L.field u.current isTask
  obtain ⟨target,_,outside⟩ := switch_out calls.old rfl (by omega) calls.words retFits (by omega)
  have untouched : ∀ x, L.Owns a x →
      (run (calleeSaved.map .push ++ [.store .rdi .rsp]) (call ret' u.machine)).mem x = u.machine.mem x := by
    intro x owned
    have foreign := L.apart a u.current aTask isTask (Ne.symm other) x owned
    simp only [not_or,not_and,not_lt] at foreign
    exact outside x (by omega) (by omega)
  have resumed := switch_in (target.trans calls.new) (by omega) fits (saved.congr room within untouched)
  rw [switch_split,run_append]
  exact ⟨rfl,resumed⟩

/-- Task `a` does not run, and what it owns is as in `m`. -/
structure Away (L : Layout) (a : Nat) (m : Memory) (u : Processor) : Prop where
  other : u.current ≠ a
  isTask : L.isTask u.current
  kept : ∀ x, L.Owns a x → u.machine.mem x = m x

theorem away_step {m : Memory} {e : Event} (aTask : L.isTask a) (away : Away L a m u) (step : (processor L).step u e v)
    (notBack : ∀ ret, e ≠ .switch a ret) : Away L a m v := by
  have foreign (x : Nat) (owned : L.Owns a x) : ¬L.Owns u.current x :=
    L.apart a u.current aTask away.isTask (Ne.symm away.other) x owned
  cases e with
  | work after =>
    obtain ⟨only,rfl⟩ := step
    refine ⟨away.other,away.isTask,fun x owned => ?_⟩
    exact (only x (fun inside => foreign x owned (.inr inside))).trans (away.kept x owned)
  | switch new ret =>
    have written := (switch_step away.isTask step).2.1
    obtain ⟨newTask,_,_,rfl⟩ := step
    refine ⟨fun same => notBack ret (by rw [← same]),newTask,fun x owned => ?_⟩
    exact (written x (foreign x owned)).trans (away.kept x owned)

theorem current_isTask (reached : (processor L).Reachable s) : L.isTask s.current := by
  refine reached.invariant (P := fun s => L.isTask s.current) (fun _ first => first) ?_
  rintro s (after | ⟨new,ret⟩) t isTask step
  · obtain ⟨_,rfl⟩ := step
    exact isTask
  · obtain ⟨newTask,_,_,rfl⟩ := step
    exact newTask

/-- A switch to the running task itself returns at once. -/
theorem switch_same (isTask : L.isTask s.current) (step : (processor L).step s (.switch s.current ret) t) :
    Resumes L s ret t := by
  have above := (switch_step isTask step).2.2
  obtain ⟨_,retFits,calls,rfl⟩ := step
  have room := calls.room
  have within := calls.within
  have field := L.field s.current isTask
  obtain ⟨target,saved,_⟩ := switch_out calls.old rfl (by omega) calls.words retFits (by omega)
  obtain ⟨rip,rsp,registers⟩ := switch_in (target.trans calls.new) (by omega) (calls.words .rsp) saved
  rw [← run_append,← switch_split] at rip rsp registers
  exact ⟨rfl,rip,rsp,registers,above⟩

/-- Whatever runs between the call of a task and the next switch back to it, the task
    goes on right after its call with its stack pointer, its callee-saved registers
    and its stack. -/
theorem context_round_trip (L : Layout) :
    ∀ s, (processor L).Reachable s → ∀ new ret t, (processor L).step s (.switch new ret) t →
      (new = s.current → Resumes L s ret t) ∧
      (new ≠ s.current → ∀ events u, (processor L).Run t events u → (∀ e ∈ events, ∀ ret', e ≠ .switch s.current ret') →
        ∀ ret' v, (processor L).step u (.switch s.current ret') v → u.current ≠ s.current ∧ Resumes L s ret v) := by
  intro s reached new ret t away
  have isTask := current_isTask reached
  refine ⟨fun same => switch_same isTask (same ▸ away),fun other events u run notBack ret' v back => ?_⟩
  obtain ⟨saved,_,above⟩ := switch_step isTask away
  obtain ⟨newTask,_,calls,after⟩ := away
  have start : Away L s.current t.machine.mem t :=
    ⟨by rw [after]; exact other,by rw [after]; exact newTask,fun _ _ => rfl⟩
  have meanwhile := run.keeps (fun _ _ _ notBack away step => away_step isTask away step notBack) notBack start
  have frame := saved.congr calls.room calls.within meanwhile.kept
  obtain ⟨current,rip,rsp,registers⟩ := resume_step meanwhile.isTask isTask meanwhile.other frame calls.room
    calls.within (calls.words .rsp) back
  refine ⟨meanwhile.other,current,rip,rsp,registers,fun x low high => ?_⟩
  have owned : L.Owns s.current x := .inr ⟨by have := calls.room; omega,high⟩
  have foreign := L.apart s.current u.current isTask meanwhile.isTask (Ne.symm meanwhile.other) x owned
  exact ((switch_step meanwhile.isTask back).2.1 x foreign).trans ((meanwhile.kept x owned).trans (above x low high))

/-! Two tasks with stacks of 256 bytes behind their `rsp` fields. -/

private def twoTasks : Layout where
  isTask t := t = 0x1000 ∨ t = 0x2000
  low t := t + 8
  high t := t + 264
  fits := by
    rintro t (rfl | rfl) <;> decide
  field := fun t _ => .inl (Nat.le_refl _)
  apart := by
    rintro t u (rfl | rfl) (rfl | rfl) other x owned <;> omega

private def callsFrom (task new sp : Nat) (m : Memory) : Processor :=
  ⟨⟨fun r => match r with | .rdi => task | .rsi => new | .rsp => sp | _ => 7,0,m⟩,task⟩

private theorem callsFrom_calls {task new sp : Nat} {m : Memory} (taskFits : task < 0x10000) (newFits : new < 0x10000)
    (low : task + 64 ≤ sp) (high : sp ≤ task + 264) : Calls twoTasks (callsFrom task new sp m) new := by
  refine ⟨rfl,rfl,fun r => ?_,by simp only [twoTasks,callsFrom]; omega,high⟩
  simp only [limit64]
  cases r <;> simp only [callsFrom] <;> omega

/-- The first task switches to the second, which computes and switches back. -/
theorem context_round_trip_two : ∃ s v, (processor twoTasks).Reachable s ∧ Resumes twoTasks s 0x8000 v := by
  set s := callsFrom 0x1000 0x2000 0x1100 (fun _ => 0) with sIs
  have reached : (processor twoTasks).Reachable s := System.reachable_initial (.inl rfl)
  have away : (processor twoTasks).step s (.switch 0x2000 0x8000) ⟨run scheduler_context_switch (call 0x8000 s.machine),0x2000⟩ :=
    ⟨.inr rfl,by decide,callsFrom_calls (by decide) (by decide) (by decide) (by decide),rfl⟩
  set t : Processor := ⟨run scheduler_context_switch (call 0x8000 s.machine),0x2000⟩
  set u := callsFrom 0x2000 0x1000 0x2100 t.machine.mem
  have computes : (processor twoTasks).step t (.work u.machine) u := ⟨fun _ _ => rfl,rfl⟩
  have back : (processor twoTasks).step u (.switch 0x1000 0x8010) ⟨run scheduler_context_switch (call 0x8010 u.machine),0x1000⟩ :=
    ⟨.inl rfl,by decide,callsFrom_calls (by decide) (by decide) (by decide) (by decide),rfl⟩
  have different : (0x2000 : Nat) ≠ s.current := by decide
  exact ⟨s,_,reached,((context_round_trip twoTasks s reached _ _ t away).2 different _ u (.cons computes (.refl u))
    (by simp) _ _ back).2⟩

end
end NekoOs.RoundTrip
