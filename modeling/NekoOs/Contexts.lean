import NekoOs.Preemption

/-!
Which stack a saved stack pointer points into. Between the store of
`cpu->current` and the load of the next stack pointer the processor is on the
stack of one task while `cpu->current` names another. A tick that yields there
saves the stack pointer into the wrong task; otherwise every context is saved
into the task whose stack it is on.
-/
namespace NekoOs.Contexts
open RunQueue Transitions Preemption
open Scheduler (Locals Stack isRunning)
universe v

section
variable {Task : Type v} [DecidableEq Task] (c : Locals Unit Task)

/-- The stack belongs to the task. The boot stack belongs to the idle task. -/
def Belongs (t : Task) (stack : Stack Unit Task) : Prop := stack = .own t ∨ t = c.idle () ∧ stack = .boot ()

/-- Every switch saves into the task whose stack is in use, and the stack
    pointer of every task points into its own stack. -/
structure Filed (s : State Task) : Prop where
  saves : ∀ old new rest, s.running.ops = .save old new :: rest → Belongs c old s.running.stack
  saved : ∀ t, Belongs c t (s.rsp t).stack

/-- Between the store of `cpu->current` and the load of the stack pointer. -/
def Switching (s : State Task) : Bool :=
  match s.running.ops with
  | .save _ _ :: _ | .load _ :: _ => true
  | _ => false

/-- No tick arrives between the store of `cpu->current` and the load of the
    stack pointer, unless its `scheduler_yield` returns at once. -/
def Timely (s : State Task) (a : Action Task) : Prop := a = .tick → Switching s = true → Quiet s

/-- `cpu->current`, or what a yield read from it, fits the stack: the boot stack
    is in use before there is a current task. -/
def Mine (current : Option Task) (stack : Stack Unit Task) : Prop :=
  match current with
  | none => stack = .boot ()
  | some t => Belongs c t stack

/-- What a step that remains to be done says about the stack it is on. -/
def Fits (stack : Stack Unit Task) : Op Task → Prop
  | .setCurrent old _ => Belongs c old stack
  | .save _ _ | .load _ => False
  | .worker | .saveIdle | .setIdle | .unlink .worker | .dequeued .worker _ => stack = .boot ()
  | .unlink (.scheduler_yield old) | .dequeued (.scheduler_yield old) _ | .requeue old _ => Mine c old stack
  | _ => True

def AllFit (stack : Stack Unit Task) (ops : List (Op Task)) : Prop := ∀ op ∈ ops, Fits c stack op

/-- The code that runs is outside a switch, with its own task current, or inside
    one, perhaps interrupted by a tick that yields to nobody. -/
inductive Placed (s : State Task) : Prop
  | outside : Mine c s.current s.running.stack → AllFit c s.running.stack s.running.ops → Placed s
  | switching (h : Option Handler) (old new : Task) (rest : List (Op Task)) : s.current = some new →
      Belongs c old s.running.stack → AllFit c s.running.stack rest →
      (∀ handler, h = some handler → s.interrupts = false ∧ Quiet s) →
      (s.running.ops = (h.elim [] (Handler.ops s.current)) ++ .save old new :: rest ∨
        s.running.ops = (h.elim [] (Handler.ops s.current)) ++ .load new :: rest) → Placed s

structure Invariant (s : State Task) : Prop where
  saved : ∀ t, Belongs c t (s.rsp t).stack ∧ AllFit c (s.rsp t).stack (s.rsp t).ops
  running : Placed c s

end

section
variable {Task : Type v} {c : Locals Unit Task} {stack : Stack Unit Task}

@[simp] theorem allFit_nil : AllFit c stack [] := by simp [AllFit]

theorem allFit_cons {op : Op Task} {ops : List (Op Task)} :
    AllFit c stack (op :: ops) ↔ Fits c stack op ∧ AllFit c stack ops :=
  List.forall_mem_cons

theorem allFit_append {left right : List (Op Task)} :
    AllFit c stack (left ++ right) ↔ AllFit c stack left ∧ AllFit c stack right :=
  List.forall_mem_append

theorem allFit_klog : AllFit c stack klog := by simp [AllFit,klog,Fits]
theorem allFit_enqueue (t : Task) : AllFit c stack (enqueue t) := by simp [AllFit,enqueue,Fits]
theorem allFit_switchTo {old : Task} (next : Task) (belongs : Belongs c old stack) :
    AllFit c stack (switchTo old next) := by
  simp [AllFit,switchTo,Fits,belongs]

variable [DecidableEq Task] {s s' : State Task}

theorem allFit_afterDequeue {caller : Caller Task} {next : Option Task} (here : Fits c stack (.dequeued caller next)) :
    AllFit c stack (afterDequeue c s.sched caller next) := by
  cases caller with
  | scheduler_yield old =>
    cases next with
    | none =>
      simp only [afterDequeue]
      split
      · simp [AllFit]
      · exact allFit_cons.mpr ⟨here,allFit_nil⟩
    | some next => exact allFit_cons.mpr ⟨here,allFit_nil⟩
  | worker =>
    cases next with
    | none => simp [afterDequeue,AllFit]
    | some t =>
      have boot : stack = .boot () := here
      exact allFit_append.mpr ⟨allFit_append.mpr ⟨allFit_klog,allFit_switchTo t (.inr ⟨rfl,boot⟩)⟩,allFit_klog⟩

/-- A step outside a switch. -/
theorem outside_step {choice : Choice Task}
    (saved : ∀ t, Belongs c t (s.rsp t).stack ∧ AllFit c (s.rsp t).stack (s.rsp t).ops)
    (mine : Mine c s.current s.running.stack) (fits : AllFit c s.running.stack s.running.ops)
    (taken : exec c s choice = some s') : Invariant c s' := by
  cases ops : s.running.ops with
  | nil => simp [exec,ops] at taken
  | cons op rest =>
    rw [ops,allFit_cons] at fits
    obtain ⟨here,later⟩ := fits
    cases op with
    | save | load => exact here.elim
    | release | kvlog | makeReady | link | setRunning | iretq =>
      simp only [exec,ops,Option.some.injEq] at taken
      subst taken
      exact ⟨saved,.outside mine later⟩
    | code =>
      have code : AllFit c s.running.stack (.code :: rest) := allFit_cons.mpr ⟨trivial,later⟩
      simp only [exec,ops] at taken
      split at taken
      · cases taken
        exact ⟨saved,.outside mine (allFit_append.mpr ⟨allFit_klog,code⟩)⟩
      · split at taken
        · contradiction
        · cases taken
          exact ⟨saved,.outside mine (allFit_append.mpr ⟨allFit_append.mpr ⟨allFit_append.mpr ⟨allFit_klog,allFit_klog⟩,
            allFit_enqueue _⟩,code⟩)⟩
      · cases taken
        exact ⟨saved,.outside mine (allFit_cons.mpr ⟨trivial,code⟩)⟩
      · cases taken
        exact ⟨saved,.outside mine (allFit_cons.mpr ⟨trivial,later⟩)⟩
      · rename_i stack
        cases taken
        refine ⟨saved,.outside mine (allFit_append.mpr ⟨?_,later⟩)⟩
        exact allFit_append.mpr ⟨allFit_append.mpr
          ⟨allFit_klog,allFit_cons.mpr ⟨stack,allFit_cons.mpr ⟨stack,allFit_klog⟩⟩⟩,
          allFit_cons.mpr ⟨stack,allFit_nil⟩⟩
      · contradiction
    | task_exit =>
      simp only [exec,ops,Option.some.injEq] at taken
      subst taken
      refine ⟨saved,.outside mine ?_⟩
      exact allFit_append.mpr ⟨allFit_klog,by simp [allFit_cons,Fits,later]⟩
    | worker =>
      simp only [exec,ops,Option.some.injEq] at taken
      subst taken
      exact ⟨saved,.outside mine (allFit_cons.mpr ⟨trivial,allFit_cons.mpr ⟨here,allFit_cons.mpr ⟨here,later⟩⟩⟩)⟩
    | acquire lock =>
      cases free : s.locked lock with
      | none =>
        simp only [exec,ops,free,Option.some.injEq] at taken
        subst taken
        exact ⟨saved,.outside mine later⟩
      | some holder =>
        simp only [exec,ops,free,Option.some.injEq] at taken
        subst taken
        exact ⟨saved,.outside mine (by rw [ops,allFit_cons]; exact ⟨here,later⟩)⟩
    | scheduler_yield =>
      simp only [exec,ops,Option.some.injEq] at taken
      subst taken
      exact ⟨saved,.outside mine (by simp [allFit_cons,Fits,later,mine])⟩
    | unlink caller =>
      simp only [exec,ops,Option.some.injEq] at taken
      subst taken
      refine ⟨saved,.outside mine ?_⟩
      cases caller <;> exact allFit_cons.mpr ⟨trivial,allFit_cons.mpr ⟨here,later⟩⟩
    | dequeued caller next =>
      simp only [exec,ops,Option.some.injEq] at taken
      subst taken
      exact ⟨saved,.outside mine (allFit_append.mpr ⟨allFit_afterDequeue here,later⟩)⟩
    | requeue old next =>
      simp only [exec,ops,Option.some.injEq] at taken
      subst taken
      refine ⟨saved,.outside mine (allFit_append.mpr ⟨allFit_append.mpr ⟨?_,allFit_switchTo next ?_⟩,later⟩)⟩
      · cases old with
        | none => exact allFit_nil
        | some t =>
          simp only
          split
          · exact allFit_enqueue t
          · exact allFit_nil
      · cases old with
        | none => exact .inr ⟨rfl,here⟩
        | some t => exact here
    | setCurrent old next =>
      simp only [exec,ops,Option.some.injEq] at taken
      subst taken
      exact ⟨saved,.switching none old next rest rfl here later (by simp) (.inl rfl)⟩
    | setDead =>
      simp only [exec,ops] at taken
      obtain ⟨t,_,rfl⟩ := Option.map_eq_some_iff.mp taken
      exact ⟨saved,.outside mine later⟩
    | saveIdle =>
      have boot : s.running.stack = .boot () := here
      simp only [exec,ops,Option.some.injEq] at taken
      subst taken
      refine ⟨?_,.outside mine later⟩
      exact (Function.forall_update_iff s.rsp (fun t context => Belongs c t context.stack ∧
        AllFit c context.stack context.ops)).mpr ⟨⟨.inr ⟨rfl,boot⟩,later⟩,fun t _ => saved t⟩
    | setIdle =>
      simp only [exec,ops,Option.some.injEq] at taken
      subst taken
      exact ⟨saved,.outside (.inr ⟨rfl,here⟩) later⟩

omit [DecidableEq Task] in
/-- A quiet handler leaves the switch below it as it was. -/
theorem switching_undisturbed {h : Option Handler} {old new : Task} {rest : List (Op Task)}
    (undisturbed : Undisturbed s s') (current : s.current = some new) (belongs : Belongs c old s.running.stack)
    (fits : AllFit c s.running.stack rest) (quiet : ∀ handler, h = some handler → s'.interrupts = false ∧ Quiet s)
    (ops : s'.running.ops = (h.elim [] (Handler.ops s.current)) ++ .save old new :: rest ∨ s'.running.ops =
    (h.elim [] (Handler.ops s.current)) ++ .load new :: rest) :
    Placed c s' := by
  obtain ⟨sched,_,_,current',stack⟩ := undisturbed
  refine .switching h old new rest (current'.trans current) (stack ▸ belongs) (stack ▸ fits) ?_ (current' ▸ ops)
  intro handler same
  simpa only [Quiet,sched,current'] using quiet handler same

/-- A step inside a switch. -/
theorem switching_step {choice : Choice Task} {h : Option Handler} {old new : Task} {rest : List (Op Task)}
    (saved : ∀ t, Belongs c t (s.rsp t).stack ∧ AllFit c (s.rsp t).stack (s.rsp t).ops)
    (current : s.current = some new) (belongs : Belongs c old s.running.stack) (fits : AllFit c s.running.stack rest)
    (quiet : ∀ handler, h = some handler → s.interrupts = false ∧ Quiet s)
    (ops : s.running.ops = (h.elim [] (Handler.ops s.current)) ++ .save old new :: rest ∨
      s.running.ops = (h.elim [] (Handler.ops s.current)) ++ .load new :: rest)
    (taken : exec c s choice = some s') : Invariant c s' := by
  cases h with
  | none =>
    rcases ops with ops | ops <;> simp only [Option.elim_none,List.nil_append] at ops
    · simp only [exec,ops,Option.some.injEq] at taken
      subst taken
      refine ⟨?_,.switching none old new rest current belongs fits (by simp) (.inr rfl)⟩
      exact (Function.forall_update_iff s.rsp (fun t context => Belongs c t context.stack ∧
        AllFit c context.stack context.ops)).mpr ⟨⟨belongs,fits⟩,fun t _ => saved t⟩
    · simp only [exec,ops,Option.some.injEq] at taken
      subst taken
      refine ⟨saved,.outside ?_ (saved new).2⟩
      simp only [current]
      exact (saved new).1
  | some handler =>
    obtain ⟨masked,silent⟩ := quiet handler rfl
    have next (tail : List (Op Task)) (ops : s.running.ops = handler.ops s.current ++ tail) :
        Undisturbed s s' ∧ ((∃ h' : Handler, s'.running.ops = h'.ops s.current ++ tail ∧ s'.interrupts = false) ∨
          s'.running.ops = tail) := by
      obtain ⟨undisturbed,outcome⟩ := quiet_step silent ops taken
      refine ⟨undisturbed,outcome.imp ?_ And.left⟩
      rintro ⟨h',ops',flag,_⟩
      exact ⟨h',ops',flag.trans masked⟩
    have kept (undisturbed : Undisturbed s s') (t : Task) : Belongs c t (s'.rsp t).stack ∧ AllFit c
        (s'.rsp t).stack (s'.rsp t).ops := by
      rw [undisturbed.rsp]
      exact saved t
    rcases ops with ops | ops
    · obtain ⟨undisturbed,⟨h',ops',flag⟩ | ops'⟩ := next _ ops
      · exact ⟨kept undisturbed,switching_undisturbed (h := some h') undisturbed current belongs fits
          (fun _ _ => ⟨flag,silent⟩) (.inl ops')⟩
      · exact ⟨kept undisturbed,switching_undisturbed (h := none) undisturbed current belongs
          fits (by simp) (.inl ops')⟩
    · obtain ⟨undisturbed,⟨h',ops',flag⟩ | ops'⟩ := next _ ops
      · exact ⟨kept undisturbed,switching_undisturbed (h := some h') undisturbed current belongs fits
          (fun _ _ => ⟨flag,silent⟩) (.inr ops')⟩
      · exact ⟨kept undisturbed,switching_undisturbed (h := none) undisturbed current belongs
          fits (by simp) (.inr ops')⟩

omit [DecidableEq Task] in
theorem tick_step (inv : Invariant c s) (timely : Timely s .tick) (taken : tick s = some s') : Invariant c s' := by
  obtain ⟨saved,running⟩ := inv
  cases enabled : s.interrupts with
  | false => simp [tick,enabled] at taken
  | true =>
    simp only [tick,enabled,if_true,Option.some.injEq] at taken
    subst taken
    cases running with
    | outside mine fits => exact ⟨saved,.outside mine (allFit_cons.mpr ⟨trivial,allFit_cons.mpr ⟨trivial,fits⟩⟩)⟩
    | switching h old new rest current belongs fits quiet ops =>
      cases h with
      | some handler => simp [enabled] at quiet
      | none =>
        simp only [Option.elim_none,List.nil_append] at ops
        have silent : Quiet s := by
          refine timely rfl ?_
          rcases ops with ops | ops <;> simp [Switching,ops]
        refine ⟨saved,.switching (some .entered) old new rest current belongs fits (fun _ _ => ⟨rfl,silent⟩) ?_⟩
        exact ops.imp (fun same => by rw [same]; rfl) (fun same => by rw [same]; rfl)

omit [DecidableEq Task] in
theorem Invariant.filed (inv : Invariant c s) : Filed c s := by
  refine ⟨?_,fun t => (inv.saved t).1⟩
  intro old new rest ops
  cases inv.running with
  | outside _ fits => exact False.elim (fits (.save old new) (by rw [ops]; exact List.mem_cons_self))
  | switching h old' new' rest' _ belongs _ _ ops' =>
    cases h with
    | none =>
      simp only [Option.elim_none,List.nil_append,ops,List.cons.injEq,Op.save.injEq,reduceCtorEq,false_and,or_false] at ops'
      exact ops'.1.1 ▸ belongs
    | some handler =>
      have absurd' : ∀ tail, s.running.ops ≠ handler.ops s.current ++ tail := by
        intro tail same
        rw [ops] at same
        cases handler <;> simp [Handler.ops] at same
      rcases ops' with ops' | ops'
      · exact (absurd' _ ops').elim
      · exact (absurd' _ ops').elim

theorem initial_invariant (started : Started c s) : Invariant c s := by
  refine ⟨fun t => ?_,.outside ?_ ?_⟩
  · rw [started.rsp]
    refine ⟨.inl rfl,?_⟩
    split
    · exact allFit_nil
    · exact allFit_cons.mpr ⟨trivial,allFit_nil⟩
  · rw [started.current,started.running]
    exact rfl
  · rw [started.running]
    exact allFit_cons.mpr ⟨trivial,allFit_nil⟩

/-- As long as every tick that arrives inside a switch yields to nobody, every
    context is saved into the task whose stack it is on. -/
theorem contexts_filed (reached : ((bootProcessor c).restrict Timely).Reachable s) : Filed c s := by
  have inv : Invariant c s := by
    refine reached.invariant (P := Invariant c) (fun s started => initial_invariant started) ?_
    rintro s a s' ⟨saved,running⟩ ⟨timely,taken⟩
    cases a with
    | tick => exact tick_step ⟨saved,running⟩ timely taken
    | step choice =>
      cases running with
      | outside mine fits => exact outside_step saved mine fits taken
      | switching h old new rest current belongs fits quiet ops =>
        exact switching_step saved current belongs fits quiet ops taken
  exact inv.filed

end

/-! ### A tick before the worker loop has switched to its first task -/

/-- Tasks 1 and 2 are enqueued, and the worker loop has stored `cpu->current` for the switch to task 1. -/
private def samplePick : List (Choice Nat) :=
  .spawn 1 :: List.replicate 10 .klog ++ .spawn 2 :: List.replicate 10 .klog ++ .enterWorker :: List.replicate 18 .klog

/-- The tick puts task 1 back and saves the boot stack into it. -/
theorem contexts_misfiled : ∃ s s', (bootProcessor sampleLocals).Reachable s ∧
    (∃ rest, s.running = ⟨.boot (),.save 1 2 :: rest⟩) ∧ ¬ Filed sampleLocals s ∧
    step sampleLocals s (.step .klog) = some s' ∧ (s'.rsp 1).stack = .boot () := by
  have picked := (System.reachable_initial (M := bootProcessor sampleLocals) sample_started).run
    (@run_steps _ _ _ _ _ (fun _ _ => True) (fun _ _ => trivial) samplePick rfl).unrestricted
  have ticked := (picked.step (a := Action.tick) rfl).run
    (@run_steps _ _ _ _ _ (fun _ _ => True) (fun _ _ => trivial) (List.replicate 12 .klog) rfl).unrestricted
  refine ⟨_,_,ticked,⟨_,rfl⟩,?_,rfl,rfl⟩
  intro filed
  have belongs := filed.saves 1 2 _ rfl
  rcases belongs with own | ⟨idle,_⟩
  · exact absurd own (by decide)
  · exact absurd idle (by decide)

/-- A tick while task 1 runs saves it on its own stack. -/
theorem contexts_filed_one_tick : ∃ s, ((bootProcessor sampleLocals).restrict Timely).Reachable s ∧
    (s.rsp 1).ops ≠ [.code] ∧ Filed sampleLocals s := by
  have free (s : State Nat) (choice : Choice Nat) : Timely s (.step choice) := fun impossible => by contradiction
  have picked := (System.reachable_initial (M := (bootProcessor sampleLocals).restrict Timely) sample_started).run
    (@run_steps _ _ _ _ _ _ free (samplePick ++ [.klog,.klog]) rfl)
  have ticked := (picked.step (a := Action.tick) ⟨fun _ impossible => absurd impossible (by decide),rfl⟩).run
    (@run_steps _ _ _ _ _ _ free (List.replicate 13 .klog) rfl)
  exact ⟨_,ticked,by decide,contexts_filed ticked⟩

end NekoOs.Contexts
