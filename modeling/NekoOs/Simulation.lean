import NekoOs.Transitions

/-!
What an observer sees of a run, and forward simulation: if every step of one system
can be followed by steps of another that look the same, then so can every run.
-/
namespace NekoOs.Simulation
open Transitions
universe u v w x y
variable {State : Type u} {Action : Type v} {State' : Type w} {Action' : Type x} {Event : Type y}

/-- The visible part of a run. -/
def trace (visible : Action → Option Event) (actions : List Action) : List Event := actions.filterMap visible

@[simp] theorem trace_nil (visible : Action → Option Event) : trace visible [] = [] := rfl

theorem trace_cons (visible : Action → Option Event) (a : Action) (actions : List Action) :
    trace visible (a :: actions) = (visible a).toList ++ trace visible actions := by
  cases shown : visible a with
  | none => simp [trace,shown]
  | some event => simp [trace,shown]

@[simp] theorem trace_append (visible : Action → Option Event) (first second : List Action) :
    trace visible (first ++ second) = trace visible first ++ trace visible second :=
  List.filterMap_append

/-- Related states at the start, and a run of the abstract system for every step of the concrete one. -/
structure Simulates (C : System State Action) (A : System State' Action') (visible : Action → Option Event)
    (visible' : Action' → Option Event) (R : State → State' → Prop) : Prop where
  start : ∀ s, C.initial s → ∃ a, A.initial a ∧ R s a
  step : ∀ s act t a, R s a → C.step s act t →
    ∃ b actions, A.Run a actions b ∧ trace visible' actions = (visible act).toList ∧ R t b

variable {C : System State Action} {A : System State' Action'} {visible : Action → Option Event}
  {visible' : Action' → Option Event} {R : State → State' → Prop} {s t : State} {actions : List Action}

theorem Simulates.from (simulates : Simulates C A visible visible' R) {a : State'} (related : R s a)
    (run : C.Run s actions t) : ∃ b actions', A.Run a actions' b ∧ trace visible' actions' = trace visible actions ∧ R t b := by
  induction run generalizing a with
  | refl => exact ⟨a,[],.refl a,rfl,related⟩
  | cons step _ ih =>
    obtain ⟨b,first,moved,same,related'⟩ := simulates.step _ _ _ _ related step
    obtain ⟨c,second,onward,same',ends⟩ := ih related'
    refine ⟨c,first ++ second,moved.append onward,?_,ends⟩
    rw [trace_append,same,same',trace_cons]

/-- Trace inclusion. -/
theorem Simulates.run (simulates : Simulates C A visible visible' R) (first : C.initial s) (run : C.Run s actions t) :
    ∃ a b actions', A.initial a ∧ A.Run a actions' b ∧ trace visible' actions' = trace visible actions ∧ R t b := by
  obtain ⟨a,initial,related⟩ := simulates.start s first
  obtain ⟨b,actions',moved,same,ends⟩ := simulates.from related run
  exact ⟨a,b,actions',initial,moved,same,ends⟩

end NekoOs.Simulation
