import Mathlib.Logic.Relation

/-!
Labelled transition systems. A property that holds at the start and survives
every step holds in every reachable state, also when the steps of a system are
restricted to those that meet a condition on the state before the step.
-/
namespace NekoOs.Transitions
universe u v

/-- Initial states and labelled steps. -/
structure System (State : Type u) (Action : Type v) where
  initial : State → Prop
  step : State → Action → State → Prop

namespace System
variable {State : Type u} {Action : Type v} (M : System State Action)

/-- A finite run, with the actions it takes in order. -/
inductive Run : State → List Action → State → Prop
  | refl (s : State) : Run s [] s
  | cons {s t r : State} {a : Action} {rest : List Action} : M.step s a t → Run t rest r → Run s (a :: rest) r

/-- The end of some run from an initial state. -/
def Reachable (s : State) : Prop := ∃ first actions, M.initial first ∧ M.Run first actions s

/-- The steps that meet a condition on the state before them. -/
def restrict (allowed : State → Action → Prop) : System State Action where
  initial := M.initial
  step s a t := allowed s a ∧ M.step s a t

variable {M}

theorem Run.append {s t r : State} {first second : List Action} (left : M.Run s first t)
    (right : M.Run t second r) : M.Run s (first ++ second) r := by
  induction left with
  | refl => exact right
  | cons step _ ih => exact .cons step (ih right)

theorem Run.snoc {s t r : State} {actions : List Action} {a : Action} (run : M.Run s actions t)
    (step : M.step t a r) : M.Run s (actions ++ [a]) r :=
  run.append (.cons step (.refl r))

/-- What every step preserves, every run preserves. -/
theorem Run.invariant {P : State → Prop} (preserved : ∀ s a t, P s → M.step s a t → P t)
    {s t : State} {actions : List Action} (run : M.Run s actions t) (holds : P s) : P t := by
  induction run with
  | refl => exact holds
  | cons step _ ih => exact ih (preserved _ _ _ holds step)

theorem reachable_initial {s : State} (first : M.initial s) : M.Reachable s := ⟨s,[],first,.refl s⟩

theorem Reachable.step {s t : State} {a : Action} (reached : M.Reachable s) (step : M.step s a t) :
    M.Reachable t := by
  obtain ⟨first,actions,start,run⟩ := reached
  exact ⟨first,actions ++ [a],start,run.snoc step⟩

theorem Reachable.run {s t : State} {actions : List Action} (reached : M.Reachable s)
    (run : M.Run s actions t) : M.Reachable t := by
  obtain ⟨first,before,start,reach⟩ := reached
  exact ⟨first,before ++ actions,start,reach.append run⟩

/-- The induction rule for reachable states. -/
theorem Reachable.invariant {P : State → Prop} (start : ∀ s, M.initial s → P s)
    (preserved : ∀ s a t, P s → M.step s a t → P t) {s : State} (reached : M.Reachable s) : P s := by
  obtain ⟨first,actions,initial,run⟩ := reached
  exact run.invariant preserved (start first initial)

/-- The same rule where each step may also use that its source is reachable. -/
theorem Reachable.strengthened {P : State → Prop} (start : ∀ s, M.initial s → P s)
    (preserved : ∀ s a t, M.Reachable s → P s → M.step s a t → P t) {s : State} (reached : M.Reachable s) :
    P s := by
  have both : M.Reachable s ∧ P s := by
    refine reached.invariant (P := fun s => M.Reachable s ∧ P s) ?_ ?_
    · exact fun s first => ⟨reachable_initial first,start s first⟩
    · exact fun s a t holds step => ⟨holds.1.step step,preserved s a t holds.1 holds.2 step⟩
  exact both.2

/-- A restricted run is a run. -/
theorem Run.unrestricted {allowed : State → Action → Prop} {s t : State} {actions : List Action}
    (run : (M.restrict allowed).Run s actions t) : M.Run s actions t := by
  induction run with
  | refl => exact .refl _
  | cons step _ ih => exact .cons step.2 ih

/-- A run whose actions are allowed in every state is a restricted run. -/
theorem Run.restricted {allowed : State → Action → Prop} {s t : State} {actions : List Action}
    (run : M.Run s actions t) (may : ∀ a ∈ actions, ∀ s, allowed s a) : (M.restrict allowed).Run s actions t := by
  induction run with
  | refl => exact .refl _
  | @cons s _ _ a _ step _ ih =>
    exact .cons ⟨may a (List.mem_cons_self ..) s,step⟩ (ih (fun b later => may b (List.mem_cons_of_mem a later)))

/-- What the steps with some actions preserve, a run with only such actions preserves. -/
theorem Run.keeps {P : State → Prop} {allowed : Action → Prop}
    (preserved : ∀ s a t, allowed a → P s → M.step s a t → P t) {s t : State} {actions : List Action}
    (run : M.Run s actions t) (each : ∀ a ∈ actions, allowed a) (holds : P s) : P t := by
  have limited : (M.restrict (fun _ a => allowed a)).Run s actions t := run.restricted (fun a member _ => each a member)
  refine limited.invariant ?_ holds
  rintro s a t now ⟨may,step⟩
  exact preserved s a t may now step

theorem Reachable.unrestricted {allowed : State → Action → Prop} {s : State}
    (reached : (M.restrict allowed).Reachable s) : M.Reachable s := by
  obtain ⟨first,actions,start,run⟩ := reached
  exact ⟨first,actions,start,run.unrestricted⟩

/-- A system that counts along its runs the steps with a given property. -/
def counting (M : System State Action) (event : State → Action → Bool) : System (State × Nat) Action where
  initial s := M.initial s.1 ∧ s.2 = 0
  step s a t := M.step s.1 a t.1 ∧ t.2 = s.2 + (if event s.1 a then 1 else 0)

/-- The system of a partial step function. -/
def ofFunction (initial : State → Prop) (next : State → Action → Option State) : System State Action where
  initial := initial
  step s a t := next s a = some t

/-- A run of a step function is a fold over its actions. -/
theorem run_of_foldlM {initial : State → Prop} {next : State → Action → Option State} {s t : State}
    {actions : List Action} (run : actions.foldlM next s = some t) : (ofFunction initial next).Run s actions t := by
  induction actions generalizing s with
  | nil =>
    have same : s = t := by simpa using run
    exact same ▸ .refl s
  | cons a rest ih =>
    rw [List.foldlM_cons,Option.bind_eq_bind,Option.bind_eq_some_iff] at run
    obtain ⟨r,step,later⟩ := run
    exact .cons step (ih later)

end System
end NekoOs.Transitions
