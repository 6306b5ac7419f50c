import Mathlib.Init

/-!
What a bounded execution of kernel code comes to. `kpanic` never returns, and a
loop that has used up its iterations has not finished.
-/
namespace NekoOs
universe u v

inductive Outcome (α : Type u) : Type u
  | ok (value : α)
  | kpanic (message : String)
  | unfinished
deriving DecidableEq, Repr

namespace Outcome
variable {α : Type u} {β : Type v}

/-- Sequential composition: what panics or does not finish ends the execution. -/
protected def bind (first : Outcome α) (next : α → Outcome β) : Outcome β :=
  match first with
  | .ok value => next value
  | .kpanic message => .kpanic message
  | .unfinished => .unfinished

instance : Monad Outcome where
  pure := .ok
  bind := Outcome.bind

@[simp] theorem pure_eq (value : α) : (pure value : Outcome α) = .ok value := rfl
@[simp] theorem bind_ok {β : Type u} (value : α) (next : α → Outcome β) :
  (Outcome.ok value >>= next) = next value := rfl
@[simp] theorem bind_kpanic {β : Type u} (message : String) (next : α → Outcome β) :
    (Outcome.kpanic message >>= next) = .kpanic message := rfl
@[simp] theorem bind_unfinished {β : Type u} (next : α → Outcome β) :
    (Outcome.unfinished >>= next) = .unfinished := rfl

instance : LawfulMonad Outcome := .mk' Outcome
  (fun first => by cases first <;> rfl)
  (fun _ _ => rfl)
  (fun first _ _ => by cases first <;> rfl)

theorem ok_injective {x y : α} (same : Outcome.ok x = .ok y) : x = y := Outcome.ok.inj same

/-- A composition that returns had a first part that returned. -/
theorem bind_eq_ok {β : Type u} {first : Outcome α} {next : α → Outcome β} {result : β} :
    (first >>= next) = .ok result ↔ ∃ value, first = .ok value ∧ next value = .ok result := by
  cases first <;> simp

/-- What follows a composition matters only where its first part returns. -/
theorem bind_congr {β : Type u} {first : Outcome α} {next next' : α → Outcome β}
    (same : ∀ value, first = .ok value → next value = next' value) : (first >>= next) = (first >>= next') := by
  cases first with
  | ok value => exact same value rfl
  | kpanic message => rfl
  | unfinished => rfl

/-- The execution returns a value as described or panics with one of some messages. -/
inductive Ends (panics : String → Prop) (post : α → Prop) : Outcome α → Prop
  | ok {value : α} : post value → Ends panics post (.ok value)
  | kpanic {message : String} : panics message → Ends panics post (.kpanic message)

variable {panics : String → Prop} {post : α → Prop} {code : Outcome α}

theorem Ends.bind {α β : Type u} {after : β → Prop} {code : Outcome β} {post : α → Prop} {next : β → Outcome α}
    (first : code.Ends panics after) (later : ∀ value, after value → (next value).Ends panics post) :
    (code >>= next).Ends panics post := by
  cases first with
  | ok described => exact later _ described
  | kpanic message => exact .kpanic message

theorem Ends.imp {after : α → Prop} (ends : code.Ends panics post)
    (implies : ∀ value, code = .ok value → post value → after value) : code.Ends panics after := by
  cases ends with
  | ok described => exact .ok (implies _ rfl described)
  | kpanic message => exact .kpanic message

theorem Ends.of_ok {value : α} (ends : code.Ends panics post) (returns : code = .ok value) : post value := by
  subst returns
  cases ends with
  | ok described => exact described

end Outcome
end NekoOs
