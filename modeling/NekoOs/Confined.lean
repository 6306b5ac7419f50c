import NekoOs.Access
import NekoOs.Trace

/-!
One code in two readings: with a limit below which it has to read, and with a
record of all it reads. The first ends well exactly if the second ends and no
read of its record is beyond the limit.
-/
namespace NekoOs
open ByteMemory
variable {α β γ δ : Type} {stop : Nat}

/-- All reads are below a limit. -/
def Trace.Below (stop : Nat) (code : Trace α) : Prop := ∀ r ∈ code.reads, r.address + r.width ≤ stop

/-- The code with the limit and the code with the record end together, with related values. -/
structure Confined (stop : Nat) (related : α → β → Prop) (code : Access α) (traced : Trace β) : Prop where
  ends : ∀ value, code = .done value → ∃ value', traced.result = .ok value' ∧ related value value' ∧ traced.Below stop
  below : ∀ value', traced.result = .ok value' → traced.Below stop → ∃ value, code = .done value ∧ related value value'

namespace Confined
variable {related : α → β → Prop} {related' : γ → δ → Prop}

theorem pure {value : α} {value' : β} (same : related value value') :
    Confined stop related (.done value) (Pure.pure value' : Trace β) := by
  constructor
  · rintro _ ⟨⟩
    exact ⟨value',rfl,same,fun r member => absurd member List.not_mem_nil⟩
  · rintro _ ⟨⟩ _
    exact ⟨value,rfl,same⟩

theorem imp {code : Access α} {traced : Trace β} (confined : Confined stop related code traced) {weaker : α → β → Prop}
    (each : ∀ value value', related value value' → weaker value value') : Confined stop weaker code traced := by
  constructor
  · intro value run
    obtain ⟨value',ended,same,inside⟩ := confined.ends value run
    exact ⟨value',ended,each value value' same,inside⟩
  · intro value' ended inside
    obtain ⟨value,run,same⟩ := confined.below value' ended inside
    exact ⟨value,run,each value value' same⟩

theorem below_bind {first : Trace α} {next : α → Trace β} {value : α} (run : first.result = .ok value) :
    (first >>= next).Below stop ↔ first.Below stop ∧ (next value).Below stop := by
  unfold Trace.Below
  rw [(Trace.bind_ok next run).1]
  exact List.forall_mem_append

theorem bind {code : Access α} {traced : Trace β} {next : α → Access γ} {next' : β → Trace δ}
    (first : Confined stop related code traced)
    (later : ∀ value value', related value value' → Confined stop related' (next value) (next' value')) :
    Confined stop related' (code >>= next) (traced >>= next') := by
  constructor
  · intro result run
    obtain ⟨value,here,after⟩ := Access.bind_eq_done.mp run
    obtain ⟨value',ended,same,before⟩ := first.ends value here
    obtain ⟨result',ended',same',behind⟩ := (later value value' same).ends result after
    exact ⟨result',Trace.bind_result.mpr ⟨value',ended,ended'⟩,same',(below_bind ended).mpr ⟨before,behind⟩⟩
  · intro result' run inside
    obtain ⟨value',ended,ended'⟩ := Trace.bind_result.mp run
    obtain ⟨before,behind⟩ := (below_bind ended).mp inside
    obtain ⟨value,here,same⟩ := first.below value' ended before
    obtain ⟨result,after,same'⟩ := (later value value' same).below result' ended' behind
    exact ⟨result,Access.bind_eq_done.mpr ⟨value,here,after⟩,same'⟩

/-- Only the code with the limit makes something else of its value. -/
theorem map {code : Access α} {traced : Trace β} (confined : Confined stop related code traced) {f : α → γ}
    {mapped : γ → β → Prop} (each : ∀ value value', related value value' → mapped (f value) value') :
    Confined stop mapped (code >>= fun value => .done (f value)) traced := by
  rw [← traced.bind_pure]
  exact confined.bind (fun value value' same => pure (each value value' same))

/-- Only the recorded code makes something else of its value. -/
theorem map_traced {code : Access α} {traced : Trace β} (confined : Confined stop related code traced) {f : β → γ}
    {mapped : α → γ → Prop} (each : ∀ value value', related value value' → mapped value (f value')) :
    Confined stop mapped code (traced >>= fun value' => Pure.pure (f value')) := by
  rw [← code.bind_pure]
  exact confined.bind (fun value value' same => pure (each value value' same))

theorem read (m : Memory) (base ptr width : Nat) :
    Confined stop (fun value value' => value = load m ptr width ∧ value' = load m ptr width)
      (Access.read stop m ptr width) (Trace.read m base ptr width) := by
  constructor
  · intro value found
    obtain ⟨inside,rfl⟩ := Access.read_eq_done.mp found
    exact ⟨_,rfl,⟨rfl,rfl⟩,fun r member => List.mem_singleton.mp member ▸ inside⟩
  · rintro _ ⟨⟩ inside
    exact ⟨_,Access.read_inside (inside _ List.mem_cons_self),rfl,rfl⟩

/-- What follows a read needs to agree for the value in memory only. -/
theorem read_bind {m : Memory} {base ptr width : Nat} {next : Nat → Access α} {next' : Nat → Trace β}
    (later : Confined stop related (next (load m ptr width)) (next' (load m ptr width))) :
    Confined stop related (Access.read stop m ptr width >>= next) (Trace.read m base ptr width >>= next') := by
  refine (read m base ptr width).bind ?_
  rintro _ _ ⟨rfl,rfl⟩
  exact later

section
variable {State State' Result Result' : Type} {states : State → State' → Prop} {results : Result → Result' → Prop}

/-- Two loops leave with related results, or go on at one position with related states. -/
def Step (results : Result → Result' → Prop) (states : State → State' → Prop) :
    Result ⊕ State × Nat → Result' ⊕ State' × Nat → Prop :=
  Sum.LiftRel results (fun p p' => states p.1 p'.1 ∧ p.2 = p'.2)

theorem loop {body : State → Nat → Access (Result ⊕ State × Nat)} {body' : State' → Nat → Trace (Result' ⊕ State' × Nat)}
    (each : ∀ s s' ptr, states s s' → Confined stop (Step results states) (body s ptr) (body' s' ptr)) (fuel : Nat)
    {s : State} {s' : State'} (start : states s s') (ptr : Nat) :
    Confined stop results (Access.loop body fuel s ptr) (Trace.loop body' fuel s' ptr) := by
  induction fuel generalizing s s' ptr with
  | zero =>
    constructor
    · intro _ run
      cases run
    · intro _ run
      cases run
  | succ fuel ih =>
    refine (each s s' ptr start).bind (fun step step' same => ?_)
    cases same with
    | inl same => exact pure same
    | @inr moved moved' both =>
      obtain ⟨same,position⟩ := both
      dsimp only
      rw [← position]
      exact ih same moved.2

end

/-- Code ends with all reads below the limit exactly if it ends at all and the record shows no other read. -/
theorem safe {code : Access α} {traced : Trace β} (confined : Confined stop related code traced) :
    Access.Safe code ↔ (∃ value', traced.result = .ok value') ∧ traced.Below stop := by
  constructor
  · rintro ⟨value,run⟩
    obtain ⟨value',ended,_,inside⟩ := confined.ends value run
    exact ⟨⟨value',ended⟩,inside⟩
  · rintro ⟨⟨value',ended⟩,inside⟩
    obtain ⟨value,run,_⟩ := confined.below value' ended inside
    exact ⟨value,run⟩

end Confined
end NekoOs
