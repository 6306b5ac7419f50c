import NekoOs.ByteMemory
import Mathlib.Data.List.Basic

/-!
Pictures in a byte memory. Each point has bytes of its own, and a program paints
an area when it shows a picture there and leaves every other byte alone. Painting
composes, and painting what is already shown changes nothing.
-/
namespace NekoOs
open ByteMemory

/-- Points of a number of bytes each, apart from those of the other points. -/
structure Canvas (Point : Type) where
  inside : Point → Prop
  place : Point → Nat
  bytes : Nat
  apart : ∀ p q, inside p → inside q → p ≠ q → place p + bytes ≤ place q ∨ place q + bytes ≤ place p

namespace Canvas
variable {Point Index : Type} {canvas : Canvas Point} {area other : Point → Prop} {picture : Point → Nat}
  {program second : Memory → Memory} {m n : Memory} {p : Point}

/-- The colour of a point. -/
def pixel (canvas : Canvas Point) (m : Memory) (p : Point) : Nat := load m (canvas.place p) canvas.bytes

/-- A byte of no point of an area. -/
def Off (canvas : Canvas Point) (area : Point → Prop) (b : Nat) : Prop :=
  ∀ p, area p → b < canvas.place p ∨ canvas.place p + canvas.bytes ≤ b

/-- A program that shows a picture on an area and leaves every other byte alone. -/
structure Paints (canvas : Canvas Point) (area : Point → Prop) (picture : Point → Nat) (program : Memory → Memory) :
    Prop where
  inside : ∀ p, area p → canvas.inside p
  painted : ∀ m p, area p → canvas.pixel (program m) p = picture p
  kept : ∀ m b, canvas.Off area b → program m b = m b

/-- Points outside an area keep their colour when the bytes off the area stay. -/
theorem pixel_kept (within : ∀ q, area q → canvas.inside q) (same : ∀ b, canvas.Off area b → n b = m b)
    (inside : canvas.inside p) (outside : ¬area p) : canvas.pixel n p = canvas.pixel m p := by
  refine load_congr (fun b low high => same b (fun q member => ?_))
  have different : p ≠ q := by
    rintro rfl
    exact outside member
  have apart := canvas.apart p q inside (within q member) different
  omega

/-- A byte that two memories with the same pixels share. -/
theorem byte_shown (same : canvas.pixel m p = canvas.pixel n p) {b : Nat} (low : canvas.place p ≤ b)
    (high : b < canvas.place p + canvas.bytes) : m b = n b := load_byte same low high

theorem paints_nothing : canvas.Paints (fun _ => False) picture id :=
  ⟨fun _ none => none.elim,fun _ _ none => none.elim,fun _ _ _ => rfl⟩

/-- A stored colour paints one point. -/
theorem paints_store {v : Nat} (inside : canvas.inside p) (colour : picture p = v % 256 ^ canvas.bytes) :
    canvas.Paints (· = p) picture (fun m => store m (canvas.place p) canvas.bytes v) := by
  refine ⟨?_,?_,fun m b off => store_outside (off p rfl)⟩
  · rintro q rfl
    exact inside
  · rintro m q rfl
    rw [pixel,load_store_mod,colour]

theorem Paints.congr (paints : canvas.Paints area picture program) (same : ∀ p, other p ↔ area p) :
    canvas.Paints other picture program :=
  ⟨fun p member => paints.inside p ((same p).mp member),fun m p member => paints.painted m p ((same p).mp member),
    fun m b off => paints.kept m b (fun p member => off p ((same p).mpr member))⟩

/-- One program after another paints both areas. -/
theorem Paints.andThen (paints : canvas.Paints area picture program) (paints' : canvas.Paints other picture second) :
    canvas.Paints (fun p => area p ∨ other p) picture (fun m => second (program m)) := by
  refine ⟨fun p member => member.elim (paints.inside p) (paints'.inside p),fun m p member => ?_,fun m b off => ?_⟩
  · by_cases later : other p
    · exact paints'.painted (program m) p later
    · have earlier := member.resolve_right later
      rw [pixel_kept paints'.inside (paints'.kept (program m)) (paints.inside p earlier) later]
      exact paints.painted m p earlier
  · rw [paints'.kept _ b (fun p member => off p (.inr member)),paints.kept m b (fun p member => off p (.inl member))]

/-- A loop paints the areas of its iterations. -/
theorem Paints.foldl {areas : Index → Point → Prop} {body : Memory → Index → Memory} {indices : List Index}
    (each : ∀ i ∈ indices, canvas.Paints (areas i) picture (fun m => body m i)) :
    canvas.Paints (fun p => ∃ i ∈ indices, areas i p) picture (fun m => indices.foldl body m) := by
  induction indices with
  | nil => exact paints_nothing.congr (by simp)
  | cons i indices ih =>
    have later := ih (fun j member => each j (List.mem_cons_of_mem _ member))
    exact ((each i List.mem_cons_self).andThen later).congr (by simp)

/-- Painting what is already shown changes nothing. -/
theorem Paints.again (paints : canvas.Paints area picture program)
    (shown : ∀ p, area p → canvas.pixel m p = picture p) :
    program m = m := by
  funext b
  by_cases off : canvas.Off area b
  · exact paints.kept m b off
  · obtain ⟨p,covered⟩ := not_forall.mp off
    obtain ⟨member,covers⟩ := Classical.not_imp.mp covered
    exact byte_shown ((paints.painted m p member).trans (shown p member).symm) (by omega) (by omega)

/-- A program paints no more than one area: outside it, some memory shows another colour. -/
theorem Paints.covers (bytes : 0 < canvas.bytes) (paints : canvas.Paints area picture program)
    (paints' : canvas.Paints other picture program) (member : other p) : area p := by
  by_contra outside
  let before := store (fun _ => 0) (canvas.place p) canvas.bytes (picture p + 1)
  have shown : canvas.pixel (program before) p = picture p := paints'.painted before p member
  have kept : canvas.pixel (program before) p = canvas.pixel before p :=
    pixel_kept paints.inside (paints.kept before) (paints'.inside p member) outside
  have stored : canvas.pixel before p = (picture p + 1) % 256 ^ canvas.bytes := load_store_mod _ _ _ _
  have small : picture p < 256 ^ canvas.bytes := shown ▸ load_lt (program before) (canvas.place p) canvas.bytes
  have colours : 1 < 256 ^ canvas.bytes := Nat.one_lt_pow (Nat.ne_of_gt bytes) (by decide)
  rw [← kept,shown] at stored
  rcases Nat.lt_or_ge (picture p + 1) (256 ^ canvas.bytes) with next | last
  · rw [Nat.mod_eq_of_lt next] at stored
    omega
  · rw [show picture p + 1 = 256 ^ canvas.bytes from Nat.le_antisymm small last,Nat.mod_self] at stored
    omega

theorem Paints.paints_iff (bytes : 0 < canvas.bytes) (paints : canvas.Paints area picture program) :
    canvas.Paints other picture program ↔ ∀ p, other p ↔ area p :=
  ⟨fun paints' _ => ⟨paints.covers bytes paints',paints'.covers bytes paints⟩,paints.congr⟩

end Canvas
end NekoOs
