import NekoOs.Multiboot
import NekoOs.BootMap

/-!
Which RSDP `get_acpi_rsdp` takes from the boot information. The walk over the
tags leaves at the first ACPI 2.0 tag, and until then keeps the last ACPI 1.0 tag.
-/
namespace NekoOs.Rsdp
open ByteMemory Access Multiboot
open Regions (MB2_TAG_END tagType tagSize)
open BootMap (totalSize)

/-- The tags from an address on: each of at least 8 bytes, padded to a multiple of 8, up
    to the one that ends them. -/
inductive Tags (m : Memory) (stop : Nat) : (tag : Nat) → List Nat → Prop
  | ends {tag : Nat} : tag + 8 ≤ stop → tagType m tag = MB2_TAG_END → Tags m stop tag []
  | cons {tag : Nat} {rest : List Nat} : tagType m tag ≠ MB2_TAG_END → 8 ≤ tagSize m tag →
    Tags m stop (tag + (tagSize m tag + 7) / 8 * 8) rest → Tags m stop tag (tag :: rest)

/-- The first ACPI 2.0 tag, or else the last ACPI 1.0 tag. -/
def chosen (m : Memory) (tags : List Nat) : Option Nat :=
  match tags.find? (fun tag => tagType m tag = MB2_TAG_ACPI_V2) with
  | some tag => some tag
  | none => (tags.filter (fun tag => tagType m tag = MB2_TAG_ACPI_V1)).getLast?

/-- The address of `rsdp` in an ACPI tag -/
def payload (tag : Nat) : Nat := tag + 8

section
variable {m : Memory} {stop tag : Nat} {tags : List Nat}

theorem Tags.room (list : Tags m stop tag tags) : tag + 8 ≤ stop := by
  induction list with
  | ends room _ => exact room
  | cons _ wide _ ih => omega

/-! ### One tag -/

variable {State Result : Type} {visit : State → (type tag : Nat) → Access (Result ⊕ State)} {ended : State → Result}

theorem tagBody_end (room : tag + 8 ≤ stop) (isEnd : tagType m tag = MB2_TAG_END) (s : State) :
    tagBody stop m visit ended s tag = .done (.inl (ended s)) := by
  have type : read stop m tag 4 = .done MB2_TAG_END := read_eq_done.mpr ⟨by omega,isEnd⟩
  rw [tagBody,record,type,bind_done,if_pos rfl]
  rfl

/-- A tag that is not the last is visited, and if the visit goes on the next one follows. -/
theorem tagBody_visit (room : tag + 8 ≤ stop) (more : tagType m tag ≠ MB2_TAG_END) {s : State} {step : Result ⊕ State}
    (visited : visit s (tagType m tag) tag = .done step) : tagBody stop m visit ended s tag =
      .done (step.map id (fun s => (s,nextTag m tag))) := by
  have type : read stop m tag 4 = .done (tagType m tag) := read_eq_done.mpr ⟨by omega,rfl⟩
  have size : read stop m (tag + 4) 4 = .done (tagSize m tag) := read_eq_done.mpr ⟨by omega,rfl⟩
  rw [tagBody,record,type,bind_done,if_neg more]
  simp only [bind_done,visited]
  cases step with
  | inl result => rfl
  | inr s =>
    simp only [size,bind_done]
    rfl

/-! ### The walk -/

theorem rsdpTag_other {result : Option Nat} {type : Nat} (first : type ≠ MB2_TAG_ACPI_V1) (second : type ≠ MB2_TAG_ACPI_V2) :
    rsdpTag stop m result type tag = .done (.inr result) := by
  rw [rsdpTag,if_neg second,if_neg first]

/-- From a tag on the walk comes to the choice among the tags, or to what has been found before if there is none. -/
theorem walk_chosen (list : Tags m stop tag tags) (short : stop < tag + 2 ^ 32) (found : Option Nat) :
    loop (tagBody stop m (rsdpTag stop m) id) (tags.length + 1) found tag =
      .done (((chosen m tags).map payload).or found) := by
  induction list generalizing found with
  | ends room isEnd =>
    rw [loop,tagBody_end room isEnd]
    rfl
  | @cons tag rest more wide list ih =>
    have room := list.room
    have fits : nextTag m tag = tag + (tagSize m tag + 7) / 8 * 8 := by
      unfold nextTag roundUp
      omega
    rw [← fits] at ih room
    have later := ih (by unfold nextTag at *; omega)
    rw [List.length_cons,loop]
    by_cases second : tagType m tag = MB2_TAG_ACPI_V2
    · have visited : rsdpTag stop m found (tagType m tag) tag = .done (.inl (some (payload tag))) := by
        rw [rsdpTag,if_pos second]
        rfl
      rw [tagBody_visit (by omega) more visited]
      simp [chosen,second]
    have skipped : (tag :: rest).find? (fun tag => tagType m tag = MB2_TAG_ACPI_V2) =
        rest.find? (fun tag => tagType m tag = MB2_TAG_ACPI_V2) := by simp [second]
    by_cases first : tagType m tag = MB2_TAG_ACPI_V1
    · have visited : rsdpTag stop m found (tagType m tag) tag = .done (.inr (some (payload tag))) := by
        rw [rsdpTag,if_neg second,if_pos first,read_inside (by omega)]
        rfl
      rw [tagBody_visit (by omega) more visited]
      refine (later (some (payload tag))).trans ?_
      unfold chosen
      rw [skipped,List.filter_cons_of_pos (by simpa using first),List.getLast?_cons]
      cases rest.find? (fun tag => tagType m tag = MB2_TAG_ACPI_V2) with
      | some other => rfl
      | none => cases (rest.filter (fun tag => tagType m tag = MB2_TAG_ACPI_V1)).getLast? <;> rfl
    · rw [tagBody_visit (by omega) more (rsdpTag_other first second)]
      refine (later found).trans ?_
      unfold chosen
      rw [skipped,List.filter_cons_of_neg (by simpa using first)]

end
/-- No tag is chosen exactly if there is no ACPI tag. -/
theorem chosen_none (m : Memory) (tags : List Nat) : chosen m tags = none ↔
    ∀ tag ∈ tags, tagType m tag ≠ MB2_TAG_ACPI_V1 ∧ tagType m tag ≠ MB2_TAG_ACPI_V2 := by
  unfold chosen
  cases found : tags.find? (fun tag => tagType m tag = MB2_TAG_ACPI_V2) with
  | some tag =>
    have second : tagType m tag = MB2_TAG_ACPI_V2 := by simpa using List.find?_some found
    constructor
    · intro impossible
      cases impossible
    · exact fun neither => absurd second (neither tag (List.mem_of_find?_eq_some found)).2
  | none =>
    have noSecond : ∀ tag ∈ tags, tagType m tag ≠ MB2_TAG_ACPI_V2 := by simpa using List.find?_eq_none.mp found
    simp only [List.getLast?_eq_none_iff,List.filter_eq_nil_iff,decide_eq_true_eq]
    exact ⟨fun noFirst tag member => ⟨noFirst tag member,noSecond tag member⟩,fun neither tag member =>
      (neither tag member).1⟩

/-- On well-formed boot information `get_acpi_rsdp` ends with the payload of the first
    ACPI 2.0 tag, or else of the last ACPI 1.0 tag, and with null exactly if there is neither. -/
theorem get_acpi_rsdp_selects {m : Memory} {info : Nat} {tags : List Nat}
    (list : Tags m (info + totalSize m info) (info + 8) tags) :
    (∃ fuel, get_acpi_rsdp (info + totalSize m info) m fuel info = .done ((chosen m tags).map payload)) ∧
      (chosen m tags = none ↔
        ∀ tag ∈ tags, tagType m tag ≠ MB2_TAG_ACPI_V1 ∧ tagType m tag ≠ MB2_TAG_ACPI_V2) := by
  refine ⟨⟨tags.length + 1,?_⟩,chosen_none m tags⟩
  have total : totalSize m info < 2 ^ 32 := load_lt _ _ _
  exact (walk_chosen list (by omega) none).trans (congrArg Access.done (Option.or_none ..))

/-- Boot information at 0 with an ACPI 1.0 tag of 13 bytes, an ACPI 2.0 tag of 16 and
    an ACPI 1.0 tag of 8. -/
def threeTags : Memory := fun a =>
  [56,0,0,0, 0,0,0,0, 14,0,0,0, 13,0,0,0, 1,2,3,4,5,0,0,0, 15,0,0,0, 16,0,0,0, 6,7,8,9,10,11,12,13,
    14,0,0,0, 8,0,0,0, 0,0,0,0, 8,0,0,0].getD a 0

theorem get_acpi_rsdp_selects_second : ∃ fuel, get_acpi_rsdp (0 + 56) threeTags fuel 0 = .done (some 32) := by
  have last : Tags threeTags (0 + 56) 48 [] := .ends (by decide) (by decide)
  have list : Tags threeTags (0 + 56) (0 + 8) [8,24,40] :=
    .cons (by decide) (by decide) (.cons (by decide) (by decide) (.cons (by decide) (by decide) last))
  exact (get_acpi_rsdp_selects list).1

end NekoOs.Rsdp
