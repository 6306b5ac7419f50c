import Mathlib.Data.List.Infix

/-!
Nodes with labelled slots, each of which is empty, holds a leaf or leads to a
child. Where different paths from a root lead to different places, a change of
one slot changes what lies below the slot and nothing else.
-/
namespace NekoOs.PathTree
universe u v w x

inductive Slot (Node : Type u) (Leaf : Type v)
  | empty
  | leaf (value : Leaf)
  | child (node : Node)
deriving DecidableEq, Repr

abbrev Slots (Node : Type u) (Label : Type w) (Leaf : Type v) := Node → Label → Slot Node Leaf

variable {Node : Type u} {Leaf : Type v} {Label : Type w} {Place : Type x}

/-- The node at the end of a path. -/
def follow (slots : Slots Node Label Leaf) : Node → List Label → Option Node
  | n, [] => some n
  | n, i :: path =>
    match slots n i with
    | .child c => follow slots c path
    | _ => none

/-- The first leaf on the way that a word describes. -/
def lookup (slots : Slots Node Label Leaf) : Node → List Label → Option Leaf
  | _, [] => none
  | n, i :: word =>
    match slots n i with
    | .empty => none
    | .leaf value => some value
    | .child c => lookup slots c word

/-- Different paths from the root lead to different places. -/
def Separate (slots : Slots Node Label Leaf) (place : Node → Place) (root : Node) : Prop :=
  ∀ p q m n, follow slots root p = some m → follow slots root q = some n → place m = place n → p = q

/-- Of the nodes that can be reached, nothing has changed but the slots with one
    label at one place. -/
def SameExcept (before after : Slots Node Label Leaf) (place : Node → Place) (root : Node) (a : Place) (i : Label) : Prop :=
  ∀ q n j, follow before root q = some n → place n ≠ a ∨ j ≠ i → after n j = before n j

section
variable {slots : Slots Node Label Leaf} {n t : Node} {p : List Label}

theorem follow_append (q : List Label) (here : follow slots n p = some t) :
    follow slots n (p ++ q) = follow slots t q := by
  induction p generalizing n with
  | nil => rw [Option.some.inj here,List.nil_append]
  | cons i p ih =>
    rw [List.cons_append,follow]
    rw [follow] at here
    cases found : slots n i with
    | child c => exact ih (by simpa only [found] using here)
    | empty => simp [found] at here
    | leaf value => simp [found] at here

theorem lookup_append (word : List Label) (here : follow slots n p = some t) :
    lookup slots n (p ++ word) = lookup slots t word := by
  induction p generalizing n with
  | nil => rw [Option.some.inj here,List.nil_append]
  | cons i p ih =>
    rw [List.cons_append,lookup]
    rw [follow] at here
    cases found : slots n i with
    | child c => exact ih (by simpa only [found] using here)
    | empty => simp [found] at here
    | leaf value => simp [found] at here

theorem follow_child {i : Label} {c : Node} (here : follow slots n p = some t) (child : slots t i = .child c) :
    follow slots n (p ++ [i]) = some c := by
  rw [follow_append _ here,follow,child]
  rfl

/-- A path that goes on passes through a node with a child. -/
theorem follow_through {i : Label} {q : List Label} {m : Node} (here : follow slots n p = some t)
    (further : follow slots n (p ++ i :: q) = some m) : ∃ c, slots t i = .child c ∧ follow slots c q = some m := by
  rw [follow_append _ here,follow] at further
  cases found : slots t i with
  | child c => exact ⟨c,rfl,by simpa only [found] using further⟩
  | empty => simp [found] at further
  | leaf value => simp [found] at further

end

section
variable {before after : Slots Node Label Leaf} {place : Node → Place} {root t : Node} {p : List Label} {i : Label}

/-- Only the slots on the way matter. -/
theorem same_on_way {n : Node} {q : List Label}
    (same : ∀ r j, r ++ [j] <+: q → ∀ m, follow before n r = some m → after m j = before m j) :
    follow after n q = follow before n q ∧ lookup after n q = lookup before n q := by
  induction q generalizing n with
  | nil => exact ⟨rfl,rfl⟩
  | cons j q ih =>
    have first : after n j = before n j := same [] j (by simp) n rfl
    rw [follow,lookup,follow,lookup,first]
    cases found : before n j with
    | empty => exact ⟨rfl,rfl⟩
    | leaf value => exact ⟨rfl,rfl⟩
    | child c =>
      apply ih
      intro r k inside m reached
      exact same (j :: r) k (by simpa using inside) m (by simpa only [follow,found] using reached)

theorem same_reached (same : ∀ p n, follow before root p = some n → ∀ i, after n i = before n i) (q : List Label) :
    follow after root q = follow before root q ∧ lookup after root q = lookup before root q :=
  same_on_way (fun r j _ m reached => same r m reached j)

theorem Separate.same_reached (separate : Separate before place root)
    (same : ∀ p n, follow before root p = some n → ∀ i, after n i = before n i) : Separate after place root := by
  intro p q m n left right
  rw [(PathTree.same_reached same _).1] at left right
  exact separate p q m n left right

/-- A changed slot changes nothing off the ways through it. -/
theorem same_apart (separate : Separate before place root) (here : follow before root p = some t)
    (same : SameExcept before after place root (place t) i) {q : List Label} (apart : ¬p ++ [i] <+: q) :
    follow after root q = follow before root q ∧ lookup after root q = lookup before root q := by
  apply same_on_way
  intro r j inside m reached
  apply same r m j reached
  by_contra both
  push Not at both
  have path : r = p := separate r p m t reached here both.1
  rw [path,both.2] at inside
  exact apart inside

theorem not_below (p : List Label) (i : Label) : ¬p ++ [i] <+: p := fun inside => by
  have := inside.length_le
  rw [List.length_append,List.length_singleton] at this
  omega

/-- The change leaves the node where it is. -/
theorem follow_here (separate : Separate before place root) (here : follow before root p = some t)
    (same : SameExcept before after place root (place t) i) : follow after root p = some t :=
  (same_apart separate here same (not_below p i)).1.trans here

/-- A slot that has become a leaf or empty. -/
theorem follow_cut (separate : Separate before place root) (here : follow before root p = some t)
    (same : SameExcept before after place root (place t) i) (childless : ∀ c, after t i ≠ .child c)
    {q : List Label} {n : Node} (reached : follow after root q = some n) : follow before root q = some n := by
  by_cases below : p ++ [i] <+: q
  · obtain ⟨rest,rfl⟩ := below
    rw [List.append_assoc] at reached
    obtain ⟨c,child,_⟩ := follow_through (follow_here separate here same) reached
    exact absurd child (childless c)
  · exact (same_apart separate here same below).1.symm.trans reached

theorem Separate.cut (separate : Separate before place root) (here : follow before root p = some t)
    (same : SameExcept before after place root (place t) i) (childless : ∀ c, after t i ≠ .child c) :
    Separate after place root := fun q r m n left right =>
  separate q r m n (follow_cut separate here same childless left) (follow_cut separate here same childless right)

theorem lookup_leaf (separate : Separate before place root) (here : follow before root p = some t)
    (same : SameExcept before after place root (place t) i) {value : Leaf} (leaf : after t i = .leaf value)
    {word : List Label} (below : p ++ [i] <+: word) : lookup after root word = some value := by
  obtain ⟨rest,rfl⟩ := below
  rw [List.append_assoc,lookup_append _ (follow_here separate here same),List.singleton_append,lookup,leaf]

/-- An empty slot that has got a child with empty slots. -/
theorem follow_attach (separate : Separate before place root) (here : follow before root p = some t)
    (same : SameExcept before after place root (place t) i) {c : Node} (child : after t i = .child c)
    (fresh : ∀ j, after c j = .empty) {q : List Label} {n : Node} (reached : follow after root q = some n) :
    follow before root q = some n ∨ q = p ++ [i] ∧ n = c := by
  by_cases below : p ++ [i] <+: q
  · obtain ⟨rest,rfl⟩ := below
    rw [follow_append _ (follow_child (follow_here separate here same) child)] at reached
    cases rest with
    | nil => exact .inr ⟨List.append_nil _,(Option.some.inj reached).symm⟩
    | cons j rest => simp [follow,fresh] at reached
  · exact .inl ((same_apart separate here same below).1.symm.trans reached)

theorem Separate.attach (separate : Separate before place root) (here : follow before root p = some t)
    (same : SameExcept before after place root (place t) i) {c : Node} (child : after t i = .child c)
    (fresh : ∀ j, after c j = .empty) (unused : ∀ q n, follow before root q = some n → place n ≠ place c) :
    Separate after place root := by
  intro q r m n left right samePlace
  rcases follow_attach separate here same child fresh left with old | ⟨rfl,rfl⟩
  · rcases follow_attach separate here same child fresh right with old' | ⟨rfl,rfl⟩
    · exact separate q r m n old old' samePlace
    · exact absurd samePlace (unused q m old)
  · rcases follow_attach separate here same child fresh right with old' | ⟨rfl,rfl⟩
    · exact absurd samePlace.symm (unused r n old')
    · rfl

/-- The new child has no leaves yet. -/
theorem lookup_attach (separate : Separate before place root) (here : follow before root p = some t)
    (same : SameExcept before after place root (place t) i) {c : Node} (child : after t i = .child c)
    (fresh : ∀ j, after c j = .empty) (vacant : before t i = .empty) (word : List Label) :
    lookup after root word = lookup before root word := by
  by_cases below : p ++ [i] <+: word
  · obtain ⟨rest,rfl⟩ := below
    rw [lookup_append _ (follow_child (follow_here separate here same) child),List.append_assoc,
      lookup_append _ here,List.singleton_append,lookup,vacant]
    cases rest with
    | nil => rfl
    | cons j rest => rw [lookup,fresh]
  · exact (same_apart separate here same below).2

end
end NekoOs.PathTree
