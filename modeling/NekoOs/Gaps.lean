import NekoOs.Tiling

/-!
Gaps: the maximal runs of positions that a predicate leaves free. In a canonical
tiling the gaps between the segments in use are exactly its free segments, so a
walk over the segments meets every gap whole and in order.
-/
namespace NekoOs.Gaps
open Tiling

/-- `[a, b)` lies within `[lo, hi)`, no position of it is taken, and it cannot
    be extended on either side. -/
structure Gap (taken : Nat → Prop) (lo hi a b : Nat) : Prop where
  low : lo ≤ a
  nonempty : a < b
  high : b ≤ hi
  clear : ∀ x, a ≤ x → x < b → ¬taken x
  left : a = lo ∨ taken (a - 1)
  right : b = hi ∨ taken b

section
variable {taken : Nat → Prop} {lo hi : Nat}

/-- A gap is not extended by another one that it meets. -/
private theorem Gap.within {a b a' b' : Nat} (gap : Gap taken lo hi a b) (other : Gap taken lo hi a' b')
    (before : a < b') (after : a' < b) : a ≤ a' ∧ b' ≤ b := by
  constructor
  · by_contra beyond
    have edge : taken (a - 1) := gap.left.resolve_left (by have := other.low; omega)
    exact other.clear (a - 1) (by omega) (by omega) edge
  · by_contra beyond
    have edge : taken b := gap.right.resolve_left (by have := other.high; omega)
    exact other.clear b (by omega) (by omega) edge

theorem Gap.unique {a b a' b' : Nat} (gap : Gap taken lo hi a b) (other : Gap taken lo hi a' b')
    (before : a < b') (after : a' < b) : a = a' ∧ b = b' := by
  have inside := gap.within other before after
  have outside := other.within gap after before
  omega

theorem gap_congr {taken' : Nat → Prop} (same : ∀ x, lo ≤ x → x < hi → (taken x ↔ taken' x)) {a b : Nat}
    (gap : Gap taken lo hi a b) : Gap taken' lo hi a b := by
  obtain ⟨low,nonempty,high,clear,left,right⟩ := gap
  refine ⟨low,nonempty,high,fun x above below isTaken => ?_,?_,?_⟩
  · exact clear x above below ((same x (by omega) (by omega)).mpr isTaken)
  · by_cases edge : a = lo
    · exact .inl edge
    · exact .inr ((same _ (by omega) (by omega)).mp (left.resolve_left edge))
  · by_cases edge : b = hi
    · exact .inl edge
    · exact .inr ((same _ (by omega) (by omega)).mp (right.resolve_left edge))

end

/-- The position belongs to a segment in use, its header included. -/
def InUse (header : Nat) (l : List Segment) (x : Nat) : Prop := ∃ s ∈ used l, s.start ≤ x ∧ x < stop header s

section
variable {header lo hi : Nat} {l : List Segment}

theorem tiles_cover (tiles : Tiles header lo hi l) {x : Nat} (low : lo ≤ x) (high : x < hi) :
    ∃ s ∈ l, s.start ≤ x ∧ x < stop header s := by
  induction l generalizing lo with
  | nil =>
    have ends : lo = hi := tiles
    omega
  | cons s rest ih =>
    have start : s.start = lo := tiles.1
    by_cases here : x < stop header s
    · exact ⟨s,by simp,by omega,here⟩
    · obtain ⟨t,member,inside⟩ := ih tiles.2 (by omega)
      exact ⟨t,by simp [member],inside⟩

/-- A free segment of a canonical tiling is a gap: its neighbours are in use. -/
theorem gap_of_free (positive : 0 < header) (tiles : Tiles header lo hi l) (canonical : Canonical l) {s : Segment}
    (member : s ∈ l) (isFree : s.free = true) : Gap (InUse header l) lo hi s.start (stop header s) := by
  have bounds := (tiles_bounds tiles).2 s member
  have long : s.start < stop header s := by simp only [stop]; omega
  refine ⟨bounds.1,long,bounds.2,?_,?_,?_⟩
  · rintro x above below ⟨t,inside,low,high⟩
    obtain ⟨tMember,tUse⟩ := List.mem_filter.mp inside
    rcases tiles_apart tiles member tMember with rfl | before | after
    · simp [isFree] at tUse
    · omega
    · omega
  all_goals obtain ⟨before,after,rfl⟩ := List.append_of_mem member
  · rcases List.eq_nil_or_concat before with rfl | ⟨first,t,rfl⟩
    · exact .inl tiles.1
    · rw [List.concat_eq_append] at tiles canonical
      obtain ⟨mid,left,right⟩ := tiles_append.mp tiles
      obtain ⟨mid',_,last⟩ := tiles_append.mp left
      have apart := (List.isChain_append.mp canonical).2.2 t (by simp) s (by simp)
      have inUse : t.free = false := by simpa [isFree] using apart
      have ends : stop header t = mid := last.2
      have starts : s.start = mid := right.1
      refine .inr ⟨t,by simp [used,inUse],?_,?_⟩ <;> simp only [stop] at ends ⊢ <;> omega
  · cases after with
    | nil =>
      obtain ⟨mid,_,right⟩ := tiles_append.mp tiles
      exact .inl right.2
    | cons t rest =>
      obtain ⟨mid,_,right⟩ := tiles_append.mp tiles
      have apart := (List.isChain_cons_cons.mp (List.isChain_append.mp canonical).2.1).1
      have inUse : t.free = false := by simpa [isFree] using apart
      have starts : t.start = stop header s := right.2.1
      refine .inr ⟨t,by simp [used,inUse],by omega,?_⟩
      simp only [stop] at starts ⊢
      omega

/-- The gaps of a canonical tiling are its free segments. -/
theorem gap_iff (positive : 0 < header) (tiles : Tiles header lo hi l) (canonical : Canonical l) {a b : Nat} :
    Gap (InUse header l) lo hi a b ↔ ∃ s ∈ l, s.free = true ∧ s.start = a ∧ stop header s = b := by
  constructor
  · intro gap
    have inside : a < hi := Nat.lt_of_lt_of_le gap.nonempty gap.high
    obtain ⟨s,member,low,high⟩ := tiles_cover tiles gap.low inside
    have isFree : s.free = true := by
      by_contra inUse
      exact gap.clear a (Nat.le_refl a) gap.nonempty ⟨s,by simp [used,member,inUse],low,high⟩
    have whole := gap_of_free positive tiles canonical member isFree
    have same := whole.unique gap (Nat.lt_of_le_of_lt low gap.nonempty) high
    exact ⟨s,member,isFree,same⟩
  · rintro ⟨s,member,isFree,rfl,rfl⟩
    exact gap_of_free positive tiles canonical member isFree

end
end NekoOs.Gaps
