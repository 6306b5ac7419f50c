import Mathlib.Data.List.Chain
import Mathlib.Data.List.Pairwise
import Mathlib.Data.List.Nodup

/-!
A region cut into consecutive segments. A segment is a header of fixed width and
the content after it, and is free or in use. A tiling without two adjacent free
segments is determined by its segments in use, and merging adjacent free
segments leads to it.
-/
namespace NekoOs.Tiling

/-- A header at `start` followed by `size` units of content. -/
structure Segment where
  start : Nat
  size : Nat
  free : Bool
deriving DecidableEq, Repr

section
variable (header : Nat)

/-- The first position after a segment. -/
def stop (s : Segment) : Nat := s.start + header + s.size

/-- The segments cover `[lo, hi)` one after the other. -/
def Tiles : Nat → Nat → List Segment → Prop
  | lo, hi, [] => lo = hi
  | lo, hi, s :: rest => s.start = lo ∧ Tiles (stop header s) hi rest

/-- Repeatedly absorb a free segment into a free one before it. -/
def merge : List Segment → List Segment
  | [] => []
  | [s] => [s]
  | s :: t :: rest =>
    if s.free && t.free then merge ({ s with size := s.size + (header + t.size) } :: rest)
    else s :: merge (t :: rest)
termination_by l => l.length

end

/-- No two adjacent segments are both free. -/
def Canonical (l : List Segment) : Prop := l.IsChain (fun s t => ¬ (s.free = true ∧ t.free = true))

/-- The segments in use, in order. -/
def used (l : List Segment) : List Segment := l.filter (fun s => !s.free)

section
variable {header : Nat}

theorem tiles_bounds {lo hi : Nat} {l : List Segment} (tiles : Tiles header lo hi l) :
    lo ≤ hi ∧ ∀ s ∈ l, lo ≤ s.start ∧ stop header s ≤ hi := by
  induction l generalizing lo with
  | nil => exact ⟨Nat.le_of_eq tiles,by simp⟩
  | cons s rest ih =>
    obtain ⟨first,later⟩ := tiles
    obtain ⟨below,inside⟩ := ih later
    simp only [stop] at below inside ⊢
    refine ⟨by omega,?_⟩
    intro t member
    rcases List.mem_cons.mp member with rfl | member
    · omega
    · have := inside t member; omega

/-- Later segments start after earlier ones stop. -/
theorem tiles_pairwise {lo hi : Nat} {l : List Segment} (tiles : Tiles header lo hi l) :
    l.Pairwise (fun s t => stop header s ≤ t.start) := by
  induction l generalizing lo with
  | nil => exact .nil
  | cons s rest ih => exact .cons (fun t member => ((tiles_bounds tiles.2).2 t member).1) (ih tiles.2)

theorem tiles_length {lo hi : Nat} {l : List Segment} (tiles : Tiles header lo hi l) :
    lo + header * l.length ≤ hi := by
  induction l generalizing lo with
  | nil =>
    have ends : lo = hi := tiles
    simp [ends]
  | cons s rest ih =>
    have later := ih tiles.2
    have first : s.start = lo := tiles.1
    simp only [stop] at later
    rw [List.length_cons,Nat.mul_succ]
    omega

theorem tiles_append {lo hi : Nat} {l r : List Segment} :
    Tiles header lo hi (l ++ r) ↔ ∃ mid, Tiles header lo mid l ∧ Tiles header mid hi r := by
  induction l generalizing lo with
  | nil => simp [Tiles]
  | cons s rest ih => simp [Tiles,ih,and_assoc]

/-- Two segments of a tiling are the same or apart. -/
theorem tiles_apart {lo hi : Nat} {l : List Segment} (tiles : Tiles header lo hi l) {s t : Segment}
    (left : s ∈ l) (right : t ∈ l) : s = t ∨ stop header s ≤ t.start ∨ stop header t ≤ s.start := by
  induction l generalizing lo with
  | nil => cases left
  | cons first rest ih =>
    have later := (tiles_bounds tiles.2).2
    rcases List.mem_cons.mp left with rfl | leftLater
    · rcases List.mem_cons.mp right with rfl | rightLater
      · exact .inl rfl
      · exact .inr (.inl (later t rightLater).1)
    · rcases List.mem_cons.mp right with rfl | rightLater
      · exact .inr (.inr (later s leftLater).1)
      · exact ih tiles.2 leftLater rightLater

section
variable (positive : 0 < header)
include positive

/-- A position starts at most one segment of a tiling. -/
theorem tiles_start_inj {lo hi : Nat} {l : List Segment} (tiles : Tiles header lo hi l) {s t : Segment}
    (left : s ∈ l) (right : t ∈ l) (same : s.start = t.start) : s = t := by
  rcases tiles_apart tiles left right with equal | apart | apart
  · exact equal
  all_goals simp only [stop] at apart; omega

theorem tiles_nodup {lo hi : Nat} {l : List Segment} (tiles : Tiles header lo hi l) :
    (l.map Segment.start).Nodup := by
  rw [List.Nodup,List.pairwise_map]
  refine (tiles_pairwise tiles).imp ?_
  intro s t apart same
  simp only [stop] at apart
  omega

private theorem head_used_start {lo mid hi : Nat} {s t : Segment} {l r : List Segment}
    (left : Tiles header lo hi (s :: l)) (right : Tiles header lo mid (t :: r)) (within : s ∈ used (t :: r)) :
    s = t := by
  have member : s ∈ t :: r := (List.mem_filter.mp within).1
  exact tiles_start_inj positive right member (by simp) (left.1.trans right.1.symm)

omit positive in
/-- After a free head comes a segment in use or the end, so no free head of a
    tiling with the same segments in use stops later. -/
private theorem free_head_stop_le {lo hi : Nat} {s t : Segment} {l r : List Segment}
    (left : Tiles header lo hi (s :: l)) (right : Tiles header lo hi (t :: r)) (canonical : Canonical (s :: l))
    (leftFree : s.free = true) (rightFree : t.free = true)
    (subset : ∀ u, u ∈ used (s :: l) → u ∈ used (t :: r)) : stop header t ≤ stop header s := by
  cases l with
  | nil =>
    have ends : stop header s = hi := left.2
    exact ends ▸ ((tiles_bounds right).2 t (by simp)).2
  | cons u l =>
    have inUse : u.free = false := by
      have := (List.isChain_cons_cons.mp canonical).1
      simpa [leftFree] using this
    have member : u ∈ t :: r := (List.mem_filter.mp (subset u (by simp [used,inUse]))).1
    rcases List.mem_cons.mp member with same | later
    · simp [same,rightFree] at inUse
    · have below := ((tiles_bounds right.2).2 u later).1
      have first : u.start = stop header s := left.2.1
      omega

private theorem heads_determined {lo hi : Nat} {s t : Segment} {l r : List Segment}
    (left : Tiles header lo hi (s :: l)) (right : Tiles header lo hi (t :: r))
    (leftCanonical : Canonical (s :: l)) (rightCanonical : Canonical (t :: r))
    (same : ∀ u, u ∈ used (s :: l) ↔ u ∈ used (t :: r)) : s = t := by
  cases leftUse : s.free with
  | false => exact head_used_start positive left right ((same s).mp (by simp [used,leftUse]))
  | true =>
    cases rightUse : t.free with
    | false => exact (head_used_start positive right left ((same t).mpr (by simp [used,rightUse]))).symm
    | true =>
      have starts : s.start = t.start := left.1.trans right.1.symm
      have stops : stop header s = stop header t := Nat.le_antisymm
        (free_head_stop_le right left rightCanonical rightUse leftUse (fun u => (same u).mpr))
        (free_head_stop_le left right leftCanonical leftUse rightUse (fun u => (same u).mp))
      cases s; cases t
      simp only [stop] at starts stops leftUse rightUse
      simp only [Segment.mk.injEq]
      exact ⟨starts,by omega,leftUse.trans rightUse.symm⟩

private theorem head_not_in_tail {lo hi : Nat} {s : Segment} {l : List Segment}
    (tiles : Tiles header lo hi (s :: l)) : s ∉ used l := by
  intro member
  have nodup := tiles_nodup positive tiles
  rw [List.map_cons,List.nodup_cons] at nodup
  exact nodup.1 (List.mem_map_of_mem (List.mem_filter.mp member).1)

private theorem tails_same {lo hi : Nat} {s : Segment} {l r : List Segment}
    (left : Tiles header lo hi (s :: l)) (right : Tiles header lo hi (s :: r))
    (same : ∀ u, u ∈ used (s :: l) ↔ u ∈ used (s :: r)) (u : Segment) : u ∈ used l ↔ u ∈ used r := by
  by_cases isHead : u = s
  · subst isHead
    exact iff_of_false (head_not_in_tail positive left) (head_not_in_tail positive right)
  · have whole := same u
    cases inUse : s.free <;> simpa [used,List.filter_cons,inUse,isHead] using whole

/-- Two canonical tilings of one region with the same segments in use are equal. -/
theorem tiles_determined {lo hi : Nat} {l r : List Segment} (left : Tiles header lo hi l)
    (right : Tiles header lo hi r) (leftCanonical : Canonical l) (rightCanonical : Canonical r)
    (same : ∀ s, s ∈ used l ↔ s ∈ used r) : l = r := by
  induction l generalizing lo r with
  | nil =>
    cases r with
    | nil => rfl
    | cons t r =>
      have inside := (tiles_bounds right).2 t (by simp)
      have empty : lo = hi := left
      simp only [stop] at inside
      omega
  | cons s l ih =>
    cases r with
    | nil =>
      have inside := (tiles_bounds left).2 s (by simp)
      have empty : lo = hi := right
      simp only [stop] at inside
      omega
    | cons t r =>
      obtain rfl := heads_determined positive left right leftCanonical rightCanonical same
      have tails := ih left.2 right.2 (List.IsChain.tail leftCanonical) (List.IsChain.tail rightCanonical)
        (tails_same positive left right same)
      rw [tails]

end

theorem merge_nil : merge header [] = [] := by rw [merge]
theorem merge_single (s : Segment) : merge header [s] = [s] := by rw [merge]

theorem merge_absorb {s t : Segment} {rest : List Segment} (free : s.free = true ∧ t.free = true) :
    merge header (s :: t :: rest) = merge header ({ s with size := s.size + (header + t.size) } :: rest) := by
  rw [merge,if_pos (by simp [free])]

theorem merge_advance {s t : Segment} {rest : List Segment} (apart : ¬ (s.free = true ∧ t.free = true)) :
    merge header (s :: t :: rest) = s :: merge header (t :: rest) := by
  rw [merge,if_neg (by simpa using apart)]

theorem merge_tiles {lo hi : Nat} {l : List Segment} (tiles : Tiles header lo hi l) :
    Tiles header lo hi (merge header l) := by
  induction l using merge.induct header generalizing lo with
  | case1 => rwa [merge_nil]
  | case2 s => rwa [merge_single]
  | case3 s t rest free ih =>
    rw [merge_absorb (by simpa using free)]
    apply ih
    obtain ⟨first,second,later⟩ := tiles
    refine ⟨first,?_⟩
    have stops : stop header { s with size := s.size + (header + t.size) } = stop header t := by
      simp only [stop] at second ⊢
      omega
    exact stops ▸ later
  | case4 s t rest apart ih =>
    rw [merge_advance (by simpa using apart)]
    exact ⟨tiles.1,ih tiles.2⟩

/-- Merging keeps the head segment's start and status. -/
theorem merge_head (s : Segment) (rest : List Segment) :
    ∃ size tail, merge header (s :: rest) = { s with size := size } :: tail := by
  induction rest generalizing s with
  | nil => exact ⟨s.size,[],merge_single s⟩
  | cons t rest ih =>
    by_cases free : s.free = true ∧ t.free = true
    · rw [merge_absorb free]
      exact ih { s with size := s.size + (header + t.size) }
    · exact ⟨s.size,_,merge_advance free⟩

theorem merge_canonical (l : List Segment) : Canonical (merge header l) := by
  induction l using merge.induct header with
  | case1 => rw [merge_nil]; exact .nil
  | case2 s => rw [merge_single]; exact .singleton s
  | case3 s t rest free ih => rwa [merge_absorb (by simpa using free)]
  | case4 s t rest apart ih =>
    have apart' : ¬ (s.free = true ∧ t.free = true) := by simpa using apart
    rw [merge_advance apart']
    obtain ⟨size,tail,shape⟩ := @merge_head header t rest
    rw [shape] at ih ⊢
    exact List.isChain_cons_cons.mpr ⟨apart',ih⟩

theorem merge_used (l : List Segment) : used (merge header l) = used l := by
  induction l using merge.induct header with
  | case1 => rw [merge_nil]
  | case2 s => rw [merge_single]
  | case3 s t rest free ih =>
    have both : s.free = true ∧ t.free = true := by simpa using free
    rw [merge_absorb both,ih]
    simp [used,both]
  | case4 s t rest apart ih =>
    rw [merge_advance (by simpa using apart)]
    simp only [used,List.filter_cons] at ih ⊢
    rw [ih]

/-- Every segment after merging starts where one with its status started before. -/
theorem merge_origin {l : List Segment} {s : Segment} (member : s ∈ merge header l) :
    ∃ t ∈ l, t.start = s.start ∧ t.free = s.free := by
  induction l using merge.induct header with
  | case1 => rw [merge_nil] at member; cases member
  | case2 t => rw [merge_single] at member; exact ⟨s,member,rfl,rfl⟩
  | case3 u t rest free ih =>
    rw [merge_absorb (by simpa using free)] at member
    obtain ⟨v,vMember,same⟩ := ih member
    rcases List.mem_cons.mp vMember with rfl | later
    · exact ⟨u,by simp,same⟩
    · exact ⟨v,by simp [later],same⟩
  | case4 u t rest apart ih =>
    rw [merge_advance (by simpa using apart)] at member
    rcases List.mem_cons.mp member with rfl | later
    · exact ⟨s,by simp,rfl,rfl⟩
    · obtain ⟨v,vMember,same⟩ := ih later
      exact ⟨v,List.mem_cons_of_mem _ vMember,same⟩

theorem merge_starts {l : List Segment} {s : Segment} (member : s ∈ merge header l) :
    ∃ t ∈ l, t.start = s.start := by
  obtain ⟨t,inside,same,_⟩ := merge_origin member
  exact ⟨t,inside,same⟩

end
end NekoOs.Tiling
