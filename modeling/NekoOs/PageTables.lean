import NekoOs.Paging
import NekoOs.Transitions

/-!
The tables below a PML4 form a tree that the two functions extend and change one
leaf at a time. The walk of every address is then the reference map.
-/
namespace NekoOs.PageTables
open ByteMemory PathTree Paging Transitions

/-- Tables are 4 KiB aligned, and those of the pool have 52-bit addresses. -/
structure Layout (pool pml4 : Nat) : Prop where
  pool_aligned : pool % 4096 = 0
  pool_small : pool + sizeof_page_table_pool ≤ 2 ^ 52
  pml4_aligned : pml4 % 4096 = 0

/-- The table at the end of a path from the PML4, with its level. -/
abbrev reach (s : State) (pml4 : Nat) (p : List Index) : Option (Nat × Nat) := follow (slots s.memory) (3,pml4) p

/-- Neither the PML4 nor the pool has the byte. -/
def Outside (pool pml4 b : Nat) : Prop :=
  (b < pml4 ∨ pml4 + 4096 ≤ b) ∧ (b < pool ∨ pool + sizeof_page_table_pool ≤ b)

structure Tables (pool pml4 : Nat) (s : State) : Prop where
  offset : s.pool_offset % 4096 = 0
  room : s.pool_offset ≤ sizeof_page_table_pool
  root : pml4 + 4096 ≤ pool + s.pool_offset ∨ pool + sizeof_page_table_pool ≤ pml4
  separate : Separate (slots s.memory) Prod.snd (3,pml4)
  handed : ∀ h ∈ s.handed_out, (∃ k, h.1 = pool + 4096 * k ∧ 4096 * (k + 1) ≤ s.pool_offset) ∧ ∀ b < 4096, h.2 (h.1 + b) = 0
  from_pool : ∀ p n, reach s pml4 p = some n → p ≠ [] → ∃ h ∈ s.handed_out, h.1 = n.2
  plain : ∀ p level table (i : Index), reach s pml4 p = some (level + 1,table) → present (entry s.memory table i) = true →
    (huge (entry s.memory table i) = true → level = 0) ∧ (huge (entry s.memory table i) = false → entry s.memory table i < 2 ^ 52)

/-- A step that may add tables but changes no walk. -/
structure Extends (pool pml4 : Nat) (s s' : State) : Prop where
  outside : ∀ b, Outside pool pml4 b → s'.memory b = s.memory b
  paths : ∀ p n, reach s pml4 p = some n → reach s' pml4 p = some n
  walks : ∀ word, lookup (slots s'.memory) (3,pml4) word = lookup (slots s.memory) (3,pml4) word

theorem slots_congr {m n : Memory} {node : Nat × Nat} {i : Index} (same : entry m node.2 i = entry n node.2 i) :
    slots m node i = slots n node i := by
  obtain ⟨level,table⟩ := node
  cases level <;> simp only [slots] <;> rw [same]

section
variable {pool pml4 : Nat} {s s' : State} {p : List Index} {level table value : Nat} {i : Index}

theorem Extends.refl (pool pml4 : Nat) (s : State) : Extends pool pml4 s s :=
  ⟨fun _ _ => rfl,fun _ _ reached => reached,fun _ => rfl⟩

theorem Extends.trans {r : State} (first : Extends pool pml4 s r) (second : Extends pool pml4 r s') :
    Extends pool pml4 s s' where
  outside b out := (second.outside b out).trans (first.outside b out)
  paths p n reached := second.paths p n (first.paths p n reached)
  walks word := (second.walks word).trans (first.walks word)

/-- A reached table is the PML4 or one of the tables handed out. -/
theorem Tables.place (tables : Tables pool pml4 s) {n : Nat × Nat} (reached : reach s pml4 p = some n) :
    n.2 = pml4 ∨ ∃ k, n.2 = pool + 4096 * k ∧ 4096 * (k + 1) ≤ s.pool_offset := by
  by_cases root : p = []
  · subst root
    exact .inl (congrArg Prod.snd (Option.some.inj reached)).symm
  · obtain ⟨h,member,same⟩ := tables.from_pool p n reached root
    exact .inr (same ▸ (tables.handed h member).1)

theorem Tables.aligned (layout : Layout pool pml4) (tables : Tables pool pml4 s) {n : Nat × Nat}
    (reached : reach s pml4 p = some n) : n.2 % 4096 = 0 := by
  have poolAligned := layout.pool_aligned
  rcases tables.place reached with same | ⟨k,same,_⟩
  · rw [same,layout.pml4_aligned]
  · omega

/-- The bytes of a reached table are not outside. -/
theorem Tables.not_outside (tables : Tables pool pml4 s) {n : Nat × Nat} (reached : reach s pml4 p = some n) {b : Nat}
    (outside : Outside pool pml4 b) : b < n.2 ∨ n.2 + 4096 ≤ b := by
  have room := tables.room
  obtain ⟨notRoot,notPool⟩ := outside
  rcases tables.place reached with same | ⟨k,same,inside⟩ <;> omega

theorem same_setEntry (layout : Layout pool pml4) (tables : Tables pool pml4 s)
    (here : reach s pml4 p = some (level,table)) (i : Index) (value : Nat) :
    SameExcept (slots s.memory) (slots (s.setEntry table i value).memory) Prod.snd (3,pml4) table i := by
  intro q n j reached different
  apply slots_congr
  refine entry_setEntry_other (tables.aligned layout here) (tables.aligned layout reached) i.isLt j.isLt ?_
  exact different.imp_right (fun other same => other (Fin.ext same))

theorem entry_kept (layout : Layout pool pml4) (tables : Tables pool pml4 s)
    (here : reach s pml4 p = some (level,table)) {q : List Index} {n : Nat × Nat} (reached : reach s pml4 q = some n)
    {j : Index} (different : n.2 ≠ table ∨ j ≠ i) :
    entry (s.setEntry table i value).memory n.2 j = entry s.memory n.2 j :=
  entry_setEntry_other (tables.aligned layout here) (tables.aligned layout reached) i.isLt j.isLt
    (different.imp_right (fun other same => other (Fin.ext same)))

/-- A leaf written into a reached table. -/
theorem put_leaf (layout : Layout pool pml4) (tables : Tables pool pml4 s) (here : reach s pml4 p = some (level,table))
    (i : Index) (small : value < 2 ^ 64) (isPresent : present value = true)
    (isLeaf : level = 0 ∨ level = 1 ∧ huge value = true) :
    Tables pool pml4 (s.setEntry table i value) ∧
      (∀ b, Outside pool pml4 b → (s.setEntry table i value).memory b = s.memory b) ∧
      (∀ word, p ++ [i] <+: word →
        lookup (slots (s.setEntry table i value).memory) (3,pml4) word = some (level,value)) ∧
      ∀ word, ¬p ++ [i] <+: word →
        lookup (slots (s.setEntry table i value).memory) (3,pml4) word = lookup (slots s.memory) (3,pml4) word := by
  have same := same_setEntry layout tables here i value
  have read : entry (s.setEntry table i value).memory table i = value := by
    rw [entry_setEntry_same,Nat.mod_eq_of_lt small]
  have leaf : slots (s.setEntry table i value).memory (level,table) i = .leaf (level,value) := by
    rcases isLeaf with rfl | ⟨rfl,isHuge⟩
    · simp only [slots,read,isPresent,if_true]
    · simp only [slots,read,isPresent,isHuge]
      rfl
  have childless (c : Nat × Nat) : slots (s.setEntry table i value).memory (level,table) i ≠ .child c := by
    rw [leaf]
    intro same
    cases same
  have before {q : List Index} {n : Nat × Nat} (reached : reach (s.setEntry table i value) pml4 q = some n) :
      reach s pml4 q = some n := follow_cut tables.separate here same childless reached
  refine ⟨?_,?_,?_,?_⟩
  · constructor
    · exact tables.offset
    · exact tables.room
    · exact tables.root
    · exact tables.separate.cut here same childless
    · exact tables.handed
    · exact fun q n reached => tables.from_pool q n (before reached)
    · intro q above t j reached isPresent'
      by_cases changed : t = table ∧ j = i
      · -- the table of the leaf has one path, so one level
        obtain ⟨rfl,rfl⟩ := changed
        have path : q = p := tables.separate q p _ _ (before reached) here rfl
        rw [path] at reached
        have sameLevel : above + 1 = level := congrArg Prod.fst (Option.some.inj ((before reached).symm.trans here))
        rw [read]
        rcases isLeaf with rfl | ⟨rfl,isHuge⟩
        · omega
        · exact ⟨fun _ => by omega,fun notHuge => by simp [isHuge] at notHuge⟩
      · have different : t ≠ table ∨ j ≠ i := not_and_or.mp changed
        rw [entry_kept layout tables here (before reached) different] at isPresent' ⊢
        exact tables.plain q above t j (before reached) isPresent'
  · exact fun b outside => setEntry_outside i.isLt (tables.not_outside here outside)
  · exact fun word below => lookup_leaf tables.separate here same leaf below
  · exact fun word apart => (same_apart tables.separate here same apart).2

/-- A table handed out is apart from all tables that are reached. -/
theorem alloc_spec (layout : Layout pool pml4) (tables : Tables pool pml4 s) {fresh : Nat}
    (run : alloc_page_table pool s = .ok (s',fresh)) :
    Tables pool pml4 s' ∧ Extends pool pml4 s s' ∧ (∃ h ∈ s'.handed_out, h.1 = fresh) ∧
      fresh % 4096 = 0 ∧ fresh < 2 ^ 52 ∧ (∀ j : Index, entry s'.memory fresh j = 0) ∧
      (∀ q n, reach s pml4 q = some n → n.2 ≠ fresh ∧ ∀ j : Index, entry s'.memory n.2 j = entry s.memory n.2 j) ∧
      ∀ q, reach s' pml4 q = reach s pml4 q := by
  obtain ⟨poolAligned,poolSmall,rootAligned⟩ := layout
  have layout : Layout pool pml4 := ⟨poolAligned,poolSmall,rootAligned⟩
  obtain ⟨room,rfl,rfl⟩ := alloc_page_table_eq run
  have aligned := tables.offset
  have root := tables.root
  have apart (q : List Index) (n : Nat × Nat) (reached : reach s pml4 q = some n) :
      n.2 + 4096 ≤ pool + s.pool_offset ∨ pool + s.pool_offset + 4096 ≤ n.2 := by
    rcases tables.place reached with same | ⟨k,same,inside⟩ <;> omega
  have kept (q : List Index) (n : Nat × Nat) (reached : reach s pml4 q = some n) (j : Index) :
      entry (fill s.memory (pool + s.pool_offset) 4096 0) n.2 j = entry s.memory n.2 j := by
    have away := apart q n reached
    exact load_fill_disjoint (by have := j.isLt; omega)
  have same (q : List Index) := same_reached (fun q n reached j => slots_congr (kept q n reached j)) q
  refine ⟨?_,?_,?_,?_,?_,?_,?_,?_⟩
  · constructor
    · show (s.pool_offset + 4096) % 4096 = 0
      omega
    · exact room
    · show pml4 + 4096 ≤ pool + (s.pool_offset + 4096) ∨ _
      omega
    · exact tables.separate.same_reached (fun q n reached j => slots_congr (kept q n reached j))
    · intro h member
      rcases List.mem_append.mp member with old | new
      · obtain ⟨⟨k,place,inside⟩,zeroed⟩ := tables.handed h old
        exact ⟨⟨k,place,by show _ ≤ s.pool_offset + 4096; omega⟩,zeroed⟩
      · obtain rfl := List.mem_singleton.mp new
        refine ⟨⟨s.pool_offset / 4096,?_,?_⟩,fun b small => fill_inside (by omega) (by omega)⟩
        · show pool + s.pool_offset = pool + 4096 * (s.pool_offset / 4096)
          omega
        · show 4096 * (s.pool_offset / 4096 + 1) ≤ s.pool_offset + 4096
          omega
    · intro q n reached notRoot
      obtain ⟨h,member,place⟩ := tables.from_pool q n ((same q).1.symm.trans reached) notRoot
      exact ⟨h,List.mem_append_left _ member,place⟩
    · intro q above t j reached isPresent
      have old := (same q).1.symm.trans reached
      rw [kept q _ old j] at isPresent ⊢
      exact tables.plain q above t j old isPresent
  · constructor
    · intro b outside
      exact fill_outside (by have := outside.2; omega)
    · exact fun q n reached => (same q).1.trans reached
    · exact fun word => (same word).2
  · exact ⟨_,List.mem_append_right _ (List.mem_singleton_self _),rfl⟩
  · omega
  · simp only [sizeof_page_table_pool] at *
    omega
  · exact fun j => entry_fill _ _ j.isLt
  · intro q n reached
    have away := apart q n reached
    exact ⟨by omega,kept q n reached⟩
  · exact fun q => (same q).1

/-- A fresh table written into an entry that is not present. -/
theorem put_table (layout : Layout pool pml4) (tables : Tables pool pml4 s)
    (here : reach s pml4 p = some (level + 1,table)) (vacant : present (entry s.memory table i) = false) {fresh : Nat}
    (member : ∃ h ∈ s.handed_out, h.1 = fresh) (aligned : fresh % 4096 = 0) (small : fresh < 2 ^ 52)
    (zero : ∀ j : Index, entry s.memory fresh j = 0) (unreached : ∀ q n, reach s pml4 q = some n → n.2 ≠ fresh) :
    Tables pool pml4 (s.setEntry table i (fresh + 3)) ∧ Extends pool pml4 s (s.setEntry table i (fresh + 3)) ∧
      reach (s.setEntry table i (fresh + 3)) pml4 (p ++ [i]) = some (level,fresh) := by
  have same := same_setEntry layout tables here i (fresh + 3)
  obtain ⟨isPresent,isTable,pointer⟩ := table_entry_bits aligned small
  have fits : fresh + 3 < 2 ^ 64 := by omega
  have read : entry (s.setEntry table i (fresh + 3)).memory table i = fresh + 3 := by
    rw [entry_setEntry_same,Nat.mod_eq_of_lt fits]
  have zero' (j : Index) : entry (s.setEntry table i (fresh + 3)).memory fresh j = 0 := by
    rw [entry_setEntry_other (tables.aligned layout here) aligned i.isLt j.isLt (.inl (unreached p _ here).symm),zero]
  have child : slots (s.setEntry table i (fresh + 3)).memory (level + 1,table) i = .child (level,fresh) := by
    simp only [slots,read,isPresent,isTable,pointer]
    rfl
  have empty (j : Index) : slots (s.setEntry table i (fresh + 3)).memory (level,fresh) j = .empty := by
    cases level <;> simp [slots,zero',present]
  have before : slots s.memory (level + 1,table) i = .empty := by
    simp only [slots,vacant]
    rfl
  refine ⟨?_,?_,follow_child (follow_here tables.separate here same) child⟩
  · constructor
    · exact tables.offset
    · exact tables.room
    · exact tables.root
    · exact tables.separate.attach here same child empty unreached
    · exact tables.handed
    · intro q n reached notRoot
      rcases follow_attach tables.separate here same child empty reached with old | ⟨_,rfl⟩
      · exact tables.from_pool q n old notRoot
      · exact member
    · intro q above t j reached isPresent'
      rcases follow_attach tables.separate here same child empty reached with old | ⟨_,new⟩
      · by_cases changed : t = table ∧ j = i
        · obtain ⟨rfl,rfl⟩ := changed
          rw [read]
          exact ⟨fun isHuge => by simp [isTable] at isHuge,fun _ => by omega⟩
        · rw [entry_kept layout tables here old (not_and_or.mp changed)] at isPresent' ⊢
          exact tables.plain q above t j old isPresent'
      · obtain rfl : t = fresh := congrArg Prod.snd new
        rw [zero'] at isPresent'
        cases isPresent'
  · constructor
    · exact fun b outside => setEntry_outside i.isLt (tables.not_outside here outside)
    · intro q n reached
      by_cases below : p ++ [i] <+: q
      · obtain ⟨rest,rfl⟩ := below
        rw [List.append_assoc] at reached
        obtain ⟨c,found,_⟩ := follow_through here reached
        rw [before] at found
        cases found
      · exact (same_apart tables.separate here same below).1.trans reached
    · exact lookup_attach tables.separate here same child empty before

/-- The next table on the way, which is made if there is none yet. -/
theorem nextTable_spec (layout : Layout pool pml4) (tables : Tables pool pml4 s)
    (here : reach s pml4 p = some (level + 1,table)) {next : Nat}
    (notHuge : present (entry s.memory table i) = true → huge (entry s.memory table i) = false)
    (run : nextTable pool s table i = .ok (s',next)) :
    Tables pool pml4 s' ∧ Extends pool pml4 s s' ∧ reach s' pml4 (p ++ [i]) = some (level,next) := by
  unfold nextTable at run
  by_cases isPresent : present (entry s.memory table i) = true
  · rw [if_pos isPresent,Outcome.bind_ok] at run
    obtain ⟨rfl,rfl⟩ := Prod.mk.inj (Outcome.ok_injective run)
    have small := (tables.plain p level table i here isPresent).2 (notHuge isPresent)
    have pointer := address_eq small
    refine ⟨tables,Extends.refl pool pml4 s,follow_child here ?_⟩
    simp only [slots,isPresent,notHuge isPresent,pointer]
    rfl
  · rw [if_neg isPresent] at run
    obtain ⟨⟨s₁,fresh⟩,handed,written⟩ := Outcome.bind_eq_ok.mp run
    obtain ⟨rfl,rfl⟩ := Prod.mk.inj (Outcome.ok_injective written)
    obtain ⟨tables₁,extends₁,member,aligned,small,zero,others,reach₁⟩ := alloc_spec layout tables handed
    have here₁ : reach s₁ pml4 p = some (level + 1,table) := (reach₁ p).trans here
    have vacant : present (entry s₁.memory table i) = false := by
      rw [(others p _ here).2 i]
      exact Bool.not_eq_true _ ▸ isPresent
    obtain ⟨tables',extends',reached⟩ := put_table layout tables₁ here₁ vacant member aligned small zero
      (fun q n reached => (others q n ((reach₁ q).symm.trans reached)).1)
    have fits : fresh + 3 < 2 ^ 64 := by omega
    have pointer : (fresh + 3) / 2 ^ 12 * 2 ^ 12 = fresh := by omega
    rw [table_entry aligned,entry_setEntry_same,Nat.mod_eq_of_lt fits,pointer]
    exact ⟨tables',extends₁.trans extends',reached⟩

/-- Above the page directories no entry is huge. -/
theorem Tables.upper (tables : Tables pool pml4 s) (here : reach s pml4 p = some (level + 2,table)) (i : Index)
    (isPresent : present (entry s.memory table i) = true) : huge (entry s.memory table i) = false := by
  cases isHuge : huge (entry s.memory table i) with
  | false => rfl
  | true =>
    have := (tables.plain p (level + 1) table i here isPresent).1 isHuge
    omega

/-! ### What a call does -/

/-- The page-directory entry for an address is a huge page. -/
def HugeSlot (m : Memory) (pml4 virt : Nat) : Prop := (walk m pml4 virt).map Translation.size = some (2 ^ 21)

instance (m : Memory) (pml4 virt : Nat) : Decidable (HugeSlot m pml4 virt) := inferInstanceAs (Decidable (_ = _))

theorem hugeSlot_iff {m : Memory} {a : Nat} : HugeSlot m pml4 a ↔ ∃ e, leaf m pml4 a = some (1,e) := by
  rw [HugeSlot,walk_eq_leaf]
  cases found : leaf m pml4 a with
  | none => simp
  | some l =>
    obtain ⟨level,e⟩ := l
    constructor
    · intro size
      have exponent : 12 + 9 * level = 21 := Nat.pow_right_injective (by decide : 2 ≤ 2) (Option.some.inj size)
      obtain rfl : level = 1 := by omega
      exact ⟨e,rfl⟩
    · rintro ⟨_,same⟩
      obtain ⟨rfl,rfl⟩ := Prod.mk.inj (Option.some.inj same)
      rfl

theorem Extends.leaf (grown : Extends pool pml4 s s') (a : Nat) : leaf s'.memory pml4 a = leaf s.memory pml4 a :=
  grown.walks (indices a)

/-- The addresses that a call covers share the indices down to its leaf. -/
theorem covers_iff (c : Call) (a : Nat) : c.Covers a ↔ (indices c.virt).take (4 - c.level) <+: indices a := by
  cases c with
  | map_page_4kb virt phys flags =>
    simp only [Call.Covers,Call.level,Call.virt,indices,pageSize,index,List.take_succ_cons,List.take_zero,
      List.cons_prefix_cons,List.nil_prefix,Fin.mk.injEq,and_true,Nat.reduceMul,Nat.reduceAdd,Nat.reduceSub,Nat.reducePow]
    omega
  | map_page_2mb virt phys flags =>
    simp only [Call.Covers,Call.level,Call.virt,indices,pageSize,index,List.take_succ_cons,List.take_zero,
      List.cons_prefix_cons,List.nil_prefix,Fin.mk.injEq,and_true,Nat.reduceMul,Nat.reduceAdd,Nat.reduceSub,Nat.reducePow]
    omega

/-- What a call of either function leaves behind. -/
structure Mapped (pool pml4 : Nat) (s : State) (c : Call) (s' : State) : Prop where
  tables : Tables pool pml4 s'
  outside : ∀ b, Outside pool pml4 b → s'.memory b = s.memory b
  covered : ∀ a, c.Covers a → leaf s'.memory pml4 a = some (c.level,c.stored)
  others : ∀ a, ¬c.Covers a → leaf s'.memory pml4 a = leaf s.memory pml4 a
  way : ∃ table, reach s' pml4 ((indices c.virt).take (3 - c.level)) = some (c.level,table)

/-- The last write of a call, at the end of the way to its leaf. -/
theorem mapped_leaf (layout : Layout pool pml4) {c : Call} (fits : c.Fits) {s₁ : State} (tables : Tables pool pml4 s₁)
    (grown : Extends pool pml4 s s₁) (here : reach s₁ pml4 p = some (c.level,table))
    (path : p = (indices c.virt).take (3 - c.level)) (way : p ++ [i] = (indices c.virt).take (4 - c.level))
    (isLeaf : c.level = 0 ∨ c.level = 1 ∧ huge c.stored = true) :
    Mapped pool pml4 s c (s₁.setEntry table i c.stored) := by
  obtain ⟨tables',outside,covered,others⟩ :=
    put_leaf layout tables here i (Call.stored_lt fits) (Call.stored_present c) isLeaf
  rw [way] at covered others
  constructor
  · exact tables'
  · exact fun b out => (outside b out).trans (grown.outside b out)
  · exact fun a covers => covered _ ((covers_iff c a).mp covers)
  · intro a apart
    rw [← grown.leaf]
    exact others _ (fun below => apart ((covers_iff c a).mpr below))
  · rw [← path]
    exact ⟨table,follow_here tables.separate here (same_setEntry layout tables here i c.stored)⟩

theorem map_page_2mb_spec (layout : Layout pool pml4) (tables : Tables pool pml4 s) {virt phys flags : Nat}
    (fits : (Call.map_page_2mb virt phys flags).Fits) (run : map_page_2mb pool s pml4 virt phys flags = .ok s') :
    Mapped pool pml4 s (.map_page_2mb virt phys flags) s' := by
  obtain ⟨⟨s₁,pdpt⟩,first,run⟩ := Outcome.bind_eq_ok.mp run
  obtain ⟨⟨s₂,pd⟩,second,run⟩ := Outcome.bind_eq_ok.mp run
  obtain rfl := Outcome.ok_injective run
  have root : reach s pml4 [] = some (3,pml4) := rfl
  obtain ⟨tables₁,extends₁,here₁⟩ := @nextTable_spec _ _ _ _ _ _ _ (index 3 virt) layout tables root _
    (tables.upper root _) first
  obtain ⟨tables₂,extends₂,here₂⟩ := @nextTable_spec _ _ _ _ _ _ _ (index 2 virt) layout tables₁ here₁ _
    (tables₁.upper here₁ _) second
  exact @mapped_leaf _ _ _ _ _ (index 1 virt) layout _ fits _ tables₂ (extends₁.trans extends₂) here₂ rfl rfl
    (.inr ⟨rfl,Call.stored_huge virt phys flags⟩)

theorem map_page_4kb_spec (layout : Layout pool pml4) (tables : Tables pool pml4 s) {virt phys flags : Nat}
    (fits : (Call.map_page_4kb virt phys flags).Fits) (notHuge : ¬HugeSlot s.memory pml4 virt)
    (run : map_page_4kb pool s pml4 virt phys flags = .ok s') :
    Mapped pool pml4 s (.map_page_4kb virt phys flags) s' := by
  obtain ⟨⟨s₁,pdpt⟩,first,run⟩ := Outcome.bind_eq_ok.mp run
  obtain ⟨⟨s₂,pd⟩,second,run⟩ := Outcome.bind_eq_ok.mp run
  obtain ⟨⟨s₃,pt⟩,third,run⟩ := Outcome.bind_eq_ok.mp run
  obtain rfl := Outcome.ok_injective run
  have root : reach s pml4 [] = some (3,pml4) := rfl
  obtain ⟨tables₁,extends₁,here₁⟩ := @nextTable_spec _ _ _ _ _ _ _ (index 3 virt) layout tables root _
    (tables.upper root _) first
  obtain ⟨tables₂,extends₂,here₂⟩ := @nextTable_spec _ _ _ _ _ _ _ (index 2 virt) layout tables₁ here₁ _
    (tables₁.upper here₁ _) second
  have small (isPresent : present (entry s₂.memory pd (index 1 virt)) = true) :
      huge (entry s₂.memory pd (index 1 virt)) = false := by
    cases isHuge : huge (entry s₂.memory pd (index 1 virt)) with
    | false => rfl
    | true =>
      -- the walk of `virt` would end at this entry
      have ends : leaf s₂.memory pml4 virt = some (1,entry s₂.memory pd (index 1 virt)) := by
        refine (lookup_append [index 1 virt,index 0 virt] here₂).trans ?_
        rw [lookup_table,isPresent,isHuge]
        rfl
      exact absurd (hugeSlot_iff.mpr ⟨_,((extends₁.trans extends₂).leaf virt).symm.trans ends⟩) notHuge
  obtain ⟨tables₃,extends₃,here₃⟩ := @nextTable_spec _ _ _ _ _ _ _ (index 1 virt) layout tables₂ here₂ _ small third
  exact @mapped_leaf _ _ _ _ _ (index 0 virt) layout _ fits _ tables₃
    ((extends₁.trans extends₂).trans extends₃) here₃ rfl rfl
    (.inl rfl)

/-! ### Room in the pool -/

theorem nextTable_room (idx : Nat) (room : s.pool_offset + 4096 ≤ sizeof_page_table_pool) :
    ∃ s' next, nextTable pool s table idx = .ok (s',next) ∧ s'.pool_offset ≤ s.pool_offset + 4096 := by
  have notFull : ¬s.pool_offset + sizeof_page_table > sizeof_page_table_pool := Nat.not_lt.mpr room
  unfold nextTable
  by_cases isPresent : present (entry s.memory table idx) = true
  · rw [if_pos isPresent]
    exact ⟨_,_,rfl,Nat.le_add_right _ _⟩
  · rw [if_neg isPresent,alloc_page_table,if_neg notFull]
    exact ⟨_,_,rfl,Nat.le_refl _⟩

/-- A call needs at most three tables. -/
theorem exec_room (c : Call) (room : s.pool_offset + 3 * 4096 ≤ sizeof_page_table_pool) :
    ∃ s', c.exec pool pml4 s = .ok s' ∧ s'.pool_offset ≤ s.pool_offset + 3 * 4096 := by
  obtain ⟨s₁,pdpt,first,room₁⟩ := @nextTable_room pool s pml4 (c.virt / 2 ^ 39 % 512) (by omega)
  obtain ⟨s₂,pd,second,room₂⟩ := @nextTable_room pool s₁ pdpt (c.virt / 2 ^ 30 % 512) (by omega)
  cases c with
  | map_page_4kb virt phys flags =>
    obtain ⟨s₃,pt,third,room₃⟩ := @nextTable_room pool s₂ pd (virt / 2 ^ 21 % 512) (by omega)
    refine ⟨s₃.setEntry pt (virt / 2 ^ 12 % 512) (Call.map_page_4kb virt phys flags).stored,?_,?_⟩
    · simp only [Call.exec,map_page_4kb,Call.virt] at *
      rw [first,Outcome.bind_ok,second,Outcome.bind_ok,third,Outcome.bind_ok]
      rfl
    · show s₃.pool_offset ≤ _
      omega
  | map_page_2mb virt phys flags =>
    refine ⟨s₂.setEntry pd (virt / 2 ^ 21 % 512) (Call.map_page_2mb virt phys flags).stored,?_,?_⟩
    · simp only [Call.exec,map_page_2mb,Call.virt] at *
      rw [first,Outcome.bind_ok,second,Outcome.bind_ok]
      rfl
    · show s₂.pool_offset ≤ _
      omega

theorem nextTable_present {idx : Nat} (isPresent : present (entry s.memory table idx) = true) :
    nextTable pool s table idx = .ok (s,entry s.memory table idx / 2 ^ 12 * 2 ^ 12) := by
  rw [nextTable,if_pos isPresent]
  rfl

/-- A table that is there is found. -/
theorem nextTable_child (tables : Tables pool pml4 s) (here : reach s pml4 p = some (level + 1,table)) {c : Nat × Nat}
    (child : slots s.memory (level + 1,table) i = .child c) : c.1 = level ∧ nextTable pool s table i = .ok (s,c.2) := by
  simp only [slots] at child
  split at child
  · cases child
  · rename_i isPresent
    rw [Bool.not_eq_true,Bool.not_eq_false'] at isPresent
    split at child
    · split at child <;> cases child
    · rename_i isTable
      obtain rfl := Slot.child.inj child
      have below := (tables.plain p level table i here isPresent).2 (by rwa [Bool.not_eq_true] at isTable)
      exact ⟨rfl,by rw [nextTable_present isPresent,address_eq below]⟩

/-- The pool lasts up to an offset for 2 MiB pages in the GiB of an address. -/
def Lasts (pml4 : Nat) (s : State) (virt stop : Nat) : Prop :=
  s.pool_offset + 2 * 4096 ≤ stop ∨
    s.pool_offset ≤ stop ∧ ∃ pd, reach s pml4 [index 3 virt,index 2 virt] = some (1,pd)

/-- A 2 MiB page in a GiB with a page directory needs no table, and two otherwise. -/
theorem large_lasts (layout : Layout pool pml4) (tables : Tables pool pml4 s) {virt phys flags stop : Nat}
    (fits : (Call.map_page_2mb virt phys flags).Fits) (inside : stop ≤ sizeof_page_table_pool)
    (lasts : Lasts pml4 s virt stop) :
    ∃ s', map_page_2mb pool s pml4 virt phys flags = .ok s' ∧ Mapped pool pml4 s (.map_page_2mb virt phys flags) s' ∧
      Lasts pml4 s' virt stop := by
  have done {s' : State} (run : map_page_2mb pool s pml4 virt phys flags = .ok s') (offset : s'.pool_offset ≤ stop) :
      ∃ s', map_page_2mb pool s pml4 virt phys flags = .ok s' ∧ Mapped pool pml4 s (.map_page_2mb virt phys flags) s' ∧
        Lasts pml4 s' virt stop := by
    have mapped := map_page_2mb_spec layout tables fits run
    exact ⟨s',run,mapped,.inr ⟨offset,mapped.way⟩⟩
  rcases lasts with room | ⟨offset,pd,found⟩
  · obtain ⟨s₁,pdpt,first,room₁⟩ := @nextTable_room pool s pml4 (virt / 2 ^ 39 % 512) (by omega)
    obtain ⟨s₂,pd,second,room₂⟩ := @nextTable_room pool s₁ pdpt (virt / 2 ^ 30 % 512) (by omega)
    refine @done (s₂.setEntry pd (virt / 2 ^ 21 % 512) (Call.map_page_2mb virt phys flags).stored) ?_ ?_
    · simp only [map_page_2mb]
      rw [first,Outcome.bind_ok,second,Outcome.bind_ok]
      rfl
    · show s₂.pool_offset ≤ _
      omega
  · have root : reach s pml4 [] = some (3,pml4) := rfl
    obtain ⟨⟨above,pdpt⟩,child₃,further⟩ := follow_through root found
    obtain ⟨rfl,first⟩ := nextTable_child tables root child₃
    have here₃ : reach s pml4 ([] ++ [index 3 virt]) = some (2,pdpt) := follow_child root child₃
    obtain ⟨c,child₂,ends⟩ := @follow_through _ _ _ _ _ _ _ (index 2 virt) [] _ here₃ found
    obtain rfl := Option.some.inj ends
    obtain ⟨_,second⟩ := nextTable_child tables here₃ child₂
    refine @done (s.setEntry pd (virt / 2 ^ 21 % 512) (Call.map_page_2mb virt phys flags).stored) ?_ offset
    show (nextTable pool s pml4 (index 3 virt) >>= _) = _
    rw [first,Outcome.bind_ok]
    show (nextTable pool s pdpt (index 2 virt) >>= _) = _
    rw [second,Outcome.bind_ok]
    rfl

/-! ### Runs -/

/-- Calls on an empty PML4 and an empty pool, where no 4 KiB page is put into a
    slot that holds a huge page. -/
def mapping (pool pml4 : Nat) : System State Call where
  initial s := s.pool_offset = 0 ∧ s.handed_out = [] ∧ (∀ b < 4096, s.memory (pml4 + b) = 0) ∧
    (pml4 + 4096 ≤ pool ∨ pool + sizeof_page_table_pool ≤ pml4)
  step s c s' := c.Fits ∧ (c.level = 0 → ¬HugeSlot s.memory pml4 c.virt) ∧ c.exec pool pml4 s = .ok s'

theorem step_mapped (layout : Layout pool pml4) (tables : Tables pool pml4 s) {c : Call}
    (step : (mapping pool pml4).step s c s') : Mapped pool pml4 s c s' := by
  obtain ⟨fits,notHuge,run⟩ := step
  cases c with
  | map_page_4kb virt phys flags => exact map_page_4kb_spec layout tables fits (notHuge rfl) run
  | map_page_2mb virt phys flags => exact map_page_2mb_spec layout tables fits run

/-- After a run the last call that covers an address has given its leaf. -/
theorem run_mapped (layout : Layout pool pml4) (tables : Tables pool pml4 s) {calls : List Call}
    (run : (mapping pool pml4).Run s calls s') :
    Tables pool pml4 s' ∧ (∀ b, Outside pool pml4 b → s'.memory b = s.memory b) ∧
      ∀ a, leaf s'.memory pml4 a = ((lastCall calls a).map (fun c => (c.level,c.stored))).or
        (leaf s.memory pml4 a) := by
  induction run with
  | refl s => exact ⟨tables,fun _ _ => rfl,fun _ => rfl⟩
  | @cons s t r c rest step later ih =>
    have mapped := step_mapped layout tables step
    obtain ⟨tables',outside,leaves⟩ := ih mapped.tables
    refine ⟨tables',fun b out => (outside b out).trans (mapped.outside b out),fun a => ?_⟩
    rw [leaves,lastCall_cons]
    cases lastCall rest a with
    | some last => simp only [Option.map_some,Option.some_or]
    | none =>
      by_cases covers : c.Covers a
      · simp only [mapped.covered a covers,if_pos covers,Option.none_or,Option.map_none,Option.map_some,Option.some_or]
      · simp only [mapped.others a covers,if_neg covers,Option.none_or,Option.map_none]

/-- A PML4 of zeros is a tree without leaves. -/
theorem zero_tables (zero : ∀ i : Index, entry s.memory pml4 i = 0) (offset : s.pool_offset % 4096 = 0)
    (room : s.pool_offset ≤ sizeof_page_table_pool)
    (root : pml4 + 4096 ≤ pool + s.pool_offset ∨ pool + sizeof_page_table_pool ≤ pml4)
    (handed : ∀ h ∈ s.handed_out, (∃ k, h.1 = pool + 4096 * k ∧ 4096 * (k + 1) ≤ s.pool_offset) ∧
      ∀ b < 4096, h.2 (h.1 + b) = 0) : Tables pool pml4 s ∧ ∀ a, leaf s.memory pml4 a = none := by
  have empty (i : Index) : slots s.memory (3,pml4) i = .empty := by
    simp [slots,zero,present]
  have rootOnly (p : List Index) (n : Nat × Nat) (reached : reach s pml4 p = some n) : p = [] := by
    cases p with
    | nil => rfl
    | cons i p => simp [follow,empty] at reached
  constructor
  · constructor
    · exact offset
    · exact room
    · exact root
    · exact fun p q m n left right _ => (rootOnly p m left).trans (rootOnly q n right).symm
    · exact handed
    · exact fun p n reached notRoot => absurd (rootOnly p n reached) notRoot
    · intro p level table i reached isPresent
      obtain rfl := rootOnly p _ reached
      obtain rfl : pml4 = table := congrArg Prod.snd (Option.some.inj reached)
      rw [zero] at isPresent
      cases isPresent
  · intro a
    rw [leaf,indices,lookup,empty]

theorem initial_tables (start : (mapping pool pml4).initial s) :
    Tables pool pml4 s ∧ ∀ a, leaf s.memory pml4 a = none := by
  obtain ⟨offset,noneHanded,zeroed,apart⟩ := start
  apply zero_tables
  · intro i
    have same : entry s.memory pml4 i = entry (fill s.memory pml4 4096 0) pml4 i := by
      apply entry_congr i.isLt
      intro b low high
      rw [fill_inside low high,← zeroed (b - pml4) (by omega),Nat.add_sub_cancel' low]
    rw [same,entry_fill s.memory pml4 i.isLt]
  · rw [offset]
  · rw [offset]
    exact Nat.zero_le _
  · omega
  · simp [noneHanded]

/-- Who owns the tables below a PML4. -/
structure Owned (pool pml4 : Nat) (s : State) : Prop where
  one_path : ∀ p q m n, reach s pml4 p = some m → reach s pml4 q = some n → m.2 = n.2 → p = q
  aligned : ∀ p n, reach s pml4 p = some n → n.2 % 4096 = 0
  in_pool : ∀ p n, reach s pml4 p = some n → p ≠ [] → pool ≤ n.2 ∧ n.2 + 4096 ≤ pool + sizeof_page_table_pool
  zeroed : ∀ p n, reach s pml4 p = some n → p ≠ [] → ∃ memory, (n.2,memory) ∈ s.handed_out ∧ ∀ b < 4096, memory (n.2 + b) = 0

theorem Tables.owned (layout : Layout pool pml4) (tables : Tables pool pml4 s) : Owned pool pml4 s := by
  constructor
  · exact tables.separate
  · exact fun p n reached => tables.aligned layout reached
  · intro p n reached notRoot
    obtain ⟨h,member,same⟩ := tables.from_pool p n reached notRoot
    obtain ⟨⟨k,place,inside⟩,_⟩ := tables.handed h member
    have room := tables.room
    omega
  · intro p n reached notRoot
    obtain ⟨h,member,same⟩ := tables.from_pool p n reached notRoot
    exact ⟨h.2,same ▸ member,same ▸ (tables.handed h member).2⟩

end

/-- After every run of valid calls, the walk of the hardware is the reference map,
    the tables form a tree in the pool, and nothing else has been written. -/
theorem tables_refine_map {pool pml4 : Nat} (layout : Layout pool pml4) {s₀ s : State} {calls : List Call}
    (start : (mapping pool pml4).initial s₀)
    (run : ((mapping pool pml4).restrict (fun _ c => c.Valid)).Run s₀ calls s) :
    (∀ a, walk s.memory pml4 a = reference calls a) ∧ Owned pool pml4 s ∧
      ∀ b, Outside pool pml4 b → s.memory b = s₀.memory b := by
  have valid : ∀ c ∈ calls, c.Valid := by
    clear start
    induction run with
    | refl => simp
    | cons step _ ih => exact List.forall_mem_cons.mpr ⟨step.1,ih⟩
  obtain ⟨tables₀,noLeaf⟩ := initial_tables start
  obtain ⟨tables,outside,leaves⟩ := run_mapped layout tables₀ run.unrestricted
  refine ⟨fun a => ?_,tables.owned layout,outside⟩
  rw [walk_eq_leaf,leaves,noLeaf,Option.or_none,reference]
  cases found : lastCall calls a with
  | none => rfl
  | some c => exact congrArg some (Call.translation_stored (valid c (lastCall_mem found).1))

private def blank : State := ⟨fun _ => 0,0,[]⟩

/-- A 2 MiB page replaces the page table of a 4 KiB page. -/
theorem tables_refine_map_two :
    ∃ s : State, walk s.memory 0x1000 0x5678 = some ⟨0x200000,PAGE_PRESENT ||| PAGE_WRITABLE,2 ^ 21⟩ := by
  have layout : Layout 0x100000 0x1000 := ⟨by decide,by decide,by decide⟩
  have start : (mapping 0x100000 0x1000).initial blank := ⟨rfl,rfl,fun _ _ => rfl,by decide⟩
  obtain ⟨s₁,first,room₁⟩ := @exec_room 0x100000 0x1000 blank (.map_page_4kb 0x5000 0x9000 PAGE_WRITABLE) (by decide)
  have room : s₁.pool_offset + 3 * 4096 ≤ sizeof_page_table_pool :=
    Nat.le_trans (Nat.add_le_add_right room₁ _) (by decide)
  obtain ⟨s₂,second,_⟩ := @exec_room 0x100000 0x1000 s₁ (.map_page_2mb 0 0x200000 PAGE_WRITABLE) room
  have notHuge : ¬HugeSlot blank.memory 0x1000 0x5000 := by
    rw [hugeSlot_iff,(initial_tables start).2]
    simp
  have step₁ : ((mapping 0x100000 0x1000).restrict (fun _ c => c.Valid)).step blank
      (.map_page_4kb 0x5000 0x9000 PAGE_WRITABLE) s₁ :=
        ⟨⟨by decide,by decide⟩,⟨by decide,by decide⟩,fun _ => notHuge,first⟩
  have step₂ : ((mapping 0x100000 0x1000).restrict (fun _ c => c.Valid)).step s₁
      (.map_page_2mb 0 0x200000 PAGE_WRITABLE) s₂ :=
    ⟨⟨by decide,by decide⟩,⟨by decide,by decide⟩,(fun level => absurd level (by decide)),second⟩
  have map := (tables_refine_map layout start (.cons step₁ (.cons step₂ (.refl s₂)))).1 0x5678
  have last : reference [.map_page_4kb 0x5000 0x9000 PAGE_WRITABLE,.map_page_2mb 0 0x200000 PAGE_WRITABLE] 0x5678 =
      some ⟨0x200000,PAGE_PRESENT ||| PAGE_WRITABLE,2 ^ 21⟩ := by decide +kernel
  exact ⟨s₂,map.trans last⟩

end NekoOs.PageTables
