import NekoOs.Alloc
import NekoOs.Tiling

/-!
The heap as a tiling. The headers from `g_heap_start` on spell a list of
segments; `kmalloc` is first fit with splitting on that list, and `kfree` is a
release followed by one merging pass. Neither writes a byte of a segment in use
other than its header.
-/
namespace NekoOs.HeapModel
open ByteMemory Words Tiling Alloc
set_option linter.unusedSimpArgs false

/-- The header in memory of one segment. -/
def HeaderAt (m : Memory) (s : Segment) : Prop :=
  magic m s.start = HEAP_MAGIC ∧ size m s.start = s.size ∧ free m s.start = s.free

/-- The list of headers from `a` on spells the segments and ends with `NULL`. -/
def Chain (m : Memory) : Nat → List Segment → Prop
  | a, [] => a = 0
  | a, s :: rest => a ≠ 0 ∧ s.start = a ∧ HeaderAt m s ∧ Chain m (next m a) rest

/-- A free segment taken for a request, split when the rest can hold a header
    and eight bytes. -/
def carve (request : Nat) (s : Segment) : List Segment :=
  if request + 40 ≤ s.size then
    [⟨s.start,request,false⟩,⟨s.start + 32 + request,s.size - request - 32,true⟩]
  else [{ s with free := false }]

/-- The first free segment that is large enough is carved; its start is returned. -/
def firstFit (request : Nat) : List Segment → Option (List Segment × Nat)
  | [] => none
  | s :: rest =>
    if s.free && request ≤ s.size then some (carve request s ++ rest,s.start)
    else (firstFit request rest).map (fun r => (s :: r.1,r.2))

/-- The segment that starts at `a` becomes free. -/
def release (a : Nat) (l : List Segment) : List Segment :=
  l.map (fun s => if s.start = a then { s with free := true } else s)

/-- Bytes outside one segment are the same. -/
def KeepsOutside (s : Segment) (m m' : Memory) : Prop := ∀ x, x < s.start ∨ stop 32 s ≤ x → m' x = m x

/-- Bytes outside the free segments of `l` are the same. -/
def KeepsUsed (l : List Segment) (m m' : Memory) : Prop :=
  ∀ x, (∀ s ∈ l, s.free = true → x < s.start ∨ stop 32 s ≤ x) → m' x = m x

/-- Bytes outside the fields `size` and `next` of the headers of `l` are the same. -/
def KeepsLinks (l : List Segment) (m m' : Memory) : Prop :=
  ∀ x, (∀ s ∈ l, x < s.start + 8 ∨ s.start + 24 ≤ x) → m' x = m x

/-- Bytes outside the headers of `l` are the same. -/
def KeepsContent (l : List Segment) (m m' : Memory) : Prop :=
  ∀ x, (∀ s ∈ l, x < s.start ∨ s.start + 32 ≤ x) → m' x = m x

theorem headerAt_congr {m m' : Memory} {s : Segment} (header : HeaderAt m s)
    (same : ∀ x, s.start ≤ x → x < s.start + 32 → m' x = m x) : HeaderAt m' s := by
  obtain ⟨isMagic,isSize,isFree⟩ := header
  exact ⟨(magic_congr same).trans isMagic,(size_congr same).trans isSize,(free_congr same).trans isFree⟩

/-- A chain depends on the headers of its segments only. -/
theorem chain_congr {m m' : Memory} {a : Nat} {l : List Segment} (chain : Chain m a l)
    (same : ∀ s ∈ l, ∀ x, s.start ≤ x → x < s.start + 32 → m' x = m x) : Chain m' a l := by
  induction l generalizing a with
  | nil => exact chain
  | cons s rest ih =>
    obtain ⟨nonzero,start,header,later⟩ := chain
    have head := same s (by simp)
    refine ⟨nonzero,start,headerAt_congr header head,?_⟩
    rw [← start,next_congr head,start]
    exact ih later (fun t member => same t (by simp [member]))

theorem chain_header {m : Memory} {a : Nat} {l : List Segment} (chain : Chain m a l) {s : Segment} (member : s ∈ l) :
    HeaderAt m s := by
  induction l generalizing a with
  | nil => cases member
  | cons t rest ih =>
    rcases List.mem_cons.mp member with rfl | later
    · exact chain.2.2.1
    · exact ih chain.2.2.2 later

theorem chain_start {m : Memory} {a : Nat} {s : Segment} {rest : List Segment} (chain : Chain m a (s :: rest)) :
    s.start = a := chain.2.1

/-- The headers of a carved segment lie within the segment. -/
theorem KeepsContent.keepsOutside {m m' : Memory} {s : Segment} {request : Nat} (enough : request ≤ s.size)
    (keeps : KeepsContent (carve request s) m m') : KeepsOutside s m m' := by
  intro x outside
  refine keeps x (fun t member => ?_)
  unfold carve at member
  simp only [stop] at outside
  by_cases splits : request + 40 ≤ s.size
  · rw [if_pos splits] at member
    simp only [List.mem_cons,List.not_mem_nil,or_false] at member
    rcases member with rfl | rfl <;> simp only <;> omega
  · rw [if_neg splits,List.mem_singleton] at member
    subst member
    simp only
    omega

theorem KeepsOutside.keepsUsed {m m' : Memory} {s : Segment} {l : List Segment} (keeps : KeepsOutside s m m')
    (member : s ∈ l) (isFree : s.free = true) : KeepsUsed l m m' :=
  fun x outside => keeps x (outside s member isFree)

/-! ### Taking a block -/

section
variable {m : Memory} {a request : Nat}

/-- The writes of `takeBlock` where no address wraps. -/
theorem takeBlock_eq (low : 4096 ≤ a) (top : a + 32 + size m a ≤ limit64) (enough : request ≤ size m a) :
    takeBlock m a request =
      if request + 40 ≤ size m a then
        setFree (setNext (setSize (setFree (setNext (setSize (setMagic m (a + 32 + request) HEAP_MAGIC)
          (a + 32 + request) (size m a - request - 32)) (a + 32 + request) (next m a))
          (a + 32 + request) true) a request) a (a + 32 + request)) a false
      else setFree m a false := by
  have sum : add64 (add64 request sizeof_heap_block) 8 = request + 40 := by
    rw [sizeof_heap_block,add64_eq (x := request) (by omega),add64_eq (by omega)]
  unfold takeBlock
  rw [sum]
  by_cases splits : request + 40 ≤ size m a
  · have place : add64 (add64 a sizeof_heap_block) request = a + 32 + request := by
      rw [sizeof_heap_block,add64_eq (x := a) (by omega),add64_eq (by omega)]
    have rest : sub64 (sub64 (size m a) request) sizeof_heap_block = size m a - request - 32 := by
      have bound : size m a < limit64 := size_lt
      rw [sizeof_heap_block,sub64_eq enough bound,sub64_eq (by omega) (by omega)]
    have sameSize : size (setMagic m (a + 32 + request) HEAP_MAGIC) a = size m a :=
      size_congr (fun x _ _ => setMagic_outside (by omega))
    have sameNext (v : Nat) : next (setSize (setMagic m (a + 32 + request) HEAP_MAGIC) (a + 32 + request) v) a = next
        m a :=
      next_congr (fun x _ _ => by rw [setSize_outside (by omega),setMagic_outside (by omega)])
    simp only [splits,if_true,place,rest,sameSize,sameNext]
  · simp only [splits,if_false]

/-- Only the headers of the carved block are written. -/
theorem takeBlock_content {s : Segment} (isSize : size m s.start = s.size) (low : 4096 ≤ s.start)
    (top : s.start + 32 + s.size ≤ limit64) (enough : request ≤ s.size) :
    KeepsContent (carve request s) m (takeBlock m s.start request) := by
  intro x outside
  rw [takeBlock_eq low (by omega) (by omega),isSize]
  unfold carve at outside
  by_cases splits : request + 40 ≤ s.size
  · rw [if_pos splits] at outside ⊢
    have first := outside _ List.mem_cons_self
    have second := outside _ (List.mem_cons_of_mem _ List.mem_cons_self)
    simp only at first second
    rw [setFree_outside first,setNext_outside first,setSize_outside first,setFree_outside second,
      setNext_outside second,setSize_outside second,setMagic_outside second]
  · rw [if_neg splits] at outside ⊢
    exact setFree_outside (outside { s with free := false } List.mem_cons_self)

theorem takeBlock_chain {s : Segment} {rest : List Segment} {hi : Nat} (chain : Chain m a (s :: rest))
    (tiles : Tiles 32 a hi (s :: rest)) (low : 4096 ≤ a) (high : hi ≤ limit64) (enough : request ≤ s.size) :
    Chain (takeBlock m a request) a (carve request s ++ rest) := by
  obtain ⟨nonzero,start,⟨isMagic,isSize,_⟩,later⟩ := chain
  subst start
  have after := tiles_bounds tiles.2
  simp only [stop] at after
  have top : s.start + 32 + size m s.start ≤ limit64 := by rw [isSize]; omega
  have kept : Chain (takeBlock m s.start request) (next m s.start) rest := by
    refine chain_congr later ?_
    intro t member x above _
    have := (after.2 t member).1
    refine (takeBlock_content isSize low (by omega) enough).keepsOutside enough x (.inr ?_)
    simp only [stop]
    omega
  have nextFits : next m s.start < limit64 := next_lt
  rw [takeBlock_eq low top (by omega)] at kept ⊢
  rw [isSize] at kept ⊢
  unfold carve
  by_cases splits : request + 40 ≤ s.size
  · simp only [splits,if_true,List.cons_append,List.nil_append] at kept ⊢
    set fresh := s.start + 32 + request with freshIs
    -- The new header lies in the content of the old block, apart from its header.
    set inner := setFree (setNext (setSize (setMagic m fresh HEAP_MAGIC) fresh (s.size - request - 32)) fresh
      (next m s.start)) fresh true with innerIs
    have oldHeader : ∀ x, s.start ≤ x → x < s.start + 32 → inner x = m x := by
      intro x _ _
      rw [innerIs,setFree_outside (by omega),setNext_outside (by omega),setSize_outside (by omega),
        setMagic_outside (by omega)]
    have newHeader : ∀ x, fresh ≤ x → x < fresh + 32 →
        setFree (setNext (setSize inner s.start request) s.start fresh) s.start false x = inner x := by
      intro x _ _
      rw [setFree_outside (by omega),setNext_outside (by omega),setSize_outside (by omega)]
    have innerMagic : magic inner fresh = HEAP_MAGIC := by simp [innerIs]
    have innerSize : size inner fresh = s.size - request - 32 := by
      simp only [innerIs,size_setFree,size_setNext]
      exact size_setSize (by omega)
    have innerNext : next inner fresh = next m s.start := by
      simp only [innerIs,next_setFree]
      exact next_setNext nextFits
    refine ⟨nonzero,rfl,⟨?_,?_,by simp⟩,?_⟩
    · simp only [magic_setFree,magic_setNext,magic_setSize]
      exact (magic_congr oldHeader).trans isMagic
    · simp only [size_setFree,size_setNext]
      exact size_setSize (by omega)
    · rw [next_setFree,next_setNext (by omega)]
      refine ⟨by omega,rfl,headerAt_congr ⟨innerMagic,innerSize,by simp [innerIs]⟩ newHeader,?_⟩
      rw [next_congr newHeader,innerNext]
      exact kept
  · simp only [splits,if_false,List.cons_append,List.nil_append] at kept ⊢
    refine ⟨nonzero,rfl,⟨?_,?_,by simp⟩,?_⟩
    · simpa using isMagic
    · simpa using isSize
    · rw [next_setFree]
      exact kept

end

/-! ### Freeing -/

theorem absorbNext_outside {m : Memory} {a x : Nat} (outside : x < a + 8 ∨ a + 24 ≤ x) : absorbNext m a x = m x := by
  unfold absorbNext
  rw [setNext,store_outside (by omega),setSize,store_outside (by omega)]

/-- Absorbing the next header makes one segment of two. -/
theorem absorbNext_chain {m : Memory} {a hi : Nat} {s t : Segment} {rest : List Segment}
    (chain : Chain m a (s :: t :: rest)) (tiles : Tiles 32 a hi (s :: t :: rest)) (high : hi ≤ limit64) :
    Chain (absorbNext m a) a ({ s with size := s.size + (32 + t.size) } :: rest) := by
  obtain ⟨nonzero,start,⟨isMagic,isSize,isFree⟩,_,tStart,⟨_,tSize,_⟩,later⟩ := chain
  subst start
  have place : t.start = s.start + 32 + s.size := tiles.2.1
  have after := tiles_bounds tiles.2.2
  simp only [stop] at after
  have sum : add64 (size m s.start) (add64 sizeof_heap_block (size m (next m s.start))) = s.size + (32 + t.size) := by
    rw [isSize,← tStart,tSize,sizeof_heap_block,add64_eq (x := 32) (by omega),add64_eq (by omega)]
  -- The header of the absorbed block is read after the size of `a` is written.
  have tHeader : next (setSize m s.start (s.size + (32 + t.size))) (next m s.start) = next m (next m s.start) :=
    next_congr (fun x _ _ => setSize_outside (by omega))
  unfold absorbNext
  simp only [sum,next_setSize,tHeader]
  refine ⟨nonzero,rfl,⟨?_,?_,?_⟩,?_⟩
  · simpa using isMagic
  · rw [size_setNext]
    exact size_setSize (by omega)
  · simpa using isFree
  · rw [next_setNext next_lt]
    refine chain_congr later ?_
    intro u member x _ _
    have := (after.2 u member).1
    rw [setNext_outside (by omega),setSize_outside (by omega)]

/-- The coalescing pass merges the list and writes sizes and links of its headers only. -/
theorem kfree_loop_spec {m : Memory} {a hi fuel : Nat} {l : List Segment} (chain : Chain m a l)
    (tiles : Tiles 32 a hi l) (high : hi ≤ limit64) (enough : l.length < fuel) :
    ∃ m', kfree_loop fuel m a = .ok m' ∧ Chain m' a (merge 32 l) ∧ KeepsLinks (merge 32 l) m m' := by
  induction l using merge.induct 32 generalizing m a fuel with
  | case1 =>
    obtain ⟨fuel,rfl⟩ : ∃ k, fuel = k + 1 := ⟨fuel - 1,by omega⟩
    have ends : a = 0 := chain
    exact ⟨m,by simp [kfree_loop,ends],by rw [merge_nil]; exact chain,fun _ _ => rfl⟩
  | case2 s =>
    obtain ⟨fuel,rfl⟩ : ∃ k, fuel = k + 2 := ⟨fuel - 2,by simp at enough; omega⟩
    have ends : next m a = 0 := chain.2.2.2
    exact ⟨m,by simp [kfree_loop,ends,chain.1],by rw [merge_single]; exact chain,fun _ _ => rfl⟩
  | case3 s t rest test ih =>
    obtain ⟨fuel,rfl⟩ : ∃ k, fuel = k + 1 := ⟨fuel - 1,by omega⟩
    have both : s.free = true ∧ t.free = true := by simpa using test
    have absorbed := absorbNext_chain chain tiles high
    have merged : Tiles 32 a hi ({ s with size := s.size + (32 + t.size) } :: rest) := by
      obtain ⟨first,second,after⟩ := tiles
      have stops : stop 32 { s with size := s.size + (32 + t.size) } = stop 32 t := by
        simp only [stop] at second ⊢
        omega
      exact ⟨first,stops ▸ after⟩
    obtain ⟨nonzero,start,⟨_,_,isFree⟩,nextNonzero,tStart,⟨_,_,tFree⟩,_⟩ := chain
    have short : ({ s with size := s.size + (32 + t.size) } :: rest).length < fuel := by simp at enough ⊢; omega
    obtain ⟨m',executed,chain',keeps⟩ := ih absorbed merged short
    refine ⟨m',?_,by rw [merge_absorb both]; exact chain',?_⟩
    · rw [kfree_loop]
      have headFree : Alloc.free m a = true := by rw [← start,isFree,both.1]
      have nextFree : Alloc.free m (next m a) = true := by rw [← tStart,tFree,both.2]
      simp [nonzero,headFree,nextFree,nextNonzero,executed]
    · rw [merge_absorb both]
      intro x outside
      obtain ⟨size,tail,shape⟩ := @merge_head 32 { s with size := s.size + (32 + t.size) } rest
      have head := outside _ (by rw [shape]; exact List.mem_cons_self)
      simp only [start] at head
      rw [keeps x outside]
      exact absorbNext_outside head
  | case4 s t rest apart ih =>
    obtain ⟨fuel,rfl⟩ : ∃ k, fuel = k + 1 := ⟨fuel - 1,by omega⟩
    have apart' : ¬ (s.free = true ∧ t.free = true) := by simpa using apart
    obtain ⟨nonzero,start,⟨isMagic,isSize,isFree⟩,later⟩ := chain
    have tHeader := later
    obtain ⟨nextNonzero,tStart,⟨_,_,tFree⟩,_⟩ := tHeader
    have after := tiles_bounds tiles.2
    simp only [stop] at after
    have tailTiles : Tiles 32 (next m a) hi (t :: rest) := ⟨tStart,tiles.2.2⟩
    have short : (t :: rest).length < fuel := by simp at enough ⊢; omega
    obtain ⟨m',executed,chain',keeps⟩ := ih later tailTiles short
    have head : ∀ x, s.start ≤ x → x < s.start + 32 → m' x = m x := by
      intro x _ _
      refine keeps x (fun u member => .inl ?_)
      obtain ⟨v,vMember,same⟩ := merge_starts member
      have := (after.2 v vMember).1
      omega
    have keepsAll : KeepsLinks (merge 32 (s :: t :: rest)) m m' := by
      rw [merge_advance apart']
      exact fun x outside => keeps x (fun u member => outside u (by simp [member]))
    refine ⟨m',?_,?_,keepsAll⟩
    · rw [kfree_loop]
      have test : (free m a && next m a != 0 && free m (next m a)) = false := by
        rw [← start,isFree,start,← tStart,tFree]
        cases sFree : s.free <;> cases tFree' : t.free <;> simp_all
      simp [nonzero,test,executed]
    · rw [merge_advance apart']
      refine ⟨nonzero,start,headerAt_congr ⟨isMagic,isSize,isFree⟩ head,?_⟩
      rw [← start,next_congr head,start]
      exact chain'

/-! ### First fit and release on the list of segments -/

/-- What first fit does: the first segment that is free and large enough is carved. -/
theorem firstFit_some {request p : Nat} {l after : List Segment} (found : firstFit request l = some (after,p)) :
    ∃ before s rest, l = before ++ s :: rest ∧ s.free = true ∧ request ≤ s.size ∧ p = s.start ∧
      (∀ t ∈ before, t.free = true → t.size < request) ∧ after = before ++ (carve request s ++ rest) := by
  induction l generalizing after with
  | nil => simp [firstFit] at found
  | cons s rest ih =>
    rw [firstFit] at found
    by_cases fits : (s.free && decide (request ≤ s.size)) = true
    · rw [if_pos fits] at found
      simp only [Option.some.injEq,Prod.mk.injEq] at found
      simp only [Bool.and_eq_true,decide_eq_true_eq] at fits
      exact ⟨[],s,rest,rfl,fits.1,fits.2,found.2.symm,by simp,found.1.symm⟩
    · rw [if_neg fits,Option.map_eq_some_iff] at found
      obtain ⟨⟨tail,q⟩,inner,same⟩ := found
      simp only [Prod.mk.injEq] at same
      obtain ⟨rfl,rfl⟩ := same
      obtain ⟨before,t,post,split,free,enough,place,none,result⟩ := ih inner
      refine ⟨s :: before,t,post,by rw [split]; rfl,free,enough,place,?_,by rw [result]; rfl⟩
      intro u member isFree
      rcases List.mem_cons.mp member with rfl | later
      · simp [isFree] at fits
        exact fits
      · exact none u later isFree

theorem firstFit_none {request : Nat} {l : List Segment} (missing : firstFit request l = none) :
    ∀ s ∈ l, s.free = true → s.size < request := by
  induction l with
  | nil => simp
  | cons s rest ih =>
    rw [firstFit] at missing
    by_cases fits : (s.free && decide (request ≤ s.size)) = true
    · simp [fits] at missing
    · rw [if_neg fits,Option.map_eq_none_iff] at missing
      intro t member isFree
      rcases List.mem_cons.mp member with rfl | later
      · simp [isFree] at fits
        exact fits
      · exact ih missing t later isFree

/-- The segment in use that a carved segment begins with. -/
def taken (request : Nat) (s : Segment) : Segment :=
  ⟨s.start,if request + 40 ≤ s.size then request else s.size,false⟩

theorem carve_head (request : Nat) (s : Segment) : ∃ rest, carve request s = taken request s :: rest ∧
    ∀ t ∈ rest, t.free = true ∧ t.start = s.start + 32 + request ∧ request + 40 ≤ s.size ∧
      t.size = s.size - request - 32 := by
  unfold carve taken
  by_cases splits : request + 40 ≤ s.size <;> simp [splits]

theorem carve_tiles {request hi : Nat} {s : Segment} {rest : List Segment} (tiles : Tiles 32 s.start hi (s :: rest)) :
    Tiles 32 s.start hi (carve request s ++ rest) := by
  unfold carve
  by_cases splits : request + 40 ≤ s.size
  · simp only [splits,if_true,List.cons_append,List.nil_append]
    refine ⟨rfl,rfl,?_⟩
    have stops : stop 32 ⟨s.start + 32 + request,s.size - request - 32,true⟩ = stop 32 s := by
      simp only [stop]
      omega
    exact stops ▸ tiles.2
  · simp only [splits,if_false,List.cons_append,List.nil_append]
    exact ⟨rfl,tiles.2⟩

theorem firstFit_tiles {request p lo hi : Nat} {l after : List Segment} (tiles : Tiles 32 lo hi l)
    (found : firstFit request l = some (after,p)) : Tiles 32 lo hi after := by
  obtain ⟨before,s,rest,rfl,_,_,_,_,rfl⟩ := firstFit_some found
  obtain ⟨mid,left,right⟩ := tiles_append.mp tiles
  have start : s.start = mid := right.1
  exact tiles_append.mpr ⟨mid,left,start ▸ carve_tiles (start ▸ right)⟩

/-- A split leaves a free remainder before what followed the free block, which
    is in use or the end. -/
theorem firstFit_canonical {request p : Nat} {l after : List Segment} (canonical : Canonical l)
    (found : firstFit request l = some (after,p)) : Canonical after := by
  obtain ⟨before,s,rest,rfl,free,_,_,_,rfl⟩ := firstFit_some found
  obtain ⟨left,right,joint⟩ := List.isChain_append.mp canonical
  have tail : Canonical rest := List.IsChain.tail right
  have inUse : ∀ t ∈ rest.head?, t.free = false := by
    intro t first
    have apart := (List.isChain_cons.mp right).1 t first
    simpa [free] using apart
  refine List.isChain_append.mpr ⟨left,?_,?_⟩
  · unfold carve
    by_cases splits : request + 40 ≤ s.size
    · simp only [splits,if_true,List.cons_append,List.nil_append]
      refine List.isChain_cons_cons.mpr ⟨by simp,List.isChain_cons.mpr ⟨?_,tail⟩⟩
      intro t first
      simp [inUse t first]
    · simp only [splits,if_false,List.cons_append,List.nil_append]
      exact List.isChain_cons.mpr ⟨by simp,tail⟩
  · intro t last u first
    obtain ⟨more,shape,_⟩ := carve_head request s
    rw [shape] at first
    simp only [List.cons_append,List.head?_cons,Option.mem_def,Option.some.injEq] at first
    subst first
    simp [taken]

theorem firstFit_used {request p : Nat} {l after : List Segment} (found : firstFit request l = some (after,p)) :
    ∃ s ∈ l, s.free = true ∧ request ≤ s.size ∧ p = s.start ∧
      ∀ u, u ∈ used after ↔ u ∈ used l ∨ u = taken request s := by
  obtain ⟨before,s,rest,rfl,free,enough,place,_,rfl⟩ := firstFit_some found
  refine ⟨s,by simp,free,enough,place,?_⟩
  obtain ⟨more,shape,freeRest⟩ := carve_head request s
  have noUse : more.filter (fun t => !t.free) = [] := by
    rw [List.filter_eq_nil_iff]
    intro t member
    simp [(freeRest t member).1]
  intro u
  rw [shape]
  simp only [used,List.cons_append,List.filter_append,List.filter_cons,noUse,List.nil_append,free,List.mem_append]
  simp [taken]
  tauto

/-- Every segment after first fit starts where one did, or behind the new block. -/
theorem firstFit_starts {request p : Nat} {l after : List Segment} (found : firstFit request l = some (after,p)) :
    ∀ u ∈ after, (∃ t ∈ l, t.start = u.start) ∨
      ∃ s ∈ l, u.start = s.start + 32 + request ∧ request + 40 ≤ s.size := by
  obtain ⟨before,s,rest,rfl,_,_,_,_,rfl⟩ := firstFit_some found
  obtain ⟨more,shape,freeRest⟩ := carve_head request s
  intro u member
  rw [shape] at member
  rcases List.mem_append.mp member with left | right
  · exact .inl ⟨u,by simp [left],rfl⟩
  · rcases List.mem_cons.mp right with rfl | later
    · exact .inl ⟨s,by simp,rfl⟩
    · rcases List.mem_append.mp later with fresh | old
      · obtain ⟨_,start,room,_⟩ := freeRest u fresh
        exact .inr ⟨s,by simp,start,room⟩
      · exact .inl ⟨u,by simp [old],rfl⟩

theorem release_tiles {p lo hi : Nat} {l : List Segment} (tiles : Tiles 32 lo hi l) :
    Tiles 32 lo hi (release p l) := by
  induction l generalizing lo with
  | nil => exact tiles
  | cons s rest ih =>
    have tail := ih tiles.2
    by_cases here : s.start = p
    · subst here
      simp only [release,List.map_cons,if_true] at tail ⊢
      exact ⟨tiles.1,tail⟩
    · simp only [release,List.map_cons,here,if_false] at tail ⊢
      exact ⟨tiles.1,tail⟩

theorem release_used {p : Nat} {l : List Segment} (u : Segment) :
    u ∈ used (release p l) ↔ u ∈ used l ∧ u.start ≠ p := by
  simp only [used,release,List.mem_filter,List.mem_map]
  constructor
  · rintro ⟨⟨s,member,rfl⟩,inUse⟩
    by_cases here : s.start = p
    · simp [here] at inUse
    · simp only [here,if_false] at inUse ⊢
      exact ⟨⟨member,inUse⟩,here⟩
  · rintro ⟨⟨member,inUse⟩,elsewhere⟩
    exact ⟨⟨u,member,by simp [elsewhere]⟩,inUse⟩

theorem release_starts {p : Nat} {l : List Segment} {u : Segment} (member : u ∈ release p l) :
    ∃ t ∈ l, t.start = u.start := by
  obtain ⟨t,inside,rfl⟩ := List.mem_map.mp member
  refine ⟨t,inside,?_⟩
  split <;> rfl

/-- Setting the flag of one header of the chain releases its segment. -/
theorem release_chain {m : Memory} {p a : Nat} {l : List Segment} (chain : Chain m a l)
    (apart : ∀ s ∈ l, s.start = p ∨ s.start + 32 ≤ p ∨ p + 32 ≤ s.start) :
    Chain (setFree m p true) a (release p l) := by
  induction l generalizing a with
  | nil => exact chain
  | cons s rest ih =>
    obtain ⟨nonzero,start,header,later⟩ := chain
    subst start
    have tail := ih later (fun t member => apart t (by simp [member]))
    by_cases here : s.start = p
    · subst here
      obtain ⟨isMagic,isSize,_⟩ := header
      simp only [release,List.map_cons,if_true] at tail ⊢
      exact ⟨nonzero,rfl,⟨by simpa using isMagic,by simpa using isSize,by simp⟩,by simpa using tail⟩
    · have same : ∀ x, s.start ≤ x → x < s.start + 32 → setFree m p true x = m x := by
        intro x _ _
        have := apart s (by simp)
        exact setFree_outside (by omega)
      simp only [release,List.map_cons,here,if_false] at tail ⊢
      refine ⟨nonzero,rfl,headerAt_congr header same,?_⟩
      rw [next_congr same]
      exact tail

/-- The headers after a release and a merge are headers of before. -/
theorem KeepsLinks.released {m m' : Memory} {l : List Segment} {s : Segment} (member : s ∈ l)
    (keeps : KeepsLinks (merge 32 (release s.start l)) (setFree m s.start true) m') : KeepsContent l m m' := by
  intro x outside
  rw [keeps x ?_,setFree_outside (outside s member)]
  intro t inside
  obtain ⟨u,uMember,first⟩ := merge_starts inside
  obtain ⟨v,vMember,second⟩ := release_starts uMember
  have := outside v vMember
  omega

/-! ### The walk of `kmalloc` -/

/-- The walk of `kmalloc` returns the carved list of first fit, or leaves the
    memory when no free segment is large enough. -/
theorem kmalloc_loop_spec {m : Memory} {a hi request fuel : Nat} {l : List Segment} (chain : Chain m a l)
    (tiles : Tiles 32 a hi l) (low : 4096 ≤ a) (high : hi ≤ limit64) (enough : l.length < fuel) :
    match firstFit request l with
    | none => kmalloc_loop request fuel m a = .ok (m,0)
    | some (after,p) => kmalloc_loop request fuel m a = .ok (takeBlock m p request,add64 p 32) ∧
        Chain (takeBlock m p request) a after := by
  induction l generalizing a fuel with
  | nil =>
    obtain ⟨fuel,rfl⟩ : ∃ k, fuel = k + 1 := ⟨fuel - 1,by omega⟩
    have ends : a = 0 := chain
    omega
  | cons s rest ih =>
    obtain ⟨fuel,rfl⟩ : ∃ k, fuel = k + 1 := ⟨fuel - 1,by omega⟩
    have whole := chain
    obtain ⟨nonzero,start,⟨isMagic,isSize,isFree⟩,later⟩ := chain
    subst start
    have after := tiles_bounds tiles.2
    simp only [stop] at after
    rw [firstFit,kmalloc_loop]
    simp only [nonzero,if_false,isFree,isSize]
    by_cases fits : (s.free && decide (request ≤ s.size)) = true
    · simp only [fits,if_true]
      have enough' : request ≤ s.size := by simp at fits; exact fits.2
      exact ⟨rfl,takeBlock_chain whole tiles low high enough'⟩
    · simp only [fits,Bool.false_eq_true,if_false]
      cases rest with
      | nil =>
        have ends : next m s.start = 0 := later
        obtain ⟨k,rfl⟩ : ∃ k, fuel = k + 1 := ⟨fuel - 1,by simp at enough; omega⟩
        simp [firstFit,ends,kmalloc_loop]
      | cons t rest =>
        have tStart : t.start = next m s.start := chain_start later
        have place : t.start = s.start + 32 + s.size := tiles.2.1
        have short : (t :: rest).length < fuel := by simp at enough ⊢; omega
        have tail := ih later (by rw [← tStart]; exact ⟨rfl,tiles.2.2⟩) (by omega) short
        cases found : firstFit request (t :: rest) with
        | none =>
          rw [found] at tail
          exact tail
        | some result =>
          obtain ⟨list,p⟩ := result
          rw [found] at tail
          obtain ⟨executed,chain'⟩ := tail
          -- the block that is taken comes after the head
          obtain ⟨b,bMember,_,enough,rfl,_⟩ := firstFit_used found
          have bounds := after.2 b bMember
          have head : ∀ x, s.start ≤ x → x < s.start + 32 → takeBlock m b.start request x = m x := by
            have keeps := takeBlock_content (chain_header later bMember).2.1 (by omega) (by omega) enough
            exact fun x _ _ => keeps.keepsOutside enough x (.inl (by omega))
          refine ⟨executed,nonzero,rfl,headerAt_congr ⟨isMagic,isSize,isFree⟩ head,?_⟩
          rw [next_congr head]
          exact chain'

/-! ### The allocator's operations -/

/-- A region the boot code may hand to `kalloc_init`. -/
structure Region (start total : Nat) : Prop where
  nonzero : start ≠ 0
  aligned : start % 4096 = 0
  header : sizeof_heap_block ≤ total
  fits : start + total ≤ 2 ^ 64

/-- The heap invariant: the chain from `g_heap_start` spells a canonical tiling
    of the region by aligned blocks whose contents have an address. -/
structure Invariant (start total : Nat) (h : Heap) (l : List Segment) : Prop where
  first : h.g_heap_start = start
  chain : Chain h.mem start l
  tiles : Tiles 32 start (start + total) l
  canonical : Canonical l
  aligned : ∀ s ∈ l, s.start % 8 = 0
  room : ∀ s ∈ l, s.start + 32 < limit64

section
variable {start total : Nat}

theorem kalloc_init_spec (region : Region start total) (m : Memory) :
    ∃ h, kalloc_init m start total = .ok h ∧ Invariant start total h [⟨start,total - 32,true⟩] := by
  obtain ⟨nonzero,aligned,header,fits⟩ := region
  simp only [sizeof_heap_block] at header
  have size : sub64 total 32 = total - 32 := sub64_eq header (by simp only [limit64]; omega)
  refine ⟨_,by simp only [kalloc_init,sizeof_heap_block,Nat.not_lt.mpr header,if_false,size]; rfl,?_⟩
  have room : total - 32 < limit64 := by simp only [limit64]; omega
  refine ⟨rfl,⟨nonzero,rfl,⟨by simp,?_,by simp⟩,?_⟩,⟨rfl,by simp only [Tiles,stop]; omega⟩,.singleton _,?_,?_⟩
  · simp only [size_setFree,size_setNext]
    exact size_setSize room
  · simp only [Chain,next_setFree]
    exact next_setNext (by decide)
  · simp; omega
  · simp [limit64]; omega

theorem roundRequest_eq (n : Nat) : roundRequest n = add64 n 7 / 8 * 8 :=
  land_not64 (k := 3) (add64_lt n 7) (by decide)

theorem roundRequest_aligned (n : Nat) : roundRequest n % 8 = 0 := by
  rw [roundRequest_eq]
  omega

variable {h : Heap} {l : List Segment}

theorem Region.low (region : Region start total) : 4096 ≤ start := by
  obtain ⟨nonzero,aligned,_,_⟩ := region
  omega

theorem Invariant.short (inv : Invariant start total h l) (region : Region start total) : l.length < loopBound := by
  have bound := tiles_length inv.tiles
  have fits := region.fits
  have nonzero := region.nonzero
  simp only [loopBound]
  omega

theorem Invariant.keeps_taken (inv : Invariant start total h l) (region : Region start total) {s : Segment}
    (member : s ∈ l) {request : Nat} (enough : request ≤ s.size) :
    KeepsContent (carve request s) h.mem (takeBlock h.mem s.start request) := by
  have bounds := (tiles_bounds inv.tiles).2 s member
  have low := region.low
  have fits : start + total ≤ limit64 := region.fits
  simp only [stop] at bounds
  exact takeBlock_content (chain_header inv.chain member).2.1 (by omega) (by omega) enough

/-- What is written outside the headers leaves the invariant. -/
theorem Invariant.content (inv : Invariant start total h l) {m : Memory} (keeps :
    ∀ s ∈ l, ∀ x, s.start ≤ x → x < s.start + 32 → m x = h.mem x) : Invariant start total { h with mem := m } l :=
  ⟨inv.first,chain_congr inv.chain keeps,inv.tiles,inv.canonical,inv.aligned,inv.room⟩

/-- `kmalloc` returns `NULL` and changes nothing when first fit finds no block;
    otherwise it returns the content of the block that first fit carves. -/
theorem kmalloc_spec (region : Region start total) (inv : Invariant start total h l) {n : Nat} (positive : n ≠ 0) :
    match firstFit (roundRequest n) l with
    | none => kmalloc h n = .ok (h,0)
    | some (after,p) => ∃ h', kmalloc h n = .ok (h',p + 32) ∧ p + 32 < limit64 ∧ p % 8 = 0 ∧
        Invariant start total h' after ∧ h'.mem = takeBlock h.mem p (roundRequest n) := by
  have high : start + total ≤ limit64 := region.fits
  have loop := @kmalloc_loop_spec _ _ _ (roundRequest n) _ _ inv.chain inv.tiles region.low high (inv.short region)
  rw [← inv.first] at loop
  cases found : firstFit (roundRequest n) l with
  | none =>
    rw [found] at loop
    simp only at loop
    simp [kmalloc,positive,loop]
  | some result =>
    obtain ⟨after,p⟩ := result
    rw [found] at loop
    obtain ⟨executed,chain⟩ := loop
    obtain ⟨s,member,free,enough,place,_⟩ := firstFit_used found
    have room := inv.room s member
    have returned : add64 p 32 = p + 32 := add64_eq (by omega)
    refine ⟨{ h with mem := takeBlock h.mem p (roundRequest n) },by simp [kmalloc,positive,executed,returned],by omega,
      ?_,?_,rfl⟩
    · rw [place]
      exact inv.aligned s member
    have fits := region.fits
    refine ⟨inv.first,inv.first ▸ chain,firstFit_tiles inv.tiles found,firstFit_canonical inv.canonical found,?_,?_⟩
    · intro u inside
      rcases firstFit_starts found u inside with ⟨t,tMember,same⟩ | ⟨t,tMember,same,_⟩
      · rw [← same]
        exact inv.aligned t tMember
      · have := inv.aligned t tMember
        have := roundRequest_aligned n
        omega
    · intro u inside
      rcases firstFit_starts found u inside with ⟨t,tMember,same⟩ | ⟨t,tMember,same,split⟩
      · rw [← same]
        exact inv.room t tMember
      · have inner := ((tiles_bounds inv.tiles).2 t tMember).2
        simp only [stop] at inner
        simp only [limit64]
        omega

/-- `kfree` of the content of a block in use releases the block and merges. -/
theorem kfree_spec (region : Region start total) (inv : Invariant start total h l) {s : Segment} (member : s ∈ l) :
    ∃ h', kfree h (s.start + 32) = .ok h' ∧ Invariant start total h' (merge 32 (release s.start l)) ∧
      KeepsLinks (merge 32 (release s.start l)) (setFree h.mem s.start true) h'.mem := by
  have room := inv.room s member
  have block : sub64 (s.start + 32) sizeof_heap_block = s.start := by
    rw [sizeof_heap_block,sub64_eq (by omega) room]
    omega
  have apart : ∀ t ∈ l, t.start = s.start ∨ t.start + 32 ≤ s.start ∨ s.start + 32 ≤ t.start := by
    intro t inside
    rcases tiles_apart inv.tiles inside member with same | before | after
    · exact .inl (by rw [same])
    · simp only [stop] at before; omega
    · simp only [stop] at after; omega
  have isMagic : magic h.mem s.start = HEAP_MAGIC := (chain_header inv.chain member).1
  have short : (release s.start l).length < loopBound := by
    simpa [release] using inv.short region
  obtain ⟨m',executed,chain,keeps⟩ := kfree_loop_spec (release_chain inv.chain apart)
    (release_tiles (p := s.start) inv.tiles) (by simpa [limit64] using region.fits) short
  refine ⟨{ h with mem := m' },?_,⟨inv.first,chain,merge_tiles (release_tiles inv.tiles),merge_canonical _,?_,?_⟩,keeps⟩
  · rw [← inv.first] at executed
    simp [kfree,block,isMagic,executed]
  · intro u inside
    obtain ⟨t,tMember,same⟩ := merge_starts inside
    obtain ⟨v,vMember,same'⟩ := release_starts tMember
    rw [← same,← same']
    exact inv.aligned v vMember
  · intro u inside
    obtain ⟨t,tMember,same⟩ := merge_starts inside
    obtain ⟨v,vMember,same'⟩ := release_starts tMember
    rw [← same,← same']
    exact inv.room v vMember

end
end NekoOs.HeapModel
