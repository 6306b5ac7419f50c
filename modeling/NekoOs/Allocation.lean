import NekoOs.Gaps
import NekoOs.HeapRuns

/-!
What an allocation delivers. In every reachable heap `kmalloc` takes the lowest
gap between live blocks that is long enough, as long as rounding the request up
does not wrap. A request within seven bytes of `2^64` is rounded to zero and any
free block will do for it; `kcalloc` also wraps the product before `kmalloc`
sees it. Both deliver what was asked for exactly where no free block is large
enough for the wrapped request, or nothing wraps.
-/
namespace NekoOs.Allocation
open ByteMemory Words Tiling Gaps Mem Alloc HeapModel HeapRuns Transitions

/-- The byte at `x` belongs to a live block: to its header or to its recorded size. -/
def LiveByte (s : Session) (x : Nat) : Prop :=
  ∃ p ∈ s.live, p - sizeof_heap_block ≤ x ∧ x < p + recorded s.heap.mem p

/-- A maximal run of heap bytes that belong to no live block. -/
def HeapGap (start total : Nat) (s : Session) : (x y : Nat) → Prop := Gap (LiveByte s) start (start + total)

/-- What is left up to `y` behind a block that ends at `z`: nothing, or one free block. -/
def Remainder (z y : Nat) (rest : List Segment) : Prop :=
  rest = [] ∧ z = y ∨ ∃ size, rest = [⟨z,size,true⟩] ∧ 8 ≤ size ∧ z + sizeof_heap_block + size = y

/-- The pointer `p` is to a block that a request of `a` bytes takes at the start
    of the gap `[x, y)`, leaving the heap `h`. -/
structure Takes (start total : Nat) (s : Session) (a : Nat) (h : Heap) (p x y : Nat) : Prop where
  gap : HeapGap start total s x y
  fits : a + 32 ≤ y - x
  lowest : ∀ x' y', HeapGap start total s x' y' → a + 32 ≤ y' - x' → x ≤ x'
  place : p = x + sizeof_heap_block
  least : a ≤ recorded h.mem p
  most : recorded h.mem p ≤ a + 39
  blocks : ∃ before rest after, blockList s.heap = some (before ++ ⟨x,y - x - sizeof_heap_block,true⟩ :: after) ∧
    blockList h = some (before ++ ⟨x,recorded h.mem p,false⟩ :: (rest ++ after)) ∧
    Remainder (p + recorded h.mem p) y rest
  others : ∀ z, z < x ∨ y ≤ z → h.mem z = s.heap.mem z

def HasBlock (h : Heap) (b : Segment) : Prop := ∃ l, blockList h = some l ∧ b ∈ l

/-- What the caller of `kmalloc(n)` relies on: a block that is not `NULL` has the
    size and lies in the heap, and without such a block `NULL` is returned. -/
def Delivers (start total : Nat) (s : Session) (n : Nat) : Prop :=
  ∃ h p, kmalloc s.heap n = .ok (h,p) ∧
    (p ≠ 0 → n ≤ recorded h.mem p ∧ start + sizeof_heap_block ≤ p ∧ p + recorded h.mem p ≤ start + total) ∧
    ((∀ b, HasBlock s.heap b → b.free = true → b.size < n) → p = 0)

/-- What the caller of `kcalloc(nmemb, size)` relies on: a block that is not `NULL`
    holds the whole product, which is zero there, and only its payload and headers
    are written; a product beyond 64 bits gets `NULL`. -/
def DeliversZeroed (s : Session) (nmemb size : Nat) : Prop :=
  ∃ h p, kcalloc s.heap nmemb size = .ok (h,p) ∧
    (p ≠ 0 → nmemb * size ≤ recorded h.mem p ∧ (∀ i < nmemb * size, h.mem (p + i) = 0) ∧
      ∀ x, x < p ∨ p + recorded h.mem p ≤ x →
        (∀ b, HasBlock h b → x < b.start ∨ b.start + sizeof_heap_block ≤ x) → h.mem x = s.heap.mem x) ∧
    (2 ^ 64 ≤ nmemb * size → p = 0)

section
variable {start total : Nat} {s : Session} {l : List Segment}

/-! ### Gaps and free blocks -/

theorem liveByte_iff (inv : SessionInvariant start total s l) (x : Nat) : LiveByte s x ↔ InUse 32 l x := by
  constructor
  · rintro ⟨p,isLive,low,high⟩
    obtain ⟨b,inside,rfl⟩ := (inv.pointers p).mp isLive
    rw [recorded_eq inv.heap (mem_used.mp inside).1] at high
    rw [sizeof_heap_block,Nat.add_sub_cancel] at low
    exact ⟨b,inside,low,high⟩
  · rintro ⟨b,inside,low,high⟩
    refine ⟨b.start + 32,(inv.pointers _).mpr ⟨b,inside,rfl⟩,?_,?_⟩
    · rwa [sizeof_heap_block,Nat.add_sub_cancel]
    · rwa [recorded_eq inv.heap (mem_used.mp inside).1]

/-- The gaps between the live blocks are the free blocks. -/
theorem heapGap_iff (inv : SessionInvariant start total s l) (x y : Nat) :
    HeapGap start total s x y ↔ ∃ b ∈ l, b.free = true ∧ b.start = x ∧ stop 32 b = y := by
  rw [← gap_iff (by decide) inv.heap.tiles inv.heap.canonical]
  constructor
  · exact gap_congr (fun z _ _ => liveByte_iff inv z)
  · exact gap_congr (fun z _ _ => (liveByte_iff inv z).symm)

/-! ### One allocation -/

/-- `kmalloc` in terms of the block list: no free block is large enough, or the
    first one that is gets carved. -/
theorem kmalloc_cases (region : Region start total) (inv : SessionInvariant start total s l) {n : Nat}
    (positive : n ≠ 0) :
    (kmalloc s.heap n = .ok (s.heap,0) ∧ ∀ b ∈ l, b.free = true → b.size < roundRequest n) ∨
    ∃ before b after h, l = before ++ b :: after ∧ b.free = true ∧ roundRequest n ≤ b.size ∧
      (∀ t ∈ before, t.free = true → t.size < roundRequest n) ∧ kmalloc s.heap n = .ok (h,b.start + 32) ∧
      Invariant start total h (before ++ (carve (roundRequest n) b ++ after)) ∧
      h.mem = takeBlock s.heap.mem b.start (roundRequest n) := by
  have spec := kmalloc_spec region inv.heap positive
  cases found : firstFit (roundRequest n) l with
  | none =>
    rw [found] at spec
    exact .inl ⟨spec,firstFit_none found⟩
  | some result =>
    obtain ⟨list,p⟩ := result
    rw [found] at spec
    obtain ⟨h,executed,_,_,inv',written⟩ := spec
    obtain ⟨before,b,after,rfl,isFree,enough,rfl,smaller,rfl⟩ := firstFit_some found
    exact .inr ⟨before,b,after,h,rfl,isFree,enough,smaller,executed,inv',written⟩

theorem roundRequest_small {n : Nat} (small : n ≤ 2 ^ 64 - 8) : roundRequest n = (n + 7) / 8 * 8 := by
  rw [roundRequest_eq,add64_eq (by simp only [limit64]; omega)]

/-- Close to `2^64` the request is rounded to zero. -/
theorem roundRequest_wraps {n : Nat} (large : 2 ^ 64 - 8 < n) (fits : n < 2 ^ 64) : roundRequest n = 0 := by
  have wrapped : add64 n 7 = n + 7 - 2 ^ 64 := by
    rw [add64,limit64,Nat.mod_eq_sub_mod (by omega),Nat.mod_eq_of_lt (by omega)]
  rw [roundRequest_eq,wrapped]
  omega

/-- The block that a free block of a heap begins with after it is carved. -/
theorem recorded_carved {h : Heap} {before after : List Segment} {b : Segment} {request : Nat}
    (inv : Invariant start total h (before ++ (carve request b ++ after))) :
    recorded h.mem (b.start + 32) = (taken request b).size := by
  obtain ⟨rest,shape,_⟩ := carve_head request b
  exact recorded_eq inv (b := taken request b) (by simp [shape])

theorem taken_bounds {request : Nat} {b : Segment} (enough : request ≤ b.size) :
    request ≤ (taken request b).size ∧ (taken request b).size ≤ request + 39 ∧ (taken request b).size ≤ b.size := by
  simp only [taken]
  split <;> omega

theorem carve_remainder (request : Nat) (b : Segment) :
    ∃ rest, carve request b = ⟨b.start,(taken request b).size,false⟩ :: rest ∧
      Remainder (b.start + 32 + (taken request b).size) (stop 32 b) rest := by
  unfold carve taken
  by_cases splits : request + 40 ≤ b.size
  · rw [if_pos splits,if_pos splits]
    refine ⟨_,rfl,.inr ⟨b.size - request - 32,rfl,by omega,?_⟩⟩
    simp only [sizeof_heap_block,stop]
    omega
  · rw [if_neg splits,if_neg splits]
    exact ⟨[],rfl,.inl ⟨rfl,rfl⟩⟩

/-! ### Exact first fit -/

/-- `kmalloc` returns `NULL` and leaves the heap when every gap is too short, and
    otherwise takes the lowest gap that is long enough. -/
theorem kmalloc_first_fit (region : Region start total) :
    ∀ s, (client start total).Reachable s → ∀ n, 1 ≤ n → n ≤ 2 ^ 64 - 8 →
      ∃ h p, kmalloc s.heap n = .ok (h,p) ∧
        (p = 0 ↔ ∀ x y, HeapGap start total s x y → y - x < (n + 7) / 8 * 8 + 32) ∧
        (p = 0 → h = s.heap) ∧
        (p ≠ 0 → ∃ x y, Takes start total s ((n + 7) / 8 * 8) h p x y) := by
  intro s reached n positive small
  obtain ⟨l,inv⟩ := session_invariant region reached
  have cases := kmalloc_cases region inv (n := n) (by omega)
  rw [roundRequest_small small] at cases
  generalize (n + 7) / 8 * 8 = a at *
  rcases cases with ⟨executed,smaller⟩ | ⟨before,b,after,h,rfl,isFree,enough,smaller,executed,inv',written⟩
  · refine ⟨s.heap,0,executed,iff_of_true rfl ?_,fun _ => rfl,fun nonzero => absurd rfl nonzero⟩
    intro x y gap
    obtain ⟨b,member,isFree,rfl,rfl⟩ := (heapGap_iff inv x y).mp gap
    have short := smaller b member isFree
    simp only [stop]
    omega
  · have keeps := inv.heap.keeps_taken region (s := b) (by simp) enough
    rw [← written] at keeps
    have gap : HeapGap start total s b.start (stop 32 b) := (heapGap_iff inv _ _).mpr ⟨b,by simp,isFree,rfl,rfl⟩
    have long : a + 32 ≤ stop 32 b - b.start := by
      simp only [stop]
      omega
    refine ⟨h,b.start + 32,executed,iff_of_false (by omega) ?_,fun null => absurd null (by omega),fun _ => ?_⟩
    · intro short
      have := short _ _ gap
      omega
    have size := recorded_carved inv'
    obtain ⟨least,most,_⟩ := taken_bounds enough
    obtain ⟨rest,shape,remainder⟩ := carve_remainder a b
    rw [← size] at least most shape remainder
    refine ⟨b.start,stop 32 b,gap,long,?_,rfl,least,most,⟨before,rest,after,?_,?_,remainder⟩,
      keeps.keepsOutside enough⟩
    · intro x' y' gap' long'
      obtain ⟨t,member,tFree,rfl,rfl⟩ := (heapGap_iff inv x' y').mp gap'
      rcases List.mem_append.mp member with earlier | later
      · have short := smaller t earlier tFree
        simp only [stop] at long'
        omega
      · obtain ⟨mid,_,right⟩ := tiles_append.mp inv.heap.tiles
        have first : b.start = mid := right.1
        have := ((tiles_bounds right).2 t later).1
        omega
    · have same : (⟨b.start,stop 32 b - b.start - sizeof_heap_block,true⟩ : Segment) = b := by
        rw [← isFree,stop,sizeof_heap_block]
        congr 1
        omega
      rw [same,blockList_eq region inv.heap]
    · rw [blockList_eq region inv',shape,List.cons_append]

theorem kmalloc_first_fit_one_page : ∃ s, (client 4096 4096).Reachable s ∧ s.live = [4184,4128] ∧
    ∃ h p, kmalloc s.heap 100 = .ok (h,p) ∧
      (p ≠ 0 → ∃ x y, Takes 4096 4096 s ((100 + 7) / 8 * 8) h p x y) := by
  obtain ⟨s,reached,live⟩ := page_session
  obtain ⟨h,p,executed,_,_,taken⟩ :=
    kmalloc_first_fit page_region s reached 100 (by decide) (by decide)
  exact ⟨s,reached,live,h,p,executed,taken⟩

/-! ### The size that is delivered -/

theorem hasBlock_iff (region : Region start total) {h : Heap} (inv : Invariant start total h l) (b : Segment) :
    HasBlock h b ↔ b ∈ l := by
  unfold HasBlock
  rw [blockList_eq region inv]
  simp

/-- A block that an allocation carves lies in the heap. -/
theorem carved_inside {before after : List Segment} {b : Segment} {request : Nat}
    (tiles : Tiles 32 start (start + total) (before ++ b :: after)) (enough : request ≤ b.size) :
    start ≤ b.start ∧ b.start + 32 + (taken request b).size ≤ start + total := by
  have bounds := (tiles_bounds tiles).2 b (by simp)
  have := taken_bounds enough
  simp only [stop] at bounds
  omega

/-- A request that is rounded to zero gets a block of at most 39 bytes. -/
theorem wrapped_not_delivered (region : Region start total) (inv : SessionInvariant start total s l) {n : Nat}
    (large : 2 ^ 64 - 8 < n) (fits : n < 2 ^ 64) {b : Segment} (member : b ∈ l) (isFree : b.free = true) :
    ¬Delivers start total s n := by
  have rounded := roundRequest_wraps large fits
  rintro ⟨h',p,executed',served,_⟩
  rcases kmalloc_cases region inv (n := n) (by omega) with
    ⟨_,smaller⟩ | ⟨before,c,after,h,rfl,_,enough,_,executed,inv',_⟩
  · rw [rounded] at smaller
    exact absurd (smaller b member isFree) (Nat.not_lt_zero _)
  · obtain ⟨rfl,rfl⟩ : h = h' ∧ c.start + 32 = p := by simpa [executed] using executed'
    have size := recorded_carved inv'
    have bounds := taken_bounds enough
    have short := (served (by omega)).1
    rw [rounded] at bounds size
    omega

/-- `kmalloc` delivers exactly when rounding does not wrap or no block is free. -/
theorem kmalloc_delivers_iff (region : Region start total) :
    ∀ s, (client start total).Reachable s → ∀ n, n < 2 ^ 64 →
      (Delivers start total s n ↔ n ≤ 2 ^ 64 - 8 ∨ ∀ b, HasBlock s.heap b → b.free = false) := by
  intro s reached n fits
  obtain ⟨l,inv⟩ := session_invariant region reached
  have blocks := hasBlock_iff region inv.heap
  constructor
  · intro delivers
    refine or_iff_not_imp_left.mpr (fun large b has => ?_)
    by_contra isFree
    exact wrapped_not_delivered region inv (by omega) fits ((blocks b).mp has) (by simpa using isFree) delivers
  · intro condition
    by_cases zero : n = 0
    · subst zero
      exact ⟨s.heap,0,rfl,fun nonzero => absurd rfl nonzero,fun _ => rfl⟩
    rcases kmalloc_cases region inv zero with
      ⟨executed,_⟩ | ⟨before,b,after,h,rfl,isFree,enough,_,executed,inv',_⟩
    · exact ⟨s.heap,0,executed,fun nonzero => absurd rfl nonzero,fun _ => rfl⟩
    have has : HasBlock s.heap b := (blocks b).mpr (by simp)
    have small : n ≤ 2 ^ 64 - 8 := condition.resolve_right (fun none => by simp [none b has] at isFree)
    have rounded := roundRequest_small small
    have size := recorded_carved inv'
    have inside := carved_inside inv.heap.tiles enough
    have bounds := taken_bounds enough
    refine ⟨h,b.start + 32,executed,fun _ => ⟨by omega,?_,by omega⟩,fun short => ?_⟩
    · rw [sizeof_heap_block]
      omega
    · have := short b has isFree
      omega

theorem kmalloc_delivers_iff_one_page : ∃ s, (client 4096 4096).Reachable s ∧ Delivers 4096 4096 s 100 := by
  obtain ⟨s,reached,_⟩ := page_session
  exact ⟨s,reached,(kmalloc_delivers_iff page_region s reached 100 (by decide)).mpr (.inl (by decide))⟩

/-- A heap of one page just after `kalloc_init`. -/
private theorem fresh_page : ∃ s, (client 4096 4096).Reachable s ∧
    SessionInvariant 4096 4096 s [⟨4096,4064,true⟩] := by
  have region := page_region
  obtain ⟨h,initial,_⟩ := kalloc_init_spec region (fun _ => 0)
  have first : (client 4096 4096).initial ⟨h,[]⟩ := ⟨⟨_,initial⟩,rfl⟩
  exact ⟨_,System.reachable_initial first,session_initial region first⟩

theorem kmalloc_under_delivers : ∃ s, (client 4096 4096).Reachable s ∧ ¬Delivers 4096 4096 s (2 ^ 64 - 1) := by
  have region := page_region
  obtain ⟨s,reached,inv⟩ := fresh_page
  exact ⟨s,reached,wrapped_not_delivered region inv (by decide) (by decide) List.mem_cons_self rfl⟩

/-! ### Zeroed allocations -/

/-- The rounded request of `kcalloc` depends on the product alone. -/
theorem roundRequest_product (nmemb size : Nat) :
    roundRequest (mul64 nmemb size) = (nmemb * size + 7) % 2 ^ 64 / 8 * 8 := by
  rw [roundRequest_eq,add64,mul64,limit64,Nat.mod_add_mod]

/-- Filling the content of a live block keeps the block list. -/
theorem filled_content {h : Heap} (inv : Invariant start total h l) {b : Segment} (member : b ∈ l) {n : Nat}
    (within : n ≤ b.size) : Invariant start total { h with mem := fill h.mem (b.start + 32) n 0 } l := by
  refine inv.content (fun t inside x low high => fill_outside ?_)
  rcases tiles_apart inv.tiles inside member with same | before | after
  · subst same; omega
  · simp only [stop] at before; omega
  · simp only [stop] at after; omega

/-- A fill that goes past the last address clears the header of its own block. -/
theorem recorded_cleared {m : Memory} {p n : Nat} (low : 32 ≤ p) (fits : p < limit64) (large : 2 ^ 64 - 8 < n) :
    recorded (memset p 0 n m) p = 0 := by
  have clear (x : Nat) (above : p - 24 ≤ x) (below : x < p - 16) : memset p 0 n m x = 0 := by
    have place : add64 p (x + 2 ^ 64 - p) = x := by
      simp only [add64,limit64] at fits ⊢
      rw [show p + (x + 2 ^ 64 - p) = x + 2 ^ 64 by omega,Nat.add_mod_right,Nat.mod_eq_of_lt (by omega)]
    have filled := @setUp_inside p m (UInt8.ofInt 0) 0 n (x + 2 ^ 64 - p) (by omega) (by omega)
    rw [place] at filled
    exact filled
  have address : p - 32 + 8 = p - 24 := by omega
  rw [recorded,Alloc.size,address,← load_fill_zero (m := m) (Nat.le_refl (p - 24)) (Nat.le_refl (p - 24 + 8))]
  refine load_congr (fun x above below => ?_)
  rw [clear x above (by omega),fill_inside above below]

theorem kcalloc_null {nmemb size : Nat} (executed : kmalloc s.heap (mul64 nmemb size) = .ok (s.heap,0)) :
    DeliversZeroed s nmemb size :=
  ⟨s.heap,0,by simp only [kcalloc,executed,Outcome.bind_ok,if_true],fun nonzero => absurd rfl nonzero,fun _ => rfl⟩

/-- A product that is not wrapped and not rounded away is delivered. -/
theorem kcalloc_delivers (region : Region start total) (inv : SessionInvariant start total s l) {nmemb size : Nat}
    (small : nmemb * size ≤ 2 ^ 64 - 8) : DeliversZeroed s nmemb size := by
  have product : mul64 nmemb size = nmemb * size := Nat.mod_eq_of_lt (by simp only [limit64]; omega)
  by_cases zero : nmemb * size = 0
  · exact kcalloc_null (by rw [product,zero]; rfl)
  rcases kmalloc_cases region inv zero with
    ⟨executed,_⟩ | ⟨before,b,after,h,rfl,_,enough,_,executed,inv',written⟩
  · exact kcalloc_null (by rw [product]; exact executed)
  have keeps := inv.heap.keeps_taken region (s := b) (by simp) enough
  rw [← written] at keeps
  have fits := region.fits
  have rounded := roundRequest_small small
  have inside := carved_inside inv.heap.tiles enough
  have bounds := taken_bounds enough
  obtain ⟨rest,shape,_⟩ := carve_remainder (roundRequest (nmemb * size)) b
  have member : taken (roundRequest (nmemb * size)) b ∈ before ++ (carve (roundRequest (nmemb * size)) b ++ after) := by
    simp [shape,taken]
  unfold DeliversZeroed
  generalize nmemb * size = n at *
  have filled := filled_content inv' member (n := n) (by omega)
  have start : (taken (roundRequest n) b).start = b.start := rfl
  have length : recorded (fill h.mem (b.start + 32) n 0) (b.start + 32) = (taken (roundRequest n) b).size :=
    recorded_eq filled member
  rw [start] at filled
  have result : kcalloc s.heap nmemb size = .ok ({ h with mem := fill h.mem (b.start + 32) n 0 },b.start + 32) := by
    have nonzero : b.start + 32 ≠ 0 := by omega
    have same : UInt8.ofInt 0 = 0 := rfl
    simp only [kcalloc,product,executed,Outcome.bind_ok,nonzero,if_false]
    rw [memset_eq_fill (by simp only [limit64]; omega),same]
  have holds : n ≤ recorded (fill h.mem (b.start + 32) n 0) (b.start + 32) := by omega
  refine ⟨_,_,result,fun _ => ⟨holds,fun i low => fill_inside (by omega) (by omega),?_⟩,fun large => by omega⟩
  intro x payload headers
  simp only [length] at payload
  have written : fill h.mem (b.start + 32) n 0 x = h.mem x := fill_outside (by omega)
  refine written.trans (keeps x (fun t carved => ?_))
  exact headers t ((hasBlock_iff region filled t).mpr (by simp [carved]))

/-- A product that wraps, or is rounded to zero, is not delivered where a free block
    is large enough for what is left of it. -/
theorem kcalloc_not_delivered (region : Region start total) (inv : SessionInvariant start total s l) {nmemb size : Nat}
    (large : 2 ^ 64 - 8 < nmemb * size) (nonzero : mul64 nmemb size ≠ 0) {b : Segment} (member : b ∈ l)
    (isFree : b.free = true) (enough : roundRequest (mul64 nmemb size) ≤ b.size) : ¬DeliversZeroed s nmemb size := by
  rintro ⟨h',p,executed',delivered,refused⟩
  rcases kmalloc_cases region inv nonzero with ⟨_,smaller⟩ | ⟨before,c,after,h,rfl,_,_,_,executed,_,_⟩
  · have := smaller b member isFree
    omega
  have room := inv.heap.room c (by simp)
  have other : c.start + 32 ≠ 0 := by omega
  simp only [kcalloc,executed,Outcome.bind_ok,other,if_false,Outcome.ok.injEq,Prod.mk.injEq] at executed'
  obtain ⟨rfl,rfl⟩ := executed'
  by_cases wraps : 2 ^ 64 ≤ nmemb * size
  · exact other (refused wraps)
  · have product : mul64 nmemb size = nmemb * size := Nat.mod_eq_of_lt (by simp only [limit64]; omega)
    have served := (delivered other).1
    rw [recorded_cleared (by omega) room (by omega)] at served
    omega

/-- `kcalloc` delivers exactly when neither the product nor its rounding wraps, or
    what is left of the product gets `NULL`. -/
theorem kcalloc_delivers_iff (region : Region start total) :
    ∀ s, (client start total).Reachable s → ∀ nmemb size, nmemb < 2 ^ 64 → size < 2 ^ 64 →
      (DeliversZeroed s nmemb size ↔ nmemb * size ≤ 2 ^ 64 - 8 ∨ nmemb * size % 2 ^ 64 = 0 ∨
        ∀ b, HasBlock s.heap b → b.free = true → b.size < (nmemb * size + 7) % 2 ^ 64 / 8 * 8) := by
  intro s reached nmemb size _ _
  obtain ⟨l,inv⟩ := session_invariant region reached
  have blocks := hasBlock_iff region inv.heap
  rw [← roundRequest_product]
  constructor
  · intro delivered
    by_contra fails
    simp only [not_or,not_le,not_forall,not_lt] at fails
    obtain ⟨large,nonzero,b,has,isFree,enough⟩ := fails
    exact kcalloc_not_delivered region inv large nonzero ((blocks b).mp has) isFree enough delivered
  · rintro (small | zero | short)
    · exact kcalloc_delivers region inv small
    · have product : mul64 nmemb size = 0 := zero
      exact kcalloc_null (by rw [product]; rfl)
    · by_cases zero : mul64 nmemb size = 0
      · exact kcalloc_null (by rw [zero]; rfl)
      rcases kmalloc_cases region inv zero with ⟨executed,_⟩ | ⟨before,b,after,h,rfl,isFree,enough,_⟩
      · exact kcalloc_null executed
      · have := short b ((blocks b).mpr (by simp)) isFree
        omega

theorem kcalloc_delivers_iff_one_page : ∃ s, (client 4096 4096).Reachable s ∧ DeliversZeroed s 10 10 := by
  obtain ⟨s,reached,_⟩ := page_session
  exact ⟨s,reached,(kcalloc_delivers_iff page_region s reached 10 10 (by decide)
    (by decide)).mpr (.inl (by decide))⟩

/-- The product 2^64 + 8 is taken for 8. -/
theorem kcalloc_wraps : ∃ s, (client 4096 4096).Reachable s ∧ ¬DeliversZeroed s (2 ^ 63 + 4) 2 := by
  have region := page_region
  obtain ⟨s,reached,inv⟩ := fresh_page
  exact ⟨s,reached,kcalloc_not_delivered region inv (by decide) (by decide) List.mem_cons_self rfl (by decide)⟩

end
end NekoOs.Allocation
