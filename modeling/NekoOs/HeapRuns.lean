import NekoOs.HeapModel
import NekoOs.Transitions
import Mathlib.Data.List.Perm.Basic

/-!
Runs of the allocator and its clients. In every state that allocations, frees of
live pointers and writes inside live blocks lead to, the block list tiles the
heap, its blocks in use are the live pointers, and it is the one list without
adjacent free blocks for them.
-/
namespace NekoOs.HeapRuns
open ByteMemory Words Tiling Alloc HeapModel Transitions

/-- The heap and the pointers that `kmalloc` returned and nobody has freed since. -/
structure Session where
  heap : Heap
  live : List Nat

inductive Op
  | kmalloc (n : Nat)
  | kfree (p : Nat)
  | write (a : Nat) (v : UInt8)

/-- The size in the header of the block of a pointer. -/
def recorded (m : Memory) (p : Nat) : Nat := size m (p - 32)

/-- What clients may do: any 64-bit request, frees of `NULL` and of live
    pointers, and writes inside the recorded size of their live blocks. -/
def Allowed (s : Session) : Op → Prop
  | .kmalloc n => n < 2 ^ 64
  | .kfree p => p = 0 ∨ p ∈ s.live
  | .write a _ => ∃ p ∈ s.live, p ≤ a ∧ a < p + recorded s.heap.mem p

def exec (s : Session) : Op → Outcome Session
  | .kmalloc n => do
    let (h,p) ← kmalloc s.heap n
    .ok ⟨h,if p = 0 then s.live else p :: s.live⟩
  | .kfree p => do
    let h ← kfree s.heap p
    .ok ⟨h,s.live.erase p⟩
  | .write a v => .ok { s with heap := { s.heap with mem := fun x => if x = a then v else s.heap.mem x } }

/-- The allocator with its clients, from `kalloc_init(start, total)` on. -/
def client (start total : Nat) : System Session Op where
  initial s := (∃ m, kalloc_init m start total = .ok s.heap) ∧ s.live = []
  step s op t := Allowed s op ∧ exec s op = .ok t

/-- The blocks met by following `next` from `a`. -/
def blocksFrom (m : Memory) : (fuel : Nat) → (a : Nat) → Option (List Segment)
  | 0, _ => none
  | fuel+1, a =>
    if a = 0 then some [] else (blocksFrom m fuel (next m a)).map (fun l => ⟨a,size m a,free m a⟩ :: l)

/-- The block list of a heap, if it ends. -/
def blockList (h : Heap) : Option (List Segment) := blocksFrom h.mem loopBound h.g_heap_start

/-- Frees in the order of a list. -/
def freeAll (h : Heap) (ps : List Nat) : Outcome Heap := ps.foldlM kfree h

theorem blocksFrom_eq {m : Memory} {a fuel : Nat} {l : List Segment} (chain : Chain m a l) (enough : l.length < fuel) :
    blocksFrom m fuel a = some l := by
  induction l generalizing a fuel with
  | nil =>
    obtain ⟨fuel,rfl⟩ : ∃ k, fuel = k + 1 := ⟨fuel - 1,by omega⟩
    have ends : a = 0 := chain
    simp [blocksFrom,ends]
  | cons s rest ih =>
    obtain ⟨fuel,rfl⟩ : ∃ k, fuel = k + 1 := ⟨fuel - 1,by omega⟩
    obtain ⟨nonzero,start,⟨_,isSize,isFree⟩,later⟩ := chain
    rw [blocksFrom,if_neg nonzero,ih later (by simpa using enough),Option.map_some,← start,isSize,isFree]

section
variable {start total : Nat}

theorem blockList_eq {h : Heap} {l : List Segment} (region : Region start total) (inv : Invariant start total h l) :
    blockList h = some l := by
  rw [blockList,inv.first]
  exact blocksFrom_eq inv.chain (inv.short region)

/-- A region has one block list for each set of blocks in use. -/
theorem invariant_determined {h k : Heap} {l r : List Segment} (region : Region start total)
    (left : Invariant start total h l) (right : Invariant start total k r)
    (same : ∀ s, s ∈ used l ↔ s ∈ used r) : blockList h = blockList k := by
  rw [blockList_eq region left,blockList_eq region right,
    tiles_determined (by decide) left.tiles right.tiles left.canonical right.canonical same]

/-- The invariant of a session: the live pointers are the contents of the blocks in use. -/
structure SessionInvariant (start total : Nat) (s : Session) (l : List Segment) : Prop where
  heap : Invariant start total s.heap l
  distinct : s.live.Nodup
  pointers : ∀ p, p ∈ s.live ↔ ∃ b ∈ used l, p = b.start + 32

theorem mem_used {l : List Segment} {b : Segment} : b ∈ used l ↔ b ∈ l ∧ b.free = false := by
  simp [used]

theorem recorded_eq {h : Heap} {l : List Segment} (inv : Invariant start total h l) {b : Segment} (member : b ∈ l) :
    recorded h.mem (b.start + 32) = b.size := by
  simp only [recorded,Nat.add_sub_cancel]
  exact (chain_header inv.chain member).2.1

/-! ### One operation -/

theorem kmalloc_step {s : Session} {l : List Segment} (region : Region start total)
    (inv : SessionInvariant start total s l) (n : Nat) :
    ∃ h p after, kmalloc s.heap n = .ok (h,p) ∧ p % 8 = 0 ∧ KeepsUsed l s.heap.mem h.mem ∧
      Invariant start total h after ∧
      (p = 0 ∧ after = l ∨ p ≠ 0 ∧ p ∉ s.live ∧ ∃ b, p = b.start + 32 ∧ b.free = false ∧ roundRequest n ≤ b.size ∧
        (∀ u, u ∈ used l → u.start ≠ b.start) ∧ ∀ u, u ∈ used after ↔ u ∈ used l ∨ u = b) := by
  by_cases zero : n = 0
  · exact ⟨s.heap,0,l,by simp [kmalloc,zero],rfl,fun _ _ => rfl,inv.heap,.inl ⟨rfl,rfl⟩⟩
  have spec := kmalloc_spec region inv.heap zero
  cases found : firstFit (roundRequest n) l with
  | none =>
    rw [found] at spec
    exact ⟨s.heap,0,l,spec,rfl,fun _ _ => rfl,inv.heap,.inl ⟨rfl,rfl⟩⟩
  | some result =>
    obtain ⟨after,q⟩ := result
    rw [found] at spec
    obtain ⟨h,executed,_,aligned,inv',written⟩ := spec
    obtain ⟨b,member,isFree,enough,place,usedIff⟩ := firstFit_used found
    have keeps : KeepsUsed l s.heap.mem h.mem := by
      rw [written,place]
      exact ((inv.heap.keeps_taken region member enough).keepsOutside enough).keepsUsed member isFree
    have fresh : ∀ u, u ∈ used l → u.start ≠ b.start := by
      intro u inside same
      have equal := tiles_start_inj (by decide) inv.heap.tiles (mem_used.mp inside).1 member same
      simp [equal,isFree,mem_used] at inside
    refine ⟨h,q + 32,after,executed,by omega,keeps,inv',.inr
      ⟨by omega,?_,taken (roundRequest n) b,?_,rfl,?_,fresh,usedIff⟩⟩
    · intro isLive
      obtain ⟨u,inside,same⟩ := (inv.pointers _).mp isLive
      exact fresh u inside (by omega)
    · simp [taken,place]
    · simp only [taken]
      split <;> omega

theorem kfree_step {s : Session} {l : List Segment} (region : Region start total)
    (inv : SessionInvariant start total s l) {p : Nat} (isLive : p ∈ s.live) :
    ∃ h after, kfree s.heap p = .ok h ∧ KeepsContent l s.heap.mem h.mem ∧ Invariant start total h after ∧
      ∀ u, u ∈ used after ↔ u ∈ used l ∧ u.start + 32 ≠ p := by
  obtain ⟨b,inside,rfl⟩ := (inv.pointers p).mp isLive
  obtain ⟨h,executed,inv',keeps⟩ := kfree_spec region inv.heap (mem_used.mp inside).1
  refine ⟨h,_,executed,keeps.released (mem_used.mp inside).1,inv',?_⟩
  intro u
  rw [merge_used,release_used]
  simp

/-- Writes inside blocks in use leave every header. -/
theorem content_step {s : Session} {l : List Segment} (inv : SessionInvariant start total s l) {m : Memory}
    (changed : ∀ x, m x ≠ s.heap.mem x → ∃ p ∈ s.live, p ≤ x ∧ x < p + recorded s.heap.mem p) :
    SessionInvariant start total { s with heap := { s.heap with mem := m } } l := by
  refine ⟨inv.heap.content ?_,inv.distinct,inv.pointers⟩
  intro t tMember x above below
  by_contra other
  obtain ⟨p,isLive,low,high⟩ := changed x other
  obtain ⟨b,inside,rfl⟩ := (inv.pointers p).mp isLive
  have member := (mem_used.mp inside).1
  rw [recorded_eq inv.heap member] at high
  rcases tiles_apart inv.heap.tiles tMember member with same | before | after
  · subst same; omega
  · simp only [stop] at before; omega
  · simp only [stop] at after; omega

theorem write_step {s : Session} {l : List Segment} (inv : SessionInvariant start total s l) {a p : Nat} {v : UInt8}
    (isLive : p ∈ s.live) (low : p ≤ a) (high : a < p + recorded s.heap.mem p) :
    SessionInvariant start total
      { s with heap := { s.heap with mem := fun x => if x = a then v else s.heap.mem x } } l := by
  refine content_step inv (fun x other => ⟨p,isLive,?_⟩)
  have here : x = a := by
    by_contra elsewhere
    exact other (if_neg elsewhere)
  omega

theorem session_initial (region : Region start total) {s : Session} (first : (client start total).initial s) :
    SessionInvariant start total s [⟨start,total - 32,true⟩] := by
  obtain ⟨⟨m,run⟩,empty⟩ := first
  obtain ⟨h,executed,inv⟩ := kalloc_init_spec region m
  have same := Outcome.ok_injective (executed.symm.trans run)
  exact ⟨same ▸ inv,by simp [empty],by simp [empty,used]⟩

/-- A step keeps the invariant and every block in use that it does not free. -/
theorem session_blocks (region : Region start total) {s t : Session} {l : List Segment} {op : Op}
    (inv : SessionInvariant start total s l) (step : (client start total).step s op t) :
    ∃ l', SessionInvariant start total t l' ∧ ∀ b ∈ used l, op ≠ .kfree (b.start + 32) → b ∈ used l' := by
  obtain ⟨allowed,run⟩ := step
  cases op with
  | kmalloc n =>
    obtain ⟨h,p,after,executed,_,_,inv',outcome⟩ := kmalloc_step region inv n
    simp only [exec,executed,Outcome.bind_ok,Outcome.ok.injEq] at run
    subst run
    refine ⟨after,⟨inv',?_,?_⟩,?_⟩
    · rcases outcome with ⟨null,_⟩ | ⟨nonzero,fresh,_⟩
      · simpa [null] using inv.distinct
      · simpa [nonzero] using ⟨fresh,inv.distinct⟩
    · intro q
      rcases outcome with ⟨null,same⟩ | ⟨nonzero,_,b,place,_,_,_,usedIff⟩
      · simpa [null,same] using inv.pointers q
      · simp only [nonzero,if_false,List.mem_cons,inv.pointers q,usedIff]
        constructor
        · rintro (rfl | ⟨u,inside,same⟩)
          · exact ⟨b,.inr rfl,place⟩
          · exact ⟨u,.inl inside,same⟩
        · rintro ⟨u,inside | rfl,same⟩
          · exact .inr ⟨u,inside,same⟩
          · exact .inl (same.trans place.symm)
    · intro u inside _
      rcases outcome with ⟨_,same⟩ | ⟨_,_,_,_,_,_,_,usedIff⟩
      · exact same ▸ inside
      · exact (usedIff u).mpr (.inl inside)
  | kfree p =>
    rcases allowed with rfl | isLive
    · have absent : 0 ∉ s.live := by
        intro isLive
        obtain ⟨b,_,same⟩ := (inv.pointers 0).mp isLive
        omega
      simp only [exec,kfree,if_true,Outcome.bind_ok,Outcome.ok.injEq] at run
      subst run
      refine ⟨l,⟨inv.heap,?_,?_⟩,fun _ inside _ => inside⟩ <;> rw [List.erase_of_not_mem absent]
      · exact inv.distinct
      · exact inv.pointers
    · obtain ⟨h,after,executed,_,inv',usedIff⟩ := kfree_step region inv isLive
      simp only [exec,executed,Outcome.bind_ok,Outcome.ok.injEq] at run
      subst run
      refine ⟨after,⟨inv',inv.distinct.erase p,?_⟩,fun u inside kept =>
        (usedIff u).mpr ⟨inside,fun same => kept (by rw [same])⟩⟩
      intro q
      rw [inv.distinct.mem_erase_iff,inv.pointers q]
      constructor
      · rintro ⟨other,u,inside,rfl⟩
        exact ⟨u,(usedIff u).mpr ⟨inside,other⟩,rfl⟩
      · rintro ⟨u,inside,rfl⟩
        have := (usedIff u).mp inside
        exact ⟨this.2,u,this.1,rfl⟩
  | write a v =>
    obtain ⟨p,isLive,low,high⟩ := allowed
    simp only [exec,Outcome.ok.injEq] at run
    subst run
    exact ⟨l,write_step inv isLive low high,fun _ inside _ => inside⟩

theorem session_step (region : Region start total) {s t : Session} {op : Op}
    (holds : ∃ l, SessionInvariant start total s l) (step : (client start total).step s op t) :
    ∃ l, SessionInvariant start total t l := by
  obtain ⟨l,inv⟩ := holds
  obtain ⟨after,inv',_⟩ := session_blocks region inv step
  exact ⟨after,inv'⟩

theorem session_invariant (region : Region start total) {s : Session} (reached : (client start total).Reachable s) :
    ∃ l, SessionInvariant start total s l :=
  reached.invariant (fun _ first => ⟨_,session_initial region first⟩)
    (fun _ _ _ holds step => session_step region holds step)

/-- Clients can leave any content in a live block. -/
theorem content_reachable {s : Session} (reached : (client start total).Reachable s) {p : Nat} (isLive : p ∈ s.live)
    (low : 32 ≤ p) {m : Memory} {n : Nat} (within : n ≤ recorded s.heap.mem p)
    (same : ∀ x, x < p ∨ p + n ≤ x → m x = s.heap.mem x) :
    (client start total).Reachable { s with heap := { s.heap with mem := m } } := by
  induction n generalizing m with
  | zero =>
    have unchanged : m = s.heap.mem := funext (fun x => same x (by omega))
    exact unchanged ▸ reached
  | succ n ih =>
    -- all bytes but the last, and then the last
    have earlier := @ih (fun x => if x = p + n then s.heap.mem x else m x) (by omega) (fun x outside => by
      by_cases last : x = p + n
      · exact if_pos last
      · rw [if_neg last]
        exact same x (by omega))
    have kept : recorded (fun x => if x = p + n then s.heap.mem x else m x) p = recorded s.heap.mem p :=
      size_congr (fun x _ below => by
        rw [if_neg (by omega)]
        exact same x (.inl (by omega)))
    have allowed : Allowed { s with heap := { s.heap with mem := fun x => if x = p + n then s.heap.mem x else m x } }
        (.write (p + n) (m (p + n))) := ⟨p,isLive,by omega,by simp only [kept]; omega⟩
    have final := earlier.step (a := Op.write (p + n) (m (p + n))) ⟨allowed,rfl⟩
    have whole : (fun x => if x = p + n then m (p + n) else if x = p + n then s.heap.mem x else m x) = m := by
      funext x
      by_cases last : x = p + n <;> simp [last]
    simp only [whole] at final
    exact final

/-! ### What holds in every state -/

/-- The block list `l` and the live pointers of a state agree: the blocks follow
    one another through the whole region, and the contents of the live blocks
    are apart from each other and from every header. -/
structure WellFormed (start total : Nat) (s : Session) (l : List Segment) : Prop where
  listed : blockList s.heap = some l
  acyclic : (l.map Segment.start).Nodup
  magics : ∀ b ∈ l, magic s.heap.mem b.start = HEAP_MAGIC
  tiles : Tiles sizeof_heap_block start (start + total) l
  distinct : s.live.Nodup
  pointers : ∀ p, p ∈ s.live ↔ ∃ b ∈ l, b.free = false ∧ p = b.start + sizeof_heap_block
  addresses : ∀ p ∈ s.live, p ≠ 0 ∧ p < 2 ^ 64 ∧ p % 8 = 0
  separate : ∀ p ∈ s.live, ∀ q ∈ s.live, p ≠ q →
    p + recorded s.heap.mem p ≤ q ∨ q + recorded s.heap.mem q ≤ p
  offHeaders : ∀ p ∈ s.live, ∀ b ∈ l,
    p + recorded s.heap.mem p ≤ b.start ∨ b.start + sizeof_heap_block ≤ p

theorem session_wellFormed (region : Region start total) {s : Session} {l : List Segment}
    (inv : SessionInvariant start total s l) : WellFormed start total s l := by
  have heap := inv.heap
  have block : ∀ p, p ∈ s.live → ∃ b ∈ l, b.free = false ∧ p = b.start + 32 ∧ recorded s.heap.mem p = b.size := by
    intro p isLive
    obtain ⟨b,inside,rfl⟩ := (inv.pointers p).mp isLive
    obtain ⟨member,inUse⟩ := mem_used.mp inside
    exact ⟨b,member,inUse,rfl,recorded_eq heap member⟩
  refine ⟨blockList_eq region heap,tiles_nodup (by decide) heap.tiles,fun b member =>
    (chain_header heap.chain member).1,
    heap.tiles,inv.distinct,?_,?_,?_,?_⟩
  · intro p
    rw [inv.pointers p]
    constructor
    · rintro ⟨b,inside,place⟩
      exact ⟨b,(mem_used.mp inside).1,(mem_used.mp inside).2,place⟩
    · rintro ⟨b,member,inUse,place⟩
      exact ⟨b,mem_used.mpr ⟨member,inUse⟩,place⟩
  · intro p isLive
    obtain ⟨b,member,_,rfl,_⟩ := block p isLive
    have room := heap.room b member
    have aligned := heap.aligned b member
    simp only [limit64] at room
    exact ⟨by omega,room,by omega⟩
  · intro p pLive q qLive other
    obtain ⟨b,bMember,_,rfl,bSize⟩ := block p pLive
    obtain ⟨c,cMember,_,rfl,cSize⟩ := block q qLive
    rw [bSize,cSize]
    rcases tiles_apart heap.tiles bMember cMember with same | before | after
    · exact absurd (by rw [same]) other
    · simp only [stop] at before; omega
    · simp only [stop] at after; omega
  · intro p isLive c cMember
    obtain ⟨b,bMember,_,rfl,bSize⟩ := block p isLive
    rw [bSize,sizeof_heap_block]
    rcases tiles_apart heap.tiles bMember cMember with same | before | after
    · subst same; omega
    · simp only [stop] at before; omega
    · simp only [stop] at after; omega

/-- The content of a live block keeps its bytes when the allocator runs. -/
theorem content_kept {s : Session} {l : List Segment} (inv : SessionInvariant start total s l) {m : Memory}
    (keeps : KeepsUsed l s.heap.mem m ∨ KeepsContent l s.heap.mem m) {p : Nat} (isLive : p ∈ s.live) {x : Nat}
    (low : p ≤ x) (high : x < p + recorded s.heap.mem p) : m x = s.heap.mem x := by
  obtain ⟨b,inside,rfl⟩ := (inv.pointers p).mp isLive
  obtain ⟨member,inUse⟩ := mem_used.mp inside
  rw [recorded_eq inv.heap member] at high
  rcases keeps with keeps | keeps
  · refine keeps x (fun c cMember cFree => ?_)
    rcases tiles_apart inv.heap.tiles member cMember with same | before | after
    · simp [← same,inUse] at cFree
    · simp only [stop] at before ⊢; omega
    · simp only [stop] at after ⊢; omega
  · refine keeps x (fun c cMember => ?_)
    rcases tiles_apart inv.heap.tiles member cMember with same | before | after
    · subst same; omega
    · simp only [stop] at before; omega
    · simp only [stop] at after; omega

/-- Whatever clients do, the allocator returns. -/
theorem exec_total (region : Region start total) {s : Session} {l : List Segment}
    (inv : SessionInvariant start total s l) {op : Op} (allowed : Allowed s op) :
    ∃ t, exec s op = .ok t ∧ ((∀ a v, op ≠ .write a v) →
      KeepsUsed l s.heap.mem t.heap.mem ∨ KeepsContent l s.heap.mem t.heap.mem) := by
  cases op with
  | kmalloc n =>
    obtain ⟨h,p,_,executed,_,keeps,_⟩ := kmalloc_step region inv n
    exact ⟨⟨h,if p = 0 then s.live else p :: s.live⟩,by simp only [exec,executed,Outcome.bind_ok],fun _ => .inl keeps⟩
  | kfree p =>
    rcases allowed with rfl | isLive
    · exact ⟨⟨s.heap,s.live.erase 0⟩,by simp only [exec,kfree,if_true,Outcome.bind_ok],fun _ => .inl (fun _ _ => rfl)⟩
    · obtain ⟨h,_,executed,keeps,_⟩ := kfree_step region inv isLive
      exact ⟨⟨h,s.live.erase p⟩,by simp only [exec,executed,Outcome.bind_ok],fun _ => .inr keeps⟩
  | write a v => exact ⟨_,rfl,fun ordinary => absurd rfl (ordinary a v)⟩

/-- From `kalloc_init` on, every allowed operation returns, every state is well
    formed, and no allocation or free changes a byte of another live block. -/
theorem heap_representation (region : Region start total) :
    (∀ m, ∃ h, kalloc_init m start total = .ok h) ∧
    ∀ s, (client start total).Reachable s →
      (∃ l, WellFormed start total s l) ∧
      ∀ op, Allowed s op → ∃ t, exec s op = .ok t ∧ ((∀ a v, op ≠ .write a v) →
        ∀ p ∈ s.live, op ≠ .kfree p → ∀ x, p ≤ x → x < p + recorded s.heap.mem p →
          t.heap.mem x = s.heap.mem x) := by
  refine ⟨fun m => (kalloc_init_spec region m).imp (fun _ spec => spec.1),?_⟩
  intro s reached
  obtain ⟨l,inv⟩ := session_invariant region reached
  refine ⟨⟨l,session_wellFormed region inv⟩,?_⟩
  intro op allowed
  obtain ⟨t,executed,keeps⟩ := exec_total region inv allowed
  exact ⟨t,executed,fun ordinary p isLive _ x low high => content_kept inv (keeps ordinary) isLive low high⟩

theorem page_region : Region 4096 4096 := ⟨by decide,by decide,by decide,by decide⟩

/-- Two allocations in a heap of one page. -/
theorem page_session : ∃ s, (client 4096 4096).Reachable s ∧ s.live = [4184,4128] := by
  have region := page_region
  obtain ⟨h,initial,_⟩ := kalloc_init_spec region (fun _ => 0)
  have first : (client 4096 4096).Reachable ⟨h,[]⟩ := System.reachable_initial ⟨⟨_,initial⟩,rfl⟩
  have small : (24 : Nat) < 2 ^ 64 ∧ (100 : Nat) < 2 ^ 64 := by decide
  obtain ⟨l,inv⟩ := session_invariant region first
  obtain ⟨s,executed,_⟩ := exec_total region inv (show Allowed _ (.kmalloc 24) from small.1)
  have second := first.step (a := Op.kmalloc 24) ⟨small.1,executed⟩
  obtain ⟨l',inv'⟩ := session_invariant region second
  obtain ⟨t,executed',_⟩ := exec_total region inv' (show Allowed _ (.kmalloc 100) from small.2)
  refine ⟨t,second.step (a := Op.kmalloc 100) ⟨small.2,executed'⟩,?_⟩
  cases initial
  cases executed
  cases executed'
  rfl

theorem heap_representation_one_page : ∃ s, (client 4096 4096).Reachable s ∧ s.live = [4184,4128] ∧
    ∃ l, WellFormed 4096 4096 s l := by
  obtain ⟨s,reached,live⟩ := page_session
  exact ⟨s,reached,live,
    ((heap_representation page_region).2 s reached).1⟩

/-! ### The canonical form -/

/-- Freeing distinct live pointers removes exactly their blocks. -/
theorem freeAll_spec (region : Region start total) {s : Session} {l : List Segment}
    (inv : SessionInvariant start total s l) {ps : List Nat} (distinct : ps.Nodup) (within : ∀ p ∈ ps, p ∈ s.live) :
    ∃ h after, freeAll s.heap ps = .ok h ∧ Invariant start total h after ∧
      ∀ u, u ∈ used after ↔ u ∈ used l ∧ u.start + 32 ∉ ps := by
  induction ps generalizing s l with
  | nil => exact ⟨s.heap,l,rfl,inv.heap,by simp⟩
  | cons p ps ih =>
    rw [List.nodup_cons] at distinct
    obtain ⟨h,after,executed,_,inv',usedIff⟩ := kfree_step region inv (within p (by simp))
    have next : SessionInvariant start total ⟨h,s.live.erase p⟩ after := by
      refine ⟨inv',inv.distinct.erase p,?_⟩
      intro q
      rw [inv.distinct.mem_erase_iff,inv.pointers q]
      constructor
      · rintro ⟨other,u,inside,rfl⟩
        exact ⟨u,(usedIff u).mpr ⟨inside,other⟩,rfl⟩
      · rintro ⟨u,inside,rfl⟩
        have both := (usedIff u).mp inside
        exact ⟨both.2,u,both.1,rfl⟩
    obtain ⟨k,final,rest,inv'',usedFinal⟩ := ih next distinct.2 (by
      intro q member
      refine inv.distinct.mem_erase_iff.mpr ⟨?_,within q (by simp [member])⟩
      rintro rfl
      exact distinct.1 member)
    refine ⟨k,final,by simp only [freeAll,List.foldlM_cons,executed,Outcome.bind_ok]; exact rest,inv'',?_⟩
    intro u
    rw [usedFinal u,usedIff u,List.mem_cons]
    tauto

theorem single_block (region : Region start total) {h : Heap} {l : List Segment} (inv : Invariant start total h l)
    (empty : ∀ u, u ∉ used l) : blockList h = some [⟨start,total - 32,true⟩] := by
  have whole : Tiles 32 start (start + total) [⟨start,total - 32,true⟩] := by
    have := region.header
    simp only [sizeof_heap_block] at this
    refine ⟨rfl,?_⟩
    simp only [Tiles,stop]
    omega
  rw [blockList_eq region inv]
  congr 1
  refine tiles_determined (by decide) inv.tiles whole inv.canonical (.singleton _) ?_
  intro u
  exact iff_of_false (empty u) (by simp [used])

/-- The block list of a reachable state has no two adjacent free blocks and is
    the only one with its blocks in use. So a free undoes the allocation before
    it, the order of frees does not matter, and without live pointers the heap
    is one free block. -/
theorem heap_canonical (region : Region start total) :
    ∀ s, (client start total).Reachable s →
      (∃ l, blockList s.heap = some l ∧ l.IsChain (fun b c => ¬ (b.free = true ∧ c.free = true)) ∧
        ∀ t r, (client start total).Reachable t → blockList t.heap = some r →
          (∀ b, b ∈ used l ↔ b ∈ used r) → l = r) ∧
      (∀ n h p, n < 2 ^ 64 → kmalloc s.heap n = .ok (h,p) →
        ∃ k, kfree h p = .ok k ∧ blockList k = blockList s.heap) ∧
      (∀ ps qs : List Nat, ps.Perm qs → ps.Nodup → (∀ p ∈ ps, p ∈ s.live) →
        ∃ h k, freeAll s.heap ps = .ok h ∧ freeAll s.heap qs = .ok k ∧ blockList h = blockList k) ∧
      (∀ ps : List Nat, ps.Perm s.live →
        ∃ h, freeAll s.heap ps = .ok h ∧ blockList h = some [⟨start,total - sizeof_heap_block,true⟩]) ∧
      (s.live = [] → blockList s.heap = some [⟨start,total - sizeof_heap_block,true⟩]) := by
  intro s reached
  obtain ⟨l,inv⟩ := session_invariant region reached
  refine ⟨⟨l,blockList_eq region inv.heap,inv.heap.canonical,?_⟩,?_,?_,?_,?_⟩
  · intro t r reached' listed same
    obtain ⟨r',inv'⟩ := session_invariant region reached'
    obtain rfl : r' = r := by simpa [blockList_eq region inv'.heap] using listed
    exact tiles_determined (by decide) inv.heap.tiles inv'.heap.tiles inv.heap.canonical inv'.heap.canonical same
  · intro n h p small run
    obtain ⟨h',p',after,executed,_,_,inv',outcome⟩ := kmalloc_step region inv n
    obtain ⟨rfl,rfl⟩ : h' = h ∧ p' = p := by simpa [executed] using run
    rcases outcome with ⟨rfl,rfl⟩ | ⟨nonzero,_,b,place,_,_,apart,usedIff⟩
    · exact ⟨h',by simp [kfree],invariant_determined region inv' inv.heap (fun _ => Iff.rfl)⟩
    · have next : (client start total).step s (.kmalloc n) ⟨h',p' :: s.live⟩ :=
        ⟨small,by simp only [exec,executed,Outcome.bind_ok,nonzero,if_false]⟩
      obtain ⟨after',inv''⟩ := session_step region ⟨l,inv⟩ next
      obtain ⟨k,final,freed,_,invK,usedFinal⟩ := kfree_step region inv'' (p := p') (by simp)
      refine ⟨k,freed,invariant_determined region invK inv.heap ?_⟩
      have sameList : after' = after := by
        have := (blockList_eq region inv''.heap).symm.trans (blockList_eq region inv')
        simpa using this
      intro u
      rw [usedFinal u,sameList,usedIff u]
      constructor
      · rintro ⟨old | rfl,other⟩
        · exact old
        · exact absurd place.symm other
      · intro old
        refine ⟨.inl old,?_⟩
        intro same
        exact apart u old (by omega)
  · intro ps qs perm distinct within
    obtain ⟨h,after,run,invH,usedH⟩ := freeAll_spec region inv distinct within
    obtain ⟨k,after',run',invK,usedK⟩ := freeAll_spec region inv (perm.nodup_iff.mp distinct)
      (fun p member => within p (perm.mem_iff.mpr member))
    refine ⟨h,k,run,run',invariant_determined region invH invK ?_⟩
    intro u
    rw [usedH u,usedK u,perm.mem_iff]
  · intro ps perm
    obtain ⟨h,after,run,invH,usedH⟩ := freeAll_spec region inv (perm.nodup_iff.mpr inv.distinct)
      (fun p member => perm.mem_iff.mp member)
    refine ⟨h,run,single_block region invH ?_⟩
    intro u inside
    obtain ⟨old,absent⟩ := (usedH u).mp inside
    exact absent (perm.mem_iff.mpr ((inv.pointers _).mpr ⟨u,old,rfl⟩))
  · intro empty
    refine single_block region inv.heap ?_
    intro u inside
    have := (inv.pointers (u.start + 32)).mpr ⟨u,inside,rfl⟩
    simp [empty] at this

theorem heap_canonical_one_page : ∃ s, (client 4096 4096).Reachable s ∧ s.live = [4184,4128] ∧
    (∃ h k, freeAll s.heap [4184,4128] = .ok h ∧ freeAll s.heap [4128,4184] = .ok k ∧ blockList h = blockList k) ∧
    ∃ h, freeAll s.heap [4128,4184] = .ok h ∧ blockList h = some [⟨4096,4064,true⟩] := by
  obtain ⟨s,reached,live⟩ := page_session
  obtain ⟨_,_,orders,all,_⟩ := heap_canonical page_region s reached
  have swap : [4184,4128].Perm [4128,4184] := .swap 4128 4184 []
  exact ⟨s,reached,live,orders _ _ swap (by decide) (by simp [live]),all _ (live ▸ swap.symm)⟩

end
end NekoOs.HeapRuns
