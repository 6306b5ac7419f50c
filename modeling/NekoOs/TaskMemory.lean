import NekoOs.Allocation
import NekoOs.Tasks

/-!
The memory of tasks. `task_create` does not look at what `kmalloc` returns: where
no free block can hold a task it fills the record at address 0 and returns that.
As long as there is such a block, every task has its own live block.
-/
namespace NekoOs.TaskMemory
open ByteMemory Words Tiling Alloc HeapModel HeapRuns Allocation Tasks Transitions

def InHeap (start total x : Nat) : Prop := start ≤ x ∧ x < start + total

/-- `task_create` returns `NULL` and writes nothing, whatever memory outside the heap holds. -/
def FailsCleanly (start total : Nat) (sym : Symbols) (cr3 : Nat) (s : Session) (id entry arg : Nat) : Prop :=
  ∀ m, AgreeOn m s.heap.mem (InHeap start total) →
    ∃ k, task_create sym cr3 ⟨{ s.heap with mem := m },id⟩ entry arg = .ok (k,0) ∧ k.heap.mem = m

/-- The task `t` has a block of its own, apart from every block that was live, and
    its saved stack pointer is inside its stack. -/
structure OwnBlock (s : Session) (k : Kernel) (t : Nat) : Prop where
  block : ∃ b, HasBlock k.heap b ∧ b.free = false ∧ t = b.start + sizeof_heap_block ∧ sizeof_task ≤ b.size
  fresh : t ∉ s.live
  apart : ∀ p ∈ s.live, p + recorded s.heap.mem p ≤ t ∨ t + sizeof_task ≤ p
  stack : t + 40 ≤ load k.heap.mem t 8 ∧ load k.heap.mem t 8 < t + 40 + TASK_STACK_SIZE

def CreatesOrFails (start total : Nat) (sym : Symbols) (cr3 : Nat) (s : Session) (id entry arg : Nat) : Prop :=
  FailsCleanly start total sym cr3 s id entry arg ∨
    ∃ k t, task_create sym cr3 ⟨s.heap,id⟩ entry arg = .ok (k,t) ∧ OwnBlock s k t

/-- Some free block can hold a task. -/
def Roomy (h : Heap) : Prop := ∃ b, HasBlock h b ∧ b.free = true ∧ sizeof_task ≤ b.size

/-! ### Runs that create tasks -/

structure Tasked where
  session : Session
  next_task_id : Nat
  tasks : List Nat

inductive Event
  | heap (op : Op)
  | create (entry arg : Nat)

/-- The allocator with its clients and `task_create`. No code frees a task. -/
def creating (start total : Nat) (sym : Symbols) (cr3 : Nat) : System Tasked Event where
  initial c := (client start total).initial c.session ∧ c.next_task_id = 0 ∧ c.tasks = []
  step c e d := match e with
    | .heap op => (client start total).step c.session op d.session ∧ (∀ p ∈ c.tasks, op ≠ .kfree p) ∧
        d.next_task_id = c.next_task_id ∧ d.tasks = c.tasks
    | .create entry arg => entry < 2 ^ 64 ∧ arg < 2 ^ 64 ∧ ∃ t,
        task_create sym cr3 ⟨c.session.heap,c.next_task_id⟩ entry arg = .ok (⟨d.session.heap,d.next_task_id⟩,t) ∧
        d.session.live = (if t = 0 then c.session.live else t :: c.session.live) ∧ d.tasks = t :: c.tasks

/-- Tasks are created only while some free block can hold one. -/
def WithRoom (c : Tasked) : Event → Prop
  | .heap _ => True
  | .create _ _ => Roomy c.session.heap

section
variable {start total : Nat} {sym : Symbols} {cr3 id entry arg : Nat} {s : Session} {l : List Segment}

/-! ### One task -/

theorem roundRequest_task : roundRequest sizeof_task = sizeof_task := by decide

/-- With room for it, a task gets a block in use that was free before. -/
theorem task_created (sym : Symbols) (cr3 id : Nat) (region : Region start total) (reached : (client start total).Reachable s)
    (inv : SessionInvariant start total s l) (room : ∃ b ∈ l, b.free = true ∧ sizeof_task ≤ b.size)
    (entryFits : entry < 2 ^ 64) (argFits : arg < 2 ^ 64) :
    ∃ k t l', task_create sym cr3 ⟨s.heap,id⟩ entry arg = .ok (k,t) ∧ t ≠ 0 ∧ OwnBlock s k t ∧
      (client start total).Reachable ⟨k.heap,t :: s.live⟩ ∧ SessionInvariant start total ⟨k.heap,t :: s.live⟩ l' ∧
      (∃ b ∈ used l', t = b.start + 32 ∧ sizeof_task ≤ b.size) ∧ ∀ u ∈ used l, u ∈ used l' := by
  have large : sizeof_task = 16424 := rfl
  rcases kmalloc_cases region inv (n := sizeof_task) (by decide) with
    ⟨_,smaller⟩ | ⟨before,b,after,h,rfl,isFree,enough,_,executed,heap,_⟩
  · obtain ⟨b,member,isFree,enough⟩ := room
    have := smaller b member isFree
    rw [roundRequest_task] at this
    omega
  rw [roundRequest_task] at enough heap
  have nonzero : b.start + 32 ≠ 0 := by omega
  have step : (client start total).step s (.kmalloc sizeof_task) ⟨h,(b.start + 32) :: s.live⟩ :=
    ⟨(by decide : sizeof_task < 2 ^ 64),by simp only [exec,executed,Outcome.bind_ok,nonzero,if_false]⟩
  have reached' := reached.step step
  obtain ⟨l',inv',kept⟩ := session_blocks region inv step
  obtain rfl : l' = _ := by simpa using (blockList_eq region inv'.heap).symm.trans (blockList_eq region heap)
  -- the new block
  obtain ⟨rest,shape,_⟩ := carve_head sizeof_task b
  have member : taken sizeof_task b ∈ before ++ (carve sizeof_task b ++ after) := by simp [shape]
  have bounds := taken_bounds enough
  have inside := carved_inside inv.heap.tiles enough
  have fits : start + total ≤ limit64 := region.fits
  have place : (taken sizeof_task b).start = b.start := rfl
  have recordedSize : recorded h.mem (b.start + 32) = (taken sizeof_task b).size := recorded_eq inv'.heap member
  -- the record is filled inside it
  obtain ⟨pointer,_,outside⟩ := @initTask_frame sym cr3 id (b.start + 32) entry arg h.mem (by omega)
    (by simpa [limit64] using entryFits) (by simpa [limit64] using argFits)
  have result : task_create sym cr3 ⟨s.heap,id⟩ entry arg =
      .ok (⟨{ h with mem := initTask sym cr3 id h.mem (b.start + 32) entry arg },(id + 1) % 2 ^ 32⟩,b.start + 32) := by
    simp only [task_create,executed,Outcome.bind_ok]
  have final := content_reachable reached' (p := b.start + 32) List.mem_cons_self (by omega) (n := sizeof_task)
    (by simp only [recordedSize]; omega) outside
  have inv'' := content_step inv' (m := initTask sym cr3 id h.mem (b.start + 32) entry arg) (fun x changed => by
    refine ⟨b.start + 32,List.mem_cons_self,?_⟩
    rw [recordedSize]
    by_contra away
    exact changed (outside x (by omega)))
  have inUse : taken sizeof_task b ∈ used (before ++ (carve sizeof_task b ++ after)) := mem_used.mpr ⟨member,rfl⟩
  have oldUsed : ∀ u ∈ used (before ++ b :: after), u ∈ used (before ++ (carve sizeof_task b ++ after)) :=
    fun u old => kept u old (fun same => by cases same)
  have dead : b.start + 32 ∉ s.live := by
    intro isLive
    obtain ⟨u,old,same⟩ := (inv.pointers _).mp isLive
    have equal := tiles_start_inj (by decide) inv.heap.tiles (mem_used.mp old).1 (t := b) (by simp) (by omega)
    simp [equal,isFree,mem_used] at old
  refine ⟨_,_,_,result,nonzero,⟨?_,dead,?_,?_⟩,final,inv'',⟨_,inUse,rfl,by omega⟩,oldUsed⟩
  · exact ⟨_,(hasBlock_iff region inv''.heap _).mpr member,rfl,rfl,by omega⟩
  · intro p isLive
    obtain ⟨u,old,rfl⟩ := (inv.pointers p).mp isLive
    rw [recorded_eq inv.heap (mem_used.mp old).1]
    rcases tiles_apart inv.heap.tiles (mem_used.mp old).1 (t := b) (by simp) with rfl | first | second
    · exact absurd isLive dead
    · simp only [stop] at first; omega
    · simp only [stop] at second; omega
  · rw [pointer]
    simp only [sizeof_task,TASK_STACK_SIZE]
    omega

/-- Without room the record is filled at address 0. -/
theorem task_not_created (region : Region start total) (inv : SessionInvariant start total s l)
    (full : ∀ b ∈ l, b.free = true → b.size < sizeof_task) (entryFits : entry < 2 ^ 64) (argFits : arg < 2 ^ 64) :
    ¬CreatesOrFails start total sym cr3 s id entry arg := by
  have null {h : Heap} (heap : Invariant start total h l) : kmalloc h sizeof_task = .ok (h,0) := by
    have spec := kmalloc_spec region heap (n := sizeof_task) (by decide)
    rw [roundRequest_task] at spec
    cases found : firstFit sizeof_task l with
    | none =>
      rw [found] at spec
      exact spec
    | some result =>
      obtain ⟨after,p⟩ := result
      obtain ⟨b,member,isFree,enough,_⟩ := firstFit_used found
      have := full b member isFree
      omega
  have low := region.low
  rintro (fails | ⟨k,t,created,own⟩)
  · -- a byte at address 0 other than the one that the saved stack pointer begins with
    set m := Function.update s.heap.mem 0 0 with mIs
    have agrees : AgreeOn m s.heap.mem (InHeap start total) := by
      rintro x ⟨above,_⟩
      exact Function.update_of_ne (by omega) _ _
    have heap : Invariant start total { s.heap with mem := m } l := by
      refine inv.heap.content (fun b member x above below => ?_)
      have bounds := (tiles_bounds inv.heap.tiles).2 b member
      simp only [stop] at bounds
      exact agrees x ⟨by omega,by omega⟩
    obtain ⟨k,created,same⟩ := fails m agrees
    simp only [task_create,null heap,Outcome.bind_ok,Outcome.ok.injEq,Prod.mk.injEq,and_true] at created
    subst created
    obtain ⟨pointer,_⟩ := @initTask_frame sym cr3 id 0 entry arg m (by decide)
      (by simpa [limit64] using entryFits) (by simpa [limit64] using argFits)
    simp only at same
    rw [same] at pointer
    have first := load_mod m 0 1 7
    rw [show load m 0 (1 + 7) = 0 + sizeof_task - 64 from pointer] at first
    have byte : load m 0 1 = 0 := by simp [load,mIs]
    rw [byte] at first
    revert first
    decide
  · simp only [task_create,null inv.heap,Outcome.bind_ok,Outcome.ok.injEq,Prod.mk.injEq] at created
    obtain ⟨b,_,_,place,_⟩ := own.block
    rw [sizeof_heap_block] at place
    omega

theorem roomy_iff (region : Region start total) {h : Heap} (inv : Invariant start total h l) :
    Roomy h ↔ ∃ b ∈ l, b.free = true ∧ sizeof_task ≤ b.size := by
  simp only [Roomy,hasBlock_iff region inv]

/-! ### All tasks -/

/-- The storage of two tasks is apart. -/
def Apart (t u : Nat) : Prop := t + sizeof_task ≤ u ∨ u + sizeof_task ≤ t

structure TaskedInvariant (start total : Nat) (c : Tasked) (l : List Segment) : Prop where
  reached : (client start total).Reachable c.session
  session : SessionInvariant start total c.session l
  blocks : ∀ t ∈ c.tasks, ∃ b ∈ used l, t = b.start + 32 ∧ sizeof_task ≤ b.size
  apart : c.tasks.Pairwise Apart

theorem tasked_step (region : Region start total) {c d : Tasked} {e : Event} (inv : TaskedInvariant start total c l)
    (step : ((creating start total sym cr3).restrict WithRoom).step c e d) : ∃ l', TaskedInvariant start total d l' := by
  obtain ⟨room,step⟩ := step
  cases e with
  | heap op =>
    obtain ⟨moved,keeps,_,same⟩ := step
    obtain ⟨l',session,kept⟩ := session_blocks region inv.session moved
    refine ⟨l',inv.reached.step moved,session,fun t member => ?_,same ▸ inv.apart⟩
    rw [same] at member
    obtain ⟨b,old,rfl,large⟩ := inv.blocks t member
    exact ⟨b,kept b old (keeps _ member),rfl,large⟩
  | create entry arg =>
    obtain ⟨entryFits,argFits,t,created,live,tasks⟩ := step
    obtain ⟨k,t',l',created',nonzero,own,reached,session,block,kept⟩ :=
      task_created sym cr3 c.next_task_id region inv.reached inv.session
        ((roomy_iff region inv.session.heap).mp room) entryFits argFits
    obtain ⟨rfl,rfl⟩ : k = ⟨d.session.heap,d.next_task_id⟩ ∧ t' = t := by simpa [created'] using created
    rw [if_neg nonzero] at live
    rw [← live] at reached session
    refine ⟨l',reached,session,?_,?_⟩
    · intro u member
      rcases List.mem_cons.mp (tasks ▸ member) with rfl | earlier
      · exact block
      · obtain ⟨b,old,place,large⟩ := inv.blocks u earlier
        exact ⟨b,kept b old,place,large⟩
    · rw [tasks]
      refine .cons (fun u earlier => ?_) inv.apart
      obtain ⟨b,old,rfl,large⟩ := inv.blocks u earlier
      have away := own.apart _ ((inv.session.pointers _).mpr ⟨b,old,rfl⟩)
      rw [recorded_eq inv.session.heap (mem_used.mp old).1] at away
      unfold Apart
      omega

theorem tasked_invariant (region : Region start total) {c : Tasked}
    (reached : ((creating start total sym cr3).restrict WithRoom).Reachable c) : ∃ l, TaskedInvariant start total c l := by
  refine reached.invariant (P := fun c => ∃ l, TaskedInvariant start total c l) ?_ ?_
  · rintro c ⟨first,_,empty⟩
    exact ⟨_,System.reachable_initial first,session_initial region first,by simp [empty],by simp [empty]⟩
  · rintro c e d ⟨l,inv⟩ step
    exact tasked_step region inv step

/-- `task_create` gives a task a block of its own, or fails cleanly, exactly where some
    free block can hold a task, and where all tasks are created so they are apart. -/
theorem task_create_iff (region : Region start total) (sym : Symbols) (cr3 : Nat) :
    (∀ s, (client start total).Reachable s → ∀ id entry arg, entry < 2 ^ 64 → arg < 2 ^ 64 →
      (CreatesOrFails start total sym cr3 s id entry arg ↔ Roomy s.heap)) ∧
    ∀ c, ((creating start total sym cr3).restrict WithRoom).Reachable c →
      (client start total).Reachable c.session ∧ (∀ t ∈ c.tasks, t ∈ c.session.live) ∧ c.tasks.Pairwise Apart := by
  constructor
  · intro s reached id entry arg entryFits argFits
    obtain ⟨l,inv⟩ := session_invariant region reached
    rw [roomy_iff region inv.heap]
    constructor
    · intro holds
      by_contra full
      refine task_not_created region inv (fun b member isFree => ?_) entryFits argFits holds
      by_contra enough
      exact full ⟨b,member,isFree,by omega⟩
    · intro room
      obtain ⟨k,t,_,created,_,own,_⟩ := task_created sym cr3 id region reached inv room
        entryFits argFits
      exact .inr ⟨k,t,created,own⟩
  · intro c reached
    obtain ⟨l,inv⟩ := tasked_invariant region reached
    refine ⟨inv.reached,fun t member => ?_,inv.apart⟩
    obtain ⟨b,old,place,_⟩ := inv.blocks t member
    exact (inv.session.pointers t).mpr ⟨b,old,place⟩

private theorem linked_exit : 0x101000 < limit64 := by decide
private theorem linked_trampoline : 0x100000 < limit64 := by decide
private def linkedSymbols : Symbols := ⟨0x101000,0x100000,linked_exit,linked_trampoline⟩

/-- A heap of eight pages has room for a task. -/
theorem task_create_iff_eight_pages : ∃ s, (client 0x10000 0x8000).Reachable s ∧
    CreatesOrFails 0x10000 0x8000 linkedSymbols 0x200000 s 0 0x102000 7 := by
  have region := eight_pages_region
  obtain ⟨h,initial,heap⟩ := kalloc_init_spec region (fun _ => 0)
  have reached : (client 0x10000 0x8000).Reachable ⟨h,[]⟩ := System.reachable_initial ⟨⟨_,initial⟩,rfl⟩
  have room : Roomy h := (roomy_iff region heap).mpr ⟨_,List.mem_cons_self,rfl,by decide⟩
  exact ⟨_,reached,((task_create_iff region linkedSymbols 0x200000).1 _ reached 0 0x102000 7 (by decide)
    (by decide)).mpr room⟩

/-- A heap of one page has none. -/
theorem task_created_at_zero : ∃ s, (client 4096 4096).Reachable s ∧
    ¬CreatesOrFails 4096 4096 linkedSymbols 0x200000 s 0 0x102000 7 := by
  have region := page_region
  obtain ⟨h,initial,_⟩ := kalloc_init_spec region (fun _ => 0)
  have first : (client 4096 4096).initial ⟨h,[]⟩ := ⟨⟨_,initial⟩,rfl⟩
  refine ⟨_,System.reachable_initial first,task_not_created region (session_initial region first) ?_ (by decide)
    (by decide)⟩
  intro b member _
  obtain rfl := List.mem_singleton.mp member
  decide

end
end NekoOs.TaskMemory
