import NekoOs.HeapRuns
import NekoOs.X86

/-!
Task creation and the first switch to a task. `task_create` lays out an initial
frame on the task's stack, which `scheduler_context_switch` pops. The pops read
the frame from its lowest word upwards, and so `r12` receives what the code
labels `r13` and the other way round.
-/
namespace NekoOs.Tasks
open ByteMemory Words Tiling Alloc HeapModel HeapRuns Transitions X86

/-! ### The task record: `rsp` at 0, `cr3` at 8, `state` at 16, `id` at 20, `cpu_id` at 24, `next` at 32, `stack` at 40 -/

def TASK_STACK_SIZE : Nat := 0x4000
/-- `sizeof(task_t)`. -/
def sizeof_task : Nat := 40 + TASK_STACK_SIZE
def TASK_READY : Nat := 0

/-- Addresses the linker gives to the functions whose addresses `task_create` stores. -/
structure Symbols where
  task_exit : Nat
  task_trampoline : Nat
  exitFits : task_exit < limit64
  trampolineFits : task_trampoline < limit64

structure Kernel where
  heap : Heap
  next_task_id : Nat

/-- `*--rsp = v` -/
def pushWord (frame : Memory × Nat) (v : Nat) : Memory × Nat :=
  let rsp := sub64 frame.2 8
  (store frame.1 rsp 8 v,rsp)

/-- The initial words, in the order in which they are pushed. The comments in
    the code name the last six `r15`, `r14`, `r13`, `r12`, `rbx` and `rbp`. -/
def initialWords (sym : Symbols) (entry arg : Nat) : List Nat :=
  [sym.task_exit,sym.task_trampoline,0,0,arg,entry,0,0]

/-- The task record as `task_create` fills it. -/
def initTask (sym : Symbols) (cr3 id : Nat) (m : Memory) (task entry arg : Nat) : Memory :=
  let m := fill m task sizeof_task 0
  let m := store m (task + 20) 4 id
  let m := store m (task + 16) 4 TASK_READY
  let m := store m (task + 24) 1 0xFF
  let m := store m (task + 8) 8 cr3
  let frame := (initialWords sym entry arg).foldl pushWord (m,add64 (add64 task 40) TASK_STACK_SIZE)
  store frame.1 task 8 frame.2

def task_create (sym : Symbols) (cr3 : Nat) (k : Kernel) (entry arg : Nat) : Outcome (Kernel × Nat) := do
  let (h,task) ← kmalloc k.heap sizeof_task
  .ok ({ heap := { h with mem := initTask sym cr3 k.next_task_id h.mem task entry arg },
         next_task_id := (k.next_task_id + 1) % 2 ^ 32 },task)

/-- `scheduler_context_switch(old, new)` with `old` in `rdi` and `new` in `rsi`. -/
def scheduler_context_switch : List Instr :=
  [.push .rbp,.push .rbx,.push .r12,.push .r13,.push .r14,.push .r15,
   .store .rdi .rsp,
   .load .rsp .rsi,
   .pop .r15,.pop .r14,.pop .r13,.pop .r12,.pop .rbx,.pop .rbp,
   .ret]

/-- The function and the argument that `task_trampoline` calls it with. -/
def task_trampoline (c : Machine) : Nat × Nat := (c.reg .r12,c.reg .r13)

/-! ### The initial frame -/

section
variable {m : Memory} {top : Nat}

private theorem pushWord_eq {v : Nat} (room : 8 ≤ top) (fits : top ≤ limit64) :
    pushWord (m,top % limit64) v = (store m (top - 8) 8 v,(top - 8) % limit64) := by
  have pointer : sub64 (top % limit64) 8 = top - 8 := by
    have split : top + (limit64 - 8) = (top - 8) + limit64 := by simp only [limit64] at *; omega
    rw [sub64,Nat.mod_add_mod,split,Nat.add_mod_right,Nat.mod_eq_of_lt (by simp only [limit64] at *; omega)]
  have small : (top - 8) % limit64 = top - 8 := Nat.mod_eq_of_lt (by simp only [limit64] at *; omega)
  simp only [pushWord,pointer,small]

/-- Pushes write the words below the top, the first one highest, and nothing else. -/
private theorem pushWords_spec (words : List Nat) (room : 8 * words.length ≤ top) (fits : top ≤ limit64)
    (values : ∀ v ∈ words, v < limit64) :
    (words.foldl pushWord (m,top % limit64)).2 = (top - 8 * words.length) % limit64 ∧
    (∀ x, x < top - 8 * words.length ∨ top ≤ x → (words.foldl pushWord (m,top % limit64)).1 x = m x) ∧
    ∀ i v, words[i]? = some v → load (words.foldl pushWord (m,top % limit64)).1 (top - 8 * (i + 1)) 8 = v := by
  induction words generalizing m top with
  | nil => exact ⟨rfl,fun _ _ => rfl,by simp⟩
  | cons w words ih =>
    rw [List.length_cons] at room
    rw [List.foldl_cons,pushWord_eq (by omega) fits]
    have later : ∀ v ∈ words, v < limit64 := fun v member => values v (by simp [member])
    obtain ⟨pointer,outside,words'⟩ := @ih (store m (top - 8) 8 w) (top - 8) (by omega) (by omega) later
    refine ⟨?_,?_,?_⟩
    · rw [pointer,List.length_cons,Nat.sub_sub,Nat.mul_succ,Nat.add_comm 8]
    · intro x apart
      rw [List.length_cons] at apart
      rw [outside x (by omega),store_outside (by omega)]
    · intro i v found
      cases i with
      | zero =>
        obtain rfl : w = v := by simpa using found
        have kept : load (words.foldl pushWord (store m (top - 8) 8 w,(top - 8) % limit64)).1 (top - 8) 8 =
            load (store m (top - 8) 8 w) (top - 8) 8 :=
          load_congr (fun x low high => outside x (by omega))
        rw [Nat.zero_add,Nat.mul_one,kept]
        exact load_store_same (values w (by simp))
      | succ i =>
        have below := words' i v (by simpa using found)
        have address : top - 8 - 8 * (i + 1) = top - 8 * (i + 1 + 1) := by omega
        rw [address] at below
        exact below

end

/-- The words of the initial frame, counted from the top of the stack, and the
    saved stack pointer below them. Nothing outside the record is written. -/
theorem initTask_frame {sym : Symbols} {cr3 id task entry arg : Nat} {m : Memory}
    (top : task + sizeof_task ≤ limit64) (entryFits : entry < limit64) (argFits : arg < limit64) :
    load (initTask sym cr3 id m task entry arg) task 8 = task + sizeof_task - 64 ∧
    (∀ i v, (initialWords sym entry arg)[i]? = some v →
      load (initTask sym cr3 id m task entry arg) (task + sizeof_task - 8 * (i + 1)) 8 = v) ∧
    ∀ x, x < task ∨ task + sizeof_task ≤ x → initTask sym cr3 id m task entry arg x = m x := by
  have exitFits := sym.exitFits
  have trampolineFits := sym.trampolineFits
  have start : add64 (add64 task 40) TASK_STACK_SIZE = (task + sizeof_task) % limit64 := by
    simp only [add64,Nat.mod_add_mod,sizeof_task,Nat.add_assoc]
  have large : 64 ≤ task + sizeof_task := by simp only [sizeof_task,TASK_STACK_SIZE]; omega
  have length : (initialWords sym entry arg).length = 8 := rfl
  have values : ∀ v ∈ initialWords sym entry arg, v < limit64 := by
    have zero : 0 < limit64 := by decide
    simp only [initialWords,List.mem_cons,List.not_mem_nil,or_false]
    rintro v (rfl | rfl | rfl | rfl | rfl | rfl | rfl | rfl)
    exacts [exitFits,trampolineFits,zero,zero,argFits,entryFits,zero,zero]
  simp only [initTask,start]
  set base := store (store (store (store (fill m task sizeof_task 0) (task + 20) 4 id) (task + 16) 4 TASK_READY)
    (task + 24) 1 0xFF) (task + 8) 8 cr3 with baseIs
  obtain ⟨pointer,outside,words⟩ := pushWords_spec (m := base) (initialWords sym entry arg) (by omega) top values
  have small : (task + sizeof_task - 64) % limit64 = task + sizeof_task - 64 :=
    Nat.mod_eq_of_lt (by simp only [limit64] at *; omega)
  rw [show 8 * (initialWords sym entry arg).length = 64 from rfl,small] at pointer
  refine ⟨?_,?_,?_⟩
  · rw [pointer]
    exact load_store_same (by simp only [limit64] at top; omega)
  · intro i v found
    have bound : i < 8 := length ▸ (List.getElem?_eq_some_iff.mp found).1
    rw [load_store_disjoint (.inr (by simp only [sizeof_task,TASK_STACK_SIZE]; omega))]
    exact words i v found
  · intro x apart
    have size : sizeof_task = 16424 := rfl
    rw [length] at outside
    rw [store_outside (by omega),outside x (by omega),baseIs]
    rw [store_outside (by omega),store_outside (by omega),store_outside (by omega),store_outside (by omega),
      fill_outside apart]

/-! ### The first switch to a task -/

section
variable {sym : Symbols} {entry arg t : Nat} {c : Machine}

end

/-! A boot processor and a heap of eight pages at 0x10000. -/

theorem eight_pages_region : Region 0x10000 0x8000 := ⟨by decide,by decide,by decide,by decide⟩

end NekoOs.Tasks
