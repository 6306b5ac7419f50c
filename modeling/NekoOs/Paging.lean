import NekoOs.ByteMemory
import NekoOs.Outcome
import NekoOs.PathTree
import Mathlib.Data.Nat.Bitwise

/-!
Page tables in memory: the functions that map a page, and the walk of the
hardware. Tables are the nodes of a tree whose levels are counted from 0, the
level of the page table with the leaves for 4 KiB pages.
-/
namespace NekoOs.Paging
open ByteMemory PathTree

def PAGE_PRESENT : Nat := 2 ^ 0
def PAGE_WRITABLE : Nat := 2 ^ 1
def PAGE_USER : Nat := 2 ^ 2
def PAGE_WRITE_THROUGH : Nat := 2 ^ 3
def PAGE_CACHE_DISABLE : Nat := 2 ^ 4
def PAGE_ACCESSED : Nat := 2 ^ 5
def PAGE_DIRTY : Nat := 2 ^ 6
def PAGE_HUGE : Nat := 2 ^ 7
def PAGE_GLOBAL : Nat := 2 ^ 8
def PAGE_NO_EXECUTE : Nat := 2 ^ 63

/-- `sizeof(page_table_t)` -/
def sizeof_page_table : Nat := 4096

/-- `sizeof(page_table_pool)` -/
def sizeof_page_table_pool : Nat := 4096 * 32

theorem pool_size : sizeof_page_table_pool = 2 ^ 17 := by decide

/-- The memory, `pool_offset`, and a record of the tables handed out so far with
    the memory at that moment, which the code does not keep. -/
structure State where
  memory : Memory
  pool_offset : Nat
  handed_out : List (Nat × Memory)

/-- `table->entries[i]` -/
def entry (m : Memory) (table i : Nat) : Nat := load m (table + 8 * i) 8

def State.setEntry (s : State) (table i value : Nat) : State :=
  { s with memory := store s.memory (table + 8 * i) 8 value }

def alloc_page_table (pool : Nat) (s : State) : Outcome (State × Nat) :=
  if s.pool_offset + sizeof_page_table > sizeof_page_table_pool then .kpanic "Page table pool exhausted"
  else
    let table := pool + s.pool_offset
    let memory := fill s.memory table sizeof_page_table 0
    .ok (⟨memory,s.pool_offset + sizeof_page_table,s.handed_out ++ [(table,memory)]⟩,table)

/-- `entry & PAGE_PRESENT` -/
def present (e : Nat) : Bool := e.testBit 0

/-- `entry & PAGE_HUGE` -/
def huge (e : Nat) : Bool := e.testBit 7

/-- `if (!(table->entries[idx] & PAGE_PRESENT)) { ... }`, and the table that the
    entry then points to. -/
def nextTable (pool : Nat) (s : State) (table idx : Nat) : Outcome (State × Nat) := do
  let s ←
    if present (entry s.memory table idx) then .ok s
    else do
      let (s,next) ← alloc_page_table pool s
      .ok (s.setEntry table idx (next ||| PAGE_PRESENT ||| PAGE_WRITABLE))
  .ok (s,entry s.memory table idx / 2 ^ 12 * 2 ^ 12)

def map_page_4kb (pool : Nat) (s : State) (pml4 virt phys flags : Nat) : Outcome State := do
  let pml4_idx := virt / 2 ^ 39 % 512
  let pdpt_idx := virt / 2 ^ 30 % 512
  let pd_idx := virt / 2 ^ 21 % 512
  let pt_idx := virt / 2 ^ 12 % 512
  let (s,pdpt) ← nextTable pool s pml4 pml4_idx
  let (s,pd) ← nextTable pool s pdpt pdpt_idx
  let (s,pt) ← nextTable pool s pd pd_idx
  .ok (s.setEntry pt pt_idx (phys / 2 ^ 12 * 2 ^ 12 ||| flags ||| PAGE_PRESENT))

def map_page_2mb (pool : Nat) (s : State) (pml4 virt phys flags : Nat) : Outcome State := do
  let pml4_idx := virt / 2 ^ 39 % 512
  let pdpt_idx := virt / 2 ^ 30 % 512
  let pd_idx := virt / 2 ^ 21 % 512
  let (s,pdpt) ← nextTable pool s pml4 pml4_idx
  let (s,pd) ← nextTable pool s pdpt pdpt_idx
  .ok (s.setEntry pd pd_idx (phys / 2 ^ 21 * 2 ^ 21 ||| flags ||| PAGE_PRESENT ||| PAGE_HUGE))

/-! ### The walk of the hardware -/

/-- The attribute bits of a leaf. `PAGE_HUGE` is not one of them: it gives the size. -/
def attributes : Nat :=
  PAGE_PRESENT ||| PAGE_WRITABLE ||| PAGE_USER ||| PAGE_WRITE_THROUGH ||| PAGE_CACHE_DISABLE ||| PAGE_ACCESSED |||
    PAGE_DIRTY ||| PAGE_GLOBAL ||| PAGE_NO_EXECUTE

/-- What a walk that succeeds comes to. -/
structure Translation where
  frame : Nat
  flags : Nat
  size : Nat
deriving DecidableEq, Repr

/-- The size of the pages whose leaves are in the tables of a level. -/
def pageSize (level : Nat) : Nat := 2 ^ (12 + 9 * level)

/-- The translation that a leaf entry in a table of a level gives. -/
def translation (level e : Nat) : Translation :=
  ⟨e / pageSize level % 2 ^ (40 - 9 * level) * pageSize level,e &&& attributes,pageSize level⟩

/-- The physical address in an entry. -/
def address (e : Nat) : Nat := e / 2 ^ 12 % 2 ^ 40 * 2 ^ 12

/-- The 4-level walk. Bit 7 is reserved in an entry of the PML4, and makes the
    walk fail there. -/
def walk (m : Memory) (pml4 virt : Nat) : Option Translation :=
  let pml4e := entry m pml4 (virt / 2 ^ 39 % 512)
  if !present pml4e || huge pml4e then none
  else
    let pdpte := entry m (address pml4e) (virt / 2 ^ 30 % 512)
    if !present pdpte then none
    else if huge pdpte then some (translation 2 pdpte)
    else
      let pde := entry m (address pdpte) (virt / 2 ^ 21 % 512)
      if !present pde then none
      else if huge pde then some (translation 1 pde)
      else
        let pte := entry m (address pde) (virt / 2 ^ 12 % 512)
        if !present pte then none else some (translation 0 pte)

abbrev Index := Fin 512

def index (level virt : Nat) : Index := ⟨virt / 2 ^ (12 + 9 * level) % 512,Nat.mod_lt _ (by decide)⟩

/-- The indices on the walk of an address. -/
def indices (virt : Nat) : List Index := [index 3 virt,index 2 virt,index 1 virt,index 0 virt]

/-- The entries of a table of a level as the slots of a tree. A leaf is an entry
    with the level of its table. -/
def slots (m : Memory) : Slots (Nat × Nat) Index (Nat × Nat)
  | (0,table), i => if present (entry m table i) then .leaf (0,entry m table i) else .empty
  | (level+1,table), i =>
    if !present (entry m table i) then .empty
    else if huge (entry m table i) then if level = 2 then .empty else .leaf (level + 1,entry m table i)
    else .child (level,address (entry m table i))

/-- The leaf entry for an address. -/
def leaf (m : Memory) (pml4 virt : Nat) : Option (Nat × Nat) := lookup (slots m) (3,pml4) (indices virt)

theorem lookup_table (m : Memory) (level table : Nat) (i : Index) (word : List Index) :
    lookup (slots m) (level + 1,table) (i :: word) =
      if !present (entry m table i) then none
      else if huge (entry m table i) then
        if level = 2 then none else some (level + 1,entry m table i)
      else lookup (slots m) (level,address (entry m table i)) word := by
  rw [lookup,slots]
  split_ifs <;> rfl

theorem lookup_page_table (m : Memory) (table : Nat) (i : Index) (word : List Index) :
    lookup (slots m) (0,table) (i :: word) = if !present (entry m table i) then none else some (0,entry m table i) := by
  rw [lookup,slots]
  cases present (entry m table i) <;> rfl

/-- The walk of the hardware goes down the tree. -/
theorem walk_eq_leaf (m : Memory) (pml4 virt : Nat) :
    walk m pml4 virt = (leaf m pml4 virt).map (fun l => translation l.1 l.2) := by
  rw [leaf,indices,lookup_table,lookup_table,lookup_table,lookup_page_table]
  have level (l : Nat) : ((index l virt : Index) : Nat) = virt / 2 ^ (12 + 9 * l) % 512 := rfl
  simp only [walk,level,if_true,Nat.reduceMul,Nat.reduceAdd,Nat.reduceEqDiff,if_false]
  generalize entry m pml4 (virt / 2 ^ 39 % 512) = pml4e
  cases present pml4e <;> cases huge pml4e <;> simp only [Bool.not_true,Bool.not_false,Bool.or_true,Bool.or_false,
    Bool.or_self,if_true,Bool.false_eq_true,if_false,Option.map_none]
  split_ifs <;> rfl

/-! ### Entries -/

section
variable {m : Memory} {s : State} {table other i j value pool : Nat}

theorem entry_setEntry_same (s : State) (table i value : Nat) :
    entry (s.setEntry table i value).memory table i = value % 2 ^ 64 := load_store_mod s.memory (table + 8 * i) 8 value

theorem entry_setEntry_other (aligned : table % 4096 = 0) (alignedOther : other % 4096 = 0) (small : i < 512)
    (smallOther : j < 512) (different : other ≠ table ∨ j ≠ i) :
    entry (s.setEntry table i value).memory other j = entry s.memory other j :=
  load_store_disjoint (by omega)

theorem setEntry_outside {b : Nat} (small : i < 512) (outside : b < table ∨ table + 4096 ≤ b) :
    (s.setEntry table i value).memory b = s.memory b := store_outside (by omega)

theorem entry_congr {n : Memory} (small : i < 512) (same : ∀ b, table ≤ b → b < table + 4096 → m b = n b) :
    entry m table i = entry n table i := load_congr (fun b low high => same b (by omega) (by omega))

/-- A table handed out is the next of the pool, and all its entries are 0. -/
theorem alloc_page_table_eq {s' : State} (run : alloc_page_table pool s = .ok (s',table)) :
    s.pool_offset + 4096 ≤ sizeof_page_table_pool ∧ table = pool + s.pool_offset ∧
      s' = ⟨fill s.memory table 4096 0,s.pool_offset + 4096,s.handed_out ++ [(table,fill s.memory table 4096 0)]⟩ := by
  unfold alloc_page_table at run
  split at run
  · cases run
  · obtain ⟨rfl,rfl⟩ := Prod.mk.inj (Outcome.ok_injective run)
    exact ⟨by rename_i room; simpa [sizeof_page_table] using room,rfl,rfl⟩

theorem entry_fill (m : Memory) (table : Nat) (small : i < 512) : entry (fill m table 4096 0) table i = 0 :=
  load_fill_zero (by omega) (by omega)

/-- The entry for a table. -/
theorem table_entry {next : Nat} (aligned : next % 4096 = 0) : next ||| PAGE_PRESENT ||| PAGE_WRITABLE = next + 3 := by
  have split : next = 2 ^ 12 * (next / 2 ^ 12) := by omega
  rw [Nat.or_assoc,show PAGE_PRESENT ||| PAGE_WRITABLE = 3 from rfl,split,
    Nat.two_pow_add_eq_or_of_lt (by decide : 3 < 2 ^ 12)]

theorem table_entry_bits {next : Nat} (aligned : next % 4096 = 0) (small : next < 2 ^ 52) :
    present (next + 3) = true ∧ huge (next + 3) = false ∧ address (next + 3) = next := by
  simp only [present,huge,address,Nat.testBit_eq_decide_div_mod_eq,decide_eq_true_eq,decide_eq_false_iff_not]
  omega

end

/-- The code and the hardware follow an entry below 2^52 to the same table. -/
theorem address_eq {e : Nat} (small : e < 2 ^ 52) : e / 2 ^ 12 * 2 ^ 12 = address e := by
  rw [address,Nat.mod_eq_of_lt (by omega)]

/-! ### Leaf entries -/

/-- No attribute bit lies where a leaf has its frame. -/
theorem attributes_frame {flags : Nat} (valid : flags &&& attributes = flags) : flags / 2 ^ 12 % 2 ^ 40 = 0 := by
  rw [← valid,Nat.and_div_two_pow,Nat.and_mod_two_pow,show attributes / 2 ^ 12 % 2 ^ 40 = 0 by decide,Nat.and_zero]

theorem frame_attributes {level frame : Nat} (small : frame < 2 ^ (40 - 9 * level)) (low : level ≤ 2) :
    frame * pageSize level &&& attributes = 0 := by
  apply Nat.eq_of_testBit_eq
  intro b
  rw [Nat.testBit_and,pageSize,Nat.testBit_mul_two_pow,Nat.zero_testBit]
  by_cases below : b < 52
  · by_cases above : 12 ≤ b
    · have clear : (attributes / 2 ^ 12 % 2 ^ 40).testBit (b - 12) = attributes.testBit b := by
        rw [Nat.testBit_mod_two_pow,Nat.testBit_div_two_pow,Nat.sub_add_cancel above]
        simp only [show b - 12 < 40 by omega,decide_true,Bool.true_and]
      rw [← clear,show attributes / 2 ^ 12 % 2 ^ 40 = 0 by decide,Nat.zero_testBit,Bool.and_false]
    · rw [decide_eq_false (by omega),Bool.false_and,Bool.false_and]
  · have high : frame.testBit (b - (12 + 9 * level)) = false :=
      Nat.testBit_lt_two_pow (Nat.lt_of_lt_of_le small (Nat.pow_le_pow_right (by decide) (by omega)))
    rw [high,Bool.and_false,Bool.false_and]

/-- A leaf entry for a page of the physical memory reads as that page with its flags. -/
theorem translation_leaf {level phys flags extra : Nat} (low : level ≤ 1) (small : phys < 2 ^ 52)
    (valid : flags &&& attributes = flags) (bits : extra < 2 ^ 12) (kept : extra &&& attributes = PAGE_PRESENT) :
    translation level (phys / pageSize level * pageSize level ||| flags ||| extra) =
      ⟨phys / pageSize level * pageSize level,flags ||| PAGE_PRESENT,pageSize level⟩ := by
  have frameSmall : phys / pageSize level < 2 ^ (40 - 9 * level) := by
    rw [pageSize,Nat.div_lt_iff_lt_mul (Nat.two_pow_pos _),← Nat.pow_add]
    exact Nat.lt_of_lt_of_le small (Nat.pow_le_pow_right (by decide) (by omega))
  have frame : (phys / pageSize level * pageSize level ||| flags ||| extra) / pageSize level % 2 ^ (40 - 9 * level) =
      phys / pageSize level := by
    have noFlags : flags / pageSize level % 2 ^ (40 - 9 * level) = 0 := by
      have clear := attributes_frame valid
      rcases (show level = 0 ∨ level = 1 by omega) with rfl | rfl
      · exact clear
      · simp only [pageSize,Nat.reduceMul,Nat.reduceAdd,Nat.reduceSub] at clear ⊢
        omega
    have noExtra : extra / pageSize level = 0 :=
      Nat.div_eq_of_lt (Nat.lt_of_lt_of_le bits (Nat.pow_le_pow_right (by decide) (by omega)))
    have here : phys / pageSize level * pageSize level / pageSize level = phys / pageSize level :=
      Nat.mul_div_cancel _ (Nat.two_pow_pos _)
    rw [pageSize] at *
    rw [Nat.or_div_two_pow,Nat.or_div_two_pow,Nat.or_mod_two_pow,Nat.or_mod_two_pow,here,noFlags,noExtra,
      Nat.mod_eq_of_lt frameSmall,Nat.zero_mod,Nat.or_zero,Nat.or_zero]
  rw [translation,frame]
  congr 1
  rw [Nat.and_or_distrib_right,Nat.and_or_distrib_right,frame_attributes frameSmall (by omega),Nat.zero_or,valid,kept]

/-! ### Calls and the map they describe -/

/-- A call of one of the two functions. -/
inductive Call
  | map_page_4kb (virt phys flags : Nat)
  | map_page_2mb (virt phys flags : Nat)
deriving DecidableEq, Repr

namespace Call

def virt : Call → Nat
  | map_page_4kb virt _ _ => virt
  | map_page_2mb virt _ _ => virt

def phys : Call → Nat
  | map_page_4kb _ phys _ => phys
  | map_page_2mb _ phys _ => phys

def flags : Call → Nat
  | map_page_4kb _ _ flags => flags
  | map_page_2mb _ _ flags => flags

def level : Call → Nat
  | map_page_4kb _ _ _ => 0
  | map_page_2mb _ _ _ => 1

def exec (pool pml4 : Nat) (s : State) : Call → Outcome State
  | map_page_4kb virt phys flags => Paging.map_page_4kb pool s pml4 virt phys flags
  | map_page_2mb virt phys flags => Paging.map_page_2mb pool s pml4 virt phys flags

/-- The entry that a call writes last. -/
def stored : Call → Nat
  | map_page_4kb _ phys flags => phys / 2 ^ 12 * 2 ^ 12 ||| flags ||| PAGE_PRESENT
  | map_page_2mb _ phys flags => phys / 2 ^ 21 * 2 ^ 21 ||| flags ||| PAGE_PRESENT ||| PAGE_HUGE

/-- The page of the call has the address. An address counts by its low 48 bits. -/
def Covers (c : Call) (a : Nat) : Prop := a % 2 ^ 48 / pageSize c.level = c.virt % 2 ^ 48 / pageSize c.level

instance (c : Call) (a : Nat) : Decidable (c.Covers a) := inferInstanceAs (Decidable (_ = _))

/-- What a call promises for the addresses it covers. -/
def promise (c : Call) : Translation :=
  ⟨c.phys / pageSize c.level * pageSize c.level,c.flags ||| PAGE_PRESENT,pageSize c.level⟩

/-- A 52-bit physical address, and flags among the attribute bits. -/
def Valid (c : Call) : Prop := c.phys < 2 ^ 52 ∧ c.flags &&& attributes = c.flags

/-- Arguments of 64 bits. -/
def Fits (c : Call) : Prop := c.phys < 2 ^ 64 ∧ c.flags < 2 ^ 64

theorem Valid.fits {c : Call} (valid : c.Valid) : c.Fits := by
  refine ⟨Nat.lt_trans valid.1 (by decide),?_⟩
  rw [← valid.2]
  exact Nat.lt_of_le_of_lt Nat.and_le_right (by decide)

theorem stored_lt {c : Call} (fits : c.Fits) : c.stored < 2 ^ 64 := by
  have frame (size : Nat) : c.phys / size * size < 2 ^ 64 := Nat.lt_of_le_of_lt (Nat.div_mul_le_self _ _) fits.1
  cases c with
  | map_page_4kb virt phys flags =>
    exact Nat.or_lt_two_pow (Nat.or_lt_two_pow (frame _) fits.2) (by decide)
  | map_page_2mb virt phys flags =>
    exact Nat.or_lt_two_pow (Nat.or_lt_two_pow (Nat.or_lt_two_pow (frame _) fits.2) (by decide)) (by decide)

theorem stored_present (c : Call) : present c.stored = true := by
  cases c <;> simp [present,stored,PAGE_PRESENT]

theorem stored_huge (virt phys flags : Nat) : huge (map_page_2mb virt phys flags).stored = true := by
  rw [huge,stored,Nat.testBit_or,show PAGE_HUGE.testBit 7 = true by decide,Bool.or_true]

/-- The entry that a valid call writes says what the call promises. -/
theorem translation_stored {c : Call} (valid : c.Valid) : translation c.level c.stored = c.promise := by
  cases c with
  | map_page_4kb virt phys flags =>
    exact translation_leaf (by decide : 0 ≤ 1) valid.1 valid.2 (by decide : PAGE_PRESENT < 2 ^ 12) (by decide)
  | map_page_2mb virt phys flags =>
    rw [stored,Nat.or_assoc]
    exact translation_leaf (by decide : 1 ≤ 1) valid.1 valid.2
      (by decide : PAGE_PRESENT ||| PAGE_HUGE < 2 ^ 12) (by decide)

end Call

/-- The last call that covers an address. -/
def lastCall (calls : List Call) (a : Nat) : Option Call := calls.reverse.find? (fun c => c.Covers a)

/-- The reference map: the last call that covers an address decides. -/
def reference (calls : List Call) (a : Nat) : Option Translation := (lastCall calls a).map Call.promise

theorem lastCall_cons (c : Call) (calls : List Call) (a : Nat) :
    lastCall (c :: calls) a = (lastCall calls a).or (if c.Covers a then some c else none) := by
  rw [lastCall,List.reverse_cons,List.find?_append]
  by_cases covers : c.Covers a <;> simp [covers,lastCall]

theorem lastCall_mem {calls : List Call} {a : Nat} {c : Call} (found : lastCall calls a = some c) :
    c ∈ calls ∧ c.Covers a :=
  ⟨List.mem_reverse.mp (List.mem_of_find?_eq_some found),by simpa using List.find?_some found⟩

end NekoOs.Paging
