import NekoOs.Mem
import NekoOs.Outcome

/-!
The kernel heap allocator of `lib/alloc.c` over byte memory. Blocks are headers
in memory linked by addresses; pointers are their 64-bit values and `NULL` is 0.
Log lines are left out: logging reads none of this state.
-/
namespace NekoOs.Alloc
open ByteMemory Words Mem

def HEAP_MAGIC : Nat := 0xF00DF00D
/-- `sizeof(heap_block_t)`. -/
def sizeof_heap_block : Nat := 32

/-! The fields of `heap_block_t`: `magic` at 0, `size` at 8, `next` at 16, `free` at 24. -/

def magic (m : Memory) (block : Nat) : Nat := load m block 4
def size (m : Memory) (block : Nat) : Nat := load m (block + 8) 8
def next (m : Memory) (block : Nat) : Nat := load m (block + 16) 8
def free (m : Memory) (block : Nat) : Bool := load m (block + 24) 1 != 0

def setMagic (m : Memory) (block v : Nat) : Memory := store m block 4 v
def setSize (m : Memory) (block v : Nat) : Memory := store m (block + 8) 8 v
def setNext (m : Memory) (block v : Nat) : Memory := store m (block + 16) 8 v
def setFree (m : Memory) (block : Nat) (v : Bool) : Memory := store m (block + 24) 1 v.toNat

/-- Memory and the two static variables of the allocator. -/
structure Heap where
  mem : Memory
  g_heap_start : Nat
  g_heap_total_size : Nat

def kalloc_init (m : Memory) (start size : Nat) : Outcome Heap :=
  if size < sizeof_heap_block then .kpanic "Heap size too small" else
    let m := setMagic m start HEAP_MAGIC
    let m := setSize m start (sub64 size sizeof_heap_block)
    let m := setNext m start 0
    let m := setFree m start true
    .ok { mem := m, g_heap_start := start, g_heap_total_size := size }

/-- A walk over more headers than there are addresses repeats one of them. -/
def loopBound : Nat := 2 ^ 64

/-- What `kmalloc` writes at the block it takes: a header in the middle of the
    block when the rest can hold one and eight bytes, then the flag. -/
def takeBlock (m : Memory) (current request : Nat) : Memory :=
  let m :=
    if add64 (add64 request sizeof_heap_block) 8 ≤ size m current then
      let next_block := add64 (add64 current sizeof_heap_block) request
      let m := setMagic m next_block HEAP_MAGIC
      let m := setSize m next_block (sub64 (sub64 (size m current) request) sizeof_heap_block)
      let m := setNext m next_block (next m current)
      let m := setFree m next_block true
      let m := setSize m current request
      setNext m current next_block
    else m
  setFree m current false

/-- The loop of `kmalloc`, with the iterations it may still take. -/
def kmalloc_loop (request : Nat) : (fuel : Nat) → Memory → (current : Nat) → Outcome (Memory × Nat)
  | 0, _, _ => .unfinished
  | fuel+1, m, current =>
    if current = 0 then .ok (m,0)
    else if free m current && request ≤ size m current then
      .ok (takeBlock m current request,add64 current sizeof_heap_block)
    else kmalloc_loop request fuel m (next m current)

/-- The size `kmalloc` looks for: the request rounded up to a multiple of eight. -/
def roundRequest (size : Nat) : Nat := add64 size 7 &&& not64 7

def kmalloc (h : Heap) (size : Nat) : Outcome (Heap × Nat) :=
  if size = 0 then .ok (h,0) else do
    let (m,p) ← kmalloc_loop (roundRequest size) loopBound h.mem h.g_heap_start
    .ok ({ h with mem := m },p)

/-- `current` absorbs the block after it. -/
def absorbNext (m : Memory) (current : Nat) : Memory :=
  let m := setSize m current (add64 (size m current) (add64 sizeof_heap_block (size m (next m current))))
  setNext m current (next m (next m current))

/-- The coalescing loop of `kfree`, with the iterations it may still take. -/
def kfree_loop : (fuel : Nat) → Memory → (current : Nat) → Outcome Memory
  | 0, _, _ => .unfinished
  | fuel+1, m, current =>
    if current = 0 then .ok m
    else if free m current && next m current != 0 && free m (next m current) then
      kfree_loop fuel (absorbNext m current) current
    else kfree_loop fuel m (next m current)

def kfree (h : Heap) (ptr : Nat) : Outcome Heap :=
  if ptr = 0 then .ok h else
    let block := sub64 ptr sizeof_heap_block
    if magic h.mem block ≠ HEAP_MAGIC then
      .kpanic "kfree: invalid magic (double free or heap corruption?)"
    else do
      let m ← kfree_loop loopBound (setFree h.mem block true) h.g_heap_start
      .ok { h with mem := m }

def kcalloc (h : Heap) (nmemb size : Nat) : Outcome (Heap × Nat) := do
  let total := mul64 nmemb size
  let (h,ptr) ← kmalloc h total
  if ptr = 0 then .ok (h,ptr) else .ok ({ h with mem := memset ptr 0 total h.mem },ptr)

/-! ### What one write does to one field -/

section
variable {m : Memory} {a b v : Nat} {flag : Bool}

theorem magic_congr {m' : Memory} (same : ∀ x, b ≤ x → x < b + 32 → m' x = m x) : magic m' b = magic m b :=
  load_congr (fun x low high => same x low (by omega))
theorem size_congr {m' : Memory} (same : ∀ x, b ≤ x → x < b + 32 → m' x = m x) : size m' b = size m b :=
  load_congr (fun x low high => same x (by omega) (by omega))
theorem next_congr {m' : Memory} (same : ∀ x, b ≤ x → x < b + 32 → m' x = m x) : next m' b = next m b :=
  load_congr (fun x low high => same x (by omega) (by omega))
theorem free_congr {m' : Memory} (same : ∀ x, b ≤ x → x < b + 32 → m' x = m x) : free m' b = free m b := by
  unfold free
  rw [load_congr (fun x low high => same x (by omega) (by omega))]

@[simp] theorem magic_setMagic : magic (setMagic m a HEAP_MAGIC) a = HEAP_MAGIC := load_store_same (by decide)
@[simp] theorem magic_setSize : magic (setSize m a v) a = magic m a := load_store_disjoint (by omega)
@[simp] theorem magic_setNext : magic (setNext m a v) a = magic m a := load_store_disjoint (by omega)
@[simp] theorem magic_setFree : magic (setFree m a flag) a = magic m a := load_store_disjoint (by omega)

@[simp] theorem size_setMagic : size (setMagic m a v) a = size m a := load_store_disjoint (by omega)
theorem size_setSize (fits : v < limit64) : size (setSize m a v) a = v := load_store_same
    (by simpa [limit64] using fits)
@[simp] theorem size_setNext : size (setNext m a v) a = size m a := load_store_disjoint (by omega)
@[simp] theorem size_setFree : size (setFree m a flag) a = size m a := load_store_disjoint (by omega)

@[simp] theorem next_setMagic : next (setMagic m a v) a = next m a := load_store_disjoint (by omega)
@[simp] theorem next_setSize : next (setSize m a v) a = next m a := load_store_disjoint (by omega)
theorem next_setNext (fits : v < limit64) : next (setNext m a v) a = v := load_store_same
    (by simpa [limit64] using fits)
@[simp] theorem next_setFree : next (setFree m a flag) a = next m a := load_store_disjoint (by omega)

@[simp] theorem free_setSize : free (setSize m a v) a = free m a := by
  unfold free
  rw [setSize,load_store_disjoint (by omega)]
@[simp] theorem free_setNext : free (setNext m a v) a = free m a := by
  unfold free
  rw [setNext,load_store_disjoint (by omega)]
@[simp] theorem free_setFree : free (setFree m a flag) a = flag := by
  unfold free
  rw [setFree,load_store_same (by cases flag <;> decide)]
  cases flag <;> rfl

theorem next_lt : next m a < limit64 := load_lt m (a + 16) 8
theorem size_lt : size m a < limit64 := load_lt m (a + 8) 8

/-- A field write at `a` leaves every byte outside the header at `a`. -/
theorem setMagic_outside {x : Nat} (outside : x < a ∨ a + 32 ≤ x) : setMagic m a v x = m x :=
  store_outside (by omega)
theorem setSize_outside {x : Nat} (outside : x < a ∨ a + 32 ≤ x) : setSize m a v x = m x :=
  store_outside (by omega)
theorem setNext_outside {x : Nat} (outside : x < a ∨ a + 32 ≤ x) : setNext m a v x = m x :=
  store_outside (by omega)
theorem setFree_outside {x : Nat} (outside : x < a ∨ a + 32 ≤ x) : setFree m a flag x = m x :=
  store_outside (by omega)

end
end NekoOs.Alloc
