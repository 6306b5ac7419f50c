import NekoOs.Allocation

/-!
Freeing a pointer again. No operation of the allocator clears a magic word, so
`kfree` recognises a second free only where a later header covers the word with
its size, its link or its flag, or where the owner of a block over it has
overwritten it. The block lists and the writes along a run tell where that is.
-/
namespace NekoOs.DoubleFree
open ByteMemory Words Tiling Alloc HeapModel HeapRuns Allocation Transitions

/-- The header of `b` covers the word at `r` with something else than the magic. -/
def Covers (b : Segment) (r : Nat) : Prop :=
  b.start + 24 = r ∨ b.start + 16 = r ∨ b.start + 8 = r ∧ b.size % 2 ^ 32 ≠ HEAP_MAGIC

/-- The header of `b` writes the magic word at `r`, as its own or with its size. -/
def Restores (b : Segment) (r : Nat) : Prop :=
  b.start = r ∨ b.start + 8 = r ∧ b.size % 2 ^ 32 = HEAP_MAGIC

/-- Whether the word at `r` is covered once the block list is `l`, given whether
    it was covered before. -/
def CoveredBy (l : List Segment) (r : Nat) (before : Prop) : Prop :=
  (∃ b ∈ l, Covers b r) ∨ before ∧ ∀ b ∈ l, ¬Restores b r

/-- No header of the list lies over the word at `r`. -/
def Bare (l : List Segment) (r : Nat) : Prop := ∀ b ∈ l, ¬Covers b r ∧ ¬Restores b r

/-- A client writes a byte over the word at `r`: one that is in the magic at this place, or another one. -/
def Writes (magical : Bool) (r : Nat) : Op → Prop
  | .write a v => r ≤ a ∧ a < r + 4 ∧ decide (v = UInt8.ofNat (HEAP_MAGIC / 256 ^ (a - r))) = magical
  | _ => False

/-- A session with the pointers that were freed and not returned since. `covered`
    are those whose old magic word a later header or a client has overwritten,
    and `forged` those onto whose overwritten word a client has written a byte of
    the magic again, with no later header over it. -/
structure History where
  session : Session
  stale : List Nat
  covered : Nat → Prop
  forged : Nat → Prop

def staleAfter (s : History) : Op → Session → List Nat
  | .kmalloc _, t => s.stale.filter (fun p => p ∉ t.live)
  | .kfree p, _ => if p = 0 then s.stale else p :: s.stale
  | .write _ _, _ => s.stale

/-- The allocator with its clients and what has become of the freed pointers. -/
def history (start total : Nat) : System History Op where
  initial s := (client start total).initial s.session ∧ s.stale = [] ∧ ∀ p, ¬s.covered p ∧ ¬s.forged p
  step s op t := (client start total).step s.session op t.session ∧ t.stale = staleAfter s op t.session ∧
    ∀ l, blockList t.session.heap = some l → ∀ p,
      (t.covered p ↔ CoveredBy l (p - 32) (s.covered p ∨ Writes false (p - 32) op)) ∧
      (t.forged p ↔ (s.forged p ∨ s.covered p ∧ Writes true (p - 32) op) ∧ Bare l (p - 32))

/-- The flag of every header is exactly 0 or 1. -/
def Flags (m : Memory) (l : List Segment) : Prop := ∀ b ∈ l, load m (b.start + 24) 1 = b.free.toNat

section
variable {m m' : Memory} {a : Nat} {l : List Segment}

/-! ### The word under a header -/

end

/-! ### The invariant -/

/-- The old header of a freed pointer is at an aligned address. -/
def Placed (p : Nat) : Prop := ∃ r, p = r + 32 ∧ r % 8 = 0 ∧ p < limit64

section
variable {start total : Nat} {s t : History} {l l' : List Segment} {op : Op}

end
end NekoOs.DoubleFree
