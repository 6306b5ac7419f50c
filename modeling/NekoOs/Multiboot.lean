import NekoOs.Access
import NekoOs.Regions
import Mathlib.Data.Nat.Find

/-!
The three walkers over the Multiboot2 boot information, with the limit of the
information, which none of them looks at. Each of them reads the tags one after
another up to the one of type `MB2_TAG_END`.
-/
namespace NekoOs.Multiboot
open ByteMemory Access Paging PageTables
open Regions (mapEntry mapEntries mapTag mapTags MB2_TAG_END MB2_TAG_MMAP tagType tagSize entrySize entryBase entryLength entryType)

def MB2_TAG_CMDLINE : Nat := 1
def MB2_TAG_BOOTLOADER : Nat := 2
def MB2_TAG_FRAMEBUFFER : Nat := 8
def MB2_TAG_ACPI_V1 : Nat := 14
def MB2_TAG_ACPI_V2 : Nat := 15

/-- `(tag->size + 7) & ~7` -/
def roundUp (size : Nat) : Nat := (size + 7) % 2 ^ 32 / 8 * 8

/-- `while (tag->type != MB2_TAG_END) { ...; tag += ... }`, where the body goes on
    with a new value or returns a result. -/
def tagBody {State Result : Type} (stop : Nat) (m : Memory) (visit : State → (type tag : Nat) → Access (Result ⊕ State))
    (ended : State → Result) : State → (tag : Nat) → Access (Result ⊕ State × Nat) :=
  record (fun tag => do
      let type ← read stop m tag 4
      .done (if type = MB2_TAG_END then none else some type))
    visit
    (fun tag => do
      let size ← read stop m (tag + 4) 4
      .done (tag + roundUp size))
    ended

/-! ### `mb2_parse` -/

/-- What `mb2_parse` logs. -/
inductive Line
  | cmdline (string : List UInt8)
  | bootloader (string : List UInt8)
  | memoryMap (count : Int)
  | entry (base_addr stop type : Nat)
  | acpi1 (rsdt_address : Nat)
  | acpi2 (xsdt_address : Nat)
  | framebuffer (width height bpp addr : Nat)
deriving DecidableEq, Repr

/-- The characters of a string up to its NUL. -/
def readString (stop : Nat) (m : Memory) (ptr : Nat) : Access (List UInt8) :=
  loop (fun chars ptr => do
    let c ← read stop m ptr 1
    if c = 0 then .done (.inl chars) else .done (.inr (chars ++ [UInt8.ofNat c],ptr + 1))) (stop + 1) [] ptr

/-- A conversion to `int`. -/
def toInt (n : Nat) : Int := if n % 2 ^ 32 < 2 ^ 31 then n % 2 ^ 32 else (n % 2 ^ 32 : Nat) - 2 ^ 32

/-- `(mmap->tag.size - sizeof(mb2_tag_mmap_t)) / mmap->entry_size` -/
def mmapCount (size entry_size : Nat) : Int := toInt ((size + 2 ^ 64 - 16) % 2 ^ 64 / entry_size)

/-- The elements that `for (int i = 0; i < count; i++)` reads, from the `i`-th on:
    `&mmap->entries[i]` is 24 bytes after the element before it. -/
def mmapElements (stop : Nat) (m : Memory) (mmap : Nat) : (remaining i : Nat) → Access (List Nat)
  | 0, _ => .done []
  | remaining+1, i => do
    let ptr := mmap + 16 + 24 * i
    let _ ← read stop m ptr 8
    let _ ← read stop m (ptr + 8) 8
    let _ ← read stop m (ptr + 16) 4
    let rest ← mmapElements stop m mmap remaining (i + 1)
    .done (ptr :: rest)

/-- The case `MB2_TAG_MMAP`: the count, and the entries that are visited. -/
def parseMmap (stop : Nat) (m : Memory) (mmap : Nat) : Access (Int × List Nat) := do
  let size ← read stop m (mmap + 4) 4
  let entry_size ← read stop m (mmap + 8) 4
  if entry_size = 0 then .dividesByZero
  else do
    let visited ← mmapElements stop m mmap (mmapCount size entry_size).toNat 0
    .done (mmapCount size entry_size,visited)

/-- The fields of a framebuffer tag, one of which only `fb_init` reads. -/
def parseFramebuffer (stop : Nat) (m : Memory) (tag : Nat) : Access Line := do
  let addr ← read stop m (tag + 8) 8
  let _ ← read stop m (tag + 16) 4
  let width ← read stop m (tag + 20) 4
  let height ← read stop m (tag + 24) 4
  let bpp ← read stop m (tag + 28) 1
  .done (.framebuffer width height bpp addr)

def logEntry (m : Memory) (ptr : Nat) : Line :=
  .entry (entryBase m ptr) ((entryBase m ptr + entryLength m ptr) % 2 ^ 64) (entryType m ptr)

/-- The `switch` over the type of a tag. -/
def parseTag (stop : Nat) (m : Memory) (type tag : Nat) : Access (List Line) :=
  if type = MB2_TAG_CMDLINE then do
    let string ← readString stop m (tag + 8)
    .done [.cmdline string]
  else if type = MB2_TAG_BOOTLOADER then do
    let string ← readString stop m (tag + 8)
    .done [.bootloader string]
  else if type = MB2_TAG_MMAP then do
    let (count,visited) ← parseMmap stop m tag
    .done (.memoryMap count :: visited.map (logEntry m))
  else if type = MB2_TAG_ACPI_V1 then do
    let rsdt_address ← read stop m (tag + 24) 4
    .done [.acpi1 rsdt_address]
  else if type = MB2_TAG_ACPI_V2 then do
    let xsdt_address ← read stop m (tag + 32) 8
    .done [.acpi2 xsdt_address]
  else if type = MB2_TAG_FRAMEBUFFER then do
    let line ← parseFramebuffer stop m tag
    .done [line]
  else .done []

def rsdpTag (stop : Nat) (m : Memory) (result : Option Nat) (type tag : Nat) : Access (Option Nat ⊕ Option Nat) :=
  if type = MB2_TAG_ACPI_V2 then .done (.inl (some (tag + 8)))
  else if type = MB2_TAG_ACPI_V1 then do
    let _ ← read stop m (tag + 8) 8
    .done (.inr (some (tag + 8)))
  else .done (.inr result)

def get_acpi_rsdp (stop : Nat) (m : Memory) (fuel info : Nat) : Access (Option Nat) :=
  loop (tagBody stop m (rsdpTag stop m) id) fuel none (info + 8)

/-! ### The walk in `paging_init` -/

/-- The body of the loop over the entries, which maps the usable ones. -/
def entryBody (stop : Nat) (m : Memory) (mmap : Nat) (visited : List Nat) (ptr : Nat) :
    Access (List Nat ⊕ List Nat × Nat) := do
  let size ← read stop m (mmap + 4) 4
  if ptr < mmap + size then do
    let type ← read stop m (ptr + 16) 4
    if type = 1 then do
      let _ ← read stop m ptr 8
      let _ ← read stop m (ptr + 8) 8
      let entry_size ← read stop m (mmap + 8) 4
      .done (.inr (visited ++ [ptr],ptr + entry_size))
    else do
      let entry_size ← read stop m (mmap + 8) 4
      .done (.inr (visited ++ [ptr],ptr + entry_size))
  else .done (.inl visited)

/-- The entries of a memory map that `paging_init` visits. -/
def pagingEntries (stop : Nat) (m : Memory) (mmap : Nat) : Access (List Nat) :=
  loop (entryBody stop m mmap) (stop + 1) [] (mmap + 16)

def pagingTag (stop : Nat) (m : Memory) (visited : List Nat) (type tag : Nat) : Access (List Nat ⊕ List Nat) :=
  if type = MB2_TAG_MMAP then do
    let entries ← pagingEntries stop m tag
    .done (.inr (visited ++ entries))
  else .done (.inr visited)

/-- All entries that `paging_init` visits. -/
def pagingWalk (stop : Nat) (m : Memory) (fuel info : Nat) : Access (List Nat) :=
  loop (tagBody stop m (pagingTag stop m) id) fuel [] (info + 8)

/-! ### What each walker needs -/

section
variable {stop : Nat} {m : Memory}

theorem safe_value {α β : Type} {first : Access α} {f : α → β} :
    Safe (first >>= fun x => .done (f x)) ↔ Safe first := by
  rw [safe_bind]
  exact ⟨fun ⟨x,found,_⟩ => ⟨x,found⟩,fun ⟨x,found⟩ => ⟨x,found,safe_done _⟩⟩

/-- The address of the tag after a tag. -/
def nextTag (m : Memory) (tag : Nat) : Nat := tag + roundUp (tagSize m tag)

/-- Where a walk over tags stops, and where it goes on. -/
def Stops (stop : Nat) (m : Memory) (returns : Nat → Prop) (tag : Nat) : Prop :=
  tag + 4 ≤ stop ∧ (tagType m tag = MB2_TAG_END ∨ returns tag)

def Goes (stop : Nat) (m : Memory) (fields : Nat → Prop) (tag : Nat) : Prop :=
  tag + 4 ≤ stop ∧ tagType m tag ≠ MB2_TAG_END ∧ tag + 8 ≤ stop ∧ fields tag

theorem tag_records : Records (fun tag => do
      let type ← read stop m tag 4
      .done (if type = MB2_TAG_END then none else some type))
    (fun tag => do
      let size ← read stop m (tag + 4) 4
      .done (tag + roundUp size))
    (tagType m) (fun tag => tag + 4 ≤ stop) (fun tag => tagType m tag = MB2_TAG_END) (fun tag => tag + 8 ≤ stop)
    (nextTag m) := by
  constructor
  · intro tag
    simp only [bind_eq_done,read_eq_done,Access.done.injEq,ite_eq_left_iff,reduceCtorEq,imp_false,not_not]
    exact ⟨fun ⟨_,⟨inside,same⟩,last⟩ => ⟨inside,same.trans last⟩,fun ⟨inside,last⟩ => ⟨_,⟨inside,rfl⟩,last⟩⟩
  · intro tag type
    simp only [bind_eq_done,read_eq_done,Access.done.injEq,Option.ite_none_left_eq_some,Option.some.injEq]
    constructor
    · rintro ⟨_,⟨inside,rfl⟩,more,rfl⟩
      exact ⟨inside,more,rfl⟩
    · rintro ⟨inside,more,rfl⟩
      exact ⟨_,⟨inside,rfl⟩,more,rfl⟩
  · intro tag after
    simp only [bind_eq_done,read_eq_done,Access.done.injEq]
    constructor
    · rintro ⟨_,⟨inside,rfl⟩,rfl⟩
      exact ⟨inside,rfl⟩
    · rintro ⟨inside,rfl⟩
      exact ⟨_,⟨inside,rfl⟩,rfl⟩

/-- A string has its NUL below the limit. -/
theorem readString_safe {ptr : Nat} : Safe (readString stop m ptr) ↔ ∃ n, ptr + n < stop ∧ m (ptr + n) = 0 := by
  have one (p : Nat) : load m p 1 = (m p).toNat := by
    rw [load,load]
    rfl
  have nul (p : Nat) : load m p 1 = 0 ↔ m p = 0 := by
    rw [one]
    exact ⟨fun zero => UInt8.toNat_inj.mp zero,fun zero => by rw [zero]; rfl⟩
  have walks : Walks (fun (chars : List UInt8) ptr => do
      let c ← read stop m ptr 1
      if c = 0 then .done (.inl chars) else .done (.inr (chars ++ [UInt8.ofNat c],ptr + 1)))
      (fun p => p < stop ∧ m p = 0) (fun p => p < stop ∧ m p ≠ 0) (· + 1) := by
    constructor
    · rintro s p ⟨inside,zero⟩
      rw [read_inside inside,bind_done,if_pos ((nul p).mpr zero)]
      exact ⟨s,rfl⟩
    · rintro s p ⟨inside,more⟩
      rw [read_inside inside,bind_done,if_neg (fun zero => more ((nul p).mp zero))]
      exact ⟨_,rfl⟩
    · intro s p safe
      have inside := (safe_read.mp safe).1
      by_cases zero : m p = 0
      · exact .inl ⟨inside,zero⟩
      · exact .inr ⟨inside,zero⟩
  rw [readString,loop_rising_iff walks (fun p goesOn => goesOn.1) (fun p => Nat.le_succ p),chain_strides]
  simp only [Nat.mul_one]
  constructor
  · rintro ⟨n,_,stopped⟩
    exact ⟨n,stopped⟩
  · intro ends
    refine ⟨Nat.find ends,fun i early => ?_,Nat.find_spec ends⟩
    have last := (Nat.find_spec ends).1
    have := Nat.find_min ends early
    exact ⟨⟨by omega,fun zero => this ⟨by omega,zero⟩⟩,by omega⟩

theorem mmapElements_eq {mmap remaining i : Nat} {visited : List Nat} :
    mmapElements stop m mmap remaining i = .done visited ↔
      (∀ j, i ≤ j → j < i + remaining → mmap + 16 + 24 * j + 20 ≤ stop) ∧
        visited = (List.range' i remaining).map (fun j => mmap + 16 + 24 * j) := by
  induction remaining generalizing i visited with
  | zero =>
    rw [mmapElements,List.range'_zero,List.map_nil]
    constructor
    · intro same
      cases same
      exact ⟨fun j _ _ => by omega,rfl⟩
    · rintro ⟨_,rfl⟩
      rfl
  | succ remaining ih =>
    rw [mmapElements,List.range'_succ,List.map_cons]
    constructor
    · intro run
      obtain ⟨_,_,run⟩ := bind_eq_done.mp run
      obtain ⟨_,_,run⟩ := bind_eq_done.mp run
      obtain ⟨_,type,run⟩ := bind_eq_done.mp run
      obtain ⟨rest,later,same⟩ := bind_eq_done.mp run
      obtain ⟨inside,rfl⟩ := ih.mp later
      cases same
      have here := (read_eq_done.mp type).1
      refine ⟨fun j low high => ?_,rfl⟩
      by_cases first : j = i
      · subst first
        omega
      · exact inside j (by omega) (by omega)
    · rintro ⟨inside,rfl⟩
      have here := inside i (Nat.le_refl i) (by omega)
      have later := @ih (i + 1) _ |>.mpr ⟨fun j low high => inside j (by omega) (by omega),rfl⟩
      simp only [read_inside (show mmap + 16 + 24 * i + 8 ≤ stop by omega),
        read_inside (show mmap + 16 + 24 * i + 8 + 8 ≤ stop by omega),
        read_inside (show mmap + 16 + 24 * i + 16 + 4 ≤ stop by omega),bind_done,later]

theorem entryBody_stop {mmap ptr : Nat} (visited : List Nat) (inside : mmap + 8 ≤ stop)
    (last : mmap + tagSize m mmap ≤ ptr) :
    entryBody stop m mmap visited ptr = .done (.inl visited) := by
  have size : load m (mmap + 4) 4 = tagSize m mmap := rfl
  rw [entryBody,read_inside (by omega),bind_done,size,if_neg (by omega)]

theorem entryBody_go {mmap ptr : Nat} (visited : List Nat) (inside : mmap + 12 ≤ stop)
    (more : ptr < mmap + tagSize m mmap) (room : ptr + 20 ≤ stop) :
    entryBody stop m mmap visited ptr = .done (.inr (visited ++ [ptr],ptr + entrySize m mmap)) := by
  have size : load m (mmap + 4) 4 = tagSize m mmap := rfl
  have stride : load m (mmap + 8) 4 = entrySize m mmap := rfl
  rw [entryBody,read_inside (by omega),bind_done,size,if_pos more,read_inside (by omega),bind_done]
  by_cases usable : load m (ptr + 16) 4 = 1
  · rw [if_pos usable,read_inside (by omega),bind_done,read_inside (by omega),bind_done,read_inside (by omega),stride]
    rfl
  · rw [if_neg usable,read_inside (by omega),stride]
    rfl

theorem entryBody_walks (mmap : Nat) : Walks (entryBody stop m mmap)
    (fun ptr => mmap + 8 ≤ stop ∧ mmap + tagSize m mmap ≤ ptr)
    (fun ptr => mmap + 12 ≤ stop ∧ ptr < mmap + tagSize m mmap ∧ ptr + 20 ≤ stop) (· + entrySize m mmap) := by
  have size : load m (mmap + 4) 4 = tagSize m mmap := rfl
  constructor
  · rintro visited ptr ⟨inside,last⟩
    exact ⟨visited,entryBody_stop visited inside last⟩
  · rintro visited ptr ⟨inside,more,room⟩
    exact ⟨_,entryBody_go visited inside more room⟩
  · intro visited ptr safe
    obtain ⟨inside,safe⟩ := safe_read.mp safe
    rw [size] at safe
    by_cases more : ptr < mmap + tagSize m mmap
    · rw [if_pos more] at safe
      obtain ⟨room,safe⟩ := safe_read.mp safe
      refine .inr ⟨?_,more,by omega⟩
      by_cases usable : load m (ptr + 16) 4 = 1
      · rw [if_pos usable] at safe
        have := (safe_read.mp (safe_read.mp (safe_read.mp safe).2).2).1
        omega
      · rw [if_neg usable] at safe
        have := (safe_read.mp safe).1
        omega
    · exact .inl ⟨by omega,by omega⟩

/-- The fields that `mb2_parse` reads of a tag. -/
structure ParseFields (stop : Nat) (m : Memory) (tag : Nat) : Prop where
  string : tagType m tag = MB2_TAG_CMDLINE ∨ tagType m tag = MB2_TAG_BOOTLOADER →
    ∃ n, tag + 8 + n < stop ∧ m (tag + 8 + n) = 0
  mmap : tagType m tag = MB2_TAG_MMAP → tag + 12 ≤ stop ∧ entrySize m tag ≠ 0 ∧
    ∀ i < (mmapCount (tagSize m tag) (entrySize m tag)).toNat, tag + 16 + 24 * i + 20 ≤ stop
  acpi1 : tagType m tag = MB2_TAG_ACPI_V1 → tag + 28 ≤ stop
  acpi2 : tagType m tag = MB2_TAG_ACPI_V2 → tag + 40 ≤ stop
  framebuffer : tagType m tag = MB2_TAG_FRAMEBUFFER → tag + 29 ≤ stop

theorem parseMmap_safe {mmap : Nat} : Safe (parseMmap stop m mmap) ↔ mmap + 12 ≤ stop ∧ entrySize m mmap ≠ 0 ∧
    ∀ i < (mmapCount (tagSize m mmap) (entrySize m mmap)).toNat, mmap + 16 + 24 * i + 20 ≤ stop := by
  have size : load m (mmap + 4) 4 = tagSize m mmap := rfl
  have stride : load m (mmap + 8) 4 = entrySize m mmap := rfl
  rw [parseMmap,safe_read,safe_read,size,stride]
  by_cases zero : entrySize m mmap = 0
  · simp [zero]
  · rw [if_neg zero,safe_value]
    constructor
    · rintro ⟨_,room,visited,run⟩
      exact ⟨by omega,zero,fun i small => (mmapElements_eq.mp run).1 i (Nat.zero_le i) (by omega)⟩
    · rintro ⟨room,_,inside⟩
      exact ⟨by omega,by omega,_,mmapElements_eq.mpr ⟨fun j _ small => inside j (by omega),rfl⟩⟩

theorem parseFramebuffer_safe {tag : Nat} : Safe (parseFramebuffer stop m tag) ↔ tag + 29 ≤ stop := by
  rw [parseFramebuffer]
  simp only [safe_read,safe_done,and_true]
  omega

/-- `mb2_parse` goes on after every tag whose fields it can read. -/
theorem parseTag_safe (tag : Nat) : Safe (parseTag stop m (tagType m tag) tag) ↔ ParseFields stop m tag := by
  unfold parseTag
  by_cases cmdline : tagType m tag = MB2_TAG_CMDLINE
  · rw [if_pos cmdline,safe_value,readString_safe]
    have other {type : Nat} (different : MB2_TAG_CMDLINE ≠ type) (same : tagType m tag = type) : False :=
      different (cmdline.symm.trans same)
    exact ⟨fun ends => ⟨fun _ => ends,fun t => (other (by decide) t).elim,fun t => (other (by decide) t).elim,
      fun t => (other (by decide) t).elim,fun t => (other (by decide) t).elim⟩,fun fields =>
        fields.string (.inl cmdline)⟩
  rw [if_neg cmdline]
  by_cases bootloader : tagType m tag = MB2_TAG_BOOTLOADER
  · rw [if_pos bootloader,safe_value,readString_safe]
    have other {type : Nat} (different : MB2_TAG_BOOTLOADER ≠ type) (same : tagType m tag = type) : False :=
      different (bootloader.symm.trans same)
    exact ⟨fun ends => ⟨fun _ => ends,fun t => (other (by decide) t).elim,fun t => (other (by decide) t).elim,
      fun t => (other (by decide) t).elim,fun t => (other (by decide) t).elim⟩,fun fields =>
        fields.string (.inr bootloader)⟩
  rw [if_neg bootloader]
  have noString : ¬(tagType m tag = MB2_TAG_CMDLINE ∨ tagType m tag = MB2_TAG_BOOTLOADER) :=
    not_or.mpr ⟨cmdline,bootloader⟩
  by_cases mmap : tagType m tag = MB2_TAG_MMAP
  · rw [if_pos mmap,safe_value,parseMmap_safe]
    have other {type : Nat} (different : MB2_TAG_MMAP ≠ type) (same : tagType m tag = type) : False :=
      different (mmap.symm.trans same)
    exact ⟨fun inside => ⟨fun t => (noString t).elim,fun _ => inside,fun t => (other (by decide) t).elim,
      fun t => (other (by decide) t).elim,fun t => (other (by decide) t).elim⟩,fun fields => fields.mmap mmap⟩
  rw [if_neg mmap]
  by_cases acpi1 : tagType m tag = MB2_TAG_ACPI_V1
  · rw [if_pos acpi1,safe_read]
    have other {type : Nat} (different : MB2_TAG_ACPI_V1 ≠ type) (same : tagType m tag = type) : False :=
      different (acpi1.symm.trans same)
    exact ⟨fun inside => ⟨fun t => (noString t).elim,fun t => (mmap t).elim,fun _ => inside.1,
      fun t => (other (by decide) t).elim,fun t => (other (by decide) t).elim⟩,fun fields =>
        ⟨fields.acpi1 acpi1,safe_done _⟩⟩
  rw [if_neg acpi1]
  by_cases acpi2 : tagType m tag = MB2_TAG_ACPI_V2
  · rw [if_pos acpi2,safe_read]
    have other {type : Nat} (different : MB2_TAG_ACPI_V2 ≠ type) (same : tagType m tag = type) : False :=
      different (acpi2.symm.trans same)
    exact ⟨fun inside => ⟨fun t => (noString t).elim,fun t => (mmap t).elim,fun t => (acpi1 t).elim,
      fun _ => inside.1,fun t => (other (by decide) t).elim⟩,fun fields => ⟨fields.acpi2 acpi2,safe_done _⟩⟩
  rw [if_neg acpi2]
  by_cases framebuffer : tagType m tag = MB2_TAG_FRAMEBUFFER
  · rw [if_pos framebuffer,safe_value,parseFramebuffer_safe]
    exact ⟨fun inside => ⟨fun t => (noString t).elim,fun t => (mmap t).elim,fun t => (acpi1 t).elim,
      fun t => (acpi2 t).elim,fun _ => inside⟩,fun fields => fields.framebuffer framebuffer⟩
  rw [if_neg framebuffer]
  exact ⟨fun _ => ⟨fun t => (noString t).elim,fun t => (mmap t).elim,fun t => (acpi1 t).elim,
    fun t => (acpi2 t).elim,fun t => (framebuffer t).elim⟩,fun _ => safe_done _⟩

theorem parse_walks : Walks (tagBody stop m (fun (log : List Line) type tag => do
    let lines ← parseTag stop m type tag
    .done (.inr (log ++ lines))) id) (Stops stop m (fun _ => False))
      (Goes stop m (ParseFields stop m)) (nextTag m) := by
  apply tag_records.walks id
  · intro log tag impossible
    exact impossible.elim
  · intro log tag _ fields
    obtain ⟨lines,found⟩ := (parseTag_safe tag).mpr fields
    exact ⟨log ++ lines,by rw [found]; rfl⟩
  · intro log tag result run
    obtain ⟨lines,_,impossible⟩ := bind_eq_done.mp run
    cases impossible
  · intro log tag log' run
    obtain ⟨lines,found,_⟩ := bind_eq_done.mp run
    exact (parseTag_safe tag).mp ⟨lines,found⟩

end

section
variable {pool pml4 first stop : Nat} {m : Memory} {s s' : State}

/-- The page tables are in order, and the boot information is as it was before any of them was filled. -/
structure Informed (pool pml4 first stop : Nat) (m : Memory) (s : State) : Prop where
  tables : Tables pool pml4 s
  same : ∀ b, first ≤ b → b < stop → s.memory b = m b

theorem Informed.load (informed : Informed pool pml4 first stop m s) {a width : Nat} (low : first ≤ a)
    (inside : a + width ≤ stop) : load s.memory a width = load m a width :=
  load_congr (fun b above below => informed.same b (by omega) (by omega))

/-- No table is in the boot information. -/
def Apart (pool pml4 first stop : Nat) : Prop := ∀ b, first ≤ b → b < stop → Outside pool pml4 b

theorem Informed.boots (layout : Layout pool pml4) (apart : Apart pool pml4 first stop)
    (informed : Informed pool pml4 first stop m s) (boots : Regions.Boots pool pml4 s s') :
    Informed pool pml4 first stop m s' := by
  obtain ⟨calls,_,run⟩ := boots
  obtain ⟨tables,outside,_⟩ := run_mapped layout informed.tables run
  exact ⟨tables,fun b low high => (outside b (apart b low high)).trans (informed.same b low high)⟩

/-- The entries in turn, as the loop of `paging_init` maps them. -/
def mapVisited (pool pml4 : Nat) (visited : List Nat) (s : State) : Outcome State :=
  visited.foldlM (fun s ptr => mapEntry pool pml4 ptr s) s

theorem mapVisited_append (left right : List Nat) (s : State) :
    mapVisited pool pml4 (left ++ right) s = mapVisited pool pml4 left s >>= mapVisited pool pml4 right :=
  List.foldlM_append

theorem mapVisited_boots {visited : List Nat} (run : mapVisited pool pml4 visited s = .ok s') :
    Regions.Boots pool pml4 s s' := by
  induction visited generalizing s with
  | nil =>
    obtain rfl := Outcome.ok_injective run
    exact .refl pool pml4 s
  | cons ptr rest ih =>
    rw [mapVisited,List.foldlM_cons] at run
    obtain ⟨t,first,later⟩ := Outcome.bind_eq_ok.mp run
    exact (Regions.mapEntry_boots first).trans (ih later)

variable (layout : Layout pool pml4) (apart : Apart pool pml4 first stop)
include layout apart

theorem mapEntries_visits {mmap n ptr : Nat} {visited all : List Nat} (low : first ≤ mmap)
    (run : loop (entryBody stop m mmap) n visited ptr = .done all) :
    ∃ rest, all = visited ++ rest ∧ ∀ s fuel, Informed pool pml4 first stop m s → n ≤ fuel →
      mapEntries pool pml4 mmap fuel ptr s = mapVisited pool pml4 rest s := by
  induction n generalizing visited ptr with
  | zero => cases run
  | succ n ih =>
    rw [loop] at run
    obtain ⟨step,here,run⟩ := bind_eq_done.mp run
    rcases (entryBody_walks mmap).only visited ptr ⟨step,here⟩ with ⟨inside,last⟩ | ⟨inside,more,room⟩
    · rw [entryBody_stop visited inside last] at here
      cases here
      cases run
      refine ⟨[],(List.append_nil _).symm,fun s fuel informed few => ?_⟩
      obtain ⟨fuel,rfl⟩ : ∃ f, fuel = f + 1 := ⟨fuel - 1,by omega⟩
      have size : tagSize s.memory mmap = tagSize m mmap := informed.load (by omega) (by omega)
      rw [mapEntries,size,if_neg (Nat.not_lt.mpr last)]
      rfl
    · rw [entryBody_go visited inside more room] at here
      cases here
      obtain ⟨rest,same,later⟩ := ih run
      refine ⟨ptr :: rest,by rw [same,List.append_assoc]; rfl,fun s fuel informed few => ?_⟩
      obtain ⟨fuel,rfl⟩ : ∃ f, fuel = f + 1 := ⟨fuel - 1,by omega⟩
      have size : tagSize s.memory mmap = tagSize m mmap := informed.load (by omega) (by omega)
      rw [mapEntries,size,if_pos more,mapVisited,List.foldlM_cons]
      refine Outcome.bind_congr (fun t mapped => ?_)
      have after := informed.boots layout apart (Regions.mapEntry_boots mapped)
      have stride : entrySize t.memory mmap = entrySize m mmap := after.load (by omega) (by omega)
      rw [stride]
      exact later t fuel after (by omega)

/-- The walk over the entries has as much fuel as the limit is high, which is an address. -/
theorem mapTag_visits (small : stop < 2 ^ 64) {tag : Nat} {visited : List Nat} {value : List Nat ⊕ List Nat}
    (low : first ≤ tag) (inside : tag + 4 ≤ stop) (visits : pagingTag stop m visited (tagType m tag) tag = .done value) :
    ∃ entries, value = .inr (visited ++ entries) ∧
      ∀ s, Informed pool pml4 first stop m s → mapTag pool pml4 tag s = mapVisited pool pml4 entries s := by
  have same {s : State} (informed : Informed pool pml4 first stop m s) : tagType s.memory tag = tagType m tag :=
    informed.load low inside
  rw [pagingTag] at visits
  by_cases mmap : tagType m tag = MB2_TAG_MMAP
  · rw [if_pos mmap] at visits
    obtain ⟨entries,found,grown⟩ := bind_eq_done.mp visits
    cases grown
    obtain ⟨rest,rfl,later⟩ := mapEntries_visits layout apart low found
    refine ⟨entries,rfl,fun s informed => ?_⟩
    rw [mapTag,same informed,if_pos mmap]
    exact later s Regions.loopBound informed small
  · rw [if_neg mmap] at visits
    cases visits
    refine ⟨[],by rw [List.append_nil],fun s informed => ?_⟩
    rw [mapTag,same informed,if_neg mmap]
    rfl

theorem mapTags_from (small : stop < 2 ^ 64) {n tag : Nat} {visited all : List Nat} (low : first ≤ tag)
    (run : loop (tagBody stop m (pagingTag stop m) id) n visited tag = .done all) :
    ∃ rest, all = visited ++ rest ∧ ∀ s fuel, Informed pool pml4 first stop m s → n ≤ fuel →
      mapTags pool pml4 fuel tag s = mapVisited pool pml4 rest s := by
  induction n generalizing visited tag with
  | zero => cases run
  | succ n ih =>
    rw [loop] at run
    obtain ⟨moved,here,run⟩ := bind_eq_done.mp run
    rw [tagBody,record] at here
    obtain ⟨begun,start,here⟩ := bind_eq_done.mp here
    cases begun with
    | none =>
      obtain ⟨inside,last⟩ := (tag_records.ends tag).mp start
      cases here
      cases run
      refine ⟨[],(List.append_nil _).symm,fun s fuel informed few => ?_⟩
      obtain ⟨fuel,rfl⟩ : ∃ f, fuel = f + 1 := ⟨fuel - 1,by omega⟩
      have type : tagType s.memory tag = tagType m tag := informed.load low (by omega)
      rw [mapTags,type,if_neg (not_not.mpr last)]
      rfl
    | some type =>
      obtain ⟨inside,more,rfl⟩ := (tag_records.begins tag type).mp start
      obtain ⟨value,visits,here⟩ := bind_eq_done.mp here
      obtain ⟨entries,grown,mapped⟩ : ∃ entries, value = .inr (visited ++ entries) ∧
          ∀ s, Informed pool pml4 first stop m s → mapTag pool pml4 tag s = mapVisited pool pml4 entries s :=
        mapTag_visits layout apart small low inside visits
      subst grown
      obtain ⟨after,advanced,here⟩ := bind_eq_done.mp here
      obtain ⟨sized,rfl⟩ := (tag_records.advance tag after).mp advanced
      cases here
      obtain ⟨rest,same,later⟩ := ih (Nat.le_trans low (Nat.le_add_right tag _)) run
      refine ⟨entries ++ rest,by rw [same,List.append_assoc],fun s fuel informed few => ?_⟩
      obtain ⟨fuel,rfl⟩ : ∃ f, fuel = f + 1 := ⟨fuel - 1,by omega⟩
      have type : tagType s.memory tag = tagType m tag := informed.load low (by omega)
      rw [mapTags,type,if_pos more,mapped s informed,mapVisited_append]
      refine Outcome.bind_congr (fun t ran => ?_)
      have after := informed.boots layout apart (mapVisited_boots ran)
      have size : tagSize t.memory tag = tagSize m tag := after.load (by omega) (by omega)
      rw [size]
      exact later t fuel after (by omega)

/-- `paging_init` maps the entries that the walk with the limit visits, in their order. -/
theorem mapTags_visits (small : stop < 2 ^ 64) {n info : Nat} {visited : List Nat} (low : first ≤ info + 8)
    (run : pagingWalk stop m n info = .done visited) (few : n ≤ Regions.loopBound)
    (informed : Informed pool pml4 first stop m s) :
    mapTags pool pml4 Regions.loopBound (info + 8) s = mapVisited pool pml4 visited s := by
  obtain ⟨rest,rfl,later⟩ := mapTags_from layout apart small low run
  exact later s _ informed few

end

/-- After the first 2 MiB and the kernel, `paging_init` maps the entries that the walk with the limit visits. -/
theorem paging_init_visits {img : Regions.Image} {k k' : Regions.Kernel} {info stop n : Nat} {visited : List Nat}
    (layout : Layout img.page_table_pool img.page_table_pool) (fresh : Regions.Fresh k)
    (apart : Apart img.page_table_pool img.page_table_pool info stop) (small : stop < 2 ^ 64) (few : n ≤ Regions.loopBound)
    (walk : pagingWalk stop k.state.memory n info = .done visited) (run : Regions.paging_init img k info = .ok k') :
    ∃ s, Informed img.page_table_pool img.page_table_pool info stop k.state.memory s ∧
      mapVisited img.page_table_pool img.page_table_pool visited s = .ok k'.state := by
  obtain ⟨s₁,s₂,s₃,s₄,rfl,⟨start,_,kept⟩,low,kernel,tags⟩ := Regions.paging_init_parts fresh run
  have begun : Informed img.page_table_pool img.page_table_pool info stop k.state.memory s₁ :=
    ⟨start,fun b low high => kept b (apart b low high).2⟩
  have informed := begun.boots layout apart ((Regions.map_region_2mb_boots (by decide) (by decide) low).trans kernel)
  rw [mapTags_visits layout apart small (Nat.le_add_right info 8) walk few informed] at tags
  exact ⟨s₃,informed,tags⟩

/-! ### Two readers of a memory map -/

/-- A header of a memory map with `k` entries. -/
structure MapHeader (m : Memory) (mmap entry_size k : Nat) : Prop where
  type : tagType m mmap = MB2_TAG_MMAP
  size : tagSize m mmap = 16 + k * entry_size
  stride : entrySize m mmap = entry_size

/-- `base_addr`, `length` and `type` of an entry. -/
def triple (m : Memory) (ptr : Nat) : Nat × Nat × Nat := (entryBase m ptr,entryLength m ptr,entryType m ptr)

/-- The entries that `mb2_parse` visits. -/
def parseTriples (stop : Nat) (m : Memory) (mmap : Nat) : Access (List (Nat × Nat × Nat)) := do
  let (_,visited) ← parseMmap stop m mmap
  .done (visited.map (triple m))

/-- The entries that `paging_init` visits. -/
def pagingTriples (stop : Nat) (m : Memory) (mmap : Nat) : Access (List (Nat × Nat × Nat)) := do
  let visited ← pagingEntries stop m mmap
  .done (visited.map (triple m))

section
variable {m : Memory} {stop mmap entry_size k : Nat}

theorem mmapCount_eq (wide : 24 ≤ entry_size) (small : 16 + k * entry_size < 2 ^ 32) :
    mmapCount (16 + k * entry_size) entry_size = k := by
  have size : (16 + k * entry_size + 2 ^ 64 - 16) % 2 ^ 64 = k * entry_size := by omega
  have few : k * 24 ≤ k * entry_size := Nat.mul_le_mul_left k wide
  rw [mmapCount,size,Nat.mul_div_cancel _ (by omega),toInt,if_pos (by omega)]
  omega

/-- `mb2_parse` indexes an array of 24-byte entries. -/
theorem parseMmap_eq (wide : 24 ≤ entry_size) (small : 16 + k * entry_size < 2 ^ 32)
    (header : MapHeader m mmap entry_size k) (inside : mmap + (16 + k * entry_size) ≤ stop) :
    parseMmap stop m mmap = .done (k,(List.range k).map (fun i => mmap + 16 + 24 * i)) := by
  have size : load m (mmap + 4) 4 = 16 + k * entry_size := header.size
  have stride : load m (mmap + 8) 4 = entry_size := header.stride
  have elements : mmapElements stop m mmap k 0 = .done ((List.range k).map (fun i => mmap + 16 + 24 * i)) := by
    rw [mmapElements_eq,← List.range_eq_range']
    refine ⟨fun j _ early => ?_,rfl⟩
    have few : (j + 1) * 24 ≤ k * entry_size := Nat.mul_le_mul (by omega) wide
    omega
  have room : mmap + 4 + 4 ≤ stop ∧ mmap + 8 + 4 ≤ stop := by omega
  rw [parseMmap,read_inside room.1,bind_done,read_inside room.2,bind_done,size,stride,if_neg (by omega),
    mmapCount_eq wide small,Int.toNat_natCast,elements]
  rfl

/-- `paging_init` strides by the size of the entries. -/
theorem pagingEntries_eq (wide : 24 ≤ entry_size) (header : MapHeader m mmap entry_size k)
    (inside : mmap + (16 + k * entry_size) ≤ stop) :
    pagingEntries stop m mmap = .done ((List.range k).map (fun i => mmap + 16 + i * entry_size)) := by
  have few : k * 24 ≤ k * entry_size := Nat.mul_le_mul_left k wide
  have run (visited : List Nat) (i remaining fuel : Nat) (count : i + remaining = k) (enough : remaining < fuel) :
      loop (entryBody stop m mmap) fuel visited (mmap + 16 + i * entry_size) =
        .done (visited ++ (List.range' i remaining).map (fun i => mmap + 16 + i * entry_size)) := by
    induction remaining generalizing visited i fuel with
    | zero =>
      obtain ⟨fuel,rfl⟩ : ∃ f, fuel = f + 1 := ⟨fuel - 1,by omega⟩
      obtain rfl : i = k := by omega
      rw [loop,entryBody_stop visited (by omega) (by rw [header.size]; omega),bind_done]
      simp
    | succ remaining ih =>
      obtain ⟨fuel,rfl⟩ : ∃ f, fuel = f + 1 := ⟨fuel - 1,by omega⟩
      have room : (i + 1) * entry_size ≤ k * entry_size := Nat.mul_le_mul_right _ (by omega)
      rw [Nat.succ_mul] at room
      have step := @entryBody_go stop m mmap (mmap + 16 + i * entry_size) visited (by omega)
        (by rw [header.size]; omega) (by omega)
      rw [loop,step,bind_done,header.stride]
      show loop _ fuel (visited ++ [_]) (mmap + 16 + i * entry_size + entry_size) = _
      rw [Nat.add_assoc (mmap + 16),← Nat.succ_mul,ih _ (i + 1) fuel (by omega)
        (by omega),List.range'_succ,List.map_cons,
        List.append_assoc,List.singleton_append]
  have whole := run [] 0 k (stop + 1) (by omega) (by omega)
  rw [pagingEntries,List.range_eq_range']
  simpa using whole

end

/-- A memory map with entries of a size, whose second array element of 24 bytes differs from its second entry. -/
def oddMap (entry_size k : Nat) : Memory :=
  store (store (store (store (fun _ => 0) 0 4 6) 4 4 (16 + k * entry_size)) 8 4 entry_size) 40 1 1

theorem oddMap_header {entry_size k : Nat} (small : 16 + k * entry_size < 2 ^ 32) (some : 0 < k) :
    MapHeader (oddMap entry_size k) 0 entry_size k := by
  have stride : entry_size ≤ k * entry_size := Nat.le_mul_of_pos_left _ some
  constructor
  · rw [tagType,oddMap,load_store_disjoint (by omega),load_store_disjoint (by omega),load_store_disjoint (by omega),
      load_store_same (by decide)]
    rfl
  · rw [tagSize,oddMap,load_store_disjoint (by omega),load_store_disjoint (by omega),load_store_same (by omega)]
  · rw [entrySize,oddMap,load_store_disjoint (by omega),load_store_same (by omega)]

/-- The first byte of a load. -/
theorem load_first (m : Memory) (a width : Nat) : load m a (width + 1) % 256 = (m a).toNat := by
  have := (m a).toNat_lt
  rw [load]
  omega

/-- The two readers agree on all memory maps with a header if and only if the
    entries have 24 bytes or there is at most one. -/
theorem readers_agree_iff {entry_size k : Nat} (wide : 24 ≤ entry_size) (aligned : entry_size % 8 = 0)
    (small : 16 + k * entry_size < 2 ^ 32) :
    (∀ (m : Memory) (mmap stop : Nat), MapHeader m mmap entry_size k → mmap + (16 + k * entry_size) ≤ stop →
      ∃ visited, parseTriples stop m mmap = .done visited ∧ pagingTriples stop m mmap = .done visited) ↔
      entry_size = 24 ∨ k ≤ 1 := by
  constructor
  · intro agree
    by_contra neither
    obtain ⟨other,several⟩ := not_or.mp neither
    have header := @oddMap_header entry_size k small (by omega)
    obtain ⟨visited,first,second⟩ := agree _ 0 _ header (Nat.le_refl _)
    rw [parseTriples,parseMmap_eq wide small header (Nat.le_refl _)] at first
    rw [pagingTriples,pagingEntries_eq wide header (Nat.le_refl _)] at second
    have same := Access.done.inj (first.trans second.symm)
    rw [List.map_map,List.map_map] at same
    -- the second entry of either reader
    have bases := (Prod.mk.inj (List.map_inj_left.mp same 1 (List.mem_range.mpr (by omega)))).1
    have bytes := congrArg (· % 256) bases
    simp only [entryBase,load_first] at bytes
    rw [show 0 + 16 + 24 * 1 = 40 from rfl,oddMap,store_inside (by omega) (by omega),store_outside (by omega),
      store_outside (by omega),store_outside (by omega),store_outside (by omega)] at bytes
    exact absurd bytes (by decide)
  · intro shape m mmap stop header inside
    refine ⟨_,by rw [parseTriples,parseMmap_eq wide small header inside]; rfl,?_⟩
    rw [pagingTriples,pagingEntries_eq wide header inside]
    have visited : (List.range k).map (fun i => mmap + 16 + i * entry_size) = (List.range k).map
        (fun i => mmap + 16 + 24 * i) := by
      apply List.map_congr_left
      intro i member
      rw [List.mem_range] at member
      rcases shape with rfl | few
      · rw [Nat.mul_comm]
      · obtain rfl : i = 0 := by omega
        rw [Nat.zero_mul,Nat.mul_zero]
    rw [visited]
    rfl

theorem readers_agree_iff_two : ∃ visited, parseTriples 64 (oddMap 24 2) 0 = .done visited ∧
    pagingTriples 64 (oddMap 24 2) 0 = .done visited :=
  (@readers_agree_iff 24 2 (by decide) (by decide) (by decide)).mpr (.inl rfl) _ 0 64
    (oddMap_header (by decide) (by decide)) (by decide)

/-- Two entries of 32 bytes. -/
theorem readers_disagree : MapHeader (oddMap 32 2) 0 32 2 ∧
    parseTriples 80 (oddMap 32 2) 0 = .done [(0,0,0),(1,0,0)] ∧ pagingTriples 80
      (oddMap 32 2) 0 = .done [(0,0,0),(0,0,0)] := by
  have header := @oddMap_header 32 2 (by decide) (by decide)
  refine ⟨header,?_,?_⟩
  · rw [parseTriples,parseMmap_eq (by decide) (by decide) header (by decide)]
    decide
  · rw [pagingTriples,pagingEntries_eq (by decide) header (by decide)]
    decide

end NekoOs.Multiboot
