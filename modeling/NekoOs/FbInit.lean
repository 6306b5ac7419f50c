import NekoOs.Framebuffer
import NekoOs.Mmio

/-!
What `fb_init` maps and what `fb_put_pixel` writes. The size of the framebuffer
is a product of 32 bits, and every pixel is written as three bytes.
-/
namespace NekoOs.FbInit
open ByteMemory Framebuffer
open Mmio (Device)

/-- A `mb2_tag_framebuffer_t` with the fields that are used. -/
structure FramebufferTag where
  framebuffer_addr : UInt64
  framebuffer_pitch : UInt32
  framebuffer_width : UInt32
  framebuffer_height : UInt32
  framebuffer_bpp : UInt8
deriving DecidableEq, Repr

def FramebufferTag.info (tag : FramebufferTag) : FbInfo where
  addr := tag.framebuffer_addr.toNat
  width := tag.framebuffer_width.toNat
  height := tag.framebuffer_height.toNat
  pitch := tag.framebuffer_pitch.toNat
  bpp := tag.framebuffer_bpp.toNat

/-- The variable `fb`, and the `phys` and `size` that `paging_map_mmio_region` is asked for. -/
def fb_init (tag : FramebufferTag) : FbInfo × Nat × Nat :=
  let fb := tag.info
  (fb,(Device.framebuffer fb.addr fb.pitch fb.height).region)

/-- A put with pointers of 64 bits. In a framebuffer that ends with the address space they do not wrap. -/
def fb_put_pixel (fb : FbInfo) (x y : Nat) (color : UInt32) (m : Memory) : Memory :=
  if x ≥ fb.width ∨ y ≥ fb.height then m else
    let pixel := pixelAddress fb x y
    let m := store m (pixel % 2 ^ 64) 1 (color &&& 0xFF).toNat
    let m := store m ((pixel + 1) % 2 ^ 64) 1 ((color >>> 8) &&& 0xFF).toNat
    store m ((pixel + 2) % 2 ^ 64) 1 ((color >>> 16) &&& 0xFF).toNat

/-- A depth of whole bytes, and rows that hold their pixels. -/
structure FramebufferTag.Valid (tag : FramebufferTag) : Prop where
  whole : tag.info.bpp % 8 = 0
  least : 8 ≤ tag.info.bpp
  most : tag.info.bpp ≤ 32
  rows : tag.info.width * tag.info.bpp / 8 ≤ tag.info.pitch

/-- Where a pixel starts, over the integers. -/
def pixelStart (fb : FbInfo) (x y : Nat) : Nat := fb.addr + y * fb.pitch + x * (fb.bpp / 8)

/-- A put writes nothing off the screen, and else only to its own pixel, which is in the
    framebuffer. All of that is what is asked to be mapped. -/
structure Confined (tag : FramebufferTag) (x y : Nat) (color : UInt32) : Prop where
  off : ¬tag.info.Inside (x,y) → ∀ m, fb_put_pixel tag.info x y color m = m
  own : tag.info.Inside (x,y) → ∀ m b, fb_put_pixel tag.info x y color m b ≠ m b →
    pixelStart tag.info x y ≤ b ∧ b < pixelStart tag.info x y + tag.info.bpp / 8
  range : tag.info.Inside (x,y) → tag.info.addr ≤ pixelStart tag.info x y ∧
    pixelStart tag.info x y + tag.info.bpp / 8 ≤ tag.info.addr + tag.info.pitch * tag.info.height
  mapped : ∀ b, tag.info.addr ≤ b → b < tag.info.addr + tag.info.pitch * tag.info.height →
    (fb_init tag).2.1 ≤ b ∧ b < (fb_init tag).2.1 + (fb_init tag).2.2

section
variable {tag : FramebufferTag} {x y : Nat}

/-- The region is that of the pages with the first bytes of the framebuffer, as many as the product of 32 bits says. -/
theorem region_bounds (tag : FramebufferTag) : (fb_init tag).2.1 ≤ tag.info.addr ∧
    (fb_init tag).2.1 + (fb_init tag).2.2 =
      (tag.info.addr + tag.info.pitch * tag.info.height % 2 ^ 32 + 0xFFF) / 2 ^ 12 * 2 ^ 12 := by
  have fits : tag.info.addr < 2 ^ 64 := tag.framebuffer_addr.toNat_lt
  have small : tag.info.pitch * tag.info.height % 2 ^ 32 < 2 ^ 32 := Nat.mod_lt _ (Nat.two_pow_pos 32)
  simp only [fb_init,Device.region]
  omega

/-- The region covers the framebuffer exactly if its size does not wrap. -/
theorem mapped_iff (tag : FramebufferTag) : (∀ b, tag.info.addr ≤ b →
      b < tag.info.addr + tag.info.pitch * tag.info.height →
      (fb_init tag).2.1 ≤ b ∧ b < (fb_init tag).2.1 + (fb_init tag).2.2) ↔
    tag.info.pitch * tag.info.height < 2 ^ 32 := by
  obtain ⟨start,stop⟩ := region_bounds tag
  rw [stop]
  constructor
  · intro covered
    by_contra wraps
    have last := covered (tag.info.addr + tag.info.pitch * tag.info.height - 1) (by omega) (by omega)
    omega
  · intro small b low high
    omega

theorem FramebufferTag.Valid.row (valid : tag.Valid) : tag.info.width * (tag.info.bpp / 8) ≤ tag.info.pitch := by
  rw [← Nat.mul_div_assoc _ (Nat.dvd_of_mod_eq_zero valid.whole)]
  exact valid.rows

theorem pixelAddress_start (valid : tag.Valid) (small : tag.info.pitch * tag.info.height < 2 ^ 32)
    (inside : tag.info.Inside (x,y)) : pixelAddress tag.info x y = pixelStart tag.info x y :=
  FbInfo.pixelAddress_of valid.row small inside

/-- Where its pointers do not wrap, this is the put of the other results. -/
theorem fb_put_pixel_eq (fits : pixelAddress tag.info x y + 3 ≤ 2 ^ 64) (color : UInt32) :
    fb_put_pixel tag.info x y color = Framebuffer.fb_put_pixel tag.info x y color := by
  funext m
  simp only [fb_put_pixel,Framebuffer.fb_put_pixel]
  rw [Nat.mod_eq_of_lt (by omega),Nat.mod_eq_of_lt (by omega),Nat.mod_eq_of_lt (by omega)]

/-- A put off the screen writes nothing. -/
theorem fb_put_pixel_off (outside : ¬tag.info.Inside (x,y)) (color : UInt32) (m : Memory) :
    fb_put_pixel tag.info x y color m = m := by
  apply if_pos
  by_contra drawn
  exact outside ⟨by omega,by omega⟩

/-- A put writes the third byte of its pixel, whether the pixel has one or not. -/
theorem third_byte (inside : tag.info.Inside (x,y)) (color : UInt32) : ∃ m,
    fb_put_pixel tag.info x y color m ((pixelAddress tag.info x y + 2) % 2 ^ 64) ≠
      m ((pixelAddress tag.info x y + 2) % 2 ^ 64) := by
  have drawn : ¬(x ≥ tag.info.width ∨ y ≥ tag.info.height) := by
    have ⟨column,row⟩ := inside
    omega
  refine ⟨fun _ => UInt8.ofNat ((color >>> 16) &&& 0xFF).toNat + 1,?_⟩
  rw [fb_put_pixel,if_neg drawn,store_inside (Nat.le_refl _) (Nat.lt_succ_self _),Nat.sub_self]
  simp

/-- The bytes that a put without a wrap writes. -/
theorem own_bytes (inside : tag.info.Inside (x,y)) (fits : pixelAddress tag.info x y + 3 ≤ 2 ^ 64) {color : UInt32}
    {m : Memory} {b : Nat} (written : fb_put_pixel tag.info x y color m b ≠ m b) :
    pixelAddress tag.info x y ≤ b ∧ b < pixelAddress tag.info x y + 3 := by
  rw [fb_put_pixel_eq fits,@fb_put_pixel_inside tag.info (x,y) inside] at written
  by_contra outside
  exact written (store_outside (by dsimp only; omega))

/-- A put is confined exactly if the size of the framebuffer does not wrap and the pixel has three bytes in the
    address space. -/
theorem put_confined_iff (valid : tag.Valid) (x y : Nat) (color : UInt32) : Confined tag x y color ↔
    tag.info.pitch * tag.info.height < 2 ^ 32 ∧
      (tag.info.Inside (x,y) → 24 ≤ tag.info.bpp ∧ pixelStart tag.info x y + 3 ≤ 2 ^ 64) := by
  have whole := valid.whole
  constructor
  · intro confined
    have small := (mapped_iff tag).mp confined.mapped
    refine ⟨small,fun inside => ?_⟩
    obtain ⟨m,written⟩ := third_byte inside color
    have own := confined.own inside m _ written
    rw [pixelAddress_start valid small inside] at own
    omega
  · rintro ⟨small,deep⟩
    refine ⟨fun outside => fb_put_pixel_off outside color,fun inside m b written => ?_,fun inside => ?_,
      (mapped_iff tag).mpr small⟩
    · obtain ⟨depth,space⟩ := deep inside
      have start := pixelAddress_start valid small inside
      have own := own_bytes inside (by omega) written
      omega
    · obtain ⟨column,row⟩ := FbInfo.offsets valid.row inside
      dsimp only at column row
      rw [pixelStart]
      omega

/-- A screen of the size that the header asks for, at a depth. -/
def atDepth (bpp : UInt8) : FramebufferTag where
  framebuffer_addr := 0xFD000000
  framebuffer_pitch := 480 * (bpp.toUInt32 / 8)
  framebuffer_width := 480
  framebuffer_height := 270
  framebuffer_bpp := bpp

/-- A framebuffer of 4 GiB: its size wraps to 0. -/
def large : FramebufferTag where
  framebuffer_addr := 0x100000000
  framebuffer_pitch := 0x20000
  framebuffer_width := 0x8000
  framebuffer_height := 0x8000
  framebuffer_bpp := 32

theorem put_confined_iff_deep : (atDepth 32).Valid ∧ Confined (atDepth 32) 479 269 0xFFFFFF :=
  have valid : (atDepth 32).Valid := ⟨rfl,by decide,by decide,by decide⟩
  ⟨valid,(put_confined_iff valid 479 269 0xFFFFFF).mpr ⟨by decide,fun _ => ⟨by decide,by decide⟩⟩⟩

/-- The header leaves the depth open. With two bytes for a pixel, the red of one is the blue of the next, and of a
    framebuffer of 4 GiB nothing is mapped. -/
theorem shallow_put_spills : (atDepth 16).Valid ∧ (atDepth 16).info.Inside (0,0) ∧ (atDepth 16).info.Inside (1,0) ∧
    fb_put_pixel (atDepth 16).info 0 0 0xFFFFFF (fun _ => 0) (pixelStart (atDepth 16).info 1 0) = 0xFF ∧
    ¬Confined (atDepth 16) 0 0 0xFFFFFF ∧ large.Valid ∧ (fb_init large).2.2 = 0 ∧ ¬Confined large 0 0 0xFFFFFF := by
  have inside : (atDepth 16).info.Inside (0,0) := ⟨by decide,by decide⟩
  have red : fb_put_pixel (atDepth 16).info 0 0 0xFFFFFF (fun _ => 0) (pixelStart (atDepth 16).info 1 0) = 0xFF := by decide
  refine ⟨⟨rfl,by decide,by decide,by decide⟩,inside,⟨by decide,by decide⟩,red,fun confined => ?_,
    ⟨rfl,by decide,by decide,by decide⟩,by decide,fun confined => ?_⟩
  · have own := confined.own inside (fun _ => 0) _ (by rw [red]; decide)
    exact absurd own.2 (by decide)
  · have small := (mapped_iff large).mp confined.mapped
    exact absurd small (by decide)

end
end NekoOs.FbInit
