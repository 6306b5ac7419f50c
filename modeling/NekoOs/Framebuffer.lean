import NekoOs.Canvas
import NekoOs.Words

/-!
The framebuffer and the font: pixels of three bytes, blue first, and glyphs that are
drawn pixel by pixel. Both are painting on the canvas of a framebuffer whose rows
do not overlap and whose offsets do not wrap.
-/
namespace NekoOs.Framebuffer
open ByteMemory

/-- An `fb_info_t`. -/
structure FbInfo where
  addr : Nat
  width : Nat
  height : Nat
  pitch : Nat
  bpp : Nat
deriving DecidableEq, Repr

/-- The address of a pixel. Both products are of 32 bits. -/
def pixelAddress (fb : FbInfo) (x y : Nat) : Nat :=
  fb.addr + y * fb.pitch % 2 ^ 32 + x * (fb.bpp / 8) % 2 ^ 32

def fb_put_pixel (fb : FbInfo) (x y : Nat) (color : UInt32) (m : Memory) : Memory :=
  if x ≥ fb.width ∨ y ≥ fb.height then m else
    let pixel := pixelAddress fb x y
    let m := store m pixel 1 (color &&& 0xFF).toNat
    let m := store m (pixel + 1) 1 ((color >>> 8) &&& 0xFF).toNat
    store m (pixel + 2) 1 ((color >>> 16) &&& 0xFF).toNat

def fb_clear (fb : FbInfo) (color : UInt32) (m : Memory) : Memory :=
  (List.range fb.height).foldl (fun m y => (List.range fb.width).foldl (fun m x => fb_put_pixel fb x y color m) m) m

/-- The variables that `font_init` sets, and the memory that holds the glyphs. -/
structure Font where
  font_glyphs : Nat
  font_width : Nat
  font_height : Nat
  font_glyph_size : Nat
  memory : Memory

/-- The bit of a glyph in a row and a column. The offsets are of 32 bits. -/
def Font.bit (font : Font) (c : UInt8) (row col : Nat) : Bool :=
  let glyph := font.font_glyphs + c.toNat * font.font_glyph_size % 2 ^ 32
  let bytes_per_row := (font.font_width + 7) % 2 ^ 32 / 8
  let byte := font.memory (glyph + (row * bytes_per_row + col / 8) % 2 ^ 32)
  byte.toNat.testBit (7 - col % 8)

def font_draw_char (fb : FbInfo) (font : Font) (c : UInt8) (x y : Nat) (fg bg : UInt32) (m : Memory) : Memory :=
  if font.font_glyphs = 0 then m else
    (List.range font.font_height).foldl (fun m row => (List.range font.font_width).foldl (fun m col =>
      fb_put_pixel fb ((x + col) % 2 ^ 32) ((y + row) % 2 ^ 32) (if font.bit c row col then fg else bg) m) m) m

/-! ### The canvas -/

/-- Pixels of three or four bytes, rows that hold them, and offsets of 32 bits. -/
structure FbInfo.Sound (fb : FbInfo) : Prop where
  depth : fb.bpp = 24 ∨ fb.bpp = 32
  rows : fb.width * fb.bpp / 8 ≤ fb.pitch
  small : fb.pitch * fb.height < 2 ^ 32

/-- A column and a row. -/
abbrev Point := Nat × Nat

def FbInfo.Inside (fb : FbInfo) (p : Point) : Prop := p.1 < fb.width ∧ p.2 < fb.height

/-- What a pixel shows of a colour. -/
def shade (color : UInt32) : Nat := color.toNat % 2 ^ 24

section
variable {fb : FbInfo}

theorem FbInfo.Sound.row (sound : fb.Sound) : fb.width * (fb.bpp / 8) ≤ fb.pitch := by
  have rows := sound.rows
  rcases sound.depth with depth | depth <;> rw [depth] at rows ⊢ <;> omega

theorem FbInfo.Sound.three (sound : fb.Sound) : 3 ≤ fb.bpp / 8 := by
  rcases sound.depth with depth | depth <;> omega

/-- A pixel ends where the next one starts or before, and a row where the next row does. -/
theorem FbInfo.offsets (rows : fb.width * (fb.bpp / 8) ≤ fb.pitch) {p : Point} (inside : fb.Inside p) :
    p.1 * (fb.bpp / 8) + fb.bpp / 8 ≤ fb.pitch ∧ p.2 * fb.pitch + fb.pitch ≤ fb.pitch * fb.height := by
  constructor
  · exact (Words.stride_le inside.1).trans rows
  · rw [Nat.mul_comm fb.pitch]
    exact Words.stride_le inside.2

/-- No offset of a pixel wraps. -/
theorem FbInfo.pixelAddress_of (rows : fb.width * (fb.bpp / 8) ≤ fb.pitch) (small : fb.pitch * fb.height < 2 ^ 32)
    {p : Point} (inside : fb.Inside p) :
    pixelAddress fb p.1 p.2 = fb.addr + p.2 * fb.pitch + p.1 * (fb.bpp / 8) := by
  obtain ⟨column,row⟩ := FbInfo.offsets rows inside
  rw [pixelAddress,Nat.mod_eq_of_lt (by omega),Nat.mod_eq_of_lt (by omega)]

theorem pixelAddress_eq (sound : fb.Sound) {p : Point} (inside : fb.Inside p) :
    pixelAddress fb p.1 p.2 = fb.addr + p.2 * fb.pitch + p.1 * (fb.bpp / 8) :=
  FbInfo.pixelAddress_of sound.row sound.small inside

theorem pixels_apart (sound : fb.Sound) {p q : Point} (inside : fb.Inside p) (inside' : fb.Inside q)
    (before : p.2 < q.2 ∨ p.2 = q.2 ∧ p.1 < q.1) : pixelAddress fb p.1 p.2 + 3 ≤ pixelAddress fb q.1 q.2 := by
  have three := sound.three
  rw [pixelAddress_eq sound inside,pixelAddress_eq sound inside']
  rcases before with above | ⟨same,left⟩
  · have column := (FbInfo.offsets sound.row inside).1
    have row : p.2 * fb.pitch + fb.pitch ≤ q.2 * fb.pitch := Words.stride_le above
    omega
  · have column : p.1 * (fb.bpp / 8) + fb.bpp / 8 ≤ q.1 * (fb.bpp / 8) := Words.stride_le left
    rw [same]
    omega

/-- The pixels of a framebuffer. -/
def FbInfo.canvas (fb : FbInfo) (sound : fb.Sound) : Canvas Point where
  inside := fb.Inside
  place p := pixelAddress fb p.1 p.2
  bytes := 3
  apart p q inside inside' different := by
    have order : (p.2 < q.2 ∨ p.2 = q.2 ∧ p.1 < q.1) ∨ (q.2 < p.2 ∨ q.2 = p.2 ∧ q.1 < p.1) := by
      by_contra none
      exact different (Prod.ext (by omega) (by omega))
    exact order.imp (pixels_apart sound inside inside') (pixels_apart sound inside' inside)

/-- The coordinates of a pixel have 32 bits. -/
theorem FbInfo.Sound.coordinates (sound : fb.Sound) {p : Point} (inside : fb.Inside p) :
    p.1 < 2 ^ 32 ∧ p.2 < 2 ^ 32 := by
  obtain ⟨column,row⟩ := FbInfo.offsets sound.row inside
  have small := sound.small
  have three := sound.three
  have wide : p.1 ≤ p.1 * (fb.bpp / 8) := Nat.le_mul_of_pos_right _ (by omega)
  have tall : p.2 ≤ p.2 * fb.pitch := Nat.le_mul_of_pos_right _ (by omega)
  omega

/-! ### Painting -/

private theorem low_byte (v : Nat) : UInt8.ofNat (v % 256) = UInt8.ofNat v := UInt8.toNat_inj.mp (by simp)

/-- The bytes of a colour, stored one after another. -/
theorem store_three (m : Memory) (a v : Nat) :
    store (store (store m a 1 (v % 256)) (a + 1) 1 (v / 256 % 256)) (a + 2) 1 (v / 65536 % 256) = store m a 3 v := by
  funext b
  rcases (by omega : b = a ∨ b = a + 1 ∨ b = a + 2 ∨ b < a ∨ a + 3 ≤ b) with rfl | rfl | rfl | apart
  · rw [store_outside (by omega),store_outside (by omega),store_inside (by omega) (by omega),
      store_inside (by omega) (by omega),Nat.sub_self,Nat.pow_zero,Nat.div_one,Nat.div_one,low_byte]
  · rw [store_outside (by omega),store_inside (by omega) (by omega),store_inside (by omega) (by omega),
      Nat.sub_self,Nat.add_sub_cancel_left,Nat.pow_zero,Nat.div_one,Nat.pow_one,low_byte]
  · rw [store_inside (by omega) (by omega),store_inside (by omega) (by omega),Nat.sub_self,Nat.add_sub_cancel_left,
      Nat.pow_zero,Nat.div_one]
    exact low_byte (v / 65536)
  · rw [store_outside (by omega),store_outside (by omega),store_outside (by omega),store_outside (by omega)]

theorem fb_put_pixel_inside {p : Point} (inside : fb.Inside p) (color : UInt32) (m : Memory) :
    fb_put_pixel fb p.1 p.2 color m = store m (pixelAddress fb p.1 p.2) 3 color.toNat := by
  have blue : (color &&& 0xFF).toNat = color.toNat % 256 := Nat.and_two_pow_sub_one_eq_mod _ 8
  have green : ((color >>> 8) &&& 0xFF).toNat = color.toNat / 256 % 256 := by
    rw [UInt32.toNat_and,UInt32.toNat_shiftRight]
    exact (Nat.and_two_pow_sub_one_eq_mod _ 8).trans (by rw [Nat.shiftRight_eq_div_pow]; rfl)
  have red : ((color >>> 16) &&& 0xFF).toNat = color.toNat / 65536 % 256 := by
    rw [UInt32.toNat_and,UInt32.toNat_shiftRight]
    exact (Nat.and_two_pow_sub_one_eq_mod _ 8).trans (by rw [Nat.shiftRight_eq_div_pow]; rfl)
  have drawn : ¬(p.1 ≥ fb.width ∨ p.2 ≥ fb.height) := by
    have ⟨column,row⟩ := inside
    omega
  rw [fb_put_pixel,if_neg drawn,← store_three,← blue,← green,← red]

variable {picture : Point → Nat}

theorem fb_put_pixel_paints (sound : fb.Sound) {p : Point} (inside : fb.Inside p) {color : UInt32}
    (colour : picture p = shade color) : (fb.canvas sound).Paints (· = p) picture (fb_put_pixel fb p.1 p.2 color) := by
  rw [show fb_put_pixel fb p.1 p.2 color = _ from funext (fb_put_pixel_inside inside color)]
  exact @Canvas.paints_store _ (fb.canvas sound) _ _ _ inside colour

/-- A clear shows one colour on every pixel. -/
theorem fb_clear_paints (sound : fb.Sound) (color : UInt32) :
    (fb.canvas sound).Paints fb.Inside (fun _ => shade color) (fb_clear fb color) := by
  have row (y : Nat) (above : y < fb.height) : (fb.canvas sound).Paints (fun p => ∃ x ∈ List.range fb.width, p = (x,y))
      (fun _ => shade color) (fun m => (List.range fb.width).foldl (fun m x => fb_put_pixel fb x y color m) m) :=
    Canvas.Paints.foldl (fun x member =>
      fb_put_pixel_paints sound (p := (x,y)) ⟨List.mem_range.mp member,above⟩ rfl)
  refine (Canvas.Paints.foldl (fun y member => row y (List.mem_range.mp member))).congr (fun p => ?_)
  simp only [List.mem_range]
  constructor
  · rintro ⟨column,above⟩
    exact ⟨p.2,above,p.1,column,rfl⟩
  · rintro ⟨y,above,x,column,rfl⟩
    exact ⟨column,above⟩

/-- The pixels of a glyph. -/
def Box (x y width height : Nat) (p : Point) : Prop :=
  x ≤ p.1 ∧ p.1 < x + width ∧ y ≤ p.2 ∧ p.2 < y + height

/-- A glyph inside the framebuffer shows its bits in two colours on its box. -/
theorem font_draw_char_paints (sound : fb.Sound) {font : Font} (present : font.font_glyphs ≠ 0) (c : UInt8)
    {x y : Nat} {fg bg : UInt32} (right : x + font.font_width ≤ fb.width) (bottom : y + font.font_height ≤ fb.height)
    (colours : ∀ row < font.font_height, ∀ col < font.font_width,
      picture (x + col,y + row) = shade (if font.bit c row col then fg else bg)) :
    (fb.canvas sound).Paints (Box x y font.font_width font.font_height) picture
      (font_draw_char fb font c x y fg bg) := by
  have one (row : Nat) (above : row < font.font_height) (col : Nat) (left : col < font.font_width) :
      (fb.canvas sound).Paints (· = (x + col,y + row)) picture
        (fb_put_pixel fb ((x + col) % 2 ^ 32) ((y + row) % 2 ^ 32) (if font.bit c row col then fg else bg)) := by
    have inside : fb.Inside (x + col,y + row) := ⟨by omega,by omega⟩
    obtain ⟨narrow,low⟩ := sound.coordinates inside
    rw [Nat.mod_eq_of_lt narrow,Nat.mod_eq_of_lt low]
    exact fb_put_pixel_paints sound inside (colours row above col left)
  have line (row : Nat) (above : row < font.font_height) := Canvas.Paints.foldl (fun col member =>
    one row above col (List.mem_range.mp member))
  have whole := Canvas.Paints.foldl (fun row member => line row (List.mem_range.mp member))
  rw [show font_draw_char fb font c x y fg bg = _ from funext (fun m => if_neg present)]
  refine whole.congr (fun p => ?_)
  simp only [List.mem_range]
  constructor
  · rintro ⟨left,column,top,row⟩
    exact ⟨p.2 - y,by omega,p.1 - x,by omega,Prod.ext (by simp; omega) (by simp; omega)⟩
  · rintro ⟨row,above,col,left,rfl⟩
    exact ⟨by simp,by simpa using left,by simp,by simpa using above⟩

end
end NekoOs.Framebuffer
