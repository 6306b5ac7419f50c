import NekoOs.Framebuffer
import NekoOs.Outcome

/-!
Fonts in the two PSF formats. `font_init` takes from the header where the glyphs
start and how large one is, and leaves out how many there are.
-/
namespace NekoOs.Psf
open ByteMemory Framebuffer

def PSF1_MAGIC : Nat := 0x0436
def PSF2_MAGIC : Nat := 0x864AB572

/-- A font in memory. It is part of the kernel, and so not at address 0. -/
structure Image where
  data : Nat
  size : Nat
  memory : Memory
  placed : 0 < data

/-! ### The code -/

def font_init (image : Image) : Outcome Font :=
  let field (offset width : Nat) := load image.memory (image.data + offset) width
  if field 0 2 = PSF1_MAGIC then
    .ok {
      font_glyphs := image.data + 4
      font_width := 8
      font_height := field 3 1
      font_glyph_size := field 3 1
      memory := image.memory }
  else if field 0 4 = PSF2_MAGIC then
    .ok {
      font_glyphs := image.data + field 8 4
      font_width := field 28 4
      font_height := field 24 4
      font_glyph_size := field 20 4
      memory := image.memory }
  else
    .kpanic ("Invalid PSF font (not embedded correctly) 0x" ++ String.ofList (Nat.toDigits 16 (field 0 4)))

/-- The address that `font_draw_char` reads for a row and a column of a glyph. -/
def byteAddress (font : Font) (c : UInt8) (row col : Nat) : Nat :=
  font.font_glyphs + c.toNat * font.font_glyph_size % 2 ^ 32 +
    (row * ((font.font_width + 7) % 2 ^ 32 / 8) + col / 8) % 2 ^ 32

/-! ### The formats -/

/-- What the header of a font says. -/
structure Layout where
  header_size : Nat
  glyph_count : Nat
  bytes_per_glyph : Nat
  height : Nat
  width : Nat
deriving DecidableEq, Repr

/-- The bytes of a row of pixels. -/
def Layout.bytes_per_row (l : Layout) : Nat := (l.width + 7) / 8

/-- The first format has 256 glyphs, or 512 if bit 0 of the mode is set. -/
def Image.layout (image : Image) : Layout :=
  let field (offset width : Nat) := load image.memory (image.data + offset) width
  if field 0 2 = PSF1_MAGIC then
    ⟨4,if (field 2 1).testBit 0 then 512 else 256,field 3 1,field 3 1,8⟩
  else
    ⟨field 8 4,field 16 4,field 20 4,field 24 4,field 28 4⟩

/-- A font of one of the formats, with all its glyphs. -/
structure Image.Valid (image : Image) : Prop where
  magic : load image.memory image.data 2 = PSF1_MAGIC ∨ load image.memory image.data 4 = PSF2_MAGIC
  some : 1 ≤ image.layout.glyph_count
  high : 1 ≤ image.layout.height
  wide : 1 ≤ image.layout.width
  rows : image.layout.bytes_per_glyph = image.layout.height * image.layout.bytes_per_row
  whole : image.layout.header_size + image.layout.glyph_count * image.layout.bytes_per_glyph ≤ image.size

/-- The byte of a glyph for a row and a column. -/
def Image.glyphByte (image : Image) (c row col : Nat) : Nat :=
  image.data + image.layout.header_size + c * image.layout.bytes_per_glyph + row * image.layout.bytes_per_row + col / 8

def Image.glyphBit (image : Image) (c row col : Nat) : Bool :=
  (image.memory (image.glyphByte c row col)).toNat.testBit (7 - col % 8)

/-- Pixels drawn from the bits of a glyph. -/
def drawBits (fb : FbInfo) (l : Layout) (bits : Nat → Nat → Bool) (x y : Nat) (fg bg : UInt32) (m : Memory) : Memory :=
  (List.range l.height).foldl (fun m row => (List.range l.width).foldl (fun m col =>
    fb_put_pixel fb ((x + col) % 2 ^ 32) ((y + row) % 2 ^ 32) (if bits row col then fg else bg) m) m) m

/-- The variables that `font_init` sets describe the font. -/
structure Describes (font : Font) (image : Image) : Prop where
  glyphs : font.font_glyphs = image.data + image.layout.header_size
  width : font.font_width = image.layout.width
  height : font.font_height = image.layout.height
  size : font.font_glyph_size = image.layout.bytes_per_glyph
  memory : font.memory = image.memory

/-- All that is read for a character lies in the font, and for a glyph of the font it is that glyph. -/
structure Lookup (image : Image) (font : Font) (c : UInt8) : Prop where
  inside : ∀ row < font.font_height, ∀ col < font.font_width,
    image.data ≤ byteAddress font c row col ∧ byteAddress font c row col < image.data + image.size
  own : c.toNat < image.layout.glyph_count → ∀ row < font.font_height, ∀ col < font.font_width,
    byteAddress font c row col = image.glyphByte c.toNat row col

/-- A glyph is found if its offset does not wrap, nor the width of more than one row. What is taken for a glyph beyond
    the last one lies in the font only if the font goes on after its glyphs. -/
def Layout.Serves (l : Layout) (size c : Nat) : Prop :=
  if c < l.glyph_count then c * l.bytes_per_glyph < 2 ^ 32 ∧ (l.width + 7 < 2 ^ 32 ∨ l.height = 1)
  else l.header_size + c * l.bytes_per_glyph % 2 ^ 32 +
    (if l.width + 7 < 2 ^ 32 then l.bytes_per_glyph else l.bytes_per_row) ≤ size

section
variable {image : Image} {font : Font} {c : UInt8} {row col : Nat}

/-- The second magic number does not start with the first. -/
theorem font_init_describes (valid : image.Valid) : ∃ font, font_init image = .ok font ∧ Describes font image := by
  by_cases first : load image.memory image.data 2 = PSF1_MAGIC
  · simp only [font_init,Nat.add_zero,if_pos first]
    refine ⟨_,rfl,?_⟩
    constructor <;> simp [Image.layout,first]
  · have second := valid.magic.resolve_left first
    simp only [font_init,Nat.add_zero,if_neg first,if_pos second]
    refine ⟨_,rfl,?_⟩
    constructor <;> simp [Image.layout,first]

theorem bit_eq (font : Font) (c : UInt8) (row col : Nat) :
    font.bit c row col = (font.memory (byteAddress font c row col)).toNat.testBit (7 - col % 8) := rfl

/-- The fields of a header have 32 bits. -/
theorem layout_small (image : Image) : image.layout.width < 2 ^ 32 ∧ image.layout.bytes_per_glyph < 2 ^ 32 := by
  have field (offset : Nat) : load image.memory (image.data + offset) 4 < 2 ^ 32 := load_lt _ _ 4
  have charsize : load image.memory (image.data + 3) 1 < 2 ^ 8 := load_lt _ _ 1
  unfold Image.layout
  dsimp only
  split
  · dsimp only
    omega
  · exact ⟨field 28,field 20⟩

/-- The offset of a byte in a glyph. -/
theorem offset_lt {l : Layout} (above : row < l.height) (left : col < l.width) :
    row * l.bytes_per_row + col / 8 < l.height * l.bytes_per_row := by
  have rows : row * l.bytes_per_row + l.bytes_per_row ≤ l.height * l.bytes_per_row := Words.stride_le above
  have column : col / 8 < l.bytes_per_row := by
    unfold Layout.bytes_per_row
    omega
  omega

/-- A width that wraps makes all rows one. -/
theorem byteAddress_eq (valid : image.Valid) (describes : Describes font image) (above : row < image.layout.height)
    (left : col < image.layout.width) : byteAddress font c row col =
      image.data + image.layout.header_size + c.toNat * image.layout.bytes_per_glyph % 2 ^ 32 +
        (if image.layout.width + 7 < 2 ^ 32 then row * image.layout.bytes_per_row else 0) + col / 8 := by
  have small := layout_small image
  have offset := offset_lt above left
  rw [← valid.rows] at offset
  rw [byteAddress,describes.glyphs,describes.size,describes.width]
  split
  case isTrue narrow =>
    have near : row * image.layout.bytes_per_row + col / 8 < 2 ^ 32 := by omega
    rw [Nat.mod_eq_of_lt narrow,← Layout.bytes_per_row,Nat.mod_eq_of_lt near]
    omega
  case isFalse wraps =>
    have single : (image.layout.width + 7) % 2 ^ 32 / 8 = 0 := by omega
    have near : 0 + col / 8 < 2 ^ 32 := by omega
    rw [single,Nat.mul_zero,Nat.mod_eq_of_lt near]
    omega

/-- For a glyph of the font, the bytes are its own. -/
theorem own_iff (valid : image.Valid) (describes : Describes font image) : (∀ row < image.layout.height,
      ∀ col < image.layout.width, byteAddress font c row col = image.glyphByte c.toNat row col) ↔
    c.toNat * image.layout.bytes_per_glyph < 2 ^ 32 ∧ (image.layout.width + 7 < 2 ^ 32 ∨ image.layout.height = 1) := by
  have high := valid.high
  have wide := valid.wide
  constructor
  · intro own
    have first := own 0 high 0 wide
    rw [byteAddress_eq valid describes high wide,Image.glyphByte] at first
    refine ⟨by split at first <;> omega,?_⟩
    by_contra both
    obtain ⟨wraps,rows⟩ := not_or.mp both
    have second := own 1 (by omega) 0 wide
    rw [byteAddress_eq valid describes (by omega) wide,if_neg wraps,Image.glyphByte,Layout.bytes_per_row] at second
    omega
  · rintro ⟨near,straight⟩ row above col left
    rw [byteAddress_eq valid describes above left,Image.glyphByte,Nat.mod_eq_of_lt near]
    by_cases narrow : image.layout.width + 7 < 2 ^ 32
    · rw [if_pos narrow]
    · have top : row = 0 := by
        have single := straight.resolve_left narrow
        omega
      rw [if_neg narrow,top,Nat.zero_mul]

/-- The bytes of a glyph lie in the font. -/
theorem glyphByte_inside (valid : image.Valid) (known : c.toNat < image.layout.glyph_count)
    (above : row < image.layout.height) (left : col < image.layout.width) :
    image.data ≤ image.glyphByte c.toNat row col ∧ image.glyphByte c.toNat row col < image.data + image.size := by
  have offset := offset_lt above left
  have glyphs : c.toNat * image.layout.bytes_per_glyph + image.layout.bytes_per_glyph ≤
    image.layout.glyph_count * image.layout.bytes_per_glyph := Words.stride_le known
  have whole := valid.whole
  rw [← valid.rows] at offset
  rw [Image.glyphByte]
  omega

/-- Whatever the character, the bytes lie in the font exactly if the last one does. -/
theorem inside_iff (valid : image.Valid) (describes : Describes font image) : (∀ row < image.layout.height,
      ∀ col < image.layout.width, image.data ≤ byteAddress font c row col ∧
        byteAddress font c row col < image.data + image.size) ↔
    image.layout.header_size + c.toNat * image.layout.bytes_per_glyph % 2 ^ 32 +
      (if image.layout.width + 7 < 2 ^ 32 then image.layout.bytes_per_glyph else image.layout.bytes_per_row) ≤
        image.size := by
  have high := valid.high
  have wide := valid.wide
  constructor
  · intro inside
    have last := (inside (image.layout.height - 1) (by omega) (image.layout.width - 1) (by omega)).2
    rw [byteAddress_eq valid describes (by omega) (by omega)] at last
    have column : (image.layout.width - 1) / 8 + 1 = image.layout.bytes_per_row := by
      unfold Layout.bytes_per_row
      omega
    by_cases narrow : image.layout.width + 7 < 2 ^ 32
    · have rows : (image.layout.height - 1) * image.layout.bytes_per_row + image.layout.bytes_per_row =
          image.layout.bytes_per_glyph := by
        rw [valid.rows,← Nat.succ_mul,Nat.succ_eq_add_one,Nat.sub_add_cancel high]
      rw [if_pos narrow] at last ⊢
      omega
    · rw [if_neg narrow] at last ⊢
      omega
  · intro ends row above col left
    rw [byteAddress_eq valid describes above left]
    have offset := offset_lt above left
    rw [← valid.rows] at offset
    by_cases narrow : image.layout.width + 7 < 2 ^ 32
    · rw [if_pos narrow] at ends ⊢
      omega
    · rw [if_neg narrow] at ends ⊢
      unfold Layout.bytes_per_row at ends
      omega

/-- The bits of a glyph that is found are those of the font. -/
theorem bit_own {font : Font} {c : UInt8} (describes : Describes font image) (lookup : Lookup image font c)
    (known : c.toNat < image.layout.glyph_count) {row col : Nat} (above : row < image.layout.height)
    (left : col < image.layout.width) : font.bit c row col = image.glyphBit c.toNat row col := by
  rw [← describes.height] at above
  rw [← describes.width] at left
  rw [bit_eq,describes.memory,lookup.own known row above col left,Image.glyphBit]

theorem Describes.present (describes : Describes font image) : font.font_glyphs ≠ 0 := by
  have placed := image.placed
  rw [describes.glyphs]
  omega

/-- A glyph that is found is drawn, at any place. -/
theorem glyph_drawn (describes : Describes font image) (lookup : Lookup image font c)
    (known : c.toNat < image.layout.glyph_count) (fb : FbInfo) (x y : Nat) (fg bg : UInt32) (m : Memory) :
    font_draw_char fb font c x y fg bg m = drawBits fb image.layout (image.glyphBit c.toNat) x y fg bg m := by
  rw [font_draw_char,if_neg describes.present,drawBits,describes.height,describes.width]
  apply List.foldl_ext
  intro m row above
  apply List.foldl_ext
  intro m col left
  rw [bit_own describes lookup known (List.mem_range.mp above) (List.mem_range.mp left)]

/-- The lookup is right exactly for the characters that the header serves. -/
theorem lookup_iff (valid : image.Valid) (describes : Describes font image) (c : UInt8) :
    Lookup image font c ↔ image.layout.Serves image.size c.toNat := by
  unfold Layout.Serves
  by_cases known : c.toNat < image.layout.glyph_count
  · rw [if_pos known,← own_iff valid describes]
    constructor
    · intro lookup
      have own := lookup.own known
      rwa [describes.height,describes.width] at own
    · intro own
      constructor <;> rw [describes.height,describes.width]
      · intro row above col left
        rw [own row above col left]
        exact glyphByte_inside valid known above left
      · exact fun _ => own
  · rw [if_neg known,← inside_iff valid describes]
    constructor
    · intro lookup
      have inside := lookup.inside
      rwa [describes.height,describes.width] at inside
    · intro inside
      constructor <;> rw [describes.height,describes.width]
      · exact inside
      · exact fun known' => absurd known' known

/-- A character that the header serves, on the screen, shows its glyph. -/
theorem glyph_painted (valid : image.Valid) (describes : Describes font image)
    (serves : image.layout.Serves image.size c.toNat) (known : c.toNat < image.layout.glyph_count)
    {fb : FbInfo} (sound : fb.Sound) {x y : Nat} {fg bg : UInt32} (right : x + image.layout.width ≤ fb.width)
    (bottom : y + image.layout.height ≤ fb.height) {picture : Point → Nat}
    (colours : ∀ row < image.layout.height, ∀ col < image.layout.width,
      picture (x + col,y + row) = shade (if image.glyphBit c.toNat row col then fg else bg)) :
    (fb.canvas sound).Paints (Box x y image.layout.width image.layout.height) picture
      (font_draw_char fb font c x y fg bg) := by
  have lookup := (lookup_iff valid describes c).mpr serves
  rw [← describes.width,← describes.height] at *
  refine font_draw_char_paints sound describes.present c right bottom (fun row above col left => ?_)
  rw [colours row above col left,bit_own describes lookup known (describes.height ▸ above) (describes.width ▸ left)]

end

/-- The first format has glyphs for all characters. -/
theorem psf1_serves {image : Image} (valid : image.Valid) (first : load image.memory image.data 2 = PSF1_MAGIC)
    (c : UInt8) : image.layout.Serves image.size c.toNat := by
  have character := c.toNat_lt
  have charsize : load image.memory (image.data + 3) 1 < 2 ^ 8 := load_lt _ _ 1
  have whole := valid.whole
  have layout : image.layout = ⟨4,if (load image.memory (image.data + 2) 1).testBit 0 then 512 else 256,
      load image.memory (image.data + 3) 1,load image.memory (image.data + 3) 1,8⟩ := if_pos first
  have known : c.toNat < image.layout.glyph_count := by
    rw [layout]
    dsimp only
    split <;> omega
  have near : c.toNat * image.layout.bytes_per_glyph ≤ 256 * 256 := by
    rw [layout]
    exact Nat.mul_le_mul character.le (by dsimp only; omega)
  rw [Layout.Serves,if_pos known]
  refine ⟨by omega,.inl ?_⟩
  rw [layout]
  dsimp only
  omega

/-- After `font_init`, a lookup stays in the font and finds the glyphs that it has exactly for the characters that the
    header serves, and then a character with a glyph is drawn with the bits of that. -/
theorem glyph_lookup_iff {image : Image} (valid : image.Valid) : ∃ font, font_init image = .ok font ∧
    Describes font image ∧ ∀ c : UInt8, (Lookup image font c ↔ image.layout.Serves image.size c.toNat) ∧
      (image.layout.Serves image.size c.toNat → c.toNat < image.layout.glyph_count → ∀ fb x y fg bg m,
        font_draw_char fb font c x y fg bg m = drawBits fb image.layout (image.glyphBit c.toNat) x y fg bg m) := by
  obtain ⟨font,loaded,describes⟩ := font_init_describes valid
  refine ⟨font,loaded,describes,fun c => ⟨lookup_iff valid describes c,?_⟩⟩
  intro serves known
  exact glyph_drawn describes ((lookup_iff valid describes c).mpr serves) known

/-- A font of the second format with 96 glyphs of 12 by 24 pixels. Only the `A` has two columns of pixels
    in each byte, and nothing follows the glyphs. -/
def letters : Image where
  data := 0x200000
  size := 40 + 96 * 48
  memory := fun a => [0x72,0xB5,0x4A,0x86,0,0,0,0,40,0,0,0,0,0,0,0,96,0,0,0,48,0,0,0,24,0,0,0,12,0,0,0].getD (a - 0x200000)
    (if (a - 0x200000 - 40) / 48 = 65 then 0x18 else 0)
  placed := by decide

theorem letters_valid : letters.Valid := ⟨.inr (by decide),by decide,by decide,by decide,by decide,by decide⟩

theorem glyph_lookup_iff_letter : ∃ font, font_init letters = .ok font ∧ Lookup letters font 65 ∧
    letters.glyphBit 65 23 11 = true ∧ letters.glyphBit 65 23 10 = false ∧
    ∀ fb x y fg bg m, font_draw_char fb font 65 x y fg bg m = drawBits fb letters.layout (letters.glyphBit 65) x y fg bg m := by
  obtain ⟨font,loaded,_,served⟩ := glyph_lookup_iff letters_valid
  have known : (65 : UInt8).toNat < letters.layout.glyph_count := by decide
  have serves : letters.layout.Serves letters.size (65 : UInt8).toNat := by
    rw [Layout.Serves,if_pos known]
    exact ⟨by decide,.inl (by decide)⟩
  exact ⟨font,loaded,(served 65).1.mpr serves,by decide,by decide,(served 65).2 serves known⟩

/-- A font of the second format with one glyph of 8 by 16 pixels, and nothing after it. -/
def single : Image where
  data := 0x200000
  size := 48
  memory := fun a => [0x72,0xB5,0x4A,0x86,0,0,0,0,32,0,0,0,0,0,0,0,1,0,0,0,16,0,0,0,16,0,0,0,8,0,0,0].getD (a - 0x200000) 0x18
  placed := by decide

theorem single_valid : single.Valid := ⟨.inr (by decide),by decide,by decide,by decide,by decide,by decide⟩

/-- Nothing stops an `A` that this font does not have: its first byte is read 1 KiB beyond the end. -/
theorem missing_glyph : single.Valid ∧ ∃ font, font_init single = .ok font ∧
    byteAddress font 65 0 0 = single.data + single.size + 1024 ∧ ¬Lookup single font 65 := by
  obtain ⟨font,loaded,describes⟩ := font_init_describes single_valid
  have beyond : byteAddress font 65 0 0 = single.data + single.size + 1024 := by
    rw [byteAddress,describes.glyphs,describes.size,describes.width]
    decide
  refine ⟨single_valid,font,loaded,beyond,fun lookup => ?_⟩
  have first := (lookup.inside 0 (by rw [describes.height]; decide) 0 (by rw [describes.width]; decide)).2
  rw [beyond] at first
  omega

end NekoOs.Psf
