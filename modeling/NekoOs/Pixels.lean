import Mathlib.Data.List.Induction
import NekoOs.Framebuffer

/-!
Pixels that are read back. `fb_put_pixel` stores blue first and `fb_get_pixel`
takes the first byte for red, so that a colour comes back with the two exchanged.
-/
namespace NekoOs.Pixels
open ByteMemory Framebuffer

def fb_color (r g b : UInt8) : UInt32 := r.toUInt32 <<< 16 ||| g.toUInt32 <<< 8 ||| b.toUInt32

def fb_get_pixel (fb : FbInfo) (x y : Nat) (m : Memory) : UInt32 :=
  let pixel := pixelAddress fb x y
  (m pixel).toUInt32 <<< 16 ||| (m (pixel + 1)).toUInt32 <<< 8 ||| (m (pixel + 2)).toUInt32

/-- A call of `fb_put_pixel`. -/
structure Put where
  x : Nat
  y : Nat
  color : UInt32
deriving DecidableEq, Repr

def exec (fb : FbInfo) (m : Memory) (put : Put) : Memory := fb_put_pixel fb put.x put.y put.color m

/-- The colour that was put last at a point. -/
def lastPut (history : List Put) (p : Point) : Option UInt32 :=
  (history.reverse.find? (fun put => (put.x,put.y) = p)).map Put.color

/-- The bytes of a colour `0xRRGGBB` -/
def red (color : UInt32) : UInt8 := UInt8.ofNat (color.toNat / 65536)
def green (color : UInt32) : UInt8 := UInt8.ofNat (color.toNat / 256)
def blue (color : UInt32) : UInt8 := UInt8.ofNat color.toNat

/-! ### Colours -/

theorem fb_color_toNat (r g b : UInt8) : (fb_color r g b).toNat = r.toNat * 65536 + g.toNat * 256 + b.toNat := by
  have rSmall := r.toNat_lt
  have gSmall := g.toNat_lt
  have bSmall := b.toNat_lt
  have high : (r.toUInt32 <<< 16).toNat = 2 ^ 16 * r.toNat := by
    rw [UInt32.toNat_shiftLeft,Nat.shiftLeft_eq,UInt8.toNat_toUInt32]
    exact (Nat.mod_eq_of_lt (by show r.toNat * 65536 < 2 ^ 32; omega)).trans (Nat.mul_comm _ _)
  have middle : (g.toUInt32 <<< 8).toNat = 2 ^ 8 * g.toNat := by
    rw [UInt32.toNat_shiftLeft,Nat.shiftLeft_eq,UInt8.toNat_toUInt32]
    exact (Nat.mod_eq_of_lt (by show g.toNat * 256 < 2 ^ 32; omega)).trans (Nat.mul_comm _ _)
  rw [fb_color,UInt32.toNat_or,UInt32.toNat_or,high,middle,UInt8.toNat_toUInt32,Nat.or_assoc,
    ← Nat.two_pow_add_eq_or_of_lt bSmall,← Nat.two_pow_add_eq_or_of_lt (by omega)]
  omega

theorem color_bytes (color : UInt32) :
    (red color).toNat = color.toNat / 65536 % 256 ∧ (green color).toNat = color.toNat / 256 % 256 ∧
      (blue color).toNat = color.toNat % 256 := ⟨UInt8.toNat_ofNat',UInt8.toNat_ofNat',UInt8.toNat_ofNat'⟩

/-- The low 24 bits of a colour. -/
theorem fb_color_shade (color : UInt32) : (fb_color (red color) (green color) (blue color)).toNat = shade color := by
  obtain ⟨red,green,blue⟩ := color_bytes color
  rw [fb_color_toNat,red,green,blue,shade]
  omega

theorem fb_color_injective {r g b r' g' b' : UInt8} (same : fb_color r g b = fb_color r' g' b') :
    r = r' ∧ g = g' ∧ b = b' := by
  have values := congrArg UInt32.toNat same
  rw [fb_color_toNat,fb_color_toNat] at values
  have := b.toNat_lt
  have := b'.toNat_lt
  have := g.toNat_lt
  have := g'.toNat_lt
  exact ⟨UInt8.toNat_inj.mp (by omega),UInt8.toNat_inj.mp (by omega),UInt8.toNat_inj.mp (by omega)⟩

/-! ### Histories -/

section
variable {fb : FbInfo} {m : Memory} {p : Point}

/-- A put shows its colour on its pixel, if that is on the screen, and keeps the other pixels. -/
theorem pixel_put (sound : fb.Sound) (inside : fb.Inside p) (put : Put) : (fb.canvas sound).pixel (exec fb m put) p =
    if (put.x,put.y) = p then shade put.color else (fb.canvas sound).pixel m p := by
  by_cases drawn : fb.Inside (put.x,put.y)
  · have paints : (fb.canvas sound).Paints (· = (put.x,put.y)) (fun _ => shade put.color) (exec fb · put) :=
      fb_put_pixel_paints sound drawn rfl
    by_cases here : (put.x,put.y) = p
    · rw [if_pos here]
      exact paints.painted m p here.symm
    · rw [if_neg here]
      exact Canvas.pixel_kept paints.inside (paints.kept m) inside (fun same => here same.symm)
  · have elsewhere : (put.x,put.y) ≠ p := by
      rintro rfl
      exact drawn inside
    have clipped : exec fb m put = m := if_pos (by unfold FbInfo.Inside at drawn; omega)
    rw [if_neg elsewhere,clipped]

/-- After any puts a pixel shows the colour that was put last. -/
theorem pixel_puts (sound : fb.Sound) (inside : fb.Inside p) (history : List Put) :
    (fb.canvas sound).pixel (history.foldl (exec fb) m) p =
      ((lastPut history p).map shade).getD ((fb.canvas sound).pixel m p) := by
  induction history using List.reverseRecOn with
  | nil => rfl
  | append_singleton history put ih =>
    rw [List.foldl_append,List.foldl_cons,List.foldl_nil,pixel_put sound inside,ih]
    unfold lastPut
    rw [List.reverse_append,List.reverse_singleton,List.singleton_append,List.find?_cons]
    by_cases here : (put.x,put.y) = p
    · simp [here]
    · simp [here]

/-- What is read of a pixel that shows a colour. -/
theorem get_shown (sound : fb.Sound) {color : UInt32} (shown : (fb.canvas sound).pixel m p = shade color) :
    fb_get_pixel fb p.1 p.2 m = fb_color (blue color) (green color) (red color) := by
  have bytes : (m (pixelAddress fb p.1 p.2)).toNat + 256 * ((m (pixelAddress fb p.1 p.2 + 1)).toNat +
      256 * ((m (pixelAddress fb p.1 p.2 + 2)).toNat + 256 * 0)) = color.toNat % 2 ^ 24 := shown
  have first := (m (pixelAddress fb p.1 p.2)).toNat_lt
  have second := (m (pixelAddress fb p.1 p.2 + 1)).toNat_lt
  have third := (m (pixelAddress fb p.1 p.2 + 2)).toNat_lt
  obtain ⟨isRed,isGreen,isBlue⟩ := color_bytes color
  have lowest : m (pixelAddress fb p.1 p.2) = blue color := UInt8.toNat_inj.mp (by omega)
  have middle : m (pixelAddress fb p.1 p.2 + 1) = green color := UInt8.toNat_inj.mp (by omega)
  have highest : m (pixelAddress fb p.1 p.2 + 2) = red color := UInt8.toNat_inj.mp (by omega)
  simp only [fb_get_pixel,lowest,middle,highest]
  rfl

end

/-- Whatever has been put elsewhere and before, a pixel comes back with red and blue exchanged: as the colour that was
    put last exactly if the two are equal. -/
theorem read_back_iff {fb : FbInfo} (sound : fb.Sound) {p : Point} (inside : fb.Inside p) (history : List Put)
    {color : UInt32} (last : lastPut history p = some color) (m : Memory) :
    fb_get_pixel fb p.1 p.2 (history.foldl (exec fb) m) = fb_color (blue color) (green color) (red color) ∧
      ((fb_get_pixel fb p.1 p.2 (history.foldl (exec fb) m)).toNat = shade color ↔ red color = blue color) := by
  have shown := @pixel_puts fb m p sound inside history
  rw [last,Option.map_some,Option.getD_some] at shown
  have found := get_shown sound shown
  refine ⟨found,?_⟩
  rw [found,← fb_color_shade,UInt32.toNat_inj]
  constructor
  · exact fun same => (fb_color_injective same).2.2
  · intro same
    rw [same]

/-- The screen that the multiboot header asks for. -/
def screen : FbInfo := ⟨0xE0000000,480,270,1920,32⟩

theorem screen_sound : screen.Sound := ⟨.inr rfl,by decide,by decide⟩

/-- Two puts, of which the first is to another pixel. -/
theorem read_back_iff_grey : (fb_get_pixel screen 7 9 ([⟨8,9,0x123456⟩,⟨7,9,0xFF808080⟩].foldl (exec screen) (fun _ => 0))).toNat =
    0x808080 :=
  (@read_back_iff screen screen_sound (7,9) ⟨by decide,by decide⟩ _ 0xFF808080 (by decide) _).2.mpr (by decide)

/-- Red comes back as blue. -/
theorem red_read_back : lastPut [⟨0,0,fb_color 0xFF 0 0⟩] (0,0) = some 0xFF0000 ∧
    fb_get_pixel screen 0 0 ([⟨0,0,fb_color 0xFF 0 0⟩].foldl (exec screen) (fun _ => 0)) = 0x0000FF ∧
    (0x0000FF : UInt32).toNat ≠ shade 0xFF0000 := by
  have last : lastPut [⟨0,0,fb_color 0xFF 0 0⟩] (0,0) = some 0xFF0000 := by decide
  have shown := @pixel_puts screen (fun _ => 0) (0,0) screen_sound ⟨by decide,by decide⟩ [⟨0,0,fb_color 0xFF 0 0⟩]
  rw [last,Option.map_some,Option.getD_some] at shown
  exact ⟨last,(get_shown screen_sound shown).trans (by decide),by decide⟩

end NekoOs.Pixels
