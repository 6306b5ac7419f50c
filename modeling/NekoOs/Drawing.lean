import NekoOs.Pixels

/-!
Rectangles and logos. The loops of `fb_fill_rect` stop at sums of 32 bits, and a
pixel off the screen is not drawn. A logo is drawn over what the screen shows,
and `fb_get_pixel` reads that without a look at the size of the screen.
-/
namespace NekoOs.Drawing
open ByteMemory Framebuffer Pixels

/-! ### Rectangles -/

/-- The values of a counter from a start up to a limit. -/
def counter (first stop : UInt32) : List Nat := List.range' first.toNat (stop.toNat - first.toNat)

def fb_fill_rect (fb : FbInfo) (x y w h color : UInt32) (m : Memory) : Memory :=
  (counter y (y + h)).foldl (fun m row => (counter x (x + w)).foldl (fun m col => fb_put_pixel fb col row color m) m) m

/-- The pixels of the screen in a rectangle, with sums over the integers. -/
def Clipped (fb : FbInfo) (x y w h : UInt32) (p : Point) : Prop :=
  fb.Inside p ∧ Box x.toNat y.toNat w.toNat h.toNat p

section
variable {fb : FbInfo} {picture : Point → Nat} {x y w h color : UInt32}

theorem mem_counter {first stop : UInt32} {n : Nat} : n ∈ counter first stop ↔ first.toNat ≤ n ∧ n < stop.toNat := by
  rw [counter,List.mem_range'_1]
  omega

/-- A put paints its pixel if that is on the screen, and nothing else. -/
theorem put_paints (sound : fb.Sound) (p : Point) (colour : picture p = shade color) :
    (fb.canvas sound).Paints (fun q => fb.Inside q ∧ q = p) picture (fb_put_pixel fb p.1 p.2 color) := by
  by_cases inside : fb.Inside p
  · refine (fb_put_pixel_paints sound inside colour).congr (fun q => and_iff_right_of_imp ?_)
    rintro rfl
    exact inside
  · have skipped : fb_put_pixel fb p.1 p.2 color = id := by
      funext m
      apply if_pos
      by_contra drawn
      exact inside ⟨by omega,by omega⟩
    rw [skipped]
    refine Canvas.paints_nothing.congr (fun q => iff_false_intro ?_)
    rintro ⟨inside',rfl⟩
    exact inside inside'

/-- The loops paint the pixels of the screen at the values of both counters. -/
theorem fb_fill_rect_paints (sound : fb.Sound) (x y w h color : UInt32) : (fb.canvas sound).Paints
    (fun p => fb.Inside p ∧ p.1 ∈ counter x (x + w) ∧ p.2 ∈ counter y (y + h)) (fun _ => shade color)
    (fb_fill_rect fb x y w h color) := by
  have line (row : Nat) : (fb.canvas sound).Paints (fun p => ∃ col ∈ counter x (x + w), fb.Inside p ∧ p = (col,row))
      (fun _ => shade color) (fun m => (counter x (x + w)).foldl (fun m col => fb_put_pixel fb col row color m) m) :=
    Canvas.Paints.foldl (fun col _ => put_paints sound (col,row) rfl)
  refine (Canvas.Paints.foldl (fun row _ => line row)).congr (fun p => ?_)
  constructor
  · rintro ⟨inside,column,row⟩
    exact ⟨p.2,row,p.1,column,inside,rfl⟩
  · rintro ⟨row,above,col,left,inside,rfl⟩
    exact ⟨inside,left,above⟩

/-- A fill is exact clipping if no sum wraps, or where the rectangle has no pixel on the screen; else it draws nothing. -/
theorem fb_fill_rect_exact_iff (sound : fb.Sound) (x y w h color : UInt32) :
    (fb.canvas sound).Paints (Clipped fb x y w h) (fun _ => shade color) (fb_fill_rect fb x y w h color) ↔
      (x.toNat + w.toNat < 2 ^ 32 ∧ y.toNat + h.toNat < 2 ^ 32) ∨ ∀ p, ¬Clipped fb x y w h p := by
  have right : (x + w).toNat = (x.toNat + w.toNat) % 2 ^ 32 := UInt32.toNat_add x w
  have bottom : (y + h).toNat = (y.toNat + h.toNat) % 2 ^ 32 := UInt32.toNat_add y h
  have width := w.toNat_lt
  have height := h.toNat_lt
  rw [(fb_fill_rect_paints sound x y w h color).paints_iff (by decide : 0 < 3)]
  simp only [mem_counter,right,bottom]
  constructor
  · intro same
    by_cases exact : x.toNat + w.toNat < 2 ^ 32 ∧ y.toNat + h.toNat < 2 ^ 32
    · exact .inl exact
    · refine .inr (fun p clipped => ?_)
      obtain ⟨inside,left,top⟩ := (same p).mp clipped
      omega
  · rintro (exact | empty) p
    · rw [Clipped,Box,Nat.mod_eq_of_lt exact.1,Nat.mod_eq_of_lt exact.2]
      tauto
    · refine iff_of_false (empty p) ?_
      rintro ⟨inside,left,top⟩
      apply empty p
      refine ⟨inside,?_⟩
      unfold Box
      omega

end

theorem fb_fill_rect_exact_iff_corner : (screen.canvas screen_sound).Paints (Clipped screen 470 260 100 100)
    (fun _ => shade 0xFF0000) (fb_fill_rect screen 470 260 100 100 0xFF0000) :=
  (fb_fill_rect_exact_iff screen_sound 470 260 100 100 0xFF0000).mpr (.inl ⟨by decide,by decide⟩)

/-- A rectangle from the second column on, as wide as can be, is not drawn. -/
theorem endless_rectangle : Clipped screen 1 0 0xFFFFFFFF 270 (1,0) ∧
    (∀ m, fb_fill_rect screen 1 0 0xFFFFFFFF 270 0xFF0000 m = m) ∧ ¬(screen.canvas screen_sound).Paints
      (Clipped screen 1 0 0xFFFFFFFF 270) (fun _ => shade 0xFF0000) (fb_fill_rect screen 1 0 0xFFFFFFFF 270 0xFF0000) := by
  have visible : Clipped screen 1 0 0xFFFFFFFF 270 (1,0) := 
    ⟨⟨by decide,by decide⟩,by decide,by decide,by decide,by decide⟩
  have painted := fb_fill_rect_paints screen_sound 1 0 0xFFFFFFFF 270 0xFF0000
  have nothing (p : Point) : ¬(screen.Inside p ∧ p.1 ∈ counter 1 (1 + 0xFFFFFFFF) ∧ p.2 ∈ counter 0 (0 + 270)) :=
    fun ⟨_,column,_⟩ => absurd column List.not_mem_nil
  refine ⟨visible,fun m => painted.again (fun p member => absurd member (nothing p)),fun exact => ?_⟩
  have drawn := painted.covers (by decide : 0 < 3) exact visible
  exact nothing (1,0) drawn

/-! ### Logos -/

def LOGO_WIDTH : Nat := 64
def LOGO_HEIGHT : Nat := 64
def LOGO_GAP : Nat := 4

/-- The memory, and the pixels that have been read or written, the latest first. -/
structure Session where
  memory : Memory
  touched : List Point

def Session.put (fb : FbInfo) (p : Point) (color : UInt32) (s : Session) : Session where
  memory := fb_put_pixel fb p.1 p.2 color s.memory
  touched := if p.1 ≥ fb.width ∨ p.2 ≥ fb.height then s.touched else p :: s.touched

def Session.get (fb : FbInfo) (p : Point) (s : Session) : UInt32 × Session :=
  (fb_get_pixel fb p.1 p.2 s.memory,{ s with touched := p :: s.touched })

/-- One channel of a pixel over the background. -/
def blend (c a bg : UInt8) : UInt8 := UInt8.ofNat ((c.toNat * a.toNat + bg.toNat * (255 - a.toNat)) / 255)

/-- The pixel of the screen for one of the logo. -/
def spot (x y row col : Nat) : Point := ((x + col) % 2 ^ 32,(y + row) % 2 ^ 32)

/-- The body of the loops. `px` has been moved by four bytes for each pixel before. -/
def drawPixel (fb : FbInfo) (logo : Nat → UInt8) (x y row col : Nat) (s : Session) : Session :=
  let px := 4 * (row * LOGO_HEIGHT + col)
  let r := logo px
  let g := logo (px + 1)
  let b := logo (px + 2)
  let a := logo (px + 3)
  if a = 0 then s
  else if a = 255 then s.put fb (spot x y row col) (fb_color r g b)
  else
    let (bg,s) := s.get fb (spot x y row col)
    s.put fb (spot x y row col) (fb_color (blend r a (red bg)) (blend g a (green bg)) (blend b a (blue bg)))

def fb_draw_logo (fb : FbInfo) (logo : Nat → UInt8) (x y : Nat) (s : Session) : Session :=
  (List.range LOGO_WIDTH).foldl (fun s row => (List.range LOGO_HEIGHT).foldl (fun s col =>
    drawPixel fb logo x y row col s) s) s

def fb_draw_cpu_logos (fb : FbInfo) (logo : Nat → UInt8) (cpu_count : UInt32) (s : Session) : Session :=
  let total_width := (cpu_count.toNat * (LOGO_WIDTH + LOGO_GAP) + 2 ^ 32 - LOGO_GAP) % 2 ^ 32
  let x := (fb.width + 2 ^ 32 - total_width) % 2 ^ 32 / 2
  let y := (fb.height + 2 ^ 32 - LOGO_HEIGHT - 10) % 2 ^ 32
  (List.range cpu_count.toNat).foldl (fun s i =>
    fb_draw_logo fb logo ((x + i * (LOGO_WIDTH + LOGO_GAP)) % 2 ^ 32) y s) s

/-- A pixel of the logo that is drawn over the background. -/
def Translucent (logo : Nat → UInt8) (row col : Nat) : Prop :=
  logo (4 * (row * LOGO_HEIGHT + col) + 3) ≠ 0 ∧ logo (4 * (row * LOGO_HEIGHT + col) + 3) ≠ 255

/-- Fields of 32 bits, pixels of three or four bytes, and rows that hold them. -/
structure Geometry (fb : FbInfo) : Prop where
  depth : fb.bpp = 24 ∨ fb.bpp = 32
  rows : fb.width * fb.bpp / 8 ≤ fb.pitch
  pitch : fb.pitch < 2 ^ 32
  height : fb.height < 2 ^ 32

/-- Only pixels of the screen have been read or written. -/
def OnScreen (fb : FbInfo) (s : Session) : Prop := ∀ p ∈ s.touched, fb.Inside p

section
variable {fb : FbInfo} {logo : Nat → UInt8} {p : Point} {s : Session}

/-- A put is always on the screen. -/
@[simp] theorem put_onScreen {color : UInt32} : OnScreen fb (s.put fb p color) ↔ OnScreen fb s := by
  unfold OnScreen Session.put
  by_cases off : p.1 ≥ fb.width ∨ p.2 ≥ fb.height
  · simp [off]
  · have inside : fb.Inside p := ⟨by omega,by omega⟩
    simp [off,inside]

@[simp] theorem get_onScreen : OnScreen fb (s.get fb p).2 ↔ fb.Inside p ∧ OnScreen fb s := by
  simp [OnScreen,Session.get]

/-- What is on the screen lies in the framebuffer. -/
theorem OnScreen.addresses (sound : fb.Sound) (visible : OnScreen fb s) (member : p ∈ s.touched) :
    fb.addr ≤ pixelAddress fb p.1 p.2 ∧ pixelAddress fb p.1 p.2 + 3 ≤ fb.addr + fb.pitch * fb.height := by
  have inside := visible p member
  obtain ⟨column,row⟩ := FbInfo.offsets sound.row inside
  have three := sound.three
  rw [pixelAddress_eq sound inside]
  omega

/-- One pixel of a logo stays on the screen unless it is translucent and off it. -/
theorem drawPixel_onScreen (x y row col : Nat) (s : Session) : OnScreen fb (drawPixel fb logo x y row col s) ↔
    OnScreen fb s ∧ (Translucent logo row col → fb.Inside (spot x y row col)) := by
  unfold drawPixel Translucent
  by_cases transparent : logo (4 * (row * LOGO_HEIGHT + col) + 3) = 0
  · simp [transparent]
  · by_cases solid : logo (4 * (row * LOGO_HEIGHT + col) + 3) = 255
    · simp [solid]
    · simp [transparent,solid,and_comm]

/-- A loop keeps a property exactly if each iteration does. -/
theorem foldl_iff {Index : Type} {good : Session → Prop} {body : Session → Index → Session} {fine : Index → Prop}
    (each : ∀ s i, good (body s i) ↔ good s ∧ fine i) (indices : List Index) (s : Session) :
    good (indices.foldl body s) ↔ good s ∧ ∀ i ∈ indices, fine i := by
  induction indices generalizing s with
  | nil => simp
  | cons i indices ih =>
    rw [List.foldl_cons,ih,each,List.forall_mem_cons,and_assoc]

/-- A logo stays on the screen exactly if its translucent pixels lie there. -/
theorem fb_draw_logo_onScreen (x y : Nat) (s : Session) : OnScreen fb (fb_draw_logo fb logo x y s) ↔ OnScreen fb s ∧
    ∀ row < 64, ∀ col < 64, Translucent logo row col → fb.Inside (spot x y row col) := by
  have line (s : Session) (row : Nat) : OnScreen fb ((List.range LOGO_HEIGHT).foldl (fun s col =>
      drawPixel fb logo x y row col s) s) ↔ OnScreen fb s ∧
      ∀ col ∈ List.range LOGO_HEIGHT, Translucent logo row col → fb.Inside (spot x y row col) :=
    foldl_iff (fun s col => drawPixel_onScreen x y row col s) _ s
  rw [fb_draw_logo,foldl_iff line]
  simp only [List.mem_range,LOGO_WIDTH,LOGO_HEIGHT]

/-! ### The row of logos -/

/-- The left column of the row, and its top row, as they are computed. -/
def left (fb : FbInfo) (n : Nat) : Nat :=
  (fb.width + 2 ^ 32 - (n * (LOGO_WIDTH + LOGO_GAP) + 2 ^ 32 - LOGO_GAP) % 2 ^ 32) % 2 ^ 32 / 2
def top (fb : FbInfo) : Nat := (fb.height + 2 ^ 32 - LOGO_HEIGHT - 10) % 2 ^ 32

/-- A row of logos stays on the screen exactly if the translucent pixels of each lie there. -/
theorem fb_draw_cpu_logos_onScreen (cpu_count : UInt32) (s : Session) :
    OnScreen fb (fb_draw_cpu_logos fb logo cpu_count s) ↔ OnScreen fb s ∧
    ∀ i < cpu_count.toNat, ∀ row < 64, ∀ col < 64, Translucent logo row col →
      fb.Inside (spot ((left fb cpu_count.toNat + i * (LOGO_WIDTH + LOGO_GAP)) % 2 ^ 32) (top fb) row col) := by
  have whole := foldl_iff (fun s i => @fb_draw_logo_onScreen fb logo
    ((left fb cpu_count.toNat + i * (LOGO_WIDTH + LOGO_GAP)) % 2 ^ 32) (top fb) s) (List.range cpu_count.toNat) s
  simp only [List.mem_range] at whole
  exact whole

/-- A row that is too low for the screen still shows its pixels from row 74 minus the height on. -/
theorem row_inside {row : Nat} (small : fb.height < 2 ^ 32) (above : row < 64) :
    (top fb + row) % 2 ^ 32 < fb.height ↔ 74 ≤ fb.height + row := by
  unfold top LOGO_HEIGHT
  omega

/-- Logos follow each other too closely to jump over what is beside the screen: they lie on it
    exactly if the whole row does. -/
theorem columns_inside {n col : Nat} (narrow : 3 * fb.width < 2 ^ 32) (some : 0 < n) (bound : n < 2 ^ 32)
    (inside : col < 64) :
    (∀ i < n, ((left fb n + i * (LOGO_WIDTH + LOGO_GAP)) % 2 ^ 32 + col) % 2 ^ 32 < fb.width) ↔ n * 68 ≤ fb.width + 4 := by
  rw [show LOGO_WIDTH + LOGO_GAP = 68 from rfl]
  constructor
  · intro visible
    have start : left fb n ≤ 2 ^ 31 := by
      unfold left
      omega
    -- from one logo to the next the sum cannot wrap, since the one before is on the screen
    have straight (i : Nat) : i < n → left fb n + i * 68 + col < fb.width := by
      induction i with
      | zero =>
        intro first
        have := visible 0 first
        omega
      | succ i ih =>
        intro later
        have := ih (by omega)
        have := visible (i + 1) later
        omega
    have last := straight (n - 1) (by omega)
    unfold left LOGO_WIDTH LOGO_GAP at last
    omega
  · intro fits i before
    unfold left LOGO_WIDTH LOGO_GAP
    omega

/-- The pixels of the logo at one place are on the screen in every logo of the row exactly if the row is no wider than
    the screen, and the place not too high. -/
theorem places_inside (geometry : Geometry fb) {n row col : Nat} (some : 0 < n) (bound : n < 2 ^ 32) (above : row < 64)
    (inside : col < 64) :
    (∀ i < n, fb.Inside (spot ((left fb n + i * (LOGO_WIDTH + LOGO_GAP)) % 2 ^ 32) (top fb) row col)) ↔
      n * 68 ≤ fb.width + 4 ∧ 74 ≤ fb.height + row := by
  have narrow : 3 * fb.width < 2 ^ 32 := by
    have rows := geometry.rows
    have pitch := geometry.pitch
    rcases geometry.depth with depth | depth <;> rw [depth] at rows <;> omega
  rw [← columns_inside narrow some bound inside,← row_inside geometry.height above]
  constructor
  · exact fun visible => ⟨fun i before => (visible i before).1,(visible 0 some).2⟩
  · exact fun visible i before => ⟨visible.1 i before,visible.2⟩

/-- A logo stays on the screen exactly if its translucent pixels lie there. For a row of logos that is so exactly if the
    row is no wider than the screen, and where the screen is lower than 74, the rows that miss it are not translucent. -/
theorem logos_onScreen_iff (geometry : Geometry fb) (logo : Nat → UInt8) (m : Memory) :
    (∀ x y, OnScreen fb (fb_draw_logo fb logo x y ⟨m,[]⟩) ↔
      ∀ row < 64, ∀ col < 64, Translucent logo row col → fb.Inside (spot x y row col)) ∧
    ∀ cpu_count, OnScreen fb (fb_draw_cpu_logos fb logo cpu_count ⟨m,[]⟩) ↔
      ∀ row < 64, ∀ col < 64, Translucent logo row col → cpu_count ≠ 0 →
        cpu_count.toNat * 68 ≤ fb.width + 4 ∧ 74 ≤ fb.height + row := by
  have fresh : OnScreen fb ⟨m,[]⟩ := fun p none => absurd none List.not_mem_nil
  refine ⟨fun x y => (fb_draw_logo_onScreen x y _).trans (and_iff_right fresh),fun cpu_count => ?_⟩
  rw [fb_draw_cpu_logos_onScreen,and_iff_right fresh]
  have bound := cpu_count.toNat_lt
  constructor
  · intro visible row above col inside translucent present
    have some : 0 < cpu_count.toNat := Nat.pos_of_ne_zero (fun zero => present (UInt32.toNat_inj.mp zero))
    exact (places_inside geometry some bound above inside).mp
      (fun i before => visible i before row above col inside translucent)
  · intro fits i before row above col inside translucent
    have some := Nat.zero_lt_of_lt before
    have present : cpu_count ≠ 0 := by
      rintro rfl
      exact absurd some (Nat.lt_irrefl 0)
    exact (places_inside geometry some bound above inside).mpr (fits row above col inside translucent present) i before

end

/-- A logo with one translucent pixel -/
def faint : Nat → UInt8 := fun k => if k = 4 * (6 * LOGO_HEIGHT + 8) + 3 then 29 else 0

/-- Seven logos fit on the screen of the multiboot header. -/
theorem logos_onScreen_iff_seven : OnScreen screen (fb_draw_cpu_logos screen faint 7 ⟨fun _ => 0,[]⟩) :=
  ((logos_onScreen_iff ⟨.inr rfl,by decide,by decide,by decide⟩ faint (fun _ => 0)).2 7).mpr (fun _ _ _ _ _ _ =>
    ⟨by decide,Nat.le_add_right_of_le (by decide)⟩)

/-- With eight the first column wraps, and the background is read beyond the end of the framebuffer. -/
theorem eight_logos : ¬OnScreen screen (fb_draw_cpu_logos screen faint 8 ⟨fun _ => 0,[]⟩) ∧
    screen.addr + screen.pitch * screen.height ≤ pixelAddress screen (left screen 8 + 8) (top screen + 6) := by
  refine ⟨fun visible => ?_,by decide⟩
  have first := ((fb_draw_cpu_logos_onScreen 8 _).mp visible).2 0 (by decide) 6 (by decide) 8 (by decide)
    ⟨by decide,by decide⟩
  exact absurd first.1 (by decide)

end NekoOs.Drawing
