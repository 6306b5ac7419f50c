import NekoOs.Alloc
import NekoOs.Console
import NekoOs.Framebuffer

/-!
The console with the framebuffer it draws on. Each function changes the buffer of cells
and the pixels by separate code. What is drawn piece by piece is what `redraw_all`
would draw, and nothing is drawn outside the cells.
-/
namespace NekoOs.Screen
open ByteMemory Access Framebuffer
open Console (Geometry Cell cellAt putCell readCell)

/-- The framebuffer, the font, and the buffer that `console_init` allocates. -/
structure Display where
  fb : FbInfo
  font : Font
  buffer : Nat

namespace Display
variable (d : Display)

def char_w : Nat := d.font.font_width
def char_h : Nat := d.font.font_height
def cols : Nat := d.fb.width / d.char_w
def rows : Nat := d.fb.height / d.char_h
def geometry : Geometry := ⟨d.buffer,d.cols,d.rows⟩

end Display

/-- The console, the bytes of the framebuffer, which nothing else writes, and those that
    the last clear left. -/
structure State where
  console : Console.State
  frame : Memory
  cleared : Memory

def console_clear (d : Display) (s : State) : Access State := do
  let frame := fb_clear d.fb s.console.bg_color s.frame
  let console ← Console.console_clear d.geometry s.console
  .done ⟨console,frame,frame⟩

def console_set_color (s : State) (fg bg : UInt32) : State :=
  { s with console := Console.console_set_color s.console fg bg }

/-- The pixels after `redraw_all`, which reads the buffer in `m`. -/
def redraw_all (d : Display) (m frame : Memory) : Access Memory :=
  (List.range d.rows).foldlM (fun frame y => (List.range d.cols).foldlM (fun frame x => do
    let cc ← readCell d.geometry m ((y * d.cols + x) % 2 ^ 32)
    .done (font_draw_char d.fb d.font cc.c (x * d.char_w % 2 ^ 32) (y * d.char_h % 2 ^ 32) cc.fg cc.bg frame)) frame)
    frame

/-- The buffer changes as in `Console.scroll`, and then its cells are drawn. -/
def scroll (d : Display) (s : State) : Access State := do
  let console ← Console.scroll d.geometry s.console
  let frame ← redraw_all d console.memory s.frame
  .done { s with console := console, frame := frame }

/-- The pixels that a character draws at the cursor, before the cursor moves. -/
def drawChar (d : Display) (s : State) (c : UInt8) : Memory :=
  if c = 10 ∨ c = 13 ∨ c = 8 then s.frame else
    font_draw_char d.fb d.font c (s.console.cursor_x * d.char_w % 2 ^ 32) (s.console.cursor_y * d.char_h % 2 ^ 32)
      s.console.fg_color s.console.bg_color s.frame

def console_putchar (d : Display) (s : State) (c : UInt8) : Access State := do
  let console ← Console.advance d.geometry s.console c
  let s := { s with console := console, frame := drawChar d s c }
  if s.console.cursor_y ≥ d.rows then do
    let s ← scroll d s
    .done { s with console := { s.console with cursor_y := (d.rows + 2 ^ 32 - 1) % 2 ^ 32 } }
  else .done s

/-- A call of a user of the screen. -/
inductive Call
  | console_putchar (c : UInt8)
  | console_set_color (fg bg : UInt32)
  | console_clear
deriving DecidableEq, Repr

def exec (d : Display) (s : State) : Call → Access State
  | .console_putchar c => console_putchar d s c
  | .console_set_color fg bg => .done (console_set_color s fg bg)
  | .console_clear => console_clear d s

/-- The colour of a pixel. -/
def pixel (fb : FbInfo) (frame : Memory) (p : Point) : Nat := load frame (pixelAddress fb p.1 p.2) 3

/-- The pixels of the cells. -/
def Display.Area (d : Display) (p : Point) : Prop := p.1 < d.cols * d.char_w ∧ p.2 < d.rows * d.char_h

/-- A framebuffer whose pixels are apart, the glyphs of a font with an empty space,
    and a buffer that `kmalloc` has returned. -/
structure Display.Sound (d : Display) : Prop where
  screen : d.fb.Sound
  glyphs : d.font.font_glyphs ≠ 0
  space : ∀ row < d.char_h, ∀ col < d.char_w, d.font.bit 32 row col = false
  allocated : ∃ before after, Alloc.kmalloc before (d.cols * d.rows % 2 ^ 32 * Console.sizeof_console_char) =
    .ok (after,d.buffer)
  delivered : d.buffer ≠ 0

/-- The pixel of a cell of the buffer. -/
def Display.picture (d : Display) (m : Memory) (p : Point) : Nat :=
  let cell := cellAt m d.buffer (p.2 / d.char_h * d.cols + p.1 / d.char_w)
  shade (if d.font.bit cell.c (p.2 % d.char_h) (p.1 % d.char_w) then cell.fg else cell.bg)

section
variable {d : Display} {s : State} {m : Memory}

/-- The console of a screen is that of the buffer alone. -/
theorem console_putchar_console {s' : State} {c : UInt8} (ended : console_putchar d s c = .done s') :
    Console.console_putchar d.geometry s.console c = .done s'.console := by
  obtain ⟨console,advanced,ended⟩ := bind_eq_done.mp ended
  rw [Console.console_putchar,advanced,bind_done]
  by_cases full : console.cursor_y ≥ d.rows
  · rw [if_pos full] at ended
    obtain ⟨t,scrolled,ended⟩ := bind_eq_done.mp ended
    obtain ⟨console',moved,scrolled⟩ := bind_eq_done.mp scrolled
    obtain ⟨frame,drawn,scrolled⟩ := bind_eq_done.mp scrolled
    cases scrolled
    cases ended
    rw [if_pos (show console.cursor_y ≥ d.geometry.rows from full),moved]
    rfl
  · rw [if_neg full] at ended
    cases ended
    exact if_neg full

/-! ### The geometry -/

/-- `kmalloc(0)` returns `NULL`, so that an allocated buffer has cells. -/
theorem Display.Sound.cells (sound : d.Sound) : d.cols * d.rows ≠ 0 := by
  intro none
  obtain ⟨before,after,executed⟩ := sound.allocated
  rw [none,Nat.zero_mod,Nat.zero_mul] at executed
  exact sound.delivered (congrArg Prod.snd (Outcome.ok.inj executed)).symm

/-- The cells lie in the framebuffer. -/
theorem Display.area_within (d : Display) : d.cols * d.char_w ≤ d.fb.width ∧ d.rows * d.char_h ≤ d.fb.height :=
  ⟨Nat.div_mul_le_self _ _,Nat.div_mul_le_self _ _⟩

/-- Glyphs have pixels, since otherwise there would be no cells. -/
theorem Display.Sound.glyph (sound : d.Sound) : 0 < d.char_w ∧ 0 < d.char_h := by
  have cells := sound.cells
  constructor <;> refine Nat.pos_of_ne_zero (fun none => cells ?_)
  · rw [Display.cols,none,Nat.div_zero,Nat.zero_mul]
  · rw [Display.rows,none,Nat.div_zero,Nat.mul_zero]

theorem Display.Sound.geometry (sound : d.Sound) : d.geometry.Sound := by
  have columns : 1 ≤ d.cols := Nat.pos_of_ne_zero (Nat.ne_zero_of_mul_ne_zero_left sound.cells)
  have lines : 1 ≤ d.rows := Nat.pos_of_ne_zero (Nat.ne_zero_of_mul_ne_zero_right sound.cells)
  refine ⟨sound.delivered,columns,lines,?_⟩
  have narrow : d.cols ≤ d.fb.pitch := calc
    d.cols ≤ d.cols * d.char_w := Nat.le_mul_of_pos_right _ sound.glyph.1
    _ ≤ d.fb.width := d.area_within.1
    _ ≤ d.fb.width * (d.fb.bpp / 8) := Nat.le_mul_of_pos_right _ (by have := sound.screen.three; omega)
    _ ≤ d.fb.pitch := sound.screen.row
  have short : d.rows ≤ d.fb.height := (Nat.le_mul_of_pos_right _ sound.glyph.2).trans d.area_within.2
  exact (Nat.mul_le_mul narrow short).trans_lt sound.screen.small

theorem index_inside {x y : Nat} (column : x < d.cols) (row : y < d.rows) : y * d.cols + x < d.cols * d.rows :=
  @Console.index_inside d.geometry y x row column

/-! ### Drawing cells -/

/-- The pixels of one cell. -/
def Display.CellBox (d : Display) (x y : Nat) : Point → Prop := Box (x * d.char_w) (y * d.char_h) d.char_w d.char_h

/-- The pixels of the framebuffer as a canvas. -/
abbrev Display.Sound.canvas (sound : d.Sound) : Canvas Point := d.fb.canvas sound.screen

/-- A pixel of a cell is where the quotients say. -/
theorem cellBox_iff (sound : d.Sound) {x y : Nat} {p : Point} :
    d.CellBox x y p ↔ p.1 / d.char_w = x ∧ p.2 / d.char_h = y := by
  have ⟨wide,high⟩ := sound.glyph
  rw [Nat.div_eq_iff wide,Nat.div_eq_iff high]
  unfold Display.CellBox Box
  omega

/-- The pixels of the cells are those of each cell. -/
theorem area_iff (sound : d.Sound) (p : Point) : d.Area p ↔ ∃ y < d.rows, ∃ x < d.cols, d.CellBox x y p := by
  have ⟨wide,high⟩ := sound.glyph
  unfold Display.Area
  rw [← Nat.div_lt_iff_lt_mul wide,← Nat.div_lt_iff_lt_mul high]
  constructor
  · rintro ⟨column,row⟩
    exact ⟨_,row,_,column,(cellBox_iff sound).mpr ⟨rfl,rfl⟩⟩
  · rintro ⟨y,row,x,column,box⟩
    obtain ⟨rfl,rfl⟩ := (cellBox_iff sound).mp box
    exact ⟨column,row⟩

/-- A character drawn in a cell shows the cell's picture. -/
theorem cell_paints (sound : d.Sound) {x y : Nat} (column : x < d.cols) (row : y < d.rows) {cell : Cell}
    (here : cellAt m d.buffer (y * d.cols + x) = cell) :
    sound.canvas.Paints (d.CellBox x y) (d.picture m) (font_draw_char d.fb d.font cell.c
      (x * d.char_w % 2 ^ 32) (y * d.char_h % 2 ^ 32) cell.fg cell.bg) := by
  have ⟨wide,high⟩ := sound.glyph
  have ⟨right,bottom⟩ := d.area_within
  have after : (x + 1) * d.char_w ≤ d.cols * d.char_w := Nat.mul_le_mul_right _ column
  have under : (y + 1) * d.char_h ≤ d.rows * d.char_h := Nat.mul_le_mul_right _ row
  rw [Nat.succ_mul] at after under
  obtain ⟨narrow,low⟩ := sound.screen.coordinates (p := (x * d.char_w,y * d.char_h)) ⟨by omega,by omega⟩
  rw [Nat.mod_eq_of_lt narrow,Nat.mod_eq_of_lt low]
  refine font_draw_char_paints sound.screen sound.glyphs cell.c (by unfold Display.char_w at *; omega)
    (by unfold Display.char_h at *; omega) (fun row' (above : row' < d.char_h) col (left : col < d.char_w) => ?_)
  have box : d.CellBox x y (x * d.char_w + col,y * d.char_h + row') :=
    ⟨Nat.le_add_right _ _,Nat.add_lt_add_left left _,Nat.le_add_right _ _,Nat.add_lt_add_left above _⟩
  obtain ⟨columnOf,rowOf⟩ := (cellBox_iff sound).mp box
  rw [Display.picture,columnOf,rowOf,here,Nat.mul_add_mod',Nat.mul_add_mod',Nat.mod_eq_of_lt above,
    Nat.mod_eq_of_lt left]

/-- `redraw_all` ends, whatever was on the screen, and paints the picture of the buffer. -/
theorem redraw_all_paints (sound : d.Sound) (m : Memory) :
    ∃ program, (∀ frame, redraw_all d m frame = .done (program frame)) ∧
    sound.canvas.Paints d.Area (d.picture m) program := by
  let draw (y : Nat) (frame : Memory) (x : Nat) : Memory :=
    let cc := cellAt m d.buffer (y * d.cols + x)
    font_draw_char d.fb d.font cc.c (x * d.char_w % 2 ^ 32) (y * d.char_h % 2 ^ 32) cc.fg cc.bg frame
  refine ⟨fun frame => (List.range d.rows).foldl (fun frame y => (List.range d.cols).foldl (draw y) frame) frame,
    fun frame => ?_,?_⟩
  · refine foldlM_done (fun y above frame => foldlM_done (fun x left frame => ?_) frame) frame
    have index := index_inside (List.mem_range.mp left) (List.mem_range.mp above)
    rw [Nat.mod_eq_of_lt (index.trans sound.geometry.small),readCell,if_pos ⟨sound.delivered,index⟩]
    rfl
  · have row (y : Nat) (above : y < d.rows) : sound.canvas.Paints (fun p => ∃ x ∈ List.range d.cols, d.CellBox x y p)
        (d.picture m) (fun frame => (List.range d.cols).foldl (draw y) frame) :=
      Canvas.Paints.foldl (fun x left => cell_paints sound (List.mem_range.mp left) above rfl)
    refine (Canvas.Paints.foldl (fun y above => row y (List.mem_range.mp above))).congr (fun p => ?_)
    simp only [area_iff sound,List.mem_range]

/-! ### The invariant -/

/-- The screen shows the buffer, and no byte outside the cells has changed since the last clear. -/
structure Shows (sound : d.Sound) (s : State) : Prop where
  shown : ∀ p, d.Area p → sound.canvas.pixel s.frame p = d.picture s.console.memory p
  outside : ∀ b, sound.canvas.Off d.Area b → s.frame b = s.cleared b

/-- The cursor is on a cell. -/
structure OnCell (d : Display) (s : State) : Prop where
  column : s.console.cursor_x < d.cols
  row : s.console.cursor_y < d.rows

theorem area_inside (sound : d.Sound) (p : Point) (member : d.Area p) : sound.canvas.inside p :=
  ⟨member.1.trans_le d.area_within.1,member.2.trans_le d.area_within.2⟩

/-- A cleared screen shows spaces. -/
theorem console_clear_spec (sound : d.Sound) (s : State) :
    ∃ s', console_clear d s = .done s' ∧ Shows sound s' ∧ OnCell d s' := by
  obtain ⟨m',cleared,cells⟩ := Console.console_clear_done sound.geometry s.console
  have paints := fb_clear_paints sound.screen s.console.bg_color
  refine ⟨_,by rw [console_clear,cleared]; rfl,⟨fun p member => ?_,fun b _ => rfl⟩,?_⟩
  · have ⟨wide,high⟩ := sound.glyph
    obtain ⟨y,row,x,column,box⟩ := (area_iff sound p).mp member
    obtain ⟨columnOf,rowOf⟩ := (cellBox_iff sound).mp box
    have space := sound.space (p.2 % d.char_h) (Nat.mod_lt _ high) (p.1 % d.char_w) (Nat.mod_lt _ wide)
    have blank : cellAt m' d.buffer (y * d.cols + x) = Console.blank s.console := cells _ (index_inside column row)
    have colour : d.picture m' p = shade s.console.bg_color := by
      rw [Display.picture,columnOf,rowOf,blank,Console.blank,space]
      rfl
    exact (paints.painted s.frame p (area_inside sound p member)).trans colour.symm
  · exact ⟨sound.geometry.columns,sound.geometry.lines⟩

/-- Painting an area, where the rest of the cells is already as it should be. -/
theorem paint_shows (sound : d.Sound) {console : Console.State} {area : Point → Prop} {program : Memory → Memory}
    (paints : sound.canvas.Paints area (d.picture console.memory) program) (within : ∀ p, area p → d.Area p)
    (rest : ∀ p, d.Area p → ¬area p → sound.canvas.pixel s.frame p = d.picture console.memory p)
    (outside : ∀ b, sound.canvas.Off d.Area b → s.frame b = s.cleared b) :
    Shows sound { s with console := console, frame := program s.frame } := by
  refine ⟨fun p member => ?_,fun b off => ?_⟩
  · by_cases here : area p
    · exact paints.painted s.frame p here
    · exact (Canvas.pixel_kept paints.inside (paints.kept s.frame) (area_inside sound p member) here).trans
        (rest p member here)
  · exact (paints.kept s.frame b (fun p here => off p (within p here))).trans (outside b off)

/-- A character written in one cell changes no other cell's picture. -/
theorem picture_putCell_other (sound : d.Sound) {x y : Nat} (column : x < d.cols) (cell : Cell) {p : Point}
    (member : d.Area p) (elsewhere : ¬d.CellBox x y p) :
    d.picture (putCell m d.buffer (y * d.cols + x) cell) p = d.picture m p := by
  have ⟨wide,high⟩ := sound.glyph
  have different : y * d.cols + x ≠ p.2 / d.char_h * d.cols + p.1 / d.char_w := by
    intro same
    obtain ⟨rowOf,columnOf⟩ := Console.index_injective column ((Nat.div_lt_iff_lt_mul wide).mpr member.1) same
    exact elsewhere ((cellBox_iff sound).mpr ⟨columnOf.symm,rowOf.symm⟩)
  rw [Display.picture,Display.picture,Console.cellAt_putCell_other cell different]

/-- A character is drawn where it is written. -/
theorem write_shows {sound : d.Sound} (shows : Shows sound s) (onCell : OnCell d s) {c : UInt8}
    (printable : ¬(c = 10 ∨ c = 13 ∨ c = 8)) {console : Console.State}
    (written : console.memory = putCell s.console.memory d.buffer (s.console.cursor_y * d.cols + s.console.cursor_x)
      ⟨c,s.console.fg_color,s.console.bg_color⟩) :
    Shows sound { s with console := console, frame := drawChar d s c } := by
  rw [drawChar,if_neg printable]
  have here : cellAt console.memory d.buffer (s.console.cursor_y * d.cols + s.console.cursor_x) =
      ⟨c,s.console.fg_color,s.console.bg_color⟩ := by
    rw [written,Console.cellAt_putCell_same]
  have paints := cell_paints sound onCell.column onCell.row here
  refine paint_shows sound paints (fun p box => (area_iff sound p).mpr ⟨_,onCell.row,_,onCell.column,box⟩)
    (fun p member elsewhere => ?_) shows.outside
  rw [written,picture_putCell_other sound onCell.column _ member elsewhere]
  exact shows.shown p member

/-- What a character does before the test for the last row. -/
theorem advance_spec {sound : d.Sound} (shows : Shows sound s) (onCell : OnCell d s) (c : UInt8) :
    ∃ console, Console.advance d.geometry s.console c = .done console ∧ console.cursor_x < d.cols ∧
      Shows sound { s with console := console, frame := drawChar d s c } := by
  have geometry := sound.geometry
  have column := onCell.column
  by_cases control : c = 10 ∨ c = 13 ∨ c = 8
  · have still {console : Console.State} (same : console.memory = s.console.memory) :
        Shows sound { s with console := console, frame := drawChar d s c } := by
      rw [drawChar,if_pos control]
      exact ⟨same ▸ shows.shown,shows.outside⟩
    unfold Console.advance
    rcases control with rfl | rfl | rfl
    · rw [if_pos rfl]
      exact ⟨_,rfl,geometry.columns,still rfl⟩
    · rw [if_neg (by decide),if_pos rfl]
      exact ⟨_,rfl,geometry.columns,still rfl⟩
    · rw [if_neg (by decide),if_neg (by decide),if_pos rfl]
      by_cases left : s.console.cursor_x > 0
      · rw [if_pos left]
        exact ⟨_,rfl,(Nat.sub_le _ 1).trans_lt column,still rfl⟩
      · rw [if_neg left]
        exact ⟨_,rfl,column,still rfl⟩
  · have index := index_inside onCell.column onCell.row
    unfold Console.advance
    rw [if_neg (fun newline => control (.inl newline)),if_neg (fun carriage => control (.inr (.inl carriage))),
      if_neg (fun backspace => control (.inr (.inr backspace))),if_pos geometry.allocated]
    have written := Console.writeCell_eq (m := s.console.memory) geometry index
      ⟨c,s.console.fg_color,s.console.bg_color⟩
    rw [show d.geometry.cols = d.cols from rfl,written,bind_done]
    refine ⟨_,rfl,?_,write_shows shows onCell control ?_⟩ <;> split_ifs with wraps
    · exact geometry.columns
    · exact Nat.lt_of_not_ge wraps
    · rfl
    · rfl

/-- A scroll draws all cells again. -/
theorem scroll_spec {sound : d.Sound} (shows : Shows sound s) :
    ∃ s', scroll d s = .done s' ∧ Shows sound s' ∧ s'.console.cursor_x = s.console.cursor_x := by
  obtain ⟨m',moved,_⟩ := Console.scroll_spec sound.geometry s.console
  obtain ⟨program,drawn,paints⟩ := redraw_all_paints sound m'
  let console := { s.console with memory := m', scrolls := s.console.scrolls + 1 }
  refine ⟨{ s with console := console, frame := program s.frame },?_,?_,rfl⟩
  · rw [scroll,moved,bind_done,drawn,bind_done]
  · exact paint_shows sound paints (fun p member => member) (fun p member elsewhere => absurd member elsewhere)
      shows.outside

theorem console_putchar_spec {sound : d.Sound} (shows : Shows sound s) (onCell : OnCell d s) (c : UInt8) :
    ∃ s', console_putchar d s c = .done s' ∧ Shows sound s' ∧ OnCell d s' := by
  obtain ⟨console,advanced,column,shows⟩ := advance_spec shows onCell c
  rw [console_putchar,advanced,bind_done]
  by_cases full : console.cursor_y ≥ d.rows
  · obtain ⟨t,scrolled,shows',same⟩ := scroll_spec shows
    obtain ⟨n,lines,last,_⟩ := Console.last_row sound.geometry
    have last : (d.rows + 2 ^ 32 - 1) % 2 ^ 32 = n := last
    refine ⟨{ t with console := { t.console with cursor_y := n } },?_,⟨shows'.shown,shows'.outside⟩,
      ⟨same.trans_lt column,lines.ge⟩⟩
    rw [if_pos full,scrolled,bind_done,last]
  · exact ⟨_,if_neg full,shows,⟨column,Nat.lt_of_not_ge full⟩⟩

theorem exec_spec {sound : d.Sound} (shows : Shows sound s) (onCell : OnCell d s) (call : Call) :
    ∃ s', exec d s call = .done s' ∧ Shows sound s' ∧ OnCell d s' := by
  cases call with
  | console_putchar c => exact console_putchar_spec shows onCell c
  | console_set_color fg bg => exact ⟨_,rfl,⟨shows.shown,shows.outside⟩,⟨onCell.column,onCell.row⟩⟩
  | console_clear => exact console_clear_spec sound s

theorem run_spec {sound : d.Sound} (calls : List Call) (shows : Shows sound s) (onCell : OnCell d s) :
    ∃ s', calls.foldlM (exec d) s = .done s' ∧ Shows sound s' := by
  induction calls generalizing s with
  | nil => exact ⟨s,rfl,shows⟩
  | cons call calls ih =>
    obtain ⟨s₁,first,shows₁,onCell₁⟩ := exec_spec shows onCell call
    obtain ⟨s₂,later,shows₂⟩ := ih shows₁ onCell₁
    exact ⟨s₂,by rw [List.foldlM_cons,first,bind_done]; exact later,shows₂⟩

/-- After a clear and any calls `redraw_all` changes nothing. Drawn on any other frame,
    the cells look as they do now, and a pixel outside them is as the last clear left it. -/
theorem redraw_all_identity (sound : d.Sound) (s : State) (calls : List Call) :
    ∃ s₀ s', console_clear d s = .done s₀ ∧ calls.foldlM (exec d) s₀ = .done s' ∧
      redraw_all d s'.console.memory s'.frame = .done s'.frame ∧
      (∀ frame, ∃ drawn, redraw_all d s'.console.memory frame = .done drawn ∧
        ∀ p, d.Area p → pixel d.fb drawn p = pixel d.fb s'.frame p) ∧
      ∀ p, d.fb.Inside p → ¬d.Area p → pixel d.fb s'.frame p = pixel d.fb s'.cleared p := by
  obtain ⟨s₀,cleared,shows₀,onCell₀⟩ := console_clear_spec sound s
  obtain ⟨s',run,shows⟩ := run_spec calls shows₀ onCell₀
  obtain ⟨program,drawn,paints⟩ := redraw_all_paints sound s'.console.memory
  refine ⟨s₀,s',cleared,run,?_,fun frame => ⟨program frame,drawn frame,fun p member => ?_⟩,fun p inside elsewhere => ?_⟩
  · rw [drawn,paints.again shows.shown]
  · exact (paints.painted frame p member).trans (shows.shown p member).symm
  · show sound.canvas.pixel s'.frame p = sound.canvas.pixel s'.cleared p
    exact Canvas.pixel_kept (area_inside sound) shows.outside inside elsewhere

end

/-- Four cells on 20 by 18 pixels, and a font whose `A` has two bits. -/
def smallDisplay : Display where
  fb := ⟨0xFD000000,20,18,80,32⟩
  font := ⟨0x200000,8,8,8,fun a => if a = 0x200000 + 65 * 8 then 0x18 else 0⟩
  buffer := 0x1020

/-- A heap of one page. -/
def pageHeap : Alloc.Heap :=
  ⟨store (store (fun _ => 0) (0x1000 + 8) 8 4064) (0x1000 + 24) 1 1,0x1000,0x1000⟩

theorem smallDisplay_sound : smallDisplay.Sound :=
  ⟨⟨.inr rfl,by decide,by decide⟩,by decide,by decide,⟨pageHeap,_,rfl⟩,by decide⟩

theorem redraw_all_identity_small :
    ∃ s₀ s', console_clear smallDisplay ⟨Console.usedScreen,fun _ => 7,fun _ => 0⟩ = .done s₀ ∧
    [Call.console_putchar 65,.console_set_color 0xff0000 0xff,.console_putchar 10,.console_putchar 66,
      .console_putchar 10].foldlM (exec smallDisplay) s₀ = .done s' ∧
    redraw_all smallDisplay s'.console.memory s'.frame = .done s'.frame ∧
    pixel smallDisplay.fb s'.frame (17,3) = pixel smallDisplay.fb s'.cleared (17,3) := by
  obtain ⟨s₀,s',cleared,run,same,_,outside⟩ := redraw_all_identity smallDisplay_sound
    ⟨Console.usedScreen,fun _ => 7,fun _ => 0⟩
    [.console_putchar 65,.console_set_color 0xff0000 0xff,.console_putchar 10,.console_putchar 66,.console_putchar 10]
  exact ⟨s₀,s',cleared,run,same,outside (17,3) ⟨by decide,by decide⟩ (fun area => absurd area.1 (by decide))⟩

end NekoOs.Screen
