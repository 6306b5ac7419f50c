import NekoOs.Access
import NekoOs.Mem

/-!
The text console: a grid of cells in memory that scrolls, against a terminal
with rows without end that never does.
-/
namespace NekoOs.Console
open ByteMemory Access Mem

/-- A `console_char_t`. -/
structure Cell where
  c : UInt8
  fg : UInt32
  bg : UInt32
deriving DecidableEq, Repr

def sizeof_console_char : Nat := 12

/-- The variables that `console_init` sets. -/
structure Geometry where
  buffer : Nat
  cols : Nat
  rows : Nat

/-- The other variables of `console.c`, the memory, and the number of scrolls since
    the last clear, which the code does not count. -/
structure State where
  cursor_x : Nat
  cursor_y : Nat
  fg_color : UInt32
  bg_color : UInt32
  memory : Memory
  scrolls : Nat

/-- `buffer[i]` -/
def cellAt (m : Memory) (buffer i : Nat) : Cell :=
  ⟨UInt8.ofNat (load m (buffer + 12 * i) 1),UInt32.ofNat (load m (buffer + 12 * i + 4) 4),
    UInt32.ofNat (load m (buffer + 12 * i + 8) 4)⟩

def putCell (m : Memory) (buffer i : Nat) (cell : Cell) : Memory :=
  store (store (store m (buffer + 12 * i) 1 cell.c.toNat) (buffer + 12 * i + 4) 4 cell.fg.toNat)
    (buffer + 12 * i + 8) 4 cell.bg.toNat

/-- An index of an allocated buffer. -/
def Geometry.Has (g : Geometry) (i : Nat) : Prop := g.buffer ≠ 0 ∧ i < g.cols * g.rows

instance (g : Geometry) (i : Nat) : Decidable (g.Has i) := inferInstanceAs (Decidable (_ ∧ _))

def readCell (g : Geometry) (m : Memory) (i : Nat) : Access Cell :=
  if g.Has i then .done (cellAt m g.buffer i) else .outside

def writeCell (g : Geometry) (i : Nat) (cell : Cell) (m : Memory) : Access Memory :=
  if g.Has i then .done (putCell m g.buffer i cell) else .outside

/-- Writes to `count` cells from the index `first` on, with `x` of them done. -/
def fillCells (g : Geometry) (cell : Cell) (first : Nat) : (x remaining : Nat) → Memory → Access Memory
  | _, 0, m => .done m
  | x, remaining+1, m => do
    let m ← writeCell g ((first + x) % 2 ^ 32) cell m
    fillCells g cell first (x + 1) remaining m

def blank (s : State) : Cell := ⟨32,s.fg_color,s.bg_color⟩

/-- The cells of the row `y` that `redraw_all` draws, from the column `x` on. -/
def redrawRow (g : Geometry) (m : Memory) (y : Nat) : (x remaining : Nat) → Access (List Cell)
  | _, 0 => .done []
  | x, remaining+1 => do
    let cc ← readCell g m ((y * g.cols + x) % 2 ^ 32)
    let rest ← redrawRow g m y (x + 1) remaining
    .done (cc :: rest)

/-- The cells that `redraw_all` draws, from the row `y` on. -/
def redraw_all (g : Geometry) (m : Memory) : (y remaining : Nat) → Access (List (List Cell))
  | _, 0 => .done []
  | y, remaining+1 => do
    let row ← redrawRow g m y 0 g.cols
    let rest ← redraw_all g m (y + 1) remaining
    .done (row :: rest)

/-- `memmove(buffer, buffer + cols, count * sizeof(console_char_t))` -/
def moveCells (g : Geometry) (count : Nat) (m : Memory) : Access Memory :=
  if count = 0 ∨ g.Has (g.cols + count - 1) then
    .done (memmove g.buffer (g.buffer + 12 * g.cols) (sizeof_console_char * count) m)
  else .outside

def scroll (g : Geometry) (s : State) : Access State := do
  let lines := (g.rows + 2 ^ 32 - 1) % 2 ^ 32
  let m ← moveCells g (lines * g.cols % 2 ^ 32) s.memory
  let m ← fillCells g (blank s) (lines * g.cols) 0 g.cols m
  let _ ← redraw_all g m 0 g.rows
  .done { s with memory := m, scrolls := s.scrolls + 1 }

def console_clear (g : Geometry) (s : State) : Access State := do
  let m ← if g.buffer ≠ 0 then fillCells g (blank s) 0 0 (g.cols * g.rows % 2 ^ 32) s.memory else .done s.memory
  .done { s with cursor_x := 0, cursor_y := 0, memory := m, scrolls := 0 }

def console_set_color (s : State) (fg bg : UInt32) : State := { s with fg_color := fg, bg_color := bg }

/-- The cursor and the buffer after a character, before the test for the last row. -/
def advance (g : Geometry) (s : State) (c : UInt8) : Access State :=
  if c = 10 then .done { s with cursor_x := 0, cursor_y := (s.cursor_y + 1) % 2 ^ 32 }
  else if c = 13 then .done { s with cursor_x := 0 }
  else if c = 8 then .done (if s.cursor_x > 0 then { s with cursor_x := s.cursor_x - 1 } else s)
  else do
    let m ← if g.buffer ≠ 0 then writeCell g ((s.cursor_y * g.cols + s.cursor_x) % 2 ^ 32) ⟨c,s.fg_color,s.bg_color⟩ s.memory
      else .done s.memory
    let x := (s.cursor_x + 1) % 2 ^ 32
    .done (if x ≥ g.cols then { s with memory := m, cursor_x := 0, cursor_y := (s.cursor_y + 1) % 2 ^ 32 }
      else { s with memory := m, cursor_x := x })

def console_putchar (g : Geometry) (s : State) (c : UInt8) : Access State := do
  let s ← advance g s c
  if s.cursor_y ≥ g.rows then do
    let s ← scroll g s
    .done { s with cursor_y := (g.rows + 2 ^ 32 - 1) % 2 ^ 32 }
  else .done s

/-- A call of a user of the console. -/
inductive Call
  | console_putchar (c : UInt8)
  | console_set_color (fg bg : UInt32)
deriving DecidableEq, Repr

def exec (g : Geometry) (s : State) : Call → Access State
  | .console_putchar c => console_putchar g s c
  | .console_set_color fg bg => .done (console_set_color s fg bg)

/-! ### A terminal that never scrolls -/

/-- A terminal with rows without end, and what has been written in each cell. -/
structure Terminal where
  x : Nat
  y : Nat
  fg : UInt32
  bg : UInt32
  written : Nat → Nat → Option Cell

def Terminal.write (t : Terminal) (cell : Cell) : Nat → Nat → Option Cell :=
  fun row column => if row = t.y ∧ column = t.x then some cell else t.written row column

def Terminal.putchar (cols : Nat) (t : Terminal) (c : UInt8) : Terminal :=
  if c = 10 then { t with x := 0, y := t.y + 1 }
  else if c = 13 then { t with x := 0 }
  else if c = 8 then { t with x := t.x - 1 }
  else if t.x + 1 < cols then { t with x := t.x + 1, written := t.write ⟨c,t.fg,t.bg⟩ }
  else { t with x := 0, y := t.y + 1, written := t.write ⟨c,t.fg,t.bg⟩ }

def Terminal.exec (cols : Nat) (t : Terminal) : Call → Terminal
  | .console_putchar c => t.putchar cols c
  | .console_set_color fg bg => { t with fg := fg, bg := bg }

/-- A terminal that nothing has been written to. -/
def Terminal.start (fg bg : UInt32) : Terminal := ⟨0,0,fg,bg,fun _ _ => none⟩

/-- A cell of the console against one of the terminal: what has been written there with
    its colours, or a space. -/
def Cell.Is (cell : Cell) : Option Cell → Prop
  | some written => cell = written
  | none => cell.c = 32

/-- The console shows the rows of the terminal from the number of scrolls on. -/
structure Shows (g : Geometry) (s : State) (t : Terminal) : Prop where
  column : s.cursor_x < g.cols
  row : s.cursor_y < g.rows
  x : t.x = s.cursor_x
  y : t.y = s.scrolls + s.cursor_y
  cells : ∀ r < g.rows, ∀ c < g.cols, (cellAt s.memory g.buffer (r * g.cols + c)).Is (t.written (s.scrolls + r) c)

/-! ### Cells -/

theorem cellAt_putCell_same (m : Memory) (buffer i : Nat) (cell : Cell) :
    cellAt (putCell m buffer i cell) buffer i = cell := by
  have c := cell.c.toNat_lt
  have fg := cell.fg.toNat_lt
  have bg := cell.bg.toNat_lt
  rw [cellAt,putCell,load_store_disjoint (by omega),load_store_disjoint (by omega),load_store_same (by omega),
    load_store_disjoint (by omega),load_store_same (by omega),load_store_same (by omega),UInt8.ofNat_toNat,
    UInt32.ofNat_toNat,UInt32.ofNat_toNat]

theorem cellAt_putCell_other {m : Memory} {buffer i j : Nat} (cell : Cell) (different : i ≠ j) :
    cellAt (putCell m buffer i cell) buffer j = cellAt m buffer j := by
  have apart : i + 1 ≤ j ∨ j + 1 ≤ i := by omega
  have kept {offset width : Nat} (inside : offset + width ≤ 12) :
      load (putCell m buffer i cell) (buffer + 12 * j + offset) width = load m (buffer + 12 * j + offset) width := by
    rw [putCell,load_store_disjoint (by omega),load_store_disjoint (by omega),load_store_disjoint (by omega)]
  rw [cellAt,cellAt,kept (by decide : 4 + 4 ≤ 12),kept (by decide : 8 + 4 ≤ 12),← Nat.add_zero (buffer + 12 * j),
    kept (by decide : 0 + 1 ≤ 12)]

/-- A cell that moves with the bytes that hold it. -/
theorem cellAt_memmove {m : Memory} {buffer shift count i : Nat} (inside : i < count) :
    cellAt (memmove buffer (buffer + 12 * shift) (12 * count) m) buffer i = cellAt m buffer (i + shift) := by
  have moved {offset width : Nat} (small : offset + width ≤ 12) :
      load (memmove buffer (buffer + 12 * shift) (12 * count) m) (buffer + 12 * i + offset) width =
        load m (buffer + 12 * (i + shift) + offset) width := by
    rw [Nat.add_assoc,load_memmove_inside (by omega)]
    congr 1
    omega
  rw [cellAt,cellAt,moved (by decide : 4 + 4 ≤ 12),moved (by decide : 8 + 4 ≤ 12),← Nat.add_zero (buffer + 12 * i),
    ← Nat.add_zero (buffer + 12 * (i + shift)),moved (by decide : 0 + 1 ≤ 12)]

/-- An allocated buffer of a screen that has cells, which 32 bits can count. -/
structure Geometry.Sound (g : Geometry) : Prop where
  allocated : g.buffer ≠ 0
  columns : 1 ≤ g.cols
  lines : 1 ≤ g.rows
  small : g.cols * g.rows < 2 ^ 32

section
variable {g : Geometry} {s : State} {m : Memory}

theorem writeCell_eq (sound : g.Sound) {i : Nat} (inside : i < g.cols * g.rows) (cell : Cell) :
    writeCell g (i % 2 ^ 32) cell m = .done (putCell m g.buffer i cell) := by
  have small := sound.small
  rw [Nat.mod_eq_of_lt (by omega),writeCell,if_pos ⟨sound.allocated,inside⟩]

theorem fillCells_spec (sound : g.Sound) {first x remaining : Nat} (cell : Cell)
    (inside : first + x + remaining ≤ g.cols * g.rows) : ∃ m', fillCells g cell first x remaining m = .done m' ∧
      ∀ i, cellAt m' g.buffer i = if first + x ≤ i ∧ i < first + x + remaining then cell else cellAt m g.buffer i := by
  induction remaining generalizing x m with
  | zero =>
    refine ⟨m,rfl,fun i => ?_⟩
    rw [if_neg (by omega)]
  | succ remaining ih =>
    obtain ⟨m',rest,cells⟩ := @ih (putCell m g.buffer (first + x) cell) (x + 1) (by omega)
    refine ⟨m',?_,fun i => ?_⟩
    · rw [fillCells,writeCell_eq sound (by omega),bind_done]
      exact rest
    · rw [cells i]
      by_cases here : first + x = i
      · subst here
        rw [if_neg (by omega),if_pos (by omega),cellAt_putCell_same]
      · rw [cellAt_putCell_other cell here]
        by_cases later : first + (x + 1) ≤ i ∧ i < first + (x + 1) + remaining
        · rw [if_pos later,if_pos (by omega)]
        · rw [if_neg later,if_neg (by omega)]

/-- The index of a cell is inside the buffer. -/
theorem index_inside {r c : Nat} (row : r < g.rows) (column : c < g.cols) : r * g.cols + c < g.cols * g.rows := by
  have whole : (r + 1) * g.cols ≤ g.rows * g.cols := Nat.mul_le_mul_right _ row
  rw [Nat.succ_mul] at whole
  rw [Nat.mul_comm g.cols]
  omega

/-- Different cells have different indices. -/
theorem index_injective {cols r r' c c' : Nat} (column : c < cols) (column' : c' < cols)
    (same : r * cols + c = r' * cols + c') : r = r' ∧ c = c' := by
  have row (q d : Nat) (small : d < cols) : (q * cols + d) / cols = q := by
    rw [Nat.add_comm,Nat.add_mul_div_right _ _ (by omega),Nat.div_eq_of_lt small,Nat.zero_add]
  have rows : r = r' := by rw [← row r c column,same,row r' c' column']
  subst rows
  exact ⟨rfl,by omega⟩

theorem redrawRow_done (sound : g.Sound) {y x remaining : Nat} (row : y < g.rows) (inside : x + remaining ≤ g.cols) :
    ∃ cells, redrawRow g m y x remaining = .done cells := by
  induction remaining generalizing x with
  | zero => exact ⟨[],rfl⟩
  | succ remaining ih =>
    obtain ⟨rest,later⟩ := @ih (x + 1) (by omega)
    have index : y * g.cols + x < g.cols * g.rows := index_inside row (by omega)
    have small := sound.small
    refine ⟨cellAt m g.buffer (y * g.cols + x) :: rest,?_⟩
    rw [redrawRow,Nat.mod_eq_of_lt (by omega),readCell,if_pos ⟨sound.allocated,index⟩,bind_done,later]
    rfl

theorem redraw_all_done (sound : g.Sound) {y remaining : Nat} (inside : y + remaining ≤ g.rows) :
    ∃ cells, redraw_all g m y remaining = .done cells := by
  induction remaining generalizing y with
  | zero => exact ⟨[],rfl⟩
  | succ remaining ih =>
    obtain ⟨row,first⟩ := @redrawRow_done g m sound y 0 g.cols (by omega) (by omega)
    obtain ⟨rest,later⟩ := @ih (y + 1) (by omega)
    refine ⟨row :: rest,?_⟩
    rw [redraw_all,first,bind_done,later]
    rfl

theorem moveCells_done (sound : g.Sound) {n : Nat} (last : g.rows = n + 1) :
    moveCells g (n * g.cols) m = .done (memmove g.buffer (g.buffer + 12 * g.cols) (12 * (n * g.cols)) m) := by
  have columns := sound.columns
  have whole : g.cols * g.rows = n * g.cols + g.cols := by rw [last,Nat.mul_comm,Nat.succ_mul]
  rw [moveCells,if_pos,sizeof_console_char]
  by_cases none : n * g.cols = 0
  · exact .inl none
  · exact .inr ⟨sound.allocated,by omega⟩

/-- The number of the last row. -/
theorem last_row (sound : g.Sound) :
    ∃ n, g.rows = n + 1 ∧ (g.rows + 2 ^ 32 - 1) % 2 ^ 32 = n ∧ n * g.cols + g.cols = g.cols * g.rows := by
  have lines := sound.lines
  have small := sound.small
  have few : g.rows ≤ g.cols * g.rows := Nat.le_mul_of_pos_left _ sound.columns
  refine ⟨g.rows - 1,by omega,by omega,?_⟩
  rw [← Nat.succ_mul,Nat.mul_comm,Nat.succ_eq_add_one,Nat.sub_add_cancel lines]

/-- A scroll moves the rows up by one and leaves a blank row at the bottom. -/
theorem scroll_spec (sound : g.Sound) (s : State) : ∃ m', scroll g s = .done
    { s with memory := m', scrolls := s.scrolls + 1 } ∧
    ∀ r < g.rows, ∀ c < g.cols, cellAt m' g.buffer (r * g.cols + c) =
      if r + 1 < g.rows then cellAt s.memory g.buffer ((r + 1) * g.cols + c) else blank s := by
  obtain ⟨n,lines,last,whole⟩ := last_row sound
  have small := sound.small
  obtain ⟨m',filled,cells⟩ := @fillCells_spec g (memmove g.buffer (g.buffer + 12 * g.cols)
    (12 * (n * g.cols)) s.memory) sound
    (n * g.cols) 0 g.cols (blank s) (by omega)
  obtain ⟨drawn,redrawn⟩ := @redraw_all_done g m' sound 0 g.rows (by omega)
  refine ⟨m',?_,fun r row c column => ?_⟩
  · rw [scroll,last,Nat.mod_eq_of_lt (by omega),moveCells_done sound lines,bind_done,filled,bind_done,redrawn]
    rfl
  · rw [cells,Nat.add_zero]
    by_cases above : r + 1 < g.rows
    · have before : (r + 1) * g.cols ≤ n * g.cols := Nat.mul_le_mul_right _ (by omega)
      rw [Nat.succ_mul] at before
      rw [if_neg (by omega),if_pos above,cellAt_memmove (by omega),Nat.succ_mul,Nat.add_right_comm]
    · obtain rfl : r = n := by omega
      rw [if_pos (by omega),if_neg above]

/-! ### The simulation -/

/-- The invariant of the simulation, where the cursor may have left the last row. Nothing
    has been written below it. -/
structure Follows (g : Geometry) (s : State) (t : Terminal) : Prop where
  column : s.cursor_x < g.cols
  row : s.cursor_y ≤ g.rows
  x : t.x = s.cursor_x
  y : t.y = s.scrolls + s.cursor_y
  cells : ∀ r < g.rows, ∀ c < g.cols, (cellAt s.memory g.buffer (r * g.cols + c)).Is (t.written (s.scrolls + r) c)
  fg : t.fg = s.fg_color
  bg : t.bg = s.bg_color
  below : ∀ row column, t.y < row ∨ t.y = row ∧ s.cursor_y = g.rows → t.written row column = none

variable {t : Terminal}

theorem write_cells (follows : Follows g s t) (cell : Cell) :
    ∀ r < g.rows, ∀ c < g.cols, (cellAt (putCell s.memory g.buffer (s.cursor_y * g.cols + s.cursor_x) cell)
      g.buffer (r * g.cols + c)).Is (t.write cell (s.scrolls + r) c) := by
  intro r inside c column
  rw [Terminal.write,follows.x,follows.y]
  by_cases here : r = s.cursor_y ∧ c = s.cursor_x
  · obtain ⟨rfl,rfl⟩ := here
    rw [if_pos ⟨rfl,rfl⟩,cellAt_putCell_same]
    rfl
  · have different : s.cursor_y * g.cols + s.cursor_x ≠ r * g.cols + c := by
      intro same
      obtain ⟨rfl,rfl⟩ := index_injective follows.column column same
      exact here ⟨rfl,rfl⟩
    rw [if_neg (by omega),cellAt_putCell_other cell different]
    exact follows.cells r inside c column

theorem write_below (follows : Follows g s t) {cell : Cell} {row column : Nat} (under : t.y < row)  :
    t.write cell row column = none := by
  rw [Terminal.write,if_neg (by omega)]
  exact follows.below row column (.inl under)

theorem advance_spec (sound : g.Sound) (follows : Follows g s t) (row : s.cursor_y < g.rows) (c : UInt8) :
    ∃ s', advance g s c = .done s' ∧ Follows g s' (t.putchar g.cols c) := by
  have columns := sound.columns
  have small := sound.small
  have column := follows.column
  have few : g.rows ≤ g.cols * g.rows := Nat.le_mul_of_pos_left _ sound.columns
  have narrow : g.cols ≤ g.cols * g.rows := Nat.le_mul_of_pos_right _ sound.lines
  have y := follows.y
  have next : (s.cursor_y + 1) % 2 ^ 32 = s.cursor_y + 1 := by omega
  unfold advance Terminal.putchar
  by_cases newline : c = 10
  · rw [if_pos newline,if_pos newline,next]
    refine ⟨_,rfl,⟨columns,row,rfl,?_,follows.cells,follows.fg,follows.bg,fun r column under => ?_⟩⟩
    · show t.y + 1 = s.scrolls + (s.cursor_y + 1)
      omega
    · refine follows.below r column (.inl ?_)
      rcases under with under | ⟨under,_⟩
      · exact Nat.lt_of_succ_lt under
      · exact under ▸ Nat.lt_succ_self t.y
  rw [if_neg newline,if_neg newline]
  by_cases carriage : c = 13
  · rw [if_pos carriage,if_pos carriage]
    exact ⟨_,rfl,⟨columns,follows.row,rfl,y,follows.cells,follows.fg,follows.bg,follows.below⟩⟩
  rw [if_neg carriage,if_neg carriage]
  by_cases backspace : c = 8
  · rw [if_pos backspace,if_pos backspace]
    refine ⟨_,rfl,?_⟩
    by_cases left : s.cursor_x > 0
    · rw [if_pos left]
      exact ⟨show s.cursor_x - 1 < g.cols by omega,follows.row,by
        rw [follows.x],y,follows.cells,follows.fg,follows.bg,follows.below⟩
    · rw [if_neg left]
      have first : t.x - 1 = s.cursor_x := by rw [follows.x]; omega
      exact ⟨column,follows.row,first,y,follows.cells,follows.fg,follows.bg,follows.below⟩
  rw [if_neg backspace,if_neg backspace]
  have index := @index_inside g s.cursor_y s.cursor_x row column
  have right : (s.cursor_x + 1) % 2 ^ 32 = s.cursor_x + 1 := by omega
  have cells := write_cells follows ⟨c,s.fg_color,s.bg_color⟩
  rw [if_pos sound.allocated,writeCell_eq sound index,bind_done,right,follows.x,follows.fg,follows.bg,next]
  refine ⟨_,rfl,?_⟩
  by_cases wraps : s.cursor_x + 1 ≥ g.cols
  · rw [if_pos wraps,if_neg (by omega)]
    refine ⟨columns,row,rfl,?_,cells,rfl,rfl,fun r column under => ?_⟩
    · show t.y + 1 = s.scrolls + (s.cursor_y + 1)
      omega
    · refine write_below follows ?_
      rcases under with under | ⟨under,_⟩
      · exact Nat.lt_of_succ_lt under
      · exact under ▸ Nat.lt_succ_self t.y
  · rw [if_neg wraps,if_pos (by omega)]
    refine ⟨show s.cursor_x + 1 < g.cols by omega,follows.row,rfl,y,cells,rfl,rfl,fun r column under => ?_⟩
    rcases under with under | ⟨_,full⟩
    · exact write_below follows under
    · exact absurd full (Nat.ne_of_lt row)

/-- After the test for the last row the cursor is inside. -/
theorem settle_spec (sound : g.Sound) (follows : Follows g s t) :
    ∃ s', (if s.cursor_y ≥ g.rows then do
      let s ← scroll g s
      .done { s with cursor_y := (g.rows + 2 ^ 32 - 1) % 2 ^ 32 }
    else .done s) = .done s' ∧ Follows g s' t ∧ s'.cursor_y < g.rows := by
  by_cases full : s.cursor_y ≥ g.rows
  · obtain ⟨n,lines,last,whole⟩ := last_row sound
    have row := follows.row
    have y := follows.y
    obtain ⟨m',scrolled,cells⟩ := scroll_spec sound s
    refine ⟨{ s with memory := m', scrolls := s.scrolls + 1, cursor_y := n },?_,?_,show n < g.rows by omega⟩
    · rw [if_pos full,scrolled,bind_done,last]
    · refine ⟨follows.column,show n ≤ g.rows by omega,follows.x,show t.y = s.scrolls + 1 + n by omega,
        fun r inside c column => ?_,follows.fg,follows.bg,fun r column under => follows.below r column ?_⟩
      · show (cellAt m' g.buffer _).Is (t.written (s.scrolls + 1 + r) c)
        rw [cells r inside c column,show s.scrolls + 1 + r = s.scrolls + (r + 1) by omega]
        by_cases above : r + 1 < g.rows
        · rw [if_pos above]
          exact follows.cells (r + 1) above c column
        · rw [if_neg above,follows.below (s.scrolls + (r + 1)) c (.inr (by omega))]
          rfl
      · exact under.imp_right (fun both => ⟨both.1,by omega⟩)
  · exact ⟨s,if_neg full,follows,by omega⟩

theorem exec_spec (sound : g.Sound) (follows : Follows g s t) (row : s.cursor_y < g.rows) (call : Call) :
    ∃ s', exec g s call = .done s' ∧ Follows g s' (t.exec g.cols call) ∧ s'.cursor_y < g.rows := by
  cases call with
  | console_putchar c =>
    obtain ⟨s₁,advanced,follows₁⟩ := advance_spec sound follows row c
    obtain ⟨s₂,settled,follows₂,row₂⟩ := settle_spec sound follows₁
    exact ⟨s₂,by rw [exec,console_putchar,advanced]; exact settled,follows₂,row₂⟩
  | console_set_color fg bg =>
    exact ⟨_,rfl,⟨follows.column,follows.row,follows.x,follows.y,follows.cells,rfl,rfl,follows.below⟩,row⟩

theorem run_spec (sound : g.Sound) (calls : List Call) (follows : Follows g s t) (row : s.cursor_y < g.rows) :
    ∃ s', calls.foldlM (exec g) s = .done s' ∧ Follows g s' (calls.foldl (Terminal.exec g.cols) t) ∧
      s'.cursor_y < g.rows := by
  induction calls generalizing s t with
  | nil => exact ⟨s,rfl,follows,row⟩
  | cons call calls ih =>
    obtain ⟨s₁,first,follows₁,row₁⟩ := exec_spec sound follows row call
    obtain ⟨s₂,later,last⟩ := ih follows₁ row₁
    exact ⟨s₂,by rw [List.foldlM_cons,first,bind_done]; exact later,last⟩

theorem console_clear_done (sound : g.Sound) (s : State) :
    ∃ m', console_clear g s = .done { s with cursor_x := 0, cursor_y := 0, memory := m', scrolls := 0 } ∧
      ∀ i < g.cols * g.rows, cellAt m' g.buffer i = blank s := by
  have small := sound.small
  obtain ⟨m',filled,cells⟩ := @fillCells_spec g s.memory sound 0 0 (g.cols * g.rows) (blank s) (by omega)
  refine ⟨m',?_,fun i inside => by rw [cells,if_pos (by omega)]⟩
  rw [console_clear,if_pos sound.allocated,Nat.mod_eq_of_lt small,filled]
  rfl

/-- A cleared console shows an empty terminal. -/
theorem console_clear_spec (sound : g.Sound) (s : State) : ∃ s', console_clear g s = .done s' ∧
    Follows g s' (Terminal.start s.fg_color s.bg_color) ∧ s'.cursor_y < g.rows := by
  obtain ⟨m',cleared,cells⟩ := console_clear_done sound s
  refine ⟨_,cleared,⟨sound.columns,Nat.zero_le _,rfl,rfl,fun r row c column => ?_,rfl,rfl,fun _ _ _ => rfl⟩,
    sound.lines⟩
  show (cellAt m' g.buffer _).Is none
  rw [cells _ (index_inside row column)]
  rfl

/-- After a clear and any calls the console is where the terminal is and shows its rows
    from the number of scrolls on, and every access to the buffer has been inside it. -/
theorem console_refines (sound : g.Sound) (s : State) (calls : List Call) :
    ∃ s₀ s', console_clear g s = .done s₀ ∧ calls.foldlM (exec g) s₀ = .done s' ∧
      Shows g s' (calls.foldl (Terminal.exec g.cols) (Terminal.start s.fg_color s.bg_color)) := by
  obtain ⟨s₀,cleared,follows₀,row₀⟩ := console_clear_spec sound s
  obtain ⟨s',run,follows,row⟩ := run_spec sound calls follows₀ row₀
  exact ⟨s₀,s',cleared,run,⟨follows.column,row,follows.x,follows.y,follows.cells⟩⟩

end

/-- A screen that has been used before. -/
def usedScreen : State := ⟨3,7,0xffffff,0,fun _ => 0,5⟩

/-- `ABCD`, a new line and `E` on three columns and two rows: the row `ABC` has been scrolled away. -/
theorem console_refines_scrolled : ∃ s₀ s', console_clear ⟨0x100000,3,2⟩ usedScreen = .done s₀ ∧
    [Call.console_putchar 65,.console_putchar 66,.console_putchar 67,.console_putchar 68,.console_putchar 10,
      .console_putchar 69].foldlM (exec ⟨0x100000,3,2⟩) s₀ = .done s' ∧
    s'.cursor_x = 1 ∧ 0 < s'.scrolls ∧ s'.scrolls + s'.cursor_y = 2 ∧
      (cellAt s'.memory 0x100000 (s'.cursor_y * 3)).Is (some ⟨69,0xffffff,0⟩) := by
  have sound : Geometry.Sound ⟨0x100000,3,2⟩ := ⟨by decide,by decide,by decide,by decide⟩
  obtain ⟨s₀,s',cleared,run,shows⟩ := console_refines sound usedScreen
    [.console_putchar 65,.console_putchar 66,.console_putchar 67,.console_putchar 68,.console_putchar 10,.console_putchar 69]
  have row : s'.cursor_y < 2 := shows.row
  have y : 2 = s'.scrolls + s'.cursor_y := shows.y
  have cell := shows.cells s'.cursor_y row 0 (by decide)
  rw [← y] at cell
  exact ⟨s₀,s',cleared,run,shows.x.symm,by omega,y.symm,cell⟩

end NekoOs.Console
