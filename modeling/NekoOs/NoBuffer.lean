import NekoOs.Console

/-!
The console after `kmalloc` has returned `NULL`. `console_clear` and
`console_putchar` test the buffer before they use it, `scroll` and `redraw_all`
do not, so that the console works until it has to scroll.
-/
namespace NekoOs.NoBuffer
open ByteMemory Access Console

/-- The characters of a string up to its NUL. -/
def console_print (g : Geometry) : (str : List UInt8) → State → Access State
  | [], s => .done s
  | c :: str, s => if c = 0 then .done s else do
    let s ← console_putchar g s c
    console_print g str s

inductive Call
  | console_putchar (c : UInt8)
  | console_print (str : List UInt8)
  | console_set_color (fg bg : UInt32)
  | console_clear

def exec (g : Geometry) (s : State) : Call → Access State
  | .console_putchar c => console_putchar g s c
  | .console_print str => console_print g str s
  | .console_set_color fg bg => .done (console_set_color s fg bg)
  | .console_clear => console_clear g s

/-- The end of `console_init`, for the buffer that `kmalloc` has returned, and some calls. -/
def run (g : Geometry) (s : State) (calls : List Call) : Access State := do
  let s ← console_clear g s
  calls.foldlM (exec g) s

/-! ### The cursor alone -/

/-- The cursor after a character, unless it has to leave the last row. -/
def place (g : Geometry) (p : Nat × Nat) (c : UInt8) : Option (Nat × Nat) :=
  if c = 10 then if p.2 + 1 < g.rows then some (0,p.2 + 1) else none
  else if c = 13 then some (0,p.2)
  else if c = 8 then some (p.1 - 1,p.2)
  else if p.1 + 1 < g.cols then some (p.1 + 1,p.2)
  else if p.2 + 1 < g.rows then some (0,p.2 + 1) else none

def Call.place (g : Geometry) (p : Nat × Nat) : Call → Option (Nat × Nat)
  | .console_putchar c => NoBuffer.place g p c
  | .console_print str => (str.takeWhile (· ≠ 0)).foldlM (NoBuffer.place g) p
  | .console_set_color _ _ => some p
  | .console_clear => some (0,0)

/-- No character of the calls takes the cursor out of the last row. -/
def NeverScrolls (g : Geometry) (calls : List Call) : Prop := (calls.foldlM (Call.place g) (0,0)).isSome

instance (g : Geometry) (calls : List Call) : Decidable (NeverScrolls g calls) := inferInstanceAs (Decidable (_ = true))

def cursor (s : State) : Nat × Nat := (s.cursor_x,s.cursor_y)

/-- A screen of some size without a buffer. -/
structure Bare (g : Geometry) : Prop where
  none : g.buffer = 0
  columns : 1 ≤ g.cols
  lines : 1 ≤ g.rows
  narrow : g.cols < 2 ^ 32
  low : g.rows < 2 ^ 32

/-- The cursor is on the screen, and nothing has been written to the memory. -/
structure Inside (g : Geometry) (m : Memory) (s : State) : Prop where
  column : s.cursor_x < g.cols
  row : s.cursor_y < g.rows
  memory : s.memory = m

/-- Code that moves the cursor to a place, or that uses the buffer if there is no place. -/
def Moves (g : Geometry) (m : Memory) (code : Access State) : Option (Nat × Nat) → Prop
  | some p => ∃ s, code = .done s ∧ cursor s = p ∧ Inside g m s
  | none => code = .outside

section
variable {g : Geometry} {m : Memory} {s : State}

/-- One piece of code after another moves the cursor as both do. -/
theorem Moves.bind {code : Access State} {next : State → Access State} {moved : Option (Nat × Nat)}
    {move : Nat × Nat → Option (Nat × Nat)} (first : Moves g m code moved)
    (later : ∀ s, Inside g m s → Moves g m (next s) (move (cursor s))) : Moves g m (code >>= next) (moved >>= move) := by
  cases moved with
  | none =>
    rw [show code = .outside from first]
    rfl
  | some p =>
    obtain ⟨s,ended,rfl,inside⟩ := first
    rw [ended]
    exact later s inside

variable (bare : Bare g)
include bare

theorem writeCell_bare (i : Nat) (cell : Cell) (m : Memory) : writeCell g i cell m = .outside :=
  if_neg (fun has => has.1 bare.none)

/-- A scroll uses the buffer. -/
theorem scroll_bare (s : State) : scroll g s = .outside := by
  obtain ⟨n,columns⟩ : ∃ n, g.cols = n + 1 := ⟨g.cols - 1,by have := bare.columns; omega⟩
  rw [scroll]
  show (moveCells g _ s.memory >>= _) = _
  unfold moveCells
  split
  · rw [bind_done,columns,fillCells,writeCell_bare bare]
    rfl
  · rfl

/-- The end of `console_putchar`, from a cursor that may have left the last row. -/
theorem settle_bare {p : Nat × Nat} (place : cursor s = p) (column : p.1 < g.cols) (memory : s.memory = m) :
    Moves g m (if s.cursor_y ≥ g.rows then do
        let s ← scroll g s
        .done { s with cursor_y := (g.rows + 2 ^ 32 - 1) % 2 ^ 32 }
      else .done s) (if p.2 < g.rows then some p else none) := by
  subst place
  by_cases row : s.cursor_y < g.rows
  · rw [if_neg (by omega),if_pos (show (cursor s).2 < g.rows from row)]
    exact ⟨s,rfl,rfl,column,row,memory⟩
  · rw [if_pos (by omega),if_neg (show ¬(cursor s).2 < g.rows from row),scroll_bare bare]
    rfl

theorem putchar_bare (inside : Inside g m s) (c : UInt8) : Moves g m (console_putchar g s c) (place g (cursor s) c) := by
  obtain ⟨column,row,memory⟩ := inside
  have columns := bare.columns
  have narrow := bare.narrow
  have low := bare.low
  have down : (s.cursor_y + 1) % 2 ^ 32 = s.cursor_y + 1 := by omega
  have right : (s.cursor_x + 1) % 2 ^ 32 = s.cursor_x + 1 := by omega
  have stays (p : Nat × Nat) (same : p.2 = s.cursor_y) : (if p.2 < g.rows then some p else none) = some p :=
    if_pos (same ▸ row)
  rw [console_putchar,advance,place]
  by_cases newline : c = 10
  · rw [if_pos newline,if_pos newline,down,bind_done]
    exact settle_bare bare rfl columns memory
  rw [if_neg newline,if_neg newline]
  by_cases carriage : c = 13
  · rw [if_pos carriage,if_pos carriage,bind_done,← stays (0,(cursor s).2) rfl]
    exact settle_bare bare rfl columns memory
  rw [if_neg carriage,if_neg carriage]
  by_cases backspace : c = 8
  · rw [if_pos backspace,if_pos backspace,bind_done,← stays ((cursor s).1 - 1,(cursor s).2) rfl]
    by_cases left : s.cursor_x > 0
    · rw [if_pos left]
      exact settle_bare bare rfl (show s.cursor_x - 1 < g.cols by omega) memory
    · rw [if_neg left]
      have first : cursor s = ((cursor s).1 - 1,(cursor s).2) := Prod.ext (show s.cursor_x = s.cursor_x - 1 by omega) rfl
      exact settle_bare bare first (show s.cursor_x - 1 < g.cols by omega) memory
  rw [if_neg backspace,if_neg backspace,if_neg (fun some => some bare.none),bind_done,right,down,bind_done]
  by_cases wraps : s.cursor_x + 1 ≥ g.cols
  · rw [if_pos wraps,if_neg (show ¬(cursor s).1 + 1 < g.cols from Nat.not_lt.mpr wraps)]
    exact settle_bare bare rfl columns memory
  · have more : (cursor s).1 + 1 < g.cols := Nat.not_le.mp wraps
    rw [if_neg wraps,if_pos more,← stays ((cursor s).1 + 1,(cursor s).2) rfl]
    exact settle_bare bare rfl more memory

theorem print_bare (str : List UInt8) (inside : Inside g m s) :
    Moves g m (console_print g str s) ((str.takeWhile (· ≠ 0)).foldlM (place g) (cursor s)) := by
  induction str generalizing s with
  | nil => exact ⟨s,rfl,rfl,inside⟩
  | cons c str ih =>
    rw [console_print]
    by_cases nul : c = 0
    · rw [if_pos nul,List.takeWhile_cons_of_neg (by simp [nul])]
      exact ⟨s,rfl,rfl,inside⟩
    rw [if_neg nul,List.takeWhile_cons_of_pos (by simp [nul]),List.foldlM_cons]
    exact (putchar_bare bare inside c).bind (fun s' inside' => ih inside')

theorem exec_bare (call : Call) (inside : Inside g m s) : Moves g m (exec g s call) (call.place g (cursor s)) := by
  cases call with
  | console_putchar c => exact putchar_bare bare inside c
  | console_print str => exact print_bare bare str inside
  | console_set_color fg bg => exact ⟨_,rfl,rfl,inside.column,inside.row,inside.memory⟩
  | console_clear =>
    refine ⟨{ s with cursor_x := 0, cursor_y := 0, scrolls := 0 },?_,rfl,bare.columns,bare.lines,inside.memory⟩
    rw [exec,console_clear,if_neg (fun some => some bare.none)]
    rfl

theorem calls_bare (calls : List Call) (inside : Inside g m s) :
    Moves g m (calls.foldlM (exec g) s) (calls.foldlM (Call.place g) (cursor s)) := by
  induction calls generalizing s with
  | nil => exact ⟨s,rfl,rfl,inside⟩
  | cons call calls ih =>
    rw [List.foldlM_cons,List.foldlM_cons]
    exact (exec_bare bare call inside).bind (fun s' inside' => ih inside')

theorem run_bare (s : State) (calls : List Call) :
    Moves g s.memory (run g s calls) (calls.foldlM (Call.place g) (0,0)) := by
  have cleared : console_clear g s = .done { s with cursor_x := 0, cursor_y := 0, scrolls := 0 } := by
    rw [console_clear,if_neg (fun some => some bare.none)]
    rfl
  rw [run,cleared,bind_done]
  exact calls_bare bare calls ⟨bare.columns,bare.lines,rfl⟩

/-- Without a buffer, the calls leave the buffer alone and keep the cursor on the screen, each of them, if and only if
    none of their characters takes the cursor out of the last row. -/
theorem survives_iff (s : State) (calls : List Call) :
    (∀ made, made <+: calls → ∃ s', run g s made = .done s' ∧ s'.cursor_x < g.cols ∧ s'.cursor_y < g.rows ∧
      s'.memory = s.memory) ↔ NeverScrolls g calls := by
  constructor
  · intro survives
    obtain ⟨s',ended,_⟩ := survives calls (List.prefix_refl calls)
    have moves := run_bare bare s calls
    unfold NeverScrolls
    cases found : calls.foldlM (Call.place g) (0,0) with
    | some p => rfl
    | none =>
      rw [found] at moves
      rw [show run g s calls = .outside from moves] at ended
      cases ended
  · rintro never made ⟨later,rfl⟩
    have moves := run_bare bare s made
    cases found : made.foldlM (Call.place g) (0,0) with
    | none =>
      unfold NeverScrolls at never
      rw [List.foldlM_append,found] at never
      cases never
    | some p =>
      rw [found] at moves
      obtain ⟨s',ended,_,inside⟩ := moves
      exact ⟨s',ended,inside.column,inside.row,inside.memory⟩

end

/-- A screen of 3 columns and 2 rows. -/
def small : Geometry := ⟨0,3,2⟩

def start : State := ⟨0,0,0xFFFFFF,0,fun _ => 0,0⟩

theorem survives_iff_small : Bare small ∧ ∀ made, made <+: [Call.console_print [65,66,67,68],.console_putchar 13] →
    ∃ s', run small start made = .done s' ∧ s'.cursor_x < 3 ∧ s'.cursor_y < 2 ∧ s'.memory = start.memory :=
  ⟨⟨rfl,by decide,by decide,by decide,by decide⟩,
    (survives_iff ⟨rfl,by decide,by decide,by decide,by decide⟩ start _).mpr (by decide)⟩

/-- On two rows the second newline writes through the null pointer. -/
theorem second_newline_outside : Bare small ∧
    run small start [.console_putchar 10,.console_putchar 10] = .outside ∧
    ¬∀ calls, ∃ s', run small start calls = .done s' ∧ s'.cursor_x < 3 ∧ s'.cursor_y < 2 := by
  have bare : Bare small := ⟨rfl,by decide,by decide,by decide,by decide⟩
  have outside : run small start [.console_putchar 10,.console_putchar 10] = .outside :=
    run_bare bare start [.console_putchar 10,.console_putchar 10]
  refine ⟨bare,outside,fun survives => ?_⟩
  obtain ⟨s',ended,_⟩ := survives [.console_putchar 10,.console_putchar 10]
  rw [outside] at ended
  cases ended

end NekoOs.NoBuffer
