import NekoOs.Klog
import NekoOs.Locking
import NekoOs.Pixels

/-!
`klog` on any number of processors, one character at a time. The serial port and the
console show whole lines, in the order in which the processors got `klog_lock`, and
after them a part of one line; no character gets the colour of another line.
-/
namespace NekoOs.LogLines
open Printf Klog Pixels Transitions Locking Simulation
universe u
variable {Cpu : Type u}

/-- `fb_color(0, 255, 0)` and so on, on black -/
abbrev Colors := UInt32 × UInt32

/-- What the devices have been sent. The console draws each character in the colours that are set. -/
structure Output where
  serial : List UInt8
  console : List (UInt8 × Colors)
  colors : Colors
deriving DecidableEq, Repr

inductive Send
  | serial_putchar (c : UInt8)
  | console_set_color (colors : Colors)
  | console_putchar (c : UInt8)
deriving DecidableEq, Repr

def Output.send (o : Output) : Send → Output
  | .serial_putchar c => { o with serial := o.serial ++ [c] }
  | .console_set_color colors => { o with colors := colors }
  | .console_putchar c => { o with console := o.console ++ [(c,o.colors)] }

/-- A call of `klog` whose format and arguments can be printed, with what they print. -/
structure Entry where
  level : Level
  fmt : List UInt8
  args : List Arg
  shown : List UInt8
  rest : List Arg
  prints : sent fmt args = .ok (shown,rest)

def tagColors : Level → Colors
  | .LOG_INFO => (fb_color 0 255 0,fb_color 0 0 0)
  | .LOG_WARN => (fb_color 255 255 0,fb_color 0 0 0)
  | .LOG_ERROR => (fb_color 255 0 0,fb_color 0 0 0)
  | .LOG_FATAL => (fb_color 255 0 255,fb_color 0 0 0)

def textColors : Colors := (fb_color 255 255 255,fb_color 0 0 0)

/-- What `kvlog` sends, in order. -/
def line (console_ready : Bool) (e : Entry) : List Send :=
  (tag e.level).map .serial_putchar ++
  (if console_ready then
    .console_set_color (tagColors e.level) :: (tag e.level).map .console_putchar ++
      .console_set_color textColors :: e.shown.map .console_putchar
  else []) ++
  e.shown.map .serial_putchar ++ [.serial_putchar 10] ++ (if console_ready then [.console_putchar 10] else [])

/-- The devices without the colours. -/
def Output.streams (o : Output) : Streams := ⟨o.console.map Prod.fst,o.serial⟩

section
variable {o : Output} {console_ready : Bool}

theorem send_serials (chars : List UInt8) :
    (chars.map Send.serial_putchar).foldl Output.send o = { o with serial := o.serial ++ chars } := by
  induction chars generalizing o with
  | nil => simp
  | cons c chars ih => simp [ih,Output.send]

theorem send_consoles (chars : List UInt8) :
    (chars.map Send.console_putchar).foldl Output.send o = { o with console := o.console ++ chars.map (·,o.colors) } := by
  induction chars generalizing o with
  | nil => simp
  | cons c chars ih => simp [ih,Output.send]

/-- These sends are what the model of `kvlog` sends. -/
theorem kvlog_line (e : Entry) (o : Output) :
    kvlog console_ready e.level e.fmt e.args o.streams = .ok ((line console_ready e).foldl Output.send o).streams := by
  have newline (s : Streams) : svprintf [10,0] [] s = .ok ({ s with serial := s.serial ++ [10] },[]) := by
    rw [svprintf_sends,show sent [10,0] [] = .ok ([10],[]) from rfl]
    rfl
  have console (s : Streams) : cvprintf e.fmt e.args s = .ok ({ s with console := s.console ++ e.shown },e.rest) := by
    rw [cvprintf_sends,e.prints]
    rfl
  have serial (s : Streams) : svprintf e.fmt e.args s = .ok ({ s with serial := s.serial ++ e.shown },e.rest) := by
    rw [svprintf_sends,e.prints]
    rfl
  cases console_ready with
  | true =>
    simp [kvlog,serial_print_eq,console_print_eq,console,serial,newline,bind,Except.bind,console_putchar,line,
      Output.streams,Output.send,send_serials,send_consoles,Function.comp_def]
  | false =>
    simp [kvlog,serial_print_eq,serial,newline,bind,Except.bind,line,Output.streams,Output.send,send_serials]

/-! ### What is on the devices -/

/-- A line on the serial port, and on the console. -/
def text (e : Entry) : List UInt8 := tag e.level ++ e.shown ++ [10]
def colored (e : Entry) : List (UInt8 × Colors) := (tag e.level).map (·,tagColors e.level) ++ (e.shown ++ [10]).map (·,textColors)

def serialOf : List Send → List UInt8
  | [] => []
  | .serial_putchar c :: l => c :: serialOf l
  | .console_set_color _ :: l => serialOf l
  | .console_putchar _ :: l => serialOf l

def consoleOf (colors : Colors) : List Send → List (UInt8 × Colors)
  | [] => []
  | .serial_putchar _ :: l => consoleOf colors l
  | .console_set_color other :: l => consoleOf other l
  | .console_putchar c :: l => (c,colors) :: consoleOf colors l

theorem send_all (l : List Send) : (l.foldl Output.send o).serial = o.serial ++ serialOf l ∧
    (l.foldl Output.send o).console = o.console ++ consoleOf o.colors l := by
  induction l generalizing o with
  | nil => simp [serialOf,consoleOf]
  | cons x l ih =>
    cases x <;> simp [ih,Output.send,serialOf,consoleOf]

theorem serialOf_append (l r : List Send) : serialOf (l ++ r) = serialOf l ++ serialOf r := by
  induction l with
  | nil => rfl
  | cons x l ih => cases x <;> simp [serialOf,ih]

/-- What is drawn first does not depend on what follows. -/
theorem consoleOf_starts (colors : Colors) (l r : List Send) : consoleOf colors l <+: consoleOf colors (l ++ r) := by
  induction l generalizing colors with
  | nil => exact List.nil_prefix
  | cons x l ih => cases x <;> simp [consoleOf,ih]

theorem serialOf_line (e : Entry) : serialOf (line console_ready e) = text e := by
  have serials (chars : List UInt8) : serialOf (chars.map .serial_putchar) = chars := by
    induction chars with
    | nil => rfl
    | cons c chars ih => simp [serialOf,ih]
  have consoles (chars : List UInt8) : serialOf (chars.map .console_putchar) = [] := by
    induction chars with
    | nil => rfl
    | cons c chars ih => simp [serialOf,ih]
  cases console_ready <;> simp [line,text,serialOf_append,serialOf,serials,consoles]

theorem consoleOf_line (e : Entry) (colors : Colors) :
    consoleOf colors (line console_ready e) = if console_ready then colored e else [] := by
  have serials (colors : Colors) (chars : List UInt8) (l : List Send) :
      consoleOf colors (chars.map .serial_putchar ++ l) = consoleOf colors l := by
    induction chars with
    | nil => rfl
    | cons c chars ih => simp [consoleOf,ih]
  have consoles (colors : Colors) (chars : List UInt8) (l : List Send) :
      consoleOf colors (chars.map .console_putchar ++ l) = chars.map (·,colors) ++ consoleOf colors l := by
    induction chars with
    | nil => rfl
    | cons c chars ih => simp [consoleOf,ih]
  cases console_ready with
  | true => simp [line,colored,consoleOf,serials,consoles]
  | false => simp [line,consoleOf,serials]

/-- Lines that are written one after the other. -/
theorem send_lines (entries : List Entry) (o : Output) :
    (entries.foldl (fun o e => (line console_ready e).foldl Output.send o) o).serial = o.serial ++ entries.flatMap text ∧
    (entries.foldl (fun o e => (line console_ready e).foldl Output.send o) o).console =
      o.console ++ if console_ready then entries.flatMap colored else [] := by
  induction entries generalizing o with
  | nil => simp
  | cons e entries ih =>
    obtain ⟨serial,console⟩ := ih ((line console_ready e).foldl Output.send o)
    obtain ⟨first,first'⟩ := @send_all o (line console_ready e)
    rw [List.foldl_cons,serial,console,first,first',serialOf_line,consoleOf_line]
    cases console_ready <;> simp

end

/-! ### The lock -/

inductive Code
  | lock (line : List Send)
  | sending (rest : List Send)
  | unlocked

def stmt : Code → Stmt Output Code Unit
  | .lock l => .acquire (.sending l)
  | .sending (x :: rest) => .atomic fun o => (o.send x,.sending rest)
  | .sending [] => .release .unlocked
  | .unlocked => .answer ()

def place : Code → Place Unit
  | .lock _ => .before
  | .sending _ => .inside
  | .unlocked => .after ()

theorem acquires_inside (k next : Code) (found : stmt k = .acquire next) : place k = .before ∧ place next = .inside := by
  cases k with
  | lock l =>
    cases found
    exact ⟨rfl,rfl⟩
  | sending l => cases l <;> cases found
  | unlocked => cases found

theorem releases_after (k next : Code) (found : stmt k = .release next) : place k = .inside ∧ ∃ r, place next = .after r := by
  cases k with
  | sending l =>
    cases l <;> cases found
    exact ⟨rfl,_,rfl⟩
  | _ => cases found

theorem place_keeps (k : Code) (effect : Output → Output × Code) (found : stmt k = .atomic effect) (o : Output) :
    place (effect o).2 = place k := by
  cases k with
  | sending l => cases l <;> cases found; rfl
  | _ => cases found

theorem answers_after (k : Code) (r : Unit) (found : stmt k = .answer r) : place k = .after r := by
  cases k with
  | sending l => cases l <;> cases found
  | lock l => cases found
  | unlocked => rfl

def klog (console_ready : Bool) : Program Output Entry Code Unit where
  start e := .lock (line console_ready e)
  stmt := stmt
  place := place
  starts _ := rfl
  acquires := acquires_inside
  releases := releases_after
  keeps := place_keeps
  answers := answers_after

/-- Devices on which each call writes its line at once. -/
def log (console_ready : Bool) (initial : Output) : Object Output Entry Unit where
  initial := initial
  serve o e := ((line console_ready e).foldl Output.send o,())

abbrev Machine (Cpu : Type u) := State Cpu Output Entry Code

/-- What a processor in a call has sent of its line. -/
def Own (console_ready : Bool) (written : Output) (o : Output) (e : Entry) : Code → Prop
  | .lock l => l = line console_ready e
  | .sending rest => ∃ sent, sent ++ rest = line console_ready e ∧ o = sent.foldl Output.send written
  | .unlocked => True

structure Represented (console_ready : Bool) (written : Output) (s : Machine Cpu) : Prop where
  free : s.word = 0 → s.shared = written
  own : ∀ i e k, s.thread i = .running e k → Own console_ready written s.shared e k

section
variable [DecidableEq Cpu] {console_ready : Bool} {initial : Output}

theorem represents : Represents (klog console_ready) (log console_ready initial) initial (fun _ _ => True)
    (Represented console_ready : Output → Machine Cpu → Prop) where
  initial s quiet data := by
    refine ⟨fun _ => data,fun i e k thread => ?_⟩
    rw [quiet.thread i] at thread
    cases thread
  call o s i e represented _ _ _ := by
    refine ⟨represented.free,running_moved represented.own ?_ (fun _ _ _ _ _ own => own)⟩
    intro e' k' same
    cases same
    rfl
  acquire o s i e k next represented thread found free _ := by
    refine ⟨by simp,running_moved represented.own ?_ (fun _ _ _ _ _ own => own)⟩
    intro e' k' same
    cases same
    cases k with
    | lock l =>
      cases found
      exact ⟨[],represented.own i e _ thread,represented.free free⟩
    | sending l => cases l <;> cases found
    | unlocked => cases found
  spin o s represented _ := ⟨by simp,represented.own⟩
  atomic o s i e k effect represented thread found exclusive := by
    cases k with
    | sending l =>
      cases l with
      | nil => cases found
      | cons x rest =>
        cases found
        obtain ⟨sent,whole,now⟩ := represented.own i e _ thread
        have holds : Holds (klog console_ready) s i := ⟨e,_,thread,rfl⟩
        refine ⟨fun free => absurd holds (exclusive.free free i),running_moved represented.own ?_ ?_⟩
        · intro e' k' same
          cases same
          exact ⟨sent ++ [x],by simpa using whole,by simp [now]⟩
        · intro j e' k' other thread' own'
          cases k' with
          | sending rest' => exact absurd (exclusive.one j i ⟨e',_,thread',rfl⟩ holds) other
          | _ => exact own'
    | _ => cases found
  release o s i e k next represented thread found exclusive := by
    cases k with
    | sending l =>
      cases l with
      | cons x rest => cases found
      | nil =>
        cases found
        obtain ⟨sent,whole,now⟩ := represented.own i e _ thread
        rw [List.append_nil] at whole
        rw [whole] at now
        refine ⟨rfl,fun _ => now,running_moved represented.own ?_ ?_⟩
        · intro e' k' same
          cases same
          trivial
        · intro j e' k' other thread' own'
          cases k' with
          | sending rest' => exact absurd (exclusive.one j i ⟨e',_,thread',rfl⟩ ⟨e,_,thread,rfl⟩) other
          | _ => exact own'
    | _ => cases found
  answer o s i e k r represented _ _ := by
    refine ⟨represented.free,running_moved represented.own ?_ (fun _ _ _ _ _ own => own)⟩
    intro e' k' same
    cases same

theorem after_eq (entries : List Entry) (o : Output) : (log console_ready initial).after entries o =
    entries.foldl (fun o e => (line console_ready e).foldl Output.send o) o := rfl

/-- The serial port and the console have been sent the same whole lines, with the lines of each processor in its
    order and no other, and then a part of the line of the one processor inside. -/
theorem log_lines_whole {first s : Machine Cpu} {actions : List (Action Cpu Entry Unit)}
    (start : Quiet first ∧ first.shared = initial) (run : ((klog console_ready).system initial).Run first actions s) :
    ∃ (written : List (Cpu × Entry)) (serial : List UInt8) (console : List (UInt8 × Colors)),
      (∀ i, Object.callsOf i (trace Action.event actions) =
        Object.servedOf i written ++ ((klog console_ready).client (s.thread i)).pending) ∧
      s.shared.serial = initial.serial ++ (written.map Prod.snd).flatMap text ++ serial ∧
      s.shared.console = initial.console ++ (if console_ready then (written.map Prod.snd).flatMap colored else []) ++ console ∧
      (s.word = 0 ∧ serial = [] ∧ console = [] ∨
        ∃ i e k, s.thread i = .running e k ∧ place k = .inside ∧ serial <+: text e ∧ console <+: colored e) := by
  have restricted : (((klog console_ready).system initial).restrict (fun _ _ => True)).Run first actions s :=
    run.restricted (fun _ _ _ => trivial)
  obtain ⟨a,b,actions',⟨empty,idle⟩,run',same,follows⟩ := (simulates represents).run start restricted
  obtain ⟨written,value,order⟩ := Object.run_value run'
  rw [empty,after_eq] at value
  obtain ⟨serial,console⟩ := value ▸ @send_lines console_ready (written.map Prod.snd) initial
  have ordered (i : Cpu) : Object.callsOf i (trace Action.event actions) =
      Object.servedOf i written ++ ((klog console_ready).client (s.thread i)).pending := by
    rw [← same,← follows.client i,← order i,idle i]
    rfl
  by_cases free : s.word = 0
  · refine ⟨written,[],[],ordered,?_,?_,.inl ⟨free,rfl,rfl⟩⟩
    · rw [follows.value.free free,serial,List.append_nil]
    · rw [follows.value.free free,console,List.append_nil]
  · obtain ⟨i,e,k,thread,inside⟩ := follows.exclusive.held free
    cases k with
    | sending rest =>
      obtain ⟨sent,whole,now⟩ := follows.value.own i e _ thread
      obtain ⟨sent',sent''⟩ := @send_all b.value sent
      rw [← now] at sent' sent''
      have texts : serialOf sent <+: text e := by
        rw [← @serialOf_line console_ready e,← whole,serialOf_append]
        exact List.prefix_append _ _
      have drawn : consoleOf b.value.colors sent <+: colored e := by
        refine (consoleOf_starts b.value.colors sent rest).trans ?_
        rw [whole,consoleOf_line]
        cases console_ready <;> simp
      refine ⟨written,serialOf sent,consoleOf b.value.colors sent,ordered,?_,?_,.inr ⟨i,e,_,thread,inside,texts,drawn⟩⟩
      · rw [sent',serial]
      · rw [sent'',console]
    | _ => cases inside

end

/-- `klog(LOG_INFO, "a")` -/
def sampleEntry : Entry := ⟨.LOG_INFO,bytes "a" ++ [0],[],[97],[],rfl⟩

def dark : Output := ⟨[],[],textColors⟩

def begun : Machine Bool := ⟨0,dark,fun _ => .idle⟩

/-- One processor waits while the other is at its fourth character. -/
theorem log_lines_whole_two : ∃ (s : Machine Bool) (written : List (Bool × Entry)) (serial : List UInt8)
    (console : List (UInt8 × Colors)), s.shared.serial = bytes "[IN" ∧
      s.shared.serial = [] ++ (written.map Prod.snd).flatMap text ++ serial ∧
      s.shared.console = [] ++ (written.map Prod.snd).flatMap colored ++ console ∧
      (s.word = 0 ∧ serial = [] ∧ console = [] ∨
        ∃ i e k, s.thread i = .running e k ∧ place k = .inside ∧ serial <+: text e ∧ console <+: colored e) := by
  have run : ((klog true).system dark).Run begun
      [.call false sampleEntry,.call true sampleEntry,.step false,.step true,.step false,.step false,.step false] _ :=
    System.run_of_foldlM rfl
  obtain ⟨written,serial,console,_,sent,drawn,part⟩ :=
    @log_lines_whole Bool _ true dark begun _ _ ⟨⟨rfl,fun _ => rfl⟩,rfl⟩ run
  exact ⟨_,written,serial,console,rfl,sent,drawn,part⟩

end NekoOs.LogLines
