import Mathlib.Data.Int.Notation
import Mathlib.Data.Nat.Notation

/-! The console (`kernel_console.c`): `console_write` with its escape sequences, and the buffer of
character cells. A write outside the buffer has no result. Drawing is left out.
-/

namespace UnstableOS.Kernel.Console

-- Numbers

/-- The `int` a result wraps around to. -/
def int32 (n : ℤ) : ℤ := (n + 2147483648) % 4294967296 - 2147483648

/-- An `int` as an `unsigned int`. -/
def uint32 (n : ℤ) : ℤ := n % 4294967296

/-- The `long long` a result wraps around to. -/
def int64 (n : ℤ) : ℤ := (n + 9223372036854775808) % 18446744073709551616 - 9223372036854775808

def LONG_MAX : ℤ := 2147483647
def LLONG_MAX : ℤ := 9223372036854775807

/-- The loop of `strtoll` for base 10; letters have a value above the base. -/
def strtollLoop (acc : ℤ) : List Char → ℤ × List Char
  | [] => (acc, [])
  | c :: rest =>
    if c.isDigit then
      let next := int64 (acc * 10 + (c.toNat - 48))
      strtollLoop (if next < acc then LLONG_MAX else next) rest
    else (acc, c :: rest)

/-- `strtol` for base 10 on a text that starts with a digit: the number and what is behind it. -/
def strtol (text : List Char) : ℤ × List Char :=
  let (val, rest) := strtollLoop 0 text
  (if val > LONG_MAX then LONG_MAX else val, rest)

-- The state

/-- `struct character_cell`. -/
structure Cell where
  c : Char
  italic : Bool
  overline : Bool
  underline : Bool
  overstrike : Bool
  fg : ℤ
  bg : ℤ
deriving DecidableEq

/-- A cell of a buffer that is all zero. -/
def Cell.zero : Cell := ⟨'\x00', false, false, false, false, 0, 0⟩

/-- `display_width_chars` and `display_height_chars`, for which the size of the buffer in bytes is
one that `kalloc` can be asked for.
-/
structure Screen where
  width : ℕ
  height : ℕ
  width_pos : 0 < width
  height_pos : 0 < height
  fits : 12 * width * height < 4294967296

/-- Whether the kernel is in `early_init`, and whether there is a `current_process`. -/
structure Env where
  earlyInit : Bool
  currentProcess : Bool

def CONSOLE_COLOR_BLACK : ℤ := 0
def CONSOLE_COLOR_WHITE : ℤ := 7
def MAX_ANSI_SEQUENCE : ℕ := 16
def TTY_TAB_WIDTH : ℤ := 8

/-- The variables of the console, with those of `ansi_escape_state_machine` at the end. The sequence
has the characters read so far; there is none while `read_chars` is -1.
-/
structure State where
  x : ℤ := 0
  y : ℤ := 0
  savedX : ℤ := 0
  savedY : ℤ := 0
  colorFg : ℤ := CONSOLE_COLOR_WHITE
  colorBg : ℤ := CONSOLE_COLOR_BLACK
  reversedColors : Bool := false
  italic : Bool := false
  overline : Bool := false
  underline : Bool := false
  overstrike : Bool := false
  applicationCursor : Bool := false
  autowrap : Bool := true
  insert : Bool := false
  lfMode : Bool := false
  cursorShown : Bool := true
  cursorBlinking : Bool := true
  buffer : Option (List Cell) := none
  bufferW : ℤ := 0
  bufferH : ℤ := 0
  scrollRegionStart : ℤ := 0
  scrollRegionEnd : ℤ := 0
  waiting : Bool := false
  sequence : Option (List Char) := none

namespace State

-- The buffer

variable (s : State)

/-- `console_buffer[index] = cell`. -/
def store (index : ℤ) (cell : Cell) : Option State :=
  match s.buffer with
  | none => none
  | some cells =>
    if 0 ≤ index ∧ index < cells.length then
      some { s with buffer := some (cells.set index.toNat cell) }
    else none

/-- Some cells of a buffer are overwritten. -/
def overwrite (cells : List Cell) (first : ℕ) (piece : List Cell) : List Cell :=
  cells.take first ++ piece ++ cells.drop (first + piece.length)

/-- `memcpy` and `memmove` of cells from one buffer to another. -/
def copyCells (target source : List Cell) (dst src count : ℤ) : Option (List Cell) :=
  if 0 ≤ dst ∧ 0 ≤ src ∧ 0 ≤ count ∧ dst + count ≤ target.length ∧ src + count ≤ source.length then
    some (overwrite target dst.toNat ((source.drop src.toNat).take count.toNat))
  else none

/-- `memcpy` and `memmove` inside the buffer. -/
def copy (dst src count : ℤ) : Option State :=
  match s.buffer with
  | none => none
  | some cells =>
    (copyCells cells cells dst src count).map fun cells => { s with buffer := some cells }

/-- `memset` of cells to zero. -/
def clear (start count : ℤ) : Option State :=
  match s.buffer with
  | none => none
  | some cells =>
    if 0 ≤ start ∧ 0 ≤ count ∧ start + count ≤ cells.length then
      some { s with
        buffer := some (overwrite cells start.toNat (List.replicate count.toNat .zero)) }
    else none

/-- The index of a cell. -/
def index (x y : ℤ) : ℤ := int32 (y * s.bufferW + x)

/-- A loop that sets a number of cells of a line. -/
def fillLine (cell : Cell) (y : ℤ) : ℕ → ℤ → State → Option State
  | 0, _, s => some s
  | n + 1, x, s => (s.store (s.index x y) cell).bind (fillLine cell y n (x + 1))

/-- `for (int x = from; x < to; x++)`, a loop over the cells of a line. -/
def fillFrom (cell : Cell) (y start stop : ℤ) : Option State :=
  fillLine cell y (stop - start).toNat start s

/-- Loops over a number of lines and all their cells. -/
def fillLines (cell : Cell) : ℕ → ℤ → State → Option State
  | 0, _, s => some s
  | n + 1, y, s => (s.fillFrom cell y 0 s.bufferW).bind (fillLines cell n (y + 1))

/-- `for (int y = from; y < to; y++)`, with a loop over the cells of each line. -/
def fillLinesFrom (cell : Cell) (start stop : ℤ) : Option State :=
  fillLines cell (stop - start).toNat start s

variable (screen : Screen)

/-- The part of `console_set_char` for another resolution: as much as fits of the last lines of the
buffer is moved to a new one.
-/
def resize (s : State) (cells : List Cell) : Option State :=
  let endY := max 0 (int32 (s.bufferH - screen.height))
  let newLineLength := if uint32 s.bufferW > screen.width then int32 screen.width else s.bufferW
  let lines := (List.range (s.bufferH - endY).toNat).reverse
  let copied := lines.foldlM (fun fresh (line : ℕ) =>
      copyCells fresh cells (int32 (line * screen.width)) (int32 ((endY + line) * s.bufferW))
        newLineLength)
    (List.replicate (screen.width * screen.height) .zero)
  copied.map fun fresh =>
    { s with buffer := some fresh, bufferW := int32 screen.width, bufferH := int32 screen.height }

/-- The part of `console_set_char` that makes the buffer, or one for another resolution. -/
def ensureBuffer (s : State) : Option State :=
  match s.buffer with
  | none =>
    some { s with
      buffer := some (List.replicate (screen.width * screen.height) .zero)
      bufferW := int32 screen.width
      bufferH := int32 screen.height }
  | some cells =>
    if uint32 s.bufferW ≠ screen.width ∨ uint32 s.bufferH ≠ screen.height then
      s.resize screen cells
    else some s

/-- `console_set_char`. The arguments are compared with the screen as unsigned numbers. -/
def consoleSetChar (env : Env) (s : State) (x y : ℤ) (c : Char)
    : Option State :=
  if uint32 x ≥ screen.width then some s
  else if uint32 y ≥ screen.height then some s
  else if !env.currentProcess then some s
  else
    (s.ensureBuffer screen).bind fun s =>
      if x ≥ s.bufferW ∨ y ≥ s.bufferH then some s
      else
        let inserted :=
          if s.insert then s.copy (s.index x y + 1) (s.index x y) (s.bufferW - x - 1) else some s
        inserted.bind fun s => s.store (s.index x y)
            ⟨c, s.italic, s.overline, s.underline, s.overstrike, s.colorFg, s.colorBg⟩

variable (env : Env)

/-- `current_process && console_buffer != NULL`. -/
def hasBuffer (s : State) : Bool := env.currentProcess && s.buffer.isSome

/-- `console_scroll`. -/
def consoleScroll (env : Env) (s : State) : Option State :=
  if !s.hasBuffer env then some s
  else
    let s := if uint32 s.scrollRegionStart > screen.height then
        { s with scrollRegionStart := int32 screen.height } else s
    let s := if uint32 s.scrollRegionEnd > screen.height then
        { s with scrollRegionEnd := int32 screen.height } else s
    let w := s.bufferW
    let lines := s.scrollRegionEnd - s.scrollRegionStart
    if s.scrollRegionStart = 0 then
      (s.copy 0 w ((s.bufferH - 1) * w)).bind fun s => s.clear ((s.bufferH - 1) * w) w
    else
      (s.copy ((s.scrollRegionStart - 1) * w) (s.scrollRegionStart * w) (lines * w)).bind
        fun s => s.clear (lines * w) w

-- Escape sequences

/-- The cell that is put in erased places. -/
def blank : Cell := ⟨' ', false, false, false, false, s.colorFg, s.colorBg⟩

/-- The cursor is brought back from behind the buffer. -/
def clampEnd : State :=
  { s with
    y := if s.y ≥ s.bufferH then int32 (s.bufferH - 1) else s.y
    x := if s.x ≥ s.bufferW then int32 (s.bufferW - 1) else s.x }

/-- The cursor is brought back into the buffer. -/
def clampCursor : State :=
  let s := s.clampEnd
  { s with y := if s.y < 0 then 0 else s.y, x := if s.x < 0 then 0 else s.x }

def resetGraphics : State :=
  { s with
    colorFg := CONSOLE_COLOR_WHITE, colorBg := CONSOLE_COLOR_BLACK, reversedColors := false
    italic := false, overline := false, underline := false, overstrike := false }

def eraseCursorLineEnd (s : State) : Option State :=
  if s.hasBuffer env then
    let s := s.clampCursor
    s.fillFrom s.blank s.y s.x (s.bufferW - s.x)
  else some s

/-- What is below the cursor is erased, and then the end of the line as well. -/
def eraseCursorScreenEnd (s : State) : Option State :=
  let erased :=
    if s.hasBuffer env then
      let s := s.clampCursor
      (s.fillFrom s.blank s.y s.x (s.bufferW - s.x)).bind fun s =>
        s.fillLinesFrom s.blank (s.y + 1) (s.bufferH - s.y)
    else some s
  erased.bind (eraseCursorLineEnd env)

def eraseScreenBeginCursor (s : State) : Option State :=
  if s.hasBuffer env then
    let s := s.clampCursor
    (s.fillLinesFrom s.blank 0 s.y).bind fun s => s.fillFrom s.blank s.y 0 s.x
  else some s

def eraseScreen (s : State) : Option State :=
  if s.hasBuffer env then s.fillLinesFrom s.blank 0 s.bufferH else some s

def eraseLineBeginCursor (s : State) : Option State :=
  if s.hasBuffer env then
    let s := s.clampCursor
    s.fillFrom s.blank s.y 0 s.x
  else some s

def eraseLine (s : State) : Option State :=
  if s.hasBuffer env then
    let s := s.clampEnd
    s.fillFrom s.blank s.y 0 s.bufferW
  else some s

def scrollUp (s : State) (id : ℤ) : Option State :=
  if s.hasBuffer env then
    let id := if id > s.bufferH then s.bufferH else id
    let w := s.bufferW
    (s.copy 0 (id * w) ((s.bufferH - id) * w)).bind fun s =>
      s.fillLinesFrom s.blank (s.bufferH - id) s.bufferH
  else some s

/-- The lines below the cursor are erased as well. -/
def scrollDown (s : State) (id : ℤ) : Option State :=
  if s.hasBuffer env then
    let id := if id > s.bufferH then s.bufferH else id
    let s := { s with y := if s.y ≥ s.bufferH then int32 (s.bufferH - 1) else s.y }
    let w := s.bufferW
    (s.copy (id * w) 0 ((s.bufferH - id) * w)).bind fun s =>
      (s.fillLinesFrom s.blank 0 id).bind fun s =>
        if s.y < s.bufferH then s.fillLinesFrom s.blank (s.y + 1) s.bufferH else some s
  else some s

/-- The two colours are exchanged. -/
def swapColors : State := { s with colorFg := s.colorBg, colorBg := s.colorFg }

/-- The graphics rendition modes. -/
def graphicsRendition (id : ℤ) : State :=
  match id with
  | 0 => s.resetGraphics
  | 3 => { s with italic := true }
  | 23 => { s with italic := false }
  | 4 => { s with underline := true }
  | 24 => { s with underline := false }
  | 7 => { s.swapColors with reversedColors := true }
  | 9 => { s with overstrike := true }
  | 29 => { s with overstrike := false }
  | 27 => if s.reversedColors then s.swapColors else s
  | 39 => { s with colorFg := CONSOLE_COLOR_WHITE }
  | 49 => { s with colorBg := CONSOLE_COLOR_BLACK }
  | 53 => { s with overline := true }
  | 55 => { s with overline := false }
  | id =>
    if 30 ≤ id ∧ id ≤ 37 then { s with colorFg := id - 30 }
    else if 40 ≤ id ∧ id ≤ 47 then { s with colorBg := id - 40 }
    else if 90 ≤ id ∧ id ≤ 97 then { s with colorFg := id - 90 + 8 }
    else if 100 ≤ id ∧ id ≤ 107 then { s with colorBg := id - 90 + 8 }
    else s

/-- The modes behind `?`. -/
def privateMode (id : ℤ) (csi : Char) : State :=
  match id, csi with
  | 1, 'h' => { s with applicationCursor := true }
  | 1, 'l' => { s with applicationCursor := false }
  | 7, 'h' => { s with autowrap := true }
  | 7, 'l' => { s with autowrap := false }
  | 12, 'h' => { s with cursorBlinking := true }
  | 12, 'l' => { s with cursorBlinking := false }
  | 25, 'h' => { s with cursorShown := true }
  | 25, 'l' => { s with cursorShown := false }
  | _, _ => s

/-- The modes 4 and 20. -/
def setMode (id : ℤ) (on : Bool) : State :=
  match id with
  | 4 => { s with insert := on }
  | 20 => { s with lfMode := on }
  | _ => s

/-- A coordinate moves back, to 0 at most. -/
def moveBack (position id : ℤ) : ℤ := if position > id then int32 (position - id) else 0

/-- A coordinate moves on, to the last one at most. The sum is compared as an unsigned number. -/
def moveOn (position id last : ℤ) : ℤ :=
  if uint32 (int32 (position + id)) > last then int32 last else int32 (position + id)

/-- A coordinate is set, to the last one at most. -/
def moveTo (id last : ℤ) : ℤ := if uint32 id > last then int32 last else id

/-- `[<start>;<end>r`. -/
def setScrollRegion (s : State) (id id2 : ℤ) : State :=
  if id < 0 ∨ id2 < 0 ∨ id2 < id ∨ (id2 = id ∧ id ≠ 0) then s
  else
    { s with
      scrollRegionStart := if uint32 id > screen.height then int32 screen.height else id
      scrollRegionEnd := if uint32 id2 > screen.height then int32 screen.height else id2
      x := 0
      y := 0 }

/-- The sequences of one character; the others are told apart later. -/
def oneChar (env : Env) (s : State) (csi : Char) : Option (Option State) :=
  match csi with
  | 'm' => some (some s.resetGraphics)
  | 'J' => some (s.eraseCursorScreenEnd env)
  | 'K' => some (s.eraseCursorLineEnd env)
  | 's' => some (some { s with savedX := s.x, savedY := s.y })
  | 'u' =>
    some (some { s with
      x := int32 (uint32 s.savedX % screen.width), y := int32 (uint32 s.savedY % screen.height) })
  | 'H' => some (some { s with x := 0, y := 0 })
  | 'A' => some (some (if s.y > 0 then { s with y := s.y - 1 } else s))
  | 'B' =>
    some (some (if uint32 s.y < screen.height - 1 then { s with y := int32 (s.y + 1) } else s))
  | 'C' =>
    some (some (if uint32 s.x < screen.width - 1 then { s with x := int32 (s.x + 1) } else s))
  | 'D' => some (some (if s.x > 0 then { s with x := s.x - 1 } else s))
  | _ => none

/-- The sequences with one number, but for those with `;` behind it. -/
def oneParam (env : Env) (s : State) (id : ℤ) (csi : Char) : Option State :=
  let lastColumn : ℤ := screen.width - 1
  let lastLine : ℤ := screen.height - 1
  match csi with
  | 'l' => some (s.setMode id false)
  | 'h' => some (s.setMode id true)
  | 'S' => s.scrollUp env id
  | 'T' => s.scrollDown env id
  | 'm' => some (s.graphicsRendition id)
  | 'J' =>
    match id with
    | 0 => s.eraseCursorScreenEnd env
    | 1 => s.eraseScreenBeginCursor env
    | 2 => s.eraseScreen env
    | _ => some s
  | 'K' =>
    match id with
    | 0 => s.eraseCursorLineEnd env
    | 1 => s.eraseLineBeginCursor env
    | 2 => s.eraseLine env
    | _ => some s
  | 'F' => some { s with x := 0, y := moveBack s.y id }
  | 'A' => some { s with y := moveBack s.y id }
  | 'E' => some { s with x := 0, y := moveOn s.y id lastLine }
  | 'a' => some { s with y := moveOn s.y id lastLine }
  | 'B' => some { s with y := moveOn s.y id lastLine }
  | 'k' => some { s with x := moveOn s.x id lastColumn }
  | 'C' => some { s with x := moveOn s.x id lastColumn }
  | 'j' => some { s with x := moveBack s.x id }
  | 'D' => some { s with x := moveBack s.x id }
  | 'G' => some { s with x := moveTo id lastColumn }
  | 'd' => some { s with y := moveTo id lastLine }
  | _ => some s

/-- The sequences with two numbers. -/
def twoParams (s : State) (id id2 : ℤ) (csi : Char) : State :=
  match csi with
  | 'H' => { s with y := moveTo id (screen.height - 1), x := moveTo id2 (screen.width - 1) }
  | 'f' => { s with y := moveTo id (screen.height - 1), x := moveTo id2 (screen.width - 1) }
  | 'r' => s.setScrollRegion screen id id2
  | _ => s

/-- The character a text starts with. -/
def firstChar (text : List Char) : Char := text.headD '\x00'

/-- `handle_ansi_escapes` from the label `ansi1params` on, for the text behind `[`. -/
def numbered (env : Env) (s : State) (text : List Char) : Option State :=
  if !(firstChar text).isDigit then some s
  else
    let (id, behind) := strtol text
    if firstChar behind = ';' then
      if !(firstChar behind.tail).isDigit then some s
      else
        let (id2, behind) := strtol behind.tail
        some (s.twoParams screen id id2 (firstChar behind))
    else s.oneParam screen env id (firstChar behind)

/-- `handle_ansi_escapes`. -/
def handleAnsiEscapes (env : Env) (s : State) (ansiSequence : List Char)
    : Option State :=
  if firstChar ansiSequence ≠ '[' then some s
  else if env.earlyInit then some s
  else
    let text := ansiSequence.tail
    match s.oneChar screen env (firstChar text) with
    | some result => result
    | none =>
      if firstChar text ≠ '?' then s.numbered screen env text
      else if !(firstChar text.tail).isDigit then some s
      else
        let (id, behind) := strtol text.tail
        some (s.privateMode id (firstChar behind))

def isprint (c : Char) : Bool := ' ' ≤ c && c ≤ '~'

/-- The characters after the escape character that begin a sequence. -/
def introducers : List Char := ['[', ']', '(', ')', '~']

/-- The characters that end a sequence. -/
def terminates (c : Char) : Bool :=
  ('A' ≤ c && c ≤ 'Z') || ('a' ≤ c && c ≤ 'z') || c = '@' || c = '\x60'

/-- `ansi_escape_state_machine`, with whether it has taken the character. -/
def ansiEscapeStateMachine (env : Env) (s : State) (c : Char)
    : Option (State × Bool) :=
  if c = '\x1b' then some ({ s with waiting := true, sequence := none }, true)
  else if !s.waiting then some (s, false)
  else if s.sequence = none ∧ c ∉ introducers then some ({ s with waiting := false }, false)
  else
    let sequence := s.sequence.getD []
    if sequence.length ≥ MAX_ANSI_SEQUENCE ∨ !isprint c then
      some ({ s with waiting := false, sequence := some sequence }, false)
    else
      let sequence := sequence ++ [c]
      if terminates c then
        let s := { s with waiting := false, sequence := some sequence }
        (s.handleAnsiEscapes screen env sequence).map fun s => (s, true)
      else some ({ s with sequence := some sequence }, true)

-- Writing

def backspace (s : State) : State :=
  if !s.hasBuffer env then s
  else
    let s := s.clampCursor
    if s.x ≤ 0 then
      if s.y ≤ 0 then s else { s with y := s.y - 1, x := int32 (s.bufferW - 1) }
    else { s with x := s.x - 1 }

/-- The label `new_line`. -/
def newLine (env : Env) (s : State) : Option State :=
  if s.scrollRegionStart ≠ 0 then
    if s.y ≥ int32 (s.scrollRegionEnd - 1) then
      { s with y := int32 (s.scrollRegionEnd - 1) }.consoleScroll screen env
    else some { s with y := int32 (s.y + 1) }
  else
    let moved :=
      if uint32 s.y ≥ screen.height - 1 then
        { s with y := int32 (screen.height - 1) }.consoleScroll screen env
      else some { s with y := int32 (s.y + 1) }
    moved.map fun s => if s.lfMode then { s with x := 0 } else s

/-- A character that is no control character is put at the cursor. -/
def putChar (env : Env) (s : State) (c : Char) : Option State :=
  (s.consoleSetChar screen env s.x s.y c).bind fun s =>
    if uint32 s.x ≥ screen.width - 1 then
      if !s.autowrap then some { s with x := int32 (screen.width - 1) }
      else { s with x := 0 }.newLine screen env
    else some { s with x := int32 (s.x + 1) }

/-- The body of the loop of `console_write`, with what is done for a tab. -/
def writeChar (env : Env) (tab : State → Option State) (s : State) (c : Char)
    : Option State :=
  (s.ansiEscapeStateMachine screen env c).bind fun (s, taken) =>
    if taken then some s
    else
      match c with
      | '\x0d' => some { s with x := 0 }
      | '\x08' => some (s.backspace env)
      | '\x0a' => s.newLine screen env
      | '\x0b' => s.newLine screen env
      | '\x09' => tab s
      | c => s.putChar screen env c

/-- `console_write` of a number of spaces. -/
def writeSpaces (screen : Screen) (env : Env) : ℕ → State → Option State
  | 0, s => some s
  | n + 1, s => (s.writeChar screen env some ' ').bind (writeSpaces screen env n)

/-- `console_write` of one byte. -/
def consoleWrite (s : State) (call : Env × UInt8) : Option State :=
  s.writeChar screen call.1
    (fun s => writeSpaces screen call.1 (TTY_TAB_WIDTH - s.x.tmod TTY_TAB_WIDTH).toNat s)
    (Char.ofNat call.2.toNat)

/-- The console before the first write. -/
def initial : State := {}

end State

end UnstableOS.Kernel.Console
