import Mathlib.Tactic.Linarith
import UnstableOS.Kernel.Console.Code
import UnstableOS.Lib.Total

/-! The cursor stays on the screen and nothing is written outside the buffer, for every byte
sequence.
-/

namespace UnstableOS.Kernel.Console

open Lib State Int List Nat

-- Numbers

/-- The number read is never negative: a sum that wraps around below the sum before it is replaced.
-/
theorem strtollLoop_nonneg {acc} (nonneg : 0 ≤ acc) (text : List Char)
    : 0 ≤ (strtollLoop acc text).1 := by
  induction text generalizing acc with
  | nil => exact nonneg
  | cons c rest ih =>
    simp only [strtollLoop]
    split
    · apply ih
      split
      · decide
      next notBelow => exact le_trans nonneg (not_lt.mp notBelow)
    · exact nonneg

theorem strtol_bounds (text : List Char)
    : 0 ≤ (strtol text).1 ∧ (strtol text).1 ≤ LONG_MAX := by
  have nonneg := strtollLoop_nonneg (le_refl 0) text
  simp only [strtol]
  split
  · decide
  next small => exact ⟨nonneg, not_lt.mp small⟩

section Moves
variable {position id size : ℤ}

theorem moveBack_bounds (within : 0 ≤ position ∧ position < size) (small : size ≤ 2147483648)
    (number : 0 ≤ id ∧ id ≤ LONG_MAX)
    : 0 ≤ moveBack position id ∧ moveBack position id < size := by
  unfold moveBack int32
  split <;> omega

/-- A sum that wraps around is negative, and above the last position as an unsigned number. -/
theorem moveOn_bounds (id : ℤ) (within : 0 ≤ position ∧ position < size) (small : size ≤ 2147483648)
    : 0 ≤ moveOn position id (size - 1) ∧ moveOn position id (size - 1) < size := by
  unfold moveOn uint32 int32
  split <;> omega

theorem moveTo_bounds (nonempty : 0 < size) (small : size ≤ 2147483648)
    (number : 0 ≤ id ∧ id ≤ LONG_MAX)
    : 0 ≤ moveTo id (size - 1) ∧ moveTo id (size - 1) < size := by
  unfold LONG_MAX at number
  unfold moveTo uint32 int32
  split <;> omega

end Moves

theorem Screen.cells_small (screen : Screen) : screen.width * screen.height < 2147483648 := by
  have fits := screen.fits
  rw [mul_assoc] at fits
  omega

theorem Screen.width_small (screen : Screen) : (screen.width : ℤ) < 2147483648 := by
  have atLeast := Nat.le_mul_of_pos_right screen.width screen.height_pos
  have small := screen.cells_small
  omega

theorem Screen.height_small (screen : Screen) : (screen.height : ℤ) < 2147483648 := by
  have atLeast := Nat.le_mul_of_pos_left screen.height screen.width_pos
  have small := screen.cells_small
  omega

-- The invariant

/-- (Within screen s) holds when the cursor is on the screen, the scroll region has lines of it, and
the buffer has its size.
-/
structure Within (screen : Screen) (s : State) : Prop where
  column : 0 ≤ s.x ∧ s.x < screen.width
  line : 0 ≤ s.y ∧ s.y < screen.height
  region : 0 ≤ s.scrollRegionStart ∧ s.scrollRegionStart ≤ s.scrollRegionEnd
    ∧ s.scrollRegionEnd ≤ screen.height
  buffer : ∀ cells, s.buffer = some cells → s.bufferW = screen.width ∧ s.bufferH = screen.height
    ∧ cells.length = screen.width * screen.height

/-- There is a buffer as well. -/
structure Ready (screen : Screen) (s : State) : Prop extends Within screen s where
  hasCells : s.buffer.isSome

variable {screen : Screen} {env : Env} {s : State}

theorem Within.initial (screen : Screen) : Within screen .initial :=
  ⟨⟨le_refl 0, natCast_pos.mpr screen.width_pos⟩, ⟨le_refl 0, natCast_pos.mpr screen.height_pos⟩,
    ⟨le_refl 0, le_refl 0, natCast_nonneg _⟩, nofun⟩

theorem Within.moved (within : Within screen s) {x y : ℤ} (column : 0 ≤ x ∧ x < screen.width)
    (line : 0 ≤ y ∧ y < screen.height)
    : Within screen { s with x := x, y := y } :=
  ⟨column, line, within.region, within.buffer⟩

theorem Within.ready (within : Within screen s)
    (has : s.hasBuffer env = true) : Ready screen s := by
  exact ⟨within, (Bool.and_eq_true_iff.mp has).2⟩

namespace Ready

section
variable (ready : Ready screen s)
include ready

theorem size
    : ∃ cells, s.buffer = some cells ∧ s.bufferW = screen.width ∧ s.bufferH = screen.height
        ∧ cells.length = screen.width * screen.height := by
  obtain ⟨cells, isBuffer⟩ := Option.isSome_iff_exists.mp ready.hasCells
  exact ⟨cells, isBuffer, ready.buffer cells isBuffer⟩

theorem width : s.bufferW = screen.width := by
  obtain ⟨_, _, width, _⟩ := ready.size
  exact width

theorem height : s.bufferH = screen.height := by
  obtain ⟨_, _, _, height, _⟩ := ready.size
  exact height

theorem drawn {cells} (length : cells.length = screen.width * screen.height)
    : Ready screen { s with buffer := some cells } := by
  refine ⟨⟨ready.column, ready.line, ready.region, fun _ isBuffer => ?_⟩, rfl⟩
  cases isBuffer
  exact ⟨ready.width, ready.height, length⟩

/-- The index of a cell on the screen is one of the buffer. -/
theorem index_bounds {x y : ℤ} (column : 0 ≤ x ∧ x < screen.width)
    (line : 0 ≤ y ∧ y < screen.height)
    : s.index x y = y * screen.width + x ∧ 0 ≤ y * screen.width + x
        ∧ y * screen.width + x < screen.width * screen.height := by
  have small : (screen.width : ℤ) * screen.height < 2147483648 := by
    exact_mod_cast screen.cells_small
  have nonneg : 0 ≤ y * screen.width := mul_nonneg line.1 (natCast_nonneg _)
  have below : (y + 1) * screen.width ≤ screen.height * screen.width :=
    mul_le_mul_of_nonneg_right (by omega) (natCast_nonneg _)
  rw [add_mul, one_mul, mul_comm (screen.height : ℤ)] at below
  rw [index, ready.width, int32]
  omega

-- Writes to the buffer

theorem store {x y : ℤ} (cell : Cell) (column : 0 ≤ x ∧ x < screen.width)
    (line : 0 ≤ y ∧ y < screen.height)
    : Total (s.store (s.index x y) cell) (Ready screen) := by
  obtain ⟨cells, isBuffer, _, _, length⟩ := ready.size
  obtain ⟨isIndex, nonneg, below⟩ := ready.index_bounds column line
  have inside : 0 ≤ s.index x y ∧ s.index x y < cells.length := by
    rw [isIndex, length]
    exact_mod_cast And.intro nonneg below
  simp only [State.store, isBuffer, if_pos inside]
  exact .result (ready.drawn (by rw [length_set, length]))

end

theorem length_overwrite {cells piece first} (inside : first + piece.length ≤ cells.length)
    : (State.overwrite cells first piece).length = cells.length := by
  simp only [State.overwrite, length_append, length_take, length_drop]
  omega

section
variable (ready : Ready screen s)
include ready

variable {dst src count start y stop : ℤ}

theorem copy (target : 0 ≤ dst) (source : 0 ≤ src)
    (nonneg : 0 ≤ count) (targetEnd : dst + count ≤ screen.width * screen.height)
    (sourceEnd : src + count ≤ screen.width * screen.height)
    : Total (s.copy dst src count) (Ready screen) := by
  obtain ⟨cells, isBuffer, _, _, length⟩ := ready.size
  have size : (cells.length : ℤ) = screen.width * screen.height := by exact_mod_cast length
  have inside : 0 ≤ dst ∧ 0 ≤ src ∧ 0 ≤ count ∧ dst + count ≤ cells.length
      ∧ src + count ≤ cells.length :=
    ⟨target, source, nonneg, size ▸ targetEnd, size ▸ sourceEnd⟩
  simp only [State.copy, isBuffer, copyCells, if_pos inside]
  refine .result (ready.drawn ?_)
  rw [length_overwrite, length]
  rw [length_take, length_drop]
  omega

theorem clear (first : 0 ≤ start) (nonneg : 0 ≤ count)
    (last : start + count ≤ screen.width * screen.height)
    : Total (s.clear start count) (Ready screen) := by
  obtain ⟨cells, isBuffer, _, _, length⟩ := ready.size
  have size : (cells.length : ℤ) = screen.width * screen.height := by exact_mod_cast length
  have inside : 0 ≤ start ∧ 0 ≤ count ∧ start + count ≤ cells.length :=
    ⟨first, nonneg, size ▸ last⟩
  simp only [State.clear, isBuffer, if_pos inside]
  refine .result (ready.drawn ?_)
  rw [length_overwrite, length]
  rw [length_replicate]
  omega

theorem fillLine (cell : Cell)
    (line : 0 ≤ y ∧ y < screen.height) (n : ℕ) {x : ℤ} (first : 0 ≤ x) (last : x + n ≤ screen.width)
    : Total (fillLine cell y n x s) (Ready screen) := by
  induction n generalizing x s with
  | zero => exact .result ready
  | succ n ih =>
    exact (ready.store cell ⟨first, by omega⟩ line).bind fun s ready =>
      ih ready (by omega) (by omega)

theorem fillFrom (cell : Cell)
    (line : 0 ≤ y ∧ y < screen.height) (first : 0 ≤ start) (begin : start ≤ screen.width)
    (last : stop ≤ screen.width)
    : Total (s.fillFrom cell y start stop) (Ready screen) :=
  ready.fillLine cell line _ first (by omega)

theorem fillLines (cell : Cell) (n : ℕ) (first : 0 ≤ y) (last : y + n ≤ screen.height)
    : Total (fillLines cell n y s) (Ready screen) := by
  induction n generalizing y s with
  | zero => exact .result ready
  | succ n ih =>
    have wide := le_of_eq ready.width
    exact (ready.fillFrom cell ⟨first, by omega⟩ (le_refl 0) (natCast_nonneg _) wide).bind
      fun s ready => ih ready (by omega) (by omega)

theorem fillLinesFrom (cell : Cell) (first : 0 ≤ start)
    (begin : start ≤ screen.height) (last : stop ≤ screen.height)
    : Total (s.fillLinesFrom cell start stop) (Ready screen) :=
  ready.fillLines cell _ first (by omega)

/-- Whole lines are copied. -/
theorem copyLines {lines} (target : 0 ≤ dst) (source : 0 ≤ src)
    (nonneg : 0 ≤ lines) (targetEnd : dst + lines ≤ screen.height)
    (sourceEnd : src + lines ≤ screen.height)
    : Total (s.copy (dst * s.bufferW) (src * s.bufferW) (lines * s.bufferW)) (Ready screen) := by
  have wide : (0 : ℤ) ≤ screen.width := natCast_nonneg _
  rw [ready.width]
  refine ready.copy (mul_nonneg target wide) (mul_nonneg source wide) (mul_nonneg nonneg wide) ?_ ?_
  · rw [← add_mul, mul_comm (screen.width : ℤ)]
    exact mul_le_mul_of_nonneg_right targetEnd wide
  · rw [← add_mul, mul_comm (screen.width : ℤ)]
    exact mul_le_mul_of_nonneg_right sourceEnd wide

/-- A whole line is cleared. -/
theorem clearLine {line : ℤ} (first : 0 ≤ line) (last : line < screen.height)
    : Total (s.clear (line * s.bufferW) s.bufferW) (Ready screen) := by
  have wide : (0 : ℤ) ≤ screen.width := natCast_nonneg _
  rw [ready.width]
  refine ready.clear (mul_nonneg first wide) wide ?_
  calc line * screen.width + screen.width = (line + 1) * screen.width := by
        rw [add_mul, one_mul]
    _ ≤ screen.height * screen.width := mul_le_mul_of_nonneg_right last wide
    _ = screen.width * screen.height := mul_comm _ _

theorem clampEnd_eq : s.clampEnd = s := by
  obtain ⟨⟨_, column⟩, ⟨_, line⟩⟩ := And.intro ready.column ready.line
  rw [← ready.width] at column
  rw [← ready.height] at line
  simp [clampEnd, if_neg (not_le.mpr column), if_neg (not_le.mpr line)]

theorem clampCursor_eq : s.clampCursor = s := by
  have column := not_lt.mpr ready.column.1
  have line := not_lt.mpr ready.line.1
  simp [clampCursor, ready.clampEnd_eq, if_neg column, if_neg line]

end

end Ready

-- Each function keeps it

namespace Within

section
variable (within : Within screen s)
include within

variable {program : Option State} {id id2 : ℤ}

theorem of_hasBuffer (draws : Ready screen s → Total program (Ready screen))
    : Total (if s.hasBuffer env then program else some s) (Within screen) :=
  .ite (fun has => (draws (within.ready has)).mono fun _ => Ready.toWithin)
    fun _ => .result within

theorem eraseCursorLineEnd : Total (s.eraseCursorLineEnd env) (Within screen) := by
  refine within.of_hasBuffer fun ready => ?_
  simp only [ready.clampCursor_eq]
  have wide := ready.width
  have column := ready.column
  exact ready.fillFrom _ ready.line column.1 (by omega) (by omega)

theorem eraseCursorScreenEnd : Total (s.eraseCursorScreenEnd env) (Within screen) := by
  refine Total.bind (within.of_hasBuffer fun ready => ?_) fun s => eraseCursorLineEnd
  simp only [ready.clampCursor_eq]
  have wide := ready.width
  have column := ready.column
  refine (ready.fillFrom _ ready.line column.1 (by omega) (by omega)).bind fun s ready => ?_
  have high := ready.height
  have line := ready.line
  exact ready.fillLinesFrom _ (by omega) (by omega) (by omega)

theorem eraseScreenBeginCursor : Total (s.eraseScreenBeginCursor env) (Within screen) := by
  refine within.of_hasBuffer fun ready => ?_
  simp only [ready.clampCursor_eq]
  have line := ready.line
  refine (ready.fillLinesFrom _ (le_refl 0) (by omega) (by omega)).bind fun s ready => ?_
  have column := ready.column
  exact ready.fillFrom _ ready.line (le_refl 0) (by omega) (by omega)

theorem eraseScreen : Total (s.eraseScreen env) (Within screen) := by
  refine within.of_hasBuffer fun ready => ?_
  have high := ready.height
  exact ready.fillLinesFrom _ (le_refl 0) (by omega) (by omega)

theorem eraseLineBeginCursor : Total (s.eraseLineBeginCursor env) (Within screen) := by
  refine within.of_hasBuffer fun ready => ?_
  simp only [ready.clampCursor_eq]
  have column := ready.column
  exact ready.fillFrom _ ready.line (le_refl 0) (by omega) (by omega)

theorem eraseLine : Total (s.eraseLine env) (Within screen) := by
  refine within.of_hasBuffer fun ready => ?_
  simp only [ready.clampEnd_eq]
  have wide := ready.width
  exact ready.fillFrom _ ready.line (le_refl 0) (by omega) (by omega)

theorem scrollUp (nonneg : 0 ≤ id) : Total (s.scrollUp env id) (Within screen) := by
  refine within.of_hasBuffer fun ready => ?_
  have high := ready.height
  generalize clamped : (if id > s.bufferH then s.bufferH else id) = lines
  have bounds : 0 ≤ lines ∧ lines ≤ screen.height := by
    rw [← clamped]
    split <;> omega
  have rest : 0 ≤ s.bufferH - lines := by omega
  have copies := ready.copyLines (le_refl 0) bounds.1 rest (by omega) (by omega)
  rw [zero_mul] at copies
  refine copies.bind fun s ready => ?_
  have high := ready.height
  exact ready.fillLinesFrom _ (by omega) (by omega) (by omega)

theorem scrollDown (nonneg : 0 ≤ id) : Total (s.scrollDown env id) (Within screen) := by
  refine within.of_hasBuffer fun ready => ?_
  have high := ready.height
  have line := ready.line
  generalize clamped : (if id > s.bufferH then s.bufferH else id) = lines
  have bounds : 0 ≤ lines ∧ lines ≤ screen.height := by
    rw [← clamped]
    split <;> omega
  have rest : 0 ≤ s.bufferH - lines := by omega
  have copies := ready.copyLines bounds.1 (le_refl 0) rest (by omega) (by omega)
  rw [zero_mul] at copies
  simp only [if_neg (show ¬ s.y ≥ s.bufferH by omega)]
  refine copies.bind fun s ready => ?_
  refine (ready.fillLinesFrom _ (le_refl 0) (by omega) bounds.2).bind fun s ready => ?_
  have high := ready.height
  have line := ready.line
  exact .ite (fun _ => ready.fillLinesFrom _ (by omega) (by omega) (by omega))
    fun _ => .result ready

/-- The scroll region has been clamped when it was set. -/
theorem consoleScroll : Total (s.consoleScroll screen env) (Within screen) := by
  refine .ite (fun _ => .result within) fun has => ?_
  have ready := within.ready (by simpa using has)
  obtain ⟨start, ordered, last⟩ := within.region
  have notStart : ¬ uint32 s.scrollRegionStart > screen.height := by
    unfold uint32
    omega
  have notEnd : ¬ uint32 s.scrollRegionEnd > screen.height := by
    unfold uint32
    omega
  simp only [if_neg notStart, if_neg notEnd]
  have high := ready.height
  have positive := screen.height_pos
  refine Total.mono ?_ fun _ => Ready.toWithin
  refine .ite (fun _ => ?_) fun _ => ?_
  · have rest : 0 ≤ s.bufferH - 1 := by omega
    have copies := ready.copyLines (le_refl 0) Int.one_nonneg rest (by omega) (by omega)
    rw [zero_mul, one_mul] at copies
    refine copies.bind fun s' ready' => ?_
    have same := ready.width.trans ready'.width.symm
    have high := ready'.height
    rw [same]
    exact ready'.clearLine (by omega) (by omega)
  · have rest : 0 ≤ s.scrollRegionEnd - s.scrollRegionStart := by omega
    refine (ready.copyLines (by omega) start rest (by omega) (by omega)).bind fun s' ready' => ?_
    have same := ready.width.trans ready'.width.symm
    rw [same]
    exact ready'.clearLine rest (by omega)

theorem ensureBuffer : Total (s.ensureBuffer screen) (Ready screen) := by
  have wide := screen.width_small
  have high := screen.height_small
  unfold State.ensureBuffer
  split
  · refine .result ⟨⟨within.column, within.line, within.region, fun _ isBuffer => ?_⟩, rfl⟩
    cases isBuffer
    refine ⟨?_, ?_, length_replicate⟩
    · show int32 screen.width = screen.width
      unfold int32
      omega
    · show int32 screen.height = screen.height
      unfold int32
      omega
  next cells isBuffer =>
    obtain ⟨width, height, _⟩ := within.buffer cells isBuffer
    have same : ¬ (uint32 s.bufferW ≠ screen.width ∨ uint32 s.bufferH ≠ screen.height) := by
      unfold uint32
      omega
    rw [if_neg same]
    exact .result ⟨within, isBuffer ▸ rfl⟩

theorem consoleSetChar {x y : ℤ} (column : 0 ≤ x ∧ x < screen.width)
    (line : 0 ≤ y ∧ y < screen.height) (c : Char)
    : Total (s.consoleSetChar screen env x y c) (Within screen) := by
  refine .ite (fun _ => .result within) fun _ => .ite (fun _ => .result within) fun _ =>
    .ite (fun _ => .result within) fun _ => ?_
  refine within.ensureBuffer.bind fun s ready => .ite (fun _ => .result ready.toWithin) fun _ => ?_
  have inserted : Total (if s.insert then s.copy (s.index x y + 1) (s.index x y) (s.bufferW - x - 1)
      else some s) (Ready screen) := by
    refine .ite (fun _ => ?_) fun _ => .result ready
    -- the cells from the cursor to the end of the line, but for the last one
    have wide := ready.width
    obtain ⟨isIndex, nonneg, _⟩ := ready.index_bounds column line
    have last : 0 ≤ (screen.width : ℤ) - 1 ∧ (screen.width : ℤ) - 1 < screen.width := by omega
    obtain ⟨_, _, below⟩ := ready.index_bounds last line
    rw [isIndex, wide]
    exact ready.copy (by omega) nonneg (by omega) (by omega) (by omega)
  refine inserted.bind fun s ready => ?_
  exact (ready.store _ column line).mono fun _ => Ready.toWithin

-- Modes and colours do not concern the cursor or the buffer.

theorem resetGraphics : Within screen s.resetGraphics :=
  { within with }

theorem graphicsRendition (id : ℤ) : Within screen (s.graphicsRendition id) := by
  obtain ⟨column, line, region, buffer⟩ := within
  unfold State.graphicsRendition
  repeat' split
  all_goals exact ⟨column, line, region, buffer⟩

theorem privateMode (id : ℤ) (csi : Char) : Within screen (s.privateMode id csi) := by
  obtain ⟨column, line, region, buffer⟩ := within
  unfold State.privateMode
  split <;> exact ⟨column, line, region, buffer⟩

theorem setMode (id : ℤ) (on : Bool) : Within screen (s.setMode id on) := by
  obtain ⟨column, line, region, buffer⟩ := within
  unfold State.setMode
  split <;> exact ⟨column, line, region, buffer⟩

theorem home : Within screen { s with x := 0, y := 0 } :=
  within.moved ⟨le_refl 0, natCast_pos.mpr screen.width_pos⟩
    ⟨le_refl 0, natCast_pos.mpr screen.height_pos⟩

theorem setScrollRegion (first : id ≤ LONG_MAX) (second : id2 ≤ LONG_MAX)
    : Within screen (s.setScrollRegion screen id id2) := by
  have clamp {id} (nonneg : 0 ≤ id) (small : id ≤ LONG_MAX)
      : (if uint32 id > screen.height then int32 screen.height else id) = min id screen.height := by
    unfold LONG_MAX at small
    unfold uint32 int32
    split <;> omega
  unfold State.setScrollRegion
  split
  · exact within
  next accepted =>
  refine ⟨within.home.column, within.home.line, ?_, within.buffer⟩
  simp only [clamp (show 0 ≤ id by omega) first, clamp (show 0 ≤ id2 by omega) second]
  omega

/-- The sequences of one character. -/
theorem oneChar {csi} (known : s.oneChar screen env csi = some program)
    : Total program (Within screen) := by
  have column := within.column
  have line := within.line
  have wide := screen.width_small
  have high := screen.height_small
  have someWidth := screen.width_pos
  have someHeight := screen.height_pos
  unfold State.oneChar at known
  split at known <;> cases known
  · exact .result within.resetGraphics
  · exact within.eraseCursorScreenEnd
  · exact within.eraseCursorLineEnd
  · exact .result ⟨column, line, within.region, within.buffer⟩
  · have inWidth := emod_lt_of_pos (uint32 s.savedX) (natCast_pos.mpr someWidth)
    have fromLeft := emod_nonneg (uint32 s.savedX) (natCast_ne_zero_iff_pos.mpr someWidth)
    have inHeight := emod_lt_of_pos (uint32 s.savedY) (natCast_pos.mpr someHeight)
    have fromTop := emod_nonneg (uint32 s.savedY) (natCast_ne_zero_iff_pos.mpr someHeight)
    refine .result (within.moved ?_ ?_) <;> unfold int32 <;> omega
  · exact .result within.home
  · split
    · exact .result (within.moved column (by omega))
    · exact .result within
  · split
    next below =>
      refine .result (within.moved column ?_)
      unfold uint32 at below
      unfold int32
      omega
    · exact .result within
  · split
    next below =>
      refine .result (within.moved ?_ line)
      unfold uint32 at below
      unfold int32
      omega
    · exact .result within
  · split
    · exact .result (within.moved (by omega) line)
    · exact .result within

/-- The sequences with one number. -/
theorem oneParam (number : 0 ≤ id ∧ id ≤ LONG_MAX) (csi : Char)
    : Total (s.oneParam screen env id csi) (Within screen) := by
  have column := within.column
  have line := within.line
  have left := within.home.column
  have wide := screen.width_small.le
  have high := screen.height_small.le
  have back := moveBack_bounds line high number
  have down := moveOn_bounds id line high
  have right := moveOn_bounds id column wide
  unfold State.oneParam
  split
  · exact .result (within.setMode id false)
  · exact .result (within.setMode id true)
  · exact within.scrollUp number.1
  · exact within.scrollDown number.1
  · exact .result (within.graphicsRendition id)
  · split
    · exact within.eraseCursorScreenEnd
    · exact within.eraseScreenBeginCursor
    · exact within.eraseScreen
    · exact .result within
  · split
    · exact within.eraseCursorLineEnd
    · exact within.eraseLineBeginCursor
    · exact within.eraseLine
    · exact .result within
  · exact .result (within.moved left back)
  · exact .result (within.moved column back)
  · exact .result (within.moved left down)
  · exact .result (within.moved column down)
  · exact .result (within.moved column down)
  · exact .result (within.moved right line)
  · exact .result (within.moved right line)
  · exact .result (within.moved (moveBack_bounds column wide number) line)
  · exact .result (within.moved (moveBack_bounds column wide number) line)
  · exact .result (within.moved (moveTo_bounds (natCast_pos.mpr screen.width_pos) wide number) line)
  · exact .result
      (within.moved column (moveTo_bounds (natCast_pos.mpr screen.height_pos) high number))
  · exact .result within

/-- The sequences with two numbers. -/
theorem twoParams (first : 0 ≤ id ∧ id ≤ LONG_MAX) (second : 0 ≤ id2 ∧ id2 ≤ LONG_MAX) (csi : Char)
    : Within screen (s.twoParams screen id id2 csi) := by
  have column := moveTo_bounds (natCast_pos.mpr screen.width_pos) screen.width_small.le second
  have line := moveTo_bounds (natCast_pos.mpr screen.height_pos) screen.height_small.le first
  unfold State.twoParams
  split
  · exact within.moved column line
  · exact within.moved column line
  · exact within.setScrollRegion first.2 second.2
  · exact within

theorem numbered (text : List Char)
    : Total (s.numbered screen env text) (Within screen) := by
  refine .ite (fun _ => .result within) fun _ => .ite (fun _ => ?_) fun _ => ?_
  · refine .ite (fun _ => .result within) fun _ => .result ?_
    exact within.twoParams (strtol_bounds _) (strtol_bounds _) _
  · exact within.oneParam (strtol_bounds _) _

theorem handleAnsiEscapes (ansiSequence : List Char)
    : Total (s.handleAnsiEscapes screen env ansiSequence) (Within screen) := by
  refine .ite (fun _ => .result within) fun _ => .ite (fun _ => .result within) fun _ => ?_
  simp only
  split
  next program known => exact within.oneChar known
  · refine .ite (fun _ => within.numbered _) fun _ => .ite (fun _ => .result within) fun _ => ?_
    exact .result (within.privateMode _ _)

/-- The variables of the state machine do not concern the cursor or the buffer. -/
theorem machine (waiting : Bool) (sequence : Option (List Char))
    : Within screen { s with waiting := waiting, sequence := sequence } :=
  { within with }

theorem ansiEscapeStateMachine (c : Char)
    : Total (s.ansiEscapeStateMachine screen env c) fun result => Within screen result.1 := by
  refine .ite (fun _ => .result (within.machine _ _))
    fun _ => .ite (fun _ => .result within) fun _ =>
    .ite (fun _ => .result (within.machine _ _)) fun _ =>
    .ite (fun _ => .result (within.machine _ _)) fun _ => .ite (fun _ => ?_) fun _ => ?_
  · exact ((within.machine _ _).handleAnsiEscapes _).map fun _ within => within
  · exact .result (within.machine _ _)

-- Writing

theorem backspace : Within screen (s.backspace env) := by
  unfold State.backspace
  split
  · exact within
  next has =>
  have ready := within.ready (by simpa using has)
  have column := ready.column
  have line := ready.line
  have wide := screen.width_small
  simp only [ready.clampCursor_eq]
  split
  · split
    · exact within
    · refine within.moved ?_ (by omega)
      rw [ready.width, int32]
      omega
  · exact within.moved (by omega) line

theorem newLine : Total (s.newLine screen env) (Within screen) := by
  obtain ⟨start, ordered, last⟩ := within.region
  have line := within.line
  have high := screen.height_small
  refine .ite (fun inRegion => ?_) fun _ => ?_
  · refine .ite (fun _ => consoleScroll (within.moved within.column ?_)) fun above =>
      .result (within.moved within.column ?_)
    · unfold int32
      omega
    · unfold int32 at above ⊢
      omega
  · refine Total.map (.ite (fun _ => consoleScroll (within.moved within.column ?_)) fun above =>
      .result (within.moved within.column ?_)) fun s within => ?_
    · unfold int32
      omega
    · unfold uint32 at above
      unfold int32
      omega
    · split
      · exact within.moved within.home.column within.line
      · exact within

theorem putChar (c : Char) : Total (s.putChar screen env c) (Within screen) := by
  have wide := screen.width_small
  refine (within.consoleSetChar within.column within.line c).bind fun s within => ?_
  have column := within.column
  refine .ite (fun _ => .ite (fun _ => .result (within.moved ?_ within.line))
    fun _ => ?_) fun before =>
    .result (within.moved ?_ within.line)
  · unfold int32
    omega
  · exact newLine (within.moved within.home.column within.line)
  · unfold uint32 at before
    unfold int32
    omega

theorem writeChar {tab} (expands : ∀ s, Within screen s → Total (tab s) (Within screen)) (c : Char)
    : Total (s.writeChar screen env tab c) (Within screen) := by
  refine (within.ansiEscapeStateMachine c).bind fun (s, taken) within =>
    .ite (fun _ => .result within) fun _ => ?_
  split
  · exact .result (within.moved within.home.column within.line)
  · exact .result within.backspace
  · exact within.newLine
  · exact within.newLine
  · exact expands s within
  · exact within.putChar _

theorem writeSpaces (n : ℕ) : Total (writeSpaces screen env n s) (Within screen) := by
  induction n generalizing s with
  | zero => exact .result within
  | succ n ih =>
    exact (within.writeChar (fun _ => .result) ' ').bind fun s within => ih within

theorem consoleWrite (call : Env × UInt8)
    : Total (s.consoleWrite screen call) (Within screen) :=
  within.writeChar (fun _ within => within.writeSpaces _) _

end

end Within

/-- For every sequence of bytes all cells that are written are in the buffer, and after each byte
the cursor is on the screen.
-/
theorem cursor_on_screen (screen : Screen) (calls : List (Env × UInt8))
    : Total (trace (State.consoleWrite screen) .initial calls) fun states =>
        ∀ s ∈ states, 0 ≤ s.x ∧ s.x < screen.width ∧ 0 ≤ s.y ∧ s.y < screen.height := by
  have along := Total.trace (fun s call within => Within.consoleWrite within call)
    (Within.initial screen) calls
  refine along.mono fun states within s isState => ?_
  have column := (within s isState).column
  have line := (within s isState).line
  exact ⟨column.1, column.2, line.1, line.2⟩

/-- A cursor on the second line moves down by a number for which the sum wraps around. -/
example
    : (trace (State.consoleWrite ⟨4, 3, by decide, by decide, by decide⟩) .initial
        ("\n\x1b[2147483647B".toList.map
          fun c => (⟨false, true⟩, c.toNat.toUInt8))).any fun states =>
      states.getLast?.any fun s => s.x = 0 && s.y = 2 := by
  decide +kernel

/-- After each byte the scroll region is on the screen and the buffer has a cell for each place. -/
theorem region_on_screen (screen : Screen) (calls : List (Env × UInt8))
    : Total (trace (State.consoleWrite screen) .initial calls) fun states =>
        ∀ s ∈ states, Within screen s :=
  Total.trace (fun _ call within => Within.consoleWrite within call) (Within.initial screen) calls

end UnstableOS.Kernel.Console
