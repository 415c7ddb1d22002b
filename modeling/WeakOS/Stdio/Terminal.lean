import Mathlib
import WeakOS.Stdio.Model

namespace WeakOS

/-!
# The console shows the end of an unbounded terminal

The reference terminal has as many rows as it needs, all blank at first, and
never scrolls.  The console shows its last 25 rows: scrolling drops the
topmost one and clears the row below the text, which the terminal has not
reached.
-/

/-- A terminal of unbounded height. -/
structure Terminal where
  column : Nat
  row : Nat
  cells : Nat → Nat → TextmodeCell

namespace Terminal

def blank : Terminal := ⟨0, 0, fun _ _ => TextmodeCell.blank⟩

/-- Continue in the next row at the right edge. -/
def wrap (width : Nat) (terminal : Terminal) : Terminal :=
  if width ≤ terminal.column then { terminal with column := 0, row := terminal.row + 1 } else terminal

/-- Write a cell at the cursor. -/
def write (value : TextmodeCell) (terminal : Terminal) : Terminal :=
  { terminal with
    cells := fun x y =>
      if x = terminal.column ∧ y = terminal.row then value else terminal.cells x y }

/-- The rules for a character; what is printed has attribute 7. -/
def putchar (width : Nat) (ch : BitVec 8) (terminal : Terminal) : Terminal :=
  if ch = Stdio.newline then { terminal with column := 0, row := terminal.row + 1 }
  else if ch = Stdio.carriageReturn then { terminal with column := 0 }
  else if ch = Stdio.tab then wrap width { terminal with column := terminal.column + 4 }
  else
    let written := terminal.write ⟨ch, 7⟩
    wrap width { written with column := terminal.column + 1 }

def putchars (width : Nat) (chars : List (BitVec 8)) (terminal : Terminal) : Terminal :=
  chars.foldl (fun terminal ch => terminal.putchar width ch) terminal

section Wrap

variable {width : Nat} {terminal : Terminal}

theorem wrap_of_lt (inside : terminal.column < width) : terminal.wrap width = terminal :=
  if_neg (Nat.not_le.mpr inside)

theorem column_wrap_lt (positive : 0 < width) : (terminal.wrap width).column < width := by
  unfold wrap
  split
  · exact positive
  · rename_i inside
    exact Nat.not_le.mp inside

theorem le_row_wrap : terminal.row ≤ (terminal.wrap width).row := by
  unfold wrap
  split
  · exact Nat.le_succ _
  · exact Nat.le_refl _

theorem row_wrap_le : (terminal.wrap width).row ≤ terminal.row + 1 := by
  unfold wrap
  split
  · exact Nat.le_refl _
  · exact Nat.le_succ _

end Wrap

end Terminal

/-! ## The loops over the buffer -/

namespace TextmodeBuffer

variable {buffer : TextmodeBuffer} {index : Int} {left : Nat}

/-- The loop that clears cells stays in the buffer when its range does. -/
theorem clearLoop_eq (left : Nat) (buffer : TextmodeBuffer) (index : Int) (above : 0 ≤ index)
    (below : index + left ≤ buffer.mWidth * buffer.mHeight) :
    clearLoop left index buffer = some { buffer with
      mBuffer := fun i =>
        if index ≤ i ∧ i < index + left then TextmodeCell.blank else buffer.mBuffer i } := by
  induction left generalizing buffer index with
  | zero =>
      have none : ∀ i, ¬ (index ≤ i ∧ i < index + (0 : Nat)) := fun i => by omega
      simp only [clearLoop, if_neg (none _)]
  | succ left inductionHypothesis =>
      have inside : buffer.InBuffer index := ⟨above, by omega⟩
      simp only [clearLoop, store, if_pos inside, Option.bind_eq_bind, Option.bind_some]
      rw [inductionHypothesis _ (index + 1) (by omega) (by simp only; omega)]
      refine congrArg some (congrArg (fun cells => { buffer with mBuffer := cells }) (funext fun i => ?_))
      simp only [Function.update_apply]
      by_cases first : i = index
      · rw [if_neg (by omega), if_pos first, if_pos (by omega)]
      · rw [if_neg first]
        exact if_congr (by omega) rfl rfl

/-- Cells are copied from lines that the loop has not reached yet. -/
theorem scrollLoop_eq (left : Nat) (buffer : TextmodeBuffer) (index : Int) (above : 0 ≤ index)
    (wide : 0 < buffer.mWidth)
    (below : index + left + buffer.mWidth ≤ buffer.mWidth * buffer.mHeight) :
    scrollLoop left index buffer = some { buffer with
      mBuffer := fun i =>
        if index ≤ i ∧ i < index + left then buffer.mBuffer (i + buffer.mWidth)
        else buffer.mBuffer i } := by
  induction left generalizing buffer index with
  | zero =>
      have none : ∀ i, ¬ (index ≤ i ∧ i < index + (0 : Nat)) := fun i => by omega
      simp only [scrollLoop, if_neg (none _)]
  | succ left inductionHypothesis =>
      have source : buffer.InBuffer (index + buffer.mWidth) := ⟨by omega, by omega⟩
      have inside : buffer.InBuffer index := ⟨above, by omega⟩
      simp only [scrollLoop, load, store, if_pos source, if_pos inside, Option.bind_eq_bind,
        Option.bind_some]
      rw [inductionHypothesis _ (index + 1) (by omega) (by exact wide) (by simp only; omega)]
      refine congrArg some (congrArg (fun cells => { buffer with mBuffer := cells }) (funext fun i => ?_))
      simp only [Function.update_apply]
      by_cases first : i = index
      · rw [if_neg (by omega), if_pos first, if_pos (by omega), first]
      · by_cases copied : index + 1 ≤ i ∧ i < index + 1 + left
        · rw [if_pos copied, if_neg (by omega : ¬ i + buffer.mWidth = index), if_pos (by omega)]
        · rw [if_neg copied, if_neg first, if_neg (by omega)]

/-- Scrolling moves every line up and clears the last one. -/
theorem scroll_eq (buffer : TextmodeBuffer) (width : buffer.mWidth = 80)
    (height : buffer.mHeight = 25) : ∃ cells, scroll buffer = some { buffer with mBuffer := cells } ∧
      (∀ i, 0 ≤ i → i < 1920 → cells i = buffer.mBuffer (i + 80)) ∧
      ∀ i, 1920 ≤ i → i < 2000 → cells i = TextmodeCell.blank := by
  have size : buffer.mWidth * buffer.mHeight = 2000 := by
    simp only [width, height, Int.reduceMul]
  have last : buffer.mWidth * (buffer.mHeight - 1) = 1920 := by
    simp only [width, height, Int.reduceSub, Int.reduceMul]
  have lines : (1920 : Int).toNat = 1920 := Int.toNat_natCast 1920
  have line : buffer.mWidth.toNat = 80 := by simp only [width, Int.reduceToNat]
  have moved := scrollLoop_eq 1920 buffer 0 (Int.le_refl 0) (by omega) (by omega)
  have cleared := fun cells => clearLoop_eq 80 { buffer with mBuffer := cells } 1920 (by omega)
    (by simp only; omega)
  unfold scroll
  simp only [last, lines, moved, Option.bind_eq_bind, Option.bind_some, line, cleared]
  refine ⟨_, rfl, fun i above below => ?_, fun i above below => ?_⟩
  · rw [if_neg (by omega), if_pos (by omega), width]
  · exact if_pos (by omega)

theorem init_eq (buffer : TextmodeBuffer) : ∃ cells, init 80 25 buffer = some ⟨cells, 80, 25⟩ ∧
    ∀ i, 0 ≤ i → i < 2000 → cells i = TextmodeCell.blank := by
  have size : ((80 : Int) * 25).toNat = 2000 := by simp only [Int.reduceMul, Int.reduceToNat]
  have cleared := clearLoop_eq 2000 { buffer with mWidth := 80, mHeight := 25 } 0 (by omega)
    (by simp only; omega)
  unfold init
  rw [size, cleared]
  refine ⟨_, rfl, fun i above below => ?_⟩
  rw [if_pos (by omega)]

end TextmodeBuffer

/-! ## The simulation -/

namespace Stdio

/-- The console holds the rows of a terminal that follow the `hidden` ones.
Below the screen the terminal is still blank, which is what scrolling relies
on.  The cursor may have left the screen. -/
structure Shows (stdio : Stdio) (terminal : Terminal) (hidden : Nat) : Prop where
  width : stdio.mWidth = 80
  height : stdio.mHeight = 25
  bufferWidth : stdio.buffer.mWidth = 80
  bufferHeight : stdio.buffer.mHeight = 25
  attr : stdio.mAttr = 7
  column : stdio.mCx = terminal.column
  row : stdio.mCy + hidden = terminal.row
  cells : ∀ x y : Nat, x < 80 → y < 25 →
    stdio.buffer.mBuffer (x + 80 * y) = terminal.cells x (y + hidden)
  below : ∀ x y : Nat, hidden + 25 ≤ y → terminal.cells x y = TextmodeCell.blank

section Steps

variable {stdio : Stdio} {terminal : Terminal} {hidden : Nat}

/-- Wrapping is the same on both sides. -/
theorem Shows.wrap (shows : stdio.Shows terminal hidden) :
    stdio.wrap.Shows (terminal.wrap 80) hidden := by
  have sides : stdio.mWidth ≤ stdio.mCx ↔ 80 ≤ terminal.column := by
    rw [shows.width, shows.column]
    omega
  unfold Stdio.wrap Terminal.wrap
  by_cases edge : 80 ≤ terminal.column
  · rw [if_pos (sides.mpr edge), if_pos edge]
    have row := shows.row
    refine { shows with column := rfl, row := ?_ }
    simp only [Nat.cast_add, Nat.cast_one]
    omega
  · rw [if_neg (fun beyond => edge (sides.mp beyond)), if_neg edge]
    exact shows

/-- When the cursor has left the screen at the bottom, one more row is hidden. -/
theorem Shows.scrollDown (shows : stdio.Shows terminal hidden) (near : terminal.row ≤ hidden + 25) :
    ∃ after, stdio.scrollDown = some after ∧
      after.Shows terminal (if terminal.row = hidden + 25 then hidden + 1 else hidden) := by
  have row := shows.row
  have sides : stdio.mHeight ≤ stdio.mCy ↔ terminal.row = hidden + 25 := by
    rw [shows.height]
    omega
  unfold Stdio.scrollDown
  by_cases bottom : terminal.row = hidden + 25
  · rcases TextmodeBuffer.scroll_eq stdio.buffer shows.bufferWidth shows.bufferHeight with
      ⟨cells, scrolled, moved, cleared⟩
    rw [if_pos (sides.mpr bottom), if_pos bottom, scrolled]
    refine ⟨_, rfl, { shows with
      row := ?_, cells := fun x y left above => ?_, below := fun x y under => ?_ }⟩
    · simp only [Nat.cast_add, Nat.cast_one]
      omega
    · change cells (x + 80 * y) = _
      by_cases last : y = 24
      · rw [cleared _ (by omega) (by omega), shows.below x (y + (hidden + 1)) (by omega)]
      · rw [moved _ (by omega) (by omega), show y + (hidden + 1) = y + 1 + hidden by omega,
          ← shows.cells x (y + 1) left (by omega)]
        exact congrArg _ (by omega)
    · exact shows.below x y (by omega)
  · rw [if_neg (fun beyond => bottom (sides.mp beyond)), if_neg bottom]
    exact ⟨stdio, rfl, shows⟩

/-- Printing stores the character at the cursor, which is on the screen. -/
theorem Shows.write (shows : stdio.Shows terminal hidden) (inside : terminal.column < 80)
    (near : terminal.row < hidden + 25) (above : hidden ≤ terminal.row) (ch : BitVec 8) :
    ∃ buffer, stdio.buffer.store (stdio.buffer.cell stdio.mCx stdio.mCy)
        (TextmodeCell.set ch stdio.mAttr) = some buffer ∧
      Shows { stdio with buffer, mCx := stdio.mCx + 1 }
        { terminal.write ⟨ch, 7⟩ with column := terminal.column + 1 } hidden := by
  have row := shows.row
  have column := shows.column
  have index : stdio.buffer.cell stdio.mCx stdio.mCy =
      terminal.column + 80 * (terminal.row - hidden : Int) := by
    rw [TextmodeBuffer.cell, shows.bufferWidth]
    omega
  have inBuffer : stdio.buffer.InBuffer (stdio.buffer.cell stdio.mCx stdio.mCy) := by
    rw [TextmodeBuffer.InBuffer, index, shows.bufferWidth, shows.bufferHeight]
    omega
  refine ⟨_, if_pos inBuffer, { shows with
    column := ?_, cells := fun x y left high => ?_, below := fun x y under => ?_ }⟩
  · simp only [Nat.cast_add, Nat.cast_one, column]
  · simp only [Function.update_apply, index, shows.attr, Terminal.write]
    by_cases here : x = terminal.column ∧ y + hidden = terminal.row
    · rw [if_pos (by omega), if_pos here]
      rfl
    · rw [if_neg (by omega), if_neg here]
      exact shows.cells x y left high
  · simp only [Terminal.write]
    rw [if_neg (by omega)]
    exact shows.below x y under

/-- After the cursor has moved, wrapping and scrolling put it on the screen. -/
theorem Shows.finish {moved : Stdio} {next : Terminal} (shows : moved.Shows next (terminal.row - 24))
    (reaches : next.row = terminal.row ∨ next.column < 80 ∧ next.row = terminal.row + 1) :
    ∃ after, moved.wrap.scrollDown = some after ∧
      after.Shows (next.wrap 80) ((next.wrap 80).row - 24) := by
  have low : terminal.row ≤ (next.wrap 80).row ∧ (next.wrap 80).row ≤ terminal.row + 1 := by
    rcases reaches with same | ⟨inside, later⟩
    · exact same ▸ ⟨Terminal.le_row_wrap, Terminal.row_wrap_le⟩
    · rw [Terminal.wrap_of_lt inside, later]
      exact ⟨Nat.le_succ _, Nat.le_refl _⟩
  rcases shows.wrap.scrollDown (by omega) with ⟨after, result, shown⟩
  have hidden : (next.wrap 80).row - 24 =
      if (next.wrap 80).row = terminal.row - 24 + 25 then terminal.row - 24 + 1
      else terminal.row - 24 := by
    split <;> omega
  exact ⟨after, result, hidden ▸ shown⟩

/-- One character keeps the screen in step with the terminal. -/
theorem Shows.putchar (shows : stdio.Shows terminal (terminal.row - 24))
    (inside : terminal.column < 80) (ch : BitVec 8) :
    ∃ after, stdio.putchar ch = some after ∧
      after.Shows (terminal.putchar 80 ch) ((terminal.putchar 80 ch).row - 24) ∧
      (terminal.putchar 80 ch).column < 80 := by
  have row := shows.row
  unfold Stdio.putchar Terminal.putchar control
  by_cases isNewline : ch = newline
  · simp only [if_pos isNewline]
    have moved : Shows { stdio with mCy := stdio.mCy + 1, mCx := 0 }
        { terminal with column := 0, row := terminal.row + 1 } (terminal.row - 24) :=
      { shows with column := rfl, row := by simp only [Nat.cast_add, Nat.cast_one]; omega }
    have start : (0 : Nat) < 80 := by decide
    rcases moved.finish (Or.inr ⟨start, rfl⟩) with ⟨after, result, shown⟩
    rw [Terminal.wrap_of_lt start] at shown
    exact ⟨after, result, shown, start⟩
  by_cases isReturn : ch = carriageReturn
  · simp only [if_neg isNewline, if_pos isReturn]
    have moved : Shows { stdio with mCx := 0 } { terminal with column := 0 } (terminal.row - 24) :=
      { shows with column := rfl }
    have start : (0 : Nat) < 80 := by decide
    rcases moved.finish (Or.inl rfl) with ⟨after, result, shown⟩
    rw [Terminal.wrap_of_lt start] at shown
    exact ⟨after, result, shown, start⟩
  by_cases isTab : ch = tab
  · simp only [if_neg isNewline, if_neg isReturn, if_pos isTab]
    have moved : Shows { stdio with mCx := stdio.mCx + 4 }
        { terminal with column := terminal.column + 4 } (terminal.row - 24) :=
      { shows with column := by simp only [Nat.cast_add, shows.column]; rfl }
    rcases moved.finish (Or.inl rfl) with ⟨after, result, shown⟩
    exact ⟨after, result, shown, Terminal.column_wrap_lt (by decide)⟩
  · simp only [if_neg isNewline, if_neg isReturn, if_neg isTab]
    rcases shows.write inside (by omega) (Nat.sub_le _ _) ch with ⟨buffer, stored, written⟩
    rcases written.finish (Or.inl rfl) with ⟨after, result, shown⟩
    refine ⟨after, ?_, shown, Terminal.column_wrap_lt (by decide)⟩
    rw [stored]
    exact result

end Steps

/-- The screen after `init` is that of a blank terminal, whatever was on it. -/
theorem init_shows (before : Stdio) :
    ∃ start, before.init = some start ∧ start.Shows Terminal.blank 0 := by
  rcases TextmodeBuffer.init_eq before.buffer with ⟨cells, cleared, blank⟩
  unfold init
  rw [cleared]
  refine ⟨_, rfl, {
    width := rfl, height := rfl, bufferWidth := rfl, bufferHeight := rfl, attr := rfl
    column := rfl, row := rfl, below := fun _ _ _ => rfl, cells := fun x y left above => ?_ }⟩
  exact blank _ (by omega) (by omega)

/-- A sequence of characters keeps the screen in step with the terminal. -/
theorem Shows.putchars {stdio : Stdio} {terminal : Terminal} (chars : List (BitVec 8))
    (shows : stdio.Shows terminal (terminal.row - 24)) (inside : terminal.column < 80) :
    ∃ after, stdio.putchars chars = some after ∧
      after.Shows (terminal.putchars 80 chars) ((terminal.putchars 80 chars).row - 24) ∧
      (terminal.putchars 80 chars).column < 80 := by
  induction chars generalizing stdio terminal with
  | nil => exact ⟨stdio, rfl, shows, inside⟩
  | cons ch rest inductionHypothesis =>
      rcases shows.putchar inside ch with ⟨next, taken, shown, wide⟩
      rcases inductionHypothesis shown wide with ⟨after, result, later⟩
      refine ⟨after, ?_, later⟩
      simp only [Stdio.putchars, List.foldlM_cons, taken, Option.bind_eq_bind, Option.bind_some]
      exact result

/-- After `init` and any characters, the cursor and the cells of the console
are those of the end of the unbounded terminal, and the screen was accessed
within its buffer only. -/
theorem putchars_shows_terminal (before : Stdio) (chars : List (BitVec 8)) :
    ∃ start after, before.init = some start ∧ start.putchars chars = some after ∧
      let terminal := Terminal.blank.putchars 80 chars
      let hidden := terminal.row - 24
      (after.mCx = terminal.column ∧ after.mCy = ((terminal.row - hidden : Nat) : Int)) ∧
      (0 ≤ after.mCx ∧ after.mCx < 80 ∧ 0 ≤ after.mCy ∧ after.mCy < 25) ∧
      ∀ x y : Nat, x < 80 → y < 25 →
        after.buffer.mBuffer (after.buffer.cell x y) = terminal.cells x (y + hidden) := by
  rcases init_shows before with ⟨start, begun, blank⟩
  rcases blank.putchars chars (by decide) with ⟨after, result, shown, inside⟩
  have row := shown.row
  have column := shown.column
  refine ⟨start, after, begun, result, ⟨column, by omega⟩, by omega, fun x y left above => ?_⟩
  rw [TextmodeBuffer.cell, shown.bufferWidth]
  exact shown.cells x y left above

end Stdio

end WeakOS
