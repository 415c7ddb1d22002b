import Mathlib

namespace WeakOS

/-!
# The text console

The text mode buffer and the part of `stdio` that writes to it.  A screen
access that is not a cell of the buffer has no result, so whatever is shown to
have one has kept to the buffer.

`m_deferred` is left out: nothing reads it unless the kernel is built with
`SLOWDOWN`, and `refresh` does nothing.
-/

structure TextmodeCell where
  mCh : BitVec 8
  mAttr : BitVec 8
  deriving DecidableEq, Repr

/-- A space with attribute 7. -/
def TextmodeCell.blank : TextmodeCell := ⟨0x20, 7⟩

/-- `TextmodeCell::set`; the attribute is an `int` and loses its upper bits. -/
def TextmodeCell.set (ch : BitVec 8) (attr : Int) : TextmodeCell := ⟨ch, BitVec.ofInt 8 attr⟩

structure TextmodeBuffer where
  mBuffer : Int → TextmodeCell
  mWidth : Int
  mHeight : Int

namespace TextmodeBuffer

/-- The indices of the buffer's cells. -/
def InBuffer (buffer : TextmodeBuffer) (index : Int) : Prop :=
  0 ≤ index ∧ index < buffer.mWidth * buffer.mHeight

instance (buffer : TextmodeBuffer) (index : Int) : Decidable (buffer.InBuffer index) :=
  inferInstanceAs (Decidable (_ ∧ _))

/-- Read `m_buffer[index]`. -/
def load (buffer : TextmodeBuffer) (index : Int) : Option TextmodeCell :=
  if buffer.InBuffer index then some (buffer.mBuffer index) else none

/-- Write `m_buffer[index]`. -/
def store (buffer : TextmodeBuffer) (index : Int) (value : TextmodeCell) : Option TextmodeBuffer :=
  if buffer.InBuffer index then
    some { buffer with mBuffer := Function.update buffer.mBuffer index value }
  else none

/-- Clear `left` cells from `index` on. -/
def clearLoop : (left : Nat) → (index : Int) → TextmodeBuffer → Option TextmodeBuffer
  | 0, _, buffer => some buffer
  | left + 1, index, buffer => do
      let buffer ← buffer.store index TextmodeCell.blank
      clearLoop left (index + 1) buffer

/-- `init`, whatever the video memory holds. -/
def init (width height : Int) (buffer : TextmodeBuffer) : Option TextmodeBuffer :=
  clearLoop (width * height).toNat 0 { buffer with mWidth := width, mHeight := height }

/-- The index of the cell that `cell` points to. -/
def cell (buffer : TextmodeBuffer) (x y : Int) : Int := x + buffer.mWidth * y

/-- The first loop of `scroll`: cells move up by one line, in place. -/
def scrollLoop : (left : Nat) → (index : Int) → TextmodeBuffer → Option TextmodeBuffer
  | 0, _, buffer => some buffer
  | left + 1, index, buffer => do
      let moved ← buffer.load (index + buffer.mWidth)
      let buffer ← buffer.store index moved
      scrollLoop left (index + 1) buffer

def scroll (buffer : TextmodeBuffer) : Option TextmodeBuffer := do
  let lastLine := buffer.mWidth * (buffer.mHeight - 1)
  let buffer ← scrollLoop lastLine.toNat 0 buffer
  clearLoop buffer.mWidth.toNat lastLine buffer

end TextmodeBuffer

/-- The static members of `stdio`, with the buffer they draw into. -/
structure Stdio where
  mCx : Int
  mCy : Int
  mWidth : Int
  mHeight : Int
  mAttr : Int
  buffer : TextmodeBuffer

namespace Stdio

def init (stdio : Stdio) : Option Stdio := do
  let buffer ← stdio.buffer.init 80 25
  some { mCx := 0, mCy := 0, mWidth := 80, mHeight := 25, mAttr := 7, buffer }

/-- Wrap at the right edge. -/
def wrap (stdio : Stdio) : Stdio :=
  if stdio.mWidth ≤ stdio.mCx then { stdio with mCy := stdio.mCy + 1, mCx := 0 } else stdio

/-- Scroll at the bottom edge. -/
def scrollDown (stdio : Stdio) : Option Stdio :=
  if stdio.mHeight ≤ stdio.mCy then do
    let buffer ← stdio.buffer.scroll
    some { stdio with buffer, mCy := stdio.mCy - 1 }
  else some stdio

def newline : BitVec 8 := 0x0a

def carriageReturn : BitVec 8 := 0x0d

def tab : BitVec 8 := 0x09

/-- The `switch` of `process_control`; there is no result for a character that
is not a control character. -/
def control (ch : BitVec 8) (stdio : Stdio) : Option Stdio :=
  if ch = newline then some { stdio with mCy := stdio.mCy + 1, mCx := 0 }
  else if ch = carriageReturn then some { stdio with mCx := 0 }
  else if ch = tab then some { stdio with mCx := stdio.mCx + 4 }
  else none

def putchar (ch : BitVec 8) (stdio : Stdio) : Option Stdio :=
  match stdio.control ch with
  | some stdio => stdio.wrap.scrollDown
  | none => do
      let buffer ← stdio.buffer.store (stdio.buffer.cell stdio.mCx stdio.mCy)
        (TextmodeCell.set ch stdio.mAttr)
      { stdio with buffer, mCx := stdio.mCx + 1 }.wrap.scrollDown

/-- Successive calls of `putchar`. -/
def putchars (chars : List (BitVec 8)) (stdio : Stdio) : Option Stdio :=
  chars.foldlM (fun stdio ch => stdio.putchar ch) stdio

end Stdio

end WeakOS
