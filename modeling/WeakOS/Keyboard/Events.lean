import Mathlib
import WeakOS.Keyboard.Model

namespace WeakOS

namespace Keyboard

/-!
# Key events

The framing of scan code set 2.  A key event is sent as one to five bytes, and
the first bytes say how many follow.  The decoder reads from a stream of
encoded events one event a call, and leaves the encodings of the later ones
alone.
-/

/-- The events of the keyboard.  The proofs exclude the bytes that would be
taken for a prefix. -/
inductive KeyEvent where
  | normal (code : BitVec 8) (plain : code < 0x80)
  | release (code : BitVec 8)
  | extended (code : BitVec 8) (plain : code ≠ 0xf0)
  | extendedRelease (code : BitVec 8)
  | wide (lower upper : BitVec 8) (plain : lower ≠ 0xf0)
  | wideRelease (lower upper : BitVec 8)

namespace KeyEvent

/-- The bytes that are sent. -/
def encode : KeyEvent → List (BitVec 8)
  | .normal code _ => [code]
  | .release code => [0xf0, code]
  | .extended code _ => [0xe0, code]
  | .extendedRelease code => [0xe0, 0xf0, code]
  | .wide lower upper _ => [0xe1, lower, upper]
  | .wideRelease lower upper => [0xe1, 0xf0, lower, 0xf0, upper]

/-- The scan code that stands for an event. -/
def scancode : KeyEvent → Ps2Scancode
  | .normal code _ => ⟨ps2ScancodeNormal, code.setWidth 16⟩
  | .release code => ⟨ps2ScancodeBreak, code.setWidth 16⟩
  | .extended code _ => ⟨ps2ScancodeExtended, code.setWidth 16⟩
  | .extendedRelease code => ⟨ps2ScancodeBreak ||| ps2ScancodeExtended, code.setWidth 16⟩
  | .wide lower upper _ => ⟨ps2ScancodeWide, wideScancode lower upper⟩
  | .wideRelease lower upper => ⟨ps2ScancodeBreak ||| ps2ScancodeWide, wideScancode lower upper⟩

end KeyEvent

section Decoder

variable (unset : BitVec 16)

/-- The codes of normal events have a clear upper bit, which tells them from
every prefix. -/
theorem plain_and : ∀ code : BitVec 8, code < 0x80 → code &&& 0x80 = 0 := by
  decide

/-- One call reads one event, and nothing behind it. -/
theorem ps2Read_encode (event : KeyEvent) (later : List (BitVec 8)) :
    ps2Read unset (event.encode ++ later) = some (event.scancode, later) := by
  cases event with
  | normal code plain =>
      have low : ¬ code &&& 0x80 ≠ 0 := not_not.mpr (plain_and code plain)
      simp only [KeyEvent.encode, List.singleton_append, ps2Read, if_neg low, KeyEvent.scancode]
  | extended code plain =>
      have prefixed : ps2Read unset (0xe0 :: code :: later) =
          if code = 0xf0 then _ else some (⟨ps2ScancodeExtended, code.setWidth 16⟩, later) := rfl
      exact prefixed.trans (if_neg plain)
  | wide lower upper plain =>
      have prefixed : ps2Read unset (0xe1 :: lower :: upper :: later) =
          if lower = 0xf0 then _ else some (⟨ps2ScancodeWide, wideScancode lower upper⟩, later) :=
        rfl
      exact prefixed.trans (if_neg plain)
  | release code | extendedRelease code | wideRelease lower upper => rfl

/-- Successive calls of `ps2_read`. -/
def ps2Reads : Nat → List (BitVec 8) → Option (List Ps2Scancode × List (BitVec 8))
  | 0, port => some ([], port)
  | calls + 1, port => do
      let (scancode, port) ← ps2Read unset port
      let (scancodes, port) ← ps2Reads calls port
      some (scancode :: scancodes, port)

/-- Reading a stream of encoded events: as many calls as there are earlier
events return these, and what is left is the encoding of the later events. -/
theorem ps2Reads_encode (earlier later : List KeyEvent) :
    ps2Reads unset earlier.length ((earlier ++ later).flatMap KeyEvent.encode) =
      some (earlier.map KeyEvent.scancode, later.flatMap KeyEvent.encode) := by
  induction earlier with
  | nil => rfl
  | cons event rest inductionHypothesis =>
      rw [List.cons_append, List.flatMap_cons, List.length_cons, ps2Reads, ps2Read_encode]
      simp only [Option.bind_eq_bind, Option.bind_some, inductionHypothesis, List.map_cons]

end Decoder

end Keyboard

end WeakOS
