import Mathlib
import WeakOS.Libc.CString

namespace WeakOS

/-!
# The keyboard driver

The decoder of scan codes, the keyboard interrupt and the variables that it
shares with `wait_char`.  The data port is the list of the bytes that can
still be read from it.  There is no result when the driver waits for a byte
that does not come.

`ps2_initialize` is left out, since it only sets up the controller.
-/

/-- Read the data port. -/
def inbData : List (BitVec 8) → Option (BitVec 8 × List (BitVec 8))
  | [] => none
  | data :: port => some (data, port)

/-! ## Scan codes -/

def ps2ScancodeNormal : BitVec 16 := 1

def ps2ScancodeBreak : BitVec 16 := 2

def ps2ScancodeExtended : BitVec 16 := 4

def ps2ScancodeWide : BitVec 16 := 8

def ps2ScancodeUnknown : BitVec 16 := 0

structure Ps2Scancode where
  type : BitVec 16
  scancode : BitVec 16
  deriving DecidableEq, Repr

/-- `scancode | (inb << 8)`. -/
def wideScancode (scancode upper : BitVec 8) : BitVec 16 :=
  scancode.setWidth 16 ||| upper.setWidth 16 <<< 8

/-- `ps2_read`.  Without data the code of the result is not set, and is
whatever was in its place before. -/
def ps2Read (unset : BitVec 16) : List (BitVec 8) → Option (Ps2Scancode × List (BitVec 8))
  | [] => some (⟨ps2ScancodeUnknown, unset⟩, [])
  | scancode :: port =>
      if scancode &&& 0x80 ≠ 0 then
        if scancode = 0xe0 then do
          let (scancode, port) ← inbData port
          if scancode = 0xf0 then do
            let (scancode, port) ← inbData port
            some (⟨ps2ScancodeBreak ||| ps2ScancodeExtended, scancode.setWidth 16⟩, port)
          else some (⟨ps2ScancodeExtended, scancode.setWidth 16⟩, port)
        else if scancode = 0xe1 then do
          let (scancode, port) ← inbData port
          if scancode = 0xf0 then do
            let (scancode, port) ← inbData port
            let (_, port) ← inbData port
            let (upper, port) ← inbData port
            some (⟨ps2ScancodeBreak ||| ps2ScancodeWide, wideScancode scancode upper⟩, port)
          else do
            let (upper, port) ← inbData port
            some (⟨ps2ScancodeWide, wideScancode scancode upper⟩, port)
        else if scancode = 0xf0 then do
          let (scancode, port) ← inbData port
          some (⟨ps2ScancodeBreak, scancode.setWidth 16⟩, port)
        else some (⟨ps2ScancodeUnknown, scancode.setWidth 16⟩, port)
      else some (⟨ps2ScancodeNormal, scancode.setWidth 16⟩, port)

/-! ## Characters -/

structure Ps2TranslatedScancode where
  shift : Bool
  scancode : BitVec 8
  chr : BitVec 8

/-- The table of `scancodes.inc`.  Quotes and the backslash are given by their codes. -/
def scancodes : List Ps2TranslatedScancode := [
  ⟨true, 0x1c, chr 'A'⟩, ⟨false, 0x1c, chr 'a'⟩,
  ⟨true, 0x32, chr 'B'⟩, ⟨false, 0x32, chr 'b'⟩,
  ⟨true, 0x21, chr 'C'⟩, ⟨false, 0x21, chr 'c'⟩,
  ⟨true, 0x23, chr 'D'⟩, ⟨false, 0x23, chr 'd'⟩,
  ⟨true, 0x24, chr 'E'⟩, ⟨false, 0x24, chr 'e'⟩,
  ⟨true, 0x2b, chr 'F'⟩, ⟨false, 0x2b, chr 'f'⟩,
  ⟨true, 0x34, chr 'G'⟩, ⟨false, 0x34, chr 'g'⟩,
  ⟨true, 0x33, chr 'H'⟩, ⟨false, 0x33, chr 'h'⟩,
  ⟨true, 0x43, chr 'I'⟩, ⟨false, 0x43, chr 'i'⟩,
  ⟨true, 0x3b, chr 'J'⟩, ⟨false, 0x3b, chr 'j'⟩,
  ⟨true, 0x42, chr 'K'⟩, ⟨false, 0x42, chr 'k'⟩,
  ⟨true, 0x4b, chr 'L'⟩, ⟨false, 0x4b, chr 'l'⟩,
  ⟨true, 0x3a, chr 'M'⟩, ⟨false, 0x3a, chr 'm'⟩,
  ⟨true, 0x31, chr 'N'⟩, ⟨false, 0x31, chr 'n'⟩,
  ⟨true, 0x44, chr 'O'⟩, ⟨false, 0x44, chr 'o'⟩,
  ⟨true, 0x4d, chr 'P'⟩, ⟨false, 0x4d, chr 'p'⟩,
  ⟨true, 0x15, chr 'Q'⟩, ⟨false, 0x15, chr 'q'⟩,
  ⟨true, 0x2d, chr 'R'⟩, ⟨false, 0x2d, chr 'r'⟩,
  ⟨true, 0x1b, chr 'S'⟩, ⟨false, 0x1b, chr 's'⟩,
  ⟨true, 0x2c, chr 'T'⟩, ⟨false, 0x2c, chr 't'⟩,
  ⟨true, 0x3c, chr 'U'⟩, ⟨false, 0x3c, chr 'u'⟩,
  ⟨true, 0x2a, chr 'V'⟩, ⟨false, 0x2a, chr 'v'⟩,
  ⟨true, 0x1d, chr 'W'⟩, ⟨false, 0x1d, chr 'w'⟩,
  ⟨true, 0x22, chr 'X'⟩, ⟨false, 0x22, chr 'x'⟩,
  ⟨true, 0x35, chr 'Y'⟩, ⟨false, 0x35, chr 'y'⟩,
  ⟨true, 0x1a, chr 'Z'⟩, ⟨false, 0x1a, chr 'z'⟩,
  ⟨true, 0x45, chr ')'⟩, ⟨false, 0x45, chr '0'⟩,
  ⟨true, 0x16, chr '!'⟩, ⟨false, 0x16, chr '1'⟩,
  ⟨true, 0x1e, chr '@'⟩, ⟨false, 0x1e, chr '2'⟩,
  ⟨true, 0x26, chr '#'⟩, ⟨false, 0x26, chr '3'⟩,
  ⟨true, 0x25, chr '$'⟩, ⟨false, 0x25, chr '4'⟩,
  ⟨true, 0x2e, chr '%'⟩, ⟨false, 0x2e, chr '5'⟩,
  ⟨true, 0x36, chr '^'⟩, ⟨false, 0x36, chr '6'⟩,
  ⟨true, 0x3d, chr '&'⟩, ⟨false, 0x3d, chr '7'⟩,
  ⟨true, 0x3e, chr '*'⟩, ⟨false, 0x3e, chr '8'⟩,
  ⟨true, 0x46, chr '('⟩, ⟨false, 0x46, chr '9'⟩,
  ⟨true, 0x0e, chr '~'⟩, ⟨false, 0x0e, 0x60⟩,
  ⟨true, 0x4e, chr '_'⟩, ⟨false, 0x4e, chr '-'⟩,
  ⟨true, 0x55, chr '+'⟩, ⟨false, 0x55, chr '='⟩,
  ⟨true, 0x5d, chr '|'⟩, ⟨false, 0x5d, 0x5c⟩,
  ⟨true, 0x54, chr '{'⟩, ⟨false, 0x54, chr '['⟩,
  ⟨true, 0x5b, chr '}'⟩, ⟨false, 0x5b, chr ']'⟩,
  ⟨true, 0x4c, chr ':'⟩, ⟨false, 0x4c, chr ';'⟩,
  ⟨true, 0x52, 0x22⟩, ⟨false, 0x52, 0x27⟩,
  ⟨true, 0x41, chr '<'⟩, ⟨false, 0x41, chr ','⟩,
  ⟨true, 0x49, chr '>'⟩, ⟨false, 0x49, chr '.'⟩,
  ⟨true, 0x4a, chr '?'⟩, ⟨false, 0x4a, chr '/'⟩,
  ⟨true, 0x29, chr ' '⟩, ⟨false, 0x29, chr ' '⟩,
  ⟨true, 0x5a, chr '\n'⟩, ⟨false, 0x5a, chr '\n'⟩ ]

/-- The variables of the driver. -/
structure Keyboard where
  waiting : Bool
  chr : BitVec 8
  shift : Bool
  deriving DecidableEq, Repr

namespace Keyboard

/-- The variables before the first interrupt. -/
def initial : Keyboard := ⟨false, 0, false⟩

/-- The loop of `dispatch_scancode` over the table, up to the first match. -/
def dispatchLoop (scancode : BitVec 16) (shift : Bool) (keyboard : Keyboard) :
    List Ps2TranslatedScancode → Keyboard
  | [] => keyboard
  | entry :: rest =>
      if entry.shift = shift ∧ entry.scancode.setWidth 16 = scancode then
        { keyboard with chr := entry.chr, waiting := false }
      else dispatchLoop scancode shift keyboard rest

def dispatchScancode (scancode : Ps2Scancode) (shift : Bool) (keyboard : Keyboard) : Keyboard :=
  if scancode.type ≠ ps2ScancodeNormal then keyboard
  else dispatchLoop scancode.scancode shift keyboard scancodes

/-- What `kbd_interrupt` does with the scan code it has read. -/
def kbdScancode (scancode : Ps2Scancode) (keyboard : Keyboard) : Keyboard :=
  if scancode.scancode = 0x12 ∧ scancode.type &&& ~~~ps2ScancodeExtended ≠ 0 then
    { keyboard with shift := decide (scancode.type ≠ ps2ScancodeBreak) }
  else dispatchScancode scancode keyboard.shift keyboard

/-- `kbd_interrupt`, with the bytes that it leaves at the port. -/
def kbdInterrupt (unset : BitVec 16) (port : List (BitVec 8)) (keyboard : Keyboard) :
    Option (Keyboard × List (BitVec 8)) := do
  let (scancode, port) ← ps2Read unset port
  some (kbdScancode scancode keyboard, port)

end Keyboard

end WeakOS
