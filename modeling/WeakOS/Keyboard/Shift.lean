import Mathlib
import WeakOS.Foundation.Run
import WeakOS.Keyboard.Events

namespace WeakOS

open Foundation

namespace Keyboard

/-!
# The shift key

`kbd_interrupt` tells the shift keys by their code and masks the bit for
extended events out of the type.  What is left of the type of an extended
break code is not zero, so the break code of a fake shift counts as a press,
and so does the wide break code of the same number.
-/

namespace KeyEvent

def code (event : KeyEvent) : BitVec 16 := event.scancode.scancode

def isExtended : KeyEvent → Bool
  | .extended _ _ | .extendedRelease _ => true
  | _ => false

def isPress : KeyEvent → Bool
  | .normal _ _ | .extended _ _ | .wide _ _ _ => true
  | _ => false

/-- The events of the shift keys. -/
def isShift (event : KeyEvent) : Bool := !event.isExtended && event.code == 0x12

/-- The fake shifts that come with other keys. -/
def isFakeShift (event : KeyEvent) : Bool := event.isExtended && event.code == 0x12

end KeyEvent

/-- Whether the most recent event of a shift key was a press. -/
def shiftHeld (typed : List KeyEvent) : Bool :=
  (typed.reverse.find? KeyEvent.isShift).any KeyEvent.isPress

theorem shiftHeld_append (typed : List KeyEvent) (event : KeyEvent) :
    shiftHeld (typed ++ [event]) = if event.isShift then event.isPress else shiftHeld typed := by
  rw [shiftHeld, List.reverse_append, List.reverse_singleton, List.singleton_append,
    List.find?_cons]
  cases event.isShift <;> rfl

section Interrupts

variable (unset : BitVec 16)

/-- An interrupt for an event whose bytes are at the port. -/
theorem kbdInterrupt_encode (event : KeyEvent) (later : List (BitVec 8)) (keyboard : Keyboard) :
    kbdInterrupt unset (event.encode ++ later) keyboard =
      some (kbdScancode event.scancode keyboard, later) := by
  rw [kbdInterrupt, ps2Read_encode, Option.bind_eq_bind, Option.bind_some]

/-- One interrupt for each event, each with the bytes of its event at the port. -/
def interrupts (keyboard : Keyboard) (events : List KeyEvent) : Option Keyboard :=
  Run.run (fun keyboard event => (kbdInterrupt unset event.encode keyboard).map Prod.fst)
    keyboard events

theorem interrupts_append (keyboard : Keyboard) (events : List KeyEvent) (event : KeyEvent) :
    interrupts unset keyboard (events ++ [event]) =
      (interrupts unset keyboard events).map (kbdScancode event.scancode) := by
  have single := fun keyboard => kbdInterrupt_encode unset event [] keyboard
  simp only [List.append_nil] at single
  rw [interrupts, interrupts, Run.run, List.foldlM_append, Run.run, Option.bind_eq_bind]
  generalize events.foldlM (fun keyboard event => (kbdInterrupt unset event.encode keyboard).map
    Prod.fst) keyboard = reached
  cases reached with
  | none => rfl
  | some reached =>
      simp only [Option.bind_some, List.foldlM_cons, List.foldlM_nil, single, Option.map_some,
        Option.bind_eq_bind, Option.pure_def]

end Interrupts

/-! ## What an interrupt does to the variable -/

theorem dispatchLoop_shift (scancode : BitVec 16) (shift : Bool) (keyboard : Keyboard)
    (table : List Ps2TranslatedScancode) :
    (dispatchLoop scancode shift keyboard table).shift = keyboard.shift := by
  induction table with
  | nil => rfl
  | cons entry rest inductionHypothesis =>
      rw [dispatchLoop]
      split
      · rfl
      · exact inductionHypothesis

theorem dispatchScancode_shift (scancode : Ps2Scancode) (shift : Bool) (keyboard : Keyboard) :
    (dispatchScancode scancode shift keyboard).shift = keyboard.shift := by
  rw [dispatchScancode]
  split
  · rfl
  · exact dispatchLoop_shift _ _ _ _

/-- Events with other codes keep the variable. -/
theorem kbdScancode_shift_of_ne {event : KeyEvent} (other : event.code ≠ 0x12)
    (keyboard : Keyboard) : (kbdScancode event.scancode keyboard).shift = keyboard.shift := by
  rw [kbdScancode, if_neg (fun both => other both.1)]
  exact dispatchScancode_shift _ _ _

/-- What an event with the code of a shift key makes of the variable.  Of the
extended events only the normal one is masked out. -/
def setShift (held : Bool) : KeyEvent → Bool
  | .release _ => false
  | .extended _ _ => held
  | _ => true

theorem kbdScancode_shift {event : KeyEvent} (code : event.code = 0x12) (keyboard : Keyboard) :
    (kbdScancode event.scancode keyboard).shift = setShift keyboard.shift event := by
  have isCode : event.scancode.scancode = 0x12 := code
  have other := dispatchScancode_shift event.scancode keyboard.shift keyboard
  cases event with
  | extended lower plain =>
      have masked : ¬ ps2ScancodeExtended &&& ~~~ps2ScancodeExtended ≠ 0 := by decide
      rw [kbdScancode, if_neg (fun both => masked both.2), other]
      rfl
  | normal | release | extendedRelease | wide | wideRelease =>
      rw [kbdScancode, if_pos ⟨isCode, by simp only [KeyEvent.scancode]; decide⟩]
      rfl

/-- The events after which the variable is what the shift keys say.  The
break code of a fake shift sets it, so it must come while a shift key is held. -/
def TracksShift (typed : List KeyEvent) : KeyEvent → Prop
  | .extendedRelease code => code = 0x12 → shiftHeld typed = true
  | .wideRelease lower upper => wideScancode lower upper ≠ 0x12
  | _ => True

theorem setWidth_eq_shift {code : BitVec 8} : code.setWidth 16 = (0x12 : BitVec 16) ↔ code = 0x12 := by
  revert code
  decide

/-- From a state that tracks the shift keys, exactly these events lead to one
that does. -/
theorem tracks_step_iff {typed : List KeyEvent} {keyboard : Keyboard}
    (tracked : keyboard.shift = shiftHeld typed) (event : KeyEvent) :
    (kbdScancode event.scancode keyboard).shift = shiftHeld (typed ++ [event]) ↔
      TracksShift typed event := by
  rw [shiftHeld_append]
  by_cases code : event.code = 0x12
  · rw [kbdScancode_shift code, tracked]
    simp only [KeyEvent.isShift, code, beq_self_eq_true, Bool.and_true]
    cases event with
    | extendedRelease lower =>
        have isCode : lower = 0x12 := setWidth_eq_shift.mp code
        exact ⟨fun set _ => set.symm, fun held => (held isCode).symm⟩
    | wideRelease lower upper => exact iff_of_false Bool.noConfusion (fun other => other code)
    | normal | release | extended | wide => exact iff_of_true rfl trivial
  · have shift : event.isShift = false := by
      rw [KeyEvent.isShift, beq_eq_false_iff_ne.mpr code, Bool.and_false]
    rw [shift, kbdScancode_shift_of_ne code, tracked]
    refine iff_of_true rfl ?_
    cases event with
    | extendedRelease lower => exact fun isCode => absurd (setWidth_eq_shift.mpr isCode) code
    | wideRelease lower upper => exact code
    | normal | release | extended | wide => trivial

/-! ## Runs -/

section Runs

variable (unset : BitVec 16)

/-- After each interrupt the variable says whether a shift key is held, and
the fake shifts leave it as it was. -/
def ShiftTracked (events : List KeyEvent) : Prop :=
  (∀ typed, typed <+: events →
    (interrupts unset initial typed).map Keyboard.shift = some (shiftHeld typed)) ∧
  ∀ typed event, typed ++ [event] <+: events → event.isFakeShift = true →
    (interrupts unset initial (typed ++ [event])).map Keyboard.shift =
      (interrupts unset initial typed).map Keyboard.shift

/-- A fake shift is no event of a shift key. -/
theorem shiftHeld_fake {event : KeyEvent} (fake : event.isFakeShift = true) (typed : List KeyEvent) :
    shiftHeld (typed ++ [event]) = shiftHeld typed := by
  have extended : event.isExtended = true := (Bool.and_eq_true_iff.mp fake).1
  rw [shiftHeld_append, KeyEvent.isShift, extended]
  rfl

/-- The variable follows the shift keys along events of which each keeps it
tracked. -/
theorem interrupts_tracked {events : List KeyEvent}
    (tracks : ∀ typed event, typed ++ [event] <+: events → TracksShift typed event)
    (typed : List KeyEvent) (earlier : typed <+: events) :
    (interrupts unset initial typed).map Keyboard.shift = some (shiftHeld typed) := by
  induction typed using List.reverseRecOn with
  | nil => rfl
  | append_singleton typed event inductionHypothesis =>
      have before := inductionHypothesis ((List.prefix_append typed [event]).trans earlier)
      rcases Option.map_eq_some_iff.mp before with ⟨keyboard, reached, tracked⟩
      rw [interrupts_append, reached, Option.map_some, Option.map_some,
        (tracks_step_iff tracked event).mpr (tracks typed event earlier)]

/-- Shift is tracked along exactly those events that contain no wide break
code 0x12, and an extended break code 0x12 only while a shift key is held. -/
theorem shiftTracked_iff (events : List KeyEvent) :
    ShiftTracked unset events ↔
      ∀ typed event, typed ++ [event] <+: events → TracksShift typed event := by
  constructor
  · intro tracked typed event earlier
    have before := tracked.1 typed ((List.prefix_append typed [event]).trans earlier)
    have after := tracked.1 (typed ++ [event]) earlier
    rcases Option.map_eq_some_iff.mp before with ⟨keyboard, reached, held⟩
    rw [interrupts_append, reached, Option.map_some, Option.map_some] at after
    exact (tracks_step_iff held event).mp (Option.some.inj after)
  · intro tracks
    have always := interrupts_tracked unset tracks
    refine ⟨always, fun typed event earlier fake => ?_⟩
    rw [always (typed ++ [event]) earlier, shiftHeld_fake fake,
      always typed ((List.prefix_append typed [event]).trans earlier)]

/-- The break code of the fake shift that comes with PrintScreen sets shift
although no shift key is held. -/
theorem shiftTracked_printScreen : ¬ ShiftTracked 0 [.extendedRelease 0x12] := by
  intro tracked
  have after := tracked.1 [.extendedRelease 0x12] (List.prefix_refl _)
  exact absurd after (by decide)

end Runs

end Keyboard

end WeakOS
