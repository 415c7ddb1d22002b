import Mathlib
import WeakOS.Foundation.Run
import WeakOS.Keyboard.Model

namespace WeakOS

open Foundation

namespace Keyboard

/-!
# Waiting for a character

`wait_char` sets a flag, polls it until an interrupt has cleared it, and reads
the character.  Interrupts come at any time, between two calls and between the
last poll and the read as well.  The state of a run records what was typed and
what the finished calls have returned.
-/

/-- A scan code that was read, with the shift variable at that time. -/
structure Keystroke where
  scancode : Ps2Scancode
  shift : Bool
  deriving DecidableEq

/-- The character that a key press stands for. -/
def Keystroke.translation (keystroke : Keystroke) : Option (BitVec 8) :=
  if keystroke.scancode.type = ps2ScancodeNormal then
    (scancodes.find? (fun entry => entry.shift = keystroke.shift ∧
      entry.scancode.setWidth 16 = keystroke.scancode.scancode)).map Ps2TranslatedScancode.chr
  else none

/-- What remains to be done of a call of `wait_char`. -/
inductive Phase where
  | outside
  | polling
  | reading
  deriving DecidableEq

/-- A finished call, with the number of interrupts before it began. -/
structure WaitCall where
  began : Nat
  returned : BitVec 8
  deriving DecidableEq

structure Waiter where
  keyboard : Keyboard
  phase : Phase
  typed : List Keystroke
  began : Nat
  calls : List WaitCall
  deriving DecidableEq

namespace Waiter

/-- Before the first call. -/
def start (keyboard : Keyboard) : Waiter := ⟨keyboard, .outside, [], 0, []⟩

/-- The steps of `wait_char`, and an interrupt with the bytes at the port. -/
inductive Action where
  | setWaiting
  | poll
  | readChr
  | interrupt (unset : BitVec 16) (port : List (BitVec 8))

def step (waiter : Waiter) : Action → Option Waiter
  | .setWaiting =>
      if waiter.phase = .outside then
        some { waiter with
          keyboard := { waiter.keyboard with waiting := true }
          phase := .polling
          began := waiter.typed.length }
      else none
  | .poll =>
      if waiter.phase = .polling then
        some (if waiter.keyboard.waiting then waiter else { waiter with phase := .reading })
      else none
  | .readChr =>
      if waiter.phase = .reading then
        some { waiter with
          phase := .outside
          calls := waiter.calls ++ [⟨waiter.began, waiter.keyboard.chr⟩] }
      else none
  | .interrupt unset port => do
      let (scancode, _) ← ps2Read unset port
      let (keyboard, _) ← kbdInterrupt unset port waiter.keyboard
      some { waiter with
        keyboard
        typed := waiter.typed ++ [⟨scancode, waiter.keyboard.shift⟩] }

end Waiter

/-! ## What an interrupt does to the shared variables -/

theorem dispatchLoop_eq (scancode : BitVec 16) (shift : Bool) (keyboard : Keyboard)
    (table : List Ps2TranslatedScancode) :
    dispatchLoop scancode shift keyboard table =
      (table.find? (fun entry => entry.shift = shift ∧ entry.scancode.setWidth 16 = scancode)).elim
        keyboard (fun entry => { keyboard with chr := entry.chr, waiting := false }) := by
  induction table with
  | nil => rfl
  | cons entry rest inductionHypothesis =>
      rw [dispatchLoop, List.find?_cons, inductionHypothesis]
      by_cases found : entry.shift = shift ∧ entry.scancode.setWidth 16 = scancode
      · rw [if_pos found, decide_eq_true found]
        rfl
      · rw [if_neg found, decide_eq_false found]

/-- The table has no entry for a shift key. -/
theorem scancode_ne_shift : ∀ entry ∈ scancodes, entry.scancode.setWidth 16 ≠ (0x12 : BitVec 16) := by
  decide

theorem translation_shift {keystroke : Keystroke} (code : keystroke.scancode.scancode = 0x12) :
    keystroke.translation = none := by
  have missing : scancodes.find? (fun entry => entry.shift = keystroke.shift ∧
      entry.scancode.setWidth 16 = keystroke.scancode.scancode) = none := by
    refine List.find?_eq_none.mpr (fun entry member => ?_)
    rw [code, decide_eq_true_eq]
    exact fun both => scancode_ne_shift entry member both.2
  rw [Keystroke.translation, missing, Option.map_none, ite_self]

/-- A key press with a translation stores it and clears the flag.  Any other
scan code leaves both variables as they are. -/
theorem kbdScancode_translation (scancode : Ps2Scancode) (keyboard : Keyboard) :
    (kbdScancode scancode keyboard).chr =
        (Keystroke.translation ⟨scancode, keyboard.shift⟩).getD keyboard.chr ∧
      (kbdScancode scancode keyboard).waiting =
        ((Keystroke.translation ⟨scancode, keyboard.shift⟩).isNone && keyboard.waiting) := by
  rw [kbdScancode]
  split
  · rename_i both
    rw [translation_shift both.1]
    exact ⟨rfl, rfl⟩
  · rw [dispatchScancode, Keystroke.translation]
    by_cases normal : scancode.type = ps2ScancodeNormal
    · rw [if_neg (not_not.mpr normal), if_pos normal, dispatchLoop_eq]
      cases scancodes.find? _ with
      | none => exact ⟨rfl, rfl⟩
      | some entry => exact ⟨rfl, rfl⟩
    · rw [if_pos normal, if_neg normal]
      exact ⟨rfl, rfl⟩

/-! ## Runs -/

/-- The press at a position of the typed sequence came after a call had begun,
and the call has returned its translation. -/
def Returns (typed : List Keystroke) (position : Nat) (call : WaitCall) : Prop :=
  call.began ≤ position ∧ typed[position]?.bind Keystroke.translation = some call.returned

section Returns

variable {typed : List Keystroke} {position : Nat} {call : WaitCall}

theorem Returns.lt (returns : Returns typed position call) : position < typed.length := by
  rcases Option.bind_eq_some_iff.mp returns.2 with ⟨keystroke, present, -⟩
  exact (List.getElem?_eq_some_iff.mp present).1

/-- What is typed later does not change what has been returned. -/
theorem Returns.append (returns : Returns typed position call) (later : List Keystroke) :
    Returns (typed ++ later) position call := by
  refine ⟨returns.1, ?_⟩
  rw [List.getElem?_append_left returns.lt]
  exact returns.2

/-- A press that has just been typed. -/
theorem Returns.last {keystroke : Keystroke} {began : Nat} {ch : BitVec 8}
    (translated : keystroke.translation = some ch) (begun : began ≤ typed.length) :
    Returns (typed ++ [keystroke]) typed.length ⟨began, ch⟩ := by
  refine ⟨begun, ?_⟩
  rw [List.getElem?_concat_length]
  exact translated

theorem Returns.all_lt {positions : List Nat} {calls : List WaitCall}
    (returned : List.Forall₂ (Returns typed) positions calls) :
    ∀ position ∈ positions, position < typed.length := by
  induction returned with
  | nil => exact fun position member => absurd member List.not_mem_nil
  | cons returns _ inductionHypothesis =>
      exact List.forall_mem_cons.mpr ⟨returns.lt, inductionHypothesis⟩

end Returns

namespace Waiter

/-- The finished calls have returned presses at increasing positions, before
the current call began.  Once the flag of the current call is clear, the
character is that of a press since its beginning. -/
structure Fresh (waiter : Waiter) : Prop where
  history : ∃ positions : List Nat, List.Forall₂ (Returns waiter.typed) positions waiter.calls ∧
    positions.Pairwise (· < ·) ∧ (waiter.phase ≠ .outside → ∀ position ∈ positions, position < waiter.began)
  begun : waiter.began ≤ waiter.typed.length
  pending : waiter.phase = .polling ∧ waiter.keyboard.waiting = false ∨ waiter.phase = .reading →
    ∃ position, Returns waiter.typed position ⟨waiter.began, waiter.keyboard.chr⟩

variable {waiter next : Waiter}

theorem Fresh.setWaiting (fresh : waiter.Fresh) (taken : waiter.step .setWaiting = some next) :
    next.Fresh := by
  rcases Option.ite_none_right_eq_some.mp taken with ⟨-, stepped⟩
  cases stepped
  rcases fresh.history with ⟨positions, returned, increasing, -⟩
  refine ⟨⟨positions, returned, increasing, fun _ => Returns.all_lt returned⟩, Nat.le_refl _, ?_⟩
  rintro (⟨-, clear⟩ | reading)
  · cases clear
  · cases reading

theorem Fresh.poll (fresh : waiter.Fresh) (taken : waiter.step .poll = some next) :
    next.Fresh := by
  rcases Option.ite_none_right_eq_some.mp taken with ⟨polling, stepped⟩
  have inside : waiter.phase ≠ .outside := by
    rw [polling]
    exact Phase.noConfusion
  rcases fresh.history with ⟨positions, returned, increasing, earlier⟩
  split at stepped
  · exact Option.some.inj stepped ▸ fresh
  · rename_i clear
    cases stepped
    exact ⟨⟨positions, returned, increasing, fun _ => earlier inside⟩, fresh.begun,
      fun _ => fresh.pending (Or.inl ⟨polling, Bool.eq_false_iff.mpr clear⟩)⟩

theorem Fresh.readChr (fresh : waiter.Fresh) (taken : waiter.step .readChr = some next) :
    next.Fresh := by
  rcases Option.ite_none_right_eq_some.mp taken with ⟨reading, stepped⟩
  cases stepped
  have inside : waiter.phase ≠ .outside := by
    rw [reading]
    exact Phase.noConfusion
  rcases fresh.history with ⟨positions, returned, increasing, earlier⟩
  rcases fresh.pending (Or.inr reading) with ⟨position, returns⟩
  refine ⟨⟨positions ++ [position], ?_, ?_, fun outside => absurd rfl outside⟩, fresh.begun, ?_⟩
  · exact List.rel_append returned (List.Forall₂.cons returns List.Forall₂.nil)
  · refine List.pairwise_append.mpr ⟨increasing, List.pairwise_singleton _ _, ?_⟩
    intro other member last isLast
    rw [List.mem_singleton.mp isLast]
    exact Nat.lt_of_lt_of_le (earlier inside other member) returns.1
  · rintro (⟨polling, -⟩ | reading)
    · cases polling
    · cases reading

/-- An interrupt handles the scan code that it reads. -/
theorem step_interrupt {unset : BitVec 16} {port : List (BitVec 8)}
    (taken : waiter.step (.interrupt unset port) = some next) :
    ∃ scancode, next = { waiter with
      keyboard := kbdScancode scancode waiter.keyboard
      typed := waiter.typed ++ [⟨scancode, waiter.keyboard.shift⟩] } := by
  rcases Option.bind_eq_some_iff.mp taken with ⟨⟨scancode, left⟩, read, handled⟩
  have interrupted : kbdInterrupt unset port waiter.keyboard =
      some (kbdScancode scancode waiter.keyboard, left) := by
    rw [kbdInterrupt, read, Option.bind_eq_bind, Option.bind_some]
  rw [interrupted] at handled
  exact ⟨scancode, (Option.some.inj handled).symm⟩

theorem Fresh.interrupt {unset : BitVec 16} {port : List (BitVec 8)} (fresh : waiter.Fresh)
    (taken : waiter.step (.interrupt unset port) = some next) : next.Fresh := by
  rcases step_interrupt taken with ⟨scancode, rfl⟩
  rcases fresh.history with ⟨positions, returned, increasing, earlier⟩
  rcases kbdScancode_translation scancode waiter.keyboard with ⟨chr, waiting⟩
  refine ⟨⟨positions, returned.imp (fun _ _ returns => returns.append _), increasing, earlier⟩,
    ?_, ?_⟩
  · rw [List.length_append]
    exact Nat.le_add_right_of_le fresh.begun
  · intro cleared
    simp only [chr, waiting] at cleared ⊢
    cases translated : Keystroke.translation ⟨scancode, waiter.keyboard.shift⟩ with
    | none =>
        simp only [translated, Option.isNone_none, Bool.true_and] at cleared
        rcases fresh.pending cleared with ⟨position, returns⟩
        exact ⟨position, returns.append _⟩
    | some ch => exact ⟨waiter.typed.length, Returns.last translated fresh.begun⟩

theorem Fresh.step {action : Action} (fresh : waiter.Fresh)
    (taken : waiter.step action = some next) : next.Fresh := by
  cases action with
  | setWaiting => exact fresh.setWaiting taken
  | poll => exact fresh.poll taken
  | readChr => exact fresh.readChr taken
  | interrupt unset port => exact fresh.interrupt taken

theorem fresh_start (keyboard : Keyboard) : (start keyboard).Fresh where
  history := ⟨[], List.Forall₂.nil, List.Pairwise.nil, fun outside => absurd rfl outside⟩
  begun := Nat.le_refl 0
  pending := by
    rintro (⟨polling, -⟩ | reading)
    · cases polling
    · cases reading

theorem fresh_run {keyboard : Keyboard} {actions : List Action} {last : Waiter}
    (reached : Run.run step (start keyboard) actions = some last) : last.Fresh :=
  Run.run_invariant (fun _ _ _ fresh _ taken => fresh.step taken) (fresh_start keyboard)
    (Run.eachStep_of_forall_mem (fun _ _ => trivial)) reached

/-- However the calls and the interrupts interleave, the calls return the
translations of presses at increasing positions of what was typed, each of
which came after its call had begun. -/
theorem waitChar_returns {keyboard : Keyboard} {actions : List Action} {last : Waiter}
    (reached : Run.run step (start keyboard) actions = some last) :
    ∃ positions : List Nat, List.Forall₂ (Returns last.typed) positions last.calls ∧
      positions.Pairwise (· < ·) := by
  rcases (fresh_run reached).history with ⟨positions, returned, increasing, -⟩
  exact ⟨positions, returned, increasing⟩

/-- Two keys are pressed between two tests of the flag, and the later one is
returned. -/
theorem waitChar_returns_later :
    ∃ last, Run.run step (start initial) [.interrupt 0 [0x1c], .setWaiting, .poll,
        .interrupt 0 [0x32], .interrupt 0 [0xf0, 0x32], .interrupt 0 [0x21], .poll, .readChr] =
          some last ∧ last.calls = [⟨1, 0x63⟩] ∧
      ∃ positions : List Nat, List.Forall₂ (Returns last.typed) positions last.calls ∧
        positions.Pairwise (· < ·) := by
  have reached : Run.run step (start initial) [.interrupt 0 [0x1c], .setWaiting, .poll,
      .interrupt 0 [0x32], .interrupt 0 [0xf0, 0x32], .interrupt 0 [0x21], .poll, .readChr] =
        some ⟨⟨false, 0x63, false⟩, .outside, [⟨⟨1, 0x1c⟩, false⟩, ⟨⟨1, 0x32⟩, false⟩,
          ⟨⟨2, 0x32⟩, false⟩, ⟨⟨1, 0x21⟩, false⟩], 1, [⟨1, 0x63⟩]⟩ := by
    decide
  exact ⟨_, reached, rfl, waitChar_returns reached⟩

end Waiter

end Keyboard

end WeakOS
