import Mathlib
import WeakOS.Userspace.Fgets

namespace WeakOS

namespace Userspace
namespace Lines

/-!
# Lines one after the other

`getline` takes the characters from `wait_char`, one at a time, so that a call
goes on where the last one has stopped.  A line that fills its buffer leaves its
newline to the next call.
-/

/-! ## The function -/

/-- A buffer and its size. -/
structure LineCall where
  ch : BitVec 32
  size : BitVec 32
  sized : size ≠ 0

/-- How many characters have been delivered, what has been passed to `putchar`, and what
has been written. -/
structure Reader where
  delivered : Nat
  echoed : List (BitVec 8)
  stores : List Store
  deriving DecidableEq

namespace Reader

variable (typed : Nat → BitVec 8) (reader : Reader)

/-- `wait_char`; its results are a sequence. -/
def waitChar : BitVec 8 × Reader :=
  (typed reader.delivered, { reader with delivered := reader.delivered + 1 })

def putchar (c : BitVec 8) : Reader := { reader with echoed := reader.echoed ++ [c] }

def store (addr : BitVec 32) (byte : BitVec 8) : Reader :=
  { reader with stores := reader.stores ++ [⟨addr, byte⟩] }

/-- The loop of `getline` at `i`, with `left` iterations left before the buffer is full. -/
def readLoop (ch : BitVec 32) : (left i : Nat) → Reader → Reader
  | 0, i, reader => reader.store (ch + BitVec.ofNat 32 i) 0
  | left + 1, i, reader =>
      let (c, reader) := reader.waitChar typed
      let reader := reader.putchar c
      if c = Stdio.newline then reader.store (ch + BitVec.ofNat 32 i) 0
      else readLoop ch left (i + 1) (reader.store (ch + BitVec.ofNat 32 i) c)

def getline (call : LineCall) : Reader := reader.readLoop typed call.ch (call.size - 1).toNat 0

/-- Calls one after the other. -/
def run (calls : List LineCall) : Reader := calls.foldl (getline typed) reader

end Reader

/-! ## One line -/

section Line

variable {typed : Nat → BitVec 8} {first left count : Nat}

/-- Some characters of the stream. -/
def chars (typed : Nat → BitVec 8) (first count : Nat) : List (BitVec 8) :=
  (List.range' first count).map typed

/-- Bytes at an address and behind it. -/
def storesAt : (addr : BitVec 32) → List (BitVec 8) → List Store
  | _, [] => []
  | addr, byte :: rest => ⟨addr, byte⟩ :: storesAt (addr + 1) rest

/-- The characters up to the first newline, if it is among the next ones, or all of these. -/
def Consumes (typed : Nat → BitVec 8) (first left count : Nat) : Prop :=
  (∃ k < left, typed (first + k) = Stdio.newline ∧ (∀ j < k, typed (first + j) ≠ Stdio.newline) ∧
      count = k + 1) ∨
    (∀ j < left, typed (first + j) ≠ Stdio.newline) ∧ count = left

theorem Consumes.succ (consumes : Consumes typed (first + 1) left count)
    (other : typed first ≠ Stdio.newline) : Consumes typed first (left + 1) (count + 1) := by
  have before : ∀ {k}, (∀ j < k, typed (first + 1 + j) ≠ Stdio.newline) →
      ∀ j < k + 1, typed (first + j) ≠ Stdio.newline := by
    intro k later j small
    cases j with
    | zero => exact other
    | succ j =>
        have earlier := later j (Nat.lt_of_succ_lt_succ small)
        rwa [Nat.add_assoc, Nat.add_comm 1] at earlier
  rcases consumes with ⟨k, small, newline, later, rfl⟩ | ⟨later, rfl⟩
  · rw [Nat.add_assoc, Nat.add_comm 1] at newline
    exact Or.inl ⟨k + 1, Nat.succ_lt_succ small, newline, before later, rfl⟩
  · exact Or.inr ⟨before later, rfl⟩

/-- What a call does: the consumed characters are echoed, and those in front of the
newline are stored, with a terminator. -/
structure ReadsLine (typed : Nat → BitVec 8) (addr : BitVec 32) (left : Nat) (before after : Reader)
    (count : Nat) : Prop where
  consumes : Consumes typed before.delivered left count
  delivered : after.delivered = before.delivered + count
  echoed : after.echoed = before.echoed ++ chars typed before.delivered count
  stores : after.stores = before.stores ++
    storesAt addr ((chars typed before.delivered count).takeWhile (· ≠ Stdio.newline) ++ [0])

theorem chars_succ : chars typed first (count + 1) = typed first :: chars typed (first + 1) count := by
  rw [chars, List.range'_succ, List.map_cons, chars]

theorem chars_append {more : Nat} :
    chars typed first count ++ chars typed (first + count) more = chars typed first (count + more) := by
  rw [chars, chars, ← List.map_append, List.range'_append_1, chars]

/-- A newline is consumed, and the terminator takes its place. -/
theorem ReadsLine.newline {addr : BitVec 32} {reader : Reader}
    (newline : typed reader.delivered = Stdio.newline) :
    ReadsLine typed addr (left + 1) reader
      (((reader.waitChar typed).2.putchar (typed reader.delivered)).store addr 0) 1 where
  consumes := Or.inl ⟨0, Nat.succ_pos left, newline, nofun, rfl⟩
  delivered := rfl
  echoed := rfl
  stores := by
    rw [chars_succ, List.takeWhile_cons_of_neg (by simpa using newline)]
    rfl

/-- Another character is stored, and the line goes on behind it. -/
theorem ReadsLine.cons {addr : BitVec 32} {reader after : Reader}
    (other : typed reader.delivered ≠ Stdio.newline)
    (reads : ReadsLine typed (addr + 1) left
      (((reader.waitChar typed).2.putchar (typed reader.delivered)).store addr (typed reader.delivered))
      after count) :
    ReadsLine typed addr (left + 1) reader after (count + 1) where
  consumes := reads.consumes.succ other
  delivered := by
    rw [reads.delivered, Nat.add_comm count, ← Nat.add_assoc]
    rfl
  echoed := by
    rw [reads.echoed, chars_succ]
    exact List.append_assoc _ _ _
  stores := by
    rw [reads.stores, chars_succ, List.takeWhile_cons_of_pos (by simpa using other)]
    exact List.append_assoc _ _ _

theorem readLoop_readsLine (ch : BitVec 32) (left i : Nat) (reader : Reader) :
    ∃ count,
      ReadsLine typed (ch + BitVec.ofNat 32 i) left reader (reader.readLoop typed ch left i) count := by
  induction left generalizing i reader with
  | zero => exact ⟨0, Or.inr ⟨nofun, rfl⟩, rfl, (List.append_nil _).symm, rfl⟩
  | succ left inductionHypothesis =>
      rw [Reader.readLoop]
      dsimp only [Reader.waitChar]
      by_cases newline : typed reader.delivered = Stdio.newline
      · rw [if_pos newline]
        exact ⟨1, ReadsLine.newline newline⟩
      · rw [if_neg newline]
        rcases inductionHypothesis (i + 1) _ with ⟨count, reads⟩
        have address : ch + BitVec.ofNat 32 (i + 1) = ch + BitVec.ofNat 32 i + 1 := by
          rw [BitVec.ofNat_add, add_assoc]
          rfl
        rw [address] at reads
        exact ⟨count + 1, reads.cons newline⟩

/-- No more is stored than fits into the buffer. -/
theorem ReadsLine.stored_le {addr : BitVec 32} {before after : Reader}
    (reads : ReadsLine typed addr left before after count) :
    ((chars typed before.delivered count).takeWhile (· ≠ Stdio.newline) ++ [0]).length ≤ left + 1 := by
  have few : count ≤ left := by
    rcases reads.consumes with ⟨k, small, -, -, rfl⟩ | ⟨-, rfl⟩
    · exact small
    · exact Nat.le_refl _
  have shorter : ((chars typed before.delivered count).takeWhile (· ≠ Stdio.newline)).length ≤
      (chars typed before.delivered count).length := (List.takeWhile_prefix _).length_le
  rw [chars, List.length_map, List.length_range', ← chars] at shorter
  rw [List.length_append, List.length_singleton]
  exact Nat.succ_le_succ (shorter.trans few)

/-- The writes and the echo are those of a single line that begins in the stream. -/
theorem readLoop_eq_getlineLoop (ch : BitVec 32) (left : Nat) {i : Nat} {reader : Reader}
    (position : reader.delivered = first + i) :
    (reader.readLoop typed ch left i).stores =
        reader.stores ++ (getlineLoop (fun k => typed (first + k)) ch left i).stores ∧
      (reader.readLoop typed ch left i).echoed =
        reader.echoed ++ (getlineLoop (fun k => typed (first + k)) ch left i).echoed := by
  induction left generalizing i reader with
  | zero => exact ⟨rfl, (List.append_nil _).symm⟩
  | succ left inductionHypothesis =>
      rw [Reader.readLoop, getlineLoop]
      dsimp only [Reader.waitChar]
      rw [position]
      by_cases newline : typed (first + i) = Stdio.newline
      · rw [if_pos newline, if_pos newline]
        exact ⟨rfl, rfl⟩
      · rw [if_neg newline, if_neg newline]
        have next := @inductionHypothesis (i + 1)
          (((reader.waitChar typed).2.putchar (typed (first + i))).store (ch + BitVec.ofNat 32 i)
            (typed (first + i))) (congrArg (· + 1) position)
        rw [Reader.waitChar, position] at next
        exact ⟨next.1.trans (List.append_assoc _ _ _), next.2.trans (List.append_assoc _ _ _)⟩

end Line

/-! ## Many lines -/

section Run

variable (typed : Nat → BitVec 8)

theorem getline_readsLine (reader : Reader) (call : LineCall) : ∃ count,
    ReadsLine typed call.ch (call.size.toNat - 1) reader (reader.getline typed call) count := by
  have full : (call.size - 1).toNat = call.size.toNat - 1 := by
    have sized := call.sized
    bv_omega
  have reads := @readLoop_readsLine typed call.ch (call.size - 1).toNat 0 reader
  rw [BitVec.add_zero] at reads
  rw [Reader.getline, ← full]
  exact reads

/-- Before the first line. -/
def Reader.start : Reader := ⟨0, [], []⟩

/-- A run has echoed what has been delivered. -/
theorem run_echoed (calls : List LineCall) : (Reader.start.run typed calls).echoed =
    chars typed 0 (Reader.start.run typed calls).delivered := by
  induction calls using List.reverseRecOn with
  | nil => rfl
  | append_singleton earlier call inductionHypothesis =>
      have last : Reader.start.run typed (earlier ++ [call]) =
          (Reader.start.run typed earlier).getline typed call := List.foldl_append
      rcases getline_readsLine typed (Reader.start.run typed earlier) call with ⟨count, reads⟩
      have whole := @chars_append typed 0 (Reader.start.run typed earlier).delivered count
      rw [Nat.zero_add] at whole
      rw [last, reads.echoed, reads.delivered, inductionHypothesis, whole]

/-- Every call, after any earlier ones, reads its line where the one before has stopped,
and stores it in its buffer; all that has been delivered since the first call has been
echoed, in order. -/
theorem run_partitions (earlier : List LineCall) (call : LineCall) :
    (∃ count, ReadsLine typed call.ch (call.size.toNat - 1) (Reader.start.run typed earlier)
        (Reader.start.run typed (earlier ++ [call])) count ∧
      ((chars typed (Reader.start.run typed earlier).delivered count).takeWhile (· ≠ Stdio.newline) ++
        [0]).length ≤ call.size.toNat) ∧
      (Reader.start.run typed (earlier ++ [call])).echoed =
        chars typed 0 (Reader.start.run typed (earlier ++ [call])).delivered := by
  refine ⟨?_, run_echoed typed (earlier ++ [call])⟩
  have last : Reader.start.run typed (earlier ++ [call]) =
      (Reader.start.run typed earlier).getline typed call := List.foldl_append
  have sized := BitVec.toNat_ne_iff_ne.mpr call.sized
  rcases getline_readsLine typed (Reader.start.run typed earlier) call with ⟨count, reads⟩
  have few := reads.stored_le
  rw [Nat.sub_add_cancel (Nat.one_le_iff_ne_zero.mpr sized)] at few
  rw [last]
  exact ⟨count, reads, few⟩

/-- The first line fills its buffer, so the second call finds nothing but its newline. -/
example : (Reader.start.run (fun k => (textOf "hello\nls\n").getD k 0)
    [⟨0x1000, 6, by decide⟩, ⟨0x2000, 3, by decide⟩, ⟨0x3000, 10, by decide⟩]).stores.map Store.byte =
      textOf "hello" ++ [0] ++ [0] ++ textOf "ls" ++ [0] := by
  decide

end Run

end Lines
end Userspace

end WeakOS
