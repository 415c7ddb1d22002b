import Mathlib
import WeakOS.Foundation.Run
import WeakOS.Libc.CString
import WeakOS.Userspace.Fgets

namespace WeakOS

open Foundation X86

namespace Userspace

/-!
# The shell

`main` hands the address of its only pointer to the command block to
`get_token_and_advance`, and the tokenizer moves this pointer.  The next command
is stored from there on, and its last byte is cleared 255 bytes further on.
-/

/-- What the kernel stores for a command line, without the terminator. -/
structure DeliveredLine where
  text : List (BitVec 8)
  short : text.length + 1 ≤ 100

def DeliveredLine.stored (line : DeliveredLine) : List (BitVec 8) := line.text ++ [0]

/-- The block that `malloc` has returned, and what `listdir` does to memory.  Its
variables are those of the library and lie elsewhere. -/
structure Shell where
  block : BitVec 32
  listdir : Mem → Mem
  allocated : block ≠ 0
  fits : block.toNat + 256 ≤ 2 ^ 32
  listdir_block : ∀ mem addr, (addr - block).toNat < 256 → listdir mem addr = mem addr

/-- The pointer of `main`, the memory, and what has been written by way of the pointer. -/
structure ShellState where
  mem : Mem
  cmd : BitVec 32
  stores : List Store

namespace ShellState

variable (state : ShellState)

def write (addr : BitVec 32) (byte : BitVec 8) : ShellState :=
  { state with
    mem := Function.update state.mem addr byte
    stores := state.stores ++ [⟨addr, byte⟩] }

/-- Bytes one behind the other. -/
def writeAll (addr : BitVec 32) : List (BitVec 8) → ShellState → ShellState
  | [], state => state
  | byte :: rest, state => writeAll (addr + 1) rest (state.write addr byte)

def advance : ShellState := { state with cmd := state.cmd + 1 }

end ShellState

namespace Shell

def cmdSize : BitVec 32 := 256

def acceptCmd (line : DeliveredLine) (state : ShellState) : ShellState :=
  (ShellState.writeAll state.cmd line.stored state).write (state.cmd + (cmdSize - 1)) 0

/-- The token that is returned, if there is one, and the state after the call. -/
abbrev Token := Option (BitVec 32) × ShellState

/-- The loop of `get_token_and_advance`, with the recursive call as an argument.  A
string is empty when its first byte is zero. -/
def tokenLoop (again : ShellState → Option Token) (start : BitVec 32) : Nat → ShellState → Option Token
  | 0, _ => none
  | fuel + 1, state =>
      if state.mem state.cmd ≠ 0 ∧ state.mem state.cmd ≠ chr '\n' then
        if state.mem state.cmd = chr ' ' then
          let state := (state.write state.cmd 0).advance
          if state.mem start = 0 then again state else some (some start, state)
        else tokenLoop again start fuel state.advance
      else
        let state := if state.mem state.cmd = chr '\n' then state.write state.cmd 0 else state
        if state.mem start = 0 then some (none, state) else some (some start, state)

/-- `get_token_and_advance`; there is no result when it needs more than `fuel` calls
or a loop needs more than `fuel` iterations. -/
def getTokenAndAdvance : Nat → ShellState → Option Token
  | 0, _ => none
  | fuel + 1, state =>
      if state.cmd = 0 ∨ state.mem state.cmd = 0 then some (none, state)
      else tokenLoop (getTokenAndAdvance fuel) state.cmd (fuel + 1) state

/-- `!strcmp(token, text)`. -/
def isToken (mem : Mem) : (token : BitVec 32) → (text : List (BitVec 8)) → Bool
  | token, [] => mem token = 0
  | token, ch :: rest => mem token = ch && isToken mem (token + 1) rest

variable (shell : Shell)

/-- The inner loop of `main`. -/
def commandLoop : Nat → ShellState → Option ShellState
  | 0, _ => none
  | fuel + 1, state => do
      let (token, state) ← getTokenAndAdvance (fuel + 1) state
      match token with
      | none => some state
      | some token =>
          if isToken state.mem token (textOf "ls") then
            commandLoop fuel { state with mem := shell.listdir state.mem }
          else commandLoop fuel state

/-- One iteration of the loop of `main`.  A line of 100 bytes has no more tokens, and
no longer ones, than the fuel allows. -/
def iteration (state : ShellState) (line : DeliveredLine) : Option ShellState :=
  shell.commandLoop 101 (acceptCmd line state)

/-- Where the loop of `main` begins. -/
def initial (mem : Mem) : ShellState := ⟨mem, shell.block, []⟩

/-- Everything is written inside the block. -/
def Inside (state : ShellState) : Prop :=
  ∀ store ∈ state.stores, (store.addr - shell.block).toNat < 256

/-- The line has no token: it is empty, or it begins with a newline. -/
def Blank (line : DeliveredLine) : Prop :=
  ∀ ch ∈ line.text.head?, ch = 0 ∨ ch = chr '\n'

/-! ## What is written -/

/-- Between two states, bytes have been written at `count` addresses from `base` on only. -/
structure Grows (base : BitVec 32) (count : Nat) (before after : ShellState) : Prop where
  earlier : before.stores <+: after.stores
  new : ∀ store ∈ after.stores, store ∈ before.stores ∨
    ∃ j < count, store.addr = base + BitVec.ofNat 32 j

section Grows

variable {base addr : BitVec 32} {count : Nat} {state before middle after : ShellState}

theorem Grows.refl : Grows base count state state :=
  ⟨List.prefix_refl _, fun _ member => Or.inl member⟩

theorem Grows.trans (first : Grows base count before middle) (second : Grows base count middle after) :
    Grows base count before after := by
  refine ⟨first.earlier.trans second.earlier, fun store member => ?_⟩
  rcases second.new store member with old | written
  · exact first.new store old
  · exact Or.inr written

theorem Grows.mono {fewer : Nat} (grows : Grows base fewer before after) (more : fewer ≤ count) :
    Grows base count before after := by
  refine ⟨grows.earlier, fun store member => (grows.new store member).imp_right ?_⟩
  rintro ⟨j, small, address⟩
  exact ⟨j, Nat.lt_of_lt_of_le small more, address⟩

theorem Grows.write {j : Nat} (small : j < count) (address : addr = base + BitVec.ofNat 32 j)
    (byte : BitVec 8) : Grows base count state (state.write addr byte) := by
  refine ⟨List.prefix_append _ _, fun store member => ?_⟩
  rcases List.mem_append.mp member with old | written
  · exact Or.inl old
  · rw [List.mem_singleton.mp written]
    exact Or.inr ⟨j, small, address⟩

end Grows

section Addresses

variable {base : BitVec 32} {j k : Nat}

theorem add_ofNat_succ : base + BitVec.ofNat 32 k + 1 = base + BitVec.ofNat 32 (k + 1) := by
  rw [BitVec.ofNat_add, add_assoc]
  rfl

theorem toNat_add_ofNat_sub (small : j < 2 ^ 32) : (base + BitVec.ofNat 32 j - base).toNat = j := by
  rw [add_sub_cancel_left, BitVec.toNat_ofNat, Nat.mod_eq_of_lt small]

/-- Different offsets give different addresses. -/
theorem add_ofNat_ne (smallJ : j < 2 ^ 32) (smallK : k < 2 ^ 32) (differ : j ≠ k) :
    base + BitVec.ofNat 32 j ≠ base + BitVec.ofNat 32 k := by
  intro same
  apply differ
  rw [← @toNat_add_ofNat_sub base j smallJ, same, toNat_add_ofNat_sub smallK]

end Addresses

section WriteAll

variable {state : ShellState} {addr other : BitVec 32} {bytes : List (BitVec 8)}

theorem writeAll_cmd : (ShellState.writeAll addr bytes state).cmd = state.cmd := by
  induction bytes generalizing addr state with
  | nil => rfl
  | cons byte rest inductionHypothesis =>
      rw [ShellState.writeAll, inductionHypothesis]
      rfl

theorem writeAll_mem_of_outside (outside : bytes.length ≤ (other - addr).toNat) :
    (ShellState.writeAll addr bytes state).mem other = state.mem other := by
  induction bytes generalizing addr state with
  | nil => rfl
  | cons byte rest inductionHypothesis =>
      rw [List.length_cons] at outside
      have later : rest.length ≤ (other - (addr + 1)).toNat := by bv_omega
      have differs : other ≠ addr := by
        rintro rfl
        rw [sub_self] at outside
        exact Nat.not_succ_le_zero _ outside
      rw [ShellState.writeAll, inductionHypothesis later]
      exact Function.update_of_ne differs _ _

theorem writeAll_mem (small : bytes.length < 2 ^ 32) {j : Nat} (inside : j < bytes.length) :
    (ShellState.writeAll addr bytes state).mem (addr + BitVec.ofNat 32 j) = bytes[j] := by
  induction bytes generalizing addr state j with
  | nil => exact absurd inside (Nat.not_lt_zero j)
  | cons byte rest inductionHypothesis =>
      rw [List.length_cons] at small inside
      rw [ShellState.writeAll]
      cases j with
      | zero =>
          rw [BitVec.add_zero, writeAll_mem_of_outside (by bv_omega)]
          exact Function.update_self _ _ _
      | succ j =>
          have next : addr + BitVec.ofNat 32 (j + 1) = addr + 1 + BitVec.ofNat 32 j := by
            rw [← add_ofNat_succ, add_assoc, add_comm (BitVec.ofNat 32 j), ← add_assoc]
          rw [next, inductionHypothesis (by omega) (by omega), List.getElem_cons_succ]

theorem writeAll_grows {base : BitVec 32} {k : Nat} :
    Grows base (k + bytes.length) state
      (ShellState.writeAll (base + BitVec.ofNat 32 k) bytes state) := by
  induction bytes generalizing state k with
  | nil => exact Grows.refl
  | cons byte rest inductionHypothesis =>
      have count : k + (byte :: rest).length = k + 1 + rest.length := by
        rw [List.length_cons, Nat.add_comm rest.length, Nat.add_assoc]
      rw [ShellState.writeAll, add_ofNat_succ, count]
      exact (Grows.write (by omega) rfl byte).trans inductionHypothesis

/-- What `getline` stores is a text with its terminator. -/
theorem getlineLoop_delivers (typed : Nat → BitVec 8) (ch : BitVec 32) (left i : Nat) :
    ∃ text : List (BitVec 8), text.length ≤ left ∧ ∀ state,
      (ShellState.writeAll (ch + BitVec.ofNat 32 i) (text ++ [0]) state).stores =
        state.stores ++ (getlineLoop typed ch left i).stores := by
  induction left generalizing i with
  | zero => exact ⟨[], Nat.le_refl 0, fun _ => rfl⟩
  | succ left inductionHypothesis =>
      rw [getlineLoop]
      split
      · exact ⟨[], Nat.zero_le _, fun _ => rfl⟩
      · rcases inductionHypothesis (i + 1) with ⟨text, short, stored⟩
        refine ⟨typed i :: text, Nat.succ_le_succ short, fun state => ?_⟩
        rw [List.cons_append, ShellState.writeAll, add_ofNat_succ, stored]
        exact List.append_assoc _ _ _

/-- The command lines that `fgets` stores are delivered lines. -/
theorem fgets_delivers (typed : Nat → BitVec 8) (str : BitVec 32) (num : Int) :
    ∃ line : DeliveredLine, ∀ state, (ShellState.writeAll str line.stored state).stores =
      state.stores ++ (fgets typed str num).stores := by
  rcases getlineLoop_delivers typed str 99 0 with ⟨text, short, stored⟩
  rw [BitVec.add_zero] at stored
  exact ⟨⟨text, Nat.succ_le_succ short⟩, stored⟩

end WriteAll

/-! ## The tokenizer -/

/-- The pointer is at offset `k` of a line at `base`, which goes on to a terminator or
a newline at offset `body`. -/
structure Tail (base : BitVec 32) (body : Nat) (state : ShellState) (k : Nat) : Prop where
  cmd : state.cmd = base + BitVec.ofNat 32 k
  inside : k ≤ body
  plain : ∀ j, k ≤ j → j < body →
    state.mem (base + BitVec.ofNat 32 j) ≠ 0 ∧ state.mem (base + BitVec.ofNat 32 j) ≠ chr '\n'
  ends : state.mem (base + BitVec.ofNat 32 body) = 0 ∨
    state.mem (base + BitVec.ofNat 32 body) = chr '\n'

section Tokens

variable {base start : BitVec 32} {body k s : Nat} {state : ShellState}

/-- The step of the pointer over a character that is not the last one. -/
theorem Tail.advance (tail : Tail base body state k) (before : k < body) :
    Tail base body state.advance (k + 1) where
  cmd := by
    rw [← add_ofNat_succ, ← tail.cmd]
    rfl
  inside := before
  plain := fun j behind => tail.plain j (Nat.le_of_succ_le behind)
  ends := tail.ends

/-- A byte is cleared in front of the pointer. -/
theorem Tail.write (small : body < 2 ^ 32) (tail : Tail base body state (k + 1)) :
    Tail base body (state.write (base + BitVec.ofNat 32 k) 0) (k + 1) := by
  have kept : ∀ j, k < j → j ≤ body →
      (state.write (base + BitVec.ofNat 32 k) 0).mem (base + BitVec.ofNat 32 j) =
        state.mem (base + BitVec.ofNat 32 j) := fun j behind inside =>
    Function.update_of_ne (add_ofNat_ne (by omega) (by omega) (by omega)) _ _
  refine ⟨tail.cmd, tail.inside, fun j behind before => ?_, ?_⟩
  · rw [kept j behind (by omega)]
    exact tail.plain j behind before
  · rw [kept body tail.inside (Nat.le_refl _)]
    exact tail.ends

/-- What a call at offset `k` of a line does: it returns, it writes inside the line, and
if there is no token left it leaves the pointer at the end of the line. -/
def Tokenizes (base : BitVec 32) (body k : Nat) (state : ShellState) (result : Option Token) : Prop :=
  ∃ token after k', result = some (token, after) ∧ Grows base (body + 1) state after ∧
    Tail base body after k' ∧ (token = none → k' = body) ∧ (token ≠ none → k < k')

theorem Tokenizes.trans {middle : ShellState} {j : Nat} {result : Option Token}
    (grows : Grows base (body + 1) state middle) (before : k ≤ j)
    (tokenizes : Tokenizes base body j middle result) : Tokenizes base body k state result := by
  rcases tokenizes with ⟨token, after, k', returned, later, tail, last, moved⟩
  exact ⟨token, after, k', returned, grows.trans later, tail, last,
    fun found => Nat.lt_of_le_of_lt before (moved found)⟩

/-- At the end of the line the newline is cleared. -/
theorem Tail.clear (small : body < 2 ^ 32) (tail : Tail base body state body) :
    ∃ after, (if state.mem state.cmd = chr '\n' then state.write state.cmd 0 else state) = after ∧
      Grows base (body + 1) state after ∧ Tail base body after body ∧
      after.mem (base + BitVec.ofNat 32 body) = 0 ∧ ∀ j < body,
        after.mem (base + BitVec.ofNat 32 j) = state.mem (base + BitVec.ofNat 32 j) := by
  rw [tail.cmd]
  rcases tail.ends with zero | newline
  · have other : ¬ state.mem (base + BitVec.ofNat 32 body) = chr '\n' := by
      rw [zero]
      decide
    exact ⟨state, if_neg other, Grows.refl, tail, zero, fun _ _ => rfl⟩
  · have cleared : (state.write (base + BitVec.ofNat 32 body) 0).mem
        (base + BitVec.ofNat 32 body) = 0 := Function.update_self _ _ _
    refine ⟨_, if_pos newline, Grows.write (Nat.lt_succ_self body) rfl 0, ?_, cleared, ?_⟩
    · exact ⟨tail.cmd, tail.inside, fun j behind before => absurd behind (Nat.not_le.mpr before),
        Or.inl cleared⟩
    · intro j before
      exact Function.update_of_ne (add_ofNat_ne (by omega) small (Nat.ne_of_lt before)) _ _

/-- The loop has reached the end of the line. -/
theorem tokenLoop_end {again : ShellState → Option Token} {fuel : Nat} (small : body < 2 ^ 32)
    (tail : Tail base body state body) (begun : s ≤ body)
    (token : s < body → state.mem (base + BitVec.ofNat 32 s) ≠ 0) :
    Tokenizes base body s state
      (tokenLoop again (base + BitVec.ofNat 32 s) (fuel + 1) state) := by
  have stops : ¬ (state.mem state.cmd ≠ 0 ∧ state.mem state.cmd ≠ chr '\n') := by
    rw [tail.cmd, ← not_or, not_not]
    exact tail.ends
  rcases tail.clear small with ⟨after, cleared, grows, ended, zero, kept⟩
  have left : tokenLoop again (base + BitVec.ofNat 32 s) (fuel + 1) state =
      if after.mem (base + BitVec.ofNat 32 s) = 0 then some (none, after)
      else some (some (base + BitVec.ofNat 32 s), after) := by
    rw [tokenLoop, if_neg stops, cleared]
  rcases Nat.lt_or_eq_of_le begun with before | rfl
  · have nonempty : after.mem (base + BitVec.ofNat 32 s) ≠ 0 := by
      rw [kept s before]
      exact token before
    rw [left, if_neg nonempty]
    exact ⟨_, after, body, rfl, grows, ended, nofun, fun _ => before⟩
  · rw [left, if_pos zero]
    exact ⟨none, after, s, rfl, grows, ended, fun _ => rfl, fun found => absurd rfl found⟩

theorem tokenLoop_spec {again : ShellState → Option Token} {fuel : Nat} (small : body < 2 ^ 32)
    (tail : Tail base body state k) (begun : s ≤ k)
    (token : s < k → state.mem (base + BitVec.ofNat 32 s) ≠ 0)
    (recursive : ∀ next j, s < j → Tail base body next j → Tokenizes base body j next (again next))
    (enough : body - k < fuel) :
    Tokenizes base body s state (tokenLoop again (base + BitVec.ofNat 32 s) fuel state) := by
  induction fuel generalizing state k with
  | zero => exact absurd enough (Nat.not_lt_zero _)
  | succ fuel inductionHypothesis =>
      rcases Nat.lt_or_eq_of_le tail.inside with before | rfl
      · have here := tail.plain k (Nat.le_refl k) before
        have first : state.mem (base + BitVec.ofNat 32 s) ≠ 0 := by
          rcases Nat.lt_or_eq_of_le begun with earlier | rfl
          · exact token earlier
          · exact here.1
        have next := tail.advance before
        have goes : state.mem state.cmd ≠ 0 ∧ state.mem state.cmd ≠ chr '\n' := by
          rw [tail.cmd]
          exact here
        rw [tokenLoop, if_pos goes]
        split
        · -- a blank ends the token, or is skipped when it comes first
          have moved : Tail base body (state.write state.cmd 0).advance (k + 1) := by
            rw [tail.cmd]
            exact next.write small
          have grows : Grows base (body + 1) state (state.write state.cmd 0).advance := by
            have written := @Grows.write base state.cmd (body + 1) state k (by omega) tail.cmd 0
            exact ⟨written.earlier, written.new⟩
          dsimp only
          rcases Nat.lt_or_eq_of_le begun with earlier | rfl
          · have kept : (state.write state.cmd 0).advance.mem (base + BitVec.ofNat 32 s) =
                state.mem (base + BitVec.ofNat 32 s) := by
              rw [tail.cmd]
              exact Function.update_of_ne (add_ofNat_ne (by omega) (by omega) (by omega)) _ _
            rw [kept, if_neg first]
            exact ⟨_, _, k + 1, rfl, grows, moved, nofun, fun _ => Nat.lt_succ_of_lt earlier⟩
          · have cleared : (state.write state.cmd 0).advance.mem (base + BitVec.ofNat 32 s) = 0 := by
              rw [tail.cmd]
              exact Function.update_self _ _ _
            rw [if_pos cleared]
            exact (recursive _ (s + 1) (Nat.lt_succ_self s) moved).trans grows (Nat.le_succ s)
        · have unwritten : Grows base (body + 1) state state.advance :=
            ⟨List.prefix_refl _, fun _ member => Or.inl member⟩
          exact (inductionHypothesis next (by omega) (fun _ => first) (by omega)).trans unwritten
            (Nat.le_refl s)
      · exact tokenLoop_end small tail begun token

/-- A call of `get_token_and_advance`, when no address of the line is null. -/
theorem getTokenAndAdvance_spec (small : body < 2 ^ 32)
    (nonnull : ∀ j ≤ body, base + BitVec.ofNat 32 j ≠ 0) {fuel : Nat} (tail : Tail base body state k)
    (enough : body - k < fuel) :
    Tokenizes base body k state (getTokenAndAdvance fuel state) := by
  induction fuel generalizing state k with
  | zero => exact absurd enough (Nat.not_lt_zero _)
  | succ fuel inductionHypothesis =>
      rw [getTokenAndAdvance]
      split
      · rename_i stops
        have zero : state.mem (base + BitVec.ofNat 32 k) = 0 := by
          rw [← tail.cmd]
          refine stops.resolve_left ?_
          rw [tail.cmd]
          exact nonnull k tail.inside
        have last : k = body := by
          refine Nat.le_antisymm tail.inside (Nat.not_lt.mp (fun before => ?_))
          exact (tail.plain k (Nat.le_refl k) before).1 zero
        exact ⟨none, state, k, rfl, Grows.refl, tail, fun _ => last, fun found => absurd rfl found⟩
      · rw [tail.cmd]
        refine tokenLoop_spec small tail (Nat.le_refl k) (fun less => absurd less (Nat.lt_irrefl k))
          (fun next j later tail => inductionHypothesis tail ?_) enough
        have inside := tail.inside
        omega

end Tokens

/-! ## An iteration -/

section Iteration

variable {shell : Shell} {base : BitVec 32} {body k : Nat} {state : ShellState}

/-- `listdir` leaves a line inside the block alone. -/
theorem Tail.listdir (within : ∀ j ≤ body, (base + BitVec.ofNat 32 j - shell.block).toNat < 256)
    (tail : Tail base body state k) :
    Tail base body { state with mem := shell.listdir state.mem } k := by
  have kept : ∀ j ≤ body, shell.listdir state.mem (base + BitVec.ofNat 32 j) =
      state.mem (base + BitVec.ofNat 32 j) := fun j inside => shell.listdir_block _ _ (within j inside)
  refine ⟨tail.cmd, tail.inside, fun j behind before => ?_, ?_⟩
  · dsimp only
    rw [kept j (Nat.le_of_lt before)]
    exact tail.plain j behind before
  · dsimp only
    rw [kept body (Nat.le_refl body)]
    exact tail.ends

/-- The inner loop moves the pointer to the end of the line. -/
theorem commandLoop_spec (small : body < 2 ^ 32)
    (nonnull : ∀ j ≤ body, base + BitVec.ofNat 32 j ≠ 0)
    (within : ∀ j ≤ body, (base + BitVec.ofNat 32 j - shell.block).toNat < 256) {fuel : Nat}
    (tail : Tail base body state k) (enough : body - k < fuel) :
    ∃ after, shell.commandLoop fuel state = some after ∧ Grows base (body + 1) state after ∧
      after.cmd = base + BitVec.ofNat 32 body := by
  induction fuel generalizing state k with
  | zero => exact absurd enough (Nat.not_lt_zero _)
  | succ fuel inductionHypothesis =>
      rcases getTokenAndAdvance_spec small nonnull tail enough with
        ⟨token, middle, k', returned, grows, later, last, moved⟩
      rw [commandLoop, returned, Option.bind_eq_bind, Option.bind_some]
      cases token with
      | none => exact ⟨middle, rfl, grows, by rw [later.cmd, last rfl]⟩
      | some token =>
          have fewer : body - k' < fuel := by
            have forward := moved (Option.some_ne_none token)
            have inside := later.inside
            omega
          dsimp only
          split
          · rcases inductionHypothesis (later.listdir within) fewer with ⟨after, done, new, cmd⟩
            exact ⟨after, done, grows.trans ⟨new.earlier, new.new⟩, cmd⟩
          · rcases inductionHypothesis later fewer with ⟨after, done, new, cmd⟩
            exact ⟨after, done, grows.trans new, cmd⟩

/-- The bytes at which the tokenizer stops. -/
def endsCommand (ch : BitVec 8) : Bool := ch = 0 ∨ ch = chr '\n'

/-- How far a line moves the pointer. -/
def advances (line : DeliveredLine) : Nat := line.stored.findIdx endsCommand

theorem length_stored (line : DeliveredLine) : line.stored.length = line.text.length + 1 :=
  List.length_append

theorem advances_lt (line : DeliveredLine) : advances line < line.stored.length :=
  List.findIdx_lt_length_of_exists ⟨0, List.mem_append_right _ (List.mem_singleton_self 0), rfl⟩

theorem advances_lt_hundred (line : DeliveredLine) : advances line < 100 :=
  Nat.lt_of_lt_of_le (advances_lt line) (by rw [length_stored]; exact line.short)

/-- A line that does not move the pointer. -/
theorem advances_eq_zero_iff (line : DeliveredLine) : advances line = 0 ↔ Blank line := by
  rw [advances, Blank, DeliveredLine.stored]
  cases line.text with
  | nil => exact iff_of_true rfl (fun ch member => absurd member (Option.not_mem_none ch))
  | cons ch rest =>
      rw [List.cons_append, List.findIdx_cons, List.head?_cons]
      constructor
      · intro zero first member
        cases member
        refine of_decide_eq_true (Bool.of_not_eq_false (fun moves => ?_))
        rw [endsCommand, moves] at zero
        exact Nat.succ_ne_zero _ zero
      · intro blank
        rw [endsCommand, decide_eq_true (blank ch rfl)]
        rfl

/-- The line is in memory after `accept_cmd`. -/
theorem acceptCmd_mem (line : DeliveredLine) (state : ShellState) {j : Nat}
    (inside : j < line.stored.length) :
    (acceptCmd line state).mem (state.cmd + BitVec.ofNat 32 j) = line.stored[j] := by
  have short := line.short
  have length := length_stored line
  have differs : state.cmd + BitVec.ofNat 32 j ≠ state.cmd + BitVec.ofNat 32 255 :=
    add_ofNat_ne (by omega) (by decide) (by omega)
  rw [← @writeAll_mem state state.cmd line.stored (by omega) j inside]
  exact Function.update_of_ne differs _ _

theorem acceptCmd_tail (line : DeliveredLine) (state : ShellState) :
    Tail state.cmd (advances line) (acceptCmd line state) 0 := by
  have few := advances_lt line
  refine ⟨?_, Nat.zero_le _, fun j _ before => ?_, ?_⟩
  · rw [BitVec.add_zero]
    exact writeAll_cmd
  · rw [acceptCmd_mem line state (Nat.lt_trans before few), ← not_or]
    exact of_decide_eq_false (List.not_of_lt_findIdx before)
  · rw [acceptCmd_mem line state few]
    exact of_decide_eq_true (@List.findIdx_getElem _ endsCommand line.stored few)

theorem acceptCmd_grows (line : DeliveredLine) (state : ShellState) :
    Grows state.cmd 256 state (acceptCmd line state) := by
  have short := line.short
  have length := length_stored line
  have stored := @writeAll_grows state line.stored state.cmd 0
  rw [BitVec.add_zero] at stored
  exact (stored.mono (by omega)).trans (Grows.write (by decide : 255 < 256) rfl 0)

/-- From a pointer whose lines end inside the block, an iteration returns, moves the
pointer, and writes the 256 bytes behind it, the last one included. -/
theorem iteration_spec (line : DeliveredLine) {offset : Nat} (near : offset + 100 ≤ 256)
    (cmd : state.cmd = shell.block + BitVec.ofNat 32 offset) :
    ∃ after, shell.iteration state line = some after ∧ Grows state.cmd 256 state after ∧
      ⟨state.cmd + 255, 0⟩ ∈ after.stores ∧
      after.cmd = state.cmd + BitVec.ofNat 32 (advances line) := by
  have few := advances_lt_hundred line
  have address : ∀ j ≤ advances line,
      state.cmd + BitVec.ofNat 32 j = shell.block + BitVec.ofNat 32 (offset + j) := by
    intro j inside
    rw [cmd, BitVec.ofNat_add, add_assoc]
  have within : ∀ j ≤ advances line,
      (state.cmd + BitVec.ofNat 32 j - shell.block).toNat < 256 := by
    intro j inside
    rw [address j inside, toNat_add_ofNat_sub (by omega)]
    omega
  have nonnull : ∀ j ≤ advances line, state.cmd + BitVec.ofNat 32 j ≠ 0 := by
    intro j inside null
    have fits := shell.fits
    have allocated := shell.allocated
    have near := within j inside
    rw [null] at near
    bv_omega
  rcases commandLoop_spec (by omega) nonnull within (acceptCmd_tail line state) (by omega : _ < 101) with
    ⟨after, done, grows, moved⟩
  have accepted : ⟨state.cmd + 255, 0⟩ ∈ (acceptCmd line state).stores :=
    List.mem_append_right _ (List.mem_singleton_self _)
  exact ⟨after, done, (acceptCmd_grows line state).trans (grows.mono (by omega)),
    grows.earlier.subset accepted, moved⟩

end Iteration

/-! ## Runs -/

section Runs

variable {shell : Shell} {state after : ShellState}

/-- From the beginning of the block, the 256 bytes are those of the block. -/
theorem Inside.grows (inside : shell.Inside state) (grows : Grows shell.block 256 state after) :
    shell.Inside after := by
  intro store member
  rcases grows.new store member with old | ⟨j, small, address⟩
  · exact inside store old
  · rw [address, toNat_add_ofNat_sub (by omega)]
    exact small

/-- From anywhere else the last byte is behind the block. -/
theorem not_inside_of_offset {offset : Nat} (positive : 0 < offset) (small : offset < 100)
    (last : ⟨shell.block + BitVec.ofNat 32 offset + 255, 0⟩ ∈ after.stores) : ¬ shell.Inside after := by
  intro inside
  have near := inside _ last
  have address : shell.block + BitVec.ofNat 32 offset + 255 =
      shell.block + BitVec.ofNat 32 (offset + 255) := by
    rw [BitVec.ofNat_add, add_assoc]
    rfl
  rw [address, toNat_add_ofNat_sub (by omega)] at near
  omega

/-- The run goes through all the lines, and everything is written inside the block. -/
def StaysInside (shell : Shell) (state : ShellState) (lines : List DeliveredLine) : Prop :=
  (∃ last, Run.run shell.iteration state lines = some last) ∧
    Run.Always shell.iteration shell.Inside state lines

theorem staysInside_cons_iff {line : DeliveredLine} {rest : List DeliveredLine}
    (inside : shell.Inside state) (stepped : shell.iteration state line = some after) :
    shell.StaysInside state (line :: rest) ↔ shell.StaysInside after rest := by
  constructor
  · rintro ⟨⟨last, reached⟩, always⟩
    rcases Run.run_cons_eq_some.mp reached with ⟨next, taken, later⟩
    cases stepped.symm.trans taken
    exact ⟨⟨last, later⟩, always.2 after stepped⟩
  · rintro ⟨⟨last, reached⟩, always⟩
    refine ⟨⟨last, Run.run_cons_eq_some.mpr ⟨after, stepped, reached⟩⟩, inside, fun next taken => ?_⟩
    cases stepped.symm.trans taken
    exact always

theorem staysInside_iff_of_cmd (inside : shell.Inside state) (cmd : state.cmd = shell.block)
    (lines : List DeliveredLine) :
    shell.StaysInside state lines ↔ ∀ line ∈ lines.dropLast, Blank line := by
  induction lines generalizing state with
  | nil => exact iff_of_true ⟨⟨state, rfl⟩, inside⟩ (fun line member => absurd member List.not_mem_nil)
  | cons line rest inductionHypothesis =>
      have atStart : state.cmd = shell.block + BitVec.ofNat 32 0 := by rw [cmd, BitVec.add_zero]
      rcases iteration_spec line (by decide) atStart with ⟨after, stepped, grows, -, moved⟩
      rw [cmd] at grows moved
      have still := inside.grows grows
      rw [staysInside_cons_iff inside stepped]
      cases rest with
      | nil =>
          exact iff_of_true ⟨⟨after, rfl⟩, still⟩ (fun line member => absurd member List.not_mem_nil)
      | cons next rest =>
          rw [List.dropLast_cons_cons, List.forall_mem_cons]
          by_cases blank : Blank line
          · rw [(advances_eq_zero_iff line).mpr blank, BitVec.add_zero] at moved
            rw [inductionHypothesis still moved, and_iff_right blank]
          · -- the pointer has moved, and the next line is stored from there on
            have offset : 0 < advances line :=
              Nat.pos_of_ne_zero (fun zero => blank ((advances_eq_zero_iff line).mp zero))
            have few := advances_lt_hundred line
            rcases iteration_spec next (by omega) moved with ⟨later, taken, -, last, -⟩
            rw [moved] at last
            refine iff_of_false (fun stays => ?_) (fun all => blank all.1)
            exact not_inside_of_offset offset few last (stays.2.2 later taken).start

/-- The shell stays inside the block for those command lines of which none but the
last one has a command. -/
theorem staysInside_iff (shell : Shell) (mem : Mem) (lines : List DeliveredLine) :
    shell.StaysInside (shell.initial mem) lines ↔ ∀ line ∈ lines.dropLast, Blank line :=
  staysInside_iff_of_cmd (fun _ member => absurd member List.not_mem_nil) rfl lines

end Runs

/-- A block, with a `listdir` that sets one variable behind it. -/
def sampleShell : Shell where
  block := 0x10000
  listdir := fun mem => Function.update mem 0x20000 1
  allocated := by decide
  fits := by decide
  listdir_block := fun mem addr inside => by
    refine Function.update_of_ne (fun same => ?_) 1 mem
    rw [same] at inside
    exact absurd inside (by decide)

/-- After `ls`, the end of the next command is cleared behind the block. -/
theorem not_staysInside_ls : ¬ sampleShell.StaysInside (sampleShell.initial (fun _ => 0))
    [⟨textOf "ls", by decide⟩, ⟨textOf "ls", by decide⟩] := by
  intro stays
  have blank := (staysInside_iff_of_cmd (fun store member => absurd member List.not_mem_nil) rfl _).mp
    stays _ List.mem_cons_self
  rcases blank (chr 'l') rfl with zero | newline
  · exact absurd zero (by decide)
  · exact absurd newline (by decide)

end Shell

end Userspace

end WeakOS
