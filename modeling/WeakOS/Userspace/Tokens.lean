import Mathlib
import WeakOS.Userspace.Shell
import WeakOS.Userspace.Strings

namespace WeakOS

open X86

namespace Userspace
namespace Tokens

/-!
# The tokens of a command

`get_token_and_advance` with all that it reads, also by way of `strlen`.  A call
takes the first word from what is left of the text, and it leaves the terminated
words of the earlier calls behind its pointer.
-/

/-! ## The words of a text -/

/-- The maximal runs of other characters than blanks, before the first newline. -/
def words (text : List (BitVec 8)) : List (List (BitVec 8)) :=
  ((text.takeWhile (· ≠ chr '\n')).splitOnP (· = chr ' ')).filter (· ≠ [])

/-- The words when the first characters have been read already. -/
noncomputable def wordsFrom (seen rest : List (BitVec 8)) : List (List (BitVec 8)) :=
  ((rest.takeWhile (· ≠ chr '\n')).splitOnPPrepend (· = chr ' ') seen.reverse).filter (· ≠ [])

section Words

variable {seen rest : List (BitVec 8)} {ch : BitVec 8}

theorem wordsFrom_start : wordsFrom [] rest = words rest := rfl

theorem wordsFrom_nil : wordsFrom seen [] = if seen = [] then [] else [seen] := by
  simp only [wordsFrom, List.takeWhile_nil, List.splitOnPPrepend_nil, List.reverse_reverse]
  split_ifs with empty
  · rw [empty]
    rfl
  · exact List.filter_cons_of_pos (decide_eq_true empty)

/-- What follows a newline is not looked at. -/
theorem wordsFrom_newline : wordsFrom seen (chr '\n' :: rest) = if seen = [] then [] else [seen] := by
  rw [← wordsFrom_nil, wordsFrom, List.takeWhile_cons_of_neg (by decide), wordsFrom, List.takeWhile_nil]

theorem wordsFrom_blank : wordsFrom seen (chr ' ' :: rest) =
    if seen = [] then words rest else seen :: words rest := by
  rw [wordsFrom, List.takeWhile_cons_of_pos (by decide), List.splitOnPPrepend_cons_pos (by decide),
    List.reverse_reverse]
  split_ifs with empty
  · rw [empty]
    exact List.filter_cons_of_neg (by decide)
  · exact List.filter_cons_of_pos (decide_eq_true empty)

theorem wordsFrom_cons (newline : ch ≠ chr '\n') (blank : ch ≠ chr ' ') :
    wordsFrom seen (ch :: rest) = wordsFrom (seen ++ [ch]) rest := by
  rw [wordsFrom, List.takeWhile_cons_of_pos (by simpa using newline),
    List.splitOnPPrepend_cons_neg (by simpa using blank), wordsFrom, List.reverse_append]
  rfl

end Words

/-! ## The function -/

/-- The state of the shell, and what has been read. -/
structure Recorded where
  state : ShellState
  reads : List (BitVec 32)

/-- The token that is returned, if there is one, and the state after the call. -/
abbrev Token := Option (BitVec 32) × Recorded

namespace Recorded

variable (recorded : Recorded)

/-- `**cmd`. -/
def byte : BitVec 8 := recorded.state.mem recorded.state.cmd

/-- The byte is read. -/
def look : Recorded := { recorded with reads := recorded.reads ++ [recorded.state.cmd] }

/-- `**cmd = 0`. -/
def clear : Recorded := { recorded with state := recorded.state.write recorded.state.cmd 0 }

/-- `(*cmd)++`. -/
def advance : Recorded := { recorded with state := recorded.state.advance }

/-- `strlen`, with what it reads. -/
def strlen (limit : Nat) (start : BitVec 32) : Option (BitVec 32 × Recorded) :=
  (strlenLoop recorded.state.mem limit start 0).map fun result =>
    (result.1, { recorded with reads := recorded.reads ++ result.2 })

end Recorded

section Function

variable (limit : Nat)

/-- The return of a token, unless it is empty. -/
def finish (start : BitVec 32) (empty : Recorded → Option Token) (recorded : Recorded) : Option Token := do
  let (len, recorded) ← recorded.strlen limit start
  if len = 0 then empty recorded else some (some start, recorded)

/-- The loop of `get_token_and_advance`, with the recursive call as an argument. -/
def tokenLoop (again : Recorded → Option Token) (start : BitVec 32) : Nat → Recorded → Option Token
  | 0, _ => none
  | fuel + 1, recorded =>
      let recorded := recorded.look
      if recorded.byte ≠ 0 ∧ recorded.byte ≠ chr '\n' then
        if recorded.byte = chr ' ' then finish limit start again recorded.clear.advance
        else tokenLoop again start fuel recorded.advance
      else
        finish limit start (fun recorded => some (none, recorded))
          (if recorded.byte = chr '\n' then recorded.clear else recorded)

/-- `get_token_and_advance`; there is no result when it needs more than `fuel` calls, or a
loop needs more than `fuel` iterations, or `strlen` more than `limit`. -/
def getTokenAndAdvance : Nat → Recorded → Option Token
  | 0, _ => none
  | fuel + 1, recorded =>
      if recorded.state.cmd = 0 then some (none, recorded)
      else if recorded.byte = 0 then some (none, recorded.look)
      else tokenLoop limit (getTokenAndAdvance fuel) recorded.state.cmd (fuel + 1) recorded.look

/-- Calls one after the other. -/
def calls (fuel : Nat) : Nat → Recorded → Option (List (Option (BitVec 32)) × Recorded)
  | 0, recorded => some ([], recorded)
  | count + 1, recorded => do
      let (token, recorded) ← getTokenAndAdvance limit fuel recorded
      let (tokens, recorded) ← calls fuel count recorded
      some (token :: tokens, recorded)

end Function

/-! ## What a call changes -/

/-- Since a state whose pointer was at offset `p` of a text of the given length, nothing
in front of the offset has been changed, and nothing has been written behind the last
character or read behind the terminator. -/
structure Since (base : BitVec 32) (length p : Nat) (before after : Recorded) : Prop where
  kept : ∀ j < p, after.state.mem (base + BitVec.ofNat 32 j) = before.state.mem (base + BitVec.ofNat 32 j)
  stores : ∀ store ∈ after.state.stores, store ∈ before.state.stores ∨ (store.addr - base).toNat < length
  reads : ∀ addr ∈ after.reads, addr ∈ before.reads ∨ (addr - base).toNat ≤ length

section Since

variable {base : BitVec 32} {length p q : Nat} {before middle after recorded : Recorded}

theorem Since.refl : Since base length p recorded recorded :=
  ⟨fun _ _ => rfl, fun _ => Or.inl, fun _ => Or.inl⟩

theorem Since.trans (first : Since base length p before middle) (second : Since base length q middle after)
    (le : p ≤ q) : Since base length p before after where
  kept := fun j small => (second.kept j (Nat.lt_of_lt_of_le small le)).trans (first.kept j small)
  stores := fun store member => (second.stores store member).elim (first.stores store) Or.inr
  reads := fun addr member => (second.reads addr member).elim (first.reads addr) Or.inr

theorem Since.advance (since : Since base length p before after) :
    Since base length p before after.advance :=
  ⟨since.kept, since.stores, since.reads⟩

variable (cmd : recorded.state.cmd = base + BitVec.ofNat 32 p) (small : length < 2 ^ 32)
include cmd small

theorem Since.look (inside : p ≤ length) : Since base length p recorded recorded.look := by
  refine ⟨fun _ _ => rfl, fun _ => Or.inl, fun addr member => ?_⟩
  rcases List.mem_append.mp member with old | new
  · exact Or.inl old
  · right
    rw [List.mem_singleton.mp new, cmd, Shell.toNat_add_ofNat_sub (by omega)]
    exact inside

theorem Since.clear (inside : p < length) : Since base length p recorded recorded.clear := by
  refine ⟨fun j before => ?_, fun store member => ?_, fun _ => Or.inl⟩
  · refine Function.update_of_ne ?_ _ _
    rw [cmd]
    exact Shell.add_ofNat_ne (by omega) (by omega) (Nat.ne_of_lt before)
  · rcases List.mem_append.mp member with old | new
    · exact Or.inl old
    · right
      rw [List.mem_singleton.mp new, cmd, Shell.toNat_add_ofNat_sub (by omega)]
      exact inside

end Since

/-- The pointer is at an offset of the text, and this is what is left of it. -/
structure Cursor (base : BitVec 32) (length p : Nat) (rest : List (BitVec 8)) (recorded : Recorded) :
    Prop where
  cmd : recorded.state.cmd = base + BitVec.ofNat 32 p
  left : StringAt recorded.state.mem (base + BitVec.ofNat 32 p) rest
  inside : p + rest.length ≤ length

/-- A call whose token may begin at offset `s` returns the first of the words, and leaves
the others.  The word is terminated in front of what is left, unless nothing is left. -/
def Returns (base : BitVec 32) (length s : Nat) (found : List (List (BitVec 8))) (before : Recorded)
    (result : Option Token) : Prop :=
  ∃ token after p rest, result = some (token, after) ∧ Cursor base length p rest after ∧ s ≤ p ∧
    Since base length s before after ∧
    match found with
    | [] => token = none ∧ rest = []
    | word :: others => words rest = others ∧ ∃ t, token = some (base + BitVec.ofNat 32 t) ∧
        StringAt after.state.mem (base + BitVec.ofNat 32 t) word ∧
        (t + word.length < p ∨ rest = [] ∧ t + word.length ≤ length)

section Calls

variable {base : BitVec 32} {length limit s p : Nat} {seen rest : List (BitVec 8)}
  {found : List (List (BitVec 8))} {before middle recorded : Recorded} {result : Option Token}

theorem Returns.since (returns : Returns base length p found middle result)
    (since : Since base length s before middle) (le : s ≤ p) :
    Returns base length s found before result := by
  rcases returns with ⟨token, after, p', rest, returned, cursor, advanced, later, tells⟩
  exact ⟨token, after, p', rest, returned, cursor, le.trans advanced, since.trans later le, tells⟩

/-- `strlen` decides whether the token is empty; it reads the token and its terminator. -/
theorem finish_eq (p : Nat) {empty : Recorded → Option Token} {text : List (BitVec 8)}
    (string : StringAt recorded.state.mem (base + BitVec.ofNat 32 s) text)
    (inside : s + text.length ≤ length) (small : length < 2 ^ 32) (most : length < limit) :
    ∃ after, after.state = recorded.state ∧ Since base length p recorded after ∧
      finish limit (base + BitVec.ofNat 32 s) empty recorded =
        if text = [] then empty after else some (some (base + BitVec.ofNat 32 s), after) := by
  have counted : strlenLoop recorded.state.mem limit (base + BitVec.ofNat 32 s) 0 = _ :=
    strlenLoop_eq string (show text.length < limit by omega)
  have none : (0 : BitVec 32) + BitVec.ofNat 32 text.length = 0 ↔ text = [] := by
    rw [zero_add, ← BitVec.toNat_inj, BitVec.toNat_ofNat, Nat.mod_eq_of_lt string.short]
    exact List.length_eq_zero_iff
  refine ⟨{ recorded with reads := recorded.reads ++ span (base + BitVec.ofNat 32 s) (text.length + 1) },
    rfl, ⟨fun _ _ => rfl, fun _ => Or.inl, ?_⟩, ?_⟩
  · intro addr member
    rcases List.mem_append.mp member with old | new
    · exact Or.inl old
    · right
      rcases List.mem_map.mp new with ⟨i, short, rfl⟩
      have count := List.mem_range.mp short
      rw [add_assoc, ← BitVec.ofNat_add, Shell.toNat_add_ofNat_sub (by omega)]
      omega
  · rw [finish, Recorded.strlen, counted, Option.map_some, Option.bind_eq_bind, Option.bind_some]
    exact if_congr none rfl rfl

/-- The return at the end of the text, after the characters that have been read. -/
theorem finish_last (small : length < 2 ^ 32) (most : length < limit)
    (cursor : Cursor base length (s + seen.length) [] recorded)
    (string : StringAt recorded.state.mem (base + BitVec.ofNat 32 s) seen) :
    Returns base length s (if seen = [] then [] else [seen]) recorded
      (finish limit (base + BitVec.ofNat 32 s) (fun recorded => some (none, recorded)) recorded) := by
  have inside := cursor.inside
  rw [List.length_nil, Nat.add_zero] at inside
  rcases finish_eq s string inside small most with ⟨after, same, since, returned⟩
  have ends : Cursor base length (s + seen.length) [] after := by
    refine ⟨?_, ?_, cursor.inside⟩
    · rw [same]
      exact cursor.cmd
    · rw [same]
      exact cursor.left
  rw [returned]
  by_cases empty : seen = []
  · rw [if_pos empty, if_pos empty]
    exact ⟨none, after, _, [], rfl, ends, Nat.le_add_right _ _, since, rfl, rfl⟩
  · rw [if_neg empty, if_neg empty]
    refine ⟨_, after, _, [], rfl, ends, Nat.le_add_right _ _, since, rfl, s, rfl, ?_, Or.inr ⟨rfl, inside⟩⟩
    rw [same]
    exact string

/-- The loop has read some characters of a word, which begins at offset `s`. -/
structure Reading (base : BitVec 32) (length s : Nat) (seen rest : List (BitVec 8)) (recorded : Recorded) :
    Prop where
  cmd : recorded.state.cmd = base + BitVec.ofNat 32 (s + seen.length)
  string : StringAt recorded.state.mem (base + BitVec.ofNat 32 s) (seen ++ rest)
  inside : s + seen.length + rest.length ≤ length

section Reading

variable {ch : BitVec 8} {fuel : Nat} {again : Recorded → Option Token}

theorem Reading.left (reading : Reading base length s seen rest recorded) :
    StringAt recorded.state.mem recorded.state.cmd rest := by
  have left := reading.string.drop
  rwa [add_assoc, ← BitVec.ofNat_add, ← reading.cmd] at left

theorem Reading.looked (reading : Reading base length s seen rest recorded) (small : length < 2 ^ 32) :
    Since base length s recorded recorded.look := by
  have inside := reading.inside
  have looked := Since.look reading.cmd small (by omega)
  exact Since.refl.trans looked (Nat.le_add_right _ _)

theorem Reading.cleared (reading : Reading base length s seen (ch :: rest) recorded)
    (small : length < 2 ^ 32) : Since base length s recorded recorded.look.clear := by
  have inside := reading.inside
  rw [List.length_cons] at inside
  have cleared := @Since.clear base length (s + seen.length) recorded.look reading.cmd small (by omega)
  exact (reading.looked small).trans cleared (Nat.le_add_right _ _)

/-- The character is cleared: the word ends in front of it, and the rest begins behind it. -/
theorem Reading.cut (reading : Reading base length s seen (ch :: rest) recorded) :
    StringAt recorded.look.clear.state.mem (base + BitVec.ofNat 32 s) seen ∧
      StringAt recorded.look.clear.state.mem (base + BitVec.ofNat 32 (s + seen.length + 1)) rest := by
  have cut := reading.string.cut
  rw [add_assoc, ← BitVec.ofNat_add, ← reading.cmd, add_assoc, ← BitVec.ofNat_add, ← Nat.add_assoc] at cut
  exact cut

/-- The text ends here. -/
theorem Reading.last (reading : Reading base length s seen [] recorded) (small : length < 2 ^ 32)
    (most : length < limit) :
    Returns base length s (wordsFrom seen []) recorded
      (tokenLoop limit again (base + BitVec.ofNat 32 s) (fuel + 1) recorded) := by
  have zero : recorded.look.byte = 0 := reading.left
  have stops : ¬ (recorded.look.byte ≠ 0 ∧ recorded.look.byte ≠ chr '\n') := fun goes => goes.1 zero
  have other : recorded.look.byte ≠ chr '\n' := by
    rw [zero]
    decide
  have string := reading.string
  rw [List.append_nil] at string
  have ends : Cursor base length (s + seen.length) [] recorded.look :=
    ⟨reading.cmd, reading.cmd ▸ reading.left, reading.inside⟩
  rw [tokenLoop, if_neg stops, if_neg other, wordsFrom_nil]
  apply Returns.since (finish_last small most ends string)
  · exact reading.looked small
  · exact Nat.le_refl s

/-- The line ends here. -/
theorem Reading.newline (reading : Reading base length s seen (chr '\n' :: rest) recorded)
    (small : length < 2 ^ 32) (most : length < limit) :
    Returns base length s (wordsFrom seen (chr '\n' :: rest)) recorded
      (tokenLoop limit again (base + BitVec.ofNat 32 s) (fuel + 1) recorded) := by
  have byte : recorded.look.byte = chr '\n' := reading.left.1
  have stops : ¬ (recorded.look.byte ≠ 0 ∧ recorded.look.byte ≠ chr '\n') := fun goes => goes.2 byte
  have inside := reading.inside
  have ends : Cursor base length (s + seen.length) [] recorded.look.clear := by
    refine ⟨reading.cmd, ?_, Nat.le_of_add_right_le inside⟩
    rw [← reading.cmd]
    exact Function.update_self _ _ _
  rw [tokenLoop, if_neg stops, if_pos byte, wordsFrom_newline]
  apply Returns.since (finish_last small most ends reading.cut.1)
  · exact reading.cleared small
  · exact Nat.le_refl s

/-- A blank ends the word, or is skipped when there is none. -/
theorem Reading.blank (reading : Reading base length s seen (chr ' ' :: rest) recorded)
    (small : length < 2 ^ 32) (most : length < limit)
    (recursive : ∀ next, Cursor base length (s + seen.length + 1) rest next →
      Returns base length (s + seen.length + 1) (words rest) next (again next)) :
    Returns base length s (wordsFrom seen (chr ' ' :: rest)) recorded
      (tokenLoop limit again (base + BitVec.ofNat 32 s) (fuel + 1) recorded) := by
  have byte : recorded.look.byte = chr ' ' := reading.left.1
  have goes : recorded.look.byte ≠ 0 ∧ recorded.look.byte ≠ chr '\n' := by
    rw [byte]
    decide
  have inside := reading.inside
  rw [List.length_cons] at inside
  have cmd : recorded.look.clear.advance.state.cmd = base + BitVec.ofNat 32 (s + seen.length + 1) := by
    rw [BitVec.ofNat_add, ← add_assoc, ← reading.cmd]
    rfl
  rcases @finish_eq base length limit s recorded.look.clear.advance s again seen reading.cut.1
    (by omega) small most with ⟨after, same, since, returned⟩
  have total : Since base length s recorded after :=
    (reading.cleared small).advance.trans since (Nat.le_refl s)
  have later : Cursor base length (s + seen.length + 1) rest after :=
    ⟨same ▸ cmd, same ▸ reading.cut.2, by omega⟩
  rw [tokenLoop, if_pos goes, if_pos byte, wordsFrom_blank, returned]
  by_cases empty : seen = []
  · rw [if_pos empty, if_pos empty]
    exact (recursive after later).since total (by omega)
  · rw [if_neg empty, if_neg empty]
    refine ⟨_, after, _, rest, rfl, later, by omega, total, rfl, s, rfl, ?_, Or.inl (by omega)⟩
    rw [same]
    exact reading.cut.1

/-- Another character belongs to the word. -/
theorem Reading.advance (reading : Reading base length s seen (ch :: rest) recorded) :
    Reading base length s (seen ++ [ch]) rest recorded.look.advance := by
  have inside := reading.inside
  have count : s + (seen ++ [ch]).length = s + seen.length + 1 := by
    rw [List.length_append, List.length_singleton, Nat.add_assoc]
  rw [List.length_cons] at inside
  refine ⟨?_, ?_, by omega⟩
  · rw [count, BitVec.ofNat_add, ← add_assoc, ← reading.cmd]
    rfl
  · rw [List.append_assoc]
    exact reading.string

end Reading

/-- The loop, when it has read some characters of a word. -/
theorem tokenLoop_spec (small : length < 2 ^ 32) (most : length < limit) {again : Recorded → Option Token}
    {fuel : Nat} (reading : Reading base length s seen rest recorded)
    (recursive : ∀ next j left, left.length < rest.length → Cursor base length j left next →
      Returns base length j (words left) next (again next))
    (enough : rest.length < fuel) :
    Returns base length s (wordsFrom seen rest) recorded
      (tokenLoop limit again (base + BitVec.ofNat 32 s) fuel recorded) := by
  induction rest generalizing fuel seen recorded with
  | nil =>
      cases fuel with
      | zero => exact absurd enough (Nat.not_lt_zero _)
      | succ fuel => exact reading.last small most
  | cons ch rest inductionHypothesis =>
      cases fuel with
      | zero => exact absurd enough (Nat.not_lt_zero _)
      | succ fuel =>
          rw [List.length_cons] at enough recursive
          by_cases newline : ch = chr '\n'
          · subst newline
            exact reading.newline small most
          · by_cases blank : ch = chr ' '
            · subst blank
              exact reading.blank small most fun next => recursive next _ rest (Nat.lt_succ_self _)
            · have byte : recorded.look.byte = ch := reading.left.1
              have goes : recorded.look.byte ≠ 0 ∧ recorded.look.byte ≠ chr '\n' := by
                rw [byte]
                exact ⟨reading.left.2.1, newline⟩
              have other : recorded.look.byte ≠ chr ' ' := byte.trans_ne blank
              have later := inductionHypothesis reading.advance
                (fun next j left shorter => recursive next j left (by omega))
                (Nat.lt_of_succ_lt_succ enough)
              rw [tokenLoop, if_pos goes, if_neg other, wordsFrom_cons newline blank]
              exact later.since (reading.looked small).advance (Nat.le_refl s)

/-- At the end of the text nothing happens. -/
theorem getTokenAndAdvance_end {fuel : Nat} (nonnull : base + BitVec.ofNat 32 p ≠ 0)
    (cursor : Cursor base length p [] recorded) :
    getTokenAndAdvance limit (fuel + 1) recorded = some (none, recorded.look) := by
  have pointer : ¬ recorded.state.cmd = 0 := by rwa [cursor.cmd]
  have zero : recorded.byte = 0 := (congrArg recorded.state.mem cursor.cmd).trans cursor.left
  rw [getTokenAndAdvance, if_neg pointer, if_pos zero]

/-- A call, with the pointer somewhere in the text. -/
theorem getTokenAndAdvance_spec (small : length < 2 ^ 32) (most : length < limit)
    (nonnull : ∀ j ≤ length, base + BitVec.ofNat 32 j ≠ 0) {fuel : Nat}
    (cursor : Cursor base length p rest recorded) (enough : rest.length < fuel) :
    Returns base length p (words rest) recorded (getTokenAndAdvance limit fuel recorded) := by
  induction fuel generalizing p rest recorded with
  | zero => exact absurd enough (Nat.not_lt_zero _)
  | succ fuel inductionHypothesis =>
      have inside := cursor.inside
      have looked := Since.look cursor.cmd small (by omega)
      cases rest with
      | nil =>
          rw [getTokenAndAdvance_end (nonnull p (by omega)) cursor]
          exact ⟨none, recorded.look, p, [], rfl, ⟨cursor.cmd, cursor.left, inside⟩, Nat.le_refl p, looked,
            rfl, rfl⟩
      | cons ch rest =>
          have pointer : ¬ recorded.state.cmd = 0 := by
            rw [cursor.cmd]
            exact nonnull p (by omega)
          have goes : ¬ recorded.byte = 0 := by
            rw [Recorded.byte, cursor.cmd]
            exact cursor.left.goes
          rw [getTokenAndAdvance, if_neg pointer, if_neg goes, cursor.cmd, ← wordsFrom_start]
          have recursive : ∀ next j left, left.length < (ch :: rest).length →
              Cursor base length j left next →
                Returns base length j (words left) next (getTokenAndAdvance limit fuel next) :=
            fun next j left shorter cursor => inductionHypothesis cursor (by omega)
          have reading : Reading base length p [] (ch :: rest) recorded.look :=
            ⟨cursor.cmd, cursor.left, inside⟩
          have loop := tokenLoop_spec small most reading recursive enough
          exact loop.since looked (Nat.le_refl p)

/-- Calls one after the other, with the pointer somewhere in the text.  The words are
still in memory after the last call. -/
theorem calls_spec (small : length < 2 ^ 32) (most : length < limit)
    (nonnull : ∀ j ≤ length, base + BitVec.ofNat 32 j ≠ 0) {fuel : Nat} (enough : length < fuel)
    (count : Nat) (cursor : Cursor base length p rest recorded) :
    ∃ tokens after, calls limit fuel count recorded = some (tokens, after) ∧
      Since base length p recorded after ∧ (rest = [] → after.state.mem = recorded.state.mem) ∧
      ∀ i < count, ∃ token, tokens[i]? = some token ∧
        Option.Rel (StringAt after.state.mem) token (words rest)[i]? := by
  induction count generalizing p rest recorded with
  | zero => exact ⟨[], recorded, rfl, Since.refl, fun _ => rfl, nofun⟩
  | succ count inductionHypothesis =>
      have inside := cursor.inside
      rcases getTokenAndAdvance_spec small most nonnull cursor (show rest.length < fuel by omega) with
        ⟨token, middle, p', rest', returned, next, advanced, since, tells⟩
      rcases inductionHypothesis next with ⟨tokens, after, later, sinceNext, unchanged, others⟩
      refine ⟨token :: tokens, after, ?_, since.trans sinceNext advanced, ?_, ?_⟩
      · simp only [calls, returned, later, Option.bind_eq_bind, Option.bind_some]
      · rintro rfl
        cases fuel with
        | zero => exact absurd enough (Nat.not_lt_zero _)
        | succ fuel =>
            have ended := @getTokenAndAdvance_end base length limit p recorded fuel
              (nonnull p (by omega)) cursor
            rw [returned, Option.some.injEq, Prod.mk.injEq] at ended
            rw [← wordsFrom_start, wordsFrom_nil, if_pos rfl] at tells
            rw [unchanged tells.2, ended.2]
            rfl
      · intro i before
        cases equal : words rest with
        | nil =>
            rw [equal] at tells
            rcases tells with ⟨rfl, rfl⟩
            cases i with
            | zero => exact ⟨none, rfl, Option.Rel.none⟩
            | succ i => exact others i (Nat.lt_of_succ_lt_succ before)
        | cons word left =>
            rw [equal] at tells
            rcases tells with ⟨remaining, t, rfl, string, behind⟩
            cases i with
            | zero =>
                refine ⟨_, rfl, Option.Rel.some (string.congr fun j inside => ?_)⟩
                rw [add_assoc, ← BitVec.ofNat_add]
                rcases behind with before | ⟨last, -⟩
                · exact sinceNext.kept _ (by omega)
                · rw [unchanged last]
            | succ i =>
                rw [remaining] at others
                exact others i (Nat.lt_of_succ_lt_succ before)

/-- The words of a command, which is not at the null pointer and does not wrap around, are
returned one after the other, and then nothing.  They are not changed by the calls that
follow.  Nothing outside the command is read or written. -/
theorem calls_words {mem : Mem} {text : List (BitVec 8)} (string : StringAt mem base text)
    (nonnull : base ≠ 0) (fits : base.toNat + text.length < 2 ^ 32) (enough : text.length < limit)
    (count : Nat) :
    ∃ tokens after, calls limit limit count ⟨⟨mem, base, []⟩, []⟩ = some (tokens, after) ∧
      (∀ i < count, ∃ token, tokens[i]? = some token ∧
        Option.Rel (StringAt after.state.mem) token (words text)[i]?) ∧
      (∀ addr ∈ after.reads, (addr - base).toNat ≤ text.length) ∧
      ∀ store ∈ after.state.stores, (store.addr - base).toNat ≤ text.length := by
  have addresses : ∀ j ≤ text.length, base + BitVec.ofNat 32 j ≠ 0 := by
    intro j inside
    bv_omega
  have cursor : Cursor base text.length 0 text ⟨⟨mem, base, []⟩, []⟩ :=
    ⟨(BitVec.add_zero base).symm, (BitVec.add_zero base).symm ▸ string, by omega⟩
  rcases calls_spec (by omega) enough addresses enough count cursor with
    ⟨tokens, after, returned, since, -, tells⟩
  refine ⟨tokens, after, returned, tells, fun addr member => ?_, fun store member => ?_⟩
  · exact (since.reads addr member).resolve_left List.not_mem_nil
  · exact Nat.le_of_lt ((since.stores store member).resolve_left List.not_mem_nil)

/-- Three calls for a command with one word. -/
theorem calls_words_ls :
    ∃ tokens after,
      calls 5 5 3 ⟨⟨fun addr => (textOf " ls\n").getD (addr - 0x1000).toNat 0, 0x1000, []⟩, []⟩ =
        some (tokens, after) ∧
      (∀ i < 3, ∃ token, tokens[i]? = some token ∧
        Option.Rel (StringAt after.state.mem) token (words (textOf " ls\n"))[i]?) ∧
      (∀ addr ∈ after.reads, (addr - 0x1000).toNat ≤ 4) ∧
      ∀ store ∈ after.state.stores, (store.addr - 0x1000).toNat ≤ 4 := by
  have string : StringAt (fun addr => (textOf " ls\n").getD (addr - 0x1000).toNat 0) 0x1000
      (textOf " ls\n") :=
    ⟨rfl, by decide, rfl, by decide, rfl, by decide, rfl, by decide, rfl⟩
  exact calls_words string (by decide) (by decide) (by decide) 3

end Calls

/-! ## The calls of the shell -/

section Erase

variable {limit fuel : Nat} {recorded after : Recorded} {start : BitVec 32} {token : Option (BitVec 32)}

/-- The token is empty when its first byte is zero. -/
theorem finish_erase {empty : Recorded → Option Token} {empty' : ShellState → Option Shell.Token}
    (erase : ∀ recorded token after, empty recorded = some (token, after) →
      empty' recorded.state = some (token, after.state))
    (returned : finish limit start empty recorded = some (token, after)) :
    (if recorded.state.mem start = 0 then empty' recorded.state else some (some start, recorded.state)) =
      some (token, after.state) := by
  rw [finish, Recorded.strlen, Option.bind_eq_bind, Option.bind_eq_some_iff] at returned
  rcases returned with ⟨⟨len, counted⟩, measured, returned⟩
  rcases Option.map_eq_some_iff.mp measured with ⟨⟨last, reads⟩, ended, result⟩
  rcases strlenLoop_text ended with ⟨text, string, length⟩
  have none : len = 0 ↔ recorded.state.mem start = 0 := by
    rw [← (Prod.mk.inj result).1, length, zero_add, ← BitVec.toNat_inj, BitVec.toNat_ofNat,
      Nat.mod_eq_of_lt string.short]
    cases text with
    | nil => exact iff_of_true rfl string
    | cons ch rest => exact iff_of_false (Nat.succ_ne_zero _) string.goes
  have state : counted.state = recorded.state := by rw [← (Prod.mk.inj result).2]
  dsimp only at returned
  by_cases empties : len = 0
  · rw [if_pos empties] at returned
    rw [if_pos (none.mp empties), ← state]
    exact erase _ _ _ returned
  · rw [if_neg empties, Option.some.injEq, Prod.mk.injEq] at returned
    rw [if_neg (mt none.mpr empties), ← state, returned.1, returned.2]

theorem finish_last_erase
    (returned : finish limit start (fun recorded => some (none, recorded)) recorded = some (token, after)) :
    (if recorded.state.mem start = 0 then some (none, recorded.state)
      else some (some start, recorded.state)) = some (token, after.state) := by
  let noToken : ShellState → Option Shell.Token := fun state => some (none, state)
  have last : ∀ (recorded : Recorded) (token : Option (BitVec 32)) (after : Recorded),
      some (none, recorded) = some (token, after) →
        noToken recorded.state = some (token, after.state) := by
    intro recorded token after same
    cases same
    rfl
  exact finish_erase last returned

theorem tokenLoop_erase {again : Recorded → Option Token} {again' : ShellState → Option Shell.Token}
    (erase : ∀ recorded token after, again recorded = some (token, after) →
      again' recorded.state = some (token, after.state))
    (returned : tokenLoop limit again start fuel recorded = some (token, after)) :
    Shell.tokenLoop again' start fuel recorded.state = some (token, after.state) := by
  induction fuel generalizing recorded with
  | zero => exact absurd returned nofun
  | succ fuel inductionHypothesis =>
      rw [tokenLoop] at returned
      rw [Shell.tokenLoop]
      dsimp only at returned ⊢
      by_cases goes : recorded.look.byte ≠ 0 ∧ recorded.look.byte ≠ chr '\n'
      · rw [if_pos goes] at returned
        refine (if_pos goes).trans ?_
        by_cases blank : recorded.look.byte = chr ' '
        · rw [if_pos blank] at returned
          exact (if_pos blank).trans (finish_erase erase returned)
        · rw [if_neg blank] at returned
          exact (if_neg blank).trans (inductionHypothesis returned)
      · rw [if_neg goes] at returned
        refine (if_neg goes).trans ?_
        by_cases newline : recorded.look.byte = chr '\n'
        · have newline' : recorded.state.mem recorded.state.cmd = chr '\n' := newline
          rw [if_pos newline] at returned
          rw [if_pos newline']
          exact finish_last_erase returned
        · have newline' : ¬ recorded.state.mem recorded.state.cmd = chr '\n' := newline
          rw [if_neg newline] at returned
          rw [if_neg newline']
          have last := finish_last_erase returned
          exact last

/-- Without the reads, this is the function of the shell. -/
theorem getTokenAndAdvance_erase
    (returned : getTokenAndAdvance limit fuel recorded = some (token, after)) :
    Shell.getTokenAndAdvance fuel recorded.state = some (token, after.state) := by
  induction fuel generalizing recorded token after with
  | zero => exact absurd returned nofun
  | succ fuel inductionHypothesis =>
      rw [getTokenAndAdvance] at returned
      rw [Shell.getTokenAndAdvance]
      by_cases pointer : recorded.state.cmd = 0
      · rw [if_pos pointer] at returned
        rw [if_pos (Or.inl pointer)]
        cases returned
        rfl
      · rw [if_neg pointer] at returned
        by_cases zero : recorded.byte = 0
        · rw [if_pos zero] at returned
          refine (if_pos (Or.inr zero)).trans ?_
          cases returned
          rfl
        · rw [if_neg zero] at returned
          refine (if_neg (not_or.mpr ⟨pointer, zero⟩)).trans ?_
          have loop := tokenLoop_erase (fun _ _ _ => inductionHypothesis) returned
          exact loop

end Erase

end Tokens
end Userspace

end WeakOS
