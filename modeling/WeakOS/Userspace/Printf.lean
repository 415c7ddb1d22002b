import Mathlib
import WeakOS.Stdio.Format

namespace WeakOS

open Foundation

namespace Userspace

/-!
# `printf` of the user's library

After a conversion for an argument the format is moved behind it, and then the
next character is put out, whatever it is.  So what follows a conversion must
be a literal character.  There is no result when the format is read behind its
terminator, or when there is no argument of the type that is asked for.
-/

/-- The arguments after the format. -/
inductive Vararg where
  | int (value : BitVec 32)
  | str (string : CString 8)

/-- `va_arg(argl, int)`. -/
def vaInt : List Vararg → Option (BitVec 32 × List Vararg)
  | .int value :: args => some (value, args)
  | _ => none

/-- `va_arg(argl, char*)`. -/
def vaStr : List Vararg → Option (CString 8 × List Vararg)
  | .str string :: args => some (string, args)
  | _ => none

/-! ## Output -/

/-- The argument of system call 1 for a `char` that is passed as an `int`. -/
def putcharArg (ch : BitVec 8) : BitVec 32 := ch.signExtend 32

/-- The character that `syscall_put_term` takes from its frame. -/
def putTerm (chr : BitVec 32) : BitVec 8 := chr.setWidth 8

/-- The characters that are put out, and the counter. -/
structure Output where
  emitted : List (BitVec 8)
  written : BitVec 32
  deriving DecidableEq

namespace Output

def empty : Output := ⟨[], 0⟩

/-- A text that has been counted. -/
def of (text : List (BitVec 8)) : Output := ⟨text, BitVec.ofNat 32 text.length⟩

/-- `putchar` and `written++`, in front of what comes later. -/
def putchar (ch : BitVec 8) (rest : Output) : Output :=
  ⟨putTerm (putcharArg ch) :: rest.emitted, rest.written + 1⟩

def putchars (text : List (BitVec 8)) (rest : Output) : Output := text.foldr putchar rest

end Output

/-! ## Conversions -/

/-- The loop for the digits of an `int`, into `char str[20]`. -/
def intDigits (value : BitVec 32) : Option (List (BitVec 8)) :=
  Numeral.push (fun value : BitVec 32 => BitVec.slt 0 value)
    (fun value => (value.srem 10).setWidth 8 + chr '0') (fun value => value.sdiv 10) 20 value []

def putInt (value : BitVec 32) (rest : Output) : Option Output := do
  let negative := value.slt 0
  let str ← intDigits (if negative then -value else value)
  let sign := if negative then [chr '-'] else []
  some (Output.putchars sign (Output.putchars (Numeral.print (chr '0') str) rest))

/-- The output at the end of an iteration, and the later iterations. -/
def putNext (format : CString 8) (loop : Nat → List Vararg → Option Output) (position : Nat)
    (args : List Vararg) : Option Output := do
  let ch ← format.at? position
  let rest ← loop (position + 1) args
  some (Output.putchar ch rest)

/-- The loop of `printf`; there is no result when it needs more than `fuel`
iterations. -/
def printfLoop (format : CString 8) : (fuel position : Nat) → List Vararg → Option Output
  | 0, _, _ => none
  | fuel + 1, position, args => do
      let ch ← format.at? position
      if ch = 0 then some Output.empty
      else if ch = chr '%' then
        let conversion ← format.at? (position + 1)
        if conversion = chr '%' then putNext format (printfLoop format fuel) (position + 1) args
        else if conversion = chr 'd' then
          let (value, args) ← vaInt args
          let rest ← putNext format (printfLoop format fuel) (position + 2) args
          putInt value rest
        else if conversion = chr 's' then
          let (string, args) ← vaStr args
          let rest ← putNext format (printfLoop format fuel) (position + 2) args
          some (Output.putchars string.units rest)
        else putNext format (printfLoop format fuel) position args
      else putNext format (printfLoop format fuel) position args

/-- Every iteration consumes a character of the format, and the terminator is the
last one that can be consumed. -/
def printf (format : CString 8) (args : List Vararg) : Option Output :=
  printfLoop format (format.units.length + 2) 0 args

/-! ## Formats -/

/-- What a format is built from. -/
inductive FormatPiece where
  | literal (ch : BitVec 8) (nonzero : ch ≠ 0) (plain : ch ≠ chr '%')
  | percent
  | decimal
  | string

namespace FormatPiece

def text : FormatPiece → List (BitVec 8)
  | .literal ch _ _ => [ch]
  | .percent => [chr '%', chr '%']
  | .decimal => [chr '%', chr 'd']
  | .string => [chr '%', chr 's']

def isLiteral : FormatPiece → Bool
  | .literal _ _ _ => true
  | _ => false

/-- The pieces that take an argument. -/
def takes : FormatPiece → Bool
  | .decimal | .string => true
  | _ => false

theorem zero_notMem_text (piece : FormatPiece) : 0 ∉ piece.text := by
  cases piece with
  | literal ch nonzero plain => exact fun member => nonzero (List.mem_singleton.mp member).symm
  | percent | decimal | string => decide

end FormatPiece

/-- No piece is empty. -/
theorem length_le_text (pieces : List FormatPiece) :
    pieces.length ≤ (pieces.flatMap FormatPiece.text).length := by
  induction pieces with
  | nil => exact Nat.zero_le _
  | cons piece rest inductionHypothesis =>
      have nonempty : 1 ≤ piece.text.length := by
        cases piece <;> simp only [FormatPiece.text, List.length_cons, List.length_nil] <;> omega
      rw [List.flatMap_cons, List.length_append, List.length_cons]
      omega

/-- The format with the given pieces. -/
def formatOf (pieces : List FormatPiece) : CString 8 where
  units := pieces.flatMap FormatPiece.text
  terminated := fun member => by
    rcases List.mem_flatMap.mp member with ⟨piece, -, inside⟩
    exact piece.zero_notMem_text inside

/-- The text for a format and arguments that match it.  The least `int` has no
negation. -/
def expand : List FormatPiece → List Vararg → Option (List (BitVec 8))
  | [], [] => some []
  | .literal ch _ _ :: pieces, args => (expand pieces args).map (ch :: ·)
  | .percent :: pieces, args => (expand pieces args).map (chr '%' :: ·)
  | .decimal :: pieces, .int value :: args =>
      if value = BitVec.intMin 32 then none
      else (expand pieces args).map (Stdio.signedDecimal value.toInt ++ ·)
  | .string :: pieces, .str string :: args => (expand pieces args).map (string.units ++ ·)
  | _, _ => none

/-- For all matching arguments, the text is put out and its length is returned. -/
def Expands (pieces : List FormatPiece) : Prop :=
  ∀ args text, expand pieces args = some text → printf (formatOf pieces) args = some (Output.of text)

/-- Every conversion for an argument is directly followed by a literal character. -/
def Followed : List FormatPiece → Prop
  | [] => True
  | piece :: rest => (piece.takes = true → (rest.head?.map FormatPiece.isLiteral) = some true) ∧
      Followed rest

/-! ## What is put out -/

namespace Output

theorem putTerm_putcharArg (ch : BitVec 8) : putTerm (putcharArg ch) = ch := by
  revert ch
  decide

theorem putchar_of (ch : BitVec 8) (text : List (BitVec 8)) : putchar ch (of text) = of (ch :: text) := by
  rw [putchar, putTerm_putcharArg, of, of, List.length_cons, BitVec.ofNat_add]
  rfl

theorem putchars_of (text rest : List (BitVec 8)) : putchars text (of rest) = of (text ++ rest) := by
  induction text with
  | nil => rfl
  | cons ch text inductionHypothesis =>
      rw [putchars, List.foldr_cons, ← putchars, inductionHypothesis, putchar_of, List.cons_append]

theorem emitted_putchar (ch : BitVec 8) (rest : Output) : (putchar ch rest).emitted = ch :: rest.emitted := by
  rw [putchar, putTerm_putcharArg]

theorem emitted_putchars (text : List (BitVec 8)) (rest : Output) :
    (putchars text rest).emitted = text ++ rest.emitted := by
  induction text with
  | nil => rfl
  | cons ch text inductionHypothesis =>
      rw [putchars, List.foldr_cons, ← putchars, emitted_putchar, inductionHypothesis, List.cons_append]

end Output

/-- The buffer of the loop is large enough. -/
theorem intDigits_eq (value : BitVec 32) :
    ∃ str, intDigits value = some str ∧ Numeral.print (chr '0') str = Stdio.decimal (Stdio.magnitude value) := by
  have fits : Stdio.magnitude value < 10 ^ 20 := by
    have bound : value.toInt < 2 ^ 31 := BitVec.toInt_lt
    unfold Stdio.magnitude
    omega
  exact ⟨_, (Stdio.signedDivides (by decide)).push_eq (by decide) 20 value [] fits,
    Numeral.print_digits Stdio.decimalDigit (Stdio.magnitude value)⟩

/-- An `int` that has a negation is put out as its numeral. -/
theorem putInt_eq {value : BitVec 32} (negatable : value ≠ BitVec.intMin 32) (rest : Output) :
    putInt value rest = some (Output.putchars (Stdio.signedDecimal value.toInt) rest) := by
  have zero : (0 : BitVec 32).toInt = 0 := BitVec.toInt_zero
  have negative : value.slt 0 = true ↔ value.toInt < 0 := by rw [BitVec.slt_iff_toInt_lt, zero]
  have sign : (if value.slt 0 then [chr '-'] else []) = if value.toInt < 0 then [chr '-'] else [] :=
    if_congr negative rfl rfl
  rcases intDigits_eq (if value.slt 0 then -value else value) with ⟨str, pushed, printed⟩
  rw [Stdio.magnitude_unsigned negatable] at printed
  simp only [putInt, pushed, Option.bind_eq_bind, Option.bind_some, printed, sign]
  exact congrArg some List.foldr_append.symm

/-! ## One iteration -/

section Iteration

variable {format : CString 8} {fuel position : Nat} {args : List Vararg} {ch : BitVec 8}
  {rest : List (BitVec 8)}

theorem putNext_eq (loop : Nat → List Vararg → Option Output)
    (left : format.stored.drop position = ch :: rest) :
    putNext format loop position args = (loop (position + 1) args).map (Output.putchar ch) := by
  rw [putNext, CString.at?_of_drop left, Option.map_eq_bind]
  rfl

theorem printfLoop_end (left : format.stored.drop position = [0]) :
    printfLoop format (fuel + 1) position args = some Output.empty := by
  rw [printfLoop, CString.at?_of_drop left]
  rfl

theorem printfLoop_literal (left : format.stored.drop position = ch :: rest) (nonzero : ch ≠ 0)
    (plain : ch ≠ chr '%') : printfLoop format (fuel + 1) position args =
      (printfLoop format fuel (position + 1) args).map (Output.putchar ch) := by
  rw [printfLoop, CString.at?_of_drop left, Option.bind_eq_bind, Option.bind_some, if_neg nonzero,
    if_neg plain, putNext_eq _ left]

section Percent

variable {conversion : BitVec 8}
  (left : format.stored.drop position = chr '%' :: conversion :: rest)

include left

/-- At a percent sign the next character decides. -/
theorem printfLoop_sign : printfLoop format (fuel + 1) position args =
    if conversion = chr '%' then putNext format (printfLoop format fuel) (position + 1) args
    else if conversion = chr 'd' then
      (vaInt args).bind (fun next =>
        (putNext format (printfLoop format fuel) (position + 2) next.2).bind (putInt next.1))
    else if conversion = chr 's' then
      (vaStr args).bind (fun next =>
        (putNext format (printfLoop format fuel) (position + 2) next.2).map
          (Output.putchars next.1.units))
    else putNext format (printfLoop format fuel) position args := by
  have notEnd : chr '%' ≠ 0 := by decide
  simp only [printfLoop, CString.at?_of_drop left, CString.at?_of_drop (CString.drop_succ_of_drop left),
    Option.bind_eq_bind, Option.bind_some, if_neg notEnd, if_true, Option.map_eq_bind]
  rfl

end Percent

theorem printfLoop_percent (left : format.stored.drop position = chr '%' :: chr '%' :: rest) :
    printfLoop format (fuel + 1) position args =
      (printfLoop format fuel (position + 2) args).map (Output.putchar (chr '%')) := by
  rw [printfLoop_sign left, if_pos rfl, putNext_eq _ (CString.drop_succ_of_drop left)]

theorem printfLoop_decimal (left : format.stored.drop position = chr '%' :: chr 'd' :: rest) :
    printfLoop format (fuel + 1) position args = (vaInt args).bind (fun next =>
      (putNext format (printfLoop format fuel) (position + 2) next.2).bind (putInt next.1)) := by
  have differs : chr 'd' ≠ chr '%' := by decide
  rw [printfLoop_sign left, if_neg differs, if_pos rfl]

theorem printfLoop_string (left : format.stored.drop position = chr '%' :: chr 's' :: rest) :
    printfLoop format (fuel + 1) position args = (vaStr args).bind (fun next =>
      (putNext format (printfLoop format fuel) (position + 2) next.2).map
        (Output.putchars next.1.units)) := by
  have differs : chr 's' ≠ chr '%' ∧ chr 's' ≠ chr 'd' := by decide
  rw [printfLoop_sign left, if_neg differs.1, if_neg differs.2, if_pos rfl]

/-- What is put out behind a conversion is what an iteration would put out there,
if it is a literal character. -/
theorem putNext_literal (left : format.stored.drop position = ch :: rest) (nonzero : ch ≠ 0)
    (plain : ch ≠ chr '%') : putNext format (printfLoop format fuel) position args =
      printfLoop format (fuel + 1) position args := by
  rw [putNext_eq _ left, printfLoop_literal left nonzero plain]

end Iteration

/-! ## Formats whose conversions are followed by literals -/

/-- The first piece behind a conversion is a literal character. -/
theorem exists_literal {pieces : List FormatPiece}
    (literal : pieces.head?.map FormatPiece.isLiteral = some true) :
    ∃ ch nonzero plain rest, pieces = .literal ch nonzero plain :: rest := by
  cases pieces with
  | nil => cases literal
  | cons piece rest =>
      cases piece with
      | literal ch nonzero plain => exact ⟨ch, nonzero, plain, rest, rfl⟩
      | percent | decimal | string => cases literal

section Followed

variable {format : CString 8} {position : Nat} {pieces : List FormatPiece} {args : List Vararg}
  {text : List (BitVec 8)}

/-- The output behind a conversion, when a literal follows. -/
theorem putNext_followed (left : format.stored.drop position = pieces.flatMap FormatPiece.text ++ [0])
    (literal : pieces.head?.map FormatPiece.isLiteral = some true) {fuel : Nat} :
    putNext format (printfLoop format fuel) position args =
      printfLoop format (fuel + 1) position args := by
  rcases exists_literal literal with ⟨ch, nonzero, plain, rest, rfl⟩
  exact putNext_literal left nonzero plain

theorem printfLoop_expand (followed : Followed pieces)
    (left : format.stored.drop position = pieces.flatMap FormatPiece.text ++ [0])
    (expanded : expand pieces args = some text) {fuel : Nat} (fueled : pieces.length < fuel) :
    printfLoop format fuel position args = some (Output.of text) := by
  obtain ⟨fuel, rfl⟩ := Nat.exists_eq_add_of_le' (Nat.one_le_of_lt fueled)
  induction pieces generalizing position args text fuel with
  | nil =>
      cases args with
      | nil =>
          cases expanded
          exact printfLoop_end left
      | cons arg args => cases expanded
  | cons piece rest inductionHypothesis =>
      have later : rest.length < fuel := Nat.lt_of_succ_lt_succ fueled
      rw [List.flatMap_cons, List.append_assoc] at left
      rcases followed with ⟨next, followed⟩
      cases piece with
      | literal ch nonzero plain =>
          rcases Option.map_eq_some_iff.mp expanded with ⟨tail, expandedRest, rfl⟩
          obtain ⟨fuel, rfl⟩ := Nat.exists_eq_add_of_le' (Nat.one_le_of_lt later)
          rw [printfLoop_literal left nonzero plain, inductionHypothesis followed
            (CString.drop_succ_of_drop left) expandedRest fuel later, Option.map_some,
            Output.putchar_of]
      | percent =>
          rcases Option.map_eq_some_iff.mp expanded with ⟨tail, expandedRest, rfl⟩
          obtain ⟨fuel, rfl⟩ := Nat.exists_eq_add_of_le' (Nat.one_le_of_lt later)
          rw [printfLoop_percent left, inductionHypothesis followed
            (CString.drop_succ_of_drop (CString.drop_succ_of_drop left)) expandedRest fuel later,
            Option.map_some, Output.putchar_of]
      | decimal =>
          have moved := CString.drop_succ_of_drop (CString.drop_succ_of_drop left)
          match args with
          | .int value :: args =>
              rcases Option.ite_none_left_eq_some.mp expanded with ⟨negatable, expanded⟩
              rcases Option.map_eq_some_iff.mp expanded with ⟨tail, expandedRest, rfl⟩
              rw [printfLoop_decimal left, vaInt, Option.bind_some, putNext_followed moved (next rfl),
                inductionHypothesis followed moved expandedRest fuel (Nat.lt_succ_of_lt later),
                Option.bind_some, putInt_eq negatable, Output.putchars_of]
          | [] | .str _ :: _ => cases expanded
      | string =>
          have moved := CString.drop_succ_of_drop (CString.drop_succ_of_drop left)
          match args with
          | .str string :: args =>
              rcases Option.map_eq_some_iff.mp expanded with ⟨tail, expandedRest, rfl⟩
              rw [printfLoop_string left, vaStr, Option.bind_some, putNext_followed moved (next rfl),
                inductionHypothesis followed moved expandedRest fuel (Nat.lt_succ_of_lt later),
                Option.map_some, Output.putchars_of]
          | [] | .int _ :: _ => cases expanded

end Followed

/-! ## Other formats

Where a conversion is followed by anything else, the arguments of a sample show
it: every number is zero, and every string has one letter.
-/

def letter : CString 8 := ⟨[chr 'x'], by decide⟩

/-- The argument for a piece, and what is put out for it. -/
def FormatPiece.sampleArg : FormatPiece → Option Vararg
  | .decimal => some (.int 0)
  | .string => some (.str letter)
  | _ => none

def FormatPiece.sampleChar : FormatPiece → BitVec 8
  | .literal ch _ _ => ch
  | .percent => chr '%'
  | .decimal => chr '0'
  | .string => chr 'x'

def sampleArgs (pieces : List FormatPiece) : List Vararg := pieces.filterMap FormatPiece.sampleArg

def sampleText (pieces : List FormatPiece) : List (BitVec 8) := pieces.map FormatPiece.sampleChar

theorem signedDecimal_zero : Stdio.signedDecimal (0 : BitVec 32).toInt = [chr '0'] := by
  decide

theorem expand_sample (pieces : List FormatPiece) :
    expand pieces (sampleArgs pieces) = some (sampleText pieces) := by
  induction pieces with
  | nil => rfl
  | cons piece rest inductionHypothesis =>
      cases piece with
      | literal ch nonzero plain | percent | string =>
          exact Option.map_eq_some_iff.mpr ⟨sampleText rest, inductionHypothesis, rfl⟩
      | decimal =>
          refine (if_neg (by decide)).trans (Option.map_eq_some_iff.mpr
            ⟨sampleText rest, inductionHypothesis, ?_⟩)
          rw [signedDecimal_zero]
          rfl

/-- All the numbers of the sample are zero. -/
theorem vaInt_sample {pieces : List FormatPiece} {next : BitVec 32 × List Vararg}
    (taken : vaInt (sampleArgs pieces) = some next) : next.1 = 0 := by
  induction pieces with
  | nil => cases taken
  | cons piece rest inductionHypothesis =>
      cases piece with
      | literal | percent => exact inductionHypothesis taken
      | decimal => exact congrArg Prod.fst (Option.some.inj taken).symm
      | string => cases taken

theorem vaStr_sample {pieces : List FormatPiece} {next : CString 8 × List Vararg}
    (taken : vaStr (sampleArgs pieces) = some next) : next.1 = letter := by
  induction pieces with
  | nil => cases taken
  | cons piece rest inductionHypothesis =>
      cases piece with
      | literal | percent => exact inductionHypothesis taken
      | decimal => cases taken
      | string => exact congrArg Prod.fst (Option.some.inj taken).symm

section Sample

variable {format : CString 8} {fuel position : Nat} {pieces : List FormatPiece} {args : List Vararg}
  {out : Output}

theorem emitted_of_map {ch : BitVec 8} {result : Option Output}
    (mapped : result.map (Output.putchar ch) = some out) :
    ∃ rest, result = some rest ∧ out.emitted = ch :: rest.emitted := by
  rcases Option.map_eq_some_iff.mp mapped with ⟨rest, some, rfl⟩
  exact ⟨rest, some, Output.emitted_putchar ch rest⟩

theorem emitted_putInt_zero {rest : Output} (put : putInt 0 rest = some out) :
    out.emitted = chr '0' :: rest.emitted := by
  rw [putInt_eq (by decide), signedDecimal_zero] at put
  rw [← Option.some.inj put, Output.emitted_putchars]
  rfl

/-- Nothing can be read behind the terminator. -/
theorem printfLoop_behind (left : format.stored.drop position = []) :
    printfLoop format fuel position args = none := by
  have behind : format.at? position = none := by
    rw [CString.at?, ← List.head?_drop, left, List.head?_nil]
  cases fuel with
  | zero => rfl
  | succ fuel =>
      rw [printfLoop, behind]
      rfl

/-- A literal character behind a lone percent sign is taken for a conversion, or
else the percent sign is put out again. -/
theorem emitted_of_pending_literal {ch : BitVec 8} {rest : List (BitVec 8)}
    (left : format.stored.drop position = chr '%' :: ch :: rest) (plain : ch ≠ chr '%')
    (result : printfLoop format fuel position (sampleArgs pieces) = some out) :
    ∃ first later, out.emitted = first :: later ∧ first ≠ ch := by
  cases fuel with
  | zero => cases result
  | succ fuel =>
      rw [printfLoop_sign left, if_neg plain] at result
      split at result
      · rename_i decimal
        rcases Option.bind_eq_some_iff.mp result with ⟨next, taken, continued⟩
        rcases Option.bind_eq_some_iff.mp continued with ⟨later, -, put⟩
        rw [vaInt_sample taken] at put
        refine ⟨_, _, emitted_putInt_zero put, ?_⟩
        rw [decimal]
        decide
      · split at result
        · rename_i string
          rcases Option.bind_eq_some_iff.mp result with ⟨next, taken, continued⟩
          rcases Option.map_eq_some_iff.mp continued with ⟨later, -, put⟩
          rw [vaStr_sample taken] at put
          refine ⟨chr 'x', later.emitted, ?_, ?_⟩
          · rw [← put, Output.emitted_putchars]
            rfl
          · rw [string]
            decide
        · rw [putNext_eq _ left] at result
          rcases emitted_of_map result with ⟨later, -, emitted⟩
          exact ⟨_, _, emitted, Ne.symm plain⟩

/-- A percent sign behind a lone one is put out together with it as one. -/
theorem emitted_of_pending_percent {rest : List (BitVec 8)}
    (left : format.stored.drop position = chr '%' :: chr '%' :: rest)
    (result : printfLoop format fuel position args = some out) :
    ∃ fewer later, printfLoop format fewer (position + 2) args = some later ∧
      out.emitted = chr '%' :: later.emitted := by
  cases fuel with
  | zero => cases result
  | succ fuel =>
      rw [printfLoop_percent left] at result
      rcases emitted_of_map result with ⟨later, continued, emitted⟩
      exact ⟨fuel, later, continued, emitted⟩

/-- When the first of two percent signs has been put out already, the second one
is taken together with what follows it. -/
theorem emitted_ne_of_pending
    (left : format.stored.drop position = chr '%' :: (pieces.flatMap FormatPiece.text ++ [0]))
    (result : printfLoop format fuel position (sampleArgs pieces) = some out) :
    out.emitted ≠ sampleText pieces := by
  induction pieces generalizing position fuel out with
  | nil =>
      rcases @emitted_of_pending_literal format fuel position [] out 0 [] left (by decide) result with
        ⟨first, later, emitted, -⟩
      rw [emitted]
      exact List.cons_ne_nil _ _
  | cons piece rest inductionHypothesis =>
      intro same
      cases piece with
      | literal ch nonzero plain =>
          rcases emitted_of_pending_literal left plain result with ⟨first, later, emitted, differs⟩
          rw [emitted] at same
          exact differs (List.cons.inj same).1
      | percent =>
          rcases emitted_of_pending_percent left result with ⟨fuel, later, continued, emitted⟩
          rw [emitted] at same
          exact inductionHypothesis (CString.drop_succ_of_drop (CString.drop_succ_of_drop left))
            continued (List.cons.inj same).2
      | decimal | string =>
          rcases emitted_of_pending_percent left result with ⟨fuel, later, _, emitted⟩
          rw [emitted] at same
          exact absurd (List.cons.inj same).1 (by decide)

/-- The output behind a conversion is right for the sample only if it is a literal
character. -/
theorem followed_of_putNext
    (left : format.stored.drop position = pieces.flatMap FormatPiece.text ++ [0])
    (result : putNext format (printfLoop format fuel) position (sampleArgs pieces) = some out)
    (same : out.emitted = sampleText pieces) :
    pieces.head?.map FormatPiece.isLiteral = some true ∧
      printfLoop format (fuel + 1) position (sampleArgs pieces) = some out := by
  cases pieces with
  | nil =>
      rw [putNext_eq _ left, printfLoop_behind (CString.drop_succ_of_drop left)] at result
      cases result
  | cons piece rest =>
      cases piece with
      | literal ch nonzero plain => exact ⟨rfl, (putNext_literal left nonzero plain).symm.trans result⟩
      | percent =>
          rw [putNext_eq _ left] at result
          rcases emitted_of_map result with ⟨later, continued, emitted⟩
          rw [emitted] at same
          exact absurd (List.cons.inj same).2
            (emitted_ne_of_pending (CString.drop_succ_of_drop left) continued)
      | decimal | string =>
          rw [putNext_eq _ left] at result
          rcases emitted_of_map result with ⟨later, -, emitted⟩
          rw [emitted] at same
          exact absurd (List.cons.inj same).1 (by decide)

/-- A format whose sample is put out right has a literal character behind every
conversion. -/
theorem followed_of_printfLoop
    (left : format.stored.drop position = pieces.flatMap FormatPiece.text ++ [0])
    (result : printfLoop format fuel position (sampleArgs pieces) = some out)
    (same : out.emitted = sampleText pieces) : Followed pieces := by
  induction pieces generalizing position fuel out with
  | nil => trivial
  | cons piece rest inductionHypothesis =>
      cases fuel with
      | zero => cases result
      | succ fuel =>
          rw [List.flatMap_cons, List.append_assoc] at left
          cases piece with
          | literal ch nonzero plain =>
              rw [printfLoop_literal left nonzero plain] at result
              rcases emitted_of_map result with ⟨later, continued, emitted⟩
              rw [emitted] at same
              exact ⟨Bool.noConfusion, inductionHypothesis (CString.drop_succ_of_drop left) continued
                (List.cons.inj same).2⟩
          | percent =>
              rw [printfLoop_percent left] at result
              rcases emitted_of_map result with ⟨later, continued, emitted⟩
              rw [emitted] at same
              exact ⟨Bool.noConfusion, inductionHypothesis (CString.drop_succ_of_drop
                (CString.drop_succ_of_drop left)) continued (List.cons.inj same).2⟩
          | decimal =>
              have moved := CString.drop_succ_of_drop (CString.drop_succ_of_drop left)
              rw [printfLoop_decimal left] at result
              rcases Option.bind_eq_some_iff.mp result with ⟨next, taken, result⟩
              cases taken
              rcases Option.bind_eq_some_iff.mp result with ⟨later, continued, put⟩
              rw [emitted_putInt_zero put] at same
              rcases followed_of_putNext moved continued (List.cons.inj same).2 with ⟨literal, again⟩
              exact ⟨fun _ => literal, inductionHypothesis moved again (List.cons.inj same).2⟩
          | string =>
              have moved := CString.drop_succ_of_drop (CString.drop_succ_of_drop left)
              rw [printfLoop_string left] at result
              rcases Option.map_eq_some_iff.mp result with ⟨later, continued, rfl⟩
              rw [Output.emitted_putchars] at same
              rcases followed_of_putNext moved continued (List.cons.inj same).2 with ⟨literal, again⟩
              exact ⟨fun _ => literal, inductionHypothesis moved again (List.cons.inj same).2⟩

end Sample

/-- The formats for which `printf` does what it should are those in which every
conversion for an argument is followed by a literal character. -/
theorem printf_expands_iff (pieces : List FormatPiece) : Expands pieces ↔ Followed pieces := by
  have left : (formatOf pieces).stored.drop 0 = pieces.flatMap FormatPiece.text ++ [0] := rfl
  constructor
  · intro expands
    exact followed_of_printfLoop left (expands _ _ (expand_sample pieces)) rfl
  · intro followed args text expanded
    exact printfLoop_expand followed left expanded (Nat.lt_add_right 1 (Nat.lt_succ_of_le (length_le_text pieces)))

/-- Of two adjacent conversions the second one is put out as it stands. -/
theorem printf_adjacent :
    ¬ Expands [.decimal, .decimal, .literal (chr '!') (by decide) (by decide)] := by
  intro expands
  have wrong := expands [.int 1, .int 2] (textOf "12!") (by decide)
  exact absurd wrong (by decide)

end Userspace

end WeakOS
