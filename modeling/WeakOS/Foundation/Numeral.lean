import Mathlib

namespace Foundation

/-!
# Positional numerals

The canonical numeral of a number in a base, and the loop by which programs
produce it: the digits are pushed onto a buffer, the least significant one
first, until nothing is left of the number.  The buffer has room for a given
number of digits, and the loop has no result when it needs more.

A numeral is read back digit by digit.  The canonical one reads back as its
number and has no leading zero.
-/

namespace Numeral

variable {Symbol Number : Type*}

/-- The numeral of a number, the most significant digit first.  Zero has one
digit. -/
def numeral (digit : Nat → Symbol) (base n : Nat) : List Symbol :=
  if n = 0 then [digit 0] else ((Nat.digits base n).map digit).reverse

/-- Push the digits of a number that is held in a machine register.  The loop
goes on while `more` says so, pushes `symbol` and continues with `next`. -/
def push (more : Number → Bool) (symbol : Number → Symbol) (next : Number → Number) :
    (room : Nat) → Number → List Symbol → Option (List Symbol)
  | 0, number, written => if more number then none else some written
  | room + 1, number, written =>
      if more number then push more symbol next room (next number) (symbol number :: written)
      else some written

/-- The operations of the loop compute with a number in a base. -/
structure Divides (value : Number → Nat) (digit : Nat → Symbol) (base : Nat)
    (more : Number → Bool) (symbol : Number → Symbol) (next : Number → Number) : Prop where
  more_iff : ∀ number, more number = true ↔ value number ≠ 0
  symbol_eq : ∀ number, more number = true → symbol number = digit (value number % base)
  next_eq : ∀ number, more number = true → value (next number) = value number / base

section Push

variable {value : Number → Nat} {digit : Nat → Symbol} {base : Nat} {more : Number → Bool}
  {symbol : Number → Symbol} {next : Number → Number}

/-- With enough room the loop pushes exactly the digits. -/
theorem Divides.push_eq (divides : Divides value digit base more symbol next) (many : 1 < base)
    (room : Nat) (number : Number) (written : List Symbol) (fits : value number < base ^ room) :
    push more symbol next room number written =
      some (((Nat.digits base (value number)).map digit).reverse ++ written) := by
  induction room generalizing number written with
  | zero =>
      have zero : value number = 0 := Nat.lt_one_iff.mp fits
      have stops : ¬ more number = true := fun goes => (divides.more_iff number).mp goes zero
      rw [push, if_neg stops, zero, Nat.digits_zero]
      rfl
  | succ room inductionHypothesis =>
      rw [push]
      by_cases goes : more number = true
      · have nonzero := (divides.more_iff number).mp goes
        have smaller : value (next number) < base ^ room := by
          rw [divides.next_eq number goes]
          exact Nat.div_lt_of_lt_mul (by rwa [← Nat.pow_succ'])
        rw [if_pos goes, inductionHypothesis _ _ smaller, divides.symbol_eq number goes,
          divides.next_eq number goes, Nat.digits_def' many (Nat.pos_of_ne_zero nonzero),
          List.map_cons, List.reverse_cons, List.append_assoc, List.singleton_append]
      · have zero : value number = 0 := not_not.mp (fun nonzero =>
          goes ((divides.more_iff number).mpr nonzero))
        rw [if_neg goes, zero, Nat.digits_zero]
        rfl

end Push

/-- Print the pushed digits; when there are none, print a zero. -/
def print (zero : Symbol) (written : List Symbol) : List Symbol :=
  if written.isEmpty then [zero] else written

/-- The digits of a number print as its numeral. -/
theorem print_digits (digit : Nat → Symbol) {base : Nat} (n : Nat) :
    print (digit 0) (((Nat.digits base n).map digit).reverse ++ []) = numeral digit base n := by
  rw [List.append_nil]
  unfold print numeral
  by_cases zero : n = 0
  · rw [if_pos zero, zero, Nat.digits_zero]
    rfl
  · have nonempty : ((Nat.digits base n).map digit).reverse.isEmpty = false := by
      rw [List.isEmpty_eq_false_iff]
      intro empty
      exact zero (Nat.digits_eq_nil_iff_eq_zero.mp (List.map_eq_nil_iff.mp
        (List.reverse_eq_nil_iff.mp empty)))
    rw [if_neg zero, nonempty, if_neg Bool.false_ne_true]

/-! ## Reading a numeral -/

/-- Read digits, the most significant one first; there is no result when a
symbol is not a digit. -/
def read (valueOf : Symbol → Option Nat) (base : Nat) (text : List Symbol) : Option Nat :=
  text.foldlM (fun n symbol => (valueOf symbol).map (fun value => n * base + value)) 0

section Read

variable {digit : Nat → Symbol} {valueOf : Symbol → Option Nat} {base : Nat}

theorem read_digits (back : ∀ value < base, valueOf (digit value) = some value) {digits : List Nat}
    (small : ∀ value ∈ digits, value < base) :
    read valueOf base (digits.map digit).reverse = some (Nat.ofDigits base digits) := by
  induction digits with
  | nil => rfl
  | cons value rest inductionHypothesis =>
      have later := inductionHypothesis (fun other member => small other (List.mem_cons_of_mem _ member))
      unfold read at later ⊢
      rw [List.map_cons, List.reverse_cons, List.foldlM_append, later]
      have here := back value (small value List.mem_cons_self)
      simp only [Option.bind_eq_bind, Option.bind_some, List.foldlM_cons, List.foldlM_nil, here,
          Option.map_some, Option.pure_def, Nat.ofDigits_cons, Option.some.injEq]
      rw [Nat.mul_comm, Nat.add_comm]

theorem read_numeral (back : ∀ value < base, valueOf (digit value) = some value) (many : 1 < base)
    (n : Nat) : read valueOf base (numeral digit base n) = some n := by
  unfold numeral
  split
  · rename_i zero
    have here := back 0 (Nat.lt_trans Nat.zero_lt_one many)
    simp only [read, List.foldlM_cons, List.foldlM_nil, here, zero, Option.map_some,
      Option.bind_eq_bind, Option.bind_some, Option.pure_def, Nat.zero_mul]
  · rw [read_digits back (fun _ member => Nat.digits_lt_base many member), Nat.ofDigits_digits]

/-- Every symbol of a numeral is a digit. -/
theorem exists_of_mem_numeral (many : 1 < base) {n : Nat} {symbol : Symbol}
    (member : symbol ∈ numeral digit base n) : ∃ value < base, symbol = digit value := by
  unfold numeral at member
  split at member
  · exact ⟨0, Nat.lt_trans Nat.zero_lt_one many, List.mem_singleton.mp member⟩
  · rcases List.mem_map.mp (List.mem_reverse.mp member) with ⟨value, digit_, rfl⟩
    exact ⟨value, Nat.digits_lt_base many digit_, rfl⟩

theorem numeral_ne_nil (n : Nat) : numeral digit base n ≠ [] := by
  unfold numeral
  split
  · exact List.cons_ne_nil _ _
  · rename_i nonzero
    intro empty
    exact nonzero (Nat.digits_eq_nil_iff_eq_zero.mp
      (List.map_eq_nil_iff.mp (List.reverse_eq_nil_iff.mp empty)))

/-- Only the numeral of zero begins with a zero. -/
theorem eq_zero_of_leading (back : ∀ value < base, valueOf (digit value) = some value)
    (many : 1 < base) {n : Nat} (leading : (numeral digit base n).head? = some (digit 0)) :
    n = 0 := by
  unfold numeral at leading
  split at leading
  · assumption
  · rename_i nonzero
    have nonempty : Nat.digits base n ≠ [] := Nat.digits_ne_nil_iff_ne_zero.mpr nonzero
    rw [List.head?_reverse, List.getLast?_map, List.getLast?_eq_some_getLast nonempty,
      Option.map_some, Option.some.injEq] at leading
    have last := Nat.digits_lt_base many (List.getLast_mem nonempty)
    have read := back _ last
    rw [leading, back 0 (Nat.lt_trans Nat.zero_lt_one many)] at read
    exact absurd (Option.some.inj read).symm (Nat.getLast_digit_ne_zero base nonzero)

end Read

end Numeral

end Foundation
