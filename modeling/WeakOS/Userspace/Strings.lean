import Mathlib
import WeakOS.X86.Strings

namespace WeakOS

open X86

namespace Userspace

/-!
# String functions of the user's library

A text lies at an address when its characters do, one behind the other, and a
zero after them.  The functions walk over their arguments; the pointer that
`strcpy` returns is the one it has walked with.
-/

/-- The characters of a text, and the terminator behind them. -/
def StringAt (mem : Mem) : (s : BitVec 32) → (text : List (BitVec 8)) → Prop
  | s, [] => mem s = 0
  | s, ch :: rest => mem s = ch ∧ ch ≠ 0 ∧ StringAt mem (s + 1) rest

/-! ## The functions -/

section Functions

variable (mem : Mem)

/-- The loop of `strlen`, with the addresses that it reads. -/
def strlenLoop : (fuel : Nat) → (s len : BitVec 32) → Option (BitVec 32 × List (BitVec 32))
  | 0, _, _ => none
  | fuel + 1, s, len =>
      if mem s ≠ 0 then
        (strlenLoop fuel (s + 1) (len + 1)).map fun result => (result.1, s :: result.2)
      else some (len, [s])

def strlen (fuel : Nat) (s : BitVec 32) : Option (BitVec 32) :=
  (strlenLoop mem fuel s 0).map Prod.fst

/-- `strcmp`; the characters are compared as signed numbers. -/
def strcmp : (fuel : Nat) → (lhs rhs : BitVec 32) → Option Int
  | 0, _, _ => none
  | fuel + 1, lhs, rhs =>
      if mem lhs ≠ 0 then
        if mem rhs = 0 then some 1
        else if (mem lhs).slt (mem rhs) then some (-1)
        else if (mem rhs).slt (mem lhs) then some 1
        else strcmp fuel (lhs + 1) (rhs + 1)
      else some (if mem rhs ≠ 0 then -1 else 0)

end Functions

/-- `strcpy`, with the pointer that it returns. -/
def strcpy : (fuel : Nat) → (dest src : BitVec 32) → Mem → Option (BitVec 32 × Mem)
  | 0, _, _, _ => none
  | fuel + 1, dest, src, mem =>
      if mem src ≠ 0 then strcpy fuel (dest + 1) (src + 1) (Function.update mem dest (mem src))
      else some (dest, Function.update mem dest 0)

/-! ## Texts in memory -/

section Texts

variable {mem : Mem} {s : BitVec 32} {text other : List (BitVec 8)}

theorem succ_add_ofNat (k : Nat) : s + 1 + BitVec.ofNat 32 k = s + BitVec.ofNat 32 (k + 1) := by
  rw [Nat.add_comm, BitVec.ofNat_add, add_assoc]
  rfl

theorem StringAt.stops (string : StringAt mem s []) : ¬ mem s ≠ 0 := not_not.mpr string

theorem StringAt.goes {ch : BitVec 8} (string : StringAt mem s (ch :: text)) : mem s ≠ 0 :=
  string.1.trans_ne string.2.1

theorem stringAt_iff : StringAt mem s text ↔
    0 ∉ text ∧ ∀ i ≤ text.length, mem (s + BitVec.ofNat 32 i) = text.getD i 0 := by
  induction text generalizing s with
  | nil =>
      simp only [StringAt, List.not_mem_nil, not_false_eq_true, true_and, List.length_nil, Nat.le_zero,
        forall_eq, BitVec.add_zero]
      rfl
  | cons ch rest inductionHypothesis =>
      rw [StringAt, inductionHypothesis, List.mem_cons, not_or]
      simp only [succ_add_ofNat]
      constructor
      · rintro ⟨first, nonzero, others, bytes⟩
        refine ⟨⟨Ne.symm nonzero, others⟩, fun i inside => ?_⟩
        cases i with
        | zero => exact (congrArg mem (BitVec.add_zero s)).trans first
        | succ i => exact bytes i (Nat.le_of_succ_le_succ inside)
      · rintro ⟨⟨nonzero, others⟩, bytes⟩
        refine ⟨?_, Ne.symm nonzero, others, fun i inside => bytes (i + 1) (Nat.succ_le_succ inside)⟩
        have first := bytes 0 (Nat.zero_le _)
        rwa [BitVec.add_zero] at first

theorem StringAt.byte (string : StringAt mem s text) {i : Nat} (inside : i ≤ text.length) :
    mem (s + BitVec.ofNat 32 i) = text.getD i 0 :=
  (stringAt_iff.mp string).2 i inside

theorem StringAt.congr {mem' : Mem} (string : StringAt mem s text)
    (same : ∀ i ≤ text.length, mem' (s + BitVec.ofNat 32 i) = mem (s + BitVec.ofNat 32 i)) :
    StringAt mem' s text :=
  stringAt_iff.mpr ⟨(stringAt_iff.mp string).1,
    fun i inside => (same i inside).trans (string.byte inside)⟩

/-- A text does not go around the memory: its terminator would be a character. -/
theorem StringAt.short (string : StringAt mem s text) : text.length < 2 ^ 32 := by
  by_contra long
  have inside : text.length - 2 ^ 32 < text.length := by omega
  have around : BitVec.ofNat 32 (text.length - 2 ^ 32) = BitVec.ofNat 32 text.length := by
    apply BitVec.eq_of_toNat_eq
    rw [BitVec.toNat_ofNat, BitVec.toNat_ofNat]
    omega
  have again := string.byte (Nat.le_of_lt inside)
  rw [around, string.byte (Nat.le_refl _), List.getD_eq_default _ _ (Nat.le_refl _),
    List.getD_eq_getElem _ _ inside] at again
  exact (stringAt_iff.mp string).1 (again ▸ List.getElem_mem inside)

/-- The rest of a text is a text. -/
theorem StringAt.drop (string : StringAt mem s (text ++ other)) :
    StringAt mem (s + BitVec.ofNat 32 text.length) other := by
  induction text generalizing s with
  | nil => rwa [List.length_nil, BitVec.add_zero]
  | cons ch rest inductionHypothesis =>
      rw [List.length_cons, ← succ_add_ofNat]
      exact inductionHypothesis string.2.2

/-- A text is cut in two by a zero. -/
theorem StringAt.cut {ch : BitVec 8} (string : StringAt mem s (text ++ ch :: other)) :
    StringAt (Function.update mem (s + BitVec.ofNat 32 text.length) 0) s text ∧
      StringAt (Function.update mem (s + BitVec.ofNat 32 text.length) 0)
        (s + BitVec.ofNat 32 (text.length + 1)) other := by
  have short := string.short
  have total : (text ++ ch :: other).length = text.length + (other.length + 1) := List.length_append
  have kept : ∀ i ≤ text.length + (other.length + 1), i ≠ text.length →
      Function.update mem (s + BitVec.ofNat 32 text.length) 0 (s + BitVec.ofNat 32 i) =
        mem (s + BitVec.ofNat 32 i) := by
    intro i inside different
    refine Function.update_of_ne (fun same => different ?_) _ _
    have offsets := congrArg BitVec.toNat (add_left_cancel same)
    rw [BitVec.toNat_ofNat, BitVec.toNat_ofNat] at offsets
    omega
  constructor
  · refine stringAt_iff.mpr ⟨?_, fun i inside => ?_⟩
    · exact fun zero => (stringAt_iff.mp string).1 (List.mem_append_left _ zero)
    · rcases Nat.lt_or_eq_of_le inside with before | rfl
      · rw [kept i (by omega) (by omega), string.byte (by omega), List.getD_append _ _ _ _ before]
      · rw [Function.update_self, List.getD_eq_default _ _ (Nat.le_refl _)]
  · have later : StringAt mem (s + BitVec.ofNat 32 (text.length + 1)) other := by
      have step := string.drop.2.2
      rwa [show (1 : BitVec 32) = BitVec.ofNat 32 1 from rfl, add_assoc, ← BitVec.ofNat_add] at step
    refine later.congr fun i inside => ?_
    rw [add_assoc, ← BitVec.ofNat_add]
    exact kept _ (by omega) (by omega)

/-- There is one text at an address. -/
theorem StringAt.unique (string : StringAt mem s text) (again : StringAt mem s other) : text = other := by
  induction text generalizing s other with
  | nil =>
      cases other with
      | nil => rfl
      | cons ch rest => exact absurd (again.1.symm.trans string) again.2.1
  | cons ch rest inductionHypothesis =>
      cases other with
      | nil => exact absurd (string.1.symm.trans again) string.2.1
      | cons ch' rest' =>
          rw [inductionHypothesis string.2.2 again.2.2, ← string.1, again.1]

end Texts

/-! ## `strlen` and `strcmp` -/

section Read

variable {mem : Mem} {fuel : Nat}

/-- The addresses of a range, in order. -/
def span (s : BitVec 32) (count : Nat) : List (BitVec 32) :=
  (List.range count).map fun i => s + BitVec.ofNat 32 i

theorem span_succ (s : BitVec 32) (count : Nat) : span s (count + 1) = s :: span (s + 1) count := by
  rw [span, List.range_succ_eq_map, List.map_cons, List.map_map, BitVec.add_zero]
  simp only [span, succ_add_ofNat, Function.comp_def]

/-- The length is counted, and the text with its terminator is read. -/
theorem strlenLoop_eq {s len : BitVec 32} {text : List (BitVec 8)} (string : StringAt mem s text)
    (enough : text.length < fuel) :
    strlenLoop mem fuel s len =
      some (len + BitVec.ofNat 32 text.length, span s (text.length + 1)) := by
  induction text generalizing fuel s len with
  | nil =>
      cases fuel with
      | zero => exact absurd enough (Nat.not_lt_zero _)
      | succ fuel =>
          rw [strlenLoop, if_neg string.stops, span_succ, List.length_nil, BitVec.add_zero]
          rfl
  | cons ch rest inductionHypothesis =>
      cases fuel with
      | zero => exact absurd enough (Nat.not_lt_zero _)
      | succ fuel =>
          rw [strlenLoop, if_pos string.goes,
            inductionHypothesis string.2.2 (Nat.lt_of_succ_lt_succ enough), Option.map_some,
            List.length_cons, ← span_succ, succ_add_ofNat]

/-- The loop ends at a terminator only. -/
theorem strlenLoop_text {s len last : BitVec 32} {reads : List (BitVec 32)}
    (ended : strlenLoop mem fuel s len = some (last, reads)) :
    ∃ text, StringAt mem s text ∧ last = len + BitVec.ofNat 32 text.length := by
  induction fuel generalizing s len reads with
  | zero => exact absurd ended nofun
  | succ fuel inductionHypothesis =>
      rw [strlenLoop] at ended
      by_cases goes : mem s ≠ 0
      · rw [if_pos goes, Option.map_eq_some_iff] at ended
        rcases ended with ⟨⟨last', reads'⟩, later, result⟩
        have same : last' = last := (Prod.mk.inj result).1
        rw [same] at later
        rcases inductionHypothesis later with ⟨text, string, counted⟩
        refine ⟨mem s :: text, ⟨rfl, goes, string⟩, ?_⟩
        rw [counted, List.length_cons, succ_add_ofNat]
      · rw [if_neg goes, Option.some.injEq, Prod.mk.injEq] at ended
        refine ⟨[], not_not.mp goes, ?_⟩
        rw [← ended.1, List.length_nil, BitVec.add_zero]

theorem strlen_eq {s : BitVec 32} {text : List (BitVec 8)} (string : StringAt mem s text)
    (enough : text.length < fuel) : strlen mem fuel s = some (BitVec.ofNat 32 text.length) := by
  rw [strlen, strlenLoop_eq string enough, Option.map_some, zero_add]

/-- The order of texts, character by character.  A text comes before its continuations. -/
def order : List (BitVec 8) → List (BitVec 8) → Int
  | [], [] => 0
  | [], _ :: _ => -1
  | _ :: _, [] => 1
  | ch :: rest, ch' :: rest' =>
      if ch.slt ch' then -1 else if ch'.slt ch then 1 else order rest rest'

theorem order_swap (a b : List (BitVec 8)) : order b a = -order a b := by
  induction a generalizing b with
  | nil => cases b <;> rfl
  | cons ch rest inductionHypothesis =>
      cases b with
      | nil => rfl
      | cons ch' rest' =>
          simp only [order, BitVec.slt_iff_toInt_lt]
          split_ifs with less greater
          · omega
          · rfl
          · rfl
          · exact inductionHypothesis rest'

theorem order_eq_zero_iff (a b : List (BitVec 8)) : order a b = 0 ↔ a = b := by
  induction a generalizing b with
  | nil => cases b <;> simp [order]
  | cons ch rest inductionHypothesis =>
      cases b with
      | nil => simp [order]
      | cons ch' rest' =>
          simp only [order, BitVec.slt_iff_toInt_lt, List.cons.injEq]
          split_ifs with less greater
          · refine iff_of_false (by decide) ?_
            rintro ⟨rfl, -⟩
            exact absurd less (Int.lt_irrefl _)
          · refine iff_of_false (by decide) ?_
            rintro ⟨rfl, -⟩
            exact absurd greater (Int.lt_irrefl _)
          · have same : ch = ch' := BitVec.eq_of_toInt_eq (by omega)
            rw [inductionHypothesis, and_iff_right same]

/-- `strcmp` computes the order. -/
theorem strcmp_eq {lhs rhs : BitVec 32} {a b : List (BitVec 8)} (left : StringAt mem lhs a)
    (right : StringAt mem rhs b) (enough : min a.length b.length < fuel) :
    strcmp mem fuel lhs rhs = some (order a b) := by
  induction a generalizing fuel lhs rhs b with
  | nil =>
      cases fuel with
      | zero => exact absurd enough (Nat.not_lt_zero _)
      | succ fuel =>
          rw [strcmp, if_neg left.stops]
          cases b with
          | nil =>
              rw [if_neg right.stops]
              rfl
          | cons ch' rest' =>
              rw [if_pos right.goes]
              rfl
  | cons ch rest inductionHypothesis =>
      cases fuel with
      | zero => exact absurd enough (Nat.not_lt_zero _)
      | succ fuel =>
          rw [strcmp, if_pos left.goes]
          cases b with
          | nil =>
              rw [if_pos (not_not.mp right.stops)]
              rfl
          | cons ch' rest' =>
              rw [if_neg right.goes, left.1, right.1, order]
              simp only [List.length_cons] at enough
              rw [inductionHypothesis left.2.2 right.2.2 (by omega)]
              split_ifs <;> rfl

end Read

/-! ## `strcpy` -/

section Copy

variable {mem : Mem} {fuel : Nat} {dest src : BitVec 32} {text : List (BitVec 8)}

/-- The text and its terminator are copied, and the pointer to the terminator is returned. -/
theorem strcpy_eq (source : StringAt mem src text)
    (apart : NoOverlap dest (text.length + 1) src (text.length + 1)) (enough : text.length < fuel) :
    strcpy fuel dest src mem = some (dest + BitVec.ofNat 32 text.length,
      overwrite dest (text.length + 1) (fun i => text.getD i 0) mem) := by
  induction text generalizing fuel dest src mem with
  | nil =>
      cases fuel with
      | zero => exact absurd enough (Nat.not_lt_zero _)
      | succ fuel =>
          rw [strcpy, if_neg source.stops, List.length_nil, overwrite_succ (by decide), overwrite_zero,
            BitVec.add_zero]
          rfl
  | cons ch rest inductionHypothesis =>
      cases fuel with
      | zero => exact absurd enough (Nat.not_lt_zero _)
      | succ fuel =>
          have short := source.short
          rw [List.length_cons] at short apart enough ⊢
          have later : StringAt (Function.update mem dest ch) (src + 1) rest := by
            refine source.2.2.congr fun i inside => ?_
            -- the character is not written to the part that is still to be read
            have beyond := apart dest (by rw [sub_self]; exact Nat.succ_pos _)
            refine Function.update_of_ne (fun same => ?_) _ _
            bv_omega
          rw [strcpy, if_pos source.goes, source.1,
            inductionHypothesis later apart.tail (Nat.lt_of_succ_lt_succ enough), succ_add_ofNat,
            overwrite_succ short]
          rfl

/-- The text and its terminator lie in a range, and nothing else has changed. -/
structure Copied (before after : Mem) (dest : BitVec 32) (text : List (BitVec 8)) : Prop where
  bytes : ∀ i ≤ text.length, after (dest + BitVec.ofNat 32 i) = text.getD i 0
  others : ∀ addr, (∀ i ≤ text.length, addr ≠ dest + BitVec.ofNat 32 i) → after addr = before addr

theorem copied_overwrite (short : text.length < 2 ^ 32) :
    Copied mem (overwrite dest (text.length + 1) (fun i => text.getD i 0) mem) dest text := by
  constructor
  · intro i inside
    have offset : (dest + BitVec.ofNat 32 i - dest).toNat = i := by
      rw [add_sub_cancel_left, BitVec.toNat_ofNat, Nat.mod_eq_of_lt (by omega)]
    rw [overwrite_inside (by omega), offset]
  · intro addr outside
    apply overwrite_outside
    by_contra inside
    apply outside (addr - dest).toNat (by omega)
    rw [BitVec.ofNat_toNat, BitVec.setWidth_eq, add_sub_cancel]

/-- What a program expects of the pointer that `strcpy` returns. -/
def Composes (fuel : Nat) (mem : Mem) (dest src : BitVec 32) (text : List (BitVec 8)) : Prop :=
  ∃ r after, strcpy fuel dest src mem = some (r, after) ∧ Copied mem after dest text ∧
    strlen after fuel r = strlen after fuel src ∧ strcmp after fuel r src = some 0

/-- The pointer leads to a copy of the empty text only. -/
theorem composes_iff (source : StringAt mem src text)
    (apart : NoOverlap dest (text.length + 1) src (text.length + 1)) (enough : text.length < fuel) :
    Composes fuel mem dest src text ↔ text = [] := by
  have short := source.short
  have copy := strcpy_eq source apart enough
  have copied := @copied_overwrite mem dest text short
  have kept : StringAt (overwrite dest (text.length + 1) (fun i => text.getD i 0) mem) src text := by
    refine source.congr fun i inside => overwrite_noOverlap apart ?_
    rw [add_sub_cancel_left, BitVec.toNat_ofNat]
    omega
  have returned : StringAt (overwrite dest (text.length + 1) (fun i => text.getD i 0) mem)
      (dest + BitVec.ofNat 32 text.length) [] := by
    have last := copied.bytes text.length (Nat.le_refl _)
    rwa [List.getD_eq_default _ _ (Nat.le_refl _)] at last
  have length := strlen_eq returned (Nat.zero_lt_of_lt enough)
  constructor
  · rintro ⟨r, after, result, -, same, -⟩
    rw [copy, Option.some.injEq, Prod.mk.injEq] at result
    rw [← result.1, ← result.2, length, strlen_eq kept enough, Option.some.injEq] at same
    have none := congrArg BitVec.toNat same
    rw [BitVec.toNat_ofNat, BitVec.toNat_ofNat, Nat.mod_eq_of_lt short] at none
    exact List.length_eq_zero_iff.mp none.symm
  · rintro rfl
    refine ⟨_, _, copy, copied, ?_, ?_⟩
    · rw [length, strlen_eq kept enough]
    · rw [strcmp_eq returned kept (by simpa using enough)]
      rfl

/-- `strcpy` makes the copy, but the pointer that it returns leads to a copy only
when the text is empty.  The order that `strcmp` computes is an order of texts. -/
theorem strcpy_strcmp_iff (source : StringAt mem src text)
    (apart : NoOverlap dest (text.length + 1) src (text.length + 1)) (enough : text.length < fuel) :
    (Composes fuel mem dest src text ↔ text = []) ∧
      (∃ r after, strcpy fuel dest src mem = some (r, after) ∧ Copied mem after dest text) ∧
      ∀ lhs rhs a b, StringAt mem lhs a → StringAt mem rhs b → a.length < fuel →
        ∃ forth back, strcmp mem fuel lhs rhs = some forth ∧ strcmp mem fuel rhs lhs = some back ∧
          (forth = 0 ↔ a = b) ∧ back.sign = -forth.sign := by
  refine ⟨composes_iff source apart enough, ?_, ?_⟩
  · exact ⟨_, _, strcpy_eq source apart enough, copied_overwrite source.short⟩
  · intro lhs rhs a b left right most
    refine ⟨order a b, order b a, ?_, ?_, order_eq_zero_iff a b, ?_⟩
    · exact strcmp_eq left right (by omega)
    · exact strcmp_eq right left (by omega)
    · rw [order_swap, Int.sign_neg]

theorem strcpy_strcmp_iff_empty : Composes 1 (fun _ => 0) 0x200 0x100 [] := by
  have source : StringAt (fun _ => 0) 0x100 [] := rfl
  have apart : NoOverlap 0x200 1 0x100 1 := by
    intro addr inside
    bv_omega
  exact (strcpy_strcmp_iff source apart Nat.one_pos).1.mpr rfl

/-- The pointer returned for a text of one character leads to the empty text. -/
theorem strcpy_returns_end :
    StringAt (Function.update (fun _ => 0) 0x100 0x61) 0x100 [0x61] ∧ NoOverlap 0x200 2 0x100 2 ∧
      ∃ after, strcpy 2 0x200 0x100 (Function.update (fun _ => 0) 0x100 0x61) = some (0x201, after) ∧
        strlen after 2 0x201 = some 0 ∧ strlen after 2 0x100 = some 1 ∧
        strcmp after 2 0x201 0x100 = some (-1) ∧
      ¬ Composes 2 (Function.update (fun _ => 0) 0x100 0x61) 0x200 0x100 [0x61] := by
  have source : StringAt (Function.update (fun _ => 0) 0x100 0x61) 0x100 [0x61] := ⟨rfl, by decide, rfl⟩
  have apart : NoOverlap 0x200 2 0x100 2 := by
    intro addr inside
    bv_omega
  refine ⟨source, apart, _, rfl, rfl, rfl, rfl, fun composes => ?_⟩
  exact absurd ((composes_iff source apart (by decide)).mp composes) (by decide)

end Copy

end Userspace

end WeakOS
