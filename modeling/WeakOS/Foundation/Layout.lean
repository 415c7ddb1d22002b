import Mathlib

namespace Foundation

/-!
# Cells laid out along a line

A list of nonempty cells, each with a base and a length, is laid out between
two bounds when every cell begins where the previous one ended.  What "where"
means is the parameter `rel`: equality gives a tiling without gaps, `≤` gives
cells in order that may leave gaps.  One set of rules covers both, since
cutting a cell in two only needs the relation to be reflexive.

Cells are names: their bases and lengths are functions, so that the same list
of names can be read before and after an update of the records behind them.
-/

namespace Layout

variable {Cell : Type*}

/-- The cells follow each other from `low` up to `high`. -/
def Chained (rel : Nat → Nat → Prop) (base length : Cell → Nat) : Nat → List Cell → Nat → Prop
  | low, [], high => rel low high
  | low, cell :: rest, high =>
      rel low (base cell) ∧ 1 ≤ length cell ∧
        Chained rel base length (base cell + length cell) rest high

/-- The number of points the cells cover. -/
def span (length : Cell → Nat) (cells : List Cell) : Nat :=
  (cells.map length).sum

/-- The points of one cell. -/
def Covers (base length : Cell → Nat) (cell : Cell) (point : Nat) : Prop :=
  base cell ≤ point ∧ point < base cell + length cell

variable {rel : Nat → Nat → Prop} {base length : Cell → Nat} {low high : Nat} {cells : List Cell}

/-- One cell from `low` to `high`. -/
theorem Chained.single {cell : Cell} {size : Nat} (first : base cell = low)
    (extent : length cell = size) (positive : 1 ≤ size) :
    Chained (· = ·) base length low [cell] (low + size) :=
  ⟨first.symm, extent ▸ positive, by rw [Chained, first, extent]⟩

theorem Chained.mono {weaker : Nat → Nat → Prop}
    (implies : ∀ first second, rel first second → weaker first second)
    (chained : Chained rel base length low cells high) :
    Chained weaker base length low cells high := by
  induction cells generalizing low with
  | nil => exact implies _ _ chained
  | cons cell rest inductionHypothesis =>
      exact ⟨implies _ _ chained.1, chained.2.1, inductionHypothesis chained.2.2⟩

theorem Chained.low_le_high (chained : Chained (· ≤ ·) base length low cells high) : low ≤ high := by
  induction cells generalizing low with
  | nil => exact chained
  | cons cell rest inductionHypothesis =>
      have later := inductionHypothesis chained.2.2
      have first := chained.1
      omega

/-- Every cell is nonempty and lies between the bounds. -/
theorem Chained.bounds (chained : Chained (· ≤ ·) base length low cells high)
    {cell : Cell} (member : cell ∈ cells) :
    low ≤ base cell ∧ 1 ≤ length cell ∧ base cell + length cell ≤ high := by
  induction cells generalizing low with
  | nil => exact absurd member List.not_mem_nil
  | cons head rest inductionHypothesis =>
      rcases chained with ⟨first, positive, later⟩
      rcases List.mem_cons.mp member with rfl | member
      · exact ⟨first, positive, later.low_le_high⟩
      · have inner := inductionHypothesis later member
        omega

/-- Two cells that share a point are the same cell. -/
theorem Chained.eq_of_covers (chained : Chained (· ≤ ·) base length low cells high)
    {first second : Cell} (left : first ∈ cells) (right : second ∈ cells) {point : Nat}
    (inFirst : Covers base length first point) (inSecond : Covers base length second point) :
    first = second := by
  induction cells generalizing low with
  | nil => exact absurd left List.not_mem_nil
  | cons head rest inductionHypothesis =>
      have later := chained.2.2
      unfold Covers at inFirst inSecond inductionHypothesis
      rcases List.mem_cons.mp left with firstHead | firstRest
      · rcases List.mem_cons.mp right with secondHead | secondRest
        · exact firstHead.trans secondHead.symm
        · have behind := later.bounds secondRest
          rw [firstHead] at inFirst
          omega
      · rcases List.mem_cons.mp right with secondHead | secondRest
        · have behind := later.bounds firstRest
          rw [secondHead] at inSecond
          omega
        · exact inductionHypothesis later firstRest secondRest

/-- The cells of an ordered layout before a given one end at or below its base. -/
theorem Chained.before {front back : List Cell} {cell earlier : Cell}
    (chained : Chained (· ≤ ·) base length low (front ++ cell :: back) high)
    (member : earlier ∈ front) : base earlier + length earlier ≤ base cell := by
  induction front generalizing low with
  | nil => exact absurd member List.not_mem_nil
  | cons head rest inductionHypothesis =>
      rcases List.mem_cons.mp member with rfl | member
      · exact (chained.2.2.bounds (List.mem_append_right rest List.mem_cons_self)).1
      · exact inductionHypothesis chained.2.2 member

theorem Chained.span_eq (chained : Chained (· = ·) base length low cells high) :
    low + span length cells = high := by
  induction cells generalizing low with
  | nil => exact chained
  | cons cell rest inductionHypothesis =>
      have later := inductionHypothesis chained.2.2
      have first : low = base cell := chained.1
      simp only [span, List.map_cons, List.sum_cons] at later ⊢
      omega

/-- A tiling leaves no gap. -/
theorem Chained.exists_covers (chained : Chained (· = ·) base length low cells high) {point : Nat}
    (above : low ≤ point) (below : point < high) : ∃ cell ∈ cells, Covers base length cell point := by
  induction cells generalizing low with
  | nil =>
      have ends : low = high := chained
      omega
  | cons cell rest inductionHypothesis =>
      have first : low = base cell := chained.1
      by_cases here : point < base cell + length cell
      · exact ⟨cell, List.mem_cons_self, first ▸ above, here⟩
      · rcases inductionHypothesis chained.2.2 (Nat.not_lt.mp here) with ⟨other, member, covers⟩
        exact ⟨other, List.mem_cons_of_mem _ member, covers⟩

/-- There are no more cells than points, because no cell is empty. -/
theorem Chained.count_le_span (chained : Chained rel base length low cells high) :
    cells.length ≤ span length cells := by
  induction cells generalizing low with
  | nil => exact Nat.zero_le _
  | cons cell rest inductionHypothesis =>
      have later := inductionHypothesis chained.2.2
      have positive := chained.2.1
      simp only [span, List.map_cons, List.sum_cons, List.length_cons] at later ⊢
      omega

theorem span_append (front back : List Cell) :
    span length (front ++ back) = span length front + span length back := by
  simp only [span, List.map_append, List.sum_append]

theorem span_cons (cell : Cell) (rest : List Cell) :
    span length (cell :: rest) = length cell + span length rest := by
  simp only [span, List.map_cons, List.sum_cons]

/-- A cell of two or more points leaves room for one more cell. -/
theorem Chained.count_lt_span (chained : Chained rel base length low cells high)
    {cell : Cell} (member : cell ∈ cells) (long : 2 ≤ length cell) :
    cells.length < span length cells := by
  induction cells generalizing low with
  | nil => exact absurd member List.not_mem_nil
  | cons head rest inductionHypothesis =>
      rcases chained with ⟨_, positive, later⟩
      rw [span_cons, List.length_cons]
      rcases List.mem_cons.mp member with rfl | member
      · have others := later.count_le_span
        omega
      · have others := inductionHypothesis later member
        omega

/-! ## Cells with gaps between them -/

section Gaps

/-- Where the cells end that are laid out from `low` on. -/
def reach (base length : Cell → Nat) : (low : Nat) → List Cell → Nat
  | low, [] => low
  | _, cell :: rest => reach base length (base cell + length cell) rest

/-- Where the cells begin, or the bound behind them. -/
def start (base : Cell → Nat) (cells : List Cell) (high : Nat) : Nat :=
  (cells.head?.map base).getD high

theorem Chained.low_le_start (chained : Chained (· ≤ ·) base length low cells high) :
    low ≤ start base cells high := by
  cases cells with
  | nil => exact chained
  | cons cell rest => exact chained.1

/-- When no gap has room for so many points, the cells leave little over. -/
theorem high_lt_of_crowded {room : Nat}
    (crowded : ∀ front back, cells = front ++ back →
      start base back high < reach base length low front + room) :
    high < low + span length cells + (cells.length + 1) * room := by
  induction cells generalizing low with
  | nil =>
      have only : high < low + room := crowded [] [] rfl
      simpa [span] using only
  | cons cell rest inductionHypothesis =>
      have first : base cell < low + room := crowded [] (cell :: rest) rfl
      have later := @inductionHypothesis (base cell + length cell) fun front back split =>
        crowded (cell :: front) back (congrArg (cell :: ·) split)
      have sum : span length (cell :: rest) = length cell + span length rest := by
        simp only [span, List.map_cons, List.sum_cons]
      rw [sum, List.length_cons, Nat.succ_mul (rest.length + 1)]
      omega

/-- The lower bound may be any point in front of the cells. -/
theorem Chained.from {low' : Nat} (chained : Chained (· ≤ ·) base length low cells high)
    (before : low' ≤ start base cells high) : Chained (· ≤ ·) base length low' cells high := by
  cases cells with
  | nil => exact before
  | cons cell rest => exact ⟨before, chained.2⟩

theorem Chained.append {front back : List Cell} {mid : Nat}
    (left : Chained (· ≤ ·) base length low front mid)
    (right : Chained (· ≤ ·) base length mid back high) :
    Chained (· ≤ ·) base length low (front ++ back) high := by
  induction front generalizing low with
  | nil => exact right.from (Nat.le_trans left right.low_le_start)
  | cons cell rest inductionHypothesis => exact ⟨left.1, left.2.1, inductionHypothesis left.2.2⟩

theorem Chained.parts {front back : List Cell}
    (chained : Chained (· ≤ ·) base length low (front ++ back) high) :
    Chained (· ≤ ·) base length low front (reach base length low front) ∧
      Chained (· ≤ ·) base length (reach base length low front) back high := by
  induction front generalizing low with
  | nil => exact ⟨Nat.le_refl low, chained⟩
  | cons cell rest inductionHypothesis =>
      have later := inductionHypothesis chained.2.2
      exact ⟨⟨chained.1, chained.2.1, later.1⟩, later.2⟩

/-- A cell that fits into a gap is laid out with the others. -/
theorem Chained.insert {front back : List Cell} {cell : Cell}
    (chained : Chained (· ≤ ·) base length low (front ++ back) high)
    (above : reach base length low front ≤ base cell) (positive : 1 ≤ length cell)
    (below : base cell + length cell ≤ start base back high) :
    Chained (· ≤ ·) base length low (front ++ cell :: back) high := by
  have parts := chained.parts
  exact parts.1.append ⟨above, positive, parts.2.from below⟩

theorem Chained.remove {front back : List Cell} {cell : Cell}
    (chained : Chained (· ≤ ·) base length low (front ++ cell :: back) high) :
    Chained (· ≤ ·) base length low (front ++ back) high := by
  have parts := chained.parts
  have later := parts.2.2.2
  refine parts.1.append (later.from (Nat.le_trans ?_ later.low_le_start))
  exact Nat.le_trans parts.2.1 (Nat.le_add_right _ _)

/-- Cells in order begin at different points. -/
theorem Chained.pairwise (chained : Chained (· ≤ ·) base length low cells high) :
    cells.Pairwise fun first second => base first + length first ≤ base second := by
  induction cells generalizing low with
  | nil => exact List.Pairwise.nil
  | cons cell rest inductionHypothesis =>
      refine List.pairwise_cons.mpr ⟨fun other member => ?_, inductionHypothesis chained.2.2⟩
      exact (chained.2.2.bounds member).1

/-- Cells in order do not cover more points than there are between the bounds. -/
theorem Chained.span_le (chained : Chained (· ≤ ·) base length low cells high) :
    low + span length cells ≤ high := by
  induction cells generalizing low with
  | nil =>
      have ends : low ≤ high := chained
      exact ends
  | cons cell rest inductionHypothesis =>
      have later := inductionHypothesis chained.2.2
      have first : low ≤ base cell := chained.1
      simp only [span, List.map_cons, List.sum_cons] at later ⊢
      omega

end Gaps

section Update

variable {base' length' : Cell → Nat}

theorem span_congr (same : ∀ cell ∈ cells, length' cell = length cell) :
    span length' cells = span length cells := by
  unfold span
  rw [List.map_congr_left same]

theorem Chained.congr (chained : Chained rel base length low cells high)
    (same : ∀ cell ∈ cells, base' cell = base cell ∧ length' cell = length cell) :
    Chained rel base' length' low cells high := by
  induction cells generalizing low with
  | nil => exact chained
  | cons cell rest inductionHypothesis =>
      have here := same cell List.mem_cons_self
      refine ⟨?_, ?_, ?_⟩
      · rw [here.1]; exact chained.1
      · rw [here.2]; exact chained.2.1
      · rw [here.1, here.2]
        exact inductionHypothesis chained.2.2
          (fun other member => same other (List.mem_cons_of_mem cell member))

/-- How an update cuts `cell`: it keeps its base, `fresh` is laid directly
behind it, and the two together are as long as `cell` was. -/
structure Cut (base length base' length' : Cell → Nat) (cell fresh : Cell) : Prop where
  base_eq : base' cell = base cell
  positive : 1 ≤ length' cell
  fresh_base : base' fresh = base cell + length' cell
  fresh_positive : 1 ≤ length' fresh
  total : length' cell + length' fresh = length cell
  same : ∀ other, other ≠ cell → other ≠ fresh →
    base' other = base other ∧ length' other = length other

/-- Cutting one cell in two leaves a layout, whatever the relation is. -/
theorem Chained.cut (refl : ∀ point, rel point point) {front back : List Cell} {cell fresh : Cell}
    (chained : Chained rel base length low (front ++ cell :: back) high)
    (distinct : (front ++ cell :: back).Nodup) (unlisted : fresh ∉ front ++ cell :: back)
    (cut : Cut base length base' length' cell fresh) :
    Chained rel base' length' low (front ++ cell :: fresh :: back) high := by
  induction front generalizing low with
  | nil =>
      simp only [List.nil_append, List.nodup_cons] at distinct unlisted chained ⊢
      rcases chained with ⟨first, _, later⟩
      refine ⟨?_, cut.positive, ?_, cut.fresh_positive, ?_⟩
      · rw [cut.base_eq]; exact first
      · rw [cut.base_eq, cut.fresh_base]; exact refl _
      · rw [cut.fresh_base, Nat.add_assoc, cut.total]
        refine later.congr (fun other member => cut.same other ?_ ?_)
        · rintro rfl
          exact distinct.1 member
        · rintro rfl
          exact unlisted (List.mem_cons_of_mem _ member)
  | cons head rest inductionHypothesis =>
      simp only [List.cons_append, List.nodup_cons, List.mem_append, List.mem_cons, not_or]
        at distinct unlisted
      have kept := cut.same head distinct.1.2.1 (Ne.symm unlisted.1)
      refine ⟨?_, ?_, ?_⟩
      · rw [kept.1]; exact chained.1
      · rw [kept.2]; exact chained.2.1
      · rw [kept.1, kept.2]
        exact inductionHypothesis chained.2.2 distinct.2
          (by simpa only [List.mem_append, List.mem_cons, not_or] using unlisted.2)

/-- Cutting a cell does not change the number of points covered. -/
theorem span_cut {front back : List Cell} {cell fresh : Cell}
    (distinct : (front ++ cell :: back).Nodup) (unlisted : fresh ∉ front ++ cell :: back)
    (cut : Cut base length base' length' cell fresh) :
    span length' (front ++ cell :: fresh :: back) = span length (front ++ cell :: back) := by
  have others : ∀ other ∈ front ++ back, length' other = length other := by
    intro other member
    refine (cut.same other ?_ ?_).2
    · rintro rfl
      exact (List.nodup_cons.mp (List.nodup_middle.mp distinct)).1 member
    · rintro rfl
      refine unlisted (List.mem_append.mpr ?_)
      rcases List.mem_append.mp member with before | after
      · exact Or.inl before
      · exact Or.inr (List.mem_cons_of_mem _ after)
  have frontSame : span length' front = span length front :=
    span_congr (fun other member => others other (List.mem_append_left back member))
  have backSame : span length' back = span length back :=
    span_congr (fun other member => others other (List.mem_append_right front member))
  have total := cut.total
  simp only [span_append, span_cons]
  omega

end Update

end Layout

end Foundation
