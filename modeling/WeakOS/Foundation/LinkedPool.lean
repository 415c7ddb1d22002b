import Mathlib

namespace Foundation

/-!
# Singly linked lists threaded through a pool of slots

A pool gives every slot a successor link, and a list is entered at a starting
link.  `Spells` says which slots a traversal visits and that it ends after
them; it is a property of the links alone, so a record that changes other
fields of a slot leaves it untouched.

The traversal loop carries fuel because the links of an arbitrary pool may
form a cycle.  On links that spell a list, fuel for the list's length is
enough, and the loop computes the first accepted member of the list.

A pool may also give every slot a link backward.  `Backed` says that the links
backward undo the links forward along a list.  Inserting a fresh slot keeps
that exactly when it is inserted at the end, unless the slot behind it has its
link backward corrected.
-/

namespace LinkedPool

variable {Slot : Type*}

/-- The traversal from `start` visits exactly `slots`, in order, and ends. -/
def Spells (next : Slot → Option Slot) : Option Slot → List Slot → Prop
  | start, [] => start = none
  | start, slot :: rest => start = some slot ∧ Spells next (next slot) rest

/-- Follow the links to the first accepted slot.  The outer option is `none`
when the fuel runs out, the inner one when the list ends. -/
def walk (next : Slot → Option Slot) (accept : Slot → Bool) :
    Nat → Option Slot → Option (Option Slot)
  | _, none => some none
  | 0, some _ => none
  | fuel + 1, some slot =>
      if accept slot then some (some slot) else walk next accept fuel (next slot)

variable {next : Slot → Option Slot} {accept : Slot → Bool}

theorem walk_eq_find {start : Option Slot} {slots : List Slot} {fuel : Nat}
    (spells : Spells next start slots) (enough : slots.length ≤ fuel) :
    walk next accept fuel start = some (slots.find? accept) := by
  induction slots generalizing start fuel with
  | nil =>
      rw [show start = none from spells]
      cases fuel <;> rfl
  | cons slot rest inductionHypothesis =>
      rcases spells with ⟨rfl, later⟩
      cases fuel with
      | zero => exact absurd enough (Nat.not_succ_le_zero _)
      | succ fuel =>
          cases taken : accept slot with
          | true => simp only [walk, taken, if_true, List.find?_cons]
          | false =>
              simp only [walk, taken, Bool.false_eq_true, if_false, List.find?_cons]
              exact inductionHypothesis later (Nat.le_of_succ_le_succ enough)

/-- Whatever the links are, a traversal only returns an accepted slot. -/
theorem accept_of_walk {start : Option Slot} {slot : Slot} {fuel : Nat}
    (found : walk next accept fuel start = some (some slot)) : accept slot = true := by
  induction fuel generalizing start with
  | zero => cases start <;> simp [walk] at found
  | succ fuel inductionHypothesis =>
      cases start with
      | none => simp [walk] at found
      | some head =>
          cases taken : accept head with
          | true =>
              simp only [walk, taken, if_true, Option.some.injEq] at found
              exact found ▸ taken
          | false =>
              simp only [walk, taken, Bool.false_eq_true, if_false] at found
              exact inductionHypothesis found

/-- The links and the entry determine the list. -/
theorem Spells.unique {start : Option Slot} {first second : List Slot}
    (left : Spells next start first) (right : Spells next start second) : first = second := by
  induction first generalizing start second with
  | nil =>
      cases second with
      | nil => rfl
      | cons slot rest =>
          have ended : start = none := left
          exact absurd (ended.symm.trans right.1) (by simp)
  | cons slot rest inductionHypothesis =>
      rcases left with ⟨rfl, later⟩
      cases second with
      | nil => exact absurd (show some slot = none from right) (by simp)
      | cons other others =>
          have same : slot = other := Option.some.inj right.1
          subst same
          exact congrArg (slot :: ·) (inductionHypothesis later right.2)

theorem Spells.drop {start : Option Slot} {front back : List Slot} {slot : Slot}
    (spells : Spells next start (front ++ slot :: back)) :
    Spells next (some slot) (slot :: back) := by
  induction front generalizing start with
  | nil => exact ⟨rfl, spells.2⟩
  | cons head rest inductionHypothesis => exact inductionHypothesis spells.2

/-- A finite traversal visits no slot twice. -/
theorem Spells.nodup {start : Option Slot} {slots : List Slot}
    (spells : Spells next start slots) : slots.Nodup := by
  induction slots generalizing start with
  | nil => exact List.nodup_nil
  | cons slot rest inductionHypothesis =>
      refine List.nodup_cons.mpr ⟨fun repeated => ?_, inductionHypothesis spells.2⟩
      rcases List.append_of_mem repeated with ⟨front, back, split⟩
      -- Entering at the second visit spells a shorter list from the same slot.
      have short : Spells next (some slot) (slot :: back) := (split ▸ spells.2).drop
      have long : Spells next (some slot) (slot :: rest) := ⟨rfl, spells.2⟩
      have lengths := congrArg List.length (long.unique short)
      simp only [split, List.length_cons, List.length_append] at lengths
      omega

/-- Only the links of the listed slots matter. -/
theorem Spells.congr {next' : Slot → Option Slot} {start : Option Slot} {slots : List Slot}
    (spells : Spells next start slots) (same : ∀ slot ∈ slots, next' slot = next slot) :
    Spells next' start slots := by
  induction slots generalizing start with
  | nil => exact spells
  | cons slot rest inductionHypothesis =>
      refine ⟨spells.1, ?_⟩
      rw [same slot List.mem_cons_self]
      exact inductionHypothesis spells.2
        (fun other member => same other (List.mem_cons_of_mem slot member))

/-- Insert a fresh slot behind a listed one.  The links of every other slot,
and so the list before and behind the insertion, are as they were. -/
theorem Spells.insert {next' : Slot → Option Slot} {start : Option Slot}
    {front back : List Slot} {slot fresh : Slot}
    (spells : Spells next start (front ++ slot :: back))
    (unlisted : fresh ∉ front ++ slot :: back)
    (link : next' slot = some fresh) (follow : next' fresh = next slot)
    (same : ∀ other, other ≠ slot → other ≠ fresh → next' other = next other) :
    Spells next' start (front ++ slot :: fresh :: back) := by
  have distinct := spells.nodup
  induction front generalizing start with
  | nil =>
      simp only [List.nil_append, List.nodup_cons] at distinct unlisted
      refine ⟨spells.1, link, ?_⟩
      rw [follow]
      refine spells.2.congr (fun other member => same other ?_ ?_)
      · rintro rfl
        exact distinct.1 member
      · rintro rfl
        exact unlisted (List.mem_cons_of_mem _ member)
  | cons head rest inductionHypothesis =>
      simp only [List.cons_append, List.nodup_cons, List.mem_append, List.mem_cons, not_or]
        at distinct unlisted
      refine ⟨spells.1, ?_⟩
      rw [same head distinct.1.2.1 (Ne.symm unlisted.1)]
      exact inductionHypothesis spells.2
        (by simpa only [List.mem_append, List.mem_cons, not_or] using unlisted.2) distinct.2

/-- The successor of a listed slot is listed. -/
theorem Spells.next_mem {start : Option Slot} {slots : List Slot}
    (spells : Spells next start slots) {slot later : Slot} (member : slot ∈ slots)
    (leads : next slot = some later) : later ∈ slots := by
  rcases List.append_of_mem member with ⟨front, back, rfl⟩
  have behind : Spells next (next slot) back := spells.drop.2
  cases back with
  | nil =>
      have ended : next slot = none := behind
      rw [ended] at leads
      cases leads
  | cons other rest =>
      have same : other = later := Option.some.inj (behind.1.symm.trans leads)
      rw [← same]
      exact List.mem_append_right front (List.mem_cons_of_mem slot List.mem_cons_self)

/-- A nonempty list is entered at its first slot. -/
theorem Spells.start_mem {start : Option Slot} {slots : List Slot}
    (spells : Spells next start slots) {first : Slot} (enters : start = some first) :
    first ∈ slots := by
  subst enters
  cases slots with
  | nil => cases (spells : some first = none)
  | cons slot rest =>
      rw [Option.some.inj spells.1]
      exact List.mem_cons_self

/-- The links backward of the listed slots undo their links forward, and the
slot at which the list is entered has none. -/
structure Backed (next prev : Slot → Option Slot) (start : Option Slot) (slots : List Slot) :
    Prop where
  back : ∀ slot ∈ slots, ∀ later, next slot = some later → prev later = some slot
  first : ∀ slot, start = some slot → prev slot = none

/-- An insertion that leaves the links backward of the other slots as they
were keeps them right exactly when the slot is inserted at the end. -/
theorem Backed.insert_iff {next' prev prev' : Slot → Option Slot} {start : Option Slot}
    {slots slots' : List Slot} {slot fresh : Slot} (backed : Backed next prev start slots)
    (spells : Spells next start slots) (member : slot ∈ slots) (unlisted : fresh ∉ slots)
    (members : ∀ other, other ∈ slots' ↔ other = fresh ∨ other ∈ slots)
    (link : next' slot = some fresh) (follow : next' fresh = next slot)
    (same : ∀ other, other ≠ slot → other ≠ fresh → next' other = next other)
    (linkBack : prev' fresh = some slot)
    (sameBack : ∀ other ∈ slots, prev' other = prev other) :
    Backed next' prev' start slots' ↔ next slot = none := by
  have different : fresh ≠ slot := by
    rintro rfl
    exact unlisted member
  constructor
  · intro kept
    cases leads : next slot with
    | none => rfl
    | some later =>
        -- The old successor still points back at `slot`.
        have stale : prev' later = some slot := by
          rw [sameBack later (spells.next_mem member leads)]
          exact backed.back slot member later leads
        have right : prev' later = some fresh :=
          kept.back fresh ((members fresh).mpr (Or.inl rfl)) later (follow.trans leads)
        exact absurd (Option.some.inj (right.symm.trans stale)) different
  · intro last
    constructor
    · intro other listed later leads
      by_cases here : other = slot
      · subst here
        rw [link] at leads
        rw [← Option.some.inj leads]
        exact linkBack
      · by_cases isFresh : other = fresh
        · rw [isFresh, follow, last] at leads
          cases leads
        · rw [same other here isFresh] at leads
          have old : other ∈ slots := ((members other).mp listed).resolve_left isFresh
          rw [sameBack later (spells.next_mem old leads)]
          exact backed.back other old later leads
    · intro head enters
      rw [sameBack head (spells.start_mem enters)]
      exact backed.first head enters

end LinkedPool

end Foundation
