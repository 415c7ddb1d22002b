import Mathlib

namespace Foundation

/-!
# Doubly linked lists

The nodes of a list lead forward and backward.  A segment of a list is entered
at its first node, which leads back to what is before the segment, and its last
node leads forward to what is behind it.  What is before and behind may be the
null pointer or another node; to the segment they are the same.

A node is put between two others, or taken out, by changing the links of its
neighbours; the two rules here ask for those changes and for nothing else to
change at the other nodes.
-/

namespace DoublyLinked

variable {Node : Type*}

/-- The node in front of what comes behind `nodes`. -/
def lastOf (before : Node) (nodes : List Node) : Node := nodes.getLast?.getD before

/-- The node at which a segment is entered. -/
def headOf (nodes : List Node) (exit : Node) : Node := nodes.head?.getD exit

@[simp] theorem lastOf_nil (before : Node) : lastOf before [] = before := rfl

@[simp] theorem headOf_nil (exit : Node) : headOf [] exit = exit := rfl

@[simp] theorem headOf_cons (node exit : Node) (nodes : List Node) :
    headOf (node :: nodes) exit = node := rfl

@[simp] theorem lastOf_cons (before node : Node) (nodes : List Node) :
    lastOf before (node :: nodes) = lastOf node nodes := by
  rw [lastOf, lastOf, List.getLast?_cons]
  rfl

@[simp] theorem lastOf_concat (before node : Node) (nodes : List Node) :
    lastOf before (nodes ++ [node]) = node := by
  rw [lastOf, List.getLast?_concat]
  rfl

/-- The links of a segment with the given nodes, from one node to another. -/
def Linked (next prev : Node → Node) : (before entry : Node) → List Node → (exit : Node) → Prop
  | _, entry, [], exit => entry = exit
  | before, entry, node :: rest, exit =>
      entry = node ∧ prev node = before ∧ Linked next prev node (next node) rest exit

section Linked

variable {next prev next' prev' : Node → Node} {before entry exit node fresh : Node}
  {nodes front back : List Node}

theorem Linked.entry_eq (linked : Linked next prev before entry nodes exit) :
    entry = headOf nodes exit := by
  cases nodes with
  | nil => exact linked
  | cons node rest => exact linked.1

/-- Two segments, one behind the other. -/
theorem linked_append : Linked next prev before entry (front ++ back) exit ↔
    Linked next prev before entry front (headOf back exit) ∧
      Linked next prev (lastOf before front) (headOf back exit) back exit := by
  induction front generalizing before entry with
  | nil =>
      constructor
      · intro linked
        exact ⟨linked.entry_eq, linked.entry_eq ▸ linked⟩
      · rintro ⟨enters, linked⟩
        rw [show entry = headOf back exit from enters]
        exact linked
  | cons node rest inductionHypothesis =>
      rw [lastOf_cons, List.cons_append, Linked, Linked, inductionHypothesis]
      constructor
      · rintro ⟨enters, backward, linked, behind⟩
        exact ⟨⟨enters, backward, linked⟩, behind⟩
      · rintro ⟨⟨enters, backward, linked⟩, behind⟩
        exact ⟨enters, backward, linked, behind⟩

/-- The links at one of the nodes. -/
theorem Linked.at (linked : Linked next prev before entry (front ++ node :: back) exit) :
    prev node = lastOf before front ∧ next node = headOf back exit := by
  have behind := (linked_append.mp linked).2
  exact ⟨behind.2.1, behind.2.2.entry_eq⟩

/-- Only the links of the nodes matter. -/
theorem Linked.congr (linked : Linked next prev before entry nodes exit)
    (sameNext : ∀ node ∈ nodes, next' node = next node)
    (samePrev : ∀ node ∈ nodes, prev' node = prev node) :
    Linked next' prev' before entry nodes exit := by
  induction nodes generalizing before entry with
  | nil => exact linked
  | cons node rest inductionHypothesis =>
      rcases linked with ⟨enters, backward, linked⟩
      refine ⟨enters, (samePrev node List.mem_cons_self).trans backward, ?_⟩
      rw [sameNext node List.mem_cons_self]
      exact inductionHypothesis linked
        (fun other member => sameNext other (List.mem_cons_of_mem _ member))
        (fun other member => samePrev other (List.mem_cons_of_mem _ member))

/-- The last node of a segment leads somewhere else, or the entry does. -/
theorem Linked.redirect {exit' entry' : Node} (linked : Linked next prev before entry nodes exit)
    (distinct : nodes.Nodup) (entered : entry' = headOf nodes exit')
    (last : ∀ node ∈ nodes.getLast?, next' node = exit')
    (sameNext : ∀ node ∈ nodes, node ∉ nodes.getLast? → next' node = next node)
    (samePrev : ∀ node ∈ nodes, prev' node = prev node) :
    Linked next' prev' before entry' nodes exit' := by
  induction nodes generalizing before entry entry' with
  | nil => exact entered
  | cons node rest inductionHypothesis =>
      rcases linked with ⟨_, backward, linked⟩
      refine ⟨entered, (samePrev node List.mem_cons_self).trans backward, ?_⟩
      cases rest with
      | nil => exact last node (by simp)
      | cons other others =>
          have lasts : (node :: other :: others).getLast? = (other :: others).getLast? :=
            List.getLast?_cons_cons
          rw [lasts] at last sameNext
          have inner : node ∉ (other :: others).getLast? := by
            intro repeated
            exact (List.nodup_cons.mp distinct).1 (List.mem_of_getLast? repeated)
          refine inductionHypothesis linked (List.nodup_cons.mp distinct).2 ?_ last
            (fun later member => sameNext later (List.mem_cons_of_mem _ member))
            (fun later member => samePrev later (List.mem_cons_of_mem _ member))
          rw [sameNext node List.mem_cons_self inner]
          exact linked.1

/-- The first node of a segment leads back to another node. -/
theorem Linked.reenter {before' : Node} (linked : Linked next prev before entry nodes exit)
    (distinct : nodes.Nodup) (first : ∀ node ∈ nodes.head?, prev' node = before')
    (sameNext : ∀ node ∈ nodes, next' node = next node)
    (samePrev : ∀ node ∈ nodes, node ∉ nodes.head? → prev' node = prev node) :
    Linked next' prev' before' entry nodes exit := by
  cases nodes with
  | nil => exact linked
  | cons node rest =>
      rcases linked with ⟨enters, _, linked⟩
      refine ⟨enters, first node rfl, ?_⟩
      rw [sameNext node List.mem_cons_self]
      refine linked.congr (fun other member => sameNext other (List.mem_cons_of_mem _ member))
        (fun other member => samePrev other (List.mem_cons_of_mem _ member) ?_)
      rintro ⟨⟩
      exact (List.nodup_cons.mp distinct).1 member

/-- What changes when `fresh` is put between `front` and `back`. -/
structure Links.Inserted (next prev next' prev' : Node → Node) (before exit : Node)
    (front back : List Node) (fresh : Node) : Prop where
  next_eq : next' fresh = headOf back exit
  prev_eq : prev' fresh = lastOf before front
  ahead : ∀ node ∈ front.getLast?, next' node = fresh
  behind : ∀ node ∈ back.head?, prev' node = fresh
  sameNext : ∀ node ∈ front ++ back, node ∉ front.getLast? → next' node = next node
  samePrev : ∀ node ∈ front ++ back, node ∉ back.head? → prev' node = prev node

theorem Linked.insert {entry' : Node} (linked : Linked next prev before entry (front ++ back) exit)
    (distinct : (front ++ back).Nodup) (entered : entry' = headOf front fresh)
    (inserted : Links.Inserted next prev next' prev' before exit front back fresh) :
    Linked next' prev' before entry' (front ++ fresh :: back) exit := by
  have parts := linked_append.mp linked
  have apart := List.disjoint_of_nodup_append distinct
  refine linked_append.mpr ⟨?_, rfl, inserted.prev_eq, ?_⟩
  · refine parts.1.redirect distinct.of_append_left entered inserted.ahead
      (fun node member => inserted.sameNext node (List.mem_append_left _ member)) ?_
    intro node member
    refine inserted.samePrev node (List.mem_append_left _ member) (fun first => ?_)
    exact apart member (List.mem_of_mem_head? first)
  · rw [inserted.next_eq]
    refine parts.2.reenter distinct.of_append_right inserted.behind ?_
      (fun node member => inserted.samePrev node (List.mem_append_right _ member))
    intro node member
    refine inserted.sameNext node (List.mem_append_right _ member) (fun last => ?_)
    exact apart (List.mem_of_getLast? last) member

/-- What changes when a node between `front` and `back` is taken out. -/
structure Links.Removed (next prev next' prev' : Node → Node) (before exit : Node)
    (front back : List Node) : Prop where
  ahead : ∀ node ∈ front.getLast?, next' node = headOf back exit
  behind : ∀ node ∈ back.head?, prev' node = lastOf before front
  sameNext : ∀ node ∈ front ++ back, node ∉ front.getLast? → next' node = next node
  samePrev : ∀ node ∈ front ++ back, node ∉ back.head? → prev' node = prev node

theorem Linked.remove {entry' : Node}
    (linked : Linked next prev before entry (front ++ node :: back) exit)
    (distinct : (front ++ back).Nodup) (entered : entry' = headOf front (headOf back exit))
    (removed : Links.Removed next prev next' prev' before exit front back) :
    Linked next' prev' before entry' (front ++ back) exit := by
  have parts := linked_append.mp linked
  have rest : Linked next prev node (headOf back exit) back exit := by
    have behind := parts.2.2.2
    rwa [behind.entry_eq] at behind
  have apart := List.disjoint_of_nodup_append distinct
  refine linked_append.mpr ⟨?_, ?_⟩
  · refine parts.1.redirect distinct.of_append_left entered removed.ahead
      (fun node member => removed.sameNext node (List.mem_append_left _ member)) ?_
    intro node member
    refine removed.samePrev node (List.mem_append_left _ member) (fun first => ?_)
    exact apart member (List.mem_of_mem_head? first)
  · refine rest.reenter distinct.of_append_right removed.behind ?_
      (fun node member => removed.samePrev node (List.mem_append_right _ member))
    intro node member
    refine removed.sameNext node (List.mem_append_right _ member) (fun last => ?_)
    exact apart (List.mem_of_getLast? last) member

end Linked

end DoublyLinked

end Foundation
