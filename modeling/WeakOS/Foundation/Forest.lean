import Mathlib

namespace Foundation

/-!
# Finite forests

A forest is a sequence of leaves and of nodes, and each node has a forest of its
own below it.  The pre-order lists all entries with their depths.
-/

inductive Forest (Entry : Type) where
  | nil
  | leaf (entry : Entry) (rest : Forest Entry)
  | node (entry : Entry) (children rest : Forest Entry)

namespace Forest

variable {Entry Other : Type}

/-- The entries at the top. -/
def roots : Forest Entry → List Entry
  | .nil => []
  | .leaf entry rest => entry :: rest.roots
  | .node entry _ rest => entry :: rest.roots

/-- All entries with their depths, each in front of what is below it. -/
def preorder : Forest Entry → (depth : Nat) → List (Nat × Entry)
  | .nil, _ => []
  | .leaf entry rest, depth => (depth, entry) :: rest.preorder depth
  | .node entry children rest, depth =>
      (depth, entry) :: (children.preorder (depth + 1) ++ rest.preorder depth)

/-- The number of nodes. -/
def nodes : Forest Entry → Nat
  | .nil => 0
  | .leaf _ rest => rest.nodes
  | .node _ children rest => 1 + children.nodes + rest.nodes

/-- The number of levels. -/
def height : Forest Entry → Nat
  | .nil => 0
  | .leaf _ rest => max 1 rest.height
  | .node _ children rest => max (children.height + 1) rest.height

/-- Replace the entries. -/
def map (f : Entry → Other) : Forest Entry → Forest Other
  | .nil => .nil
  | .leaf entry rest => .leaf (f entry) (rest.map f)
  | .node entry children rest => .node (f entry) (children.map f) (rest.map f)

theorem preorder_map (f : Entry → Other) (forest : Forest Entry) (depth : Nat) :
    (forest.map f).preorder depth = (forest.preorder depth).map (Prod.map id f) := by
  induction forest generalizing depth with
  | nil => rfl
  | leaf entry rest restHypothesis => exact congrArg ((depth, f entry) :: ·) (restHypothesis depth)
  | node entry children rest childrenHypothesis restHypothesis =>
      rw [map, preorder, preorder, childrenHypothesis, restHypothesis, List.map_cons,
        List.map_append]
      rfl

end Forest

end Foundation
