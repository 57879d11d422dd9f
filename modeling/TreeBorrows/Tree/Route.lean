/-
# The route of an access through the tree

An access through a tag visits the tree from that tag's point of view: first the tag and its
subtree, then each ancestor on the way up, followed by the subtrees hanging off of it that were
not visited yet.  A subtree is visited from its top down, and of the children of a node the
youngest comes first.

A foreign node may be skipped together with everything below it; which ones, the caller says.
The nodes on the way from the accessed tag to the root are never foreign, and never skipped.

The route is a list, so that the order of the visits is part of what can be stated about it.
Where a node has no state and no default either, the list holds the fault in its place.
-/
import TreeBorrows.Tree.Basic

namespace TreeBorrows

/-- A node as an access finds it at one byte. -/
structure Visit where
  index : Nat
  node : Node
  state : ByteState
  /-- Where the accessed tag lies, seen from the node. -/
  position : Relatedness
deriving DecidableEq

namespace Arena

variable (a : Arena) (states : ByteStates) (skip : ByteState → Relatedness → Bool)

/-- The visits to the node `i` and everything below it, except the subtree of `exclude`. -/
def subtreeRoute (exclude : Option Nat) (i : Nat) (rel : Relatedness) :
    List (Except Fault Visit) :=
  match a.look states i with
  | .error f => [.error f]
  | .ok (node, state) =>
    if rel.isForeign && skip state rel then []
    else .ok ⟨i, node, state, rel⟩ ::
      (node.children.filter (some · ≠ exclude)).reverse.flatMap fun c =>
        if i < c ∧ c < a.width then subtreeRoute exclude c rel.below
        else [.error .missingNode]
termination_by a.width - i

/-- The visits to a row of ancestors, each without the subtree that was climbed out of. -/
def climbRoute (below : Nat) : List Nat → List (Except Fault Visit)
  | [] => []
  | i :: above => subtreeRoute a states skip (some below) i .strictChild ++ climbRoute i above

/-- The visits of an access through the node `start`, in order. -/
def route (start : Nat) : List (Except Fault Visit) :=
  subtreeRoute a states skip none start .this ++
    climbRoute a states skip start (a.lineage start).tail

end Arena

end TreeBorrows
