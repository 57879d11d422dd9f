/-
# Accesses as a node of the tree sees them

An access reads or writes through one tag.  Every node of the tree sees it from its own place,
and all that matters there is whether the accessed tag is the node itself or below it (a child
access) or anywhere else (a foreign access).
-/

namespace TreeBorrows

/-- What an access does to the bytes it covers. -/
inductive AccessKind where
  | read
  | write
deriving DecidableEq

/-- The name of an access in reports. -/
def AccessKind.text : AccessKind → String
  | read => "read access"
  | write => "write access"

/-- Where the accessed tag lies, seen from a node. -/
inductive Relatedness where
  /-- The node is the accessed one. -/
  | this
  /-- The accessed tag lies strictly below the node. -/
  | strictChild
  /-- The accessed tag lies strictly above the node. -/
  | ancestor
  /-- The accessed tag lies in another branch. -/
  | cousin
deriving DecidableEq

namespace Relatedness

/-- The access came neither through the node nor through anything below it. -/
def isForeign : Relatedness → Bool
  | this | strictChild => false
  | ancestor | cousin => true

/-- How a child of the node sees the access, when the child is not on the way to the
accessed tag. -/
def below : Relatedness → Relatedness
  | this | ancestor => ancestor
  | strictChild | cousin => cousin

/-- The two sides that reports tell apart. -/
def text (rel : Relatedness) : String :=
  if rel.isForeign then "foreign" else "child"

@[simp] theorem isForeign_below (rel : Relatedness) : rel.below.isForeign = true := by
  cases rel <;> rfl

end Relatedness

end TreeBorrows
