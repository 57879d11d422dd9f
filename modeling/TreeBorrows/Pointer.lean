/-
# Identifiers and pointers

Allocations, tags and calls are numbered, each in a series of its own.  A pointer carries the
allocation it points into and the tag it was derived with.
-/

namespace TreeBorrows

/-- The number of an allocation. -/
structure AllocationId where
  number : Nat
deriving DecidableEq

/-- The number of a pointer's tag, which is a node of its allocation's tree. -/
structure Tag where
  number : Nat
deriving DecidableEq

/-- The number of a function call. -/
structure CallId where
  number : Nat
deriving DecidableEq

/-- What an access through a pointer depends on. -/
structure Pointer where
  alloc : AllocationId
  tag : Tag
deriving DecidableEq

/-- The long name of an allocation. -/
def AllocationId.text (a : AllocationId) : String := s!"alloc{a.number}"

/-- The short name of an allocation. -/
def AllocationId.shortText (a : AllocationId) : String := s!"a{a.number}"

/-- The name of a tag. -/
def Tag.text (t : Tag) : String := s!"<{t.number}>"

/-- The name of a call. -/
def CallId.text (c : CallId) : String := s!"CallId({c.number})"

end TreeBorrows
