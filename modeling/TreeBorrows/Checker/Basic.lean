/-
# The checker

All that is known about a running program: its live allocations with their trees, the tags that
are protected, the calls that are active, and the numbers to be given out next.

This module holds the state and what can be asked of it.  What a program does to it is in
`Checker/Allocation.lean`, `Checker/Pointer.lean` and `Checker/Call.lean`.
-/
import TreeBorrows.CallStack
import TreeBorrows.Tree.Reborrow

namespace TreeBorrows

/-- A live allocation. -/
structure Allocation where
  size : Nat
  tree : Tree

/-- The state of a running program, as far as aliasing is concerned. -/
structure Checker where
  settings : Settings
  /-- The number of the next allocation. -/
  nextAlloc : Nat
  /-- The number of the next tag. -/
  nextTag : Nat
  /-- The number of the next call. -/
  nextCall : Nat
  allocations : Table AllocationId Allocation
  /-- The protected tags.  A tag has one entry, however many calls protect it. -/
  protectors : Table Tag Protection
  calls : CallStack

namespace Checker

/-- A program that has not done anything.  Tags 0 and 1 are kept for pointers that are not
checked. -/
def new (settings : Settings) : Checker where
  settings := settings
  nextAlloc := 1
  nextTag := 2
  nextCall := 0
  allocations := .empty
  protectors := .empty
  calls := .empty

/-! ## 1. Numbers -/

/-- A number for an allocation. -/
def freshAlloc (k : Checker) : Checker × AllocationId :=
  ({ k with nextAlloc := k.nextAlloc + 1 }, ⟨k.nextAlloc⟩)

/-- A number for a tag. -/
def freshTag (k : Checker) : Checker × Tag :=
  ({ k with nextTag := k.nextTag + 1 }, ⟨k.nextTag⟩)

/-- A number for a call. -/
def freshCall (k : Checker) : Checker × CallId :=
  ({ k with nextCall := k.nextCall + 1 }, ⟨k.nextCall⟩)

/-! ## 2. Protected tags -/

/-- The protector of a tag. -/
def protector? (k : Checker) (t : Tag) : Option Protection := k.protectors.get? t

/-- Protects a tag, whatever protected it before. -/
def setProtector (k : Checker) (t : Tag) (kind : Protection) : Checker :=
  { k with protectors := k.protectors.insert t kind }

/-- Takes a tag's protector away. -/
def clearProtector (k : Checker) (t : Tag) : Checker :=
  { k with protectors := k.protectors.erase t }

/-! ## 3. Trees -/

/-- What the tree of an allocation needs to know. -/
def context (k : Checker) (a : AllocationId) : Context := ⟨k.settings, k.protectors, a⟩

/-- How many allocations are live. -/
def liveCount (k : Checker) : Nat := k.allocations.size

/-- The checker with another tree for an allocation. -/
def putTree (k : Checker) (a : AllocationId) (allocation : Allocation) (t : Tree) : Checker :=
  { k with allocations := k.allocations.insert a { allocation with tree := t } }

/-- The allocation of a pointer, needed for an operation. -/
def requireLive (k : Checker) (p : Pointer) (op : Operation) : Except Error Allocation :=
  match k.allocations.get? p.alloc with
  | some allocation => .ok allocation
  | none => .error (.useAfterFree ⟨op, some (.deadPointer p)⟩)

/-- An operation on the tree that a pointer points into. -/
def onTree {α : Type} (k : Checker) (p : Pointer) (op : Operation)
    (f : Context → Tree → Outcome Tree α) : Outcome Checker α :=
  match k.requireLive p op with
  | .error e => .error k e
  | .ok allocation =>
    (f (k.context p.alloc) allocation.tree).mapState (k.putTree p.alloc allocation)

/-- A change of the tree that a pointer points into, which happens without a message or not at
all. -/
def editTree (k : Checker) (p : Pointer) (op : Operation) (f : Tree → Except Error Tree) :
    Except Error Checker :=
  match k.requireLive p op with
  | .error e => .error e
  | .ok allocation => (f allocation.tree).map (k.putTree p.alloc allocation)

/-- A question to the tree that a pointer points into. -/
def askTree {α : Type} (k : Checker) (p : Pointer) (op : Operation)
    (f : Tree → Except Failure α) : Except Failure α :=
  match k.requireLive p op with
  | .error e => .error (.error e)
  | .ok allocation => f allocation.tree

/-- The state of a pointer's tag at an offset. -/
def stateOf (k : Checker) (p : Pointer) (offset : Nat) : Except Failure ByteState :=
  k.askTree p .inspect (·.stateOf p.tag offset)

end Checker

end TreeBorrows
