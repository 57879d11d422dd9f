/-
# Errors

Why a request failed: it named an allocation that is gone, a range that leaves the allocation,
or a tag that the allocation does not know; or the access itself broke the aliasing rules.
Errors are kept as causes; `Error.message` words them.
-/
import TreeBorrows.ByteRange
import TreeBorrows.Violation

namespace TreeBorrows

/-- Why a request failed before its access was tried. -/
inductive Reason where
  /-- The pointer's allocation is not live. -/
  | deadPointer (pointer : Pointer)
  /-- The allocation is not live. -/
  | deadAllocation (alloc : AllocationId)
  /-- The range reaches past the end of the allocation. -/
  | rangeExceeds (range : ByteRange) (size : Nat)
  /-- The tag is not one of the allocation's. -/
  | unknownTag (tag : Tag)
  /-- The tag for a new node is already taken. -/
  | takenTag (tag : Tag)
  /-- The tag has fewer ancestors than were asked for. -/
  | noAncestor (tag : Tag) (depth : Nat)
  /-- A reason in words. -/
  | inWords (text : String)
deriving DecidableEq

/-- The wording of a reason. -/
def Reason.text : Reason → String
  | deadPointer p => s!"{p.alloc.text} through {p.tag.text} is not a live allocation"
  | deadAllocation a => s!"{a.text} is not a live allocation"
  | rangeExceeds r size => s!"range {r.text} exceeds the allocation size {size}"
  | unknownTag t => s!"tag {t.text} does not belong to this allocation"
  | takenTag t => s!"tag {t.text} already exists in this allocation"
  | noAncestor t depth => s!"tag {t.text} has no ancestor at depth {depth}"
  | inWords text => text

/-- A request that failed, and why, if that is known. -/
structure Rejection where
  operation : Operation
  reason? : Option Reason
deriving DecidableEq

/-- The operation and the reason. -/
def Rejection.text (r : Rejection) : String :=
  match r.reason? with
  | some reason => s!"during {r.operation.name}: {reason.text}"
  | none => s!"during {r.operation.name}"

/-- Why a request was not carried out. -/
inductive Error where
  /-- The allocation is gone, or never was. -/
  | useAfterFree (rejection : Rejection)
  /-- The range leaves the allocation. -/
  | outOfBounds (rejection : Rejection)
  /-- The tag does not belong where it was used. -/
  | invalidProvenance (rejection : Rejection)
  /-- The access breaks the aliasing rules. -/
  | aliasing (violation : Violation)
deriving DecidableEq

namespace Error

/-- The text that reports an error. -/
def message : Error → String
  | useAfterFree r => s!"Detected use after free {r.text}"
  | outOfBounds r => s!"Detected out-of-bounds access {r.text}"
  | invalidProvenance r => s!"Invalid provenance {r.text}"
  | aliasing v => s!"Tree Borrows violation: {v.text}"

/-- The violation that an error reports, if it reports one. -/
def violation? : Error → Option Violation
  | aliasing v => some v
  | useAfterFree _ | outOfBounds _ | invalidProvenance _ => none

end Error

/-- An operation that gave no answer: an error of the checked program, or a fault. -/
inductive Failure where
  | error (e : Error)
  | fault (f : Fault)
deriving DecidableEq

end TreeBorrows
