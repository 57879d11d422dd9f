/-
# Violations

The report of an access that broke the aliasing rules: which tag it was made through, which tag
stood against it, at which offset, and what that tag may do there.
-/
import TreeBorrows.ByteState
import TreeBorrows.Cause
import TreeBorrows.Label
import TreeBorrows.Text.Hex

namespace TreeBorrows

/-- Whether a permission or a protector stood against an access. -/
inductive Obstacle where
  | permission
  | protector
deriving DecidableEq

namespace Conflict

/-- What stood against the access. -/
def obstacle : Conflict → Obstacle
  | childForbidden _ => .permission
  | protectedTransition _ | protectedFree => .protector

/-- The permission that the access would have produced, if it had one to produce. -/
def permissionAfter? : Conflict → Option Permission
  | protectedTransition t => some t.target
  | childForbidden _ | protectedFree => none

end Conflict

/-- An access that is not allowed. -/
structure Violation where
  conflict : Conflict
  alloc : AllocationId
  /-- The offset in the allocation at which the conflict arose. -/
  offset : Nat
  /-- The tag that stood against the access. -/
  conflicting : Label
  cause : Cause
  /-- The tag that the access was made through. -/
  accessed : Label
  /-- The permission of the conflicting tag at the offset. -/
  before : Permission
  /-- The permission that the access would have produced. -/
  after : Option Permission
deriving DecidableEq

namespace Violation

/-- What stood against the access. -/
def obstacle (v : Violation) : Obstacle := v.conflict.obstacle

/-- The access was made through the tag that stood against it. -/
def isOwn (v : Violation) : Bool := v.conflicting.tag == v.accessed.tag

/-- The part of the report that says what stood against the access. -/
def reason (v : Violation) : String :=
  match v.conflict with
  | .childForbidden p =>
    if v.isOwn then s!"the accessed tag has state {p.text}"
    else s!"the accessed tag is a child of {v.conflicting.text} which has state {p.text}"
  | .protectedTransition t =>
    s!"this foreign access would cause the protected tag {v.conflicting.text} to transition " ++
      s!"{t.text}, which is {t.meaning}"
  | .protectedFree => s!"the allocation is strongly protected by {v.conflicting.text}"

/-- The report. -/
def text (v : Violation) : String :=
  s!"{v.cause.text} through {v.accessed.text} at {v.alloc.text}[{Text.hex v.offset}] " ++
    s!"is forbidden: {v.reason}"

end Violation

end TreeBorrows
