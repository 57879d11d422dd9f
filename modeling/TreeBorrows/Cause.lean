/-
# Causes and operations

An access is made by the program itself, or stands for a reborrow (which reads) or for freeing
the allocation (which writes).  An operation is what the program asked for when a request
failed before any access was tried.
-/
import TreeBorrows.Access

namespace TreeBorrows

/-- What the program asked for. -/
inductive Operation where
  | read
  | write
  | retag
  | dealloc
  | protect
  | inspect
deriving DecidableEq

/-- The name used in reports. -/
def Operation.name : Operation → String
  | read => "Read"
  | write => "Write"
  | retag => "Retag"
  | dealloc => "Dealloc"
  | protect => "Protect"
  | inspect => "Inspect"

/-- The operation of a plain access. -/
def Operation.ofAccess : AccessKind → Operation
  | .read => read
  | .write => write

/-- Why an access happens. -/
inductive Cause where
  /-- The program reads or writes. -/
  | explicit (kind : AccessKind)
  /-- A pointer is derived. -/
  | reborrow
  /-- The allocation is freed. -/
  | dealloc
deriving DecidableEq

namespace Cause

/-- The operation that an access belongs to. -/
def operation : Cause → Operation
  | explicit kind => .ofAccess kind
  | reborrow => .retag
  | dealloc => .dealloc

/-- The name used in reports. -/
def text : Cause → String
  | explicit kind => kind.text
  | reborrow => "reborrow"
  | dealloc => "deallocation"

/-- The access that the cause acts as, from the side of a node. -/
def textAsAccess (c : Cause) (isForeign : Bool) : String :=
  let side := if isForeign then "foreign" else "child"
  match c with
  | explicit kind => s!"{side} {kind.text}"
  | reborrow => s!"reborrow (acting as a {side} read access)"
  | dealloc => s!"deallocation (acting as a {side} write access)"

end Cause

end TreeBorrows
