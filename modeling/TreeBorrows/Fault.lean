/-
# Faults

A fault is a stop that the checked program is not to blame for: a sum that leaves the 64-bit
words, or a step that a caller of this library must never ask for.  An aliasing error, which
is the checked program's doing, is an `Error` instead (`Error.lean`).
-/

namespace TreeBorrows

/-- Why an operation had to stop without an answer. -/
inductive Fault where
  /-- A sum does not fit in a 64-bit word. -/
  | overflow
  /-- A range reaches past the last byte of a run map. -/
  | beyondMap
  /-- A byte that was never accessed would have to start as `active`. -/
  | activeDefault
  /-- A local access was asked to be absorbed as if it were foreign. -/
  | localAbsorbed
  /-- A key was registered a second time. -/
  | duplicateKey
  /-- No index below `2 ^ 32` is left for a new key. -/
  | keysExhausted
  /-- A link of a tree leads to no node, or not to a younger child. -/
  | missingNode
deriving DecidableEq

/-- The text that reports a fault. -/
def Fault.message : Fault → String
  | overflow => "attempt to add with overflow"
  | beyondMap => "iterating beyond the bounds of this RangeMap"
  | activeDefault => "assertion failed: permission.is_initial() || permission.is_disabled()"
  | localAbsorbed => "assertion failed: happening_next.is_foreign()"
  | duplicateKey => "key inserted twice in a UniKeyMap"
  | keysExhausted => "UniMap ran out of useable keys"
  | missingNode => "every index reachable from the root has a node"

end TreeBorrows
