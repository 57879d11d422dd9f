/-
# Deriving one pointer from another

How a pointer was derived decides whether it gets a tag of its own, and which permission that
tag starts with.
-/
import TreeBorrows.Permission.Basic

namespace TreeBorrows

/-- How a new pointer comes from an existing one. -/
inductive Derivation where
  /-- A mutable borrow. -/
  | exclusive
  /-- A shared borrow. -/
  | shared
  /-- A raw pointer, or a mutable borrow of data that may be pointed to from inside. -/
  | raw
deriving DecidableEq

namespace Derivation

/-- The permission of the tag that the derivation creates, `none` where the new pointer keeps
the tag it comes from.  `cell` says that the data is interior mutable. -/
def permission? (d : Derivation) (cell : Bool) : Option Permission :=
  match d with
  | exclusive => some (Permission.ofExclusive cell)
  | shared => if cell then none else some .frozen
  | raw => none

/-- The name used in messages. -/
def name : Derivation → String
  | exclusive => "ExclusiveReborrow"
  | shared => "SharedReborrow"
  | raw => "RawOrRetained"

theorem canStart_of_permission? {d : Derivation} {cell : Bool} {p : Permission}
    (h : d.permission? cell = some p) : p.canStart = true := by
  revert h
  cases d <;> cases cell <;> cases p <;> decide

/-- No derivation starts a tag as active. -/
theorem ne_active_of_permission? {d : Derivation} {cell : Bool} {p : Permission}
    (h : d.permission? cell = some p) : p ≠ .active := by
  rintro rfl
  exact absurd (canStart_of_permission? h) Bool.false_ne_true

end Derivation

end TreeBorrows
