/-
# The state of one tag at one byte

A tag holds a permission at every byte of its allocation, whether or not it was ever used
there.  A byte counts as accessed once it was accessed through the tag or below it, and stays
so; the tag's reborrow accesses the bytes it covers.  Protectors do not look at that flag.
-/
import TreeBorrows.Permission.Transition

namespace TreeBorrows

/-- Why a node refuses an access, or an allocation its freeing. -/
inductive Conflict where
  /-- A child access needs a right that the permission does not hold. -/
  | childForbidden (permission : Permission)
  /-- A foreign access would take a right from a protected tag. -/
  | protectedTransition (transition : Transition)
  /-- The allocation holds a strongly protected tag. -/
  | protectedFree
deriving DecidableEq

/-- What a tag may do at a byte, and what is known about it there. -/
structure ByteState where
  permission : Permission
  /-- The byte was accessed through the tag or below it. -/
  accessed : Bool
  /-- The strongest foreign access known to change nothing here, at the tag or below it. -/
  absorbed : Absorption
deriving DecidableEq

namespace ByteState

/-- The state before any access.  It cannot be `active`, which only a write brings about. -/
def untouched (p : Permission) (a : Absorption) : Except Fault ByteState :=
  if p.canStart || p.isDisabled then .ok ⟨p, false, a⟩ else .error .activeDefault

/-- The state of a byte that was covered by the reborrow. -/
def covered (p : Permission) (a : Absorption) : ByteState := ⟨p, true, a⟩

/-- A foreign access may pass over the tag and everything below it. -/
def isSkippable (kind : AccessKind) (rel : Relatedness) (s : ByteState) : Bool :=
  rel.isForeign && s.absorbed.absorbs kind

/-- The state after an access and the step its permission took, or the conflict that forbids
the access. -/
def access (kind : AccessKind) (rel : Relatedness) (protectedTag : Bool) (s : ByteState) :
    Except Conflict (ByteState × Transition) :=
  match s.permission.transition? kind rel protectedTag with
  | none => .error (.childForbidden s.permission)
  | some t =>
    if protectedTag && t.violatesProtector then .error (.protectedTransition t)
    else .ok (⟨t.target, s.accessed || !rel.isForeign,
      s.absorbed.record (.ofAccess kind rel)⟩, t)

/-- The state with its absorption lowered to a limit. -/
def weaken (limit : Absorption) (s : ByteState) : ByteState :=
  { s with absorbed := Absorption.weaken limit s.absorbed }

/-- The permission, with a question mark where the byte was never accessed. -/
def text (s : ByteState) : String :=
  if s.accessed then s.permission.text else s.permission.text ++ "?"

theorem untouched_eq_ok_iff {p : Permission} {a : Absorption} {s : ByteState} :
    untouched p a = .ok s ↔ p ≠ .active ∧ s = ⟨p, false, a⟩ := by
  cases p <;> grind [untouched, Permission.canStart, Permission.isDisabled]

end ByteState

end TreeBorrows
