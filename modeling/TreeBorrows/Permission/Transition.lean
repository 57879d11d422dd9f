/-
# How an access moves a permission

Each permission reacts to an access by its kind and by whether it is foreign.  Only a child
access can be refused (`none`); a foreign access always finds a target, and whether a protected
tag may take it is a second question (`Transition.violatesProtector`).
-/
import TreeBorrows.Permission.Basic

namespace TreeBorrows

/-- A step from one permission to another. -/
structure Transition where
  source : Permission
  target : Permission
deriving DecidableEq

namespace Permission

/-! ## 1. The four reactions -/

/-- A read through the tag or below it: refused only when the tag is dead. -/
def afterChildRead? : Permission → Option Permission
  | disabled => none
  | p => some p

/-- A read from elsewhere: an active tag stops being unique, and a protected reserved tag can
no longer be written through while its protector lasts. -/
def afterForeignRead (protectedTag : Bool) : Permission → Permission
  | reserved => if protectedTag then frozen else reserved
  | reservedCell => if protectedTag then frozen else reservedCell
  | active => frozen
  | frozen => frozen
  | disabled => disabled

/-- A write through the tag or below it makes it active, if it can still be. -/
def afterChildWrite? : Permission → Option Permission
  | reserved | reservedCell | active => some active
  | frozen | disabled => none

/-- A write from elsewhere kills the tag, unless it is reserved for interior mutable data and
not protected. -/
def afterForeignWrite (protectedTag : Bool) : Permission → Permission
  | reservedCell => if protectedTag then disabled else reservedCell
  | _ => disabled

/-- The permission after an access, or `none` where the access is refused. -/
def afterAccess? (kind : AccessKind) (rel : Relatedness) (protectedTag : Bool)
    (p : Permission) : Option Permission :=
  match kind, rel.isForeign with
  | .read, false => p.afterChildRead?
  | .read, true => some (p.afterForeignRead protectedTag)
  | .write, false => p.afterChildWrite?
  | .write, true => some (p.afterForeignWrite protectedTag)

/-- The step that an access makes a permission take. -/
def transition? (kind : AccessKind) (rel : Relatedness) (protectedTag : Bool)
    (p : Permission) : Option Transition :=
  (p.afterAccess? kind rel protectedTag).map (⟨p, ·⟩)

/-- Capability is never won back. -/
theorem le_of_afterAccess? {kind : AccessKind} {rel : Relatedness} {prot : Bool}
    {p q : Permission} (h : p.afterAccess? kind rel prot = some q) : p ≤ q := by
  revert h
  cases kind <;> cases rel <;> cases prot <;> cases p <;> cases q <;> decide

/-- A foreign access is never refused by the permission itself. -/
theorem isSome_afterAccess?_of_isForeign {rel : Relatedness} (h : rel.isForeign = true)
    (kind : AccessKind) (prot : Bool) (p : Permission) :
    (p.afterAccess? kind rel prot).isSome = true := by
  cases kind <;> simp [afterAccess?, h]

end Permission

/-! ## 2. Reading a step -/

namespace Transition

/-- Accesses can bring this step about: it does not win capability back. -/
def IsForward (t : Transition) : Prop := t.source ≤ t.target

instance (t : Transition) : Decidable t.IsForward :=
  inferInstanceAs (Decidable (t.source ≤ t.target))

/-- Nothing changes. -/
def isIdle (t : Transition) : Bool := t.source == t.target

/-- The tag dies. -/
def kills (t : Transition) : Bool :=
  t.source != .disabled && t.target == .disabled

/-- The step takes away what a protector guarantees: the right to read, or a right to write
that is already held.  A right to write that is still to come may be lost. -/
def violatesProtector (t : Transition) : Bool :=
  (t.source.canRead && !t.target.canRead) ||
    (t.source.writeRight == .now && t.target.writeRight == .never)

/-- The end of the step, for a permission at its start. -/
def targetFrom? (t : Transition) (p : Permission) : Option Permission :=
  if p = t.source then some t.target else none

/-- What the step means for the tag. -/
def meaning (t : Transition) : String :=
  if t.source = t.target then "no change"
  else match t.source, t.target with
    | _, .active => "the first write to a 2-phase borrowed mutable reference"
    | _, .frozen => "a loss of write permissions"
    | .frozen, .disabled => "a loss of read permissions"
    | _, .disabled => "a loss of read and write permissions"
    | _, _ => "a change of interior mutability"

/-- Both ends of the step. -/
def text (t : Transition) : String :=
  s!"from {t.source.text} to {t.target.text}"

theorem isForward_of_transition? {kind : AccessKind} {rel : Relatedness} {prot : Bool}
    {p : Permission} {t : Transition} (h : p.transition? kind rel prot = some t) :
    t.source = p ∧ t.IsForward := by
  obtain ⟨q, hq, rfl⟩ := Option.map_eq_some_iff.mp h
  exact ⟨rfl, Permission.le_of_afterAccess? hq⟩

end Transition

end TreeBorrows
