/-
# Using and deriving pointers

Every derivation reads through the pointer it starts from.  Whether the new pointer gets a tag of
its own is decided by how it is derived (`Derivation.permission?`); only a new tag can be
protected, and only while a call is active.
-/
import TreeBorrows.Checker.Basic

namespace TreeBorrows.Checker

/-- Reads or writes through a pointer. -/
def access (k : Checker) (p : Pointer) (range : ByteRange) (kind : AccessKind) :
    Outcome Checker Unit :=
  k.onTree p (.ofAccess kind) fun ctx t => t.access ctx ⟨p.tag, range, kind, .explicit kind⟩

/-- Derives a pointer that keeps its tag, which needs to be readable all the same. -/
def keepTag (k : Checker) (p : Pointer) (range : ByteRange) (d : Derivation) :
    Outcome Checker (Option Tag) :=
  (k.onTree p .retag fun ctx t => t.access ctx ⟨p.tag, range, .read, .reborrow⟩).andThen
    fun k () => (Outcome.ok k none).after [.tagKept d p.tag p.alloc]

/-- Derives a pointer with a tag of its own.  The number of the tag is used up even if the
derivation fails. -/
def newTag (k : Checker) (p : Pointer) (range : ByteRange) (permission : Permission)
    (isProtected : Bool) : Outcome Checker (Option Tag) :=
  let (k, tag) := k.freshTag
  (k.onTree p .retag fun ctx t =>
      t.insertChild ctx ⟨p.tag, tag, permission, isProtected, range⟩).andThen fun k () =>
    (Outcome.ok k (some tag)).after <|
      .reborrowed p.tag tag permission p.alloc range ::
        (if k.settings.tracks tag then [.childCreated tag p.tag permission range] else [])

/-- Derives a pointer from another one, without protecting it: the new tag, or `none` where the
new pointer keeps the old tag. -/
def reborrow (k : Checker) (p : Pointer) (range : ByteRange) (d : Derivation) (cell : Bool)
    (isProtected : Bool) : Outcome Checker (Option Tag) :=
  match k.requireLive p .retag with
  | .error e => .error k e
  | .ok _ =>
    match d.permission? cell with
    | none => k.keepTag p range d
    | some permission => k.newTag p range permission isProtected

/-- The innermost call protects a new tag. -/
def holdTag (k : Checker) (p : Pointer) (kind : Protection) : Outcome Checker Unit :=
  let k := k.setProtector p.tag kind
  (Outcome.ok { k with calls := k.calls.protect p } ()).after
    [.protectedIn p.tag kind k.calls.innermost?]

/-- Derives a pointer from another one.  The innermost call protects the new tag if a protector
is asked for; outside of any call there is nothing that could hold it, and it is dropped. -/
def retag (k : Checker) (p : Pointer) (range : ByteRange) (d : Derivation) (cell : Bool)
    (kind : Protection) : Outcome Checker (Option Tag) :=
  let isProtected := kind.protects && 0 < k.calls.depth
  let ignored := kind.protects && k.calls.depth == 0
  let warnings : List Message := if ignored then [.protectorIgnored p.tag] else []
  ((k.reborrow p range d cell isProtected).andThen fun k tag? =>
    match tag? with
    | some tag =>
      if isProtected then (k.holdTag ⟨p.alloc, tag⟩ kind).andThen fun k () => .ok k (some tag)
      else .ok k (some tag)
    | none => .ok k none).after warnings

/-- Derives a pointer from another one, asking for no protector. -/
def derive (k : Checker) (p : Pointer) (range : ByteRange) (d : Derivation) (cell : Bool) :
    Outcome Checker (Option Tag) :=
  k.retag p range d cell .none

/-- One more name for the ancestor `depth` steps above a pointer's tag. -/
def nameAncestor (k : Checker) (p : Pointer) (depth : Nat) (name : String) :
    Outcome Checker Unit :=
  .ofEdit k (k.editTree p .inspect (·.name p.tag depth name))

/-- One more name for a pointer's tag. -/
def name (k : Checker) (p : Pointer) (name : String) : Outcome Checker Unit :=
  k.nameAncestor p 0 name

/-- The permission of a pointer's tag at an offset. -/
def permissionAt (k : Checker) (p : Pointer) (offset : Nat) : Except Failure Permission :=
  (k.stateOf p offset).map ByteState.permission

end TreeBorrows.Checker
