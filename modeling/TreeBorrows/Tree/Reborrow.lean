/-
# New tags below old ones

Deriving a pointer reads through the pointer it comes from, over the reborrowed range.  If that
read is allowed, the new tag becomes the youngest child: accessed on the range, and with its
default state everywhere else.
-/
import TreeBorrows.Tree.Access

namespace TreeBorrows

/-- A new node to be inserted. -/
structure NewChild where
  parent : Tag
  tag : Tag
  /-- The permission on the range and, by default, everywhere else. -/
  permission : Permission
  /-- The tag is protected from the start. -/
  isProtected : Bool
  range : ByteRange
deriving DecidableEq

namespace NewChild

/-- What the new node absorbs while nothing is below it. -/
def absorption (c : NewChild) : Absorption := c.permission.absorption c.isProtected

/-- The node itself, below the node with index `parent`. -/
def node (c : NewChild) (parent : Nat) : Node where
  label := .new c.tag c.permission
  parent := some parent
  children := []
  defaultPermission := c.permission
  defaultAbsorbed := c.absorption

end NewChild

namespace Tree

/-- The tree with a new node below the node `parent`.  The parent and everything above it must
not be known to absorb more than the new node does. -/
def attach (t : Tree) (c : NewChild) (parent : Nat) (tags : Registry Tag) (i : Nat) : Tree :=
  { t with
    tags := tags
    arena := t.arena.addChild i parent (c.node parent)
    bytes := t.bytes.update c.range (·.insert i (.covered c.permission c.absorption)) }.weakenFrom
      parent c.absorption

/-- Inserts a new node, after the read that a reborrow stands for. -/
def insertChild (t : Tree) (ctx : Context) (c : NewChild) : Outcome Tree Unit :=
  if t.contains c.tag then .error t (.invalidProvenance ⟨.retag, some (.takenTag c.tag)⟩)
  else
    (t.access ctx ⟨c.parent, c.range, .read, .reborrow⟩).andThen fun t () =>
      match t.requireTag c.parent .retag with
      | .error e => .error t e
      | .ok parent =>
        match t.tags.insert c.tag, t.bytes.checkRange c.range with
        | .error f, _ => .fault t f
        | _, .error f => .fault t f
        | .ok (tags, i), .ok () => (t.attach c parent tags i).tidied

end Tree

end TreeBorrows
