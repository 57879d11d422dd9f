/-
# The tree of an allocation

Every tag of an allocation is a node; a tag derived from another one is its child.  Nodes live
in an arena: a tag's index is the number of tags created before it, so a child always has a
larger index than its parent, and the root has index 0.

The states of the tags are kept in a run map over the bytes of the allocation.  A run need not
hold a state for every node: where it holds none, the node has its default state there
(`Node.defaultState`).
-/
import TreeBorrows.Error
import TreeBorrows.Protection
import TreeBorrows.Registry
import TreeBorrows.RunMap.Basic
import TreeBorrows.Settings.Basic
import TreeBorrows.Slots
import TreeBorrows.Table

namespace TreeBorrows

/-! ## 1. Nodes -/

/-- One tag in the tree. -/
structure Node where
  label : Label
  /-- The index of the tag it was derived from, `none` for the root. -/
  parent : Option Nat
  /-- The indices of the tags derived from it, oldest first. -/
  children : List Nat
  /-- The permission at bytes where no state is kept. -/
  defaultPermission : Permission
  /-- The absorption at bytes where no state is kept. -/
  defaultAbsorbed : Absorption
deriving DecidableEq

namespace Node

/-- The tag of the node. -/
def tag (n : Node) : Tag := n.label.tag

/-- The state at a byte for which none is kept. -/
def defaultState (n : Node) : Except Fault ByteState :=
  ByteState.untouched n.defaultPermission n.defaultAbsorbed

/-- The node with its default absorption lowered to a limit. -/
def weaken (limit : Absorption) (n : Node) : Node :=
  { n with defaultAbsorbed := Absorption.weaken limit n.defaultAbsorbed }

end Node

/-! ## 2. Arenas -/

/-- All nodes of a tree, by index. -/
abbrev Arena := Slots Node

/-- The states kept for the nodes at one byte, by index. -/
abbrev ByteStates := Slots ByteState

namespace Arena

/-- The index of the root. -/
def root : Nat := 0

/-- The index itself, its parent, and so on up to the root.  Parents are older than their
children, which is why the climb ends; a link to anything younger is not followed. -/
def lineage (a : Arena) (i : Nat) : List Nat :=
  i :: match a.get? i with
    | none => []
    | some n =>
      match n.parent with
      | none => []
      | some p => if p < i then lineage a p else []
termination_by i

/-- The state of a node at a byte, kept or by default, together with the node. -/
def look (a : Arena) (states : ByteStates) (i : Nat) : Except Fault (Node × ByteState) :=
  match a.get? i with
  | none => .error .missingNode
  | some n =>
    match states.get? i with
    | some s => .ok (n, s)
    | none => n.defaultState.map (n, ·)

/-- The arena with a new youngest node below the node `parent`. -/
def addChild (a : Arena) (i parent : Nat) (n : Node) : Arena :=
  (a.insert i n).modify parent fun p => { p with children := p.children ++ [i] }

end Arena

/-! ## 3. Trees -/

/-- The tags of one allocation and their states at every byte of it. -/
structure Tree where
  tags : Registry Tag
  arena : Arena
  bytes : RunMap ByteStates
  /-- Foreign accesses pass over subtrees that are known to absorb them. -/
  foreignSkipping : Bool
  /-- How many runs the map may gain before equal neighbours are joined. -/
  mergeSlack : Nat
  /-- The number of runs when neighbours were last joined. -/
  runsAtLastMerge : Nat

/-- What a tree needs to know of its surroundings. -/
structure Context where
  settings : Settings
  protectors : Table Tag Protection
  /-- The allocation that the tree belongs to. -/
  alloc : AllocationId

/-- The tag is protected, in whatever way. -/
def Context.isProtected (c : Context) (t : Tag) : Bool := c.protectors.contains t

namespace Tree

/-- A tree of one tag, which owns the whole allocation: it is active and accessed at every
byte. -/
def new (root : Tag) (size : Nat) (settings : Settings) : Tree where
  tags := ⟨[root]⟩
  arena := Slots.empty.insert Arena.root
    { label := .new root .active
      parent := none
      children := []
      defaultPermission := .disabled
      defaultAbsorbed := .nothing }
  bytes := .ofSize size (Slots.empty.insert Arena.root (.covered .active .nothing))
  foreignSkipping := settings.foreignSkipping
  mergeSlack := settings.mergeSlack
  runsAtLastMerge := 1

/-- How many bytes the allocation has. -/
def size (t : Tree) : Nat := t.bytes.size

/-- The tag that the allocation was made with. -/
def owner? (t : Tree) : Option Tag := (t.arena.get? Arena.root).map Node.tag

/-- The tag is one of the allocation's. -/
def contains (t : Tree) (tag : Tag) : Bool := t.tags.contains tag

/-- The index of a tag, needed for an operation. -/
def requireTag (t : Tree) (tag : Tag) (op : Operation) : Except Error Nat :=
  match t.tags.index? tag with
  | some i => .ok i
  | none => .error (.invalidProvenance ⟨op, some (.unknownTag tag)⟩)

/-- Whether a range lies inside the allocation, needed for an operation. -/
def requireRange (t : Tree) (r : ByteRange) (op : Operation) : Except Error Unit :=
  match r.stop? with
  | some stop =>
    if stop ≤ t.size then .ok () else .error (.outOfBounds ⟨op, some (.rangeExceeds r t.size)⟩)
  | none => .error (.outOfBounds ⟨op, some (.rangeExceeds r t.size)⟩)

/-- The state of the node with this index at an offset. -/
def stateAt (t : Tree) (i offset : Nat) : Except Fault ByteState :=
  (t.arena.look ((t.bytes.valueAt? offset).getD .empty) i).map Prod.snd

/-- The state of a tag at an offset of the allocation. -/
def stateOf (t : Tree) (tag : Tag) (offset : Nat) : Except Failure ByteState :=
  match t.requireTag tag .inspect with
  | .error e => .error (.error e)
  | .ok i =>
    match t.requireRange ⟨offset, 1⟩ .inspect with
    | .error e => .error (.error e)
    | .ok () => (t.stateAt i offset).mapError .fault

/-- The states of a tag over the bytes of a range, cut to the allocation, with equal neighbours
joined; `none` where the tag is not one of the allocation's. -/
def survey (t : Tree) (tag : Tag) (r : ByteRange) :
    Except Fault (Option (List (Element ByteState))) :=
  match t.tags.index? tag with
  | none => .ok none
  | some i =>
    let inside := (t.bytes.carve (.ofSpan r.start (min r.stop t.size))).inside
    let states := inside.mapM fun run => do
      let (_, s) ← t.arena.look run.value i
      return (⟨run.length, s⟩ : Run ByteState)
    states.map fun runs => some (Run.elements r.start (Run.merge runs))

/-- Equal neighbours are joined once the map has gained as many runs as it may. -/
def tidy (t : Tree) : Except Fault Tree :=
  match Word.add t.runsAtLastMerge t.mergeSlack with
  | .error f => .error f
  | .ok limit =>
    if limit ≤ t.bytes.runCount then
      let bytes := t.bytes.merge
      .ok { t with bytes := bytes, runsAtLastMerge := bytes.runCount }
    else .ok t

/-- Lowers the absorption of a node to a limit, at every byte and by default. -/
def weakenNode (limit : Absorption) (t : Tree) (i : Nat) : Tree :=
  { t with
    arena := t.arena.modify i (.weaken limit)
    bytes := t.bytes.map (·.modify i (.weaken limit)) }

/-- Lowers the absorption of a node and of everything above it.  A node must not be known to
absorb more than its children do. -/
def weakenFrom (t : Tree) (i : Nat) (limit : Absorption) : Tree :=
  (t.arena.lineage i).foldl (weakenNode limit) t

/-- Forgets what a tag and everything above it are known to absorb, for the tag is about to be
protected, and a protected reserved tag reacts to foreign reads. -/
def resetAbsorption (t : Tree) (tag : Tag) : Except Error Tree :=
  (t.requireTag tag .protect).map (t.weakenFrom · .nothing)

/-- The ancestor `depth` steps above a tag. -/
def ancestor? (t : Tree) (tag : Tag) (depth : Nat) : Option Nat :=
  match t.tags.index? tag with
  | none => none
  | some i => (t.arena.lineage i)[depth]?

/-- One more name for the ancestor `depth` steps above a tag. -/
def name (t : Tree) (tag : Tag) (depth : Nat) (name : String) : Except Error Tree :=
  match t.ancestor? tag depth with
  | none => .error (.invalidProvenance ⟨.inspect, some (.noAncestor tag depth)⟩)
  | some i => .ok { t with
      arena := t.arena.modify i fun n => { n with label := n.label.named name } }

/-! ## 4. What an operation needs -/

theorem requireTag_eq_ok_iff {t : Tree} {tag : Tag} {op : Operation} {i : Nat} :
    t.requireTag tag op = .ok i ↔ t.tags.index? tag = some i := by
  unfold requireTag
  split <;> simp_all

/-- The only thing that can be wrong with a tag is that the allocation does not know it. -/
theorem requireTag_eq_error_iff {t : Tree} {tag : Tag} {op : Operation} {e : Error} :
    t.requireTag tag op = .error e ↔
      tag ∉ t.tags.keys ∧ e = .invalidProvenance ⟨op, some (.unknownTag tag)⟩ := by
  rw [← Registry.index?_eq_none_iff]
  unfold requireTag
  split
  · simp_all
  · simp_all [eq_comm (a := e)]

/-- A range is inside when its end is a word and no further than the allocation's. -/
theorem requireRange_eq_ok_iff {t : Tree} {r : ByteRange} {op : Operation} :
    t.requireRange r op = .ok () ↔ r.stop < Word.limit ∧ r.stop ≤ t.size := by
  unfold requireRange ByteRange.stop? ByteRange.stop Word.add?
  grind

/-! ## 5. New trees -/

@[simp] theorem size_new (root : Tag) (size : Nat) (settings : Settings) :
    (new root size settings).size = size := by
  unfold Tree.size new RunMap.ofSize RunMap.size
  split
  · rename_i h
    simp [Run.total, h]
  · simp [Run.total]

@[simp] theorem owner?_new (root : Tag) (size : Nat) (settings : Settings) :
    (new root size settings).owner? = some root := by
  simp [owner?, new, Slots.get?_insert, Node.tag, Label.new]

end Tree

end TreeBorrows
