/-
# Accesses

An access is carried out in two passes over the runs of its range.  The first (`plan`) follows
the route of the access through every run and works out the new states, or finds the first
conflict; the second (`settle`) writes the new states back.  So a rejected access changes no
state: all it leaves behind is the division of the runs at the ends of its range.
-/
import TreeBorrows.Outcome
import TreeBorrows.Tree.Route

namespace TreeBorrows

/-- An access through a tag of a tree. -/
structure Access where
  tag : Tag
  range : ByteRange
  kind : AccessKind
  cause : Cause
deriving DecidableEq

/-- The new state of a node in one run. -/
structure Update where
  index : Nat
  state : ByteState
  transition : Transition
  isForeign : Bool
deriving DecidableEq

/-- The node that stands against an access, and what it may do where it does. -/
structure Clash where
  conflict : Conflict
  conflicting : Label
  before : Permission
deriving DecidableEq

/-! ## 1. One run -/

/-- The new state of a visited node, `none` if nothing changes, or the clash. -/
def Visit.update? (v : Visit) (kind : AccessKind) (protectedTag : Bool) :
    Except Clash (Option Update) :=
  match v.state.access kind v.position protectedTag with
  | .error c => .error ⟨c, v.node.label, v.state.permission⟩
  | .ok (s, t) =>
    .ok (if s = v.state then none else some ⟨v.index, s, t, v.position.isForeign⟩)

/-- The violation that a clash in an access amounts to, at an offset. -/
def Clash.violation (c : Clash) (ctx : Context) (accessed : Label) (cause : Cause)
    (offset : Nat) : Violation where
  conflict := c.conflict
  alloc := ctx.alloc
  offset := offset
  conflicting := c.conflicting
  cause := cause
  accessed := accessed
  before := c.before
  after := c.conflict.permissionAfter?

namespace Tree

/-- The skipping that a tree is set to: none at all, or wherever nothing would change. -/
def skips (t : Tree) (kind : AccessKind) (s : ByteState) (rel : Relatedness) : Bool :=
  t.foreignSkipping && s.isSkippable kind rel

/-- The new state at one stop of a route, with every failure in its final form. -/
def planVisit (ctx : Context) (a : Access) (accessed : Label) (offset : Nat) :
    Except Fault Visit → Except Failure (Option Update)
  | .error f => .error (.fault f)
  | .ok v =>
    (v.update? a.kind (ctx.isProtected v.node.tag)).mapError fun c =>
      .error (.aliasing (c.violation ctx accessed a.cause offset))

/-- The new states in one run, in the order of the visits. -/
def planElement (t : Tree) (ctx : Context) (a : Access) (start : Nat) (accessed : Label)
    (e : Element ByteStates) : Except Failure (List Update) :=
  ((t.arena.route e.value (t.skips a.kind) start).mapM (planVisit ctx a accessed e.start)).map
    List.reduceOption

/-! ## 2. All runs of a range -/

/-- The first pass: the new states for each run of the range, in order.  The tree it leaves is
divided at the ends of the range. -/
def plan (t : Tree) (ctx : Context) (a : Access) : Outcome Tree (List (List Update)) :=
  match t.requireTag a.tag a.cause.operation with
  | .error e => .error t e
  | .ok start =>
    match t.requireRange a.range a.cause.operation with
    | .error e => .error t e
    | .ok () =>
      if a.range.isEmpty then .ok t []
      else
        match t.arena.get? start, t.bytes.checkRange a.range with
        | none, _ => .fault t .missingNode
        | _, .error f => .fault t f
        | some node, .ok () =>
          { state := { t with bytes := t.bytes.split a.range }
            log := []
            result := (t.bytes.inside a.range).mapM (t.planElement ctx a start node.label) }

/-- The states kept in a run after its updates. -/
def applyUpdates (states : ByteStates) (updates : List Update) : ByteStates :=
  updates.foldl (fun s u => s.insert u.index u.state) states

/-- The messages about the updates of one run: one for each tracked tag whose permission
changes. -/
def updateMessages (t : Tree) (ctx : Context) (cause : Cause) (range : ByteRange)
    (updates : List Update) : List Message :=
  updates.filterMap fun u =>
    if u.transition.isIdle then none
    else
      match t.arena.get? u.index with
      | none => none
      | some node =>
        if ctx.settings.tracks node.tag then
          some (.transitioned node.tag u.transition cause u.isForeign range)
        else none

/-- Joins equal neighbours if it is time to; what was done before stays done in any case. -/
def tidied (t : Tree) : Outcome Tree Unit :=
  match t.tidy with
  | .error f => .fault t f
  | .ok t => .ok t ()

/-- The second pass: writes back what the first one worked out. -/
def settle (t : Tree) (ctx : Context) (range : ByteRange) (cause : Cause)
    (pending : List (List Update)) : Outcome Tree Unit :=
  match t.bytes.checkRange range with
  | .error f => .fault t f
  | .ok () =>
    let messages := (t.bytes.inside range).zip pending |>.flatMap fun (e, updates) =>
      t.updateMessages ctx cause e.range updates
    { t with bytes := t.bytes.change range applyUpdates pending }.tidied.after messages

/-- Carries out an access: every byte of the range is updated, or nothing changes and the first
conflict is reported. -/
def access (t : Tree) (ctx : Context) (a : Access) : Outcome Tree Unit :=
  ((t.plan ctx a).andThen fun t pending => t.settle ctx a.range a.cause pending).after
    [.accessed a.cause a.tag ctx.alloc a.range]

/-! ## 3. Freeing -/

/-- The oldest strongly protected node of a tree. -/
def stronglyProtected? (t : Tree) (ctx : Context) : Option (Nat × Node) :=
  t.arena.toList.find? fun (_, n) => ctx.protectors.get? n.tag = some .strong

/-- Whether a tag may free the allocation.  Freeing acts as a write to all of its bytes, and is
forbidden while one of its tags is strongly protected. -/
def free (t : Tree) (ctx : Context) (tag : Tag) : Outcome Tree Unit :=
  let range : ByteRange := ⟨0, t.size⟩
  (t.plan ctx ⟨tag, range, .write, .dealloc⟩).andThen fun t pending =>
    match t.stronglyProtected? ctx with
    | none => t.settle ctx range .dealloc pending
    | some (i, node) =>
      match t.requireTag tag .dealloc with
      | .error e => .error t e
      | .ok j =>
        match t.arena.get? j, t.stateAt i 0 with
        | none, _ => .fault t .missingNode
        | _, .error f => .fault t f
        | some accessed, .ok s =>
          let clash : Clash := ⟨.protectedFree, node.label, s.permission⟩
          .error t (.aliasing (clash.violation ctx accessed.label .dealloc 0))

end Tree

end TreeBorrows
