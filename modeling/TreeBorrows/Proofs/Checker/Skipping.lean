/-
# Skipping is invisible

Foreign accesses may pass over subtrees that are known to absorb them.  Whether they do is a
setting of the checker, and it decides nothing that a program could see: in every run, every event
answers or fails in the same way, and every tag ends up in the same state at every byte
(`skipping_invisible`).

The reason is the invariant of `Proofs/Checker/Reachable.lean`.  With it, each event commutes with
the change of that setting (`perform_withSkipping`), and so do whole runs.
-/
import TreeBorrows.Proofs.Checker.Reachable
import TreeBorrows.Proofs.Tree.Skipping

namespace TreeBorrows

/-! ## 1. Another view of the values of a table -/

namespace Table

variable {K V W : Type} [DecidableEq K]

/-- The table with each value seen in another way. -/
def mapValues (g : V → W) (t : Table K V) : Table K W := ⟨t.entries.map fun e => (e.1, g e.2)⟩

theorem get?_mapValues (g : V → W) (t : Table K V) (k : K) :
    (t.mapValues g).get? k = (t.get? k).map g := by
  show (t.entries.map fun e => (e.1, g e.2)).lookup k = (t.entries.lookup k).map g
  induction t.entries with
  | nil => rfl
  | cons e rest ih =>
    rw [List.map_cons, List.lookup_cons, List.lookup_cons]
    cases k == e.1 with
    | true => rfl
    | false => exact ih

theorem mapValues_insert (g : V → W) (t : Table K V) (k : K) (v : V) :
    (t.insert k v).mapValues g = (t.mapValues g).insert k (g v) := by
  obtain ⟨entries⟩ := t
  refine congrArg Table.mk ?_
  show (insert.put k v entries).map _ = insert.put k (g v) (entries.map _)
  induction entries with
  | nil => rfl
  | cons e rest ih =>
    rw [insert.put, List.map_cons, insert.put]
    split
    · rfl
    · rw [List.map_cons, ih]

theorem mapValues_erase (g : V → W) (t : Table K V) (k : K) :
    (t.erase k).mapValues g = (t.mapValues g).erase k := by
  refine congrArg Table.mk ?_
  show (t.entries.filter _).map _ = (t.entries.map _).filter _
  rw [List.filter_map]
  rfl

end Table

/-! ## 2. The checker with another choice -/

/-- The allocation with another choice about skipping. -/
def Allocation.withSkipping (b : Bool) (x : Allocation) : Allocation :=
  { x with tree := x.tree.withSkipping b }

namespace Checker

/-- The checker with another choice about skipping, for itself and for all of its trees. -/
def withSkipping (b : Bool) (k : Checker) : Checker :=
  { k with
    settings := { k.settings with foreignSkipping := b }
    allocations := k.allocations.mapValues (Allocation.withSkipping b) }

variable {k : Checker}

theorem get?_withSkipping (b : Bool) (k : Checker) (a : AllocationId) :
    (k.withSkipping b).allocations.get? a =
      (k.allocations.get? a).map (Allocation.withSkipping b) :=
  Table.get?_mapValues _ k.allocations a

theorem requireLive_withSkipping (b : Bool) (k : Checker) (p : Pointer) (op : Operation) :
    (k.withSkipping b).requireLive p op =
      (k.requireLive p op).map (Allocation.withSkipping b) := by
  unfold requireLive
  rw [get?_withSkipping]
  cases k.allocations.get? p.alloc with
  | none => rfl
  | some x => rfl

theorem putTree_withSkipping (b : Bool) (k : Checker) (a : AllocationId) (x : Allocation)
    (t : Tree) :
    (k.withSkipping b).putTree a (x.withSkipping b) (t.withSkipping b) =
      (k.putTree a x t).withSkipping b := by
  have hinsert : (k.withSkipping b).allocations.insert a ⟨x.size, t.withSkipping b⟩ =
      (k.allocations.insert a ⟨x.size, t⟩).mapValues (Allocation.withSkipping b) :=
    (Table.mapValues_insert (Allocation.withSkipping b) k.allocations a ⟨x.size, t⟩).symm
  show { k.withSkipping b with
    allocations := (k.withSkipping b).allocations.insert a ⟨x.size, t.withSkipping b⟩ } = _
  rw [hinsert]
  rfl

/-- No question about the state of a tag is answered differently. -/
theorem stateOf_withSkipping (b : Bool) (k : Checker) (p : Pointer) (o : Nat) :
    (k.withSkipping b).stateOf p o = k.stateOf p o := by
  unfold stateOf askTree
  rw [requireLive_withSkipping]
  cases k.requireLive p .inspect with
  | error e => rfl
  | ok x => rfl

/-! ## 3. Operations on one tree -/

/-- An operation that commutes with the choice on each tree commutes with it on the checker. -/
theorem onTree_withSkipping {α : Type} (b : Bool) {p : Pointer} {op : Operation}
    {f : Context → Tree → Outcome Tree α}
    (hf : ∀ {x}, k.allocations.get? p.alloc = some x →
      f ((k.context p.alloc).withSkipping b) (x.tree.withSkipping b) =
        (f (k.context p.alloc) x.tree).mapState (Tree.withSkipping b)) :
    (k.withSkipping b).onTree p op f = (k.onTree p op f).mapState (withSkipping b) := by
  unfold onTree requireLive
  rw [get?_withSkipping]
  cases hx : k.allocations.get? p.alloc with
  | none => rfl
  | some x =>
    have hput : ∀ o : Outcome Tree α,
        (o.mapState (Tree.withSkipping b)).mapState ((k.withSkipping b).putTree p.alloc
          (x.withSkipping b)) =
        (o.mapState (k.putTree p.alloc x)).mapState (withSkipping b) := by
      intro o
      unfold Outcome.mapState
      rw [putTree_withSkipping]
    exact (congrArg _ (hf hx)).trans (hput _)

theorem editTree_withSkipping (b : Bool) (k : Checker) (p : Pointer) (op : Operation)
    {f : Tree → Except Error Tree}
    (hf : ∀ t : Tree, f (t.withSkipping b) = (f t).map (Tree.withSkipping b)) :
    (k.withSkipping b).editTree p op f = (k.editTree p op f).map (withSkipping b) := by
  unfold editTree
  rw [requireLive_withSkipping]
  cases k.requireLive p op with
  | error e => rfl
  | ok x =>
    show (f (x.tree.withSkipping b)).map _ = ((f x.tree).map _).map _
    rw [hf]
    cases f x.tree with
    | error e => rfl
    | ok t => exact congrArg Except.ok (putTree_withSkipping b k p.alloc x t)

theorem onTree_access_withSkipping (h : k.Sound) (b : Bool) (p : Pointer) (op : Operation)
    (range : ByteRange) (kind : AccessKind) (cause : Cause) :
    ((k.withSkipping b).onTree p op fun ctx t => t.access ctx ⟨p.tag, range, kind, cause⟩) =
      (k.onTree p op fun ctx t => t.access ctx ⟨p.tag, range, kind, cause⟩).mapState
        (withSkipping b) :=
  onTree_withSkipping b fun hx => Tree.access_withSkipping (h.tree hx) b _

/-! ## 4. Allocations -/

theorem allocate_withSkipping (b : Bool) (k : Checker) (size : Nat) :
    (k.withSkipping b).allocate size = (k.allocate size).mapState (withSkipping b) := by
  have hinsert : (k.withSkipping b).allocations.insert ⟨k.nextAlloc⟩
      ⟨size, .new ⟨k.nextTag⟩ size (k.withSkipping b).settings⟩ =
        (k.allocations.insert ⟨k.nextAlloc⟩ ⟨size, .new ⟨k.nextTag⟩ size k.settings⟩).mapValues
          (Allocation.withSkipping b) :=
    (Table.mapValues_insert (Allocation.withSkipping b) k.allocations ⟨k.nextAlloc⟩
      ⟨size, .new ⟨k.nextTag⟩ size k.settings⟩).symm
  show Outcome.mk { k.withSkipping b with
    nextAlloc := k.nextAlloc + 1
    nextTag := k.nextTag + 1
    allocations := (k.withSkipping b).allocations.insert ⟨k.nextAlloc⟩
      ⟨size, .new ⟨k.nextTag⟩ size (k.withSkipping b).settings⟩ } _ _ = _
  rw [hinsert]
  rfl

theorem drop_withSkipping (b : Bool) (k : Checker) (a : AllocationId) :
    (k.withSkipping b).drop a = (k.drop a).mapState (withSkipping b) := by
  have hlive : (k.withSkipping b).allocations.contains a = k.allocations.contains a := by
    rw [Table.contains, get?_withSkipping, Option.isSome_map]
    rfl
  have herase : (k.withSkipping b).allocations.erase a =
      (k.allocations.erase a).mapValues (Allocation.withSkipping b) :=
    (Table.mapValues_erase _ _ _).symm
  unfold drop
  rw [hlive, herase]
  split
  · rfl
  · rfl

theorem free_withSkipping (h : k.Sound) (b : Bool) (p : Pointer) :
    (k.withSkipping b).free p = (k.free p).mapState (withSkipping b) := by
  unfold free
  rw [onTree_withSkipping b fun hx => Tree.free_withSkipping (h.tree hx) b p.tag]
  exact Outcome.mapState_andThen fun _ _ => drop_withSkipping b _ p.alloc

/-! ## 5. Derived pointers and names -/

theorem keepTag_withSkipping (h : k.Sound) (b : Bool) (p : Pointer) (range : ByteRange)
    (d : Derivation) :
    (k.withSkipping b).keepTag p range d = (k.keepTag p range d).mapState (withSkipping b) := by
  unfold keepTag
  rw [onTree_access_withSkipping h b]
  exact Outcome.mapState_andThen fun _ _ => rfl

theorem newTag_withSkipping (h : k.Sound) (b : Bool) (p : Pointer) (range : ByteRange)
    (permission : Permission) (isProtected : Bool) :
    (k.withSkipping b).newTag p range permission isProtected =
      (k.newTag p range permission isProtected).mapState (withSkipping b) := by
  have hfresh : (k.withSkipping b).freshTag = (k.freshTag.1.withSkipping b, k.freshTag.2) := rfl
  have hs : k.freshTag.1.Sound := h.congr rfl rfl (Nat.le_succ _)
  unfold newTag
  rw [hfresh]
  dsimp only
  rw [onTree_withSkipping b fun hx => Tree.insertChild_withSkipping (hs.tree hx) b _]
  exact Outcome.mapState_andThen fun _ _ => rfl

theorem reborrow_withSkipping (h : k.Sound) (b : Bool) (p : Pointer) (range : ByteRange)
    (d : Derivation) (cell isProtected : Bool) :
    (k.withSkipping b).reborrow p range d cell isProtected =
      (k.reborrow p range d cell isProtected).mapState (withSkipping b) := by
  unfold reborrow
  rw [requireLive_withSkipping]
  cases k.requireLive p .retag with
  | error e => rfl
  | ok x =>
    cases d.permission? cell with
    | none => exact keepTag_withSkipping h b p range d
    | some permission => exact newTag_withSkipping h b p range permission isProtected

theorem retag_withSkipping (h : k.Sound) (b : Bool) (p : Pointer) (range : ByteRange)
    (d : Derivation) (cell : Bool) (kind : Protection) :
    (k.withSkipping b).retag p range d cell kind =
      (k.retag p range d cell kind).mapState (withSkipping b) := by
  have hcalls : (k.withSkipping b).calls = k.calls := rfl
  unfold retag
  dsimp only
  rw [hcalls, reborrow_withSkipping h b]
  refine congrArg (Outcome.after _) (Outcome.mapState_andThen fun t? _ => ?_)
  cases t? with
  | none => rfl
  | some tag =>
    dsimp only
    split
    · rfl
    · rfl

theorem name_withSkipping (b : Bool) (k : Checker) (p : Pointer) (s : String) :
    (k.withSkipping b).name p s = (k.name p s).mapState (withSkipping b) := by
  unfold name nameAncestor
  rw [editTree_withSkipping b k p .inspect fun t => Tree.name_withSkipping b t p.tag 0 s]
  cases k.editTree p .inspect (·.name p.tag 0 s) with
  | error e => rfl
  | ok k' => rfl

/-! ## 6. Calls -/

theorem protect_withSkipping (b : Bool) (k : Checker) (call : CallId) (p : Pointer) :
    (k.withSkipping b).protect call p =
      ((k.protect call p).1.withSkipping b, (k.protect call p).2) := by
  unfold protect prepareProtection
  rw [editTree_withSkipping b k p .protect fun t => Tree.resetAbsorption_withSkipping b t p.tag]
  cases k.editTree p .protect (·.resetAbsorption p.tag) with
  | error e => rfl
  | ok k' => rfl

theorem protectAll_withSkipping (b : Bool) (k : Checker) (call : CallId) (ps : List Pointer) :
    (k.withSkipping b).protectAll call ps =
      ((k.protectAll call ps).1.withSkipping b, (k.protectAll call ps).2) := by
  induction ps generalizing k with
  | nil => rfl
  | cons p ps ih =>
    rw [protectAll, protect_withSkipping, protectAll]
    dsimp only
    rw [ih]

theorem enter_withSkipping (b : Bool) (k : Checker) (call : CallId) (ps : List Pointer) :
    (k.withSkipping b).enter call ps = (k.enter call ps).mapState (withSkipping b) := by
  have hpush : { k.withSkipping b with calls := (k.withSkipping b).calls.push call } =
      withSkipping b { k with calls := k.calls.push call } := rfl
  unfold enter
  rw [hpush, protectAll_withSkipping]
  rfl

theorem releaseAll_withSkipping (b : Bool) (k : Checker) (ps : List Pointer) :
    (k.withSkipping b).releaseAll ps =
      ((k.releaseAll ps).1.withSkipping b, (k.releaseAll ps).2) := by
  induction ps generalizing k with
  | nil => rfl
  | cons p ps ih =>
    have hrelease : (k.withSkipping b).release p =
        ((k.release p).1.withSkipping b, (k.release p).2) := rfl
    rw [releaseAll, hrelease, releaseAll]
    dsimp only
    rw [ih]

theorem endFrames_withSkipping (b : Bool) (k : Checker) (call : CallId) (fs : List Frame) :
    (k.withSkipping b).endFrames call fs =
      ((k.endFrames call fs).1.withSkipping b, (k.endFrames call fs).2) := by
  induction fs generalizing k with
  | nil => rfl
  | cons f fs ih =>
    rw [endFrames, releaseAll_withSkipping, endFrames]
    dsimp only
    rw [ih]

theorem exit_withSkipping (b : Bool) (k : Checker) (call : CallId) :
    (k.withSkipping b).exit call = (k.exit call).mapState (withSkipping b) := by
  have hcalls : (k.withSkipping b).calls = k.calls := rfl
  unfold exit
  rw [hcalls]
  cases k.calls.popThrough? call with
  | none => rfl
  | some r =>
    have hpop : { k.withSkipping b with calls := r.2 } = withSkipping b { k with calls := r.2 } :=
      rfl
    dsimp only
    rw [hpop, endFrames_withSkipping]
    rfl

theorem openCall_withSkipping (b : Bool) (k : Checker) (ps : List Pointer) :
    (k.withSkipping b).openCall ps = (k.openCall ps).mapState (withSkipping b) := by
  have hfresh : (k.withSkipping b).freshCall = (k.freshCall.1.withSkipping b, k.freshCall.2) :=
    rfl
  unfold openCall
  rw [hfresh]
  dsimp only
  rw [enter_withSkipping]
  exact Outcome.mapState_andThen fun _ _ => rfl

/-! ## 7. Events and runs -/

/-- **Every event commutes with the choice about skipping.** -/
theorem perform_withSkipping (h : k.Sound) (b : Bool) (e : Event) :
    (k.withSkipping b).perform e = (k.perform e).mapState (withSkipping b) := by
  cases e with
  | allocate size => exact congrArg (Outcome.mapAnswer _) (allocate_withSkipping b k size)
  | drop a => exact congrArg (Outcome.mapAnswer _) (drop_withSkipping b k a)
  | free p => exact congrArg (Outcome.mapAnswer _) (free_withSkipping h b p)
  | derive p range d cell =>
    exact congrArg (Outcome.mapAnswer _) (retag_withSkipping h b p range d cell .none)
  | retag p range d cell kind =>
    exact congrArg (Outcome.mapAnswer _) (retag_withSkipping h b p range d cell kind)
  | access p range kind =>
    exact congrArg (Outcome.mapAnswer _) (onTree_access_withSkipping h b p _ range kind _)
  | drawCall => rfl
  | enter call ps => exact congrArg (Outcome.mapAnswer _) (enter_withSkipping b k call ps)
  | exit call => exact congrArg (Outcome.mapAnswer _) (exit_withSkipping b k call)
  | openCall ps =>
    exact congrArg (Outcome.mapAnswer Answer.call) (openCall_withSkipping b k ps)
  | name p s => exact congrArg (Outcome.mapAnswer _) (name_withSkipping b k p s)
  | permissionAt p o =>
    have hask : (k.withSkipping b).permissionAt p o = k.permissionAt p o := by
      rw [permissionAt, stateOf_withSkipping]
      rfl
    show Outcome.mk (k.withSkipping b) [] _ = _
    rw [hask]
    rfl

theorem run_withSkipping (h : k.Sound) (b : Bool) (es : List Event) :
    (k.withSkipping b).run es = (k.run es).withSkipping b := by
  induction es generalizing k with
  | nil => rfl
  | cons e es ih =>
    rw [run_cons, run_cons, perform_withSkipping h b e]
    exact ih (h.perform e)

theorem outcomes_withSkipping (h : k.Sound) (b : Bool) (es : List Event) :
    (k.withSkipping b).outcomes es = (k.outcomes es).map (Outcome.mapState (withSkipping b)) := by
  induction es generalizing k with
  | nil => rfl
  | cons e es ih =>
    rw [outcomes, outcomes, List.map_cons, perform_withSkipping h b e]
    exact congrArg _ (ih (h.perform e))

/-- **Skipping is invisible.**  With it and without it, all events of a run send the same messages
and have the same answers, errors and faults, and afterwards every tag is in the same state at
every offset. -/
theorem skipping_invisible (settings : Settings) (es : List Event) :
    (((new { settings with foreignSkipping := true }).outcomes es).map fun o =>
        (o.log, o.result)) =
      (((new { settings with foreignSkipping := false }).outcomes es).map fun o =>
        (o.log, o.result)) ∧
    ∀ p o, ((new { settings with foreignSkipping := true }).run es).stateOf p o =
      ((new { settings with foreignSkipping := false }).run es).stateOf p o := by
  have hs := sound_new settings
  have hon : new { settings with foreignSkipping := true } = (new settings).withSkipping true :=
    rfl
  have hoff : new { settings with foreignSkipping := false } = (new settings).withSkipping false :=
    rfl
  rw [hon, hoff]
  constructor
  · rw [outcomes_withSkipping hs, outcomes_withSkipping hs, List.map_map, List.map_map]
    rfl
  · intro p o
    rw [run_withSkipping hs, run_withSkipping hs, stateOf_withSkipping, stateOf_withSkipping]

end Checker

end TreeBorrows
