/-
# Nothing a program does makes the checker fault

Events come with any arguments: allocations of no bytes, ranges that are empty, leave their
allocation or end beyond the words, tags of other allocations, pointers to what is gone, calls that
are not active.  All of this is answered or refused.  A fault is left to two things that the
checker itself would have to run out of: words for the number of runs to join at, and indices for
the tags of a tree (`faultless`).

The events are taken apart down to the operations on one tree (`Tree.faultless_access` and the
others), whose needs hold in every state: trees are sound (`Checker.Sound`), and they keep the room
for joining that they were allocated with, which is what two runs alike say of each other
(`Checker.Alike`), and so of themselves.
-/
import Mathlib.Algebra.Group.Nat.Defs
import Mathlib.Data.List.Perm.Subperm
import Mathlib.Order.Basic
import TreeBorrows.Proofs.Checker.Grants
import TreeBorrows.Proofs.Checker.Merging
import TreeBorrows.Proofs.RunMap.Row
import TreeBorrows.Proofs.Tree.Faultless

namespace TreeBorrows

namespace Checker

open Outcome (Faultless)

variable {k : Checker}

/-! ## 1. Operations on one tree -/

theorem isForward_of_requireLive {p : Pointer} {op : Operation} {e : Error}
    (h : k.requireLive p op = .error e) : e.IsForward := by
  unfold requireLive at h
  split at h
  · cases h
  · obtain rfl := Except.error.inj h
    trivial

theorem faultless_onTree {α : Type} {p : Pointer} {op : Operation}
    {f : Context → Tree → Outcome Tree α}
    (hf : ∀ {x}, k.allocations.get? p.alloc = some x →
      (f (k.context p.alloc) x.tree).Faultless) : (k.onTree p op f).Faultless := by
  unfold onTree
  cases hlive : k.requireLive p op with
  | error e => exact .error k (isForward_of_requireLive hlive)
  | ok x =>
    refine (hf ?_).mapState _
    unfold requireLive at hlive
    split at hlive
    · next y hy => rw [hy, Except.ok.inj hlive]
    · cases hlive

theorem isForward_of_editTree {p : Pointer} {op : Operation} {f : Tree → Except Error Tree}
    (hf : ∀ {t e}, f t = .error e → e.IsForward) {e : Error}
    (h : k.editTree p op f = .error e) : e.IsForward := by
  unfold editTree at h
  split at h
  · next hlive =>
    obtain rfl := Except.error.inj h
    exact isForward_of_requireLive hlive
  · next x _ =>
    cases ht : f x.tree with
    | error e' =>
      rw [ht] at h
      obtain rfl : e' = e := Except.error.inj h
      exact hf ht
    | ok t =>
      rw [ht] at h
      cases h

/-! ## 2. What the trees have left -/

/-- Every tree has room for joining its runs, and an index for another tag. -/
structure HasRoom (k : Checker) : Prop where
  tree : ∀ {a x}, k.allocations.get? a = some x → x.tree.HasRoom
  index : ∀ {a x}, k.allocations.get? a = some x → x.tree.tags.size < Registry.indexLimit

/-! ## 3. Allocations -/

private theorem forall_mem_ite_isForward {m : Message} (h : m.IsForward) {c : Prop}
    [Decidable c] : ∀ m' ∈ (if c then [m] else []), m'.IsForward := by
  split
  · exact List.forall_mem_singleton.mpr h
  · exact List.forall_mem_nil _

theorem faultless_allocate (k : Checker) (size : Nat) : (k.allocate size).Faultless where
  ne_fault _ h := nomatch h
  log_forward := List.forall_mem_cons.mpr ⟨trivial, forall_mem_ite_isForward (by trivial)⟩
  error_forward _ h := nomatch h

theorem faultless_drop (k : Checker) (a : AllocationId) : (k.drop a).Faultless := by
  unfold drop
  split
  · exact (Faultless.ok _ ()).after (List.forall_mem_singleton.mpr trivial)
  · exact .error k trivial

theorem faultless_free (h : k.Sound) (hroom : k.HasRoom) (p : Pointer) :
    (k.free p).Faultless := by
  refine (faultless_onTree fun hx => ?_).andThen fun _ _ => faultless_drop _ _
  exact Tree.faultless_free (h.tree hx) (hroom.tree hx) p.tag

/-! ## 4. Pointers -/

theorem faultless_onTree_access (h : k.Sound) (hroom : k.HasRoom) (p : Pointer) (op : Operation)
    (range : ByteRange) (kind : AccessKind) (cause : Cause) :
    (k.onTree p op fun ctx t => t.access ctx ⟨p.tag, range, kind, cause⟩).Faultless :=
  faultless_onTree fun hx => Tree.faultless_access (h.tree hx) (hroom.tree hx) _

theorem faultless_keepTag (h : k.Sound) (hroom : k.HasRoom) (p : Pointer) (range : ByteRange)
    (d : Derivation) : (k.keepTag p range d).Faultless := by
  refine (faultless_onTree_access h hroom p _ range _ _).andThen fun _ _ => ?_
  exact (Faultless.ok _ _).after (List.forall_mem_singleton.mpr trivial)

theorem faultless_newTag (h : k.Sound) (hroom : k.HasRoom) (p : Pointer) (range : ByteRange)
    (permission : Permission) (isProtected : Bool) :
    (k.newTag p range permission isProtected).Faultless := by
  unfold newTag
  refine (faultless_onTree (k := k.freshTag.1) fun {x} hx => ?_).andThen fun _ _ => ?_
  · have hx : k.allocations.get? p.alloc = some x := hx
    exact Tree.faultless_insertChild (h.tree hx) (hroom.tree hx) (hroom.index hx) _
  · refine (Faultless.ok _ _).after (List.forall_mem_cons.mpr ⟨trivial, ?_⟩)
    exact forall_mem_ite_isForward (by trivial)

theorem faultless_reborrow (h : k.Sound) (hroom : k.HasRoom) (p : Pointer) (range : ByteRange)
    (d : Derivation) (cell isProtected : Bool) :
    (k.reborrow p range d cell isProtected).Faultless := by
  unfold reborrow
  split
  · next hlive => exact .error k (isForward_of_requireLive hlive)
  · split
    · exact faultless_keepTag h hroom p range d
    · exact faultless_newTag h hroom p range _ isProtected

theorem faultless_holdTag (k : Checker) (p : Pointer) (kind : Protection) :
    (k.holdTag p kind).Faultless :=
  (Faultless.ok _ ()).after (List.forall_mem_singleton.mpr trivial)

theorem faultless_retag (h : k.Sound) (hroom : k.HasRoom) (p : Pointer) (range : ByteRange)
    (d : Derivation) (cell : Bool) (kind : Protection) :
    (k.retag p range d cell kind).Faultless := by
  refine Faultless.after ?_ (forall_mem_ite_isForward (by trivial))
  refine (faultless_reborrow h hroom p range d cell _).andThen fun tag? _ => ?_
  cases tag? with
  | none => exact .ok _ _
  | some tag =>
    dsimp only
    split
    · exact (faultless_holdTag _ _ kind).andThen fun _ _ => .ok _ _
    · exact .ok _ _

theorem faultless_name (k : Checker) (p : Pointer) (s : String) : (k.name p s).Faultless := by
  unfold name nameAncestor
  cases hedit : k.editTree p .inspect (·.name p.tag 0 s) with
  | ok k' => exact .ok k' ()
  | error e =>
    refine .error k (isForward_of_editTree (fun {t e} he => ?_) hedit)
    unfold Tree.name at he
    split at he
    · obtain rfl := Except.error.inj he
      trivial
    · cases he

theorem faultless_permissionAt (h : k.Sound) (p : Pointer) (o : Nat) :
    (k.perform (.permissionAt p o)).Faultless := by
  -- the answer is part of the state of the tag
  have hresult : ∀ f, (k.perform (.permissionAt p o)).result = .error f →
      k.stateOf p o = .error f := by
    intro f hf
    cases hstate : k.stateOf p o with
    | error f' => simpa [perform, permissionAt, hstate, Except.map] using hf
    | ok b => simp [perform, permissionAt, hstate, Except.map] at hf
  refine ⟨fun f hf => ?_, fun _ hm => absurd hm List.not_mem_nil, fun e he => ?_⟩
  · have hf := hresult _ hf
    unfold stateOf askTree requireLive at hf
    cases hx : k.allocations.get? p.alloc with
    | none => simp [hx] at hf
    | some x =>
      simp only [hx] at hf
      exact Tree.stateOf_ne_fault (h.tree hx) p.tag o f hf
  · have he := hresult _ he
    unfold stateOf askTree at he
    split at he
    · next hlive =>
      obtain rfl := Failure.error.inj (Except.error.inj he)
      exact isForward_of_requireLive hlive
    · exact Tree.isForward_of_stateOf he

/-! ## 5. Calls -/

theorem isForward_of_resetAbsorption {t : Tree} {tag : Tag} {e : Error}
    (h : t.resetAbsorption tag = .error e) : e.IsForward := by
  unfold Tree.resetAbsorption at h
  cases htag : t.requireTag tag .protect with
  | error e' =>
    rw [htag] at h
    obtain rfl : e' = e := Except.error.inj h
    exact Tree.isForward_of_requireTag htag
  | ok i =>
    rw [htag] at h
    cases h

theorem forward_protect (k : Checker) (call : CallId) (p : Pointer) :
    ∀ m ∈ (k.protect call p).2, m.IsForward := by
  unfold protect
  split
  · next he =>
    refine List.forall_mem_singleton.mpr ?_
    exact isForward_of_editTree (fun he => isForward_of_resetAbsorption he) he
  · exact forall_mem_ite_isForward (by trivial)

theorem forward_protectAll (k : Checker) (call : CallId) (ps : List Pointer) :
    ∀ m ∈ (k.protectAll call ps).2, m.IsForward := by
  induction ps generalizing k with
  | nil => exact List.forall_mem_nil _
  | cons p ps ih => exact List.forall_mem_append.mpr ⟨forward_protect k call p, ih _⟩

theorem forward_releaseAll (k : Checker) (ps : List Pointer) :
    ∀ m ∈ (k.releaseAll ps).2, m.IsForward := by
  induction ps generalizing k with
  | nil => exact List.forall_mem_nil _
  | cons p ps ih =>
    exact List.forall_mem_append.mpr ⟨forall_mem_ite_isForward (by trivial), ih _⟩

theorem forward_endFrames (k : Checker) (call : CallId) (fs : List Frame) :
    ∀ m ∈ (k.endFrames call fs).2, m.IsForward := by
  induction fs generalizing k with
  | nil => exact List.forall_mem_nil _
  | cons f fs ih =>
    have hunwinding : ∀ m ∈ (if f.call = call then [] else [Message.unwinding f.call call]),
        m.IsForward := by
      split
      · exact List.forall_mem_nil _
      · exact List.forall_mem_singleton.mpr trivial
    refine List.forall_mem_append.mpr ⟨List.forall_mem_append.mpr ⟨hunwinding, ?_⟩, ih _⟩
    exact forward_releaseAll k f.pointers

theorem faultless_enter (k : Checker) (call : CallId) (ps : List Pointer) :
    (k.enter call ps).Faultless :=
  (Faultless.ok _ ()).after (List.forall_mem_cons.mpr ⟨trivial, forward_protectAll _ call ps⟩)

theorem faultless_exit (k : Checker) (call : CallId) : (k.exit call).Faultless := by
  unfold exit
  split
  · exact (Faultless.ok _ ()).after (List.forall_mem_singleton.mpr trivial)
  · refine (Faultless.ok _ ()).after (List.forall_mem_append.mpr ⟨forward_endFrames _ call _, ?_⟩)
    exact List.forall_mem_singleton.mpr trivial

theorem faultless_openCall (k : Checker) (ps : List Pointer) : (k.openCall ps).Faultless := by
  unfold openCall
  exact (faultless_enter k.freshCall.1 k.freshCall.2 ps).andThen fun _ _ => .ok _ _

/-! ## 6. Events and runs -/

/-- **Every event is faultless** while the trees have room. -/
theorem faultless_perform (h : k.Sound) (hroom : k.HasRoom) (e : Event) :
    (k.perform e).Faultless := by
  cases e with
  | allocate size => exact (faultless_allocate k size).mapAnswer _
  | drop a => exact (faultless_drop k a).mapAnswer _
  | free p => exact (faultless_free h hroom p).mapAnswer _
  | derive p range d cell => exact (faultless_retag h hroom p range d cell .none).mapAnswer _
  | retag p range d cell kind => exact (faultless_retag h hroom p range d cell kind).mapAnswer _
  | access p range kind => exact (faultless_onTree_access h hroom p _ range kind _).mapAnswer _
  | drawCall => exact .ok _ _
  | enter call ps => exact (faultless_enter k call ps).mapAnswer _
  | exit call => exact (faultless_exit k call).mapAnswer _
  | openCall ps => exact (faultless_openCall k ps).mapAnswer _
  | name p s => exact (faultless_name k p s).mapAnswer _
  | permissionAt p o => exact faultless_permissionAt h p o

/-- Every tree keeps the room for joining that its allocation was made with. -/
theorem hasRoom_run {settings : Settings} {es : List Event}
    (hroom : ∀ size, .allocate size ∈ es → settings.RoomFor size) {a : AllocationId}
    {x : Allocation} (hx : ((new settings).run es).allocations.get? a = some x) :
    x.tree.HasRoom := by
  have hrun : ∀ k : Checker, k.Sound → Alike settings settings k k →
      Alike settings settings (k.run es) (k.run es) := by
    clear hx
    induction es with
    | nil => exact fun k _ halike => halike
    | cons e es ih =>
      intro k hs halike
      have hstep := halike.perform hs hs e fun size he => by
        have := hroom size (he ▸ List.mem_cons_self)
        exact ⟨this, this⟩
      refine ih (fun size hmem => ?_) _ (hs.perform e) hstep.state
      exact hroom size (List.mem_cons_of_mem e hmem)
  have halike := hrun _ (sound_new settings) (alike_new settings settings)
  rcases halike.get?_cases a with ⟨hnone, -⟩ | ⟨y, y', hy, -, hyy'⟩
  · cases hx.symm.trans hnone
  · obtain rfl := Option.some.inj (hx.symm.trans hy)
    exact hyy'.tree.room

/-- A tree has no more tags than were ever given out. -/
theorem Sound.size_tags_le (h : k.Sound) {a : AllocationId} {x : Allocation}
    (hx : k.allocations.get? a = some x) : x.tree.tags.size ≤ k.nextTag := by
  have hnodup : (x.tree.tags.keys.map Tag.number).Nodup := by
    refine (h.tree hx).nodup_tags.map fun s t hst => ?_
    cases s
    cases t
    exact congrArg Tag.mk hst
  have hsubset : x.tree.tags.keys.map Tag.number ⊆ List.range k.nextTag := by
    intro n hn
    obtain ⟨tag, htag, rfl⟩ := List.mem_map.mp hn
    exact List.mem_range.mpr (h.tag_lt hx htag)
  simpa [Registry.size] using (List.subperm_of_subset hnodup hsubset).length_le

/-- While fewer than `2 ^ 32` numbers of tags are given out, no tree runs out of indices. -/
theorem size_tags_lt {settings : Settings} {es : List Event}
    (hnext : ((new settings).run es).nextTag < 2 ^ 32) {pre : List Event} (hpre : pre <+: es)
    {a : AllocationId} {x : Allocation}
    (hx : ((new settings).run pre).allocations.get? a = some x) : x.tree.tags.size < 2 ^ 32 := by
  have hle := ((sound_new settings).run pre).size_tags_le hx
  obtain ⟨post, rfl⟩ := hpre
  have hmono : ∀ (k : Checker) (es : List Event), k.nextTag ≤ (k.run es).nextTag := by
    intro k es
    induction es generalizing k with
    | nil => exact Nat.le_refl _
    | cons e es ih => exact Nat.le_trans (nextTag_le_perform k e) (ih _)
  have hrest := hmono ((new settings).run pre) post
  rw [run_append] at hnext
  omega

/-- **No event faults.**  Let the number of runs to join at fit a word for every allocation of a
run, and let no tree have more tags than there are indices.  Then

* every event of the run answers, or fails with an error of the program, and every step that its
  messages and its error report can be worded;
* whatever an event does to the map of a live tree before, between and after its steps, the elements
  of the map hold together: a walk over a range that was checked, a look at an offset below the
  size, and the joining of neighbours find their way through them and do what the map's own
  operations do;
* whether a foreign access can be skipped is only ever asked about foreign accesses. -/
theorem faultless (settings : Settings) (es : List Event)
    (hroom : ∀ size, .allocate size ∈ es → max 1 size + settings.mergeSlack < 2 ^ 64)
    (hindex : ∀ pre, pre <+: es → ∀ a x,
      ((new settings).run pre).allocations.get? a = some x → x.tree.tags.size < 2 ^ 32) :
    (∀ pre e, pre ++ [e] <+: es → (((new settings).run pre).perform e).Faultless) ∧
      (∀ pre, pre <+: es → ∀ a x, ((new settings).run pre).allocations.get? a = some x →
        ∀ m, x.tree.bytes.Edits m →
          m.HoldsTogether ∧ ∀ o < m.size, m.checkRange ⟨o, 1⟩ = .ok ()) ∧
      ∀ (s : ByteState) (kind : AccessKind) (rel : Relatedness), rel.isForeign = true →
        s.absorbed.canSkip (.ofAccess kind rel) = .ok (s.isSkippable kind rel) := by
  have hs : ∀ pre, ((new settings).run pre).Sound := (sound_new settings).run
  have htree : ∀ pre, pre <+: es → ∀ {a x},
      ((new settings).run pre).allocations.get? a = some x → x.tree.HasRoom := by
    intro pre hpre a x hx
    exact hasRoom_run (fun size hmem => hroom size (hpre.subset hmem)) hx
  refine ⟨fun pre e hpre => ?_, fun pre hpre a x hx m hm => ?_, fun s kind rel hrel => ?_⟩
  · have hpre : pre <+: es := (List.prefix_append pre [e]).trans hpre
    exact faultless_perform (hs pre) ⟨htree pre hpre, hindex pre hpre _ _⟩ e
  · refine ⟨RunMap.holdsTogether (hm.isProper ((hs pre).tree hx).isProper), fun o ho => ?_⟩
    have hlimit := (htree pre hpre hx).lt_limit
    have hsize : m.size = x.tree.size := hm.size_eq
    rw [RunMap.checkRange_eq_ok_iff, ByteRange.stop]
    dsimp only
    omega
  · rw [Absorption.ofAccess, if_pos hrel, Absorption.canSkip_ofForeign, ByteState.isSkippable, hrel,
      Bool.true_and]

/-- One allocation has no bytes.  A call protects a borrow of the other one and is told of a pointer
that does not exist; then come a range that ends beyond the words and a write up to the last byte.
The free at the end, which the protector forbids, is refused like any other. -/
theorem faultless_after_refusals :
    (((new {}).run [.allocate 0, .allocate 8, .access ⟨⟨1⟩, ⟨2⟩⟩ ⟨0, 0⟩ .write,
      .derive ⟨⟨2⟩, ⟨3⟩⟩ ⟨4, 4⟩ .exclusive false, .enter ⟨7⟩ [⟨⟨2⟩, ⟨4⟩⟩, ⟨⟨1⟩, ⟨4⟩⟩],
      .access ⟨⟨2⟩, ⟨3⟩⟩ ⟨2 ^ 64 - 1, 2⟩ .read, .access ⟨⟨2⟩, ⟨4⟩⟩ ⟨6, 2⟩ .write]).perform
        (.free ⟨⟨2⟩, ⟨3⟩⟩)).Faultless := by
  have hnext : ((new {}).run [.allocate 0, .allocate 8, .access ⟨⟨1⟩, ⟨2⟩⟩ ⟨0, 0⟩ .write,
      .derive ⟨⟨2⟩, ⟨3⟩⟩ ⟨4, 4⟩ .exclusive false, .enter ⟨7⟩ [⟨⟨2⟩, ⟨4⟩⟩, ⟨⟨1⟩, ⟨4⟩⟩],
      .access ⟨⟨2⟩, ⟨3⟩⟩ ⟨2 ^ 64 - 1, 2⟩ .read, .access ⟨⟨2⟩, ⟨4⟩⟩ ⟨6, 2⟩ .write,
      .free ⟨⟨2⟩, ⟨3⟩⟩]).nextTag = 5 := by
    decide +kernel
  refine (faultless {} _ (fun size hsize => ?_) fun pre hpre a x hx => ?_).1 _ _
    (List.prefix_refl _)
  · have hsize : size = 0 ∨ size = 8 := by simpa using hsize
    rcases hsize with rfl | rfl <;> decide
  · exact size_tags_lt (hnext.trans_lt (by decide)) hpre hx

end Checker

end TreeBorrows
