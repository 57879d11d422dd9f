/-
# What an event may do to the allocations of a checker

An event makes an allocation, drops one, or advances the tree of one; calls change the nodes of
several trees, and give and take no right.  `Checker.Advances` says that much of every event,
however it ends.

From it come the two ways of reasoning about runs: what new trees have and advancing keeps holds
of every tree of every reachable state (`Reachable.tree_induction`), and an allocation that is live
before and after an event has advanced (`Reachable.advances_tree`), since the number of an
allocation is never given out again.
-/
import TreeBorrows.Proofs.Checker.Reachable
import TreeBorrows.Proofs.Tree.Advance

namespace TreeBorrows

namespace Checker

variable {k k' k'' : Checker}

/-! ## 1. Steps -/

/-- The step makes no allocation, and no tag gains or loses a right by it. -/
structure Extends (k k' : Checker) : Prop where
  nextAlloc_eq : k'.nextAlloc = k.nextAlloc
  tree : ∀ {a x'}, k'.allocations.get? a = some x' →
    ∃ x, k.allocations.get? a = some x ∧ x.tree.Extends x'.tree

/-- **What an event does**: an allocation that is live afterwards was live before, and its tree has
advanced; or it is new. -/
structure Advances (k k' : Checker) : Prop where
  nextAlloc_le : k.nextAlloc ≤ k'.nextAlloc
  tree : ∀ {a x'}, k'.allocations.get? a = some x' →
    (∃ x, k.allocations.get? a = some x ∧ x.tree.Advances x'.tree k.protectors.contains) ∨
      k.nextAlloc ≤ a.number ∧ a.number < k'.nextAlloc ∧
        ∃ root settings, x'.tree = .new root x'.size settings

theorem Extends.of_eq (ha : k'.allocations = k.allocations) (hn : k'.nextAlloc = k.nextAlloc) :
    k.Extends k' where
  nextAlloc_eq := hn
  tree {_ x'} hx' := ⟨x', ha ▸ hx', .refl x'.tree⟩

theorem Extends.trans (h : k.Extends k') (h' : k'.Extends k'') : k.Extends k'' where
  nextAlloc_eq := h'.nextAlloc_eq.trans h.nextAlloc_eq
  tree hx'' := by
    obtain ⟨x', hx', ht'⟩ := h'.tree hx''
    obtain ⟨x, hx, ht⟩ := h.tree hx'
    exact ⟨x, hx, ht.trans ht'⟩

theorem Extends.advances (h : k.Extends k') : k.Advances k' where
  nextAlloc_le := Nat.le_of_eq h.nextAlloc_eq.symm
  tree hx' := by
    obtain ⟨x, hx, ht⟩ := h.tree hx'
    exact .inl ⟨x, hx, ht.advances _⟩

namespace Advances

theorem refl (k : Checker) : k.Advances k := (Extends.of_eq rfl rfl).advances

/-- What is not about allocations does not matter. -/
theorem congr (h : k.Advances k') (ha : k''.allocations = k'.allocations)
    (hn : k''.nextAlloc = k'.nextAlloc) : k.Advances k'' where
  nextAlloc_le := hn ▸ h.nextAlloc_le
  tree hx := hn ▸ h.tree (ha ▸ hx)

/-- An allocation may go. -/
theorem drop (h : k.Advances k') (a : AllocationId) : k.Advances (k'.drop a).state := by
  unfold Checker.drop
  split
  · refine ⟨h.nextAlloc_le, fun {b x'} hx' => ?_⟩
    have hx : (k'.allocations.erase a).get? b = some x' := hx'
    rw [Table.get?_erase] at hx
    split at hx
    · cases hx
    · exact h.tree hx
  · exact h

end Advances

theorem extends_putTree {a : AllocationId} {x : Allocation} (hx : k.allocations.get? a = some x)
    {t : Tree} (ht : x.tree.Extends t) : k.Extends (k.putTree a x t) := by
  refine ⟨rfl, fun {b x'} hx' => ?_⟩
  rw [putTree, Table.get?_insert] at hx'
  split at hx'
  · next hb =>
    obtain rfl := Option.some.inj hx'
    exact ⟨x, hb ▸ hx, ht⟩
  · exact ⟨x', hx', .refl x'.tree⟩

theorem advances_putTree {a : AllocationId} {x : Allocation} (hx : k.allocations.get? a = some x)
    {t : Tree} (ht : x.tree.Advances t k.protectors.contains) :
    k.Advances (k.putTree a x t) := by
  refine ⟨Nat.le_refl _, fun {b x'} hx' => .inl ?_⟩
  rw [putTree, Table.get?_insert] at hx'
  split at hx'
  · next hb =>
    obtain rfl := Option.some.inj hx'
    exact ⟨x, hb ▸ hx, ht⟩
  · exact ⟨x', hx', (Tree.Extends.refl x'.tree).advances _⟩

theorem advances_onTree {α : Type} (h : k.Sound) (p : Pointer) (op : Operation)
    {f : Context → Tree → Outcome Tree α}
    (hf : ∀ {t : Tree}, t.Sound (k.context p.alloc).isProtected →
      t.Advances (f (k.context p.alloc) t).state (k.context p.alloc).isProtected) :
    k.Advances (k.onTree p op f).state := by
  rcases onTree_cases k p op f with ⟨e, heq⟩ | ⟨x, hx, heq⟩
  · rw [heq]
    exact .refl k
  · rw [heq]
    exact advances_putTree hx (hf (h.tree hx))

/-! ## 2. Events -/

theorem advances_allocate (k : Checker) (size : Nat) : k.Advances (k.allocate size).state := by
  refine ⟨Nat.le_succ _, fun {a x'} hx' => ?_⟩
  have hx : (k.allocations.insert ⟨k.nextAlloc⟩
      ⟨size, .new ⟨k.nextTag⟩ size k.settings⟩).get? a = some x' := hx'
  rw [Table.get?_insert] at hx
  split at hx
  · next ha =>
    obtain rfl := Option.some.inj hx
    exact .inr ⟨Nat.le_of_eq (congrArg AllocationId.number ha).symm,
      ha ▸ Nat.lt_succ_self _, _, _, rfl⟩
  · exact .inl ⟨x', hx, (Tree.Extends.refl x'.tree).advances _⟩

theorem advances_access (h : k.Sound) (p : Pointer) (op : Operation) (range : ByteRange)
    (kind : AccessKind) (cause : Cause) :
    k.Advances (k.onTree p op fun ctx t => t.access ctx ⟨p.tag, range, kind, cause⟩).state :=
  advances_onTree h p op fun ht => Tree.advances_access ht _

theorem advances_free (h : k.Sound) (p : Pointer) : k.Advances (k.free p).state := by
  have htree := advances_onTree h p .dealloc (f := fun ctx t => t.free ctx p.tag) fun ht =>
    Tree.advances_free ht p.tag
  exact Outcome.state_andThen htree fun _ _ => htree.drop p.alloc

theorem advances_newTag (h : k.Sound) (p : Pointer) (range : ByteRange) {permission : Permission}
    (hperm : permission ≠ .active) (isProtected : Bool) :
    k.Advances (k.newTag p range permission isProtected).state := by
  rcases state_newTag k p range permission isProtected with heq | ⟨x, hx, heq⟩
  · rw [heq]
    exact (Advances.refl k).congr rfl rfl
  · rw [heq]
    have ht : x.tree.Advances (x.tree.insertChild (k.context p.alloc)
        ⟨p.tag, ⟨k.nextTag⟩, permission, isProtected, range⟩).state
        (k.context p.alloc).isProtected :=
      Tree.advances_insertChild (h.tree hx) hperm
    exact (advances_putTree hx ht).congr rfl rfl

theorem advances_reborrow (h : k.Sound) (p : Pointer) (range : ByteRange) (d : Derivation)
    (cell isProtected : Bool) : k.Advances (k.reborrow p range d cell isProtected).state := by
  rcases reborrow_cases k p range d cell isProtected with ⟨e, heq⟩ | heq | ⟨permission, hd, heq⟩
  · rw [heq]
    exact .refl k
  · rw [heq, state_keepTag]
    exact advances_access h p .retag range .read .reborrow
  · rw [heq]
    exact advances_newTag h p range (Derivation.ne_active_of_permission? hd) isProtected

theorem advances_retag (h : k.Sound) (p : Pointer) (range : ByteRange) (d : Derivation)
    (cell : Bool) (kind : Protection) : k.Advances (k.retag p range d cell kind).state := by
  rcases retag_cases k p range d cell kind with
    ⟨isProtected, heq, -⟩ | ⟨permission, hd, -, -, -, heq⟩
  · rw [heq]
    exact advances_reborrow h p range d cell isProtected
  · rw [heq]
    have hne := Derivation.ne_active_of_permission? hd
    exact (advances_newTag h p range hne true).congr rfl rfl

theorem extends_name (k : Checker) (p : Pointer) (s : String) : k.Extends (k.name p s).state := by
  unfold name nameAncestor
  cases hres : k.editTree p .inspect (·.name p.tag 0 s) with
  | error e => exact .of_eq rfl rfl
  | ok k' =>
    obtain ⟨x, t, hx, ht, rfl⟩ := editTree_eq_ok hres
    exact extends_putTree hx (Tree.extends_name ht)

theorem extends_protect (k : Checker) (call : CallId) (p : Pointer) :
    k.Extends (k.protect call p).1 := by
  unfold protect prepareProtection
  cases hres : k.editTree p .protect (·.resetAbsorption p.tag) with
  | error e => exact .of_eq rfl rfl
  | ok k' =>
    obtain ⟨x, t, hx, ht, rfl⟩ := editTree_eq_ok hres
    exact (extends_putTree hx (Tree.extends_resetAbsorption ht)).trans (.of_eq rfl rfl)

theorem extends_protectAll (k : Checker) (call : CallId) (ps : List Pointer) :
    k.Extends (k.protectAll call ps).1 := by
  induction ps generalizing k with
  | nil => exact .of_eq rfl rfl
  | cons p ps ih => exact (extends_protect k call p).trans (ih (k.protect call p).1)

theorem extends_enter (k : Checker) (call : CallId) (ps : List Pointer) :
    k.Extends (k.enter call ps).state := by
  have hpush : k.Extends { k with calls := k.calls.push call } := .of_eq rfl rfl
  exact hpush.trans (extends_protectAll _ call ps)

theorem extends_releaseAll (k : Checker) (ps : List Pointer) :
    k.Extends (k.releaseAll ps).1 := by
  induction ps generalizing k with
  | nil => exact .of_eq rfl rfl
  | cons p ps ih =>
    have hclear : k.Extends (k.clearProtector p.tag) := .of_eq rfl rfl
    exact hclear.trans (ih (k.clearProtector p.tag))

theorem extends_endFrames (k : Checker) (call : CallId) (fs : List Frame) :
    k.Extends (k.endFrames call fs).1 := by
  induction fs generalizing k with
  | nil => exact .of_eq rfl rfl
  | cons f fs ih => exact (extends_releaseAll k f.pointers).trans (ih (k.releaseAll f.pointers).1)

theorem extends_exit (k : Checker) (call : CallId) : k.Extends (k.exit call).state := by
  unfold exit
  cases k.calls.popThrough? call with
  | none => exact .of_eq rfl rfl
  | some r =>
    have hrest : k.Extends { k with calls := r.2 } := .of_eq rfl rfl
    exact hrest.trans (extends_endFrames _ call r.1)

/-- **Every event advances a checker**, however it ends. -/
theorem advances_perform (h : k.Sound) (e : Event) : k.Advances (k.perform e).state := by
  cases e with
  | allocate size => exact advances_allocate k size
  | drop a => exact (Advances.refl k).drop a
  | free p => exact advances_free h p
  | derive p range d cell => exact advances_retag h p range d cell .none
  | retag p range d cell kind => exact advances_retag h p range d cell kind
  | access p range kind => exact advances_access h p _ range kind _
  | drawCall => exact (Advances.refl k).congr rfl rfl
  | enter call ps => exact (extends_enter k call ps).advances
  | exit call => exact (extends_exit k call).advances
  | openCall ps =>
    have hdraw : k.Extends k.freshCall.1 := .of_eq rfl rfl
    have hs := hdraw.trans (extends_enter k.freshCall.1 k.freshCall.2 ps)
    exact (Outcome.state_andThen (P := k.Extends) hs fun _ _ => hs).advances
  | name p s => exact (extends_name k p s).advances
  | permissionAt p o => exact .refl k

/-! ## 3. Runs -/

theorem reachable_new (settings : Settings) : (new settings).Reachable := ⟨settings, [], rfl⟩

namespace Reachable

theorem run (hk : k.Reachable) (es : List Event) : (k.run es).Reachable := by
  obtain ⟨settings, es₀, rfl⟩ := hk
  exact ⟨settings, es₀ ++ es, (run_append _ es₀ es).symm⟩

theorem perform (hk : k.Reachable) (e : Event) : (k.perform e).state.Reachable := hk.run [e]

/-- What holds of a new checker, and after an event whenever it holds before, holds in every
reachable state. -/
theorem induction {P : Checker → Prop} (hnew : ∀ settings, P (new settings))
    (step : ∀ k e, k.Reachable → P k → P (k.perform e).state) (hk : k.Reachable) : P k := by
  obtain ⟨settings, es, rfl⟩ := hk
  suffices h : ∀ es k, Checker.Reachable k → P k → P (k.run es) from
    h es _ (reachable_new settings) (hnew settings)
  intro es
  induction es with
  | nil => exact fun _ _ h => h
  | cons e es ih => exact fun k hk h => ih _ (hk.perform e) (step k e hk h)

/-- The numbers of live allocations were given out. -/
theorem number_lt (hk : k.Reachable) {a : AllocationId} {x : Allocation}
    (hx : k.allocations.get? a = some x) : a.number < k.nextAlloc := by
  revert hx
  revert a x
  refine induction (P := fun k => ∀ {a x}, k.allocations.get? a = some x →
    a.number < k.nextAlloc) (fun _ _ _ h => nomatch h) (fun k e hk ih a x' hx' => ?_) hk
  have hadv := advances_perform hk.sound e
  rcases hadv.tree hx' with ⟨x, hx, -⟩ | ⟨-, hlt, -⟩
  · exact Nat.lt_of_lt_of_le (ih hx) hadv.nextAlloc_le
  · exact hlt

/-- **What new trees have and advancing keeps, every tree has**, in every reachable state. -/
theorem tree_induction {P : Tree → Prop} (hnew : ∀ root size settings, P (.new root size settings))
    (step : ∀ {t t' : Tree} {prot prot' : Tag → Bool}, t.Sound prot → t'.Sound prot' →
      t.Advances t' prot → P t → P t')
    (hk : k.Reachable) {a : AllocationId} {x : Allocation}
    (hx : k.allocations.get? a = some x) : P x.tree := by
  revert hx
  revert a x
  refine induction (P := fun k => ∀ {a x}, k.allocations.get? a = some x → P x.tree)
    (fun _ _ _ h => nomatch h) (fun k e hk ih a x' hx' => ?_) hk
  rcases (advances_perform hk.sound e).tree hx' with ⟨x, hx, ht⟩ | ⟨-, -, root, settings, heq⟩
  · exact step (hk.sound.tree hx) ((hk.perform e).sound.tree hx') ht (ih hx)
  · rw [heq]
    exact hnew root x'.size settings

/-- An allocation that is live before and after an event has advanced. -/
theorem advances_tree (hk : k.Reachable) (e : Event) {a : AllocationId} {x x' : Allocation}
    (hx : k.allocations.get? a = some x)
    (hx' : (k.perform e).state.allocations.get? a = some x') :
    x.tree.Advances x'.tree k.protectors.contains := by
  rcases (advances_perform hk.sound e).tree hx' with ⟨y, hy, ht⟩ | ⟨hle, -, -⟩
  · obtain rfl := Option.some.inj (hx.symm.trans hy)
    exact ht
  · exact absurd (hk.number_lt hx) (Nat.not_lt.mpr hle)

end Reachable

end Checker

end TreeBorrows
