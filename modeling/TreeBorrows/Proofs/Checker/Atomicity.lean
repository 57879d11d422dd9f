/-
# Failed events change nothing

An event may fail late: after runs were divided and updates worked out, after the read of a
reborrow, or between the two checks of a free.  `Undisturbed` says what it leaves all the same:
everything but the cuts of the runs, and the number that a new tag was given.

A fault is not an error of the checked program, and is not what is meant here; it may strike
after an access was carried out.
-/
import TreeBorrows.Proofs.Checker.Reachable

namespace TreeBorrows

namespace Checker

/-! ## 1. Checkers that differ in cuts and the next tag -/

/-- The second checker has the live allocations, the protectors and the calls of the first one.
Its trees have the same nodes and the same states; only their runs may be cut in another way, and
the number of a tag may be used up. -/
structure Undisturbed (k k' : Checker) : Prop where
  settings : k'.settings = k.settings
  nextAlloc : k'.nextAlloc = k.nextAlloc
  nextCall : k'.nextCall = k.nextCall
  nextTag : k'.nextTag = k.nextTag ∨ k'.nextTag = k.nextTag + 1
  protectors : k'.protectors = k.protectors
  calls : k'.calls = k.calls
  allocations : ∀ a, Option.Rel (fun x x' => x'.size = x.size ∧ x.tree.Redivided x'.tree)
    (k.allocations.get? a) (k'.allocations.get? a)

variable {k k' : Checker}

theorem rel_allocations_refl (k : Checker) (a : AllocationId) :
    Option.Rel (fun x x' : Allocation => x'.size = x.size ∧ x.tree.Redivided x'.tree)
      (k.allocations.get? a) (k.allocations.get? a) := by
  cases k.allocations.get? a with
  | none => exact .none
  | some x => exact .some ⟨rfl, .refl x.tree⟩

namespace Undisturbed

theorem refl (k : Checker) : k.Undisturbed k :=
  ⟨rfl, rfl, rfl, .inl rfl, rfl, rfl, k.rel_allocations_refl⟩

theorem freshTag (k : Checker) : k.Undisturbed k.freshTag.1 :=
  ⟨rfl, rfl, rfl, .inr rfl, rfl, rfl, k.rel_allocations_refl⟩

/-- A tree gives way to one that differs in its cuts. -/
theorem putTree (h : k.Undisturbed k') {a : AllocationId} {x : Allocation}
    (hx : k.allocations.get? a = some x) {t : Tree} (ht : x.tree.Redivided t) :
    k.Undisturbed (k'.putTree a x t) where
  settings := h.settings
  nextAlloc := h.nextAlloc
  nextCall := h.nextCall
  nextTag := h.nextTag
  protectors := h.protectors
  calls := h.calls
  allocations b := by
    rw [Checker.putTree, Table.get?_insert]
    split
    · next hb =>
      rw [hb, hx]
      exact .some ⟨rfl, ht⟩
    · exact h.allocations b

/-- Every tag has the state it had, at every byte. -/
theorem stateOf_eq (h : k.Undisturbed k') (p : Pointer) (o : Nat) :
    k'.stateOf p o = k.stateOf p o := by
  have hrel := h.allocations p.alloc
  unfold stateOf askTree requireLive
  cases hx : k.allocations.get? p.alloc with
  | none =>
    rw [hx] at hrel
    cases hx' : k'.allocations.get? p.alloc with
    | none => rfl
    | some x' =>
      rw [hx'] at hrel
      nomatch hrel
  | some x =>
    rw [hx] at hrel
    cases hx' : k'.allocations.get? p.alloc with
    | none =>
      rw [hx'] at hrel
      nomatch hrel
    | some x' =>
      rw [hx'] at hrel
      cases hrel with
      | some hxx' => exact hxx'.2.stateOf_eq p.tag o

end Undisturbed

/-! ## 2. Operations on one tree -/

/-- An operation whose errors leave a tree as it is leaves a checker as it is. -/
theorem Undisturbed.onTree {α : Type} (h : k.Undisturbed k')
    (hsame : k'.allocations = k.allocations) {p : Pointer} {op : Operation}
    {f : Context → Tree → Outcome Tree α} {e : Error}
    (hf : ∀ {x}, k.allocations.get? p.alloc = some x →
      (f (k'.context p.alloc) x.tree).result = .error (.error e) →
        x.tree.Redivided (f (k'.context p.alloc) x.tree).state)
    (he : (k'.onTree p op f).result = .error (.error e)) :
    k.Undisturbed (k'.onTree p op f).state := by
  rcases onTree_cases k' p op f with ⟨e', heq⟩ | ⟨x, hx, heq⟩
  · rw [heq]
    exact h
  · rw [heq] at he ⊢
    rw [hsame] at hx
    exact h.putTree hx (hf hx he)

theorem undisturbed_access (h : k.Sound) {p : Pointer} {op : Operation} {range : ByteRange}
    {kind : AccessKind} {cause : Cause} {e : Error}
    (he : (k.onTree p op fun ctx t => t.access ctx ⟨p.tag, range, kind, cause⟩).result =
      .error (.error e)) :
    k.Undisturbed (k.onTree p op fun ctx t => t.access ctx ⟨p.tag, range, kind, cause⟩).state :=
  (Undisturbed.refl k).onTree rfl (fun hx he => Tree.redivided_access (h.tree hx) he) he

/-- Once the tree has agreed, there is an allocation to drop. -/
theorem undisturbed_free (h : k.Sound) {p : Pointer} {e : Error}
    (he : (k.free p).result = .error (.error e)) : k.Undisturbed (k.free p).state := by
  rcases Outcome.andThen_eq_error he with ⟨he, hs⟩ | ⟨_, hok, he, -⟩
  · rw [free, hs]
    exact (Undisturbed.refl k).onTree rfl (fun hx he => Tree.redivided_free (h.tree hx) he) he
  · rcases onTree_cases k p .dealloc fun ctx t => t.free ctx p.tag with ⟨e', heq⟩ | ⟨x, hx, heq⟩
    · rw [heq] at hok
      nomatch hok
    · rw [heq, drop] at he
      have hlive : (k.putTree p.alloc x
          ((x.tree.free (k.context p.alloc) p.tag).state)).allocations.contains p.alloc = true :=
        Table.contains_insert_iff.mpr (.inl rfl)
      rw [Outcome.state_mapState, if_pos hlive] at he
      nomatch he

/-! ## 3. Derived pointers -/

theorem undisturbed_keepTag (h : k.Sound) {p : Pointer} {range : ByteRange} {d : Derivation}
    {e : Error} (he : (k.keepTag p range d).result = .error (.error e)) :
    k.Undisturbed (k.keepTag p range d).state := by
  rcases Outcome.andThen_eq_error he with ⟨he, hs⟩ | ⟨_, _, he, -⟩
  · rw [keepTag, hs]
    exact undisturbed_access h he
  · nomatch he

theorem undisturbed_newTag (h : k.Sound) {p : Pointer} {range : ByteRange}
    {permission : Permission} {isProtected : Bool} {e : Error}
    (he : (k.newTag p range permission isProtected).result = .error (.error e)) :
    k.Undisturbed (k.newTag p range permission isProtected).state := by
  rcases Outcome.andThen_eq_error he with ⟨he, hs⟩ | ⟨_, _, he, -⟩
  · have hs : (k.newTag p range permission isProtected).state = _ := hs
    rw [hs]
    exact (Undisturbed.freshTag k).onTree rfl
      (fun hx he => Tree.redivided_insertChild (h.tree hx) he) he
  · nomatch he

theorem undisturbed_reborrow (h : k.Sound) {p : Pointer} {range : ByteRange} {d : Derivation}
    {cell isProtected : Bool} {e : Error}
    (he : (k.reborrow p range d cell isProtected).result = .error (.error e)) :
    k.Undisturbed (k.reborrow p range d cell isProtected).state := by
  rcases reborrow_cases k p range d cell isProtected with ⟨e', heq⟩ | heq | ⟨permission, -, heq⟩
  · rw [heq]
    exact .refl k
  · rw [heq] at he ⊢
    exact undisturbed_keepTag h he
  · rw [heq] at he ⊢
    exact undisturbed_newTag h he

/-- A retag fails with its derivation; what follows it cannot fail. -/
theorem undisturbed_retag (h : k.Sound) {p : Pointer} {range : ByteRange} {d : Derivation}
    {cell : Bool} {kind : Protection} {e : Error}
    (he : (k.retag p range d cell kind).result = .error (.error e)) :
    k.Undisturbed (k.retag p range d cell kind).state := by
  unfold retag at he ⊢
  rw [Outcome.result_after] at he
  rw [Outcome.state_after]
  rcases Outcome.andThen_eq_error he with ⟨he, hs⟩ | ⟨t?, -, he, -⟩
  · rw [hs]
    exact undisturbed_reborrow h he
  · cases t? with
    | none => nomatch he
    | some tag =>
      dsimp only at he
      split at he
      · nomatch he
      · nomatch he

/-! ## 4. Events -/

/-- **An event that fails changes nothing** that a program could notice: neither the allocations
and their trees, nor the state of any tag at any byte, nor the protectors, nor the calls. -/
theorem undisturbed_of_perform_eq_error (hk : k.Reachable) {e : Event} {err : Error}
    (he : (k.perform e).result = .error (.error err)) :
    k.Undisturbed (k.perform e).state ∧
      ∀ p o, (k.perform e).state.stateOf p o = k.stateOf p o := by
  suffices h : k.Undisturbed (k.perform e).state from ⟨h, h.stateOf_eq⟩
  have hs := hk.sound
  cases e with
  | allocate size => cases he
  | drop a =>
    have he := Outcome.mapAnswer_eq_error he
    show k.Undisturbed (k.drop a).state
    unfold drop at he ⊢
    split at he
    · cases he
    · next hdead =>
      rw [if_neg hdead]
      exact .refl k
  | free p => exact undisturbed_free hs (Outcome.mapAnswer_eq_error he)
  | derive p range d cell => exact undisturbed_retag hs (Outcome.mapAnswer_eq_error he)
  | retag p range d cell kind => exact undisturbed_retag hs (Outcome.mapAnswer_eq_error he)
  | access p range kind => exact undisturbed_access hs (Outcome.mapAnswer_eq_error he)
  | drawCall => cases he
  | enter call ps => cases he
  | exit call =>
    have he := Outcome.mapAnswer_eq_error he
    unfold exit at he
    split at he
    · cases he
    · cases he
  | openCall ps =>
    rcases Outcome.andThen_eq_error (Outcome.mapAnswer_eq_error he) with ⟨he, -⟩ | ⟨_, -, he, -⟩
    · cases he
    · cases he
  | name p s =>
    have he := Outcome.mapAnswer_eq_error he
    show k.Undisturbed (k.name p s).state
    unfold name nameAncestor at he ⊢
    cases hres : k.editTree p .inspect (·.name p.tag 0 s) with
    | error e' => exact .refl k
    | ok k' =>
      rw [hres] at he
      cases he
  | permissionAt p o => exact .refl k

/-- A write that finds its first four bytes free and is refused at the fifth one leaves no trace on
the first four. -/
theorem undisturbed_after_late_refusal :
    ∃ k : Checker, k.Reachable ∧ (∃ v, (k.perform (.access ⟨⟨1⟩, ⟨3⟩⟩ ⟨0, 8⟩ .write)).result =
        .error (.error (.aliasing v)) ∧ v.offset = 4) ∧
      k.Undisturbed (k.perform (.access ⟨⟨1⟩, ⟨3⟩⟩ ⟨0, 8⟩ .write)).state ∧
      ∀ p o, (k.perform (.access ⟨⟨1⟩, ⟨3⟩⟩ ⟨0, 8⟩ .write)).state.stateOf p o =
        k.stateOf p o := by
  have he : (((new {}).run [.allocate 8, .derive ⟨⟨1⟩, ⟨2⟩⟩ ⟨0, 8⟩ .exclusive false,
      .access ⟨⟨1⟩, ⟨2⟩⟩ ⟨4, 4⟩ .write]).perform (.access ⟨⟨1⟩, ⟨3⟩⟩ ⟨0, 8⟩ .write)).result =
        .error (.error (.aliasing ⟨.childForbidden .disabled, ⟨1⟩, 4, .new ⟨3⟩ .reserved,
          .explicit .write, .new ⟨3⟩ .reserved, .disabled, none⟩)) := by
    decide +kernel
  have hk : Reachable ((new {}).run [.allocate 8, .derive ⟨⟨1⟩, ⟨2⟩⟩ ⟨0, 8⟩ .exclusive false,
      .access ⟨⟨1⟩, ⟨2⟩⟩ ⟨4, 4⟩ .write]) := ⟨{}, _, rfl⟩
  exact ⟨_, hk, ⟨_, he, rfl⟩, undisturbed_of_perform_eq_error hk he⟩

end Checker

end TreeBorrows
