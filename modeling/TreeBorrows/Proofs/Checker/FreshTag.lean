/-
# A fresh pointer is readable where it was derived

Deriving a pointer checks once that the pointer it comes from may be read.  This is enough for the
new pointer: where the derivation has succeeded, a read through the new tag succeeds at once, and no
tag loses anything by it (`read_after_derivation`).  It does not matter how the pointer was derived,
whether its data is interior mutable, and who protects the new tag.

A retag that answers a tag has inserted it below the pointer it comes from, and has protected no
other tag (`exists_insertChild_of_retag`); what the tree makes of the read is in
`Proofs/Tree/FreshTag.lean`.
-/
import TreeBorrows.Proofs.Checker.Grants
import TreeBorrows.Proofs.Checker.Inventory
import TreeBorrows.Proofs.Checker.Repetition
import TreeBorrows.Proofs.Tree.FreshTag

namespace TreeBorrows

/-- The event derives a pointer from another one over a range, in whatever way and whether or not it
asks for a protector. -/
inductive Event.Derives (p : Pointer) (r : ByteRange) : Event → Prop where
  | derive (d : Derivation) (cell : Bool) : Derives p r (.derive p r d cell)
  | retag (d : Derivation) (cell : Bool) (kind : Protection) : Derives p r (.retag p r d cell kind)

/-- Deriving a pointer is retagging it, perhaps without a protector. -/
theorem Event.Derives.perform_eq {e : Event} {p : Pointer} {r : ByteRange}
    (he : Event.Derives p r e) (k : Checker) :
    ∃ d cell kind, k.perform e = (k.retag p r d cell kind).mapAnswer .tag := by
  cases he with
  | derive d cell => exact ⟨d, cell, .none, rfl⟩
  | retag d cell kind => exact ⟨d, cell, kind, rfl⟩

namespace Checker

variable {k : Checker} {p : Pointer} {r r' : ByteRange} {d : Derivation} {cell : Bool}
  {kind : Protection} {tag : Tag} {x : Allocation}

/-! ## 1. Derivations that answer a tag -/

/-- A retag leaves every tag the protector that it had, or none, except for the tag that it
answers. -/
theorem contains_protectors_retag (k : Checker) (p : Pointer) (r : ByteRange) (d : Derivation)
    (cell : Bool) (kind : Protection) {tag : Tag} (htag : tag ≠ ⟨k.nextTag⟩) :
    (k.retag p r d cell kind).state.protectors.contains tag = k.protectors.contains tag := by
  rcases retag_cases k p r d cell kind with
    ⟨isProtected, heq, -⟩ | ⟨permission, -, -, -, -, heq⟩
  · rw [heq, (sameCalls_reborrow k p r d cell isProtected).protectors]
  · have hhold : (k.retag p r d cell kind).state.protectors =
        (k.newTag p r permission true).state.protectors.insert ⟨k.nextTag⟩ kind := by
      rw [heq]
      rfl
    rw [hhold, (sameCalls_newTag k p r permission true).protectors, Bool.eq_iff_iff,
      Table.contains_insert_iff, or_iff_right htag]

/-- **A retag that answers a tag has inserted it** into the tree of the pointer it comes from, with
a permission that a tag may start with. -/
theorem exists_insertChild_of_retag (hok : (k.retag p r d cell kind).result = .ok (some tag)) :
    ∃ x permission isProtected, k.allocations.get? p.alloc = some x ∧
      permission.canStart = true ∧ tag = ⟨k.nextTag⟩ ∧
      (x.tree.insertChild (k.context p.alloc) ⟨p.tag, tag, permission, isProtected, r⟩).result =
        .ok () ∧
      (k.retag p r d cell kind).state.allocations.get? p.alloc = some { x with
        tree := (x.tree.insertChild (k.context p.alloc)
          ⟨p.tag, tag, permission, isProtected, r⟩).state } := by
  obtain ⟨isProtected, hres, halloc⟩ := retag_eq_reborrow k p r d cell kind
  rw [hres] at hok
  rw [halloc]
  rcases reborrow_cases k p r d cell isProtected with ⟨e, heq⟩ | heq | ⟨permission, hd, heq⟩
  · rw [heq] at hok
    cases hok
  · rw [heq] at hok
    cases answer_keepTag hok
  · rw [heq] at hok ⊢
    obtain rfl := Option.some.inj (answer_newTag hok)
    rcases newTag_cases k p r permission isProtected with ⟨e, hres, -⟩ |
      ⟨x, o, hx, rfl, hres, hstate⟩
    · cases hres.symm.trans hok
    · obtain ⟨_, hins, -⟩ := Outcome.exists_of_mapAnswer_eq_ok (hres.symm.trans hok)
      refine ⟨x, permission, isProtected, hx, Derivation.canStart_of_permission? hd, rfl, hins, ?_⟩
      rw [hstate]
      exact get?_putTree k.freshTag.1 p.alloc x _

/-! ## 2. In every reachable state -/

/-- **A fresh pointer is readable where it was derived.**  In every reachable state, let a
derivation over a range succeed with a new tag, and let a read through this tag follow at once, over
the range or a part of it.

* The read is not refused.
* It succeeds, as long as the tree had fewer than `2 ^ 63 - 4` runs before the derivation; a vector
  has room for fewer.
* It leaves every tag of every allocation the permission that it had, at every byte, and the same
  bytes accessed. -/
theorem read_after_derivation (hk : k.Reachable) {e : Event} (he : Event.Derives p r e)
    (hok : (k.perform e).result = .ok (.tag (some tag))) (hr : r'.Within r) :
    let k' := (k.perform e).state
    (∀ err, (k'.access ⟨p.alloc, tag⟩ r' .read).result ≠ .error (.error err)) ∧
      (∃ x, k.allocations.get? p.alloc = some x ∧ (x.tree.bytes.runCount + 4 < 2 ^ 63 →
        (k'.access ⟨p.alloc, tag⟩ r' .read).result = .ok ())) ∧
      ∀ q o, ((k'.access ⟨p.alloc, tag⟩ r' .read).state.stateOf q o).map
          (fun s => (s.permission, s.accessed)) =
        (k'.stateOf q o).map (fun s => (s.permission, s.accessed)) := by
  intro k'
  obtain ⟨d, cell, kind, heq⟩ := he.perform_eq k
  have hstate : k' = (k.retag p r d cell kind).state := congrArg Outcome.state heq
  obtain ⟨tag?, hretag, htag?⟩ := Outcome.exists_of_mapAnswer_eq_ok (heq ▸ hok)
  obtain rfl := Answer.tag.inj htag?
  obtain ⟨x, permission, isProtected, hx, hstart, htag, hins, hx'⟩ :=
    exists_insertChild_of_retag hretag
  have hs : x.tree.Sound (k.context p.alloc).isProtected := hk.sound.tree hx
  have hprot : ∀ s ∈ x.tree.tags.keys,
      (k'.context p.alloc).isProtected s = (k.context p.alloc).isProtected s := by
    intro s hmem
    rw [hstate]
    refine contains_protectors_retag k p r d cell kind fun heq => ?_
    have hlt := hk.sound.tag_lt hx hmem
    rw [heq] at hlt
    exact Nat.lt_irrefl _ hlt
  have hidle := Tree.idleFrom_read_of_insertChild hs hins hstart hprot hr (.explicit .read)
  obtain ⟨hne, hres, hsame⟩ := access_of_idleFrom (p := ⟨p.alloc, tag⟩) (hk.perform e).sound
    (hstate ▸ hx') hidle
  refine ⟨hne, ⟨x, hx, fun hruns => hres (Tree.hasRoom_insertChild hs hins ?_)⟩, hsame⟩
  exact Word.mul_two_lt_limit_iff.mpr hruns

/-- A mutable borrow has been written through.  A shared borrow that reaches into its bytes is taken
beside it and protected, which freezes the mutable one there.  The shared borrow can be read through
at once, and the mutable one is as frozen as it was. -/
theorem read_of_protected_borrow :
    ∃ k : Checker, k.Reachable ∧
      (k.perform (.retag ⟨⟨1⟩, ⟨2⟩⟩ ⟨2, 4⟩ .shared false .strong)).result =
        .ok (.tag (some ⟨4⟩)) ∧
      ((k.perform (.retag ⟨⟨1⟩, ⟨2⟩⟩ ⟨2, 4⟩ .shared false .strong)).state.access
        ⟨⟨1⟩, ⟨4⟩⟩ ⟨3, 2⟩ .read).result = .ok () ∧
      (((k.perform (.retag ⟨⟨1⟩, ⟨2⟩⟩ ⟨2, 4⟩ .shared false .strong)).state.access
        ⟨⟨1⟩, ⟨4⟩⟩ ⟨3, 2⟩ .read).state.stateOf ⟨⟨1⟩, ⟨3⟩⟩ 3).map
          (fun s => (s.permission, s.accessed)) = .ok (.frozen, true) := by
  have hk : Reachable ((new {}).run [.allocate 8, .derive ⟨⟨1⟩, ⟨2⟩⟩ ⟨0, 8⟩ .exclusive false,
      .access ⟨⟨1⟩, ⟨3⟩⟩ ⟨0, 4⟩ .write, .enter ⟨0⟩ []]) := ⟨{}, _, rfl⟩
  have hruns : (((new {}).run [.allocate 8, .derive ⟨⟨1⟩, ⟨2⟩⟩ ⟨0, 8⟩ .exclusive false,
      .access ⟨⟨1⟩, ⟨3⟩⟩ ⟨0, 4⟩ .write, .enter ⟨0⟩ []]).allocations.get? ⟨1⟩).map
        (·.tree.bytes.runCount) = some 2 := by
    decide +kernel
  have hok : (((new {}).run [.allocate 8, .derive ⟨⟨1⟩, ⟨2⟩⟩ ⟨0, 8⟩ .exclusive false,
      .access ⟨⟨1⟩, ⟨3⟩⟩ ⟨0, 4⟩ .write, .enter ⟨0⟩ []]).perform
        (.retag ⟨⟨1⟩, ⟨2⟩⟩ ⟨2, 4⟩ .shared false .strong)).result = .ok (.tag (some ⟨4⟩)) := by
    decide +kernel
  have hpart : ByteRange.Within ⟨3, 2⟩ ⟨2, 4⟩ := by decide
  obtain ⟨-, ⟨x, hx, hres⟩, hsame⟩ :=
    read_after_derivation hk (.retag .shared false .strong) hok hpart
  refine ⟨_, hk, hok, hres ?_, ?_⟩
  · rw [hx, Option.map_some, Option.some.injEq] at hruns
    rw [hruns]
    decide
  · refine (hsame ⟨⟨1⟩, ⟨3⟩⟩ 3).trans ?_
    decide +kernel

end Checker

end TreeBorrows
