/-
# The tag of an allocation is always good

Whoever made an allocation keeps all rights to it.  Over a run that says more than it does for one
tree (`Proofs/Tree/Owner.lean`): no event of a checker, refused or not, and no protector takes a
right from the tag that the allocation was made with.  So an access, a derivation or a free through
that tag, inside of the bounds, can only be refused on account of somebody else, and only while that
somebody is protected.
-/
import TreeBorrows.Proofs.Checker.Faultless
import TreeBorrows.Proofs.Checker.Refusal
import TreeBorrows.Proofs.Tree.Owner

namespace TreeBorrows

namespace Checker

variable {k : Checker} {a : AllocationId} {x : Allocation} {root : Tag} {e : Event} {d : Demand}
  {err : Error}

theorem Reachable.ownerHolds (hk : k.Reachable) (hx : k.allocations.get? a = some x) :
    x.tree.OwnerHolds :=
  hk.tree_induction Tree.ownerHolds_new (fun hs _ hadv h => h.advances hs hadv) hx

theorem Sound.exists_owner (h : k.Sound) (hx : k.allocations.get? a = some x) :
    ∃ root, x.tree.owner? = some root := by
  obtain ⟨n, hn⟩ := (h.tree hx).wellLinked.exists_get? (h.tree hx).wellLinked.width_pos
  exact ⟨n.tag, congrArg (Option.map Node.tag) hn⟩

/-- An event that asks for an access through the owner is refused because of a protected tag. -/
theorem Reachable.protector_of_demands (hk : k.Reachable) (hdem : k.Demands e d x)
    (hroot : x.tree.owner? = some d.pointer.tag)
    (he : (k.perform e).result = .error (.error err)) :
    ∃ v i n, err = .aliasing v ∧ v.obstacle = .protector ∧ v.conflicting = n.label ∧
      x.tree.arena.get? i = some n ∧ k.protector? n.tag ≠ none := by
  rcases exists_plan_of_perform_eq_error hk.sound hdem.live hdem.demand he with
    ⟨cause, hplan⟩ | ⟨v, i, n, hv, hconflict, hlabel, hn, hprot⟩
  · have hs : x.tree.Sound (k.context d.pointer.alloc).isProtected := hk.sound.tree hdem.live
    obtain ⟨v, i, n, hv, hobstacle, hn, hlabel, hprot⟩ := Tree.protector_of_plan_eq_error
      (hk.ownerHolds hdem.live) hs hroot hdem.stop_lt hdem.stop_le hplan
    refine ⟨v, i, n, hv, hobstacle, hlabel, hn, ?_⟩
    exact Option.isSome_iff_ne_none.mp hprot
  · refine ⟨v, i, n, hv, ?_, hlabel, hn, ?_⟩
    · rw [Violation.obstacle, hconflict]
      rfl
    · rw [hprot]
      exact nofun

/-- **The owner never loses its rights.**  In every reachable state, let `root` be the tag that a
live allocation was made with.

* At every byte a state is kept for it, so that its default is never looked at; and at every offset
  it is active, accessed, and known to absorb nothing.
* An access, a derivation or a free through it that stays inside of the allocation can only be
  refused with a violation that reports a protector, and it reports one of the protected tags of the
  tree.  It is not refused at all while no tag of the tree is protected, and is then carried out if
  the trees have room. -/
theorem owner_keeps_rights (hk : k.Reachable) (hx : k.allocations.get? a = some x) :
    ∃ root, x.tree.owner? = some root ∧
      (∀ o states, x.tree.bytes.valueAt? o = some states →
        states.get? Arena.root = some ⟨.active, true, .nothing⟩) ∧
      (∀ o, o < x.tree.size → o + 1 < Word.limit →
        k.stateOf ⟨a, root⟩ o = .ok ⟨.active, true, .nothing⟩) ∧
      ∀ e d, k.Demands e d x → d.pointer = ⟨a, root⟩ →
        (∀ err, (k.perform e).result = .error (.error err) →
          ∃ v i n, err = .aliasing v ∧ v.obstacle = .protector ∧ v.conflicting = n.label ∧
            x.tree.arena.get? i = some n ∧ k.protector? n.tag ≠ none) ∧
        ((∀ tag ∈ x.tree.tags.keys, k.protector? tag = none) →
          (∀ err, (k.perform e).result ≠ .error (.error err)) ∧
          (k.HasRoom → ∃ answer, (k.perform e).result = .ok answer)) := by
  have howned := hk.ownerHolds hx
  have hs := hk.sound.tree hx
  obtain ⟨root, hroot⟩ := hk.sound.exists_owner hx
  refine ⟨root, hroot, howned, fun o ho hlimit => ?_, fun e d hdem hp => ?_⟩
  · obtain ⟨states, hval⟩ := x.tree.exists_valueAt? ho
    rw [stateOf_of_get? hx]
    exact howned.stateOf_eq hs hroot hval hlimit
  · have howner : x.tree.owner? = some d.pointer.tag := by
      rw [hp]
      exact hroot
    refine ⟨fun err he => hk.protector_of_demands hdem howner he, fun hfree => ?_⟩
    have hno : ∀ err, (k.perform e).result ≠ .error (.error err) := by
      intro err he
      obtain ⟨-, i, n, -, -, -, hn, hprot⟩ := hk.protector_of_demands hdem howner he
      exact hprot (hfree n.tag (hs.mem_tags_iff.mpr ⟨i, n, hn, rfl⟩))
    refine ⟨hno, fun hroom => ?_⟩
    cases hres : (k.perform e).result with
    | ok answer => exact ⟨answer, rfl⟩
    | error failure =>
      cases failure with
      | error err => exact absurd hres (hno err)
      | fault f => exact absurd hres ((faultless_perform hk.sound hroom e).ne_fault f)

/-- A call protects a borrow of the first four bytes, and writes through it.  A write of the owner
to them is refused for the sake of that borrow, and takes nothing from the owner. -/
theorem owner_keeps_rights_beside_protected :
    ∃ (k : Checker) (v : Violation), k.Reachable ∧
      (k.perform (.access ⟨⟨1⟩, ⟨2⟩⟩ ⟨0, 4⟩ .write)).result = .error (.error (.aliasing v)) ∧
      v.obstacle = .protector ∧ k.protector? v.conflicting.tag ≠ none ∧
      k.stateOf ⟨⟨1⟩, ⟨2⟩⟩ 0 = .ok ⟨.active, true, .nothing⟩ := by
  let es : List Event := [.allocate 8, .derive ⟨⟨1⟩, ⟨2⟩⟩ ⟨0, 4⟩ .exclusive false,
    .enter ⟨0⟩ [⟨⟨1⟩, ⟨3⟩⟩], .access ⟨⟨1⟩, ⟨3⟩⟩ ⟨0, 4⟩ .write]
  have hlive : (((new {}).run es).allocations.get? ⟨1⟩).map
      (fun x => (x.tree.owner?, x.tree.tags.keys, x.tree.size)) =
        some (some ⟨2⟩, [⟨2⟩, ⟨3⟩], 8) := by
    decide +kernel
  have hrefused : (((new {}).run es).perform (.access ⟨⟨1⟩, ⟨2⟩⟩ ⟨0, 4⟩ .write)).result =
      .error (.error (.aliasing {
        conflict := .protectedTransition ⟨.active, .disabled⟩
        alloc := ⟨1⟩
        offset := 0
        conflicting := .new ⟨3⟩ .reserved
        cause := .explicit .write
        accessed := .new ⟨2⟩ .active
        before := .active
        after := some .disabled })) := by
    decide +kernel
  generalize hk : (new {}).run es = k at hlive hrefused
  have hk : k.Reachable := ⟨{}, es, hk.symm⟩
  obtain ⟨x, hx, hfacts⟩ := Option.map_eq_some_iff.mp hlive
  obtain ⟨howner, hkeys, hsize⟩ := by simpa only [Prod.mk.injEq] using hfacts
  obtain ⟨root, hroot, -, hstate, hevents⟩ := owner_keeps_rights hk hx
  obtain rfl := Option.some.inj (howner.symm.trans hroot)
  have hdem : k.Demands (.access ⟨⟨1⟩, ⟨2⟩⟩ ⟨0, 4⟩ .write) ⟨⟨⟨1⟩, ⟨2⟩⟩, ⟨0, 4⟩, .write⟩ x :=
    ⟨hx, rfl, by simp [hkeys], by decide, by simp [hsize, ByteRange.stop]⟩
  obtain ⟨v, i, n, hv, hobstacle, hlabel, -, hprot⟩ := (hevents _ _ hdem rfl).1 _ hrefused
  refine ⟨k, v, hk, hrefused.trans ?_, hobstacle, ?_, hstate 0 ?_ (by decide)⟩
  · rw [hv]
  · rw [hlabel]
    exact hprot
  · rw [hsize]
    decide

end Checker

end TreeBorrows
