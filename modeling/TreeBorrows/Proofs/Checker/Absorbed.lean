/-
# What tags are known to absorb, in every reachable state

The entry of a tag at a byte is a summary of the tag and of everything below it, and accesses pass
over subtrees on the strength of it.  `AbsorptionHolds` is kept by every operation, as a part of the
soundness of trees; this module says what that comes to for the states that a program can ask for.

Two questions are answered for any tag at any byte, with a state kept there or not: its children
are known to absorb as much as it is, and what it is known to absorb is no step at all for any tag
at or below it, as that tag is protected now (`absorbed_sound`).
-/
import TreeBorrows.Proofs.Checker.View

namespace TreeBorrows

namespace Checker

variable {k : Checker} {a : AllocationId} {x : Allocation} {o : Nat}

/-- The node behind a tag answers for it. -/
theorem stateOf_eq_stateIn (h : k.Sound) (hx : k.allocations.get? a = some x) {i : Nat} {n : Node}
    {states : ByteStates} (hn : x.tree.arena.get? i = some n)
    (ho : x.tree.bytes.valueAt? o = some states) (hlimit : o + 1 < Word.limit) :
    k.stateOf ⟨a, n.tag⟩ o = .ok (n.stateIn states i) := by
  have hx' : k.allocations.get? (⟨a, n.tag⟩ : Pointer).alloc = some x := hx
  rw [stateOf_of_get? hx']
  exact (h.tree hx).stateOf_eq hn ho hlimit

/-- **Entries are right.**  In every reachable state, take a node and a byte of a live allocation.
Each child of the node is known to absorb at least as much there as the node is.  And a foreign
access of a kind that the node is known to absorb leaves the permission of every node at or below it
as it is, with the protector that it has, and so it hurts none. -/
theorem absorbed_sound (hk : k.Reachable) (hx : k.allocations.get? a = some x)
    (ho : o < x.tree.size) (hlimit : o + 1 < Word.limit) {i : Nat} {m : Node}
    (hm : x.tree.arena.get? i = some m) :
    ∃ s, k.stateOf ⟨a, m.tag⟩ o = .ok s ∧
      (∀ c n, x.tree.arena.get? c = some n → n.parent = some i →
        ∃ s', k.stateOf ⟨a, n.tag⟩ o = .ok s' ∧ s.absorbed ≤ s'.absorbed) ∧
      ∀ kind, Absorption.ofForeign kind ≤ s.absorbed →
        ∀ d n, x.tree.arena.get? d = some n → i ∈ x.tree.arena.lineage d →
          ∃ s', k.stateOf ⟨a, n.tag⟩ o = .ok s' ∧ ∀ rel, rel.isForeign = true →
            ∃ tr, s'.permission.transition? kind rel (k.protectors.contains n.tag) = some tr ∧
              tr.source = tr.target ∧
              ¬(k.protectors.contains n.tag = true ∧ tr.violatesProtector = true) := by
  have hs := hk.sound
  have ht := hs.tree hx
  obtain ⟨states, hval⟩ := x.tree.exists_valueAt? ho
  have habs := ht.absorption hval
  refine ⟨m.stateIn states i, stateOf_eq_stateIn hs hx hm hval hlimit, ?_, ?_⟩
  · intro c n hn hparent
    refine ⟨n.stateIn states c, stateOf_eq_stateIn hs hx hn hval hlimit, ?_⟩
    exact habs.le_child hm hn ⟨n, hn, hparent⟩
  · intro kind hkind d n hn hid
    refine ⟨n.stateIn states d, stateOf_eq_stateIn hs hx hn hval hlimit, fun rel hrel => ?_⟩
    have hacc := habs.access_of_absorbs ht.wellLinked hm hn hid (decide_eq_true hkind) hrel
    obtain ⟨htr, hviol, -⟩ := ByteState.access_eq_ok_iff.mp hacc
    exact ⟨_, htr, rfl, hviol⟩

/-- A shared borrow of a shared borrow: after a read through the owner both are known to absorb
reads, and a cousin's read is no step for the inner one. -/
theorem absorbed_sound_shared :
    ∃ (k : Checker) (x : Allocation), k.Reachable ∧ k.allocations.get? ⟨1⟩ = some x ∧
      k.stateOf ⟨⟨1⟩, ⟨3⟩⟩ 0 = .ok ⟨.frozen, true, .reads⟩ ∧
      ∃ s, k.stateOf ⟨⟨1⟩, ⟨4⟩⟩ 0 = .ok s ∧
        ∃ tr, s.permission.transition? .read .cousin (k.protectors.contains ⟨4⟩) = some tr ∧
          tr.source = tr.target := by
  have hk : Reachable ((new {}).run [.allocate 8, .derive ⟨⟨1⟩, ⟨2⟩⟩ ⟨0, 8⟩ .shared false,
      .derive ⟨⟨1⟩, ⟨3⟩⟩ ⟨0, 8⟩ .shared false, .access ⟨⟨1⟩, ⟨2⟩⟩ ⟨0, 8⟩ .read]) := ⟨{}, _, rfl⟩
  have hstate : ((new {}).run [.allocate 8, .derive ⟨⟨1⟩, ⟨2⟩⟩ ⟨0, 8⟩ .shared false,
      .derive ⟨⟨1⟩, ⟨3⟩⟩ ⟨0, 8⟩ .shared false, .access ⟨⟨1⟩, ⟨2⟩⟩ ⟨0, 8⟩ .read]).stateOf
        ⟨⟨1⟩, ⟨3⟩⟩ 0 = .ok ⟨.frozen, true, .reads⟩ := by
    decide +kernel
  have hview : (((new {}).run [.allocate 8, .derive ⟨⟨1⟩, ⟨2⟩⟩ ⟨0, 8⟩ .shared false,
      .derive ⟨⟨1⟩, ⟨3⟩⟩ ⟨0, 8⟩ .shared false,
      .access ⟨⟨1⟩, ⟨2⟩⟩ ⟨0, 8⟩ .read]).allocations.get? ⟨1⟩).map (fun x =>
        (x.tree.size, x.tree.arena.get? 1, x.tree.arena.get? 2)) =
          some (8, some ⟨.new ⟨3⟩ .frozen, some 0, [2], .frozen, .reads⟩,
            some ⟨.new ⟨4⟩ .frozen, some 1, [], .frozen, .reads⟩) := by
    decide +kernel
  obtain ⟨x, hx, hview⟩ := Option.map_eq_some_iff.mp hview
  obtain ⟨hsize, hm, hn⟩ : x.tree.size = 8 ∧ _ ∧ _ := by
    simpa using hview
  obtain ⟨s, hs, -, habs⟩ := absorbed_sound hk hx (o := 0) (by rw [hsize]; decide) (by decide) hm
  obtain rfl := Except.ok.inj (hstate.symm.trans hs)
  have hlineage : 1 ∈ x.tree.arena.lineage 2 :=
    (Arena.mem_lineage_of_isParent (hk.sound.tree hx).wellLinked ⟨_, hn, rfl⟩).mpr
      (.inr (Arena.mem_lineage_self _ 1))
  obtain ⟨s, hs, hidle⟩ := habs .read (by decide) 2 _ hn hlineage
  obtain ⟨tr, htr, heq, -⟩ := hidle .cousin rfl
  exact ⟨_, x, hk, hx, hstate, s, hs, tr, htr, heq⟩

end Checker

end TreeBorrows
