/-
# Independent accesses commute

Two reads may change places, and so may two accesses that have no byte in common: in any reachable
state, through any two tags of an allocation, whether they succeed or are refused, and with
protected tags among the nodes (`accesses_commute`).

The order can be told from two things only.  One is what the nodes are known to absorb, which no
answer depends on.  The other is the count of runs: each access divides runs at the ends of its
range, and the first of the two may be the one that joins them.  What that can change is whether
the number of runs to join at is a word, and it takes a list of almost `2 ^ 63` runs for that, more
than an address space holds.
-/
import TreeBorrows.Proofs.Checker.Reachable
import TreeBorrows.Proofs.Tree.Commuting

namespace TreeBorrows

namespace Checker

variable {k : Checker} {a : AllocationId} {x : Allocation}

/-- **Independent accesses commute.**  Let each of two accesses to the tree of a live allocation be
a read, or let them have no byte in common.  Then each of them is refused after the other one
exactly if it is refused on its own, and with the same error; it succeeds after the other one if it
succeeds on its own, as long as the tree has fewer than `2 ^ 63` runs to begin with; and in both
orders every tag ends up with the same permission at every byte, and with the same bytes
accessed. -/
theorem accesses_commute (hk : k.Reachable) (hx : k.allocations.get? a = some x)
    (acc acc' : Access)
    (hind : (acc.kind = .read ∧ acc'.kind = .read) ∨ ∀ o, o ∈ acc.range → o ∉ acc'.range) :
    (∀ e, ((x.tree.access (k.context a) acc).state.access (k.context a) acc').result =
          .error (.error e) ↔
        (x.tree.access (k.context a) acc').result = .error (.error e)) ∧
      (∀ e, ((x.tree.access (k.context a) acc').state.access (k.context a) acc).result =
          .error (.error e) ↔
        (x.tree.access (k.context a) acc).result = .error (.error e)) ∧
      (x.tree.bytes.runCount + 2 < 2 ^ 63 →
        ((x.tree.access (k.context a) acc).state.access (k.context a) acc').result =
            (x.tree.access (k.context a) acc').result ∧
          ((x.tree.access (k.context a) acc').state.access (k.context a) acc).result =
            (x.tree.access (k.context a) acc).result) ∧
      ∀ tag o,
        (((x.tree.access (k.context a) acc).state.access (k.context a) acc').state.stateOf tag
            o).map (fun s => (s.permission, s.accessed)) =
          (((x.tree.access (k.context a) acc').state.access (k.context a) acc).state.stateOf tag
            o).map (fun s => (s.permission, s.accessed)) := by
  have hind : acc.Independent acc' := hind
  have hs : x.tree.Sound (k.context a).isProtected := hk.sound.tree hx
  have hs₁ := Tree.sound_access hs acc
  have hs₂ := Tree.sound_access hs acc'
  refine ⟨?_, ?_, fun hruns => ?_, fun tag o => ?_⟩
  · exact (Tree.refusesAlike_of_independent hs hind).access_eq_error_iff hs hs₁
  · exact (Tree.refusesAlike_of_independent hs hind.symm).access_eq_error_iff hs hs₂
  · have hwords := Word.mul_two_lt_limit_iff.mpr hruns
    exact ⟨Tree.result_access_of_independent hs hind hwords,
      Tree.result_access_of_independent hs hind.symm hwords⟩
  · exact Tree.map_rights_stateOf_comm hs hind tag o

/-- A protected borrow is active at the first of eight bytes.  A read of all of them through its
parent is refused, a read through the borrow succeeds, and it does so after the other one as
well. -/
theorem read_after_refused_read :
    ∃ (k : Checker) (x : Allocation), k.Reachable ∧ k.allocations.get? ⟨1⟩ = some x ∧
      (x.tree.access (k.context ⟨1⟩) ⟨⟨2⟩, ⟨0, 8⟩, .read, .explicit .read⟩).result ≠ .ok () ∧
      ((x.tree.access (k.context ⟨1⟩) ⟨⟨2⟩, ⟨0, 8⟩, .read, .explicit .read⟩).state.access
        (k.context ⟨1⟩) ⟨⟨3⟩, ⟨0, 8⟩, .read, .explicit .read⟩).result = .ok () := by
  have hk : Reachable ((new {}).run [.allocate 8, .enter ⟨0⟩ [],
      .retag ⟨⟨1⟩, ⟨2⟩⟩ ⟨0, 4⟩ .exclusive false .strong, .access ⟨⟨1⟩, ⟨3⟩⟩ ⟨0, 1⟩ .write]) :=
    ⟨{}, _, rfl⟩
  have hview : (((new {}).run [.allocate 8, .enter ⟨0⟩ [],
      .retag ⟨⟨1⟩, ⟨2⟩⟩ ⟨0, 4⟩ .exclusive false .strong,
      .access ⟨⟨1⟩, ⟨3⟩⟩ ⟨0, 1⟩ .write]).allocations.get? ⟨1⟩).map (fun x =>
        (x.tree.bytes.runCount,
          (x.tree.access (((new {}).run [.allocate 8, .enter ⟨0⟩ [],
            .retag ⟨⟨1⟩, ⟨2⟩⟩ ⟨0, 4⟩ .exclusive false .strong,
            .access ⟨⟨1⟩, ⟨3⟩⟩ ⟨0, 1⟩ .write]).context ⟨1⟩)
              ⟨⟨2⟩, ⟨0, 8⟩, .read, .explicit .read⟩).isRefused,
          (x.tree.access (((new {}).run [.allocate 8, .enter ⟨0⟩ [],
            .retag ⟨⟨1⟩, ⟨2⟩⟩ ⟨0, 4⟩ .exclusive false .strong,
            .access ⟨⟨1⟩, ⟨3⟩⟩ ⟨0, 1⟩ .write]).context ⟨1⟩)
              ⟨⟨3⟩, ⟨0, 8⟩, .read, .explicit .read⟩).result)) = some (3, true, .ok ()) := by
    decide +kernel
  obtain ⟨x, hx, hview⟩ := Option.map_eq_some_iff.mp hview
  simp only [Prod.mk.injEq] at hview
  obtain ⟨hruns, hrefused, hok⟩ := hview
  have h := accesses_commute hk hx ⟨⟨2⟩, ⟨0, 8⟩, .read, .explicit .read⟩
    ⟨⟨3⟩, ⟨0, 8⟩, .read, .explicit .read⟩ (.inl ⟨rfl, rfl⟩)
  refine ⟨_, x, hk, hx, fun hyes => ?_, ?_⟩
  · obtain ⟨e, he⟩ := Outcome.isRefused_iff.mp hrefused
    rw [hyes] at he
    cases he
  · rw [(h.2.2.1 (by rw [hruns]; decide)).1, hok]

end Checker

end TreeBorrows
