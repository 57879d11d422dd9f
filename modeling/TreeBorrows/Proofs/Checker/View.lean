/-
# What a checker answers about a tag

A program asks for states and permissions by pointer and offset.  This module says when an answer
comes and which node of which tree it is about (`stateOf_eq_ok_iff`, `permissionAt_eq_ok_iff`), so
that theorems about runs can be stated in these terms and proved about nodes.
-/
import TreeBorrows.Proofs.Checker.Advance
import TreeBorrows.Proofs.Tree.View

namespace TreeBorrows

namespace Checker

variable {k : Checker} {p : Pointer} {x : Allocation} {o : Nat}

theorem stateOf_of_get? (hx : k.allocations.get? p.alloc = some x) :
    k.stateOf p o = x.tree.stateOf p.tag o := by
  simp [stateOf, askTree, requireLive, hx]

theorem stateOf_eq_ok_iff {b : ByteState} :
    k.stateOf p o = .ok b ↔
      ∃ x, k.allocations.get? p.alloc = some x ∧ x.tree.stateOf p.tag o = .ok b := by
  cases hx : k.allocations.get? p.alloc with
  | none => simp [stateOf, askTree, requireLive, hx]
  | some x => simp [stateOf_of_get? hx]

/-- **When a checker answers with a permission.** -/
theorem permissionAt_eq_ok_iff (h : k.Sound) {q : Permission} :
    k.permissionAt p o = .ok q ↔ o + 1 < Word.limit ∧ ∃ x i n states,
      k.allocations.get? p.alloc = some x ∧ x.tree.tags.index? p.tag = some i ∧
      x.tree.arena.get? i = some n ∧ x.tree.bytes.valueAt? o = some states ∧
      (n.stateIn states i).permission = q := by
  have hstate : k.permissionAt p o = .ok q ↔
      ∃ b, k.stateOf p o = .ok b ∧ b.permission = q := by
    unfold permissionAt
    cases k.stateOf p o with
    | error f => simp [Except.map]
    | ok b => simp [Except.map]
  rw [hstate]
  constructor
  · rintro ⟨b, hb, rfl⟩
    obtain ⟨x, hx, hb⟩ := stateOf_eq_ok_iff.mp hb
    obtain ⟨hlimit, i, n, states, hi, hn, ho, rfl⟩ := (h.tree hx).stateOf_eq_ok_iff.mp hb
    exact ⟨hlimit, x, i, n, states, hx, hi, hn, ho, rfl⟩
  · rintro ⟨hlimit, x, i, n, states, hx, hi, hn, ho, rfl⟩
    refine ⟨n.stateIn states i, stateOf_eq_ok_iff.mpr ⟨x, hx, ?_⟩, rfl⟩
    exact (h.tree hx).stateOf_eq_ok_iff.mpr ⟨hlimit, i, n, states, hi, hn, ho, rfl⟩

/-- The tags of a live allocation have a permission at every byte of it. -/
theorem exists_permissionAt (h : k.Sound) (hx : k.allocations.get? p.alloc = some x)
    (htag : p.tag ∈ x.tree.tags.keys) (ho : o < x.tree.size) (hlimit : o + 1 < Word.limit) :
    ∃ q, k.permissionAt p o = .ok q := by
  obtain ⟨i, n, hn, hp⟩ := (h.tree hx).mem_tags_iff.mp htag
  obtain ⟨states, hval⟩ := x.tree.exists_valueAt? ho
  refine ⟨_, (permissionAt_eq_ok_iff h).mpr ⟨hlimit, x, i, n, states, hx, ?_, hn, hval, rfl⟩⟩
  exact hp ▸ (h.tree hx).index?_tag hn

end Checker

end TreeBorrows
