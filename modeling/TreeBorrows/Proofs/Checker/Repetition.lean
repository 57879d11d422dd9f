/-
# Accesses that come again

A program often makes an access that it has just made, or a smaller one.  In every reachable state
this succeeds, and it changes nothing at all: not what any tag may do, not which bytes were
accessed, not what is known to be absorbed (`access_repeated`).  So a checker that leaves out such
an access misses nothing.

The tree says what an idle access is and why this one is idle (`Tree.idleFrom_access_again`); here
it is followed through the checker.
-/
import TreeBorrows.Proofs.Checker.TwoPhase
import TreeBorrows.Proofs.Tree.Idle

namespace TreeBorrows

namespace Checker

variable {k : Checker} {p q : Pointer} {a : AllocationId} {x : Allocation} {r r' : ByteRange}
  {kind kind' : AccessKind} {start : Nat} {β : Type} {f : ByteState → β}

/-! ## 1. Idle accesses -/

theorem get?_putTree (k : Checker) (a : AllocationId) (x : Allocation) (t : Tree) :
    (k.putTree a x t).allocations.get? a = some { x with tree := t } := by
  rw [putTree, Table.get?_insert, if_pos rfl]

/-- Another tree answers for its tags, and nothing else changes. -/
theorem stateOf_putTree (k : Checker) (x : Allocation) (t : Tree) (q : Pointer) (o : Nat) :
    (k.putTree a x t).stateOf q o = if q.alloc = a then t.stateOf q.tag o else k.stateOf q o := by
  split
  · next heq =>
    subst heq
    exact stateOf_of_get? (get?_putTree k q.alloc x t)
  · next hne =>
    have hget : (k.putTree a x t).allocations.get? q.alloc = k.allocations.get? q.alloc := by
      rw [putTree, Table.get?_insert, if_neg hne]
    simp only [stateOf, askTree, requireLive, hget]

/-- **An access that is idle in its tree** is not refused, and changes nothing that `f` shows of any
tag of any allocation. -/
theorem access_of_idleFrom (h : k.Sound) (hx : k.allocations.get? p.alloc = some x)
    (hidle : x.tree.IdleFrom (k.context p.alloc) ⟨p.tag, r, kind, .explicit kind⟩ start f) :
    (∀ e, (k.access p r kind).result ≠ .error (.error e)) ∧
      (x.tree.runsAtLastMerge + x.tree.mergeSlack < Word.limit →
        (k.access p r kind).result = .ok ()) ∧
      ∀ q o, ((k.access p r kind).state.stateOf q o).map f = (k.stateOf q o).map f := by
  have hs : x.tree.Sound (k.context p.alloc).isProtected := h.tree hx
  rw [result_access hx, state_access hx]
  refine ⟨hidle.ne_error hs, hidle.result_eq hs, fun q o => ?_⟩
  rw [stateOf_putTree]
  split
  · next heq =>
    rw [stateOf_of_get? (heq.symm ▸ hx)]
    exact hidle.map_stateOf hs q.tag o
  · rfl

/-! ## 2. The same access again -/

theorem exists_get?_of_access_eq_ok (hok : (k.access p r kind).result = .ok ()) :
    ∃ x, k.allocations.get? p.alloc = some x := by
  rcases onTree_cases k p (.ofAccess kind) fun ctx t =>
      t.access ctx ⟨p.tag, r, kind, .explicit kind⟩ with ⟨e, heq⟩ | ⟨x, hx, -⟩
  · rw [access, heq] at hok
    cases hok
  · exact ⟨x, hx⟩

/-- **Accesses are idempotent.**  In every reachable state, let an access through a pointer succeed,
and let another one follow at once, through the same pointer, over the range or a part of it, and of
the same kind or a read.

* It is not refused.
* It succeeds, as long as the tree had fewer than `2 ^ 63 - 2` runs before the first of the two; a
  vector has room for fewer.
* It leaves every tag of every allocation the state that it had, at every byte, in all its parts. -/
theorem access_repeated (hk : k.Reachable) (hok : (k.access p r kind).result = .ok ())
    (hr : r'.Within r) (hkind : kind' = kind ∨ kind' = .read) :
    let k' := (k.access p r kind).state
    (∀ e, (k'.access p r' kind').result ≠ .error (.error e)) ∧
      (∃ x, k.allocations.get? p.alloc = some x ∧
        (x.tree.bytes.runCount + 2 < 2 ^ 63 → (k'.access p r' kind').result = .ok ())) ∧
      ∀ q o, (k'.access p r' kind').state.stateOf q o = k'.stateOf q o := by
  intro k'
  obtain ⟨x, hx⟩ := exists_get?_of_access_eq_ok hok
  have hs : x.tree.Sound (k.context p.alloc).isProtected := hk.sound.tree hx
  have hs' : k'.Sound := hk.sound.perform (.access p r kind)
  have hok' := (result_access hx).symm.trans hok
  have hparts : ∃ start, (x.tree.access (k.context p.alloc)
      ⟨p.tag, r, kind, .explicit kind⟩).state.IdleFrom (k.context p.alloc)
        ⟨p.tag, r', kind', .explicit kind'⟩ start id :=
    Tree.idleFrom_access_again hs hok' rfl hr hkind
  obtain ⟨start, hidle⟩ := hparts
  have hstate : k' = k.putTree p.alloc x _ := state_access hx
  have hx' : k'.allocations.get? p.alloc = some { x with tree := _ } :=
    hstate ▸ get?_putTree k p.alloc x _
  have hcontext : k'.context p.alloc = k.context p.alloc := by
    rw [hstate]
    rfl
  obtain ⟨hne, hres, hsame⟩ := access_of_idleFrom hs' hx' (by rw [hcontext]; exact hidle)
  refine ⟨hne, ⟨x, hx, fun hruns => hres ?_⟩, fun q o => ?_⟩
  · have hwords := Word.mul_two_lt_limit_iff.mpr hruns
    exact (Tree.hasRoom_access_iff hs _ hwords).mpr ((Tree.accepted_iff hs _).mp hok').2
  · have hid : ∀ y : Except Failure ByteState, y.map id = y := by
      rintro (f | s) <;> rfl
    rw [← hid (k'.stateOf q o), ← hsame q o, hid]

/-- A shared borrow lies beside a protected mutable one, which is written through at four bytes.
Reading two of them through the same pointer succeeds then, and the shared borrow is as dead as it
was. -/
theorem read_after_write :
    ∃ k : Checker, k.Reachable ∧
      (k.access ⟨⟨1⟩, ⟨4⟩⟩ ⟨0, 4⟩ .write).result = .ok () ∧
      ((k.access ⟨⟨1⟩, ⟨4⟩⟩ ⟨0, 4⟩ .write).state.access ⟨⟨1⟩, ⟨4⟩⟩ ⟨1, 2⟩ .read).result = .ok () ∧
      ((k.access ⟨⟨1⟩, ⟨4⟩⟩ ⟨0, 4⟩ .write).state.access ⟨⟨1⟩, ⟨4⟩⟩ ⟨1, 2⟩ .read).state.stateOf
        ⟨⟨1⟩, ⟨3⟩⟩ 1 = .ok ⟨.disabled, true, .writes⟩ := by
  let es : List Event := [.allocate 8, .derive ⟨⟨1⟩, ⟨2⟩⟩ ⟨0, 2⟩ .shared false, .enter ⟨0⟩ [],
    .retag ⟨⟨1⟩, ⟨2⟩⟩ ⟨0, 4⟩ .exclusive false .strong]
  have hk : Reachable ((new {}).run es) := ⟨{}, es, rfl⟩
  have hview : (((new {}).run es).allocations.get? ⟨1⟩).map (·.tree.bytes.runCount) = some 3 := by
    decide +kernel
  have hok : (((new {}).run es).access ⟨⟨1⟩, ⟨4⟩⟩ ⟨0, 4⟩ .write).result = .ok () := by
    decide +kernel
  have hpart : ByteRange.Within ⟨1, 2⟩ ⟨0, 4⟩ := by decide
  have hread : AccessKind.read = .write ∨ AccessKind.read = .read := .inr rfl
  obtain ⟨-, ⟨x, hx, hres⟩, hsame⟩ := access_repeated hk hok hpart hread
  refine ⟨_, hk, hok, hres ?_, ?_⟩
  · rw [hx, Option.map_some, Option.some.injEq] at hview
    rw [hview]
    decide
  · rw [hsame]
    decide +kernel

end Checker

end TreeBorrows
