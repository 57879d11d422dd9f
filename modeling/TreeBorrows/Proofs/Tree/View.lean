/-
# What a tree answers about a tag

A program knows tags and offsets, not nodes and runs.  This module says when a tree answers for a
tag at an offset and where the answer is taken from (`Tree.Sound.stateOf_eq_ok_iff`), and what it
means for one tag to be above another one (`Tree.IsAtOrAbove`, `Tree.IsParentOf`), so that theorems
can be stated in these terms and proved about nodes.
-/
import TreeBorrows.Proofs.Tree.Sound

namespace TreeBorrows

namespace Tree

variable {t : Tree} {prot : Tag → Bool} {tag s d : Tag} {i j o : Nat}

/-! ## 1. States -/

/-- **When a tree answers, and what**: for its tags at its bytes, with the state of the node. -/
theorem Sound.stateOf_eq_ok_iff (h : t.Sound prot) {b : ByteState} :
    t.stateOf tag o = .ok b ↔ o + 1 < Word.limit ∧ ∃ i n states, t.tags.index? tag = some i ∧
      t.arena.get? i = some n ∧ t.bytes.valueAt? o = some states ∧ b = n.stateIn states i := by
  constructor
  · intro hb
    cases htag : t.requireTag tag .inspect with
    | error e => simp [stateOf, htag] at hb
    | ok i =>
      have hi := requireTag_eq_ok_iff.mp htag
      obtain ⟨n, hn, rfl⟩ := h.exists_get? hi
      cases hrange : t.requireRange ⟨o, 1⟩ .inspect with
      | error e => simp [stateOf, htag, hrange] at hb
      | ok _ =>
        obtain ⟨hlimit, hstop⟩ := requireRange_eq_ok_iff.mp hrange
        cases ho : t.bytes.valueAt? o with
        | none => exact absurd (RunMap.valueAt?_eq_none_iff.mp ho) (Nat.not_le_of_lt hstop)
        | some states =>
          rw [h.stateOf_eq hn ho hlimit] at hb
          exact ⟨hlimit, i, n, states, hi, hn, rfl, (Except.ok.inj hb).symm⟩
  · rintro ⟨hlimit, i, n, states, hi, hn, ho, rfl⟩
    obtain rfl := h.tag_eq_of_index? hi hn
    exact h.stateOf_eq hn ho hlimit

/-- Every byte below the size has states. -/
theorem exists_valueAt? (t : Tree) (ho : o < t.size) :
    ∃ states, t.bytes.valueAt? o = some states := by
  cases hval : t.bytes.valueAt? o with
  | none => exact absurd (RunMap.valueAt?_eq_none_iff.mp hval) (Nat.not_le_of_lt ho)
  | some states => exact ⟨states, rfl⟩

/-! ## 2. Ancestors -/

/-- Both tags belong to the tree, and the first one is the second or an ancestor of it. -/
def IsAtOrAbove (t : Tree) (s d : Tag) : Prop :=
  ∃ i j, t.tags.index? s = some i ∧ t.tags.index? d = some j ∧ i ∈ t.arena.lineage j

theorem isAtOrAbove_iff (hs : t.tags.index? s = some i) (hd : t.tags.index? d = some j) :
    t.IsAtOrAbove s d ↔ i ∈ t.arena.lineage j := by
  constructor
  · rintro ⟨i', j', hs', hd', hmem⟩
    obtain rfl := Option.some.inj (hs.symm.trans hs')
    obtain rfl := Option.some.inj (hd.symm.trans hd')
    exact hmem
  · intro hmem
    exact ⟨i, j, hs, hd, hmem⟩

/-- The tag that an allocation was made with is above all others. -/
theorem Sound.isAtOrAbove_owner (h : t.Sound prot) {root : Tag} (hroot : t.owner? = some root)
    (htag : tag ∈ t.tags.keys) : t.IsAtOrAbove root tag := by
  obtain ⟨n, hn, rfl⟩ := Option.map_eq_some_iff.mp hroot
  obtain ⟨i, m, hm, rfl⟩ := h.mem_tags_iff.mp htag
  refine ⟨Arena.root, i, h.index?_tag hn, h.index?_tag hm, ?_⟩
  exact Arena.root_mem_lineage h.wellLinked (Arena.lt_width_of_get? hm)

/-- Both tags belong to the tree, and the first one is the parent of the second. -/
def IsParentOf (t : Tree) (s d : Tag) : Prop :=
  ∃ i j, t.tags.index? s = some i ∧ t.tags.index? d = some j ∧ t.arena.IsParent i j

end Tree

end TreeBorrows
