/-
# Ancestry in an arena

A node's `lineage` is the climb from it to the root.  In a `WellLinked` arena, where parents and
children agree, the lineages are what one expects of a rooted tree: ancestry is transitive, two
ancestors of one node are ancestors of each other, and every node lies below the root.

Two ways of walking the tree carry the proofs that follow: `WellLinked.climb` goes from the root
up to a node, one parent at a time, and `WellLinked.descend` takes a node after all of its
children.

At the end stands `relatedness`, which says how a node sees an access through another one.  All
that ever matters of it is whether the node is on the lineage of the accessed one
(`isForeign_relatedness`).
-/
import Mathlib.Data.List.Nodup
import Mathlib.Logic.Relation
import TreeBorrows.Tree.Basic

namespace TreeBorrows

namespace Arena

variable {a : Arena} {i j k p c : Nat}

/-! ## 1. Links -/

/-- The node `i` was derived from the node `p`. -/
def IsParent (a : Arena) (p i : Nat) : Prop := ∃ n, a.get? i = some n ∧ n.parent = some p

/-- The links of an arena make it a tree: every slot holds a node, parents are older than their
children, only the root has none, and a node lists as its children exactly the nodes that name
it as their parent, in the order of their age. -/
structure WellLinked (a : Arena) : Prop where
  width_pos : 0 < a.width
  isSome_get? : ∀ {i}, i < a.width → (a.get? i).isSome
  parent_eq_none_iff : ∀ {i n}, a.get? i = some n → (n.parent = none ↔ i = root)
  parent_lt : ∀ {p i}, a.IsParent p i → p < i
  mem_children_iff : ∀ {p n c}, a.get? p = some n → (c ∈ n.children ↔ a.IsParent p c)
  sorted_children : ∀ {p n}, a.get? p = some n → n.children.Pairwise (· < ·)

theorem lt_width_of_get? {n : Node} (h : a.get? i = some n) : i < a.width := by
  rw [Slots.get?, Option.join_eq_some_iff] at h
  exact (List.getElem?_eq_some_iff.mp h).1

theorem IsParent.lt_width (h : a.IsParent p i) : i < a.width := by
  obtain ⟨n, hn, -⟩ := h
  exact lt_width_of_get? hn

/-- A node has one parent. -/
theorem IsParent.unique {q : Nat} (h : a.IsParent p i) (h' : a.IsParent q i) : p = q := by
  obtain ⟨n, hn, hp⟩ := h
  obtain ⟨m, hm, hq⟩ := h'
  obtain rfl := Option.some.inj (hn.symm.trans hm)
  exact Option.some.inj (hp.symm.trans hq)

namespace WellLinked

theorem exists_get? (hw : a.WellLinked) (hi : i < a.width) : ∃ n, a.get? i = some n :=
  Option.isSome_iff_exists.mp (hw.isSome_get? hi)

theorem nodup_children (hw : a.WellLinked) {n : Node} (hn : a.get? p = some n) :
    n.children.Nodup :=
  (hw.sorted_children hn).imp Nat.ne_of_lt

/-- Every node but the root has a parent. -/
theorem exists_parent (hw : a.WellLinked) (hi : i < a.width) (h : i ≠ root) :
    ∃ p, a.IsParent p i := by
  obtain ⟨n, hn⟩ := hw.exists_get? hi
  have hne : n.parent ≠ none := fun h' => h ((hw.parent_eq_none_iff hn).mp h')
  obtain ⟨p, hp⟩ := Option.ne_none_iff_exists'.mp hne
  exact ⟨p, n, hn, hp⟩

/-- **Climbing.**  What holds of the root, and of a node whenever it holds of its parent, holds
of every node. -/
theorem climb (hw : a.WellLinked) {P : Nat → Prop} (top : P root)
    (step : ∀ p i, a.IsParent p i → P p → P i) : ∀ i, i < a.width → P i := by
  intro i
  induction i using Nat.strongRecOn with
  | ind i ih =>
    intro hi
    by_cases h : i = root
    · exact h ▸ top
    · obtain ⟨p, hp⟩ := hw.exists_parent hi h
      have hlt := hw.parent_lt hp
      exact step p i hp (ih p hlt (by omega))

/-- **Descending.**  What holds of a node whenever it holds of all of its children holds of
every node.  Children are younger than their parent, which is why this ends. -/
theorem descend (hw : a.WellLinked) {P : Nat → Prop}
    (step : ∀ i n, a.get? i = some n → (∀ c, a.IsParent i c → P c) → P i) :
    ∀ i, i < a.width → P i := by
  intro i
  induction h : a.width - i using Nat.strongRecOn generalizing i with
  | ind d ih =>
    intro hi
    obtain ⟨n, hn⟩ := hw.exists_get? hi
    refine step i n hn fun c hc => ?_
    have hlt := hw.parent_lt hc
    have hc' := hc.lt_width
    exact ih (a.width - c) (by omega) c rfl hc'

end WellLinked

/-! ## 2. Lineages -/

theorem mem_lineage_self (a : Arena) (i : Nat) : i ∈ a.lineage i := by
  rw [lineage]
  exact List.mem_cons_self

theorem lineage_root (hw : a.WellLinked) : a.lineage root = [root] := by
  obtain ⟨n, hn⟩ := hw.exists_get? hw.width_pos
  have hp : n.parent = none := (hw.parent_eq_none_iff hn).mpr rfl
  rw [lineage, show a.get? root = some n from hn]
  simp only [hp]

/-- The climb from a node goes on from its parent. -/
theorem lineage_of_isParent (hw : a.WellLinked) (h : a.IsParent p i) :
    a.lineage i = i :: a.lineage p := by
  have hlt := hw.parent_lt h
  obtain ⟨n, hn, hp⟩ := h
  rw [lineage, hn]
  simp only [hp, if_pos hlt]

theorem mem_lineage_of_isParent (hw : a.WellLinked) (h : a.IsParent p i) :
    j ∈ a.lineage i ↔ j = i ∨ j ∈ a.lineage p := by
  rw [lineage_of_isParent hw h, List.mem_cons]

/-- The lineage of a node holds the node and all of its ancestors. -/
theorem mem_lineage_iff (hw : a.WellLinked) (hi : i < a.width) :
    j ∈ a.lineage i ↔ Relation.ReflTransGen a.IsParent j i := by
  refine hw.climb (P := fun i => j ∈ a.lineage i ↔ Relation.ReflTransGen a.IsParent j i)
    ?_ ?_ i hi
  · rw [lineage_root hw, List.mem_singleton]
    constructor
    · rintro rfl
      exact .refl
    · intro h
      rcases h.cases_tail with h | ⟨p, -, hp⟩
      · exact h.symm
      · exact absurd (hw.parent_lt hp) (Nat.not_lt_zero p)
  · intro p i hp ih
    rw [mem_lineage_of_isParent hw hp, ih]
    constructor
    · rintro (rfl | h)
      · exact .refl
      · exact h.tail hp
    · intro h
      rcases h.cases_tail with h | ⟨q, h, hq⟩
      · exact .inl h.symm
      · exact .inr (hp.unique hq ▸ h)

/-- Ancestors are older. -/
theorem le_of_mem_lineage (hw : a.WellLinked) (hi : i < a.width) (h : j ∈ a.lineage i) :
    j ≤ i := by
  revert h
  refine hw.climb (P := fun i => j ∈ a.lineage i → j ≤ i) ?_ ?_ i hi
  · rw [lineage_root hw]
    intro h
    exact Nat.le_of_eq (List.mem_singleton.mp h)
  · intro p i hp ih h
    have hlt := hw.parent_lt hp
    rcases (mem_lineage_of_isParent hw hp).mp h with rfl | h
    · exact Nat.le_refl _
    · have := ih h
      omega

/-- An ancestor's ancestor is an ancestor. -/
theorem mem_lineage_trans (hw : a.WellLinked) (hk : k < a.width) (hij : i ∈ a.lineage j)
    (hjk : j ∈ a.lineage k) : i ∈ a.lineage k := by
  have hj : j < a.width := Nat.lt_of_le_of_lt (le_of_mem_lineage hw hk hjk) hk
  rw [mem_lineage_iff hw hj] at hij
  rw [mem_lineage_iff hw hk] at hjk ⊢
  exact hij.trans hjk

/-- **A lineage is a chain**: of two ancestors of a node one is an ancestor of the other. -/
theorem mem_lineage_or_mem_lineage (hw : a.WellLinked) (hk : k < a.width)
    (hi : i ∈ a.lineage k) (hj : j ∈ a.lineage k) : i ∈ a.lineage j ∨ j ∈ a.lineage i := by
  revert hi hj
  refine hw.climb
    (P := fun k => i ∈ a.lineage k → j ∈ a.lineage k → i ∈ a.lineage j ∨ j ∈ a.lineage i)
    ?_ ?_ k hk
  · rw [lineage_root hw]
    intro hi hj
    rw [List.mem_singleton.mp hi, List.mem_singleton.mp hj]
    exact .inl (mem_lineage_self a root)
  · intro p k hp ih hi hj
    rcases (mem_lineage_of_isParent hw hp).mp hi with rfl | hi'
    · exact .inr hj
    · rcases (mem_lineage_of_isParent hw hp).mp hj with rfl | hj'
      · exact .inl hi
      · exact ih hi' hj'

theorem lt_width_of_mem_lineage (hw : a.WellLinked) (hi : i < a.width) (h : j ∈ a.lineage i) :
    j < a.width :=
  Nat.lt_of_le_of_lt (le_of_mem_lineage hw hi h) hi

/-- Nodes that are ancestors of each other are the same. -/
theorem eq_of_mem_lineage (hw : a.WellLinked) (hj : j < a.width) (hij : i ∈ a.lineage j)
    (hji : j ∈ a.lineage i) : i = j :=
  Nat.le_antisymm (le_of_mem_lineage hw hj hij)
    (le_of_mem_lineage hw (lt_width_of_mem_lineage hw hj hij) hji)

theorem root_mem_lineage (hw : a.WellLinked) (hi : i < a.width) : root ∈ a.lineage i := by
  refine hw.climb (P := fun i => root ∈ a.lineage i) (mem_lineage_self a root) ?_ i hi
  intro p i hp ih
  exact (mem_lineage_of_isParent hw hp).mpr (.inr ih)

/-- Below a node, every other node lies below one of its children. -/
theorem exists_child_mem_lineage (hw : a.WellLinked) (hj : j < a.width) (h : i ∈ a.lineage j)
    (hne : i ≠ j) : ∃ c, a.IsParent i c ∧ c ∈ a.lineage j := by
  revert h hne
  refine hw.climb
    (P := fun j => i ∈ a.lineage j → i ≠ j → ∃ c, a.IsParent i c ∧ c ∈ a.lineage j) ?_ ?_ j hj
  · rw [lineage_root hw]
    intro h hne
    exact absurd (List.mem_singleton.mp h) hne
  · intro p j hp ih h hne
    rcases (mem_lineage_of_isParent hw hp).mp h with h | h
    · exact absurd h hne
    · by_cases hip : i = p
      · exact ⟨j, hip ▸ hp, mem_lineage_self a j⟩
      · obtain ⟨c, hc, hcp⟩ := ih h hip
        exact ⟨c, hc, (mem_lineage_of_isParent hw hp).mpr (.inr hcp)⟩

/-- A child is not above its parent. -/
theorem IsParent.not_mem_lineage (hw : a.WellLinked) (h : a.IsParent p c) :
    c ∉ a.lineage p := by
  intro h'
  have hlt := hw.parent_lt h
  have hc := h.lt_width
  have hle := le_of_mem_lineage hw (by omega) h'
  omega

/-! ## 3. Children -/

/-- The node `p` has the node `c` on its list of children. -/
def Lists (a : Arena) (p c : Nat) : Prop := ∃ n, a.get? p = some n ∧ c ∈ n.children

theorem isParent_iff : a.IsParent p c ↔ (a.get? c).bind Node.parent = some p := by
  rw [Option.bind_eq_some_iff]
  exact Iff.rfl

theorem WellLinked.lists_iff (hw : a.WellLinked) : a.Lists p c ↔ a.IsParent p c := by
  constructor
  · rintro ⟨n, hn, hc⟩
    exact (hw.mem_children_iff hn).mp hc
  · intro h
    obtain ⟨n, hn⟩ := hw.exists_get? (Nat.lt_trans (hw.parent_lt h) h.lt_width)
    exact ⟨n, hn, (hw.mem_children_iff hn).mpr h⟩

/-- A node is listed once by its parent, and not at all by any other node. -/
theorem WellLinked.count_children (hw : a.WellLinked) {m : Node} (hm : a.get? p = some m) :
    m.children.count c = if (a.get? c).bind Node.parent = some p then 1 else 0 := by
  split
  · next h =>
    exact List.count_eq_one_of_mem (hw.nodup_children hm)
      ((hw.mem_children_iff hm).mpr (isParent_iff.mpr h))
  · next h =>
    exact List.count_eq_zero.mpr fun hc => h (isParent_iff.mp ((hw.mem_children_iff hm).mp hc))

/-- Every node can be reached from the root by way of the lists of children. -/
theorem WellLinked.reflTransGen_lists (hw : a.WellLinked) (hi : i < a.width) :
    Relation.ReflTransGen a.Lists root i :=
  ((mem_lineage_iff hw hi).mp (root_mem_lineage hw hi)).lift id fun _ _ => hw.lists_iff.mpr

/-! ## 4. How a node sees an access -/

/-- Where the accessed node `start` lies, seen from the node `i`. -/
def relatedness (a : Arena) (start i : Nat) : Relatedness :=
  if i = start then .this
  else if i ∈ a.lineage start then .strictChild
  else if start ∈ a.lineage i then .ancestor
  else .cousin

/-- An access is foreign to every node except the accessed one and those above it. -/
theorem isForeign_relatedness (a : Arena) (start i : Nat) :
    (a.relatedness start i).isForeign = decide (i ∉ a.lineage start) := by
  unfold relatedness
  split
  · next h =>
    subst h
    simp [Relatedness.isForeign, mem_lineage_self]
  · split
    · next h => simp [Relatedness.isForeign, h]
    · next h =>
      split
      · simp [Relatedness.isForeign, h]
      · simp [Relatedness.isForeign, h]

/-- What lies below a node that an access is foreign to, the access is foreign to as well. -/
theorem not_mem_lineage_of_isParent (hw : a.WellLinked) {start : Nat}
    (hstart : start < a.width) (h : a.IsParent p c) (hp : p ∉ a.lineage start) :
    c ∉ a.lineage start := by
  intro hc
  have hpc : p ∈ a.lineage c :=
    (mem_lineage_of_isParent hw h).mpr (.inr (mem_lineage_self a p))
  exact hp (mem_lineage_trans hw hstart hpc hc)

end Arena

end TreeBorrows
