/-
# The registry of tags and the arena agree

A tree keeps its tags in one place and its nodes in another, and finds a node by way of the index
of its tag.  `Tree.Indexed` says that this finds the right node: the tags are distinct, every
index of a tag is that of a node, the node carries the tag, and the links between the nodes make
them a tree.

States are not mentioned here.  Only two kinds of operation matter, therefore: those that keep the
skeleton of the arena, and the addition of a leaf together with its tag.
-/
import TreeBorrows.Proofs.Tree.Reshape
import TreeBorrows.Tree.Reborrow

namespace TreeBorrows

namespace Tree

/-- The registry lists the tags of the nodes, each at the index of its node, and the nodes are
linked to a tree. -/
structure Indexed (t : Tree) : Prop where
  nodup_tags : t.tags.keys.Nodup
  getElem?_tags : ∀ i : Nat, t.tags.keys[i]? = (t.arena.get? i).map Node.tag
  wellLinked : t.arena.WellLinked

variable {t : Tree}

namespace Indexed

/-! ## 1. Tags and nodes -/

theorem exists_get? (h : t.Indexed) {tag : Tag} {i : Nat} (hi : t.tags.index? tag = some i) :
    ∃ n, t.arena.get? i = some n ∧ n.tag = tag := by
  have hk := Registry.getElem?_of_index? hi
  rw [h.getElem?_tags] at hk
  exact Option.map_eq_some_iff.mp hk

theorem index?_tag (h : t.Indexed) {i : Nat} {n : Node} (hn : t.arena.get? i = some n) :
    t.tags.index? n.tag = some i := by
  have hk : t.tags.keys[i]? = some n.tag := by rw [h.getElem?_tags, hn]; rfl
  obtain ⟨hi, hk⟩ := List.getElem?_eq_some_iff.mp hk
  rw [Registry.index?, List.idxOf?_eq_some_iff]
  refine ⟨hi, hk, fun j hj heq => ?_⟩
  have hj' : j < t.tags.keys.length := Nat.lt_trans hj hi
  exact List.pairwise_iff_getElem.mp h.nodup_tags j i hj' hi hj (heq.trans hk.symm)

/-- **A tag is found at the index of the node that carries it**, and nowhere else. -/
theorem index?_eq_some_iff (h : t.Indexed) {tag : Tag} {i : Nat} :
    t.tags.index? tag = some i ↔ ∃ n, t.arena.get? i = some n ∧ n.tag = tag := by
  refine ⟨h.exists_get?, ?_⟩
  rintro ⟨n, hn, rfl⟩
  exact h.index?_tag hn

theorem mem_tags_iff (h : t.Indexed) {tag : Tag} :
    tag ∈ t.tags.keys ↔ ∃ i n, t.arena.get? i = some n ∧ n.tag = tag := by
  rw [List.mem_iff_getElem?]
  refine exists_congr fun i => ?_
  rw [h.getElem?_tags, Option.map_eq_some_iff]

/-- The arena holds a node at every index below the number of tags, and at no other. -/
theorem isSome_get?_iff (h : t.Indexed) {i : Nat} :
    (t.arena.get? i).isSome ↔ i < t.tags.size := by
  have hk := h.getElem?_tags i
  cases hn : t.arena.get? i with
  | none =>
    rw [hn] at hk
    have hle : t.tags.size ≤ i := List.getElem?_eq_none_iff.mp hk
    simpa using hle
  | some n =>
    rw [hn] at hk
    exact iff_of_true rfl (List.getElem?_eq_some_iff.mp hk).1

/-- There is one node for each tag. -/
theorem width_eq (h : t.Indexed) : t.arena.width = t.tags.size := by
  have hlt : ∀ i, i < t.arena.width ↔ i < t.tags.size := by
    intro i
    rw [← h.isSome_get?_iff]
    refine ⟨h.wellLinked.isSome_get?, fun hi => ?_⟩
    obtain ⟨n, hn⟩ := Option.isSome_iff_exists.mp hi
    exact Arena.lt_width_of_get? hn
  have h₁ := hlt t.arena.width
  have h₂ := hlt t.tags.size
  omega

theorem lt_width_of_index? (h : t.Indexed) {tag : Tag} {i : Nat}
    (hi : t.tags.index? tag = some i) : i < t.arena.width := by
  rw [h.width_eq]
  exact Registry.lt_size_of_index? hi

/-! ## 2. Operations that keep the skeleton -/

/-- Names, entries and states do not matter. -/
theorem of_sameSkeleton (h : t.Indexed) {arena : Arena}
    (hsk : Arena.SameSkeleton t.arena arena) (bytes : RunMap ByteStates) :
    Indexed { t with arena := arena, bytes := bytes } where
  nodup_tags := h.nodup_tags
  getElem?_tags i := (h.getElem?_tags i).trans (hsk.map_tag_eq i).symm
  wellLinked := hsk.wellLinked h.wellLinked

/-! ## 3. A new leaf -/

/-- The new tag stands in the registry where the new node stands in the arena. -/
theorem getElem?_addLeaf (h : t.Indexed) {parent : Nat} (hparent : parent < t.arena.width)
    (c : NewChild) (j : Nat) :
    (t.tags.keys ++ [c.tag])[j]? =
      ((t.arena.addChild t.arena.width parent (c.node parent)).get? j).map Node.tag := by
  have hsize : t.tags.keys.length = t.arena.width := h.width_eq.symm
  rw [List.getElem?_append]
  by_cases hj : j = t.arena.width
  · subst hj
    rw [Arena.get?_addChild_width hparent, hsize]
    simp [NewChild.node, Node.tag, Label.new]
  · rw [Arena.get?_addChild_of_ne hj, Option.map_map]
    split
    · exact h.getElem?_tags j
    · next hlt =>
      have hnone : t.arena.get? j = none := by
        rw [Option.eq_none_iff_forall_not_mem]
        intro n hn
        have := Arena.lt_width_of_get? hn
        omega
      rw [hnone]
      simp only [Option.map_none, List.getElem?_eq_none_iff, List.length_singleton]
      omega

/-- A leaf is registered under the next index. -/
theorem index_eq_width (h : t.Indexed) {tag : Tag} {tags : Registry Tag} {i : Nat}
    (hins : t.tags.insert tag = .ok (tags, i)) : i = t.arena.width :=
  (Registry.insert_eq_ok_iff.mp hins).2.2.2.trans h.width_eq.symm

theorem addLeaf (h : t.Indexed) {c : NewChild} {parent i : Nat} {tags : Registry Tag}
    (hparent : parent < t.arena.width) (hins : t.tags.insert c.tag = .ok (tags, i))
    (bytes : RunMap ByteStates) :
    Indexed { t with
      tags := tags
      arena := t.arena.addChild i parent (c.node parent)
      bytes := bytes } := by
  obtain rfl := h.index_eq_width hins
  obtain ⟨-, hfresh, hkeys, -⟩ := Registry.insert_eq_ok_iff.mp hins
  constructor
  · dsimp only
    rw [hkeys, List.nodup_append]
    refine ⟨h.nodup_tags, by simp, ?_⟩
    rintro k hk k' hk' rfl
    exact hfresh (List.mem_singleton.mp hk' ▸ hk)
  · intro j
    dsimp only
    rw [hkeys]
    exact h.getElem?_addLeaf hparent c j
  · exact h.wellLinked.addChild hparent rfl rfl

end Indexed

/-! ## 4. New trees -/

theorem get?_new {root : Tag} {size : Nat} {settings : Settings} {i : Nat} {n : Node}
    (h : (new root size settings).arena.get? i = some n) :
    i = Arena.root ∧ n = ⟨.new root .active, none, [], .disabled, .nothing⟩ := by
  rw [new, Slots.get?_insert] at h
  split at h
  · next hi => exact ⟨hi, (Option.some.inj h).symm⟩
  · rw [Slots.get?_empty] at h
    cases h

theorem get?_root_new (root : Tag) (size : Nat) (settings : Settings) :
    (new root size settings).arena.get? Arena.root =
      some ⟨.new root .active, none, [], .disabled, .nothing⟩ := by
  rw [new, Slots.get?_insert, if_pos rfl]

theorem width_new (root : Tag) (size : Nat) (settings : Settings) :
    (new root size settings).arena.width = 1 :=
  Slots.width_insert _ _ _

/-- The root is nobody's child. -/
theorem not_isParent_new {root : Tag} {size : Nat} {settings : Settings} (p i : Nat) :
    ¬(new root size settings).arena.IsParent p i := by
  rintro ⟨n, hn, hp⟩
  obtain ⟨-, rfl⟩ := get?_new hn
  cases hp

theorem wellLinked_new (root : Tag) (size : Nat) (settings : Settings) :
    (new root size settings).arena.WellLinked := by
  constructor
  · rw [width_new]
    exact Nat.one_pos
  · intro i hi
    rw [width_new] at hi
    obtain rfl : i = Arena.root := Nat.lt_one_iff.mp hi
    rw [get?_root_new]
    rfl
  · intro i n hn
    obtain ⟨rfl, rfl⟩ := get?_new hn
    exact ⟨fun _ => rfl, fun _ => rfl⟩
  · intro p i hp
    exact absurd hp (not_isParent_new p i)
  · intro p n c hn
    obtain ⟨-, rfl⟩ := get?_new hn
    exact ⟨fun h => absurd h List.not_mem_nil, fun h => absurd h (not_isParent_new p c)⟩
  · intro p n hn
    obtain ⟨-, rfl⟩ := get?_new hn
    exact .nil

theorem indexed_new (root : Tag) (size : Nat) (settings : Settings) :
    (new root size settings).Indexed where
  nodup_tags := by simp [new]
  getElem?_tags i := by
    by_cases hi : i = Arena.root
    · rw [hi, get?_root_new]
      rfl
    · have hnone : (new root size settings).arena.get? i = none := by
        rw [new, Slots.get?_insert, if_neg hi, Slots.get?_empty]
      rw [hnone]
      exact List.getElem?_eq_none (Nat.pos_of_ne_zero hi)
  wellLinked := wellLinked_new root size settings

end Tree

end TreeBorrows
