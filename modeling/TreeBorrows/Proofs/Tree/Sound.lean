/-
# Sound trees

The registry of tags, the arena and the run map of a tree are kept apart, and every operation
relies on their agreement.  `Tree.Sound` is that agreement (`Tree.Indexed`, together with proper
runs whose states are those of nodes), and with it what the entries of the nodes promise
(`Arena.AbsorptionHolds`) while a set of tags is protected.

Each section below is one way in which a tree changes; all of them keep soundness.  In a sound
tree every tag has a state at every byte, and no question about it ends in a fault
(`Sound.stateOf_eq`).
-/
import TreeBorrows.Proofs.RunMap.Alignment
import TreeBorrows.Proofs.Tree.Indexed

namespace TreeBorrows

namespace Tree

/-- The parts of a tree agree with each other, and its entries are right while the tags of `prot`
are protected. -/
structure Sound (t : Tree) (prot : Tag → Bool) : Prop where
  nodup_tags : t.tags.keys.Nodup
  getElem?_tags : ∀ i : Nat, t.tags.keys[i]? = (t.arena.get? i).map Node.tag
  wellLinked : t.arena.WellLinked
  noActiveDefault : t.arena.NoActiveDefault
  isProper : t.bytes.IsProper
  lt_width : ∀ {o states i}, t.bytes.valueAt? o = some states → (states.get? i).isSome →
    i < t.arena.width
  absorption : ∀ {o states}, t.bytes.valueAt? o = some states →
    t.arena.AbsorptionHolds prot states

variable {t : Tree} {prot prot' : Tag → Bool}

/-! ## 1. What soundness gives -/

/-- **Every tag has a state at every byte**: the one that is kept, or else the default of its
node. -/
theorem Indexed.stateOf_eq (h : t.Indexed) (hd : t.arena.NoActiveDefault) {i o : Nat} {n : Node}
    {states : ByteStates} (hn : t.arena.get? i = some n) (ho : t.bytes.valueAt? o = some states)
    (hlimit : o + 1 < Word.limit) : t.stateOf n.tag o = .ok (n.stateIn states i) := by
  have htag : t.requireTag n.tag .inspect = .ok i := requireTag_eq_ok_iff.mpr (h.index?_tag hn)
  have hrange : t.requireRange ⟨o, 1⟩ .inspect = .ok () := by
    refine requireRange_eq_ok_iff.mpr ⟨hlimit, Nat.not_lt.mp fun hlt => ?_⟩
    have hnone := RunMap.valueAt?_eq_none_iff.mpr (Nat.lt_succ_iff.mp hlt)
    rw [hnone] at ho
    nomatch ho
  have hat : t.stateAt i o = .ok (n.stateIn states i) := by
    rw [stateAt, ho, Option.getD_some, Arena.look_of_get? hd hn]
    rfl
  rw [stateOf, htag]
  simp only [hrange, hat, Except.mapError]

namespace Sound

theorem indexed (h : t.Sound prot) : t.Indexed := ⟨h.nodup_tags, h.getElem?_tags, h.wellLinked⟩

theorem exists_get? (h : t.Sound prot) {tag : Tag} {i : Nat} (hi : t.tags.index? tag = some i) :
    ∃ n, t.arena.get? i = some n ∧ n.tag = tag :=
  h.indexed.exists_get? hi

theorem tag_eq_of_index? (h : t.Sound prot) {tag : Tag} {i : Nat} {n : Node}
    (hi : t.tags.index? tag = some i) (hn : t.arena.get? i = some n) : n.tag = tag := by
  obtain ⟨m, hm, rfl⟩ := h.exists_get? hi
  rw [Option.some.inj (hn.symm.trans hm)]

theorem lt_width_of_index? (h : t.Sound prot) {tag : Tag} {i : Nat}
    (hi : t.tags.index? tag = some i) : i < t.arena.width :=
  h.indexed.lt_width_of_index? hi

theorem index?_tag (h : t.Sound prot) {i : Nat} {n : Node} (hn : t.arena.get? i = some n) :
    t.tags.index? n.tag = some i :=
  h.indexed.index?_tag hn

theorem mem_tags_iff (h : t.Sound prot) {tag : Tag} :
    tag ∈ t.tags.keys ↔ ∃ i n, t.arena.get? i = some n ∧ n.tag = tag :=
  h.indexed.mem_tags_iff

/-- There is one node for each tag. -/
theorem width_eq (h : t.Sound prot) : t.arena.width = t.tags.size :=
  h.indexed.width_eq

theorem stateOf_eq (h : t.Sound prot) {i o : Nat} {n : Node} {states : ByteStates}
    (hn : t.arena.get? i = some n) (ho : t.bytes.valueAt? o = some states)
    (hlimit : o + 1 < Word.limit) : t.stateOf n.tag o = .ok (n.stateIn states i) :=
  h.indexed.stateOf_eq h.noActiveDefault hn ho hlimit

end Sound

/-! ## 2. New trees -/

theorem valueAt?_new {root : Tag} {size : Nat} {settings : Settings} {o : Nat}
    {states : ByteStates} (h : (new root size settings).bytes.valueAt? o = some states) :
    states = Slots.empty.insert Arena.root (.covered .active .nothing) := by
  rw [new, RunMap.valueAt?_ofSize] at h
  split at h
  · exact (Option.some.inj h).symm
  · cases h

theorem sound_new (root : Tag) (size : Nat) (settings : Settings) (prot : Tag → Bool) :
    (new root size settings).Sound prot := by
  have hind := indexed_new root size settings
  refine ⟨hind.nodup_tags, hind.getElem?_tags, hind.wellLinked, ?_, ?_, ?_, ?_⟩
  · intro i n hn
    obtain ⟨-, rfl⟩ := get?_new hn
    simp
  · exact RunMap.isProper_ofSize _ _
  · intro o states i ho hi
    obtain rfl := valueAt?_new ho
    rw [Slots.get?_insert] at hi
    rw [width_new]
    split at hi
    · next h => exact h ▸ Nat.one_pos
    · rw [Slots.get?_empty] at hi
      cases hi
  · intro o states ho
    obtain rfl := valueAt?_new ho
    refine ⟨fun _ _ hp => absurd hp (not_isParent_new _ _), fun {i n} hn => ?_⟩
    obtain ⟨rfl, rfl⟩ := get?_new hn
    rw [Node.stateIn, Slots.get?_insert, if_pos rfl]
    exact Absorption.nothing_le _

/-! ## 3. Runs cut in another way -/

/-- How the runs are cut does not matter. -/
theorem Sound.of_valueAt? (h : t.Sound prot) {bytes : RunMap ByteStates}
    (hproper : bytes.IsProper) (hval : ∀ o, bytes.valueAt? o = t.bytes.valueAt? o)
    (runs : Nat) : Sound { t with bytes := bytes, runsAtLastMerge := runs } prot where
  nodup_tags := h.nodup_tags
  getElem?_tags := h.getElem?_tags
  wellLinked := h.wellLinked
  noActiveDefault := h.noActiveDefault
  isProper := hproper
  lt_width ho := h.lt_width ((hval _).symm.trans ho)
  absorption ho := h.absorption ((hval _).symm.trans ho)

/-! ## 4. Other protectors -/

/-- Protectors may go, and they may come where nothing is known to be absorbed. -/
theorem Sound.reprotected (h : t.Sound prot)
    (hprot : ∀ i n, t.arena.get? i = some n → prot' n.tag = true → prot n.tag = true ∨
      ∀ o states, t.bytes.valueAt? o = some states →
        (n.stateIn states i).absorbed = .nothing) : t.Sound prot' where
  nodup_tags := h.nodup_tags
  getElem?_tags := h.getElem?_tags
  wellLinked := h.wellLinked
  noActiveDefault := h.noActiveDefault
  isProper := h.isProper
  lt_width := h.lt_width
  absorption {o states} ho := (h.absorption ho).reprotected fun i n hn hp =>
    (hprot i n hn hp).imp_right fun habs => habs o states ho

/-- Only the protectors of a tree's own tags matter to it. -/
theorem Sound.of_forall_mem (h : t.Sound prot)
    (hprot : ∀ tag ∈ t.tags.keys, prot' tag = true → prot tag = true) : t.Sound prot' :=
  h.reprotected fun i n hn hp => .inl (hprot n.tag (h.mem_tags_iff.mpr ⟨i, n, hn, rfl⟩) hp)

/-! ## 5. Names -/

/-- Names do not matter. -/
theorem Sound.named (h : t.Sound prot) (i : Nat) (s : String) :
    Sound { t with arena := t.arena.modify i fun n => { n with label := n.label.named s } }
      prot := by
  have hsk : Arena.SameSkeleton t.arena
      (t.arena.modify i fun n => { n with label := n.label.named s }) :=
    Arena.sameSkeleton_modifyAll t.arena [i] fun _ => rfl
  have hind := h.indexed.of_sameSkeleton hsk t.bytes
  refine ⟨hind.nodup_tags, hind.getElem?_tags, hind.wellLinked,
    hsk.noActiveDefault h.noActiveDefault, h.isProper, ?_, ?_⟩
  · intro o states j ho hj
    rw [hsk.width_eq]
    exact h.lt_width ho hj
  · intro o states ho
    refine (h.absorption ho).of_sameSkeleton hsk fun j n n' hn hn' => ?_
    rw [Slots.get?_modify, hn] at hn'
    split at hn'
    · obtain rfl := Option.some.inj hn'
      rfl
    · obtain rfl := Option.some.inj hn'
      rfl

/-! ## 6. Lower entries -/

theorem foldl_weakenNode (limit : Absorption) (l : List Nat) (t : Tree) :
    l.foldl (weakenNode limit) t = { t with
      arena := t.arena.modifyAll l (.weaken limit)
      bytes := t.bytes.map fun states => states.modifyAll l (.weaken limit) } := by
  induction l generalizing t with
  | nil =>
    have hbytes : (t.bytes.map fun states => states.modifyAll [] (.weaken limit)) = t.bytes :=
      RunMap.map_self t.bytes
    rw [hbytes]
    rfl
  | cons i l ih =>
    rw [List.foldl_cons, ih]
    simp only [weakenNode, RunMap.map_map]
    rfl

/-- Lowering the entries of a lineage changes the entries of its nodes and nothing else. -/
theorem weakenFrom_eq (t : Tree) (i : Nat) (limit : Absorption) :
    t.weakenFrom i limit = { t with
      arena := t.arena.modifyAll (t.arena.lineage i) (.weaken limit)
      bytes := t.bytes.map fun states =>
        states.modifyAll (t.arena.lineage i) (.weaken limit) } :=
  foldl_weakenNode limit (t.arena.lineage i) t

theorem Sound.weakenFrom (h : t.Sound prot) {i : Nat} (hi : i < t.arena.width)
    (limit : Absorption) : (t.weakenFrom i limit).Sound prot := by
  have hsk := Arena.sameSkeleton_modifyAll t.arena (t.arena.lineage i) (f := .weaken limit)
    fun _ => rfl
  rw [weakenFrom_eq]
  have hind := h.indexed.of_sameSkeleton hsk t.bytes
  refine ⟨hind.nodup_tags, hind.getElem?_tags, hind.wellLinked,
    hsk.noActiveDefault h.noActiveDefault, RunMap.isProper_map h.isProper _, ?_, ?_⟩
  · intro o states j ho hj
    rw [RunMap.valueAt?_map] at ho
    obtain ⟨states, ho₁, rfl⟩ := Option.map_eq_some_iff.mp ho
    rw [hsk.width_eq]
    refine h.lt_width ho₁ (i := j) ?_
    rw [Slots.get?_modifyAll (ByteState.weaken_weaken limit)] at hj
    split at hj
    · rwa [Option.isSome_map] at hj
    · exact hj
  · intro o states ho
    rw [RunMap.valueAt?_map] at ho
    obtain ⟨states, ho₁, rfl⟩ := Option.map_eq_some_iff.mp ho
    exact (h.absorption ho₁).weakened h.wellLinked hi limit

/-- Once a tag is known to absorb nothing, it may be protected. -/
theorem Sound.reset (h : t.Sound prot) {tag : Tag} {i : Nat} (hi : t.tags.index? tag = some i)
    (hprot : ∀ tag' ∈ t.tags.keys, tag' ≠ tag → prot' tag' = true → prot tag' = true) :
    (t.weakenFrom i .nothing).Sound prot' := by
  refine (h.weakenFrom (h.lt_width_of_index? hi) .nothing).reprotected fun j n' hn' hp => ?_
  rw [weakenFrom_eq] at hn' ⊢
  dsimp only at hn' ⊢
  obtain ⟨n, hn, htag, -⟩ := Arena.exists_of_get?_weakened .empty hn'
  by_cases htag' : n.tag = tag
  · refine .inr fun o states ho => ?_
    obtain rfl : i = j := by
      have hj := h.index?_tag hn
      rw [htag', hi] at hj
      exact Option.some.inj hj
    rw [RunMap.valueAt?_map] at ho
    obtain ⟨states, -, rfl⟩ := Option.map_eq_some_iff.mp ho
    obtain ⟨m, -, -, hstate⟩ := Arena.exists_of_get?_weakened states hn'
    rw [hstate, if_pos (Arena.mem_lineage_self _ i)]
    exact Absorption.eq_nothing_of_le (Absorption.weaken_le _ _)
  · rw [htag] at hp ⊢
    exact .inl (hprot n.tag (h.mem_tags_iff.mpr ⟨j, n, hn, rfl⟩) htag' hp)

/-! ## 7. A new leaf -/

/-- A new leaf adds a tag and a node, and states on its range, and lowers the entries of the
lineage of its parent. -/
theorem attach_eq (t : Tree) (c : NewChild) (parent : Nat) (tags : Registry Tag) (i : Nat) :
    t.attach c parent tags i = { t with
      tags := tags
      arena := (t.arena.addChild i parent (c.node parent)).modifyAll
        ((t.arena.addChild i parent (c.node parent)).lineage parent) (.weaken c.absorption)
      bytes := (t.bytes.update c.range
          (·.insert i (.covered c.permission c.absorption))).map fun states =>
        states.modifyAll ((t.arena.addChild i parent (c.node parent)).lineage parent)
          (.weaken c.absorption) } := by
  rw [attach, weakenFrom_eq]

/-- Before the entries are lowered, a byte of the tree with a new leaf is a byte of the tree
without it, and the leaf has the permission and the entry it was made with: as a state that is
kept on its range, and by default elsewhere. -/
theorem valueAt?_addLeaf (hlt : ∀ {o states i}, t.bytes.valueAt? o = some states →
      (states.get? i).isSome → i < t.arena.width) (c : NewChild) (parent : Nat) {o : Nat}
    {states : ByteStates} (ho : (t.bytes.update c.range (·.insert t.arena.width
      (.covered c.permission c.absorption))).valueAt? o = some states) :
    ∃ old, t.bytes.valueAt? o = some old ∧
      (∀ j, j ≠ t.arena.width → states.get? j = old.get? j) ∧
      (c.node parent).stateIn states t.arena.width =
        ⟨c.permission, decide (o ∈ c.range), c.absorption⟩ := by
  rw [RunMap.valueAt?_update] at ho
  split at ho
  · next hmem =>
    obtain ⟨old, hold, rfl⟩ := Option.map_eq_some_iff.mp ho
    refine ⟨old, hold, fun j hj => ?_, ?_⟩
    · rw [Slots.get?_insert, if_neg hj]
    · rw [Node.stateIn, Slots.get?_insert, if_pos rfl, decide_eq_true hmem]
      rfl
  · next hmem =>
    have hnone : states.get? t.arena.width = none := by
      rw [← Option.not_isSome_iff_eq_none]
      exact fun hsome => Nat.lt_irrefl _ (hlt ho hsome)
    refine ⟨states, ho, fun _ _ => rfl, ?_⟩
    rw [Node.stateIn, hnone, decide_eq_false hmem]
    rfl

theorem Sound.attach (h : t.Sound prot) {c : NewChild} {parent i : Nat} {tags : Registry Tag}
    (hparent : parent < t.arena.width) (hins : t.tags.insert c.tag = .ok (tags, i))
    (hperm : c.permission ≠ .active) (hprot : ∀ tag ∈ t.tags.keys, prot' tag = prot tag)
    (hnew : prot' c.tag = true → c.isProtected = true) :
    (t.attach c parent tags i).Sound prot' := by
  have hleaf := h.indexed.addLeaf hparent hins t.bytes
  obtain rfl := h.indexed.index_eq_width hins
  have hsk := Arena.sameSkeleton_modifyAll (t.arena.addChild t.arena.width parent (c.node parent))
    ((t.arena.addChild t.arena.width parent (c.node parent)).lineage parent)
    (f := .weaken c.absorption) fun _ => rfl
  have hind := hleaf.of_sameSkeleton hsk t.bytes
  rw [attach_eq]
  refine ⟨hind.nodup_tags, hind.getElem?_tags, hind.wellLinked,
    hsk.noActiveDefault (h.noActiveDefault.addChild hparent hperm), ?_, ?_, ?_⟩
  · exact RunMap.isProper_map (RunMap.isProper_update h.isProper _ _) _
  · intro o states' j ho hj
    rw [RunMap.valueAt?_map] at ho
    obtain ⟨states, ho₁, rfl⟩ := Option.map_eq_some_iff.mp ho
    obtain ⟨old, hold, hsame, -⟩ := valueAt?_addLeaf h.lt_width c parent ho₁
    rw [hsk.width_eq, Arena.width_addChild]
    by_cases hjw : j = t.arena.width
    · omega
    · rw [Slots.get?_modifyAll (ByteState.weaken_weaken _)] at hj
      have hsome : (states.get? j).isSome := by
        split at hj
        · rwa [Option.isSome_map] at hj
        · exact hj
      rw [hsame j hjw] at hsome
      have := h.lt_width hold hsome
      omega
  · intro o states' ho
    rw [RunMap.valueAt?_map] at ho
    obtain ⟨states, ho₁, rfl⟩ := Option.map_eq_some_iff.mp ho
    obtain ⟨old, hold, hsame, hleaf⟩ := valueAt?_addLeaf h.lt_width c parent ho₁
    refine (h.absorption hold).addChild h.wellLinked hparent rfl rfl ?_ ?_ ?_ ?_
    · exact fun i n hn => hprot n.tag (h.mem_tags_iff.mpr ⟨i, n, hn, rfl⟩)
    · exact fun i hi => hsame i (Nat.ne_of_lt hi)
    · rw [hleaf]
      exact Absorption.le_refl _
    · rw [hleaf]
      exact Permission.absorption_le_absorption hnew

/-! ## 8. Accesses -/

/-- A tree in which the nodes have taken the steps of an access at some bytes is sound. -/
theorem Sound.carriedOut (h : t.Sound prot) (kind : AccessKind) {start : Nat}
    (hstart : start < t.arena.width) {bytes : RunMap ByteStates} (hproper : bytes.IsProper)
    (hval : ∀ {o states'}, bytes.valueAt? o = some states' →
      ∃ states, t.bytes.valueAt? o = some states ∧ (states' = states ∨
        t.arena.CarriedOut prot kind start states states' ∧
          ∀ i, (states'.get? i).isSome → (states.get? i).isSome ∨ i < t.arena.width)) :
    Sound { t with bytes := bytes } prot where
  nodup_tags := h.nodup_tags
  getElem?_tags := h.getElem?_tags
  wellLinked := h.wellLinked
  noActiveDefault := h.noActiveDefault
  isProper := hproper
  lt_width {o states' i} ho hi := by
    obtain ⟨states, ho, rfl | ⟨-, hkept⟩⟩ := hval ho
    · exact h.lt_width ho hi
    · exact (hkept i hi).elim (h.lt_width ho) id
  absorption {o states'} ho := by
    obtain ⟨states, ho, rfl | ⟨hc, -⟩⟩ := hval ho
    · exact h.absorption ho
    · exact (h.absorption ho).carriedOut h.wellLinked hstart hc

end Tree

end TreeBorrows
