/-
# What a reborrow does to a tree

Deriving a pointer reads through the pointer it comes from, and then adds a node.  Apart from faults
it is the read that decides whether this succeeds (`insertChild_eq_ok_iff`), and apart from the new
node it is the read that decides what every tag may do afterwards.  Only what the nodes above the
new one are known to absorb is lowered, at every byte, inside of the range and outside.

`reborrow_effect` says so about every tree that a history can lead to, as long as no node starts as
active; only the first tag of an allocation is active from the start, and it has its states kept at
every byte.  That is all there is to know about such a tree for its tags to have states
(`noActiveDefault_run`), whoever is protected while the operations are carried out.
-/
import TreeBorrows.Proofs.Tree.History
import TreeBorrows.Proofs.Tree.View

namespace TreeBorrows

namespace Tree

variable {t t' : Tree} {ctx : Context} {acc : Access} {c : NewChild} {parent i o : Nat}
  {tags : Registry Tag}

/-! ## 1. Histories without nodes that start as active -/

/-- The operation adds no node that starts as active. -/
def Action.StartsInactive : Action → Prop
  | .insertChild _ child => child.permission ≠ .active
  | .access _ _ | .free _ _ | .resetAbsorption _ | .name _ _ _ => True

theorem sameSkeleton_weakenFrom (t : Tree) (i : Nat) (limit : Absorption) :
    Arena.SameSkeleton t.arena (t.weakenFrom i limit).arena := by
  rw [weakenFrom_eq]
  exact Arena.sameSkeleton_modifyAll t.arena (t.arena.lineage i) fun _ => rfl

/-- A new node is one more leaf. -/
theorem sameSkeleton_attach (t : Tree) (c : NewChild) (parent : Nat) (tags : Registry Tag)
    (i : Nat) : Arena.SameSkeleton (t.arena.addChild i parent (c.node parent))
      (t.attach c parent tags i).arena := by
  rw [attach_eq]
  exact Arena.sameSkeleton_modifyAll _ _ fun _ => rfl

theorem noActiveDefault_attach (h : t.WellFormed) (hd : t.arena.NoActiveDefault)
    (hparent : parent < t.arena.width) (hins : t.tags.insert c.tag = .ok (tags, i))
    (hperm : c.permission ≠ .active) : (t.attach c parent tags i).arena.NoActiveDefault := by
  obtain rfl := h.toIndexed.index_eq_width hins
  exact (sameSkeleton_attach t c parent tags _).noActiveDefault (hd.addChild hparent hperm)

theorem size_attach (t : Tree) (c : NewChild) (parent : Nat) (tags : Registry Tag) (i : Nat) :
    (t.attach c parent tags i).size = t.size := by
  rw [attach_eq]
  exact (RunMap.size_map _ _).trans (RunMap.size_update _ _ _)

theorem noActiveDefault_perform (h : t.WellFormed) (hd : t.arena.NoActiveDefault)
    {action : Action} (haction : action.StartsInactive) :
    (t.perform action).state.arena.NoActiveDefault := by
  cases action with
  | insertChild ctx child =>
    rcases state_insertChild h ctx child with
      heq | ⟨t', h', hsame, heq | ⟨parent, tags, i, hlt, hins, heq⟩⟩
    · rwa [perform, heq]
    · rwa [perform, heq, hsame.arena_eq]
    · rw [perform, heq, (sameNodes_tidied _).arena_eq]
      exact noActiveDefault_attach h' (hsame.arena_eq ▸ hd) hlt hins haction
  | access ctx access => rwa [perform, (sameNodes_access t ctx access).arena_eq]
  | free ctx tag => rwa [perform, (sameNodes_free t ctx tag).arena_eq]
  | resetAbsorption tag =>
    rw [perform, resetAbsorption]
    cases t.requireTag tag .protect with
    | error e => exact hd
    | ok i => exact (sameSkeleton_weakenFrom t i .nothing).noActiveDefault hd
  | name tag depth name =>
    rw [perform, Tree.name]
    cases t.ancestor? tag depth with
    | none => exact hd
    | some i =>
      exact (Arena.sameSkeleton_modifyAll t.arena [i]
        (f := fun n => { n with label := n.label.named name }) fun _ => rfl).noActiveDefault hd

theorem noActiveDefault_run (h : t.WellFormed) (hd : t.arena.NoActiveDefault)
    {actions : List Action} (hactions : ∀ action ∈ actions, action.StartsInactive) :
    (t.run actions).arena.NoActiveDefault := by
  induction actions generalizing t with
  | nil => exact hd
  | cons action actions ih =>
    exact ih (wellFormed_perform h action)
      (noActiveDefault_perform h hd (hactions action (by simp)))
      fun action' h' => hactions action' (by simp [h'])

theorem noActiveDefault_new (root : Tag) (size : Nat) (settings : Settings) :
    (new root size settings).arena.NoActiveDefault := by
  intro i n hn
  obtain ⟨-, rfl⟩ := get?_new hn
  exact nofun

theorem size_perform (h : t.WellFormed) (action : Action) :
    (t.perform action).state.size = t.size := by
  cases action with
  | insertChild ctx child =>
    rcases state_insertChild h ctx child with
      heq | ⟨t', h', hsame, heq | ⟨parent, tags, i, hlt, hins, heq⟩⟩
    · rw [perform, heq]
    · rw [perform, heq, hsame.size_eq]
    · rw [perform, heq, (sameNodes_tidied _).size_eq, size_attach, hsame.size_eq]
  | access ctx access => exact (sameNodes_access t ctx access).size_eq
  | free ctx tag => exact (sameNodes_free t ctx tag).size_eq
  | resetAbsorption tag =>
    rw [perform, resetAbsorption]
    cases t.requireTag tag .protect with
    | error e => rfl
    | ok i => exact (extends_weakenFrom t i .nothing).size_eq
  | name tag depth name =>
    rw [perform, Tree.name]
    cases t.ancestor? tag depth with
    | none => rfl
    | some i => rfl

theorem size_run (h : t.WellFormed) (actions : List Action) : (t.run actions).size = t.size := by
  induction actions generalizing t with
  | nil => rfl
  | cons action actions ih => exact (ih (wellFormed_perform h action)).trans (size_perform h action)

/-! ## 2. Whether it succeeds -/

/-- A node that may be inserted is attached to what the read leaves. -/
theorem insertChild_eq (hnew : c.tag ∉ t.tags.keys)
    (hok : (t.access ctx ⟨c.parent, c.range, .read, .reborrow⟩).result = .ok ())
    (hindex : t.tags.size < Registry.indexLimit) :
    ∃ parent messages, t.tags.index? c.parent = some parent ∧
      t.insertChild ctx c =
        ((t.access ctx ⟨c.parent, c.range, .read, .reborrow⟩).state.attach c parent
          ⟨t.tags.keys ++ [c.tag]⟩ t.tags.size).tidied.after messages := by
  obtain ⟨parent, hparent, hlimit, hstop⟩ := exists_of_access_eq_ok hok
  have hsame := sameNodes_access t ctx ⟨c.parent, c.range, .read, .reborrow⟩
  have hfresh : ¬t.contains c.tag = true := fun hc => hnew (Registry.contains_iff.mp hc)
  refine ⟨parent, (t.access ctx ⟨c.parent, c.range, .read, .reborrow⟩).log, hparent, ?_⟩
  rw [insertChild, if_neg hfresh, Outcome.andThen_of_ok hok]
  generalize (t.access ctx ⟨c.parent, c.range, .read, .reborrow⟩).state = t' at hsame ⊢
  have htag : t'.requireTag c.parent .retag = .ok parent :=
    requireTag_eq_ok_iff.mpr (hsame.tags_eq ▸ hparent)
  have hcheck : t'.bytes.checkRange c.range = .ok () :=
    RunMap.checkRange_eq_ok_iff.mpr ⟨hlimit, Nat.le_trans hstop (Nat.le_of_eq hsame.size_eq.symm)⟩
  have hins : t'.tags.insert c.tag = .ok (⟨t.tags.keys ++ [c.tag]⟩, t.tags.size) := by
    rw [hsame.tags_eq]
    exact Registry.insert_eq_ok_iff.mpr ⟨hindex, hnew, rfl, rfl⟩
  rw [htag]
  dsimp only
  rw [hins, hcheck]

/-- A node is only inserted if its tag is new, the read succeeds and an index is left. -/
theorem of_insertChild_eq_ok (hok : (t.insertChild ctx c).result = .ok ()) :
    c.tag ∉ t.tags.keys ∧
      (t.access ctx ⟨c.parent, c.range, .read, .reborrow⟩).result = .ok () ∧
      t.tags.size < Registry.indexLimit := by
  unfold insertChild at hok
  split at hok
  · cases hok
  · next hfresh =>
    have hsame := sameNodes_access t ctx ⟨c.parent, c.range, .read, .reborrow⟩
    refine ⟨fun hmem => hfresh (Registry.contains_iff.mpr hmem), ?_⟩
    cases hread : (t.access ctx ⟨c.parent, c.range, .read, .reborrow⟩).result with
    | error f =>
      rw [Outcome.andThen_of_error hread] at hok
      cases hok
    | ok _ =>
      refine ⟨rfl, ?_⟩
      rw [Outcome.andThen_of_ok hread, Outcome.result_after] at hok
      split at hok
      · cases hok
      · split at hok
        · cases hok
        · cases hok
        · next hins _ => exact hsame.tags_eq ▸ (Registry.insert_eq_ok_iff.mp hins).1

/-- **When a node is inserted.**  Its tag is new and the read through its parent succeeds; and there
is no fault, for an index is left and the number of runs to join at is a word. -/
theorem insertChild_eq_ok_iff :
    (t.insertChild ctx c).result = .ok () ↔ c.tag ∉ t.tags.keys ∧
      (t.access ctx ⟨c.parent, c.range, .read, .reborrow⟩).result = .ok () ∧
      t.tags.size < Registry.indexLimit ∧
      (t.access ctx ⟨c.parent, c.range, .read, .reborrow⟩).state.runsAtLastMerge +
        (t.access ctx ⟨c.parent, c.range, .read, .reborrow⟩).state.mergeSlack < Word.limit := by
  have hiff : ∀ parent tags i, ((t.access ctx ⟨c.parent, c.range, .read, .reborrow⟩).state.attach c
      parent tags i).tidied.result = .ok () ↔
        (t.access ctx ⟨c.parent, c.range, .read, .reborrow⟩).state.runsAtLastMerge +
          (t.access ctx ⟨c.parent, c.range, .read, .reborrow⟩).state.mergeSlack < Word.limit := by
    intro parent tags i
    rw [result_tidied, attach_eq]
    simp
  constructor
  · intro hok
    obtain ⟨hnew, hread, hindex⟩ := of_insertChild_eq_ok hok
    obtain ⟨parent, messages, -, heq⟩ := insertChild_eq hnew hread hindex
    rw [heq, Outcome.result_after] at hok
    exact ⟨hnew, hread, hindex, (hiff _ _ _).mp hok⟩
  · rintro ⟨hnew, hread, hindex, hroom⟩
    obtain ⟨parent, messages, -, heq⟩ := insertChild_eq hnew hread hindex
    rw [heq, Outcome.result_after]
    exact (hiff _ _ _).mpr hroom

/-! ## 3. What it leaves -/

/-- The new node is the youngest child of its parent, and no other node gets a child. -/
theorem get?_attach (t : Tree) (c : NewChild) (tags : Registry Tag)
    (hparent : parent < t.arena.width) :
    (∃ n', (t.attach c parent tags t.arena.width).arena.get? t.arena.width = some n' ∧
        n'.tag = c.tag ∧ n'.parent = some parent) ∧
      ∀ j n, t.arena.get? j = some n → ∃ n',
        (t.attach c parent tags t.arena.width).arena.get? j = some n' ∧ n'.tag = n.tag ∧
        n'.children = if j = parent then n.children ++ [t.arena.width] else n.children := by
  have hsk := (sameSkeleton_attach t c parent tags t.arena.width).symm
  constructor
  · obtain ⟨n', hn', htag, hp, -⟩ := hsk.exists_get? (Arena.get?_addChild_width hparent)
    exact ⟨n', hn', htag.symm, hp.symm⟩
  · intro j n hn
    have hj := Nat.ne_of_lt (Arena.lt_width_of_get? hn)
    obtain ⟨n', hn', htag, -, hchildren, -⟩ := hsk.exists_get?
      ((Arena.get?_addChild_of_ne hj).trans (congrArg _ hn))
    exact ⟨n', hn', htag.symm, hchildren.symm⟩

/-- **A byte of the tree with a new node.**  The node has the state that it was made with, and
counts as accessed in its range.  The others have the states they had, lowered above the new
node. -/
theorem valueAt?_attach (hw : t.arena.WellLinked) (hkept : ∀ {o states i},
      t.bytes.valueAt? o = some states → (states.get? i).isSome → i < t.arena.width)
    (c : NewChild) (tags : Registry Tag) (hparent : parent < t.arena.width) {states : ByteStates}
    (hval : t.bytes.valueAt? o = some states) :
    ∃ states', (t.attach c parent tags t.arena.width).bytes.valueAt? o = some states' ∧
      (∀ n', (t.attach c parent tags t.arena.width).arena.get? t.arena.width = some n' →
        n'.stateIn states' t.arena.width =
          ⟨c.permission, decide (o ∈ c.range), c.absorption⟩) ∧
      ∀ j n n', t.arena.get? j = some n →
        (t.attach c parent tags t.arena.width).arena.get? j = some n' →
        n'.stateIn states' j = if j ∈ t.arena.lineage parent then
          (n.stateIn states j).weaken c.absorption else n.stateIn states j := by
  have hlineage : (t.arena.addChild t.arena.width parent (c.node parent)).lineage parent =
      t.arena.lineage parent :=
    (Arena.grows_addChild _ _ _).lineage_eq hw (hw.addChild hparent rfl rfl) hparent
  have hleaf : t.arena.width ∉ t.arena.lineage parent := fun hmem =>
    Nat.not_le_of_lt hparent (Arena.le_of_mem_lineage hw hparent hmem)
  obtain ⟨mid, hmid⟩ : ∃ mid, (t.bytes.update c.range (·.insert t.arena.width
      (.covered c.permission c.absorption))).valueAt? o = some mid := by
    rw [RunMap.valueAt?_update, hval]
    split <;> exact ⟨_, rfl⟩
  obtain ⟨old, hold, hsame, hnew⟩ := valueAt?_addLeaf hkept c parent hmid
  obtain rfl := Option.some.inj (hval.symm.trans hold)
  rw [attach_eq, hlineage]
  refine ⟨_, by rw [RunMap.valueAt?_map, hmid]; rfl, fun n' hn' => ?_, fun j n n' hn hn' => ?_⟩
  · obtain ⟨m, hm, -, hstate⟩ := Arena.exists_of_get?_weakened mid hn'
    obtain rfl := Option.some.inj (hm.symm.trans (Arena.get?_addChild_width hparent))
    rw [hstate, if_neg hleaf, hnew]
  · obtain ⟨m, hm, -, hstate⟩ := Arena.exists_of_get?_weakened mid hn'
    have hj := Nat.ne_of_lt (Arena.lt_width_of_get? hn)
    rw [Arena.get?_addChild_of_ne hj, hn] at hm
    obtain rfl := Option.some.inj hm
    rw [hstate, Node.stateIn, Node.stateIn, hsame j hj]

/-- **What a reborrow leaves**, in comparison with the tree before and with the one that its read
alone would leave. -/
structure Reborrowed (t read t' : Tree) (c : NewChild) : Prop where
  keys_eq : t'.tags.keys = t.tags.keys ++ [c.tag]
  size_eq : t'.size = t.size
  isParentOf : t'.IsParentOf c.parent c.tag
  /-- The new tag is the last child of its parent. -/
  children_eq : ∃ p n i, t.tags.index? c.parent = some p ∧ t.arena.get? p = some n ∧
    t'.tags.index? c.tag = some i ∧
    (t'.arena.get? p).map Node.children = some (n.children ++ [i])
  /-- The new tag has the same state at every byte, but that it has accessed its range. -/
  new : ∀ o, o < t.size → t'.stateOf c.tag o =
    .ok ⟨c.permission, decide (o ∈ c.range), c.permission.absorption c.isProtected⟩
  /-- Above the new tag, all bytes are known to absorb at most as much as the new tag does. -/
  above : ∀ tag o, o < t.size → t.IsAtOrAbove tag c.parent → ∃ s, read.stateOf tag o = .ok s ∧
    t'.stateOf tag o = .ok ⟨s.permission, s.accessed, Absorption.weaken c.absorption s.absorbed⟩
  /-- To the other tags nothing happens but the read. -/
  beside : ∀ tag ∈ t.tags.keys, ∀ o, o < t.size → ¬t.IsAtOrAbove tag c.parent →
    ∃ s, read.stateOf tag o = .ok s ∧ t'.stateOf tag o = .ok s

/-- The read comes before the new node, and the joining of neighbours after it. -/
theorem Reborrowed.of_sameNodes {t₁ t₂ read : Tree} (h : t₁.Reborrowed read t₂ c)
    (hbefore : t.SameNodes t₁) (hafter : t₂.SameNodes t')
    (hstate : ∀ tag o, t'.stateOf tag o = t₂.stateOf tag o) : t.Reborrowed read t' c where
  keys_eq := by rw [hafter.tags_eq, h.keys_eq, hbefore.tags_eq]
  size_eq := by rw [hafter.size_eq, h.size_eq, hbefore.size_eq]
  isParentOf := by
    have := h.isParentOf
    unfold IsParentOf at this ⊢
    rwa [hafter.tags_eq, hafter.arena_eq]
  children_eq := by
    have := h.children_eq
    rwa [← hbefore.tags_eq, ← hbefore.arena_eq, hafter.tags_eq, hafter.arena_eq]
  new o ho := by
    rw [hstate]
    exact h.new o (hbefore.size_eq.symm ▸ ho)
  above tag o ho htag := by
    rw [hstate]
    refine h.above tag o (hbefore.size_eq.symm ▸ ho) ?_
    unfold IsAtOrAbove at htag ⊢
    rwa [hbefore.tags_eq, hbefore.arena_eq]
  beside tag htag o ho hnot := by
    rw [hstate]
    refine h.beside tag (hbefore.tags_eq.symm ▸ htag) o (hbefore.size_eq.symm ▸ ho)
      fun hat => hnot ?_
    unfold IsAtOrAbove at hat ⊢
    rwa [hbefore.tags_eq, hbefore.arena_eq] at hat

theorem reborrowed_attach (h : t.WellFormed) (hd : t.arena.NoActiveDefault)
    (hsize : t.size < Word.limit) (hperm : c.permission ≠ .active)
    (hp : t.tags.index? c.parent = some parent) (hins : t.tags.insert c.tag = .ok (tags, i)) :
    t.Reborrowed t (t.attach c parent tags i) c := by
  have hlt := h.toIndexed.lt_width_of_index? hp
  have h' := h.attach hlt hins
  have hd' := noActiveDefault_attach h hd hlt hins hperm
  obtain rfl := h.toIndexed.index_eq_width hins
  obtain ⟨-, -, hkeys, -⟩ := Registry.insert_eq_ok_iff.mp hins
  obtain ⟨⟨m, hm, hmtag, hmp⟩, hold⟩ := get?_attach t c tags hlt
  have hnew : (t.attach c parent tags t.arena.width).tags.index? c.tag = some t.arena.width :=
    hmtag ▸ h'.index?_tag hm
  have hword : ∀ {o}, o < t.size → o + 1 < Word.limit := fun ho => Nat.lt_of_le_of_lt ho hsize
  have hkept : ∀ {o states i}, t.bytes.valueAt? o = some states → (states.get? i).isSome →
      i < t.arena.width := fun ho hi => (h.covers ho).lt_width hi
  -- every old tag has a state before and after
  have hstep : ∀ j n o, t.arena.get? j = some n → o < t.size → ∃ s, t.stateOf n.tag o = .ok s ∧
      (t.attach c parent tags t.arena.width).stateOf n.tag o =
        .ok (if j ∈ t.arena.lineage parent then s.weaken c.absorption else s) := by
    intro j n o hn ho
    obtain ⟨states, hval⟩ := t.exists_valueAt? ho
    obtain ⟨states', hval', -, hstates⟩ := valueAt?_attach h.wellLinked hkept c tags hlt hval
    obtain ⟨n', hn', htag, -⟩ := hold j n hn
    refine ⟨_, h.toIndexed.stateOf_eq hd hn hval (hword ho), ?_⟩
    rw [← htag, h'.toIndexed.stateOf_eq hd' hn' hval' (hword ho), hstates j n n' hn hn']
  exact
    { keys_eq := (congrArg Registry.keys (tags_attach t c parent tags _)).trans hkeys
      size_eq := size_attach t c parent tags _
      isParentOf := by
        obtain ⟨n, hn, htag⟩ := h.toIndexed.exists_get? hp
        obtain ⟨n', hn', htag', -⟩ := hold parent n hn
        exact ⟨parent, _, (htag'.trans htag) ▸ h'.index?_tag hn', hnew, m, hm, hmp⟩
      children_eq := by
        obtain ⟨n, hn, -⟩ := h.toIndexed.exists_get? hp
        obtain ⟨n', hn', -, hchildren⟩ := hold parent n hn
        refine ⟨parent, n, _, hp, hn, hnew, ?_⟩
        rw [hn', Option.map_some, hchildren, if_pos rfl]
      new := fun o ho => by
        obtain ⟨states, hval⟩ := t.exists_valueAt? ho
        obtain ⟨states', hval', hleaf, -⟩ := valueAt?_attach h.wellLinked hkept c tags hlt hval
        rw [← hmtag, h'.toIndexed.stateOf_eq hd' hm hval' (hword ho), hleaf m hm]
        rfl
      above := by
        rintro tag o ho ⟨j, p, hj, hp', hmem⟩
        obtain rfl := Option.some.inj (hp.symm.trans hp')
        obtain ⟨n, hn, rfl⟩ := h.toIndexed.exists_get? hj
        obtain ⟨s, hs, hs'⟩ := hstep j n o hn ho
        rw [if_pos hmem] at hs'
        exact ⟨s, hs, hs'⟩
      beside := fun tag htag o ho hnot => by
        obtain ⟨j, n, hn, rfl⟩ := h.toIndexed.mem_tags_iff.mp htag
        obtain ⟨s, hs, hs'⟩ := hstep j n o hn ho
        rw [if_neg fun hmem => hnot ⟨j, parent, h.index?_tag hn, hp, hmem⟩] at hs'
        exact ⟨s, hs, hs'⟩ }

/-- What the insertion of a node leaves when it succeeds. -/
theorem reborrowed_insertChild (h : t.WellFormed) (hd : t.arena.NoActiveDefault)
    (hsize : t.size < Word.limit) (hperm : c.permission ≠ .active)
    (hok : (t.insertChild ctx c).result = .ok ()) :
    t.Reborrowed (t.access ctx ⟨c.parent, c.range, .read, .reborrow⟩).state
      (t.insertChild ctx c).state c := by
  obtain ⟨hnew, hread, hindex⟩ := of_insertChild_eq_ok hok
  obtain ⟨parent, messages, hp, heq⟩ := insertChild_eq hnew hread hindex
  have hsame := sameNodes_access t ctx ⟨c.parent, c.range, .read, .reborrow⟩
  have h₁ := wellFormed_access h ctx ⟨c.parent, c.range, .read, .reborrow⟩
  rw [heq, Outcome.state_after]
  generalize (t.access ctx ⟨c.parent, c.range, .read, .reborrow⟩).state = t₁ at hsame h₁ ⊢
  have hins : t₁.tags.insert c.tag = .ok (⟨t.tags.keys ++ [c.tag]⟩, t.tags.size) := by
    rw [hsame.tags_eq]
    exact Registry.insert_eq_ok_iff.mpr ⟨hindex, hnew, rfl, rfl⟩
  exact (reborrowed_attach h₁ (hsame.arena_eq ▸ hd) (hsame.size_eq ▸ hsize) hperm
    (hsame.tags_eq ▸ hp) hins).of_sameNodes hsame (sameNodes_tidied _) (stateOf_tidied _)

/-- **The effect of a reborrow.**  Let a tree come from any operations under any protectors, none of
which added a node that starts as active, and let the new node not do so either.

* The new node is inserted exactly if its tag is new to the tree and the read through its parent
  succeeds, unless the tree has run out of indices, or the number of runs to join at is no word.
* If it is inserted, it is the last child of its parent; it has its permission at every byte, has
  accessed its range, and absorbs what its permission lets it absorb.  Every other tag has the
  permissions that the read leaves it, and has accessed the bytes it has accessed then.  Above the
  new node no byte is known to absorb more than the new node does, and that is all. -/
theorem reborrow_effect (root : Tag) (size : Nat) (settings : Settings) (hsize : size < Word.limit)
    {actions : List Action} (hactions : ∀ action ∈ actions, action.StartsInactive) (ctx : Context)
    (c : NewChild) (hperm : c.permission ≠ .active) :
    let t := (new root size settings).run actions
    let read := t.access ctx ⟨c.parent, c.range, .read, .reborrow⟩
    ((t.insertChild ctx c).result = .ok () ↔
        c.tag ∉ t.tags.keys ∧ read.result = .ok () ∧ t.tags.size < Registry.indexLimit ∧
          read.state.runsAtLastMerge + read.state.mergeSlack < Word.limit) ∧
      ((t.insertChild ctx c).result = .ok () →
        t.Reborrowed read.state (t.insertChild ctx c).state c) := by
  intro t read
  have hnew := wellFormed_new root size settings
  have hd : t.arena.NoActiveDefault :=
    noActiveDefault_run hnew (noActiveDefault_new root size settings) hactions
  have hword : t.size < Word.limit := by
    rw [size_run hnew actions, size_new]
    exact hsize
  exact ⟨insertChild_eq_ok_iff, reborrowed_insertChild (wellFormed_run hnew actions) hd hword hperm⟩

/-- A protected mutable borrow of half of the bytes has been written through at two of them.  A
shared borrow is taken from it that reaches beyond its range: frozen everywhere, and untouched where
it does not reach. -/
theorem reborrow_of_protected_borrow :
    ∃ (actions : List Action) (ctx : Context), (∀ action ∈ actions, action.StartsInactive) ∧
      ctx.isProtected ⟨2⟩ = true ∧
      let t := (new ⟨1⟩ 8 {}).run actions
      let c : NewChild := ⟨⟨2⟩, ⟨3⟩, .frozen, false, ⟨2, 4⟩⟩
      (t.insertChild ctx c).result = .ok () ∧ (t.insertChild ctx c).state.IsParentOf ⟨2⟩ ⟨3⟩ ∧
        (t.insertChild ctx c).state.stateOf ⟨3⟩ 5 =
          .ok ⟨.frozen, true, .reads⟩ ∧
        (t.insertChild ctx c).state.stateOf ⟨3⟩ 7 =
          .ok ⟨.frozen, false, .reads⟩ := by
  let ctx : Context := ⟨{}, Table.empty.insert ⟨2⟩ .strong, ⟨1⟩⟩
  let actions : List Action := [.insertChild ctx ⟨⟨1⟩, ⟨2⟩, .reserved, true, ⟨0, 4⟩⟩,
    .access ctx ⟨⟨2⟩, ⟨0, 2⟩, .write, .explicit .write⟩]
  have hactions : ∀ action ∈ actions, action.StartsInactive := by
    simp [actions, Action.StartsInactive]
  have hok : (((new ⟨1⟩ 8 {}).run actions).insertChild ctx
      ⟨⟨2⟩, ⟨3⟩, .frozen, false, ⟨2, 4⟩⟩).result = .ok () := by
    decide +kernel
  have h := (reborrow_effect ⟨1⟩ 8 {} (by decide) hactions ctx
    ⟨⟨2⟩, ⟨3⟩, .frozen, false, ⟨2, 4⟩⟩ (by decide)).2 hok
  have hsize : ((new ⟨1⟩ 8 {}).run actions).size = 8 := by decide +kernel
  exact ⟨actions, ctx, hactions, by decide, hok, h.isParentOf, h.new 5 (by rw [hsize]; decide),
    h.new 7 (by rw [hsize]; decide)⟩

end Tree

end TreeBorrows
