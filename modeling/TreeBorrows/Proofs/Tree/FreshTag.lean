/-
# Reads through a tag that was just derived

A reborrow reads through the parent of the new tag and then attaches the tag.  A read through the
new tag, over the range of the reborrow or a part of it, has nothing left to do
(`idleFrom_read_of_insertChild`).

* The new tag itself can be read through, whatever permission it was given, and has accessed its
  range.
* Every other node sees the new tag where it saw the parent: it is above both, or the read is
  foreign to it both times (`Arena.isForeign_relatedness_of_grows`).  So it takes the step that the
  first read made it take, and that is idle by now.  Protected nodes are no exception, for who is
  protected has not changed except for the new tag.

What the nodes are known to absorb does change: the new tag and those above it forget it.
-/
import TreeBorrows.Proofs.Tree.Idle
import TreeBorrows.Proofs.Tree.Reborrow

namespace TreeBorrows

/-! ## 1. The nodes -/

/-- From another node, a new leaf is seen where its parent was. -/
theorem Arena.isForeign_relatedness_of_grows {a a' : Arena} {p i j : Nat} (hw : a.WellLinked)
    (hw' : a'.WellLinked) (hg : a.Grows a') (hp : p < a.width) (hleaf : a'.IsParent p i)
    (hj : j ≠ i) : (a'.relatedness i j).isForeign = (a.relatedness p j).isForeign := by
  rw [isForeign_relatedness, isForeign_relatedness, lineage_of_isParent hw' hleaf,
    hg.lineage_eq hw hw' hp]
  simp [hj]

namespace ByteState

variable {s u : ByteState} {tr : Transition} {kind : AccessKind} {rel rel' : Relatedness}
  {prot : Bool}

/-- Where an access has nothing to do, it has nothing to do with the rights of a state that gives
the same ones, whatever is known to be absorbed there. -/
theorem Fades.access_idle (hfades : s.Fades u) (h : s.access kind rel prot = .ok (s, tr))
    (hrel : rel'.isForeign = rel.isForeign) :
    ∃ u' tr', u.access kind rel' prot = .ok (u', tr') ∧ u'.rights = u.rights := by
  refine ⟨_, _, access_again h hrel (.inl rfl) hfades.permission_eq, ?_⟩
  have haccessed : (s.accessed || !rel.isForeign) = s.accessed :=
    (congrArg accessed (access_eq_ok_iff.mp h).2.2).symm
  rw [rights, rights, hfades.accessed_eq, hrel, haccessed]

/-- A tag can be read through with every permission that it may start with, and keeps it. -/
theorem access_read_of_canStart (h : s.permission.canStart = true) (haccessed : s.accessed = true)
    (prot : Bool) :
    ∃ s' tr, s.access .read .this prot = .ok (s', tr) ∧ s'.rights = s.rights := by
  obtain ⟨p, acc, abs⟩ := s
  obtain rfl : acc = true := haccessed
  refine ⟨⟨p, true, abs.record (.ofAccess .read .this)⟩, ⟨p, p⟩, ?_, rfl⟩
  revert h
  cases p <;> cases prot <;> simp [access, Permission.transition?, Permission.afterAccess?,
    Permission.afterChildRead?, Relatedness.isForeign, Transition.violatesProtector,
    Permission.canStart, Permission.canRead, Permission.isDisabled, Permission.writeRight]

end ByteState

namespace Tree

variable {t t' : Tree} {ctx ctx' : Context} {acc : Access} {c : NewChild} {start parent i : Nat}
  {tags : Registry Tag} {r : ByteRange} {β : Type} {f : ByteState → β}

/-! ## 2. After the new node -/

/-- How the runs are cut does not matter. -/
theorem IdleFrom.congr (h : t.IdleFrom ctx acc start f) (hsame : t.SameNodes t')
    (hval : ∀ o, t'.bytes.valueAt? o = t.bytes.valueAt? o) : t'.IdleFrom ctx acc start f where
  index?_eq := hsame.tags_eq ▸ h.index?_eq
  stop_lt := h.stop_lt
  stop_le := hsame.size_eq ▸ h.stop_le
  step {o states i n} ho hstates hn := by
    rw [hsame.arena_eq] at hn ⊢
    exact h.step ho (hval o ▸ hstates) hn

/-- **A read that is idle through the parent is idle through a new node**, as far as rights go. -/
theorem IdleFrom.attach {cause cause' : Cause}
    (hidle : t.IdleFrom ctx ⟨c.parent, r, .read, cause⟩ parent id) (h : t.Sound ctx.isProtected)
    (hins : t.tags.insert c.tag = .ok (tags, i)) (hstart : c.permission.canStart = true)
    (hprot : ∀ tag ∈ t.tags.keys, ctx'.isProtected tag = ctx.isProtected tag)
    (hr : r.Within c.range) :
    (t.attach c parent tags i).IdleFrom ctx' ⟨c.tag, r, .read, cause'⟩ i ByteState.rights := by
  have hparent := h.lt_width_of_index? hidle.index?_eq
  have hperm : c.permission ≠ .active := by
    intro heq
    rw [heq] at hstart
    cases hstart
  have hnodes := h.indexed.addLeaf hparent hins t.bytes
  have hextends := extends_attach h hparent hins hperm
  obtain rfl := h.indexed.index_eq_width hins
  have hsk := sameSkeleton_attach t c parent tags t.arena.width
  have hw' : (t.attach c parent tags t.arena.width).arena.WellLinked :=
    hsk.wellLinked hnodes.wellLinked
  obtain ⟨⟨leaf, hleaf, htag, hup⟩, hold⟩ := get?_attach t c tags hparent
  refine ⟨?_, hidle.stop_lt, ?_, ?_⟩
  · have hindexed := hnodes.of_sameSkeleton hsk
      (t.attach c parent tags t.arena.width).bytes
    rw [tags_attach, ← htag]
    exact hindexed.index?_tag hleaf
  · rw [size_attach]
    exact hidle.stop_le
  · intro o states' j n' ho hval' hn'
    obtain ⟨states, hval, hretains⟩ := hextends.retains hval'
    by_cases hj : j = t.arena.width
    · subst hj
      obtain ⟨new, hnew, hstate, -⟩ := valueAt?_attach h.wellLinked h.lt_width c tags hparent hval
      obtain rfl := Option.some.inj (hnew.symm.trans hval')
      rw [Arena.relatedness, if_pos rfl, hstate n' hn']
      exact ByteState.access_read_of_canStart hstart (decide_eq_true (hr.mem ho)) _
    · have hlt : j < t.arena.width := by
        have := Arena.lt_width_of_get? hn'
        have hwidth : (t.attach c parent tags t.arena.width).arena.width = t.arena.width + 1 :=
          hsk.width_eq.trans (Arena.width_addChild _ _ _)
        omega
      obtain ⟨n, hn⟩ := h.wellLinked.exists_get? hlt
      obtain ⟨m, hm, hmtag, -⟩ := hold j n hn
      obtain rfl := Option.some.inj (hn'.symm.trans hm)
      obtain ⟨s, tr, hstep, hs⟩ := hidle.step ho hval hn
      obtain rfl : s = n.stateIn states j := hs
      rw [hmtag, hprot n.tag (h.mem_tags_iff.mpr ⟨j, n, hn, rfl⟩)]
      refine (hretains.old hn hn').access_idle hstep ?_
      exact Arena.isForeign_relatedness_of_grows h.wellLinked hw' hextends.grows hparent
        ⟨leaf, hleaf, hup⟩ hj

/-- **A read through a tag that was just inserted changes no rights**, over its range or a part of
it, if no other tag of the tree has become protected or lost its protector. -/
theorem idleFrom_read_of_insertChild (h : t.Sound ctx.isProtected)
    (hok : (t.insertChild ctx c).result = .ok ()) (hstart : c.permission.canStart = true)
    (hprot : ∀ tag ∈ t.tags.keys, ctx'.isProtected tag = ctx.isProtected tag)
    (hr : r.Within c.range) (cause : Cause) :
    (t.insertChild ctx c).state.IdleFrom ctx' ⟨c.tag, r, .read, cause⟩ t.tags.size
      ByteState.rights := by
  obtain ⟨hnew, hread, hindex⟩ := of_insertChild_eq_ok hok
  obtain ⟨parent, messages, hparent, heq⟩ := insertChild_eq hnew hread hindex
  have hsame := sameNodes_access t ctx ⟨c.parent, c.range, .read, .reborrow⟩
  have hs := sound_access h ⟨c.parent, c.range, .read, .reborrow⟩
  have hparts : ∃ start, (t.access ctx ⟨c.parent, c.range, .read, .reborrow⟩).state.IdleFrom ctx
      ⟨c.parent, r, .read, .reborrow⟩ start id := idleFrom_access_again h hread rfl hr (.inl rfl)
  obtain ⟨start, hidle⟩ := hparts
  rw [heq, Outcome.state_after]
  generalize (t.access ctx ⟨c.parent, c.range, .read, .reborrow⟩).state = t₁ at hsame hs hidle ⊢
  obtain rfl : parent = start :=
    Option.some.inj (hparent.symm.trans (hsame.tags_eq ▸ hidle.index?_eq))
  have hins : t₁.tags.insert c.tag = .ok (⟨t.tags.keys ++ [c.tag]⟩, t.tags.size) := by
    rw [hsame.tags_eq]
    exact Registry.insert_eq_ok_iff.mpr ⟨hindex, hnew, rfl, rfl⟩
  exact (hidle.attach hs hins hstart (hsame.tags_eq ▸ hprot) hr).congr (sameNodes_tidied _)
    (valueAt?_tidied _)

/-! ## 3. Room for one more access -/

theorem runCount_attach_le (t : Tree) (c : NewChild) (parent : Nat) (tags : Registry Tag)
    (i : Nat) : (t.attach c parent tags i).bytes.runCount ≤ t.bytes.runCount + 2 := by
  rw [attach_eq]
  dsimp only
  rw [RunMap.runCount_map]
  exact RunMap.runCount_update_le _ _ _

/-- The number of runs to join at is still a word after an insertion, unless the runs are as many as
half of the words. -/
theorem hasRoom_insertChild (h : t.Sound ctx.isProtected)
    (hok : (t.insertChild ctx c).result = .ok ())
    (hruns : (t.bytes.runCount + 4) * 2 < Word.limit) :
    (t.insertChild ctx c).state.runsAtLastMerge + (t.insertChild ctx c).state.mergeSlack <
      Word.limit := by
  obtain ⟨hnew, hread, hindex, hroom⟩ := insertChild_eq_ok_iff.mp hok
  obtain ⟨parent, messages, -, heq⟩ := insertChild_eq hnew hread hindex
  have hcount := runCount_access_le h ⟨c.parent, c.range, .read, .reborrow⟩
  have hattach := runCount_attach_le
    (t.access ctx ⟨c.parent, c.range, .read, .reborrow⟩).state c parent
    ⟨t.tags.keys ++ [c.tag]⟩ t.tags.size
  rw [heq, Outcome.state_after]
  refine (hasRoom_tidied_iff (by omega)).mpr ?_
  rw [attach_eq]
  exact hroom

end Tree

end TreeBorrows
