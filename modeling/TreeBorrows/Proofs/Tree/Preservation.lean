/-
# Every operation keeps a tree sound

An operation leaves a tree behind however it ends, and a checker goes on with that tree.  So what
is shown here is about all endings: the tree stays sound, and it gains no tag but the one that was
to be inserted.  Errors leave even more in place; that is `Tree.Redivided`.
-/
import TreeBorrows.Proofs.Tree.AccessOutcome

namespace TreeBorrows

namespace Tree

variable {t : Tree} {prot : Tag → Bool} {ctx : Context}

/-! ## 1. Trees that differ in how their runs are cut -/

/-- The second tree has the nodes of the first one, with the same state at every byte. -/
def Redivided (t t' : Tree) : Prop :=
  ∃ bytes, t' = { t with bytes := bytes } ∧ ∀ o, bytes.valueAt? o = t.bytes.valueAt? o

theorem Redivided.refl (t : Tree) : t.Redivided t := ⟨t.bytes, rfl, fun _ => rfl⟩

theorem redivided_divided (t : Tree) (r : ByteRange) : t.Redivided (t.divided r) :=
  ⟨t.bytes.split r, rfl, RunMap.valueAt?_split t.bytes r⟩

/-- The state of a tag at a byte depends on the nodes and on what is kept for that byte. -/
theorem stateOf_congr (t t' : Tree) (htags : t'.tags = t.tags) (harena : t'.arena = t.arena)
    (hsize : t'.size = t.size) {o : Nat} (ho : t'.bytes.valueAt? o = t.bytes.valueAt? o)
    (tag : Tag) : t'.stateOf tag o = t.stateOf tag o := by
  unfold stateOf requireTag requireRange stateAt
  rw [htags, harena, hsize, ho]

/-- What a tree answers does not depend on how its runs are cut. -/
theorem Redivided.stateOf_eq {t' : Tree} (h : t.Redivided t') (tag : Tag) (o : Nat) :
    t'.stateOf tag o = t.stateOf tag o := by
  obtain ⟨bytes, rfl, hval⟩ := h
  have hsize : bytes.size = t.bytes.size := RunMap.size_eq_of_valueAt? hval
  exact stateOf_congr t { t with bytes := bytes } rfl rfl hsize (hval o) tag

/-! ## 2. Accesses -/

/-- Joining neighbours is not seen. -/
theorem stateOf_tidied (t : Tree) (tag : Tag) (o : Nat) :
    t.tidied.state.stateOf tag o = t.stateOf tag o :=
  have hsame := sameNodes_tidied t
  stateOf_congr t t.tidied.state hsame.tags_eq hsame.arena_eq hsame.size_eq
    (valueAt?_tidied t o) tag

theorem sound_access (h : t.Sound ctx.isProtected) (acc : Access) :
    (t.access ctx acc).state.Sound ctx.isProtected := by
  rcases access_cases h acc with ⟨e, messages, heq⟩ |
    ⟨n, start, -, hn, hstop, ⟨v, messages, -, heq⟩ | ⟨us, messages, hus, heq⟩⟩
  · rw [heq]
    exact h
  · rw [heq]
    exact sound_divided h acc.range
  · rw [heq]
    exact sound_tidied (sound_committed h (Arena.lt_width_of_get? hn) hstop hus)

/-- **A refused access changes no state.** -/
theorem redivided_access (h : t.Sound ctx.isProtected) {acc : Access} {e : Error}
    (he : (t.access ctx acc).result = .error (.error e)) :
    t.Redivided (t.access ctx acc).state := by
  rcases access_cases h acc with ⟨e', messages, heq⟩ |
    ⟨n, start, -, -, -, ⟨v, messages, -, heq⟩ | ⟨us, messages, -, heq⟩⟩
  · rw [heq]
    exact .refl t
  · rw [heq]
    exact redivided_divided t acc.range
  · rw [heq] at he
    exact absurd he (tidied_ne_error _ e)

/-! ## 3. Freeing -/

theorem stronglyProtected?_eq_none_iff :
    t.stronglyProtected? ctx = none ↔
      ∀ i n, t.arena.get? i = some n → ctx.protectors.get? n.tag ≠ some .strong := by
  simp [stronglyProtected?, List.find?_eq_none, Slots.mem_toList]

theorem of_stronglyProtected?_eq_some {i : Nat} {n : Node}
    (h : t.stronglyProtected? ctx = some (i, n)) :
    t.arena.get? i = some n ∧ ctx.protectors.get? n.tag = some .strong :=
  ⟨Slots.mem_toList.mp (List.mem_of_find?_eq_some h), by simpa using List.find?_some h⟩

/-- How freeing can end: refused before or after the first pass, or as an access ends. -/
theorem free_cases (h : t.Sound ctx.isProtected) (tag : Tag) :
    (∃ e, t.free ctx tag = .error t e) ∨
      (∃ f, t.free ctx tag = .fail (t.divided ⟨0, t.size⟩) f) ∨
        ∃ start label us messages, start < t.arena.width ∧
          t.pending ctx ⟨tag, ⟨0, t.size⟩, .write, .dealloc⟩ start label = .ok us ∧
          t.free ctx tag = (t.committed ⟨0, t.size⟩ us).tidied.after messages := by
  cases htag : t.requireTag tag .dealloc with
  | error e =>
    refine .inl ⟨e, ?_⟩
    simp only [free, plan, Cause.operation, htag]
    rfl
  | ok start =>
    have hi := requireTag_eq_ok_iff.mp htag
    obtain ⟨n, hn, -⟩ := h.exists_get? hi
    cases hrange : t.requireRange ⟨0, t.size⟩ .dealloc with
    | error e =>
      refine .inl ⟨e, ?_⟩
      simp only [free, plan, Cause.operation, htag, hrange]
      rfl
    | ok _ =>
      have hplan : t.plan ctx ⟨tag, ⟨0, t.size⟩, .write, .dealloc⟩ = _ := plan_eq hi hn hrange
      unfold free
      dsimp only
      rw [hplan]
      cases hus : t.pending ctx ⟨tag, ⟨0, t.size⟩, .write, .dealloc⟩ start n.label with
      | error f => exact .inr (.inl ⟨f, rfl⟩)
      | ok us =>
        rw [Outcome.andThen_of_ok rfl]
        dsimp only
        cases hstrong : (t.divided ⟨0, t.size⟩).stronglyProtected? ctx with
        | some p =>
          refine .inr (.inl ?_)
          dsimp only
          split
          · exact ⟨_, rfl⟩
          · split
            · exact ⟨_, rfl⟩
            · exact ⟨_, rfl⟩
            · exact ⟨_, rfl⟩
        | none =>
          have hcheck := RunMap.checkRange_eq_ok_iff.mpr (requireRange_eq_ok_iff.mp hrange)
          refine .inr (.inr ⟨start, n.label, us, t.transitionLog ctx ⟨0, t.size⟩ .dealloc us,
            Arena.lt_width_of_get? hn, hus, ?_⟩)
          exact congrArg (Outcome.after []) (settle_divided h.isProper hcheck ctx .dealloc us)

theorem sound_free (h : t.Sound ctx.isProtected) (tag : Tag) :
    (t.free ctx tag).state.Sound ctx.isProtected := by
  rcases free_cases h tag with ⟨e, heq⟩ | ⟨f, heq⟩ | ⟨start, label, us, messages, hs, hus, heq⟩
  · rw [heq]
    exact h
  · rw [heq]
    exact sound_divided h _
  · rw [heq]
    exact sound_tidied (sound_committed h hs (Nat.le_of_eq (Nat.zero_add _)) hus)

/-- A refused free changes no state. -/
theorem redivided_free (h : t.Sound ctx.isProtected) {tag : Tag} {e : Error}
    (he : (t.free ctx tag).result = .error (.error e)) :
    t.Redivided (t.free ctx tag).state := by
  rcases free_cases h tag with ⟨e', heq⟩ | ⟨f, heq⟩ | ⟨start, label, us, messages, -, -, heq⟩
  · rw [heq]
    exact .refl t
  · rw [heq]
    exact redivided_divided t _
  · rw [heq] at he
    exact absurd he (tidied_ne_error _ e)

/-! ## 4. New tags -/

theorem tags_attach (t : Tree) (c : NewChild) (parent : Nat) (tags : Registry Tag) (i : Nat) :
    (t.attach c parent tags i).tags = tags := by
  rw [attach, weakenFrom_eq]

/-- How the insertion of a node can end: with an error of its read, with a fault after it, or with
the node attached. -/
theorem insertChild_cases (h : t.Sound ctx.isProtected) (c : NewChild) :
    (∃ (e : Error) (t' : Tree) (messages : List Message),
        t.insertChild ctx c = ⟨t', messages, .error (.error e)⟩ ∧
          t'.Sound ctx.isProtected ∧ t.Redivided t') ∨
      (∃ (f : Fault) (t' : Tree) (messages : List Message),
        t.insertChild ctx c = ⟨t', messages, .error (.fault f)⟩ ∧
          t'.Sound ctx.isProtected ∧ t'.tags = t.tags) ∨
      ∃ (t' : Tree) (parent : Nat) (tags : Registry Tag) (i : Nat) (messages : List Message),
        t'.Sound ctx.isProtected ∧ t'.tags = t.tags ∧ parent < t'.arena.width ∧
        t'.tags.insert c.tag = .ok (tags, i) ∧
        t.insertChild ctx c = (t'.attach c parent tags i).tidied.after messages := by
  by_cases htaken : t.contains c.tag = true
  · rw [insertChild, if_pos htaken]
    exact .inl ⟨_, t, [], rfl, h, .refl t⟩
  · rw [insertChild, if_neg htaken]
    have hsound := sound_access h ⟨c.parent, c.range, .read, .reborrow⟩
    have htags := (sameNodes_access t ctx ⟨c.parent, c.range, .read, .reborrow⟩).tags_eq
    cases hres : (t.access ctx ⟨c.parent, c.range, .read, .reborrow⟩).result with
    | error f =>
      rw [Outcome.andThen_of_error hres]
      cases f with
      | error e => exact .inl ⟨e, _, _, rfl, hsound, redivided_access h hres⟩
      | fault f => exact .inr (.inl ⟨f, _, _, rfl, hsound, htags⟩)
    | ok _ =>
      rw [Outcome.andThen_of_ok hres]
      -- the read has found the parent, and it has not taken it away
      obtain ⟨parent, hparent, -⟩ := exists_of_access_eq_ok hres
      generalize (t.access ctx ⟨c.parent, c.range, .read, .reborrow⟩).log = messages
      generalize (t.access ctx ⟨c.parent, c.range, .read, .reborrow⟩).state = t' at hsound htags ⊢
      rw [requireTag_eq_ok_iff.mpr (htags ▸ hparent)]
      dsimp only
      cases hins : t'.tags.insert c.tag with
      | error f => exact .inr (.inl ⟨f, t', messages ++ [], rfl, hsound, htags⟩)
      | ok r =>
        obtain ⟨tags, i⟩ := r
        cases hcheck : t'.bytes.checkRange c.range with
        | error f => exact .inr (.inl ⟨f, t', messages ++ [], rfl, hsound, htags⟩)
        | ok _ =>
          refine .inr (.inr ⟨t', parent, tags, i, messages, hsound, htags, ?_, hins, rfl⟩)
          exact hsound.lt_width_of_index? (htags ▸ hparent)

/-- The insertion of a node keeps a tree sound, also when the new tag is protected afterwards. -/
theorem sound_insertChild (h : t.Sound ctx.isProtected) {c : NewChild} {prot' : Tag → Bool}
    (hperm : c.permission ≠ .active) (hprot : ∀ tag ∈ t.tags.keys, prot' tag = ctx.isProtected tag)
    (hnew : prot' c.tag = true → c.isProtected = true) :
    (t.insertChild ctx c).state.Sound prot' := by
  have hstay : ∀ {t' : Tree}, t'.Sound ctx.isProtected → t'.tags = t.tags → t'.Sound prot' := by
    intro t' hs htags
    exact hs.of_forall_mem fun tag htag hp => (hprot tag (htags ▸ htag)).symm.trans hp
  rcases insertChild_cases h c with ⟨e, t', messages, heq, hs, bytes, rfl, -⟩ |
    ⟨f, t', messages, heq, hs, htags⟩ | ⟨t', parent, tags, i, messages, hs, htags, hp, hins, heq⟩
  · rw [heq]
    exact hstay hs rfl
  · rw [heq]
    exact hstay hs htags
  · rw [heq]
    exact sound_tidied (hs.attach hp hins hperm (htags ▸ hprot) hnew)

/-- A tree gains no tag but the inserted one. -/
theorem mem_tags_insertChild (h : t.Sound ctx.isProtected) {c : NewChild} {tag : Tag}
    (htag : tag ∈ (t.insertChild ctx c).state.tags.keys) : tag ∈ t.tags.keys ∨ tag = c.tag := by
  rcases insertChild_cases h c with ⟨e, t', messages, heq, -, bytes, rfl, -⟩ |
    ⟨f, t', messages, heq, -, htags⟩ | ⟨t', parent, tags, i, messages, -, htags, -, hins, heq⟩
  · rw [heq] at htag
    exact .inl htag
  · rw [heq] at htag
    exact .inl (htags ▸ htag)
  · obtain ⟨-, -, hkeys, -⟩ := Registry.insert_eq_ok_iff.mp hins
    rw [heq, Outcome.state_after, (sameNodes_tidied _).tags_eq, tags_attach, hkeys, htags] at htag
    exact (List.mem_append.mp htag).imp_right List.mem_singleton.mp

/-- A refused insertion changes no state. -/
theorem redivided_insertChild (h : t.Sound ctx.isProtected) {c : NewChild} {e : Error}
    (he : (t.insertChild ctx c).result = .error (.error e)) :
    t.Redivided (t.insertChild ctx c).state := by
  rcases insertChild_cases h c with ⟨e', t', messages, heq, -, hr⟩ |
    ⟨f, t', messages, heq, -, -⟩ | ⟨t', parent, tags, i, messages, -, -, -, -, heq⟩
  · rw [heq]
    exact hr
  · rw [heq] at he
    nomatch he
  · rw [heq] at he
    exact absurd he (tidied_ne_error _ e)

/-! ## 5. Names and protectors -/

theorem sound_name (h : t.Sound prot) {tag : Tag} {depth : Nat} {s : String} {t' : Tree}
    (ht : t.name tag depth s = .ok t') : t'.Sound prot ∧ t'.tags = t.tags := by
  unfold name at ht
  split at ht
  · cases ht
  · next i _ =>
    obtain rfl := Except.ok.inj ht
    exact ⟨h.named i s, rfl⟩

/-- Once what is known of it is forgotten, a tag may be protected. -/
theorem sound_resetAbsorption (h : t.Sound prot) {tag : Tag} {t' : Tree}
    (ht : t.resetAbsorption tag = .ok t') {prot' : Tag → Bool}
    (hprot : ∀ tag' ∈ t.tags.keys, tag' ≠ tag → prot' tag' = true → prot tag' = true) :
    t'.Sound prot' ∧ t'.tags = t.tags ∧ tag ∈ t.tags.keys := by
  unfold resetAbsorption at ht
  cases htag : t.requireTag tag .protect with
  | error e =>
    rw [htag] at ht
    nomatch ht
  | ok i =>
    rw [htag] at ht
    obtain rfl := Except.ok.inj ht
    have hi := requireTag_eq_ok_iff.mp htag
    refine ⟨h.reset hi hprot, ?_, ?_⟩
    · exact (congrArg Tree.tags (weakenFrom_eq t i .nothing)).trans rfl
    · exact List.mem_of_getElem? (Registry.getElem?_of_index? hi)

end Tree

end TreeBorrows
