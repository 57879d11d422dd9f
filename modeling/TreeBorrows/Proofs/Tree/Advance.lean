/-
# What an operation may do to the states of a tree

Every operation on a tree is at most one access, followed by changes of the nodes that neither give
a right nor take one: a name, lower entries, a new leaf that is not active.  `Tree.Advances` says
so byte by byte, for all operations and all their endings at once, failed ones included.  Whoever
wants to know what becomes of a tag over a run looks at one access (`Arena.CarriedOut`) and at
nothing else.

* `ByteState.Fades`, `Arena.Grows` and `Arena.Retains` are about the changes of the nodes;
* `Tree.Extends` collects them for all bytes, and composes;
* `Tree.Advances` puts an access before them.
-/
import TreeBorrows.Proofs.Tree.Preservation

namespace TreeBorrows

/-! ## 1. One state -/

/-- The second state gives the same rights.  It may be known to absorb less. -/
structure ByteState.Fades (s s' : ByteState) : Prop where
  permission_eq : s'.permission = s.permission
  accessed_eq : s'.accessed = s.accessed
  absorbed_le : s'.absorbed ≤ s.absorbed

namespace ByteState

variable {s s' s'' : ByteState}

theorem Fades.refl (s : ByteState) : s.Fades s := ⟨rfl, rfl, Absorption.le_refl _⟩

theorem Fades.trans (h : s.Fades s') (h' : s'.Fades s'') : s.Fades s'' where
  permission_eq := h'.permission_eq.trans h.permission_eq
  accessed_eq := h'.accessed_eq.trans h.accessed_eq
  absorbed_le := Absorption.le_trans h'.absorbed_le h.absorbed_le

theorem fades_weaken (limit : Absorption) (s : ByteState) : s.Fades (s.weaken limit) :=
  ⟨rfl, rfl, Absorption.weaken_le_self limit s.absorbed⟩

end ByteState

/-! ## 2. Nodes -/

namespace Arena

variable {a a' a'' : Arena} {i p : Nat} {states states' states'' : ByteStates}

/-- The second arena has the nodes of the first one in their places, and perhaps more of them. -/
def Grows (a a' : Arena) : Prop :=
  ∀ i n, a.get? i = some n → ∃ n', a'.get? i = some n' ∧ n'.tag = n.tag ∧ n'.parent = n.parent

namespace Grows

theorem refl (a : Arena) : a.Grows a := fun _ n hn => ⟨n, hn, rfl, rfl⟩

theorem trans (h : a.Grows a') (h' : a'.Grows a'') : a.Grows a'' := by
  intro i n hn
  obtain ⟨n', hn', htag, hparent⟩ := h i n hn
  obtain ⟨n'', hn'', htag', hparent'⟩ := h' i n' hn'
  exact ⟨n'', hn'', htag'.trans htag, hparent'.trans hparent⟩

theorem isParent (h : a.Grows a') (hp : a.IsParent p i) : a'.IsParent p i := by
  obtain ⟨n, hn, hpar⟩ := hp
  obtain ⟨n', hn', -, heq⟩ := h i n hn
  exact ⟨n', hn', heq.trans hpar⟩

/-- Old nodes keep their ancestors. -/
theorem lineage_eq (h : a.Grows a') (hw : a.WellLinked) (hw' : a'.WellLinked)
    (hi : i < a.width) : a'.lineage i = a.lineage i := by
  refine hw.climb (P := fun i => a'.lineage i = a.lineage i) ?_ ?_ i hi
  · rw [lineage_root hw, lineage_root hw']
  · intro p i hp ih
    rw [lineage_of_isParent hw hp, lineage_of_isParent hw' (h.isParent hp), ih]

end Grows

theorem SameSkeleton.grows (h : SameSkeleton a a') : a.Grows a' := by
  intro i n hn
  obtain ⟨n', hn', htag, hparent, -⟩ := h.symm.exists_get? hn
  exact ⟨n', hn', htag.symm, hparent.symm⟩

theorem grows_addChild (a : Arena) (p : Nat) (leaf : Node) :
    a.Grows (a.addChild a.width p leaf) := by
  intro i n hn
  have hi : i ≠ a.width := Nat.ne_of_lt (lt_width_of_get? hn)
  rw [get?_addChild_of_ne hi, hn]
  exact ⟨_, rfl, rfl, rfl⟩

/-- Every old node has the rights it had, and no new one is active. -/
structure Retains (a a' : Arena) (states states' : ByteStates) : Prop where
  old : ∀ {i n n'}, a.get? i = some n → a'.get? i = some n' →
    (n.stateIn states i).Fades (n'.stateIn states' i)
  new : ∀ {i n'}, a.get? i = none → a'.get? i = some n' →
    (n'.stateIn states' i).permission ≠ .active

namespace Retains

theorem refl (a : Arena) (states : ByteStates) : a.Retains a states states where
  old hn hn' := by
    obtain rfl := Option.some.inj (hn.symm.trans hn')
    exact .refl _
  new hnone hn' := by
    rw [hnone] at hn'
    nomatch hn'

theorem trans (h : a.Retains a' states states') (hg : a.Grows a')
    (h' : a'.Retains a'' states' states'') : a.Retains a'' states states'' where
  old {i n n''} hn hn'' := by
    obtain ⟨n', hn', -⟩ := hg i n hn
    exact (h.old hn hn').trans (h'.old hn' hn'')
  new {i n''} hnone hn'' := by
    cases hn' : a'.get? i with
    | none => exact h'.new hn' hn''
    | some n' =>
      rw [(h'.old hn' hn'').permission_eq]
      exact h.new hnone hn'

/-- A change that keeps the states of all nodes and adds none. -/
theorem of_stateIn_eq (h : ∀ {i n'}, a'.get? i = some n' →
    ∃ n, a.get? i = some n ∧ (n.stateIn states i).Fades (n'.stateIn states' i)) :
    a.Retains a' states states' where
  old hn hn' := by
    obtain ⟨m, hm, hfades⟩ := h hn'
    obtain rfl := Option.some.inj (hn.symm.trans hm)
    exact hfades
  new hnone hn' := by
    obtain ⟨m, hm, -⟩ := h hn'
    rw [hnone] at hm
    nomatch hm

end Retains

theorem retains_weaken (a : Arena) (states : ByteStates) (l : List Nat) (limit : Absorption) :
    a.Retains (a.modifyAll l (.weaken limit)) states (states.modifyAll l (.weaken limit)) := by
  refine .of_stateIn_eq fun hn' => ?_
  obtain ⟨n, hn, -, hstate⟩ := exists_of_get?_weakened states hn'
  refine ⟨n, hn, ?_⟩
  rw [hstate]
  split
  · exact ByteState.fades_weaken limit _
  · exact .refl _

theorem retains_addChild {leaf : Node} (hp : p < a.width)
    (hstates : ∀ i, i ≠ a.width → states'.get? i = states.get? i)
    (hleaf : (leaf.stateIn states' a.width).permission ≠ .active) :
    a.Retains (a.addChild a.width p leaf) states states' where
  old {i n n'} hn hn' := by
    have hi := lt_width_of_get? hn
    rcases exists_of_get?_addChild hp hn' with ⟨rfl, -⟩ | ⟨m, -, hm, rfl⟩
    · exact absurd hi (Nat.lt_irrefl _)
    · obtain rfl := Option.some.inj (hn.symm.trans hm)
      have heq : ({ n with children := if i = p then n.children ++ [a.width] else n.children } :
          Node).stateIn states' i = n.stateIn states i := by
        unfold Node.stateIn
        rw [hstates i (Nat.ne_of_lt hi)]
      rw [heq]
      exact .refl _
  new {i n'} hnone hn' := by
    rcases exists_of_get?_addChild hp hn' with ⟨rfl, rfl⟩ | ⟨m, -, hm, -⟩
    · exact hleaf
    · rw [hnone] at hm
      nomatch hm

/-- At one byte at most one access is carried out, and after it the nodes change. -/
def Advances (a a' : Arena) (prot : Tag → Bool) (states states' : ByteStates) : Prop :=
  ∃ mid, (mid = states ∨ ∃ kind start, start < a.width ∧
    a.CarriedOut prot kind start states mid) ∧ a.Retains a' mid states'

end Arena

/-! ## 3. Trees -/

namespace Tree

variable {t t' t'' : Tree} {prot : Tag → Bool} {ctx : Context}

/-- The nodes change, and at no byte does a tag gain or lose a right. -/
structure Extends (t t' : Tree) : Prop where
  grows : t.arena.Grows t'.arena
  size_eq : t'.size = t.size
  retains : ∀ {o states'}, t'.bytes.valueAt? o = some states' →
    ∃ states, t.bytes.valueAt? o = some states ∧ t.arena.Retains t'.arena states states'

/-- **What an operation does**: at every byte at most one access, and then a change of the
nodes. -/
structure Advances (t t' : Tree) (prot : Tag → Bool) : Prop where
  grows : t.arena.Grows t'.arena
  size_eq : t'.size = t.size
  advances : ∀ {o states'}, t'.bytes.valueAt? o = some states' →
    ∃ states, t.bytes.valueAt? o = some states ∧ t.arena.Advances t'.arena prot states states'

theorem Extends.trans (h : t.Extends t') (h' : t'.Extends t'') : t.Extends t'' where
  grows := h.grows.trans h'.grows
  size_eq := h'.size_eq.trans h.size_eq
  retains ho := by
    obtain ⟨states', ho', hr'⟩ := h'.retains ho
    obtain ⟨states, ho, hr⟩ := h.retains ho'
    exact ⟨states, ho, hr.trans h.grows hr'⟩

theorem Extends.advances (h : t.Extends t') (prot : Tag → Bool) : t.Advances t' prot where
  grows := h.grows
  size_eq := h.size_eq
  advances ho := by
    obtain ⟨states, ho, hr⟩ := h.retains ho
    exact ⟨states, ho, states, .inl rfl, hr⟩

namespace Advances

theorem trans_extends (h : t.Advances t' prot) (h' : t'.Extends t'') : t.Advances t'' prot where
  grows := h.grows.trans h'.grows
  size_eq := h'.size_eq.trans h.size_eq
  advances ho := by
    obtain ⟨states', ho', hr'⟩ := h'.retains ho
    obtain ⟨states, ho, mid, hmid, hr⟩ := h.advances ho'
    exact ⟨states, ho, mid, hmid, hr.trans h.grows hr'⟩

/-- A byte of the tree before is one of the tree after. -/
theorem exists_valueAt? (h : t.Advances t' prot) {o : Nat} {states : ByteStates}
    (ho : t.bytes.valueAt? o = some states) :
    ∃ states', t'.bytes.valueAt? o = some states' ∧
      t.arena.Advances t'.arena prot states states' := by
  cases ho' : t'.bytes.valueAt? o with
  | none =>
    have hnone : t.bytes.valueAt? o = none := by
      rw [RunMap.valueAt?_eq_none_iff] at ho' ⊢
      exact Nat.le_trans (Nat.le_of_eq h.size_eq.symm) ho'
    rw [hnone] at ho
    nomatch ho
  | some states' =>
    obtain ⟨old, hold, hadv⟩ := h.advances ho'
    obtain rfl := Option.some.inj (ho.symm.trans hold)
    exact ⟨states', rfl, hadv⟩

/-- Old tags keep their nodes. -/
theorem index?_eq (h : t.Advances t' prot) {prot₁ prot₂ : Tag → Bool} (hs : t.Sound prot₁)
    (hs' : t'.Sound prot₂) {tag : Tag} {i : Nat} (hi : t.tags.index? tag = some i) :
    t'.tags.index? tag = some i := by
  obtain ⟨n, hn, rfl⟩ := hs.exists_get? hi
  obtain ⟨n', hn', htag, -⟩ := h.grows i n hn
  rw [← htag]
  exact hs'.index?_tag hn'

end Advances

/-! ## 4. Changes of the nodes -/

/-- How the runs are cut does not matter. -/
theorem extends_of_valueAt? (t : Tree) {bytes : RunMap ByteStates}
    (hval : ∀ o, bytes.valueAt? o = t.bytes.valueAt? o) (runs : Nat) :
    t.Extends { t with bytes := bytes, runsAtLastMerge := runs } where
  grows := .refl _
  size_eq := RunMap.size_eq_of_valueAt? hval
  retains ho := ⟨_, (hval _).symm.trans ho, .refl _ _⟩

theorem Extends.refl (t : Tree) : t.Extends t :=
  extends_of_valueAt? t (fun _ => rfl) t.runsAtLastMerge

theorem extends_divided (t : Tree) (r : ByteRange) : t.Extends (t.divided r) :=
  extends_of_valueAt? t (RunMap.valueAt?_split t.bytes r) t.runsAtLastMerge

theorem extends_tidied (t : Tree) : t.Extends t.tidied.state := by
  obtain ⟨bytes, runs, heq, hval, -⟩ := state_tidied t
  rw [heq]
  exact extends_of_valueAt? t hval runs

theorem extends_named (t : Tree) (i : Nat) (s : String) :
    t.Extends
      { t with arena := t.arena.modify i fun n => { n with label := n.label.named s } } where
  grows := (Arena.sameSkeleton_modifyAll t.arena [i]
    (f := fun n => { n with label := n.label.named s }) fun _ => rfl).grows
  size_eq := rfl
  retains {o states} ho := by
    refine ⟨states, ho, .of_stateIn_eq fun {j n'} hn' => ?_⟩
    rw [Slots.get?_modify] at hn'
    split at hn'
    · obtain ⟨n, hn, rfl⟩ := Option.map_eq_some_iff.mp hn'
      exact ⟨n, hn, .refl _⟩
    · exact ⟨n', hn', .refl _⟩

theorem extends_weakenFrom (t : Tree) (i : Nat) (limit : Absorption) :
    t.Extends (t.weakenFrom i limit) := by
  rw [weakenFrom_eq]
  refine ⟨?_, RunMap.size_map _ _, fun ho => ?_⟩
  · exact (Arena.sameSkeleton_modifyAll t.arena _ (f := .weaken limit) fun _ => rfl).grows
  · rw [RunMap.valueAt?_map] at ho
    obtain ⟨states, ho₁, rfl⟩ := Option.map_eq_some_iff.mp ho
    exact ⟨states, ho₁, Arena.retains_weaken _ _ _ _⟩

theorem extends_attach (h : t.Sound prot) {c : NewChild} {parent i : Nat} {tags : Registry Tag}
    (hparent : parent < t.arena.width) (hins : t.tags.insert c.tag = .ok (tags, i))
    (hperm : c.permission ≠ .active) : t.Extends (t.attach c parent tags i) := by
  obtain ⟨-, -, -, hi⟩ := Registry.insert_eq_ok_iff.mp hins
  obtain rfl : i = t.arena.width := hi.trans h.width_eq.symm
  have hgrows := Arena.grows_addChild t.arena parent (c.node parent)
  rw [attach_eq]
  refine ⟨?_, ?_, fun ho => ?_⟩
  · exact hgrows.trans
      (Arena.sameSkeleton_modifyAll _ _ (f := .weaken c.absorption) fun _ => rfl).grows
  · exact (RunMap.size_map _ _).trans (RunMap.size_update _ _ _)
  · rw [RunMap.valueAt?_map] at ho
    obtain ⟨states, ho₁, rfl⟩ := Option.map_eq_some_iff.mp ho
    obtain ⟨old, hold, hsame, hleaf⟩ := valueAt?_addLeaf h.lt_width c parent ho₁
    refine ⟨old, hold, Arena.Retains.trans ?_ hgrows (Arena.retains_weaken _ _ _ _)⟩
    exact Arena.retains_addChild hparent hsame (by rwa [hleaf])

/-! ## 5. Operations -/

/-- The second pass carries out an access at the bytes of its range. -/
theorem advances_committed (h : t.Sound ctx.isProtected) {acc : Access} {start : Nat}
    (hstart : start < t.arena.width) (hr : acc.range.stop ≤ t.size) {accessed : Label}
    {us : List (List Update)} (hus : t.pending ctx acc start accessed = .ok us) :
    t.Advances (t.committed acc.range us) ctx.isProtected where
  grows := .refl _
  size_eq := RunMap.size_change _ _ _ _
  advances {o states'} ho' := by
    by_cases ho : o ∈ acc.range
    · obtain ⟨states, mid, hval, hval', hc, -⟩ := carriedOut_committed h hstart hr hus ho
      obtain rfl := Option.some.inj (hval'.symm.trans ho')
      exact ⟨states, hval, mid, .inr ⟨acc.kind, start, hstart, hc⟩, .refl _ _⟩
    · rw [valueAt?_committed_of_not_mem t us ho] at ho'
      exact ⟨states', ho', states', .inl rfl, .refl _ _⟩

theorem advances_access (h : t.Sound ctx.isProtected) (acc : Access) :
    t.Advances (t.access ctx acc).state ctx.isProtected := by
  rcases access_cases h acc with ⟨e, messages, heq⟩ |
    ⟨n, start, -, hn, hstop, ⟨v, messages, -, heq⟩ | ⟨us, messages, hus, heq⟩⟩
  · rw [heq]
    exact (Extends.refl t).advances _
  · rw [heq]
    exact (extends_divided t acc.range).advances _
  · rw [heq]
    exact (advances_committed h (Arena.lt_width_of_get? hn) hstop hus).trans_extends
      (extends_tidied _)

theorem advances_free (h : t.Sound ctx.isProtected) (tag : Tag) :
    t.Advances (t.free ctx tag).state ctx.isProtected := by
  rcases free_cases h tag with ⟨e, heq⟩ | ⟨f, heq⟩ | ⟨start, label, us, messages, hs, hus, heq⟩
  · rw [heq]
    exact (Extends.refl t).advances _
  · rw [heq]
    exact (extends_divided t _).advances _
  · rw [heq]
    exact (advances_committed h hs (Nat.le_of_eq (Nat.zero_add _)) hus).trans_extends
      (extends_tidied _)

theorem advances_insertChild (h : t.Sound ctx.isProtected) {c : NewChild}
    (hperm : c.permission ≠ .active) :
    t.Advances (t.insertChild ctx c).state ctx.isProtected := by
  unfold insertChild
  split
  · exact (Extends.refl t).advances _
  · have hread := advances_access h ⟨c.parent, c.range, .read, .reborrow⟩
    have hs := sound_access h ⟨c.parent, c.range, .read, .reborrow⟩
    refine Outcome.state_andThen (P := fun s => t.Advances s ctx.isProtected) hread fun _ _ => ?_
    split
    · exact hread
    · next parent hparent =>
      split
      · exact hread
      · exact hread
      · next tags i hins _ =>
        have hlt := hs.lt_width_of_index? (requireTag_eq_ok_iff.mp hparent)
        exact hread.trans_extends ((extends_attach hs hlt hins hperm).trans (extends_tidied _))

theorem extends_name {tag : Tag} {depth : Nat} {s : String} (ht : t.name tag depth s = .ok t') :
    t.Extends t' := by
  unfold name at ht
  split at ht
  · cases ht
  · next i _ =>
    obtain rfl := Except.ok.inj ht
    exact extends_named t i s

theorem extends_resetAbsorption {tag : Tag} (ht : t.resetAbsorption tag = .ok t') :
    t.Extends t' := by
  unfold resetAbsorption at ht
  cases htag : t.requireTag tag .protect with
  | error e =>
    rw [htag] at ht
    nomatch ht
  | ok i =>
    rw [htag] at ht
    obtain rfl := Except.ok.inj ht
    exact extends_weakenFrom t i .nothing

end Tree

end TreeBorrows
