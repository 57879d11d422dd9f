/-
# Well-formed trees

Four things in a tree are written one after the other and have to agree: the registry of tags, the
nodes of the arena, the links between the nodes, and the states kept for each run of bytes.
`Tree.WellFormed` is their agreement, for any protectors, any default permissions and any states.
It asks less than `Tree.Sound`, and more of the run map in one point: the root has a state of its
own in every run.

Every operation keeps it, however the operation ends, since each of its steps does:

* the first pass of an access divides runs, and asks for new states of nodes only
  (`isSome_get?_of_mem_plan`);
* the second pass writes these states, and joins equal neighbours;
* a new leaf takes the next index in the registry and in the arena, before states are kept for it.
-/
import TreeBorrows.Proofs.Tree.AccessOutcome

namespace TreeBorrows

/-! ## 1. The states kept at one byte -/

theorem Slots.isSome_get?_modifyAll {V : Type} (s : Slots V) (l : List Nat) (f : V → V) (j : Nat) :
    ((s.modifyAll l f).get? j).isSome = (s.get? j).isSome := by
  induction l generalizing s with
  | nil => rfl
  | cons i l ih =>
    have hstep : s.modifyAll (i :: l) f = (s.modify i f).modifyAll l f := rfl
    rw [hstep, ih, get?_modify]
    split
    · exact Option.isSome_map
    · rfl

namespace Arena

/-- The states are those of nodes, and the root's is among them. -/
structure Covers (a : Arena) (states : ByteStates) : Prop where
  lt_width : ∀ {i}, (states.get? i).isSome → i < a.width
  isSome_root : (states.get? root).isSome

variable {a a' : Arena} {states : ByteStates}

namespace Covers

theorem mono (h : a.Covers states) (hwidth : a.width ≤ a'.width) : a'.Covers states where
  lt_width hi := Nat.lt_of_lt_of_le (h.lt_width hi) hwidth
  isSome_root := h.isSome_root

/-- A changed state is a state. -/
theorem modifyAll (h : a.Covers states) (l : List Nat) (f : ByteState → ByteState) :
    a.Covers (states.modifyAll l f) where
  lt_width hi := h.lt_width (by rwa [Slots.isSome_get?_modifyAll] at hi)
  isSome_root := by
    rw [Slots.isSome_get?_modifyAll]
    exact h.isSome_root

/-- One more node may have a state. -/
theorem insert (h : a.Covers states) {i : Nat} (hi : i < a.width) (s : ByteState) :
    a.Covers (Slots.insert states i s) where
  lt_width {j} hj := by
    rw [Slots.get?_insert] at hj
    split at hj
    · next heq => exact heq ▸ hi
    · exact h.lt_width hj
  isSome_root := by
    rw [Slots.get?_insert]
    split
    · rfl
    · exact h.isSome_root

/-- Updates of nodes give states to nodes, and take none away. -/
theorem applyUpdates (h : a.Covers states) {us : List Update}
    (hus : ∀ u ∈ us, u.index < a.width) : a.Covers (Tree.applyUpdates states us) := by
  induction us generalizing states with
  | nil => exact h
  | cons u us ih =>
    exact ih (h.insert (hus u List.mem_cons_self) u.state)
      fun w hw => hus w (List.mem_cons_of_mem u hw)

end Covers

end Arena

namespace Tree

/-! ## 2. Well-formed trees -/

/-- The registry, the arena and the run map of a tree agree with each other. -/
structure WellFormed (t : Tree) : Prop extends Indexed t where
  isProper : t.bytes.IsProper
  covers : ∀ {o states}, t.bytes.valueAt? o = some states → t.arena.Covers states

variable {t : Tree} {ctx : Context} {us : List (List Update)}

theorem wellFormed_new (root : Tag) (size : Nat) (settings : Settings) :
    (new root size settings).WellFormed where
  toIndexed := indexed_new root size settings
  isProper := RunMap.isProper_ofSize _ _
  covers {o states} ho := by
    obtain rfl := valueAt?_new ho
    refine ⟨fun {i} hi => ?_, ?_⟩
    · rw [Slots.get?_insert] at hi
      rw [width_new]
      split at hi
      · next h => exact h ▸ Nat.one_pos
      · rw [Slots.get?_empty] at hi
        cases hi
    · rw [Slots.get?_insert, if_pos rfl]
      rfl

/-- In each run there are states of nodes only, and one of the root. -/
theorem WellFormed.covers_of_mem (h : t.WellFormed) {r : Run ByteStates} (hr : r ∈ t.bytes.runs) :
    t.arena.Covers r.value := by
  obtain ⟨o, ho⟩ := Run.exists_valueAt?_of_mem h.isProper hr
  exact h.covers ho

namespace WellFormed

/-- Names and entries of nodes do not matter, nor how the runs are cut and which states of nodes
are in them. -/
theorem of_sameSkeleton (h : t.WellFormed) {arena : Arena}
    (hsk : Arena.SameSkeleton t.arena arena) {bytes : RunMap ByteStates}
    (hproper : bytes.IsProper)
    (hval : ∀ {o states}, bytes.valueAt? o = some states → t.arena.Covers states) (runs : Nat) :
    WellFormed { t with arena := arena, bytes := bytes, runsAtLastMerge := runs } where
  nodup_tags := h.nodup_tags
  getElem?_tags := (h.toIndexed.of_sameSkeleton hsk bytes).getElem?_tags
  wellLinked := hsk.wellLinked h.wellLinked
  isProper := hproper
  covers ho := (hval ho).mono (Nat.le_of_eq hsk.width_eq.symm)

theorem of_valueAt? (h : t.WellFormed) {bytes : RunMap ByteStates} (hproper : bytes.IsProper)
    (hval : ∀ {o states}, bytes.valueAt? o = some states → t.arena.Covers states) (runs : Nat) :
    WellFormed { t with bytes := bytes, runsAtLastMerge := runs } :=
  have hsame : Arena.SameSkeleton t.arena t.arena := ⟨rfl, fun _ => rfl⟩
  h.of_sameSkeleton hsame hproper hval runs

theorem named (h : t.WellFormed) (i : Nat) (s : String) :
    WellFormed { t with
      arena := t.arena.modify i fun n => { n with label := n.label.named s } } :=
  h.of_sameSkeleton
    (Arena.sameSkeleton_modifyAll t.arena [i] (f := fun n => { n with label := n.label.named s })
      fun _ => rfl)
    h.isProper h.covers t.runsAtLastMerge

theorem weakenFrom (h : t.WellFormed) (i : Nat) (limit : Absorption) :
    (t.weakenFrom i limit).WellFormed := by
  rw [weakenFrom_eq]
  refine h.of_sameSkeleton
    (Arena.sameSkeleton_modifyAll t.arena (t.arena.lineage i) (f := .weaken limit) fun _ => rfl)
    (RunMap.isProper_map h.isProper _) (fun {o states'} ho => ?_) t.runsAtLastMerge
  rw [RunMap.valueAt?_map] at ho
  obtain ⟨states, hold, rfl⟩ := Option.map_eq_some_iff.mp ho
  exact (h.covers hold).modifyAll (t.arena.lineage i) (.weaken limit)

/-- A new leaf takes the next index, as a tag and as a node. -/
theorem attach (h : t.WellFormed) {c : NewChild} {parent i : Nat} {tags : Registry Tag}
    (hparent : parent < t.arena.width) (hins : t.tags.insert c.tag = .ok (tags, i)) :
    (t.attach c parent tags i).WellFormed := by
  have hleaf := h.toIndexed.addLeaf hparent hins
    (t.bytes.update c.range (·.insert i (.covered c.permission c.absorption)))
  obtain rfl := h.toIndexed.index_eq_width hins
  refine WellFormed.weakenFrom ⟨hleaf, RunMap.isProper_update h.isProper _ _, ?_⟩ parent _
  intro o states ho
  have hwidth := Arena.width_addChild t.arena parent (c.node parent)
  have hle : t.arena.width ≤ (t.arena.addChild t.arena.width parent (c.node parent)).width := by
    omega
  rw [RunMap.valueAt?_update] at ho
  split at ho
  · obtain ⟨old, hold, rfl⟩ := Option.map_eq_some_iff.mp ho
    exact ((h.covers hold).mono hle).insert (by omega) _
  · exact (h.covers ho).mono hle

end WellFormed

/-! ## 3. The two passes of an access -/

theorem wellFormed_divided (h : t.WellFormed) (r : ByteRange) : (t.divided r).WellFormed :=
  h.of_valueAt? (RunMap.isProper_split h.isProper r)
    (fun ho => h.covers ((RunMap.valueAt?_split t.bytes r _).symm.trans ho)) t.runsAtLastMerge

theorem wellFormed_tidied (h : t.WellFormed) : t.tidied.state.WellFormed := by
  obtain ⟨bytes, runs, heq, hval, hproper⟩ := state_tidied t
  rw [heq]
  exact h.of_valueAt? (hproper h.isProper) (fun ho => h.covers ((hval _).symm.trans ho)) runs

/-- **The first pass asks for new states of nodes only.** -/
theorem isSome_get?_of_mem_plan {acc : Access} (hus : (t.plan ctx acc).result = .ok us)
    {ws : List Update} (hws : ws ∈ us) {w : Update} (hw : w ∈ ws) :
    (t.arena.get? w.index).isSome := by
  have hempty : ∀ {t' : Tree},
      (Outcome.ok t' ([] : List (List Update))).result = .ok us → False := by
    intro t' h
    rw [← Except.ok.inj h] at hws
    cases hws
  unfold plan at hus
  split at hus
  · cases hus
  · next start _ =>
    split at hus
    · cases hus
    · split at hus
      · exact (hempty hus).elim
      · split at hus
        · cases hus
        · cases hus
        · next node _ _ _ =>
          obtain ⟨e, -, he⟩ := exists_of_mapM_eq_ok hus hws
          obtain ⟨x, hx, hxw⟩ := ((collect_eq_ok he).2 w).mp hw
          cases x with
          | error f => cases hxw
          | ok v =>
            obtain ⟨s, tr, -, hu⟩ := planVisit_eq_ok_iff.mp hxw
            split at hu
            · cases hu
            · obtain rfl := Option.some.inj hu
              rw [Arena.get?_of_mem_route hx]
              rfl

theorem wellFormed_plan (h : t.WellFormed) (ctx : Context) (acc : Access) :
    (t.plan ctx acc).state.WellFormed := by
  rcases state_plan t ctx acc with heq | heq
  · rw [heq]
    exact h
  · rw [heq]
    exact wellFormed_divided h acc.range

theorem wellFormed_settle (h : t.WellFormed)
    (hus : ∀ ws ∈ us, ∀ w ∈ ws, w.index < t.arena.width) (r : ByteRange) (cause : Cause) :
    (t.settle ctx r cause us).state.WellFormed := by
  unfold settle
  split
  · exact h
  · refine wellFormed_tidied (h.of_valueAt? (RunMap.isProper_change h.isProper _ _ _)
      (fun {o states'} ho => ?_) t.runsAtLastMerge)
    obtain ⟨states, hold, rfl | ⟨ws, hws, rfl⟩⟩ := RunMap.exists_of_valueAt?_change _ ho
    · exact h.covers hold
    · exact (h.covers hold).applyUpdates (hus ws hws)

/-- What the first pass asks for, the second may write. -/
theorem wellFormed_settle_plan (h : t.WellFormed) {acc : Access}
    (hus : (t.plan ctx acc).result = .ok us) (r : ByteRange) (cause : Cause) :
    ((t.plan ctx acc).state.settle ctx r cause us).state.WellFormed := by
  refine wellFormed_settle (wellFormed_plan h ctx acc) (fun ws hws w hw => ?_) r cause
  obtain ⟨n, hn⟩ := Option.isSome_iff_exists.mp (isSome_get?_of_mem_plan hus hws hw)
  rw [(sameNodes_plan t ctx acc).arena_eq]
  exact Arena.lt_width_of_get? hn

/-! ## 4. The operations -/

theorem wellFormed_access (h : t.WellFormed) (ctx : Context) (acc : Access) :
    (t.access ctx acc).state.WellFormed :=
  Outcome.state_andThen (wellFormed_plan h ctx acc) fun _ hus =>
    wellFormed_settle_plan h hus acc.range acc.cause

theorem wellFormed_free (h : t.WellFormed) (tag : Tag) : (t.free ctx tag).state.WellFormed := by
  have hplan := wellFormed_plan h ctx ⟨tag, ⟨0, t.size⟩, .write, .dealloc⟩
  refine Outcome.state_andThen hplan fun _ hus => ?_
  split
  · exact wellFormed_settle_plan h hus _ _
  · split
    · exact hplan
    · split
      · exact hplan
      · exact hplan
      · exact hplan

/-- Where the insertion of a node can leave a tree: where it was, after the read, or with the node
attached. -/
theorem state_insertChild (h : t.WellFormed) (ctx : Context) (c : NewChild) :
    (t.insertChild ctx c).state = t ∨ ∃ t', t'.WellFormed ∧ t.SameNodes t' ∧
      ((t.insertChild ctx c).state = t' ∨ ∃ parent tags i, parent < t'.arena.width ∧
        t'.tags.insert c.tag = .ok (tags, i) ∧
        (t.insertChild ctx c).state = (t'.attach c parent tags i).tidied.state) := by
  unfold insertChild
  split
  · exact .inl rfl
  · have hread := wellFormed_access h ctx ⟨c.parent, c.range, .read, .reborrow⟩
    refine .inr ⟨_, hread, sameNodes_access t ctx ⟨c.parent, c.range, .read, .reborrow⟩, ?_⟩
    refine Outcome.state_andThen (P := fun s => s = _ ∨ ∃ parent tags i, parent < _ ∧
      _ = Except.ok (tags, i) ∧ s = (attach _ c parent tags i).tidied.state)
      (.inl rfl) fun _ _ => ?_
    generalize (t.access ctx ⟨c.parent, c.range, .read, .reborrow⟩).state = t' at hread ⊢
    split
    · exact .inl rfl
    · next parent hparent =>
      split
      · exact .inl rfl
      · exact .inl rfl
      · next tags i hins _ =>
        have hlt := hread.toIndexed.lt_width_of_index? (requireTag_eq_ok_iff.mp hparent)
        exact .inr ⟨parent, tags, i, hlt, hins, rfl⟩

theorem wellFormed_insertChild (h : t.WellFormed) (c : NewChild) :
    (t.insertChild ctx c).state.WellFormed := by
  rcases state_insertChild h ctx c with heq | ⟨t', h', -, heq | ⟨parent, tags, i, hlt, hins, heq⟩⟩
  · rwa [heq]
  · rwa [heq]
  · rw [heq]
    exact wellFormed_tidied (h'.attach hlt hins)

theorem wellFormed_resetAbsorption (h : t.WellFormed) {tag : Tag} {t' : Tree}
    (ht : t.resetAbsorption tag = .ok t') : t'.WellFormed := by
  unfold resetAbsorption at ht
  cases htag : t.requireTag tag .protect with
  | error e =>
    rw [htag] at ht
    cases ht
  | ok i =>
    rw [htag] at ht
    obtain rfl := Except.ok.inj ht
    exact h.weakenFrom i .nothing

theorem wellFormed_name (h : t.WellFormed) {tag : Tag} {depth : Nat} {s : String} {t' : Tree}
    (ht : t.name tag depth s = .ok t') : t'.WellFormed := by
  unfold name at ht
  split at ht
  · cases ht
  · next i _ =>
    obtain rfl := Except.ok.inj ht
    exact h.named i s

end Tree

end TreeBorrows
