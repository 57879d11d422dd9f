/-
# Which runs of a tree are joined

A tree keeps one row of states for each run of bytes, and joins neighbours whose rows are equal.  Is
that the same as joining neighbours with the same states?  It is if no row ends in an empty slot
(`IsTight`), and none does: a run starts with the state of the root, and all that happens to its
states is that they are written and changed in place.

As in `Proofs/Tree/History.lean` this is shown for each step (`isTight_perform`), and from there for
every history (`isTight_run`).  So the runs that a tree joins are those in which every node has the
same state, kept or not (`joinedBy_run`).
-/
import TreeBorrows.Proofs.SlotEquality
import TreeBorrows.Proofs.Tree.History

namespace TreeBorrows

/-! ## 1. Steps on one row of states -/

theorem Slots.isTight_modifyAll {V : Type} {s : Slots V} (h : s.IsTight) (l : List Nat)
    (f : V → V) : (s.modifyAll l f).IsTight := by
  induction l generalizing s with
  | nil => exact h
  | cons i l ih => exact ih (isTight_modify h i f)

namespace Tree

theorem isTight_applyUpdates {states : ByteStates} (h : Slots.IsTight states) (us : List Update) :
    Slots.IsTight (applyUpdates states us) := by
  induction us generalizing states with
  | nil => exact h
  | cons u us ih => exact ih (Slots.isTight_insert h u.index u.state)

/-! ## 2. Operations on a tree -/

/-- At every byte the last slot holds a state. -/
def IsTight (t : Tree) : Prop := ∀ o states, t.bytes.valueAt? o = some states → states.IsTight

variable {t : Tree}

theorem isTight_new (root : Tag) (size : Nat) (settings : Settings) :
    (new root size settings).IsTight := by
  intro o states ho
  obtain rfl := valueAt?_new ho
  exact Slots.isTight_insert Slots.isTight_empty _ _

/-- How the runs are cut does not matter. -/
theorem IsTight.of_valueAt? (h : t.IsTight) {t' : Tree}
    (hval : ∀ o, t'.bytes.valueAt? o = t.bytes.valueAt? o) : t'.IsTight :=
  fun o states ho => h o states ((hval o).symm.trans ho)

theorem isTight_tidied (h : t.IsTight) : t.tidied.state.IsTight := h.of_valueAt? (valueAt?_tidied t)

theorem isTight_plan (h : t.IsTight) (ctx : Context) (acc : Access) :
    (t.plan ctx acc).state.IsTight := by
  rcases state_plan t ctx acc with heq | heq
  · rwa [heq]
  · rw [heq]
    exact h.of_valueAt? (RunMap.valueAt?_split t.bytes acc.range)

theorem isTight_settle (h : t.IsTight) (ctx : Context) (r : ByteRange) (cause : Cause)
    (us : List (List Update)) : (t.settle ctx r cause us).state.IsTight := by
  unfold settle
  split
  · exact h
  · refine isTight_tidied fun o states' ho => ?_
    obtain ⟨states, hold, rfl | ⟨ws, -, rfl⟩⟩ := RunMap.exists_of_valueAt?_change _ ho
    · exact h o _ hold
    · exact isTight_applyUpdates (h o _ hold) ws

theorem isTight_access (h : t.IsTight) (ctx : Context) (acc : Access) :
    (t.access ctx acc).state.IsTight :=
  Outcome.state_andThen (isTight_plan h ctx acc) fun us _ =>
    isTight_settle (isTight_plan h ctx acc) ctx acc.range acc.cause us

theorem isTight_free (h : t.IsTight) (ctx : Context) (tag : Tag) :
    (t.free ctx tag).state.IsTight := by
  have hplan := isTight_plan h ctx ⟨tag, ⟨0, t.size⟩, .write, .dealloc⟩
  refine Outcome.state_andThen hplan fun us _ => ?_
  split
  · exact isTight_settle hplan ctx _ _ us
  · split
    · exact hplan
    · split
      · exact hplan
      · exact hplan
      · exact hplan

theorem isTight_weakenFrom (h : t.IsTight) (i : Nat) (limit : Absorption) :
    (t.weakenFrom i limit).IsTight := by
  rw [weakenFrom_eq]
  intro o states ho
  rw [RunMap.valueAt?_map] at ho
  obtain ⟨states, hold, rfl⟩ := Option.map_eq_some_iff.mp ho
  exact Slots.isTight_modifyAll (h o states hold) _ _

theorem isTight_attach (h : t.IsTight) (c : NewChild) (parent : Nat) (tags : Registry Tag)
    (i : Nat) : (t.attach c parent tags i).IsTight := by
  refine isTight_weakenFrom (fun o states ho => ?_) parent c.absorption
  rw [RunMap.valueAt?_update] at ho
  split at ho
  · obtain ⟨states, hold, rfl⟩ := Option.map_eq_some_iff.mp ho
    exact Slots.isTight_insert (h o states hold) _ _
  · exact h o states ho

theorem isTight_insertChild (h : t.IsTight) (ctx : Context) (c : NewChild) :
    (t.insertChild ctx c).state.IsTight := by
  unfold insertChild
  split
  · exact h
  · have hread := isTight_access h ctx ⟨c.parent, c.range, .read, .reborrow⟩
    refine Outcome.state_andThen hread fun _ _ => ?_
    split
    · exact hread
    · split
      · exact hread
      · exact hread
      · exact isTight_tidied (isTight_attach hread c _ _ _)

theorem isTight_resetAbsorption (h : t.IsTight) {tag : Tag} {t' : Tree}
    (ht : t.resetAbsorption tag = .ok t') : t'.IsTight := by
  unfold resetAbsorption at ht
  cases htag : t.requireTag tag .protect with
  | error e =>
    rw [htag] at ht
    cases ht
  | ok i =>
    rw [htag] at ht
    obtain rfl := Except.ok.inj ht
    exact isTight_weakenFrom h i .nothing

theorem isTight_name (h : t.IsTight) {tag : Tag} {depth : Nat} {s : String} {t' : Tree}
    (ht : t.name tag depth s = .ok t') : t'.IsTight := by
  unfold name at ht
  split at ht
  · cases ht
  · obtain rfl := Except.ok.inj ht
    exact h

/-- **No operation leaves an empty slot at the end of a row of states.** -/
theorem isTight_perform (h : t.IsTight) (action : Action) : (t.perform action).state.IsTight := by
  cases action with
  | insertChild ctx child => exact isTight_insertChild h ctx child
  | access ctx access => exact isTight_access h ctx access
  | free ctx tag => exact isTight_free h ctx tag
  | resetAbsorption tag =>
    rw [perform]
    cases ht : t.resetAbsorption tag with
    | error e => exact h
    | ok t' => exact isTight_resetAbsorption h ht
  | name tag depth name =>
    rw [perform]
    cases ht : t.name tag depth name with
    | error e => exact h
    | ok t' => exact isTight_name h ht

theorem isTight_run (h : t.IsTight) (actions : List Action) : (t.run actions).IsTight := by
  induction actions generalizing t with
  | nil => exact h
  | cons action actions ih => exact ih (isTight_perform h action)

/-! ## 3. What is joined -/

/-- **A tree joins the neighbours in which it has kept the same state for every node**, and no
others. -/
theorem joinedBy_run (root : Tag) (size : Nat) (settings : Settings) (actions : List Action) :
    let t := (new root size settings).run actions
    Row.mergeAll.on t.bytes.elements = (.ok (), t.bytes.merge.elements) ∧
      Row.JoinedBy (fun states states' => ∀ i < t.tags.size, states.get? i = states'.get? i)
        t.bytes.elements t.bytes.merge.elements := by
  intro t
  have hwell : t.WellFormed := wellFormed_run (wellFormed_new root size settings) actions
  have htight : t.IsTight := isTight_run (isTight_new root size settings) actions
  have hkept : ∀ e ∈ t.bytes.elements,
      e.value.IsTight ∧ ∀ i, t.tags.size ≤ i → e.value.get? i = none := by
    intro e he
    obtain ⟨hlt, -⟩ := (RunMap.represents_elements hwell.isProper).tiles.stop_le_of_mem he
    have ho := (RunMap.represents_elements hwell.isProper).shows e he e.start
      (Element.mem_range_iff.mpr ⟨Nat.le_refl _, hlt⟩)
    refine ⟨htight _ _ ho, fun i hi => ?_⟩
    by_contra hsome
    have := (hwell.covers ho).lt_width (Option.isSome_iff_ne_none.mpr hsome)
    rw [hwell.width_eq] at this
    omega
  refine ⟨Row.on_mergeAll (RunMap.merge_elements t.bytes), (RunMap.joinedBy_merge
    hwell.isProper).congr (fun _ _ heq _ _ => heq ▸ rfl) fun e he e' he' hsame => ?_⟩
  obtain ⟨hlast, hnone⟩ := hkept e he
  obtain ⟨hlast', hnone'⟩ := hkept e' he'
  refine hlast.eq_of_get? hlast' fun i => ?_
  by_cases hi : i < t.tags.size
  · exact hsame i hi
  · have hle := Nat.le_of_not_lt hi
    rw [hnone i hle, hnone' i hle]

end Tree

end TreeBorrows
