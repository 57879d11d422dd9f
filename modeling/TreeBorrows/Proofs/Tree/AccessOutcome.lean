/-
# How an access can end

On a sound tree an access ends in one of four ways (`access_cases`):

* its tag or its range is refused, and the tree is the one it started from;
* some node stands against it, and only the runs are divided in another way;
* it is carried out, and the tree is `committed`, perhaps with equal neighbours joined;
* it is carried out, and the count of runs at which neighbours are to be joined next leaves the
  words.

The first pass is `pending`: it succeeds exactly if every node can take its step at every byte of
the range (`pending_eq_ok_iff`), and what it fails with is a violation
(`violation_of_pending_eq_error`).  What the second pass makes of it is stated byte by byte
(`carriedOut_committed`, `valueAt?_committed_of_not_mem`).

However it ends, the nodes, the tags and the size of the tree are those that it had
(`sameNodes_access`): an access changes nothing but what its nodes may do.
-/
import TreeBorrows.Proofs.Tree.Sound

namespace TreeBorrows

namespace Tree

variable {t : Tree} {prot : Tag → Bool} {ctx : Context} {acc : Access} {start : Nat} {n : Node}
  {us : List (List Update)}

/-! ## 1. Joining equal neighbours -/

/-- Whether it succeeds depends on whether the number of runs to join at is a word. -/
theorem result_tidied (t : Tree) : t.tidied.result =
    if t.runsAtLastMerge + t.mergeSlack < Word.limit then .ok ()
      else .error (.fault .overflow) := by
  unfold tidied tidy
  cases hadd : Word.add t.runsAtLastMerge t.mergeSlack with
  | error f =>
    obtain ⟨rfl, hle⟩ := Word.add_eq_error_iff.mp hadd
    exact (if_neg (Nat.not_lt.mpr hle)).symm
  | ok limit =>
    obtain ⟨-, hlt⟩ := Word.add_eq_ok_iff.mp hadd
    rw [if_pos hlt]
    dsimp only
    by_cases hle : limit ≤ t.bytes.runCount
    · rw [if_pos hle]
      rfl
    · rw [if_neg hle]
      rfl

/-- No error of the checked program comes of it. -/
theorem tidied_ne_error (t : Tree) (e : Error) : t.tidied.result ≠ .error (.error e) := by
  rw [result_tidied]
  split <;> exact nofun

/-- Only the runs change, and what they say of each byte stays. -/
theorem state_tidied (t : Tree) : ∃ bytes runs,
    t.tidied.state = { t with bytes := bytes, runsAtLastMerge := runs } ∧
      (∀ o, bytes.valueAt? o = t.bytes.valueAt? o) ∧ (t.bytes.IsProper → bytes.IsProper) := by
  unfold tidied tidy
  cases Word.add t.runsAtLastMerge t.mergeSlack with
  | error f => exact ⟨t.bytes, t.runsAtLastMerge, rfl, fun _ => rfl, id⟩
  | ok limit =>
    dsimp only
    by_cases hle : limit ≤ t.bytes.runCount
    · rw [if_pos hle]
      exact ⟨_, _, rfl, RunMap.valueAt?_merge t.bytes, RunMap.isProper_merge⟩
    · rw [if_neg hle]
      exact ⟨t.bytes, t.runsAtLastMerge, rfl, fun _ => rfl, id⟩

theorem valueAt?_tidied (t : Tree) (o : Nat) :
    t.tidied.state.bytes.valueAt? o = t.bytes.valueAt? o := by
  obtain ⟨bytes, runs, heq, hval, -⟩ := state_tidied t
  rw [heq]
  exact hval o

theorem sound_tidied (h : t.Sound prot) : t.tidied.state.Sound prot := by
  obtain ⟨bytes, runs, heq, hval, hproper⟩ := state_tidied t
  rw [heq]
  exact h.of_valueAt? (hproper h.isProper) hval runs

/-! ## 2. The first pass -/

/-- The tree with its runs divided at the ends of a range. -/
def divided (t : Tree) (r : ByteRange) : Tree := { t with bytes := t.bytes.split r }

/-- What the first pass works out for the runs of its range. -/
def pending (t : Tree) (ctx : Context) (acc : Access) (start : Nat) (accessed : Label) :
    Except Failure (List (List Update)) :=
  (t.bytes.inside acc.range).mapM (t.planElement ctx acc start accessed)

theorem sound_divided (h : t.Sound prot) (r : ByteRange) : (t.divided r).Sound prot :=
  h.of_valueAt? (RunMap.isProper_split h.isProper r) (RunMap.valueAt?_split t.bytes r)
    t.runsAtLastMerge

/-- Once tag and range are accepted, the first pass divides the runs and works out the updates. -/
theorem plan_eq (hi : t.tags.index? acc.tag = some start) (hn : t.arena.get? start = some n)
    (hr : t.requireRange acc.range acc.cause.operation = .ok ()) :
    t.plan ctx acc = ⟨t.divided acc.range, [], t.pending ctx acc start n.label⟩ := by
  have hcheck : t.bytes.checkRange acc.range = .ok () :=
    RunMap.checkRange_eq_ok_iff.mpr (requireRange_eq_ok_iff.mp hr)
  unfold plan
  rw [requireTag_eq_ok_iff.mpr hi]
  dsimp only
  rw [hr]
  dsimp only
  by_cases he : acc.range.isEmpty = true
  · have hsplit : t.bytes.split acc.range = t.bytes := by
      simp [RunMap.split, RunMap.carve, he, Carving.join]
    rw [if_pos he, divided, pending, hsplit, RunMap.inside_of_isEmpty he]
    rfl
  · rw [if_neg he, hn, hcheck]
    rfl

/-- What a run of the range asks for does not depend on what is passed over. -/
theorem planElement_eq (h : t.Sound ctx.isProtected) (hstart : start < t.arena.width) {o : Nat}
    {e : Element ByteStates} (ho : t.bytes.valueAt? o = some e.value) (accessed : Label) :
    t.planElement ctx acc start accessed e =
      collect (planVisit ctx acc accessed e.start)
        (t.arena.route e.value (fun _ _ => false) start) := by
  refine Arena.collect_route_of_skips h.wellLinked h.noActiveDefault (h.absorption ho) ?_ hstart
  intro s rel hskip
  exact (Bool.and_eq_true_iff.mp hskip).2

/-- **The first pass succeeds exactly if every node can take its step** at every byte of the
range. -/
theorem pending_eq_ok_iff (h : t.Sound ctx.isProtected) (hstart : start < t.arena.width)
    (hr : acc.range.stop ≤ t.size) (accessed : Label) :
    (∃ us, t.pending ctx acc start accessed = .ok us) ↔
      ∀ o states, o ∈ acc.range → t.bytes.valueAt? o = some states →
        t.arena.Granted ctx.isProtected acc.kind start states := by
  constructor
  · rintro ⟨us, hus⟩ o states ho hval
    obtain ⟨e, he, hlo, hhi⟩ := RunMap.exists_mem_inside hr ho
    obtain ⟨-, hshow⟩ := RunMap.mem_inside h.isProper hr he
    obtain rfl : e.value = states := Option.some.inj ((hshow o hlo hhi).2.symm.trans hval)
    have hstep : ∃ u, t.planElement ctx acc start accessed e = .ok u := by
      have hall := mapM_eq_ok_iff.mp hus
      generalize t.bytes.inside acc.range = es at he hall
      clear hus
      induction hall with
      | nil => exact absurd he List.not_mem_nil
      | cons hxy _ ih =>
        rcases List.mem_cons.mp he with rfl | he
        · exact ⟨_, hxy⟩
        · exact ih he
    obtain ⟨u, hu⟩ := hstep
    rw [planElement_eq h hstart hval] at hu
    exact (Arena.granted_iff_exists_collect h.wellLinked h.noActiveDefault hstart).mpr ⟨u, hu⟩
  · intro hg
    refine exists_mapM_eq_ok fun e he => ?_
    obtain ⟨hlt, hshow⟩ := RunMap.mem_inside h.isProper hr he
    obtain ⟨hmem, hval⟩ := hshow e.start (Nat.le_refl _) hlt
    rw [planElement_eq h hstart hval]
    exact (Arena.granted_iff_exists_collect h.wellLinked h.noActiveDefault hstart).mp
      (hg e.start e.value hmem hval)

/-- What stops the first pass is a violation. -/
theorem violation_of_pending_eq_error (h : t.Sound ctx.isProtected)
    (hstart : start < t.arena.width) (hr : acc.range.stop ≤ t.size) {accessed : Label}
    {f : Failure} (hf : t.pending ctx acc start accessed = .error f) :
    ∃ v, f = .error (.aliasing v) := by
  obtain ⟨pre, e, post, hes, -, he⟩ := mapM_eq_error_iff.mp hf
  have hmem : e ∈ t.bytes.inside acc.range := by
    rw [hes]
    exact List.mem_append_right pre List.mem_cons_self
  obtain ⟨hlt, hshow⟩ := RunMap.mem_inside h.isProper hr hmem
  rw [planElement_eq h hstart (hshow e.start (Nat.le_refl _) hlt).2] at he
  exact Arena.exists_violation_of_collect h.wellLinked h.noActiveDefault hstart he

/-! ## 3. The second pass -/

/-- The tree with the updates of a first pass written back. -/
def committed (t : Tree) (r : ByteRange) (us : List (List Update)) : Tree :=
  { t with bytes := t.bytes.change r applyUpdates us }

/-- **At a byte of the range, the second pass carries the access out.** -/
theorem carriedOut_committed (h : t.Sound ctx.isProtected) (hstart : start < t.arena.width)
    (hr : acc.range.stop ≤ t.size) {accessed : Label}
    (hus : t.pending ctx acc start accessed = .ok us) {o : Nat} (ho : o ∈ acc.range) :
    ∃ states states', t.bytes.valueAt? o = some states ∧
      (t.committed acc.range us).bytes.valueAt? o = some states' ∧
      t.arena.CarriedOut ctx.isProtected acc.kind start states states' ∧
      ∀ i, (states'.get? i).isSome → (states.get? i).isSome ∨ i < t.arena.width := by
  obtain ⟨e, u, hu, hval, hval'⟩ :=
    RunMap.exists_valueAt?_change applyUpdates hr (mapM_eq_ok_iff.mp hus) ho
  rw [planElement_eq h hstart hval] at hu
  refine ⟨_, _, hval, hval', ?_, fun i hi => ?_⟩
  · exact Arena.carriedOut_of_collect h.wellLinked h.noActiveDefault hstart hu
  · obtain ⟨s, hs⟩ := Option.isSome_iff_exists.mp hi
    rcases exists_of_get?_applyUpdates hs with ⟨s', hs'⟩ | ⟨w, hw, rfl⟩
    · exact .inl (hs' ▸ rfl)
    · obtain ⟨m, -, -, hm, -⟩ :=
        (Arena.mem_of_collect_route h.wellLinked h.noActiveDefault hstart hu).mp hw
      exact .inr (Arena.lt_width_of_get? hm)

/-- Outside of the range nothing changes. -/
theorem valueAt?_committed_of_not_mem (t : Tree) (us : List (List Update)) {r : ByteRange}
    {o : Nat} (ho : o ∉ r) : (t.committed r us).bytes.valueAt? o = t.bytes.valueAt? o :=
  RunMap.valueAt?_change_of_not_mem applyUpdates us ho

theorem sound_committed (h : t.Sound ctx.isProtected) (hstart : start < t.arena.width)
    (hr : acc.range.stop ≤ t.size) {accessed : Label}
    (hus : t.pending ctx acc start accessed = .ok us) :
    (t.committed acc.range us).Sound ctx.isProtected := by
  refine h.carriedOut acc.kind hstart (RunMap.isProper_change h.isProper _ _ _)
    fun {o states'} hval => ?_
  by_cases ho : o ∈ acc.range
  · obtain ⟨states, states'', h₁, h₂, hc, hkept⟩ := carriedOut_committed h hstart hr hus ho
    obtain rfl : states'' = states' := Option.some.inj (h₂.symm.trans hval)
    exact ⟨states, h₁, .inr ⟨hc, hkept⟩⟩
  · rw [RunMap.valueAt?_change_of_not_mem _ _ ho] at hval
    exact ⟨states', hval, .inl rfl⟩

/-- What the second pass tells of. -/
def transitionLog (t : Tree) (ctx : Context) (range : ByteRange) (cause : Cause)
    (pending : List (List Update)) : List Message :=
  (t.bytes.inside range).zip pending |>.flatMap fun (e, updates) =>
    t.updateMessages ctx cause e.range updates

/-- The second pass finds the runs as the first one left them, writes the updates back and then
joins neighbours. -/
theorem settle_divided (h : t.bytes.IsProper) {r : ByteRange}
    (hr : t.bytes.checkRange r = .ok ()) (ctx : Context) (cause : Cause)
    (us : List (List Update)) :
    (t.divided r).settle ctx r cause us =
      (t.committed r us).tidied.after (t.transitionLog ctx r cause us) := by
  obtain ⟨hlimit, hstop⟩ := RunMap.checkRange_eq_ok_iff.mp hr
  have hcheck : (t.divided r).bytes.checkRange r = .ok () := by
    refine RunMap.checkRange_eq_ok_iff.mpr ⟨hlimit, ?_⟩
    rw [divided, RunMap.size_split]
    exact hstop
  have hinside : (t.divided r).bytes.inside r = t.bytes.inside r :=
    congrArg (fun c : Carving ByteStates => Run.elements r.start c.inside)
      (RunMap.carve_split h hstop)
  have hchange : (t.divided r).bytes.change r applyUpdates us =
      t.bytes.change r applyUpdates us := RunMap.change_split h hstop applyUpdates us
  unfold settle
  rw [hcheck]
  dsimp only
  rw [hchange, hinside]
  rfl

/-! ## 4. The whole access -/

/-- How an access can end once its tag and its range are accepted. -/
theorem access_cases_of_index? (h : t.Sound ctx.isProtected)
    (hi : t.tags.index? acc.tag = some start)
    (hlimit : acc.range.stop < Word.limit) (hstop : acc.range.stop ≤ t.size) :
    ∃ n, t.arena.get? start = some n ∧
      ((∃ v messages, t.pending ctx acc start n.label = .error (.error (.aliasing v)) ∧
          t.access ctx acc = (Outcome.error (t.divided acc.range) (.aliasing v)).after messages) ∨
        ∃ us messages, t.pending ctx acc start n.label = .ok us ∧
          t.access ctx acc = (t.committed acc.range us).tidied.after messages) := by
  obtain ⟨n, hn, -⟩ := h.exists_get? hi
  have hrange : t.requireRange acc.range acc.cause.operation = .ok () :=
    requireRange_eq_ok_iff.mpr ⟨hlimit, hstop⟩
  refine ⟨n, hn, ?_⟩
  rw [access, plan_eq hi hn hrange]
  cases hus : t.pending ctx acc start n.label with
  | error f =>
    obtain ⟨v, rfl⟩ := violation_of_pending_eq_error h (Arena.lt_width_of_get? hn) hstop hus
    exact .inl ⟨v, _, rfl, rfl⟩
  | ok us =>
    have hcheck := RunMap.checkRange_eq_ok_iff.mpr ⟨hlimit, hstop⟩
    refine .inr ⟨us, .accessed acc.cause acc.tag ctx.alloc acc.range ::
      t.transitionLog ctx acc.range acc.cause us, rfl, ?_⟩
    rw [Outcome.andThen_of_ok rfl, settle_divided h.isProper hcheck]
    rfl

/-- An access fails as its first pass does. -/
theorem access_of_plan_eq_error {f : Failure} (hf : (t.plan ctx acc).result = .error f) :
    (t.access ctx acc).result = .error f := by
  rw [access, Outcome.result_after, Outcome.andThen_of_error hf]

/-- An access that succeeds has found its tag, and its range inside. -/
theorem exists_of_access_eq_ok (hok : (t.access ctx acc).result = .ok ()) :
    ∃ start, t.tags.index? acc.tag = some start ∧ acc.range.stop < Word.limit ∧
      acc.range.stop ≤ t.size := by
  cases htag : t.requireTag acc.tag acc.cause.operation with
  | error e =>
    have hplan : (t.plan ctx acc).result = .error (.error e) := by
      rw [plan, htag]
      rfl
    cases (access_of_plan_eq_error hplan).symm.trans hok
  | ok start =>
    cases hrange : t.requireRange acc.range acc.cause.operation with
    | error e =>
      have hplan : (t.plan ctx acc).result = .error (.error e) := by
        simp only [plan, htag, hrange]
        rfl
      cases (access_of_plan_eq_error hplan).symm.trans hok
    | ok _ => exact ⟨start, requireTag_eq_ok_iff.mp htag, requireRange_eq_ok_iff.mp hrange⟩

/-- **How an access can end.** -/
theorem access_cases (h : t.Sound ctx.isProtected) (acc : Access) :
    (∃ e messages, t.access ctx acc = (Outcome.error t e).after messages) ∨
      ∃ n start, t.tags.index? acc.tag = some start ∧ t.arena.get? start = some n ∧
        acc.range.stop ≤ t.size ∧
        ((∃ v messages, t.pending ctx acc start n.label = .error (.error (.aliasing v)) ∧
            t.access ctx acc =
              (Outcome.error (t.divided acc.range) (.aliasing v)).after messages) ∨
          ∃ us messages, t.pending ctx acc start n.label = .ok us ∧
            t.access ctx acc = (t.committed acc.range us).tidied.after messages) := by
  cases htag : t.requireTag acc.tag acc.cause.operation with
  | error e =>
    refine .inl ⟨e, [.accessed acc.cause acc.tag ctx.alloc acc.range], ?_⟩
    unfold access plan
    rw [htag]
    rfl
  | ok start =>
    have hi := requireTag_eq_ok_iff.mp htag
    cases hrange : t.requireRange acc.range acc.cause.operation with
    | error e =>
      refine .inl ⟨e, [.accessed acc.cause acc.tag ctx.alloc acc.range], ?_⟩
      unfold access plan
      rw [htag]
      dsimp only
      rw [hrange]
      rfl
    | ok _ =>
      obtain ⟨hlimit, hstop⟩ := requireRange_eq_ok_iff.mp hrange
      obtain ⟨n, hn, hcases⟩ := access_cases_of_index? h hi hlimit hstop
      exact .inr ⟨n, start, hi, hn, hstop, hcases⟩

/-! ## 5. What stays in any case -/

/-- The trees have the same tags, nodes and bytes; the states may differ. -/
structure SameNodes (t t' : Tree) : Prop where
  tags_eq : t'.tags = t.tags
  arena_eq : t'.arena = t.arena
  size_eq : t'.size = t.size

theorem SameNodes.refl (t : Tree) : t.SameNodes t := ⟨rfl, rfl, rfl⟩

theorem SameNodes.trans {t' t'' : Tree} (h : t.SameNodes t') (h' : t'.SameNodes t'') :
    t.SameNodes t'' where
  tags_eq := h'.tags_eq.trans h.tags_eq
  arena_eq := h'.arena_eq.trans h.arena_eq
  size_eq := h'.size_eq.trans h.size_eq

theorem SameNodes.symm {t' : Tree} (h : t.SameNodes t') : t'.SameNodes t where
  tags_eq := h.tags_eq.symm
  arena_eq := h.arena_eq.symm
  size_eq := h.size_eq.symm

theorem SameNodes.exists_valueAt?_iff {t' : Tree} (h : t.SameNodes t') {o : Nat} :
    (∃ states, t'.bytes.valueAt? o = some states) ↔ ∃ states, t.bytes.valueAt? o = some states := by
  have hsize : t'.bytes.size = t.bytes.size := h.size_eq
  simp only [← Option.isSome_iff_exists, ← Option.ne_none_iff_isSome, ne_eq,
    RunMap.valueAt?_eq_none_iff, hsize]

theorem sameNodes_tidied (t : Tree) : t.SameNodes t.tidied.state := by
  obtain ⟨bytes, runs, heq, hval, -⟩ := state_tidied t
  rw [heq]
  exact ⟨rfl, rfl, RunMap.size_eq_of_valueAt? hval⟩

/-- The first pass divides the runs at most. -/
theorem state_plan (t : Tree) (ctx : Context) (acc : Access) :
    (t.plan ctx acc).state = t ∨ (t.plan ctx acc).state = t.divided acc.range := by
  unfold plan
  split
  · exact .inl rfl
  · split
    · exact .inl rfl
    · split
      · exact .inl rfl
      · split
        · exact .inl rfl
        · exact .inl rfl
        · exact .inr rfl

theorem sameNodes_plan (t : Tree) (ctx : Context) (acc : Access) :
    t.SameNodes (t.plan ctx acc).state := by
  rcases state_plan t ctx acc with heq | heq
  · rw [heq]
    exact .refl t
  · rw [heq]
    exact ⟨rfl, rfl, RunMap.size_split t.bytes acc.range⟩

theorem sameNodes_settle (t : Tree) (ctx : Context) (r : ByteRange) (cause : Cause)
    (us : List (List Update)) : t.SameNodes (t.settle ctx r cause us).state := by
  unfold settle
  split
  · exact .refl t
  · have hcommitted : t.SameNodes (t.committed r us) :=
      ⟨rfl, rfl, RunMap.size_change t.bytes r applyUpdates us⟩
    exact hcommitted.trans (sameNodes_tidied (t.committed r us))

/-- **An access leaves tags and nodes alone**, in any tree and however it ends. -/
theorem sameNodes_access (t : Tree) (ctx : Context) (acc : Access) :
    t.SameNodes (t.access ctx acc).state :=
  have hplan := sameNodes_plan t ctx acc
  Outcome.state_andThen (P := t.SameNodes) hplan fun us _ =>
    hplan.trans (sameNodes_settle _ ctx acc.range acc.cause us)

/-- Freeing leaves them alone, too. -/
theorem sameNodes_free (t : Tree) (ctx : Context) (tag : Tag) :
    t.SameNodes (t.free ctx tag).state := by
  have hplan := sameNodes_plan t ctx ⟨tag, ⟨0, t.size⟩, .write, .dealloc⟩
  refine Outcome.state_andThen (P := t.SameNodes) hplan fun us _ => ?_
  split
  · exact hplan.trans (sameNodes_settle _ ctx _ _ us)
  · split
    · exact hplan
    · split
      · exact hplan
      · exact hplan
      · exact hplan

end Tree

end TreeBorrows
