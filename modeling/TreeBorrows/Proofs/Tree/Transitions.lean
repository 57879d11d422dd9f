/-
# What is told of transitions

The first pass of an access works out what happens to the nodes, and the second one tells of it: one
message for each tracked tag whose permission changes, for each run of the range.  The runs are cut
in some way, the nodes are visited in some order, many updates leave the permission as it is, and
what was told is joined and cut again afterwards.  None of this shows in the messages.

`Tree.TellsTransitions` says what a log should tell, in terms of tags and bytes: of each transition
once, and of nothing else.  Accesses, frees and insertions tell it of the access that they make
(`tellsTransitions_access`, `tellsTransitions_free`, `tellsTransitions_insertChild`), and if they
are refused they tell of no transition.

The proof has two halves.  That what is told is right is read off the updates
(`of_mem_transitionLog`).  That it is told once is a matter of the order: the elements of a
range do not overlap and the updates of one element are updates of different nodes, so of two
messages in the log no two tell of the same tag at the same byte (`pairwise_transitionLog`).
-/
import TreeBorrows.Proofs.RunMap.Row
import TreeBorrows.Proofs.Tree.Faultless
import TreeBorrows.Proofs.Tree.Reborrow
import TreeBorrows.Proofs.Tree.VisitOrder

namespace TreeBorrows

/-! ## 1. Messages of transitions -/

/-- A list in which one member at most is picked is filtered to the one that is. -/
theorem filter_eq_singleton {α : Type} {p : α → Bool} {l : List α} {x : α}
    (hl : l.Pairwise fun y z => ¬(p y = true ∧ p z = true)) (hx : x ∈ l) (hp : p x = true) :
    l.filter p = [x] := by
  obtain ⟨pre, post, rfl⟩ := List.append_of_mem hx
  rw [List.pairwise_append, List.pairwise_cons] at hl
  obtain ⟨-, ⟨hpost, -⟩, hpre⟩ := hl
  have hbefore : pre.filter p = [] :=
    List.filter_eq_nil_iff.mpr fun y hy h => hpre y hy x (by simp) ⟨h, hp⟩
  have hafter : post.filter p = [] :=
    List.filter_eq_nil_iff.mpr fun z hz h => hpost z hz ⟨hp, h⟩
  rw [List.filter_append, List.filter_cons_of_pos hp, hbefore, hafter, List.nil_append]

namespace Message

/-- The message tells of a transition. -/
def isTransition : Message → Bool
  | transitioned .. => true
  | _ => false

/-- The message tells of a transition that the tag made at the offset. -/
def tells (tag : Tag) (o : Nat) : Message → Bool
  | transitioned tag' _ _ _ r => tag' = tag && o ∈ r
  | _ => false

@[simp] theorem tells_transitioned {tag tag' : Tag} {tr : Transition} {cause : Cause}
    {isForeign : Bool} {r : ByteRange} {o : Nat} :
    (transitioned tag' tr cause isForeign r).tells tag o = true ↔ tag' = tag ∧ o ∈ r := by
  simp [tells]

theorem exists_of_tells {tag : Tag} {o : Nat} {m : Message} (h : m.tells tag o = true) :
    ∃ tr cause isForeign r, m = .transitioned tag tr cause isForeign r ∧ o ∈ r := by
  cases m with
  | transitioned tag' tr cause isForeign r =>
    obtain ⟨rfl, ho⟩ := tells_transitioned.mp h
    exact ⟨tr, cause, isForeign, r, rfl, ho⟩
  | _ => cases h

theorem severity_of_isTransition {m : Message} (h : m.isTransition = true) :
    m.severity = .info := by
  cases m with
  | transitioned => rfl
  | _ => cases h

/-- What is told of a tag is among the transitions that are told. -/
theorem filter_tells_filter (tag : Tag) (o : Nat) (log : List Message) :
    (log.filter isTransition).filter (·.tells tag o) = log.filter (·.tells tag o) := by
  rw [List.filter_filter]
  refine List.filter_congr fun m _ => ?_
  cases m <;> simp [tells, isTransition]

end Message

/-! ## 2. The updates of one run -/

namespace Arena

variable {a : Arena} {ctx : Context} {acc : Access} {start i o : Nat} {accessed : Label}
  {states : ByteStates} {us : List Update} {n : Node}

/-- **The updates of a route are updates of different nodes.** -/
theorem nodup_index_of_requests (hw : a.WellLinked) (hd : a.NoActiveDefault)
    (hstart : start < a.width) (h : a.requests ctx acc start accessed states o = .ok us) :
    (us.map Update.index).Nodup := by
  have hsub : ∀ {xs : List (Except Fault Visit)} {us? : List (Option Update)},
      List.Forall₂ (fun x u? => Tree.planVisit ctx acc accessed o x = .ok u?) xs us? →
        ((us?.reduceOption.map Update.index).map (Except.ok (ε := Fault))).Sublist
          (xs.map (Except.map Visit.index)) := by
    intro xs us? hall
    induction hall with
    | nil => exact .refl _
    | @cons x u? xs us? hx _ ih =>
      cases u? with
      | none =>
        rw [List.reduceOption_cons_of_none]
        exact ih.cons _
      | some u =>
        rw [List.reduceOption_cons_of_some]
        cases x with
        | error f => cases hx
        | ok v =>
          obtain ⟨s, tr, -, hu⟩ := Tree.planVisit_eq_ok_iff.mp hx
          split at hu
          · cases hu
          · obtain rfl := Option.some.inj hu
            exact ih.cons_cons _
  unfold requests collect at h
  cases hm : (a.route states (fun _ _ => false) start).mapM (Tree.planVisit ctx acc accessed o) with
  | error f =>
    rw [hm] at h
    cases h
  | ok us? =>
    rw [hm] at h
    obtain rfl : us?.reduceOption = us := Except.ok.inj h
    have hroute := hsub (mapM_eq_ok_iff.mp hm)
    rw [map_index_route hw hd hstart] at hroute
    have hnodup : ((a.visitOrder start).map (Except.ok (ε := Fault))).Nodup :=
      ((perm_visitOrder hw hstart).nodup_iff.mpr List.nodup_range).map
        fun _ _ => Except.ok.inj
    exact (hnodup.sublist hroute).of_map _

/-- **What an update says is what happens to the node.**  If its permission changes there is one,
and whatever update there is goes from the permission before to the one after. -/
theorem transition_of_requests (hw : a.WellLinked) (hd : a.NoActiveDefault)
    (hstart : start < a.width) (h : a.requests ctx acc start accessed states o = .ok us)
    (hn : a.get? i = some n) {p q : Permission} (hp : (n.stateIn states i).permission = p)
    (hq : (n.stateIn (Tree.applyUpdates states us) i).permission = q) :
    (p ≠ q → ∃ u ∈ us, u.index = i) ∧ ∀ u ∈ us, u.index = i →
      u.transition = ⟨p, q⟩ ∧ u.isForeign = (a.relatedness start i).isForeign := by
  obtain ⟨tr, htr⟩ := carriedOut_of_collect hw hd hstart h i n hn
  obtain ⟨hstep, -, hafter⟩ := ByteState.access_eq_ok_iff.mp htr
  have htarget : tr = ⟨p, q⟩ := by
    have hsource := (Transition.isForward_of_transition? hstep).1
    rw [hafter] at hq
    rw [← hp, ← hq, ← hsource]
  constructor
  · intro hne
    have hchanged : n.stateIn (Tree.applyUpdates states us) i ≠ n.stateIn states i := by
      intro heq
      exact hne (by rw [← hp, ← hq, heq])
    exact ⟨⟨i, n.stateIn (Tree.applyUpdates states us) i, tr, (a.relatedness start i).isForeign⟩,
      (mem_of_collect_route hw hd hstart h).mpr ⟨n, tr, _, hn, htr, hchanged, rfl⟩, rfl⟩
  · rintro u hu rfl
    obtain ⟨m, tr', s, hm, hs, -, heq⟩ := (mem_of_collect_route hw hd hstart h).mp hu
    obtain rfl := Option.some.inj (hn.symm.trans hm)
    obtain ⟨-, rfl⟩ := Prod.mk.inj (Except.ok.inj (hs.symm.trans htr))
    rw [heq]
    exact ⟨htarget, rfl⟩

end Arena

namespace Tree

variable {t t' : Tree} {ctx : Context} {acc : Access} {start i o : Nat} {n : Node}
  {us : List (List Update)} {m : Message}

/-- The message about one update, if it is one to be told. -/
def updateMessage? (t : Tree) (ctx : Context) (cause : Cause) (r : ByteRange) (u : Update) :
    Option Message :=
  if u.transition.isIdle then none
  else
    match t.arena.get? u.index with
    | none => none
    | some node =>
      if ctx.settings.tracks node.tag then
        some (.transitioned node.tag u.transition cause u.isForeign r)
      else none

theorem updateMessage?_eq_some_iff {cause : Cause} {r : ByteRange} {u : Update} :
    t.updateMessage? ctx cause r u = some m ↔ ∃ n, t.arena.get? u.index = some n ∧
      u.transition.isIdle = false ∧ ctx.settings.tracks n.tag = true ∧
      m = .transitioned n.tag u.transition cause u.isForeign r := by
  unfold updateMessage?
  constructor
  · intro h
    split at h
    · cases h
    · next hidle =>
      split at h
      · cases h
      · next n hn =>
        split at h
        · next htracks =>
          exact ⟨n, hn, eq_false_of_ne_true hidle, htracks, (Option.some.inj h).symm⟩
        · cases h
  · rintro ⟨n, hn, hidle, htracks, rfl⟩
    simp [hidle, hn, htracks]

theorem updateMessages_eq (t : Tree) (ctx : Context) (cause : Cause) (r : ByteRange)
    (updates : List Update) :
    t.updateMessages ctx cause r updates = updates.filterMap (t.updateMessage? ctx cause r) := rfl

theorem mem_updateMessages_iff {cause : Cause} {r : ByteRange} {updates : List Update} :
    m ∈ t.updateMessages ctx cause r updates ↔ ∃ u ∈ updates, ∃ n, t.arena.get? u.index = some n ∧
      u.transition.isIdle = false ∧ ctx.settings.tracks n.tag = true ∧
      m = .transitioned n.tag u.transition cause u.isForeign r :=
  List.mem_filterMap.trans
    (exists_congr fun _ => and_congr_right fun _ => updateMessage?_eq_some_iff)

/-- Of the messages about one run, no two tell of the same tag. -/
theorem pairwise_updateMessages (h : t.Sound ctx.isProtected) {updates : List Update}
    (hnodup : (updates.map Update.index).Nodup) (cause : Cause) (r : ByteRange) :
    (t.updateMessages ctx cause r updates).Pairwise fun m m' =>
      ∀ tag o, ¬(m.tells tag o = true ∧ m'.tells tag o = true) := by
  rw [updateMessages_eq, List.pairwise_filterMap]
  refine (List.pairwise_map.mp hnodup).imp fun {u u'} hne m hm m' hm' => ?_
  rintro tag o ⟨htells, htells'⟩
  obtain ⟨n, hn, -, -, rfl⟩ := updateMessage?_eq_some_iff.mp hm
  obtain ⟨n', hn', -, -, rfl⟩ := updateMessage?_eq_some_iff.mp hm'
  have htag : n.tag = n'.tag :=
    (Message.tells_transitioned.mp htells).1.trans (Message.tells_transitioned.mp htells').1.symm
  have hi : t.tags.index? n.tag = some u.index := h.index?_tag hn
  rw [htag, h.index?_tag hn'] at hi
  exact hne (Option.some.inj hi).symm

/-! ## 3. The messages of an access -/

theorem log_tidied (t : Tree) : t.tidied.log = [] := by
  unfold tidied
  split <;> rfl

theorem log_plan (t : Tree) (ctx : Context) (acc : Access) : (t.plan ctx acc).log = [] := by
  unfold plan
  split
  · rfl
  · split
    · rfl
    · split
      · rfl
      · split <;> rfl

/-- **What the two passes make of one element**: its updates are what the nodes ask for at each of
its bytes, and are written back there. -/
theorem of_mem_zip (h : t.Sound ctx.isProtected) (hstart : start < t.arena.width)
    (hstop : acc.range.stop ≤ t.size) {accessed : Label}
    (hus : t.pending ctx acc start accessed = .ok us) {e : Element ByteStates}
    {updates : List Update} (hmem : (e, updates) ∈ (t.bytes.inside acc.range).zip us) :
    e.start < e.stop ∧ ∀ o ∈ e.range, o ∈ acc.range ∧ t.bytes.valueAt? o = some e.value ∧
      t.arena.requests ctx acc start accessed e.value o = .ok updates ∧
      (t.committed acc.range us).bytes.valueAt? o = some (applyUpdates e.value updates) := by
  obtain ⟨hlt, hshow⟩ := RunMap.mem_inside h.isProper hstop (List.of_mem_zip hmem).1
  refine ⟨hlt, fun o ho => ?_⟩
  obtain ⟨hlo, hhi⟩ := Element.mem_range_iff.mp ho
  obtain ⟨hor, hval⟩ := hshow o hlo hhi
  have hplan : t.planElement ctx acc start accessed e = .ok updates :=
    List.forall₂_zip (mapM_eq_ok_iff.mp hus) hmem
  rw [planElement_eq h hstart hval] at hplan
  have hreq : t.arena.requests ctx acc start accessed e.value o = .ok updates :=
    Arena.requests_eq_ok_of_requests_eq_ok hplan
  obtain ⟨states, updates', hval', hreq', hafter⟩ :=
    valueAt?_committed_of_mem h hstart hstop hus hor
  obtain rfl : e.value = states := Option.some.inj (hval.symm.trans hval')
  obtain rfl : updates = updates' := Except.ok.inj (hreq.symm.trans hreq')
  exact ⟨hor, hval, hreq, hafter⟩

/-- Each byte of the range lies in an element that has its updates. -/
theorem exists_mem_zip (hstop : acc.range.stop ≤ t.size) {accessed : Label}
    (hus : t.pending ctx acc start accessed = .ok us) (ho : o ∈ acc.range) :
    ∃ e updates, (e, updates) ∈ (t.bytes.inside acc.range).zip us ∧ o ∈ e.range := by
  obtain ⟨e, he, hlo, hhi⟩ := RunMap.exists_mem_inside hstop ho
  have hlength := (mapM_eq_ok_iff.mp hus).length_eq
  rw [← List.map_fst_zip (Nat.le_of_eq hlength)] at he
  obtain ⟨⟨e', updates⟩, hmem, rfl⟩ := List.mem_map.mp he
  exact ⟨e', updates, hmem, Element.mem_range_iff.mpr ⟨hlo, hhi⟩⟩

/-- **Nothing is told twice**: of the messages of an access, no two tell of the same tag at the same
byte. -/
theorem pairwise_transitionLog (h : t.Sound ctx.isProtected) (hstart : start < t.arena.width)
    (hstop : acc.range.stop ≤ t.size) {accessed : Label}
    (hus : t.pending ctx acc start accessed = .ok us) (cause : Cause) :
    (t.transitionLog ctx acc.range cause us).Pairwise fun m m' =>
      ∀ tag o, ¬(m.tells tag o = true ∧ m'.tells tag o = true) := by
  rw [transitionLog, List.pairwise_flatMap]
  constructor
  · rintro ⟨e, updates⟩ hmem
    obtain ⟨hlt, hbytes⟩ := of_mem_zip h hstart hstop hus hmem
    obtain ⟨-, -, hreq, -⟩ :=
      hbytes e.start (Element.mem_range_iff.mpr ⟨Nat.le_refl _, hlt⟩)
    exact pairwise_updateMessages h
      (Arena.nodup_index_of_requests h.wellLinked h.noActiveDefault hstart hreq) cause e.range
  · -- the elements lie one after the other
    have horder : ((t.bytes.inside acc.range).zip us).Pairwise fun x y => x.1.stop ≤ y.1.start := by
      have hlength := (mapM_eq_ok_iff.mp hus).length_eq
      have helements := Run.pairwise_elements acc.range.start (t.bytes.carve acc.range).inside
      rw [← RunMap.inside, ← List.map_fst_zip (Nat.le_of_eq hlength)] at helements
      exact List.pairwise_map.mp helements
    refine horder.imp ?_
    rintro ⟨e, updates⟩ ⟨e', updates'⟩ hle m hm m' hm' tag o ⟨htells, htells'⟩
    obtain ⟨u, -, n, -, -, -, rfl⟩ := mem_updateMessages_iff.mp hm
    obtain ⟨u', -, n', -, -, -, rfl⟩ := mem_updateMessages_iff.mp hm'
    have ho := Element.mem_range_iff.mp (Message.tells_transitioned.mp htells).2
    have ho' := Element.mem_range_iff.mp (Message.tells_transitioned.mp htells').2
    have hstops : e.stop ≤ e'.start := hle
    omega

/-! ## 4. What a log tells -/

/-- What a tag of a tree may do at an offset. -/
def permissionOf (t : Tree) (tag : Tag) (o : Nat) : Except Failure Permission :=
  (t.stateOf tag o).map ByteState.permission

/-- The log tells of the transitions that tracked tags make in an access, as it leads from the first
tree to the second. -/
structure TellsTransitions (t t' : Tree) (settings : Settings) (acc : Access)
    (log : List Message) : Prop where
  /-- What is told of a tag has happened to it at each byte that it is told of. -/
  right : ∀ {tag tr cause isForeign r}, .transitioned tag tr cause isForeign r ∈ log →
    settings.tracks tag = true ∧ tag ∈ t.tags.keys ∧ cause = acc.cause ∧
      (isForeign = true ↔ ¬t.IsAtOrAbove tag acc.tag) ∧ tr.source ≠ tr.target ∧
      r.isEmpty = false ∧ ∀ o ∈ r, o ∈ acc.range ∧
        t.permissionOf tag o = .ok tr.source ∧ t'.permissionOf tag o = .ok tr.target
  /-- What happens to a tracked tag at a byte of the access is told once, if anything happens. -/
  once : ∀ tag ∈ t.tags.keys, settings.tracks tag = true → ∀ o ∈ acc.range, ∃ p q,
    t.permissionOf tag o = .ok p ∧ t'.permissionOf tag o = .ok q ∧
      (p = q → log.filter (·.tells tag o) = []) ∧
      (p ≠ q → ∃ isForeign r, (isForeign = true ↔ ¬t.IsAtOrAbove tag acc.tag) ∧
        log.filter (·.tells tag o) = [.transitioned tag ⟨p, q⟩ acc.cause isForeign r])

/-- Other messages do not matter, nor what else is different afterwards. -/
theorem TellsTransitions.congr {settings : Settings} {t'' : Tree} {log log' : List Message}
    (h : t.TellsTransitions t' settings acc log)
    (hperm : ∀ tag ∈ t.tags.keys, ∀ o ∈ acc.range,
      t''.permissionOf tag o = t'.permissionOf tag o)
    (hlog : log'.filter Message.isTransition = log.filter Message.isTransition) :
    t.TellsTransitions t'' settings acc log' where
  right {tag tr cause isForeign r} hmem := by
    have hmem' : .transitioned tag tr cause isForeign r ∈ log := by
      have hfilter : .transitioned tag tr cause isForeign r ∈ log'.filter Message.isTransition :=
        List.mem_filter.mpr ⟨hmem, rfl⟩
      rw [hlog] at hfilter
      exact (List.mem_filter.mp hfilter).1
    obtain ⟨htracks, htag, hcause, hforeign, hne, hsome, hbytes⟩ := h.right hmem'
    refine ⟨htracks, htag, hcause, hforeign, hne, hsome, fun o ho => ?_⟩
    obtain ⟨hor, hp, hq⟩ := hbytes o ho
    exact ⟨hor, hp, (hperm tag htag o hor).trans hq⟩
  once tag htag htracks o ho := by
    obtain ⟨p, q, hp, hq, hsame, hchange⟩ := h.once tag htag htracks o ho
    rw [← Message.filter_tells_filter, ← hlog, Message.filter_tells_filter] at hsame hchange
    exact ⟨p, q, hp, (hperm tag htag o ho).trans hq, hsame, hchange⟩

theorem Sound.permissionOf_eq {prot : Tag → Bool} (h : t.Sound prot) (hn : t.arena.get? i = some n)
    {states : ByteStates} (hval : t.bytes.valueAt? o = some states) (hlimit : o + 1 < Word.limit) :
    t.permissionOf n.tag o = .ok (n.stateIn states i).permission := by
  rw [permissionOf, h.stateOf_eq hn hval hlimit]
  rfl

section Committed

variable (h : t.Sound ctx.isProtected) (hi : t.tags.index? acc.tag = some start)
  (hn : t.arena.get? start = some n) (hlimit : acc.range.stop < Word.limit)
  (hstop : acc.range.stop ≤ t.size) (hus : t.pending ctx acc start n.label = .ok us)

include h hi

theorem isForeign_relatedness_iff {node : Node} (hnode : t.arena.get? i = some node) :
    (t.arena.relatedness start i).isForeign = true ↔ ¬t.IsAtOrAbove node.tag acc.tag := by
  rw [Arena.isForeign_relatedness, decide_eq_true_iff, isAtOrAbove_iff (h.index?_tag hnode) hi]

include hn hlimit hstop hus

/-- **What the second pass tells is right.** -/
theorem of_mem_transitionLog {tag : Tag} {tr : Transition} {cause : Cause} {isForeign : Bool}
    {r : ByteRange} (hmem : .transitioned tag tr cause isForeign r ∈
      t.transitionLog ctx acc.range acc.cause us) :
    ctx.settings.tracks tag = true ∧ tag ∈ t.tags.keys ∧ cause = acc.cause ∧
      (isForeign = true ↔ ¬t.IsAtOrAbove tag acc.tag) ∧ tr.source ≠ tr.target ∧
      r.isEmpty = false ∧ ∀ o ∈ r, o ∈ acc.range ∧ t.permissionOf tag o = .ok tr.source ∧
        (t.committed acc.range us).permissionOf tag o = .ok tr.target := by
  have hstart := Arena.lt_width_of_get? hn
  have h' := sound_committed h hstart hstop hus
  obtain ⟨⟨e, updates⟩, hzip, hmem⟩ := List.mem_flatMap.mp hmem
  obtain ⟨u, hu, node, hnode, hidle, htracks, heq⟩ := mem_updateMessages_iff.mp hmem
  obtain ⟨rfl, rfl, rfl, rfl, rfl⟩ := Message.transitioned.inj heq
  obtain ⟨hlt, hbytes⟩ := of_mem_zip h hstart hstop hus hzip
  have hstep : ∀ o ∈ e.range, u.isForeign = (t.arena.relatedness start u.index).isForeign ∧
      o ∈ acc.range ∧ t.permissionOf node.tag o = .ok u.transition.source ∧
      (t.committed acc.range us).permissionOf node.tag o = .ok u.transition.target := by
    intro o ho
    obtain ⟨hor, hval, hreq, hafter⟩ := hbytes o ho
    have hword : o + 1 < Word.limit := Nat.lt_of_le_of_lt hor.2 hlimit
    obtain ⟨htr, hf⟩ := (Arena.transition_of_requests h.wellLinked h.noActiveDefault hstart hreq
      hnode rfl rfl).2 u hu rfl
    rw [htr]
    exact ⟨hf, hor, h.permissionOf_eq hnode hval hword, h'.permissionOf_eq hnode hafter hword⟩
  have hfirst : e.start ∈ e.range := Element.mem_range_iff.mpr ⟨Nat.le_refl _, hlt⟩
  refine ⟨htracks, h.mem_tags_iff.mpr ⟨u.index, node, hnode, rfl⟩, rfl, ?_, ?_, ?_, ?_⟩
  · rw [(hstep e.start hfirst).1]
    exact isForeign_relatedness_iff h hi hnode
  · simpa [Transition.isIdle] using hidle
  · exact eq_false_of_ne_true fun hempty => ByteRange.not_mem_of_isEmpty hempty _ hfirst
  · exact fun o ho => (hstep o ho).2

/-- **The second pass tells of the transitions that it makes**, and of nothing else. -/
theorem tellsTransitions_committed :
    t.TellsTransitions (t.committed acc.range us) ctx.settings acc
      (t.transitionLog ctx acc.range acc.cause us) := by
  refine ⟨of_mem_transitionLog h hi hn hlimit hstop hus, fun tag htag htracks o ho => ?_⟩
  have hstart := Arena.lt_width_of_get? hn
  have h' := sound_committed h hstart hstop hus
  have hword : o + 1 < Word.limit := Nat.lt_of_le_of_lt ho.2 hlimit
  obtain ⟨i, node, hnode, rfl⟩ := h.mem_tags_iff.mp htag
  obtain ⟨e, updates, hzip, hoe⟩ := exists_mem_zip hstop hus ho
  obtain ⟨-, hval, hreq, hafter⟩ := (of_mem_zip h hstart hstop hus hzip).2 o hoe
  have hp := h.permissionOf_eq hnode hval hword
  have hq := h'.permissionOf_eq hnode hafter hword
  refine ⟨_, _, hp, hq, fun hsame => ?_, fun hchange => ?_⟩
  · refine List.filter_eq_nil_iff.mpr fun m hm htells => ?_
    obtain ⟨tr, cause, isForeign, r, rfl, hor⟩ := Message.exists_of_tells htells
    obtain ⟨-, -, -, -, hne, -, hbytes⟩ := of_mem_transitionLog h hi hn hlimit hstop hus hm
    obtain ⟨-, hp', hq'⟩ := hbytes o hor
    have hsource := Except.ok.inj (hp'.symm.trans hp)
    have htarget := Except.ok.inj (hq'.symm.trans hq)
    exact hne (hsource.trans (hsame.trans htarget.symm))
  · obtain ⟨hexists, hall⟩ := Arena.transition_of_requests h.wellLinked h.noActiveDefault hstart
      hreq hnode rfl rfl
    obtain ⟨u, hu, rfl⟩ := hexists hchange
    obtain ⟨htr, hf⟩ := hall u hu rfl
    refine ⟨u.isForeign, e.range, hf ▸ isForeign_relatedness_iff h hi hnode, ?_⟩
    rw [← htr]
    refine filter_eq_singleton ?_ ?_ (Message.tells_transitioned.mpr ⟨rfl, hoe⟩)
    · exact (pairwise_transitionLog h hstart hstop hus acc.cause).imp fun hm => hm node.tag o
    · refine List.mem_flatMap.mpr ⟨(e, updates), hzip, ?_⟩
      refine mem_updateMessages_iff.mpr ⟨u, hu, node, hnode, ?_, htracks, rfl⟩
      rw [htr]
      simpa [Transition.isIdle] using hchange

end Committed

/-! ## 5. Operations -/

theorem permissionOf_tidied (t : Tree) (tag : Tag) (o : Nat) :
    t.tidied.state.permissionOf tag o = t.permissionOf tag o :=
  congrArg (Except.map ByteState.permission) (stateOf_tidied t tag o)

theorem tellsTransitions_settle (h : t.Sound ctx.isProtected)
    (hus : (t.plan ctx acc).result = .ok us) :
    t.TellsTransitions ((t.plan ctx acc).state.settle ctx acc.range acc.cause us).state
      ctx.settings acc ((t.plan ctx acc).state.settle ctx acc.range acc.cause us).log := by
  obtain ⟨start, n, hi, hn, hcheck, hstate, hpending⟩ := exists_of_plan_eq_ok h hus
  obtain ⟨hlimit, hstop⟩ := RunMap.checkRange_eq_ok_iff.mp hcheck
  rw [hstate, settle_divided h.isProper hcheck]
  refine (tellsTransitions_committed h hi hn hlimit hstop hpending).congr ?_ ?_
  · exact fun tag _ o _ => permissionOf_tidied _ tag o
  · rw [Outcome.log_after, log_tidied, List.append_nil]

/-- **An access** tells of its transitions, unless it is refused. -/
theorem tellsTransitions_access (h : t.Sound ctx.isProtected) (acc : Access)
    (hok : ∀ e, (t.access ctx acc).result ≠ .error (.error e)) :
    t.TellsTransitions (t.access ctx acc).state ctx.settings acc (t.access ctx acc).log := by
  cases hplan : (t.plan ctx acc).result with
  | error f =>
    cases f with
    | error e => exact absurd (access_eq_error_iff.mpr hplan) (hok e)
    | fault f => exact absurd hplan ((faultless_plan h acc).ne_fault f)
  | ok us =>
    refine (tellsTransitions_settle h hplan).congr ?_ ?_
    · intro tag _ o _
      rw [access, Outcome.andThen_of_ok hplan]
      rfl
    · rw [access, Outcome.andThen_of_ok hplan, Outcome.log_after, Outcome.log_after, log_plan]
      rfl

/-- An access that is refused tells of no transition. -/
theorem no_transition_access {e : Error} (he : (t.access ctx acc).result = .error (.error e)) :
    (t.access ctx acc).log.filter Message.isTransition = [] := by
  rw [access, Outcome.andThen_of_error (access_eq_error_iff.mp he), Outcome.log_after, log_plan]
  rfl

/-- A free that is not refused comes to its second pass. -/
theorem exists_plan_eq_ok_of_free (h : t.Sound ctx.isProtected) {tag : Tag}
    (hok : ∀ e, (t.free ctx tag).result ≠ .error (.error e)) :
    ∃ us, (t.plan ctx ⟨tag, ⟨0, t.size⟩, .write, .dealloc⟩).result = .ok us ∧
      t.stronglyProtected? ctx = none := by
  cases hplan : (t.plan ctx ⟨tag, ⟨0, t.size⟩, .write, .dealloc⟩).result with
  | error f =>
    unfold free at hok
    dsimp only at hok
    rw [Outcome.andThen_of_error hplan] at hok
    cases f with
    | error e => exact absurd rfl (hok e)
    | fault f => exact absurd hplan ((faultless_plan h _).ne_fault f)
  | ok us =>
    refine ⟨us, rfl, ?_⟩
    cases hstrong : t.stronglyProtected? ctx with
    | none => rfl
    | some found =>
      obtain ⟨v, hfree, -⟩ := free_of_stronglyProtected h hplan hstrong
      exact absurd (congrArg Outcome.result hfree) (hok _)

/-- **What a free does to the tree is a write to all of its bytes**, unless it is refused. -/
theorem state_free_eq (h : t.Sound ctx.isProtected) {tag : Tag}
    (hok : ∀ e, (t.free ctx tag).result ≠ .error (.error e)) :
    (t.free ctx tag).state = (t.access ctx ⟨tag, ⟨0, t.size⟩, .write, .dealloc⟩).state := by
  obtain ⟨us, hplan, hstrong⟩ := exists_plan_eq_ok_of_free h hok
  rw [free_of_not_stronglyProtected h hplan hstrong, access, Outcome.andThen_of_ok hplan]
  rfl

/-- **A free** tells of the transitions of its write, unless it is refused. -/
theorem tellsTransitions_free (h : t.Sound ctx.isProtected) {tag : Tag}
    (hok : ∀ e, (t.free ctx tag).result ≠ .error (.error e)) :
    t.TellsTransitions (t.access ctx ⟨tag, ⟨0, t.size⟩, .write, .dealloc⟩).state ctx.settings
      ⟨tag, ⟨0, t.size⟩, .write, .dealloc⟩ (t.free ctx tag).log := by
  obtain ⟨us, hplan, hstrong⟩ := exists_plan_eq_ok_of_free h hok
  have hfree := free_of_not_stronglyProtected h hplan hstrong
  rw [← state_free_eq h hok, hfree, Outcome.log_after, log_plan, List.nil_append,
    Outcome.state_after]
  exact tellsTransitions_settle h hplan

theorem no_transition_free {tag : Tag} {e : Error}
    (he : (t.free ctx tag).result = .error (.error e)) :
    (t.free ctx tag).log.filter Message.isTransition = [] := by
  unfold free at he ⊢
  dsimp only at he ⊢
  cases hplan : (t.plan ctx ⟨tag, ⟨0, t.size⟩, .write, .dealloc⟩).result with
  | error f =>
    rw [Outcome.andThen_of_error hplan, log_plan]
    rfl
  | ok us =>
    rw [Outcome.andThen_of_ok hplan, Outcome.result_after] at he
    rw [Outcome.andThen_of_ok hplan, Outcome.log_after, log_plan, List.nil_append]
    split at he
    · exact absurd he (settle_ne_error _ _ _ _ _ e)
    · split
      · rfl
      · split <;> rfl

/-- The insertion of a node gives no other tag another permission. -/
theorem permissionOf_attach {prot : Tag → Bool} (h : t.Sound prot) {c : NewChild} {parent : Nat}
    {tags : Registry Tag} (hparent : parent < t.arena.width)
    (hins : t.tags.insert c.tag = .ok (tags, i)) (hperm : c.permission ≠ .active)
    (hprot : prot c.tag = true → c.isProtected = true) {tag : Tag} (htag : tag ∈ t.tags.keys)
    (ho : o < t.size) (hlimit : o + 1 < Word.limit) :
    (t.attach c parent tags i).permissionOf tag o = t.permissionOf tag o := by
  have h' : (t.attach c parent tags i).Sound prot :=
    h.attach hparent hins hperm (fun _ _ => rfl) hprot
  obtain rfl := h.indexed.index_eq_width hins
  obtain ⟨j, node, hnode, rfl⟩ := h.mem_tags_iff.mp htag
  obtain ⟨states, hval⟩ := t.exists_valueAt? ho
  obtain ⟨node', hnode', htag', -⟩ := (get?_attach t c tags hparent).2 j node hnode
  obtain ⟨states', hval', -, hstates⟩ :=
    valueAt?_attach h.wellLinked h.lt_width c tags hparent hval
  rw [h.permissionOf_eq hnode hval hlimit, ← htag', h'.permissionOf_eq hnode' hval' hlimit,
    hstates j node node' hnode hnode']
  split <;> rfl

/-- **An insertion** tells of the transitions of its read, unless it is refused. -/
theorem tellsTransitions_insertChild (h : t.Sound ctx.isProtected) {c : NewChild}
    (hperm : c.permission ≠ .active) (hprot : ctx.isProtected c.tag = true → c.isProtected = true)
    (hok : ∀ e, (t.insertChild ctx c).result ≠ .error (.error e)) :
    t.TellsTransitions (t.insertChild ctx c).state ctx.settings
      ⟨c.parent, c.range, .read, .reborrow⟩ (t.insertChild ctx c).log := by
  unfold insertChild at hok ⊢
  split at hok
  · exact absurd rfl (hok _)
  · next hnew =>
    rw [if_neg hnew]
    cases hread : (t.access ctx ⟨c.parent, c.range, .read, .reborrow⟩).result with
    | error f =>
      rw [Outcome.andThen_of_error hread] at hok ⊢
      exact tellsTransitions_access h _ fun e he => hok e (hread ▸ he)
    | ok _ =>
      have htells := tellsTransitions_access h _ fun e he => by
        rw [hread] at he
        cases he
      obtain ⟨start, hi, hlimit, hstop⟩ := exists_of_access_eq_ok hread
      have hsame := sameNodes_access t ctx ⟨c.parent, c.range, .read, .reborrow⟩
      have hs := sound_access h ⟨c.parent, c.range, .read, .reborrow⟩
      rw [Outcome.andThen_of_ok hread, Outcome.state_after, Outcome.log_after]
      generalize (t.access ctx ⟨c.parent, c.range, .read, .reborrow⟩).state = t₁
        at htells hsame hs ⊢
      have hparent : t₁.requireTag c.parent .retag = .ok start :=
        requireTag_eq_ok_iff.mpr (hsame.tags_eq ▸ hi)
      rw [hparent]
      dsimp only
      split
      · exact htells.congr (fun _ _ _ _ => rfl) (congrArg _ (List.append_nil _))
      · exact htells.congr (fun _ _ _ _ => rfl) (congrArg _ (List.append_nil _))
      · next tags i hins _ =>
        refine htells.congr (fun tag htag o ho => ?_) ?_
        · have hword : o + 1 < Word.limit := Nat.lt_of_le_of_lt ho.2 hlimit
          rw [permissionOf_tidied]
          exact permissionOf_attach hs (hs.indexed.lt_width_of_index? (hsame.tags_eq ▸ hi)) hins
            hperm hprot (hsame.tags_eq ▸ htag)
            (hsame.size_eq ▸ Nat.lt_of_lt_of_le ho.2 hstop) hword
        · rw [log_tidied, List.append_nil]

/-- Inserting a node tells of no transition if it is refused. -/
theorem no_transition_insertChild {c : NewChild} {e : Error}
    (he : (t.insertChild ctx c).result = .error (.error e)) :
    (t.insertChild ctx c).log.filter Message.isTransition = [] := by
  unfold insertChild at he ⊢
  split at he
  · next hknown =>
    rw [if_pos hknown]
    rfl
  · next hnew =>
    rw [if_neg hnew]
    cases hread : (t.access ctx ⟨c.parent, c.range, .read, .reborrow⟩).result with
    | error f =>
      rw [Outcome.andThen_of_error hread] at he ⊢
      exact no_transition_access (hread.trans (congrArg Except.error (Except.error.inj he)))
    | ok _ =>
      -- the read has found the parent, and what comes after it is not refused
      obtain ⟨start, hi, -⟩ := exists_of_access_eq_ok hread
      rw [← (sameNodes_access t ctx ⟨c.parent, c.range, .read, .reborrow⟩).tags_eq] at hi
      rw [Outcome.andThen_of_ok hread, Outcome.result_after, requireTag_eq_ok_iff.mpr hi] at he
      dsimp only at he
      split at he
      · cases he
      · cases he
      · exact absurd he (tidied_ne_error _ e)

end Tree

end TreeBorrows
