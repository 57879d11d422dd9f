/-
# What the report of a violation says

The report of a refused access names an offset, a tag that stood against the access there, and what
that tag was about to do.  All of it can be told from the states of the tags before the access, with
no regard to how the runs are cut and which nodes are skipped (`reports_faithful`):

* the offset is the first one of the range at which some node stands against the access
  (`Tree.Opposes`);
* the conflicting tag is that of the first such node in the order of the visits
  (`Arena.visitOrder`);
* the permission is the one that the tag has there, before the event and after it, since an event
  that is refused changes nothing;
* a permission is reported to have forbidden the access if the conflicting tag is the accessed one
  or above it, and a protector otherwise.
-/
import TreeBorrows.Proofs.Checker.Atomicity
import TreeBorrows.Proofs.Checker.Deeds
import TreeBorrows.Proofs.Checker.Refusal
import TreeBorrows.Proofs.Tree.VisitOrder

namespace TreeBorrows

/-! ## 1. One node -/

/-- A child access never hurts a protector. -/
theorem Permission.not_violatesProtector_of_child {p : Permission} {kind : AccessKind}
    {rel : Relatedness} {prot : Bool} {tr : Transition} (hrel : rel.isForeign = false)
    (h : p.transition? kind rel prot = some tr) : tr.violatesProtector = false := by
  obtain ⟨q, hq, rfl⟩ := Option.map_eq_some_iff.mp h
  clear h
  revert hrel hq
  cases kind <;> cases rel <;> cases prot <;> cases p <;> cases q <;> decide

namespace ByteState

variable {s : ByteState} {kind : AccessKind} {rel : Relatedness} {prot : Bool} {c : Conflict}

/-- **Why a node refuses an access**: it has no transition for it, or it is protected and the
transition hurts its protector. -/
theorem access_eq_error_cases :
    s.access kind rel prot = .error c ↔
      (s.permission.transition? kind rel prot = none ∧ c = .childForbidden s.permission) ∨
        ∃ tr, s.permission.transition? kind rel prot = some tr ∧
          (prot = true ∧ tr.violatesProtector = true) ∧ c = .protectedTransition tr := by
  unfold access
  cases htr : s.permission.transition? kind rel prot with
  | none => simp [eq_comm (a := c)]
  | some tr =>
    dsimp only
    by_cases hv : prot = true ∧ tr.violatesProtector = true
    · rw [if_pos (Bool.and_eq_true_iff.mpr hv)]
      simp [hv, eq_comm (a := c)]
    · rw [if_neg (mt Bool.and_eq_true_iff.mp hv)]
      simp [hv]

/-- Which of the two it is depends on where the access comes from. -/
theorem conflict_of_access_eq_error (h : s.access kind rel prot = .error c) :
    (rel.isForeign = false ∧ c = .childForbidden s.permission) ∨
      rel.isForeign = true ∧ prot = true ∧ ∃ q, c = .protectedTransition ⟨s.permission, q⟩ ∧
        s.permission.transition? kind rel true = some ⟨s.permission, q⟩ := by
  rcases access_eq_error_cases.mp h with ⟨hnone, rfl⟩ | ⟨tr, htr, ⟨rfl, hv⟩, rfl⟩
  · refine .inl ⟨Bool.eq_false_iff.mpr fun hrel => ?_, rfl⟩
    have hsome := Permission.isSome_afterAccess?_of_isForeign hrel kind prot s.permission
    rw [Option.map_eq_none_iff.mp hnone] at hsome
    cases hsome
  · refine .inr ⟨?_, rfl, ?_⟩
    · by_contra hrel
      rw [Permission.not_violatesProtector_of_child (Bool.eq_false_iff.mpr hrel) htr] at hv
      cases hv
    · obtain ⟨q, -, rfl⟩ := Option.map_eq_some_iff.mp htr
      exact ⟨q, rfl, htr⟩

end ByteState

namespace Tree

variable {t : Tree} {ctx : Context} {kind : AccessKind} {start i o : Nat} {n : Node}

/-- At an offset, the node `i` stands against an access through the node `start`: it has no
transition for it, or it is protected and the transition hurts its protector. -/
def Opposes (t : Tree) (ctx : Context) (kind : AccessKind) (start i : Nat) (n : Node) (o : Nat) :
    Prop :=
  ∃ s, t.stateOf n.tag o = .ok s ∧
    (s.permission.transition? kind (t.arena.relatedness start i) (ctx.isProtected n.tag) = none ∨
      ∃ tr, s.permission.transition? kind (t.arena.relatedness start i) (ctx.isProtected n.tag) =
          some tr ∧
        ctx.isProtected n.tag = true ∧ tr.violatesProtector = true)

theorem opposes_iff (h : t.Sound ctx.isProtected) (hn : t.arena.get? i = some n)
    {states : ByteStates} (hval : t.bytes.valueAt? o = some states) (hlimit : o + 1 < Word.limit) :
    t.Opposes ctx kind start i n o ↔ ∃ c, (n.stateIn states i).access kind
      (t.arena.relatedness start i) (ctx.isProtected n.tag) = .error c := by
  simp only [Opposes, h.stateOf_eq hn hval hlimit, Except.ok.injEq, exists_eq_left',
    ByteState.access_eq_error_cases, exists_or, exists_and_left, exists_eq, and_true]
  refine or_congr_right ⟨?_, ?_⟩
  · rintro ⟨tr, htr, hv⟩
    exact ⟨_, tr, htr, hv, rfl⟩
  · rintro ⟨-, tr, htr, hv, -⟩
    exact ⟨tr, htr, hv⟩

/-- A node that can take its step does not stand against the access. -/
theorem not_opposes_of_access_eq_ok (h : t.Sound ctx.isProtected) (hn : t.arena.get? i = some n)
    {states : ByteStates} (hval : t.bytes.valueAt? o = some states) (hlimit : o + 1 < Word.limit)
    {r : ByteState × Transition} (hr : (n.stateIn states i).access kind
      (t.arena.relatedness start i) (ctx.isProtected n.tag) = .ok r) :
    ¬t.Opposes ctx kind start i n o := by
  rw [opposes_iff h hn hval hlimit, hr]
  exact fun ⟨_, hc⟩ => nomatch hc

end Tree

/-! ## 2. What an event asks for -/

/-- The access that an event asks for if it is one, or the read of a reborrow. -/
def Event.access? : Event → Option Demand
  | .access p r kind => some ⟨p, r, kind⟩
  | .derive p r _ _ => some ⟨p, r, .read⟩
  | .retag p r _ _ _ => some ⟨p, r, .read⟩
  | .free _ | .allocate _ | .drop _ | .drawCall | .enter _ _ | .exit _ | .openCall _ | .name _ _
  | .permissionAt _ _ => none

namespace Checker

variable {k k' : Checker} {e : Event} {d : Demand} {x : Allocation} {err : Error} {v : Violation}

theorem exists_live_of_refused (hacc : e.access? = some d)
    (he : (k.perform e).result = .error (.error (.aliasing v))) :
    ∃ x, k.allocations.get? d.pointer.alloc = some x := by
  have halloc : e.allocation? = some d.pointer.alloc := by
    cases e <;> cases hacc <;> rfl
  cases hx : k.allocations.get? d.pointer.alloc with
  | some x => exact ⟨x, rfl⟩
  | none =>
    obtain ⟨r, hr⟩ := useAfterFree_of_get?_eq_none halloc hx
    cases he.symm.trans hr

/-- An access or a reborrow is refused by the first pass of its access, and disturbs nothing. -/
theorem exists_plan_of_refused (h : k.Sound) (hx : k.allocations.get? d.pointer.alloc = some x)
    (hacc : e.access? = some d) (he : (k.perform e).result = .error (.error err)) :
    (∃ cause, (x.tree.plan (k.context d.pointer.alloc)
      ⟨d.pointer.tag, d.range, d.kind, cause⟩).result = .error (.error err)) ∧
      k.Undisturbed (k.perform e).state := by
  cases e with
  | access p r kind =>
    obtain rfl := Option.some.inj hacc
    have he := Outcome.mapAnswer_eq_error he
    exact ⟨⟨_, Tree.access_eq_error_iff.mp (onTree_eq_error hx he)⟩, undisturbed_access h he⟩
  | derive p r der cell =>
    obtain rfl := Option.some.inj hacc
    have he := Outcome.mapAnswer_eq_error he
    exact ⟨⟨_, retag_eq_error h hx he⟩, undisturbed_retag h he⟩
  | retag p r der cell kind =>
    obtain rfl := Option.some.inj hacc
    have he := Outcome.mapAnswer_eq_error he
    exact ⟨⟨_, retag_eq_error h hx he⟩, undisturbed_retag h he⟩
  | free _ | allocate _ | drop _ | drawCall | enter _ _ | exit _ | openCall _ | name _ _
  | permissionAt _ _ => cases hacc

/-! ## 3. Faithful reports -/

/-- What a report about an access to the tree of an allocation has to say, where `start` is the
accessed node and `n` is the node, with index `i`, that the report names.  The second checker is
what the refused event leaves. -/
structure Reports (k k' : Checker) (d : Demand) (x : Allocation) (v : Violation) (start i : Nat)
    (n : Node) : Prop where
  index?_tag : x.tree.tags.index? d.pointer.tag = some start
  alloc_eq : v.alloc = d.pointer.alloc
  /-- The report names the tag that the access was made through. -/
  accessed_tag : v.accessed.tag = d.pointer.tag
  get? : x.tree.arena.get? i = some n
  conflicting_eq : v.conflicting = n.label
  offset_mem : v.offset ∈ d.range
  opposes : x.tree.Opposes (k.context d.pointer.alloc) d.kind start i n v.offset
  /-- No node stands against the access at an offset before. -/
  first_offset : ∀ o ∈ d.range, o < v.offset → ∀ j m, x.tree.arena.get? j = some m →
    ¬x.tree.Opposes (k.context d.pointer.alloc) d.kind start j m o
  /-- At the offset, no node does that is visited before. -/
  first_node : ∃ pre post, x.tree.arena.visitOrder start = pre ++ i :: post ∧
    ∀ j ∈ pre, ∀ m, x.tree.arena.get? j = some m →
      ¬x.tree.Opposes (k.context d.pointer.alloc) d.kind start j m v.offset
  permissionAt_before :
    k.permissionAt ⟨d.pointer.alloc, v.conflicting.tag⟩ v.offset = .ok v.before
  permissionAt_after :
    k'.permissionAt ⟨d.pointer.alloc, v.conflicting.tag⟩ v.offset = .ok v.before
  childForbidden_iff : (v.conflict = .childForbidden v.before ∧ v.obstacle = .permission ∧
      v.after = none) ↔ x.tree.IsAtOrAbove v.conflicting.tag d.pointer.tag
  protectedTransition : ¬x.tree.IsAtOrAbove v.conflicting.tag d.pointer.tag →
    k.protector? v.conflicting.tag ≠ none ∧ ∃ q, v.conflict = .protectedTransition ⟨v.before, q⟩ ∧
      v.obstacle = .protector ∧ v.after = some q ∧
      v.before.transition? d.kind (x.tree.arena.relatedness start i) true = some ⟨v.before, q⟩

/-- **The report of a refused first pass is faithful.** -/
theorem reports_of_plan_eq_error (h : k.Sound) (hx : k.allocations.get? d.pointer.alloc = some x)
    (hu : k.Undisturbed k') {cause : Cause}
    (hplan : (x.tree.plan (k.context d.pointer.alloc)
      ⟨d.pointer.tag, d.range, d.kind, cause⟩).result = .error (.error (.aliasing v))) :
    ∃ start i n, k.Reports k' d x v start i n := by
  have hs : x.tree.Sound (k.context d.pointer.alloc).isProtected := h.tree hx
  -- the tag and the range were accepted, else the error would be another one
  have htag : d.pointer.tag ∈ x.tree.tags.keys := by
    by_contra hno
    obtain ⟨r, hr⟩ := Tree.plan_of_not_mem_tags (k.context d.pointer.alloc)
      ⟨d.pointer.tag, d.range, d.kind, cause⟩ hno
    cases hplan.symm.trans hr
  obtain ⟨start, m, hm, hmtag⟩ := hs.mem_tags_iff.mp htag
  have hi : x.tree.tags.index? d.pointer.tag = some start := hmtag ▸ hs.index?_tag hm
  have hstart := Arena.lt_width_of_get? hm
  obtain ⟨hlimit, hstop⟩ : d.range.stop < Word.limit ∧ d.range.stop ≤ x.tree.size := by
    by_contra hout
    obtain ⟨r, hr⟩ := Tree.plan_of_not_inside (k.context d.pointer.alloc)
      ⟨d.pointer.tag, d.range, d.kind, cause⟩ hi hout
    cases hplan.symm.trans hr
  rw [Tree.plan_eq hi hm (Tree.requireRange_eq_ok_iff.mpr ⟨hlimit, hstop⟩)] at hplan
  obtain ⟨o, states, ho, hval, hreq, hfirst⟩ :=
    Tree.exists_of_pending_eq_error hs hstart hstop hplan
  obtain ⟨pre, i, post, n, c, horder, hn, hc, hv, hpre⟩ :=
    Arena.exists_first_of_requests_eq_error hs.wellLinked hs.noActiveDefault hstart hreq
  obtain rfl : v = _ := Error.aliasing.inj (Failure.error.inj hv)
  have hword : ∀ {o}, o ∈ d.range → o + 1 < Word.limit := fun ho =>
    Nat.lt_of_le_of_lt ho.2 hlimit
  have habove : x.tree.IsAtOrAbove n.tag d.pointer.tag ↔
      (x.tree.arena.relatedness start i).isForeign = false := by
    rw [Tree.isAtOrAbove_iff (hs.index?_tag hn) hi, Arena.isForeign_relatedness]
    simp
  have hperm : k.permissionAt ⟨d.pointer.alloc, n.tag⟩ o = .ok (n.stateIn states i).permission :=
    (permissionAt_eq_ok_iff h).mpr
      ⟨hword ho, x, i, n, states, hx, hs.index?_tag hn, hn, hval, rfl⟩
  have hperm' : k'.permissionAt ⟨d.pointer.alloc, n.tag⟩ o =
      .ok (n.stateIn states i).permission := by
    rwa [permissionAt, hu.stateOf_eq]
  refine ⟨start, i, n, hi, rfl, hmtag, hn, rfl, ho, ?_, fun o' ho' hlt j m' hm' => ?_,
    ⟨pre, post, horder, fun j hj m' hm' => ?_⟩, hperm, hperm', ?_, fun hno => ?_⟩
  · exact (Tree.opposes_iff hs hn hval (hword ho)).mpr ⟨c, hc⟩
  · obtain ⟨states', hval'⟩ := x.tree.exists_valueAt? (Nat.lt_of_lt_of_le ho'.2 hstop)
    obtain ⟨r, hr⟩ := hfirst o' states' ho' hlt hval' j m' hm'
    exact Tree.not_opposes_of_access_eq_ok hs hm' hval' (hword ho') hr
  · obtain ⟨r, hr⟩ := hpre j hj m' hm'
    exact Tree.not_opposes_of_access_eq_ok hs hm' hval (hword ho) hr
  · refine Iff.trans ?_ habove.symm
    rcases ByteState.conflict_of_access_eq_error hc with ⟨hrel, rfl⟩ | ⟨hrel, -, q, rfl, -⟩
    · exact iff_of_true ⟨rfl, rfl, rfl⟩ hrel
    · refine iff_of_false ?_ (by simp [hrel])
      rintro ⟨-, -, hafter⟩
      cases hafter
  · rcases ByteState.conflict_of_access_eq_error hc with ⟨hrel, -⟩ | ⟨-, hprot, q, rfl, hq⟩
    · exact absurd (habove.mpr hrel) hno
    · exact ⟨Option.isSome_iff_ne_none.mp hprot, q, rfl, rfl, rfl, hq⟩

/-- **Reports are faithful.**  In every reachable state, whenever an access or a reborrow through a
tag is refused with a violation, the report names that tag, the least offset of the range at which a
node stands against the access, the first such node in the order of the visits, and the permission
of that node, which is the same before and after the event.  A permission is said to have forbidden
the access exactly if the node is the accessed one or above it; otherwise a protected tag is named,
with the transition that its protector forbids. -/
theorem reports_faithful (hk : k.Reachable) (hacc : e.access? = some d)
    (he : (k.perform e).result = .error (.error (.aliasing v))) :
    ∃ x start i n, k.allocations.get? d.pointer.alloc = some x ∧
      k.Reports (k.perform e).state d x v start i n := by
  obtain ⟨x, hx⟩ := exists_live_of_refused hacc he
  obtain ⟨⟨cause, hplan⟩, hu⟩ := exists_plan_of_refused hk.sound hx hacc he
  obtain ⟨start, i, n, hreports⟩ := reports_of_plan_eq_error hk.sound hx hu hplan
  exact ⟨x, start, i, n, hx, hreports⟩

/-- A borrow and its parent both lose the second half of eight bytes to a write of the owner.  A
write to all of them through the borrow is reported for the borrow, which is visited first, at the
first of the lost bytes. -/
theorem report_of_first_loss :
    ∃ (k : Checker) (x : Allocation) (v : Violation) (start i : Nat) (n : Node),
      k.Reachable ∧ (k.perform (.access ⟨⟨1⟩, ⟨4⟩⟩ ⟨0, 8⟩ .write)).result =
        .error (.error (.aliasing v)) ∧
      v.offset = 4 ∧ v.conflicting.tag = ⟨4⟩ ∧
      k.Reports (k.perform (.access ⟨⟨1⟩, ⟨4⟩⟩ ⟨0, 8⟩ .write)).state
        ⟨⟨⟨1⟩, ⟨4⟩⟩, ⟨0, 8⟩, .write⟩ x v start i n := by
  let es : List Event := [.allocate 8, .derive ⟨⟨1⟩, ⟨2⟩⟩ ⟨0, 8⟩ .exclusive false,
    .derive ⟨⟨1⟩, ⟨3⟩⟩ ⟨0, 8⟩ .exclusive false, .access ⟨⟨1⟩, ⟨2⟩⟩ ⟨4, 4⟩ .write]
  have hk : Reachable ((new {}).run es) := ⟨{}, es, rfl⟩
  have he : (((new {}).run es).perform (.access ⟨⟨1⟩, ⟨4⟩⟩ ⟨0, 8⟩ .write)).result =
      .error (.error (.aliasing {
        conflict := .childForbidden .disabled
        alloc := ⟨1⟩
        offset := 4
        conflicting := .new ⟨4⟩ .reserved
        cause := .explicit .write
        accessed := .new ⟨4⟩ .reserved
        before := .disabled
        after := none })) := by
    decide +kernel
  obtain ⟨x, start, i, n, -, hreports⟩ := reports_faithful hk rfl he
  exact ⟨_, x, _, start, i, n, hk, he, rfl, rfl, hreports⟩

end Checker

end TreeBorrows
