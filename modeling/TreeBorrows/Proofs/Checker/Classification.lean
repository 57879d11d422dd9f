/-
# Which error an event is refused with

An event that names an allocation is checked for four things, in this order: whether the allocation
is live, whether the tag of the pointer belongs to it, whether the range lies inside of it, and
whether the rules of aliasing allow what is asked for.  The first check that fails gives the error.

In terms of a checker that is a case analysis (`verdict`).  In terms of a run it is a statement
about what its events have answered (`errors_classified`), since the allocations that are live,
their sizes and their tags are what the deeds of the run say (`records_deeds`).  A program that
keeps a list of the answers it got can tell which of the first three errors an event will be refused
with.
-/
import TreeBorrows.Proofs.Checker.Deeds
import TreeBorrows.Proofs.Checker.Refusal

namespace TreeBorrows

/-! ## 1. What an event names -/

namespace Event

/-- The pointer that an event uses. -/
def pointer? : Event → Option Pointer
  | .free p | .derive p _ _ _ | .retag p _ _ _ _ | .access p _ _ | .name p _ | .permissionAt p _ =>
    some p
  | .allocate _ | .drop _ | .drawCall | .enter _ _ | .exit _ | .openCall _ => none

/-- The range that an event names. -/
def range? : Event → Option ByteRange
  | .derive _ r _ _ | .retag _ r _ _ _ | .access _ r _ => some r
  | .permissionAt _ o => some ⟨o, 1⟩
  | .free _ | .name _ _ | .allocate _ | .drop _ | .drawCall | .enter _ _ | .exit _ | .openCall _ =>
    none

variable {e : Event} {p : Pointer}

theorem exists_pointer?_of_range? {range : ByteRange} (h : e.range? = some range) :
    ∃ p, e.pointer? = some p := by
  cases e <;> simp [range?, pointer?] at h ⊢

theorem allocation?_of_pointer? (h : e.pointer? = some p) : e.allocation? = some p.alloc := by
  cases e <;> simp [pointer?, allocation?] at h ⊢
  all_goals exact congrArg Pointer.alloc h

end Event

/-! ## 2. Questions and names -/

namespace Tree

variable {t : Tree} {prot : Tag → Bool} {tag : Tag} {o i : Nat}

theorem stateOf_of_not_mem_tags (htag : tag ∉ t.tags.keys) (o : Nat) :
    ∃ r, t.stateOf tag o = .error (.error (.invalidProvenance r)) := by
  refine ⟨⟨.inspect, some (.unknownTag tag)⟩, ?_⟩
  unfold stateOf
  rw [requireTag_eq_error_iff.mpr ⟨htag, rfl⟩]

theorem stateOf_of_not_inside (hi : t.tags.index? tag = some i)
    (hout : ¬((⟨o, 1⟩ : ByteRange).stop < Word.limit ∧ (⟨o, 1⟩ : ByteRange).stop ≤ t.size)) :
    ∃ r, t.stateOf tag o = .error (.error (.outOfBounds r)) := by
  refine ⟨⟨.inspect, some (.rangeExceeds ⟨o, 1⟩ t.size)⟩, ?_⟩
  unfold stateOf
  rw [requireTag_eq_ok_iff.mpr hi]
  dsimp only
  rw [requireRange_of_not_inside .inspect hout]

theorem Sound.exists_stateOf (h : t.Sound prot) (htag : tag ∈ t.tags.keys)
    (hlimit : o + 1 < Word.limit) (ho : o + 1 ≤ t.size) : ∃ s, t.stateOf tag o = .ok s := by
  obtain ⟨i, n, hn, rfl⟩ := h.mem_tags_iff.mp htag
  obtain ⟨states, hval⟩ := t.exists_valueAt? ho
  exact ⟨_, h.stateOf_eq hn hval hlimit⟩

theorem name_of_not_mem_tags (htag : tag ∉ t.tags.keys) (depth : Nat) (s : String) :
    ∃ r, t.name tag depth s = .error (.invalidProvenance r) := by
  refine ⟨⟨.inspect, some (.noAncestor tag depth)⟩, ?_⟩
  unfold name ancestor?
  rw [Registry.index?_eq_none_iff.mpr htag]

/-- The tag itself can always be named. -/
theorem exists_name (hi : t.tags.index? tag = some i) (s : String) :
    ∃ t', t.name tag 0 s = .ok t' := by
  have hself : (t.arena.lineage i)[0]? = some i := by
    unfold Arena.lineage
    rfl
  unfold name ancestor?
  rw [hi]
  dsimp only
  rw [hself]
  exact ⟨_, rfl⟩

end Tree

/-! ## 3. The checks, in their order -/

namespace Checker

variable {k : Checker} {a : AllocationId} {x : Allocation} {e : Event}

/-- **How an event at a live allocation can end**, by the first check that fails. -/
inductive Verdict (k : Checker) (e : Event) (x : Allocation) : Prop where
  /-- No pointer is used, and nothing is checked. -/
  | done (h : e.pointer? = none) (hres : (k.perform e).result = .ok .done)
  /-- The tag is not one of the allocation's. -/
  | invalidProvenance {p : Pointer} {r : Rejection} (hp : e.pointer? = some p)
      (htag : p.tag ∉ x.tree.tags.keys)
      (hres : (k.perform e).result = .error (.error (.invalidProvenance r)))
  /-- The range leaves the allocation. -/
  | outOfBounds {p : Pointer} {range : ByteRange} {r : Rejection} (hp : e.pointer? = some p)
      (htag : p.tag ∈ x.tree.tags.keys) (hrange : e.range? = some range)
      (hout : x.tree.size < range.stop)
      (hres : (k.perform e).result = .error (.error (.outOfBounds r)))
  /-- Nothing is wrong but what the rules of aliasing may forbid. -/
  | tried {p : Pointer} (hp : e.pointer? = some p) (htag : p.tag ∈ x.tree.tags.keys)
      (hinside : ∀ range, e.range? = some range → range.stop ≤ x.tree.size)
      (hres : ∀ err, (k.perform e).result = .error (.error err) →
        (e.demand? x.tree.size).isSome ∧ ∃ v, err = .aliasing v)

/-- The verdict on an event that asks for an access, to the range that it names or to some range
that is inside. -/
theorem verdict_of_demand (h : k.Sound) {d : Demand} (hp : e.pointer? = some d.pointer)
    (hx : k.allocations.get? d.pointer.alloc = some x) (hlimit : x.tree.size < Word.limit)
    (hd : e.demand? x.tree.size = some d)
    (hrange : e.range? = some d.range ∨ e.range? = none ∧ d.range.stop ≤ x.tree.size) :
    k.Verdict e x := by
  obtain ⟨htags, hbounds, hrest⟩ := refusal_of_demand h hx hd
  by_cases htag : d.pointer.tag ∈ x.tree.tags.keys
  · by_cases hle : d.range.stop ≤ x.tree.size
    · refine .tried hp htag (fun range hr => ?_) fun err he => ⟨?_, ?_⟩
      · rcases hrange with hsome | ⟨hnone, -⟩
        · obtain rfl := Option.some.inj (hsome.symm.trans hr)
          exact hle
        · cases hnone.symm.trans hr
      · rw [hd]
        rfl
      · exact hrest htag ⟨Nat.lt_of_le_of_lt hle hlimit, hle⟩ err he
    · obtain ⟨r, hr⟩ := hbounds htag fun hin => hle hin.2
      rcases hrange with hsome | ⟨-, hin⟩
      · exact .outOfBounds hp htag hsome (Nat.lt_of_not_le hle) hr
      · exact absurd hin hle
  · obtain ⟨r, hr⟩ := htags htag
    exact .invalidProvenance hp htag hr

theorem verdict_of_name (h : k.Sound) {p : Pointer} (hx : k.allocations.get? p.alloc = some x)
    (s : String) : k.Verdict (.name p s) x := by
  have hlive : k.requireLive p .inspect = .ok x := by
    simp [requireLive, hx]
  by_cases htag : p.tag ∈ x.tree.tags.keys
  · obtain ⟨i, n, hn, heq⟩ := (h.tree hx).mem_tags_iff.mp htag
    obtain ⟨t, ht⟩ := Tree.exists_name (heq ▸ (h.tree hx).index?_tag hn) s
    refine .tried rfl htag (fun range hr => by cases hr) fun err he => ?_
    rw [perform, name, nameAncestor, editTree, hlive] at he
    dsimp only at he
    rw [ht] at he
    cases he
  · obtain ⟨r, hr⟩ := Tree.name_of_not_mem_tags htag 0 s
    refine .invalidProvenance (r := r) rfl htag ?_
    rw [perform, name, nameAncestor, editTree, hlive]
    dsimp only
    rw [hr]
    rfl

theorem verdict_of_permissionAt (h : k.Sound) {p : Pointer}
    (hx : k.allocations.get? p.alloc = some x) (hlimit : x.tree.size < Word.limit) (o : Nat) :
    k.Verdict (.permissionAt p o) x := by
  have hresult : ∀ {s}, x.tree.stateOf p.tag o = s → (k.perform (.permissionAt p o)).result =
      (s.map ByteState.permission).map .permission := by
    intro s hs
    rw [perform, permissionAt, stateOf_of_get? hx, hs]
  by_cases htag : p.tag ∈ x.tree.tags.keys
  · by_cases hle : (⟨o, 1⟩ : ByteRange).stop ≤ x.tree.size
    · obtain ⟨s, hs⟩ := (h.tree hx).exists_stateOf htag (Nat.lt_of_le_of_lt hle hlimit) hle
      refine .tried rfl htag (fun range hr => ?_) fun err he => ?_
      · obtain rfl := Option.some.inj hr
        exact hle
      · rw [hresult hs] at he
        cases he
    · obtain ⟨i, n, hn, heq⟩ := (h.tree hx).mem_tags_iff.mp htag
      obtain ⟨r, hr⟩ := Tree.stateOf_of_not_inside (heq ▸ (h.tree hx).index?_tag hn)
        fun hin => hle hin.2
      exact .outOfBounds rfl htag rfl (Nat.lt_of_not_le hle) (hresult hr)
  · obtain ⟨r, hr⟩ := Tree.stateOf_of_not_mem_tags htag o
    exact .invalidProvenance rfl htag (hresult hr)

/-- **Every event at a live allocation gets a verdict.** -/
theorem verdict (h : k.Sound) (he : e.allocation? = some a) (hx : k.allocations.get? a = some x)
    (hlimit : x.tree.size < Word.limit) : k.Verdict e x := by
  cases e with
  | drop b =>
    obtain rfl := Option.some.inj he
    have hlive : k.allocations.contains b = true := by
      simp [Table.contains, hx]
    refine .done rfl ?_
    rw [perform, drop, if_pos hlive]
    rfl
  | free p =>
    obtain rfl := Option.some.inj he
    exact verdict_of_demand h (d := ⟨p, ⟨0, x.tree.size⟩, .write⟩) rfl hx hlimit rfl
      (.inr ⟨rfl, Nat.le_of_eq (Nat.zero_add _)⟩)
  | derive p range d cell =>
    obtain rfl := Option.some.inj he
    exact verdict_of_demand h (d := ⟨p, range, .read⟩) rfl hx hlimit rfl (.inl rfl)
  | retag p range d cell kind =>
    obtain rfl := Option.some.inj he
    exact verdict_of_demand h (d := ⟨p, range, .read⟩) rfl hx hlimit rfl (.inl rfl)
  | access p range kind =>
    obtain rfl := Option.some.inj he
    exact verdict_of_demand h (d := ⟨p, range, kind⟩) rfl hx hlimit rfl (.inl rfl)
  | name p s =>
    obtain rfl := Option.some.inj he
    exact verdict_of_name h hx s
  | permissionAt p o =>
    obtain rfl := Option.some.inj he
    exact verdict_of_permissionAt h hx hlimit o
  | allocate _ | drawCall | enter _ _ | exit _ | openCall _ => cases he

/-- The event is refused with an error of this kind. -/
def Refuses {α : Type} (k : Checker) (e : Event) (kind : α → Error) : Prop :=
  ∃ r, (k.perform e).result = .error (.error (kind r))

namespace Verdict

theorem not_useAfterFree (h : k.Verdict e x) : ¬k.Refuses e .useAfterFree := by
  rintro ⟨r, hr⟩
  cases h with
  | done _ hres => cases hres.symm.trans hr
  | invalidProvenance _ _ hres => cases hres.symm.trans hr
  | outOfBounds _ _ _ _ hres => cases hres.symm.trans hr
  | tried _ _ _ hres =>
    obtain ⟨-, v, hv⟩ := hres _ hr
    cases hv

theorem invalidProvenance_iff (h : k.Verdict e x) :
    k.Refuses e .invalidProvenance ↔ ∃ p, e.pointer? = some p ∧ p.tag ∉ x.tree.tags.keys := by
  constructor
  · rintro ⟨r, hr⟩
    cases h with
    | done _ hres => cases hres.symm.trans hr
    | invalidProvenance hp htag _ => exact ⟨_, hp, htag⟩
    | outOfBounds _ _ _ _ hres => cases hres.symm.trans hr
    | tried _ _ _ hres =>
      obtain ⟨-, v, hv⟩ := hres _ hr
      cases hv
  · rintro ⟨p, hp, htag⟩
    cases h with
    | done hnone _ => cases hnone.symm.trans hp
    | invalidProvenance _ _ hres => exact ⟨_, hres⟩
    | outOfBounds hp' htag' _ _ _ =>
      obtain rfl := Option.some.inj (hp.symm.trans hp')
      exact absurd htag' htag
    | tried hp' htag' _ _ =>
      obtain rfl := Option.some.inj (hp.symm.trans hp')
      exact absurd htag' htag

theorem outOfBounds_iff (h : k.Verdict e x)
    (htags : ∀ p, e.pointer? = some p → p.tag ∈ x.tree.tags.keys) :
    k.Refuses e .outOfBounds ↔ ∃ range, e.range? = some range ∧ x.tree.size < range.stop := by
  constructor
  · rintro ⟨r, hr⟩
    cases h with
    | done _ hres => cases hres.symm.trans hr
    | invalidProvenance hp htag _ => exact absurd (htags _ hp) htag
    | outOfBounds _ _ hrange hout _ => exact ⟨_, hrange, hout⟩
    | tried _ _ _ hres =>
      obtain ⟨-, v, hv⟩ := hres _ hr
      cases hv
  · rintro ⟨range, hrange, hout⟩
    cases h with
    | done hnone _ =>
      obtain ⟨p, hp⟩ := Event.exists_pointer?_of_range? hrange
      cases hnone.symm.trans hp
    | invalidProvenance hp htag _ => exact absurd (htags _ hp) htag
    | outOfBounds _ _ _ _ hres => exact ⟨_, hres⟩
    | tried _ _ hinside _ => exact absurd (hinside range hrange) (Nat.not_le.mpr hout)

theorem of_aliasing (h : k.Verdict e x) (he : k.Refuses e .aliasing) :
    (e.demand? x.tree.size).isSome ∧ (∀ p, e.pointer? = some p → p.tag ∈ x.tree.tags.keys) ∧
      ∀ range, e.range? = some range → range.stop ≤ x.tree.size := by
  obtain ⟨v, hv⟩ := he
  cases h with
  | done _ hres => cases hres.symm.trans hv
  | invalidProvenance _ _ hres => cases hres.symm.trans hv
  | outOfBounds _ _ _ _ hres => cases hres.symm.trans hv
  | tried hp htag hinside hres =>
    refine ⟨(hres _ hv).1, fun p hp' => ?_, hinside⟩
    obtain rfl := Option.some.inj (hp.symm.trans hp')
    exact htag

end Verdict

/-! ## 4. Runs -/

/-- What the deeds of a run call an allocation was asked for by an event. -/
theorem allocate_mem_of_issued {es : List Event} {p : Pointer} {size : Nat}
    (h : .issued p size ∈ k.deeds es) : .allocate size ∈ es := by
  induction es generalizing k with
  | nil => cases h
  | cons e es ih =>
    rcases List.mem_append.mp h with hfirst | hrest
    · rw [Option.mem_toList] at hfirst
      obtain ⟨rfl, -⟩ := Event.eq_allocate_of_deed? hfirst
      exact List.mem_cons_self
    · exact List.mem_cons_of_mem e (ih hrest)

/-- The numbers of allocations that a run makes were not given out before it. -/
theorem nextAlloc_le_of_issued (hk : k.Reachable) {es : List Event} {p : Pointer} {size : Nat}
    (h : .issued p size ∈ k.deeds es) : k.nextAlloc ≤ p.alloc.number := by
  induction es generalizing k with
  | nil => cases h
  | cons e es ih =>
    rcases List.mem_append.mp h with hfirst | hrest
    · rw [Option.mem_toList] at hfirst
      rw [(alloc_of_issued hfirst).1]
    · exact Nat.le_trans (advances_perform hk.sound e).nextAlloc_le (ih (hk.perform e) hrest)

/-- **Errors say exactly what is wrong.**  After a run in which no event has faulted, and for which
all sizes are words:

* an event at an allocation is refused as a use after free exactly if the allocation is not live,
  which is to say, if no event of the run has made it or a later one has ended it;
* at a live allocation, an event that uses a pointer is refused for its provenance exactly if the
  tag neither is the first one of the allocation nor was answered by a derivation in it;
* if the tag is one of them, an event that names a range is refused as out of bounds exactly if the
  range ends behind the allocation, and no other event is;
* what breaks the rules of aliasing is an access, a derivation or a free of which none of this is
  wrong.

A number is given to one allocation only.  So an allocation that is gone stays so, however the run
goes on.  The checker counts the allocations that are live. -/
theorem errors_classified {settings : Settings} {es : List Event}
    (hsize : ∀ size, .allocate size ∈ es → size < Word.limit)
    (hanswers : (new settings).Answers es) :
    let k := (new settings).run es
    let ds := (new settings).deeds es
    (∀ e a, e.allocation? = some a →
      (k.Refuses e .useAfterFree ↔ ¬Deed.IsLive ds a) ∧
      (Deed.IsLive ds a → ∃ size, (∀ n, Deed.HasSize ds a n ↔ n = size) ∧
        (k.Refuses e .invalidProvenance ↔ ∃ p, e.pointer? = some p ∧ ¬Deed.Belongs ds p) ∧
        ((∀ p, e.pointer? = some p → Deed.Belongs ds p) →
          (k.Refuses e .outOfBounds ↔
            ∃ range, e.range? = some range ∧ size < range.start + range.size)) ∧
        (k.Refuses e .aliasing →
          (e.demand? size).isSome ∧ (∀ p, e.pointer? = some p → Deed.Belongs ds p) ∧
            ∀ range, e.range? = some range → range.start + range.size ≤ size))) ∧
    (∀ a size, Deed.HasSize ds a size → ∀ fs,
      (∀ p n, .issued p n ∈ k.deeds fs → p.alloc ≠ a) ∧
      (¬Deed.IsLive ds a → ¬Deed.IsLive ((new settings).deeds (es ++ fs)) a)) ∧
    k.liveCount = {a | Deed.IsLive ds a}.ncard := by
  intro k ds
  have hk : k.Reachable := ⟨settings, es, rfl⟩
  have hrecords : Deed.Records ds k.inventory := records_deeds hanswers
  have hfound : ∀ {a}, Deed.IsLive ds a → ∃ x, k.allocations.get? a = some x ∧
      x.tree.size < Word.limit ∧ (∀ n, Deed.HasSize ds a n ↔ n = x.tree.size) ∧
      ∀ tag, tag ∈ x.tree.tags.keys ↔ Deed.Belongs ds ⟨a, tag⟩ := by
    intro a hlive
    obtain ⟨x, hx, hhas, htags⟩ := hrecords.exists_of_isLive hlive
    obtain ⟨p, hp, -⟩ := (hhas _).mpr rfl
    exact ⟨x, hx, hsize _ (allocate_mem_of_issued hp), hhas, htags⟩
  refine ⟨fun e a he => ⟨?_, fun hlive => ?_⟩, fun a size hhas fs => ?_, ?_⟩
  · constructor
    · rintro hrefused hlive
      obtain ⟨x, hx, hlimit, -⟩ := hfound hlive
      exact (verdict hk.sound he hx hlimit).not_useAfterFree hrefused
    · intro hdead
      refine useAfterFree_of_get?_eq_none he (Option.not_isSome_iff_eq_none.mp fun hsome => ?_)
      exact hdead (hrecords.live.mp (isSome_inventory.mpr hsome))
  · obtain ⟨x, hx, hlimit, hhas, htags⟩ := hfound hlive
    have hv := verdict hk.sound he hx hlimit
    have hbelongs : ∀ p, e.pointer? = some p → (p.tag ∈ x.tree.tags.keys ↔ Deed.Belongs ds p) := by
      intro p hp
      obtain rfl := Option.some.inj ((Event.allocation?_of_pointer? hp).symm.trans he)
      exact htags p.tag
    refine ⟨x.tree.size, hhas, ?_, fun hall => ?_, fun hrefused => ?_⟩
    · rw [hv.invalidProvenance_iff]
      exact exists_congr fun p => and_congr_right fun hp => not_congr (hbelongs p hp)
    · exact hv.outOfBounds_iff fun p hp => (hbelongs p hp).mpr (hall p hp)
    · obtain ⟨hdemand, hknown, hinside⟩ := hv.of_aliasing hrefused
      exact ⟨hdemand, fun p hp => (hbelongs p hp).mp (hknown p hp), hinside⟩
  · have hlt : a.number < k.nextAlloc := by
      obtain ⟨tag, htag⟩ := hhas.exists_belongs
      exact number_lt_of_belongs settings es htag
    have hnew : ∀ p n, .issued p n ∈ k.deeds fs → p.alloc ≠ a := by
      rintro p n hissued rfl
      exact absurd hlt (Nat.not_lt.mpr (nextAlloc_le_of_issued hk hissued))
    refine ⟨hnew, fun hdead hlive => hdead ?_⟩
    rw [deeds_append] at hlive
    exact hlive.of_append hnew
  · rw [hk.liveCount_eq_ncard]
    simp only [hrecords.live]

/-- One allocation is dropped; from the other one a pointer is derived, and a second derivation is
refused because it leaves the allocation, but not without using up a tag.  After that each of the
first three errors can be had: a read of what is gone, a read with the tag that was used up, and a
question about the byte behind the end. -/
theorem errors_classified_after_refusal :
    let k := (new {}).run [.allocate 8, .allocate 4,
      .derive ⟨⟨1⟩, ⟨2⟩⟩ ⟨0, 4⟩ .exclusive false, .derive ⟨⟨1⟩, ⟨2⟩⟩ ⟨6, 4⟩ .exclusive false,
      .drop ⟨2⟩]
    k.Refuses (.access ⟨⟨2⟩, ⟨3⟩⟩ ⟨0, 1⟩ .read) .useAfterFree ∧
      k.Refuses (.access ⟨⟨1⟩, ⟨5⟩⟩ ⟨0, 9⟩ .read) .invalidProvenance ∧
      k.Refuses (.permissionAt ⟨⟨1⟩, ⟨4⟩⟩ 8) .outOfBounds ∧ k.liveCount = 1 := by
  let es : List Event := [.allocate 8, .allocate 4, .derive ⟨⟨1⟩, ⟨2⟩⟩ ⟨0, 4⟩ .exclusive false,
    .derive ⟨⟨1⟩, ⟨2⟩⟩ ⟨6, 4⟩ .exclusive false, .drop ⟨2⟩]
  let ds : List Deed := [.issued ⟨⟨1⟩, ⟨2⟩⟩ 8, .issued ⟨⟨2⟩, ⟨3⟩⟩ 4, .derived ⟨⟨1⟩, ⟨4⟩⟩,
    .ended ⟨2⟩]
  have hdeeds : (new {}).deeds es = ds := by
    decide +kernel
  have hanswers : (new {}).Answers es := by
    have hresults : ((new {}).outcomes es).map Outcome.result =
        [.ok (.pointer ⟨⟨1⟩, ⟨2⟩⟩), .ok (.pointer ⟨⟨2⟩, ⟨3⟩⟩), .ok (.tag (some ⟨4⟩)),
          .error (.error (.outOfBounds ⟨.retag, some (.rangeExceeds ⟨6, 4⟩ 8)⟩)), .ok .done] := by
      decide +kernel
    intro o ho f hf
    have hmem := List.mem_map_of_mem (f := Outcome.result) ho
    rw [hresults, hf] at hmem
    simp at hmem
  have hsize : ∀ size, .allocate size ∈ es → size < Word.limit := by
    intro size hmem
    have hcases : size = 8 ∨ size = 4 := by simpa [es] using hmem
    rcases hcases with rfl | rfl <;> decide
  have hlive : ∀ a, Deed.IsLive ds a ↔ a = ⟨1⟩ := by
    have hsnoc : ds = [] ++ [Deed.issued ⟨⟨1⟩, ⟨2⟩⟩ 8] ++ [Deed.issued ⟨⟨2⟩, ⟨3⟩⟩ 4] ++
        [Deed.derived ⟨⟨1⟩, ⟨4⟩⟩] ++ [Deed.ended ⟨2⟩] := rfl
    have hmade : ∀ a, Deed.IsLive ds a ↔
        ((⟨2⟩ : AllocationId) = a ∨ ⟨1⟩ = a) ∧ ¬(⟨2⟩ : AllocationId) = a := by
      intro a
      rw [hsnoc]
      simp only [Deed.isLive_append_singleton_iff]
      simp [Deed.not_isLive_nil]
    intro a
    rw [hmade]
    constructor
    · rintro ⟨rfl | rfl, hne⟩
      · exact absurd rfl hne
      · rfl
    · rintro rfl
      exact ⟨.inr rfl, by decide⟩
  obtain ⟨herrors, -, hcount⟩ := errors_classified hsize hanswers
  rw [hdeeds] at herrors hcount
  have hgone := (herrors (.access ⟨⟨2⟩, ⟨3⟩⟩ ⟨0, 1⟩ .read) ⟨2⟩ rfl).1.mpr (by simp [hlive])
  have htag : ¬Deed.Belongs ds ⟨⟨1⟩, ⟨5⟩⟩ := by simp [Deed.Belongs, ds]
  obtain ⟨-, -, hprovenance, -⟩ :=
    (herrors (.access ⟨⟨1⟩, ⟨5⟩⟩ ⟨0, 9⟩ .read) ⟨1⟩ rfl).2 ((hlive _).mpr rfl)
  obtain ⟨size, hhas, -, hbounds, -⟩ :=
    (herrors (.permissionAt ⟨⟨1⟩, ⟨4⟩⟩ 8) ⟨1⟩ rfl).2 ((hlive _).mpr rfl)
  obtain rfl : 8 = size := (hhas 8).mp ⟨_, List.mem_cons_self, rfl⟩
  have hbelongs : ∀ p, Event.pointer? (.permissionAt ⟨⟨1⟩, ⟨4⟩⟩ 8) = some p →
      Deed.Belongs ds p := by
    rintro p ⟨⟩
    exact .inr (by simp [ds])
  have hlives : {a | Deed.IsLive ds a} = {⟨1⟩} := by
    simp only [hlive, Set.ofPred_eq_eq_singleton]
  rw [hlives, Set.ncard_singleton] at hcount
  exact ⟨hgone, hprovenance.mpr ⟨_, rfl, htag⟩, (hbounds hbelongs).mpr ⟨_, rfl, by decide⟩, hcount⟩

end Checker

end TreeBorrows
