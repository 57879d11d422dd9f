/-
# Why an event that asks for an access can be refused

`Checker/Rejection.lean` says that an event fails as the first pass of the access that it asks for.
This module says that there is little else for it to fail with.  The second pass, the insertion of
a node and the end of an allocation find everything in place that the first pass has looked up; only
a free asks one more question, whether a tag of the tree is strongly protected
(`Tree.free_eq_error`).

So an access to a live allocation is refused for one of three reasons, and the first that applies is
reported (`refusal_of_demand`): the tag is not one of the allocation's, the range leaves the
allocation, or some node stands against it.
-/
import TreeBorrows.Proofs.Checker.Rejection
import TreeBorrows.Proofs.Tree.Faultless

namespace TreeBorrows

/-! ## 1. Operations on a tree -/

namespace Tree

variable {t : Tree} {ctx : Context} {acc : Access} {e : Error}

/-- The first pass does not begin for a tag that the tree does not know. -/
theorem plan_of_not_mem_tags (ctx : Context) (acc : Access) (htag : acc.tag ∉ t.tags.keys) :
    ∃ r, (t.plan ctx acc).result = .error (.error (.invalidProvenance r)) := by
  refine ⟨⟨acc.cause.operation, some (.unknownTag acc.tag)⟩, ?_⟩
  unfold plan
  rw [requireTag_eq_error_iff.mpr ⟨htag, rfl⟩]
  rfl

/-- Once the tag is known and the range inside, the first pass can only fail at a node. -/
theorem pending_of_plan_eq_error (h : t.Sound ctx.isProtected) (htag : acc.tag ∈ t.tags.keys)
    (hlimit : acc.range.stop < Word.limit) (hstop : acc.range.stop ≤ t.size)
    (he : (t.plan ctx acc).result = .error (.error e)) :
    ∃ start n v, t.tags.index? acc.tag = some start ∧ t.arena.get? start = some n ∧
      t.pending ctx acc start n.label = .error (.error (.aliasing v)) ∧ e = .aliasing v := by
  obtain ⟨start, n, hn, heq⟩ := h.mem_tags_iff.mp htag
  have hi : t.tags.index? acc.tag = some start := heq ▸ h.index?_tag hn
  rw [plan_eq hi hn (requireRange_eq_ok_iff.mpr ⟨hlimit, hstop⟩)] at he
  obtain ⟨v, hv⟩ := violation_of_pending_eq_error h (Arena.lt_width_of_get? hn) hstop he
  refine ⟨start, n, v, hi, hn, ?_, Failure.error.inj hv⟩
  exact he.trans (congrArg Except.error hv)

/-- A new node is refused as its read is, for its tag is new and its parent has been found. -/
theorem insertChild_eq_error {c : NewChild} (hfresh : c.tag ∉ t.tags.keys)
    (he : (t.insertChild ctx c).result = .error (.error e)) :
    (t.plan ctx ⟨c.parent, c.range, .read, .reborrow⟩).result = .error (.error e) := by
  have hnew : ¬t.contains c.tag = true := fun hc => hfresh (Registry.contains_iff.mp hc)
  rw [insertChild, if_neg hnew] at he
  rcases Outcome.andThen_eq_error he with ⟨he, -⟩ | ⟨_, hok, he, -⟩
  · exact access_eq_error_iff.mp he
  · have htags := (sameNodes_access t ctx ⟨c.parent, c.range, .read, .reborrow⟩).tags_eq
    generalize (t.access ctx ⟨c.parent, c.range, .read, .reborrow⟩).state = t' at he htags
    split at he
    · next htag =>
      -- the read has found the parent
      obtain ⟨start, hi, -⟩ := exists_of_access_eq_ok hok
      rw [← htags] at hi
      cases (requireTag_eq_ok_iff.mpr hi).symm.trans htag
    · split at he
      · cases he
      · cases he
      · exact absurd he (tidied_ne_error _ e)

/-- **A free is refused as the write to all bytes is**, or because a strongly protected tag forbids
it; the report names such a tag. -/
theorem free_eq_error (h : t.Sound ctx.isProtected) {tag : Tag}
    (he : (t.free ctx tag).result = .error (.error e)) :
    (t.plan ctx ⟨tag, ⟨0, t.size⟩, .write, .dealloc⟩).result = .error (.error e) ∨
      ∃ v i n, e = .aliasing v ∧ v.conflict = .protectedFree ∧ v.conflicting = n.label ∧
        t.arena.get? i = some n ∧ ctx.protectors.get? n.tag = some .strong := by
  rcases Outcome.andThen_eq_error he with ⟨he, -⟩ | ⟨us, hus, he, -⟩
  · exact .inl he
  · obtain ⟨start, m, hi, -, -, hstate, -⟩ := exists_of_plan_eq_ok h hus
    rw [hstate] at he
    split at he
    · exact absurd he (settle_ne_error _ _ _ _ _ e)
    · next i n hstrong =>
      obtain ⟨hn, hprot⟩ := of_stronglyProtected?_eq_some hstrong
      split at he
      · next htag => cases (requireTag_eq_ok_iff.mpr hi).symm.trans htag
      · split at he
        · cases he
        · cases he
        · exact .inr ⟨_, i, n, (Failure.error.inj (Except.error.inj he)).symm, rfl, rfl, hn, hprot⟩

end Tree

/-! ## 2. Events -/

namespace Checker

variable {k : Checker} {e : Event} {err : Error} {d : Demand} {x : Allocation}

theorem onTree_eq_error {α : Type} {p : Pointer} {op : Operation}
    {f : Context → Tree → Outcome Tree α} (hx : k.allocations.get? p.alloc = some x)
    (he : (k.onTree p op f).result = .error (.error err)) :
    (f (k.context p.alloc) x.tree).result = .error (.error err) := by
  rwa [onTree_of_get? hx] at he

theorem reborrow_eq_error (h : k.Sound) {p : Pointer} {r : ByteRange}
    (hx : k.allocations.get? p.alloc = some x) {der : Derivation} {cell isProtected : Bool}
    (he : (k.reborrow p r der cell isProtected).result = .error (.error err)) :
    (x.tree.plan (k.context p.alloc) ⟨p.tag, r, .read, .reborrow⟩).result =
      .error (.error err) := by
  have hlive : k.requireLive p .retag = .ok x := by
    simp [requireLive, hx]
  rw [reborrow, hlive] at he
  dsimp only at he
  split at he
  · rcases Outcome.andThen_eq_error he with ⟨he, -⟩ | ⟨_, -, he, -⟩
    · exact Tree.access_eq_error_iff.mp (onTree_eq_error hx he)
    · cases he
  · rcases Outcome.andThen_eq_error he with ⟨he, -⟩ | ⟨_, -, he, -⟩
    · have hfresh : (⟨k.nextTag⟩ : Tag) ∉ x.tree.tags.keys := fun hmem =>
        Nat.lt_irrefl _ (h.tag_lt hx hmem)
      exact Tree.insertChild_eq_error hfresh (onTree_eq_error (k := k.freshTag.1) hx he)
    · cases he

theorem retag_eq_error (h : k.Sound) {p : Pointer} {r : ByteRange}
    (hx : k.allocations.get? p.alloc = some x) {der : Derivation} {cell : Bool}
    {kind : Protection} (he : (k.retag p r der cell kind).result = .error (.error err)) :
    (x.tree.plan (k.context p.alloc) ⟨p.tag, r, .read, .reborrow⟩).result =
      .error (.error err) := by
  rw [retag, Outcome.result_after] at he
  rcases Outcome.andThen_eq_error he with ⟨he, -⟩ | ⟨t?, -, he, -⟩
  · exact reborrow_eq_error h hx he
  · cases t? with
    | none => cases he
    | some tag =>
      dsimp only at he
      split at he
      · cases he
      · cases he

/-- Once the tree lets go of it, the allocation goes and nothing else. -/
theorem free_of_tree_free {p : Pointer} (hx : k.allocations.get? p.alloc = some x)
    (hok : (x.tree.free (k.context p.alloc) p.tag).result = .ok ()) :
    (k.free p).result = .ok () ∧
      (k.free p).state = { k with allocations := k.allocations.erase p.alloc } := by
  have hok : (k.onTree p .dealloc fun ctx t => t.free ctx p.tag).result = .ok () := by
    rwa [onTree_of_get? hx]
  have hlive : (k.putTree p.alloc x
      (x.tree.free (k.context p.alloc) p.tag).state).allocations.contains p.alloc = true :=
    Table.contains_insert_iff.mpr (.inl rfl)
  rw [free, Outcome.andThen_of_ok hok, onTree_of_get? hx, Outcome.result_after, Outcome.state_after,
    Outcome.state_mapState, drop, if_pos hlive]
  exact ⟨rfl, congrArg (fun table => { k with allocations := table })
    (Table.erase_insert_self _ _ _)⟩

/-- A free ends as it does for the tree. -/
theorem result_free {p : Pointer} (hx : k.allocations.get? p.alloc = some x) :
    (k.free p).result = (x.tree.free (k.context p.alloc) p.tag).result := by
  cases hres : (x.tree.free (k.context p.alloc) p.tag).result with
  | error f =>
    have hf : (k.onTree p .dealloc fun ctx t => t.free ctx p.tag).result = .error f := by
      rwa [onTree_of_get? hx]
    rw [free, Outcome.andThen_of_error hf]
  | ok u => exact (free_of_tree_free hx hres).1

/-- **An event that asks for an access is refused by its first pass**, or else it is a free and a
strongly protected tag forbids it. -/
theorem exists_plan_of_perform_eq_error (h : k.Sound)
    (hx : k.allocations.get? d.pointer.alloc = some x)
    (hdemand : e.demand? x.tree.size = some d)
    (he : (k.perform e).result = .error (.error err)) :
    (∃ cause, (x.tree.plan (k.context d.pointer.alloc)
      ⟨d.pointer.tag, d.range, d.kind, cause⟩).result = .error (.error err)) ∨
      ∃ v i n, err = .aliasing v ∧ v.conflict = .protectedFree ∧ v.conflicting = n.label ∧
        x.tree.arena.get? i = some n ∧ k.protector? n.tag = some .strong := by
  cases e with
  | access p r kind =>
    obtain rfl := Option.some.inj hdemand
    have he := onTree_eq_error hx (Outcome.mapAnswer_eq_error he)
    exact .inl ⟨.explicit kind, Tree.access_eq_error_iff.mp he⟩
  | derive p r der cell =>
    obtain rfl := Option.some.inj hdemand
    exact .inl ⟨.reborrow, retag_eq_error h hx (Outcome.mapAnswer_eq_error he)⟩
  | retag p r der cell kind =>
    obtain rfl := Option.some.inj hdemand
    exact .inl ⟨.reborrow, retag_eq_error h hx (Outcome.mapAnswer_eq_error he)⟩
  | free p =>
    obtain rfl := Option.some.inj hdemand
    have he := (result_free hx).symm.trans (Outcome.mapAnswer_eq_error he)
    exact (Tree.free_eq_error (h.tree hx) he).imp_left fun hplan => ⟨.dealloc, hplan⟩
  | allocate _ | drop _ | drawCall | enter _ _ | exit _ | openCall _ | name _ _
  | permissionAt _ _ => cases hdemand

/-- **Why an event that asks for an access to a live allocation is refused**: its tag is not one of
the allocation's; or it is, and the range leaves the allocation; or else the rules of aliasing
forbid it. -/
theorem refusal_of_demand (h : k.Sound) (hx : k.allocations.get? d.pointer.alloc = some x)
    (hdemand : e.demand? x.tree.size = some d) :
    (d.pointer.tag ∉ x.tree.tags.keys →
      ∃ r, (k.perform e).result = .error (.error (.invalidProvenance r))) ∧
    (d.pointer.tag ∈ x.tree.tags.keys →
      ¬(d.range.stop < Word.limit ∧ d.range.stop ≤ x.tree.size) →
        ∃ r, (k.perform e).result = .error (.error (.outOfBounds r))) ∧
    (d.pointer.tag ∈ x.tree.tags.keys →
      d.range.stop < Word.limit ∧ d.range.stop ≤ x.tree.size →
        ∀ err, (k.perform e).result = .error (.error err) → ∃ v, err = .aliasing v) := by
  refine ⟨fun htag => ?_, fun htag hout => ?_, fun htag hin err he => ?_⟩
  · obtain ⟨cause, hplan⟩ := exists_plan_of_demand h hx hdemand
    obtain ⟨r, hr⟩ := Tree.plan_of_not_mem_tags (k.context d.pointer.alloc)
      ⟨d.pointer.tag, d.range, d.kind, cause⟩ htag
    exact ⟨r, hplan _ hr⟩
  · obtain ⟨i, n, hn, heq⟩ := (h.tree hx).mem_tags_iff.mp htag
    exact outOfBounds_of_demand h hx hdemand (heq ▸ (h.tree hx).index?_tag hn) hout
  · rcases exists_plan_of_perform_eq_error h hx hdemand he with
      ⟨cause, hplan⟩ | ⟨v, -, -, hv, -⟩
    · have ht : x.tree.Sound (k.context d.pointer.alloc).isProtected := h.tree hx
      obtain ⟨-, -, v, -, -, -, hv⟩ := Tree.pending_of_plan_eq_error ht htag hin.1 hin.2 hplan
      exact ⟨v, hv⟩
    · exact ⟨v, hv⟩

end Checker

end TreeBorrows
