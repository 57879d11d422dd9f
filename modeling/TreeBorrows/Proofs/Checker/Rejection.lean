/-
# What events ask of a tree, and when they are refused

Accesses, derivations and frees all come down to an access to the tree of an allocation.
`Event.demand?` says which one: a derivation reads the range that it covers, and a free writes to
all bytes.  The event begins with the first pass of that access, and fails as it fails
(`exists_plan_of_demand`).  So an event that demands an access which some node stands against is
refused with a violation (`violation_of_not_allows`), and one that leaves the allocation as out of
bounds (`outOfBounds_of_demand`), whatever else it was going to do.
-/
import TreeBorrows.Proofs.Checker.Bytewise
import TreeBorrows.Proofs.Checker.View

namespace TreeBorrows

/-- An access that is asked for. -/
structure Demand where
  pointer : Pointer
  range : ByteRange
  kind : AccessKind
deriving DecidableEq

/-- What an event asks of the tree of its allocation, which has `size` bytes. -/
def Event.demand? (size : Nat) : Event → Option Demand
  | .access p r kind => some ⟨p, r, kind⟩
  | .derive p r _ _ => some ⟨p, r, .read⟩
  | .retag p r _ _ _ => some ⟨p, r, .read⟩
  | .free p => some ⟨p, ⟨0, size⟩, .write⟩
  | .allocate _ | .drop _ | .drawCall | .enter _ _ | .exit _ | .openCall _ | .name _ _
  | .permissionAt _ _ => none

/-! ## 1. Operations on a tree -/

namespace Tree

variable {t : Tree} {ctx : Context} {start : Nat} {f : Failure}

/-- The first pass reports what a node stands against as a violation. -/
theorem plan_of_not_allows (h : t.Sound ctx.isProtected) (acc : Access)
    (hi : t.tags.index? acc.tag = some start) (hlimit : acc.range.stop < Word.limit)
    (hstop : acc.range.stop ≤ t.size) (hno : ¬t.Allows ctx acc.kind acc.range start) :
    ∃ v, (t.plan ctx acc).result = .error (.error (.aliasing v)) := by
  obtain ⟨n, hn, -⟩ := h.exists_get? hi
  have hstart := Arena.lt_width_of_get? hn
  rw [plan_eq hi hn (requireRange_eq_ok_iff.mpr ⟨hlimit, hstop⟩)]
  cases hus : t.pending ctx acc start n.label with
  | ok us =>
    refine absurd ((allows_iff_granted h hlimit hstop).mpr ?_) hno
    exact (pending_eq_ok_iff h hstart hstop n.label).mp ⟨us, hus⟩
  | error f =>
    obtain ⟨v, rfl⟩ := violation_of_pending_eq_error h hstart hstop hus
    exact ⟨v, rfl⟩

theorem requireRange_of_not_inside {r : ByteRange} (op : Operation)
    (hout : ¬(r.stop < Word.limit ∧ r.stop ≤ t.size)) :
    t.requireRange r op = .error (.outOfBounds ⟨op, some (.rangeExceeds r t.size)⟩) := by
  have hnot : t.requireRange r op ≠ .ok () := fun hok => hout (requireRange_eq_ok_iff.mp hok)
  unfold requireRange at hnot ⊢
  split
  · next hstop =>
    rw [hstop] at hnot
    split
    · next hle => exact absurd (if_pos hle) hnot
    · rfl
  · rfl

/-- The first pass does not begin where the range leaves the allocation. -/
theorem plan_of_not_inside (ctx : Context) (acc : Access) (hi : t.tags.index? acc.tag = some start)
    (hout : ¬(acc.range.stop < Word.limit ∧ acc.range.stop ≤ t.size)) :
    ∃ r, (t.plan ctx acc).result = .error (.error (.outOfBounds r)) := by
  refine ⟨⟨acc.cause.operation, some (.rangeExceeds acc.range t.size)⟩, ?_⟩
  unfold plan
  rw [requireTag_eq_ok_iff.mpr hi]
  dsimp only
  rw [requireRange_of_not_inside acc.cause.operation hout]
  rfl

theorem insertChild_of_plan_eq_error {c : NewChild} (hfresh : c.tag ∉ t.tags.keys)
    (hf : (t.plan ctx ⟨c.parent, c.range, .read, .reborrow⟩).result = .error f) :
    (t.insertChild ctx c).result = .error f := by
  have hnew : ¬t.contains c.tag = true := fun hc => hfresh (Registry.contains_iff.mp hc)
  rw [insertChild, if_neg hnew, Outcome.andThen_of_error (access_of_plan_eq_error hf)]

theorem free_of_plan_eq_error {tag : Tag}
    (hf : (t.plan ctx ⟨tag, ⟨0, t.size⟩, .write, .dealloc⟩).result = .error f) :
    (t.free ctx tag).result = .error f := by
  unfold free
  dsimp only
  rw [Outcome.andThen_of_error hf]

end Tree

/-! ## 2. Events -/

namespace Checker

variable {k : Checker} {e : Event} {d : Demand} {x : Allocation} {f : Failure}

/-- The event asks for an access to a live allocation, through one of its tags and inside of its
bounds. -/
structure Demands (k : Checker) (e : Event) (d : Demand) (x : Allocation) : Prop where
  live : k.allocations.get? d.pointer.alloc = some x
  demand : e.demand? x.tree.size = some d
  mem_tags : d.pointer.tag ∈ x.tree.tags.keys
  stop_lt : d.range.stop < Word.limit
  stop_le : d.range.stop ≤ x.tree.size

theorem onTree_of_get? {α : Type} {p : Pointer} (hx : k.allocations.get? p.alloc = some x)
    (op : Operation) (f : Context → Tree → Outcome Tree α) :
    k.onTree p op f = (f (k.context p.alloc) x.tree).mapState (k.putTree p.alloc x) := by
  simp [onTree, requireLive, hx]

/-- A derivation asks for a read, whether the pointer keeps its tag or gets a new one. -/
theorem reborrow_of_plan_eq_error (h : k.Sound) {p : Pointer} {r : ByteRange}
    (hx : k.allocations.get? p.alloc = some x)
    (hf : (x.tree.plan (k.context p.alloc) ⟨p.tag, r, .read, .reborrow⟩).result = .error f)
    (der : Derivation) (cell isProtected : Bool) :
    (k.reborrow p r der cell isProtected).result = .error f := by
  have hlive : k.requireLive p .retag = .ok x := by
    simp [requireLive, hx]
  cases hd : der.permission? cell with
  | none =>
    have hres : (k.onTree p .retag fun ctx t =>
        t.access ctx ⟨p.tag, r, .read, .reborrow⟩).result = .error f := by
      rw [onTree_of_get? hx]
      exact Tree.access_of_plan_eq_error hf
    simp only [reborrow, hlive, hd, keepTag]
    rw [Outcome.andThen_of_error hres]
  | some permission =>
    have hfresh : (⟨k.nextTag⟩ : Tag) ∉ x.tree.tags.keys := by
      intro hmem
      exact Nat.lt_irrefl _ (h.tag_lt hx hmem)
    have hx' : k.freshTag.1.allocations.get? p.alloc = some x := hx
    have hres : (k.freshTag.1.onTree p .retag fun ctx t => t.insertChild ctx
        ⟨p.tag, ⟨k.nextTag⟩, permission, isProtected, r⟩).result = .error f := by
      rw [onTree_of_get? hx']
      exact Tree.insertChild_of_plan_eq_error hfresh hf
    simp only [reborrow, hlive, hd]
    exact congrArg Outcome.result (Outcome.andThen_of_error hres _)

theorem retag_of_plan_eq_error (h : k.Sound) {p : Pointer} {r : ByteRange}
    (hx : k.allocations.get? p.alloc = some x)
    (hf : (x.tree.plan (k.context p.alloc) ⟨p.tag, r, .read, .reborrow⟩).result = .error f)
    (der : Derivation) (cell : Bool) (kind : Protection) :
    (k.retag p r der cell kind).result = .error f := by
  have hv := reborrow_of_plan_eq_error h hx hf der cell
    (kind.protects && decide (0 < k.calls.depth))
  unfold retag
  rw [Outcome.result_after, Outcome.andThen_of_error hv]

/-- **An event begins with the first pass of what it asks for**, and fails as that does. -/
theorem exists_plan_of_demand (h : k.Sound) (hx : k.allocations.get? d.pointer.alloc = some x)
    (hdemand : e.demand? x.tree.size = some d) :
    ∃ cause, ∀ f, (x.tree.plan (k.context d.pointer.alloc)
      ⟨d.pointer.tag, d.range, d.kind, cause⟩).result = .error f →
        (k.perform e).result = .error f := by
  -- an answer only changes its type on the way to the event
  have hanswer : ∀ {α : Type} {o : Outcome Checker α} {g : α → Answer} {f : Failure},
      o.result = .error f → (o.mapAnswer g).result = .error f := fun hf =>
    congrArg (Except.map _) hf
  cases e with
  | access p r kind =>
    obtain rfl := Option.some.inj hdemand
    refine ⟨.explicit kind, fun f hf => hanswer ?_⟩
    rw [access, onTree_of_get? hx]
    exact Tree.access_of_plan_eq_error hf
  | derive p r der cell =>
    obtain rfl := Option.some.inj hdemand
    exact ⟨.reborrow, fun f hf => hanswer (retag_of_plan_eq_error h hx hf der cell .none)⟩
  | retag p r der cell kind =>
    obtain rfl := Option.some.inj hdemand
    exact ⟨.reborrow, fun f hf => hanswer (retag_of_plan_eq_error h hx hf der cell kind)⟩
  | free p =>
    obtain rfl := Option.some.inj hdemand
    refine ⟨.dealloc, fun f hf => hanswer ?_⟩
    have hres : (k.onTree p .dealloc fun ctx t => t.free ctx p.tag).result = .error f := by
      rw [onTree_of_get? hx]
      exact Tree.free_of_plan_eq_error hf
    rw [free, Outcome.andThen_of_error hres]
  | allocate _ | drop _ | drawCall | enter _ _ | exit _ | openCall _ | name _ _
  | permissionAt _ _ => simp [Event.demand?] at hdemand

/-- **What a node stands against is refused with a violation.** -/
theorem violation_of_not_allows (h : k.Sound) (hd : k.Demands e d x) {start : Nat}
    (hi : x.tree.tags.index? d.pointer.tag = some start)
    (hno : ¬x.tree.Allows (k.context d.pointer.alloc) d.kind d.range start) :
    ∃ v, (k.perform e).result = .error (.error (.aliasing v)) := by
  obtain ⟨hx, hdemand, -, hlimit, hstop⟩ := hd
  obtain ⟨cause, hplan⟩ := exists_plan_of_demand h hx hdemand
  have ht : x.tree.Sound (k.context d.pointer.alloc).isProtected := h.tree hx
  obtain ⟨v, hv⟩ := Tree.plan_of_not_allows ht ⟨d.pointer.tag, d.range, d.kind, cause⟩ hi hlimit
    hstop hno
  exact ⟨v, hplan _ hv⟩

/-- What leaves the allocation is refused for that, whatever else is wrong with it. -/
theorem outOfBounds_of_demand (h : k.Sound) (hx : k.allocations.get? d.pointer.alloc = some x)
    (hdemand : e.demand? x.tree.size = some d) {start : Nat}
    (hi : x.tree.tags.index? d.pointer.tag = some start)
    (hout : ¬(d.range.stop < Word.limit ∧ d.range.stop ≤ x.tree.size)) :
    ∃ r, (k.perform e).result = .error (.error (.outOfBounds r)) := by
  obtain ⟨cause, hplan⟩ := exists_plan_of_demand h hx hdemand
  obtain ⟨r, hr⟩ := Tree.plan_of_not_inside (k.context d.pointer.alloc)
    ⟨d.pointer.tag, d.range, d.kind, cause⟩ hi hout
  exact ⟨r, hplan _ hr⟩

end Checker

end TreeBorrows
