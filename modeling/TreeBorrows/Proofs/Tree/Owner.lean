/-
# The owner keeps its rights

The tag that an allocation was made with is the root of its tree, and its default state there is
worth nothing: it is disabled.  What gives it its rights is that a state is kept for it at every
byte, one that it was given at the start (`ByteState.owned`).

That state never changes.  The root is above every tag, so every access is a child access to it,
which a state with all rights allows and is left alone by; and what is otherwise done to the nodes
changes no right, and lowers an absorption that is as low as can be (`OwnerHolds.advances`).

So the root itself never stands against an access.  To an access through the root every other tag
is foreign, and a permission alone never refuses a foreign access.  What is left to refuse it is a
protected tag (`protector_of_plan_eq_error`).
-/
import TreeBorrows.Proofs.Tree.Advance
import TreeBorrows.Proofs.Tree.FirstConflict

namespace TreeBorrows

/-! ## 1. The state of an owner -/

namespace ByteState

/-- All rights at a byte, which was accessed, and nothing that a foreign access may skip. -/
def owned : ByteState := covered .active .nothing

variable {kind : AccessKind} {rel : Relatedness} {prot : Bool}

/-- A child access is allowed by all rights, and takes none of them. -/
theorem access_owned (hrel : rel.isForeign = false) :
    owned.access kind rel prot = .ok (owned, ⟨.active, .active⟩) := by
  cases kind <;> cases rel <;> cases prot <;> first | rfl | cases hrel

theorem Fades.eq_owned {s : ByteState} (h : owned.Fades s) : s = owned := by
  obtain ⟨hperm, haccessed, habsorbed⟩ := h
  obtain ⟨permission, accessed, absorbed⟩ := s
  obtain rfl : permission = .active := hperm
  obtain rfl : accessed = true := haccessed
  obtain rfl : absorbed = .nothing := Absorption.eq_nothing_of_le habsorbed
  rfl

/-- What refuses a foreign access is a protector. -/
theorem protector_of_access_eq_error {s : ByteState} {c : Conflict} (hrel : rel.isForeign = true)
    (h : s.access kind rel prot = .error c) : prot = true ∧ c.obstacle = .protector := by
  obtain ⟨q, hq⟩ := Option.isSome_iff_exists.mp
    (Permission.isSome_afterAccess?_of_isForeign hrel kind prot s.permission)
  have htr : s.permission.transition? kind rel prot = some ⟨s.permission, q⟩ := by
    rw [Permission.transition?, hq]
    rfl
  rw [access, htr] at h
  dsimp only at h
  split at h
  · next hv =>
    obtain rfl := Except.error.inj h
    exact ⟨(Bool.and_eq_true_iff.mp hv).1, rfl⟩
  · cases h

end ByteState

/-- Only a state that is kept can have been accessed. -/
theorem Node.stateIn_eq_owned_iff {n : Node} {states : ByteStates} {i : Nat} :
    n.stateIn states i = .owned ↔ states.get? i = some .owned := by
  unfold stateIn
  cases states.get? i with
  | none => simp [ByteState.owned, ByteState.covered]
  | some s => simp

/-! ## 2. One byte -/

namespace Arena

variable {a a' : Arena} {states states' : ByteStates} {prot : Tag → Bool} {start : Nat}

/-- Every access is a child access to the root. -/
theorem isForeign_relatedness_root (hw : a.WellLinked) (hstart : start < a.width) :
    (a.relatedness start root).isForeign = false := by
  simp [isForeign_relatedness, root_mem_lineage hw hstart]

/-- To an access through the root, every other node is foreign. -/
theorem isForeign_relatedness_of_root (hw : a.WellLinked) {i : Nat} (hi : i ≠ root) :
    (a.relatedness root i).isForeign = true := by
  simp [isForeign_relatedness, lineage_root hw, hi]

theorem owned_of_carriedOut (hw : a.WellLinked) (hstart : start < a.width) {kind : AccessKind}
    (hc : a.CarriedOut prot kind start states states') (h : states.get? root = some .owned) :
    states'.get? root = some .owned := by
  obtain ⟨n, hn⟩ := hw.exists_get? hw.width_pos
  obtain ⟨tr, htr⟩ := hc root n hn
  rw [Node.stateIn_eq_owned_iff.mpr h,
    ByteState.access_owned (isForeign_relatedness_root hw hstart)] at htr
  exact Node.stateIn_eq_owned_iff.mp (Prod.mk.inj (Except.ok.inj htr)).1.symm

theorem owned_of_retains (hw : a.WellLinked) (hg : a.Grows a')
    (hr : a.Retains a' states states') (h : states.get? root = some .owned) :
    states'.get? root = some .owned := by
  obtain ⟨n, hn⟩ := hw.exists_get? hw.width_pos
  obtain ⟨n', hn', -⟩ := hg root n hn
  have hfades : (n.stateIn states root).Fades (n'.stateIn states' root) := hr.old hn hn'
  rw [Node.stateIn_eq_owned_iff.mpr h] at hfades
  exact Node.stateIn_eq_owned_iff.mp hfades.eq_owned

/-- **At a byte where the root holds all rights, no operation takes one.** -/
theorem owned_of_advances (hw : a.WellLinked) (hg : a.Grows a')
    (ha : a.Advances a' prot states states') (h : states.get? root = some .owned) :
    states'.get? root = some .owned := by
  obtain ⟨mid, rfl | ⟨kind, start, hstart, hc⟩, hr⟩ := ha
  · exact owned_of_retains hw hg hr h
  · exact owned_of_retains hw hg hr (owned_of_carriedOut hw hstart hc h)

/-- What refuses an access through a root with all rights is a protected node. -/
theorem protector_of_requests_eq_error {ctx : Context} {acc : Access} {accessed : Label} {o : Nat}
    {f : Failure} (hw : a.WellLinked) (hd : a.NoActiveDefault)
    (howned : states.get? root = some .owned)
    (hf : a.requests ctx acc root accessed states o = .error f) :
    ∃ v i n, f = .error (.aliasing v) ∧ v.obstacle = .protector ∧ a.get? i = some n ∧
      v.conflicting = n.label ∧ ctx.isProtected n.tag = true := by
  obtain ⟨x, hx, hfail⟩ := exists_of_collect_eq_error hf
  obtain ⟨i, n, hn, rfl⟩ := (mem_route_full_iff hw hd hw.width_pos).mp hx
  obtain ⟨c, hc, rfl⟩ := Tree.planVisit_eq_error hfail
  dsimp only at hc
  by_cases hi : i = root
  · subst hi
    rw [Node.stateIn_eq_owned_iff.mpr howned,
      ByteState.access_owned (isForeign_relatedness_root hw hw.width_pos)] at hc
    cases hc
  · obtain ⟨hprot, hobstacle⟩ :=
      ByteState.protector_of_access_eq_error (isForeign_relatedness_of_root hw hi) hc
    exact ⟨_, i, n, rfl, hobstacle, hn, rfl, hprot⟩

end Arena

/-! ## 3. Trees -/

namespace Tree

variable {t t' : Tree} {prot : Tag → Bool} {ctx : Context} {acc : Access} {err : Error}

/-- At every byte, a state with all rights is kept for the root. -/
def OwnerHolds (t : Tree) : Prop :=
  ∀ o states, t.bytes.valueAt? o = some states → states.get? Arena.root = some .owned

theorem ownerHolds_new (root : Tag) (size : Nat) (settings : Settings) :
    (new root size settings).OwnerHolds := by
  intro o states ho
  rw [valueAt?_new ho, Slots.get?_insert, if_pos rfl]
  rfl

/-- Whatever is done to a tree, its root keeps its rights. -/
theorem OwnerHolds.advances (h : t.OwnerHolds) (hs : t.Sound prot) {prot' : Tag → Bool}
    (ha : t.Advances t' prot') : t'.OwnerHolds := by
  intro o states' ho'
  obtain ⟨states, ho, hstep⟩ := ha.advances ho'
  exact Arena.owned_of_advances hs.wellLinked ha.grows hstep (h o states ho)

/-- The tag that the allocation was made with has the index of the root. -/
theorem Sound.index?_owner (hs : t.Sound prot) {owner : Tag} (howner : t.owner? = some owner) :
    t.tags.index? owner = some Arena.root := by
  obtain ⟨n, hn, rfl⟩ := Option.map_eq_some_iff.mp howner
  exact hs.index?_tag hn

/-- The tag that the allocation was made with has all rights at every byte. -/
theorem OwnerHolds.stateOf_eq (h : t.OwnerHolds) (hs : t.Sound prot) {owner : Tag}
    (howner : t.owner? = some owner) {o : Nat} {states : ByteStates}
    (ho : t.bytes.valueAt? o = some states) (hlimit : o + 1 < Word.limit) :
    t.stateOf owner o = .ok .owned := by
  obtain ⟨n, hn, rfl⟩ := Option.map_eq_some_iff.mp howner
  rw [hs.stateOf_eq hn ho hlimit, Node.stateIn_eq_owned_iff.mpr (h o states ho)]

/-- **An access through the root is refused because of a protected tag**, or because it leaves the
allocation. -/
theorem protector_of_plan_eq_error (h : t.OwnerHolds) (hs : t.Sound ctx.isProtected)
    (howner : t.owner? = some acc.tag) (hlimit : acc.range.stop < Word.limit)
    (hstop : acc.range.stop ≤ t.size) (he : (t.plan ctx acc).result = .error (.error err)) :
    ∃ v i n, err = .aliasing v ∧ v.obstacle = .protector ∧ t.arena.get? i = some n ∧
      v.conflicting = n.label ∧ ctx.isProtected n.tag = true := by
  obtain ⟨n, hn, -⟩ := Option.map_eq_some_iff.mp howner
  rw [plan_eq (hs.index?_owner howner) hn (requireRange_eq_ok_iff.mpr ⟨hlimit, hstop⟩)] at he
  obtain ⟨o, states, -, hval, hf, -⟩ :=
    exists_of_pending_eq_error hs hs.wellLinked.width_pos hstop he
  obtain ⟨v, i, m, heq, hv⟩ :=
    Arena.protector_of_requests_eq_error hs.wellLinked hs.noActiveDefault (h o states hval) hf
  exact ⟨v, i, m, Failure.error.inj heq, hv⟩

end Tree

end TreeBorrows
