/-
# What an access does at one byte

The first pass of an access follows a route and collects updates; the second pass writes them
back.  At a single byte both together are a plain map over the nodes: `CarriedOut` says that every
node takes the step that its own permission, its own protector and its own place in the tree ask
for, and `Granted` that every node has such a step.

* `carriedOut_of_collect`: the states after the updates of a complete route are the states
  before, with every node moved on.  Nodes whose state would not change are not written at all,
  and nodes without a state get one only if theirs changes.
* `granted_iff_exists_collect`: the updates can be collected exactly if every node can move on.
-/
import TreeBorrows.Tree.Access
import TreeBorrows.Proofs.Collect
import TreeBorrows.Proofs.Tree.Visits

namespace TreeBorrows

/-! ## 1. One node -/

/-- An accepted access moves the permission on, marks a child access, and records itself. -/
theorem ByteState.access_eq_ok_iff {kind : AccessKind} {rel : Relatedness} {prot : Bool}
    {s s' : ByteState} {tr : Transition} :
    s.access kind rel prot = .ok (s', tr) ↔
      s.permission.transition? kind rel prot = some tr ∧
      ¬(prot = true ∧ tr.violatesProtector = true) ∧
        s' = ⟨tr.target, s.accessed || !rel.isForeign, s.absorbed.record (.ofAccess kind rel)⟩ := by
  unfold ByteState.access
  cases ht : s.permission.transition? kind rel prot with
  | none => simp
  | some t =>
    dsimp only
    by_cases hv : (prot && t.violatesProtector) = true
    · rw [Bool.and_eq_true] at hv
      rw [if_pos (Bool.and_eq_true_iff.mpr hv)]
      refine ⟨nofun, ?_⟩
      rintro ⟨h, h', -⟩
      obtain rfl := Option.some.inj h
      exact absurd hv h'
    · rw [if_neg hv, Except.ok.injEq, Prod.mk.injEq, Option.some.injEq]
      rw [Bool.and_eq_true] at hv
      constructor
      · rintro ⟨rfl, rfl⟩
        exact ⟨rfl, hv, rfl⟩
      · rintro ⟨rfl, -, rfl⟩
        exact ⟨rfl, rfl⟩

/-- An access is accepted if the permission has a step that no protector forbids. -/
theorem ByteState.exists_access_eq_ok_iff {kind : AccessKind} {rel : Relatedness} {prot : Bool}
    {s : ByteState} :
    (∃ r, s.access kind rel prot = .ok r) ↔
      ∃ tr, s.permission.transition? kind rel prot = some tr ∧
        ¬(prot = true ∧ tr.violatesProtector = true) := by
  constructor
  · rintro ⟨⟨s', tr⟩, h⟩
    obtain ⟨h₁, h₂, -⟩ := access_eq_ok_iff.mp h
    exact ⟨tr, h₁, h₂⟩
  · rintro ⟨tr, h₁, h₂⟩
    exact ⟨(_, tr), access_eq_ok_iff.mpr ⟨h₁, h₂, rfl⟩⟩

/-- **Which writes a node accepts**: from below while it is reserved or active, and from elsewhere
unless it is protected and still good for something. -/
theorem Permission.accepts_write_iff (p : Permission) (rel : Relatedness) (prot : Bool) :
    (∃ tr, p.transition? .write rel prot = some tr ∧
        ¬(prot = true ∧ tr.violatesProtector = true)) ↔
      if rel.isForeign then prot = true → p = .disabled
      else p.isReserved = true ∨ p = .active := by
  cases rel <;> cases prot <;> cases p <;>
    simp [transition?, afterAccess?, afterChildWrite?, afterForeignWrite, Relatedness.isForeign,
      Transition.violatesProtector, canRead, isDisabled, writeRight, isReserved, capability]

namespace Tree

variable {ctx : Context} {acc : Access} {accessed : Label} {offset : Nat}

theorem planVisit_of_access_eq_error {v : Visit} {c : Conflict}
    (h : v.state.access acc.kind v.position (ctx.isProtected v.node.tag) = .error c) :
    planVisit ctx acc accessed offset (.ok v) =
      .error (.error (.aliasing (Clash.violation ⟨c, v.node.label, v.state.permission⟩ ctx accessed
        acc.cause offset))) := by
  simp only [planVisit, Visit.update?, h, Except.mapError]

theorem planVisit_of_access_eq_ok {v : Visit} {s : ByteState} {tr : Transition}
    (h : v.state.access acc.kind v.position (ctx.isProtected v.node.tag) = .ok (s, tr)) :
    planVisit ctx acc accessed offset (.ok v) =
      .ok (if s = v.state then none else some ⟨v.index, s, tr, v.position.isForeign⟩) := by
  simp only [planVisit, Visit.update?, h, Except.mapError]

/-- What a visit asks for: the new state, if there is one and it is new. -/
theorem planVisit_eq_ok_iff {v : Visit} {u? : Option Update} :
    planVisit ctx acc accessed offset (.ok v) = .ok u? ↔
      ∃ s tr, v.state.access acc.kind v.position (ctx.isProtected v.node.tag) = .ok (s, tr) ∧
        u? = if s = v.state then none else some ⟨v.index, s, tr, v.position.isForeign⟩ := by
  cases hc : v.state.access acc.kind v.position (ctx.isProtected v.node.tag) with
  | error c =>
    rw [planVisit_of_access_eq_error hc]
    refine ⟨nofun, ?_⟩
    rintro ⟨s, tr, h, -⟩
    nomatch h
  | ok r =>
    obtain ⟨s, tr⟩ := r
    rw [planVisit_of_access_eq_ok hc, Except.ok.injEq]
    constructor
    · rintro rfl
      exact ⟨s, tr, rfl, rfl⟩
    · rintro ⟨s', tr', h, rfl⟩
      obtain ⟨rfl, rfl⟩ := Prod.mk.inj (Except.ok.inj h)
      rfl

/-- A visit fails with a violation, and no other way. -/
theorem planVisit_eq_error {v : Visit} {f : Failure}
    (h : planVisit ctx acc accessed offset (.ok v) = .error f) :
    ∃ c, v.state.access acc.kind v.position (ctx.isProtected v.node.tag) = .error c ∧
      f = .error (.aliasing (Clash.violation ⟨c, v.node.label, v.state.permission⟩ ctx accessed
        acc.cause offset)) := by
  cases hc : v.state.access acc.kind v.position (ctx.isProtected v.node.tag) with
  | error c =>
    rw [planVisit_of_access_eq_error hc] at h
    exact ⟨c, rfl, (Except.error.inj h).symm⟩
  | ok r =>
    rw [planVisit_of_access_eq_ok hc] at h
    nomatch h

/-! ## 2. Writing updates back -/

theorem get?_applyUpdates_of_forall_ne {us : List Update} {states : ByteStates} {i : Nat}
    (h : ∀ u ∈ us, u.index ≠ i) : (applyUpdates states us).get? i = states.get? i := by
  induction us generalizing states with
  | nil => rfl
  | cons u us ih =>
    have hu : i ≠ u.index := (h u List.mem_cons_self).symm
    have hstep : applyUpdates states (u :: us) =
        applyUpdates (states.insert u.index u.state) us := rfl
    rw [hstep, ih fun w hw => h w (List.mem_cons_of_mem u hw), Slots.get?_insert, if_neg hu]

/-- Updates of one node that agree leave it in the state they agree on. -/
theorem get?_applyUpdates_of_mem {us : List Update} (states : ByteStates) {u : Update}
    (hu : u ∈ us) (h : ∀ w ∈ us, w.index = u.index → w.state = u.state) :
    (applyUpdates states us).get? u.index = some u.state := by
  induction us generalizing states u with
  | nil => exact absurd hu List.not_mem_nil
  | cons w us ih =>
    have hstep : applyUpdates states (w :: us) =
        applyUpdates (states.insert w.index w.state) us := rfl
    have hrest : ∀ x ∈ us, x.index = u.index → x.state = u.state :=
      fun x hx => h x (List.mem_cons_of_mem w hx)
    rw [hstep]
    by_cases hlast : ∃ x ∈ us, x.index = u.index
    · obtain ⟨x, hx, hxu⟩ := hlast
      have hstate := hrest x hx hxu
      rw [← hxu, ← hstate]
      exact ih _ hx fun y hy hyx => (hrest y hy (hyx.trans hxu)).trans hstate.symm
    · have hne : ∀ x ∈ us, x.index ≠ u.index := fun x hx hxu => hlast ⟨x, hx, hxu⟩
      obtain rfl : u = w := by
        rcases List.mem_cons.mp hu with rfl | hu
        · rfl
        · exact absurd rfl (hne u hu)
      rw [get?_applyUpdates_of_forall_ne hne, Slots.get?_insert, if_pos rfl]

/-- Only nodes that are updated gain a state. -/
theorem exists_of_get?_applyUpdates {us : List Update} {states : ByteStates} {i : Nat}
    {s : ByteState} (h : (applyUpdates states us).get? i = some s) :
    (∃ s', states.get? i = some s') ∨ ∃ u ∈ us, u.index = i := by
  by_cases hu : ∃ u ∈ us, u.index = i
  · exact .inr hu
  · rw [get?_applyUpdates_of_forall_ne fun u hu' hi => hu ⟨u, hu', hi⟩] at h
    exact .inl ⟨s, h⟩

end Tree

namespace Arena

/-! ## 3. All nodes -/

/-- Every node of the arena can take the step that an access through `start` asks of it. -/
def Granted (a : Arena) (prot : Tag → Bool) (kind : AccessKind) (start : Nat)
    (states : ByteStates) : Prop :=
  ∀ i n, a.get? i = some n →
    ∃ r, (n.stateIn states i).access kind (a.relatedness start i) (prot n.tag) = .ok r

/-- Between the two collections of states, every node has taken the step that an access through
`start` asks of it. -/
def CarriedOut (a : Arena) (prot : Tag → Bool) (kind : AccessKind) (start : Nat)
    (states states' : ByteStates) : Prop :=
  ∀ i n, a.get? i = some n → ∃ tr,
    (n.stateIn states i).access kind (a.relatedness start i) (prot n.tag) =
      .ok (n.stateIn states' i, tr)

variable {a : Arena} {states : ByteStates} {ctx : Context} {acc : Access} {accessed : Label}
  {offset start : Nat} {us : List Update}

/-- The updates of a complete route, one for each node whose state changes. -/
theorem mem_of_collect_route (hw : a.WellLinked) (hd : a.NoActiveDefault)
    (hstart : start < a.width)
    (h : collect (Tree.planVisit ctx acc accessed offset)
      (a.route states (fun _ _ => false) start) = .ok us) {u : Update} :
    u ∈ us ↔ ∃ n tr s, a.get? u.index = some n ∧
      (n.stateIn states u.index).access acc.kind (a.relatedness start u.index)
        (ctx.isProtected n.tag) = .ok (s, tr) ∧
      s ≠ n.stateIn states u.index ∧
      u = ⟨u.index, s, tr, (a.relatedness start u.index).isForeign⟩ := by
  rw [(collect_eq_ok h).2]
  constructor
  · rintro ⟨x, hx, hxu⟩
    obtain ⟨j, n, hj, rfl⟩ := (mem_route_full_iff hw hd hstart).mp hx
    obtain ⟨s, tr, hs, hu⟩ := Tree.planVisit_eq_ok_iff.mp hxu
    split at hu
    · nomatch hu
    · next hne =>
      obtain rfl := Option.some.inj hu
      exact ⟨n, tr, s, hj, hs, hne, rfl⟩
  · rintro ⟨n, tr, s, hj, hs, hne, hu⟩
    refine ⟨_, (mem_route_full_iff hw hd hstart).mpr ⟨u.index, n, hj, rfl⟩, ?_⟩
    refine Tree.planVisit_eq_ok_iff.mpr ⟨s, tr, hs, ?_⟩
    rw [if_neg hne]
    exact congrArg some hu

/-- **Writing back the updates of a complete route carries the access out.** -/
theorem carriedOut_of_collect (hw : a.WellLinked) (hd : a.NoActiveDefault)
    (hstart : start < a.width)
    (h : collect (Tree.planVisit ctx acc accessed offset)
      (a.route states (fun _ _ => false) start) = .ok us) :
    a.CarriedOut ctx.isProtected acc.kind start states (Tree.applyUpdates states us) := by
  intro i n hn
  have hx : .ok ⟨i, n, n.stateIn states i, a.relatedness start i⟩ ∈
      a.route states (fun _ _ => false) start :=
    (mem_route_full_iff hw hd hstart).mpr ⟨i, n, hn, rfl⟩
  obtain ⟨u?, hu?⟩ := (collect_eq_ok h).1 _ hx
  obtain ⟨s, tr, hs, -⟩ := Tree.planVisit_eq_ok_iff.mp hu?
  simp only at hs
  refine ⟨tr, hs.trans (congrArg Except.ok (congrArg (·, tr) ?_))⟩
  -- every update of this node stores `s`, since the node determines it
  have hall : ∀ w ∈ us, w.index = i → w.state = s ∧ s ≠ n.stateIn states i := by
    intro w hwus hwi
    obtain ⟨m, tr', s', hm, hs', hne, hw'⟩ := (mem_of_collect_route hw hd hstart h).mp hwus
    subst hwi
    obtain rfl := Option.some.inj (hn.symm.trans hm)
    obtain ⟨rfl, rfl⟩ := Prod.mk.inj (Except.ok.inj (hs.symm.trans hs'))
    exact ⟨congrArg Update.state hw', hne⟩
  unfold Node.stateIn
  by_cases heq : s = n.stateIn states i
  · rw [Tree.get?_applyUpdates_of_forall_ne fun w hwus hwi => (hall w hwus hwi).2 heq]
    exact heq
  · have hu : ⟨i, s, tr, (a.relatedness start i).isForeign⟩ ∈ us :=
      (mem_of_collect_route hw hd hstart h).mpr ⟨n, tr, s, hn, hs, heq, rfl⟩
    have hget := Tree.get?_applyUpdates_of_mem states hu
      fun w hwus hwi => (hall w hwus hwi).1
    simp only at hget
    rw [hget]
    rfl

/-- **The updates can be collected exactly if every node can move on.** -/
theorem granted_iff_exists_collect (hw : a.WellLinked) (hd : a.NoActiveDefault)
    (hstart : start < a.width) :
    a.Granted ctx.isProtected acc.kind start states ↔
      ∃ us, collect (Tree.planVisit ctx acc accessed offset)
        (a.route states (fun _ _ => false) start) = .ok us := by
  constructor
  · intro hg
    refine exists_collect_eq_ok fun x hx => ?_
    obtain ⟨j, n, hj, rfl⟩ := (mem_route_full_iff hw hd hstart).mp hx
    obtain ⟨⟨s, tr⟩, hs⟩ := hg j n hj
    exact ⟨_, Tree.planVisit_eq_ok_iff.mpr ⟨s, tr, hs, rfl⟩⟩
  · rintro ⟨us, h⟩ i n hn
    obtain ⟨tr, htr⟩ := carriedOut_of_collect hw hd hstart h i n hn
    exact ⟨_, htr⟩

/-- What stops a collection is a violation. -/
theorem exists_violation_of_collect (hw : a.WellLinked) (hd : a.NoActiveDefault)
    (hstart : start < a.width) {f : Failure}
    (h : collect (Tree.planVisit ctx acc accessed offset)
      (a.route states (fun _ _ => false) start) = .error f) :
    ∃ v, f = .error (.aliasing v) := by
  obtain ⟨x, hx, hf⟩ := exists_of_collect_eq_error h
  obtain ⟨j, n, -, rfl⟩ := (mem_route_full_iff hw hd hstart).mp hx
  obtain ⟨c, -, rfl⟩ := Tree.planVisit_eq_error hf
  exact ⟨_, rfl⟩

end Arena

end TreeBorrows
