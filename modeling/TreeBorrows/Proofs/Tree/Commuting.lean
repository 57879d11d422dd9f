/-
# Accesses that do not get in each other's way

Two accesses of which each is a read, or which have no byte in common, may change places.  The
argument has two halves.

* **What one refuses, the other does not change** (`refusesAlike_of_independent`).  A read that is
  carried out kills no tag, and it takes no protected tag its right to write; so afterwards a read
  is refused where it was before, by the same node with the same permission
  (`ByteState.access_read_congr`).  Since the route of an access depends on the nodes alone, the
  first node to refuse is the same one, too.
* **What they do to the rights of a node commutes** (`ByteState.moved_comm_of_read`), and is said
  for each access by `Tree.rightsAt_access`.

Nothing is said about what a node is known to absorb: that does depend on the order.  The count of
runs does as well; it can decide about success only if it is close to `2 ^ 63`
(`hasRoom_access_iff`).
-/
import Mathlib.Algebra.Group.Nat.Defs
import TreeBorrows.Proofs.RunMap.Count
import TreeBorrows.Proofs.Tree.Advance
import TreeBorrows.Proofs.Tree.FirstConflict

namespace TreeBorrows

/-! ## 1. One node -/

/-- What a tag may do at a byte, and whether the byte was accessed. -/
def ByteState.rights (s : ByteState) : Permission × Bool := (s.permission, s.accessed)

namespace ByteState

variable {rel rel' : Relatedness} {prot : Bool} {s s' : ByteState} {tr : Transition} {c : Conflict}

/-- **Which reads are refused**: those of dead tags, and the foreign ones of active tags that are
protected. -/
theorem access_read_eq_error_iff :
    s.access .read rel prot = .error c ↔
      (rel.isForeign = false ∧ s.permission = .disabled ∧ c = .childForbidden .disabled) ∨
        rel.isForeign = true ∧ prot = true ∧ s.permission = .active ∧
          c = .protectedTransition ⟨.active, .frozen⟩ := by
  obtain ⟨q, acc, abs⟩ := s
  cases rel <;> cases prot <;> cases q <;>
    simp [access, Permission.transition?, Permission.afterAccess?, Permission.afterChildRead?,
      Permission.afterForeignRead, Relatedness.isForeign, Transition.violatesProtector,
      Permission.canRead, Permission.isDisabled, Permission.writeRight, eq_comm (a := c)]

/-- A read kills no tag, and leaves a protected tag active if it was. -/
theorem permission_of_read (h : s.access .read rel prot = .ok (s', tr)) :
    (s'.permission = .disabled ↔ s.permission = .disabled) ∧
      (prot = true → (s'.permission = .active ↔ s.permission = .active)) := by
  obtain ⟨htr, hviol, rfl⟩ := access_eq_ok_iff.mp h
  obtain ⟨q, hq, rfl⟩ := Option.map_eq_some_iff.mp htr
  clear htr h
  obtain ⟨p, acc, abs⟩ := s
  dsimp only at hq hviol ⊢
  revert hq hviol
  cases rel <;> cases prot <;> cases p <;> cases q <;> decide

/-- **A read does not change which reads are refused**, nor with what. -/
theorem access_read_congr (h : s.access .read rel prot = .ok (s', tr)) (rel' : Relatedness)
    (c : Conflict) :
    s'.access .read rel' prot = .error c ↔ s.access .read rel' prot = .error c := by
  obtain ⟨hdisabled, hactive⟩ := permission_of_read h
  rw [access_read_eq_error_iff, access_read_eq_error_iff, hdisabled]
  refine or_congr_right (and_congr_right fun _ => and_congr_right fun hp => ?_)
  rw [hactive hp]

/-- Where the second read is refused, the first one has not changed the permission. -/
theorem permission_eq_of_read (h : s.access .read rel prot = .ok (s', tr))
    (h' : s.access .read rel' prot = .error c) : s'.permission = s.permission := by
  obtain ⟨hdisabled, hactive⟩ := permission_of_read h
  rcases access_read_eq_error_iff.mp h' with ⟨-, hs, -⟩ | ⟨-, hp, hs, -⟩
  · rw [hs, hdisabled, hs]
  · rw [hs, hactive hp, hs]

/-- The rights at a byte after an access that is carried out. -/
def moved (kind : AccessKind) (rel : Relatedness) (prot : Bool) (r : Permission × Bool) :
    Permission × Bool :=
  ((r.1.afterAccess? kind rel prot).getD r.1, r.2 || !rel.isForeign)

theorem rights_of_access {kind : AccessKind} (h : s.access kind rel prot = .ok (s', tr)) :
    s'.rights = moved kind rel prot s.rights := by
  obtain ⟨htr, -, rfl⟩ := access_eq_ok_iff.mp h
  obtain ⟨q, hq, rfl⟩ := Option.map_eq_some_iff.mp htr
  simp only [rights, moved, hq, Option.getD_some]

/-- **Reads commute**, from wherever they come. -/
theorem moved_comm_of_read (rel rel' : Relatedness) (prot : Bool) (r : Permission × Bool) :
    moved .read rel prot (moved .read rel' prot r) =
      moved .read rel' prot (moved .read rel prot r) := by
  obtain ⟨p, acc⟩ := r
  cases rel <;> cases rel' <;> cases prot <;> cases p <;> cases acc <;> rfl

end ByteState

/-! ## 2. Routes -/

/-- The visit with the state that its node has at a byte with other states. -/
def Visit.restate (states : ByteStates) (v : Visit) : Visit :=
  { v with state := v.node.stateIn states v.index }

namespace Arena

variable {a : Arena} {states states' : ByteStates} {start : Nat}

theorem subtreeRoute_restate (hw : a.WellLinked) (hd : a.NoActiveDefault) (exclude : Option Nat)
    {i : Nat} (hi : i < a.width) (rel : Relatedness) :
    a.subtreeRoute states' (fun _ _ => false) exclude i rel =
      (a.subtreeRoute states (fun _ _ => false) exclude i rel).map
        (Except.map (Visit.restate states')) := by
  revert rel
  refine hw.descend (P := fun i => ∀ rel, a.subtreeRoute states' (fun _ _ => false) exclude i rel =
    (a.subtreeRoute states (fun _ _ => false) exclude i rel).map
      (Except.map (Visit.restate states'))) ?_ i hi
  intro i n hn ih rel
  rw [subtreeRoute_of_get? hw hd hn, subtreeRoute_of_get? hw hd hn]
  simp only [Bool.and_false, Bool.false_eq_true, ↓reduceIte, List.map_cons, List.map_flatMap]
  refine congrArg₂ List.cons rfl (List.flatMap_congr fun c hc => ?_)
  have hmem := (List.mem_filter.mp (List.mem_reverse.mp hc)).1
  exact ih c ((hw.mem_children_iff hn).mp hmem) rel.below

theorem climbRoute_restate (hw : a.WellLinked) (hd : a.NoActiveDefault) (below : Nat)
    {above : List Nat} (h : ∀ i ∈ above, i < a.width) :
    a.climbRoute states' (fun _ _ => false) below above =
      (a.climbRoute states (fun _ _ => false) below above).map
        (Except.map (Visit.restate states')) := by
  induction above generalizing below with
  | nil => rfl
  | cons i above ih =>
    rw [climbRoute, climbRoute, List.map_append,
      subtreeRoute_restate hw hd (some below) (h i List.mem_cons_self),
      ih i fun j hj => h j (List.mem_cons_of_mem i hj)]

/-- **The nodes are visited in the same order whatever their states are.** -/
theorem route_restate (hw : a.WellLinked) (hd : a.NoActiveDefault) (hstart : start < a.width)
    (states states' : ByteStates) : a.route states' (fun _ _ => false) start =
      (a.route states (fun _ _ => false) start).map (Except.map (Visit.restate states')) := by
  rw [route, route, List.map_append, subtreeRoute_restate hw hd none hstart,
    climbRoute_restate hw hd start fun i hi => ?_]
  exact lt_width_of_mem_lineage hw hstart (List.mem_of_mem_tail hi)

end Arena

/-! ## 3. What the nodes refuse -/

theorem Tree.planVisit_eq_error_iff {ctx : Context} {acc : Access} {accessed : Label} {o : Nat}
    {v : Visit} {f : Failure} :
    planVisit ctx acc accessed o (.ok v) = .error f ↔
      ∃ c, v.state.access acc.kind v.position (ctx.isProtected v.node.tag) = .error c ∧
        f = .error (.aliasing (Clash.violation ⟨c, v.node.label, v.state.permission⟩ ctx accessed
          acc.cause o)) := by
  refine ⟨planVisit_eq_error, ?_⟩
  rintro ⟨c, hc, rfl⟩
  exact planVisit_of_access_eq_error hc

namespace Arena

variable {a : Arena} {states states' : ByteStates} {ctx : Context} {acc : Access}
  {first start o : Nat} {accessed : Label} {f : Failure}

/-- **A read that was carried out at a byte does not change what is refused to a read there.** -/
theorem requests_eq_error_iff_of_read (hw : a.WellLinked) (hd : a.NoActiveDefault)
    (hc : a.CarriedOut ctx.isProtected .read first states states') (hread : acc.kind = .read)
    (hstart : start < a.width) :
    a.requests ctx acc start accessed states' o = .error f ↔
      a.requests ctx acc start accessed states o = .error f := by
  unfold requests
  rw [route_restate hw hd hstart states states']
  refine collect_map_eq_error_iff fun x hx f => ?_
  obtain ⟨i, n, hn, rfl⟩ := (mem_route_full_iff hw hd hstart).mp hx
  obtain ⟨tr, hfirst⟩ := hc i n hn
  simp only [Except.map, Tree.planVisit_eq_error_iff, Visit.restate, hread]
  refine exists_congr fun c => ?_
  rw [ByteState.access_read_congr hfirst]
  refine and_congr_right fun hrefused => ?_
  rw [ByteState.permission_eq_of_read hfirst hrefused]

end Arena

namespace Tree

variable {t t' : Tree} {ctx : Context} {acc acc' : Access} {start : Nat} {e : Error}

/-! ## 4. Which accesses are refused -/

/-- The second pass reports nothing to the checked program. -/
theorem settle_ne_error (t : Tree) (ctx : Context) (r : ByteRange) (cause : Cause)
    (us : List (List Update)) (e : Error) :
    (t.settle ctx r cause us).result ≠ .error (.error e) := by
  unfold settle
  split
  · exact nofun
  · exact tidied_ne_error _ e

/-- An access is refused by its first pass. -/
theorem access_eq_error_iff :
    (t.access ctx acc).result = .error (.error e) ↔
      (t.plan ctx acc).result = .error (.error e) := by
  refine ⟨fun he => ?_, access_of_plan_eq_error⟩
  cases hplan : (t.plan ctx acc).result with
  | error f =>
    rw [access_of_plan_eq_error hplan] at he
    exact congrArg Except.error (Except.error.inj he)
  | ok us =>
    rw [access, Outcome.result_after, Outcome.andThen_of_ok hplan, Outcome.result_after] at he
    exact absurd he (settle_ne_error _ _ _ _ _ e)

/-- The two trees have the same tags, nodes and bytes, and at every byte of the access the nodes of
both refuse the same. -/
structure RefusesAlike (t t' : Tree) (ctx : Context) (acc : Access) : Prop extends
    SameNodes t t' where
  requests : ∀ {o states states'}, o ∈ acc.range → t.bytes.valueAt? o = some states →
    t'.bytes.valueAt? o = some states' → ∀ {start}, start < t.arena.width → ∀ accessed f,
      t.arena.requests ctx acc start accessed states' o = .error f ↔
        t.arena.requests ctx acc start accessed states o = .error f

namespace RefusesAlike

/-- Where the nodes refuse the same, they also grant the same. -/
theorem granted_iff (h : t.RefusesAlike t' ctx acc) (hs : t.Sound ctx.isProtected)
    (hstart : start < t.arena.width) {o : Nat} {states states' : ByteStates}
    (ho : o ∈ acc.range) (hval : t.bytes.valueAt? o = some states)
    (hval' : t'.bytes.valueAt? o = some states') :
    t.arena.Granted ctx.isProtected acc.kind start states' ↔
      t.arena.Granted ctx.isProtected acc.kind start states := by
  have hreq := h.requests ho hval hval' hstart (.new acc.tag .active)
  rw [granted_iff_exists_requests hs hstart (.new acc.tag .active) states' o,
    granted_iff_exists_requests hs hstart (.new acc.tag .active) states o]
  cases hr : t.arena.requests ctx acc start (.new acc.tag .active) states o with
  | error f =>
    rw [(hreq f).mpr hr]
  | ok us =>
    cases hr' : t.arena.requests ctx acc start (.new acc.tag .active) states' o with
    | error f =>
      rw [(hreq f).mp hr'] at hr
      cases hr
    | ok us' => exact ⟨fun _ => ⟨us, rfl⟩, fun _ => ⟨us', rfl⟩⟩

theorem symm (h : t.RefusesAlike t' ctx acc) : t'.RefusesAlike t ctx acc where
  toSameNodes := h.toSameNodes.symm
  requests {o _ _} ho hval hval' {start} hstart accessed f := by
    rw [h.arena_eq] at hstart ⊢
    exact (h.requests ho hval' hval hstart accessed f).symm

/-- The first pass is stopped at the same byte, by the same node. -/
theorem pending_eq_error (h : t.RefusesAlike t' ctx acc) (hs : t.Sound ctx.isProtected)
    (hs' : t'.Sound ctx.isProtected) (hstart : start < t.arena.width) (hr : acc.range.stop ≤ t.size)
    {accessed : Label} {f : Failure} (hf : t.pending ctx acc start accessed = .error f) :
    t'.pending ctx acc start accessed = .error f := by
  have hstart' : start < t'.arena.width := h.arena_eq.symm ▸ hstart
  have hr' : acc.range.stop ≤ t'.size := h.size_eq.symm ▸ hr
  obtain ⟨o, states, ho, hval, hreq, hfirst⟩ := (pending_eq_error_iff hs hstart hr).mp hf
  obtain ⟨states', hval'⟩ := h.exists_valueAt?_iff.mpr ⟨states, hval⟩
  refine (pending_eq_error_iff hs' hstart' hr').mpr ⟨o, states', ho, hval', ?_, ?_⟩
  · rw [h.arena_eq]
    exact (h.requests ho hval hval' hstart accessed f).mpr hreq
  · intro p q' hp hlt hq'
    obtain ⟨q, hq⟩ := h.exists_valueAt?_iff.mp ⟨q', hq'⟩
    rw [h.arena_eq]
    exact (h.granted_iff hs hstart hp hq hq').mpr (hfirst p q hp hlt hq)

/-- An access that is refused by the first tree is refused by the second one, in the same way. -/
theorem access_eq_error (h : t.RefusesAlike t' ctx acc) (hs : t.Sound ctx.isProtected)
    (hs' : t'.Sound ctx.isProtected) (he : (t.access ctx acc).result = .error (.error e)) :
    (t'.access ctx acc).result = .error (.error e) := by
  rw [access_eq_error_iff] at he ⊢
  have htag : t'.requireTag acc.tag acc.cause.operation =
      t.requireTag acc.tag acc.cause.operation := by
    simp [requireTag, h.tags_eq]
  have hrange : t'.requireRange acc.range acc.cause.operation =
      t.requireRange acc.range acc.cause.operation := by
    simp [requireRange, h.size_eq]
  cases hi : t.requireTag acc.tag acc.cause.operation with
  | error e' =>
    rw [hi] at htag
    unfold plan at he ⊢
    rw [hi] at he
    rw [htag]
    exact he
  | ok start =>
    rw [hi] at htag
    cases hr : t.requireRange acc.range acc.cause.operation with
    | error e' =>
      rw [hr] at hrange
      unfold plan at he ⊢
      simp only [hi, hr] at he
      simp only [htag, hrange]
      exact he
    | ok _ =>
      rw [hr] at hrange
      have hi := requireTag_eq_ok_iff.mp hi
      obtain ⟨n, hn, -⟩ := hs.exists_get? hi
      have hn' : t'.arena.get? start = some n := h.arena_eq ▸ hn
      rw [plan_eq hi hn hr] at he
      rw [plan_eq (requireTag_eq_ok_iff.mp htag) hn' hrange]
      exact h.pending_eq_error hs hs' (Arena.lt_width_of_get? hn)
        (requireRange_eq_ok_iff.mp hr).2 he

/-- **Both trees refuse the same accesses, in the same way.** -/
theorem access_eq_error_iff (h : t.RefusesAlike t' ctx acc) (hs : t.Sound ctx.isProtected)
    (hs' : t'.Sound ctx.isProtected) (e : Error) :
    (t'.access ctx acc).result = .error (.error e) ↔
      (t.access ctx acc).result = .error (.error e) :=
  ⟨h.symm.access_eq_error hs' hs, h.access_eq_error hs hs'⟩

end RefusesAlike

/-! ## 5. What an access leaves -/

/-- An access that is refused changes no state; one that is not is carried out at every byte of its
range, and changes no state anywhere else. -/
theorem valueAt?_access (h : t.Sound ctx.isProtected) (acc : Access) :
    ((∃ e, (t.access ctx acc).result = .error (.error e)) ∧
        ∀ o, (t.access ctx acc).state.bytes.valueAt? o = t.bytes.valueAt? o) ∨
      (∀ e, (t.access ctx acc).result ≠ .error (.error e)) ∧
        ∃ start, t.tags.index? acc.tag = some start ∧
          (∀ o ∈ acc.range, ∃ states states', t.bytes.valueAt? o = some states ∧
            (t.access ctx acc).state.bytes.valueAt? o = some states' ∧
            t.arena.CarriedOut ctx.isProtected acc.kind start states states') ∧
          ∀ o, o ∉ acc.range →
            (t.access ctx acc).state.bytes.valueAt? o = t.bytes.valueAt? o := by
  rcases access_cases h acc with ⟨e, messages, heq⟩ |
    ⟨n, start, hi, hn, hstop, ⟨v, messages, -, heq⟩ | ⟨us, messages, hus, heq⟩⟩
  · rw [heq]
    exact .inl ⟨⟨e, rfl⟩, fun _ => rfl⟩
  · rw [heq]
    exact .inl ⟨⟨_, rfl⟩, RunMap.valueAt?_split t.bytes acc.range⟩
  · have hval : ∀ o, (t.access ctx acc).state.bytes.valueAt? o =
        (t.committed acc.range us).bytes.valueAt? o := by
      intro o
      rw [heq]
      exact valueAt?_tidied (t.committed acc.range us) o
    refine .inr ⟨fun e => ?_, start, hi, fun o ho => ?_, fun o ho => ?_⟩
    · rw [heq]
      exact tidied_ne_error _ e
    · obtain ⟨states, states', hval₁, hval₂, hc, -⟩ :=
        carriedOut_committed h (Arena.lt_width_of_get? hn) hstop hus ho
      exact ⟨states, states', hval₁, (hval o).trans hval₂, hc⟩
    · exact (hval o).trans (valueAt?_committed_of_not_mem t us ho)

end Tree

/-- Neither access stands in the way of the other: both are reads, or they have no byte in
common. -/
def Access.Independent (acc acc' : Access) : Prop :=
  (acc.kind = .read ∧ acc'.kind = .read) ∨ ∀ o, o ∈ acc.range → o ∉ acc'.range

theorem Access.Independent.symm {acc acc' : Access} (h : acc.Independent acc') :
    acc'.Independent acc :=
  h.imp And.symm fun h o ho ho' => h o ho' ho

/-- The operation ended with an error of the checked program. -/
def Outcome.isRefused {σ α : Type} (o : Outcome σ α) : Bool :=
  match o.result with
  | .error (.error _) => true
  | .error (.fault _) | .ok _ => false

theorem Outcome.isRefused_iff {σ α : Type} {o : Outcome σ α} :
    o.isRefused = true ↔ ∃ e, o.result = .error (.error e) := by
  unfold isRefused
  split <;> simp_all

namespace Tree

variable {t t' : Tree} {ctx : Context} {acc acc' : Access} {i o : Nat} {n : Node}

/-- **An access does not change what is refused to one that is independent of it.** -/
theorem refusesAlike_of_independent (h : t.Sound ctx.isProtected) (hind : acc.Independent acc') :
    t.RefusesAlike (t.access ctx acc).state ctx acc' where
  toSameNodes := sameNodes_access t ctx acc
  requests {o states states'} ho hval hval' {start} hstart accessed f := by
    have hsame : (t.access ctx acc).state.bytes.valueAt? o = t.bytes.valueAt? o →
        states' = states := fun heq => Option.some.inj (hval'.symm.trans (heq.trans hval))
    rcases valueAt?_access h acc with ⟨-, hall⟩ | ⟨-, first, -, hmem, hnot⟩
    · rw [hsame (hall o)]
    · by_cases hacc : o ∈ acc.range
      · rcases hind with ⟨hread, hread'⟩ | hdisjoint
        · obtain ⟨old, new, hold, hnew, hc⟩ := hmem o hacc
          obtain rfl := Option.some.inj (hold.symm.trans hval)
          obtain rfl := Option.some.inj (hnew.symm.trans hval')
          rw [hread] at hc
          exact Arena.requests_eq_error_iff_of_read h.wellLinked h.noActiveDefault hc hread' hstart
        · exact absurd ho (hdisjoint o hacc)
      · rw [hsame (hnot o hacc)]

/-! ## 6. Rights -/

/-- The rights of the node `i` at an offset. -/
def rightsAt (t : Tree) (i : Nat) (n : Node) (o : Nat) : Option (Permission × Bool) :=
  (t.bytes.valueAt? o).map fun states => (n.stateIn states i).rights

/-- What an access makes of the rights of a node at an offset: nothing if it is refused, or if it
does not cover the offset. -/
def moveRights (t : Tree) (ctx : Context) (acc : Access) (i : Nat) (n : Node) (o : Nat)
    (r : Permission × Bool) : Permission × Bool :=
  if (t.access ctx acc).isRefused = false ∧ o ∈ acc.range then
    ByteState.moved acc.kind (t.arena.relatedness ((t.tags.index? acc.tag).getD Arena.root) i)
      (ctx.isProtected n.tag) r
  else r

/-- **What an access does to the rights of a node.** -/
theorem rightsAt_access (h : t.Sound ctx.isProtected) (acc : Access) (hn : t.arena.get? i = some n)
    (o : Nat) : (t.access ctx acc).state.rightsAt i n o =
      (t.rightsAt i n o).map (t.moveRights ctx acc i n o) := by
  have hidle : ∀ {r : Option (Permission × Bool)},
      ¬((t.access ctx acc).isRefused = false ∧ o ∈ acc.range) →
        r.map (t.moveRights ctx acc i n o) = r := by
    intro r hnot
    have hid : t.moveRights ctx acc i n o = id := funext fun _ => if_neg hnot
    rw [hid, Option.map_id_fun, id]
  rcases valueAt?_access h acc with ⟨hrefused, hall⟩ | ⟨hcarried, first, hfirst, hmem, hnot⟩
  · rw [hidle fun hmove => ?_, rightsAt, rightsAt, hall]
    rw [Outcome.isRefused_iff.mpr hrefused] at hmove
    cases hmove.1
  · by_cases ho : o ∈ acc.range
    · obtain ⟨states, states', hval, hval', hc⟩ := hmem o ho
      have hmove : (t.access ctx acc).isRefused = false ∧ o ∈ acc.range := by
        refine ⟨Bool.eq_false_iff.mpr fun hrefused => ?_, ho⟩
        obtain ⟨e, he⟩ := Outcome.isRefused_iff.mp hrefused
        exact hcarried e he
      obtain ⟨tr, hstep⟩ := hc i n hn
      rw [rightsAt, rightsAt, hval, hval', Option.map_some, Option.map_some, Option.map_some,
        ByteState.rights_of_access hstep, moveRights, if_pos hmove, hfirst, Option.getD_some]
    · rw [hidle fun hmove => ho hmove.2, rightsAt, rightsAt, hnot o ho]

/-- Independent accesses may change the rights of a node in either order. -/
theorem moveRights_comm (hind : acc.Independent acc') (r : Permission × Bool) :
    t.moveRights ctx acc i n o (t.moveRights ctx acc' i n o r) =
      t.moveRights ctx acc' i n o (t.moveRights ctx acc i n o r) := by
  by_cases h : (t.access ctx acc).isRefused = false ∧ o ∈ acc.range
  · by_cases h' : (t.access ctx acc').isRefused = false ∧ o ∈ acc'.range
    · rcases hind with ⟨hread, hread'⟩ | hdisjoint
      · simp only [moveRights, if_pos h, if_pos h', hread, hread']
        exact ByteState.moved_comm_of_read _ _ _ r
      · exact absurd h'.2 (hdisjoint o h.2)
    · simp only [moveRights, if_pos h, if_neg h']
  · simp only [moveRights, if_neg h]

theorem RefusesAlike.moveRights_eq (h : t.RefusesAlike t' ctx acc) (hs : t.Sound ctx.isProtected)
    (hs' : t'.Sound ctx.isProtected) :
    t'.moveRights ctx acc i n o = t.moveRights ctx acc i n o := by
  have hrefused : (t'.access ctx acc).isRefused = (t.access ctx acc).isRefused := by
    rw [Bool.eq_iff_iff, Outcome.isRefused_iff, Outcome.isRefused_iff]
    exact exists_congr (h.access_eq_error_iff hs hs')
  funext r
  rw [moveRights, moveRights, hrefused, h.tags_eq, h.arena_eq]

/-- What a tree answers about its tags, as far as `f` looks, is what its nodes have. -/
theorem map_stateOf_congr {β : Type} (f : ByteState → β) {prot prot' : Tag → Bool}
    (h : t.Sound prot) (h' : t'.Sound prot') (hsame : t.SameNodes t')
    (hshow : ∀ i n states states', t.arena.get? i = some n → t.bytes.valueAt? o = some states →
      t'.bytes.valueAt? o = some states' → f (n.stateIn states' i) = f (n.stateIn states i))
    (tag : Tag) : (t'.stateOf tag o).map f = (t.stateOf tag o).map f := by
  have htag : t'.requireTag tag .inspect = t.requireTag tag .inspect := by
    simp [requireTag, hsame.tags_eq]
  have hrange : t'.requireRange ⟨o, 1⟩ .inspect = t.requireRange ⟨o, 1⟩ .inspect := by
    simp [requireRange, hsame.size_eq]
  cases hi : t.requireTag tag .inspect with
  | error e => simp only [stateOf, htag, hi]
  | ok i =>
    cases hr : t.requireRange ⟨o, 1⟩ .inspect with
    | error e => simp only [stateOf, htag, hi, hrange, hr]
    | ok _ =>
      obtain ⟨hlimit, hstop⟩ := requireRange_eq_ok_iff.mp hr
      obtain ⟨n, hn, rfl⟩ := h.exists_get? (requireTag_eq_ok_iff.mp hi)
      obtain ⟨states, hval⟩ : ∃ states, t.bytes.valueAt? o = some states :=
        Option.ne_none_iff_exists'.mp
          (mt RunMap.valueAt?_eq_none_iff.mp (Nat.not_le_of_lt hstop))
      obtain ⟨states', hval'⟩ := hsame.exists_valueAt?_iff.mpr ⟨states, hval⟩
      have hn' : t'.arena.get? i = some n := hsame.arena_eq ▸ hn
      rw [h.stateOf_eq hn hval hlimit, h'.stateOf_eq hn' hval' hlimit]
      exact congrArg Except.ok (hshow i n states states' hn hval hval')

/-- What a tree answers about the rights of its tags is what its nodes have. -/
theorem map_rights_stateOf_congr {prot prot' : Tag → Bool} (h : t.Sound prot) (h' : t'.Sound prot')
    (hsame : t.SameNodes t')
    (hrights : ∀ i n, t.arena.get? i = some n → t'.rightsAt i n o = t.rightsAt i n o) (tag : Tag) :
    (t'.stateOf tag o).map ByteState.rights = (t.stateOf tag o).map ByteState.rights := by
  refine map_stateOf_congr _ h h' hsame (fun i n states states' hn hval hval' => ?_) tag
  have heq := hrights i n hn
  rw [rightsAt, rightsAt, hval, hval'] at heq
  exact Option.some.inj heq

/-- **Independent accesses leave the same rights in either order**, whether they are carried out or
refused. -/
theorem map_rights_stateOf_comm (h : t.Sound ctx.isProtected) (hind : acc.Independent acc')
    (tag : Tag) (o : Nat) :
    (((t.access ctx acc).state.access ctx acc').state.stateOf tag o).map ByteState.rights =
      (((t.access ctx acc').state.access ctx acc).state.stateOf tag o).map ByteState.rights := by
  have h₁ := sound_access h acc
  have h₂ := sound_access h acc'
  have halike := refusesAlike_of_independent h hind
  have halike' := refusesAlike_of_independent h hind.symm
  have hfirst := halike.toSameNodes.trans (sameNodes_access _ ctx acc')
  have hsecond := halike'.toSameNodes.trans (sameNodes_access _ ctx acc)
  refine map_rights_stateOf_congr (sound_access h₂ acc) (sound_access h₁ acc')
    (hsecond.symm.trans hfirst) (fun i n hn => ?_) tag
  rw [hsecond.arena_eq] at hn
  rw [rightsAt_access h₁ acc' (halike.arena_eq ▸ hn),
    rightsAt_access h₂ acc (halike'.arena_eq ▸ hn), rightsAt_access h acc hn,
    rightsAt_access h acc' hn, halike.moveRights_eq h h₁, halike'.moveRights_eq h h₂,
    Option.map_map, Option.map_map]
  refine congrArg (Option.map · _) (funext fun r => ?_)
  exact moveRights_comm hind.symm r

end Tree

/-! ## 7. Counts of runs -/

/-- Half of the words are `2 ^ 63`. -/
theorem Word.mul_two_lt_limit_iff {n : Nat} : n * 2 < Word.limit ↔ n < 2 ^ 63 := by
  rw [Word.limit, UInt64.size]
  omega

namespace Tree

variable {t t' : Tree} {ctx : Context} {acc acc' : Access}

theorem runCount_tidied_le (t : Tree) : t.tidied.state.bytes.runCount ≤ t.bytes.runCount := by
  unfold tidied tidy
  cases Word.add t.runsAtLastMerge t.mergeSlack with
  | error f => exact Nat.le_refl _
  | ok limit =>
    dsimp only
    by_cases hdue : limit ≤ t.bytes.runCount
    · rw [if_pos hdue]
      exact RunMap.runCount_merge_le t.bytes
    · rw [if_neg hdue]
      exact Nat.le_refl _

/-- An access adds two runs at most. -/
theorem runCount_access_le (h : t.Sound ctx.isProtected) (acc : Access) :
    (t.access ctx acc).state.bytes.runCount ≤ t.bytes.runCount + 2 := by
  rcases access_cases h acc with ⟨e, messages, heq⟩ |
    ⟨n, start, -, -, -, ⟨v, messages, -, heq⟩ | ⟨us, messages, -, heq⟩⟩
  · rw [heq]
    exact Nat.le_add_right _ 2
  · rw [heq]
    exact RunMap.runCount_split_le t.bytes acc.range
  · rw [heq]
    exact Nat.le_trans (runCount_tidied_le _)
      (RunMap.runCount_change_le t.bytes acc.range applyUpdates us)

/-- While twice the number of runs is a word, joining them does not change whether the number of
runs to join at is one. -/
theorem hasRoom_tidied_iff (hruns : t.bytes.runCount * 2 < Word.limit) :
    t.tidied.state.runsAtLastMerge + t.tidied.state.mergeSlack < Word.limit ↔
      t.runsAtLastMerge + t.mergeSlack < Word.limit := by
  unfold tidied tidy
  cases hadd : Word.add t.runsAtLastMerge t.mergeSlack with
  | error f => exact Iff.rfl
  | ok limit =>
    obtain ⟨rfl, hlt⟩ := Word.add_eq_ok_iff.mp hadd
    dsimp only
    by_cases hdue : t.runsAtLastMerge + t.mergeSlack ≤ t.bytes.runCount
    · rw [if_pos hdue]
      have hcount := RunMap.runCount_merge_le t.bytes
      refine ⟨fun _ => hlt, fun _ => ?_⟩
      show t.bytes.merge.runCount + t.mergeSlack < Word.limit
      omega
    · rw [if_neg hdue]
      exact Iff.rfl

theorem hasRoom_access_iff (h : t.Sound ctx.isProtected) (acc : Access)
    (hruns : (t.bytes.runCount + 2) * 2 < Word.limit) :
    (t.access ctx acc).state.runsAtLastMerge + (t.access ctx acc).state.mergeSlack < Word.limit ↔
      t.runsAtLastMerge + t.mergeSlack < Word.limit := by
  rcases access_cases h acc with ⟨e, messages, heq⟩ |
    ⟨n, start, -, -, -, ⟨v, messages, -, heq⟩ | ⟨us, messages, -, heq⟩⟩
  · rw [heq]
    exact Iff.rfl
  · rw [heq]
    exact Iff.rfl
  · rw [heq]
    refine hasRoom_tidied_iff (t := t.committed acc.range us) ?_
    have := RunMap.runCount_change_le t.bytes acc.range applyUpdates us
    have hcommitted : (t.committed acc.range us).bytes.runCount =
      (t.bytes.change acc.range applyUpdates us).runCount := rfl
    omega

/-- An access that is not refused succeeds if the number of runs to join at is a word. -/
theorem result_access (h : t.Sound ctx.isProtected) (acc : Access) :
    (∃ e, (t.access ctx acc).result = .error (.error e)) ∨
      (t.access ctx acc).result =
        if t.runsAtLastMerge + t.mergeSlack < Word.limit then .ok ()
          else .error (.fault .overflow) := by
  rcases access_cases h acc with ⟨e, messages, heq⟩ |
    ⟨n, start, -, -, -, ⟨v, messages, -, heq⟩ | ⟨us, messages, -, heq⟩⟩
  · exact .inl ⟨e, by rw [heq]; rfl⟩
  · exact .inl ⟨_, by rw [heq]; rfl⟩
  · refine .inr ?_
    rw [heq, Outcome.result_after]
    exact result_tidied (t.committed acc.range us)

/-- **An access has the same result after one that is independent of it**, unless the runs are as
many as half of the words. -/
theorem result_access_of_independent (h : t.Sound ctx.isProtected) (hind : acc.Independent acc')
    (hruns : (t.bytes.runCount + 2) * 2 < Word.limit) :
    ((t.access ctx acc).state.access ctx acc').result = (t.access ctx acc').result := by
  have h₁ := sound_access h acc
  have hiff := (refusesAlike_of_independent h hind).access_eq_error_iff h h₁
  have hroom := hasRoom_access_iff h acc hruns
  rcases result_access h acc' with ⟨e, he⟩ | hres
  · rw [he]
    exact (hiff e).mpr he
  · rcases result_access h₁ acc' with ⟨e, he⟩ | hres'
    · rw [he]
      exact ((hiff e).mp he).symm
    · rw [hres, hres']
      simp only [hroom]

end Tree

end TreeBorrows
