/-
# A traversal ends, and misses no node

The two loops of `Tree/Traversal.lean` carry no bound, and each of them could lose its way: a link
may lead in a circle, a branch may be walked twice or left out twice.  On a tree that is linked as
it should be neither happens.

The argument follows the tree.  What `drain` does with the place of a node on top of its stack is
said by a list of stops (`subtreeStops`), and after these it goes on with the rest of the stack
(`drain_cons`): by descending, for the children of a node are younger than it is.  What `climb` does
is the stops of one subtree after the other (`climb_eq`), by climbing.  So the loops make the stops
`routeStops` one by one (`traverse_eq`), until a node refuses, and then no more (`run_makeStops`).

It remains to read that list.  The nodes reached are those of `Arena.route`, in this order
(`reached_routeStops`), and no node twice (`sublist_visitOrder`).  The nodes asked are foreign ones
(`asked_routeStops`).  `traversal_complete` puts this together for the trees that operations can
make.
-/
import TreeBorrows.Proofs.Tree.Reborrow
import TreeBorrows.Proofs.Tree.VisitOrder
import TreeBorrows.Tree.Traversal

namespace TreeBorrows

/-! ## 1. Stops -/

namespace Stop

/-- Where the stop is made. -/
def visit : Stop → Visit
  | asked v | reached v => v

/-- The visit that the access makes at this stop. -/
def reached? : Stop → Option Visit
  | asked _ => none
  | reached v => some v

@[simp] theorem reached?_asked (v : Visit) : (asked v).reached? = none := rfl

@[simp] theorem reached?_reached (v : Visit) : (reached v).reached? = some v := rfl

theorem mem_filterMap_reached?_iff {stops : List Stop} {v : Visit} :
    v ∈ stops.filterMap reached? ↔ reached v ∈ stops := by
  rw [List.mem_filterMap]
  constructor
  · rintro ⟨s, hs, hv⟩
    cases s with
    | asked u => cases hv
    | reached u =>
      obtain rfl := Option.some.inj hv
      exact hs
  · intro h
    exact ⟨reached v, h, rfl⟩

end Stop

namespace Arena

open Traversal

variable {ε : Type} {a : Arena} {states : ByteStates} {skip : ByteState → Relatedness → Bool}
  {propagate : Visit → Except ε Unit} {exclude : Option Nat} {i c start : Nat} {n : Node}
  {rel : Relatedness}

/-- One stop of a traversal. -/
def stopAt (propagate : Visit → Except ε Unit) : Stop → Traversal ε Unit
  | .asked v => note (.asked v)
  | .reached v => reaches propagate v

/-- Stops made one after the other. -/
def makeStops (propagate : Visit → Except ε Unit) (stops : List Stop) : Traversal ε Unit :=
  forM stops (stopAt propagate)

@[simp] theorem makeStops_nil : makeStops propagate [] = pure () := rfl

@[simp] theorem makeStops_cons (s : Stop) (stops : List Stop) :
    makeStops propagate (s :: stops) =
      (stopAt propagate s >>= fun _ => makeStops propagate stops) :=
  List.forM_cons

@[simp] theorem makeStops_append (stops stops' : List Stop) :
    makeStops propagate (stops ++ stops') =
      (makeStops propagate stops >>= fun _ => makeStops propagate stops') :=
  List.forM_append

/-- The stops at a node and everything below it, except the subtree of `exclude`. -/
def subtreeStops (a : Arena) (states : ByteStates) (skip : ByteState → Relatedness → Bool)
    (exclude : Option Nat) (i : Nat) (rel : Relatedness) : List Stop :=
  match a.get? i with
  | none => []
  | some n =>
    let v : Visit := ⟨i, n, n.stateIn states i, rel⟩
    (if rel.isForeign then [.asked v] else []) ++
      if rel.isForeign && skip v.state rel then []
      else .reached v :: (n.children.filter (some · ≠ exclude)).reverse.flatMap fun c =>
        if i < c ∧ c < a.width then subtreeStops a states skip exclude c rel.below else []
termination_by a.width - i

/-- The stops at a row of ancestors, each without the subtree that was climbed out of. -/
def climbStops (a : Arena) (states : ByteStates) (skip : ByteState → Relatedness → Bool)
    (below : Nat) : List Nat → List Stop
  | [] => []
  | i :: above =>
    subtreeStops a states skip (some below) i .strictChild ++ climbStops a states skip i above

/-- The stops of an access through the node `start`, in order. -/
def routeStops (a : Arena) (states : ByteStates) (skip : ByteState → Relatedness → Bool)
    (start : Nat) : List Stop :=
  subtreeStops a states skip none start .this ++
    climbStops a states skip start (a.lineage start).tail

/-! ## 2. The loops make these stops -/

/-- One step of the walk that the stops are made on. -/
theorem subtreeStops_of_get? (hw : a.WellLinked) (hn : a.get? i = some n)
    (exclude : Option Nat) (rel : Relatedness) :
    subtreeStops a states skip exclude i rel =
      (if rel.isForeign then [.asked ⟨i, n, n.stateIn states i, rel⟩] else []) ++
        if rel.isForeign && skip (n.stateIn states i) rel then []
        else .reached ⟨i, n, n.stateIn states i, rel⟩ ::
          (n.children.filter (some · ≠ exclude)).reverse.flatMap fun c =>
            subtreeStops a states skip exclude c rel.below := by
  have hc : ∀ c ∈ (n.children.filter (some · ≠ exclude)).reverse,
      (if i < c ∧ c < a.width then subtreeStops a states skip exclude c rel.below else []) =
        subtreeStops a states skip exclude c rel.below := by
    intro c hc
    have hmem := (List.mem_filter.mp (List.mem_reverse.mp hc)).1
    have hp := (hw.mem_children_iff hn).mp hmem
    exact if_pos ⟨hw.parent_lt hp, hp.lt_width⟩
  rw [subtreeStops]
  simp only [hn, List.flatMap_congr hc]

theorem pushChildren_eq (exclude : Option Nat) (v : Visit) (stack : List (Nat × Relatedness)) :
    pushChildren exclude v stack =
      (v.node.children.filter (some · ≠ exclude)).reverse.map (·, v.position.below) ++ stack := by
  unfold pushChildren
  induction v.node.children.filter (some · ≠ exclude) generalizing stack with
  | nil => rfl
  | cons c cs ih => simp [ih]

@[simp] theorem drain_nil : drain a states skip propagate exclude [] = pure () := by
  rw [drain]

/-- Places that are left one after the other are left together. -/
theorem drain_map_append {cs : List Nat} {rel : Relatedness}
    (h : ∀ c ∈ cs, ∀ stack, drain a states skip propagate exclude ((c, rel) :: stack) =
      (makeStops propagate (subtreeStops a states skip exclude c rel) >>= fun _ =>
        drain a states skip propagate exclude stack)) (stack : List (Nat × Relatedness)) :
    drain a states skip propagate exclude (cs.map (·, rel) ++ stack) =
      (makeStops propagate (cs.flatMap fun c => subtreeStops a states skip exclude c rel) >>=
        fun _ => drain a states skip propagate exclude stack) := by
  induction cs with
  | nil => simp
  | cons c cs ih =>
    have hrest := ih fun d hd => h d (by simp [hd])
    simp [h c (by simp), hrest]

/-- **The inner loop** makes the stops of the subtree on top of its stack, and goes on. -/
theorem drain_cons (hw : a.WellLinked) (hd : a.NoActiveDefault) (hi : i < a.width)
    (rel : Relatedness) (stack : List (Nat × Relatedness)) :
    drain a states skip propagate exclude ((i, rel) :: stack) =
      (makeStops propagate (subtreeStops a states skip exclude i rel) >>= fun _ =>
        drain a states skip propagate exclude stack) := by
  refine hw.descend (P := fun i => ∀ rel stack,
    drain a states skip propagate exclude ((i, rel) :: stack) =
      (makeStops propagate (subtreeStops a states skip exclude i rel) >>= fun _ =>
        drain a states skip propagate exclude stack)) ?_ i hi rel stack
  intro i n hn ih rel stack
  have hchildren : ∀ c ∈ (n.children.filter (some · ≠ exclude)).reverse, ∀ stack,
      drain a states skip propagate exclude ((c, rel.below) :: stack) =
        (makeStops propagate (subtreeStops a states skip exclude c rel.below) >>= fun _ =>
          drain a states skip propagate exclude stack) := by
    intro c hc
    have hmem := (List.mem_filter.mp (List.mem_reverse.mp hc)).1
    exact ih c ((hw.mem_children_iff hn).mp hmem) rel.below
  have hreach : (reaches propagate ⟨i, n, n.stateIn states i, rel⟩ >>= fun _ =>
      drain a states skip propagate exclude
        (pushChildren exclude ⟨i, n, n.stateIn states i, rel⟩ stack)) =
      (makeStops propagate (.reached ⟨i, n, n.stateIn states i, rel⟩ ::
        (n.children.filter (some · ≠ exclude)).reverse.flatMap fun c =>
          subtreeStops a states skip exclude c rel.below) >>= fun _ =>
        drain a states skip propagate exclude stack) := by
    rw [pushChildren_eq, drain_map_append hchildren, makeStops_cons, bind_assoc]
    rfl
  rw [drain, subtreeStops_of_get? hw hn, look_of_get? hd hn]
  simp only [orFault_ok, pure_bind, asks]
  cases hf : rel.isForeign with
  | false => simpa using hreach
  | true =>
    cases hs : skip (n.stateIn states i) rel with
    | false => simp [stopAt, hreach]
    | true => simp [stopAt]

/-- **The outer loop** makes the stops of each ancestor on the way up. -/
theorem climb_eq (hw : a.WellLinked) (hd : a.NoActiveDefault) (hi : i < a.width)
    (exclude : Option Nat) (rel : Relatedness) :
    climb a states skip propagate exclude (some i) rel =
      makeStops propagate (subtreeStops a states skip exclude i rel ++
        climbStops a states skip i (a.lineage i).tail) := by
  refine hw.climb (P := fun i => ∀ exclude rel,
    climb a states skip propagate exclude (some i) rel =
      makeStops propagate (subtreeStops a states skip exclude i rel ++
        climbStops a states skip i (a.lineage i).tail)) ?_ ?_ i hi exclude
    rel
  · intro exclude rel
    obtain ⟨n, hn⟩ := hw.exists_get? hw.width_pos
    have hp : n.parent = none := (hw.parent_eq_none_iff hn).mpr rfl
    have htop : climb a states skip propagate (some root) none .strictChild = pure () := by
      rw [climb]
    rw [climb, lineage_root hw, drain_cons hw hd (show root < a.width from hw.width_pos)]
    simp only [show a.get? root = some n from hn, hp, htop]
    simp [climbStops]
  · intro p i hp ih exclude rel
    obtain ⟨n, hn, hparent⟩ := hp
    rw [climb, drain_cons hw hd (lt_width_of_get? hn), tail_lineage_of_isParent hw ⟨n, hn, hparent⟩]
    simp only [hn, hparent, ih]
    simp [climbStops]

/-- **The traversal makes the stops of its route**, one by one. -/
theorem traverse_eq (hw : a.WellLinked) (hd : a.NoActiveDefault) (hstart : start < a.width) :
    traverse a states skip propagate start =
      makeStops propagate (routeStops a states skip start) :=
  climb_eq hw hd hstart none .this

/-! ## 3. Every traversal ends -/

theorem run_note_bind (s : Stop) (f : Unit → Traversal ε Unit) (made : List Stop) :
    (ExceptT.run (note s >>= f)).run made = (ExceptT.run (f ())).run (made ++ [s]) := rfl

theorem run_orRefusal_error_bind (e : ε) (f : Unit → Traversal ε Unit) (made : List Stop) :
    (ExceptT.run (orRefusal (.error e) >>= f)).run made = some (.error (.inr e), made) := rfl

/-- What is left to do once the access has reached a node that lets it through. -/
theorem run_makeStops_reached {v : Visit} (h : propagate v = .ok ()) (stops made : List Stop) :
    (ExceptT.run (makeStops propagate (.reached v :: stops))).run made =
      (ExceptT.run (makeStops propagate stops)).run (made ++ [.reached v]) := by
  rw [makeStops_cons, stopAt, reaches, bind_assoc, run_note_bind, h, orRefusal_ok, pure_bind]

/-- A node that refuses is the last stop. -/
theorem run_makeStops_refused {v : Visit} {e : ε} (h : propagate v = .error e)
    (stops made : List Stop) :
    (ExceptT.run (makeStops propagate (.reached v :: stops))).run made =
      some (.error (.inr e), made ++ [.reached v]) := by
  rw [makeStops_cons, stopAt, reaches, bind_assoc, run_note_bind, h, run_orRefusal_error_bind]

/-- **Stops end.**  They are made in order, up to the first node that refuses. -/
theorem run_makeStops (propagate : Visit → Except ε Unit) (stops made : List Stop) :
    ∃ result pre, pre <+: stops ∧
      (ExceptT.run (makeStops propagate stops)).run made = some (result, made ++ pre) := by
  induction stops generalizing made with
  | nil => exact ⟨.ok (), [], List.nil_prefix, by simp⟩
  | cons s stops ih =>
    obtain ⟨result, pre, hpre, hrest⟩ := ih (made ++ [s])
    rw [List.append_assoc] at hrest
    have hpre' : s :: pre <+: s :: stops := (List.prefix_cons_inj s).mpr hpre
    cases s with
    | asked v => exact ⟨result, _, hpre', hrest⟩
    | reached v =>
      cases hp : propagate v with
      | ok => exact ⟨result, _, hpre', (run_makeStops_reached hp stops made).trans hrest⟩
      | error e => exact ⟨_, _, ⟨stops, rfl⟩, run_makeStops_refused hp stops made⟩

/-- Where no node refuses, all of them are made. -/
theorem run_makeStops_of_forall_ok (h : ∀ v, propagate v = .ok ()) (stops made : List Stop) :
    (ExceptT.run (makeStops propagate stops)).run made = some (.ok (), made ++ stops) := by
  induction stops generalizing made with
  | nil => simp
  | cons s stops ih =>
    have hrest := ih (made ++ [s])
    rw [List.append_assoc] at hrest
    cases s with
    | asked v => exact hrest
    | reached v => exact (run_makeStops_reached (h v) stops made).trans hrest

/-! ## 4. The nodes that are reached -/

/-- The nodes reached in a subtree are those of its route. -/
theorem reached_subtreeStops (hw : a.WellLinked) (hd : a.NoActiveDefault) (hi : i < a.width)
    (exclude : Option Nat) (rel : Relatedness) :
    ((subtreeStops a states skip exclude i rel).filterMap Stop.reached?).map .ok =
      subtreeRoute a states skip exclude i rel := by
  revert rel
  refine hw.descend (P := fun i => ∀ rel,
    ((subtreeStops a states skip exclude i rel).filterMap Stop.reached?).map .ok =
      subtreeRoute a states skip exclude i rel) ?_ i hi
  intro i n hn ih rel
  have hchildren : ∀ c ∈ (n.children.filter (some · ≠ exclude)).reverse,
      ((subtreeStops a states skip exclude c rel.below).filterMap Stop.reached?).map .ok =
        subtreeRoute a states skip exclude c rel.below := by
    intro c hc
    have hmem := (List.mem_filter.mp (List.mem_reverse.mp hc)).1
    exact ih c ((hw.mem_children_iff hn).mp hmem) rel.below
  have hask : ((if rel.isForeign then [Stop.asked ⟨i, n, n.stateIn states i, rel⟩]
      else []).filterMap Stop.reached?) = [] := by
    split <;> rfl
  rw [subtreeStops_of_get? hw hn, subtreeRoute_of_get? hw hd hn, List.filterMap_append, hask]
  split
  · rfl
  · rw [← List.flatMap_congr hchildren]
    simp [List.filterMap_flatMap, List.map_flatMap]

theorem reached_climbStops (hw : a.WellLinked) (hd : a.NoActiveDefault) {below : Nat}
    {above : List Nat} (h : ∀ j ∈ above, j < a.width) :
    ((climbStops a states skip below above).filterMap Stop.reached?).map .ok =
      climbRoute a states skip below above := by
  induction above generalizing below with
  | nil => rfl
  | cons i above ih =>
    rw [climbStops, climbRoute, List.filterMap_append, List.map_append,
      reached_subtreeStops hw hd (h i (by simp)), ih fun j hj => h j (by simp [hj])]

theorem lt_width_of_mem_tail_lineage (hw : a.WellLinked) (hstart : start < a.width) :
    ∀ j ∈ (a.lineage start).tail, j < a.width :=
  fun _ hj => lt_width_of_mem_lineage hw hstart (List.mem_of_mem_tail hj)

/-- **The nodes reached are those of the route**, in its order. -/
theorem reached_routeStops (hw : a.WellLinked) (hd : a.NoActiveDefault) (hstart : start < a.width) :
    ((routeStops a states skip start).filterMap Stop.reached?).map .ok =
      a.route states skip start := by
  rw [routeStops, route, List.filterMap_append, List.map_append,
    reached_subtreeStops hw hd hstart,
    reached_climbStops hw hd (lt_width_of_mem_tail_lineage hw hstart)]

/-- What is skipped is left out of a walk, and nothing else changes. -/
theorem sublist_subtreeRoute (hw : a.WellLinked) (hd : a.NoActiveDefault) (hi : i < a.width)
    (exclude : Option Nat) (rel : Relatedness) :
    (subtreeRoute a states skip exclude i rel).Sublist
      (subtreeRoute a states (fun _ _ => false) exclude i rel) := by
  revert rel
  refine hw.descend (P := fun i => ∀ rel, (subtreeRoute a states skip exclude i rel).Sublist
    (subtreeRoute a states (fun _ _ => false) exclude i rel)) ?_ i hi
  intro i n hn ih rel
  rw [subtreeRoute_of_get? hw hd hn, subtreeRoute_of_get? hw hd hn]
  simp only [Bool.and_false, Bool.false_eq_true, ↓reduceIte]
  split
  · exact List.nil_sublist _
  · refine .cons_cons _ (List.Sublist.flatMap_right _ fun c hc => ?_)
    have hmem := (List.mem_filter.mp (List.mem_reverse.mp hc)).1
    exact ih c ((hw.mem_children_iff hn).mp hmem) rel.below

theorem sublist_climbRoute (hw : a.WellLinked) (hd : a.NoActiveDefault) {below : Nat}
    {above : List Nat} (h : ∀ j ∈ above, j < a.width) :
    (climbRoute a states skip below above).Sublist
      (climbRoute a states (fun _ _ => false) below above) := by
  induction above generalizing below with
  | nil => exact .refl _
  | cons i above ih =>
    exact (sublist_subtreeRoute hw hd (h i (by simp)) _ _).append
      (ih fun j hj => h j (by simp [hj]))

theorem sublist_route (hw : a.WellLinked) (hd : a.NoActiveDefault) (hstart : start < a.width) :
    (a.route states skip start).Sublist (a.route states (fun _ _ => false) start) :=
  (sublist_subtreeRoute hw hd hstart none .this).append
    (sublist_climbRoute hw hd (lt_width_of_mem_tail_lineage hw hstart))

/-- **The nodes are reached in the order of the visits**, with some of them left out. -/
theorem sublist_visitOrder (hw : a.WellLinked) (hd : a.NoActiveDefault) (hstart : start < a.width) :
    (((routeStops a states skip start).filterMap Stop.reached?).map Visit.index).Sublist
      (a.visitOrder start) := by
  have hsub : ((a.route states skip start).map (Except.map Visit.index)).Sublist
      ((a.route states (fun _ _ => false) start).map (Except.map Visit.index)) :=
    (sublist_route hw hd hstart).map _
  rw [← reached_routeStops hw hd hstart, map_index_route hw hd hstart states, List.map_map,
    List.sublist_map_iff] at hsub
  obtain ⟨is, his, heq⟩ := hsub
  have hok : (((routeStops a states skip start).filterMap Stop.reached?).map Visit.index).map
      (Except.ok (ε := Fault)) = is.map .ok := by
    rw [← heq, List.map_map]
    rfl
  rwa [List.map_injective_iff.mpr (fun _ _ => Except.ok.inj) hok]

/-- Without skipping, none is left out. -/
theorem reached_eq_visitOrder (hw : a.WellLinked) (hd : a.NoActiveDefault)
    (hstart : start < a.width) :
    ((routeStops a states (fun _ _ => false) start).filterMap Stop.reached?).map Visit.index =
      a.visitOrder start := by
  have h := map_index_route hw hd hstart states
  rw [← reached_routeStops hw hd hstart, List.map_map] at h
  have hok : (((routeStops a states (fun _ _ => false) start).filterMap Stop.reached?).map
      Visit.index).map (Except.ok (ε := Fault)) = (a.visitOrder start).map .ok := by
    rw [← h, List.map_map]
    rfl
  exact List.map_injective_iff.mpr (fun _ _ => Except.ok.inj) hok

/-! ## 5. The nodes that are asked -/

/-- Only foreign nodes of a subtree are asked, and all stops are at nodes of it. -/
theorem stop_subtreeStops (hw : a.WellLinked) (hd : a.NoActiveDefault) (hi : i < a.width)
    {exclude : Option Nat} {rel : Relatedness} {s : Stop}
    (hs : s ∈ subtreeStops a states skip exclude i rel) :
    .ok s.visit ∈ subtreeRoute a states (fun _ _ => false) exclude i rel ∧
      (s = .asked s.visit → s.visit.position.isForeign = true) := by
  refine hw.descend (P := fun i => ∀ rel, s ∈ subtreeStops a states skip exclude i rel →
    .ok s.visit ∈ subtreeRoute a states (fun _ _ => false) exclude i rel ∧
      (s = .asked s.visit → s.visit.position.isForeign = true)) ?_ i hi rel hs
  intro i n hn ih rel hs
  rw [subtreeRoute_of_get? hw hd hn]
  rw [subtreeStops_of_get? hw hn, List.mem_append] at hs
  simp only [Bool.and_false, Bool.false_eq_true, ↓reduceIte]
  rcases hs with hs | hs
  · split at hs
    · next hf =>
      obtain rfl := List.mem_singleton.mp hs
      exact ⟨List.mem_cons_self, fun _ => hf⟩
    · cases hs
  · split at hs
    · cases hs
    · rcases List.mem_cons.mp hs with rfl | hs
      · exact ⟨List.mem_cons_self, nofun⟩
      · obtain ⟨c, hc, hs⟩ := List.mem_flatMap.mp hs
        have hmem := (List.mem_filter.mp (List.mem_reverse.mp hc)).1
        obtain ⟨hvisit, hf⟩ := ih c ((hw.mem_children_iff hn).mp hmem) rel.below hs
        exact ⟨List.mem_cons_of_mem _ (List.mem_flatMap.mpr ⟨c, hc, hvisit⟩), hf⟩

theorem stop_climbStops (hw : a.WellLinked) (hd : a.NoActiveDefault) {below : Nat}
    {above : List Nat} (h : ∀ j ∈ above, j < a.width) {s : Stop}
    (hs : s ∈ climbStops a states skip below above) :
    .ok s.visit ∈ climbRoute a states (fun _ _ => false) below above ∧
      (s = .asked s.visit → s.visit.position.isForeign = true) := by
  induction above generalizing below with
  | nil => cases hs
  | cons i above ih =>
    rcases List.mem_append.mp hs with hs | hs
    · obtain ⟨hvisit, hf⟩ := stop_subtreeStops hw hd (h i (by simp)) hs
      exact ⟨List.mem_append_left _ hvisit, hf⟩
    · obtain ⟨hvisit, hf⟩ := ih (fun j hj => h j (by simp [hj])) hs
      exact ⟨List.mem_append_right _ hvisit, hf⟩

/-- A visit that shows a node as an access through `start` finds it. -/
def Shows (a : Arena) (states : ByteStates) (start : Nat) (v : Visit) : Prop :=
  a.get? v.index = some v.node ∧ v.state = v.node.stateIn states v.index ∧
    v.position = a.relatedness start v.index

theorem shows_iff {v : Visit} : a.Shows states start v ↔
    ∃ j n, a.get? j = some n ∧ v = ⟨j, n, n.stateIn states j, a.relatedness start j⟩ := by
  constructor
  · rintro ⟨hn, hs, hp⟩
    refine ⟨v.index, v.node, hn, ?_⟩
    rw [← hs, ← hp]
  · rintro ⟨j, n, hn, rfl⟩
    exact ⟨hn, rfl, rfl⟩

/-- Whatever is done at a node is done with what the access finds there. -/
theorem stop_routeStops (hw : a.WellLinked) (hd : a.NoActiveDefault) (hstart : start < a.width)
    {s : Stop} (hs : s ∈ routeStops a states skip start) :
    a.Shows states start s.visit ∧
      (s = .asked s.visit → s.visit.position.isForeign = true) := by
  have hvisit : .ok s.visit ∈ a.route states (fun _ _ => false) start ∧
      (s = .asked s.visit → s.visit.position.isForeign = true) := by
    rcases List.mem_append.mp hs with hs | hs
    · obtain ⟨hvisit, hf⟩ := stop_subtreeStops hw hd hstart hs
      exact ⟨List.mem_append_left _ hvisit, hf⟩
    · obtain ⟨hvisit, hf⟩ :=
        stop_climbStops hw hd (lt_width_of_mem_tail_lineage hw hstart) hs
      exact ⟨List.mem_append_right _ hvisit, hf⟩
  obtain ⟨j, n, hn, heq⟩ := (mem_route_full_iff hw hd hstart).mp hvisit.1
  exact ⟨shows_iff.mpr ⟨j, n, hn, Except.ok.inj heq⟩, hvisit.2⟩

/-- No node on the way from the accessed one to the root is asked. -/
theorem asked_routeStops (hw : a.WellLinked) (hd : a.NoActiveDefault) (hstart : start < a.width)
    {v : Visit} (hv : .asked v ∈ routeStops a states skip start) :
    a.Shows states start v ∧ v.index ∉ a.lineage start := by
  obtain ⟨hshows, hf⟩ := stop_routeStops hw hd hstart hv
  have hposition : v.position = a.relatedness start v.index := hshows.2.2
  have hforeign : v.position.isForeign = true := hf rfl
  rw [hposition, isForeign_relatedness] at hforeign
  exact ⟨hshows, of_decide_eq_true hforeign⟩

/-- A node is reached if no node from it up to the root is a foreign one that is to be skipped. -/
theorem reached_mem_routeStops_iff (hw : a.WellLinked) (hd : a.NoActiveDefault)
    (hstart : start < a.width) {v : Visit} :
    .reached v ∈ routeStops a states skip start ↔
      a.Shows states start v ∧ ∀ m ∈ a.lineage v.index, a.Unskipped states skip start m := by
  have hroute : .reached v ∈ routeStops a states skip start ↔
      .ok v ∈ a.route states skip start := by
    rw [← reached_routeStops hw hd hstart, List.mem_map_of_injective fun _ _ => Except.ok.inj,
      Stop.mem_filterMap_reached?_iff]
  rw [hroute, mem_route_iff hw hd hstart]
  constructor
  · rintro ⟨j, n, hn, hskip, heq⟩
    obtain rfl := Except.ok.inj heq
    exact ⟨⟨hn, rfl, rfl⟩, hskip⟩
  · rintro ⟨hshows, hskip⟩
    obtain ⟨j, n, hn, rfl⟩ := shows_iff.mp hshows
    exact ⟨j, n, hn, hskip, rfl⟩

/-! ## 6. The traversal of a tree -/

/-- What a traversal from `start` has done when it is through. -/
structure Traversed (a : Arena) (states : ByteStates) (skip : ByteState → Relatedness → Bool)
    (start : Nat) (stops : List Stop) : Prop where
  /-- The nodes reached are those that the access is computed on. -/
  route_eq : (stops.filterMap Stop.reached?).map .ok = a.route states skip start
  /-- No node is reached twice. -/
  nodup : ((stops.filterMap Stop.reached?).map Visit.index).Nodup
  /-- A node is reached, as the access finds it, unless a foreign node at or above it is to be
  skipped. -/
  reached_iff : ∀ v, .reached v ∈ stops ↔
    a.Shows states start v ∧ ∀ m ∈ a.lineage v.index, a.Unskipped states skip start m
  /-- Only foreign nodes are asked whether they are to be skipped. -/
  asked : ∀ v, .asked v ∈ stops → a.Shows states start v ∧ v.index ∉ a.lineage start
  /-- No node from `start` up to the root is left out. -/
  lineage_reached : ∀ i ∈ a.lineage start, ∃ v, .reached v ∈ stops ∧ v.index = i
  /-- If nothing is to be skipped, every node is reached. -/
  all_reached : (∀ s rel, skip s rel = false) →
    ((stops.filterMap Stop.reached?).map Visit.index).Perm (List.range a.width)

theorem traversed_routeStops (hw : a.WellLinked) (hd : a.NoActiveDefault)
    (hstart : start < a.width) :
    a.Traversed states skip start (routeStops a states skip start) where
  route_eq := reached_routeStops hw hd hstart
  nodup := ((perm_visitOrder hw hstart).nodup_iff.mpr List.nodup_range).sublist
    (sublist_visitOrder hw hd hstart)
  reached_iff _ := reached_mem_routeStops_iff hw hd hstart
  asked _ := asked_routeStops hw hd hstart
  lineage_reached i hi := by
    have hiw := lt_width_of_mem_lineage hw hstart hi
    obtain ⟨n, hn⟩ := hw.exists_get? hiw
    refine ⟨⟨i, n, n.stateIn states i, a.relatedness start i⟩, ?_, rfl⟩
    rw [reached_mem_routeStops_iff hw hd hstart]
    refine ⟨⟨hn, rfl, rfl⟩, fun m hm => unskipped_of_mem_lineage ?_⟩
    exact mem_lineage_trans hw hstart hm hi
  all_reached hskip := by
    obtain rfl : skip = fun _ _ => false := funext₂ hskip
    rw [reached_eq_visitOrder hw hd hstart]
    exact perm_visitOrder hw hstart

end Arena

namespace Tree

variable {ε : Type}

/-- **The traversal is complete.**  Take any tree that operations can make without a node that
starts out as active, any node of it, and any states at a byte.  The traversal from the node ends,
whatever the nodes answer.  If none refuses, each node that no skipped foreign node lies above or at
has been reached once, and no other; each in its state and with the accessed node where it lies; and
only foreign nodes have been asked whether they are to be skipped. -/
theorem traversal_complete (root : Tag) (size : Nat) (settings : Settings) {actions : List Action}
    (hactions : ∀ action ∈ actions, action.StartsInactive) (states : ByteStates)
    (skip : ByteState → Relatedness → Bool) (propagate : Visit → Except ε Unit) (start : Nat)
    (hstart : start < ((new root size settings).run actions).arena.width) :
    let a := ((new root size settings).run actions).arena
    (∃ result stops, (a.traverse states skip propagate start).outcome = some (result, stops)) ∧
      ((∀ v, propagate v = .ok ()) →
        ∃ stops, (a.traverse states skip propagate start).outcome = some (.ok (), stops) ∧
          a.Traversed states skip start stops) := by
  intro a
  have hnew := wellFormed_new root size settings
  have hw : a.WellLinked := (wellFormed_run hnew actions).wellLinked
  have hd : a.NoActiveDefault :=
    noActiveDefault_run hnew (noActiveDefault_new root size settings) hactions
  have htraverse : a.traverse states skip propagate start =
      Arena.makeStops propagate (a.routeStops states skip start) :=
    Arena.traverse_eq hw hd hstart
  constructor
  · obtain ⟨result, pre, -, hrun⟩ :=
      Arena.run_makeStops propagate (a.routeStops states skip start) []
    exact ⟨result, pre, by rw [htraverse]; exact hrun⟩
  · intro h
    refine ⟨a.routeStops states skip start, ?_, Arena.traversed_routeStops hw hd hstart⟩
    rw [htraverse]
    exact Arena.run_makeStops_of_forall_ok h (a.routeStops states skip start) []

/-- Two borrows are taken from the root, and one from each of them.  A traversal from the first that
skips what lies on the other side reaches the borrow, the one below it, and the root. -/
theorem traversal_of_cousins :
    ∃ (actions : List Action) (skip : ByteState → Relatedness → Bool) (stops : List Stop),
      (∀ action ∈ actions, action.StartsInactive) ∧
      let a := ((new ⟨1⟩ 4 {}).run actions).arena
      a.width = 5 ∧
        (a.traverse ⟨[]⟩ skip (fun _ => (.ok () : Except Unit Unit)) 1).outcome =
          some (.ok (), stops) ∧
        a.Traversed ⟨[]⟩ skip 1 stops ∧
        (stops.filterMap Stop.reached?).map (fun v => (v.index, v.position)) =
          [(1, .this), (3, .ancestor), (0, .strictChild)] := by
  let ctx : Context := ⟨{}, .empty, ⟨1⟩⟩
  let actions : List Action := [.insertChild ctx ⟨⟨1⟩, ⟨2⟩, .reserved, true, ⟨0, 4⟩⟩,
    .insertChild ctx ⟨⟨1⟩, ⟨3⟩, .reserved, true, ⟨0, 4⟩⟩,
    .insertChild ctx ⟨⟨2⟩, ⟨4⟩, .frozen, false, ⟨0, 4⟩⟩,
    .insertChild ctx ⟨⟨3⟩, ⟨5⟩, .frozen, false, ⟨0, 4⟩⟩]
  have hactions : ∀ action ∈ actions, action.StartsInactive := by
    simp [actions, Action.StartsInactive]
  let skip : ByteState → Relatedness → Bool := fun _ rel => rel = .cousin
  let accepts : Visit → Except Unit Unit := fun _ => .ok ()
  have hwidth : ((new ⟨1⟩ 4 {}).run actions).arena.width = 5 := by decide +kernel
  have hstart : 1 < ((new ⟨1⟩ 4 {}).run actions).arena.width := by
    rw [hwidth]
    decide
  obtain ⟨stops, hstops, htraversed⟩ :=
    (traversal_complete ⟨1⟩ 4 {} hactions ⟨[]⟩ skip accepts 1 hstart).2 fun _ => rfl
  have hnew := wellFormed_new ⟨1⟩ 4 {}
  have hinactive : ((new ⟨1⟩ 4 {}).run actions).arena.NoActiveDefault :=
    noActiveDefault_run hnew (noActiveDefault_new ⟨1⟩ 4 {}) hactions
  -- the traversal cannot be evaluated, but its stops are those of the route, which can be
  have hroute : stops = ((new ⟨1⟩ 4 {}).run actions).arena.routeStops ⟨[]⟩ skip 1 := by
    have hmade : (Arena.makeStops accepts
        (((new ⟨1⟩ 4 {}).run actions).arena.routeStops ⟨[]⟩ skip 1)).outcome =
          some (.ok (), ((new ⟨1⟩ 4 {}).run actions).arena.routeStops ⟨[]⟩ skip 1) :=
      Arena.run_makeStops_of_forall_ok (fun _ => rfl) _ []
    rw [Arena.traverse_eq (wellFormed_run hnew actions).wellLinked hinactive hstart, hmade]
      at hstops
    cases hstops
    rfl
  have h : (stops.filterMap Stop.reached?).map (fun v => (v.index, v.position)) =
      [(1, .this), (3, .ancestor), (0, .strictChild)] := by
    rw [hroute]
    decide +kernel
  exact ⟨actions, skip, stops, hactions, hwidth, hstops, htraversed, h⟩

end Tree

end TreeBorrows
