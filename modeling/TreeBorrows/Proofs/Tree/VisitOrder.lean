/-
# The order in which an access comes by the nodes

Which node is blamed for a refused access depends on the order of the visits.  `Arena.visitOrder`
writes that order down from the parents of the nodes and their ages alone: first everything at or
below the accessed node, then each ancestor on the way up, followed by the branches of it that the
way up did not come from.  A branch is walked from its top down, and of the children of a node the
youngest comes first with all that is below it.

* `perm_visitOrder`: every node has its place in the order, and only one.
* `map_index_route`: the route of an access without skipping follows the order, whatever the states
  of the nodes are.
* `exists_first_of_requests_eq_error`: an access that fails at a byte fails at the first node, in
  this order, that refuses it there.
-/
import Mathlib.Data.List.Flatten
import Mathlib.Data.List.Sort
import TreeBorrows.Proofs.Tree.FirstConflict

namespace TreeBorrows

namespace Arena

variable {a : Arena} {states : ByteStates} {i j start : Nat}

/-! ## 1. The order -/

/-- The children of a node, youngest first. -/
def youngestFirst (a : Arena) (i : Nat) : List Nat :=
  ((List.range a.width).filter fun c => (a.get? c).bind Node.parent = some i).reverse

/-- A node and everything below it, from the top down and with the younger branches first. -/
def preorder (a : Arena) (i : Nat) : List Nat :=
  i :: (a.youngestFirst i).flatMap fun c => if i < c ∧ c < a.width then preorder a c else []
termination_by a.width - i

/-- Some ancestors, each followed by its branches but for the one that was climbed out of. -/
def climbOrder (a : Arena) (below : Nat) : List Nat → List Nat
  | [] => []
  | i :: above =>
    i :: ((a.youngestFirst i).filter (· ≠ below)).flatMap a.preorder ++ climbOrder a i above

/-- The order in which an access through the node `start` comes by the nodes. -/
def visitOrder (a : Arena) (start : Nat) : List Nat :=
  a.preorder start ++ a.climbOrder start (a.lineage start).tail

theorem mem_youngestFirst_iff {c : Nat} : c ∈ a.youngestFirst i ↔ a.IsParent i c := by
  rw [youngestFirst, List.mem_reverse, List.mem_filter, List.mem_range, decide_eq_true_iff,
    ← isParent_iff]
  exact and_iff_right_of_imp IsParent.lt_width

theorem nodup_youngestFirst (a : Arena) (i : Nat) : (a.youngestFirst i).Nodup :=
  List.nodup_reverse.mpr (List.nodup_range.filter _)

/-- A node lists its children in the order of their age. -/
theorem WellLinked.reverse_children (hw : a.WellLinked) {n : Node} (hn : a.get? i = some n) :
    n.children.reverse = a.youngestFirst i := by
  refine congrArg List.reverse ((hw.sorted_children hn).eq_of_mem_iff
    (List.pairwise_lt_range.filter _) fun c => ?_)
  rw [hw.mem_children_iff hn, ← mem_youngestFirst_iff, youngestFirst, List.mem_reverse]

/-- Where parents are older, the walk through a branch goes on at every child. -/
theorem preorder_eq (hw : a.WellLinked) (i : Nat) :
    a.preorder i = i :: (a.youngestFirst i).flatMap a.preorder := by
  rw [preorder]
  refine congrArg (i :: ·) (List.flatMap_congr fun c hc => ?_)
  have hp := mem_youngestFirst_iff.mp hc
  exact if_pos ⟨hw.parent_lt hp, hp.lt_width⟩

theorem tail_lineage_of_isParent (hw : a.WellLinked) {p : Nat} (hp : a.IsParent p i) :
    (a.lineage i).tail = p :: (a.lineage p).tail := by
  rw [lineage_of_isParent hw hp, lineage]
  rfl

/-! ## 2. Every node once -/

theorem mem_preorder_iff (hw : a.WellLinked) (hi : i < a.width) :
    j ∈ a.preorder i ↔ j < a.width ∧ i ∈ a.lineage j := by
  refine hw.descend (P := fun i => j ∈ a.preorder i ↔ j < a.width ∧ i ∈ a.lineage j) ?_ i hi
  intro i n hn ih
  rw [preorder_eq hw]
  simp only [List.mem_cons, List.mem_flatMap, mem_youngestFirst_iff]
  constructor
  · rintro (rfl | ⟨c, hp, hj⟩)
    · exact ⟨lt_width_of_get? hn, mem_lineage_self a j⟩
    · obtain ⟨hjw, hcj⟩ := (ih c hp).mp hj
      exact ⟨hjw, hp.mem_lineage hw hjw hcj⟩
  · rintro ⟨hjw, hij⟩
    by_cases hne : i = j
    · exact .inl hne.symm
    · obtain ⟨c, hp, hcj⟩ := exists_child_mem_lineage hw hjw hij hne
      exact .inr ⟨c, hp, (ih c hp).mpr ⟨hjw, hcj⟩⟩

/-- The branches of two children have no node in common. -/
theorem disjoint_preorder (hw : a.WellLinked) {c d : Nat} (hc : a.IsParent i c)
    (hd : a.IsParent i d) (hne : c ≠ d) : List.Disjoint (a.preorder c) (a.preorder d) := by
  intro j hcj hdj
  obtain ⟨hj, hcj⟩ := (mem_preorder_iff hw hc.lt_width).mp hcj
  obtain ⟨-, hdj⟩ := (mem_preorder_iff hw hd.lt_width).mp hdj
  rcases mem_lineage_or_mem_lineage hw hj hcj hdj with h | h
  · exact ((mem_lineage_of_isParent hw hd).mp h).elim hne (hc.not_mem_lineage hw)
  · exact ((mem_lineage_of_isParent hw hc).mp h).elim hne.symm (hd.not_mem_lineage hw)

theorem nodup_flatMap_preorder (hw : a.WellLinked) {cs : List Nat} (hcs : cs.Nodup)
    (hp : ∀ c ∈ cs, a.IsParent i c) (hnodup : ∀ c ∈ cs, (a.preorder c).Nodup) :
    (cs.flatMap a.preorder).Nodup := by
  refine List.nodup_flatMap.mpr ⟨hnodup, hcs.imp_of_mem fun hc hd hne => ?_⟩
  exact disjoint_preorder hw (hp _ hc) (hp _ hd) hne

theorem nodup_preorder (hw : a.WellLinked) (hi : i < a.width) : (a.preorder i).Nodup := by
  refine hw.descend (P := fun i => (a.preorder i).Nodup) (fun i n hn ih => ?_) i hi
  have hp : ∀ c ∈ a.youngestFirst i, a.IsParent i c := fun c hc => mem_youngestFirst_iff.mp hc
  rw [preorder_eq hw, List.nodup_cons]
  refine ⟨fun h => ?_, ?_⟩
  · obtain ⟨c, hc, hic⟩ := List.mem_flatMap.mp h
    exact (hp c hc).not_mem_lineage hw ((mem_preorder_iff hw (hp c hc).lt_width).mp hic).2
  · exact nodup_flatMap_preorder hw (a.nodup_youngestFirst i) hp fun c hc => ih c (hp c hc)

/-- **The climb** comes by everything that is not below the node it starts from. -/
theorem mem_climbOrder_iff (hw : a.WellLinked) (hstart : start < a.width) :
    j ∈ a.climbOrder start (a.lineage start).tail ↔ j < a.width ∧ start ∉ a.lineage j := by
  refine hw.climb (P := fun start => j ∈ a.climbOrder start (a.lineage start).tail ↔
    j < a.width ∧ start ∉ a.lineage j) ?_ ?_ start hstart
  · rw [lineage_root hw]
    exact iff_of_false List.not_mem_nil fun h => h.2 (root_mem_lineage hw h.1)
  · intro p start hp ih
    have hpw : p < a.width := Nat.lt_trans (hw.parent_lt hp) hp.lt_width
    simp only [tail_lineage_of_isParent hw hp, climbOrder, List.mem_append, List.mem_cons, ih,
      List.mem_flatMap, List.mem_filter, mem_youngestFirst_iff, decide_eq_true_iff]
    constructor
    · rintro ((rfl | ⟨c, ⟨hc, hne⟩, hj⟩) | ⟨hj, hpj⟩)
      · exact ⟨hpw, hp.not_mem_lineage hw⟩
      · obtain ⟨hjw, -⟩ := (mem_preorder_iff hw hc.lt_width).mp hj
        refine ⟨hjw, fun hs => disjoint_preorder hw hc hp hne hj ?_⟩
        exact (mem_preorder_iff hw hp.lt_width).mpr ⟨hjw, hs⟩
      · exact ⟨hj, fun hs => hpj (hp.mem_lineage hw hj hs)⟩
    · rintro ⟨hj, hs⟩
      by_cases hpj : p ∈ a.lineage j
      · refine .inl ?_
        by_cases hne : p = j
        · exact .inl hne.symm
        · obtain ⟨c, hc, hcj⟩ := exists_child_mem_lineage hw hj hpj hne
          refine .inr ⟨c, ⟨hc, fun heq => hs (heq ▸ hcj)⟩, ?_⟩
          exact (mem_preorder_iff hw hc.lt_width).mpr ⟨hj, hcj⟩
      · exact .inr ⟨hj, hpj⟩

theorem nodup_climbOrder (hw : a.WellLinked) (hstart : start < a.width) :
    (a.climbOrder start (a.lineage start).tail).Nodup := by
  refine hw.climb (P := fun start => (a.climbOrder start (a.lineage start).tail).Nodup) ?_ ?_
    start hstart
  · rw [lineage_root hw]
    exact .nil
  · intro p start hp ih
    have hpw : p < a.width := Nat.lt_trans (hw.parent_lt hp) hp.lt_width
    -- what hangs off an ancestor is a part of everything that is below it
    have hsub : (p :: ((a.youngestFirst p).filter (· ≠ start)).flatMap a.preorder).Sublist
        (a.preorder p) := by
      rw [preorder_eq hw]
      exact (List.filter_sublist.flatMap a.preorder).cons_cons p
    rw [tail_lineage_of_isParent hw hp, climbOrder, List.nodup_append']
    refine ⟨(nodup_preorder hw hpw).sublist hsub, ih, fun j hj hj' => ?_⟩
    exact ((mem_climbOrder_iff hw hpw).mp hj').2
      ((mem_preorder_iff hw hpw).mp (hsub.subset hj)).2

/-- **The order has every node in it, and each of them once.** -/
theorem perm_visitOrder (hw : a.WellLinked) (hstart : start < a.width) :
    (a.visitOrder start).Perm (List.range a.width) := by
  have hmem : ∀ j, j ∈ a.visitOrder start ↔ j < a.width := by
    intro j
    rw [visitOrder, List.mem_append, mem_preorder_iff hw hstart, mem_climbOrder_iff hw hstart,
      ← and_or_left]
    exact and_iff_left (em _)
  refine (List.perm_ext_iff_of_nodup ?_ List.nodup_range).mpr fun j => ?_
  · refine List.nodup_append'.mpr ⟨nodup_preorder hw hstart, nodup_climbOrder hw hstart, ?_⟩
    intro j hj hj'
    exact ((mem_climbOrder_iff hw hstart).mp hj').2 ((mem_preorder_iff hw hstart).mp hj).2
  · rw [hmem, List.mem_range]

/-! ## 3. The route follows the order -/

theorem map_index_subtreeRoute (hw : a.WellLinked) (hd : a.NoActiveDefault) (hi : i < a.width)
    {exclude : Option Nat} (hex : ∀ c p, exclude = some c → a.IsParent p c → p < i)
    (rel : Relatedness) :
    (a.subtreeRoute states (fun _ _ => false) exclude i rel).map (Except.map Visit.index) =
      (a.preorder i).map .ok := by
  revert hex rel
  refine hw.descend (P := fun i => (∀ c p, exclude = some c → a.IsParent p c → p < i) → ∀ rel,
    (a.subtreeRoute states (fun _ _ => false) exclude i rel).map (Except.map Visit.index) =
      (a.preorder i).map .ok) (fun i n hn ih hex rel => ?_) i hi
  -- the branch that is left out hangs off a node above this one
  have hall : n.children.filter (some · ≠ exclude) = n.children := by
    refine List.filter_eq_self.mpr fun c hc => decide_eq_true fun heq => ?_
    exact Nat.lt_irrefl i (hex c i heq.symm ((hw.mem_children_iff hn).mp hc))
  rw [subtreeRoute_of_get? hw hd hn, preorder_eq hw, hall, hw.reverse_children hn]
  simp only [Bool.and_false, Bool.false_eq_true, ↓reduceIte, List.map_cons, List.map_flatMap]
  refine congrArg₂ List.cons rfl (List.flatMap_congr fun c hc => ?_)
  have hp := mem_youngestFirst_iff.mp hc
  exact ih c hp (fun d p hd hpd => Nat.lt_trans (hex d p hd hpd) (hw.parent_lt hp)) rel.below

theorem map_index_climbRoute (hw : a.WellLinked) (hd : a.NoActiveDefault)
    (hstart : start < a.width) :
    (a.climbRoute states (fun _ _ => false) start (a.lineage start).tail).map
        (Except.map Visit.index) =
      (a.climbOrder start (a.lineage start).tail).map .ok := by
  refine hw.climb (P := fun start =>
    (a.climbRoute states (fun _ _ => false) start (a.lineage start).tail).map
        (Except.map Visit.index) =
      (a.climbOrder start (a.lineage start).tail).map .ok) ?_ ?_ start hstart
  · rw [lineage_root hw]
    rfl
  · intro p start hp ih
    obtain ⟨n, hn⟩ := hw.exists_get? (Nat.lt_trans (hw.parent_lt hp) hp.lt_width)
    rw [tail_lineage_of_isParent hw hp, climbRoute, climbOrder, List.map_append, List.map_append,
      ih, subtreeRoute_of_get? hw hd hn, ← List.filter_reverse, hw.reverse_children hn]
    simp only [Bool.and_false, Bool.false_eq_true, ↓reduceIte, List.map_cons, List.map_flatMap,
      ne_eq, Option.some.injEq]
    refine congrArg (· ++ _) (congrArg₂ List.cons rfl (List.flatMap_congr fun c hc => ?_))
    have hc := mem_youngestFirst_iff.mp (List.mem_filter.mp hc).1
    refine map_index_subtreeRoute hw hd hc.lt_width (fun d q hd hq => ?_) _
    obtain rfl := Option.some.inj hd
    exact hp.unique hq ▸ hw.parent_lt hc

/-- **The nodes are visited in order**, whatever their states are. -/
theorem map_index_route (hw : a.WellLinked) (hd : a.NoActiveDefault) (hstart : start < a.width)
    (states : ByteStates) :
    (a.route states (fun _ _ => false) start).map (Except.map Visit.index) =
      (a.visitOrder start).map .ok := by
  have hex : ∀ c p, none = some c → a.IsParent p c → p < start := nofun
  rw [route, visitOrder, List.map_append, List.map_append, map_index_climbRoute hw hd hstart,
    map_index_subtreeRoute hw hd hstart hex]

/-! ## 4. The first node to refuse -/

/-- **An access that fails at a byte fails at the first node that refuses it**, and reports that
node, its permission and its reason. -/
theorem exists_first_of_requests_eq_error {ctx : Context} {acc : Access} {accessed : Label}
    {o : Nat} {f : Failure} (hw : a.WellLinked) (hd : a.NoActiveDefault) (hstart : start < a.width)
    (hf : a.requests ctx acc start accessed states o = .error f) :
    ∃ pre i post n c, a.visitOrder start = pre ++ i :: post ∧ a.get? i = some n ∧
      (n.stateIn states i).access acc.kind (a.relatedness start i) (ctx.isProtected n.tag) =
        .error c ∧
      f = .error (.aliasing (Clash.violation ⟨c, n.label, (n.stateIn states i).permission⟩ ctx
        accessed acc.cause o)) ∧
      ∀ j ∈ pre, ∀ m, a.get? j = some m → ∃ r,
        (m.stateIn states j).access acc.kind (a.relatedness start j) (ctx.isProtected m.tag) =
          .ok r := by
  obtain ⟨pre, x, post, hroute, hpre, hx⟩ := exists_first_of_collect_eq_error hf
  have hshow : ∀ y ∈ a.route states (fun _ _ => false) start, ∃ j m, a.get? j = some m ∧
      y = .ok ⟨j, m, m.stateIn states j, a.relatedness start j⟩ :=
    fun y hy => (mem_route_full_iff hw hd hstart).mp hy
  have horder := map_index_route hw hd hstart states
  rw [hroute] at hshow horder
  obtain ⟨i, n, hn, rfl⟩ := hshow x (by simp)
  obtain ⟨c, hc, rfl⟩ := Tree.planVisit_eq_error hx
  rw [List.map_append, List.map_cons] at horder
  obtain ⟨is, rest, hsplit, his, hrest⟩ := List.map_eq_append_iff.mp horder.symm
  obtain ⟨i', js, rfl, hi', -⟩ := List.map_eq_cons_iff.mp hrest
  obtain rfl : i' = i := Except.ok.inj hi'
  refine ⟨is, i', js, n, c, hsplit, hn, hc, rfl, fun j hj m hm => ?_⟩
  obtain ⟨y, hy, hyj⟩ := List.mem_map.mp (his ▸ List.mem_map_of_mem hj :
    (.ok j : Except Fault Nat) ∈ pre.map (Except.map Visit.index))
  obtain ⟨j', m', hm', rfl⟩ := hshow y (List.mem_append_left _ hy)
  obtain rfl : j' = j := Except.ok.inj hyj
  obtain rfl := Option.some.inj (hm.symm.trans hm')
  obtain ⟨u?, hu⟩ := hpre _ hy
  obtain ⟨s, tr, hs, -⟩ := Tree.planVisit_eq_ok_iff.mp hu
  exact ⟨_, hs⟩

end Arena

end TreeBorrows
