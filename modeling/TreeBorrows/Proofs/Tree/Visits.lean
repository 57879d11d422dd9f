/-
# Which nodes an access visits, and how it sees them

The route of an access is computed by a climb over the ancestors of the accessed node, with a
walk through a subtree at each of them.  This module says what comes out, without either: a node
is visited exactly when no node on the way from it up to the root is a skipped foreign one, and
the visit shows the node, its state at the byte, and its `relatedness` to the accessed node
(`mem_route_iff`).  In particular, without skipping every node is visited
(`mem_route_full_iff`), and no visit ever ends in a fault.

* `mem_subtreeRoute_iff` is the walk through one subtree, by descending;
* `mem_climbRoute_iff` is the climb, by climbing.
-/
import TreeBorrows.Tree.Route
import TreeBorrows.Proofs.Tree.Ancestry

namespace TreeBorrows

@[simp] theorem Relatedness.below_below (rel : Relatedness) : rel.below.below = rel.below := by
  cases rel <;> rfl

/-! ## 1. The state of a node at a byte -/

/-- The state of the node with index `i` at a byte for which these states are kept. -/
def Node.stateIn (n : Node) (states : ByteStates) (i : Nat) : ByteState :=
  (states.get? i).getD ⟨n.defaultPermission, false, n.defaultAbsorbed⟩

namespace Arena

/-- No node starts out as active where it has no state.  Only then does every node have a state
at every byte. -/
def NoActiveDefault (a : Arena) : Prop :=
  ∀ i n, a.get? i = some n → n.defaultPermission ≠ .active

variable {a : Arena} {states : ByteStates} {skip : ByteState → Relatedness → Bool}

theorem look_of_get? (hd : a.NoActiveDefault) {i : Nat} {n : Node} (h : a.get? i = some n)
    (states : ByteStates) : a.look states i = .ok (n, n.stateIn states i) := by
  unfold look Node.stateIn
  simp only [h]
  cases hs : states.get? i with
  | some s => simp
  | none =>
    have hdef : n.defaultState = .ok ⟨n.defaultPermission, false, n.defaultAbsorbed⟩ :=
      ByteState.untouched_eq_ok_iff.mpr ⟨hd i n h, rfl⟩
    simp [hdef, Except.map]

/-! ## 2. The walk through a subtree -/

/-- The position of a node in a walk that sees its top at `rel`. -/
def positionBelow (top : Nat) (rel : Relatedness) (i : Nat) : Relatedness :=
  if i = top then rel else rel.below

/-- The walk from `top` goes through the node `i`: it is not in the branch that is left out, and
it is no skipped foreign node. -/
def Passes (a : Arena) (states : ByteStates) (skip : ByteState → Relatedness → Bool)
    (exclude : Option Nat) (top : Nat) (rel : Relatedness) (i : Nat) : Prop :=
  (i ≠ top → exclude ≠ some i) ∧
    ∀ n, a.get? i = some n → (positionBelow top rel i).isForeign = true →
      skip (n.stateIn states i) (positionBelow top rel i) = false

/-- Below its top, a walk sees a node as the walk from any child of the top would see it. -/
theorem positionBelow_below {i c j : Nat} {rel : Relatedness} (h : j ≠ i) :
    positionBelow i rel j = positionBelow c rel.below j := by
  unfold positionBelow
  rw [if_neg h]
  split
  · rfl
  · rw [Relatedness.below_below]

/-- One step of the walk. -/
theorem subtreeRoute_of_get? (hw : a.WellLinked) (hd : a.NoActiveDefault) {i : Nat} {n : Node}
    (h : a.get? i = some n) (exclude : Option Nat) (rel : Relatedness) :
    subtreeRoute a states skip exclude i rel =
      if rel.isForeign && skip (n.stateIn states i) rel then []
      else .ok ⟨i, n, n.stateIn states i, rel⟩ ::
        (n.children.filter (some · ≠ exclude)).reverse.flatMap fun c =>
          subtreeRoute a states skip exclude c rel.below := by
  rw [subtreeRoute, look_of_get? hd h]
  have hc : ∀ c ∈ (n.children.filter (some · ≠ exclude)).reverse,
      (if i < c ∧ c < a.width then subtreeRoute a states skip exclude c rel.below
        else [.error .missingNode]) = subtreeRoute a states skip exclude c rel.below := by
    intro c hc
    have hmem := (List.mem_filter.mp (List.mem_reverse.mp hc)).1
    have hp := (hw.mem_children_iff h).mp hmem
    exact if_pos ⟨hw.parent_lt hp, hp.lt_width⟩
  simp only [List.flatMap_def, List.map_congr_left hc]

/-- Below the top, a walk is the walk from the child it goes through. -/
theorem passes_iff_of_mem_lineage (hw : a.WellLinked) {exclude : Option Nat} {i c j : Nat}
    {rel : Relatedness} (hj : j < a.width) (hc : a.IsParent i c) (hcj : c ∈ a.lineage j) :
    (∀ m ∈ a.lineage j, i ∈ a.lineage m → Passes a states skip exclude i rel m) ↔
      Passes a states skip exclude i rel i ∧ exclude ≠ some c ∧
        ∀ m ∈ a.lineage j, c ∈ a.lineage m → Passes a states skip exclude c rel.below m := by
  have hic : i ∈ a.lineage c :=
    (mem_lineage_of_isParent hw hc).mpr (.inr (mem_lineage_self a i))
  have hne : ∀ m, m < a.width → c ∈ a.lineage m → m ≠ i := by
    rintro m - hm rfl
    exact hc.not_mem_lineage hw hm
  constructor
  · intro h
    have hi : i ∈ a.lineage j := mem_lineage_trans hw hj hic hcj
    refine ⟨h i hi (mem_lineage_self a i), ?_, ?_⟩
    · exact (h c hcj hic).1 (hne c hc.lt_width (mem_lineage_self a c))
    · intro m hm hcm
      have hmw := lt_width_of_mem_lineage hw hj hm
      have hmi := hne m hmw hcm
      obtain ⟨h₁, h₂⟩ := h m hm (mem_lineage_trans hw hmw hic hcm)
      rw [positionBelow_below hmi] at h₂
      exact ⟨fun _ => h₁ hmi, h₂⟩
  · rintro ⟨htop, hex, h⟩ m hm him
    by_cases hmi : m = i
    · exact hmi ▸ htop
    · have hmw := lt_width_of_mem_lineage hw hj hm
      -- `c` and `m` are both above `j`, and `m` is not above `c`, since only `i` is in between
      have hcm : c ∈ a.lineage m := by
        rcases mem_lineage_or_mem_lineage hw hj hcj hm with h' | h'
        · exact h'
        · rcases (mem_lineage_of_isParent hw hc).mp h' with rfl | h'
          · exact mem_lineage_self a m
          · exact absurd (eq_of_mem_lineage hw (lt_width_of_mem_lineage hw hmw him) h' him) hmi
      obtain ⟨h₁, h₂⟩ := h m hm hcm
      rw [← positionBelow_below hmi] at h₂
      refine ⟨fun _ => ?_, h₂⟩
      by_cases hmc : m = c
      · exact hmc ▸ hex
      · exact h₁ hmc

/-- **The walk through a subtree** visits the nodes below its top that it can reach. -/
theorem mem_subtreeRoute_iff (hw : a.WellLinked) (hd : a.NoActiveDefault) {exclude : Option Nat}
    {i : Nat} (hi : i < a.width) {rel : Relatedness} {x : Except Fault Visit} :
    x ∈ subtreeRoute a states skip exclude i rel ↔
      ∃ j n, a.get? j = some n ∧ i ∈ a.lineage j ∧
        (∀ m ∈ a.lineage j, i ∈ a.lineage m → Passes a states skip exclude i rel m) ∧
        x = .ok ⟨j, n, n.stateIn states j, positionBelow i rel j⟩ := by
  revert rel
  refine hw.descend (P := fun i => ∀ {rel}, x ∈ subtreeRoute a states skip exclude i rel ↔
      ∃ j n, a.get? j = some n ∧ i ∈ a.lineage j ∧
        (∀ m ∈ a.lineage j, i ∈ a.lineage m → Passes a states skip exclude i rel m) ∧
        x = .ok ⟨j, n, n.stateIn states j, positionBelow i rel j⟩) ?_ i hi
  intro i n hn ih rel
  have hi := lt_width_of_get? hn
  have htop : Passes a states skip exclude i rel i ↔
      ¬(rel.isForeign && skip (n.stateIn states i) rel) = true := by
    unfold Passes positionBelow
    simp only [ne_eq, not_true_eq_false, false_implies, ↓reduceIte, true_and, hn,
      Option.some.injEq, forall_eq', Bool.and_eq_true, not_and, Bool.not_eq_true]
  have hmemc : ∀ c, c ∈ (n.children.filter (some · ≠ exclude)).reverse ↔
      a.IsParent i c ∧ exclude ≠ some c := by
    intro c
    rw [List.mem_reverse, List.mem_filter, hw.mem_children_iff hn, decide_eq_true_iff]
    exact and_congr_right fun _ => ne_comm
  rw [subtreeRoute_of_get? hw hd hn]
  split
  · next hskip =>
    refine ⟨fun h => absurd h List.not_mem_nil, ?_⟩
    rintro ⟨j, m, hj, hij, hpass, -⟩
    exact absurd hskip (htop.mp (hpass i hij (mem_lineage_self a i)))
  · next hskip =>
    rw [List.mem_cons, List.mem_flatMap]
    constructor
    · rintro (rfl | ⟨c, hc, hx⟩)
      · refine ⟨i, n, hn, mem_lineage_self a i, ?_, by simp [positionBelow]⟩
        intro m hm him
        obtain rfl := eq_of_mem_lineage hw hi hm him
        exact htop.mpr hskip
      · obtain ⟨hp, hex⟩ := (hmemc c).mp hc
        obtain ⟨j, m, hj, hcj, hpass, rfl⟩ := (ih c hp).mp hx
        have hjw := lt_width_of_get? hj
        have hij : i ∈ a.lineage j := mem_lineage_trans hw hjw
          ((mem_lineage_of_isParent hw hp).mpr (.inr (mem_lineage_self a i))) hcj
        have hji : j ≠ i := fun h => hp.not_mem_lineage hw (h ▸ hcj)
        refine ⟨j, m, hj, hij, ?_, ?_⟩
        · exact (passes_iff_of_mem_lineage hw hjw hp hcj).mpr ⟨htop.mpr hskip, hex, hpass⟩
        · rw [positionBelow_below hji]
    · rintro ⟨j, m, hj, hij, hpass, rfl⟩
      have hjw := lt_width_of_get? hj
      by_cases hji : j = i
      · subst hji
        obtain rfl := Option.some.inj (hn.symm.trans hj)
        exact .inl (by simp [positionBelow])
      · obtain ⟨c, hp, hcj⟩ := exists_child_mem_lineage hw hjw hij (Ne.symm hji)
        obtain ⟨-, hex, hpass'⟩ := (passes_iff_of_mem_lineage hw hjw hp hcj).mp hpass
        refine .inr ⟨c, (hmemc c).mpr ⟨hp, hex⟩, (ih c hp).mpr ⟨j, m, hj, hcj, hpass', ?_⟩⟩
        rw [positionBelow_below hji]

/-! ## 3. The climb -/

/-- Below the accessed node, a walk from it sees every node as the access does. -/
theorem positionBelow_this (hw : a.WellLinked) {start i : Nat} (hi : i < a.width)
    (h : start ∈ a.lineage i) : positionBelow start .this i = a.relatedness start i := by
  unfold positionBelow relatedness
  split
  · rfl
  · next hne =>
    have hni : i ∉ a.lineage start := fun h' => hne (eq_of_mem_lineage hw hi h h').symm
    simp only [hni, ↓reduceIte, Relatedness.below]

/-- Nodes that the accessed one is not above are its own ancestors, or lie in another branch. -/
theorem relatedness_of_not_mem_lineage {start i : Nat} (h : start ∉ a.lineage i) :
    a.relatedness start i = if i ∈ a.lineage start then .strictChild else .cousin := by
  have hne : i ≠ start := by
    rintro rfl
    exact h (mem_lineage_self a i)
  unfold relatedness
  simp only [hne, h, ↓reduceIte]

/-- In the walk from an ancestor, every node that the accessed one is not above is seen as the
access sees it. -/
theorem positionBelow_strictChild (hw : a.WellLinked) {start p i : Nat} (hi : i < a.width)
    (hp : a.IsParent p start) (hpi : p ∈ a.lineage i) (h : start ∉ a.lineage i) :
    positionBelow p .strictChild i = a.relatedness start i := by
  rw [relatedness_of_not_mem_lineage h]
  unfold positionBelow
  split
  · next heq =>
    subst heq
    rw [if_pos ((mem_lineage_of_isParent hw hp).mpr (.inr (mem_lineage_self a i)))]
  · next hne =>
    refine (if_neg fun h' => ?_).symm
    rcases (mem_lineage_of_isParent hw hp).mp h' with rfl | h'
    · exact h (mem_lineage_self a i)
    · exact hne (eq_of_mem_lineage hw hi hpi h').symm

/-- The access does not stop at the node `i`: it is above the accessed one, or not skipped. -/
def Unskipped (a : Arena) (states : ByteStates) (skip : ByteState → Relatedness → Bool)
    (start i : Nat) : Prop :=
  ∀ n, a.get? i = some n → (a.relatedness start i).isForeign = true →
    skip (n.stateIn states i) (a.relatedness start i) = false

/-- An access never stops at a node above the accessed one. -/
theorem unskipped_of_mem_lineage {start i : Nat} (h : i ∈ a.lineage start) :
    a.Unskipped states skip start i := by
  intro n _ hf
  rw [isForeign_relatedness] at hf
  exact absurd h (of_decide_eq_true hf)

/-- A walk from an ancestor `p` that leaves out the branch of `start` goes through the nodes that
`start` is not above and at which an access through it would not stop. -/
theorem passes_strictChild_iff (hw : a.WellLinked) {start p j : Nat} (hj : j < a.width)
    (hp : a.IsParent p start) (hpj : p ∈ a.lineage j) :
    (∀ m ∈ a.lineage j, p ∈ a.lineage m → Passes a states skip (some start) p .strictChild m) ↔
      start ∉ a.lineage j ∧ ∀ m ∈ a.lineage j, a.Unskipped states skip start m := by
  have hpstart : p ∈ a.lineage start :=
    (mem_lineage_of_isParent hw hp).mpr (.inr (mem_lineage_self a p))
  have hne : start ≠ p := Nat.ne_of_gt (hw.parent_lt hp)
  constructor
  · intro h
    have hstart : start ∉ a.lineage j := fun hs => (h start hs hpstart).1 hne rfl
    refine ⟨hstart, fun m hm n hn hf => ?_⟩
    have hmw := lt_width_of_mem_lineage hw hj hm
    have hsm : start ∉ a.lineage m := fun hs => hstart (mem_lineage_trans hw hj hs hm)
    rcases mem_lineage_or_mem_lineage hw hj hpj hm with hpm | hmp
    · rw [← positionBelow_strictChild hw hmw hp hpm hsm] at hf ⊢
      exact (h m hm hpm).2 n hn hf
    · have hms := (mem_lineage_of_isParent hw hp).mpr (.inr hmp)
      exact unskipped_of_mem_lineage hms n hn hf
  · rintro ⟨hstart, h⟩ m hm hpm
    have hmw := lt_width_of_mem_lineage hw hj hm
    have hsm : start ∉ a.lineage m := fun hs => hstart (mem_lineage_trans hw hj hs hm)
    refine ⟨fun _ hms => ?_, ?_⟩
    · exact hsm (Option.some.inj hms ▸ mem_lineage_self a start)
    · rw [positionBelow_strictChild hw hmw hp hpm hsm]
      exact h m hm

/-- What an access through a node's parent finds outside of the parent's subtree, an access
through the node finds there as well, and sees it the same way. -/
theorem relatedness_of_isParent (hw : a.WellLinked) {start p i : Nat} (hi : i < a.width)
    (hp : a.IsParent p start) (h : p ∉ a.lineage i) :
    start ∉ a.lineage i ∧ a.relatedness start i = a.relatedness p i := by
  have hpstart : p ∈ a.lineage start :=
    (mem_lineage_of_isParent hw hp).mpr (.inr (mem_lineage_self a p))
  have hs : start ∉ a.lineage i := fun hs => h (mem_lineage_trans hw hi hpstart hs)
  have hne : i ≠ start := fun hi => hs (hi ▸ mem_lineage_self a start)
  refine ⟨hs, ?_⟩
  rw [relatedness_of_not_mem_lineage hs, relatedness_of_not_mem_lineage h]
  simp only [mem_lineage_of_isParent hw hp, hne, false_or]

/-- **The climb from a node** visits everything that is not below it. -/
theorem mem_climbRoute_iff (hw : a.WellLinked) (hd : a.NoActiveDefault) {start : Nat}
    (hstart : start < a.width) {x : Except Fault Visit} :
    x ∈ climbRoute a states skip start (a.lineage start).tail ↔
      ∃ j n, a.get? j = some n ∧ start ∉ a.lineage j ∧
        (∀ m ∈ a.lineage j, a.Unskipped states skip start m) ∧
        x = .ok ⟨j, n, n.stateIn states j, a.relatedness start j⟩ := by
  refine hw.climb (P := fun start => x ∈ climbRoute a states skip start (a.lineage start).tail ↔
      ∃ j n, a.get? j = some n ∧ start ∉ a.lineage j ∧
        (∀ m ∈ a.lineage j, a.Unskipped states skip start m) ∧
        x = .ok ⟨j, n, n.stateIn states j, a.relatedness start j⟩) ?_ ?_ start hstart
  · rw [lineage_root hw]
    refine ⟨fun h => absurd h List.not_mem_nil, ?_⟩
    rintro ⟨j, n, hj, h, -⟩
    exact absurd (root_mem_lineage hw (lt_width_of_get? hj)) h
  · intro p start hp ih
    have htail : (a.lineage start).tail = p :: (a.lineage p).tail := by
      rw [lineage_of_isParent hw hp, lineage]
      rfl
    have hpw : p < a.width := Nat.lt_trans (hw.parent_lt hp) hp.lt_width
    -- what is not below `p` is not below `start` either, and both accesses see it alike
    have hskips : ∀ {j}, j < a.width → p ∉ a.lineage j →
        ((∀ m ∈ a.lineage j, a.Unskipped states skip p m) ↔
          ∀ m ∈ a.lineage j, a.Unskipped states skip start m) := by
      intro j hj hpj
      refine forall₂_congr fun m hm => ?_
      have hpm : p ∉ a.lineage m := fun h => hpj (mem_lineage_trans hw hj h hm)
      have hmw := lt_width_of_mem_lineage hw hj hm
      unfold Unskipped
      rw [(relatedness_of_isParent hw hmw hp hpm).2]
    rw [htail, climbRoute, List.mem_append, mem_subtreeRoute_iff hw hd hpw, ih]
    constructor
    · rintro (⟨j, n, hj, hpj, hpass, rfl⟩ | ⟨j, n, hj, hpj, hskip, rfl⟩)
      · have hjw := lt_width_of_get? hj
        obtain ⟨hs, hskip⟩ := (passes_strictChild_iff hw hjw hp hpj).mp hpass
        rw [positionBelow_strictChild hw hjw hp hpj hs]
        exact ⟨j, n, hj, hs, hskip, rfl⟩
      · have hjw := lt_width_of_get? hj
        obtain ⟨hs, hrel⟩ := relatedness_of_isParent hw hjw hp hpj
        exact ⟨j, n, hj, hs, (hskips hjw hpj).mp hskip, by rw [hrel]⟩
    · rintro ⟨j, n, hj, hs, hskip, rfl⟩
      have hjw := lt_width_of_get? hj
      by_cases hpj : p ∈ a.lineage j
      · refine .inl ⟨j, n, hj, hpj, (passes_strictChild_iff hw hjw hp hpj).mpr ⟨hs, hskip⟩, ?_⟩
        rw [positionBelow_strictChild hw hjw hp hpj hs]
      · refine .inr ⟨j, n, hj, hpj, (hskips hjw hpj).mpr hskip, ?_⟩
        rw [(relatedness_of_isParent hw hjw hp hpj).2]

/-! ## 4. The whole route -/

/-- **Which nodes an access visits.**  Those that no skipped foreign node lies above or at; and
each visit shows the node as it is related to the accessed one, in its state at the byte. -/
theorem mem_route_iff (hw : a.WellLinked) (hd : a.NoActiveDefault) {start : Nat}
    (hstart : start < a.width) {x : Except Fault Visit} :
    x ∈ a.route states skip start ↔
      ∃ j n, a.get? j = some n ∧ (∀ m ∈ a.lineage j, a.Unskipped states skip start m) ∧
        x = .ok ⟨j, n, n.stateIn states j, a.relatedness start j⟩ := by
  have hpass : ∀ {j}, j < a.width → start ∈ a.lineage j →
      ((∀ m ∈ a.lineage j, start ∈ a.lineage m → Passes a states skip none start .this m) ↔
        ∀ m ∈ a.lineage j, a.Unskipped states skip start m) := by
    intro j hj hsj
    constructor
    · intro h m hm
      rcases mem_lineage_or_mem_lineage hw hj hsj hm with hsm | hms
      · have hmw := lt_width_of_mem_lineage hw hj hm
        intro n hn hf
        rw [← positionBelow_this hw hmw hsm] at hf ⊢
        exact (h m hm hsm).2 n hn hf
      · exact unskipped_of_mem_lineage hms
    · intro h m hm hsm
      have hmw := lt_width_of_mem_lineage hw hj hm
      refine ⟨fun _ => nofun, ?_⟩
      rw [positionBelow_this hw hmw hsm]
      exact h m hm
  rw [route, List.mem_append, mem_subtreeRoute_iff hw hd hstart, mem_climbRoute_iff hw hd hstart]
  constructor
  · rintro (⟨j, n, hj, hsj, h, rfl⟩ | ⟨j, n, hj, -, h, rfl⟩)
    · have hjw := lt_width_of_get? hj
      rw [positionBelow_this hw hjw hsj]
      exact ⟨j, n, hj, (hpass hjw hsj).mp h, rfl⟩
    · exact ⟨j, n, hj, h, rfl⟩
  · rintro ⟨j, n, hj, h, rfl⟩
    have hjw := lt_width_of_get? hj
    by_cases hsj : start ∈ a.lineage j
    · refine .inl ⟨j, n, hj, hsj, (hpass hjw hsj).mpr h, ?_⟩
      rw [positionBelow_this hw hjw hsj]
    · exact .inr ⟨j, n, hj, hsj, h, rfl⟩

/-- Without skipping, an access visits every node. -/
theorem mem_route_full_iff (hw : a.WellLinked) (hd : a.NoActiveDefault) {start : Nat}
    (hstart : start < a.width) {x : Except Fault Visit} :
    x ∈ a.route states (fun _ _ => false) start ↔
      ∃ j n, a.get? j = some n ∧
        x = .ok ⟨j, n, n.stateIn states j, a.relatedness start j⟩ := by
  rw [mem_route_iff hw hd hstart]
  have h : ∀ m, a.Unskipped states (fun _ _ => false) start m := fun _ _ _ _ => rfl
  simp only [h, implies_true, true_and]

/-! ## 5. Routes through any arena -/

theorem get?_of_look {i : Nat} {n : Node} {s : ByteState} (h : a.look states i = .ok (n, s)) :
    a.get? i = some n := by
  unfold look at h
  split at h
  · cases h
  · next m hm =>
    split at h
    · obtain ⟨rfl, -⟩ := Prod.mk.inj (Except.ok.inj h)
      exact hm
    · cases hd : m.defaultState with
      | error f =>
        rw [hd] at h
        cases h
      | ok d =>
        rw [hd] at h
        obtain ⟨rfl, -⟩ := Prod.mk.inj (Except.ok.inj h)
        exact hm

theorem get?_of_mem_subtreeRoute {exclude : Option Nat} {i : Nat} {rel : Relatedness} {v : Visit}
    (h : .ok v ∈ subtreeRoute a states skip exclude i rel) : a.get? v.index = some v.node := by
  fun_induction subtreeRoute a states skip exclude i rel with
  | case1 i rel f hf => cases List.mem_singleton.mp h
  | case2 i rel n s hlook hskip => cases h
  | case3 i rel n s hlook hskip ih =>
    rcases List.mem_cons.mp h with h | h
    · obtain rfl := Except.ok.inj h
      exact get?_of_look hlook
    · obtain ⟨c, -, hc⟩ := List.mem_flatMap.mp h
      split at hc
      · next hlt => exact ih c hlt hc
      · cases List.mem_singleton.mp hc

theorem get?_of_mem_climbRoute {below : Nat} {above : List Nat} {v : Visit}
    (h : .ok v ∈ climbRoute a states skip below above) : a.get? v.index = some v.node := by
  induction above generalizing below with
  | nil => cases h
  | cons i above ih =>
    rcases List.mem_append.mp h with h | h
    · exact get?_of_mem_subtreeRoute h
    · exact ih h

/-- However the nodes are linked and whatever their states are, a visit shows a node of the
arena. -/
theorem get?_of_mem_route {start : Nat} {v : Visit} (h : .ok v ∈ a.route states skip start) :
    a.get? v.index = some v.node :=
  (List.mem_append.mp h).elim get?_of_mem_subtreeRoute get?_of_mem_climbRoute

end Arena

end TreeBorrows
