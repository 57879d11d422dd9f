/-
# What a tree is known to absorb, it does absorb

A foreign access is passed over wherever a node is known to absorb it.  That is harmless as long
as the entries are right, and an entry speaks about a whole subtree: `AbsorptionHolds` says that
a node is known to absorb no more than its children are, and no more than its own permission
does.  Every node below then absorbs at least as much (`AbsorptionHolds.le_of_mem_lineage`), and
what a subtree absorbs leaves all of it as it is (`AbsorptionHolds.access_of_absorbs`).

* `carriedOut`, `weakened` and `reprotected` keep `AbsorptionHolds`: accesses do, lowering the
  entries of a whole lineage does, and so does the end of a protector.
* `collect_route_of_skips` is what it is for: passing over absorbing subtrees collects the same
  updates, and the same first violation, as visiting every node.
-/
import TreeBorrows.Proofs.Tree.ByteStep

namespace TreeBorrows

/-! ## 1. The order of the entries -/

namespace Absorption

theorem le_refl (a : Absorption) : a ≤ a := Nat.le_refl _

theorem le_trans {a b c : Absorption} (h : a ≤ b) (h' : b ≤ c) : a ≤ c := Nat.le_trans h h'

theorem nothing_le (a : Absorption) : nothing ≤ a := Nat.zero_le _

theorem eq_nothing_of_le {a : Absorption} (h : a ≤ nothing) : a = nothing := by
  revert h
  cases a <;> decide

theorem absorbs_of_le {a b : Absorption} {kind : AccessKind} (h : a ≤ b)
    (ha : a.absorbs kind = true) : b.absorbs kind = true :=
  decide_eq_true (le_trans (of_decide_eq_true ha) h)

/-- Recording an access keeps the order, also where the greater entry saw it as a foreign one
and the smaller did not. -/
theorem record_le_record {a b : Absorption} (h : a ≤ b) (kind : AccessKind)
    {rel rel' : Relatedness} (hrel : rel.isForeign = true → rel'.isForeign = true) :
    a.record (ofAccess kind rel) ≤ b.record (ofAccess kind rel') := by
  cases hr : rel.isForeign with
  | false =>
    rw [ofAccess, hr]
    exact nothing_le _
  | true =>
    rw [ofAccess, ofAccess, hr, hrel hr]
    revert h
    cases a <;> cases b <;> cases kind <;> decide

/-- An absorbed access is no news. -/
theorem record_of_absorbs {a : Absorption} {kind : AccessKind} {rel : Relatedness}
    (hrel : rel.isForeign = true) (h : a.absorbs kind = true) :
    a.record (ofAccess kind rel) = a := by
  rw [ofAccess, hrel]
  revert h
  cases a <;> cases kind <;> decide

theorem weaken_le_weaken {a b : Absorption} (h : a ≤ b) (limit : Absorption) :
    weaken limit a ≤ weaken limit b := by
  revert h
  cases a <;> cases b <;> cases limit <;> decide

end Absorption

/-- A permission absorbs more without a protector. -/
theorem Permission.absorption_le_absorption {p : Permission} {prot prot' : Bool}
    (h : prot' = true → prot = true) : p.absorption prot ≤ p.absorption prot' := by
  revert h
  cases p <;> cases prot <;> cases prot' <;> decide

/-! ## 2. One node -/

namespace ByteState

/-- What a node absorbs by its permission leaves it as it is. -/
theorem access_of_absorbs {kind : AccessKind} {rel : Relatedness} {prot : Bool} {s : ByteState}
    (hrel : rel.isForeign = true) (hs : s.absorbed ≤ s.permission.absorption prot)
    (habs : s.absorbed.absorbs kind = true) :
    s.access kind rel prot = .ok (s, ⟨s.permission, s.permission⟩) := by
  have htr : s.permission.transition? kind rel prot = some ⟨s.permission, s.permission⟩ := by
    have hp := Absorption.absorbs_of_le hs habs
    unfold Permission.transition? Permission.afterAccess?
    rw [hrel]
    revert hp
    cases s.permission <;> cases kind <;> cases prot <;> decide
  have hviol : ¬(prot = true ∧
      Transition.violatesProtector ⟨s.permission, s.permission⟩ = true) := by
    rintro ⟨-, h⟩
    revert h
    cases s.permission <;> decide
  refine access_eq_ok_iff.mpr ⟨htr, hviol, ?_⟩
  rw [hrel, Absorption.record_of_absorbs hrel habs, Bool.not_true, Bool.or_false]

/-- After an access, a node is known to absorb no more than its permission does. -/
theorem absorbed_le_of_access {kind : AccessKind} {rel : Relatedness} {prot : Bool}
    {s s' : ByteState} {tr : Transition} (hs : s.absorbed ≤ s.permission.absorption prot)
    (h : s.access kind rel prot = .ok (s', tr)) :
    s'.absorbed ≤ s'.permission.absorption prot := by
  obtain ⟨htr, -, rfl⟩ := access_eq_ok_iff.mp h
  obtain ⟨q, hq, rfl⟩ := Option.map_eq_some_iff.mp htr
  dsimp only
  cases hrel : rel.isForeign with
  | false =>
    rw [Absorption.ofAccess, hrel]
    exact Absorption.nothing_le _
  | true =>
    rw [Absorption.ofAccess, hrel]
    unfold Permission.afterAccess? at hq
    rw [hrel] at hq
    revert hq hs
    generalize s.absorbed = a
    generalize s.permission = p
    cases kind <;> cases prot <;> cases p <;> cases a <;> cases q <;> decide

end ByteState

/-! ## 3. All nodes -/

namespace Arena

/-- What nodes are known to absorb at a byte, they and everything below them do absorb. -/
structure AbsorptionHolds (a : Arena) (prot : Tag → Bool) (states : ByteStates) : Prop where
  le_child : ∀ {p c m n}, a.get? p = some m → a.get? c = some n → a.IsParent p c →
    (m.stateIn states p).absorbed ≤ (n.stateIn states c).absorbed
  le_absorption : ∀ {i n}, a.get? i = some n →
    (n.stateIn states i).absorbed ≤ (n.stateIn states i).permission.absorption (prot n.tag)

namespace AbsorptionHolds

variable {a : Arena} {prot : Tag → Bool} {states : ByteStates} {i j : Nat} {n m : Node}

/-- A node is known to absorb no more than anything below it. -/
theorem le_of_mem_lineage (h : a.AbsorptionHolds prot states) (hw : a.WellLinked)
    (hm : a.get? i = some m) (hn : a.get? j = some n) (hij : i ∈ a.lineage j) :
    (m.stateIn states i).absorbed ≤ (n.stateIn states j).absorbed := by
  suffices h' : ∀ j, j < a.width → ∀ n, a.get? j = some n → i ∈ a.lineage j →
      (m.stateIn states i).absorbed ≤ (n.stateIn states j).absorbed from
    h' j (lt_width_of_get? hn) n hn hij
  refine hw.climb ?_ ?_
  · intro n hn hij
    rw [lineage_root hw] at hij
    obtain rfl := List.mem_singleton.mp hij
    obtain rfl := Option.some.inj (hm.symm.trans hn)
    exact Absorption.le_refl _
  · intro p j hp ih n hn hij
    rcases (mem_lineage_of_isParent hw hp).mp hij with rfl | hij
    · obtain rfl := Option.some.inj (hm.symm.trans hn)
      exact Absorption.le_refl _
    · obtain ⟨q, hq⟩ := hw.exists_get? (Nat.lt_trans (hw.parent_lt hp) hp.lt_width)
      exact Absorption.le_trans (ih q hq hij) (h.le_child hq hn hp)

/-- **What the top of a subtree is known to absorb changes nothing below it.** -/
theorem access_of_absorbs (h : a.AbsorptionHolds prot states) (hw : a.WellLinked)
    (hm : a.get? i = some m) (hn : a.get? j = some n) (hij : i ∈ a.lineage j)
    {kind : AccessKind} (habs : (m.stateIn states i).absorbed.absorbs kind = true)
    {rel : Relatedness} (hrel : rel.isForeign = true) :
    (n.stateIn states j).access kind rel (prot n.tag) = .ok (n.stateIn states j,
      ⟨(n.stateIn states j).permission, (n.stateIn states j).permission⟩) :=
  ByteState.access_of_absorbs hrel (h.le_absorption hn)
    (Absorption.absorbs_of_le (h.le_of_mem_lineage hw hm hn hij) habs)

/-- Accesses keep the entries right. -/
theorem carriedOut {kind : AccessKind} {start : Nat} {states' : ByteStates}
    (h : a.AbsorptionHolds prot states) (hw : a.WellLinked) (hstart : start < a.width)
    (hc : a.CarriedOut prot kind start states states') : a.AbsorptionHolds prot states' where
  le_child {p c m n} hm hn hp := by
    obtain ⟨trm, haccm⟩ := hc p m hm
    obtain ⟨trn, haccn⟩ := hc c n hn
    obtain ⟨-, -, hm'⟩ := ByteState.access_eq_ok_iff.mp haccm
    obtain ⟨-, -, hn'⟩ := ByteState.access_eq_ok_iff.mp haccn
    rw [hm', hn']
    refine Absorption.record_le_record (h.le_child hm hn hp) kind fun hf => ?_
    rw [isForeign_relatedness] at hf ⊢
    exact decide_eq_true (not_mem_lineage_of_isParent hw hstart hp (of_decide_eq_true hf))
  le_absorption {i n} hn := by
    obtain ⟨tr, hacc⟩ := hc i n hn
    exact ByteState.absorbed_le_of_access (h.le_absorption hn) hacc

/-- Protectors may go, and they may come where nothing is known to be absorbed: without one, a
tag absorbs more. -/
theorem reprotected {prot' : Tag → Bool} (h : a.AbsorptionHolds prot states)
    (hprot : ∀ i n, a.get? i = some n → prot' n.tag = true →
      prot n.tag = true ∨ (n.stateIn states i).absorbed = .nothing) :
    a.AbsorptionHolds prot' states where
  le_child := h.le_child
  le_absorption {i n} hn := by
    by_cases habs : (n.stateIn states i).absorbed = .nothing
    · rw [habs]
      exact Absorption.nothing_le _
    · refine Absorption.le_trans (h.le_absorption hn) (Permission.absorption_le_absorption ?_)
      exact fun hp => (hprot i n hn hp).resolve_right habs

end AbsorptionHolds

/-! ## 4. Passing over what is absorbed -/

variable {a : Arena} {states : ByteStates} {skip : ByteState → Relatedness → Bool}
  {ctx : Context} {acc : Access} {accessed : Label} {offset start : Nat}

/-- A subtree that absorbs an access asks for nothing. -/
theorem collect_subtreeRoute_of_absorbs (hw : a.WellLinked) (hd : a.NoActiveDefault)
    (habs : a.AbsorptionHolds ctx.isProtected states) {i : Nat} {n : Node}
    (hn : a.get? i = some n) {rel : Relatedness} (hrel : rel.isForeign = true)
    (h : (n.stateIn states i).absorbed.absorbs acc.kind = true) (exclude : Option Nat) :
    collect (Tree.planVisit ctx acc accessed offset)
      (subtreeRoute a states (fun _ _ => false) exclude i rel) = .ok [] := by
  refine collect_eq_nil fun x hx => ?_
  obtain ⟨j, m, hm, hij, -, rfl⟩ :=
    (mem_subtreeRoute_iff hw hd (lt_width_of_get? hn)).mp hx
  have hpos : (positionBelow i rel j).isForeign = true := by
    unfold positionBelow
    split
    · exact hrel
    · exact Relatedness.isForeign_below rel
  have hacc := habs.access_of_absorbs hw hn hm hij h hpos
  exact Tree.planVisit_eq_ok_iff.mpr ⟨_, _, hacc, (if_pos rfl).symm⟩

/-- Passing over absorbing nodes of a subtree collects what a complete walk collects. -/
theorem collect_subtreeRoute_of_skips (hw : a.WellLinked) (hd : a.NoActiveDefault)
    (habs : a.AbsorptionHolds ctx.isProtected states)
    (hskip : ∀ s rel, skip s rel = true → s.isSkippable acc.kind rel = true)
    (exclude : Option Nat) {i : Nat} (hi : i < a.width) (rel : Relatedness) :
    collect (Tree.planVisit ctx acc accessed offset) (subtreeRoute a states skip exclude i rel) =
      collect (Tree.planVisit ctx acc accessed offset)
        (subtreeRoute a states (fun _ _ => false) exclude i rel) := by
  revert rel
  refine hw.descend (P := fun i => ∀ rel,
    collect (Tree.planVisit ctx acc accessed offset) (subtreeRoute a states skip exclude i rel) =
      collect (Tree.planVisit ctx acc accessed offset)
        (subtreeRoute a states (fun _ _ => false) exclude i rel)) ?_ i hi
  intro i n hn ih rel
  rw [subtreeRoute_of_get? hw hd hn]
  split
  · next h =>
    obtain ⟨hrel, hs⟩ := Bool.and_eq_true_iff.mp h
    obtain ⟨-, hs⟩ := Bool.and_eq_true_iff.mp (hskip _ _ hs)
    rw [collect_subtreeRoute_of_absorbs hw hd habs hn hrel hs]
    rfl
  · rw [subtreeRoute_of_get? hw hd hn, Bool.and_false, if_neg Bool.false_ne_true]
    refine collect_cons_congr (collect_flatMap_congr fun c hc => ?_)
    have hmem := (List.mem_filter.mp (List.mem_reverse.mp hc)).1
    exact ih c ((hw.mem_children_iff hn).mp hmem) _

/-- **Passing over absorbing subtrees is invisible.**  An access that does so collects the same
updates as one that visits every node, and fails the same way if it fails. -/
theorem collect_route_of_skips (hw : a.WellLinked) (hd : a.NoActiveDefault)
    (habs : a.AbsorptionHolds ctx.isProtected states)
    (hskip : ∀ s rel, skip s rel = true → s.isSkippable acc.kind rel = true)
    (hstart : start < a.width) :
    collect (Tree.planVisit ctx acc accessed offset) (a.route states skip start) =
      collect (Tree.planVisit ctx acc accessed offset)
        (a.route states (fun _ _ => false) start) := by
  have hclimb : ∀ above : List Nat, (∀ i ∈ above, i < a.width) → ∀ below,
      collect (Tree.planVisit ctx acc accessed offset) (climbRoute a states skip below above) =
        collect (Tree.planVisit ctx acc accessed offset)
          (climbRoute a states (fun _ _ => false) below above) := by
    intro above
    induction above with
    | nil => exact fun _ _ => rfl
    | cons i above ih =>
      intro h below
      refine collect_append_congr ?_ (ih (fun j hj => h j (List.mem_cons_of_mem i hj)) i)
      exact collect_subtreeRoute_of_skips hw hd habs hskip _ (h i List.mem_cons_self) _
  refine collect_append_congr (collect_subtreeRoute_of_skips hw hd habs hskip _ hstart _) ?_
  refine hclimb _ (fun i hi => ?_) start
  exact lt_width_of_mem_lineage hw hstart (List.mem_of_mem_tail hi)

end Arena

end TreeBorrows
