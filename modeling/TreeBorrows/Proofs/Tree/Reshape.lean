/-
# What changes the nodes of a tree

Accesses only change states.  The nodes themselves change in three ways: a node is named, the
entries of a lineage are lowered, and a new node is added below an old one.  The first two keep
the skeleton of the arena, which is all that ancestry depends on (`SameSkeleton`); the third one
adds a leaf (`WellLinked.addChild`).

A leaf may absorb less than the nodes above it are known to.  Adding it and lowering their
entries belong together, and only both together keep `AbsorptionHolds`
(`AbsorptionHolds.addChild`).
-/
import TreeBorrows.Proofs.Tree.Absorption

namespace TreeBorrows

/-! ## 1. One change at many indices -/

namespace Slots

variable {V : Type}

/-- A changed value at each of some indices that has one. -/
def modifyAll (s : Slots V) (l : List Nat) (f : V → V) : Slots V :=
  l.foldl (fun s i => s.modify i f) s

@[simp] theorem width_modifyAll (s : Slots V) (l : List Nat) (f : V → V) :
    (s.modifyAll l f).width = s.width := by
  induction l generalizing s with
  | nil => rfl
  | cons i l ih => exact (ih (s.modify i f)).trans (width_modify s i f)

/-- A change that is not felt twice is felt at the indices of the list. -/
theorem get?_modifyAll {f : V → V} (hf : ∀ v, f (f v) = f v) (s : Slots V) (l : List Nat)
    (j : Nat) : (s.modifyAll l f).get? j = if j ∈ l then (s.get? j).map f else s.get? j := by
  induction l generalizing s with
  | nil => simp [modifyAll]
  | cons i l ih =>
    have hstep : s.modifyAll (i :: l) f = (s.modify i f).modifyAll l f := rfl
    rw [hstep, ih, get?_modify]
    by_cases hi : j = i
    · subst hi
      simp [Function.comp_def, hf]
    · simp [hi]

end Slots

theorem Absorption.weaken_weaken (limit a : Absorption) :
    weaken limit (weaken limit a) = weaken limit a := by
  cases limit <;> cases a <;> decide

theorem Node.weaken_weaken (limit : Absorption) (n : Node) :
    (n.weaken limit).weaken limit = n.weaken limit := by
  simp only [Node.weaken, Absorption.weaken_weaken]

theorem ByteState.weaken_weaken (limit : Absorption) (s : ByteState) :
    (s.weaken limit).weaken limit = s.weaken limit := by
  simp only [ByteState.weaken, Absorption.weaken_weaken]

/-! ## 2. Changes that keep the skeleton -/

/-- What neither a name nor a lower entry changes about a node. -/
def Node.skeleton (n : Node) : Tag × Option Nat × List Nat × Permission :=
  (n.tag, n.parent, n.children, n.defaultPermission)

theorem Node.skeleton_eq_iff {n m : Node} :
    n.skeleton = m.skeleton ↔ n.tag = m.tag ∧ n.parent = m.parent ∧ n.children = m.children ∧
      n.defaultPermission = m.defaultPermission := by
  simp only [Node.skeleton, Prod.mk.injEq]

namespace Arena

/-- The arenas have the same nodes with the same links; names and entries may differ. -/
structure SameSkeleton (a a' : Arena) : Prop where
  width_eq : a'.width = a.width
  skeleton_eq : ∀ i, (a'.get? i).map Node.skeleton = (a.get? i).map Node.skeleton

namespace SameSkeleton

variable {a a' : Arena} {i p : Nat}

theorem symm (h : SameSkeleton a a') : SameSkeleton a' a :=
  ⟨h.width_eq.symm, fun i => (h.skeleton_eq i).symm⟩

theorem exists_get? (h : SameSkeleton a a') {n' : Node} (hn : a'.get? i = some n') :
    ∃ n, a.get? i = some n ∧ n'.tag = n.tag ∧ n'.parent = n.parent ∧ n'.children = n.children ∧
      n'.defaultPermission = n.defaultPermission := by
  have heq := h.skeleton_eq i
  rw [hn] at heq
  obtain ⟨n, hn, hsk⟩ := Option.map_eq_some_iff.mp heq.symm
  exact ⟨n, hn, Node.skeleton_eq_iff.mp hsk.symm⟩

theorem map_tag_eq (h : SameSkeleton a a') (i : Nat) :
    (a'.get? i).map Node.tag = (a.get? i).map Node.tag := by
  have heq := congrArg (Option.map Prod.fst) (h.skeleton_eq i)
  rwa [Option.map_map, Option.map_map] at heq

theorem isParent (h : SameSkeleton a a') (hp : a'.IsParent p i) : a.IsParent p i := by
  obtain ⟨n', hn', hpar⟩ := hp
  obtain ⟨n, hn, -, hpar', -⟩ := h.exists_get? hn'
  exact ⟨n, hn, hpar' ▸ hpar⟩

theorem isParent_iff (h : SameSkeleton a a') : a'.IsParent p i ↔ a.IsParent p i :=
  ⟨h.isParent, h.symm.isParent⟩

theorem wellLinked (h : SameSkeleton a a') (hw : a.WellLinked) : a'.WellLinked where
  width_pos := h.width_eq ▸ hw.width_pos
  isSome_get? {i} hi := by
    obtain ⟨n, hn⟩ := hw.exists_get? (h.width_eq ▸ hi)
    obtain ⟨n', hn', -⟩ := h.symm.exists_get? hn
    rw [hn']
    rfl
  parent_eq_none_iff hn' := by
    obtain ⟨n, hn, -, hpar, -⟩ := h.exists_get? hn'
    rw [hpar]
    exact hw.parent_eq_none_iff hn
  parent_lt hp := hw.parent_lt (h.isParent hp)
  mem_children_iff hn' := by
    obtain ⟨n, hn, -, -, hch, -⟩ := h.exists_get? hn'
    rw [hch, h.isParent_iff]
    exact hw.mem_children_iff hn
  sorted_children hn' := by
    obtain ⟨n, hn, -, -, hch, -⟩ := h.exists_get? hn'
    rw [hch]
    exact hw.sorted_children hn

theorem noActiveDefault (h : SameSkeleton a a') (hd : a.NoActiveDefault) :
    a'.NoActiveDefault := by
  intro i n' hn'
  obtain ⟨n, hn, -, -, -, hdef⟩ := h.exists_get? hn'
  rw [hdef]
  exact hd i n hn

end SameSkeleton

/-- Changes to nodes that keep their skeletons keep the arena's. -/
theorem sameSkeleton_modifyAll (a : Arena) (l : List Nat) {f : Node → Node}
    (hf : ∀ n, (f n).skeleton = n.skeleton) : SameSkeleton a (a.modifyAll l f) where
  width_eq := Slots.width_modifyAll a l f
  skeleton_eq i := by
    induction l generalizing a with
    | nil => rfl
    | cons j l ih =>
      have hstep : a.modifyAll (j :: l) f = Slots.modifyAll (a.modify j f) l f := rfl
      rw [hstep, ih, Slots.get?_modify]
      split
      · rw [Option.map_map]
        exact Option.map_congr fun n _ => hf n
      · rfl

/-- The links and names of an arena do not matter for its entries. -/
theorem AbsorptionHolds.of_sameSkeleton {a a' : Arena} {prot : Tag → Bool} {states : ByteStates}
    (h : a.AbsorptionHolds prot states) (hs : SameSkeleton a a')
    (habs : ∀ i n n', a.get? i = some n → a'.get? i = some n' →
      n'.defaultAbsorbed = n.defaultAbsorbed) : a'.AbsorptionHolds prot states := by
  have hstate : ∀ {i n'}, a'.get? i = some n' → ∃ n, a.get? i = some n ∧ n'.tag = n.tag ∧
      n'.stateIn states i = n.stateIn states i := by
    intro i n' hn'
    obtain ⟨n, hn, htag, -, -, hdef⟩ := hs.exists_get? hn'
    refine ⟨n, hn, htag, ?_⟩
    unfold Node.stateIn
    rw [hdef, habs i n n' hn hn']
  constructor
  · intro p c m' n' hm' hn' hp
    obtain ⟨m, hm, -, hms⟩ := hstate hm'
    obtain ⟨n, hn, -, hns⟩ := hstate hn'
    rw [hms, hns]
    exact h.le_child hm hn (hs.isParent hp)
  · intro i n' hn'
    obtain ⟨n, hn, htag, hns⟩ := hstate hn'
    rw [htag, hns]
    exact h.le_absorption hn

/-! ## 3. Lower entries -/

variable {a : Arena} {prot : Tag → Bool} {states : ByteStates} {limit : Absorption}
  {l : List Nat}

/-- A node with lowered entries has a lower entry at every byte. -/
theorem exists_of_get?_weakened (states : ByteStates) {i : Nat} {n' : Node}
    (hn' : (a.modifyAll l (.weaken limit)).get? i = some n') :
    ∃ n, a.get? i = some n ∧ n'.tag = n.tag ∧
      n'.stateIn (states.modifyAll l (.weaken limit)) i =
        if i ∈ l then (n.stateIn states i).weaken limit else n.stateIn states i := by
  rw [Slots.get?_modifyAll (Node.weaken_weaken limit)] at hn'
  unfold Node.stateIn
  rw [Slots.get?_modifyAll (ByteState.weaken_weaken limit)]
  by_cases hi : i ∈ l
  · rw [if_pos hi] at hn'
    obtain ⟨n, hn, rfl⟩ := Option.map_eq_some_iff.mp hn'
    refine ⟨n, hn, rfl, ?_⟩
    rw [if_pos hi, if_pos hi]
    cases states.get? i <;> rfl
  · rw [if_neg hi] at hn'
    exact ⟨n', hn', rfl, by rw [if_neg hi, if_neg hi]⟩

/-- Entries that are right but for some edges become right when everything above those edges
is lowered to what is below them. -/
theorem absorptionHolds_weaken (hup : ∀ p c, a.IsParent p c → c ∈ l → p ∈ l)
    (hchild : ∀ {p c m n}, a.get? p = some m → a.get? c = some n → a.IsParent p c →
      (m.stateIn states p).absorbed ≤ (n.stateIn states c).absorbed ∨
        p ∈ l ∧ c ∉ l ∧ limit ≤ (n.stateIn states c).absorbed)
    (hperm : ∀ {i n}, a.get? i = some n →
      (n.stateIn states i).absorbed ≤ (n.stateIn states i).permission.absorption (prot n.tag)) :
    Arena.AbsorptionHolds (a.modifyAll l (.weaken limit)) prot
      (states.modifyAll l (.weaken limit)) where
  le_child {p c m' n'} hm' hn' hp := by
    have hsk := sameSkeleton_modifyAll a l (f := .weaken limit) fun _ => rfl
    have hp := hsk.isParent hp
    obtain ⟨m, hm, -, hms⟩ := exists_of_get?_weakened states hm'
    obtain ⟨n, hn, -, hns⟩ := exists_of_get?_weakened states hn'
    rw [hms, hns]
    rcases hchild hm hn hp with hle | ⟨hpl, hcl, hle⟩
    · by_cases hcl : c ∈ l
      · rw [if_pos hcl, if_pos (hup p c hp hcl)]
        exact Absorption.weaken_le_weaken hle limit
      · rw [if_neg hcl]
        split
        · exact Absorption.le_trans (Absorption.weaken_le_self limit _) hle
        · exact hle
    · rw [if_pos hpl, if_neg hcl]
      exact Absorption.le_trans (Absorption.weaken_le limit _) hle
  le_absorption {i n'} hn' := by
    obtain ⟨n, hn, htag, hns⟩ := exists_of_get?_weakened states hn'
    rw [htag, hns]
    split
    · exact Absorption.le_trans (Absorption.weaken_le_self limit _) (hperm hn)
    · exact hperm hn

/-- Above a node of a lineage, all nodes are in it. -/
theorem IsParent.mem_lineage (hw : a.WellLinked) {p c i : Nat} (hp : a.IsParent p c)
    (hi : i < a.width) (hc : c ∈ a.lineage i) : p ∈ a.lineage i :=
  mem_lineage_trans hw hi ((mem_lineage_of_isParent hw hp).mpr (.inr (mem_lineage_self a p))) hc

/-- Lowering the entries of a lineage keeps them right. -/
theorem AbsorptionHolds.weakened (h : a.AbsorptionHolds prot states) (hw : a.WellLinked)
    {i : Nat} (hi : i < a.width) (limit : Absorption) :
    Arena.AbsorptionHolds (a.modifyAll (a.lineage i) (.weaken limit)) prot
      (states.modifyAll (a.lineage i) (.weaken limit)) :=
  absorptionHolds_weaken (fun _ _ hp hc => hp.mem_lineage hw hi hc)
    (fun hm hn hp => .inl (h.le_child hm hn hp)) h.le_absorption

/-! ## 4. A new leaf -/

variable {p : Nat} {leaf : Node}

@[simp] theorem width_addChild (a : Arena) (p : Nat) (leaf : Node) :
    (a.addChild a.width p leaf).width = a.width + 1 := by
  rw [addChild, Slots.width_modify, Slots.width_insert]
  omega

theorem get?_addChild_width (hp : p < a.width) :
    (a.addChild a.width p leaf).get? a.width = some leaf := by
  rw [addChild, Slots.get?_modify, Slots.get?_insert, if_neg (Nat.ne_of_gt hp), if_pos rfl]

/-- The old nodes keep everything but the list of their children. -/
theorem get?_addChild_of_ne {i : Nat} (hi : i ≠ a.width) :
    (a.addChild a.width p leaf).get? i = (a.get? i).map fun m =>
      { m with children := if i = p then m.children ++ [a.width] else m.children } := by
  rw [addChild, Slots.get?_modify, Slots.get?_insert, if_neg hi]
  split
  · rfl
  · rw [Option.map_id']

theorem exists_of_get?_addChild (hp : p < a.width) {i : Nat} {m' : Node}
    (h : (a.addChild a.width p leaf).get? i = some m') :
    (i = a.width ∧ m' = leaf) ∨ ∃ m, i < a.width ∧ a.get? i = some m ∧
      m' = { m with children := if i = p then m.children ++ [a.width] else m.children } := by
  by_cases hi : i = a.width
  · subst hi
    rw [get?_addChild_width hp] at h
    exact .inl ⟨rfl, (Option.some.inj h).symm⟩
  · rw [get?_addChild_of_ne hi] at h
    obtain ⟨m, hm, rfl⟩ := Option.map_eq_some_iff.mp h
    exact .inr ⟨m, lt_width_of_get? hm, hm, rfl⟩

theorem isParent_addChild_iff (hp : p < a.width) (hleaf : leaf.parent = some p) {q i : Nat} :
    (a.addChild a.width p leaf).IsParent q i ↔ a.IsParent q i ∨ q = p ∧ i = a.width := by
  constructor
  · rintro ⟨m', hm', hq⟩
    rcases exists_of_get?_addChild hp hm' with ⟨rfl, rfl⟩ | ⟨m, -, hm, rfl⟩
    · exact .inr ⟨Option.some.inj (hq.symm.trans hleaf), rfl⟩
    · exact .inl ⟨m, hm, hq⟩
  · rintro (⟨m, hm, hq⟩ | ⟨rfl, rfl⟩)
    · have hi := lt_width_of_get? hm
      refine ⟨{ m with children := if i = p then m.children ++ [a.width] else m.children }, ?_, hq⟩
      rw [get?_addChild_of_ne (Nat.ne_of_lt hi), hm]
      rfl
    · exact ⟨leaf, get?_addChild_width hp, hleaf⟩

/-- A new leaf is linked as it should be. -/
theorem WellLinked.addChild (hw : a.WellLinked) (hp : p < a.width)
    (hleaf : leaf.parent = some p) (hnil : leaf.children = []) :
    (a.addChild a.width p leaf).WellLinked where
  width_pos := by
    rw [width_addChild]
    exact Nat.succ_pos _
  isSome_get? {i} hi := by
    rw [width_addChild] at hi
    by_cases h : i = a.width
    · rw [h, get?_addChild_width hp]
      rfl
    · rw [get?_addChild_of_ne h, Option.isSome_map]
      exact hw.isSome_get? (by omega)
  parent_eq_none_iff {i m'} hm' := by
    rcases exists_of_get?_addChild hp hm' with ⟨rfl, rfl⟩ | ⟨m, -, hm, rfl⟩
    · rw [hleaf]
      have := hw.width_pos
      simp only [reduceCtorEq, root, false_iff]
      omega
    · exact hw.parent_eq_none_iff (n := m) hm
  parent_lt {q i} hq := by
    rcases (isParent_addChild_iff hp hleaf).mp hq with hq | ⟨rfl, rfl⟩
    · exact hw.parent_lt hq
    · exact hp
  mem_children_iff {q m' c} hm' := by
    rw [isParent_addChild_iff hp hleaf]
    rcases exists_of_get?_addChild hp hm' with ⟨rfl, rfl⟩ | ⟨m, hq, hm, rfl⟩
    · rw [hnil]
      refine ⟨fun h => absurd h List.not_mem_nil, ?_⟩
      rintro (h | ⟨h, -⟩)
      · have hlt := hw.parent_lt h
        have hc := h.lt_width
        omega
      · omega
    · dsimp only
      by_cases hqp : q = p
      · rw [if_pos hqp, List.mem_append, List.mem_singleton, hw.mem_children_iff hm]
        exact or_congr_right ⟨fun h => ⟨hqp, h⟩, fun h => h.2⟩
      · rw [if_neg hqp, hw.mem_children_iff hm]
        exact ⟨.inl, fun h => h.resolve_right fun h' => hqp h'.1⟩
  sorted_children {q m'} hm' := by
    rcases exists_of_get?_addChild hp hm' with ⟨rfl, rfl⟩ | ⟨m, hq, hm, rfl⟩
    · rw [hnil]
      exact .nil
    · dsimp only
      split
      · rw [List.pairwise_append]
        refine ⟨hw.sorted_children hm, List.pairwise_singleton _ _, fun c hc d hd => ?_⟩
        obtain rfl := List.mem_singleton.mp hd
        exact ((hw.mem_children_iff hm).mp hc).lt_width
      · exact hw.sorted_children hm

theorem NoActiveDefault.addChild (hd : a.NoActiveDefault) (hp : p < a.width)
    (hleaf : leaf.defaultPermission ≠ .active) :
    (a.addChild a.width p leaf).NoActiveDefault := by
  intro i m' hm'
  rcases exists_of_get?_addChild hp hm' with ⟨rfl, rfl⟩ | ⟨m, -, hm, rfl⟩
  · exact hleaf
  · exact hd i m hm

/-- **A leaf together with lower entries above it** keeps the entries right. -/
theorem AbsorptionHolds.addChild {prot' : Tag → Bool} {states' : ByteStates}
    (h : a.AbsorptionHolds prot states) (hw : a.WellLinked) (hp : p < a.width)
    (hleaf : leaf.parent = some p) (hnil : leaf.children = [])
    (hprot : ∀ i n, a.get? i = some n → prot' n.tag = prot n.tag)
    (hstates : ∀ i, i < a.width → states'.get? i = states.get? i)
    (hlimit : limit ≤ (leaf.stateIn states' a.width).absorbed)
    (hperm : (leaf.stateIn states' a.width).absorbed ≤
      (leaf.stateIn states' a.width).permission.absorption (prot' leaf.tag)) :
    Arena.AbsorptionHolds
      ((a.addChild a.width p leaf).modifyAll ((a.addChild a.width p leaf).lineage p)
        (.weaken limit)) prot'
      (states'.modifyAll ((a.addChild a.width p leaf).lineage p) (.weaken limit)) := by
  have hw' := hw.addChild hp hleaf hnil
  have hp' : p < (a.addChild a.width p leaf).width := by
    rw [width_addChild]
    omega
  have hold : ∀ {i m'}, i < a.width → (a.addChild a.width p leaf).get? i = some m' →
      ∃ m, a.get? i = some m ∧ m'.tag = m.tag ∧ m'.stateIn states' i = m.stateIn states i := by
    intro i m' hi hm'
    rcases exists_of_get?_addChild hp hm' with ⟨rfl, -⟩ | ⟨m, -, hm, rfl⟩
    · exact absurd hi (Nat.lt_irrefl _)
    · exact ⟨m, hm, rfl, by unfold Node.stateIn; rw [hstates i hi]⟩
  refine absorptionHolds_weaken (fun _ _ hq hc => hq.mem_lineage hw' hp' hc) ?_ ?_
  · intro q c m' n' hm' hn' hq
    rcases (isParent_addChild_iff hp hleaf).mp hq with hq | ⟨rfl, rfl⟩
    · have hlt := hw.parent_lt hq
      have hc := hq.lt_width
      obtain ⟨m, hm, -, hms⟩ := hold (by omega) hm'
      obtain ⟨n, hn, -, hns⟩ := hold hc hn'
      rw [hms, hns]
      exact .inl (h.le_child hm hn hq)
    · refine .inr ⟨mem_lineage_self _ q, fun hc => ?_, ?_⟩
      · have := Arena.le_of_mem_lineage hw' hp' hc
        omega
      · rw [get?_addChild_width hp] at hn'
        rw [← Option.some.inj hn']
        exact hlimit
  · intro i m' hm'
    rcases exists_of_get?_addChild hp hm' with ⟨rfl, rfl⟩ | ⟨-, hi, -, -⟩
    · exact hperm
    · obtain ⟨m, hm, htag, hms⟩ := hold hi hm'
      rw [htag, hms, hprot i m hm]
      exact h.le_absorption hm

end Arena

end TreeBorrows
