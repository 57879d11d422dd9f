/-
# Active tags form a chain from the root

A tag that is active at a byte has been written through, and nothing foreign has touched the byte
since.  So of two active tags one must lie above the other, and everything above an active tag is
active as well: at every byte, the active tags are a chain that starts at the root.

No operation says so by itself.  What carries it is an exact description of the active nodes after
an access (`activeAt_carriedOut_iff`): after a write they are the lineage of the accessed node, and
after a read what was active of that lineage.  A lineage is a chain, and no other change of a tree
makes a tag active or ends it.
-/
import TreeBorrows.Proofs.Checker.View

namespace TreeBorrows

/-! ## 1. One access -/

/-- An access leaves a permission active if it is a child access, and a write or one that found it
active. -/
theorem Permission.afterAccess?_eq_active_iff {kind : AccessKind} {rel : Relatedness}
    {prot : Bool} {p q : Permission} (h : p.afterAccess? kind rel prot = some q) :
    q = .active ↔ rel.isForeign = false ∧ (kind = .write ∨ p = .active) := by
  revert h
  cases kind <;> cases rel <;> cases prot <;> cases p <;> cases q <;> decide

namespace Arena

variable {a a' : Arena} {states states' : ByteStates} {i j p : Nat}

/-- The node is active at a byte with these states. -/
def ActiveAt (a : Arena) (states : ByteStates) (i : Nat) : Prop :=
  ∃ n, a.get? i = some n ∧ (n.stateIn states i).permission = .active

/-- **Which nodes an access leaves active**: those of the lineage of the accessed node, all of them
if it was a write, and else the ones that were active before. -/
theorem activeAt_carriedOut_iff {prot : Tag → Bool} {kind : AccessKind} {start : Nat}
    (h : a.CarriedOut prot kind start states states') (hi : (a.get? i).isSome) :
    a.ActiveAt states' i ↔ i ∈ a.lineage start ∧ (kind = .write ∨ a.ActiveAt states i) := by
  obtain ⟨n, hn⟩ := Option.isSome_iff_exists.mp hi
  have hactive : ∀ s, a.ActiveAt s i ↔ (n.stateIn s i).permission = .active := by
    intro s
    simp [ActiveAt, hn]
  obtain ⟨tr, hacc⟩ := h i n hn
  obtain ⟨htr, -, hs'⟩ := ByteState.access_eq_ok_iff.mp hacc
  obtain ⟨q, hq, rfl⟩ := Option.map_eq_some_iff.mp htr
  rw [hactive, hactive, hs', Permission.afterAccess?_eq_active_iff hq, isForeign_relatedness]
  simp

/-! ## 2. Chains -/

/-- At a byte with these states, the active nodes are a chain that starts at the root. -/
structure ActiveChain (a : Arena) (states : ByteStates) : Prop where
  root : a.ActiveAt states root
  parent : ∀ {p i}, a.IsParent p i → a.ActiveAt states i → a.ActiveAt states p
  related : ∀ {i j}, a.ActiveAt states i → a.ActiveAt states j →
    i ∈ a.lineage j ∨ j ∈ a.lineage i

namespace ActiveChain

/-- Everything above an active node is active. -/
theorem ancestor (h : a.ActiveChain states) (hw : a.WellLinked) (hj : a.ActiveAt states j)
    (hij : i ∈ a.lineage j) : a.ActiveAt states i := by
  suffices h' : ∀ j, j < a.width → a.ActiveAt states j → i ∈ a.lineage j → a.ActiveAt states i by
    obtain ⟨n, hn, -⟩ := id hj
    exact h' j (lt_width_of_get? hn) hj hij
  refine hw.climb ?_ ?_
  · intro hroot hi
    rw [lineage_root hw, List.mem_singleton] at hi
    exact hi ▸ hroot
  · intro p j hp ih hj hi
    rcases (mem_lineage_of_isParent hw hp).mp hi with rfl | hi
    · exact hj
    · exact ih (h.parent hp hj) hi

/-- An access leaves a chain. -/
theorem carriedOut (h : a.ActiveChain states) (hw : a.WellLinked) {prot : Tag → Bool}
    {kind : AccessKind} {start : Nat} (hstart : start < a.width)
    (hc : a.CarriedOut prot kind start states states') : a.ActiveChain states' := by
  have hiff : ∀ i, a.ActiveAt states' i ↔ (a.get? i).isSome ∧ i ∈ a.lineage start ∧
      (kind = .write ∨ a.ActiveAt states i) := by
    intro i
    constructor
    · intro hi
      have hsome : (a.get? i).isSome := by
        obtain ⟨n, hn, -⟩ := hi
        simp [hn]
      exact ⟨hsome, (activeAt_carriedOut_iff hc hsome).mp hi⟩
    · rintro ⟨hsome, hi⟩
      exact (activeAt_carriedOut_iff hc hsome).mpr hi
  constructor
  · exact (hiff Arena.root).mpr
      ⟨hw.isSome_get? hw.width_pos, root_mem_lineage hw hstart, .inr h.root⟩
  · intro p i hp hi
    obtain ⟨-, hmem, hkind⟩ := (hiff i).mp hi
    have hlt := Nat.lt_trans (hw.parent_lt hp) hp.lt_width
    refine (hiff p).mpr ⟨hw.isSome_get? hlt, hp.mem_lineage hw hstart hmem, ?_⟩
    exact hkind.imp_right (h.parent hp)
  · intro i j hi hj
    obtain ⟨-, hi, -⟩ := (hiff i).mp hi
    obtain ⟨-, hj, -⟩ := (hiff j).mp hj
    exact mem_lineage_or_mem_lineage hw hstart hi hj

/-- A change of the nodes that gives and takes no right leaves a chain. -/
theorem retains (h : a.ActiveChain states) (hw : a.WellLinked) (hw' : a'.WellLinked)
    (hg : a.Grows a') (hr : a.Retains a' states states') : a'.ActiveChain states' := by
  have hiff : ∀ i, a'.ActiveAt states' i ↔ a.ActiveAt states i := by
    intro i
    constructor
    · rintro ⟨n', hn', hactive⟩
      cases hn : a.get? i with
      | none => exact absurd hactive (hr.new hn hn')
      | some n => exact ⟨n, hn, (hr.old hn hn').permission_eq ▸ hactive⟩
    · rintro ⟨n, hn, hactive⟩
      obtain ⟨n', hn', -⟩ := hg i n hn
      exact ⟨n', hn', (hr.old hn hn').permission_eq.trans hactive⟩
  constructor
  · exact (hiff Arena.root).mpr h.root
  · intro p i hp hi
    obtain ⟨n, hn, hactive⟩ := (hiff i).mp hi
    obtain ⟨n', hn', -, hparent⟩ := hg i n hn
    obtain ⟨m', hm', hp⟩ := hp
    obtain rfl := Option.some.inj (hn'.symm.trans hm')
    exact (hiff p).mpr (h.parent ⟨n, hn, hparent.symm.trans hp⟩ ⟨n, hn, hactive⟩)
  · intro i j hi hj
    obtain ⟨n, hn, hi⟩ := (hiff i).mp hi
    obtain ⟨m, hm, hj⟩ := (hiff j).mp hj
    rw [hg.lineage_eq hw hw' (lt_width_of_get? hn), hg.lineage_eq hw hw' (lt_width_of_get? hm)]
    exact h.related ⟨n, hn, hi⟩ ⟨m, hm, hj⟩

theorem advances {prot : Tag → Bool} (h : a.ActiveChain states) (hw : a.WellLinked)
    (hw' : a'.WellLinked) (hg : a.Grows a') (ha : a.Advances a' prot states states') :
    a'.ActiveChain states' := by
  obtain ⟨mid, rfl | ⟨kind, start, hstart, hc⟩, hr⟩ := ha
  · exact h.retains hw hw' hg hr
  · exact (h.carriedOut hw hstart hc).retains hw hw' hg hr

end ActiveChain

end Arena

/-! ## 3. Reachable states -/

theorem Tree.activeChain_new {root : Tag} {size : Nat} {settings : Settings} {o : Nat}
    {states : ByteStates} (ho : (new root size settings).bytes.valueAt? o = some states) :
    (new root size settings).arena.ActiveChain states := by
  obtain rfl := valueAt?_new ho
  constructor
  · refine ⟨_, get?_root_new root size settings, ?_⟩
    simp [Node.stateIn, Slots.get?_insert, ByteState.covered]
  · intro p i hp
    exact absurd hp (not_isParent_new p i)
  · rintro i j ⟨n, hn, -⟩ ⟨m, hm, -⟩
    obtain ⟨rfl, -⟩ := get?_new hn
    obtain ⟨rfl, -⟩ := get?_new hm
    exact .inl (Arena.mem_lineage_self _ _)

namespace Checker

variable {k : Checker}

theorem Reachable.activeChain (hk : k.Reachable) {a : AllocationId} {x : Allocation}
    (hx : k.allocations.get? a = some x) {o : Nat} {states : ByteStates}
    (ho : x.tree.bytes.valueAt? o = some states) : x.tree.arena.ActiveChain states := by
  revert ho
  revert o states
  refine hk.tree_induction (P := fun t => ∀ {o states}, t.bytes.valueAt? o = some states →
    t.arena.ActiveChain states) (fun _ _ _ => Tree.activeChain_new) ?_ hx
  intro t t' prot prot' hs hs' hadv ih o states' ho'
  obtain ⟨states, ho, ha⟩ := hadv.advances ho'
  exact (ih ho).advances hs.wellLinked hs'.wellLinked hadv.grows ha

/-- A tag that answers with `active` is an active node of its tree. -/
theorem permissionAt_eq_active_iff (h : k.Sound) {a : AllocationId} {x : Allocation}
    (hx : k.allocations.get? a = some x) {tag : Tag} {o : Nat} :
    k.permissionAt ⟨a, tag⟩ o = .ok .active ↔ o + 1 < Word.limit ∧ ∃ i states,
      x.tree.tags.index? tag = some i ∧ x.tree.bytes.valueAt? o = some states ∧
      x.tree.arena.ActiveAt states i := by
  rw [permissionAt_eq_ok_iff h]
  constructor
  · rintro ⟨hlimit, y, i, n, states, hy, hi, hn, ho, hactive⟩
    obtain rfl := Option.some.inj (hx.symm.trans hy)
    exact ⟨hlimit, i, states, hi, ho, n, hn, hactive⟩
  · rintro ⟨hlimit, i, states, hi, ho, n, hn, hactive⟩
    exact ⟨hlimit, x, i, n, states, hx, hi, hn, ho, hactive⟩

/-- **Active is exclusive.**  In every reachable state, at every offset of a live allocation: what
is above an active tag is active; of two active tags one is above the other; and the tag that the
allocation was made with, which is above all of its tags, is one of them. -/
theorem active_chain (hk : k.Reachable) {a : AllocationId} {x : Allocation}
    (hx : k.allocations.get? a = some x) (o : Nat) :
    (∀ s d, x.tree.IsAtOrAbove s d → k.permissionAt ⟨a, d⟩ o = .ok .active →
        k.permissionAt ⟨a, s⟩ o = .ok .active) ∧
      (∀ s d, k.permissionAt ⟨a, s⟩ o = .ok .active → k.permissionAt ⟨a, d⟩ o = .ok .active →
        x.tree.IsAtOrAbove s d ∨ x.tree.IsAtOrAbove d s) ∧
      (o < x.tree.size → o + 1 < Word.limit → ∃ root, x.tree.owner? = some root ∧
        k.permissionAt ⟨a, root⟩ o = .ok .active ∧
        ∀ tag ∈ x.tree.tags.keys, x.tree.IsAtOrAbove root tag) := by
  have hs := hk.sound
  have ht := hs.tree hx
  refine ⟨?_, ?_, ?_⟩
  · intro s d habove hd
    obtain ⟨hlimit, j, states, hj, ho, hactive⟩ := (permissionAt_eq_active_iff hs hx).mp hd
    obtain ⟨i, j', hi, hj', hij⟩ := habove
    obtain rfl := Option.some.inj (hj.symm.trans hj')
    refine (permissionAt_eq_active_iff hs hx).mpr ⟨hlimit, i, states, hi, ho, ?_⟩
    exact (hk.activeChain hx ho).ancestor ht.wellLinked hactive hij
  · intro s d hs' hd
    obtain ⟨-, i, states, hi, ho, hactive⟩ := (permissionAt_eq_active_iff hs hx).mp hs'
    obtain ⟨-, j, states', hj, ho', hactive'⟩ := (permissionAt_eq_active_iff hs hx).mp hd
    obtain rfl := Option.some.inj (ho.symm.trans ho')
    rw [Tree.isAtOrAbove_iff hi hj, Tree.isAtOrAbove_iff hj hi]
    exact (hk.activeChain hx ho).related hactive hactive'
  · intro ho hlimit
    obtain ⟨states, hval⟩ := x.tree.exists_valueAt? ho
    obtain ⟨n, hn, hactive⟩ := (hk.activeChain hx hval).root
    have hroot : x.tree.owner? = some n.tag := by
      simp [Tree.owner?, hn]
    refine ⟨n.tag, hroot, ?_, fun tag htag => ht.isAtOrAbove_owner hroot htag⟩
    refine (permissionAt_eq_active_iff hs hx).mpr ⟨hlimit, Arena.root, states, ?_, hval, n, hn, ?_⟩
    · exact ht.index?_tag hn
    · exact hactive

/-- After the first write through a mutable borrow, the owner and the borrow are both active, and
one of them is above the other. -/
theorem active_chain_after_write :
    ∃ (k : Checker) (x : Allocation), k.Reachable ∧ k.allocations.get? ⟨1⟩ = some x ∧
      k.permissionAt ⟨⟨1⟩, ⟨2⟩⟩ 0 = .ok .active ∧ k.permissionAt ⟨⟨1⟩, ⟨3⟩⟩ 0 = .ok .active ∧
      (x.tree.IsAtOrAbove ⟨2⟩ ⟨3⟩ ∨ x.tree.IsAtOrAbove ⟨3⟩ ⟨2⟩) := by
  have hk : Reachable ((new {}).run [.allocate 8, .derive ⟨⟨1⟩, ⟨2⟩⟩ ⟨0, 4⟩ .exclusive false,
      .access ⟨⟨1⟩, ⟨3⟩⟩ ⟨0, 4⟩ .write]) := ⟨{}, _, rfl⟩
  have h₂ : ((new {}).run [.allocate 8, .derive ⟨⟨1⟩, ⟨2⟩⟩ ⟨0, 4⟩ .exclusive false,
      .access ⟨⟨1⟩, ⟨3⟩⟩ ⟨0, 4⟩ .write]).permissionAt ⟨⟨1⟩, ⟨2⟩⟩ 0 = .ok .active := by
    decide +kernel
  have h₃ : ((new {}).run [.allocate 8, .derive ⟨⟨1⟩, ⟨2⟩⟩ ⟨0, 4⟩ .exclusive false,
      .access ⟨⟨1⟩, ⟨3⟩⟩ ⟨0, 4⟩ .write]).permissionAt ⟨⟨1⟩, ⟨3⟩⟩ 0 = .ok .active := by
    decide +kernel
  obtain ⟨-, x, _, _, _, hx, -⟩ := (permissionAt_eq_ok_iff hk.sound).mp h₂
  exact ⟨_, x, hk, hx, h₂, h₃, (active_chain hk hx 0).2.1 ⟨2⟩ ⟨3⟩ h₂ h₃⟩

end Checker

end TreeBorrows
