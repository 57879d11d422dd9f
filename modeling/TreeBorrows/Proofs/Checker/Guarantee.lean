/-
# What a protector guarantees

While a tag is protected, and its allocation is there, its pointer may be used as if nothing else
pointed to the same bytes.  Three things are guaranteed at every byte of the allocation, inside and
outside of the range that the tag was made for (`guarantee_of_protected`):

* the tag does not die there, if it was not dead to begin with;
* once active there, it stays active;
* while it is active there, whatever goes through a tag that is neither the tag itself nor below it,
  and covers the byte, is refused.

It does not matter when the tag was protected, nor whether a state is kept for it at the byte.  An
access that is carried out has asked every node (`Arena.CarriedOut`), also those that it passed
over, so the first two parts are about one step of one node (`Permission.isKept_of_transition?`).
-/
import TreeBorrows.Proofs.Checker.Rejection

namespace TreeBorrows

/-! ## 1. One step -/

namespace Permission

/-- Between the two permissions, the tag has kept what its protector guarantees. -/
def IsKept (q q' : Permission) : Prop :=
  (q ≠ .disabled → q' ≠ .disabled) ∧ (q = .active → q' = .active)

theorem IsKept.refl (q : Permission) : q.IsKept q := ⟨id, id⟩

theorem IsKept.trans {q q' q'' : Permission} (h : q.IsKept q') (h' : q'.IsKept q'') :
    q.IsKept q'' :=
  ⟨fun hq => h'.1 (h.1 hq), fun hq => h'.2 (h.2 hq)⟩

/-- A step that does not hurt the protector keeps what it guarantees. -/
theorem isKept_of_transition? {kind : AccessKind} {rel : Relatedness} {q : Permission}
    {tr : Transition} (h : q.transition? kind rel true = some tr)
    (hviol : ¬tr.violatesProtector = true) : q.IsKept tr.target := by
  obtain ⟨q', hq', rfl⟩ := Option.map_eq_some_iff.mp h
  revert hq' hviol
  unfold IsKept
  cases kind <;> cases rel <;> cases q <;> cases q' <;> decide

/-- Whatever foreign access an active tag takes part in, it hurts a protector. -/
theorem violatesProtector_of_active {kind : AccessKind} {rel : Relatedness} {tr : Transition}
    (hrel : rel.isForeign = true) (h : active.transition? kind rel true = some tr) :
    tr.violatesProtector = true := by
  obtain ⟨q', hq', rfl⟩ := Option.map_eq_some_iff.mp h
  revert hq' hrel
  cases kind <;> cases rel <;> cases q' <;> decide

end Permission

theorem Arena.Advances.isKept {a a' : Arena} {prot : Tag → Bool} {states states' : ByteStates}
    (h : a.Advances a' prot states states') {i : Nat} {n n' : Node} (hn : a.get? i = some n)
    (hn' : a'.get? i = some n') (hprot : prot n.tag = true) :
    (n.stateIn states i).permission.IsKept (n'.stateIn states' i).permission := by
  obtain ⟨mid, hmid, hr⟩ := h
  rw [(hr.old hn hn').permission_eq]
  rcases hmid with rfl | ⟨kind, start, -, hc⟩
  · exact .refl _
  · obtain ⟨tr, hacc⟩ := hc i n hn
    obtain ⟨htr, hviol, hs'⟩ := ByteState.access_eq_ok_iff.mp hacc
    rw [hprot] at htr
    rw [hs']
    exact Permission.isKept_of_transition? htr fun h => hviol ⟨hprot, h⟩

/-- No access that is foreign to a protected node is allowed where the node is active. -/
theorem Tree.not_allows_of_active {t : Tree} {ctx : Context} {kind : AccessKind}
    {range : ByteRange} {start i o : Nat} {n : Node} {b : ByteState}
    (hn : t.arena.get? i = some n) (hprot : ctx.isProtected n.tag = true) (ho : o ∈ range)
    (hb : t.stateOf n.tag o = .ok b) (hactive : b.permission = .active)
    (hforeign : i ∉ t.arena.lineage start) : ¬t.Allows ctx kind range start := by
  intro hallows
  obtain ⟨s, tr, hs, htr, hviol⟩ := hallows o ho i n hn
  obtain rfl := Except.ok.inj (hb.symm.trans hs)
  have hrel : (t.arena.relatedness start i).isForeign = true := by
    simpa [Arena.isForeign_relatedness] using hforeign
  rw [hactive, hprot] at htr
  exact hviol ⟨hprot, Permission.violatesProtector_of_active hrel htr⟩

namespace Checker

variable {k : Checker} {es fs : List Event} {p : Pointer} {o : Nat} {q : Permission}

/-! ## 2. Stretches of a run -/

/-- Throughout a run, from its first state to its last one, the tag of the pointer is protected and
its allocation is live. -/
def Shields (k : Checker) (es : List Event) (p : Pointer) : Prop :=
  ∀ pre post, es = pre ++ post → (k.run pre).protector? p.tag ≠ none ∧
    (k.run pre).allocations.contains p.alloc = true

namespace Shields

theorem first (h : k.Shields es p) :
    k.protector? p.tag ≠ none ∧ k.allocations.contains p.alloc = true :=
  h [] es rfl

theorem left (h : k.Shields (es ++ fs) p) : k.Shields es p := by
  intro pre post heq
  exact h pre (post ++ fs) (by rw [heq, List.append_assoc])

theorem right (h : k.Shields (es ++ fs) p) : (k.run es).Shields fs p := by
  intro pre post heq
  rw [← run_append]
  exact h (es ++ pre) post (by rw [heq, List.append_assoc])

end Shields

theorem contains_of_protector? (h : k.protector? p.tag ≠ none) :
    k.protectors.contains p.tag = true := by
  simpa [Table.contains, protector?, Option.isSome_iff_ne_none] using h

/-- **One event keeps what a protector guarantees.** -/
theorem isKept_perform (hk : k.Reachable) (e : Event) (hprot : k.protector? p.tag ≠ none)
    (hlive : (k.perform e).state.allocations.contains p.alloc = true)
    (hq : k.permissionAt p o = .ok q) :
    ∃ q', (k.perform e).state.permissionAt p o = .ok q' ∧ q.IsKept q' := by
  have hs := hk.sound
  have hs' := (hk.perform e).sound
  obtain ⟨hlimit, x, i, n, states, hx, hi, hn, ho, rfl⟩ := (permissionAt_eq_ok_iff hs).mp hq
  obtain ⟨x', hx'⟩ := Option.isSome_iff_exists.mp hlive
  have hadv := hk.advances_tree e hx hx'
  have hi' := hadv.index?_eq (hs.tree hx) (hs'.tree hx') hi
  obtain ⟨n', hn', -⟩ := hadv.grows i n hn
  obtain ⟨states', ho', ha⟩ := hadv.exists_valueAt? ho
  have htag : n.tag = p.tag := (hs.tree hx).tag_eq_of_index? hi hn
  refine ⟨_, (permissionAt_eq_ok_iff hs').mpr
    ⟨hlimit, x', i, n', states', hx', hi', hn', ho', rfl⟩, ?_⟩
  exact ha.isKept hn hn' (htag ▸ contains_of_protector? hprot)

/-- **And so does a run** throughout which the tag is protected. -/
theorem isKept_run (hk : k.Reachable) (h : k.Shields es p) (hq : k.permissionAt p o = .ok q) :
    ∃ q', (k.run es).permissionAt p o = .ok q' ∧ q.IsKept q' := by
  induction es generalizing k q with
  | nil => exact ⟨q, hq, .refl q⟩
  | cons e es ih =>
    have hrest : (k.run [e]).Shields es p := h.right
    obtain ⟨q', hq', hkept⟩ := isKept_perform hk e h.first.1 hrest.first.2 hq
    obtain ⟨q'', hq'', hkept'⟩ := ih (hk.perform e) hrest hq'
    exact ⟨q'', hq'', hkept.trans hkept'⟩

/-! ## 3. Other pointers -/

/-- The event goes through a tag of the allocation of `p` that is neither the tag of `p` nor below
it, and it asks for a byte of the allocation. -/
def Intrudes (k : Checker) (e : Event) (p : Pointer) (o : Nat) : Prop :=
  ∃ d x, k.Demands e d x ∧ d.pointer.alloc = p.alloc ∧ o ∈ d.range ∧
    ¬x.tree.IsAtOrAbove p.tag d.pointer.tag

/-- **Intruders are refused** where a protected tag is active. -/
theorem violation_of_intrudes (h : k.Sound) (hprot : k.protector? p.tag ≠ none)
    (hq : k.permissionAt p o = .ok .active) {e : Event} (he : k.Intrudes e p o) :
    ∃ v, (k.perform e).result = .error (.error (.aliasing v)) := by
  obtain ⟨d, x, hd, halloc, ho, hnot⟩ := he
  obtain ⟨hlimit, y, i, n, states, hy, hi, hn, hval, hactive⟩ := (permissionAt_eq_ok_iff h).mp hq
  have hx : k.allocations.get? p.alloc = some x := halloc ▸ hd.live
  obtain rfl := Option.some.inj (hx.symm.trans hy)
  have ht := h.tree hx
  obtain ⟨j, m, hm, htag⟩ := ht.mem_tags_iff.mp hd.mem_tags
  have hj : x.tree.tags.index? d.pointer.tag = some j := htag ▸ ht.index?_tag hm
  have hp : n.tag = p.tag := ht.tag_eq_of_index? hi hn
  rw [Tree.isAtOrAbove_iff hi hj] at hnot
  refine violation_of_not_allows h hd hj ?_
  refine Tree.not_allows_of_active hn ?_ ho (ht.stateOf_eq hn hval hlimit) hactive hnot
  exact hp ▸ contains_of_protector? hprot

/-- **What a protector guarantees.**  Take a stretch of a run throughout which a tag is protected
and its allocation is live, and an offset of it.  If the tag is not dead there at the start, it
never is; once it is active there, it stays active; and while it is active there, every event that
asks for the offset through a tag that is neither the tag itself nor below it is refused with a
violation. -/
theorem guarantee_of_protected (hk : k.Reachable) (h : k.Shields es p) (o : Nat) :
    (∀ x, k.allocations.get? p.alloc = some x → p.tag ∈ x.tree.tags.keys → o < x.tree.size →
        o + 1 < Word.limit → k.permissionAt p o ≠ .ok .disabled → ∀ pre post, es = pre ++ post →
          ∃ q, (k.run pre).permissionAt p o = .ok q ∧ q ≠ .disabled) ∧
      (∀ pre mid post, es = pre ++ mid ++ post → (k.run pre).permissionAt p o = .ok .active →
        (k.run (pre ++ mid)).permissionAt p o = .ok .active) ∧
      (∀ pre post, es = pre ++ post → (k.run pre).permissionAt p o = .ok .active →
        ∀ e, (k.run pre).Intrudes e p o →
          ∃ v, ((k.run pre).perform e).result = .error (.error (.aliasing v))) := by
  refine ⟨?_, ?_, ?_⟩
  · rintro x hx htag ho hlimit hne pre post rfl
    obtain ⟨q, hq⟩ := exists_permissionAt hk.sound hx htag ho hlimit
    obtain ⟨q', hq', hkept⟩ := isKept_run hk h.left hq
    refine ⟨q', hq', hkept.1 ?_⟩
    rintro rfl
    exact hne hq
  · rintro pre mid post rfl hactive
    obtain ⟨q', hq', hkept⟩ := isKept_run (hk.run pre) h.left.right hactive
    rw [run_append, hq', hkept.2 rfl]
  · intro pre post heq hactive e he
    exact violation_of_intrudes (hk.run pre).sound (h pre post heq).1 hactive he

/-- A protected borrow of the first four of eight bytes is written through at offset 6, and a read
of that byte through its parent is refused. -/
theorem guarantee_outside_of_range :
    ∃ k : Checker, k.Reachable ∧
      k.Shields [.access ⟨⟨1⟩, ⟨3⟩⟩ ⟨6, 1⟩ .write] ⟨⟨1⟩, ⟨3⟩⟩ ∧
      (k.run [.access ⟨⟨1⟩, ⟨3⟩⟩ ⟨6, 1⟩ .write]).permissionAt ⟨⟨1⟩, ⟨3⟩⟩ 6 = .ok .active ∧
      ∃ v, ((k.run [.access ⟨⟨1⟩, ⟨3⟩⟩ ⟨6, 1⟩ .write]).perform
        (.access ⟨⟨1⟩, ⟨2⟩⟩ ⟨6, 1⟩ .read)).result = .error (.error (.aliasing v)) := by
  have hk : Reachable ((new {}).run [.allocate 8, .enter ⟨0⟩ [],
      .retag ⟨⟨1⟩, ⟨2⟩⟩ ⟨0, 4⟩ .exclusive false .strong]) := ⟨{}, _, rfl⟩
  have hshields : Shields ((new {}).run [.allocate 8, .enter ⟨0⟩ [],
      .retag ⟨⟨1⟩, ⟨2⟩⟩ ⟨0, 4⟩ .exclusive false .strong])
        [.access ⟨⟨1⟩, ⟨3⟩⟩ ⟨6, 1⟩ .write] ⟨⟨1⟩, ⟨3⟩⟩ := by
    intro pre post heq
    rcases List.append_eq_singleton_iff.mp heq.symm with ⟨rfl, -⟩ | ⟨rfl, -⟩
    · exact ⟨by decide +kernel, by decide +kernel⟩
    · exact ⟨by decide +kernel, by decide +kernel⟩
  have hactive : (((new {}).run [.allocate 8, .enter ⟨0⟩ [],
      .retag ⟨⟨1⟩, ⟨2⟩⟩ ⟨0, 4⟩ .exclusive false .strong]).run
        [.access ⟨⟨1⟩, ⟨3⟩⟩ ⟨6, 1⟩ .write]).permissionAt ⟨⟨1⟩, ⟨3⟩⟩ 6 = .ok .active := by
    decide +kernel
  -- in the second state the tags 2 and 3 have the indices 0 and 1
  have hview : ((((new {}).run [.allocate 8, .enter ⟨0⟩ [],
      .retag ⟨⟨1⟩, ⟨2⟩⟩ ⟨0, 4⟩ .exclusive false .strong]).run
        [.access ⟨⟨1⟩, ⟨3⟩⟩ ⟨6, 1⟩ .write]).allocations.get? ⟨1⟩).map (fun x =>
          (x.tree.tags.index? ⟨2⟩, x.tree.tags.index? ⟨3⟩, x.tree.size)) =
            some (some 0, some 1, 8) := by
    decide +kernel
  obtain ⟨x, hx, hview⟩ := Option.map_eq_some_iff.mp hview
  obtain ⟨hroot, hborrow, hsize⟩ : x.tree.tags.index? ⟨2⟩ = some 0 ∧
      x.tree.tags.index? ⟨3⟩ = some 1 ∧ x.tree.size = 8 := by
    simpa using hview
  refine ⟨_, hk, hshields, hactive, ?_⟩
  refine (guarantee_of_protected hk hshields 6).2.2 _ [] (List.append_nil _).symm hactive _ ?_
  refine ⟨⟨⟨⟨1⟩, ⟨2⟩⟩, ⟨6, 1⟩, .read⟩, x, ⟨hx, rfl, ?_, by decide, ?_⟩, rfl, by decide, ?_⟩
  · exact List.mem_of_getElem? (Registry.getElem?_of_index? hroot)
  · rw [hsize]
    decide
  · have hlineage := Arena.lineage_root ((hk.run _).sound.tree hx).wellLinked
    rw [Arena.root] at hlineage
    rw [Tree.isAtOrAbove_iff hborrow hroot, hlineage]
    decide

end Checker

end TreeBorrows
