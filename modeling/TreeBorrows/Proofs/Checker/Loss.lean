/-
# What a tag has lost stays lost

The order of permissions is the order in which a tag loses what it may do, and a run of a checker
only moves up in it (`ages_run`): at every byte of an allocation that stays live, the permission of
a tag is never below what it was, and a byte that was accessed stays so.  Neither the way the runs
are cut nor the states that are not kept play a part in it; `Checker.Advances` has taken care of
them.

What makes this a guarantee is that a lost right is asked for on the whole path to the root.  A tag
that is dead at a byte stands in the way of every access to the byte through the tag or through
anything below it, now and after any further run, and a frozen one of every write
(`Permission.Bars`, `lost_for_good`).
-/
import TreeBorrows.Proofs.Checker.Rejection

namespace TreeBorrows

/-! ## 1. One step -/

namespace Permission

/-- The permission does not allow an access of this kind through its tag or below it, and never
will again. -/
def Bars (q : Permission) (kind : AccessKind) : Prop :=
  q = .disabled ∨ q = .frozen ∧ kind = .write

variable {q q' : Permission} {kind : AccessKind}

/-- With less capability, no more is allowed. -/
theorem Bars.mono (h : q.Bars kind) (hle : q ≤ q') : q'.Bars kind := by
  revert h hle
  unfold Bars
  cases kind <;> cases q <;> cases q' <;> decide

/-- What is barred has no step for a child access. -/
theorem Bars.transition?_eq_none (h : q.Bars kind) {rel : Relatedness}
    (hrel : rel.isForeign = false) (prot : Bool) : q.transition? kind rel prot = none := by
  revert h hrel
  unfold Bars
  cases kind <;> cases rel <;> cases q <;> simp [transition?, afterAccess?, afterChildRead?,
    afterChildWrite?, Relatedness.isForeign]

end Permission

namespace ByteState

/-- The second state comes after the first one: it gives no right that the first one had lost, and
the byte counts as accessed if it did before. -/
structure Ages (b b' : ByteState) : Prop where
  permission_le : b.permission ≤ b'.permission
  accessed : b.accessed = true → b'.accessed = true

variable {b b' b'' : ByteState}

theorem Ages.refl (b : ByteState) : b.Ages b := ⟨Permission.le_refl _, id⟩

theorem Ages.trans (h : b.Ages b') (h' : b'.Ages b'') : b.Ages b'' where
  permission_le := Permission.le_trans h.permission_le h'.permission_le
  accessed hb := h'.accessed (h.accessed hb)

theorem Fades.ages (h : b.Fades b') : b.Ages b' where
  permission_le := h.permission_eq ▸ Permission.le_refl _
  accessed hb := h.accessed_eq.trans hb

/-- An accepted access ages a state. -/
theorem ages_of_access {kind : AccessKind} {rel : Relatedness} {prot : Bool} {tr : Transition}
    (h : b.access kind rel prot = .ok (b', tr)) : b.Ages b' := by
  obtain ⟨htr, -, rfl⟩ := access_eq_ok_iff.mp h
  obtain ⟨q, hq, rfl⟩ := Option.map_eq_some_iff.mp htr
  exact ⟨Permission.le_of_afterAccess? hq, fun hb => by simp [hb]⟩

end ByteState

theorem Arena.Advances.ages {a a' : Arena} {prot : Tag → Bool} {states states' : ByteStates}
    (h : a.Advances a' prot states states') {i : Nat} {n n' : Node} (hn : a.get? i = some n)
    (hn' : a'.get? i = some n') : (n.stateIn states i).Ages (n'.stateIn states' i) := by
  obtain ⟨mid, hmid, hr⟩ := h
  refine ByteState.Ages.trans ?_ (hr.old hn hn').ages
  rcases hmid with rfl | ⟨kind, start, -, hc⟩
  · exact .refl _
  · obtain ⟨tr, hacc⟩ := hc i n hn
    exact ByteState.ages_of_access hacc

/-- No access is allowed through a node at or below one that bars it. -/
theorem Tree.not_allows_of_bars {t : Tree} {ctx : Context} {kind : AccessKind} {range : ByteRange}
    {start i o : Nat} {n : Node} {b : ByteState} (hn : t.arena.get? i = some n) (ho : o ∈ range)
    (hb : t.stateOf n.tag o = .ok b) (hbars : b.permission.Bars kind)
    (habove : i ∈ t.arena.lineage start) : ¬t.Allows ctx kind range start := by
  intro hallows
  obtain ⟨s, tr, hs, htr, -⟩ := hallows o ho i n hn
  obtain rfl := Except.ok.inj (hb.symm.trans hs)
  have hrel : (t.arena.relatedness start i).isForeign = false := by
    simpa [Arena.isForeign_relatedness] using habove
  rw [hbars.transition?_eq_none hrel] at htr
  nomatch htr

namespace Checker

variable {k : Checker} {p : Pointer} {o : Nat} {b : ByteState}

/-! ## 2. Runs -/

/-- A number that was given out is not given to another allocation: what is live after a run was
live before it. -/
theorem contains_of_contains_run (hk : k.Reachable) {a : AllocationId}
    (ha : a.number < k.nextAlloc) {es : List Event}
    (h : (k.run es).allocations.contains a = true) : k.allocations.contains a = true := by
  induction es generalizing k with
  | nil => exact h
  | cons e es ih =>
    have hadv := advances_perform hk.sound e
    have hlive := ih (hk.perform e) (Nat.lt_of_lt_of_le ha hadv.nextAlloc_le) h
    obtain ⟨x', hx'⟩ := Option.isSome_iff_exists.mp hlive
    rcases hadv.tree hx' with ⟨x, hx, -⟩ | ⟨hle, -, -⟩
    · exact Option.isSome_iff_exists.mpr ⟨x, hx⟩
    · exact absurd ha (Nat.not_lt.mpr hle)

/-- An event ages the state of a tag at a byte, if the allocation stays. -/
theorem ages_perform (hk : k.Reachable) (e : Event)
    (hlive : (k.perform e).state.allocations.contains p.alloc = true)
    (hb : k.stateOf p o = .ok b) :
    ∃ b', (k.perform e).state.stateOf p o = .ok b' ∧ b.Ages b' := by
  obtain ⟨x, hx, hb⟩ := stateOf_eq_ok_iff.mp hb
  have ht := hk.sound.tree hx
  obtain ⟨hlimit, i, n, states, hi, hn, ho, rfl⟩ := ht.stateOf_eq_ok_iff.mp hb
  obtain ⟨x', hx'⟩ := Option.isSome_iff_exists.mp hlive
  have ht' := (hk.perform e).sound.tree hx'
  have hadv := hk.advances_tree e hx hx'
  have hi' := hadv.index?_eq ht ht' hi
  obtain ⟨n', hn', -⟩ := hadv.grows i n hn
  obtain ⟨states', ho', ha⟩ := hadv.exists_valueAt? ho
  refine ⟨n'.stateIn states' i, stateOf_eq_ok_iff.mpr ⟨x', hx', ?_⟩, ha.ages hn hn'⟩
  exact ht'.stateOf_eq_ok_iff.mpr ⟨hlimit, i, n', states', hi', hn', ho', rfl⟩

/-- **And so does a run** that leaves the allocation live. -/
theorem ages_run (hk : k.Reachable) {es : List Event}
    (hlive : (k.run es).allocations.contains p.alloc = true) (hb : k.stateOf p o = .ok b) :
    ∃ b', (k.run es).stateOf p o = .ok b' ∧ b.Ages b' := by
  induction es generalizing k b with
  | nil => exact ⟨b, hb, .refl b⟩
  | cons e es ih =>
    obtain ⟨x, hx, -⟩ := stateOf_eq_ok_iff.mp hb
    have hnumber : p.alloc.number < (k.perform e).state.nextAlloc :=
      Nat.lt_of_lt_of_le (hk.number_lt hx) (advances_perform hk.sound e).nextAlloc_le
    have hnext := contains_of_contains_run (hk.perform e) hnumber hlive
    obtain ⟨b', hb', hages⟩ := ages_perform hk e hnext hb
    obtain ⟨b'', hb'', hages'⟩ := ih (hk.perform e) hlive hb'
    exact ⟨b'', hb'', hages.trans hages'⟩

/-! ## 3. Refusals -/

/-- The event asks for an access to the byte at an offset, through the tag of the pointer or one
that lies below it now. -/
structure Exercises (k : Checker) (e : Event) (p : Pointer) (o : Nat) (d : Demand)
    (x : Allocation) : Prop where
  live : k.allocations.get? p.alloc = some x
  demand : e.demand? x.tree.size = some d
  alloc_eq : d.pointer.alloc = p.alloc
  below : x.tree.IsAtOrAbove p.tag d.pointer.tag
  mem_range : o ∈ d.range

/-- A right that a tag has lost is refused to it and to everything below it. -/
theorem refused_of_bars (hk : k.Sound) (hb : k.stateOf p o = .ok b) {e : Event} {d : Demand}
    {x : Allocation} (he : k.Exercises e p o d x) (hbars : b.permission.Bars d.kind) :
    ∃ err, (k.perform e).result = .error (.error err) ∧
      (d.range.stop < Word.limit → d.range.stop ≤ x.tree.size → ∃ v, err = .aliasing v) := by
  obtain ⟨hx, hdemand, halloc, ⟨i, j, hi, hj, habove⟩, ho⟩ := he
  have hx' : k.allocations.get? d.pointer.alloc = some x := halloc ▸ hx
  have ht := hk.tree hx
  obtain ⟨n, hn, htag⟩ := ht.exists_get? hi
  have hbn : x.tree.stateOf n.tag o = .ok b := by
    rw [htag, ← stateOf_of_get? hx]
    exact hb
  by_cases hinside : d.range.stop < Word.limit ∧ d.range.stop ≤ x.tree.size
  · have hmem : d.pointer.tag ∈ x.tree.tags.keys :=
      List.mem_of_getElem? (Registry.getElem?_of_index? hj)
    obtain ⟨v, hv⟩ := violation_of_not_allows hk ⟨hx', hdemand, hmem, hinside.1, hinside.2⟩ hj
      (Tree.not_allows_of_bars hn ho hbn hbars habove)
    exact ⟨.aliasing v, hv, fun _ _ => ⟨v, rfl⟩⟩
  · obtain ⟨r, hr⟩ := outOfBounds_of_demand hk hx' hdemand hj hinside
    exact ⟨.outOfBounds r, hr, fun hlimit hstop => absurd ⟨hlimit, hstop⟩ hinside⟩

/-- **What a tag has lost stays lost.**  Take a tag at a byte, and any run after which its
allocation is live.  The permission has only moved up in the order, and a byte that was accessed
still is.  If the tag was dead there, every access to the byte through the tag or anything below it
is refused, reborrows and frees included, and if it was frozen every write: with a violation where
the range lies inside the allocation. -/
theorem lost_for_good (hk : k.Reachable) (hb : k.stateOf p o = .ok b) {es : List Event}
    (hlive : (k.run es).allocations.contains p.alloc = true) :
    (∃ b', (k.run es).stateOf p o = .ok b' ∧ b.permission ≤ b'.permission ∧
        (b.accessed = true → b'.accessed = true)) ∧
      ∀ e d x, (k.run es).Exercises e p o d x →
        b.permission = .disabled ∨ b.permission = .frozen ∧ d.kind = .write →
          ∃ err, ((k.run es).perform e).result = .error (.error err) ∧
            (d.range.stop < Word.limit → d.range.stop ≤ x.tree.size →
              ∃ v, err = .aliasing v) := by
  obtain ⟨b', hb', hages⟩ := ages_run hk hlive hb
  refine ⟨⟨b', hb', hages.permission_le, hages.accessed⟩, fun e d x he hbars => ?_⟩
  have hbars' : b'.permission.Bars d.kind := Permission.Bars.mono hbars hages.permission_le
  exact refused_of_bars (hk.run es).sound hb' he hbars'

/-- A borrow of four of eight bytes dies by a write through its parent.  A pointer derived from it
afterwards, over the other four bytes, cannot read the first four. -/
theorem lost_for_later_child :
    ∃ (k : Checker) (x : Allocation) (err : Error), k.Reachable ∧
      (k.stateOf ⟨⟨1⟩, ⟨3⟩⟩ 2).map ByteState.permission = .ok .disabled ∧
      (k.run [.derive ⟨⟨1⟩, ⟨3⟩⟩ ⟨4, 4⟩ .exclusive false]).Exercises
        (.access ⟨⟨1⟩, ⟨4⟩⟩ ⟨0, 8⟩ .read) ⟨⟨1⟩, ⟨3⟩⟩ 2 ⟨⟨⟨1⟩, ⟨4⟩⟩, ⟨0, 8⟩, .read⟩ x ∧
      ((k.run [.derive ⟨⟨1⟩, ⟨3⟩⟩ ⟨4, 4⟩ .exclusive false]).perform
        (.access ⟨⟨1⟩, ⟨4⟩⟩ ⟨0, 8⟩ .read)).result = .error (.error err) := by
  have hk : Reachable ((new {}).run [.allocate 8, .derive ⟨⟨1⟩, ⟨2⟩⟩ ⟨0, 4⟩ .exclusive false,
      .access ⟨⟨1⟩, ⟨2⟩⟩ ⟨0, 4⟩ .write]) := ⟨{}, _, rfl⟩
  have hb : ((new {}).run [.allocate 8, .derive ⟨⟨1⟩, ⟨2⟩⟩ ⟨0, 4⟩ .exclusive false,
      .access ⟨⟨1⟩, ⟨2⟩⟩ ⟨0, 4⟩ .write]).stateOf ⟨⟨1⟩, ⟨3⟩⟩ 2 =
        .ok ⟨.disabled, true, .writes⟩ := by
    decide +kernel
  have hlive : (((new {}).run [.allocate 8, .derive ⟨⟨1⟩, ⟨2⟩⟩ ⟨0, 4⟩ .exclusive false,
      .access ⟨⟨1⟩, ⟨2⟩⟩ ⟨0, 4⟩ .write]).run
        [.derive ⟨⟨1⟩, ⟨3⟩⟩ ⟨4, 4⟩ .exclusive false]).allocations.contains ⟨1⟩ = true := by
    decide +kernel
  -- in the last state the tags 3 and 4 have the indices 1 and 2
  have hview : ((((new {}).run [.allocate 8, .derive ⟨⟨1⟩, ⟨2⟩⟩ ⟨0, 4⟩ .exclusive false,
      .access ⟨⟨1⟩, ⟨2⟩⟩ ⟨0, 4⟩ .write]).run
        [.derive ⟨⟨1⟩, ⟨3⟩⟩ ⟨4, 4⟩ .exclusive false]).allocations.get? ⟨1⟩).map (fun x =>
          (x.tree.tags.index? ⟨3⟩, x.tree.tags.index? ⟨4⟩, x.tree.arena.lineage 2)) =
            some (some 1, some 2, [2, 1, 0]) := by
    decide +kernel
  obtain ⟨x, hx, hview⟩ := Option.map_eq_some_iff.mp hview
  obtain ⟨hborrow, hchild, hlineage⟩ : x.tree.tags.index? ⟨3⟩ = some 1 ∧
      x.tree.tags.index? ⟨4⟩ = some 2 ∧ x.tree.arena.lineage 2 = [2, 1, 0] := by
    simpa using hview
  have he : Exercises _ (.access ⟨⟨1⟩, ⟨4⟩⟩ ⟨0, 8⟩ .read) ⟨⟨1⟩, ⟨3⟩⟩ 2
      ⟨⟨⟨1⟩, ⟨4⟩⟩, ⟨0, 8⟩, .read⟩ x :=
    ⟨hx, rfl, rfl, ⟨1, 2, hborrow, hchild, by rw [hlineage]; decide⟩, by decide⟩
  obtain ⟨err, herr, -⟩ := (lost_for_good hk hb hlive).2 _ _ x he (.inl rfl)
  exact ⟨_, x, err, hk, by rw [hb]; rfl, he, herr⟩

end Checker

end TreeBorrows
