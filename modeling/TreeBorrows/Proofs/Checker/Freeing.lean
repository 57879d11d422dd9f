/-
# Who may free an allocation

A free is checked in two layers: it has to be allowed as a write to all bytes, and then no tag of
the tree may be strongly protected, whatever it may do and wherever it was accessed.  Read at the
tags, the first layer says two things (`mayOverwrite_iff_allows`).  What is at or above the freeing
tag must still be writable everywhere, and what is protected anywhere else must be dead already.

`free_iff_mayFree` says that a free is granted exactly if both layers are passed, for allocations
without a byte as well, and that nothing but the allocation goes with it.  As with every access
there is one exception: a granted free still counts the runs to join at, and where that count is no
word it ends in a fault (`fault_of_free`).
-/
import TreeBorrows.Proofs.Checker.Refusal

namespace TreeBorrows

/-! ## 1. One tree -/

namespace Tree

variable {t : Tree} {ctx : Context} {tag : Tag} {start : Nat}

/-- **What the second layer makes of a free that the first one allows.** -/
theorem free_of_allows (h : t.Sound ctx.isProtected) (hi : t.tags.index? tag = some start)
    (hsize : t.size < Word.limit) (hallows : t.Allows ctx .write ⟨0, t.size⟩ start) :
    (t.stronglyProtected? ctx = none → (t.free ctx tag).result =
      if t.runsAtLastMerge + t.mergeSlack < Word.limit then .ok ()
      else .error (.fault .overflow)) ∧
    ∀ i n, t.stronglyProtected? ctx = some (i, n) →
      ∃ v, (t.free ctx tag).result = .error (.error (.aliasing v)) ∧
        v.conflict = .protectedFree ∧ v.conflicting = n.label := by
  obtain ⟨m, hm, -⟩ := h.exists_get? hi
  have hstop : (⟨0, t.size⟩ : ByteRange).stop = t.size := Nat.zero_add t.size
  have hinside : (⟨0, t.size⟩ : ByteRange).stop < Word.limit ∧
      (⟨0, t.size⟩ : ByteRange).stop ≤ t.size := ⟨hstop.symm ▸ hsize, Nat.le_of_eq hstop⟩
  obtain ⟨us, hus⟩ : ∃ us, t.pending ctx ⟨tag, ⟨0, t.size⟩, .write, .dealloc⟩ start m.label =
      .ok us :=
    (pending_eq_ok_iff h (Arena.lt_width_of_get? hm) hinside.2 m.label).mpr
      ((allows_iff_granted h hinside.1 hinside.2).mp hallows)
  have hplan : t.plan ctx ⟨tag, ⟨0, t.size⟩, .write, .dealloc⟩ = _ :=
    plan_eq hi hm (requireRange_eq_ok_iff.mpr hinside)
  have hresult : (t.plan ctx ⟨tag, ⟨0, t.size⟩, .write, .dealloc⟩).result = .ok us := by
    rw [hplan, hus]
  refine ⟨fun hnone => ?_, fun i n hsome => ?_⟩
  · rw [free_of_not_stronglyProtected h hresult hnone, hplan,
      settle_divided h.isProper (RunMap.checkRange_eq_ok_iff.mpr hinside), Outcome.result_after,
      Outcome.result_after]
    exact result_tidied (t.committed ⟨0, t.size⟩ us)
  · obtain ⟨v, hfree, hconflict, hconflicting⟩ := free_of_stronglyProtected h hresult hsome
    exact ⟨v, by rw [hfree]; rfl, hconflict, hconflicting⟩

end Tree

/-! ## 2. In every reachable state -/

namespace Checker

variable {k : Checker} {x : Allocation} {p : Pointer}

/-- The pointer's tag is one of the allocation's, and could be written through at every byte of
it. -/
structure MayOverwrite (k : Checker) (x : Allocation) (p : Pointer) : Prop where
  mem_tags : p.tag ∈ x.tree.tags.keys
  above : ∀ tag o, o < x.tree.size → x.tree.IsAtOrAbove tag p.tag →
    ∃ q, k.permissionAt ⟨p.alloc, tag⟩ o = .ok q ∧ (q.isReserved = true ∨ q = .active)
  beside : ∀ tag ∈ x.tree.tags.keys, ∀ o, o < x.tree.size → ¬x.tree.IsAtOrAbove tag p.tag →
    k.protector? tag ≠ none → k.permissionAt ⟨p.alloc, tag⟩ o = .ok .disabled

/-- The pointer may free the allocation. -/
structure MayFree (k : Checker) (x : Allocation) (p : Pointer) : Prop extends
    MayOverwrite k x p where
  protector?_ne : ∀ tag ∈ x.tree.tags.keys, k.protector? tag ≠ some .strong

theorem permissionAt_of_get? (hx : k.allocations.get? p.alloc = some x) (o : Nat) :
    k.permissionAt p o = (x.tree.stateOf p.tag o).map ByteState.permission := by
  rw [permissionAt, stateOf_of_get? hx]

/-- **Which writes a tag accepts at a byte**, said of its permission. -/
theorem Sound.accepts_write_iff (h : k.Sound) (hx : k.allocations.get? p.alloc = some x)
    {start i o : Nat} {n : Node} (hi : x.tree.tags.index? p.tag = some start)
    (hn : x.tree.arena.get? i = some n) (ho : o < x.tree.size) (hlimit : o + 1 < Word.limit) :
    ∃ q, k.permissionAt ⟨p.alloc, n.tag⟩ o = .ok q ∧
      ((∃ s tr, x.tree.stateOf n.tag o = .ok s ∧
          s.permission.transition? .write (x.tree.arena.relatedness start i)
            ((k.context p.alloc).isProtected n.tag) = some tr ∧
          ¬((k.context p.alloc).isProtected n.tag = true ∧ tr.violatesProtector = true)) ↔
        (x.tree.IsAtOrAbove n.tag p.tag → q.isReserved = true ∨ q = .active) ∧
          (¬x.tree.IsAtOrAbove n.tag p.tag → k.protector? n.tag ≠ none → q = .disabled)) := by
  have hs := h.tree hx
  obtain ⟨states, hval⟩ := x.tree.exists_valueAt? ho
  have hstate := hs.stateOf_eq hn hval hlimit
  have hprot : (k.context p.alloc).isProtected n.tag = true ↔ k.protector? n.tag ≠ none :=
    Option.isSome_iff_ne_none
  have hforeign : (x.tree.arena.relatedness start i).isForeign = true ↔
      ¬x.tree.IsAtOrAbove n.tag p.tag := by
    rw [Arena.isForeign_relatedness, decide_eq_true_iff, Tree.isAtOrAbove_iff (hs.index?_tag hn) hi]
  refine ⟨(n.stateIn states i).permission, ?_, ?_⟩
  · rw [permissionAt_of_get? (p := ⟨p.alloc, n.tag⟩) hx, hstate]
    rfl
  · have hstep := (n.stateIn states i).permission.accepts_write_iff
      (x.tree.arena.relatedness start i) ((k.context p.alloc).isProtected n.tag)
    simp only [hstate, Except.ok.injEq, exists_and_left, exists_eq_left', hstep]
    by_cases hat : x.tree.IsAtOrAbove n.tag p.tag
    · simp [hat, mt hforeign.mp (not_not.mpr hat)]
    · simp [hat, hforeign.mpr hat, hprot]

/-- A pointer may overwrite an allocation if every node of it allows a write to all bytes. -/
theorem mayOverwrite_iff_allows (h : k.Sound) (hx : k.allocations.get? p.alloc = some x)
    (hsize : x.tree.size < Word.limit) {start : Nat}
    (hi : x.tree.tags.index? p.tag = some start) :
    k.MayOverwrite x p ↔ x.tree.Allows (k.context p.alloc) .write ⟨0, x.tree.size⟩ start := by
  have hs := h.tree hx
  have hlt : ∀ {o}, o ∈ (⟨0, x.tree.size⟩ : ByteRange) ↔ o < x.tree.size := by
    simp [ByteRange.mem_iff]
  constructor
  · intro hmay o ho i n hn
    rw [hlt] at ho
    obtain ⟨q, hq, hiff⟩ := h.accepts_write_iff hx hi hn ho (by omega)
    refine hiff.mpr ⟨fun hat => ?_, fun hat hprot => ?_⟩
    · obtain ⟨q', hq', hgood⟩ := hmay.above n.tag o ho hat
      exact Except.ok.inj (hq.symm.trans hq') ▸ hgood
    · have hdead := hmay.beside n.tag (hs.mem_tags_iff.mpr ⟨i, n, hn, rfl⟩) o ho hat hprot
      exact Except.ok.inj (hq.symm.trans hdead)
  · intro hallows
    obtain ⟨m, hm, htag⟩ := hs.exists_get? hi
    refine ⟨hs.mem_tags_iff.mpr ⟨start, m, hm, htag⟩, fun tag o ho hat => ?_,
      fun tag htag o ho hat hprot => ?_⟩
    · obtain ⟨i, -, hti, -⟩ := id hat
      obtain ⟨n, hn, rfl⟩ := hs.exists_get? hti
      obtain ⟨q, hq, hiff⟩ := h.accepts_write_iff hx hi hn ho (by omega)
      exact ⟨q, hq, (hiff.mp (hallows o (hlt.mpr ho) i n hn)).1 hat⟩
    · obtain ⟨i, n, hn, rfl⟩ := hs.mem_tags_iff.mp htag
      obtain ⟨q, hq, hiff⟩ := h.accepts_write_iff hx hi hn ho (by omega)
      rw [hq, (hiff.mp (hallows o (hlt.mpr ho) i n hn)).2 hat hprot]

/-- A free that passes both layers is granted, if the number of runs to join at is a word. -/
theorem result_free_of_mayFree (h : k.Sound) (hx : k.allocations.get? p.alloc = some x)
    (hsize : x.tree.size < Word.limit) (hmay : k.MayFree x p) :
    (k.free p).result = if x.tree.runsAtLastMerge + x.tree.mergeSlack < Word.limit then .ok ()
      else .error (.fault .overflow) := by
  have hs : x.tree.Sound (k.context p.alloc).isProtected := h.tree hx
  obtain ⟨start, n, hn, htag⟩ := hs.mem_tags_iff.mp hmay.mem_tags
  have hi : x.tree.tags.index? p.tag = some start := htag ▸ hs.index?_tag hn
  have hallows := (mayOverwrite_iff_allows h hx hsize hi).mp hmay.toMayOverwrite
  rw [result_free hx]
  refine (Tree.free_of_allows hs hi hsize hallows).1 (Tree.stronglyProtected?_eq_none_iff.mpr ?_)
  exact fun j m hm => hmay.protector?_ne m.tag (hs.mem_tags_iff.mpr ⟨j, m, hm, rfl⟩)

/-- A free that only the second layer stops is answered with the name of a strongly protected
tag. -/
theorem violation_of_mayOverwrite (h : k.Sound) (hx : k.allocations.get? p.alloc = some x)
    (hsize : x.tree.size < Word.limit) (hover : k.MayOverwrite x p) (hno : ¬k.MayFree x p) :
    ∃ v, (k.free p).result = .error (.error (.aliasing v)) ∧ v.conflict = .protectedFree ∧
      v.conflicting.tag ∈ x.tree.tags.keys ∧ k.protector? v.conflicting.tag = some .strong := by
  have hs : x.tree.Sound (k.context p.alloc).isProtected := h.tree hx
  obtain ⟨start, n, hn, htag⟩ := hs.mem_tags_iff.mp hover.mem_tags
  have hi : x.tree.tags.index? p.tag = some start := htag ▸ hs.index?_tag hn
  obtain ⟨-, hstrong⟩ := Tree.free_of_allows hs hi hsize
    ((mayOverwrite_iff_allows h hx hsize hi).mp hover)
  cases hfind : x.tree.stronglyProtected? (k.context p.alloc) with
  | none =>
    refine absurd ⟨hover, fun tag htag hprot => ?_⟩ hno
    obtain ⟨j, m, hm, rfl⟩ := hs.mem_tags_iff.mp htag
    exact Tree.stronglyProtected?_eq_none_iff.mp hfind j m hm hprot
  | some r =>
    obtain ⟨j, m⟩ := r
    obtain ⟨hm, hprot⟩ := Tree.of_stronglyProtected?_eq_some hfind
    obtain ⟨v, hv, hconflict, hlabel⟩ := hstrong j m hfind
    refine ⟨v, (result_free hx).trans hv, hconflict, ?_⟩
    rw [hlabel]
    exact ⟨hs.mem_tags_iff.mpr ⟨j, m, hm, rfl⟩, hprot⟩

/-- A free that does not pass both layers is refused. -/
theorem refused_of_not_mayFree (h : k.Sound) (hx : k.allocations.get? p.alloc = some x)
    (hsize : x.tree.size < Word.limit) (hno : ¬k.MayFree x p) :
    ∃ e, (k.free p).result = .error (.error e) := by
  by_cases hover : k.MayOverwrite x p
  · obtain ⟨v, hv, -⟩ := violation_of_mayOverwrite h hx hsize hover hno
    exact ⟨_, hv⟩
  · have hs : x.tree.Sound (k.context p.alloc).isProtected := h.tree hx
    have hstop : (⟨0, x.tree.size⟩ : ByteRange).stop = x.tree.size := Nat.zero_add _
    rw [result_free hx]
    by_cases htag : p.tag ∈ x.tree.tags.keys
    · obtain ⟨start, n, hn, htag⟩ := hs.mem_tags_iff.mp htag
      have hi : x.tree.tags.index? p.tag = some start := htag ▸ hs.index?_tag hn
      obtain ⟨v, hv⟩ := Tree.plan_of_not_allows hs ⟨p.tag, ⟨0, x.tree.size⟩, .write, .dealloc⟩ hi
        (hstop.symm ▸ hsize) (Nat.le_of_eq hstop)
        (mt (mayOverwrite_iff_allows h hx hsize hi).mpr hover)
      exact ⟨_, Tree.free_of_plan_eq_error hv⟩
    · obtain ⟨r, hr⟩ := Tree.plan_of_not_mem_tags (k.context p.alloc)
        ⟨p.tag, ⟨0, x.tree.size⟩, .write, .dealloc⟩ htag
      exact ⟨_, Tree.free_of_plan_eq_error hr⟩

/-- **A free is granted exactly when it may be, but for one sum.**  In every reachable state, let
`p` point into a live allocation of any size that is a word.

* The free through `p` succeeds exactly if the tag belongs to the allocation, what is at or above
  the tag is reserved or active at every byte, what is protected elsewhere is disabled at every
  byte, no tag of the allocation is strongly protected, and the number of runs to join at is a word.
  If that is all that is missing, the free ends in a fault.
* If it succeeds, the allocation is gone and everything else is as it was.
* If nothing but a strong protector stands against it, the error names a strongly protected tag of
  the allocation. -/
theorem free_iff_mayFree (hk : k.Reachable) (hx : k.allocations.get? p.alloc = some x)
    (hsize : x.tree.size < Word.limit) :
    ((k.free p).result = .ok () ↔
        k.MayFree x p ∧ x.tree.runsAtLastMerge + x.tree.mergeSlack < Word.limit) ∧
      ((k.free p).result = .error (.fault .overflow) ↔
        k.MayFree x p ∧ Word.limit ≤ x.tree.runsAtLastMerge + x.tree.mergeSlack) ∧
      ((k.free p).result = .ok () →
        (k.free p).state = { k with allocations := k.allocations.erase p.alloc }) ∧
      (k.MayOverwrite x p → ¬k.MayFree x p →
        ∃ v, (k.free p).result = .error (.error (.aliasing v)) ∧ v.conflict = .protectedFree ∧
          v.conflicting.tag ∈ x.tree.tags.keys ∧
          k.protector? v.conflicting.tag = some .strong) := by
  refine ⟨?_, ?_, fun hok => (free_of_tree_free hx ((result_free hx).symm.trans hok)).2,
    violation_of_mayOverwrite hk.sound hx hsize⟩
  · by_cases hmay : k.MayFree x p
    · rw [result_free_of_mayFree hk.sound hx hsize hmay]
      simp [hmay]
    · obtain ⟨e, he⟩ := refused_of_not_mayFree hk.sound hx hsize hmay
      simp [hmay, he]
  · by_cases hmay : k.MayFree x p
    · rw [result_free_of_mayFree hk.sound hx hsize hmay]
      simp [hmay]
    · obtain ⟨e, he⟩ := refused_of_not_mayFree hk.sound hx hsize hmay
      simp [hmay, he]

/-- A weakly protected borrow that was never used does not keep its allocation from being freed
through it, and nothing is left to free then. -/
theorem free_beside_weak_protector :
    ∃ (k : Checker) (x : Allocation), k.Reachable ∧ k.allocations.get? ⟨1⟩ = some x ∧
      k.protector? ⟨3⟩ = some .weak ∧ (k.free ⟨⟨1⟩, ⟨3⟩⟩).result = .ok () ∧
      k.MayFree x ⟨⟨1⟩, ⟨3⟩⟩ ∧ (k.free ⟨⟨1⟩, ⟨3⟩⟩).state.allocations.get? ⟨1⟩ = none := by
  let es : List Event := [.allocate 8, .enter ⟨0⟩ [],
    .retag ⟨⟨1⟩, ⟨2⟩⟩ ⟨0, 4⟩ .exclusive false .weak]
  have hk : Reachable ((new {}).run es) := ⟨{}, es, rfl⟩
  have hview : (((new {}).run es).allocations.get? ⟨1⟩).map (fun x => x.tree.size) = some 8 := by
    decide +kernel
  have hweak : ((new {}).run es).protector? ⟨3⟩ = some .weak := by decide +kernel
  have hok : (((new {}).run es).free ⟨⟨1⟩, ⟨3⟩⟩).result = .ok () := by decide +kernel
  obtain ⟨x, hx, hsize⟩ := Option.map_eq_some_iff.mp hview
  obtain ⟨hiff, -, hstate, -⟩ := free_iff_mayFree (p := ⟨⟨1⟩, ⟨3⟩⟩) hk hx (by rw [hsize]; decide)
  refine ⟨_, x, hk, hx, hweak, hok, (hiff.mp hok).1, ?_⟩
  rw [hstate hok, Table.get?_erase, if_pos rfl]

/-- With the largest slack a word can hold, the owner of a new allocation may free it, and the free
ends in a fault. -/
theorem fault_of_free :
    ∃ (k : Checker) (x : Allocation), k.Reachable ∧ k.allocations.get? ⟨1⟩ = some x ∧
      k.MayFree x ⟨⟨1⟩, ⟨2⟩⟩ ∧ (k.free ⟨⟨1⟩, ⟨2⟩⟩).result = .error (.fault .overflow) := by
  have hk : Reachable ((new { mergeSlack := 2 ^ 64 - 1 }).run [.allocate 8]) := ⟨_, _, rfl⟩
  have hx : ((new { mergeSlack := 2 ^ 64 - 1 }).run [.allocate 8]).allocations.get? ⟨1⟩ =
      some ⟨8, .new ⟨2⟩ 8 { mergeSlack := 2 ^ 64 - 1 }⟩ := rfl
  have hfault : (((new { mergeSlack := 2 ^ 64 - 1 }).run [.allocate 8]).free ⟨⟨1⟩, ⟨2⟩⟩).result =
      .error (.fault .overflow) := by
    decide +kernel
  refine ⟨_, _, hk, hx, ?_, hfault⟩
  by_contra hno
  obtain ⟨e, he⟩ := refused_of_not_mayFree hk.sound hx (by decide) hno
  rw [hfault] at he
  cases he

end Checker

end TreeBorrows
