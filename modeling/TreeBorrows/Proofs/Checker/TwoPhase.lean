/-
# Borrows that wait for their first write

Between the moment a mutable borrow is made and its first write, the pointer that it was taken from
may be read, and so may everything else that was derived from that pointer.  None of this counts
against the borrow (`write_after_reads`): where it was reserved and not protected it still is, and
its first write is refused if and only if it would have been refused at once.

That holds for any number of reads, over any ranges, whether they succeed or are refused.  The other
nodes need not stay as they are.  A protected sibling that is read may freeze, and a node that was
active may lose that.  But none of them dies or comes to life, the nodes above the borrow do not
change at all, and the write depends on nothing else (`Tree.Spares`).
-/
import Mathlib.Algebra.Group.Nat.Defs
import TreeBorrows.Proofs.Checker.Bytewise
import TreeBorrows.Proofs.Checker.Rejection
import TreeBorrows.Proofs.Checker.View
import TreeBorrows.Proofs.Tree.Reading

namespace TreeBorrows

/-! ## 1. The first write -/

namespace Tree

variable {t t' : Tree} {ctx : Context} {acc : Access} {w : ByteRange} {start : Nat} {cause : Cause}

/-- **When an access is refused**: if it leaves the allocation or is not allowed. -/
theorem refused_iff_not_allows (h : t.Sound ctx.isProtected)
    (hi : t.tags.index? acc.tag = some start) :
    (∃ e, (t.access ctx acc).result = .error (.error e)) ↔
      ¬((acc.range.stop < Word.limit ∧ acc.range.stop ≤ t.size) ∧
        t.Allows ctx acc.kind acc.range start) := by
  by_cases hin : acc.range.stop < Word.limit ∧ acc.range.stop ≤ t.size
  · rw [and_iff_right hin]
    rcases access_of_index? h hi hin.1 hin.2 with ⟨hno, v, hv⟩ | ⟨hyes, hres, -⟩
    · exact ⟨fun _ => hno, fun _ => ⟨_, hv⟩⟩
    · refine ⟨fun ⟨e, he⟩ => ?_, fun hno => absurd hyes hno⟩
      rw [hres] at he
      split at he <;> cases he
  · obtain ⟨r, hr⟩ := plan_of_not_inside ctx acc hi hin
    exact ⟨fun _ hboth => hin hboth.1, fun _ => ⟨_, access_of_plan_eq_error hr⟩⟩

/-- When an access is accepted: if it is not refused and the number of runs to join at is a word. -/
theorem accepted_iff (h : t.Sound ctx.isProtected) (acc : Access) :
    (t.access ctx acc).result = .ok () ↔
      (¬∃ e, (t.access ctx acc).result = .error (.error e)) ∧
        t.runsAtLastMerge + t.mergeSlack < Word.limit := by
  rcases result_access h acc with ⟨e, he⟩ | hres
  · simp [he]
  · rw [hres]
    split <;> simp [*]

namespace Spares

theorem allows_write_iff (h : t.Spares t' w start) (hs : t.Sound ctx.isProtected)
    (hs' : t'.Sound ctx.isProtected) (hlimit : w.stop < Word.limit) (hstop : w.stop ≤ t.size) :
    t'.Allows ctx .write w start ↔ t.Allows ctx .write w start := by
  rw [allows_iff_granted hs hlimit hstop, allows_iff_granted hs' hlimit (h.size_eq ▸ hstop),
    h.arena_eq]
  constructor
  · intro hgranted o states ho hval
    obtain ⟨states', hval'⟩ := t'.exists_valueAt?
      (h.size_eq ▸ Nat.lt_of_lt_of_le ho.2 hstop : o < t'.size)
    exact (h.spares ho hval hval').granted_write_iff.mp (hgranted o states' ho hval')
  · intro hgranted o states' ho hval'
    obtain ⟨states, hval⟩ := t.exists_valueAt? (Nat.lt_of_lt_of_le ho.2 hstop)
    exact (h.spares ho hval hval').granted_write_iff.mpr (hgranted o states ho hval)

/-- A write through the node is refused by both trees or by none. -/
theorem refused_write_iff (h : t.Spares t' w start) (hs : t.Sound ctx.isProtected)
    (hs' : t'.Sound ctx.isProtected) {tag : Tag} (hi : t.tags.index? tag = some start) :
    (∃ e, (t'.access ctx ⟨tag, w, .write, cause⟩).result = .error (.error e)) ↔
      ∃ e, (t.access ctx ⟨tag, w, .write, cause⟩).result = .error (.error e) := by
  rw [refused_iff_not_allows hs hi, refused_iff_not_allows hs' (h.tags_eq ▸ hi), h.size_eq]
  refine not_congr (and_congr_right fun hin => ?_)
  exact h.allows_write_iff hs hs' hin.1 hin.2

end Spares

end Tree

/-! ## 2. Runs of reads -/

/-- The event is a read through a tag at or below `parent`. -/
def Event.ReadsBelow (e : Event) (t : Tree) (a : AllocationId) (parent : Tag) : Prop :=
  ∃ s r, e = .access ⟨a, s⟩ r .read ∧ t.IsAtOrAbove parent s

namespace Checker

variable {k k' : Checker} {p : Pointer} {a : AllocationId} {x x' : Allocation} {w r : ByteRange}
  {start i n : Nat} {kind : AccessKind} {parent : Tag}

theorem state_access (hx : k.allocations.get? p.alloc = some x) :
    (k.access p r kind).state = k.putTree p.alloc x
      (x.tree.access (k.context p.alloc) ⟨p.tag, r, kind, .explicit kind⟩).state := by
  rw [access, onTree_of_get? hx]
  rfl

theorem result_access (hx : k.allocations.get? p.alloc = some x) :
    (k.access p r kind).result =
      (x.tree.access (k.context p.alloc) ⟨p.tag, r, kind, .explicit kind⟩).result := by
  rw [access, onTree_of_get? hx]
  rfl

/-- The pointer's tag is reserved and not protected, at every byte of a range. -/
structure Waits (k : Checker) (p : Pointer) (w : ByteRange) : Prop where
  protector?_eq : k.protector? p.tag = none
  isReserved : ∀ o ∈ w, ∃ q, k.permissionAt p o = .ok q ∧ q.isReserved = true

/-- Before each of the events, the tree of an allocation has fewer than `limit` runs. -/
def RunsBelow (k : Checker) (a : AllocationId) (limit : Nat) (es : List Event) : Prop :=
  ∀ n < es.length, ∀ x, (k.run (es.take n)).allocations.get? a = some x →
    x.tree.bytes.runCount < limit

theorem RunsBelow.head {e : Event} {es : List Event} {limit : Nat}
    (h : k.RunsBelow a limit (e :: es)) (hx : k.allocations.get? a = some x) :
    x.tree.bytes.runCount < limit :=
  h 0 (Nat.succ_pos _) x hx

theorem RunsBelow.tail {e : Event} {es : List Event} {limit : Nat}
    (h : k.RunsBelow a limit (e :: es)) : (k.perform e).state.RunsBelow a limit es :=
  fun n hn => h (n + 1) (Nat.succ_lt_succ hn)

/-- From the first checker to the second one, `n` reads have spared a node: no more has changed than
they may change, and each has added two runs at most. -/
structure SparesAfter (k k' : Checker) (a : AllocationId) (x x' : Allocation) (w : ByteRange)
    (start n : Nat) : Prop where
  sound : k'.Sound
  protectors_eq : k'.protectors = k.protectors
  settings_eq : k'.settings = k.settings
  live : k'.allocations.get? a = some x'
  tree : x.tree.Spares x'.tree w start
  runCount_le : x'.tree.bytes.runCount ≤ x.tree.bytes.runCount + 2 * n

theorem SparesAfter.refl (h : k.Sound) (hx : k.allocations.get? a = some x) (w : ByteRange)
    (start : Nat) : k.SparesAfter k a x x w start 0 where
  sound := h
  protectors_eq := rfl
  settings_eq := rfl
  live := hx
  tree := .refl _ _ _
  runCount_le := Nat.le_refl _

theorem SparesAfter.context_eq (h : k.SparesAfter k' a x x' w start n) :
    k'.context a = k.context a := by
  simp [context, h.protectors_eq, h.settings_eq]

/-- What the waiting tag has in the tree. -/
theorem Waits.isReserved_stateIn (h : k.Sound) (hwait : k.Waits p w)
    (hx : k.allocations.get? p.alloc = some x) (hi : x.tree.tags.index? p.tag = some start)
    {m : Node} (hm : x.tree.arena.get? start = some m) {o : Nat} (ho : o ∈ w)
    {states : ByteStates} (hval : x.tree.bytes.valueAt? o = some states) :
    (m.stateIn states start).permission.isReserved = true := by
  obtain ⟨q, hq, hres⟩ := hwait.isReserved o ho
  obtain ⟨-, x₁, i₁, m₁, states₁, hx₁, hi₁, hm₁, hval₁, rfl⟩ := (permissionAt_eq_ok_iff h).mp hq
  obtain rfl := Option.some.inj (hx.symm.trans hx₁)
  obtain rfl := Option.some.inj (hi.symm.trans hi₁)
  obtain rfl := Option.some.inj (hm.symm.trans hm₁)
  obtain rfl := Option.some.inj (hval.symm.trans hval₁)
  exact hres

/-- **One more read spares the waiting tag.**  Whether the number of runs to join at is a word stays
as it is, unless the runs are close to `2 ^ 63`. -/
theorem SparesAfter.perform (hspares : k.SparesAfter k' p.alloc x x' w start n) (h : k.Sound)
    (hx : k.allocations.get? p.alloc = some x) (hwait : k.Waits p w)
    (hi : x.tree.tags.index? p.tag = some start) (hpar : x.tree.IsParentOf parent p.tag)
    {e : Event} (he : e.ReadsBelow x.tree p.alloc parent) :
    ∃ x'', k.SparesAfter (k'.perform e).state p.alloc x x'' w start (n + 1) ∧
      (x'.tree.bytes.runCount < 2 ^ 63 - 2 →
        (x''.tree.runsAtLastMerge + x''.tree.mergeSlack < Word.limit ↔
          x'.tree.runsAtLastMerge + x'.tree.mergeSlack < Word.limit)) := by
  obtain ⟨s, r, rfl, hnear⟩ := he
  obtain ⟨j, start', hj, hi', hpar⟩ := hpar
  obtain rfl := Option.some.inj (hi.symm.trans hi')
  have hs : x.tree.Sound (k.context p.alloc).isProtected := h.tree hx
  have hs' : x'.tree.Sound (k'.context p.alloc).isProtected := hspares.sound.tree hspares.live
  obtain ⟨m, hm, htag⟩ := hs.exists_get? hi
  have hstate : (k'.perform (.access ⟨p.alloc, s⟩ r .read)).state = k'.putTree p.alloc x'
      (x'.tree.access (k'.context p.alloc) ⟨s, r, .read, .explicit .read⟩).state :=
    state_access (p := ⟨p.alloc, s⟩) hspares.live
  have hcount := Tree.runCount_access_le hs' ⟨s, r, .read, .explicit .read⟩
  have hcount' := hspares.runCount_le
  rw [hstate]
  refine ⟨{ x' with tree :=
    (x'.tree.access (k'.context p.alloc) ⟨s, r, .read, .explicit .read⟩).state },
    ?_, fun hruns => ?_⟩
  · exact
      { sound := hstate ▸ hspares.sound.perform _
        protectors_eq := hspares.protectors_eq
        settings_eq := hspares.settings_eq
        live := by rw [putTree, Table.get?_insert, if_pos rfl]
        tree := by
          refine hspares.tree.access_read hs' hpar hm ?_ ?_ rfl fun first hfirst => ?_
          · rw [hspares.context_eq, htag]
            exact Option.isSome_eq_false_iff.mpr
              (Option.isNone_iff_eq_none.mpr hwait.protector?_eq)
          · exact fun o ho states hval => hwait.isReserved_stateIn h hx hi hm ho hval
          · exact (Tree.isAtOrAbove_iff hj hfirst).mp hnear
        runCount_le := Nat.le_trans hcount (by omega) }
  · have hwords : x'.tree.bytes.runCount + 2 < 2 ^ 63 := by omega
    exact Tree.hasRoom_access_iff hs' _ (Word.mul_two_lt_limit_iff.mpr hwords)

/-- Any number of reads spare the waiting tag. -/
theorem SparesAfter.run (h : k.Sound) (hx : k.allocations.get? p.alloc = some x)
    (hwait : k.Waits p w) (hi : x.tree.tags.index? p.tag = some start)
    (hpar : x.tree.IsParentOf parent p.tag) {es : List Event}
    (hes : ∀ e ∈ es, e.ReadsBelow x.tree p.alloc parent)
    (hspares : k.SparesAfter k' p.alloc x x' w start n) :
    ∃ x'', k.SparesAfter (k'.run es) p.alloc x x'' w start (n + es.length) ∧
      (k'.RunsBelow p.alloc (2 ^ 63 - 2) es →
        (x''.tree.runsAtLastMerge + x''.tree.mergeSlack < Word.limit ↔
          x'.tree.runsAtLastMerge + x'.tree.mergeSlack < Word.limit)) := by
  induction es generalizing k' x' n with
  | nil => exact ⟨x', hspares, fun _ => Iff.rfl⟩
  | cons e es ih =>
    obtain ⟨x₁, h₁, hroom₁⟩ := hspares.perform h hx hwait hi hpar (hes e (by simp))
    obtain ⟨x₂, h₂, hroom₂⟩ := ih (fun e he => hes e (by simp [he])) h₁
    refine ⟨x₂, ?_, fun hruns => ?_⟩
    · rwa [List.length_cons, Nat.add_comm es.length, ← Nat.add_assoc]
    · exact (hroom₂ hruns.tail).trans (hroom₁ (hruns.head hspares.live))

/-- Reads do not bring the runs of a tree near `2 ^ 63` if it has too few bytes for that, or if they
are too few. -/
theorem runsBelow_of_reads (h : k.Sound) (hx : k.allocations.get? p.alloc = some x)
    (hwait : k.Waits p w) (hi : x.tree.tags.index? p.tag = some start)
    (hpar : x.tree.IsParentOf parent p.tag) {es : List Event}
    (hes : ∀ e ∈ es, e.ReadsBelow x.tree p.alloc parent)
    (hfew : x.tree.size < 2 ^ 63 - 2 ∨ x.tree.bytes.runCount + 2 * es.length < 2 ^ 63) :
    k.RunsBelow p.alloc (2 ^ 63 - 2) es := by
  intro n hn x' hx'
  obtain ⟨x₁, hspares, -⟩ := SparesAfter.run h hx hwait hi hpar
    (fun e he => hes e (List.mem_of_mem_take he)) (.refl h hx w start)
  obtain rfl := Option.some.inj (hspares.live.symm.trans hx')
  have hcount := hspares.runCount_le
  have hsize : x₁.tree.bytes.runCount ≤ x.tree.size :=
    hspares.tree.size_eq ▸ RunMap.runCount_le_size (hspares.sound.tree hspares.live).isProper
  rw [Nat.zero_add, List.length_take_of_le (Nat.le_of_lt hn)] at hcount
  omega

/-! ## 3. In every reachable state -/

/-- The waiting tag still has what it had. -/
theorem SparesAfter.permissionAt_eq (hspares : k.SparesAfter k' p.alloc x x' w start n)
    (h : k.Sound) (hx : k.allocations.get? p.alloc = some x)
    (hi : x.tree.tags.index? p.tag = some start) {o : Nat} (ho : o ∈ w) {q : Permission}
    (hq : k.permissionAt p o = .ok q) : k'.permissionAt p o = .ok q := by
  obtain ⟨hlimit, x₁, i₁, m, states, hx₁, hi₁, hm, hval, rfl⟩ := (permissionAt_eq_ok_iff h).mp hq
  obtain rfl := Option.some.inj (hx.symm.trans hx₁)
  obtain rfl := Option.some.inj (hi.symm.trans hi₁)
  have htree := hspares.tree
  obtain ⟨states', hval'⟩ := x'.tree.exists_valueAt? (o := o) (htree.size_eq ▸
    Nat.lt_of_not_le fun hle => by simp [RunMap.valueAt?_eq_none_iff.mpr hle] at hval)
  refine (permissionAt_eq_ok_iff hspares.sound).mpr ⟨hlimit, x', start, m, states', hspares.live,
    htree.tags_eq ▸ hi, htree.arena_eq ▸ hm, hval', ?_⟩
  exact (htree.spares ho hval hval' start m hm).2 (Arena.mem_lineage_self _ _)

/-- A write through the waiting tag is refused now if and only if it was refused before. -/
theorem SparesAfter.refused_write_iff (hspares : k.SparesAfter k' p.alloc x x' w start n)
    (h : k.Sound) (hx : k.allocations.get? p.alloc = some x)
    (hi : x.tree.tags.index? p.tag = some start) :
    (∃ e, (k'.access p w .write).result = .error (.error e)) ↔
      ∃ e, (k.access p w .write).result = .error (.error e) := by
  have hs : x.tree.Sound (k.context p.alloc).isProtected := h.tree hx
  have hs' : x'.tree.Sound (k'.context p.alloc).isProtected := hspares.sound.tree hspares.live
  rw [hspares.context_eq] at hs'
  rw [result_access hx, result_access hspares.live, hspares.context_eq]
  exact hspares.tree.refused_write_iff hs hs' hi

/-- It is accepted now if and only if it was accepted before, if the number of runs to join at is a
word now exactly if it was one before. -/
theorem SparesAfter.accepted_write_iff (hspares : k.SparesAfter k' p.alloc x x' w start n)
    (h : k.Sound) (hx : k.allocations.get? p.alloc = some x)
    (hi : x.tree.tags.index? p.tag = some start)
    (hroom : x'.tree.runsAtLastMerge + x'.tree.mergeSlack < Word.limit ↔
      x.tree.runsAtLastMerge + x.tree.mergeSlack < Word.limit) :
    (k'.access p w .write).result = .ok () ↔ (k.access p w .write).result = .ok () := by
  have hs : x.tree.Sound (k.context p.alloc).isProtected := h.tree hx
  have hs' : x'.tree.Sound (k'.context p.alloc).isProtected := hspares.sound.tree hspares.live
  have hrefused := hspares.refused_write_iff h hx hi
  rw [result_access hx, result_access hspares.live] at hrefused ⊢
  rw [Tree.accepted_iff hs, Tree.accepted_iff hs', hrefused, hroom]

/-- **Reads from nearby do not count against a borrow that waits for its first write.**  In every
reachable state, let a tag of a live allocation be reserved and not protected at every byte of a
range, and let any number of reads come through its parent or through anything below its parent,
over any ranges.

* The tag has the same permission at every byte of the range as before; so it still waits.
* A write through the tag over the range is refused after the reads exactly if it would have been
  refused before them.
* It is accepted after the reads exactly if it would have been accepted before them, as long as the
  tree has fewer than `2 ^ 63 - 2` runs before each of the reads; a vector has room for fewer.
* That is so for all reads if the allocation has fewer than `2 ^ 63 - 2` bytes, and in any
  allocation for as many reads as cannot bring the runs to `2 ^ 63`. -/
theorem write_after_reads (hk : k.Reachable) (hx : k.allocations.get? p.alloc = some x)
    (hpar : x.tree.IsParentOf parent p.tag) (hwait : k.Waits p w) {es : List Event}
    (hes : ∀ e ∈ es, e.ReadsBelow x.tree p.alloc parent) :
    (k.run es).Waits p w ∧
      (∀ o ∈ w, (k.run es).permissionAt p o = k.permissionAt p o) ∧
      ((∃ e, ((k.run es).access p w .write).result = .error (.error e)) ↔
        ∃ e, (k.access p w .write).result = .error (.error e)) ∧
      (k.RunsBelow p.alloc (2 ^ 63 - 2) es →
        (((k.run es).access p w .write).result = .ok () ↔
          (k.access p w .write).result = .ok ())) ∧
      (x.tree.size < 2 ^ 63 - 2 ∨ x.tree.bytes.runCount + 2 * es.length < 2 ^ 63 →
        k.RunsBelow p.alloc (2 ^ 63 - 2) es) := by
  obtain ⟨-, i, -, hi, -⟩ := id hpar
  obtain ⟨x', hspares, hroom⟩ :=
    SparesAfter.run hk.sound hx hwait hi hpar hes (.refl hk.sound hx w i)
  have hsame : ∀ o ∈ w, (k.run es).permissionAt p o = k.permissionAt p o := by
    intro o ho
    obtain ⟨q, hq, -⟩ := hwait.isReserved o ho
    rw [hq, hspares.permissionAt_eq hk.sound hx hi ho hq]
  refine ⟨⟨?_, fun o ho => ?_⟩, hsame, hspares.refused_write_iff hk.sound hx hi,
    fun hruns => hspares.accepted_write_iff hk.sound hx hi (hroom hruns),
    runsBelow_of_reads hk.sound hx hwait hi hpar hes⟩
  · rw [protector?, hspares.protectors_eq]
    exact hwait.protector?_eq
  · rw [hsame o ho]
    exact hwait.isReserved o ho

/-- A mutable borrow waits while all eight bytes are read through its parent, half of them through
a shared borrow beside it, and too many of them, which is refused.  Then its first write succeeds,
as it would have done before. -/
theorem write_after_sibling_reads :
    ∃ (k : Checker) (es : List Event), k.Reachable ∧ k.Waits ⟨⟨1⟩, ⟨3⟩⟩ ⟨0, 2⟩ ∧
      es = [.access ⟨⟨1⟩, ⟨2⟩⟩ ⟨0, 8⟩ .read, .access ⟨⟨1⟩, ⟨4⟩⟩ ⟨0, 4⟩ .read,
        .access ⟨⟨1⟩, ⟨2⟩⟩ ⟨4, 8⟩ .read] ∧
      (k.run es).Waits ⟨⟨1⟩, ⟨3⟩⟩ ⟨0, 2⟩ ∧
      ((k.run es).access ⟨⟨1⟩, ⟨3⟩⟩ ⟨0, 2⟩ .write).result = .ok () := by
  let es : List Event := [.allocate 8, .derive ⟨⟨1⟩, ⟨2⟩⟩ ⟨0, 2⟩ .exclusive false,
    .derive ⟨⟨1⟩, ⟨2⟩⟩ ⟨0, 4⟩ .shared false]
  have hk : Reachable ((new {}).run es) := ⟨{}, es, rfl⟩
  have hnodes : (((new {}).run es).allocations.get? ⟨1⟩).map (fun x =>
      (x.tree.owner?, (x.tree.arena.get? 1).bind Node.parent, x.tree.size)) =
      some (some ⟨2⟩, some 0, 8) := by
    decide +kernel
  obtain ⟨x, hx, hnodes⟩ := Option.map_eq_some_iff.mp hnodes
  simp only [Prod.mk.injEq] at hnodes
  obtain ⟨hroot, hpar, hsize⟩ := hnodes
  have htags : (((new {}).run es).allocations.get? ⟨1⟩).map (fun x =>
      (x.tree.tags.index? ⟨2⟩, x.tree.tags.index? ⟨3⟩, x.tree.tags.index? ⟨4⟩)) =
      some (some 0, some 1, some 2) := by
    decide +kernel
  rw [hx, Option.map_some, Option.some_inj] at htags
  simp only [Prod.mk.injEq] at htags
  obtain ⟨h₂, h₃, h₄⟩ := htags
  have hwait : ((new {}).run es).Waits ⟨⟨1⟩, ⟨3⟩⟩ ⟨0, 2⟩ := by
    refine ⟨by decide +kernel, fun o ho => ?_⟩
    obtain rfl | rfl : o = 0 ∨ o = 1 := by
      have hlt : o < 2 := ho.2
      omega
    · exact ⟨.reserved, by decide +kernel, rfl⟩
    · exact ⟨.reserved, by decide +kernel, rfl⟩
  have hbefore : (((new {}).run es).access ⟨⟨1⟩, ⟨3⟩⟩ ⟨0, 2⟩ .write).result = .ok () := by
    decide +kernel
  have hbelow : ∀ tag i, x.tree.tags.index? tag = some i → x.tree.IsAtOrAbove ⟨2⟩ tag := by
    intro tag i hi
    obtain ⟨n, hn, rfl⟩ := (hk.sound.tree hx).exists_get? hi
    exact (hk.sound.tree hx).isAtOrAbove_owner hroot
      ((hk.sound.tree hx).mem_tags_iff.mpr ⟨i, n, hn, rfl⟩)
  have hes : ∀ e ∈ ([.access ⟨⟨1⟩, ⟨2⟩⟩ ⟨0, 8⟩ .read, .access ⟨⟨1⟩, ⟨4⟩⟩ ⟨0, 4⟩ .read,
      .access ⟨⟨1⟩, ⟨2⟩⟩ ⟨4, 8⟩ .read] : List Event), e.ReadsBelow x.tree ⟨1⟩ ⟨2⟩ := by
    simp only [List.forall_mem_cons, List.not_mem_nil, IsEmpty.forall_iff, implies_true, and_true]
    exact ⟨⟨_, _, rfl, hbelow _ _ h₂⟩, ⟨_, _, rfl, hbelow _ _ h₄⟩, ⟨_, _, rfl, hbelow _ _ h₂⟩⟩
  obtain ⟨hafter, -, -, hiff, hruns⟩ := write_after_reads (p := ⟨⟨1⟩, ⟨3⟩⟩) hk hx
    ⟨0, 1, h₂, h₃, Arena.isParent_iff.mpr hpar⟩ hwait hes
  refine ⟨_, _, hk, hwait, rfl, hafter, (hiff (hruns (.inl ?_))).mpr hbefore⟩
  rw [hsize]
  decide

end Checker

end TreeBorrows
