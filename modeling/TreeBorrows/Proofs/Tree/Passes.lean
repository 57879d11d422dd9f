/-
# The two passes of an access meet the same elements

The first pass of an access works out a list of updates for each element of its range, and the
second one goes through the elements of the range once more and writes the lists back.  Nothing but
their order says which list belongs to which element.  This module shows that the order is enough.

Between the passes nothing divides or joins the runs, and the first pass leaves them divided where
the second one looks (`Proofs/RunMap/SecondLook.lean`).  So both visit the same row of elements
(`Aligned`), there are as many lists as elements, and each list was worked out from the element that
it is written to (`passes_aligned`).
-/
import TreeBorrows.Proofs.RunMap.SecondLook
import TreeBorrows.Proofs.Tree.History

namespace TreeBorrows

namespace Tree

variable {t : Tree} {ctx : Context} {acc : Access} {pending : List (List Update)}

/-- The passes of an access both visit the elements `visited` of the row in memory, and the lists of
`pending` are for these elements, in order. -/
structure Aligned (t : Tree) (ctx : Context) (acc : Access) (pending : List (List Update))
    (visited : Row ByteStates) : Prop where
  /-- The first pass divides the row and visits the elements of the range. -/
  first : (Row.updateRange acc.range id).on t.bytes.elements =
    (.ok visited, (t.plan ctx acc).state.bytes.elements)
  /-- The second one finds nothing to divide and visits the same elements. -/
  second : (Row.updateRange acc.range id).on (t.plan ctx acc).state.bytes.elements =
    (.ok visited, (t.plan ctx acc).state.bytes.elements)
  tiles : visited.Tiles acc.range.start acc.range.stop
  length_eq : pending.length = visited.length
  /-- Each list was worked out from the element with its place. -/
  workedOut : ∃ start node, t.tags.index? acc.tag = some start ∧ t.arena.get? start = some node ∧
    ∀ (i : Nat) e us, visited[i]? = some e → pending[i]? = some us →
      t.planElement ctx acc start node.label e = .ok us
  /-- In pairs, no element and no list is left over. -/
  unzip_zip : (visited.zip pending).unzip = (visited, pending)
  /-- The second pass writes and tells pair by pair. -/
  settled : ∃ bytes : RunMap ByteStates,
    (Row.changeRange acc.range applyUpdates pending).on (t.plan ctx acc).state.bytes.elements =
      (.ok (visited.zip pending), bytes.elements) ∧
    (t.plan ctx acc).state.settle ctx acc.range acc.cause pending =
      { t with bytes := bytes }.tidied.after ((visited.zip pending).flatMap
        fun ((e, us) : Element ByteStates × List Update) =>
          t.updateMessages ctx acc.cause e.range us)

/-! ## 1. What a first pass has found -/

/-- A first pass over some bytes that succeeds has found its tag, and its range inside. -/
theorem exists_of_plan_eq_ok_of_nonempty (hne : acc.range.isEmpty = false)
    (hplan : (t.plan ctx acc).result = .ok pending) :
    ∃ start node, t.tags.index? acc.tag = some start ∧ t.arena.get? start = some node ∧
      t.bytes.checkRange acc.range = .ok () ∧
      t.plan ctx acc = ⟨t.divided acc.range, [], .ok pending⟩ ∧
      t.pending ctx acc start node.label = .ok pending := by
  cases htag : t.requireTag acc.tag acc.cause.operation with
  | error e =>
    rw [plan, htag] at hplan
    cases hplan
  | ok start =>
    have hi := requireTag_eq_ok_iff.mp htag
    cases hrange : t.requireRange acc.range acc.cause.operation with
    | error e =>
      simp only [plan, htag, hrange] at hplan
      cases hplan
    | ok _ =>
      have hcheck := RunMap.checkRange_eq_ok_iff.mpr (requireRange_eq_ok_iff.mp hrange)
      cases hnode : t.arena.get? start with
      | none =>
        simp only [plan, htag, hrange, hne, hnode, Bool.false_eq_true, ↓reduceIte] at hplan
        cases hplan
      | some node =>
        have heq : t.plan ctx acc = _ := plan_eq hi hnode hrange
        have hpending : t.pending ctx acc start node.label = .ok pending := by rwa [heq] at hplan
        exact ⟨start, node, hi, hnode, hcheck, by rw [heq, hpending], hpending⟩

/-! ## 2. One list for each element -/

theorem aligned_of_plan_eq_ok (hproper : t.bytes.IsProper) (hne : acc.range.isEmpty = false)
    (hplan : (t.plan ctx acc).result = .ok pending) :
    t.Aligned ctx acc pending (t.bytes.inside acc.range) := by
  obtain ⟨start, node, hi, hnode, hcheck, heq, hpending⟩ :=
    exists_of_plan_eq_ok_of_nonempty hne hplan
  obtain ⟨hlimit, hstop⟩ := RunMap.checkRange_eq_ok_iff.mp hcheck
  have hall := mapM_eq_ok_iff.mp hpending
  have hlength : pending.length = (t.bytes.inside acc.range).length := hall.length_eq.symm
  have hstate : (t.plan ctx acc).state = t.divided acc.range := by rw [heq]
  have hcheck' : (t.divided acc.range).bytes.checkRange acc.range = .ok () := by
    rw [RunMap.checkRange_eq_ok_iff, divided, RunMap.size_split]
    exact ⟨hlimit, hstop⟩
  have hproper' : (t.divided acc.range).bytes.IsProper := RunMap.isProper_split hproper acc.range
  have hcarve : (t.divided acc.range).bytes.carve acc.range = t.bytes.carve acc.range :=
    RunMap.carve_split hproper hstop
  have hinside : (t.divided acc.range).bytes.inside acc.range = t.bytes.inside acc.range := by
    rw [RunMap.inside, hcarve, RunMap.inside]
  have hsplit : (t.divided acc.range).bytes.split acc.range = (t.divided acc.range).bytes := by
    rw [RunMap.split, hcarve, divided, RunMap.split]
  constructor
  case first =>
    rw [hstate, RunMap.on_updateRange hproper hcheck, RunMap.update_id, divided]
  case second =>
    rw [hstate, RunMap.on_updateRange hproper' hcheck', RunMap.update_id, hinside, hsplit]
  case tiles => exact (RunMap.represents_inside hproper hstop).tiles
  case length_eq => exact hlength
  case workedOut =>
    refine ⟨start, node, hi, hnode, fun i e us he hus => ?_⟩
    obtain ⟨hlt, rfl⟩ := List.getElem?_eq_some_iff.mp he
    obtain ⟨hlt', rfl⟩ := List.getElem?_eq_some_iff.mp hus
    exact hall.get hlt hlt'
  case unzip_zip => exact List.unzip_zip hlength.symm
  case settled =>
    refine ⟨t.bytes.change acc.range applyUpdates pending, ?_, ?_⟩
    · rw [hstate, RunMap.on_changeRange hproper' hcheck', hinside]
      exact congrArg (fun m : RunMap ByteStates => (_, m.elements))
        (RunMap.change_split hproper hstop applyUpdates pending)
    · rw [hstate]
      exact settle_divided hproper hcheck ctx acc.cause pending

/-! ## 3. Accesses and frees -/

/-- After a first pass that succeeds, an access is its second pass. -/
theorem access_of_plan_eq_ok (hne : acc.range.isEmpty = false)
    (hplan : (t.plan ctx acc).result = .ok pending) :
    t.access ctx acc = ((t.plan ctx acc).state.settle ctx acc.range acc.cause pending).after
      [.accessed acc.cause acc.tag ctx.alloc acc.range] := by
  obtain ⟨-, -, -, -, -, heq, -⟩ := exists_of_plan_eq_ok_of_nonempty hne hplan
  rw [access, Outcome.andThen_of_ok hplan, heq]
  rfl

/-- So is a free, unless a tag is strongly protected. -/
theorem free_of_plan_eq_ok {tag : Tag} (hne : (⟨0, t.size⟩ : ByteRange).isEmpty = false)
    (hplan : (t.plan ctx ⟨tag, ⟨0, t.size⟩, .write, .dealloc⟩).result = .ok pending)
    (hnone : t.stronglyProtected? ctx = none) :
    t.free ctx tag = (t.plan ctx ⟨tag, ⟨0, t.size⟩, .write, .dealloc⟩).state.settle ctx
      ⟨0, t.size⟩ .dealloc pending := by
  obtain ⟨-, -, -, -, -, heq, -⟩ := exists_of_plan_eq_ok_of_nonempty hne hplan
  have hnone' : (t.divided ⟨0, t.size⟩).stronglyProtected? ctx = none := hnone
  unfold free
  dsimp only
  rw [Outcome.andThen_of_ok hplan, heq]
  dsimp only
  rw [hnone']
  rfl

/-- **The two passes of an access meet the same elements.**

* Once a range inside of a row has been looked at, every further look finds the same elements and
  divides none.
* So where the first pass of an access to some bytes succeeds, and that of a free of some bytes,
  both passes visit the same elements, there is one list of updates for each of them, worked out
  from it, and the second pass goes through all pairs; nothing happens to the tree in between.
* This holds for every tree without empty runs, and no history of a tree leads to one with any. -/
theorem passes_aligned :
    (∀ {α : Type} (v : Row α) (size : Nat) (r : ByteRange) (f : α → α),
      v.Tiles 0 size → r.stop < Word.limit → r.stop ≤ size → v.FoundAgain r f) ∧
    (∀ (t : Tree) (ctx : Context) (acc : Access) (pending : List (List Update)),
      t.bytes.IsProper → acc.range.isEmpty = false → (t.plan ctx acc).result = .ok pending →
        (∃ visited, t.Aligned ctx acc pending visited) ∧
        t.access ctx acc = ((t.plan ctx acc).state.settle ctx acc.range acc.cause pending).after
          [.accessed acc.cause acc.tag ctx.alloc acc.range]) ∧
    (∀ (t : Tree) (ctx : Context) (tag : Tag) (pending : List (List Update)),
      let acc : Access := ⟨tag, ⟨0, t.size⟩, .write, .dealloc⟩
      t.bytes.IsProper → t.size ≠ 0 → (t.plan ctx acc).result = .ok pending →
        (∃ visited, t.Aligned ctx acc pending visited) ∧
        (t.stronglyProtected? ctx = none →
          t.free ctx tag = (t.plan ctx acc).state.settle ctx acc.range acc.cause pending)) ∧
    ∀ (root : Tag) (size : Nat) (settings : Settings) (actions : List Action),
      ((new root size settings).run actions).bytes.IsProper := by
  refine ⟨?_, ?_, ?_, ?_⟩
  · intro α v size r f hv hlimit hstop
    exact Row.foundAgain hv hlimit hstop f
  · intro t ctx acc pending hproper hne hplan
    exact ⟨⟨_, aligned_of_plan_eq_ok hproper hne hplan⟩, access_of_plan_eq_ok hne hplan⟩
  · intro t ctx tag pending acc hproper hsize hplan
    have hne : acc.range.isEmpty = false := by
      rw [Bool.eq_false_iff]
      exact fun h => hsize (ByteRange.isEmpty_iff.mp h)
    exact ⟨⟨_, aligned_of_plan_eq_ok hproper hne hplan⟩, free_of_plan_eq_ok hne hplan⟩
  · intro root size settings actions
    exact (wellFormed_run (wellFormed_new root size settings) actions).isProper

/-- A write through the owner, over bytes in the middle that a borrow covers in part.  The passes
meet two elements, and the borrow is lost in each of them in its own way: it was used in the first
one only.  A row of two elements is divided in the same places, and all of the allocation may be
freed. -/
theorem passes_aligned_across_runs :
    ∃ (t : Tree) (ctx : Context) (acc : Access) (pending freeing : List (List Update))
      (visited all : Row ByteStates),
      Row.FoundAgain [⟨0, 4, 'a'⟩, ⟨4, 8, 'b'⟩] acc.range Char.toUpper ∧
      (t.plan ctx acc).result = .ok pending ∧ t.Aligned ctx acc pending visited ∧
      visited.places = [⟨2, 2⟩, ⟨4, 2⟩] ∧
      pending.map (·.map fun u => (u.index, u.state.accessed)) = [[(1, true)], [(1, false)]] ∧
      t.Aligned ctx ⟨⟨1⟩, ⟨0, t.size⟩, .write, .dealloc⟩ freeing all ∧
      t.free ctx ⟨1⟩ = (t.plan ctx ⟨⟨1⟩, ⟨0, t.size⟩, .write, .dealloc⟩).state.settle ctx
        ⟨0, t.size⟩ .dealloc freeing := by
  let ctx : Context := ⟨{}, .empty, ⟨1⟩⟩
  let t := (new ⟨1⟩ 8 {}).run [.insertChild ctx ⟨⟨1⟩, ⟨2⟩, .reserved, false, ⟨0, 4⟩⟩]
  let acc : Access := ⟨⟨1⟩, ⟨2, 4⟩, .write, .explicit .write⟩
  obtain ⟨hrow, haccess, hfree, hproper⟩ := passes_aligned
  have hresult : ((t.plan ctx acc).result.map fun pending =>
      pending.map (·.map fun u => (u.index, u.state.accessed))) =
      .ok [[(1, true)], [(1, false)]] := by
    dsimp only [t, ctx, acc]
    decide +kernel
  have hlooks : ((Row.updateRange acc.range id).on t.bytes.elements).1.map Row.places =
      .ok [⟨2, 2⟩, ⟨4, 2⟩] := by
    dsimp only [t, ctx, acc]
    decide +kernel
  have hplanned : (t.plan ctx acc).result.isOk = true := by
    dsimp only [t, ctx, acc]
    decide +kernel
  have hfreeing : (t.plan ctx ⟨⟨1⟩, ⟨0, t.size⟩, .write, .dealloc⟩).result.isOk = true := by
    dsimp only [t, ctx]
    decide +kernel
  have hnone : t.stronglyProtected? ctx = none := by
    dsimp only [t, ctx]
    decide +kernel
  have hsize : t.size ≠ 0 := by
    dsimp only [t, ctx]
    decide +kernel
  have hok : ∀ {r : Except Failure (List (List Update))}, r.isOk = true → ∃ us, r = .ok us := by
    rintro (f | us) h
    · cases h
    · exact ⟨us, rfl⟩
  obtain ⟨pending, hplan⟩ := hok hplanned
  obtain ⟨freeing, hplan'⟩ := hok hfreeing
  have htree := hproper ⟨1⟩ 8 {} [.insertChild ctx ⟨⟨1⟩, ⟨2⟩, .reserved, false, ⟨0, 4⟩⟩]
  obtain ⟨⟨visited, hvisited⟩, -⟩ := haccess t ctx acc pending htree rfl hplan
  obtain ⟨⟨all, hall⟩, hrest⟩ := hfree t ctx ⟨1⟩ freeing htree hsize hplan'
  have htiles : Row.Tiles [(⟨0, 4, 'a'⟩ : Element Char), ⟨4, 8, 'b'⟩] 0 8 := by simp [Row.Tiles]
  refine ⟨t, ctx, acc, pending, freeing, visited, all, ?_, hplan, hvisited, ?_, ?_, hall,
    hrest hnone⟩
  · exact hrow _ 8 acc.range Char.toUpper htiles (by decide) (by decide)
  · rw [hvisited.first] at hlooks
    exact Except.ok.inj hlooks
  · rw [hplan] at hresult
    exact Except.ok.inj hresult

end Tree

end TreeBorrows
