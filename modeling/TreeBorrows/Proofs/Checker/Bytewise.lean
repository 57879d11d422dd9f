/-
# Accesses, byte by byte and node by node

What an access is meant to do takes no run and no route to say: at every byte of its range, every
node of the tree takes the step that its permission, its protector and its place in the tree ask
for, and nothing else happens.  `Tree.Allows` says that all these steps exist and hurt no
protector, `Tree.TakesStep` that a node has taken its one.

`access_iff_allows` compares that with what a checker does, in every reachable state: for any
cut of the runs, for any choice of states that are kept, and with or without skipping.  The two
agree but for one case.  After an allowed access was carried out, the number of runs at which
neighbours are to be joined next is added up, and where that sum is no word the access ends in a
fault.
-/
import TreeBorrows.Proofs.Checker.Reachable

namespace TreeBorrows

namespace Tree

/-! ## 1. What an access is meant to do -/

/-- At every byte of the range, every node has a step for an access through the node `start`, and
no step of a protected node takes away what its protector guarantees. -/
def Allows (t : Tree) (ctx : Context) (kind : AccessKind) (range : ByteRange) (start : Nat) :
    Prop :=
  ∀ o ∈ range, ∀ i n, t.arena.get? i = some n → ∃ s tr, t.stateOf n.tag o = .ok s ∧
    s.permission.transition? kind (t.arena.relatedness start i) (ctx.isProtected n.tag) =
      some tr ∧
    ¬(ctx.isProtected n.tag = true ∧ tr.violatesProtector = true)

/-- From the first tree to the second one, the node `i` takes its step at an offset.  Its byte
counts as accessed if it was, or if the accessed node is the node itself or below it. -/
def TakesStep (t t' : Tree) (ctx : Context) (kind : AccessKind) (start i : Nat) (n : Node)
    (o : Nat) : Prop :=
  ∃ s s' tr, t.stateOf n.tag o = .ok s ∧ t'.stateOf n.tag o = .ok s' ∧
    s.permission.transition? kind (t.arena.relatedness start i) (ctx.isProtected n.tag) =
      some tr ∧
    s'.permission = tr.target ∧
    s'.accessed = (s.accessed || !(t.arena.relatedness start i).isForeign)

variable {t : Tree} {ctx : Context} {acc : Access} {start : Nat}

/-! ## 2. What it does -/

/-- What is allowed is granted by the states that are kept. -/
theorem allows_iff_granted (h : t.Sound ctx.isProtected) {kind : AccessKind} {range : ByteRange}
    (hlimit : range.stop < Word.limit) (hstop : range.stop ≤ t.size) :
    t.Allows ctx kind range start ↔ ∀ o states, o ∈ range → t.bytes.valueAt? o = some states →
      t.arena.Granted ctx.isProtected kind start states := by
  constructor
  · intro hallows o states ho hval i n hn
    obtain ⟨s, tr, hs, htr, hviol⟩ := hallows o ho i n hn
    have hword : o + 1 < Word.limit := Nat.lt_of_le_of_lt ho.2 hlimit
    rw [h.stateOf_eq hn hval hword] at hs
    rw [Except.ok.inj hs]
    exact ByteState.exists_access_eq_ok_iff.mpr ⟨tr, htr, hviol⟩
  · intro hgranted o ho i n hn
    have hword : o + 1 < Word.limit := Nat.lt_of_le_of_lt ho.2 hlimit
    cases hval : t.bytes.valueAt? o with
    | none =>
      have hlt : o < t.size := Nat.lt_of_lt_of_le ho.2 hstop
      exact absurd (RunMap.valueAt?_eq_none_iff.mp hval) (Nat.not_le_of_lt hlt)
    | some states =>
      obtain ⟨tr, htr, hviol⟩ :=
        ByteState.exists_access_eq_ok_iff.mp (hgranted o states ho hval i n hn)
      exact ⟨_, tr, h.stateOf_eq hn hval hword, htr, hviol⟩

/-- The second pass makes every node take its step at every byte of the range. -/
theorem takesStep_committed (h : t.Sound ctx.isProtected) (hi : start < t.arena.width)
    (hlimit : acc.range.stop < Word.limit) (hstop : acc.range.stop ≤ t.size) {accessed : Label}
    {us : List (List Update)} (hus : t.pending ctx acc start accessed = .ok us) {o : Nat}
    (ho : o ∈ acc.range) {i : Nat} {n : Node} (hn : t.arena.get? i = some n) :
    t.TakesStep (t.committed acc.range us) ctx acc.kind start i n o := by
  obtain ⟨states, states', hval, hval', hcarried, -⟩ := carriedOut_committed h hi hstop hus ho
  obtain ⟨tr, htr⟩ := hcarried i n hn
  obtain ⟨htr, -, hs'⟩ := ByteState.access_eq_ok_iff.mp htr
  have hword : o + 1 < Word.limit := Nat.lt_of_le_of_lt ho.2 hlimit
  have hsound := sound_committed h hi hstop hus
  refine ⟨_, _, tr, h.stateOf_eq hn hval hword, hsound.stateOf_eq hn hval' hword, htr, ?_, ?_⟩
  · rw [hs']
  · rw [hs']

/-- Outside of the range, the second pass changes no state. -/
theorem stateOf_committed_of_not_mem (t : Tree) (us : List (List Update)) {range : ByteRange}
    {o : Nat} (ho : o ∉ range) (tag : Tag) :
    (t.committed range us).stateOf tag o = t.stateOf tag o :=
  stateOf_congr t (t.committed range us) rfl rfl (RunMap.size_change t.bytes range applyUpdates us)
    (valueAt?_committed_of_not_mem t us ho) tag

/-- What an access through a tag of a sound tree does. -/
theorem access_of_index? (h : t.Sound ctx.isProtected) (hi : t.tags.index? acc.tag = some start)
    (hlimit : acc.range.stop < Word.limit) (hstop : acc.range.stop ≤ t.size) :
    (¬t.Allows ctx acc.kind acc.range start ∧
        ∃ v, (t.access ctx acc).result = .error (.error (.aliasing v))) ∨
      t.Allows ctx acc.kind acc.range start ∧
        (t.access ctx acc).result =
          (if t.runsAtLastMerge + t.mergeSlack < Word.limit then .ok ()
            else .error (.fault .overflow)) ∧
        (∀ o ∈ acc.range, ∀ i n, t.arena.get? i = some n →
          t.TakesStep (t.access ctx acc).state ctx acc.kind start i n o) ∧
        ∀ o, o ∉ acc.range → ∀ tag, (t.access ctx acc).state.stateOf tag o = t.stateOf tag o := by
  obtain ⟨n, hn, hcases⟩ := access_cases_of_index? h hi hlimit hstop
  have hwidth := Arena.lt_width_of_get? hn
  have hpending := pending_eq_ok_iff h hwidth hstop n.label
  rw [← allows_iff_granted h hlimit hstop] at hpending
  rcases hcases with ⟨v, messages, hv, heq⟩ | ⟨us, messages, hus, heq⟩
  · refine .inl ⟨fun hallows => ?_, v, by rw [heq]; rfl⟩
    obtain ⟨us, hus⟩ := hpending.mpr hallows
    rw [hv] at hus
    nomatch hus
  · have hstate : ∀ tag o, (t.access ctx acc).state.stateOf tag o =
        (t.committed acc.range us).stateOf tag o := by
      intro tag o
      rw [heq]
      exact stateOf_tidied _ tag o
    refine .inr ⟨hpending.mp ⟨us, hus⟩, ?_, fun o ho i m hm => ?_, fun o ho tag => ?_⟩
    · rw [heq]
      exact result_tidied (t.committed acc.range us)
    · obtain ⟨s, s', tr, hs, hs', hstep⟩ :=
        takesStep_committed h hwidth hlimit hstop hus ho hm
      exact ⟨s, s', tr, hs, (hstate m.tag o).trans hs', hstep⟩
    · rw [hstate]
      exact stateOf_committed_of_not_mem t us ho tag

end Tree

/-! ## 3. In every reachable state -/

namespace Checker

/-- **An access is what it is meant to be, but for one sum.**  Through a tag of a live allocation
and inside of it, an access succeeds exactly if every node can take its step at every byte and the
number of runs to join at is a word.  If it is allowed, every node takes its step, and no state
outside of the range changes; if not, a violation is reported. -/
theorem access_iff_allows {k : Checker} (hk : k.Reachable) {a : AllocationId} {x : Allocation}
    (hx : k.allocations.get? a = some x) (acc : Access) {start : Nat}
    (hi : x.tree.tags.index? acc.tag = some start) (hlimit : acc.range.stop < Word.limit)
    (hstop : acc.range.stop ≤ x.tree.size) :
    ((x.tree.access (k.context a) acc).result = .ok () ↔
        x.tree.Allows (k.context a) acc.kind acc.range start ∧
          x.tree.runsAtLastMerge + x.tree.mergeSlack < Word.limit) ∧
      ((x.tree.access (k.context a) acc).result = .error (.fault .overflow) ↔
        x.tree.Allows (k.context a) acc.kind acc.range start ∧
          Word.limit ≤ x.tree.runsAtLastMerge + x.tree.mergeSlack) ∧
      (¬x.tree.Allows (k.context a) acc.kind acc.range start →
        ∃ v, (x.tree.access (k.context a) acc).result = .error (.error (.aliasing v))) ∧
      (x.tree.Allows (k.context a) acc.kind acc.range start →
        (∀ o ∈ acc.range, ∀ i n, x.tree.arena.get? i = some n →
          x.tree.TakesStep (x.tree.access (k.context a) acc).state (k.context a) acc.kind start
            i n o) ∧
        ∀ o, o ∉ acc.range → ∀ tag,
          (x.tree.access (k.context a) acc).state.stateOf tag o = x.tree.stateOf tag o) := by
  have hs : x.tree.Sound (k.context a).isProtected := hk.sound.tree hx
  rcases Tree.access_of_index? hs hi hlimit hstop with ⟨hno, v, hv⟩ | ⟨hyes, hres, heffect⟩
  · refine ⟨⟨fun h => ?_, fun h => absurd h.1 hno⟩, ⟨fun h => ?_, fun h => absurd h.1 hno⟩,
      fun _ => ⟨v, hv⟩, fun h => absurd h hno⟩
    · rw [hv] at h
      nomatch h
    · rw [hv] at h
      nomatch h
  · refine ⟨?_, ?_, fun h => absurd hyes h, fun _ => heffect⟩
    · rw [hres]
      split
      · next hlt => exact ⟨fun _ => ⟨hyes, hlt⟩, fun _ => rfl⟩
      · next hle => exact ⟨nofun, fun h => absurd h.2 hle⟩
    · rw [hres]
      split
      · next hlt => exact ⟨nofun, fun h => absurd hlt (Nat.not_lt.mpr h.2)⟩
      · next hle => exact ⟨fun _ => ⟨hyes, Nat.not_lt.mp hle⟩, fun _ => rfl⟩

/-- The first write through a mutable borrow of four of eight bytes succeeds, and so both of its
nodes were allowed to take their steps. -/
theorem access_through_borrow :
    ∃ (k : Checker) (x : Allocation), k.Reachable ∧ k.allocations.get? ⟨1⟩ = some x ∧
      x.tree.tags.index? ⟨3⟩ = some 1 ∧
      (x.tree.access (k.context ⟨1⟩) ⟨⟨3⟩, ⟨0, 4⟩, .write, .explicit .write⟩).result = .ok () ∧
      x.tree.Allows (k.context ⟨1⟩) .write ⟨0, 4⟩ 1 := by
  have hk : Reachable ((new {}).run [.allocate 8, .derive ⟨⟨1⟩, ⟨2⟩⟩ ⟨0, 4⟩ .exclusive false]) :=
    ⟨{}, _, rfl⟩
  have hview : (((new {}).run [.allocate 8, .derive ⟨⟨1⟩, ⟨2⟩⟩ ⟨0, 4⟩ .exclusive
      false]).allocations.get? ⟨1⟩).map (fun x => (x.tree.tags.index? ⟨3⟩, x.tree.size,
        (x.tree.access
          (((new {}).run [.allocate 8, .derive ⟨⟨1⟩, ⟨2⟩⟩ ⟨0, 4⟩ .exclusive false]).context ⟨1⟩)
          ⟨⟨3⟩, ⟨0, 4⟩, .write, .explicit .write⟩).result)) = some (some 1, 8, .ok ()) := by
    decide +kernel
  obtain ⟨x, hx, hview⟩ := Option.map_eq_some_iff.mp hview
  simp only [Prod.mk.injEq] at hview
  obtain ⟨hi, hsize, hok⟩ := hview
  have h := access_iff_allows hk hx ⟨⟨3⟩, ⟨0, 4⟩, .write, .explicit .write⟩ hi (by decide)
    (by rw [hsize]; decide)
  exact ⟨_, x, hk, hx, hi, hok, (h.1.mp hok).1⟩

/-- With the largest slack a word can hold, the first read is allowed and carried out, and then
ends in a fault. -/
theorem fault_of_allowed_access :
    ∃ (k : Checker) (x : Allocation), k.Reachable ∧ k.allocations.get? ⟨1⟩ = some x ∧
      x.tree.tags.index? ⟨2⟩ = some 0 ∧ x.tree.Allows (k.context ⟨1⟩) .read ⟨0, 1⟩ 0 ∧
      (x.tree.access (k.context ⟨1⟩) ⟨⟨2⟩, ⟨0, 1⟩, .read, .explicit .read⟩).result =
        .error (.fault .overflow) := by
  have hs := Tree.sound_new ⟨2⟩ 8 { mergeSlack := 2 ^ 64 - 1 } fun _ => false
  refine ⟨(new { mergeSlack := 2 ^ 64 - 1 }).run [.allocate 8],
    ⟨8, .new ⟨2⟩ 8 { mergeSlack := 2 ^ 64 - 1 }⟩, ⟨_, _, rfl⟩, rfl, rfl, ?_, ?_⟩
  · refine (Tree.allows_iff_granted hs (by decide) (by decide)).mpr
      fun o states ho hval i n hn => ?_
    obtain rfl := Tree.valueAt?_new hval
    obtain ⟨rfl, rfl⟩ := Tree.get?_new hn
    exact ⟨_, rfl⟩
  · decide +kernel

end Checker

end TreeBorrows
