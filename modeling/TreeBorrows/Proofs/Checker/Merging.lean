/-
# Joining runs is invisible

How many runs a map may gain before equal neighbours are joined is a setting of the checker, and it
decides nothing that a program could see: with any two values of it, every event of a run has the
same answer, error or fault, and after every event every tag is in the same state at every byte
(`merging_invisible`).

The two runs need not cut their maps in the same places, and a refused access leaves its cuts
behind, so the proof goes through a relation between the two checkers (`Alike`) that says nothing
about runs.  Every event has the same result on both sides and keeps the relation
(`Alike.perform`), provided that an allocation leaves room for the count of its runs
(`Settings.RoomFor`).
-/
import TreeBorrows.Proofs.Checker.Reachable
import TreeBorrows.Proofs.Tree.Merging

namespace TreeBorrows

open Outcome (Agree)

/-- The number of runs at which those of an allocation are to be joined is always a word. -/
def Settings.RoomFor (s : Settings) (size : Nat) : Prop := max 1 size + s.mergeSlack < Word.limit

/-! ## 1. Checkers that are alike -/

/-- The allocations have the same size, and their trees differ at most in their cuts. -/
structure Allocation.Alike (x x' : Allocation) : Prop where
  size_eq : x'.size = x.size
  tree : x.tree.Alike x'.tree

namespace Checker

/-- Two checkers with settings of their own, which agree in everything else but the cuts. -/
structure Alike (s s' : Settings) (k k' : Checker) : Prop where
  settings_eq : k.settings = s
  settings_eq' : k'.settings = s'
  nextAlloc_eq : k'.nextAlloc = k.nextAlloc
  nextTag_eq : k'.nextTag = k.nextTag
  nextCall_eq : k'.nextCall = k.nextCall
  protectors_eq : k'.protectors = k.protectors
  calls_eq : k'.calls = k.calls
  allocations : ∀ a, Option.Rel Allocation.Alike (k.allocations.get? a) (k'.allocations.get? a)

variable {s s' : Settings} {k k' : Checker}

theorem alike_new (s s' : Settings) : Alike s s' (new s) (new s') where
  settings_eq := rfl
  settings_eq' := rfl
  nextAlloc_eq := rfl
  nextTag_eq := rfl
  nextCall_eq := rfl
  protectors_eq := rfl
  calls_eq := rfl
  allocations _ := .none

namespace Alike

/-- An allocation is live on both sides or on neither. -/
theorem get?_cases (h : Alike s s' k k') (a : AllocationId) :
    (k.allocations.get? a = none ∧ k'.allocations.get? a = none) ∨
      ∃ x x', k.allocations.get? a = some x ∧ k'.allocations.get? a = some x' ∧ x.Alike x' := by
  have hrel := h.allocations a
  generalize k.allocations.get? a = x?, k'.allocations.get? a = x'? at hrel ⊢
  cases hrel with
  | none => exact .inl ⟨rfl, rfl⟩
  | some hxx' => exact .inr ⟨_, _, rfl, rfl, hxx'⟩

theorem context_eq (h : Alike s s' k k') (a : AllocationId) :
    k'.context a = { k.context a with settings := s' } := by
  simp only [context, h.protectors_eq, h.settings_eq']

/-- No question about the state of a tag is answered differently. -/
theorem stateOf_eq (h : Alike s s' k k') (p : Pointer) (o : Nat) :
    k'.stateOf p o = k.stateOf p o := by
  unfold stateOf askTree requireLive
  rcases h.get?_cases p.alloc with ⟨hx, hx'⟩ | ⟨x, x', hx, hx', hxx'⟩
  · rw [hx, hx']
  · rw [hx, hx']
    exact hxx'.tree.stateOf_eq p.tag o

/-- A table of allocations with a new one, or with another tree for one. -/
theorem insert (h : Alike s s' k k') (a : AllocationId) {x x' : Allocation} (hxx' : x.Alike x') :
    Alike s s' { k with allocations := k.allocations.insert a x }
      { k' with allocations := k'.allocations.insert a x' } where
  __ := h
  allocations b := by
    rw [Table.get?_insert, Table.get?_insert]
    split
    · exact .some hxx'
    · exact h.allocations b

theorem erase (h : Alike s s' k k') (a : AllocationId) :
    Alike s s' { k with allocations := k.allocations.erase a }
      { k' with allocations := k'.allocations.erase a } where
  __ := h
  allocations b := by
    rw [Table.get?_erase, Table.get?_erase]
    split
    · exact .none
    · exact h.allocations b

theorem putTree (h : Alike s s' k k') (a : AllocationId) {x x' : Allocation} (hxx' : x.Alike x')
    {t t' : Tree} (ht : t.Alike t') : Alike s s' (k.putTree a x t) (k'.putTree a x' t') :=
  h.insert a ⟨hxx'.size_eq, ht⟩

theorem freshAlloc (h : Alike s s' k k') : Alike s s' k.freshAlloc.1 k'.freshAlloc.1 where
  __ := h
  nextAlloc_eq := congrArg (· + 1) h.nextAlloc_eq

theorem freshTag (h : Alike s s' k k') : Alike s s' k.freshTag.1 k'.freshTag.1 where
  __ := h
  nextTag_eq := congrArg (· + 1) h.nextTag_eq

theorem freshCall (h : Alike s s' k k') : Alike s s' k.freshCall.1 k'.freshCall.1 where
  __ := h
  nextCall_eq := congrArg (· + 1) h.nextCall_eq

theorem setProtector (h : Alike s s' k k') (tag : Tag) (kind : Protection) :
    Alike s s' (k.setProtector tag kind) (k'.setProtector tag kind) where
  __ := h
  protectors_eq := congrArg (Table.insert · tag kind) h.protectors_eq

theorem clearProtector (h : Alike s s' k k') (tag : Tag) :
    Alike s s' (k.clearProtector tag) (k'.clearProtector tag) where
  __ := h
  protectors_eq := congrArg (Table.erase · tag) h.protectors_eq

theorem setCalls (h : Alike s s' k k') {calls calls' : CallStack} (hcalls : calls' = calls) :
    Alike s s' { k with calls := calls } { k' with calls := calls' } where
  __ := h
  calls_eq := hcalls

/-! ## 2. Operations on one tree -/

/-- Operations that agree on sound trees that are alike agree on the checkers. -/
theorem onTree {α : Type} (h : Alike s s' k k') (hs : k.Sound) (hs' : k'.Sound) {p : Pointer}
    {op : Operation} {f : Context → Tree → Outcome Tree α}
    (hf : ∀ {t t' : Tree}, t.Sound (k.context p.alloc).isProtected →
      t'.Sound (k.context p.alloc).isProtected → t.Alike t' →
        Agree Tree.Alike (f (k.context p.alloc) t)
          (f { k.context p.alloc with settings := s' } t')) :
    Agree (Alike s s') (k.onTree p op f) (k'.onTree p op f) := by
  unfold Checker.onTree requireLive
  rcases h.get?_cases p.alloc with ⟨hx, hx'⟩ | ⟨x, x', hx, hx', hxx'⟩
  · rw [hx, hx']
    exact ⟨rfl, h⟩
  · rw [hx, hx', h.context_eq]
    have ht' : x'.tree.Sound k.protectors.contains := h.protectors_eq ▸ hs'.tree hx'
    exact (hf (hs.tree hx) ht' hxx'.tree).mapState fun ht => h.putTree p.alloc hxx' ht

/-- So do changes of a tree. -/
theorem editTree (h : Alike s s' k k') (p : Pointer) (op : Operation)
    {f : Tree → Except Error Tree}
    (hf : ∀ {t t' : Tree}, t.Alike t' → (∃ e, f t = .error e ∧ f t' = .error e) ∨
      ∃ u u', f t = .ok u ∧ f t' = .ok u' ∧ u.Alike u') :
    (∃ e, k.editTree p op f = .error e ∧ k'.editTree p op f = .error e) ∨
      ∃ u u', k.editTree p op f = .ok u ∧ k'.editTree p op f = .ok u' ∧ Alike s s' u u' := by
  unfold Checker.editTree requireLive
  rcases h.get?_cases p.alloc with ⟨hx, hx'⟩ | ⟨x, x', hx, hx', hxx'⟩
  · rw [hx, hx']
    exact .inl ⟨_, rfl, rfl⟩
  · rw [hx, hx']
    rcases hf hxx'.tree with ⟨e, he, he'⟩ | ⟨u, u', hu, hu', huu'⟩
    · exact .inl ⟨e, by simp [he, Except.map], by simp [he', Except.map]⟩
    · refine .inr ⟨_, _, ?_, ?_, h.putTree p.alloc hxx' huu'⟩
      · simp [hu, Except.map]
      · simp [hu', Except.map]

theorem onTree_access (h : Alike s s' k k') (hs : k.Sound) (hs' : k'.Sound) (p : Pointer)
    (op : Operation) (range : ByteRange) (kind : AccessKind) (cause : Cause) :
    Agree (Alike s s') (k.onTree p op fun ctx t => t.access ctx ⟨p.tag, range, kind, cause⟩)
      (k'.onTree p op fun ctx t => t.access ctx ⟨p.tag, range, kind, cause⟩) :=
  h.onTree hs hs' fun ht ht' htt' => htt'.access ht ht' s' _

/-! ## 3. Allocations -/

theorem allocate (h : Alike s s' k k') {size : Nat} (hroom : s.RoomFor size)
    (hroom' : s'.RoomFor size) : Agree (Alike s s') (k.allocate size) (k'.allocate size) := by
  have halloc : k'.freshAlloc.2 = k.freshAlloc.2 := congrArg AllocationId.mk h.nextAlloc_eq
  have htag : k'.freshAlloc.1.freshTag.2 = k.freshAlloc.1.freshTag.2 :=
    congrArg Tag.mk h.nextTag_eq
  have hfresh := h.freshAlloc.freshTag
  have hnew : ∀ tag, Allocation.Alike ⟨size, .new tag size k.freshAlloc.1.freshTag.1.settings⟩
      ⟨size, .new tag size k'.freshAlloc.1.freshTag.1.settings⟩ := by
    intro tag
    rw [hfresh.settings_eq, hfresh.settings_eq']
    exact ⟨rfl, Tree.alike_new tag size hroom hroom'⟩
  unfold Checker.allocate
  dsimp only
  rw [halloc, htag]
  exact ⟨rfl, hfresh.insert _ (hnew _)⟩

theorem drop (h : Alike s s' k k') (a : AllocationId) :
    Agree (Alike s s') (k.drop a) (k'.drop a) := by
  have hlive : k'.allocations.contains a = k.allocations.contains a := by
    unfold Table.contains
    rcases h.get?_cases a with ⟨hx, hx'⟩ | ⟨x, x', hx, hx', -⟩
    · rw [hx, hx']
    · rw [hx, hx']
      rfl
  unfold Checker.drop
  rw [hlive]
  split
  · exact ⟨rfl, h.erase a⟩
  · exact ⟨rfl, h⟩

theorem free (h : Alike s s' k k') (hs : k.Sound) (hs' : k'.Sound) (p : Pointer) :
    Agree (Alike s s') (k.free p) (k'.free p) := by
  have htree : Agree (Alike s s') (k.onTree p .dealloc fun ctx t => t.free ctx p.tag)
      (k'.onTree p .dealloc fun ctx t => t.free ctx p.tag) :=
    h.onTree hs hs' fun ht ht' htt' => htt'.free ht ht' s' p.tag
  exact htree.andThen fun _ _ => htree.state.drop p.alloc

/-! ## 4. Derived pointers and names -/

theorem keepTag (h : Alike s s' k k') (hs : k.Sound) (hs' : k'.Sound) (p : Pointer)
    (range : ByteRange) (d : Derivation) :
    Agree (Alike s s') (k.keepTag p range d) (k'.keepTag p range d) := by
  have hread := h.onTree_access hs hs' p .retag range .read .reborrow
  exact hread.andThen fun _ _ => ⟨rfl, hread.state⟩

theorem newTag (h : Alike s s' k k') (hs : k.Sound) (hs' : k'.Sound) (p : Pointer)
    (range : ByteRange) (permission : Permission) (isProtected : Bool) :
    Agree (Alike s s') (k.newTag p range permission isProtected)
      (k'.newTag p range permission isProtected) := by
  have htag : k'.freshTag.2 = k.freshTag.2 := congrArg Tag.mk h.nextTag_eq
  unfold Checker.newTag
  dsimp only
  rw [htag]
  have hs : k.freshTag.1.Sound := hs.congr rfl rfl (Nat.le_succ _)
  have hs' : k'.freshTag.1.Sound := hs'.congr rfl rfl (Nat.le_succ _)
  have hinsert : Agree (Alike s s')
      (k.freshTag.1.onTree p .retag fun ctx t =>
        t.insertChild ctx ⟨p.tag, k.freshTag.2, permission, isProtected, range⟩)
      (k'.freshTag.1.onTree p .retag fun ctx t =>
        t.insertChild ctx ⟨p.tag, k.freshTag.2, permission, isProtected, range⟩) :=
    h.freshTag.onTree hs hs' fun ht ht' htt' => htt'.insertChild ht ht' s' _
  exact hinsert.andThen fun _ _ => ⟨rfl, hinsert.state⟩

theorem reborrow (h : Alike s s' k k') (hs : k.Sound) (hs' : k'.Sound) (p : Pointer)
    (range : ByteRange) (d : Derivation) (cell isProtected : Bool) :
    Agree (Alike s s') (k.reborrow p range d cell isProtected)
      (k'.reborrow p range d cell isProtected) := by
  unfold Checker.reborrow requireLive
  rcases h.get?_cases p.alloc with ⟨hx, hx'⟩ | ⟨x, x', hx, hx', -⟩
  · rw [hx, hx']
    exact ⟨rfl, h⟩
  · rw [hx, hx']
    cases d.permission? cell with
    | none => exact h.keepTag hs hs' p range d
    | some permission => exact h.newTag hs hs' p range permission isProtected

theorem holdTag (h : Alike s s' k k') (p : Pointer) (kind : Protection) :
    Agree (Alike s s') (k.holdTag p kind) (k'.holdTag p kind) := by
  refine ⟨rfl, (h.setProtector p.tag kind).setCalls ?_⟩
  exact congrArg (CallStack.protect · p) h.calls_eq

theorem retag (h : Alike s s' k k') (hs : k.Sound) (hs' : k'.Sound) (p : Pointer)
    (range : ByteRange) (d : Derivation) (cell : Bool) (kind : Protection) :
    Agree (Alike s s') (k.retag p range d cell kind) (k'.retag p range d cell kind) := by
  unfold Checker.retag
  dsimp only
  rw [h.calls_eq]
  refine Agree.after ?_ _ _
  have hreborrow := h.reborrow hs hs' p range d cell (kind.protects && 0 < k.calls.depth)
  refine hreborrow.andThen fun tag? _ => ?_
  cases tag? with
  | none => exact ⟨rfl, hreborrow.state⟩
  | some tag =>
    dsimp only
    split
    · have hhold := hreborrow.state.holdTag ⟨p.alloc, tag⟩ kind
      exact hhold.andThen fun _ _ => ⟨rfl, hhold.state⟩
    · exact ⟨rfl, hreborrow.state⟩

theorem name (h : Alike s s' k k') (p : Pointer) (text : String) :
    Agree (Alike s s') (k.name p text) (k'.name p text) := by
  unfold Checker.name nameAncestor
  rcases h.editTree p .inspect fun ht => ht.name p.tag 0 text with
    ⟨e, he, he'⟩ | ⟨u, u', hu, hu', huu'⟩
  · rw [he, he']
    exact ⟨rfl, h⟩
  · rw [hu, hu']
    exact ⟨rfl, huu'⟩

/-! ## 5. Calls -/

theorem protect (h : Alike s s' k k') (call : CallId) (p : Pointer) :
    Alike s s' (k.protect call p).1 (k'.protect call p).1 := by
  unfold Checker.protect prepareProtection
  rcases h.editTree p .protect fun ht => ht.resetAbsorption p.tag with
    ⟨e, he, he'⟩ | ⟨u, u', hu, hu', huu'⟩
  · rw [he, he']
    exact h
  · rw [hu, hu']
    refine (huu'.setProtector p.tag .strong).setCalls ?_
    exact congrArg (CallStack.protect · p) huu'.calls_eq

theorem protectAll (h : Alike s s' k k') (call : CallId) (ps : List Pointer) :
    Alike s s' (k.protectAll call ps).1 (k'.protectAll call ps).1 := by
  induction ps generalizing k k' with
  | nil => exact h
  | cons p ps ih => exact ih (h.protect call p)

theorem enter (h : Alike s s' k k') (call : CallId) (ps : List Pointer) :
    Agree (Alike s s') (k.enter call ps) (k'.enter call ps) := by
  have hpush : Alike s s' { k with calls := k.calls.push call }
      { k' with calls := k'.calls.push call } :=
    h.setCalls (congrArg (CallStack.push · call) h.calls_eq)
  exact ⟨rfl, hpush.protectAll call ps⟩

theorem releaseAll (h : Alike s s' k k') (ps : List Pointer) :
    Alike s s' (k.releaseAll ps).1 (k'.releaseAll ps).1 := by
  induction ps generalizing k k' with
  | nil => exact h
  | cons p ps ih => exact ih (h.clearProtector p.tag)

theorem endFrames (h : Alike s s' k k') (call : CallId) (fs : List Frame) :
    Alike s s' (k.endFrames call fs).1 (k'.endFrames call fs).1 := by
  induction fs generalizing k k' with
  | nil => exact h
  | cons f fs ih => exact ih (h.releaseAll f.pointers)

theorem exit (h : Alike s s' k k') (call : CallId) :
    Agree (Alike s s') (k.exit call) (k'.exit call) := by
  unfold Checker.exit
  rw [h.calls_eq]
  cases k.calls.popThrough? call with
  | none => exact ⟨rfl, h⟩
  | some popped => exact ⟨rfl, (h.setCalls rfl).endFrames call popped.1⟩

theorem openCall (h : Alike s s' k k') (ps : List Pointer) :
    Agree (Alike s s') (k.openCall ps) (k'.openCall ps) := by
  have hcall : k'.freshCall.2 = k.freshCall.2 := congrArg CallId.mk h.nextCall_eq
  unfold Checker.openCall
  dsimp only
  rw [hcall]
  have henter := h.freshCall.enter k.freshCall.2 ps
  exact henter.andThen fun _ _ => ⟨rfl, henter.state⟩

/-! ## 6. Events and runs -/

/-- **Every event has the same result on both sides, and leaves the checkers alike.** -/
theorem perform (h : Alike s s' k k') (hs : k.Sound) (hs' : k'.Sound) (e : Event)
    (hroom : ∀ size, e = .allocate size → s.RoomFor size ∧ s'.RoomFor size) :
    Agree (Alike s s') (k.perform e) (k'.perform e) := by
  cases e with
  | allocate size =>
    obtain ⟨hsize, hsize'⟩ := hroom size rfl
    exact (h.allocate hsize hsize').mapAnswer _
  | drop a => exact (h.drop a).mapAnswer _
  | free p => exact (h.free hs hs' p).mapAnswer _
  | derive p range d cell => exact (h.retag hs hs' p range d cell .none).mapAnswer _
  | retag p range d cell kind => exact (h.retag hs hs' p range d cell kind).mapAnswer _
  | access p range kind => exact (h.onTree_access hs hs' p _ range kind _).mapAnswer _
  | drawCall =>
    refine ⟨?_, h.freshCall⟩
    exact congrArg (fun n => Except.ok (Answer.call ⟨n⟩)) h.nextCall_eq
  | enter call ps => exact (h.enter call ps).mapAnswer _
  | exit call => exact (h.exit call).mapAnswer _
  | openCall ps => exact (h.openCall ps).mapAnswer _
  | name p text => exact (h.name p text).mapAnswer _
  | permissionAt p o =>
    refine ⟨?_, h⟩
    simp only [Checker.perform, permissionAt, h.stateOf_eq]

/-- **And so has every run**, event by event. -/
theorem outcomes (h : Alike s s' k k') (hs : k.Sound) (hs' : k'.Sound) (es : List Event)
    (hroom : ∀ size, .allocate size ∈ es → s.RoomFor size ∧ s'.RoomFor size) :
    List.Forall₂ (Agree (Alike s s')) (k.outcomes es) (k'.outcomes es) := by
  induction es generalizing k k' with
  | nil => exact .nil
  | cons e es ih =>
    have hfirst : Agree (Alike s s') (k.perform e) (k'.perform e) := by
      refine h.perform hs hs' e fun size he => hroom size ?_
      exact he ▸ List.mem_cons_self
    refine .cons hfirst (ih hfirst.state (hs.perform e) (hs'.perform e) fun size hmem => ?_)
    exact hroom size (List.mem_cons_of_mem e hmem)

end Alike

/-- **Joining runs is invisible.**  However many runs the maps may gain before equal neighbours are
joined, the events of a run have the same answers, errors and faults one by one, and after each of
them every tag is in the same state at every offset. -/
theorem merging_invisible (settings : Settings) (m₁ m₂ : Nat) (es : List Event)
    (hroom : ∀ size, .allocate size ∈ es →
      max 1 size + m₁ < Word.limit ∧ max 1 size + m₂ < Word.limit) :
    List.Forall₂ (fun o₁ o₂ => o₁.result = o₂.result ∧
        ∀ p o, o₁.state.stateOf p o = o₂.state.stateOf p o)
      ((new { settings with mergeSlack := m₁ }).outcomes es)
      ((new { settings with mergeSlack := m₂ }).outcomes es) := by
  have halike := alike_new { settings with mergeSlack := m₁ } { settings with mergeSlack := m₂ }
  have hrun := halike.outcomes (sound_new _) (sound_new _) es hroom
  refine hrun.imp fun o₁ o₂ h => ⟨h.result_eq.symm, fun p o => ?_⟩
  exact (h.state.stateOf_eq p o).symm

/-- A write to bytes 2 to 5 is refused at byte 4 and leaves the map in four runs.  The read after it
joins them to two again in the first run and leaves them in the second one; neither shows. -/
theorem merging_invisible_after_late_refusal :
    List.Forall₂ (fun o₁ o₂ => o₁.result = o₂.result ∧
        ∀ p o, o₁.state.stateOf p o = o₂.state.stateOf p o)
      ((new { mergeSlack := 0 }).outcomes [.allocate 8,
        .derive ⟨⟨1⟩, ⟨2⟩⟩ ⟨0, 8⟩ .exclusive false, .access ⟨⟨1⟩, ⟨2⟩⟩ ⟨4, 4⟩ .write,
        .access ⟨⟨1⟩, ⟨3⟩⟩ ⟨2, 4⟩ .write, .access ⟨⟨1⟩, ⟨2⟩⟩ ⟨0, 8⟩ .read])
      ((new { mergeSlack := 32 }).outcomes [.allocate 8,
        .derive ⟨⟨1⟩, ⟨2⟩⟩ ⟨0, 8⟩ .exclusive false, .access ⟨⟨1⟩, ⟨2⟩⟩ ⟨4, 4⟩ .write,
        .access ⟨⟨1⟩, ⟨3⟩⟩ ⟨2, 4⟩ .write, .access ⟨⟨1⟩, ⟨2⟩⟩ ⟨0, 8⟩ .read]) := by
  refine merging_invisible {} 0 32 _ fun size hsize => ?_
  obtain rfl : size = 8 := by simpa using hsize
  decide

end Checker

end TreeBorrows
