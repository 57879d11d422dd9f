/-
# The log of the transitions of tracked tags

A checker that is told to track some tags reports their transitions.  `transitions_told` says that
these reports are exact, in every reachable state and for every event that makes an access: an
access itself, the read of a derivation, and the write of a free.

What an event does besides its access adds nothing to that.  So an event carries the outcome of one
operation on a tree (`Carries`): it is refused as that is, tells of the same transitions, and puts
the tree back that the operation leaves.  Only a free drops the tree in the end, which tells of no
transition either.
-/
import TreeBorrows.Proofs.Checker.Refusal
import TreeBorrows.Proofs.Tree.Transitions

namespace TreeBorrows

/-- What the access of an event is made for. -/
def Event.cause : Event → Cause
  | .access _ _ kind => .explicit kind
  | .free _ => .dealloc
  | _ => .reborrow

namespace Checker

variable {k : Checker} {e : Event} {d : Demand} {x : Allocation} {p : Pointer}

/-! ## 1. Events that carry an operation on a tree -/

/-- What happened to the checker is what happened to the tree of one allocation, as far as refusals,
transitions and trees are concerned. -/
structure Carries {α : Type} (k : Checker) (a : AllocationId) (x : Allocation)
    (tree : Outcome Tree Unit) (o : Outcome Checker α) : Prop where
  refused_iff : ∀ err, o.result = .error (.error err) ↔ tree.result = .error (.error err)
  log_eq : o.log.filter Message.isTransition = tree.log.filter Message.isTransition
  allocations_eq : o.state.allocations = k.allocations.insert a { x with tree := tree.state }

namespace Carries

variable {α β : Type} {a : AllocationId} {tree : Outcome Tree Unit} {o : Outcome Checker α}

theorem onTree (hx : k.allocations.get? p.alloc = some x) (op : Operation)
    (f : Context → Tree → Outcome Tree Unit) :
    k.Carries p.alloc x (f (k.context p.alloc) x.tree) (k.onTree p op f) := by
  rw [onTree_of_get? hx]
  exact ⟨fun _ => Iff.rfl, rfl, rfl⟩

theorem mapAnswer (h : k.Carries a x tree o) (g : α → β) :
    k.Carries a x tree (o.mapAnswer g) where
  refused_iff err := by
    rw [← h.refused_iff err]
    exact ⟨Outcome.mapAnswer_eq_error, fun he => congrArg (Except.map g) he⟩
  log_eq := h.log_eq
  allocations_eq := h.allocations_eq

theorem after (h : k.Carries a x tree o) {ms : List Message}
    (hms : ms.filter Message.isTransition = []) : k.Carries a x tree (o.after ms) where
  refused_iff := h.refused_iff
  log_eq := by rw [Outcome.log_after, List.filter_append, hms, List.nil_append, h.log_eq]
  allocations_eq := h.allocations_eq

/-- What comes after the operation may do other things to the checker. -/
theorem andThen (h : k.Carries a x tree o) {next : Checker → α → Outcome Checker β}
    (hnext : ∀ s y, (∀ err, (next s y).result ≠ .error (.error err)) ∧
      (next s y).log.filter Message.isTransition = [] ∧
      (next s y).state.allocations = s.allocations) :
    k.Carries a x tree (o.andThen next) := by
  cases hres : o.result with
  | error f =>
    rw [Outcome.andThen_of_error hres]
    refine ⟨fun err => ?_, h.log_eq, h.allocations_eq⟩
    rw [← h.refused_iff, hres]
    simp
  | ok y =>
    obtain ⟨hres', hlog, hallocations⟩ := hnext o.state y
    rw [Outcome.andThen_of_ok hres]
    refine ⟨fun err => ?_, ?_, hallocations.trans h.allocations_eq⟩
    · rw [← h.refused_iff, hres]
      exact iff_of_false (hres' err) nofun
    · rw [Outcome.log_after, List.filter_append, hlog, List.append_nil, h.log_eq]

end Carries

/-! ## 2. Derivations -/

theorem carries_keepTag (hx : k.allocations.get? p.alloc = some x) (range : ByteRange)
    (der : Derivation) : k.Carries p.alloc x
      (x.tree.access (k.context p.alloc) ⟨p.tag, range, .read, .reborrow⟩)
      (k.keepTag p range der) := by
  have h := Carries.onTree hx .retag fun ctx t => t.access ctx ⟨p.tag, range, .read, .reborrow⟩
  unfold keepTag
  exact h.andThen fun _ _ => ⟨fun _ => nofun, rfl, rfl⟩

theorem carries_newTag (hx : k.allocations.get? p.alloc = some x) (range : ByteRange)
    (permission : Permission) (isProtected : Bool) : k.Carries p.alloc x
      (x.tree.insertChild (k.context p.alloc)
        ⟨p.tag, ⟨k.nextTag⟩, permission, isProtected, range⟩)
      (k.newTag p range permission isProtected) := by
  have h := Carries.onTree (k := k.freshTag.1) hx .retag fun ctx t =>
    t.insertChild ctx ⟨p.tag, ⟨k.nextTag⟩, permission, isProtected, range⟩
  have h' : k.Carries p.alloc x
      (x.tree.insertChild (k.context p.alloc)
        ⟨p.tag, ⟨k.nextTag⟩, permission, isProtected, range⟩)
      (k.freshTag.1.onTree p .retag fun ctx t =>
        t.insertChild ctx ⟨p.tag, ⟨k.nextTag⟩, permission, isProtected, range⟩) :=
    ⟨h.refused_iff, h.log_eq, h.allocations_eq⟩
  unfold newTag
  refine h'.andThen fun _ _ => ⟨fun _ => nofun, ?_, rfl⟩
  rw [Outcome.log_after]
  split <;> rfl

/-- The operation on the tree that a derivation comes down to. -/
def derivation (k : Checker) (t : Tree) (p : Pointer) (range : ByteRange) (der : Derivation)
    (cell isProtected : Bool) : Outcome Tree Unit :=
  match der.permission? cell with
  | none => t.access (k.context p.alloc) ⟨p.tag, range, .read, .reborrow⟩
  | some permission =>
    t.insertChild (k.context p.alloc) ⟨p.tag, ⟨k.nextTag⟩, permission, isProtected, range⟩

theorem carries_reborrow (hx : k.allocations.get? p.alloc = some x) (range : ByteRange)
    (der : Derivation) (cell isProtected : Bool) : k.Carries p.alloc x
      (k.derivation x.tree p range der cell isProtected)
      (k.reborrow p range der cell isProtected) := by
  have hlive : k.requireLive p .retag = .ok x := by
    simp [requireLive, hx]
  unfold reborrow derivation
  rw [hlive]
  cases der.permission? cell with
  | none => exact carries_keepTag hx range der
  | some permission => exact carries_newTag hx range permission isProtected

theorem carries_retag (hx : k.allocations.get? p.alloc = some x) (range : ByteRange)
    (der : Derivation) (cell : Bool) (kind : Protection) : k.Carries p.alloc x
      (k.derivation x.tree p range der cell (kind.protects && 0 < k.calls.depth))
      (k.retag p range der cell kind) := by
  unfold retag
  refine ((carries_reborrow hx range der cell _).andThen fun s tag? => ?_).after ?_
  · cases tag? with
    | none => exact ⟨fun _ => nofun, rfl, rfl⟩
    | some tag =>
      dsimp only
      split
      · exact ⟨fun _ => nofun, rfl, rfl⟩
      · exact ⟨fun _ => nofun, rfl, rfl⟩
  · split <;> rfl

theorem tellsTransitions_derivation (h : k.Sound) (hx : k.allocations.get? p.alloc = some x)
    {range : ByteRange} {der : Derivation} {cell isProtected : Bool}
    (hok : ∀ err, (k.derivation x.tree p range der cell isProtected).result ≠ .error (.error err)) :
    x.tree.TellsTransitions (k.derivation x.tree p range der cell isProtected).state k.settings
      ⟨p.tag, range, .read, .reborrow⟩ (k.derivation x.tree p range der cell isProtected).log := by
  have hs : x.tree.Sound (k.context p.alloc).isProtected := h.tree hx
  unfold derivation at hok ⊢
  cases hd : der.permission? cell with
  | none =>
    rw [hd] at hok
    exact Tree.tellsTransitions_access hs _ hok
  | some permission =>
    rw [hd] at hok
    refine Tree.tellsTransitions_insertChild hs (Derivation.ne_active_of_permission? hd) ?_ hok
    exact fun hprot => absurd (h.protector_lt hprot) (Nat.lt_irrefl _)

theorem no_transition_derivation {t : Tree} {range : ByteRange} {der : Derivation}
    {cell isProtected : Bool} {err : Error}
    (he : (k.derivation t p range der cell isProtected).result = .error (.error err)) :
    (k.derivation t p range der cell isProtected).log.filter Message.isTransition = [] := by
  unfold derivation at he ⊢
  cases hd : der.permission? cell with
  | none =>
    rw [hd] at he
    exact Tree.no_transition_access he
  | some permission =>
    rw [hd] at he
    exact Tree.no_transition_insertChild he

/-! ## 3. Frees -/

theorem log_free (hx : k.allocations.get? p.alloc = some x) :
    (k.free p).log.filter Message.isTransition =
      (x.tree.free (k.context p.alloc) p.tag).log.filter Message.isTransition := by
  have hdrop : ∀ k' : Checker, (k'.drop p.alloc).log.filter Message.isTransition = [] := by
    intro k'
    unfold drop
    split <;> rfl
  have htree := onTree_of_get? hx .dealloc fun ctx t => t.free ctx p.tag
  unfold free
  cases hres : (k.onTree p .dealloc fun ctx t => t.free ctx p.tag).result with
  | error f =>
    rw [Outcome.andThen_of_error hres, htree]
    rfl
  | ok u =>
    rw [Outcome.andThen_of_ok hres, Outcome.log_after, List.filter_append, hdrop, List.append_nil,
      htree]
    rfl

/-! ## 4. All events -/

theorem onTree_of_get?_eq_none {α : Type} (hx : k.allocations.get? p.alloc = none) (op : Operation)
    (f : Context → Tree → Outcome Tree α) :
    k.onTree p op f = .error k (.useAfterFree ⟨op, some (.deadPointer p)⟩) := by
  simp [onTree, requireLive, hx]

theorem no_transition_retag {range : ByteRange} {der : Derivation} {cell : Bool} {kind : Protection}
    {err : Error} (he : (k.retag p range der cell kind).result = .error (.error err)) :
    (k.retag p range der cell kind).log.filter Message.isTransition = [] := by
  cases hx : k.allocations.get? p.alloc with
  | none =>
    have hdead : ∀ isProtected, k.reborrow p range der cell isProtected =
        .error k (.useAfterFree ⟨.retag, some (.deadPointer p)⟩) := by
      simp [reborrow, requireLive, hx]
    unfold retag
    dsimp only
    rw [hdead, Outcome.log_after, Outcome.andThen_of_error rfl]
    split <;> rfl
  | some x =>
    have h := carries_retag hx range der cell kind
    exact h.log_eq.trans (no_transition_derivation ((h.refused_iff err).mp he))

/-- **An event that is refused tells of no transition.** -/
theorem no_transition_of_refused {err : Error} (he : (k.perform e).result = .error (.error err)) :
    (k.perform e).log.filter Message.isTransition = [] := by
  cases e with
  | access p r kind =>
    have he : (k.access p r kind).result = _ := Outcome.mapAnswer_eq_error he
    show (k.access p r kind).log.filter Message.isTransition = []
    unfold access at he ⊢
    cases hx : k.allocations.get? p.alloc with
    | none =>
      rw [onTree_of_get?_eq_none hx]
      rfl
    | some x =>
      have h := Carries.onTree hx (.ofAccess kind) fun ctx t =>
        t.access ctx ⟨p.tag, r, kind, .explicit kind⟩
      exact h.log_eq.trans (Tree.no_transition_access ((h.refused_iff err).mp he))
  | derive p r der cell => exact no_transition_retag (Outcome.mapAnswer_eq_error he)
  | retag p r der cell kind => exact no_transition_retag (Outcome.mapAnswer_eq_error he)
  | free p =>
    have he : (k.free p).result = _ := Outcome.mapAnswer_eq_error he
    show (k.free p).log.filter Message.isTransition = []
    cases hx : k.allocations.get? p.alloc with
    | none =>
      rw [free, onTree_of_get?_eq_none hx]
      rfl
    | some x =>
      rw [result_free hx] at he
      exact (log_free hx).trans (Tree.no_transition_free he)
  | drop a =>
    have he : (k.drop a).result = _ := Outcome.mapAnswer_eq_error he
    show (k.drop a).log.filter Message.isTransition = []
    unfold drop
    split <;> rfl
  | name p s =>
    show (k.name p s).log.filter Message.isTransition = []
    unfold name nameAncestor Outcome.ofEdit
    split <;> rfl
  | exit c =>
    have he : (k.exit c).result = _ := Outcome.mapAnswer_eq_error he
    unfold exit at he
    split at he <;> cases he
  | allocate _ | drawCall | enter _ _ | openCall _ => cases he
  | permissionAt p o => rfl

/-- The tree that an event leaves of an allocation.  A free drops it, but first it writes to all of
its bytes; so the tree is taken after that write (`Tree.state_free_eq`). -/
def treeAfter (k : Checker) (e : Event) (a : AllocationId) (x : Allocation) : Tree :=
  match e with
  | .free p =>
    (x.tree.access (k.context p.alloc) ⟨p.tag, ⟨0, x.tree.size⟩, .write, .dealloc⟩).state
  | e => ((k.perform e).state.allocations.get? a).elim x.tree Allocation.tree

/-- An event that carries an operation tells what the operation tells. -/
theorem Carries.tellsTransitions {α : Type} {a : AllocationId} {tree : Outcome Tree Unit}
    {o : Outcome Checker α} {settings : Settings} {acc : Access} (h : k.Carries a x tree o)
    (htree : (∀ err, tree.result ≠ .error (.error err)) →
      x.tree.TellsTransitions tree.state settings acc tree.log)
    (hok : ∀ err, o.result ≠ .error (.error err)) :
    x.tree.TellsTransitions ((o.state.allocations.get? a).elim x.tree Allocation.tree) settings acc
      o.log := by
  have hafter : (o.state.allocations.get? a).elim x.tree Allocation.tree = tree.state := by
    rw [h.allocations_eq, Table.get?_insert, if_pos rfl]
    rfl
  rw [hafter]
  have htells := htree fun err he => hok err ((h.refused_iff err).mpr he)
  exact htells.congr (fun _ _ _ _ => rfl) h.log_eq

/-- **The log of transitions is exact.**  In every reachable state, an event that is refused tells
of no transition.  One that is not refused, and that accesses an allocation through a tag, tells of
the transitions of tracked tags that this access makes.  For each of these tags and each byte of the
range there is one message if the permission changes, and none if it does not.  It is an
information, goes from the permission before to the one after, and calls the access foreign if the
tag is neither the accessed one nor above it. -/
theorem transitions_told (hk : k.Reachable) (e : Event) :
    (∀ err, (k.perform e).result = .error (.error err) →
      ∀ m ∈ (k.perform e).log, m.isTransition = false) ∧
    (∀ d x, k.allocations.get? d.pointer.alloc = some x → e.demand? x.tree.size = some d →
      (∀ err, (k.perform e).result ≠ .error (.error err)) →
        x.tree.TellsTransitions (k.treeAfter e d.pointer.alloc x) k.settings
          ⟨d.pointer.tag, d.range, d.kind, e.cause⟩ (k.perform e).log) ∧
    ∀ m ∈ (k.perform e).log, m.isTransition = true → m.severity = .info := by
  have h := hk.sound
  refine ⟨fun err he m hm => ?_, fun d x hx hdemand hok => ?_,
    fun m _ => Message.severity_of_isTransition⟩
  · have hnone := List.filter_eq_nil_iff.mp (no_transition_of_refused he) m hm
    exact eq_false_of_ne_true hnone
  · cases e with
    | access p r kind =>
      obtain rfl := Option.some.inj hdemand
      have hc := Carries.onTree hx (.ofAccess kind) fun ctx t =>
        t.access ctx ⟨p.tag, r, kind, .explicit kind⟩
      exact (hc.mapAnswer fun _ => Answer.done).tellsTransitions
        (Tree.tellsTransitions_access (h.tree hx) _) hok
    | derive p r der cell =>
      obtain rfl := Option.some.inj hdemand
      exact ((carries_retag hx r der cell .none).mapAnswer Answer.tag).tellsTransitions
        (tellsTransitions_derivation h hx) hok
    | retag p r der cell kind =>
      obtain rfl := Option.some.inj hdemand
      exact ((carries_retag hx r der cell kind).mapAnswer Answer.tag).tellsTransitions
        (tellsTransitions_derivation h hx) hok
    | free p =>
      obtain rfl := Option.some.inj hdemand
      have hfree : ∀ err, (x.tree.free (k.context p.alloc) p.tag).result ≠ .error (.error err) := by
        intro err he
        rw [← result_free hx] at he
        exact hok err (congrArg (Except.map _) he)
      exact (Tree.tellsTransitions_free (h.tree hx) hfree).congr (fun _ _ _ _ => rfl)
        (log_free hx)
    | allocate _ | drop _ | drawCall | enter _ _ | exit _ | openCall _ | name _ _
    | permissionAt _ _ => cases hdemand

/-- A tracked borrow of eight bytes has been written through at four of them.  A read of all bytes
by the owner takes the right to write from it there, and this is told once and of these bytes.  The
next write through the borrow is refused, and nothing is told. -/
theorem transition_told_of_borrow :
    ∃ (k : Checker) (x : Allocation), k.Reachable ∧ k.settings.tracked = [3] ∧
      k.allocations.get? ⟨1⟩ = some x ∧
      let read : Event := .access ⟨⟨1⟩, ⟨2⟩⟩ ⟨0, 8⟩ .read
      let write : Event := .access ⟨⟨1⟩, ⟨3⟩⟩ ⟨0, 8⟩ .write
      (k.perform read).log.filter Message.isTransition =
          [.transitioned ⟨3⟩ ⟨.active, .frozen⟩ (.explicit .read) true ⟨2, 4⟩] ∧
        x.tree.TellsTransitions (k.treeAfter read ⟨1⟩ x) k.settings
          ⟨⟨2⟩, ⟨0, 8⟩, .read, .explicit .read⟩ (k.perform read).log ∧
        ∀ m ∈ ((k.perform read).state.perform write).log, m.isTransition = false := by
  let settings : Settings := { tracked := [3] }
  let es : List Event := [.allocate 8, .derive ⟨⟨1⟩, ⟨2⟩⟩ ⟨0, 8⟩ .exclusive false,
    .access ⟨⟨1⟩, ⟨3⟩⟩ ⟨2, 4⟩ .write]
  let read : Event := .access ⟨⟨1⟩, ⟨2⟩⟩ ⟨0, 8⟩ .read
  have hk : Reachable ((new settings).run es) := ⟨settings, es, rfl⟩
  have hk' : Reachable (((new settings).run es).perform read).state := ⟨settings, es ++ [read], rfl⟩
  have hsome : (((new settings).run es).allocations.get? ⟨1⟩).isSome = true := by decide +kernel
  obtain ⟨x, hx⟩ := Option.isSome_iff_exists.mp hsome
  have hok : (((new settings).run es).perform read).result = .ok .done := by decide +kernel
  have htells := (transitions_told hk read).2.1 ⟨⟨⟨1⟩, ⟨2⟩⟩, ⟨0, 8⟩, .read⟩ x hx rfl
    fun err he => by rw [hok] at he; cases he
  have hrefused : ((((new settings).run es).perform read).state.perform
      (.access ⟨⟨1⟩, ⟨3⟩⟩ ⟨0, 8⟩ .write)).isRefused = true := by
    decide +kernel
  obtain ⟨err, herr⟩ := Outcome.isRefused_iff.mp hrefused
  refine ⟨_, x, hk, by decide +kernel, hx, by decide +kernel, htells, ?_⟩
  exact (transitions_told hk' _).1 err herr

end Checker

end TreeBorrows
