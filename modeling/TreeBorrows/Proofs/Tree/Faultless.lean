/-
# Operations on a tree never fault

A fault is a stop that the checked program is not to blame for.  An outcome is `Faultless` if it
is no fault, and if every step that its messages and its error have to word is one that accesses
can bring about, for only of those it can be said what they mean.

On a sound tree with room for joining its runs every operation is faultless, whatever tag and range
it is given.  Where the two passes of an access look up a node or walk a range, they have checked
before that the tag is known and the range inside, and the divided map is as large as the one that
was checked.  A new tag was looked up among the others before it is registered, so what is left to
ask is that there is an index for it.
-/
import TreeBorrows.Proofs.Tree.Commuting
import TreeBorrows.Proofs.Tree.Merging

namespace TreeBorrows

/-! ## 1. Steps that can be worded -/

/-- A step that the conflict reports wins no capability back. -/
def Conflict.IsForward : Conflict → Prop
  | .protectedTransition tr => tr.IsForward
  | .childForbidden _ | .protectedFree => True

/-- A step that the error reports wins no capability back. -/
def Error.IsForward : Error → Prop
  | .aliasing v => v.conflict.IsForward
  | .useAfterFree _ | .outOfBounds _ | .invalidProvenance _ => True

/-- A step that the message reports wins no capability back. -/
def Message.IsForward : Message → Prop
  | .transitioned _ tr _ _ _ => tr.IsForward
  | .cannotProtect _ _ e => e.IsForward
  | _ => True

namespace ByteState

variable {kind : AccessKind} {rel : Relatedness} {prot : Bool} {s s' : ByteState}

theorem isForward_of_access_eq_ok {tr : Transition}
    (h : s.access kind rel prot = .ok (s', tr)) : tr.IsForward :=
  (Transition.isForward_of_transition? (access_eq_ok_iff.mp h).1).2

theorem isForward_of_access_eq_error {c : Conflict} (h : s.access kind rel prot = .error c) :
    c.IsForward := by
  unfold access at h
  split at h
  · obtain rfl := Except.error.inj h
    trivial
  · next tr htr =>
    split at h
    · obtain rfl := Except.error.inj h
      exact (Transition.isForward_of_transition? htr).2
    · cases h

end ByteState

/-! ## 2. Faultless outcomes -/

/-- The outcome is no fault, and all that it reports can be worded. -/
structure Outcome.Faultless {σ α : Type} (o : Outcome σ α) : Prop where
  ne_fault : ∀ f, o.result ≠ .error (.fault f)
  log_forward : ∀ m ∈ o.log, m.IsForward
  error_forward : ∀ e, o.result = .error (.error e) → e.IsForward

namespace Outcome.Faultless

variable {σ τ α β : Type} {s : σ} {o : Outcome σ α}

theorem ok (s : σ) (x : α) : (Outcome.ok s x).Faultless where
  ne_fault _ h := nomatch h
  log_forward _ hm := absurd hm List.not_mem_nil
  error_forward _ h := nomatch h

theorem error (s : σ) {e : Error} (he : e.IsForward) :
    (Outcome.error s e : Outcome σ α).Faultless where
  ne_fault _ h := nomatch h
  log_forward _ hm := absurd hm List.not_mem_nil
  error_forward e' h := by
    obtain rfl : e = e' := Failure.error.inj (Except.error.inj h)
    exact he

theorem after (h : o.Faultless) {ms : List Message} (hms : ∀ m ∈ ms, m.IsForward) :
    (o.after ms).Faultless where
  ne_fault := h.ne_fault
  log_forward m hm := (List.mem_append.mp hm).elim (hms m) (h.log_forward m)
  error_forward := h.error_forward

theorem mapState (h : o.Faultless) (f : σ → τ) : (o.mapState f).Faultless :=
  ⟨h.ne_fault, h.log_forward, h.error_forward⟩

theorem mapAnswer (h : o.Faultless) (g : α → β) : (o.mapAnswer g).Faultless where
  ne_fault f hf := h.ne_fault f (mapAnswer_eq_error hf)
  log_forward := h.log_forward
  error_forward e he := h.error_forward e (mapAnswer_eq_error he)

theorem andThen (h : o.Faultless) {next : σ → α → Outcome σ β}
    (hnext : ∀ x, o.result = .ok x → (next o.state x).Faultless) :
    (o.andThen next).Faultless := by
  cases hres : o.result with
  | ok x =>
    rw [andThen_of_ok hres]
    exact (hnext x hres).after h.log_forward
  | error f =>
    rw [andThen_of_error hres]
    refine ⟨fun f' hf => ?_, h.log_forward, fun e he => ?_⟩
    · exact h.ne_fault f' (hres.trans (congrArg Except.error (Except.error.inj hf)))
    · exact h.error_forward e (hres.trans (congrArg Except.error (Except.error.inj he)))

end Outcome.Faultless

namespace Tree

open Outcome (Faultless)

variable {t : Tree} {ctx : Context} {acc : Access} {accessed : Label} {start : Nat}
  {us : List (List Update)}

/-! ## 3. What an operation needs -/

theorem isForward_of_requireTag {tag : Tag} {op : Operation} {e : Error}
    (h : t.requireTag tag op = .error e) : e.IsForward := by
  obtain ⟨-, rfl⟩ := requireTag_eq_error_iff.mp h
  trivial

theorem isForward_of_requireRange {r : ByteRange} {op : Operation} {e : Error}
    (h : t.requireRange r op = .error e) : e.IsForward := by
  unfold requireRange at h
  split at h
  · split at h
    · cases h
    · obtain rfl := Except.error.inj h
      trivial
  · obtain rfl := Except.error.inj h
    trivial

/-! ## 4. The two passes -/

/-- The steps that a visit asks for are those of an access. -/
theorem isForward_of_planVisit_eq_ok {o : Nat} {v? : Except Fault Visit} {u : Update}
    (h : planVisit ctx acc accessed o v? = .ok (some u)) : u.transition.IsForward := by
  cases v? with
  | error f => cases h
  | ok v =>
    obtain ⟨s, tr, hstep, hu⟩ := planVisit_eq_ok_iff.mp h
    split at hu
    · cases hu
    · obtain rfl := Option.some.inj hu
      exact ByteState.isForward_of_access_eq_ok hstep

theorem isForward_of_planVisit_eq_error {o : Nat} {v? : Except Fault Visit} {e : Error}
    (h : planVisit ctx acc accessed o v? = .error (.error e)) : e.IsForward := by
  cases v? with
  | error f => cases h
  | ok v =>
    obtain ⟨c, hc, heq⟩ := planVisit_eq_error h
    obtain rfl := Failure.error.inj heq
    exact ByteState.isForward_of_access_eq_error hc

theorem isForward_of_pending_eq_ok (h : t.pending ctx acc start accessed = .ok us) :
    ∀ updates ∈ us, ∀ u ∈ updates, u.transition.IsForward := by
  intro updates hupdates u hu
  obtain ⟨e, -, he⟩ := exists_of_mapM_eq_ok h hupdates
  obtain ⟨v?, -, hv⟩ := ((collect_eq_ok he).2 u).mp hu
  exact isForward_of_planVisit_eq_ok hv

theorem isForward_of_pending_eq_error {e : Error}
    (h : t.pending ctx acc start accessed = .error (.error e)) : e.IsForward := by
  obtain ⟨-, x, -, -, -, hx⟩ := mapM_eq_error_iff.mp h
  obtain ⟨v?, -, hv⟩ := exists_of_collect_eq_error hx
  exact isForward_of_planVisit_eq_error hv

/-- **The first pass** never faults. -/
theorem faultless_plan (h : t.Sound ctx.isProtected) (acc : Access) :
    (t.plan ctx acc).Faultless := by
  cases htag : t.requireTag acc.tag acc.cause.operation with
  | error e =>
    rw [plan, htag]
    exact .error t (isForward_of_requireTag htag)
  | ok start =>
    cases hrange : t.requireRange acc.range acc.cause.operation with
    | error e =>
      rw [plan, htag]
      dsimp only
      rw [hrange]
      exact .error t (isForward_of_requireRange hrange)
    | ok _ =>
      have hi := requireTag_eq_ok_iff.mp htag
      obtain ⟨n, hn, -⟩ := h.exists_get? hi
      rw [plan_eq hi hn hrange]
      refine ⟨fun f hf => ?_, fun _ hm => absurd hm List.not_mem_nil, fun e he =>
        isForward_of_pending_eq_error he⟩
      obtain ⟨v, hv⟩ := violation_of_pending_eq_error h (Arena.lt_width_of_get? hn)
        (requireRange_eq_ok_iff.mp hrange).2 hf
      cases hv

/-- A first pass that succeeds has checked its tag and its range. -/
theorem exists_of_plan_eq_ok (h : t.Sound ctx.isProtected)
    (hus : (t.plan ctx acc).result = .ok us) :
    ∃ start n, t.tags.index? acc.tag = some start ∧ t.arena.get? start = some n ∧
      t.bytes.checkRange acc.range = .ok () ∧
      (t.plan ctx acc).state = t.divided acc.range ∧
      t.pending ctx acc start n.label = .ok us := by
  cases htag : t.requireTag acc.tag acc.cause.operation with
  | error e =>
    rw [plan, htag] at hus
    cases hus
  | ok start =>
    cases hrange : t.requireRange acc.range acc.cause.operation with
    | error e =>
      rw [plan, htag] at hus
      dsimp only at hus
      rw [hrange] at hus
      cases hus
    | ok _ =>
      have hi := requireTag_eq_ok_iff.mp htag
      obtain ⟨n, hn, -⟩ := h.exists_get? hi
      have hcheck := RunMap.checkRange_eq_ok_iff.mpr (requireRange_eq_ok_iff.mp hrange)
      rw [plan_eq hi hn hrange] at hus ⊢
      exact ⟨start, n, hi, hn, hcheck, rfl, hus⟩

/-- A free goes on to its second pass if no tag is strongly protected. -/
theorem free_of_not_stronglyProtected (h : t.Sound ctx.isProtected) {tag : Tag}
    (hus : (t.plan ctx ⟨tag, ⟨0, t.size⟩, .write, .dealloc⟩).result = .ok us)
    (hnone : t.stronglyProtected? ctx = none) :
    t.free ctx tag = ((t.plan ctx ⟨tag, ⟨0, t.size⟩, .write, .dealloc⟩).state.settle ctx
      ⟨0, t.size⟩ .dealloc us).after (t.plan ctx ⟨tag, ⟨0, t.size⟩, .write, .dealloc⟩).log := by
  obtain ⟨-, -, -, -, -, hstate, -⟩ := exists_of_plan_eq_ok h hus
  have hnone' : (t.divided ⟨0, t.size⟩).stronglyProtected? ctx = none := hnone
  unfold free
  dsimp only
  rw [Outcome.andThen_of_ok hus, hstate, hnone']

/-- **A free is refused for the first tag that is strongly protected.**  It looks up a tag that its
first pass knew, and the state of a node that the tree holds. -/
theorem free_of_stronglyProtected (h : t.Sound ctx.isProtected) {tag : Tag} {i : Nat} {n : Node}
    (hus : (t.plan ctx ⟨tag, ⟨0, t.size⟩, .write, .dealloc⟩).result = .ok us)
    (hsome : t.stronglyProtected? ctx = some (i, n)) :
    ∃ v, t.free ctx tag = (Outcome.error (t.divided ⟨0, t.size⟩) (.aliasing v)).after
        (t.plan ctx ⟨tag, ⟨0, t.size⟩, .write, .dealloc⟩).log ∧
      v.conflict = .protectedFree ∧ v.conflicting = n.label := by
  obtain ⟨start, m, hi, hm, -, hstate, -⟩ := exists_of_plan_eq_ok h hus
  have hsome' : (t.divided ⟨0, t.size⟩).stronglyProtected? ctx = some (i, n) := hsome
  have htag : (t.divided ⟨0, t.size⟩).requireTag tag .dealloc = .ok start :=
    requireTag_eq_ok_iff.mpr hi
  have hget : (t.divided ⟨0, t.size⟩).arena.get? start = some m := hm
  have hat : (t.divided ⟨0, t.size⟩).stateAt i 0 =
      .ok (n.stateIn (((t.divided ⟨0, t.size⟩).bytes.valueAt? 0).getD .empty) i) := by
    have hd : (t.divided ⟨0, t.size⟩).arena.NoActiveDefault := h.noActiveDefault
    rw [stateAt, Arena.look_of_get? hd (of_stronglyProtected?_eq_some hsome).1]
    rfl
  unfold free
  dsimp only
  rw [Outcome.andThen_of_ok hus, hstate]
  simp only [hsome', htag, hget, hat]
  exact ⟨_, rfl, rfl, rfl⟩

theorem faultless_tidied (hroom : t.HasRoom) (hproper : t.bytes.IsProper) :
    t.tidied.Faultless := by
  obtain ⟨bytes, runs, heq, -⟩ := hroom.tidied hproper
  rw [heq]
  exact .ok _ ()

theorem isForward_of_mem_updateMessages {r : ByteRange} {cause : Cause} {updates : List Update}
    (hu : ∀ u ∈ updates, u.transition.IsForward) {m : Message}
    (hm : m ∈ t.updateMessages ctx cause r updates) : m.IsForward := by
  obtain ⟨u, humem, hmsg⟩ := List.mem_filterMap.mp hm
  split at hmsg
  · cases hmsg
  · split at hmsg
    · cases hmsg
    · split at hmsg
      · obtain rfl := Option.some.inj hmsg
        exact hu u humem
      · cases hmsg

/-- **The second pass** never faults after a first one. -/
theorem faultless_settle (h : t.Sound ctx.isProtected) (hroom : t.HasRoom)
    (hus : (t.plan ctx acc).result = .ok us) (cause : Cause) :
    ((t.plan ctx acc).state.settle ctx acc.range cause us).Faultless := by
  obtain ⟨start, n, -, -, hcheck, hstate, hpending⟩ := exists_of_plan_eq_ok h hus
  rw [hstate, settle_divided h.isProper hcheck]
  refine Faultless.after (faultless_tidied ?_ ?_) fun m hm => ?_
  · exact hroom.congr (RunMap.size_change _ _ _ _) rfl rfl
  · exact RunMap.isProper_change h.isProper _ _ _
  · obtain ⟨⟨e, updates⟩, hmem, hm⟩ := List.mem_flatMap.mp hm
    refine isForward_of_mem_updateMessages ?_ hm
    exact isForward_of_pending_eq_ok hpending updates (List.of_mem_zip hmem).2

/-! ## 5. Operations -/

/-- **An access** never faults. -/
theorem faultless_access (h : t.Sound ctx.isProtected) (hroom : t.HasRoom) (acc : Access) :
    (t.access ctx acc).Faultless := by
  refine Faultless.after ?_ ?_
  · exact (faultless_plan h acc).andThen fun us hus => faultless_settle h hroom hus acc.cause
  · intro m hm
    obtain rfl := List.mem_singleton.mp hm
    trivial

/-- **Freeing** never faults. -/
theorem faultless_free (h : t.Sound ctx.isProtected) (hroom : t.HasRoom) (tag : Tag) :
    (t.free ctx tag).Faultless := by
  have hplan := faultless_plan h ⟨tag, ⟨0, t.size⟩, .write, .dealloc⟩
  cases hus : (t.plan ctx ⟨tag, ⟨0, t.size⟩, .write, .dealloc⟩).result with
  | error f =>
    unfold free
    exact hplan.andThen fun us hok => nomatch hus.symm.trans hok
  | ok us =>
    cases hstrong : t.stronglyProtected? ctx with
    | none =>
      rw [free_of_not_stronglyProtected h hus hstrong]
      exact (faultless_settle h hroom hus .dealloc).after hplan.log_forward
    | some found =>
      obtain ⟨v, hfree, hconflict, -⟩ := free_of_stronglyProtected h hus hstrong
      have hforward : (Error.aliasing v).IsForward := by rw [Error.IsForward, hconflict]; trivial
      rw [hfree]
      exact (Outcome.Faultless.error _ hforward).after hplan.log_forward

theorem hasRoom_access (h : t.Sound ctx.isProtected) (hroom : t.HasRoom) (acc : Access) :
    (t.access ctx acc).state.HasRoom := by
  have halike : t.Alike t := ⟨rfl, rfl, fun _ => rfl, hroom, hroom⟩
  exact (halike.access h h ctx.settings acc).state.room

theorem hasRoom_attach (hroom : t.HasRoom) (c : NewChild) (parent : Nat) (tags : Registry Tag)
    (i : Nat) : (t.attach c parent tags i).HasRoom := by
  have halike : t.Alike t := ⟨rfl, rfl, fun _ => rfl, hroom, hroom⟩
  exact (halike.attach c parent tags i).room

/-- **An insertion** never faults while there is an index for a new tag. -/
theorem faultless_insertChild (h : t.Sound ctx.isProtected) (hroom : t.HasRoom)
    (hindex : t.tags.size < Registry.indexLimit) (c : NewChild) :
    (t.insertChild ctx c).Faultless := by
  unfold insertChild
  split
  · exact .error t trivial
  · next hnew =>
    refine (faultless_access h hroom _).andThen fun _ hok => ?_
    have hs₁ := sound_access h ⟨c.parent, c.range, .read, .reborrow⟩
    have hroom₁ := hasRoom_access h hroom ⟨c.parent, c.range, .read, .reborrow⟩
    have hsame := sameNodes_access t ctx ⟨c.parent, c.range, .read, .reborrow⟩
    obtain ⟨-, -, hlimit, hstop⟩ := exists_of_access_eq_ok hok
    generalize (t.access ctx ⟨c.parent, c.range, .read, .reborrow⟩).state = t₁ at *
    have hcheck₁ : t₁.bytes.checkRange c.range = .ok () :=
      RunMap.checkRange_eq_ok_iff.mpr
        ⟨hlimit, Nat.le_trans hstop (Nat.le_of_eq hsame.size_eq.symm)⟩
    have hinsert : t₁.tags.insert c.tag = .ok (⟨t₁.tags.keys ++ [c.tag]⟩, t₁.tags.size) := by
      rw [Registry.insert_eq_ok_iff, hsame.tags_eq]
      exact ⟨hindex, fun hmem => hnew (Registry.contains_iff.mpr hmem), rfl, rfl⟩
    cases htag : t₁.requireTag c.parent .retag with
    | error e => exact .error t₁ (isForward_of_requireTag htag)
    | ok parent =>
      dsimp only
      rw [hinsert, hcheck₁]
      exact faultless_tidied (hasRoom_attach hroom₁ c parent _ _)
        (isProper_attach hs₁.isProper c parent _ _)

/-- **A question about a tag** never faults: every node has a state at every byte. -/
theorem stateOf_ne_fault {prot : Tag → Bool} (h : t.Sound prot) (tag : Tag) (o : Nat) (f : Fault) :
    t.stateOf tag o ≠ .error (.fault f) := by
  intro hf
  unfold stateOf at hf
  split at hf
  · cases hf
  · next i hi =>
    split at hf
    · cases hf
    · obtain ⟨n, hn, -⟩ := h.exists_get? (requireTag_eq_ok_iff.mp hi)
      rw [stateAt, Arena.look_of_get? h.noActiveDefault hn] at hf
      cases hf

theorem isForward_of_stateOf {tag : Tag} {o : Nat} {e : Error}
    (he : t.stateOf tag o = .error (.error e)) : e.IsForward := by
  unfold stateOf at he
  split at he
  · next htag =>
    obtain rfl := Failure.error.inj (Except.error.inj he)
    exact isForward_of_requireTag htag
  · split at he
    · next hrange =>
      obtain rfl := Failure.error.inj (Except.error.inj he)
      exact isForward_of_requireRange hrange
    · next i _ _ _ =>
      cases hat : t.stateAt i o with
      | error f =>
        rw [hat] at he
        cases he
      | ok s =>
        rw [hat] at he
        cases he

end Tree

end TreeBorrows
