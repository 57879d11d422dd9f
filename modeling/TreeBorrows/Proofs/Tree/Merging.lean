/-
# When equal neighbours are joined does not matter

Two trees are `Alike` if they have the same tags, the same nodes and the same states at every byte;
how their runs are cut, and when they are next to be joined, may differ.  Every operation has the
same result on both and leaves them alike (`Outcome.Agree`).

For accesses this is where failures and writes were stated without runs
(`pending_eq_error_iff`, `valueAt?_committed_of_mem`).  Joining itself can only fail when the number
of runs at which it is due is no word; `HasRoom` keeps that from happening, for a map never has more
runs than bytes.
-/
import TreeBorrows.Proofs.RunMap.Count
import TreeBorrows.Proofs.Tree.FirstConflict
import TreeBorrows.Proofs.Tree.Preservation

namespace TreeBorrows

/-! ## 1. Outcomes that agree -/

/-- Two outcomes have the same result and leave related states. -/
structure Outcome.Agree {σ τ α : Type} (R : σ → τ → Prop) (o : Outcome σ α) (o' : Outcome τ α) :
    Prop where
  result_eq : o'.result = o.result
  state : R o.state o'.state

namespace Outcome.Agree

variable {σ τ σ' τ' α β : Type} {R : σ → τ → Prop} {o : Outcome σ α} {o' : Outcome τ α}

theorem after (h : Agree R o o') (ms ms' : List Message) : Agree R (o.after ms) (o'.after ms') :=
  ⟨h.result_eq, h.state⟩

theorem mapAnswer (h : Agree R o o') (g : α → β) : Agree R (o.mapAnswer g) (o'.mapAnswer g) :=
  ⟨congrArg (Except.map g) h.result_eq, h.state⟩

theorem mapState (h : Agree R o o') {S : σ' → τ' → Prop} {f : σ → σ'} {g : τ → τ'}
    (hfg : R o.state o'.state → S (f o.state) (g o'.state)) :
    Agree S (o.mapState f) (o'.mapState g) :=
  ⟨h.result_eq, hfg h.state⟩

/-- Operations agree one after the other. -/
theorem andThen (h : Agree R o o') {next : σ → α → Outcome σ β} {next' : τ → α → Outcome τ β}
    (hnext : ∀ x, o.result = .ok x → Agree R (next o.state x) (next' o'.state x)) :
    Agree R (o.andThen next) (o'.andThen next') := by
  have hres := h.result_eq
  cases hx : o.result with
  | error f =>
    rw [hx] at hres
    rw [andThen_of_error hx, andThen_of_error hres]
    exact ⟨rfl, h.state⟩
  | ok x =>
    rw [hx] at hres
    rw [andThen_of_ok hx, andThen_of_ok hres]
    exact (hnext x hx).after _ _

end Outcome.Agree

/-! ## 2. Room for joining -/

namespace Tree

variable {t t' : Tree} {prot : Tag → Bool} {ctx : Context}

/-- However the runs are cut, the number of runs to join at is a word. -/
structure HasRoom (t : Tree) : Prop where
  runsAtLastMerge_le : t.runsAtLastMerge ≤ max 1 t.size
  lt_limit : max 1 t.size + t.mergeSlack < Word.limit

/-- The room is about the size and the count of runs. -/
theorem HasRoom.congr (h : t.HasRoom) (hsize : t'.size = t.size)
    (hruns : t'.runsAtLastMerge = t.runsAtLastMerge) (hslack : t'.mergeSlack = t.mergeSlack) :
    t'.HasRoom := by
  obtain ⟨hle, hlt⟩ := h
  constructor
  · rwa [hruns, hsize]
  · rwa [hslack, hsize]

/-- With room, joining neighbours always succeeds, and leaves room. -/
theorem HasRoom.tidied (h : t.HasRoom) (hproper : t.bytes.IsProper) :
    ∃ bytes runs, t.tidied = .ok { t with bytes := bytes, runsAtLastMerge := runs } () ∧
      (∀ o, bytes.valueAt? o = t.bytes.valueAt? o) ∧
      HasRoom { t with bytes := bytes, runsAtLastMerge := runs } := by
  have hlt : t.runsAtLastMerge + t.mergeSlack < Word.limit :=
    Nat.lt_of_le_of_lt (Nat.add_le_add_right h.runsAtLastMerge_le _) h.lt_limit
  have hadd : Word.add t.runsAtLastMerge t.mergeSlack = .ok (t.runsAtLastMerge + t.mergeSlack) :=
    Word.add_eq_ok_iff.mpr ⟨rfl, hlt⟩
  unfold Tree.tidied tidy
  rw [hadd]
  dsimp only
  by_cases hdue : t.runsAtLastMerge + t.mergeSlack ≤ t.bytes.runCount
  · rw [if_pos hdue]
    refine ⟨t.bytes.merge, t.bytes.merge.runCount, rfl, RunMap.valueAt?_merge t.bytes, ?_, ?_⟩
    · have hcount := RunMap.runCount_le_size (RunMap.isProper_merge hproper)
      exact Nat.le_trans hcount (Nat.le_max_right 1 _)
    · simpa [Tree.size] using h.lt_limit
  · rw [if_neg hdue]
    exact ⟨t.bytes, t.runsAtLastMerge, rfl, fun _ => rfl, h⟩

/-! ## 3. Trees that are alike -/

/-- The trees differ at most in the cuts of their runs and in when these are next to be joined, and
both have room for that. -/
structure Alike (t t' : Tree) : Prop where
  tags_eq : t'.tags = t.tags
  arena_eq : t'.arena = t.arena
  valueAt?_eq : ∀ o, t'.bytes.valueAt? o = t.bytes.valueAt? o
  room : t.HasRoom
  room' : t'.HasRoom

theorem alike_new (root : Tag) (size : Nat) {settings settings' : Settings}
    (h : max 1 size + settings.mergeSlack < Word.limit)
    (h' : max 1 size + settings'.mergeSlack < Word.limit) :
    (new root size settings).Alike (new root size settings') where
  tags_eq := rfl
  arena_eq := rfl
  valueAt?_eq _ := rfl
  room := ⟨Nat.le_max_left 1 _, by rwa [size_new]⟩
  room' := ⟨Nat.le_max_left 1 _, by rwa [size_new]⟩

theorem isProper_attach (h : t.bytes.IsProper) (c : NewChild) (parent : Nat)
    (tags : Registry Tag) (i : Nat) : (t.attach c parent tags i).bytes.IsProper := by
  rw [attach_eq]
  exact RunMap.isProper_map (RunMap.isProper_update h _ _) _

namespace Alike

theorem size_eq (h : t.Alike t') : t'.size = t.size :=
  RunMap.size_eq_of_valueAt? h.valueAt?_eq

theorem requireTag_eq (h : t.Alike t') (tag : Tag) (op : Operation) :
    t'.requireTag tag op = t.requireTag tag op := by
  simp [requireTag, h.tags_eq]

theorem requireRange_eq (h : t.Alike t') (r : ByteRange) (op : Operation) :
    t'.requireRange r op = t.requireRange r op := by
  simp [requireRange, h.size_eq]

theorem checkRange_eq (h : t.Alike t') (r : ByteRange) :
    t'.bytes.checkRange r = t.bytes.checkRange r := by
  have hsize : t'.bytes.size = t.bytes.size := h.size_eq
  simp [RunMap.checkRange, hsize]

theorem stateAt_eq (h : t.Alike t') (i o : Nat) : t'.stateAt i o = t.stateAt i o := by
  simp [stateAt, h.arena_eq, h.valueAt?_eq]

theorem stronglyProtected?_eq (h : t.Alike t') (ctx : Context) (settings : Settings) :
    t'.stronglyProtected? { ctx with settings := settings } = t.stronglyProtected? ctx := by
  simp [stronglyProtected?, h.arena_eq]

theorem stateOf_eq (h : t.Alike t') (tag : Tag) (o : Nat) : t'.stateOf tag o = t.stateOf tag o :=
  stateOf_congr t t' h.tags_eq h.arena_eq h.size_eq (h.valueAt?_eq o) tag

/-- Trees that are alike still are after changes that come to the same. -/
theorem congr {u u' : Tree} (h : t.Alike t') (htags : u'.tags = u.tags)
    (harena : u'.arena = u.arena) (hval : ∀ o, u'.bytes.valueAt? o = u.bytes.valueAt? o)
    (hsize : u.size = t.size)
    (hruns : u.runsAtLastMerge = t.runsAtLastMerge ∧ u'.runsAtLastMerge = t'.runsAtLastMerge)
    (hslack : u.mergeSlack = t.mergeSlack ∧ u'.mergeSlack = t'.mergeSlack) : u.Alike u' where
  tags_eq := htags
  arena_eq := harena
  valueAt?_eq := hval
  room := h.room.congr hsize hruns.1 hslack.1
  room' := by
    have hsize' : u'.size = u.size := RunMap.size_eq_of_valueAt? hval
    exact h.room'.congr (hsize'.trans (hsize.trans h.size_eq.symm)) hruns.2 hslack.2

theorem divided (h : t.Alike t') (r : ByteRange) : (t.divided r).Alike (t'.divided r) := by
  refine h.congr h.tags_eq h.arena_eq (fun o => ?_) (RunMap.size_split t.bytes r) ⟨rfl, rfl⟩
    ⟨rfl, rfl⟩
  simp only [Tree.divided, RunMap.valueAt?_split, h.valueAt?_eq]

theorem tidied (h : t.Alike t') (hproper : t.bytes.IsProper) (hproper' : t'.bytes.IsProper) :
    Outcome.Agree Alike t.tidied t'.tidied := by
  obtain ⟨bytes, runs, heq, hval, hroom⟩ := h.room.tidied hproper
  obtain ⟨bytes', runs', heq', hval', hroom'⟩ := h.room'.tidied hproper'
  rw [heq, heq']
  refine ⟨rfl, h.tags_eq, h.arena_eq, fun o => ?_, hroom, hroom'⟩
  exact (hval' o).trans ((h.valueAt?_eq o).trans (hval o).symm)

/-! ## 4. Accesses -/

/-- **The first pass** fails on both trees in the same way, or on neither; and then the second one
leaves them alike. -/
theorem pending (h : t.Alike t') (hs : t.Sound ctx.isProtected) (hs' : t'.Sound ctx.isProtected)
    (acc : Access) {start : Nat} (hstart : start < t.arena.width) (hr : acc.range.stop ≤ t.size)
    (accessed : Label) :
    (∃ f, t.pending ctx acc start accessed = .error f ∧
        t'.pending ctx acc start accessed = .error f) ∨
      ∃ us us', t.pending ctx acc start accessed = .ok us ∧
        t'.pending ctx acc start accessed = .ok us' ∧
        (t.committed acc.range us).Alike (t'.committed acc.range us') := by
  have hstart' : start < t'.arena.width := h.arena_eq ▸ hstart
  have hr' : acc.range.stop ≤ t'.size := h.size_eq ▸ hr
  have hiff : ∀ f, t'.pending ctx acc start accessed = .error f ↔
      t.pending ctx acc start accessed = .error f := by
    intro f
    rw [pending_eq_error_iff hs hstart hr, pending_eq_error_iff hs' hstart' hr']
    simp only [h.arena_eq, h.valueAt?_eq]
  cases hus : t.pending ctx acc start accessed with
  | error f => exact .inl ⟨f, rfl, (hiff f).mpr hus⟩
  | ok us =>
    cases hus' : t'.pending ctx acc start accessed with
    | error f =>
      rw [(hiff f).mp hus'] at hus
      nomatch hus
    | ok us' =>
      refine .inr ⟨us, us', rfl, rfl, ?_⟩
      refine h.congr h.tags_eq h.arena_eq (fun o => ?_) (RunMap.size_change _ _ _ _) ⟨rfl, rfl⟩
        ⟨rfl, rfl⟩
      by_cases ho : o ∈ acc.range
      · obtain ⟨states, updates, hval, hreq, hnew⟩ :=
          valueAt?_committed_of_mem hs hstart hr hus ho
        obtain ⟨states', updates', hval', hreq', hnew'⟩ :=
          valueAt?_committed_of_mem hs' hstart' hr' hus' ho
        rw [h.valueAt?_eq, hval] at hval'
        obtain rfl := Option.some.inj hval'
        rw [h.arena_eq, hreq] at hreq'
        obtain rfl := Except.ok.inj hreq'
        rw [hnew, hnew']
      · rw [valueAt?_committed_of_not_mem t us ho, valueAt?_committed_of_not_mem t' us' ho]
        exact h.valueAt?_eq o

/-- **The second pass** agrees where the first one did. -/
theorem settle (h : t.Alike t') (hs : t.Sound prot) (hs' : t'.Sound prot) {r : ByteRange}
    (hr : t.bytes.checkRange r = .ok ()) {us us' : List (List Update)}
    (hc : (t.committed r us).Alike (t'.committed r us')) (ctx ctx' : Context) (cause : Cause) :
    Outcome.Agree Alike ((t.divided r).settle ctx r cause us)
      ((t'.divided r).settle ctx' r cause us') := by
  have hr' : t'.bytes.checkRange r = .ok () := (h.checkRange_eq r).trans hr
  rw [settle_divided hs.isProper hr ctx cause us, settle_divided hs'.isProper hr' ctx' cause us']
  refine (hc.tidied ?_ ?_).after _ _
  · exact RunMap.isProper_change hs.isProper _ _ _
  · exact RunMap.isProper_change hs'.isProper _ _ _

/-- What follows the first pass agrees, provided that it does where that pass found the same. -/
theorem plan_andThen {β : Type} (h : t.Alike t') (hs : t.Sound ctx.isProtected)
    (hs' : t'.Sound ctx.isProtected) (settings : Settings) (acc : Access)
    {next next' : Tree → List (List Update) → Outcome Tree β}
    (hnext : ∀ us us', t.bytes.checkRange acc.range = .ok () →
      (t.committed acc.range us).Alike (t'.committed acc.range us') →
        Outcome.Agree Alike (next (t.divided acc.range) us) (next' (t'.divided acc.range) us')) :
    Outcome.Agree Alike ((t.plan ctx acc).andThen next)
      ((t'.plan { ctx with settings := settings } acc).andThen next') := by
  have htag := h.requireTag_eq acc.tag acc.cause.operation
  have hrange := h.requireRange_eq acc.range acc.cause.operation
  cases hi : t.requireTag acc.tag acc.cause.operation with
  | error e =>
    simp only [plan, htag, hi]
    exact ⟨rfl, h⟩
  | ok start =>
    cases hr : t.requireRange acc.range acc.cause.operation with
    | error e =>
      simp only [plan, htag, hi, hrange, hr]
      exact ⟨rfl, h⟩
    | ok _ =>
      rw [hi] at htag
      rw [hr] at hrange
      have hi := requireTag_eq_ok_iff.mp hi
      obtain ⟨n, hn, -⟩ := hs.exists_get? hi
      have hn' : t'.arena.get? start = some n := h.arena_eq ▸ hn
      rw [plan_eq hi hn hr, plan_eq (requireTag_eq_ok_iff.mp htag) hn' hrange]
      have hstop := (requireRange_eq_ok_iff.mp hr).2
      rcases h.pending hs hs' acc (Arena.lt_width_of_get? hn) hstop n.label with
        ⟨f, hf, hf'⟩ | ⟨us, us', hus, hus', hc⟩
      · rw [Outcome.andThen_of_error hf, Outcome.andThen_of_error hf']
        exact ⟨rfl, h.divided acc.range⟩
      · rw [Outcome.andThen_of_ok hus, Outcome.andThen_of_ok hus']
        have hcheck := RunMap.checkRange_eq_ok_iff.mpr (requireRange_eq_ok_iff.mp hr)
        exact (hnext us us' hcheck hc).after _ _

/-- The settings of a checker matter to the messages of an access only. -/
theorem access (h : t.Alike t') (hs : t.Sound ctx.isProtected) (hs' : t'.Sound ctx.isProtected)
    (settings : Settings) (acc : Access) :
    Outcome.Agree Alike (t.access ctx acc) (t'.access { ctx with settings := settings } acc) := by
  unfold Tree.access
  refine (h.plan_andThen hs hs' settings acc fun us us' hcheck hc => ?_).after _ _
  exact h.settle hs hs' hcheck hc _ _ acc.cause

theorem free (h : t.Alike t') (hs : t.Sound ctx.isProtected) (hs' : t'.Sound ctx.isProtected)
    (settings : Settings) (tag : Tag) :
    Outcome.Agree Alike (t.free ctx tag) (t'.free { ctx with settings := settings } tag) := by
  unfold Tree.free
  rw [h.size_eq]
  dsimp only
  refine h.plan_andThen hs hs' settings _ fun us us' hcheck hc => ?_
  have hd := h.divided ⟨0, t.size⟩
  dsimp only
  rw [hd.stronglyProtected?_eq ctx settings]
  cases (t.divided ⟨0, t.size⟩).stronglyProtected? ctx with
  | none => exact h.settle hs hs' hcheck hc _ _ .dealloc
  | some found =>
    -- the same strongly protected node stands against both frees
    dsimp only
    rw [hd.requireTag_eq, hd.arena_eq, hd.stateAt_eq]
    split
    · exact ⟨rfl, hd⟩
    · split
      · exact ⟨rfl, hd⟩
      · exact ⟨rfl, hd⟩
      · exact ⟨rfl, hd⟩

theorem weakenFrom (h : t.Alike t') (i : Nat) (limit : Absorption) :
    (t.weakenFrom i limit).Alike (t'.weakenFrom i limit) := by
  rw [weakenFrom_eq, weakenFrom_eq]
  refine h.congr h.tags_eq ?_ (fun o => ?_) (RunMap.size_map _ _) ⟨rfl, rfl⟩ ⟨rfl, rfl⟩
  · simp only [h.arena_eq]
  · simp only [RunMap.valueAt?_map, h.valueAt?_eq, h.arena_eq]

theorem attach (h : t.Alike t') (c : NewChild) (parent : Nat) (tags : Registry Tag) (i : Nat) :
    (t.attach c parent tags i).Alike (t'.attach c parent tags i) := by
  have hbefore : Alike { t with
      tags := tags
      arena := t.arena.addChild i parent (c.node parent)
      bytes := t.bytes.update c.range (·.insert i (.covered c.permission c.absorption)) }
    { t' with
      tags := tags
      arena := t'.arena.addChild i parent (c.node parent)
      bytes := t'.bytes.update c.range (·.insert i (.covered c.permission c.absorption)) } := by
    refine h.congr rfl ?_ (fun o => ?_) (RunMap.size_update _ _ _) ⟨rfl, rfl⟩ ⟨rfl, rfl⟩
    · simp only [h.arena_eq]
    · simp only [RunMap.valueAt?_update, h.valueAt?_eq]
  exact hbefore.weakenFrom parent c.absorption

theorem insertChild (h : t.Alike t') (hs : t.Sound ctx.isProtected)
    (hs' : t'.Sound ctx.isProtected) (settings : Settings) (c : NewChild) :
    Outcome.Agree Alike (t.insertChild ctx c)
      (t'.insertChild { ctx with settings := settings } c) := by
  have hcontains : t'.contains c.tag = t.contains c.tag := by
    simp [contains, h.tags_eq]
  unfold Tree.insertChild
  rw [hcontains]
  split
  · exact ⟨rfl, h⟩
  · have hread := h.access hs hs' settings ⟨c.parent, c.range, .read, .reborrow⟩
    have hs₁ := sound_access hs ⟨c.parent, c.range, .read, .reborrow⟩
    have hs'' : t'.Sound (Context.isProtected { ctx with settings := settings }) := hs'
    have hs₁' := sound_access hs'' ⟨c.parent, c.range, .read, .reborrow⟩
    refine hread.andThen fun _ _ => ?_
    have h₁ := hread.state
    generalize (t.access ctx ⟨c.parent, c.range, .read, .reborrow⟩).state = t₁ at h₁ hs₁ ⊢
    generalize (t'.access { ctx with settings := settings }
      ⟨c.parent, c.range, .read, .reborrow⟩).state = t₁' at h₁ hs₁' ⊢
    rw [h₁.requireTag_eq, h₁.tags_eq, h₁.checkRange_eq]
    split
    · exact ⟨rfl, h₁⟩
    · next parent _ =>
      split
      · exact ⟨rfl, h₁⟩
      · exact ⟨rfl, h₁⟩
      · next tags i _ _ =>
        refine (h₁.attach c parent tags i).tidied ?_ ?_
        · exact isProper_attach hs₁.isProper c parent tags i
        · exact isProper_attach hs₁'.isProper c parent tags i

theorem resetAbsorption (h : t.Alike t') (tag : Tag) :
    (∃ e, t.resetAbsorption tag = .error e ∧ t'.resetAbsorption tag = .error e) ∨
      ∃ u u', t.resetAbsorption tag = .ok u ∧ t'.resetAbsorption tag = .ok u' ∧ u.Alike u' := by
  unfold Tree.resetAbsorption
  rw [h.requireTag_eq]
  cases t.requireTag tag .protect with
  | error e => exact .inl ⟨e, rfl, rfl⟩
  | ok i => exact .inr ⟨_, _, rfl, rfl, h.weakenFrom i .nothing⟩

theorem name (h : t.Alike t') (tag : Tag) (depth : Nat) (s : String) :
    (∃ e, t.name tag depth s = .error e ∧ t'.name tag depth s = .error e) ∨
      ∃ u u', t.name tag depth s = .ok u ∧ t'.name tag depth s = .ok u' ∧ u.Alike u' := by
  have hancestor : t'.ancestor? tag depth = t.ancestor? tag depth := by
    simp [ancestor?, h.tags_eq, h.arena_eq]
  unfold Tree.name
  rw [hancestor]
  cases t.ancestor? tag depth with
  | none => exact .inl ⟨_, rfl, rfl⟩
  | some i =>
    refine .inr ⟨_, _, rfl, rfl, ?_⟩
    exact h.congr h.tags_eq (by simp only [h.arena_eq]) h.valueAt?_eq rfl ⟨rfl, rfl⟩ ⟨rfl, rfl⟩

end Alike

end Tree

end TreeBorrows
