/-
# What holds in every state of a checker

Runs are made of events, and an event may fail in the middle.  `Checker.Sound` is what every event
keeps however it ends: each tree is sound for the tags that are protected, tags and protectors
carry numbers that were given out, and no tag belongs to two allocations.  So it holds in every
reachable state (`Reachable.sound`).

That the checker has one set of protectors for all trees, and that trees are sound for the
protectors, is what makes the last two parts necessary: a protector that is set for a tag of one
tree must not be one that another tree has not been prepared for, and a new tag must not be
protected before its time.
-/
import TreeBorrows.Checker.Event
import TreeBorrows.Proofs.Tree.Preservation

namespace TreeBorrows

namespace Checker

/-! ## 1. Reachable states and their invariant -/

/-- Some program brings a new checker into this state. -/
def Reachable (k : Checker) : Prop := ∃ settings es, k = (new settings).run es

/-- The trees are sound, and the numbers of their tags keep them apart. -/
structure Sound (k : Checker) : Prop where
  tree : ∀ {a x}, k.allocations.get? a = some x → x.tree.Sound k.protectors.contains
  tag_lt : ∀ {a x tag}, k.allocations.get? a = some x → tag ∈ x.tree.tags.keys →
    tag.number < k.nextTag
  protector_lt : ∀ {tag}, k.protectors.contains tag = true → tag.number < k.nextTag
  alloc_eq : ∀ {a b x y tag}, k.allocations.get? a = some x → k.allocations.get? b = some y →
    tag ∈ x.tree.tags.keys → tag ∈ y.tree.tags.keys → a = b

variable {k k' : Checker}

theorem sound_new (settings : Settings) : (new settings).Sound where
  tree h := nomatch h
  tag_lt h := nomatch h
  protector_lt h := nomatch h
  alloc_eq h := nomatch h

namespace Sound

/-! ## 2. What a step may do -/

/-- A step that leaves sound trees, and gives at most the next tag to at most one allocation, keeps
the invariant. -/
theorem step (h : k.Sound) (a : AllocationId) (hnext : k.nextTag ≤ k'.nextTag)
    (hprot : ∀ {tag}, k'.protectors.contains tag = true → tag.number < k'.nextTag)
    (htree : ∀ {b y'}, k'.allocations.get? b = some y' → y'.tree.Sound k'.protectors.contains ∧
      ∀ tag ∈ y'.tree.tags.keys, (∃ y, k.allocations.get? b = some y ∧ tag ∈ y.tree.tags.keys) ∨
        tag.number = k.nextTag ∧ k.nextTag < k'.nextTag ∧ b = a) : k'.Sound where
  tree hb := (htree hb).1
  tag_lt hb htag := by
    rcases (htree hb).2 _ htag with ⟨y, hy, hmem⟩ | ⟨heq, hlt, -⟩
    · exact Nat.lt_of_lt_of_le (h.tag_lt hy hmem) hnext
    · exact heq ▸ hlt
  protector_lt := hprot
  alloc_eq hb hc hbtag hctag := by
    rcases (htree hb).2 _ hbtag with ⟨y, hy, hymem⟩ | ⟨heq, -, rfl⟩
    · rcases (htree hc).2 _ hctag with ⟨z, hz, hzmem⟩ | ⟨heq, -, rfl⟩
      · exact h.alloc_eq hy hz hymem hzmem
      · have := h.tag_lt hy hymem
        omega
    · rcases (htree hc).2 _ hctag with ⟨z, hz, hzmem⟩ | ⟨-, -, rfl⟩
      · have := h.tag_lt hz hzmem
        omega
      · rfl

/-- What is not about trees, tags and protectors does not matter. -/
theorem congr (h : k.Sound) (ha : k'.allocations = k.allocations)
    (hp : k'.protectors = k.protectors) (hn : k.nextTag ≤ k'.nextTag) : k'.Sound := by
  refine h.step ⟨0⟩ hn ?_ ?_
  · intro tag htag
    rw [hp] at htag
    exact Nat.lt_of_lt_of_le (h.protector_lt htag) hn
  · intro b y hy
    rw [ha] at hy
    rw [hp]
    exact ⟨h.tree hy, fun tag htag => .inl ⟨y, hy, htag⟩⟩

/-- A tree gives way to another one that has no tag of its own. -/
theorem putTree (h : k.Sound) {a : AllocationId} {x : Allocation}
    (hx : k.allocations.get? a = some x) {t : Tree} (ht : t.Sound k.protectors.contains)
    (htags : ∀ tag ∈ t.tags.keys, tag ∈ x.tree.tags.keys) : (k.putTree a x t).Sound := by
  refine h.step a (Nat.le_refl _) h.protector_lt fun {b y'} hy' => ?_
  rw [Checker.putTree, Table.get?_insert] at hy'
  split at hy'
  · next hb =>
    subst hb
    obtain rfl := Option.some.inj hy'
    exact ⟨ht, fun tag htag => .inl ⟨x, hx, htags tag htag⟩⟩
  · exact ⟨h.tree hy', fun tag htag => .inl ⟨y', hy', htag⟩⟩

/-- Protectors may be taken away. -/
theorem clearProtector (h : k.Sound) (tag : Tag) : (k.clearProtector tag).Sound := by
  refine h.step ⟨0⟩ (Nat.le_refl _) ?_ fun {b y} hy => ?_
  · exact fun htag => h.protector_lt (Table.contains_of_contains_erase htag)
  · refine ⟨(h.tree hy).of_forall_mem fun tag' _ => Table.contains_of_contains_erase, ?_⟩
    exact fun tag' htag' => .inl ⟨y, hy, htag'⟩

end Sound

/-! ## 3. Operations on one tree -/

theorem onTree_cases {α : Type} (k : Checker) (p : Pointer) (op : Operation)
    (f : Context → Tree → Outcome Tree α) :
    (∃ e, k.onTree p op f = .error k e) ∨ ∃ x, k.allocations.get? p.alloc = some x ∧
      k.onTree p op f = (f (k.context p.alloc) x.tree).mapState (k.putTree p.alloc x) := by
  unfold onTree requireLive
  cases hx : k.allocations.get? p.alloc with
  | none => exact .inl ⟨_, rfl⟩
  | some x => exact .inr ⟨x, rfl, rfl⟩

theorem editTree_eq_ok {p : Pointer} {op : Operation} {f : Tree → Except Error Tree}
    (h : k.editTree p op f = .ok k') : ∃ x t, k.allocations.get? p.alloc = some x ∧
      f x.tree = .ok t ∧ k' = k.putTree p.alloc x t := by
  unfold editTree requireLive at h
  cases hx : k.allocations.get? p.alloc with
  | none =>
    rw [hx] at h
    nomatch h
  | some x =>
    rw [hx] at h
    dsimp only at h
    cases ht : f x.tree with
    | error e =>
      rw [ht] at h
      nomatch h
    | ok t =>
      rw [ht] at h
      exact ⟨x, t, rfl, ht, (Except.ok.inj h).symm⟩

namespace Sound

/-- An operation that keeps trees sound and their tags the same keeps the checker sound. -/
theorem onTree {α : Type} (h : k.Sound) (p : Pointer) (op : Operation)
    {f : Context → Tree → Outcome Tree α}
    (hf : ∀ {t : Tree}, t.Sound (k.context p.alloc).isProtected →
      (f (k.context p.alloc) t).state.Sound (k.context p.alloc).isProtected ∧
        (f (k.context p.alloc) t).state.tags = t.tags) : (k.onTree p op f).state.Sound := by
  rcases onTree_cases k p op f with ⟨e, heq⟩ | ⟨x, hx, heq⟩
  · rw [heq]
    exact h
  · rw [heq]
    obtain ⟨hs, htags⟩ := hf (h.tree hx)
    exact h.putTree hx hs fun tag htag => htags ▸ htag

theorem onTree_access (h : k.Sound) (p : Pointer) (op : Operation) (range : ByteRange)
    (kind : AccessKind) (cause : Cause) :
    (k.onTree p op fun ctx t => t.access ctx ⟨p.tag, range, kind, cause⟩).state.Sound :=
  h.onTree p op fun ht => ⟨Tree.sound_access ht _, (Tree.sameNodes_access _ _ _).tags_eq⟩

/-! ## 4. Allocations -/

theorem allocate (h : k.Sound) (size : Nat) : (k.allocate size).state.Sound := by
  refine h.step ⟨k.nextAlloc⟩ (Nat.le_succ _) ?_ fun {b y'} hy' => ?_
  · exact fun htag => Nat.lt_succ_of_lt (h.protector_lt htag)
  · have hy : (k.allocations.insert ⟨k.nextAlloc⟩
        ⟨size, .new ⟨k.nextTag⟩ size k.settings⟩).get? b = some y' := hy'
    rw [Table.get?_insert] at hy
    split at hy
    · next hb =>
      obtain rfl := Option.some.inj hy
      refine ⟨Tree.sound_new _ _ _ _, fun tag htag => .inr ⟨?_, Nat.lt_succ_self _, hb⟩⟩
      obtain rfl := List.mem_singleton.mp htag
      rfl
    · exact ⟨h.tree hy, fun tag htag => .inl ⟨y', hy, htag⟩⟩

theorem drop (h : k.Sound) (a : AllocationId) : (k.drop a).state.Sound := by
  unfold Checker.drop
  split
  · refine h.step a (Nat.le_refl _) h.protector_lt fun {b y'} hy' => ?_
    have hy : (k.allocations.erase a).get? b = some y' := hy'
    rw [Table.get?_erase] at hy
    split at hy
    · cases hy
    · exact ⟨h.tree hy, fun tag htag => .inl ⟨y', hy, htag⟩⟩
  · exact h

theorem free (h : k.Sound) (p : Pointer) : (k.free p).state.Sound := by
  have htree := h.onTree p .dealloc (f := fun ctx t => t.free ctx p.tag) fun ht =>
    ⟨Tree.sound_free ht p.tag, (Tree.sameNodes_free _ _ p.tag).tags_eq⟩
  exact Outcome.state_andThen htree fun _ _ => htree.drop p.alloc

end Sound

/-! ## 5. Derived pointers -/

/-- How a new tag can end: with its number used up, or with a tree that it was to be inserted
into. -/
theorem state_newTag (k : Checker) (p : Pointer) (range : ByteRange) (permission : Permission)
    (isProtected : Bool) :
    (k.newTag p range permission isProtected).state = k.freshTag.1 ∨
      ∃ x, k.allocations.get? p.alloc = some x ∧
        (k.newTag p range permission isProtected).state = k.freshTag.1.putTree p.alloc x
          (x.tree.insertChild (k.context p.alloc)
            ⟨p.tag, ⟨k.nextTag⟩, permission, isProtected, range⟩).state := by
  have hstate : (k.newTag p range permission isProtected).state =
      (k.freshTag.1.onTree p .retag fun ctx t => t.insertChild ctx
        ⟨p.tag, ⟨k.nextTag⟩, permission, isProtected, range⟩).state :=
    Outcome.state_andThen (P := fun s => s = _) rfl fun _ _ => rfl
  rw [hstate]
  rcases onTree_cases k.freshTag.1 p .retag fun ctx t => t.insertChild ctx
      ⟨p.tag, ⟨k.nextTag⟩, permission, isProtected, range⟩ with ⟨e, heq⟩ | ⟨x, hx, heq⟩
  · rw [heq]
    exact .inl rfl
  · rw [heq]
    exact .inr ⟨x, hx, rfl⟩

/-- The tag that a new tag answers is the next one. -/
theorem answer_newTag {p : Pointer} {range : ByteRange} {permission : Permission}
    {isProtected : Bool} {t? : Option Tag}
    (h : (k.newTag p range permission isProtected).result = .ok t?) : t? = some ⟨k.nextTag⟩ := by
  unfold newTag Outcome.andThen at h
  dsimp only at h
  split at h
  · nomatch h
  · exact (Except.ok.inj h).symm

/-- A kept tag is not answered. -/
theorem answer_keepTag {p : Pointer} {range : ByteRange} {d : Derivation} {t? : Option Tag}
    (h : (k.keepTag p range d).result = .ok t?) : t? = none := by
  unfold keepTag Outcome.andThen at h
  dsimp only at h
  split at h
  · nomatch h
  · exact (Except.ok.inj h).symm

theorem state_keepTag (k : Checker) (p : Pointer) (range : ByteRange) (d : Derivation) :
    (k.keepTag p range d).state =
      (k.onTree p .retag fun ctx t => t.access ctx ⟨p.tag, range, .read, .reborrow⟩).state :=
  Outcome.state_andThen (P := fun s => s = _) rfl fun _ _ => rfl

theorem reborrow_cases (k : Checker) (p : Pointer) (range : ByteRange) (d : Derivation)
    (cell isProtected : Bool) :
    (∃ e, k.reborrow p range d cell isProtected = .error k e) ∨
      k.reborrow p range d cell isProtected = k.keepTag p range d ∨
      ∃ permission, d.permission? cell = some permission ∧
        k.reborrow p range d cell isProtected = k.newTag p range permission isProtected := by
  unfold reborrow
  cases k.requireLive p .retag with
  | error e => exact .inl ⟨e, rfl⟩
  | ok x =>
    cases d.permission? cell with
    | none => exact .inr (.inl rfl)
    | some permission => exact .inr (.inr ⟨permission, rfl, rfl⟩)

/-- How a retag can end: as the derivation does, without a tag that is to be protected, or with the
new tag protected. -/
theorem retag_cases (k : Checker) (p : Pointer) (range : ByteRange) (d : Derivation)
    (cell : Bool) (kind : Protection) :
    (∃ isProtected, (k.retag p range d cell kind).state =
        (k.reborrow p range d cell isProtected).state ∧
        ∀ tag, kind.protects = true → 0 < k.calls.depth →
          (k.retag p range d cell kind).result ≠ .ok (some tag)) ∨
      ∃ permission, d.permission? cell = some permission ∧ kind.protects = true ∧
        0 < k.calls.depth ∧
        (k.retag p range d cell kind).result = .ok (some ⟨k.nextTag⟩) ∧
        (k.retag p range d cell kind).state =
          ((k.newTag p range permission true).state.holdTag ⟨p.alloc, ⟨k.nextTag⟩⟩ kind).state := by
  cases hres : (k.reborrow p range d cell (kind.protects && 0 < k.calls.depth)).result with
  | error f =>
    refine .inl ⟨kind.protects && decide (0 < k.calls.depth), ?_⟩
    rw [retag, Outcome.state_after, Outcome.result_after, Outcome.andThen_of_error hres]
    exact ⟨rfl, fun _ _ _ => nofun⟩
  | ok t? =>
    rw [retag, Outcome.state_after, Outcome.result_after, Outcome.andThen_of_ok hres,
      Outcome.state_after, Outcome.result_after]
    cases t? with
    | none => exact .inl ⟨_, rfl, fun _ _ _ => nofun⟩
    | some tag =>
      dsimp only
      cases hprot : kind.protects && decide (0 < k.calls.depth) with
      | false =>
        refine .inl ⟨false, rfl, fun _ hkind hdepth => ?_⟩
        rw [hkind, decide_eq_true hdepth] at hprot
        nomatch hprot
      | true =>
        rw [hprot] at hres
        obtain ⟨hkind, hdepth⟩ := Bool.and_eq_true_iff.mp hprot
        rcases reborrow_cases k p range d cell true with ⟨e, heq⟩ | heq | ⟨permission, hd, heq⟩
        · rw [heq] at hres
          nomatch hres
        · rw [heq] at hres
          nomatch answer_keepTag hres
        · rw [heq] at hres ⊢
          obtain rfl := Option.some.inj (answer_newTag hres)
          exact .inr ⟨permission, hd, hkind, of_decide_eq_true hdepth, rfl, rfl⟩

namespace Sound

/-- A new tag leaves a sound checker, also if it is then protected as it was announced to be. -/
theorem newTag_with (h : k.Sound) (p : Pointer) (range : ByteRange) {permission : Permission}
    (hperm : permission ≠ .active) {isProtected : Bool} {protectors : Table Tag Protection}
    (hold : ∀ tag, tag ≠ ⟨k.nextTag⟩ → protectors.contains tag = k.protectors.contains tag)
    (hnew : protectors.contains ⟨k.nextTag⟩ = true → isProtected = true) :
    Sound { (k.newTag p range permission isProtected).state with protectors := protectors } := by
  have hlt : ∀ {tag : Tag}, tag.number < k.nextTag → tag ≠ ⟨k.nextTag⟩ := by
    rintro tag htag rfl
    exact Nat.lt_irrefl _ htag
  have hprot : ∀ {tag}, protectors.contains tag = true → tag.number < k.nextTag + 1 := by
    intro tag htag
    by_cases heq : tag = ⟨k.nextTag⟩
    · rw [heq]
      exact Nat.lt_succ_self _
    · rw [hold tag heq] at htag
      exact Nat.lt_succ_of_lt (h.protector_lt htag)
  have hother : ∀ {b y}, k.allocations.get? b = some y → y.tree.Sound protectors.contains := by
    intro b y hy
    refine (h.tree hy).of_forall_mem fun tag htag hp => ?_
    rwa [hold tag (hlt (h.tag_lt hy htag))] at hp
  rcases state_newTag k p range permission isProtected with heq | ⟨x, hx, heq⟩
  · rw [heq]
    refine h.step ⟨0⟩ (Nat.le_succ _) hprot fun {b y} hy => ?_
    exact ⟨hother hy, fun tag htag => .inl ⟨y, hy, htag⟩⟩
  · rw [heq]
    refine h.step p.alloc (Nat.le_succ _) hprot fun {b y'} hy' => ?_
    have hy : (k.allocations.insert p.alloc { x with tree := (x.tree.insertChild
        (k.context p.alloc) ⟨p.tag, ⟨k.nextTag⟩, permission, isProtected, range⟩).state }).get? b =
          some y' := hy'
    rw [Table.get?_insert] at hy
    split at hy
    · next hb =>
      obtain rfl := Option.some.inj hy
      refine ⟨?_, fun tag htag => ?_⟩
      · refine Tree.sound_insertChild (h.tree hx) hperm (fun tag htag => ?_) hnew
        exact hold tag (hlt (h.tag_lt hx htag))
      · rcases Tree.mem_tags_insertChild (h.tree hx) htag with hmem | rfl
        · exact .inl ⟨x, hb ▸ hx, hmem⟩
        · exact .inr ⟨rfl, Nat.lt_succ_self _, hb⟩
    · exact ⟨hother hy, fun tag htag => .inl ⟨y', hy, htag⟩⟩

theorem protectors_newTag (k : Checker) (p : Pointer) (range : ByteRange)
    (permission : Permission) (isProtected : Bool) :
    (k.newTag p range permission isProtected).state.protectors = k.protectors := by
  rcases state_newTag k p range permission isProtected with heq | ⟨x, -, heq⟩
  · rw [heq]
    rfl
  · rw [heq]
    rfl

theorem newTag (h : k.Sound) (p : Pointer) (range : ByteRange) {permission : Permission}
    (hperm : permission ≠ .active) (isProtected : Bool) :
    (k.newTag p range permission isProtected).state.Sound := by
  refine (h.newTag_with p range hperm (fun _ _ => rfl) fun htag => ?_).congr rfl
    (protectors_newTag k p range permission isProtected) (Nat.le_refl _)
  exact absurd (h.protector_lt htag) (Nat.lt_irrefl _)

theorem newTag_holdTag (h : k.Sound) (p : Pointer) (range : ByteRange) {permission : Permission}
    (hperm : permission ≠ .active) (kind : Protection) :
    ((k.newTag p range permission true).state.holdTag ⟨p.alloc, ⟨k.nextTag⟩⟩ kind).state.Sound := by
  have hs : Sound { (k.newTag p range permission true).state with
      protectors := k.protectors.insert ⟨k.nextTag⟩ kind } := by
    refine h.newTag_with p range hperm (fun tag htag => ?_) fun _ => rfl
    rw [Bool.eq_iff_iff, Table.contains_insert_iff, or_iff_right htag]
  refine hs.congr rfl ?_ (Nat.le_refl _)
  exact congrArg (Table.insert · _ kind) (protectors_newTag k p range permission true)

theorem reborrow (h : k.Sound) (p : Pointer) (range : ByteRange) (d : Derivation)
    (cell isProtected : Bool) : (k.reborrow p range d cell isProtected).state.Sound := by
  rcases reborrow_cases k p range d cell isProtected with ⟨e, heq⟩ | heq | ⟨permission, hd, heq⟩
  · rw [heq]
    exact h
  · rw [heq, state_keepTag]
    exact h.onTree_access p .retag range .read .reborrow
  · rw [heq]
    exact h.newTag p range (Derivation.ne_active_of_permission? hd) isProtected

theorem retag (h : k.Sound) (p : Pointer) (range : ByteRange) (d : Derivation) (cell : Bool)
    (kind : Protection) : (k.retag p range d cell kind).state.Sound := by
  rcases retag_cases k p range d cell kind with
    ⟨isProtected, heq, -⟩ | ⟨permission, hd, -, -, -, heq⟩
  · rw [heq]
    exact h.reborrow p range d cell isProtected
  · rw [heq]
    exact h.newTag_holdTag p range (Derivation.ne_active_of_permission? hd) kind

/-! ## 6. Names -/

theorem name (h : k.Sound) (p : Pointer) (s : String) : (k.name p s).state.Sound := by
  unfold Checker.name nameAncestor
  cases hres : k.editTree p .inspect (·.name p.tag 0 s) with
  | error e => exact h
  | ok k' =>
    obtain ⟨x, t, hx, ht, rfl⟩ := editTree_eq_ok hres
    obtain ⟨hs, htags⟩ := Tree.sound_name (h.tree hx) ht
    exact h.putTree hx hs fun tag htag => htags ▸ htag

/-! ## 7. Calls -/

theorem protect (h : k.Sound) (call : CallId) (p : Pointer) : (k.protect call p).1.Sound := by
  unfold Checker.protect prepareProtection
  cases hres : k.editTree p .protect (·.resetAbsorption p.tag) with
  | error e => exact h
  | ok k' =>
    obtain ⟨x, t, hx, ht, rfl⟩ := editTree_eq_ok hres
    have hins : ∀ {tag : Tag}, tag ≠ p.tag →
        (k.protectors.insert p.tag .strong).contains tag = true →
          k.protectors.contains tag = true := by
      intro tag hne htag
      exact (Table.contains_insert_iff.mp htag).resolve_left hne
    obtain ⟨hs, htags, hmem⟩ := Tree.sound_resetAbsorption (h.tree hx) ht
      fun tag _ hne htag => hins hne htag
    refine h.step p.alloc (Nat.le_refl _) (fun {tag} htag => ?_) fun {b y'} hy' => ?_
    · rcases Table.contains_insert_iff.mp htag with rfl | htag
      · exact h.tag_lt hx hmem
      · exact h.protector_lt htag
    · have hy : (k.allocations.insert p.alloc { x with tree := t }).get? b = some y' := hy'
      rw [Table.get?_insert] at hy
      split at hy
      · next hb =>
        obtain rfl := Option.some.inj hy
        exact ⟨hs, fun tag htag => .inl ⟨x, hb ▸ hx, htags ▸ htag⟩⟩
      · next hb =>
        -- the tag belongs to another tree, so this one does not notice its protector
        refine ⟨(h.tree hy).of_forall_mem fun tag htag => hins ?_, ?_⟩
        · rintro rfl
          exact hb (h.alloc_eq hy hx htag hmem)
        · exact fun tag htag => .inl ⟨y', hy, htag⟩

theorem protectAll (h : k.Sound) (call : CallId) (ps : List Pointer) :
    (Checker.protectAll k call ps).1.Sound := by
  induction ps generalizing k with
  | nil => exact h
  | cons p ps ih => exact ih (h.protect call p)

theorem enter (h : k.Sound) (call : CallId) (ps : List Pointer) :
    (k.enter call ps).state.Sound := by
  have hs : Sound { k with calls := k.calls.push call } := h.congr rfl rfl (Nat.le_refl _)
  exact hs.protectAll call ps

theorem releaseAll (h : k.Sound) (ps : List Pointer) : (Checker.releaseAll k ps).1.Sound := by
  induction ps generalizing k with
  | nil => exact h
  | cons p ps ih => exact ih (h.clearProtector p.tag)

theorem endFrames (h : k.Sound) (call : CallId) (fs : List Frame) :
    (Checker.endFrames k call fs).1.Sound := by
  induction fs generalizing k with
  | nil => exact h
  | cons f fs ih => exact ih (h.releaseAll f.pointers)

theorem exit (h : k.Sound) (call : CallId) : (k.exit call).state.Sound := by
  unfold Checker.exit
  cases k.calls.popThrough? call with
  | none => exact h
  | some r =>
    have hs : Sound { k with calls := r.2 } := h.congr rfl rfl (Nat.le_refl _)
    exact hs.endFrames call r.1

/-! ## 8. Events and runs -/

/-- **Every event keeps the invariant**, however it ends. -/
theorem perform (h : k.Sound) (e : Event) : (k.perform e).state.Sound := by
  cases e with
  | allocate size => exact h.allocate size
  | drop a => exact h.drop a
  | free p => exact h.free p
  | derive p range d cell => exact h.retag p range d cell .none
  | retag p range d cell kind => exact h.retag p range d cell kind
  | access p range kind => exact h.onTree_access p _ range kind _
  | drawCall => exact h.congr rfl rfl (Nat.le_refl _)
  | enter call ps => exact h.enter call ps
  | exit call => exact h.exit call
  | openCall ps =>
    have hs : k.freshCall.1.Sound := h.congr rfl rfl (Nat.le_refl _)
    exact Outcome.state_andThen (hs.enter k.freshCall.2 ps) fun _ _ => hs.enter k.freshCall.2 ps
  | name p s => exact h.name p s
  | permissionAt p o => exact h

/-- **And so does every run.** -/
theorem run (h : k.Sound) (es : List Event) : (k.run es).Sound := by
  induction es generalizing k with
  | nil => exact h
  | cons e es ih => exact ih (h.perform e)

end Sound

theorem Reachable.sound (h : k.Reachable) : k.Sound := by
  obtain ⟨settings, es, rfl⟩ := h
  exact (sound_new settings).run es

end Checker

end TreeBorrows
