/-
# Which events give a tag its protector, and which take it away

A tag gets a protector in two ways: a call is entered with a pointer to it (`Enters`), or it is
new and its derivation asks for one (`Retags`).  It loses the protector when a frame that lists
it is popped (`Releases`).  No other event touches protectors, and no event lists a tag in a
frame without protecting it (`effect`, `lists_perform`).
-/
import TreeBorrows.Proofs.Checker.Reachable

namespace TreeBorrows

namespace Checker

variable {k : Checker} {call : CallId} {tag : Tag} {p : Pointer} {ps : List Pointer}

/-! ## 1. Giving and taking -/

/-- The pointer points into a live allocation that has its tag. -/
def Knows (k : Checker) (p : Pointer) : Prop :=
  ∃ x, k.allocations.get? p.alloc = some x ∧ p.tag ∈ x.tree.tags.keys

/-- Some active call lists the tag among those that it protects. -/
def Lists (k : Checker) (tag : Tag) : Prop :=
  ∃ f ∈ k.calls.frames, ∃ p ∈ f.pointers, p.tag = tag

/-- The event starts a call that protects the tag. -/
def Enters (k : Checker) (e : Event) (tag : Tag) : Prop :=
  match e with
  | .enter _ ps | .openCall ps => ∃ p ∈ ps, k.Knows p ∧ p.tag = tag
  | _ => False

/-- The event makes the tag, with a protector that the innermost call holds. -/
def Retags (k : Checker) (e : Event) (kind : Protection) (tag : Tag) : Prop :=
  match e with
  | .retag p range d cell kind' => kind' = kind ∧ kind.protects = true ∧ 0 < k.calls.depth ∧
    (k.retag p range d cell kind).result = .ok (some tag)
  | _ => False

/-- The event gives the tag a protector. -/
def Grants (k : Checker) (e : Event) (tag : Tag) : Prop :=
  k.Enters e tag ∨ ∃ kind, k.Retags e kind tag

/-- The end of the call pops a frame that lists the tag. -/
def Releases (k : Checker) (call : CallId) (tag : Tag) : Prop :=
  ∃ frames rest, k.calls.popThrough? call = some (frames, rest) ∧
    ∃ f ∈ frames, ∃ p ∈ f.pointers, p.tag = tag

/-! ## 2. Entering a call -/

theorem protect_of_knows (h : k.Knows p) (call : CallId) :
    ∃ x t, k.allocations.get? p.alloc = some x ∧ t.tags = x.tree.tags ∧
      (k.protect call p).1 = { k.putTree p.alloc x t with
        protectors := k.protectors.insert p.tag .strong
        calls := k.calls.protect p } := by
  obtain ⟨x, hx, hmem⟩ := h
  have hreset : ∃ t, x.tree.resetAbsorption p.tag = .ok t ∧ t.tags = x.tree.tags := by
    cases htag : x.tree.requireTag p.tag .protect with
    | error e => exact absurd hmem (Tree.requireTag_eq_error_iff.mp htag).1
    | ok i =>
      refine ⟨x.tree.weakenFrom i .nothing, ?_, ?_⟩
      · rw [Tree.resetAbsorption, htag]
        rfl
      · rw [Tree.weakenFrom_eq]
  obtain ⟨t, ht, htags⟩ := hreset
  refine ⟨x, t, hx, htags, ?_⟩
  have hedit : k.prepareProtection p = .ok (k.putTree p.alloc x t) := by
    unfold prepareProtection editTree requireLive
    rw [hx]
    exact congrArg (Except.map _) ht
  unfold protect
  rw [hedit]
  rfl

theorem protect_of_not_knows (h : ¬k.Knows p) (call : CallId) : (k.protect call p).1 = k := by
  unfold protect prepareProtection
  cases hres : k.editTree p .protect (·.resetAbsorption p.tag) with
  | error e => rfl
  | ok k' =>
    obtain ⟨x, t, hx, ht, -⟩ := editTree_eq_ok hres
    refine absurd ⟨x, hx, ?_⟩ h
    unfold Tree.resetAbsorption at ht
    cases htag : x.tree.requireTag p.tag .protect with
    | error e =>
      rw [htag] at ht
      nomatch ht
    | ok i => exact List.mem_of_getElem? (Registry.getElem?_of_index?
        (Tree.requireTag_eq_ok_iff.mp htag))

/-- Protecting one tag hides no other. -/
theorem knows_protect (k : Checker) (call : CallId) (p q : Pointer) :
    (k.protect call p).1.Knows q ↔ k.Knows q := by
  by_cases h : k.Knows p
  · obtain ⟨x, t, hx, htags, heq⟩ := protect_of_knows h call
    rw [heq]
    have hget : ({ k.putTree p.alloc x t with
        protectors := k.protectors.insert p.tag .strong
        calls := k.calls.protect p } : Checker).allocations.get? q.alloc =
          if q.alloc = p.alloc then some { x with tree := t } else k.allocations.get? q.alloc :=
      Table.get?_insert _ _ _ _
    unfold Knows
    rw [hget]
    by_cases hq : q.alloc = p.alloc
    · rw [if_pos hq, hq, hx]
      constructor
      · rintro ⟨y, hy, hmem⟩
        obtain rfl := Option.some.inj hy
        exact ⟨x, rfl, htags ▸ hmem⟩
      · rintro ⟨y, hy, hmem⟩
        obtain rfl := Option.some.inj hy
        exact ⟨_, rfl, htags ▸ hmem⟩
    · rw [if_neg hq]
  · rw [protect_of_not_knows h]

theorem protector?_protect (k : Checker) (call : CallId) (p : Pointer) (tag : Tag) :
    ((k.Knows p ∧ p.tag = tag) ∧ (k.protect call p).1.protector? tag = some .strong) ∨
      (¬(k.Knows p ∧ p.tag = tag) ∧
        (k.protect call p).1.protector? tag = k.protector? tag) := by
  by_cases hp : k.Knows p
  · obtain ⟨x, t, -, -, heq⟩ := protect_of_knows hp call
    have hget : (k.protect call p).1.protector? tag =
        if tag = p.tag then some .strong else k.protector? tag := by
      rw [heq]
      exact Table.get?_insert _ _ _ _
    rw [hget]
    by_cases htag : tag = p.tag
    · exact .inl ⟨⟨hp, htag.symm⟩, if_pos htag⟩
    · exact .inr ⟨fun h => htag h.2.symm, if_neg htag⟩
  · rw [protect_of_not_knows hp]
    exact .inr ⟨fun h => hp h.1, rfl⟩

theorem protector?_protectAll (k : Checker) (call : CallId) (ps : List Pointer) (tag : Tag) :
    ((∃ p ∈ ps, k.Knows p ∧ p.tag = tag) ∧
        (k.protectAll call ps).1.protector? tag = some .strong) ∨
      (¬(∃ p ∈ ps, k.Knows p ∧ p.tag = tag) ∧
        (k.protectAll call ps).1.protector? tag = k.protector? tag) := by
  induction ps generalizing k with
  | nil => exact .inr ⟨fun ⟨_, hp, _⟩ => absurd hp List.not_mem_nil, rfl⟩
  | cons p ps ih =>
    have hrest : (k.protectAll call (p :: ps)).1 = ((k.protect call p).1.protectAll call ps).1 :=
      rfl
    have ih := ih (k.protect call p).1
    simp only [knows_protect] at ih
    rw [hrest]
    rcases ih with ⟨⟨q, hq, hgrants⟩, hafter⟩ | ⟨hno, hafter⟩
    · exact .inl ⟨⟨q, List.mem_cons_of_mem p hq, hgrants⟩, hafter⟩
    · rw [hafter]
      rcases protector?_protect k call p tag with ⟨hp, hfirst⟩ | ⟨hp, hfirst⟩
      · exact .inl ⟨⟨p, List.mem_cons_self, hp⟩, hfirst⟩
      · refine .inr ⟨?_, hfirst⟩
        rintro ⟨q, hq, hgrants⟩
        rcases List.mem_cons.mp hq with rfl | hq
        · exact hp hgrants
        · exact hno ⟨q, hq, hgrants⟩

/-- The stack lists one more pointer at most. -/
theorem mem_pointers_protect {s : CallStack} {p q : Pointer} {f : Frame}
    (hf : f ∈ (s.protect p).frames) (hq : q ∈ f.pointers) :
    (∃ f' ∈ s.frames, q ∈ f'.pointers) ∨ q = p := by
  obtain ⟨frames⟩ := s
  cases frames with
  | nil => exact absurd hf List.not_mem_nil
  | cons g gs =>
    have hframes : ((⟨g :: gs⟩ : CallStack).protect p).frames =
        { g with pointers := g.pointers ++ [p] } :: gs := rfl
    rw [hframes] at hf
    rcases List.mem_cons.mp hf with rfl | hf
    · rcases List.mem_append.mp hq with hq | hq
      · exact .inl ⟨g, List.mem_cons_self, hq⟩
      · exact .inr (List.mem_singleton.mp hq)
    · exact .inl ⟨f, List.mem_cons_of_mem g hf, hq⟩

theorem lists_protect (h : (k.protect call p).1.Lists tag) :
    k.Lists tag ∨ k.Knows p ∧ p.tag = tag := by
  by_cases hp : k.Knows p
  · obtain ⟨x, t, -, -, heq⟩ := protect_of_knows hp call
    rw [heq] at h
    obtain ⟨f, hf, q, hq, htag⟩ := h
    rcases mem_pointers_protect hf hq with ⟨f', hf', hq'⟩ | rfl
    · exact .inl ⟨f', hf', q, hq', htag⟩
    · exact .inr ⟨hp, htag⟩
  · rw [protect_of_not_knows hp] at h
    exact .inl h

theorem lists_protectAll (h : (k.protectAll call ps).1.Lists tag) :
    k.Lists tag ∨ ∃ p ∈ ps, k.Knows p ∧ p.tag = tag := by
  induction ps generalizing k with
  | nil => exact .inl h
  | cons p ps ih =>
    rcases ih (k := (k.protect call p).1) h with hlists | ⟨q, hq, hknows, htag⟩
    · exact (lists_protect hlists).imp_right fun hp => ⟨p, List.mem_cons_self, hp⟩
    · exact .inr ⟨q, List.mem_cons_of_mem p hq, (knows_protect k call p q).mp hknows, htag⟩

/-! ## 3. Ending a call -/

theorem calls_releaseAll (k : Checker) (ps : List Pointer) :
    (k.releaseAll ps).1.calls = k.calls := by
  induction ps generalizing k with
  | nil => rfl
  | cons p ps ih => exact ih (k.clearProtector p.tag)

theorem calls_endFrames (k : Checker) (call : CallId) (fs : List Frame) :
    (k.endFrames call fs).1.calls = k.calls := by
  induction fs generalizing k with
  | nil => rfl
  | cons f fs ih => exact (ih (k.releaseAll f.pointers).1).trans (calls_releaseAll k f.pointers)

theorem protector?_releaseAll (k : Checker) (ps : List Pointer) (tag : Tag) :
    (k.releaseAll ps).1.protector? tag =
      if tag ∈ ps.map Pointer.tag then none else k.protector? tag := by
  induction ps generalizing k with
  | nil => rfl
  | cons p ps ih =>
    have hrest : (k.releaseAll (p :: ps)).1 = ((k.clearProtector p.tag).releaseAll ps).1 := rfl
    have hget : (k.clearProtector p.tag).protector? tag =
        if tag = p.tag then none else k.protector? tag := Table.get?_erase _ _ _
    rw [hrest, ih, hget, List.map_cons]
    by_cases h₁ : tag = p.tag
    · simp [h₁]
    · simp [h₁]

theorem protector?_endFrames (k : Checker) (call : CallId) (fs : List Frame) (tag : Tag) :
    (k.endFrames call fs).1.protector? tag =
      if ∃ f ∈ fs, tag ∈ f.pointers.map Pointer.tag then none else k.protector? tag := by
  induction fs generalizing k with
  | nil => simp [endFrames]
  | cons f fs ih =>
    have hrest : (k.endFrames call (f :: fs)).1 =
        ((k.releaseAll f.pointers).1.endFrames call fs).1 := rfl
    rw [hrest, ih, protector?_releaseAll]
    by_cases h₁ : tag ∈ f.pointers.map Pointer.tag
    · rw [if_pos h₁, ite_self, if_pos ⟨f, List.mem_cons_self, h₁⟩]
    · rw [if_neg h₁]
      simp only [List.mem_cons, exists_eq_or_imp, h₁, false_or]

/-! ## 4. Every event -/

/-- The second checker has the protectors and the calls of the first one. -/
structure SameCalls (k k' : Checker) : Prop where
  protectors : k'.protectors = k.protectors
  calls : k'.calls = k.calls
  nextTag_le : k.nextTag ≤ k'.nextTag

theorem SameCalls.refl (k : Checker) : k.SameCalls k := ⟨rfl, rfl, Nat.le_refl _⟩

theorem SameCalls.trans {k₁ k₂ : Checker} (h : k.SameCalls k₁) (h' : k₁.SameCalls k₂) :
    k.SameCalls k₂ where
  protectors := h'.protectors.trans h.protectors
  calls := h'.calls.trans h.calls
  nextTag_le := Nat.le_trans h.nextTag_le h'.nextTag_le

theorem sameCalls_onTree {α : Type} (k : Checker) (p : Pointer) (op : Operation)
    (f : Context → Tree → Outcome Tree α) : k.SameCalls (k.onTree p op f).state := by
  rcases onTree_cases k p op f with ⟨e, heq⟩ | ⟨x, -, heq⟩
  · rw [heq]
    exact .refl k
  · rw [heq]
    exact ⟨rfl, rfl, Nat.le_refl _⟩

theorem sameCalls_drop (k : Checker) (a : AllocationId) : k.SameCalls (k.drop a).state := by
  unfold drop
  split
  · exact ⟨rfl, rfl, Nat.le_refl _⟩
  · exact .refl k

theorem sameCalls_free (k : Checker) (p : Pointer) : k.SameCalls (k.free p).state := by
  have htree := sameCalls_onTree k p .dealloc fun ctx t => t.free ctx p.tag
  exact Outcome.state_andThen htree fun _ _ => htree.trans (sameCalls_drop _ p.alloc)

theorem sameCalls_newTag (k : Checker) (p : Pointer) (range : ByteRange)
    (permission : Permission) (isProtected : Bool) :
    k.SameCalls (k.newTag p range permission isProtected).state := by
  rcases state_newTag k p range permission isProtected with heq | ⟨x, -, heq⟩
  · rw [heq]
    exact ⟨rfl, rfl, Nat.le_succ _⟩
  · rw [heq]
    exact ⟨rfl, rfl, Nat.le_succ _⟩

theorem sameCalls_reborrow (k : Checker) (p : Pointer) (range : ByteRange) (d : Derivation)
    (cell isProtected : Bool) : k.SameCalls (k.reborrow p range d cell isProtected).state := by
  rcases reborrow_cases k p range d cell isProtected with ⟨e, heq⟩ | heq | ⟨permission, -, heq⟩
  · rw [heq]
    exact .refl k
  · rw [heq, state_keepTag]
    exact sameCalls_onTree k p .retag _
  · rw [heq]
    exact sameCalls_newTag k p range permission isProtected

theorem sameCalls_name (k : Checker) (p : Pointer) (s : String) :
    k.SameCalls (k.name p s).state := by
  unfold name nameAncestor
  cases hres : k.editTree p .inspect (·.name p.tag 0 s) with
  | error e => exact .refl k
  | ok k' =>
    obtain ⟨x, t, -, -, rfl⟩ := editTree_eq_ok hres
    exact ⟨rfl, rfl, Nat.le_refl _⟩

/-- What an event does to the protector of one tag, and to the frames that list it. -/
inductive Effect (k : Checker) (e : Event) (tag : Tag) : Prop where
  /-- A call that starts protects the tag strongly. -/
  | enters (h : k.Enters e tag) (after : (k.perform e).state.protector? tag = some .strong)
  /-- The tag is made, and protected as it was asked for. -/
  | retags (kind : Protection) (h : k.Retags e kind tag) (fresh : tag.number = k.nextTag)
      (after : (k.perform e).state.protector? tag = some kind)
  /-- A call that ends takes the protector away. -/
  | releases (call : CallId) (h : e = .exit call) (hr : k.Releases call tag)
      (after : (k.perform e).state.protector? tag = none)
      (lists : (k.perform e).state.Lists tag → k.Lists tag)
  /-- Nothing happens to the protector, and no frame lists the tag that did not before. -/
  | nothing (hg : ¬k.Grants e tag) (hr : ∀ call, e = .exit call → ¬k.Releases call tag)
      (after : (k.perform e).state.protector? tag = k.protector? tag)
      (lists : (k.perform e).state.Lists tag → k.Lists tag)

/-- An event that leaves protectors and calls alone has no effect on a tag. -/
theorem Effect.of_sameCalls {e : Event} (hg : ¬k.Grants e tag) (hexit : ∀ call, e ≠ .exit call)
    (h : k.SameCalls (k.perform e).state) : k.Effect e tag := by
  refine .nothing hg (fun call heq => absurd heq (hexit call)) ?_ ?_
  · unfold protector?
    rw [h.protectors]
  · unfold Lists
    rw [h.calls]
    exact id

theorem effect_enter (k' : Checker) {e : Event}
    (henters : k.Enters e tag ↔ ∃ p ∈ ps, k.Knows p ∧ p.tag = tag)
    (hretags : ∀ kind, ¬k.Retags e kind tag) (hexit : ∀ call, e ≠ .exit call)
    (hk : k'.allocations = k.allocations) (hp : k'.protectors = k.protectors)
    (hpush : k'.calls = k.calls.push call)
    (h : (k.perform e).state = (k'.protectAll call ps).1) : k.Effect e tag := by
  have hknows : ∀ p, k'.Knows p ↔ k.Knows p := fun p => by
    unfold Knows
    rw [hk]
  have hprot : k'.protector? tag = k.protector? tag := by
    unfold protector?
    rw [hp]
  have hlists : k'.Lists tag → k.Lists tag := by
    rintro ⟨f, hf, p, hp, htag⟩
    rw [hpush] at hf
    rcases List.mem_cons.mp hf with rfl | hf
    · exact absurd hp List.not_mem_nil
    · exact ⟨f, hf, p, hp, htag⟩
  simp only [← hknows] at henters
  rcases protector?_protectAll k' call ps tag with ⟨hyes, hafter⟩ | ⟨hno, hafter⟩
  · exact .enters (henters.mpr hyes) (h ▸ hafter)
  · refine .nothing ?_ (fun call heq => absurd heq (hexit call)) ?_ fun hafter => ?_
    · rintro (hg | ⟨kind, hg⟩)
      · exact hno (henters.mp hg)
      · exact hretags kind hg
    · rw [h, hafter, hprot]
    · rw [h] at hafter
      exact (lists_protectAll hafter).elim hlists fun hyes => absurd hyes hno

theorem effect_exit (k : Checker) (call : CallId) (tag : Tag) : k.Effect (.exit call) tag := by
  have hg : ¬k.Grants (.exit call) tag := by
    rintro (hg | ⟨kind, hg⟩)
    · exact hg
    · exact hg
  have hstate : (k.perform (.exit call)).state = (k.exit call).state := rfl
  cases hpop : k.calls.popThrough? call with
  | none =>
    have hsame : (k.exit call).state = k := by
      unfold exit
      rw [hpop]
      rfl
    refine .nothing hg ?_ (by rw [hstate, hsame]) (by rw [hstate, hsame]; exact id)
    rintro call' heq ⟨frames, rest, hpop', -⟩
    obtain rfl := Event.exit.inj heq
    rw [hpop] at hpop'
    nomatch hpop'
  | some r =>
    obtain ⟨frames, rest⟩ := r
    have hframes := CallStack.append_of_popThrough? hpop
    have hexit : (k.exit call).state = (endFrames { k with calls := rest } call frames).1 := by
      unfold exit
      rw [hpop]
      rfl
    have hprot := protector?_endFrames { k with calls := rest } call frames tag
    have hlists : (k.perform (.exit call)).state.Lists tag → k.Lists tag := by
      rw [hstate, hexit]
      rintro ⟨f, hf, p, hp, htag⟩
      rw [calls_endFrames] at hf
      exact ⟨f, hframes ▸ List.mem_append_right frames hf, p, hp, htag⟩
    by_cases hr : ∃ f ∈ frames, tag ∈ f.pointers.map Pointer.tag
    · rw [if_pos hr] at hprot
      obtain ⟨f, hf, hmem⟩ := hr
      obtain ⟨p, hp, htag⟩ := List.mem_map.mp hmem
      exact .releases call rfl ⟨frames, rest, hpop, f, hf, p, hp, htag⟩
        (by rw [hstate, hexit, hprot]) hlists
    · rw [if_neg hr] at hprot
      refine .nothing hg ?_ (by rw [hstate, hexit, hprot]; rfl) hlists
      rintro call' heq ⟨frames', rest', hpop', f, hf, p, hp, htag⟩
      obtain rfl := Event.exit.inj heq
      rw [hpop] at hpop'
      obtain ⟨rfl, rfl⟩ := Prod.mk.inj (Option.some.inj hpop')
      exact hr ⟨f, hf, List.mem_map.mpr ⟨p, hp, htag⟩⟩

theorem effect_retag (k : Checker) (p : Pointer) (range : ByteRange) (d : Derivation)
    (cell : Bool) (kind : Protection) (tag : Tag) :
    k.Effect (.retag p range d cell kind) tag := by
  have hstate : (k.perform (.retag p range d cell kind)).state =
      (k.retag p range d cell kind).state := rfl
  rcases retag_cases k p range d cell kind with
    ⟨isProtected, heq, hno⟩ | ⟨permission, -, hkind, hdepth, hres, heq⟩
  · refine .of_sameCalls ?_ (fun _ => nofun) ?_
    · rintro (hg | ⟨kind', rfl, hkind, hdepth, hres⟩)
      · exact hg
      · exact hno tag hkind hdepth hres
    · rw [hstate, heq]
      exact sameCalls_reborrow k p range d cell isProtected
  · have hsame := sameCalls_newTag k p range permission true
    have hafter : (k.perform (.retag p range d cell kind)).state.protector? tag =
        if tag = ⟨k.nextTag⟩ then some kind else k.protector? tag := by
      have hget := Table.get?_insert (k.newTag p range permission true).state.protectors
        ⟨k.nextTag⟩ tag kind
      rw [hstate, heq]
      refine hget.trans ?_
      rw [hsame.protectors]
      rfl
    by_cases htag : tag = ⟨k.nextTag⟩
    · rw [if_pos htag] at hafter
      exact .retags kind ⟨rfl, hkind, hdepth, htag ▸ hres⟩ (htag ▸ rfl) hafter
    · rw [if_neg htag] at hafter
      refine .nothing ?_ (fun _ => nofun) hafter fun hlists => ?_
      · rintro (hg | ⟨kind', rfl, -, -, hres'⟩)
        · exact hg
        · rw [hres] at hres'
          exact htag (Option.some.inj (Except.ok.inj hres')).symm
      · rw [hstate, heq] at hlists
        obtain ⟨f, hf, q, hq, hqtag⟩ := hlists
        rcases mem_pointers_protect hf hq with ⟨f', hf', hq'⟩ | rfl
        · rw [setProtector, hsame.calls] at hf'
          exact ⟨f', hf', q, hq', hqtag⟩
        · exact absurd hqtag.symm htag

/-- **Every event has one of the four effects on every tag.** -/
theorem effect (k : Checker) (e : Event) (tag : Tag) : k.Effect e tag := by
  have hquiet : ∀ {e : Event}, (¬k.Enters e tag) → (∀ kind, ¬k.Retags e kind tag) →
      ¬k.Grants e tag := by
    rintro e h h' (hg | ⟨kind, hg⟩)
    · exact h hg
    · exact h' kind hg
  cases e with
  | allocate size =>
    exact .of_sameCalls (hquiet id fun _ => id) (fun _ => nofun) ⟨rfl, rfl, Nat.le_succ _⟩
  | drop a => exact .of_sameCalls (hquiet id fun _ => id) (fun _ => nofun) (sameCalls_drop k a)
  | free p => exact .of_sameCalls (hquiet id fun _ => id) (fun _ => nofun) (sameCalls_free k p)
  | derive p range d cell =>
    refine .of_sameCalls (hquiet id fun _ => id) (fun _ => nofun) ?_
    rcases retag_cases k p range d cell .none with ⟨isProtected, heq, -⟩ | ⟨_, -, hkind, -⟩
    · have hstate : (k.perform (.derive p range d cell)).state = _ := heq
      rw [hstate]
      exact sameCalls_reborrow k p range d cell isProtected
    · nomatch hkind
  | retag p range d cell kind => exact effect_retag k p range d cell kind tag
  | access p range kind =>
    have hsame := sameCalls_onTree k p (.ofAccess kind) fun ctx t =>
      t.access ctx ⟨p.tag, range, kind, .explicit kind⟩
    exact .of_sameCalls (hquiet id fun _ => id) (fun _ => nofun) hsame
  | drawCall =>
    exact .of_sameCalls (hquiet id fun _ => id) (fun _ => nofun) ⟨rfl, rfl, Nat.le_refl _⟩
  | enter call ps =>
    exact effect_enter { k with calls := k.calls.push call } Iff.rfl (fun _ => id)
      (fun _ => nofun) rfl rfl rfl rfl
  | exit call => exact effect_exit k call tag
  | openCall ps =>
    exact effect_enter { k.freshCall.1 with calls := k.calls.push ⟨k.nextCall⟩ } Iff.rfl
      (fun _ => id) (fun _ => nofun) rfl rfl rfl rfl
  | name p s => exact .of_sameCalls (hquiet id fun _ => id) (fun _ => nofun) (sameCalls_name k p s)
  | permissionAt p o =>
    exact .of_sameCalls (hquiet id fun _ => id) (fun _ => nofun) ⟨rfl, rfl, Nat.le_refl _⟩

/-- No event lists a tag in a frame without protecting it. -/
theorem lists_perform {e : Event} (h : (k.perform e).state.Lists tag) :
    k.Lists tag ∨ k.Grants e tag := by
  rcases k.effect e tag with ⟨hg, -⟩ | ⟨kind, hg, -, -⟩ | ⟨call, -, -, -, hlists⟩ |
    ⟨-, -, -, hlists⟩
  · exact .inr (.inl hg)
  · exact .inr (.inr ⟨kind, hg⟩)
  · exact .inl (hlists h)
  · exact .inl (hlists h)

/-! ## 5. Numbers of tags -/

theorem nextTag_protectAll (k : Checker) (call : CallId) (ps : List Pointer) :
    (k.protectAll call ps).1.nextTag = k.nextTag := by
  induction ps generalizing k with
  | nil => rfl
  | cons p ps ih =>
    refine (ih (k.protect call p).1).trans ?_
    by_cases hp : k.Knows p
    · obtain ⟨x, t, -, -, heq⟩ := protect_of_knows hp call
      rw [heq]
      rfl
    · rw [protect_of_not_knows hp]

theorem nextTag_releaseAll (k : Checker) (ps : List Pointer) :
    (k.releaseAll ps).1.nextTag = k.nextTag := by
  induction ps generalizing k with
  | nil => rfl
  | cons p ps ih => exact ih (k.clearProtector p.tag)

theorem nextTag_endFrames (k : Checker) (call : CallId) (fs : List Frame) :
    (k.endFrames call fs).1.nextTag = k.nextTag := by
  induction fs generalizing k with
  | nil => rfl
  | cons f fs ih =>
    exact (ih (k.releaseAll f.pointers).1).trans (nextTag_releaseAll k f.pointers)

theorem nextTag_le_retag (k : Checker) (p : Pointer) (range : ByteRange) (d : Derivation)
    (cell : Bool) (kind : Protection) :
    k.nextTag ≤ (k.retag p range d cell kind).state.nextTag := by
  rcases retag_cases k p range d cell kind with
    ⟨isProtected, heq, -⟩ | ⟨permission, -, -, -, -, heq⟩
  · rw [heq]
    exact (sameCalls_reborrow k p range d cell isProtected).nextTag_le
  · rw [heq]
    exact (sameCalls_newTag k p range permission true).nextTag_le

/-- Numbers of tags are given out in ascending order. -/
theorem nextTag_le_perform (k : Checker) (e : Event) : k.nextTag ≤ (k.perform e).state.nextTag := by
  cases e with
  | allocate size => exact Nat.le_succ _
  | drop a => exact (sameCalls_drop k a).nextTag_le
  | free p => exact (sameCalls_free k p).nextTag_le
  | derive p range d cell => exact nextTag_le_retag k p range d cell .none
  | retag p range d cell kind => exact nextTag_le_retag k p range d cell kind
  | access p range kind =>
    exact (sameCalls_onTree k p (.ofAccess kind) fun ctx t =>
      t.access ctx ⟨p.tag, range, kind, .explicit kind⟩).nextTag_le
  | drawCall => exact Nat.le_refl _
  | enter call ps =>
    exact Nat.le_of_eq (nextTag_protectAll { k with calls := k.calls.push call } call ps).symm
  | exit call =>
    show k.nextTag ≤ (k.exit call).state.nextTag
    unfold exit
    cases k.calls.popThrough? call with
    | none => exact Nat.le_refl _
    | some r => exact Nat.le_of_eq (nextTag_endFrames { k with calls := r.2 } call r.1).symm
  | openCall ps =>
    exact Nat.le_of_eq (nextTag_protectAll
      { k.freshCall.1 with calls := k.calls.push ⟨k.nextCall⟩ } ⟨k.nextCall⟩ ps).symm
  | name p s => exact (sameCalls_name k p s).nextTag_le
  | permissionAt p o => exact Nat.le_refl _

/-- A tag that a call protects when it starts is an old one. -/
theorem Enters.lt_nextTag (hs : k.Sound) {e : Event} (h : k.Enters e tag) :
    tag.number < k.nextTag := by
  have hknows : ∀ {p : Pointer}, k.Knows p → p.tag.number < k.nextTag := by
    rintro p ⟨x, hx, hmem⟩
    exact hs.tag_lt hx hmem
  cases e with
  | enter call ps =>
    obtain ⟨p, -, hp, rfl⟩ := h
    exact hknows hp
  | openCall ps =>
    obtain ⟨p, -, hp, rfl⟩ := h
    exact hknows hp
  | _ => exact absurd h id

end Checker

end TreeBorrows
