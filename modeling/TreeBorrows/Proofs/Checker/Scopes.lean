/-
# Protectors end with their calls, and scopes unwind

A protector is held by a frame: whatever is protected is listed by some active call, so that nothing
is protected once all calls have ended (`Held`).  The end of a call pops the frames from the
innermost one down to its own and takes the protectors of all that they list.

A scope is what happens between the start of a call and its end.  Whoever opens one may start calls
inside of it and leave them open, or end them in any order; as long as the numbers of active calls
are distinct and nothing outside of the scope is ended (`Nests`), its end brings back exactly the
stack from before.  The invariant that carries this is `CallStack.InScope`: the frame of the scope
stays where it is, on top of the frames that were there before it.
-/
import Mathlib.Data.List.Infix
import TreeBorrows.Proofs.Checker.Advance
import TreeBorrows.Proofs.Checker.Protectors

namespace TreeBorrows

/-! ## 1. Frames -/

namespace CallStack

variable {s base : CallStack} {c c' : CallId}

/-- The innermost frame lists one more pointer, and loses none. -/
theorem exists_mem_protect {f : Frame} (hf : f ∈ s.frames) (p : Pointer) :
    ∃ f' ∈ (s.protect p).frames, f.pointers ⊆ f'.pointers := by
  obtain ⟨frames⟩ := s
  cases frames with
  | nil => exact absurd hf List.not_mem_nil
  | cons g gs =>
    rcases List.mem_cons.mp hf with rfl | hf
    · exact ⟨_, List.mem_cons_self, List.subset_append_left _ _⟩
    · exact ⟨f, List.mem_cons_of_mem _ hf, List.Subset.refl _⟩

theorem mem_pointers_protect_self (hs : 0 < s.depth) (p : Pointer) :
    ∃ f ∈ (s.protect p).frames, p ∈ f.pointers := by
  obtain ⟨frames⟩ := s
  cases frames with
  | nil => exact absurd hs (Nat.lt_irrefl 0)
  | cons g gs =>
    exact ⟨_, List.mem_cons_self, List.mem_append_right _ List.mem_cons_self⟩

@[simp] theorem depth_protect (s : CallStack) (p : Pointer) : (s.protect p).depth = s.depth := by
  obtain ⟨frames⟩ := s
  cases frames <;> rfl

/-- The frames down to the innermost one of a call are popped. -/
theorem popThrough?_append {inner below : List Frame} {f : Frame} (hf : f.call = c)
    (hinner : ∀ g ∈ inner, g.call ≠ c) :
    (⟨inner ++ f :: below⟩ : CallStack).popThrough? c = some (inner ++ [f], ⟨below⟩) := by
  unfold popThrough?
  induction inner with
  | nil => simp [popThrough?.go, hf]
  | cons g gs ih =>
    have hg : g.call ≠ c := hinner g List.mem_cons_self
    simp [popThrough?.go, hg, ih fun g' hg' => hinner g' (List.mem_cons_of_mem g hg')]

/-- The stack is `base` with a frame of the call `c` on top, and perhaps others on top of that. -/
def InScope (s : CallStack) (c : CallId) (base : CallStack) : Prop :=
  ∃ inner f, s.frames = inner ++ f :: base.frames ∧ f.call = c

namespace InScope

theorem push_self (base : CallStack) (c : CallId) : (base.push c).InScope c base :=
  ⟨[], ⟨c, []⟩, rfl, rfl⟩

theorem push (h : s.InScope c base) (c' : CallId) : (s.push c').InScope c base := by
  obtain ⟨inner, f, hs, hf⟩ := h
  exact ⟨⟨c', []⟩ :: inner, f, congrArg (_ :: ·) hs, hf⟩

theorem protect (h : s.InScope c base) (p : Pointer) : (s.protect p).InScope c base := by
  obtain ⟨frames⟩ := s
  obtain ⟨inner, f, hs, hf⟩ := h
  dsimp only at hs
  subst hs
  cases inner with
  | nil => exact ⟨[], _, rfl, hf⟩
  | cons g gs => exact ⟨_ :: gs, f, rfl, hf⟩

theorem protectAll (h : s.InScope c base) (ps : List Pointer) :
    (ps.foldl CallStack.protect s).InScope c base := by
  induction ps generalizing s with
  | nil => exact h
  | cons p ps ih => exact ih (h.protect p)

/-- A call that is neither the one of the scope nor below it ends inside of the scope. -/
theorem popThrough? (h : s.InScope c base) (hne : c' ≠ c)
    (hbelow : ∀ f ∈ base.frames, f.call ≠ c') {popped : List Frame} {rest : CallStack}
    (hpop : s.popThrough? c' = some (popped, rest)) : rest.InScope c base := by
  obtain ⟨frames⟩ := s
  obtain ⟨inner, f, hs, hf⟩ := h
  dsimp only at hs
  subst hs
  induction inner generalizing popped with
  | nil =>
    have hnone : (⟨f :: base.frames⟩ : CallStack).popThrough? c' = none := by
      refine popThrough?_eq_none_iff.mpr fun g hg => ?_
      rcases List.mem_cons.mp hg with rfl | hg
      · exact fun hcall => hne (hcall.symm.trans hf)
      · exact hbelow g hg
    rw [List.nil_append, hnone] at hpop
    nomatch hpop
  | cons g gs ih =>
    by_cases hg : g.call = c'
    · have hself : (⟨[] ++ g :: (gs ++ f :: base.frames)⟩ : CallStack).popThrough? c' = _ :=
        popThrough?_append hg fun _ h => absurd h List.not_mem_nil
      obtain ⟨-, rfl⟩ := Prod.mk.inj (Option.some.inj (hself.symm.trans hpop))
      exact ⟨gs, f, rfl, hf⟩
    · unfold CallStack.popThrough? at hpop ih
      simp only [List.cons_append, popThrough?.go, if_neg hg] at hpop
      obtain ⟨⟨popped', rest'⟩, hpop', heq⟩ := Option.map_eq_some_iff.mp hpop
      obtain ⟨-, rfl⟩ := Prod.mk.inj heq
      exact ih hpop'

/-- When no other frame has its number, the end of the call brings back what was below. -/
theorem popThrough?_self (h : s.InScope c base) (hdistinct : (s.frames.map Frame.call).Nodup) :
    ∃ popped, s.popThrough? c = some (popped, base) := by
  obtain ⟨frames⟩ := s
  obtain ⟨inner, f, hs, hf⟩ := h
  dsimp only at hs
  subst hs
  refine ⟨inner ++ [f], popThrough?_append hf fun g hg hcall => ?_⟩
  rw [List.map_append, List.map_cons, List.nodup_append] at hdistinct
  exact hdistinct.2.2 _ (List.mem_map_of_mem hg) _ List.mem_cons_self (hcall.trans hf.symm)

end InScope

end CallStack

namespace Checker

variable {k k' : Checker} {tag : Tag} {c : CallId} {es : List Event}

/-! ## 2. Every protector is held by a frame -/

/-- Every protected tag is listed by an active call. -/
def Held (k : Checker) : Prop := ∀ tag, k.protector? tag ≠ none → k.Lists tag

theorem Held.congr (h : k.Held) (hp : k'.protectors = k.protectors) (hc : k'.calls = k.calls) :
    k'.Held := by
  intro tag htag
  unfold protector? at htag
  unfold Lists
  rw [hp] at htag
  rw [hc]
  exact h tag htag

theorem SameCalls.held (hs : k.SameCalls k') (h : k.Held) : k'.Held :=
  h.congr hs.protectors hs.calls

/-- A tag that gets its protector from the innermost call is listed there. -/
theorem Held.holdTag (h : k.Held) (hd : 0 < k.calls.depth) (p : Pointer) (kind : Protection) :
    (k.holdTag p kind).state.Held := by
  intro tag htag
  have hget : (k.holdTag p kind).state.protector? tag =
      if tag = p.tag then some kind else k.protector? tag := Table.get?_insert _ _ _ _
  rw [hget] at htag
  by_cases heq : tag = p.tag
  · obtain ⟨f, hf, hp⟩ := CallStack.mem_pointers_protect_self hd p
    exact ⟨f, hf, p, hp, heq.symm⟩
  · rw [if_neg heq] at htag
    obtain ⟨f, hf, q, hq, hqtag⟩ := h tag htag
    obtain ⟨f', hf', hsub⟩ := CallStack.exists_mem_protect hf p
    exact ⟨f', hf', q, hsub hq, hqtag⟩

theorem Held.protect (h : k.Held) (hd : 0 < k.calls.depth) (call : CallId) (p : Pointer) :
    (k.protect call p).1.Held := by
  by_cases hp : k.Knows p
  · obtain ⟨x, t, -, -, heq⟩ := protect_of_knows hp call
    rw [heq]
    exact (h.holdTag hd p .strong).congr rfl rfl
  · rw [protect_of_not_knows hp]
    exact h

theorem depth_protect (k : Checker) (call : CallId) (p : Pointer) :
    (k.protect call p).1.calls.depth = k.calls.depth := by
  by_cases hp : k.Knows p
  · obtain ⟨x, t, -, -, heq⟩ := protect_of_knows hp call
    rw [heq]
    exact CallStack.depth_protect k.calls p
  · rw [protect_of_not_knows hp]

theorem Held.protectAll (h : k.Held) (hd : 0 < k.calls.depth) (call : CallId)
    (ps : List Pointer) : (k.protectAll call ps).1.Held := by
  induction ps generalizing k with
  | nil => exact h
  | cons p ps ih => exact ih (h.protect hd call p) ((depth_protect k call p).symm ▸ hd)

theorem Held.push (h : k.Held) (c : CallId) : Held { k with calls := k.calls.push c } := by
  intro tag htag
  obtain ⟨f, hf, hp⟩ := h tag htag
  exact ⟨f, List.mem_cons_of_mem _ hf, hp⟩

theorem Held.enter (h : k.Held) (c : CallId) (ps : List Pointer) : (k.enter c ps).state.Held :=
  (h.push c).protectAll (Nat.succ_pos _) c ps

theorem Held.retag (h : k.Held) (p : Pointer) (range : ByteRange) (d : Derivation) (cell : Bool)
    (kind : Protection) : (k.retag p range d cell kind).state.Held := by
  rcases retag_cases k p range d cell kind with
    ⟨isProtected, heq, -⟩ | ⟨permission, -, -, hd, -, heq⟩
  · rw [heq]
    exact (sameCalls_reborrow k p range d cell isProtected).held h
  · rw [heq]
    have hsame := sameCalls_newTag k p range permission true
    exact (hsame.held h).holdTag (hsame.calls ▸ hd) _ kind

/-! ## 3. The end of a call -/

theorem releaseAll_eq (k : Checker) (ps : List Pointer) :
    ∃ protectors, (k.releaseAll ps).1 = { k with protectors := protectors } := by
  induction ps generalizing k with
  | nil => exact ⟨k.protectors, rfl⟩
  | cons p ps ih => exact ih (k.clearProtector p.tag)

/-- The end of frames is about protectors only. -/
theorem endFrames_eq (k : Checker) (call : CallId) (fs : List Frame) :
    ∃ protectors, (k.endFrames call fs).1 = { k with protectors := protectors } := by
  induction fs generalizing k with
  | nil => exact ⟨k.protectors, rfl⟩
  | cons f fs ih =>
    obtain ⟨protectors, heq⟩ := releaseAll_eq k f.pointers
    obtain ⟨protectors', heq'⟩ := ih (k.releaseAll f.pointers).1
    exact ⟨protectors', heq'.trans (by rw [heq])⟩

/-- A call that is not active does not end. -/
theorem exit_of_popThrough?_eq_none (h : k.calls.popThrough? c = none) :
    (k.exit c).state = k := by
  unfold exit
  rw [h]
  rfl

/-- **What the end of a call does**: its frames are gone, what they list has lost its protector, and
nothing else has changed. -/
theorem exit_of_popThrough? {popped : List Frame} {rest : CallStack}
    (h : k.calls.popThrough? c = some (popped, rest)) :
    (k.exit c).state =
        { k with calls := rest, protectors := (k.exit c).state.protectors } ∧
      ∀ tag, (k.exit c).state.protector? tag =
        if ∃ f ∈ popped, tag ∈ f.pointers.map Pointer.tag then none else k.protector? tag := by
  have hexit : (k.exit c).state = (endFrames { k with calls := rest } c popped).1 := by
    unfold exit
    rw [h]
    rfl
  rw [hexit]
  constructor
  · obtain ⟨protectors, heq⟩ := endFrames_eq { k with calls := rest } c popped
    rw [heq]
  · exact protector?_endFrames { k with calls := rest } c popped

theorem Held.exit (h : k.Held) (c : CallId) : (k.exit c).state.Held := by
  cases hpop : k.calls.popThrough? c with
  | none =>
    rw [exit_of_popThrough?_eq_none hpop]
    exact h
  | some r =>
    obtain ⟨popped, rest⟩ := r
    obtain ⟨hstate, hprot⟩ := exit_of_popThrough? hpop
    intro tag htag
    rw [hprot] at htag
    split at htag
    · exact absurd rfl htag
    · next hpopped =>
      -- a frame that lists the tag is not one of the popped ones
      obtain ⟨f, hf, p, hp, hptag⟩ := h tag htag
      rw [CallStack.append_of_popThrough? hpop] at hf
      rcases List.mem_append.mp hf with hf | hf
      · exact absurd ⟨f, hf, List.mem_map.mpr ⟨p, hp, hptag⟩⟩ hpopped
      · unfold Lists
        rw [hstate]
        exact ⟨f, hf, p, hp, hptag⟩

theorem Held.perform (h : k.Held) (e : Event) : (k.perform e).state.Held := by
  cases e with
  | allocate size => exact h.congr rfl rfl
  | drop a => exact (sameCalls_drop k a).held h
  | free p => exact (sameCalls_free k p).held h
  | derive p range d cell => exact h.retag p range d cell .none
  | retag p range d cell kind => exact h.retag p range d cell kind
  | access p range kind => exact (sameCalls_onTree k p (.ofAccess kind) _).held h
  | drawCall => exact h.congr rfl rfl
  | enter c ps => exact h.enter c ps
  | exit c => exact h.exit c
  | openCall ps =>
    have hdraw : k.freshCall.1.Held := h.congr rfl rfl
    exact hdraw.enter k.freshCall.2 ps
  | name p s => exact (sameCalls_name k p s).held h
  | permissionAt p o => exact h

/-- **No protector leaks**, in any reachable state. -/
theorem Reachable.held (hk : k.Reachable) : k.Held :=
  hk.induction (fun _ _ htag => absurd rfl htag) fun _ e _ h => h.perform e

/-! ## 4. Scopes -/

/-- The event starts a call with this number. -/
def Starts (k : Checker) (e : Event) (c : CallId) : Prop :=
  match e with
  | .enter c' _ => c' = c
  | .openCall _ => ⟨k.nextCall⟩ = c
  | _ => False

/-- In a run from this checker, a call with this number was started. -/
def Started (k : Checker) (es : List Event) (c : CallId) : Prop :=
  ∃ pre e post, es = pre ++ e :: post ∧ (k.run pre).Starts e c

/-- Throughout a run the numbers of active calls are distinct, and no call ends that was not started
in it. -/
structure Nests (k : Checker) (es : List Event) : Prop where
  distinct : ∀ pre post, es = pre ++ post → ((k.run pre).calls.frames.map Frame.call).Nodup
  started : ∀ pre c post, es = pre ++ .exit c :: post → k.Started pre c

theorem Nests.left {fs : List Event} (h : k.Nests (es ++ fs)) : k.Nests es where
  distinct pre post heq := h.distinct pre (post ++ fs) (by rw [heq, List.append_assoc])
  started pre c post heq := h.started pre c (post ++ fs) (by rw [heq]; simp)

theorem started_append_singleton_iff {e : Event} :
    k.Started (es ++ [e]) c ↔ k.Started es c ∨ (k.run es).Starts e c := by
  constructor
  · rintro ⟨pre, e', post, heq, h⟩
    rcases append_singleton_eq_iff.mp heq with ⟨-, rfl, rfl⟩ | ⟨post', -, rfl⟩
    · exact .inr h
    · exact .inl ⟨pre, e', post', rfl, h⟩
  · rintro (⟨pre, e', post, rfl, h⟩ | h)
    · exact ⟨pre, e', post ++ [e], by simp, h⟩
    · exact ⟨es, e, [], rfl, h⟩

theorem calls_protectAll (k : Checker) (call : CallId) (ps : List Pointer) :
    ∃ qs : List Pointer, (k.protectAll call ps).1.calls = qs.foldl CallStack.protect k.calls := by
  induction ps generalizing k with
  | nil => exact ⟨[], rfl⟩
  | cons p ps ih =>
    obtain ⟨qs, hqs⟩ := ih (k.protect call p).1
    by_cases hp : k.Knows p
    · obtain ⟨x, t, -, -, heq⟩ := protect_of_knows hp call
      rw [heq] at hqs
      exact ⟨p :: qs, (congrArg (fun k => (protectAll k call ps).1.calls) heq).trans hqs⟩
    · rw [protect_of_not_knows hp] at hqs
      exact ⟨qs, (congrArg (fun k => (protectAll k call ps).1.calls)
        (protect_of_not_knows hp call)).trans hqs⟩

/-- A call that starts gets a frame, and may list pointers there. -/
theorem calls_of_starts {e : Event} (h : k.Starts e c) :
    ∃ qs : List Pointer,
      (k.perform e).state.calls = qs.foldl CallStack.protect (k.calls.push c) := by
  cases e with
  | enter c' ps =>
    obtain rfl : c' = c := h
    exact calls_protectAll { k with calls := k.calls.push c' } c' ps
  | openCall ps =>
    obtain rfl : ⟨k.nextCall⟩ = c := h
    exact calls_protectAll { k.freshCall.1 with calls := k.calls.push ⟨k.nextCall⟩ } _ ps
  | _ => exact absurd h id

/-- What an event does to the frames: the innermost one may list more pointers, after a call has
started or not; or a call ends. -/
theorem calls_perform_cases (k : Checker) (e : Event) :
    (∃ qs : List Pointer, (k.perform e).state.calls = qs.foldl CallStack.protect k.calls) ∨
      (∃ c, ∃ qs : List Pointer,
        (k.perform e).state.calls = qs.foldl CallStack.protect (k.calls.push c)) ∨
      ∃ c popped rest, e = .exit c ∧ k.calls.popThrough? c = some (popped, rest) ∧
        (k.perform e).state.calls = rest := by
  have hsame : ∀ {k'}, k.SameCalls k' →
      ∃ qs : List Pointer, k'.calls = qs.foldl CallStack.protect k.calls := fun h => ⟨[], h.calls⟩
  have hretag : ∀ p range d cell kind, ∃ qs : List Pointer,
      (k.retag p range d cell kind).state.calls = qs.foldl CallStack.protect k.calls := by
    intro p range d cell kind
    rcases retag_cases k p range d cell kind with
      ⟨isProtected, heq, -⟩ | ⟨permission, -, -, -, -, heq⟩
    · rw [heq]
      exact hsame (sameCalls_reborrow k p range d cell isProtected)
    · rw [heq]
      refine ⟨[⟨p.alloc, ⟨k.nextTag⟩⟩], ?_⟩
      exact congrArg (CallStack.protect · _) (sameCalls_newTag k p range permission true).calls
  cases e with
  | allocate size => exact .inl ⟨[], rfl⟩
  | drop a => exact .inl (hsame (sameCalls_drop k a))
  | free p => exact .inl (hsame (sameCalls_free k p))
  | derive p range d cell => exact .inl (hretag p range d cell .none)
  | retag p range d cell kind => exact .inl (hretag p range d cell kind)
  | access p range kind =>
    exact .inl (hsame (sameCalls_onTree k p (.ofAccess kind) fun ctx t =>
      t.access ctx ⟨p.tag, range, kind, .explicit kind⟩))
  | drawCall => exact .inl ⟨[], rfl⟩
  | enter c ps => exact .inr (.inl ⟨c, calls_of_starts rfl⟩)
  | exit c =>
    cases hpop : k.calls.popThrough? c with
    | none =>
      exact .inl ⟨[], congrArg Checker.calls (exit_of_popThrough?_eq_none hpop)⟩
    | some r =>
      obtain ⟨popped, rest⟩ := r
      refine .inr (.inr ⟨c, popped, rest, rfl, hpop, ?_⟩)
      exact congrArg Checker.calls (exit_of_popThrough? hpop).1
  | openCall ps => exact .inr (.inl ⟨⟨k.nextCall⟩, calls_of_starts rfl⟩)
  | name p s => exact .inl (hsame (sameCalls_name k p s))
  | permissionAt p o => exact .inl ⟨[], rfl⟩

theorem calls_foldl_protect (s : CallStack) (ps : List Pointer) :
    (ps.foldl CallStack.protect s).frames.map Frame.call = s.frames.map Frame.call := by
  induction ps generalizing s with
  | nil => rfl
  | cons p ps ih =>
    refine (ih (s.protect p)).trans ?_
    obtain ⟨frames⟩ := s
    cases frames <;> rfl

/-- What holds in the middle of a scope: its frame is in place, and none of the calls that were
started in it has the number of that frame or of one below. -/
structure Inside (k : Checker) (es : List Event) (c : CallId) (base : CallStack) : Prop where
  inScope : (k.run es).calls.InScope c base
  ne_of_started : ∀ {c'}, k.Started es c' → c' ≠ c ∧ ∀ f ∈ base.frames, f.call ≠ c'

/-- A call that starts while the numbers stay distinct has none of the numbers of the scope. -/
theorem Inside.ne_of_starts {base : CallStack} (h : k.Inside es c base) {e : Event}
    (hdistinct : (((k.run es).perform e).state.calls.frames.map Frame.call).Nodup)
    {c' : CallId} {qs : List Pointer}
    (hcalls : ((k.run es).perform e).state.calls =
      qs.foldl CallStack.protect ((k.run es).calls.push c')) :
    c' ≠ c ∧ ∀ f ∈ base.frames, f.call ≠ c' := by
  obtain ⟨inner, g, hframes, rfl⟩ := h.inScope
  have hpush : ((k.run es).calls.push c').frames = ⟨c', []⟩ :: (inner ++ g :: base.frames) :=
    congrArg (_ :: ·) hframes
  rw [hcalls, calls_foldl_protect, hpush, List.map_cons, List.nodup_cons,
    List.map_append] at hdistinct
  have hnot := fun f hf heq => hdistinct.1 (List.mem_append_right (inner.map Frame.call)
    (List.mem_map.mpr ⟨f, hf, heq⟩))
  exact ⟨fun heq => hnot g List.mem_cons_self heq.symm,
    fun f hf => hnot f (List.mem_cons_of_mem g hf)⟩

/-- One more event stays in the scope. -/
theorem Inside.perform {base : CallStack} (h : k.Inside es c base) (e : Event)
    (hn : k.Nests (es ++ [e])) : k.Inside (es ++ [e]) c base := by
  have hdistinct := hn.distinct (es ++ [e]) [] (List.append_nil _).symm
  rw [run_append_singleton] at hdistinct
  constructor
  · rw [run_append_singleton]
    rcases calls_perform_cases (k.run es) e with ⟨qs, hcalls⟩ | ⟨c', qs, hcalls⟩ |
      ⟨c', popped, rest, rfl, hpop, hcalls⟩
    · rw [hcalls]
      exact h.inScope.protectAll qs
    · rw [hcalls]
      exact (h.inScope.push c').protectAll qs
    · rw [hcalls]
      obtain ⟨hne, hbelow⟩ := h.ne_of_started (hn.started es c' [] rfl)
      exact h.inScope.popThrough? hne hbelow hpop
  · intro c' hstarted
    rcases started_append_singleton_iff.mp hstarted with hstarted | hstarts
    · exact h.ne_of_started hstarted
    · obtain ⟨qs, hcalls⟩ := calls_of_starts hstarts
      exact h.ne_of_starts hdistinct hcalls

/-- A scope holds throughout what happens inside of it. -/
theorem inside_of_nests {base : CallStack} (h : k.calls.InScope c base) (hn : k.Nests es) :
    k.Inside es c base := by
  induction es using List.reverseRecOn with
  | nil =>
    refine ⟨h, ?_⟩
    rintro c' ⟨pre, e, post, heq, -⟩
    simp at heq
  | append_singleton es e ih => exact (ih hn.left).perform e hn

/-- **The end of a scope brings back the stack from before it.** -/
theorem calls_exit_of_nests {base : CallStack} (h : k.calls.InScope c base) (hn : k.Nests es) :
    ((k.run es).exit c).state.calls = base := by
  have hdistinct := hn.distinct es [] (List.append_nil es).symm
  obtain ⟨popped, hpop⟩ := (inside_of_nests h hn).inScope.popThrough?_self hdistinct
  exact congrArg Checker.calls (exit_of_popThrough? hpop).1

/-- **No protector leaks, and scopes unwind exactly.**  In every reachable state:

* whatever is protected is listed by an active call, and nothing is when there is none;
* the end of a call that is not active changes nothing;
* the end of an active call takes away the frames from the innermost one down to its own, and the
  protectors of all tags that they list, and nothing else;
* a call that gets its number from the checker can be ended with the stack as it was before it
  started, after any events during which the numbers of active calls stay distinct and no call ends
  that was started before. -/
theorem scopes_unwind (hk : k.Reachable) :
    ((∀ tag, k.protector? tag ≠ none → k.Lists tag) ∧
        (k.calls.depth = 0 → ∀ tag, k.protector? tag = none)) ∧
      (∀ c, (∀ f ∈ k.calls.frames, f.call ≠ c) → (k.perform (.exit c)).state = k) ∧
      (∀ c inner f below, k.calls.frames = inner ++ f :: below → f.call = c →
        (∀ g ∈ inner, g.call ≠ c) →
          (k.perform (.exit c)).state = { k with
              calls := ⟨below⟩
              protectors := (k.perform (.exit c)).state.protectors } ∧
            ∀ tag, (k.perform (.exit c)).state.protector? tag =
              if ∃ g ∈ inner ++ [f], tag ∈ g.pointers.map Pointer.tag then none
              else k.protector? tag) ∧
      ∀ ps, ∃ c, (k.perform (.openCall ps)).result = .ok (.call c) ∧
        ∀ es, (k.perform (.openCall ps)).state.Nests es →
          (((k.perform (.openCall ps)).state.run es).perform (.exit c)).state.calls = k.calls := by
  refine ⟨⟨hk.held, fun hd tag => ?_⟩, fun c hc => ?_, fun c inner f below hframes hf hinner => ?_,
    fun ps => ⟨⟨k.nextCall⟩, rfl, fun es hn => ?_⟩⟩
  · by_contra htag
    obtain ⟨f, hf, -⟩ := hk.held tag htag
    rw [List.length_eq_zero_iff.mp hd] at hf
    exact absurd hf List.not_mem_nil
  · exact exit_of_popThrough?_eq_none (CallStack.popThrough?_eq_none_iff.mpr hc)
  · have hcalls : k.calls = ⟨inner ++ f :: below⟩ := congrArg CallStack.mk hframes
    exact exit_of_popThrough? (hcalls ▸ CallStack.popThrough?_append hf hinner)
  · obtain ⟨qs, hcalls⟩ := calls_of_starts (k := k) (e := .openCall ps) (c := ⟨k.nextCall⟩) rfl
    refine calls_exit_of_nests ?_ hn
    rw [hcalls]
    exact (CallStack.InScope.push_self k.calls _).protectAll qs

/-- Inside of a scope one call ends, which lists the same tag, and another one is left open.  The
end of the scope brings back the frame of the call that was active before it. -/
theorem scope_with_open_call :
    ∃ (k : Checker) (c : CallId) (es : List Event), k.Reachable ∧
      (k.perform (.openCall [⟨⟨1⟩, ⟨2⟩⟩])).state.Nests es ∧
      ((k.perform (.openCall [⟨⟨1⟩, ⟨2⟩⟩])).state.run es).calls.depth = 3 ∧
      (((k.perform (.openCall [⟨⟨1⟩, ⟨2⟩⟩])).state.run es).perform (.exit c)).state.calls =
        ⟨[⟨⟨7⟩, [⟨⟨1⟩, ⟨2⟩⟩]⟩]⟩ := by
  have hk : Reachable ((new {}).run [.allocate 8, .enter ⟨7⟩ [⟨⟨1⟩, ⟨2⟩⟩]]) := ⟨{}, _, rfl⟩
  have hcalls : ((new {}).run [.allocate 8, .enter ⟨7⟩ [⟨⟨1⟩, ⟨2⟩⟩]]).calls =
      ⟨[⟨⟨7⟩, [⟨⟨1⟩, ⟨2⟩⟩]⟩]⟩ := by
    decide +kernel
  have hn : Nests (((new {}).run [.allocate 8, .enter ⟨7⟩ [⟨⟨1⟩, ⟨2⟩⟩]]).perform
      (.openCall [⟨⟨1⟩, ⟨2⟩⟩])).state [.enter ⟨9⟩ [⟨⟨1⟩, ⟨2⟩⟩], .exit ⟨9⟩, .openCall []] := by
    have hprefix : ∀ {pre post : List Event},
        [.enter ⟨9⟩ [⟨⟨1⟩, ⟨2⟩⟩], .exit ⟨9⟩, .openCall []] = pre ++ post →
          pre = [] ∨ pre = [.enter ⟨9⟩ [⟨⟨1⟩, ⟨2⟩⟩]] ∨
            pre = [.enter ⟨9⟩ [⟨⟨1⟩, ⟨2⟩⟩], .exit ⟨9⟩] ∨
            pre = [.enter ⟨9⟩ [⟨⟨1⟩, ⟨2⟩⟩], .exit ⟨9⟩, .openCall []] := by
      intro pre post heq
      simpa using (List.mem_inits pre _).mpr ⟨post, heq.symm⟩
    constructor
    · intro pre post heq
      rcases hprefix heq with rfl | rfl | rfl | rfl
      all_goals decide +kernel
    · intro pre c post heq
      rcases hprefix heq with rfl | rfl | rfl | rfl
      · simp at heq
      · obtain rfl : (⟨9⟩ : CallId) = c := by simpa using (List.cons.inj (List.cons.inj heq).2).1
        exact ⟨[], _, [], rfl, rfl⟩
      · simp at heq
      · simp at heq
  obtain ⟨c, -, hscope⟩ := (scopes_unwind hk).2.2.2 [⟨⟨1⟩, ⟨2⟩⟩]
  exact ⟨_, c, _, hk, hn, by decide +kernel, (hscope _ hn).trans hcalls⟩

end Checker

end TreeBorrows
