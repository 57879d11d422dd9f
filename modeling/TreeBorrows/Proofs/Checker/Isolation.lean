/-
# Allocations do not interfere

The protectors of all allocations are kept in one table, by tag, and an operation on any tree is
shown the whole of it.  Still two events at different allocations cannot tell which of them came
first (`isolation`), unless both want the number of the next tag.

The reason is that tags are never given out twice.  So no tag belongs to two trees, and a protector
that an event sets for the tag it makes is none that another tree asks for.  With this, one of the
two events does not look at what the other one did (`perform_forget`), and the other one depends on
nothing that the first one changed (`perform_congr`).
-/
import TreeBorrows.Proofs.Checker.Advance
import TreeBorrows.Proofs.Checker.Locality

namespace TreeBorrows

namespace Checker

variable {k k' : Checker} {a b : AllocationId} {e₁ e₂ : Event}

/-- The checkers hold the same allocations, with the same trees, and agree on all the rest. -/
structure SameState (k k' : Checker) : Prop where
  settings_eq : k'.settings = k.settings
  nextAlloc_eq : k'.nextAlloc = k.nextAlloc
  nextTag_eq : k'.nextTag = k.nextTag
  nextCall_eq : k'.nextCall = k.nextCall
  get?_eq : ∀ c, k'.allocations.get? c = k.allocations.get? c
  protectors_eq : k'.protectors = k.protectors
  calls_eq : k'.calls = k.calls

theorem SameState.symm (h : SameState k k') : SameState k' k where
  settings_eq := h.settings_eq.symm
  nextAlloc_eq := h.nextAlloc_eq.symm
  nextTag_eq := h.nextTag_eq.symm
  nextCall_eq := h.nextCall_eq.symm
  get?_eq c := (h.get?_eq c).symm
  protectors_eq := h.protectors_eq.symm
  calls_eq := h.calls_eq.symm

/-- Checkers that differ in one allocation at most, and hold the same one there. -/
theorem SameState.of_forget (h : k'.forget b = k.forget b) (hat : SameAt b k k') :
    SameState k k' where
  settings_eq := (Beside.of_forget h).settings_eq
  nextAlloc_eq := by
    have hnext := congrArg Checker.nextAlloc h
    exact hnext
  nextTag_eq := by
    have hnext := congrArg Checker.nextTag h
    exact hnext
  nextCall_eq := by
    have hnext := congrArg Checker.nextCall h
    exact hnext
  get?_eq c := by
    by_cases hc : c = b
    · exact hc ▸ hat
    · exact (Beside.of_forget h).get?_eq hc
  protectors_eq := by
    have hprotectors := congrArg Checker.protectors h
    exact hprotectors
  calls_eq := by
    have hcalls := congrArg Checker.calls h
    exact hcalls

/-- An event that derives nothing may change places with any event at another allocation. -/
theorem perform_comm (hs : k.Sound) (h₁ : e₁.allocation? = some a) (h₂ : e₂.allocation? = some b)
    (hab : a ≠ b) (hd : e₂.derives = false) :
    ((k.perform e₂).state.perform e₁).result = (k.perform e₁).result ∧
      ((k.perform e₁).state.perform e₂).result = (k.perform e₂).result ∧
      SameState ((k.perform e₁).state.perform e₂).state
        ((k.perform e₂).state.perform e₁).state := by
  -- the first event does not look at `b`, and nothing else has changed for it
  have hlook : ((k.perform e₂).state.perform e₁).mapState (forget b) =
      (k.perform e₁).mapState (forget b) := by
    rw [← perform_forget _ h₁ hab, ← perform_forget _ h₁ hab, forget_perform k h₂ hd]
  -- the second event depends on `b`, which the first one has left alone
  have hbeside := beside_perform k h₁
  have hagree := perform_congr hs hbeside h₂ hd hab
  have hresult := congrArg Outcome.result hlook
  refine ⟨hresult, hagree.result_eq, .of_forget (b := b) ?_ ?_⟩
  · have hstate : ((k.perform e₂).state.perform e₁).state.forget b =
        (k.perform e₁).state.forget b := congrArg Outcome.state hlook
    rw [hstate, forget_perform _ h₂ hd]
  · have hkept := (beside_perform (k.perform e₂).state h₁).get?_eq hab.symm
    exact hkept.trans hagree.state.symm

/-- **Allocations are isolated from each other.**  In every reachable state no tag belongs to two
live allocations, and every tag of a tree or in the table of protectors is older than the next one
to be given out.  Two events at different allocations, of which at most one derives a pointer,
commute: each has the same result before and after the other one, and both orders lead to the same
allocations with the same trees, the same protectors, the same calls and the same counters. -/
theorem isolation (hk : k.Reachable) :
    (∀ a b x y, k.allocations.get? a = some x → k.allocations.get? b = some y → a ≠ b →
      ∀ tag ∈ x.tree.tags.keys, tag ∉ y.tree.tags.keys) ∧
    (∀ a x, k.allocations.get? a = some x → ∀ tag ∈ x.tree.tags.keys, tag.number < k.nextTag) ∧
    (∀ tag, k.protectors.contains tag = true → tag.number < k.nextTag) ∧
    ∀ e₁ e₂ a b, e₁.allocation? = some a → e₂.allocation? = some b → a ≠ b →
      ¬(e₁.derives = true ∧ e₂.derives = true) →
      ((k.perform e₂).state.perform e₁).result = (k.perform e₁).result ∧
      ((k.perform e₁).state.perform e₂).result = (k.perform e₂).result ∧
      SameState ((k.perform e₁).state.perform e₂).state
        ((k.perform e₂).state.perform e₁).state := by
  have hs := hk.sound
  refine ⟨fun a b x y hx hy hab tag htag htag' => hab (hs.alloc_eq hx hy htag htag'),
    fun a x hx tag => hs.tag_lt hx, fun tag => hs.protector_lt, ?_⟩
  intro e₁ e₂ a b h₁ h₂ hab hd
  cases hd₂ : e₂.derives with
  | false => exact perform_comm hs h₁ h₂ hab hd₂
  | true =>
    have hd₁ : e₁.derives = false := eq_false_of_ne_true fun hd₁ => hd ⟨hd₁, hd₂⟩
    obtain ⟨hres₂, hres₁, hstate⟩ := perform_comm hs h₂ h₁ hab.symm hd₁
    exact ⟨hres₁, hres₂, hstate.symm⟩

/-- Inside of a call, a pointer into the first allocation is derived and protected, and the second
allocation is freed by its owner. -/
theorem protected_retag_beside_free :
    ∃ k : Checker, k.Reachable ∧
      ((k.perform (.free ⟨⟨2⟩, ⟨3⟩⟩)).state.perform
        (.retag ⟨⟨1⟩, ⟨2⟩⟩ ⟨0, 4⟩ .exclusive false .strong)).result = .ok (.tag (some ⟨4⟩)) ∧
      ((k.perform (.retag ⟨⟨1⟩, ⟨2⟩⟩ ⟨0, 4⟩ .exclusive false .strong)).state.perform
        (.free ⟨⟨2⟩, ⟨3⟩⟩)).result = .ok .done := by
  have hk : Reachable ((new {}).run [.allocate 4, .allocate 8, .enter ⟨0⟩ []]) := ⟨{}, _, rfl⟩
  have h := (isolation hk).2.2.2 (.retag ⟨⟨1⟩, ⟨2⟩⟩ ⟨0, 4⟩ .exclusive false .strong)
    (.free ⟨⟨2⟩, ⟨3⟩⟩) ⟨1⟩ ⟨2⟩ rfl rfl (by decide) (by decide)
  refine ⟨_, hk, h.1.trans ?_, h.2.1.trans ?_⟩
  · decide +kernel
  · decide +kernel

end Checker

end TreeBorrows
