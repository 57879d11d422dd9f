/-
# What a tree sees of its surroundings

A tree that carries out an operation is told of every protected tag of the program, of its other
allocations' tags too.  It asks for the protectors of its own tags only.  So surroundings that agree
about these, and about the settings, are interchangeable (`Tree.SeesAlike`): accesses and frees end
in the same way in both, with the same messages and the same tree.

The reason is in the route of an access, which shows nodes of the tree and nothing else
(`Arena.get?_of_mem_route`).
-/
import Mathlib.Data.List.Find
import TreeBorrows.Proofs.Tree.WellFormed

namespace TreeBorrows

namespace Tree

/-- Two surroundings agree on all that the tree can ask of them. -/
structure SeesAlike (t : Tree) (ctx ctx' : Context) : Prop where
  settings_eq : ctx'.settings = ctx.settings
  alloc_eq : ctx'.alloc = ctx.alloc
  protector_eq : ∀ {i n}, t.arena.get? i = some n →
    ctx'.protectors.get? n.tag = ctx.protectors.get? n.tag

variable {t t' : Tree} {ctx ctx' : Context}

namespace SeesAlike

/-- Only the nodes of the tree matter. -/
theorem congr (h : t.SeesAlike ctx ctx') (harena : t'.arena = t.arena) :
    t'.SeesAlike ctx ctx' where
  settings_eq := h.settings_eq
  alloc_eq := h.alloc_eq
  protector_eq hn := h.protector_eq (harena ▸ hn)

theorem isProtected_eq (h : t.SeesAlike ctx ctx') {i : Nat} {n : Node}
    (hn : t.arena.get? i = some n) : ctx'.isProtected n.tag = ctx.isProtected n.tag :=
  congrArg Option.isSome (h.protector_eq hn)

theorem violation_eq (h : t.SeesAlike ctx ctx') (c : Clash) (accessed : Label) (cause : Cause)
    (o : Nat) : c.violation ctx' accessed cause o = c.violation ctx accessed cause o := by
  unfold Clash.violation
  rw [h.alloc_eq]

/-- A run of the range asks for the same new states. -/
theorem planElement_eq (h : t.SeesAlike ctx ctx') (acc : Access) (start : Nat) (accessed : Label)
    (e : Element ByteStates) :
    t.planElement ctx' acc start accessed e = t.planElement ctx acc start accessed e := by
  refine congrArg (Except.map List.reduceOption) (mapM_congr fun x hx => ?_)
  cases x with
  | error f => rfl
  | ok v =>
    simp only [planVisit, h.isProtected_eq (Arena.get?_of_mem_route hx), h.violation_eq]

theorem plan_eq (h : t.SeesAlike ctx ctx') (acc : Access) : t.plan ctx' acc = t.plan ctx acc := by
  have hfun : t.planElement ctx' acc = t.planElement ctx acc :=
    funext fun start => funext fun accessed => funext fun e =>
      h.planElement_eq acc start accessed e
  unfold plan
  rw [hfun]

/-- The second pass looks at the settings only, which tell what to report. -/
theorem settle_eq (h : t.SeesAlike ctx ctx') (r : ByteRange) (cause : Cause)
    (us : List (List Update)) (t' : Tree) :
    t'.settle ctx' r cause us = t'.settle ctx r cause us := by
  simp only [settle, updateMessages, h.settings_eq]

theorem stronglyProtected?_eq (h : t.SeesAlike ctx ctx') :
    t.stronglyProtected? ctx' = t.stronglyProtected? ctx := by
  refine List.find?_congr fun x hx => ?_
  obtain ⟨i, n⟩ := x
  dsimp only
  rw [h.protector_eq (Slots.mem_toList.mp hx)]

/-- **Accesses** end in the same way. -/
theorem access_eq (h : t.SeesAlike ctx ctx') (acc : Access) :
    t.access ctx' acc = t.access ctx acc := by
  simp only [access, h.plan_eq, h.settle_eq, h.alloc_eq]

/-- **And so does freeing.** -/
theorem free_eq (h : t.SeesAlike ctx ctx') (tag : Tag) : t.free ctx' tag = t.free ctx tag := by
  have hstate := (sameNodes_plan t ctx ⟨tag, ⟨0, t.size⟩, .write, .dealloc⟩).arena_eq
  unfold free
  dsimp only
  rw [h.plan_eq]
  cases hus : (t.plan ctx ⟨tag, ⟨0, t.size⟩, .write, .dealloc⟩).result with
  | error f => rw [Outcome.andThen_of_error hus, Outcome.andThen_of_error hus]
  | ok us =>
    rw [Outcome.andThen_of_ok hus, Outcome.andThen_of_ok hus,
      (h.congr hstate).stronglyProtected?_eq]
    simp only [h.settle_eq, h.violation_eq]

end SeesAlike

end Tree

end TreeBorrows
