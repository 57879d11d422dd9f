/-
# A tree with and without skipping

Whether a tree passes over absorbing subtrees is one of its fields, and no operation but the first
pass of an access looks at it.  So every operation on a sound tree commutes with setting that
field: `withSkipping` can be put before an operation or after it.
-/
import TreeBorrows.Proofs.Tree.Preservation

namespace TreeBorrows

/-- What a tree needs to know of its surroundings, with another choice about skipping. -/
def Context.withSkipping (b : Bool) (c : Context) : Context :=
  { c with settings := { c.settings with foreignSkipping := b } }

namespace Tree

/-- The tree with another choice about skipping. -/
def withSkipping (b : Bool) (t : Tree) : Tree := { t with foreignSkipping := b }

variable {t : Tree} {prot : Tag → Bool} {ctx : Context}

theorem Sound.withSkipping (h : t.Sound prot) (b : Bool) : (t.withSkipping b).Sound prot where
  nodup_tags := h.nodup_tags
  getElem?_tags := h.getElem?_tags
  wellLinked := h.wellLinked
  noActiveDefault := h.noActiveDefault
  isProper := h.isProper
  lt_width := h.lt_width
  absorption := h.absorption

/-! ## 1. Accesses -/

theorem planVisit_withSkipping (b : Bool) (acc : Access) (accessed : Label) (offset : Nat) :
    planVisit (ctx.withSkipping b) acc accessed offset = planVisit ctx acc accessed offset := by
  funext x
  cases x <;> rfl

/-- **The first pass works out the same updates**, and finds the same first conflict. -/
theorem pending_withSkipping (h : t.Sound ctx.isProtected) (b : Bool) {acc : Access} {start : Nat}
    (hstart : start < t.arena.width) (hr : acc.range.stop ≤ t.size) (accessed : Label) :
    (t.withSkipping b).pending (ctx.withSkipping b) acc start accessed =
      t.pending ctx acc start accessed := by
  refine mapM_congr fun e he => ?_
  obtain ⟨hlt, hshow⟩ := RunMap.mem_inside h.isProper hr he
  have hval := (hshow e.start (Nat.le_refl _) hlt).2
  have hsound : (t.withSkipping b).Sound (ctx.withSkipping b).isProtected := h.withSkipping b
  rw [planElement_eq h hstart hval, planElement_eq hsound hstart hval, planVisit_withSkipping]
  rfl

theorem plan_withSkipping (h : t.Sound ctx.isProtected) (b : Bool) (acc : Access) :
    (t.withSkipping b).plan (ctx.withSkipping b) acc =
      (t.plan ctx acc).mapState (withSkipping b) := by
  cases htag : t.requireTag acc.tag acc.cause.operation with
  | error e =>
    have htag' : (t.withSkipping b).requireTag acc.tag acc.cause.operation = .error e := htag
    simp only [plan, htag, htag']
    rfl
  | ok start =>
    have htag' : (t.withSkipping b).requireTag acc.tag acc.cause.operation = .ok start := htag
    cases hrange : t.requireRange acc.range acc.cause.operation with
    | error e =>
      have hrange' : (t.withSkipping b).requireRange acc.range acc.cause.operation = .error e :=
        hrange
      simp only [plan, htag, htag', hrange, hrange']
      rfl
    | ok _ =>
      have hi := requireTag_eq_ok_iff.mp htag
      obtain ⟨n, hn, -⟩ := h.exists_get? hi
      have hstop := (requireRange_eq_ok_iff.mp hrange).2
      have hplan : (t.withSkipping b).plan (ctx.withSkipping b) acc = _ :=
        plan_eq (requireTag_eq_ok_iff.mp htag') hn hrange
      rw [hplan, plan_eq hi hn hrange,
        pending_withSkipping h b (Arena.lt_width_of_get? hn) hstop n.label]
      rfl

theorem tidied_withSkipping (b : Bool) (t : Tree) :
    (t.withSkipping b).tidied = t.tidied.mapState (withSkipping b) := by
  unfold tidied tidy withSkipping
  dsimp only
  cases Word.add t.runsAtLastMerge t.mergeSlack with
  | error f => rfl
  | ok limit =>
    dsimp only
    by_cases hle : limit ≤ t.bytes.runCount
    · simp only [if_pos hle]
      rfl
    · simp only [if_neg hle]
      rfl

theorem settle_withSkipping (b : Bool) (t : Tree) (ctx : Context) (range : ByteRange)
    (cause : Cause) (us : List (List Update)) :
    (t.withSkipping b).settle (ctx.withSkipping b) range cause us =
      (t.settle ctx range cause us).mapState (withSkipping b) := by
  cases hcheck : t.bytes.checkRange range with
  | error f =>
    have hcheck' : (t.withSkipping b).bytes.checkRange range = .error f := hcheck
    simp only [settle, hcheck, hcheck']
    rfl
  | ok _ =>
    have hcheck' : (t.withSkipping b).bytes.checkRange range = .ok () := hcheck
    simp only [settle, hcheck, hcheck']
    exact congrArg (Outcome.after _) (tidied_withSkipping b (t.committed range us))

theorem access_withSkipping (h : t.Sound ctx.isProtected) (b : Bool) (acc : Access) :
    (t.withSkipping b).access (ctx.withSkipping b) acc =
      (t.access ctx acc).mapState (withSkipping b) := by
  unfold access
  rw [plan_withSkipping h b acc]
  exact congrArg (Outcome.after _) (Outcome.mapState_andThen fun us _ =>
    settle_withSkipping b _ ctx acc.range acc.cause us)

theorem free_withSkipping (h : t.Sound ctx.isProtected) (b : Bool) (tag : Tag) :
    (t.withSkipping b).free (ctx.withSkipping b) tag =
      (t.free ctx tag).mapState (withSkipping b) := by
  have hplan := plan_withSkipping h b ⟨tag, ⟨0, t.size⟩, .write, .dealloc⟩
  unfold free
  dsimp only
  rw [show (t.withSkipping b).size = t.size from rfl, hplan]
  refine Outcome.mapState_andThen fun us _ => ?_
  generalize (t.plan ctx ⟨tag, ⟨0, t.size⟩, .write, .dealloc⟩).state = t'
  have hstrong : (t'.withSkipping b).stronglyProtected? (ctx.withSkipping b) =
      t'.stronglyProtected? ctx := rfl
  rw [hstrong]
  cases t'.stronglyProtected? ctx with
  | none => exact settle_withSkipping b t' ctx _ .dealloc us
  | some p =>
    have htag : (t'.withSkipping b).requireTag tag .dealloc = t'.requireTag tag .dealloc := rfl
    have harena : (t'.withSkipping b).arena = t'.arena := rfl
    have hstate : (t'.withSkipping b).stateAt = t'.stateAt := rfl
    dsimp only
    rw [htag, harena, hstate]
    cases t'.requireTag tag .dealloc with
    | error e => rfl
    | ok j =>
      dsimp only
      cases t'.arena.get? j with
      | none => rfl
      | some n =>
        cases t'.stateAt p.1 0 with
        | error f => rfl
        | ok s => rfl

/-! ## 2. New tags, names and protectors -/

theorem weakenFrom_withSkipping (b : Bool) (t : Tree) (i : Nat) (limit : Absorption) :
    (t.withSkipping b).weakenFrom i limit = (t.weakenFrom i limit).withSkipping b := by
  rw [weakenFrom_eq, weakenFrom_eq]
  rfl

theorem insertChild_withSkipping (h : t.Sound ctx.isProtected) (b : Bool) (c : NewChild) :
    (t.withSkipping b).insertChild (ctx.withSkipping b) c =
      (t.insertChild ctx c).mapState (withSkipping b) := by
  have hcontains : (t.withSkipping b).contains c.tag = t.contains c.tag := rfl
  unfold insertChild
  rw [hcontains]
  by_cases htaken : t.contains c.tag = true
  · rw [if_pos htaken, if_pos htaken]
    rfl
  · rw [if_neg htaken, if_neg htaken, access_withSkipping h b]
    refine Outcome.mapState_andThen fun _ _ => ?_
    generalize (t.access ctx ⟨c.parent, c.range, .read, .reborrow⟩).state = t'
    have htag : (t'.withSkipping b).requireTag c.parent .retag = t'.requireTag c.parent .retag :=
      rfl
    have htags : (t'.withSkipping b).tags = t'.tags := rfl
    have hbytes : (t'.withSkipping b).bytes = t'.bytes := rfl
    rw [htag, htags, hbytes]
    cases t'.requireTag c.parent .retag with
    | error e => rfl
    | ok parent =>
      dsimp only
      cases t'.tags.insert c.tag with
      | error f => rfl
      | ok r =>
        cases t'.bytes.checkRange c.range with
        | error f => rfl
        | ok _ =>
          have hattach : (t'.withSkipping b).attach c parent r.1 r.2 =
              (t'.attach c parent r.1 r.2).withSkipping b := by
            rw [attach, attach, ← weakenFrom_withSkipping]
            rfl
          dsimp only
          rw [hattach, tidied_withSkipping]

theorem resetAbsorption_withSkipping (b : Bool) (t : Tree) (tag : Tag) :
    (t.withSkipping b).resetAbsorption tag = (t.resetAbsorption tag).map (withSkipping b) := by
  have htag : (t.withSkipping b).requireTag tag .protect = t.requireTag tag .protect := rfl
  unfold resetAbsorption
  rw [htag]
  cases t.requireTag tag .protect with
  | error e => rfl
  | ok i => exact congrArg Except.ok (weakenFrom_withSkipping b t i .nothing)

theorem name_withSkipping (b : Bool) (t : Tree) (tag : Tag) (depth : Nat) (s : String) :
    (t.withSkipping b).name tag depth s = (t.name tag depth s).map (withSkipping b) := by
  have hancestor : (t.withSkipping b).ancestor? tag depth = t.ancestor? tag depth := rfl
  unfold name
  rw [hancestor]
  cases t.ancestor? tag depth with
  | none => rfl
  | some i => rfl

end Tree

end TreeBorrows
