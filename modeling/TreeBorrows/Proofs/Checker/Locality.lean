/-
# What an event at one allocation looks at, and what it changes

Most events name one allocation (`Event.allocation?`).  They look at that allocation, at the
protectors of its tags, and at nothing else that another event at another allocation could have
changed; and they change nothing else that such an event could look at.  This module says so in
three ways.

* **The others are not looked at.**  An event does the same where another allocation is forgotten
  (`perform_forget`).
* **The others are not changed** (`beside_perform`).  What an event changes besides its own
  allocation is the number of the next tag and the protector of a tag that it makes; an event that
  derives nothing changes nothing besides its own allocation (`forget_perform`).
* **An event that derives nothing depends on its own allocation**, on the settings and on the
  protectors of the allocation's own tags (`perform_congr`).
-/
import TreeBorrows.Proofs.Checker.Grants
import TreeBorrows.Proofs.Tree.Merging
import TreeBorrows.Proofs.Tree.Surroundings

namespace TreeBorrows

/-! ## 1. Events at one allocation -/

namespace Event

/-- The allocation that an event names, if it names one. -/
def allocation? : Event → Option AllocationId
  | .drop a => some a
  | .free p | .derive p _ _ _ | .retag p _ _ _ _ | .access p _ _ | .name p _ | .permissionAt p _ =>
    some p.alloc
  | .allocate _ | .drawCall | .enter _ _ | .exit _ | .openCall _ => none

/-- The event derives a pointer. -/
def derives : Event → Bool
  | .derive _ _ _ _ | .retag _ _ _ _ _ => true
  | _ => false

end Event

namespace Checker

variable {k k' : Checker} {a b : AllocationId}

/-! ## 2. Another allocation forgotten -/

/-- The checker without an allocation. -/
def forget (b : AllocationId) (k : Checker) : Checker :=
  { k with allocations := k.allocations.erase b }

theorem get?_forget_of_ne (k : Checker) (h : a ≠ b) :
    (k.forget b).allocations.get? a = k.allocations.get? a := by
  rw [forget, Table.get?_erase, if_neg h]

theorem requireLive_forget (k : Checker) {p : Pointer} (h : p.alloc ≠ b) (op : Operation) :
    (k.forget b).requireLive p op = k.requireLive p op := by
  unfold requireLive
  rw [get?_forget_of_ne k h]

theorem putTree_forget (k : Checker) (h : a ≠ b) (x : Allocation) (t : Tree) :
    (k.forget b).putTree a x t = (k.putTree a x t).forget b := by
  unfold putTree forget
  rw [Table.erase_insert_of_ne _ h]

theorem onTree_forget {α : Type} (k : Checker) {p : Pointer} (h : p.alloc ≠ b) (op : Operation)
    (f : Context → Tree → Outcome Tree α) :
    (k.forget b).onTree p op f = (k.onTree p op f).mapState (forget b) := by
  unfold onTree
  rw [requireLive_forget k h]
  cases k.requireLive p op with
  | error e => rfl
  | ok x =>
    have hput : (k.forget b).putTree p.alloc x = fun t => (k.putTree p.alloc x t).forget b :=
      funext fun t => putTree_forget k h x t
    dsimp only
    rw [hput]
    rfl

theorem drop_forget (k : Checker) (h : a ≠ b) :
    (k.forget b).drop a = (k.drop a).mapState (forget b) := by
  unfold drop Table.contains
  rw [get?_forget_of_ne k h]
  split
  · simp only [forget, Table.erase_comm k.allocations b a]
    rfl
  · rfl

theorem free_forget (k : Checker) {p : Pointer} (h : p.alloc ≠ b) :
    (k.forget b).free p = (k.free p).mapState (forget b) := by
  unfold free
  rw [onTree_forget k h]
  exact Outcome.mapState_andThen fun _ _ => drop_forget _ h

theorem keepTag_forget (k : Checker) {p : Pointer} (h : p.alloc ≠ b) (range : ByteRange)
    (d : Derivation) :
    (k.forget b).keepTag p range d = (k.keepTag p range d).mapState (forget b) := by
  unfold keepTag
  rw [onTree_forget k h]
  exact Outcome.mapState_andThen fun _ _ => rfl

theorem newTag_forget (k : Checker) {p : Pointer} (h : p.alloc ≠ b) (range : ByteRange)
    (permission : Permission) (isProtected : Bool) :
    (k.forget b).newTag p range permission isProtected =
      (k.newTag p range permission isProtected).mapState (forget b) := by
  have hfresh : (k.forget b).freshTag = (k.freshTag.1.forget b, k.freshTag.2) := rfl
  unfold newTag
  rw [hfresh]
  dsimp only
  rw [onTree_forget k.freshTag.1 h]
  exact Outcome.mapState_andThen fun _ _ => rfl

theorem reborrow_forget (k : Checker) {p : Pointer} (h : p.alloc ≠ b) (range : ByteRange)
    (d : Derivation) (cell isProtected : Bool) :
    (k.forget b).reborrow p range d cell isProtected =
      (k.reborrow p range d cell isProtected).mapState (forget b) := by
  unfold reborrow
  rw [requireLive_forget k h]
  cases k.requireLive p .retag with
  | error e => rfl
  | ok x =>
    cases d.permission? cell with
    | none => exact keepTag_forget k h range d
    | some permission => exact newTag_forget k h range permission isProtected

theorem holdTag_forget (k : Checker) (b : AllocationId) (p : Pointer) (kind : Protection) :
    (k.forget b).holdTag p kind = (k.holdTag p kind).mapState (forget b) :=
  rfl

theorem retag_forget (k : Checker) {p : Pointer} (h : p.alloc ≠ b) (range : ByteRange)
    (d : Derivation) (cell : Bool) (kind : Protection) :
    (k.forget b).retag p range d cell kind =
      (k.retag p range d cell kind).mapState (forget b) := by
  have hdepth : (k.forget b).calls = k.calls := rfl
  unfold retag
  rw [hdepth]
  dsimp only
  rw [reborrow_forget k h]
  refine congrArg (Outcome.after _) (Outcome.mapState_andThen fun tag? _ => ?_)
  cases tag? with
  | none => rfl
  | some tag =>
    dsimp only
    split
    · rw [holdTag_forget]
      exact Outcome.mapState_andThen fun _ _ => rfl
    · rfl

theorem name_forget (k : Checker) {p : Pointer} (h : p.alloc ≠ b) (s : String) :
    (k.forget b).name p s = (k.name p s).mapState (forget b) := by
  unfold name nameAncestor editTree
  rw [requireLive_forget k h]
  cases k.requireLive p .inspect with
  | error e => rfl
  | ok x =>
    dsimp only
    cases x.tree.name p.tag 0 s with
    | error e => rfl
    | ok t =>
      have hput := putTree_forget k h x t
      simp only [Except.map, Outcome.ofEdit, hput]
      rfl

/-- **An event does not look at another allocation**: it ends in the same way, with the same
messages and the same state, where that allocation is forgotten. -/
theorem perform_forget (k : Checker) {e : Event} (he : e.allocation? = some a) (hab : a ≠ b) :
    (k.forget b).perform e = (k.perform e).mapState (forget b) := by
  cases e with
  | allocate size => cases he
  | drop a' =>
    obtain rfl := Option.some.inj he
    exact congrArg (Outcome.mapAnswer _) (drop_forget k hab)
  | free p =>
    obtain rfl := Option.some.inj he
    exact congrArg (Outcome.mapAnswer _) (free_forget k hab)
  | derive p range d cell =>
    obtain rfl := Option.some.inj he
    exact congrArg (Outcome.mapAnswer _) (retag_forget k hab range d cell .none)
  | retag p range d cell kind =>
    obtain rfl := Option.some.inj he
    exact congrArg (Outcome.mapAnswer _) (retag_forget k hab range d cell kind)
  | access p range kind =>
    obtain rfl := Option.some.inj he
    exact congrArg (Outcome.mapAnswer _) (onTree_forget k hab _ _)
  | drawCall => cases he
  | enter call ps => cases he
  | exit call => cases he
  | openCall ps => cases he
  | name p s =>
    obtain rfl := Option.some.inj he
    exact congrArg (Outcome.mapAnswer _) (name_forget k hab s)
  | permissionAt p o =>
    obtain rfl := Option.some.inj he
    have hasks : (k.forget b).permissionAt p o = k.permissionAt p o := by
      unfold permissionAt stateOf askTree
      rw [requireLive_forget k hab]
    simp only [perform, hasks]
    rfl

/-! ## 3. What is changed besides -/

/-- Besides an allocation, nothing has changed that is older than the next tag. -/
structure Beside (a : AllocationId) (k k' : Checker) : Prop where
  settings_eq : k'.settings = k.settings
  get?_eq : ∀ {c}, c ≠ a → k'.allocations.get? c = k.allocations.get? c
  protector_eq : ∀ {tag : Tag}, tag.number < k.nextTag →
    k'.protectors.get? tag = k.protectors.get? tag

/-- A checker that differs in one allocation only differs in nothing besides it. -/
theorem Beside.of_forget (h : k'.forget a = k.forget a) : k.Beside a k' where
  settings_eq := by
    have hsettings := congrArg Checker.settings h
    exact hsettings
  get?_eq {c} hc := by
    rw [← get?_forget_of_ne k' hc, h, get?_forget_of_ne k hc]
  protector_eq {tag} _ := by
    have hprotectors := congrArg Checker.protectors h
    exact congrArg (Table.get? · tag) hprotectors

theorem Beside.refl (a : AllocationId) (k : Checker) : k.Beside a k := .of_forget rfl

theorem forget_putTree (k : Checker) (a : AllocationId) (x : Allocation) (t : Tree) :
    (k.putTree a x t).forget a = k.forget a := by
  unfold putTree forget
  rw [Table.erase_insert_self]

theorem forget_onTree {α : Type} (k : Checker) (p : Pointer) (op : Operation)
    (f : Context → Tree → Outcome Tree α) :
    (k.onTree p op f).state.forget p.alloc = k.forget p.alloc := by
  rcases onTree_cases k p op f with ⟨e, heq⟩ | ⟨x, -, heq⟩
  · rw [heq]
    rfl
  · rw [heq]
    exact forget_putTree k p.alloc x _

theorem forget_drop (k : Checker) (a : AllocationId) : (k.drop a).state.forget a = k.forget a := by
  unfold drop
  split
  · simp only [Outcome.state_after, Outcome.ok, forget, Table.erase_erase]
  · rfl

/-- **An event that derives nothing changes nothing besides its own allocation.** -/
theorem forget_perform (k : Checker) {e : Event} (he : e.allocation? = some a)
    (hd : e.derives = false) : (k.perform e).state.forget a = k.forget a := by
  cases e with
  | allocate size => cases he
  | drop a' =>
    obtain rfl := Option.some.inj he
    exact forget_drop k a'
  | free p =>
    obtain rfl := Option.some.inj he
    have htree := forget_onTree k p .dealloc fun ctx t => t.free ctx p.tag
    exact Outcome.state_andThen (P := fun s => forget p.alloc s = k.forget p.alloc) htree
      fun _ _ => (forget_drop _ p.alloc).trans htree
  | derive p range d cell => cases hd
  | retag p range d cell kind => cases hd
  | access p range kind =>
    obtain rfl := Option.some.inj he
    exact forget_onTree k p _ _
  | drawCall => cases he
  | enter call ps => cases he
  | exit call => cases he
  | openCall ps => cases he
  | name p s =>
    obtain rfl := Option.some.inj he
    show (k.name p s).state.forget p.alloc = k.forget p.alloc
    unfold name nameAncestor
    cases hres : k.editTree p .inspect (·.name p.tag 0 s) with
    | error e => rfl
    | ok k' =>
      obtain ⟨x, t, -, -, rfl⟩ := editTree_eq_ok hres
      exact forget_putTree k p.alloc x t
  | permissionAt p o => rfl

theorem beside_newTag (k : Checker) (p : Pointer) (range : ByteRange) (permission : Permission)
    (isProtected : Bool) :
    k.Beside p.alloc (k.newTag p range permission isProtected).state := by
  rcases state_newTag k p range permission isProtected with heq | ⟨x, -, heq⟩
  · rw [heq]
    exact ⟨rfl, fun _ => rfl, fun _ => rfl⟩
  · rw [heq]
    refine ⟨rfl, fun {c} hc => ?_, fun _ => rfl⟩
    rw [putTree, Table.get?_insert, if_neg hc]
    rfl

/-- A protector for the next tag is nothing that was there before. -/
theorem Beside.holdTag (h : k.Beside a k') (b : AllocationId) (kind : Protection) :
    k.Beside a (k'.holdTag ⟨b, ⟨k.nextTag⟩⟩ kind).state where
  settings_eq := h.settings_eq
  get?_eq hc := h.get?_eq hc
  protector_eq {tag} htag := by
    have hne : tag ≠ ⟨k.nextTag⟩ := fun heq => Nat.lt_irrefl _ (heq ▸ htag)
    show (k'.protectors.insert ⟨k.nextTag⟩ kind).get? tag = _
    rw [Table.get?_insert, if_neg hne]
    exact h.protector_eq htag

theorem beside_retag (k : Checker) (p : Pointer) (range : ByteRange) (d : Derivation)
    (cell : Bool) (kind : Protection) :
    k.Beside p.alloc (k.retag p range d cell kind).state := by
  rcases retag_cases k p range d cell kind with
    ⟨isProtected, heq, -⟩ | ⟨permission, -, -, -, -, heq⟩
  · rw [heq]
    rcases reborrow_cases k p range d cell isProtected with
      ⟨e, heq⟩ | heq | ⟨permission, -, heq⟩
    · rw [heq]
      exact .refl p.alloc k
    · rw [heq, state_keepTag]
      exact .of_forget (forget_onTree k p .retag _)
    · rw [heq]
      exact beside_newTag k p range permission isProtected
  · rw [heq]
    exact (beside_newTag k p range permission true).holdTag p.alloc kind

/-- **What an event changes besides its own allocation** is younger than every tag there is. -/
theorem beside_perform (k : Checker) {e : Event} (he : e.allocation? = some a) :
    k.Beside a (k.perform e).state := by
  cases hd : e.derives with
  | false => exact .of_forget (forget_perform k he hd)
  | true =>
    cases e with
    | derive p range d cell =>
      obtain rfl := Option.some.inj he
      exact beside_retag k p range d cell .none
    | retag p range d cell kind =>
      obtain rfl := Option.some.inj he
      exact beside_retag k p range d cell kind
    | _ => cases hd

/-! ## 4. What an event depends on -/

/-- The checkers hold the same allocation under a name. -/
def SameAt (b : AllocationId) (k k' : Checker) : Prop :=
  k'.allocations.get? b = k.allocations.get? b

theorem SameAt.putTree (k k' : Checker) (b : AllocationId) (x : Allocation) (t : Tree) :
    SameAt b (k.putTree b x t) (k'.putTree b x t) := by
  unfold SameAt Checker.putTree
  rw [Table.get?_insert, Table.get?_insert, if_pos rfl, if_pos rfl]

theorem SameAt.requireLive_eq {p : Pointer} (h : SameAt p.alloc k k') (op : Operation) :
    k'.requireLive p op = k.requireLive p op := by
  unfold requireLive
  rw [show k'.allocations.get? p.alloc = k.allocations.get? p.alloc from h]

theorem SameAt.onTree {α : Type} {p : Pointer} (h : SameAt p.alloc k k') (op : Operation)
    {f : Context → Tree → Outcome Tree α}
    (hf : ∀ x, k.allocations.get? p.alloc = some x →
      f (k'.context p.alloc) x.tree = f (k.context p.alloc) x.tree) :
    Outcome.Agree (SameAt p.alloc) (k.onTree p op f) (k'.onTree p op f) := by
  have hlive : k'.allocations.get? p.alloc = k.allocations.get? p.alloc := h
  unfold Checker.onTree requireLive
  rw [hlive]
  cases hx : k.allocations.get? p.alloc with
  | none => exact ⟨rfl, h⟩
  | some x =>
    dsimp only
    rw [hf x hx]
    exact ⟨rfl, SameAt.putTree k k' p.alloc x _⟩

theorem SameAt.drop (h : SameAt b k k') : Outcome.Agree (SameAt b) (k.drop b) (k'.drop b) := by
  have hlive : k'.allocations.contains b = k.allocations.contains b := congrArg Option.isSome h
  unfold Checker.drop
  rw [hlive]
  split
  · refine ⟨rfl, ?_⟩
    show (k'.allocations.erase b).get? b = (k.allocations.erase b).get? b
    rw [Table.get?_erase, Table.get?_erase, if_pos rfl, if_pos rfl]
  · exact ⟨rfl, h⟩

/-- **An event that derives nothing depends on its own allocation only**, on the settings, and on
the protectors that were there before the next tag. -/
theorem perform_congr (hs : k.Sound) (h : k.Beside a k') {e : Event}
    (he : e.allocation? = some b) (hd : e.derives = false) (hab : a ≠ b) :
    Outcome.Agree (SameAt b) (k.perform e) (k'.perform e) := by
  have hat : SameAt b k k' := h.get?_eq hab.symm
  have hsees : ∀ x, k.allocations.get? b = some x →
      x.tree.SeesAlike (k.context b) (k'.context b) := by
    intro x hx
    refine ⟨h.settings_eq, rfl, fun {i n} hn => h.protector_eq (hs.tag_lt hx ?_)⟩
    exact (hs.tree hx).mem_tags_iff.mpr ⟨i, n, hn, rfl⟩
  cases e with
  | allocate size => cases he
  | drop a' =>
    obtain rfl := Option.some.inj he
    exact hat.drop.mapAnswer _
  | free p =>
    obtain rfl := Option.some.inj he
    have htree := hat.onTree .dealloc (f := fun ctx t => t.free ctx p.tag) fun x hx =>
      (hsees x hx).free_eq p.tag
    exact (htree.andThen fun _ _ => SameAt.drop htree.state).mapAnswer _
  | derive p range d cell => cases hd
  | retag p range d cell kind => cases hd
  | access p range kind =>
    obtain rfl := Option.some.inj he
    exact (hat.onTree _ fun x hx => (hsees x hx).access_eq _).mapAnswer _
  | drawCall => cases he
  | enter call ps => cases he
  | exit call => cases he
  | openCall ps => cases he
  | name p s =>
    obtain rfl := Option.some.inj he
    refine Outcome.Agree.mapAnswer ?_ _
    unfold name nameAncestor editTree
    rw [hat.requireLive_eq]
    cases k.requireLive p .inspect with
    | error e => exact ⟨rfl, hat⟩
    | ok x =>
      dsimp only
      cases x.tree.name p.tag 0 s with
      | error e => exact ⟨rfl, hat⟩
      | ok t => exact ⟨rfl, SameAt.putTree k k' p.alloc x t⟩
  | permissionAt p o =>
    obtain rfl := Option.some.inj he
    have hasks : k'.permissionAt p o = k.permissionAt p o := by
      unfold permissionAt stateOf askTree
      rw [hat.requireLive_eq]
    refine ⟨?_, hat⟩
    simp only [perform, hasks]

end Checker

end TreeBorrows
