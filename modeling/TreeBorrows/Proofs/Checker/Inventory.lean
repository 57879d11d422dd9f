/-
# What an event makes of the allocations, as its answer tells

A program cannot look into a checker.  All that it learns is how its events end, and that is enough
to know which allocations are live, how large they are and which tags they have: the inventory of
the checker.  An event makes an allocation if it answers with its first pointer, ends one if it is a
drop or a free that is carried out, and adds a tag to one if it answers with the tag; that is its
deed.  Every other event, and every event that is refused, leaves the inventory as it was
(`inventory_perform`).

A fault is the one ending that may leave more behind than it tells: a tag that is in a tree, and
that nobody was told of.
-/
import Mathlib.Data.Set.Card
import TreeBorrows.Proofs.Checker.Scopes

namespace TreeBorrows

/-! ## 1. Deeds -/

/-- What an event did to the allocations. -/
inductive Deed where
  /-- It made an allocation of this size, and answered with the first pointer. -/
  | issued (pointer : Pointer) (size : Nat)
  /-- It ended an allocation. -/
  | ended (alloc : AllocationId)
  /-- It derived a pointer that has a tag of its own. -/
  | derived (pointer : Pointer)
deriving DecidableEq

/-- What an event that ended in this way did, if it did anything to the allocations. -/
def Event.deed? : Event → Except Failure Answer → Option Deed
  | .allocate size, .ok (.pointer p) => some (.issued p size)
  | .drop a, .ok _ => some (.ended a)
  | .free p, .ok _ => some (.ended p.alloc)
  | .derive p _ _ _, .ok (.tag (some tag)) => some (.derived ⟨p.alloc, tag⟩)
  | .retag p _ _ _ _, .ok (.tag (some tag)) => some (.derived ⟨p.alloc, tag⟩)
  | _, _ => none

/-- The size of each live allocation, and its tags, oldest first. -/
abbrev Inventory := AllocationId → Option (Nat × List Tag)

namespace Inventory

/-- The inventory after a deed. -/
def book (held : Inventory) : Deed → Inventory
  | .issued p size => Function.update held p.alloc (some (size, [p.tag]))
  | .ended a => Function.update held a none
  | .derived p => Function.update held p.alloc
      ((held p.alloc).map fun (size, tags) => (size, tags ++ [p.tag]))

/-- The inventory after an event that ended in this way. -/
def after (held : Inventory) (e : Event) (result : Except Failure Answer) : Inventory :=
  (e.deed? result).elim held held.book

theorem after_error (held : Inventory) (e : Event) (f : Failure) :
    held.after e (.error f) = held := by
  cases e <;> rfl

end Inventory

/-! ## 2. Tables with one entry for each key -/

namespace Table

variable {K V : Type} [DecidableEq K] {t : Table K V}

/-- No key stands twice. -/
def Distinct (t : Table K V) : Prop := (t.entries.map Prod.fst).Nodup

theorem Distinct.insert (h : t.Distinct) (k : K) (v : V) : (t.insert k v).Distinct := by
  obtain ⟨entries⟩ := t
  show ((insert.put k v entries).map Prod.fst).Nodup
  have hmem : ∀ (es : List (K × V)) k', k' ∈ (insert.put k v es).map Prod.fst →
      k' = k ∨ k' ∈ es.map Prod.fst := by
    intro es
    induction es with
    | nil => simp [insert.put]
    | cons e rest ih => grind [insert.put]
  unfold Distinct at h
  dsimp only at h
  induction entries with
  | nil => simp [insert.put]
  | cons e rest ih => grind [insert.put]

theorem Distinct.erase (h : t.Distinct) (k : K) : (t.erase k).Distinct :=
  List.Nodup.sublist (List.filter_sublist.map _) h

end Table

/-! ## 3. Trees -/

namespace Tree

variable {t t' : Tree} {prot : Tag → Bool} {ctx : Context}

/-- The second tree has the size and the tags of the first one. -/
structure KeepsTags (t t' : Tree) : Prop where
  size_eq : t'.size = t.size
  tags_eq : t'.tags = t.tags

theorem SameNodes.keepsTags (h : t.SameNodes t') : t.KeepsTags t' := ⟨h.size_eq, h.tags_eq⟩

/-- A node that is refused is not inserted. -/
theorem keepsTags_of_insertChild_eq_error (h : t.Sound ctx.isProtected) {c : NewChild} {e : Error}
    (he : (t.insertChild ctx c).result = .error (.error e)) :
    t.KeepsTags (t.insertChild ctx c).state := by
  obtain ⟨bytes, heq, hval⟩ := redivided_insertChild h he
  rw [heq]
  exact ⟨RunMap.size_eq_of_valueAt? hval, rfl⟩

/-- A node that is accepted is the last one. -/
theorem keys_of_insertChild_eq_ok (h : t.Sound ctx.isProtected) {c : NewChild}
    (hok : (t.insertChild ctx c).result = .ok ()) :
    (t.insertChild ctx c).state.tags.keys = t.tags.keys ++ [c.tag] := by
  rcases insertChild_cases h c with ⟨e, t', messages, heq, -, -⟩ |
    ⟨f, t', messages, heq, -, -⟩ | ⟨t', parent, tags, i, messages, -, htags, -, hins, heq⟩
  · rw [heq] at hok
    cases hok
  · rw [heq] at hok
    cases hok
  · obtain ⟨-, -, hkeys, -⟩ := Registry.insert_eq_ok_iff.mp hins
    rw [heq, Outcome.state_after, (sameNodes_tidied _).tags_eq, tags_attach, hkeys, htags]

end Tree

/-! ## 4. Inventories -/

namespace Checker

variable {k k' k'' : Checker} {a : AllocationId} {x : Allocation}

/-- What is known of the allocations. -/
def inventory (k : Checker) : Inventory := fun a =>
  (k.allocations.get? a).map fun x => (x.tree.size, x.tree.tags.keys)

theorem inventory_of_get? (hx : k.allocations.get? a = some x) :
    k.inventory a = some (x.tree.size, x.tree.tags.keys) :=
  congrArg (Option.map _) hx

theorem isSome_inventory : (k.inventory a).isSome ↔ (k.allocations.get? a).isSome := by
  rw [inventory, Option.isSome_map]

theorem inventory_putTree (k : Checker) (a : AllocationId) (x : Allocation) (t : Tree) :
    (k.putTree a x t).inventory = Function.update k.inventory a (some (t.size, t.tags.keys)) := by
  funext b
  unfold inventory putTree
  rw [Function.update_apply, Table.get?_insert]
  split <;> rfl

theorem inventory_allocate (k : Checker) (size : Nat) :
    (k.allocate size).state.inventory =
      k.inventory.book (.issued ⟨⟨k.nextAlloc⟩, ⟨k.nextTag⟩⟩ size) := by
  funext b
  have hget : (k.allocate size).state.allocations.get? b = if b = ⟨k.nextAlloc⟩ then
      some ⟨size, .new ⟨k.nextTag⟩ size k.settings⟩ else k.allocations.get? b :=
    Table.get?_insert _ _ _ _
  rw [Inventory.book, Function.update_apply]
  unfold inventory
  rw [hget]
  split
  · exact congrArg (fun n => some (n, [Tag.mk k.nextTag])) (RunMap.size_ofSize size _)
  · rfl

theorem inventory_drop (k : Checker) (a : AllocationId) :
    (k.drop a).state.inventory = k.inventory.book (.ended a) := by
  funext b
  have hget : (k.drop a).state.allocations.get? b =
      if b = a then none else k.allocations.get? b := by
    unfold drop
    split
    · exact Table.get?_erase _ _ _
    · next hdead =>
      have hnone : k.allocations.get? a = none := by
        simpa [Table.contains] using hdead
      split
      · next hb => exact hb ▸ hnone
      · rfl
  rw [Inventory.book, Function.update_apply]
  unfold inventory
  rw [hget]
  split <;> rfl

/-- The inventory is the same, and the table of allocations is no worse than before. -/
structure Keeps (k k' : Checker) : Prop where
  inventory_eq : k'.inventory = k.inventory
  distinct : k.allocations.Distinct → k'.allocations.Distinct

namespace Keeps

theorem of_eq (h : k'.allocations = k.allocations) : k.Keeps k' where
  inventory_eq := by
    unfold inventory
    rw [h]
  distinct := h ▸ id

theorem refl (k : Checker) : k.Keeps k := .of_eq rfl

theorem trans (h : k.Keeps k') (h' : k'.Keeps k'') : k.Keeps k'' where
  inventory_eq := h'.inventory_eq.trans h.inventory_eq
  distinct := h'.distinct ∘ h.distinct

theorem putTree (hx : k.allocations.get? a = some x) {t : Tree} (ht : x.tree.KeepsTags t) :
    k.Keeps (k.putTree a x t) where
  inventory_eq := by
    rw [inventory_putTree, ht.size_eq, ht.tags_eq, ← inventory_of_get? hx,
      Function.update_eq_self]
  distinct h := h.insert a _

theorem onTree {α : Type} (hs : k.Sound) (p : Pointer) (op : Operation)
    {f : Context → Tree → Outcome Tree α}
    (hf : ∀ {t : Tree}, t.Sound (k.context p.alloc).isProtected →
      t.KeepsTags (f (k.context p.alloc) t).state) : k.Keeps (k.onTree p op f).state := by
  rcases onTree_cases k p op f with ⟨e, heq⟩ | ⟨x, hx, heq⟩
  · rw [heq]
    exact .refl k
  · rw [heq]
    exact .putTree hx (hf (hs.tree hx))

end Keeps

theorem keeps_access (h : k.Sound) (p : Pointer) (op : Operation) (range : ByteRange)
    (kind : AccessKind) (cause : Cause) :
    k.Keeps (k.onTree p op fun ctx t => t.access ctx ⟨p.tag, range, kind, cause⟩).state :=
  .onTree h p op fun _ => (Tree.sameNodes_access _ _ _).keepsTags

theorem keeps_name (h : k.Sound) (p : Pointer) (s : String) : k.Keeps (k.name p s).state := by
  unfold name nameAncestor
  cases hres : k.editTree p .inspect (·.name p.tag 0 s) with
  | error e => exact .refl k
  | ok k' =>
    obtain ⟨x, t, hx, ht, rfl⟩ := editTree_eq_ok hres
    exact .putTree hx ⟨(Tree.extends_name ht).size_eq, (Tree.sound_name (h.tree hx) ht).2⟩

theorem keeps_protect (h : k.Sound) (call : CallId) (p : Pointer) :
    k.Keeps (k.protect call p).1 := by
  unfold protect prepareProtection
  cases hres : k.editTree p .protect (·.resetAbsorption p.tag) with
  | error e => exact .refl k
  | ok k' =>
    obtain ⟨x, t, hx, ht, rfl⟩ := editTree_eq_ok hres
    have htags := (Tree.sound_resetAbsorption (h.tree hx) ht fun _ _ _ hp => hp).2.1
    have hput := Keeps.putTree hx ⟨(Tree.extends_resetAbsorption ht).size_eq, htags⟩
    exact hput.trans (.of_eq rfl)

theorem keeps_protectAll (h : k.Sound) (call : CallId) (ps : List Pointer) :
    k.Keeps (k.protectAll call ps).1 := by
  induction ps generalizing k with
  | nil => exact .refl k
  | cons p ps ih => exact (keeps_protect h call p).trans (ih (h.protect call p))

theorem keeps_enter (h : k.Sound) (call : CallId) (ps : List Pointer) :
    k.Keeps (k.enter call ps).state := by
  have hs : Sound { k with calls := k.calls.push call } := h.congr rfl rfl (Nat.le_refl _)
  have hpush : k.Keeps { k with calls := k.calls.push call } := .of_eq rfl
  exact hpush.trans (keeps_protectAll hs call ps)

theorem keeps_exit (k : Checker) (call : CallId) : k.Keeps (k.exit call).state := by
  cases hpop : k.calls.popThrough? call with
  | none =>
    rw [exit_of_popThrough?_eq_none hpop]
    exact .refl k
  | some r =>
    have hstate := congrArg Checker.allocations (exit_of_popThrough? hpop).1
    exact .of_eq hstate

/-- An event that has no deed however it is answered leaves everything as it was. -/
theorem keeps_perform (h : k.Sound) {e : Event} (he : ∀ answer, e.deed? (.ok answer) = none) :
    k.Keeps (k.perform e).state := by
  cases e with
  | access p range kind => exact keeps_access h p _ range kind _
  | drawCall => exact .of_eq rfl
  | enter call ps => exact keeps_enter h call ps
  | exit call => exact keeps_exit k call
  | openCall ps =>
    have hs : k.freshCall.1.Sound := h.congr rfl rfl (Nat.le_refl _)
    have hfresh : k.Keeps k.freshCall.1 := .of_eq rfl
    exact hfresh.trans (keeps_enter hs k.freshCall.2 ps)
  | name p s => exact keeps_name h p s
  | permissionAt p o => exact .refl k
  | allocate _ => cases he (.pointer ⟨⟨0⟩, ⟨0⟩⟩)
  | drop _ | free _ => cases he .done
  | derive _ _ _ _ | retag _ _ _ _ _ => cases he (.tag (some ⟨0⟩))

/-! ## 5. Derived pointers -/

section Derived

variable {p : Pointer} {range : ByteRange} {permission : Permission} {isProtected : Bool}

/-- A new tag ends as its insertion does, if there is a tree to insert it into. -/
theorem newTag_cases (k : Checker) (p : Pointer) (range : ByteRange) (permission : Permission)
    (isProtected : Bool) :
    (∃ e, (k.newTag p range permission isProtected).result = .error (.error e) ∧
      (k.newTag p range permission isProtected).state = k.freshTag.1) ∨
    ∃ x o, k.allocations.get? p.alloc = some x ∧
      o = x.tree.insertChild (k.context p.alloc)
        ⟨p.tag, ⟨k.nextTag⟩, permission, isProtected, range⟩ ∧
      (k.newTag p range permission isProtected).result =
        o.result.map (fun _ => some ⟨k.nextTag⟩) ∧
      (k.newTag p range permission isProtected).state = k.freshTag.1.putTree p.alloc x o.state := by
  have hnew : ∀ o, (k.freshTag.1.onTree p .retag fun ctx t => t.insertChild ctx
      ⟨p.tag, ⟨k.nextTag⟩, permission, isProtected, range⟩) = o →
        (k.newTag p range permission isProtected).result =
          o.result.map (fun _ => some ⟨k.nextTag⟩) ∧
        (k.newTag p range permission isProtected).state = o.state := by
    rintro o rfl
    unfold newTag Outcome.andThen
    dsimp only [freshTag]
    split
    · next hres =>
      rw [hres]
      exact ⟨rfl, rfl⟩
    · next hres =>
      rw [hres]
      exact ⟨rfl, rfl⟩
  rcases onTree_cases k.freshTag.1 p .retag fun ctx t => t.insertChild ctx
      ⟨p.tag, ⟨k.nextTag⟩, permission, isProtected, range⟩ with ⟨e, heq⟩ | ⟨x, hx, heq⟩
  · obtain ⟨hres, hstate⟩ := hnew _ heq
    exact .inl ⟨e, hres, hstate⟩
  · obtain ⟨hres, hstate⟩ := hnew _ heq
    exact .inr ⟨x, _, hx, rfl, hres, hstate⟩

/-- A new tag that is refused is in no tree. -/
theorem keeps_newTag_of_eq_error (h : k.Sound) {e : Error}
    (he : (k.newTag p range permission isProtected).result = .error (.error e)) :
    k.Keeps (k.newTag p range permission isProtected).state := by
  have hfresh : k.Keeps k.freshTag.1 := .of_eq rfl
  rcases newTag_cases k p range permission isProtected with ⟨-, -, hstate⟩ |
    ⟨x, o, hx, ho, hres, hstate⟩
  · rw [hstate]
    exact hfresh
  · have hx' : k.freshTag.1.allocations.get? p.alloc = some x := hx
    rw [hres] at he
    have he : o.result = .error (.error e) := Outcome.mapAnswer_eq_error he
    rw [ho] at he
    rw [hstate, ho]
    exact hfresh.trans (.putTree hx' (Tree.keepsTags_of_insertChild_eq_error (h.tree hx) he))

/-- A new tag that is accepted is answered, and is the last one of its tree. -/
theorem inventory_newTag (h : k.Sound) (hperm : permission ≠ .active) {t? : Option Tag}
    (hok : (k.newTag p range permission isProtected).result = .ok t?) :
    t? = some ⟨k.nextTag⟩ ∧
      (k.newTag p range permission isProtected).state.inventory =
        k.inventory.book (.derived ⟨p.alloc, ⟨k.nextTag⟩⟩) := by
  refine ⟨answer_newTag hok, ?_⟩
  rcases newTag_cases k p range permission isProtected with ⟨e, hres, -⟩ |
    ⟨x, o, hx, ho, hres, hstate⟩
  · cases hres.symm.trans hok
  · obtain ⟨_, hins, -⟩ := Outcome.exists_of_mapAnswer_eq_ok (hres.symm.trans hok)
    rw [ho] at hins
    have hs : x.tree.Sound (k.context p.alloc).isProtected := h.tree hx
    have hfresh : k.freshTag.1.inventory = k.inventory := rfl
    rw [hstate, ho, inventory_putTree, Tree.keys_of_insertChild_eq_ok hs hins,
      (Tree.advances_insertChild hs hperm).size_eq, hfresh, Inventory.book, inventory_of_get? hx]
    rfl

/-- A retag ends as the derivation does, with the same trees. -/
theorem retag_eq_reborrow (k : Checker) (p : Pointer) (range : ByteRange) (d : Derivation)
    (cell : Bool) (kind : Protection) :
    ∃ isProtected, (k.retag p range d cell kind).result =
        (k.reborrow p range d cell isProtected).result ∧
      (k.retag p range d cell kind).state.allocations =
        (k.reborrow p range d cell isProtected).state.allocations := by
  refine ⟨kind.protects && decide (0 < k.calls.depth), ?_⟩
  rw [retag, Outcome.state_after, Outcome.result_after]
  cases hres : (k.reborrow p range d cell (kind.protects && decide (0 < k.calls.depth))).result with
  | error f =>
    rw [Outcome.andThen_of_error hres]
    exact ⟨rfl, rfl⟩
  | ok t? =>
    rw [Outcome.andThen_of_ok hres, Outcome.state_after, Outcome.result_after]
    cases t? with
    | none => exact ⟨rfl, rfl⟩
    | some tag =>
      dsimp only
      split
      · exact ⟨rfl, rfl⟩
      · exact ⟨rfl, rfl⟩

theorem inventory_reborrow (h : k.Sound) {d : Derivation} {cell : Bool} {t? : Option Tag}
    (hok : (k.reborrow p range d cell isProtected).result = .ok t?) :
    (k.reborrow p range d cell isProtected).state.inventory =
      t?.elim k.inventory fun tag => k.inventory.book (.derived ⟨p.alloc, tag⟩) := by
  rcases reborrow_cases k p range d cell isProtected with ⟨e, heq⟩ | heq | ⟨permission, hd, heq⟩
  · rw [heq] at hok
    cases hok
  · rw [heq] at hok ⊢
    obtain rfl := answer_keepTag hok
    rw [state_keepTag]
    exact (keeps_access h p .retag range .read .reborrow).inventory_eq
  · rw [heq] at hok ⊢
    obtain ⟨rfl, hstate⟩ := inventory_newTag h (Derivation.ne_active_of_permission? hd) hok
    exact hstate

theorem keeps_reborrow_of_eq_error (h : k.Sound) {d : Derivation} {cell : Bool} {e : Error}
    (he : (k.reborrow p range d cell isProtected).result = .error (.error e)) :
    k.Keeps (k.reborrow p range d cell isProtected).state := by
  rcases reborrow_cases k p range d cell isProtected with ⟨e, heq⟩ | heq | ⟨permission, -, heq⟩
  · rw [heq]
    exact .refl k
  · rw [heq, state_keepTag]
    exact keeps_access h p .retag range .read .reborrow
  · rw [heq] at he ⊢
    exact keeps_newTag_of_eq_error h he

theorem inventory_congr (h : k'.allocations = k.allocations) : k'.inventory = k.inventory :=
  (Keeps.of_eq h).inventory_eq

/-- **A retag adds the tag that it answers**, and nothing else. -/
theorem inventory_retag (h : k.Sound) (p : Pointer) (range : ByteRange) (d : Derivation)
    (cell : Bool) (kind : Protection) :
    (∀ e, (k.retag p range d cell kind).result = .error (.error e) →
      (k.retag p range d cell kind).state.inventory = k.inventory) ∧
    ∀ t?, (k.retag p range d cell kind).result = .ok t? →
      (k.retag p range d cell kind).state.inventory =
        t?.elim k.inventory fun tag => k.inventory.book (.derived ⟨p.alloc, tag⟩) := by
  obtain ⟨isProtected, hres, hstate⟩ := retag_eq_reborrow k p range d cell kind
  rw [hres, inventory_congr hstate]
  exact ⟨fun e he => (keeps_reborrow_of_eq_error h he).inventory_eq,
    fun t? hok => inventory_reborrow h hok⟩

end Derived

/-! ## 6. Events -/

theorem inventory_drop_of_error {e : Error} (he : (k.drop a).result = .error (.error e)) :
    (k.drop a).state.inventory = k.inventory := by
  unfold drop at he ⊢
  split at he
  · cases he
  · next hdead =>
    rw [if_neg hdead]
    rfl

/-- A free that is carried out ends the allocation, and one that is refused does nothing. -/
theorem inventory_free (h : k.Sound) (p : Pointer) :
    (∀ e, (k.free p).result = .error (.error e) → (k.free p).state.inventory = k.inventory) ∧
      ((k.free p).result = .ok () →
        (k.free p).state.inventory = k.inventory.book (.ended p.alloc)) := by
  have htree : k.Keeps (k.onTree p .dealloc fun ctx t => t.free ctx p.tag).state :=
    .onTree h p .dealloc fun _ => (Tree.sameNodes_free _ _ p.tag).keepsTags
  refine ⟨fun e he => ?_, fun hok => ?_⟩
  · rcases Outcome.andThen_eq_error he with ⟨-, hstate⟩ | ⟨_, -, he, hstate⟩
    · exact (congrArg inventory hstate).trans htree.inventory_eq
    · refine (congrArg inventory hstate).trans ?_
      exact (inventory_drop_of_error he).trans htree.inventory_eq
  · unfold free at hok ⊢
    cases hres : (k.onTree p .dealloc fun ctx t => t.free ctx p.tag).result with
    | error f =>
      rw [Outcome.andThen_of_error hres] at hok
      cases hok
    | ok _ =>
      rw [Outcome.andThen_of_ok hres, Outcome.state_after, inventory_drop, htree.inventory_eq]

/-- It is enough to look at answers and at errors of the program. -/
theorem inventory_of_result {α : Type} {o : Outcome Checker α} {g : α → Answer}
    {held : Inventory} {e : Event} (hne : ∀ f, (o.mapAnswer g).result ≠ .error (.fault f))
    (herror : ∀ err, o.result = .error (.error err) → o.state.inventory = held)
    (hok : ∀ answer, o.result = .ok answer →
      o.state.inventory = held.after e (.ok (g answer))) :
    (o.mapAnswer g).state.inventory = held.after e (o.mapAnswer g).result := by
  have hresult : (o.mapAnswer g).result = o.result.map g := rfl
  have hstate : (o.mapAnswer g).state = o.state := rfl
  rw [hresult] at hne ⊢
  rw [hstate]
  cases hres : o.result with
  | ok answer => exact hok answer hres
  | error f =>
    rw [hres] at hne
    cases f with
    | error err => exact (herror err hres).trans (held.after_error e _).symm
    | fault f => exact absurd rfl (hne f)

/-- **What an event makes of the inventory is what its result says**, if it does not fault. -/
theorem inventory_perform (h : k.Sound) (e : Event)
    (hne : ∀ f, (k.perform e).result ≠ .error (.fault f)) :
    (k.perform e).state.inventory = k.inventory.after e (k.perform e).result := by
  cases e with
  | allocate size => exact inventory_allocate k size
  | drop a =>
    exact inventory_of_result hne (fun _ he => inventory_drop_of_error he)
      fun _ _ => inventory_drop k a
  | free p =>
    obtain ⟨herror, hok⟩ := inventory_free h p
    exact inventory_of_result hne herror fun _ hres => hok hres
  | derive p range d cell =>
    obtain ⟨herror, hok⟩ := inventory_retag h p range d cell .none
    refine inventory_of_result hne herror fun t? hres => ?_
    cases t? with
    | none => exact hok none hres
    | some tag => exact hok (some tag) hres
  | retag p range d cell kind =>
    obtain ⟨herror, hok⟩ := inventory_retag h p range d cell kind
    refine inventory_of_result hne herror fun t? hres => ?_
    cases t? with
    | none => exact hok none hres
    | some tag => exact hok (some tag) hres
  | access _ _ _ | drawCall | enter _ _ | exit _ | openCall _ | name _ _ | permissionAt _ _ =>
    exact (keeps_perform h fun _ => rfl).inventory_eq

/-! ## 7. The table -/

theorem distinct_drop (h : k.allocations.Distinct) (a : AllocationId) :
    (k.drop a).state.allocations.Distinct := by
  unfold drop
  split
  · exact h.erase a
  · exact h

theorem distinct_newTag (h : k.allocations.Distinct) (p : Pointer) (range : ByteRange)
    (permission : Permission) (isProtected : Bool) :
    (k.newTag p range permission isProtected).state.allocations.Distinct := by
  rcases state_newTag k p range permission isProtected with heq | ⟨x, -, heq⟩
  · rw [heq]
    exact h
  · rw [heq]
    exact h.insert p.alloc _

theorem distinct_retag (hs : k.Sound) (h : k.allocations.Distinct) (p : Pointer)
    (range : ByteRange) (d : Derivation) (cell : Bool) (kind : Protection) :
    (k.retag p range d cell kind).state.allocations.Distinct := by
  obtain ⟨isProtected, -, hstate⟩ := retag_eq_reborrow k p range d cell kind
  rw [hstate]
  rcases reborrow_cases k p range d cell isProtected with ⟨e, heq⟩ | heq | ⟨permission, -, heq⟩
  · rw [heq]
    exact h
  · rw [heq, state_keepTag]
    exact (keeps_access hs p .retag range .read .reborrow).distinct h
  · rw [heq]
    exact distinct_newTag h p range permission isProtected

/-- No event puts an allocation into the table twice. -/
theorem distinct_perform (hs : k.Sound) (h : k.allocations.Distinct) (e : Event) :
    (k.perform e).state.allocations.Distinct := by
  cases e with
  | allocate size => exact h.insert ⟨k.nextAlloc⟩ _
  | drop a => exact distinct_drop h a
  | free p =>
    have htree : k.Keeps (k.onTree p .dealloc fun ctx t => t.free ctx p.tag).state :=
      .onTree hs p .dealloc fun _ => (Tree.sameNodes_free _ _ p.tag).keepsTags
    exact Outcome.state_andThen (P := fun s : Checker => s.allocations.Distinct) (htree.distinct h)
      fun _ _ => distinct_drop (htree.distinct h) p.alloc
  | derive p range d cell => exact distinct_retag hs h p range d cell .none
  | retag p range d cell kind => exact distinct_retag hs h p range d cell kind
  | access _ _ _ | drawCall | enter _ _ | exit _ | openCall _ | name _ _ | permissionAt _ _ =>
    exact (keeps_perform hs fun _ => rfl).distinct h

theorem Reachable.distinct (hk : k.Reachable) : k.allocations.Distinct :=
  induction (P := fun k => k.allocations.Distinct) (fun _ => List.nodup_nil)
    (fun _ e hk h => distinct_perform hk.sound h e) hk

/-- There are as many live allocations as the inventory has entries. -/
theorem Reachable.liveCount_eq_ncard (hk : k.Reachable) :
    k.liveCount = {a | (k.inventory a).isSome}.ncard := by
  have hset : {a | (k.inventory a).isSome} = ↑(k.allocations.entries.map Prod.fst).toFinset := by
    ext a
    simp [inventory, Table.get?, List.lookup_isSome_iff]
  rw [hset, Set.ncard_coe_finset, List.toFinset_card_of_nodup hk.distinct, List.length_map]
  rfl

end Checker

end TreeBorrows
