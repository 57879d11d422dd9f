/-
# What a run has done, and what is live after it

The deeds of a run are what its events did to the allocations, as their results tell it
(`Checker.deeds`).  An allocation is live if one of them made it and no later one ended it
(`Deed.IsLive`); its size is the one that it was made with (`Deed.HasSize`); and a tag belongs to it
if it is the first one, or was answered by a derivation of the allocation (`Deed.Belongs`).

After a run in which no event faults, the checker holds what the deeds say (`records_deeds`).  That
is an induction over the run, one deed after the other.  What it rests on is that the number of an
allocation is not given out again: else the deeds of an allocation could not be told from those of
an older one under the same number.
-/
import TreeBorrows.Proofs.Checker.Inventory
import TreeBorrows.Proofs.Checker.Locality

namespace TreeBorrows

theorem Pointer.eq_mk_iff {p : Pointer} {a : AllocationId} {tag : Tag} :
    p = ⟨a, tag⟩ ↔ p.alloc = a ∧ p.tag = tag := by
  cases p
  simp

/-! ## 1. What deeds say -/

namespace Deed

variable {ds : List Deed} {d : Deed} {a b : AllocationId} {p : Pointer} {size : Nat}
  {held : Inventory}

/-- One of the deeds made the allocation, and no later one ended it. -/
def IsLive (ds : List Deed) (a : AllocationId) : Prop :=
  ∃ pre p size post, ds = pre ++ issued p size :: post ∧ p.alloc = a ∧ ended a ∉ post

/-- The allocation was made with this size. -/
def HasSize (ds : List Deed) (a : AllocationId) (size : Nat) : Prop :=
  ∃ p, issued p size ∈ ds ∧ p.alloc = a

/-- The pointer is the first one of its allocation, or was derived in it. -/
def Belongs (ds : List Deed) (p : Pointer) : Prop :=
  (∃ size, issued p size ∈ ds) ∨ derived p ∈ ds

theorem not_isLive_nil (a : AllocationId) : ¬IsLive [] a := by
  simp [IsLive]

theorem isLive_append_singleton_iff :
    IsLive (ds ++ [d]) a ↔ (∃ p size, d = issued p size ∧ p.alloc = a) ∨
      IsLive ds a ∧ d ≠ ended a := by
  constructor
  · rintro ⟨pre, p, size, post, heq, hp, hpost⟩
    rcases Checker.append_singleton_eq_iff.mp heq with ⟨-, -, hd⟩ | ⟨post', rfl, rfl⟩
    · exact .inl ⟨p, size, hd, hp⟩
    · simp only [List.mem_append, List.mem_singleton, not_or] at hpost
      exact .inr ⟨⟨pre, p, size, post', rfl, hp, hpost.1⟩, Ne.symm hpost.2⟩
  · rintro (⟨p, size, rfl, hp⟩ | ⟨⟨pre, p, size, post, rfl, hp, hpost⟩, hd⟩)
    · exact ⟨ds, p, size, [], rfl, hp, List.not_mem_nil⟩
    · refine ⟨pre, p, size, post ++ [d], by simp, hp, ?_⟩
      simpa using ⟨hpost, Ne.symm hd⟩

/-- Later deeds that make no such allocation do not bring it back. -/
theorem IsLive.of_append {ds' : List Deed} (h : IsLive (ds ++ ds') a)
    (hnew : ∀ p size, issued p size ∈ ds' → p.alloc ≠ a) : IsLive ds a := by
  induction ds' using List.reverseRecOn with
  | nil => rwa [List.append_nil] at h
  | append_singleton ds' d ih =>
    rw [← List.append_assoc, isLive_append_singleton_iff] at h
    rcases h with ⟨p, size, rfl, hp⟩ | ⟨h, -⟩
    · exact absurd hp (hnew p size (by simp))
    · exact ih h fun p size hmem => hnew p size (List.mem_append_left _ hmem)

theorem hasSize_append_singleton_iff :
    HasSize (ds ++ [d]) a size ↔ HasSize ds a size ∨ ∃ p, d = issued p size ∧ p.alloc = a := by
  unfold HasSize
  simp only [List.mem_append, List.mem_singleton, or_and_right, exists_or, eq_comm]

theorem belongs_append_singleton_iff :
    Belongs (ds ++ [d]) p ↔ Belongs ds p ∨ (∃ size, d = issued p size) ∨ d = derived p := by
  unfold Belongs
  simp only [List.mem_append, List.mem_singleton, exists_or, eq_comm]
  tauto

theorem HasSize.exists_belongs (h : HasSize ds a size) : ∃ tag, Belongs ds ⟨a, tag⟩ := by
  obtain ⟨p, hmem, rfl⟩ := h
  exact ⟨p.tag, .inl ⟨size, hmem⟩⟩

/-! ## 2. Deeds and inventories -/

/-- The inventory is what the deeds say it is. -/
structure Records (ds : List Deed) (held : Inventory) : Prop where
  live : ∀ {a}, (held a).isSome ↔ IsLive ds a
  size : ∀ {a size tags}, held a = some (size, tags) → ∀ {size'}, HasSize ds a size' ↔ size' = size
  tags : ∀ {a size tags}, held a = some (size, tags) → ∀ {tag}, tag ∈ tags ↔ Belongs ds ⟨a, tag⟩

theorem records_nil : Records [] fun _ => none where
  live := by simp [not_isLive_nil]
  size := nofun
  tags := nofun

namespace Records

/-- A new allocation, of which no older deed speaks. -/
theorem issued (h : Records ds held) (hnew : ∀ tag, ¬Belongs ds ⟨p.alloc, tag⟩) (size : Nat) :
    Records (ds ++ [.issued p size]) (held.book (.issued p size)) where
  live {a} := by
    rw [isLive_append_singleton_iff, Inventory.book, Function.update_apply]
    split
    · next ha => simp [ha]
    · next ha =>
      rw [h.live]
      simp [Ne.symm ha]
  size {a n tags} ha n' := by
    rw [Inventory.book, Function.update_apply] at ha
    rw [hasSize_append_singleton_iff]
    split at ha
    · next heq =>
      subst heq
      obtain ⟨rfl, -⟩ := Prod.mk.inj (Option.some.inj ha)
      have hold : ¬HasSize ds p.alloc n' := fun hold =>
        hold.exists_belongs.elim fun tag htag => hnew tag htag
      simp [hold, eq_comm]
    · next hne =>
      rw [h.size ha]
      simp [Ne.symm hne]
  tags {a n tags} ha tag := by
    rw [Inventory.book, Function.update_apply] at ha
    rw [belongs_append_singleton_iff]
    split at ha
    · next heq =>
      subst heq
      obtain ⟨-, rfl⟩ := Prod.mk.inj (Option.some.inj ha)
      simp [hnew tag, Pointer.eq_mk_iff, eq_comm]
    · next hne =>
      rw [h.tags ha]
      simp [Pointer.eq_mk_iff, Ne.symm hne]

/-- The end of an allocation. -/
theorem ended (h : Records ds held) (a : AllocationId) :
    Records (ds ++ [.ended a]) (held.book (.ended a)) where
  live {b} := by
    rw [isLive_append_singleton_iff, Inventory.book, Function.update_apply]
    split
    · next hb => simp [hb]
    · next hb =>
      rw [h.live]
      simp [Ne.symm hb]
  size {b n tags} hb n' := by
    rw [Inventory.book, Function.update_apply] at hb
    split at hb
    · cases hb
    · rw [hasSize_append_singleton_iff, h.size hb]
      simp
  tags {b n tags} hb tag := by
    rw [Inventory.book, Function.update_apply] at hb
    split at hb
    · cases hb
    · rw [belongs_append_singleton_iff, h.tags hb]
      simp

/-- One more tag. -/
theorem derived (h : Records ds held) (p : Pointer) :
    Records (ds ++ [.derived p]) (held.book (.derived p)) where
  live {b} := by
    rw [isLive_append_singleton_iff, Inventory.book, Function.update_apply]
    split
    · next hb =>
      rw [Option.isSome_map, ← hb, h.live]
      simp
    · rw [h.live]
      simp
  size {b n tags} hb n' := by
    rw [Inventory.book, Function.update_apply] at hb
    rw [hasSize_append_singleton_iff]
    split at hb
    · next heq =>
      obtain ⟨⟨m, old⟩, hold, hpair⟩ := Option.map_eq_some_iff.mp hb
      obtain ⟨rfl, -⟩ := Prod.mk.inj hpair
      rw [heq, h.size hold]
      simp
    · rw [h.size hb]
      simp
  tags {b n tags} hb tag := by
    rw [Inventory.book, Function.update_apply] at hb
    rw [belongs_append_singleton_iff]
    split at hb
    · next heq =>
      obtain ⟨⟨m, old⟩, hold, hpair⟩ := Option.map_eq_some_iff.mp hb
      obtain ⟨-, rfl⟩ := Prod.mk.inj hpair
      subst heq
      simp [h.tags hold, Pointer.eq_mk_iff, eq_comm]
    · next hne =>
      rw [h.tags hb]
      simp [Pointer.eq_mk_iff, Ne.symm hne]

end Records

end Deed

/-! ## 3. Single events -/

namespace Event

variable {e : Event} {result : Except Failure Answer} {p : Pointer} {size : Nat}

theorem eq_allocate_of_deed? (h : e.deed? result = some (.issued p size)) :
    e = .allocate size ∧ result = .ok (.pointer p) := by
  unfold deed? at h
  split at h
  · cases h
    exact ⟨rfl, rfl⟩
  all_goals cases h

theorem allocation?_of_deed? (h : e.deed? result = some (.derived p)) :
    e.allocation? = some p.alloc ∧ ∃ answer, result = .ok answer := by
  unfold deed? at h
  split at h
  · cases h
  · cases h
  · cases h
  · cases h
    exact ⟨rfl, _, rfl⟩
  · cases h
    exact ⟨rfl, _, rfl⟩
  · cases h

end Event

namespace Checker

variable {k : Checker} {a : AllocationId} {e : Event}

/-- **An event at an allocation that is not live is refused as such**, whatever else is wrong with
it. -/
theorem useAfterFree_of_get?_eq_none (he : e.allocation? = some a)
    (ha : k.allocations.get? a = none) :
    ∃ r, (k.perform e).result = .error (.error (.useAfterFree r)) := by
  have hdead : ∀ (p : Pointer) op, p.alloc = a →
      k.requireLive p op = .error (.useAfterFree ⟨op, some (.deadPointer p)⟩) := by
    rintro p op rfl
    simp [requireLive, ha]
  have htree : ∀ {α : Type} (p : Pointer) op (f : Context → Tree → Outcome Tree α), p.alloc = a →
      k.onTree p op f = .error k (.useAfterFree ⟨op, some (.deadPointer p)⟩) := by
    intro α p op f hp
    rw [onTree, hdead p op hp]
  have hretag : ∀ (p : Pointer) range d cell kind, p.alloc = a →
      (k.retag p range d cell kind).result =
        .error (.error (.useAfterFree ⟨.retag, some (.deadPointer p)⟩)) := by
    intro p range d cell kind hp
    obtain ⟨isProtected, hres, -⟩ := retag_eq_reborrow k p range d cell kind
    rw [hres, reborrow, hdead p .retag hp]
    rfl
  cases e with
  | drop b =>
    obtain rfl := Option.some.inj he
    have hgone : ¬k.allocations.contains b = true := by
      simp [Table.contains, ha]
    refine ⟨⟨.dealloc, some (.deadAllocation b)⟩, ?_⟩
    rw [perform, drop, if_neg hgone]
    rfl
  | free p =>
    refine ⟨⟨.dealloc, some (.deadPointer p)⟩, ?_⟩
    rw [perform, free, htree p _ _ (Option.some.inj he)]
    rfl
  | derive p range d cell =>
    exact ⟨_, congrArg (Except.map _) (hretag p range d cell .none (Option.some.inj he))⟩
  | retag p range d cell kind =>
    exact ⟨_, congrArg (Except.map _) (hretag p range d cell kind (Option.some.inj he))⟩
  | access p range kind =>
    refine ⟨⟨.ofAccess kind, some (.deadPointer p)⟩, ?_⟩
    rw [perform, access, htree p _ _ (Option.some.inj he)]
    rfl
  | name p s =>
    refine ⟨⟨.inspect, some (.deadPointer p)⟩, ?_⟩
    rw [perform, name, nameAncestor, editTree, hdead p _ (Option.some.inj he)]
    rfl
  | permissionAt p o =>
    refine ⟨⟨.inspect, some (.deadPointer p)⟩, ?_⟩
    rw [perform, permissionAt, stateOf, askTree, hdead p _ (Option.some.inj he)]
    rfl
  | allocate _ | drawCall | enter _ _ | exit _ | openCall _ => cases he

/-! ## 4. The deeds of a run -/

/-- What the events of a run did to the allocations, in order. -/
def deeds (k : Checker) : List Event → List Deed
  | [] => []
  | e :: es => (e.deed? (k.perform e).result).toList ++ deeds (k.perform e).state es

theorem deeds_append (k : Checker) (es fs : List Event) :
    k.deeds (es ++ fs) = k.deeds es ++ (k.run es).deeds fs := by
  induction es generalizing k with
  | nil => rfl
  | cons e es ih => rw [List.cons_append, deeds, deeds, ih, List.append_assoc, run_cons]

theorem deeds_append_singleton (k : Checker) (es : List Event) (e : Event) :
    k.deeds (es ++ [e]) = k.deeds es ++ (e.deed? ((k.run es).perform e).result).toList := by
  rw [deeds_append, deeds, deeds, List.append_nil]

theorem outcomes_append_singleton (k : Checker) (es : List Event) (e : Event) :
    k.outcomes (es ++ [e]) = k.outcomes es ++ [(k.run es).perform e] := by
  induction es generalizing k with
  | nil => rfl
  | cons e' es ih => rw [List.cons_append, outcomes, outcomes, ih, List.cons_append, run_cons]

/-- No event of the run faults. -/
def Answers (k : Checker) (es : List Event) : Prop :=
  ∀ o ∈ k.outcomes es, ∀ f, o.result ≠ .error (.fault f)

theorem answers_append_singleton_iff {es : List Event} :
    k.Answers (es ++ [e]) ↔
      k.Answers es ∧ ∀ f, ((k.run es).perform e).result ≠ .error (.fault f) := by
  unfold Answers
  rw [outcomes_append_singleton, List.forall_mem_append, List.forall_mem_singleton]

/-- An allocation that is made gets the next number. -/
theorem alloc_of_issued {p : Pointer} {size : Nat}
    (h : e.deed? (k.perform e).result = some (.issued p size)) :
    p.alloc = ⟨k.nextAlloc⟩ ∧ (k.perform e).state.nextAlloc = k.nextAlloc + 1 := by
  obtain ⟨rfl, hres⟩ := Event.eq_allocate_of_deed? h
  have hpointer : (k.perform (.allocate size)).result =
      .ok (.pointer ⟨⟨k.nextAlloc⟩, ⟨k.nextTag⟩⟩) := rfl
  rw [hpointer] at hres
  cases hres
  exact ⟨rfl, rfl⟩

/-- An allocation in which a pointer is derived is live. -/
theorem isSome_get?_of_derived {p : Pointer}
    (h : e.deed? (k.perform e).result = some (.derived p)) :
    (k.allocations.get? p.alloc).isSome := by
  obtain ⟨he, answer, hres⟩ := Event.allocation?_of_deed? h
  rw [Option.isSome_iff_ne_none]
  intro hnone
  obtain ⟨r, hr⟩ := useAfterFree_of_get?_eq_none he hnone
  cases hr.symm.trans hres

/-- The deeds of a run speak of allocations that were made in it. -/
theorem number_lt_of_belongs (settings : Settings) (es : List Event) {p : Pointer}
    (h : Deed.Belongs ((new settings).deeds es) p) :
    p.alloc.number < ((new settings).run es).nextAlloc := by
  induction es using List.reverseRecOn with
  | nil => simp [Deed.Belongs, deeds] at h
  | append_singleton es e ih =>
    have hk : ((new settings).run es).Reachable := ⟨settings, es, rfl⟩
    have hle := (advances_perform hk.sound e).nextAlloc_le
    rw [deeds_append_singleton] at h
    rw [run_append_singleton]
    generalize (new settings).run es = k at h ih hk hle ⊢
    cases hdeed : e.deed? (k.perform e).result with
    | none =>
      rw [hdeed, Option.toList_none, List.append_nil] at h
      exact Nat.lt_of_lt_of_le (ih h) hle
    | some d =>
      rw [hdeed, Option.toList_some, Deed.belongs_append_singleton_iff] at h
      rcases h with hold | ⟨size, rfl⟩ | rfl
      · exact Nat.lt_of_lt_of_le (ih hold) hle
      · obtain ⟨halloc, hnext⟩ := alloc_of_issued hdeed
        rw [halloc, hnext]
        exact Nat.lt_succ_self _
      · obtain ⟨x, hx⟩ := Option.isSome_iff_exists.mp (isSome_get?_of_derived hdeed)
        exact Nat.lt_of_lt_of_le (hk.number_lt hx) hle

/-- **A checker holds what the deeds of its run say**, if no event of the run has faulted. -/
theorem records_deeds {settings : Settings} {es : List Event} (h : (new settings).Answers es) :
    Deed.Records ((new settings).deeds es) ((new settings).run es).inventory := by
  induction es using List.reverseRecOn with
  | nil => exact Deed.records_nil
  | append_singleton es e ih =>
    have hk : ((new settings).run es).Reachable := ⟨settings, es, rfl⟩
    obtain ⟨hbefore, hlast⟩ := answers_append_singleton_iff.mp h
    have hrecords := ih hbefore
    rw [deeds_append_singleton, run_append_singleton, inventory_perform hk.sound e hlast]
    unfold Inventory.after
    cases hdeed : e.deed? (((new settings).run es).perform e).result with
    | none => simpa using hrecords
    | some d =>
      cases d with
      | issued p size =>
        refine hrecords.issued (fun tag htag => ?_) size
        have hlt := number_lt_of_belongs settings es htag
        rw [(alloc_of_issued hdeed).1] at hlt
        exact Nat.lt_irrefl _ hlt
      | ended a => exact hrecords.ended a
      | derived p => exact hrecords.derived p

end Checker

/-- An allocation that is live by the deeds is held, with the size and the tags that they name. -/
theorem Deed.Records.exists_of_isLive {k : Checker} {ds : List Deed} {a : AllocationId}
    (h : Records ds k.inventory) (hlive : IsLive ds a) :
    ∃ x, k.allocations.get? a = some x ∧ (∀ size, HasSize ds a size ↔ size = x.tree.size) ∧
      ∀ tag, tag ∈ x.tree.tags.keys ↔ Belongs ds ⟨a, tag⟩ := by
  obtain ⟨held, hheld⟩ := Option.isSome_iff_exists.mp (h.live.mpr hlive)
  obtain ⟨x, hx, rfl⟩ := Option.map_eq_some_iff.mp hheld
  exact ⟨x, hx, fun _ => h.size hheld, fun _ => h.tags hheld⟩

end TreeBorrows
