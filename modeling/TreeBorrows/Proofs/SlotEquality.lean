/-
# When rows of slots are equal

Rows of slots are compared slot by slot (`Slots.beq`), and that is more than their values: a row
with one more empty slot at its end holds the same values and is another row.  No such row comes
about.  The last slot of a row is filled, for a row is made longer only to write there, and what was
written is never taken away (`Slots.IsTight`).  And no row is longer than there are indices.

A row with both properties is fit (`Slots.IsFit`).  Every action on rows keeps them fit
(`isFit_perform`), and so does every history (`isFit_run`).  Fit rows are told apart by their values
(`IsFit.eq_of_agree`), so where rows of slots are the values of a run map, neighbours are joined
just when they agree at every index.
-/
import Mathlib.Logic.Function.Basic
import TreeBorrows.Proofs.RunMap.NormalForm
import TreeBorrows.Slots

namespace TreeBorrows

namespace Slots

variable {M V : Type} {s s' : Slots V}

/-! ## 1. Two ways to compare -/

/-- Whether two rows have equally many slots, and the same in each of them.  Joining neighbours asks
whether they are equal instead, which is the same question if values are compared by a lawful `==`
(`beq_eq_true_iff`). -/
def beq [BEq V] (s s' : Slots V) : Bool := s.entries == s'.entries

theorem beq_eq_true_iff [BEq V] [LawfulBEq V] : s.beq s' = true ↔ s = s' := by
  rw [beq, beq_iff_eq]
  constructor
  · intro h
    cases s
    exact congrArg Slots.mk h
  · exact congrArg Slots.entries

/-- Two rows have the same value, or none, at every index that there is. -/
def Agree (s s' : Slots V) : Prop := ∀ i : UInt32, s.get? i.toNat = s'.get? i.toNat

/-! ## 2. Rows without an empty slot at the end -/

theorem getElem?_entries {i : Nat} (hi : i < s.width) : s.entries[i]? = some (s.get? i) := by
  rw [get?, List.getElem?_eq_getElem hi, Option.join_some]

theorem get?_of_width_le {i : Nat} (hi : s.width ≤ i) : s.get? i = none := by
  rw [get?, List.getElem?_eq_none hi, Option.join_none]

/-- A tight row has a slot for an index only if there is a value at the index or after it. -/
theorem IsTight.width_le (h : s.IsTight) {n : Nat} (hn : ∀ i, n ≤ i → s.get? i = none) :
    s.width ≤ n := by
  rcases isTight_iff.mp h with hzero | hlast
  · omega
  · by_contra hlt
    rw [hn (s.width - 1) (by omega)] at hlast
    cases hlast

/-- **Tight rows with the same values are equal.** -/
theorem IsTight.eq_of_get? (h : s.IsTight) (h' : s'.IsTight) (hget : ∀ i, s.get? i = s'.get? i) :
    s = s' := by
  have hwidth : s.width = s'.width := Nat.le_antisymm
    (h.width_le fun i hi => (hget i).trans (get?_of_width_le hi))
    (h'.width_le fun i hi => (hget i).symm.trans (get?_of_width_le hi))
  have hentries : s.entries = s'.entries := by
    refine List.ext_getElem? fun i => ?_
    by_cases hi : i < s.width
    · rw [getElem?_entries hi, getElem?_entries (hwidth ▸ hi), hget]
    · have hle := Nat.le_of_not_lt hi
      rw [List.getElem?_eq_none hle, List.getElem?_eq_none (hwidth.symm.trans_le hle)]
  cases s
  exact congrArg Slots.mk hentries

/-- The last slot of a row is filled, and there are no more slots than indices. -/
structure IsFit (s : Slots V) : Prop where
  isTight : s.IsTight
  width_le : s.width ≤ UInt32.size

theorem isFit_empty : (empty : Slots V).IsFit := ⟨isTight_empty, Nat.zero_le _⟩

theorem IsFit.insert (h : s.IsFit) (i : UInt32) (v : V) : (s.insert i.toNat v).IsFit where
  isTight := isTight_insert h.isTight i.toNat v
  width_le := by
    rw [width_insert]
    exact Nat.max_le.mpr ⟨h.width_le, i.toNat_lt⟩

theorem IsFit.modify (h : s.IsFit) (i : Nat) (f : V → V) : (s.modify i f).IsFit where
  isTight := isTight_modify h.isTight i f
  width_le := (width_modify s i f).trans_le h.width_le

/-- **Fit rows are equal as soon as they agree.** -/
theorem IsFit.eq_of_agree (h : s.IsFit) (h' : s'.IsFit) (hagree : s.Agree s') : s = s' := by
  refine h.isTight.eq_of_get? h'.isTight fun i => ?_
  by_cases hi : i < UInt32.size
  · have := hagree (UInt32.ofNat i)
    rwa [UInt32.toNat_ofNat_of_lt' hi] at this
  · have hle := Nat.le_of_not_lt hi
    rw [get?_of_width_le (h.width_le.trans hle), get?_of_width_le (h'.width_le.trans hle)]

theorem IsFit.agree_iff (h : s.IsFit) (h' : s'.IsFit) : s.Agree s' ↔ s = s' :=
  ⟨h.eq_of_agree h', fun heq _ => heq ▸ rfl⟩

/-! ## 3. Histories -/

/-- What can be done with rows of slots.  Each row has a name. -/
inductive Action (M V : Type) where
  /-- An index gets a value in a row. -/
  | insert (m : M) (i : UInt32) (v : V)
  /-- The value at an index of a row is changed in place, if there is one. -/
  | modify (m : M) (i : UInt32) (f : V → V)
  /-- A row becomes a copy of another one. -/
  | clone (source target : M)

variable [DecidableEq M]

/-- The rows after an action. -/
def perform (rows : M → Slots V) : Action M V → M → Slots V
  | .insert m i v => Function.update rows m ((rows m).insert i.toNat v)
  | .modify m i f => Function.update rows m ((rows m).modify i.toNat f)
  | .clone source target => Function.update rows target (rows source)

/-- The rows after some actions, all of them empty at first. -/
def run (actions : List (Action M V)) : M → Slots V := actions.foldl perform fun _ => empty

theorem isFit_update {rows : M → Slots V} (h : ∀ m, (rows m).IsFit) (m : M) (hs : s.IsFit)
    (m' : M) : (Function.update rows m s m').IsFit := by
  by_cases hm : m' = m
  · subst hm
    rwa [Function.update_self]
  · rw [Function.update_of_ne hm]
    exact h m'

/-- **Every action keeps all rows fit.** -/
theorem isFit_perform {rows : M → Slots V} (h : ∀ m, (rows m).IsFit) (action : Action M V) (m : M) :
    (perform rows action m).IsFit := by
  cases action with
  | insert m' i v => exact isFit_update h m' ((h m').insert i v) m
  | modify m' i f => exact isFit_update h m' ((h m').modify i.toNat f) m
  | clone source target => exact isFit_update h target (h source) m

theorem isFit_run (actions : List (Action M V)) (m : M) : (run actions m).IsFit := by
  have h : ∀ (actions : List (Action M V)) (rows : M → Slots V), (∀ m, (rows m).IsFit) →
      ∀ m, (actions.foldl perform rows m).IsFit := by
    intro actions
    induction actions with
    | nil => exact fun rows hrows => hrows
    | cons action actions ih => exact fun rows hrows => ih _ (isFit_perform hrows action)
  exact h actions _ (fun _ => isFit_empty) m

/-- **Equality of rows is a matter of their values**, by whatever actions they were made.

* They compare as equal just when they have the same value, or none, at every index.
* If the elements of a row that tiles some offsets hold such rows, joining neighbours gives a row
  that tiles the same offsets.  Each element lies within one with the same values at every index,
  and two neighbours lie within the same one just when they have the same values at every index. -/
theorem equality_extensional [BEq V] [LawfulBEq V] [DecidableEq V] :
    (∀ (h h' : List (Action M V)) (m m' : M),
      (run h m).beq (run h' m') = true ↔ (run h m).Agree (run h' m')) ∧
    ∀ (v : Row (Slots V)) (size : Nat), v.Tiles 0 size →
      (∀ e ∈ v, ∃ (h : List (Action M V)) (m : M), e.value = run h m) →
      ∃ w : Row (Slots V),
        Row.mergeAll.on v = (.ok (), w) ∧ w.Tiles 0 size ∧ v.JoinedBy Agree w := by
  constructor
  · intro h h' m m'
    rw [beq_eq_true_iff, (isFit_run h m).agree_iff (isFit_run h' m')]
  · intro v size hv hmade
    have hfit : ∀ e ∈ v, e.value.IsFit := by
      intro e he
      obtain ⟨h, m, heq⟩ := hmade e he
      exact heq ▸ isFit_run h m
    obtain ⟨w, hmerge, hw, hjoined⟩ := hv.exists_joinedBy
    exact ⟨w, hmerge, hw, hjoined.congr (fun _ _ heq _ => heq ▸ rfl)
      fun e he e' he' => (hfit e he).eq_of_agree (hfit e' he')⟩

/-- The first two rows have the values 8, none and 5, and were made in different orders; the third
one is what the second one was copied from, and has the value 8 alone. -/
theorem equality_extensional_of_orders :
    let s : Slots Nat := run [.insert true 2 5, .insert true 0 7, .modify true 0 (· + 1)] true
    let copied : List (Action Bool Nat) :=
      [.insert true 0 8, .clone true false, .insert false 2 5]
    s.Agree (run copied false) ∧ ¬s.beq (run copied true) = true ∧
    ∃ w : Row (Slots Nat),
      Row.mergeAll.on [⟨0, 1, s⟩, ⟨1, 3, run copied false⟩, ⟨3, 4, run copied true⟩] =
        (.ok (), w) ∧
      (∃ x ∈ w, x.start ≤ 0 ∧ 3 ≤ x.stop) ∧ ¬∃ x ∈ w, x.start ≤ 1 ∧ 4 ≤ x.stop := by
  intro s copied
  obtain ⟨hbeq, hmerge⟩ := equality_extensional (M := Bool) (V := Nat)
  have hsame : s.Agree (run copied false) := (hbeq _ _ _ _).mp (by decide)
  have hdiffer : ¬(run copied false).Agree (run copied true) := by
    intro hagree
    exact absurd (hagree 2) (by decide)
  obtain ⟨w, hw, -, hjoined⟩ := hmerge
    [⟨0, 1, s⟩, ⟨1, 3, run copied false⟩, ⟨3, 4, run copied true⟩] 4
    ⟨rfl, Nat.one_pos, rfl, by decide, rfl, by decide, rfl⟩ (by
      simp only [List.forall_mem_cons]
      exact ⟨⟨_, true, rfl⟩, ⟨copied, false, rfl⟩, ⟨copied, true, rfl⟩, by simp⟩)
  refine ⟨hsame, by decide, w, hw, ?_, ?_⟩
  · obtain ⟨x, hx, hin, hin'⟩ := (hjoined.neighbours [] _ _ _ rfl).mpr hsame
    exact ⟨x, hx, hin.1, hin'.2⟩
  · rintro ⟨x, hx, hstart, hstop⟩
    refine hdiffer ((hjoined.neighbours [_] _ _ _ rfl).mp ⟨x, hx, ⟨hstart, ?_⟩, ?_, hstop⟩)
    · exact Nat.le_trans (by decide) hstop
    · exact Nat.le_trans hstart (by decide)

end Slots

end TreeBorrows
