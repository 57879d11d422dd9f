/-
# The elements of a range, and changes made to them one by one

An operation on a range often takes two looks at a run map: it reads the elements of the range,
works out one change for each, and then writes the changes back in order.  This module connects
both looks with what the map means.

* The elements of a range cover its offsets and nothing else, and show the values that the map
  has there (`mem_inside`, `exists_mem_inside`).
* The second look finds the elements of the first: a map that is already divided at the ends of
  a range is not divided again (`carve_split`).
* So a row of changes that answers the elements one by one reaches each offset of the range with
  the change made for the element it lies in (`exists_valueAt?_change`), and no other offset
  (`valueAt?_change_of_not_mem`).
-/
import TreeBorrows.RunMap.Lemmas
import Mathlib.Data.List.Forall2

namespace TreeBorrows

variable {α β : Type}

namespace Run

/-! ## 1. Elements of a row of runs -/

/-- An element shows the value of each of its offsets. -/
theorem valueAt?_of_mem_elements {start : Nat} {rs : List (Run α)} {e : Element α}
    (h : e ∈ elements start rs) :
    start ≤ e.start ∧ e.stop ≤ start + total rs ∧
      ∀ o, e.start ≤ start + o → start + o < e.stop → valueAt? rs o = some e.value := by
  induction rs generalizing start with
  | nil => exact absurd h List.not_mem_nil
  | cons r rs ih =>
    rw [total_cons]
    rcases List.mem_cons.mp h with rfl | h
    · refine ⟨Nat.le_refl _, by simp only; omega, fun o _ ho => ?_⟩
      rw [valueAt?, if_pos (by simp only at ho; omega)]
    · obtain ⟨h₁, h₂, h₃⟩ := ih h
      refine ⟨by omega, by omega, fun o ho₁ ho₂ => ?_⟩
      rw [valueAt?, if_neg (by omega)]
      exact h₃ (o - r.length) (by omega) (by omega)

/-- Elements of nonempty runs are not empty. -/
theorem start_lt_stop_of_mem_elements {start : Nat} {rs : List (Run α)}
    (hrs : ∀ r ∈ rs, 0 < r.length) {e : Element α} (h : e ∈ elements start rs) :
    e.start < e.stop := by
  induction rs generalizing start with
  | nil => exact absurd h List.not_mem_nil
  | cons r rs ih =>
    rcases List.mem_cons.mp h with rfl | h
    · have hr := hrs r List.mem_cons_self
      simp only
      omega
    · exact ih (fun s hs => hrs s (List.mem_cons_of_mem r hs)) h

/-- Every offset lies in an element. -/
theorem exists_mem_elements (start : Nat) {rs : List (Run α)} {o : Nat} (ho : o < total rs) :
    ∃ e ∈ elements start rs, e.start ≤ start + o ∧ start + o < e.stop := by
  induction rs generalizing start o with
  | nil => exact absurd ho (Nat.not_lt_zero o)
  | cons r rs ih =>
    by_cases h : o < r.length
    · refine ⟨⟨start, start + r.length, r.value⟩, List.mem_cons_self, ?_, ?_⟩
      · exact Nat.le_add_right start o
      · exact Nat.add_lt_add_left h start
    · rw [total_cons] at ho
      obtain ⟨e, he, h₁, h₂⟩ := ih (start + r.length) (o := o - r.length) (by omega)
      exact ⟨e, List.mem_cons_of_mem _ he, by omega, by omega⟩

/-- A row of changes reaches each offset with the change for its element. -/
theorem exists_valueAt?_change {P : Element α → β → Prop} (f : α → β → α) {start : Nat}
    {rs : List (Run α)} {cs : List β} (h : List.Forall₂ P (elements start rs) cs) {o : Nat}
    (ho : o < total rs) :
    ∃ e c, P e c ∧ valueAt? rs o = some e.value ∧
      valueAt? (change f rs cs) o = some (f e.value c) := by
  induction rs generalizing start cs o with
  | nil => exact absurd ho (Nat.not_lt_zero o)
  | cons r rs ih =>
    cases h with
    | @cons _ c _ cs hP hrest =>
      rw [total_cons] at ho
      by_cases h : o < r.length
      · exact ⟨_, c, hP, by rw [valueAt?, if_pos h], by rw [change, valueAt?, if_pos h]⟩
      · obtain ⟨e, d, hd, hv, hc⟩ := ih hrest (o := o - r.length) (by omega)
        exact ⟨e, d, hd, by rw [valueAt?, if_neg h, hv], by rw [change, valueAt?, if_neg h, hc]⟩

/-- Every value after a row of changes comes from the value before it. -/
theorem exists_of_valueAt?_change (f : α → β → α) {rs : List (Run α)} {cs : List β} {o : Nat}
    {v' : α} (h : valueAt? (change f rs cs) o = some v') :
    ∃ v, valueAt? rs o = some v ∧ (v' = v ∨ ∃ c ∈ cs, v' = f v c) := by
  induction rs generalizing cs o with
  | nil => cases cs <;> nomatch h
  | cons r rs ih =>
    cases cs with
    | nil => exact ⟨v', h, .inl rfl⟩
    | cons c cs =>
      simp only [change, valueAt?] at h ⊢
      by_cases ho : o < r.length
      · rw [if_pos ho] at h ⊢
        exact ⟨r.value, rfl, .inr ⟨c, List.mem_cons_self, (Option.some.inj h).symm⟩⟩
      · rw [if_neg ho] at h ⊢
        obtain ⟨v, hv, heq⟩ := ih h
        refine ⟨v, hv, heq.imp_right ?_⟩
        rintro ⟨c', hc', rfl⟩
        exact ⟨c', List.mem_cons_of_mem c hc', rfl⟩

/-- The value of a nonempty run is the value at some offset. -/
theorem exists_valueAt?_of_mem {rs : List (Run α)} (hrs : ∀ r ∈ rs, 0 < r.length) {r : Run α}
    (hr : r ∈ rs) : ∃ o, valueAt? rs o = some r.value := by
  induction rs with
  | nil => exact absurd hr List.not_mem_nil
  | cons s rs ih =>
    rcases List.mem_cons.mp hr with rfl | hr
    · exact ⟨0, if_pos (hrs r List.mem_cons_self)⟩
    · obtain ⟨o, ho⟩ := ih (fun r hr => hrs r (List.mem_cons_of_mem s hr)) hr
      refine ⟨s.length + o, ?_⟩
      rw [valueAt?, if_neg (by omega), Nat.add_sub_cancel_left, ho]

/-! ## 2. Cuts where runs meet -/

/-- A cut beyond some nonempty runs is a cut of the others. -/
theorem cut_append_add {as : List (Run α)} (has : ∀ r ∈ as, 0 < r.length) (k : Nat)
    (bs : List (Run α)) :
    cut (total as + k) (as ++ bs) = (as ++ (cut k bs).1, (cut k bs).2) := by
  induction as with
  | nil => simp
  | cons a as ih =>
    have ha := has a List.mem_cons_self
    have hrest : total (a :: as) + k - a.length = total as + k := by
      rw [total_cons]
      omega
    rw [List.cons_append, cut, if_neg (by rw [total_cons]; omega),
      if_pos (by rw [total_cons]; omega), hrest, ih fun r hr => has r (List.mem_cons_of_mem a hr)]
    rfl

/-- Nonempty runs laid end to end come apart again where they were joined. -/
theorem cut_append {as : List (Run α)} (has : ∀ r ∈ as, 0 < r.length) (bs : List (Run α)) :
    cut (total as) (as ++ bs) = (as, bs) := by
  simpa using cut_append_add has 0 bs

end Run

namespace RunMap

variable {m : RunMap α} {r : ByteRange}

/-- What a map means includes its size. -/
theorem size_eq_of_valueAt? {m m' : RunMap α} (h : ∀ o, m'.valueAt? o = m.valueAt? o) :
    m'.size = m.size := by
  have hle : ∀ o, m'.size ≤ o ↔ m.size ≤ o := by
    intro o
    rw [← valueAt?_eq_none_iff, ← valueAt?_eq_none_iff, h]
  exact Nat.le_antisymm ((hle _).mpr (Nat.le_refl _)) ((hle _).mp (Nat.le_refl _))

/-! ## 3. Elements of a range -/

private theorem not_isEmpty_of_mem {o : Nat} (ho : o ∈ r) : r.isEmpty = false := by
  rw [Bool.eq_false_iff]
  exact fun h => ByteRange.not_mem_of_isEmpty h o ho

/-- Inside of a range in bounds, the parts of a carving lie where the range says. -/
theorem total_carve_of_le (h : r.isEmpty = false) (hr : r.stop ≤ m.size) :
    Run.total (m.carve r).before = r.start ∧ Run.total (m.carve r).inside = r.size := by
  obtain ⟨h₁, h₂, -⟩ := total_carve (m := m) h
  unfold ByteRange.stop at hr
  omega

/-- The part inside of a range holds the values of its offsets. -/
theorem valueAt?_inside_of_mem (hr : r.stop ≤ m.size) {o : Nat} (ho : o ∈ r) :
    Run.valueAt? (m.carve r).inside (o - r.start) = m.valueAt? o := by
  obtain ⟨h₁, h₂⟩ := total_carve_of_le (not_isEmpty_of_mem ho) hr
  rw [ByteRange.mem_iff] at ho
  rw [← valueAt?_split m r, split, valueAt?_join, h₁, h₂, if_neg (by omega), if_pos (by omega)]

theorem inside_of_isEmpty (h : r.isEmpty = true) : m.inside r = [] := by
  simp [inside, carve, h, Run.elements]

/-- **What the elements of a range show**: they lie inside of it, none is empty, and each shows
the value that the map has at its offsets. -/
theorem mem_inside (hm : m.IsProper) (hr : r.stop ≤ m.size) {e : Element α}
    (he : e ∈ m.inside r) :
    e.start < e.stop ∧
      ∀ o, e.start ≤ o → o < e.stop → o ∈ r ∧ m.valueAt? o = some e.value := by
  have hne : r.isEmpty = false := by
    rw [Bool.eq_false_iff]
    intro h
    rw [inside_of_isEmpty h] at he
    exact absurd he List.not_mem_nil
  obtain ⟨-, h₂⟩ := total_carve_of_le hne hr
  obtain ⟨hstart, hstop, hval⟩ := Run.valueAt?_of_mem_elements he
  rw [h₂] at hstop
  refine ⟨Run.start_lt_stop_of_mem_elements (length_pos_of_mem_carve hm r).2.1 he, ?_⟩
  intro o ho₁ ho₂
  have ho : o ∈ r := ByteRange.mem_iff.mpr ⟨by omega, by omega⟩
  refine ⟨ho, ?_⟩
  rw [← valueAt?_inside_of_mem hr ho]
  exact hval (o - r.start) (by omega) (by omega)

/-- **Nothing is left out**: each offset of a range lies in one of its elements. -/
theorem exists_mem_inside (hr : r.stop ≤ m.size) {o : Nat} (ho : o ∈ r) :
    ∃ e ∈ m.inside r, e.start ≤ o ∧ o < e.stop := by
  obtain ⟨-, h₂⟩ := total_carve_of_le (not_isEmpty_of_mem ho) hr
  rw [ByteRange.mem_iff] at ho
  have hlt : o - r.start < Run.total (m.carve r).inside := by omega
  obtain ⟨e, he, h₃, h₄⟩ := Run.exists_mem_elements r.start hlt
  exact ⟨e, he, by omega, by omega⟩

/-! ## 4. The second look -/

/-- **A map that is divided at the ends of a range is not divided there again.** -/
theorem carve_split (hm : m.IsProper) (hr : r.stop ≤ m.size) :
    (m.split r).carve r = m.carve r := by
  by_cases h : r.isEmpty = true
  · simp [split, carve, h, Carving.join]
  · have h := eq_false_of_ne_true h
    obtain ⟨hb, hi, -⟩ := length_pos_of_mem_carve hm r
    obtain ⟨h₁, h₂⟩ := total_carve_of_le h hr
    have hcut₁ : Run.cut r.start (m.split r).runs =
        ((m.carve r).before, (m.carve r).inside ++ (m.carve r).after) := by
      have := Run.cut_append hb ((m.carve r).inside ++ (m.carve r).after)
      rw [h₁, ← List.append_assoc] at this
      exact this
    have hcut₂ : Run.cut r.size ((m.carve r).inside ++ (m.carve r).after) =
        ((m.carve r).inside, (m.carve r).after) := by
      have := Run.cut_append hi (m.carve r).after
      rw [h₂] at this
      exact this
    rw [carve]
    simp only [h, Bool.false_eq_true, ↓reduceIte, hcut₁, hcut₂]

theorem change_split (hm : m.IsProper) (hr : r.stop ≤ m.size) (f : α → β → α) (cs : List β) :
    (m.split r).change r f cs = m.change r f cs := by
  rw [change, carve_split hm hr, change]

/-! ## 5. Changes made one by one -/

/-- A change of a range reaches each of its offsets with the change for the element it lies
in. -/
theorem exists_valueAt?_change {P : Element α → β → Prop} (f : α → β → α) (hr : r.stop ≤ m.size)
    {cs : List β} (h : List.Forall₂ P (m.inside r) cs) {o : Nat} (ho : o ∈ r) :
    ∃ e c, P e c ∧ m.valueAt? o = some e.value ∧
      (m.change r f cs).valueAt? o = some (f e.value c) := by
  obtain ⟨h₁, h₂⟩ := total_carve_of_le (not_isEmpty_of_mem ho) hr
  have hv := valueAt?_inside_of_mem hr ho
  rw [ByteRange.mem_iff] at ho
  obtain ⟨e, c, hP, hval, hchange⟩ :=
    Run.exists_valueAt?_change f h (o := o - r.start) (by omega)
  refine ⟨e, c, hP, hv ▸ hval, ?_⟩
  rw [change, valueAt?_join, h₁, Run.total_change, h₂, if_neg (by omega), if_pos (by omega)]
  exact hchange

/-- Every value after a change of a range comes from the value before it, also where the range
reaches beyond the map. -/
theorem exists_of_valueAt?_change (f : α → β → α) {cs : List β} {o : Nat} {v' : α}
    (h : (m.change r f cs).valueAt? o = some v') :
    ∃ v, m.valueAt? o = some v ∧ (v' = v ∨ ∃ c ∈ cs, v' = f v c) := by
  simp only [change, valueAt?_join, Run.total_change] at h
  simp only [← valueAt?_split m r o, split, valueAt?_join]
  by_cases hb : o < Run.total (m.carve r).before
  · rw [if_pos hb] at h ⊢
    exact ⟨v', h, .inl rfl⟩
  · rw [if_neg hb] at h ⊢
    split at h
    · next hi =>
      rw [if_pos hi]
      exact Run.exists_of_valueAt?_change f h
    · next hi =>
      rw [if_neg hi]
      exact ⟨v', h, .inl rfl⟩

/-- A change of a range reaches nothing outside of it. -/
theorem valueAt?_change_of_not_mem (f : α → β → α) (cs : List β) {o : Nat} (ho : o ∉ r) :
    (m.change r f cs).valueAt? o = m.valueAt? o := by
  rw [← valueAt?_split m r]
  by_cases h : r.isEmpty = true
  · cases cs <;> simp [change, split, carve, h, Run.change]
  · obtain ⟨h₁, h₂, h₃⟩ := total_carve (m := m) (eq_false_of_ne_true h)
    rw [ByteRange.mem_iff] at ho
    rw [change, split, valueAt?_join, valueAt?_join]
    dsimp only
    rw [Run.total_change]
    by_cases h₄ : o < Run.total (m.carve r).before
    · rw [if_pos h₄, if_pos h₄]
    · rw [if_neg h₄, if_neg h₄, if_neg (by omega), if_neg (by omega)]

end RunMap

end TreeBorrows
