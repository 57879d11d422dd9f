/-
# What run maps mean

`valueAt?` is the meaning of a run map, and this file says what each operation does to it:

* `valueAt?_split`, `valueAt?_merge`: how the runs are cut is not part of the meaning;
* `valueAt?_update`: an update changes the offsets of its range and no others;
* `valueAt?_map`: a map over all values changes each offset on its own.

Sizes never change (`size_split`, `size_update`, `size_change`, `size_merge`, `size_map`), and
no operation makes an empty run (`isProper_split` and its companions).
-/
import TreeBorrows.RunMap.Basic

namespace TreeBorrows

namespace Run

variable {α β : Type}

/-! ## 1. Rows of runs -/

@[simp] theorem total_nil : total ([] : List (Run α)) = 0 := rfl

@[simp] theorem total_cons (r : Run α) (rs : List (Run α)) :
    total (r :: rs) = r.length + total rs := rfl

@[simp] theorem total_append (as bs : List (Run α)) : total (as ++ bs) = total as + total bs := by
  induction as with
  | nil => simp
  | cons a as ih =>
    simp only [List.cons_append, total_cons, ih]
    omega

/-- Beyond the last run there is no value. -/
theorem valueAt?_eq_none_iff {rs : List (Run α)} {o : Nat} :
    valueAt? rs o = none ↔ total rs ≤ o := by
  induction rs generalizing o with
  | nil => simp [valueAt?]
  | cons r rs ih =>
    by_cases h : o < r.length
    · simp only [valueAt?, h, ↓reduceIte, total_cons]
      constructor
      · intro h'
        exact absurd h' (by simp)
      · intro h'
        omega
    · simp only [valueAt?, h, ↓reduceIte, total_cons, ih]
      omega

/-- Two rows laid end to end. -/
theorem valueAt?_append (as bs : List (Run α)) (o : Nat) :
    valueAt? (as ++ bs) o = if o < total as then valueAt? as o else valueAt? bs (o - total as) := by
  induction as generalizing o with
  | nil => simp
  | cons a as ih =>
    simp only [List.cons_append, valueAt?, total_cons, ih]
    split
    · rw [if_pos (by omega)]
    · by_cases h : o < a.length + total as
      · rw [if_pos (by omega), if_pos h]
      · rw [if_neg (by omega), if_neg h, Nat.sub_sub]

/-! ## 2. Cuts -/

@[simp] theorem cut_zero (rs : List (Run α)) : cut 0 rs = ([], rs) := by
  cases rs <;> simp [cut]

/-- The lower part ends at the cut, or with the runs; the upper part is the rest. -/
theorem total_cut (n : Nat) (rs : List (Run α)) :
    total (cut n rs).1 = min n (total rs) ∧ total (cut n rs).2 = total rs - n := by
  induction rs generalizing n with
  | nil => simp [cut]
  | cons r rs ih =>
    unfold cut
    split
    · simp_all
    · split
      · have h := ih (n - r.length)
        simp only [total_cons]
        omega
      · simp only [total_cons, total_nil]
        omega

/-- A cut keeps the value of every offset. -/
theorem valueAt?_cut (n : Nat) (rs : List (Run α)) (o : Nat) :
    valueAt? ((cut n rs).1 ++ (cut n rs).2) o = valueAt? rs o := by
  induction rs generalizing n o with
  | nil => simp [cut]
  | cons r rs ih =>
    unfold cut
    split
    · rfl
    · split
      · simp only [List.cons_append, valueAt?, ih]
      · simp only [List.cons_append, List.nil_append, valueAt?]
        by_cases h : o < n
        · rw [if_pos h, if_pos (by omega)]
        · rw [if_neg h]
          by_cases h' : o < r.length
          · rw [if_pos (by omega), if_pos h']
          · rw [if_neg (by omega), if_neg h', Nat.sub_sub]
            congr 1
            omega

/-- A cut leaves no empty run where there was none. -/
theorem length_pos_of_mem_cut {rs : List (Run α)} (h : ∀ r ∈ rs, 0 < r.length) (n : Nat) :
    (∀ r ∈ (cut n rs).1, 0 < r.length) ∧ ∀ r ∈ (cut n rs).2, 0 < r.length := by
  induction rs generalizing n with
  | nil => simp [cut]
  | cons r rs ih =>
    have hr : 0 < r.length := h r (by simp)
    have hrs : ∀ s ∈ rs, 0 < s.length := fun s hs => h s (by simp [hs])
    unfold cut
    split
    · exact ⟨by simp, h⟩
    · split
      · obtain ⟨hlow, hhigh⟩ := ih hrs (n - r.length)
        refine ⟨?_, hhigh⟩
        intro s hs
        rcases List.mem_cons.mp hs with rfl | hs
        · exact hr
        · exact hlow s hs
      · refine ⟨?_, ?_⟩
        · intro s hs
          obtain rfl := List.mem_singleton.mp hs
          show 0 < n
          omega
        · intro s hs
          rcases List.mem_cons.mp hs with rfl | hs
          · show 0 < r.length - n
            omega
          · exact hrs s hs

/-! ## 3. New values and joined neighbours -/

@[simp] theorem total_mapValues (f : α → β) (rs : List (Run α)) :
    total (mapValues f rs) = total rs := by
  induction rs with
  | nil => rfl
  | cons r rs ih => simpa [mapValues] using ih

theorem valueAt?_mapValues (f : α → β) (rs : List (Run α)) (o : Nat) :
    valueAt? (mapValues f rs) o = (valueAt? rs o).map f := by
  induction rs generalizing o with
  | nil => rfl
  | cons r rs ih =>
    have h := ih (o - r.length)
    simp only [mapValues, List.map_cons, valueAt?] at h ⊢
    split
    · rfl
    · exact h

theorem length_pos_of_mem_mapValues {rs : List (Run α)} (h : ∀ r ∈ rs, 0 < r.length)
    (f : α → β) : ∀ r ∈ mapValues f rs, 0 < r.length := by
  intro r hr
  obtain ⟨s, hs, rfl⟩ := List.mem_map.mp hr
  exact h s hs

@[simp] theorem total_change (f : α → β → α) (rs : List (Run α)) (cs : List β) :
    total (change f rs cs) = total rs := by
  induction rs generalizing cs with
  | nil => cases cs <;> rfl
  | cons r rs ih =>
    cases cs with
    | nil => rfl
    | cons c cs => simp [change, ih]

theorem length_pos_of_mem_change {rs : List (Run α)} (h : ∀ r ∈ rs, 0 < r.length)
    (f : α → β → α) (cs : List β) : ∀ r ∈ change f rs cs, 0 < r.length := by
  induction rs generalizing cs with
  | nil => cases cs <;> simp [change]
  | cons r rs ih =>
    cases cs with
    | nil => exact h
    | cons c cs =>
      intro s hs
      rcases List.mem_cons.mp hs with rfl | hs
      · exact h r (by simp)
      · exact ih (fun s hs => h s (by simp [hs])) cs s hs

section Merge

variable [DecidableEq α]

@[simp] theorem total_merge (rs : List (Run α)) : total (merge rs) = total rs := by
  induction rs with
  | nil => rfl
  | cons r rs ih =>
    unfold merge
    split
    · next h =>
      rw [h] at ih
      simp [← ih]
    · next s ss h =>
      rw [h] at ih
      split
      · simp only [total_cons] at ih ⊢
        omega
      · simp only [total_cons] at ih ⊢
        omega

/-- Joining neighbours keeps the value of every offset. -/
theorem valueAt?_merge (rs : List (Run α)) (o : Nat) : valueAt? (merge rs) o = valueAt? rs o := by
  induction rs generalizing o with
  | nil => rfl
  | cons r rs ih =>
    have h := ih (o - r.length)
    unfold merge
    split
    · next hm =>
      rw [hm] at h
      simp only [valueAt?, ← h]
    · next s ss hm =>
      rw [hm] at h
      split
      · next hv =>
        simp only [valueAt?] at h ⊢
        rw [← h]
        by_cases h₁ : o < r.length
        · rw [if_pos (by omega), if_pos h₁, hv]
        · rw [if_neg h₁]
          by_cases h₂ : o - r.length < s.length
          · rw [if_pos (by omega), if_pos h₂]
          · rw [if_neg (by omega), if_neg h₂, Nat.sub_sub]
      · simp only [valueAt?] at h ⊢
        rw [← h]

theorem length_pos_of_mem_merge {rs : List (Run α)} (h : ∀ r ∈ rs, 0 < r.length) :
    ∀ r ∈ merge rs, 0 < r.length := by
  induction rs with
  | nil => simp [merge]
  | cons r rs ih =>
    have hr : 0 < r.length := h r (by simp)
    have ih := ih fun s hs => h s (by simp [hs])
    unfold merge
    split
    · intro s hs
      obtain rfl := List.mem_singleton.mp hs
      exact hr
    · next s ss hm =>
      rw [hm] at ih
      have hs : 0 < s.length := ih s (by simp)
      split
      · intro u hu
        rcases List.mem_cons.mp hu with rfl | hu
        · show 0 < r.length + s.length
          omega
        · exact ih u (by simp [hu])
      · intro u hu
        rcases List.mem_cons.mp hu with rfl | hu
        · exact hr
        · exact ih u hu

end Merge

end Run

namespace RunMap

variable {α β : Type}

/-! ## 4. Maps -/

theorem checkRange_eq_ok_iff {m : RunMap α} {r : ByteRange} :
    m.checkRange r = .ok () ↔ r.stop < Word.limit ∧ r.stop ≤ m.size := by
  unfold checkRange Word.add ByteRange.stop
  by_cases h : r.start + r.size < Word.limit
  · by_cases h' : r.start + r.size ≤ m.size <;> simp [h, h']
  · simp [h]

/-- There is a value at the offsets below the size and nowhere else. -/
theorem valueAt?_eq_none_iff {m : RunMap α} {o : Nat} : m.valueAt? o = none ↔ m.size ≤ o :=
  Run.valueAt?_eq_none_iff

@[simp] theorem size_ofSize (size : Nat) (value : α) : (ofSize size value).size = size := by
  unfold ofSize RunMap.size
  split
  · next h => exact h.symm
  · simp

theorem valueAt?_ofSize (size : Nat) (value : α) (o : Nat) :
    (ofSize size value).valueAt? o = if o < size then some value else none := by
  unfold ofSize RunMap.valueAt?
  split
  · next h => simp [h, Run.valueAt?]
  · simp [Run.valueAt?]

theorem isProper_ofSize (size : Nat) (value : α) : (ofSize size value).IsProper := by
  unfold ofSize IsProper
  split
  · simp
  · next h =>
    intro r hr
    obtain rfl := List.mem_singleton.mp hr
    exact Nat.pos_of_ne_zero h

/-- The three parts of a carving begin and end where the range does. -/
theorem total_carve {m : RunMap α} {r : ByteRange} (h : r.isEmpty = false) :
    Run.total (m.carve r).before = min r.start m.size ∧
      Run.total (m.carve r).inside = min r.size (m.size - r.start) ∧
      Run.total (m.carve r).after = m.size - r.stop := by
  have h₁ := Run.total_cut r.start m.runs
  have h₂ := Run.total_cut r.size (Run.cut r.start m.runs).2
  unfold carve
  simp only [h, Bool.false_eq_true, ↓reduceIte, size, ByteRange.stop]
  omega

theorem size_split (m : RunMap α) (r : ByteRange) : (m.split r).size = m.size := by
  unfold split
  by_cases h : r.isEmpty = true
  · simp [carve, h, Carving.join, size]
  · obtain ⟨h₁, h₂, h₃⟩ := total_carve (m := m) (r := r) (by simpa using h)
    unfold Carving.join size at *
    simp only [Run.total_append, h₁, h₂, h₃, ByteRange.stop]
    omega

/-- Splitting is not observable: every offset keeps its value. -/
theorem valueAt?_split (m : RunMap α) (r : ByteRange) (o : Nat) :
    (m.split r).valueAt? o = m.valueAt? o := by
  unfold split carve valueAt? Carving.join
  split
  · simp
  · have h := Run.valueAt?_cut r.size (Run.cut r.start m.runs).2
    simp only [List.append_assoc]
    rw [Run.valueAt?_append, h, ← Run.valueAt?_append, Run.valueAt?_cut]

/-- The parts of a carving hold no empty run where the map holds none. -/
theorem length_pos_of_mem_carve {m : RunMap α} (h : m.IsProper) (r : ByteRange) :
    (∀ s ∈ (m.carve r).before, 0 < s.length) ∧ (∀ s ∈ (m.carve r).inside, 0 < s.length) ∧
      ∀ s ∈ (m.carve r).after, 0 < s.length := by
  unfold carve
  split
  · exact ⟨h, by simp, by simp⟩
  · obtain ⟨h₁, h₂⟩ := Run.length_pos_of_mem_cut h r.start
    exact ⟨h₁, Run.length_pos_of_mem_cut h₂ r.size⟩

private theorem isProper_join {c : Carving α} (h₁ : ∀ s ∈ c.before, 0 < s.length)
    (h₂ : ∀ s ∈ c.inside, 0 < s.length) (h₃ : ∀ s ∈ c.after, 0 < s.length) :
    c.join.IsProper := by
  intro s hs
  simp only [Carving.join, List.mem_append] at hs
  rcases hs with (hs | hs) | hs
  · exact h₁ s hs
  · exact h₂ s hs
  · exact h₃ s hs

theorem isProper_split {m : RunMap α} (h : m.IsProper) (r : ByteRange) :
    (m.split r).IsProper := by
  obtain ⟨h₁, h₂, h₃⟩ := length_pos_of_mem_carve h r
  exact isProper_join h₁ h₂ h₃

theorem size_update (m : RunMap α) (r : ByteRange) (f : α → α) :
    (m.update r f).size = m.size := by
  have h := size_split m r
  simpa [split, update, Carving.join, size] using h

theorem isProper_update {m : RunMap α} (h : m.IsProper) (r : ByteRange) (f : α → α) :
    (m.update r f).IsProper := by
  obtain ⟨h₁, h₂, h₃⟩ := length_pos_of_mem_carve h r
  exact isProper_join h₁ (Run.length_pos_of_mem_mapValues h₂ f) h₃

/-- The value at an offset is found in the part that the offset lies in. -/
theorem valueAt?_join (c : Carving α) (o : Nat) :
    c.join.valueAt? o =
      if o < Run.total c.before then Run.valueAt? c.before o
      else if o < Run.total c.before + Run.total c.inside then
        Run.valueAt? c.inside (o - Run.total c.before)
      else Run.valueAt? c.after (o - (Run.total c.before + Run.total c.inside)) := by
  unfold valueAt? Carving.join
  simp only [List.append_assoc, Run.valueAt?_append]
  by_cases h₁ : o < Run.total c.before
  · simp only [h₁, ↓reduceIte]
  · by_cases h₂ : o < Run.total c.before + Run.total c.inside
    · have h₃ : o - Run.total c.before < Run.total c.inside := by omega
      simp only [h₁, h₂, h₃, ↓reduceIte]
    · have h₃ : ¬o - Run.total c.before < Run.total c.inside := by omega
      simp only [h₁, h₂, h₃, ↓reduceIte, Nat.sub_sub]

/-- An update changes the offsets of its range, each on its own, and no others. -/
theorem valueAt?_update (m : RunMap α) (r : ByteRange) (f : α → α) (o : Nat) :
    (m.update r f).valueAt? o = if o ∈ r then (m.valueAt? o).map f else m.valueAt? o := by
  rw [← valueAt?_split m r o]
  by_cases h : r.isEmpty = true
  · rw [if_neg (ByteRange.not_mem_of_isEmpty h o)]
    simp [update, split, carve, h, Run.mapValues]
  · obtain ⟨h₁, h₂, h₃⟩ := total_carve (m := m) (r := r) (by simpa using h)
    have hr := ByteRange.mem_iff (o := o) (r := r)
    unfold update split
    simp only [valueAt?_join, Run.total_mapValues, Run.valueAt?_mapValues]
    by_cases h₄ : o < Run.total (m.carve r).before
    · have h₅ : o ∉ r := by
        rw [hr]
        omega
      simp only [h₄, h₅, ↓reduceIte]
    · by_cases h₅ : o < Run.total (m.carve r).before + Run.total (m.carve r).inside
      · have h₆ : o ∈ r := by
          rw [hr]
          omega
        simp only [h₄, h₅, h₆, ↓reduceIte]
      · simp only [h₄, h₅, ↓reduceIte]
        split
        · next h₆ =>
          have h₇ : Run.valueAt? (m.carve r).after
              (o - (Run.total (m.carve r).before + Run.total (m.carve r).inside)) = none := by
            rw [Run.valueAt?_eq_none_iff, h₃]
            simp only [ByteRange.stop]
            rw [hr] at h₆
            omega
          rw [h₇]
          rfl
        · rfl

theorem size_change (m : RunMap α) (r : ByteRange) (f : α → β → α) (cs : List β) :
    (m.change r f cs).size = m.size := by
  have h := size_split m r
  simpa [split, change, Carving.join, size] using h

theorem isProper_change {m : RunMap α} (h : m.IsProper) (r : ByteRange) (f : α → β → α)
    (cs : List β) : (m.change r f cs).IsProper := by
  obtain ⟨h₁, h₂, h₃⟩ := length_pos_of_mem_carve h r
  exact isProper_join h₁ (Run.length_pos_of_mem_change h₂ f cs) h₃

@[simp] theorem size_map (m : RunMap α) (f : α → β) : (m.map f).size = m.size :=
  Run.total_mapValues f m.runs

theorem valueAt?_map (m : RunMap α) (f : α → β) (o : Nat) :
    (m.map f).valueAt? o = (m.valueAt? o).map f :=
  Run.valueAt?_mapValues f m.runs o

theorem map_map {γ : Type} (m : RunMap α) (f : α → β) (g : β → γ) :
    (m.map f).map g = m.map fun v => g (f v) := by
  simp only [RunMap.map, Run.mapValues, List.map_map, Function.comp_def]

theorem map_self (m : RunMap α) : (m.map fun v => v) = m := by
  simp only [RunMap.map, Run.mapValues, List.map_id']

theorem isProper_map {m : RunMap α} (h : m.IsProper) (f : α → β) : (m.map f).IsProper :=
  Run.length_pos_of_mem_mapValues h f

@[simp] theorem size_merge [DecidableEq α] (m : RunMap α) : m.merge.size = m.size :=
  Run.total_merge m.runs

/-- Merging is not observable: every offset keeps its value. -/
theorem valueAt?_merge [DecidableEq α] (m : RunMap α) (o : Nat) :
    m.merge.valueAt? o = m.valueAt? o :=
  Run.valueAt?_merge m.runs o

theorem isProper_merge [DecidableEq α] {m : RunMap α} (h : m.IsProper) : m.merge.IsProper :=
  Run.length_pos_of_mem_merge h

end RunMap

end TreeBorrows
