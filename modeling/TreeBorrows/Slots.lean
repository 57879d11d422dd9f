/-
# Slots: values by index

A finite map from indices to values, kept as a row of slots.  The row reaches as far as the
largest index ever written, and never ends in an empty slot (`IsTight`), so that equal rows and
equal maps are the same thing.
-/

namespace TreeBorrows

/-- Values by index; an empty slot holds no value. -/
structure Slots (V : Type) where
  entries : List (Option V)
deriving DecidableEq

namespace Slots

variable {V : Type}

/-! ## Values by index -/

/-- No index has a value. -/
def empty : Slots V := ⟨[]⟩

/-- Every index below this one has a slot, filled or not. -/
def width (s : Slots V) : Nat := s.entries.length

/-- The value at an index. -/
def get? (s : Slots V) (i : Nat) : Option V := s.entries[i]?.join

/-- A value for an index, in place of any earlier one.  Indices on the way that had no slot get
an empty one. -/
def insert (s : Slots V) (i : Nat) (v : V) : Slots V :=
  if i < s.width then ⟨s.entries.set i (some v)⟩
  else ⟨s.entries ++ List.replicate (i - s.width) none ++ [some v]⟩

/-- A changed value at an index that has one. -/
def modify (s : Slots V) (i : Nat) (f : V → V) : Slots V :=
  ⟨s.entries.modify i (Option.map f)⟩

/-- The indices that have a value, ascending, each with its value. -/
def toList (s : Slots V) : List (Nat × V) :=
  s.entries.zipIdx.filterMap fun (v?, i) => v?.map (i, ·)

/-- The last slot is filled. -/
def IsTight (s : Slots V) : Prop := s.entries.getLast? ≠ some none

@[simp] theorem get?_empty (i : Nat) : (empty : Slots V).get? i = none := by
  simp [empty, get?]

/-- A write is seen at its own index and nowhere else. -/
theorem get?_insert (s : Slots V) (i j : Nat) (v : V) :
    (s.insert i v).get? j = if j = i then some v else s.get? j := by
  unfold insert get? width
  split
  · rw [List.getElem?_set]
    grind
  · simp only [List.append_assoc, List.getElem?_append, List.getElem?_replicate,
      List.length_replicate]
    grind

theorem get?_modify (s : Slots V) (i j : Nat) (f : V → V) :
    (s.modify i f).get? j = if j = i then (s.get? j).map f else s.get? j := by
  unfold modify get?
  rw [List.getElem?_modify]
  grind

/-- The list shows exactly the values that the map holds. -/
theorem mem_toList {s : Slots V} {i : Nat} {v : V} :
    (i, v) ∈ s.toList ↔ s.get? i = some v := by
  unfold toList get?
  simp only [List.mem_filterMap, Prod.exists, List.mem_zipIdx_iff_getElem?]
  constructor
  · rintro ⟨v?, j, hj, hv⟩
    obtain ⟨w, rfl, hw⟩ := Option.map_eq_some_iff.mp hv
    obtain ⟨rfl, rfl⟩ := Prod.mk.inj hw
    simp [hj]
  · intro h
    exact ⟨some v, i, Option.join_eq_some_iff.mp h, rfl⟩

/-! ## Tight rows -/

theorem isTight_empty : (empty : Slots V).IsTight := by
  simp [IsTight, empty]

/-- A row with slots is tight exactly when its last index has a value. -/
theorem isTight_iff {s : Slots V} :
    s.IsTight ↔ s.width = 0 ∨ (s.get? (s.width - 1)).isSome := by
  unfold IsTight get? width
  rw [List.getLast?_eq_getElem?]
  rcases Nat.eq_zero_or_pos s.entries.length with h | h
  · simp [List.length_eq_zero_iff.mp h]
  · have hlast : s.entries.length - 1 < s.entries.length := by omega
    rw [List.getElem?_eq_getElem hlast]
    cases s.entries[s.entries.length - 1] with
    | none => simp [List.ne_nil_of_length_pos h]
    | some v => simp

theorem width_insert (s : Slots V) (i : Nat) (v : V) :
    (s.insert i v).width = max s.width (i + 1) := by
  unfold insert width
  split <;> simp <;> omega

@[simp] theorem width_modify (s : Slots V) (i : Nat) (f : V → V) :
    (s.modify i f).width = s.width := by
  simp [modify, width]

theorem isTight_insert {s : Slots V} (h : s.IsTight) (i : Nat) (v : V) :
    (s.insert i v).IsTight := by
  rw [isTight_iff] at h ⊢
  rw [width_insert, get?_insert]
  grind

theorem isTight_modify {s : Slots V} (h : s.IsTight) (i : Nat) (f : V → V) :
    (s.modify i f).IsTight := by
  rw [isTight_iff] at h ⊢
  rw [width_modify, get?_modify]
  grind

end Slots

end TreeBorrows
