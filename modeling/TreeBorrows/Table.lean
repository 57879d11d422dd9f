/-
# Tables

A finite map from keys to values, kept in the order in which the keys were first inserted.
-/

namespace TreeBorrows

/-- Keys with their values, oldest key first. -/
structure Table (K V : Type) where
  entries : List (K × V)
deriving DecidableEq

namespace Table

variable {K V : Type}

/-- No key has a value. -/
def empty : Table K V := ⟨[]⟩

/-- How many keys have a value. -/
def size (t : Table K V) : Nat := t.entries.length

variable [DecidableEq K]

/-- The value of a key. -/
def get? (t : Table K V) (k : K) : Option V := t.entries.lookup k

/-- The key has a value. -/
def contains (t : Table K V) (k : K) : Bool := (t.get? k).isSome

/-- A value for a key, in place of any earlier one. -/
def insert (t : Table K V) (k : K) (v : V) : Table K V :=
  ⟨put t.entries⟩
where
  put : List (K × V) → List (K × V)
  | [] => [(k, v)]
  | (k', v') :: rest => if k = k' then (k, v) :: rest else (k', v') :: put rest

/-- The table without a key. -/
def erase (t : Table K V) (k : K) : Table K V :=
  ⟨t.entries.filter (·.1 ≠ k)⟩

@[simp] theorem get?_empty (k : K) : (empty : Table K V).get? k = none := rfl

theorem get?_insert (t : Table K V) (k k' : K) (v : V) :
    (t.insert k v).get? k' = if k' = k then some v else t.get? k' := by
  obtain ⟨entries⟩ := t
  unfold insert get?
  induction entries with
  | nil => grind [insert.put]
  | cons e rest ih => grind [insert.put]

theorem get?_erase (t : Table K V) (k k' : K) :
    (t.erase k).get? k' = if k' = k then none else t.get? k' := by
  obtain ⟨entries⟩ := t
  unfold erase get?
  induction entries with
  | nil => simp
  | cons e rest ih => grind

/-- The value of an erased key does not matter. -/
theorem erase_insert_self (t : Table K V) (k : K) (v : V) : (t.insert k v).erase k = t.erase k := by
  obtain ⟨entries⟩ := t
  refine congrArg mk ?_
  show (insert.put k v entries).filter (·.1 ≠ k) = _
  induction entries with
  | nil => simp [insert.put]
  | cons e rest ih => grind [insert.put]

/-- An erased key is not in the way of another one. -/
theorem erase_insert_of_ne (t : Table K V) {k k' : K} (h : k ≠ k') (v : V) :
    (t.insert k v).erase k' = (t.erase k').insert k v := by
  obtain ⟨entries⟩ := t
  refine congrArg mk ?_
  show (insert.put k v entries).filter (·.1 ≠ k') = insert.put k v (entries.filter (·.1 ≠ k'))
  induction entries with
  | nil => simp [insert.put, h]
  | cons e rest ih => grind [insert.put]

theorem erase_comm (t : Table K V) (k k' : K) : (t.erase k).erase k' = (t.erase k').erase k := by
  simp only [erase, List.filter_filter, Bool.and_comm]

theorem erase_erase (t : Table K V) (k : K) : (t.erase k).erase k = t.erase k := by
  simp only [erase, List.filter_filter, Bool.and_self]

theorem contains_insert_iff {t : Table K V} {k k' : K} {v : V} :
    (t.insert k v).contains k' = true ↔ k' = k ∨ t.contains k' = true := by
  rw [contains, get?_insert]
  by_cases h : k' = k
  · simp [h]
  · simp [h, contains]

theorem contains_of_contains_erase {t : Table K V} {k k' : K}
    (h : (t.erase k).contains k' = true) : t.contains k' = true := by
  rw [contains, get?_erase] at h
  split at h
  · nomatch h
  · exact h

end Table

end TreeBorrows
