/-
# Registries: dense indices for keys

A registry gives each new key the number of keys registered before it.  Keys are never removed,
so an index never changes its meaning, and the keys in order of registration are the whole
state.
-/
import TreeBorrows.Fault

namespace TreeBorrows

/-- The registered keys, oldest first. -/
structure Registry (K : Type) where
  keys : List K
deriving DecidableEq

namespace Registry

variable {K : Type}

/-- No key is registered. -/
def empty : Registry K := ⟨[]⟩

/-- How many keys are registered. -/
def size (r : Registry K) : Nat := r.keys.length

/-- The first index that is never given out. -/
def indexLimit : Nat := UInt32.size

variable [DecidableEq K]

/-- The key is registered. -/
def contains (r : Registry K) (k : K) : Bool := r.keys.contains k

/-- The index of a key. -/
def index? (r : Registry K) (k : K) : Option Nat := r.keys.idxOf? k

/-- The registry with one more key, and the key's index.  The caller has checked that the key
is new. -/
def insert (r : Registry K) (k : K) : Except Fault (Registry K × Nat) :=
  if indexLimit ≤ r.size then .error .keysExhausted
  else if r.contains k then .error .duplicateKey
  else .ok (⟨r.keys ++ [k]⟩, r.size)

theorem contains_iff {r : Registry K} {k : K} : r.contains k = true ↔ k ∈ r.keys := by
  simp [contains]

theorem index?_eq_none_iff {r : Registry K} {k : K} : r.index? k = none ↔ k ∉ r.keys := by
  simp [index?]

/-- A key's index is the first place at which it stands. -/
theorem getElem?_of_index? {r : Registry K} {k : K} {i : Nat} (h : r.index? k = some i) :
    r.keys[i]? = some k := by
  obtain ⟨hi, hk, _⟩ := List.idxOf?_eq_some_iff.mp h
  rw [List.getElem?_eq_getElem hi, hk]

theorem lt_size_of_index? {r : Registry K} {k : K} {i : Nat} (h : r.index? k = some i) :
    i < r.size :=
  (List.getElem?_eq_some_iff.mp (getElem?_of_index? h)).1

/-- Different keys have different indices. -/
theorem eq_of_index? {r : Registry K} {k l : K} {i : Nat} (hk : r.index? k = some i)
    (hl : r.index? l = some i) : k = l :=
  Option.some.inj ((getElem?_of_index? hk).symm.trans (getElem?_of_index? hl))

theorem insert_eq_ok_iff {r r' : Registry K} {k : K} {i : Nat} :
    r.insert k = .ok (r', i) ↔
      r.size < indexLimit ∧ k ∉ r.keys ∧ r'.keys = r.keys ++ [k] ∧ i = r.size := by
  obtain ⟨keys'⟩ := r'
  unfold insert
  rw [← contains_iff]
  split <;> grind

end Registry

end TreeBorrows
