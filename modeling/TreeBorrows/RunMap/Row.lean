/-
# Rows of elements

How a run map is laid out in memory: a vector of elements, each with the place where it lies.
Nothing in such a row says that its elements are in order, or that they meet.  The operations find
their way by index and by comparing offsets, and stop with a `Breach` where the row is not as they
expect it.

* `find` is the index of the element that holds an offset.
* `splitAt` divides an element in two.
* `walk` divides a row at both ends of a range and gives the elements inside; `read` gives the
  elements that share an offset with a range, as they are kept.
* `merge` joins neighbours that hold the same value.

A `RunMap` is the same data without places.  That no operation stops on the elements of a run map,
and that each does what the run map's own operation does, is in `Proofs/RunMap/Row.lean`.
-/
import TreeBorrows.RunMap.Basic

namespace TreeBorrows

/-- A vector of elements. -/
abbrev Row (α : Type) := List (Element α)

/-- Why an operation on a row has to stop. -/
inductive Breach where
  /-- The end of the range is no word, or it lies past the last element. -/
  | range (fault : Fault)
  /-- An index leads to no element, or two indices bound no slice. -/
  | noElement
  /-- The elements that end by some offset are not the first ones of the row. -/
  | unordered
  /-- The element found for an offset does not hold it. -/
  | offsetMissed
  /-- An element is to be divided at an offset that it does not hold. -/
  | splitOutside
  /-- Neighbours that hold the same value do not meet. -/
  | gap
deriving DecidableEq

namespace Row

variable {α : Type}

/-! ## 1. Finding elements -/

/-- One past the last offset. -/
def size (v : Row α) : Nat := (v.getLast?.map Element.stop).getD 0

/-- The end of a range that lies inside of the row. -/
def stopOf (v : Row α) (r : ByteRange) : Except Breach Nat :=
  match Word.add r.start r.size with
  | .error f => .error (.range f)
  | .ok stop => if stop ≤ size v then .ok stop else .error (.range .beyondMap)

/-- The index of the element that holds an offset. -/
def find (v : Row α) (offset : Nat) : Except Breach Nat :=
  let i := (v.takeWhile (·.stop ≤ offset)).length
  -- a search by halves finds this index only if no later element ends by the offset
  if (v.drop i).any (·.stop ≤ offset) then .error .unordered
  else
    match v[i]? with
    | none => .error .noElement
    | some e => if offset ∈ e.range then .ok i else .error .offsetMissed

/-- The first index, from `i` on, of an element that does not end before `stop`. -/
def findEnd (v : Row α) (stop i : Nat) : Except Breach Nat :=
  match h : v[i]? with
  | none => .error .noElement
  | some e => if e.stop < stop then findEnd v stop (i + 1) else .ok i
termination_by v.length - i
decreasing_by
  have hi := (List.getElem?_eq_some_iff.mp h).1
  omega

/-- The elements from one index to another one, both included. -/
def slice (v : Row α) (first last : Nat) : Except Breach (Row α) :=
  if first ≤ last + 1 ∧ last < v.length then .ok ((v.take (last + 1)).drop first)
  else .error .noElement

/-! ## 2. Ranges -/

/-- The row with one element divided, so that a part of it starts at the offset, and whether there
was anything to divide. -/
def splitAt (v : Row α) (i offset : Nat) : Except Breach (Row α × Bool) :=
  match v[i]? with
  | none => .error .noElement
  | some e =>
    if offset = e.start ∨ offset = e.stop then .ok (v, false)
    else if offset ∈ e.range then
      .ok ((v.set i { e with stop := offset }).insertIdx (i + 1) { e with start := offset }, true)
    else .error .splitOutside

/-- The row divided at both ends of a range, and the elements inside of it. -/
def walk (v : Row α) (r : ByteRange) : Except Breach (Row α × Row α) := do
  let stop ← stopOf v r
  if r.isEmpty then return (v, [])
  let found ← find v r.start
  let (v, divided) ← splitAt v found r.start
  let first := if divided then found + 1 else found
  let last ← findEnd v stop first
  let (v, _) ← splitAt v last stop
  return (v, ← slice v first last)

/-- The elements that share an offset with a range. -/
def read (v : Row α) (r : ByteRange) : Except Breach (Row α) := do
  let stop ← stopOf v r
  if r.isEmpty then return []
  let first ← find v r.start
  return (v.drop first).takeWhile (·.start < stop)

/-! ## 3. Joined neighbours -/

section Merge

variable [DecidableEq α]

/-- A row with one more element at its end, which the last one takes in if it holds the same
value. -/
def push (v : Row α) (e : Element α) : Except Breach (Row α) :=
  match v.getLast? with
  | none => .ok [e]
  | some last =>
    if last.value = e.value then
      if last.stop = e.start then .ok (v.dropLast ++ [{ last with stop := e.stop }])
      else .error .gap
    else .ok (v ++ [e])

/-- The row with neighbours joined, from left to right. -/
def merge (v : Row α) : Except Breach (Row α) := v.foldlM push []

end Merge

end Row

end TreeBorrows
