/-
# Rows changed in place

The operations of `RunMap/Row.lean` take a row and give a new one, or stop and give nothing.  In
memory there is one row, and an operation that stops halfway leaves it in the middle of its work.
An `Edit` is an operation on that row: it answers or stops, and leaves a row either way.

* `updateRange` divides the row at both ends of a range and writes to every element in between.
  It answers with these elements as they were before.
* `updateAll` writes to every element.
* `changeRange` goes through the elements of a range and a list of changes side by side, and writes
  one change to each element.
* `mergeAll` takes all elements out of the row and puts them back one by one.

`Action` is a call of the first, the second or the last of them, and `Row.run` makes one call after
the other, each on the row that the last one left.  `RunMap.run` is the same for run maps, where a
call that fails changes nothing.  That the two agree is in `Proofs/RunMap/TotalMap.lean`, and that
`changeRange` does what `RunMap.change` does in `Proofs/RunMap/SecondLook.lean`.
-/
import TreeBorrows.RunMap.Row

namespace TreeBorrows

variable {α β γ : Type}

/-- An element with a new value in the same place; `f` sees the old one. -/
def Element.mapValue (f : α → α) (e : Element α) : Element α := { e with value := f e.value }

namespace Row

/-- An operation on a row in memory. -/
abbrev Edit (α β : Type) := ExceptT Breach (StateM (Row α)) β

/-- What an operation answers, and the row that it leaves. -/
def Edit.on (x : Edit α β) (v : Row α) : Except Breach β × Row α := (ExceptT.run x).run v

/-! ## 1. Steps -/

/-- A look at the row, which may find that it has to stop. -/
def ask (look : Row α → Except Breach β) : Edit α β := ExceptT.mk do return look (← get)

/-- Divides an element so that a part of it starts at the offset, and answers whether there was
anything to divide. -/
def splitElement (i offset : Nat) : Edit α Bool := do
  let (v, divided) ← ask (splitAt · i offset)
  set v
  return divided

/-- New values for the elements from one index to another one, both included. -/
def rewrite (v : Row α) (first last : Nat) (f : α → α) : Row α :=
  v.mapIdx fun i e => if first ≤ i ∧ i ≤ last then e.mapValue f else e

/-- Adds an element at the end of the row, which the last one takes in if it holds the same
value. -/
def pushElement [DecidableEq α] (e : Element α) : Edit α Unit := do
  set (← ask (push · e))

/-- A new value for the element that lies where `e` does. -/
def writeElement (e : Element α) (f : α → α) : Edit α Unit :=
  modify (List.map fun x => if x.start = e.start then x.mapValue f else x)

/-! ## 2. Whole operations -/

/-- A row with one element for all offsets below `size`. -/
def ofSize (size : Nat) (value : α) : Row α := if 0 < size then [⟨0, size, value⟩] else []

/-- New values inside a range.  The answer holds the elements of the range in the order in which
they are written to, with their old values. -/
def updateRange (r : ByteRange) (f : α → α) : Edit α (Row α) := do
  let stop ← ask (stopOf · r)
  if r.isEmpty then return []
  let found ← ask (find · r.start)
  let divided ← splitElement found r.start
  let first := if divided then found + 1 else found
  let last ← ask (findEnd · stop first)
  let _ ← splitElement last stop
  let seen ← ask (slice · first last)
  modify (rewrite · first last f)
  return seen

/-- New values everywhere, with the same answer. -/
def updateAll (f : α → α) : Edit α (Row α) := do
  let seen ← get
  modify (List.map (Element.mapValue f))
  return seen

/-- New values inside a range, one change for each of its elements in order.  The answer holds each
element with its change; where one list is longer than the other, the rest of it is passed over. -/
def changeRange (r : ByteRange) (f : α → β → α) (changes : List β) :
    Edit α (List (Element α × β)) := do
  let seen ← updateRange r id
  forM (seen.zip changes) fun (e, change) => writeElement e (f · change)
  return seen.zip changes

/-- Joins neighbours that hold the same value. -/
def mergeAll [DecidableEq α] : Edit α Unit := do
  let v ← get
  set ([] : Row α)
  forM v pushElement

end Row

/-! ## 3. One operation after the other -/

/-- A call of an operation that changes a map. -/
inductive RunMap.Action (α : Type) where
  | update (r : ByteRange) (f : α → α)
  | updateAll (f : α → α)
  | merge

section Runs

variable [DecidableEq α]

/-- What a call does to a row in memory.  It answers with the elements that it has written to. -/
def Row.perform : RunMap.Action α → Row.Edit α (Row α)
  | .update r f => updateRange r f
  | .updateAll f => updateAll f
  | .merge => do
    mergeAll
    return []

/-- The row after some calls, those that had to stop included. -/
def Row.run (v : Row α) (actions : List (RunMap.Action α)) : Row α :=
  actions.foldl (fun v action => ((Row.perform action).on v).2) v

/-- What a call does to a run map, with the same answer. -/
def RunMap.perform (m : RunMap α) : Action α → Except Fault (Row α) × RunMap α
  | .update r f =>
    match m.tryUpdate r f with
    | .ok (seen, m') => (.ok seen, m')
    | .error fault => (.error fault, m)
  | .updateAll f => (.ok m.elements, m.map f)
  | .merge => (.ok [], m.merge)

/-- The run map after some calls. -/
def RunMap.run (m : RunMap α) (actions : List (Action α)) : RunMap α :=
  actions.foldl (fun m action => (m.perform action).2) m

end Runs

namespace Row

/-! ## 4. What one step answers and leaves -/

variable {v w : Row α} {x : Edit α β}

theorem on_bind (x : Edit α β) (k : β → Edit α γ) (v : Row α) :
    Edit.on (x >>= k) v = match x.on v with
      | (.ok b, w) => (k b).on w
      | (.error breach, w) => (.error breach, w) := by
  unfold Edit.on ExceptT.run StateT.run
  simp only [bind, ExceptT.bind, ExceptT.mk, StateT.bind]
  cases x v with
  | mk answer w => cases answer <;> rfl

theorem on_bind_of_ok {b : β} (h : x.on v = (.ok b, w)) (k : β → Edit α γ) :
    Edit.on (x >>= k) v = (k b).on w := by
  rw [on_bind, h]

/-- Nothing follows a step that has to stop. -/
theorem on_bind_of_error {breach : Breach} (h : x.on v = (.error breach, w)) (k : β → Edit α γ) :
    Edit.on (x >>= k) v = (.error breach, w) := by
  rw [on_bind, h]

/-- A look leaves the row as it is. -/
@[simp] theorem on_ask (look : Row α → Except Breach β) : (ask look).on v = (look v, v) := rfl

@[simp] theorem on_pure (b : β) : (pure b : Edit α β).on v = (.ok b, v) := rfl

@[simp] theorem on_get : (get : Edit α (Row α)).on v = (.ok v, v) := rfl

@[simp] theorem on_set : (set w : Edit α Unit).on v = (.ok (), w) := rfl

@[simp] theorem on_modify (f : Row α → Row α) : (modify f : Edit α Unit).on v = (.ok (), f v) := rfl

@[simp] theorem on_writeElement (e : Element α) (f : α → α) : (writeElement e f).on v =
    (.ok (), v.map fun x => if x.start = e.start then x.mapValue f else x) := rfl

theorem on_splitElement {i offset : Nat} {divided : Bool}
    (h : splitAt v i offset = .ok (w, divided)) :
    (splitElement i offset).on v = (.ok divided, w) := by
  unfold splitElement
  rw [on_bind_of_ok (b := (w, divided)) (w := v) (by rw [on_ask, h]), on_bind_of_ok on_set, on_pure]

theorem on_pushElement [DecidableEq α] {e : Element α} (h : push v e = .ok w) :
    (pushElement e).on v = (.ok (), w) := by
  unfold pushElement
  rw [on_bind_of_ok (b := w) (w := v) (by rw [on_ask, h]), on_set]

end Row

end TreeBorrows
