/-
# Run maps

A run map gives a value to every offset below its size.  It is kept as runs laid end to end
from offset 0, so two runs can neither overlap nor leave a gap; that no run is empty is the
separate predicate `RunMap.IsProper`.

* `valueAt?` is what the map means; how its runs are cut is not.
* `cut` divides a list of runs at an offset, and every operation on a range is built from it:
  `carve` is the map in three parts, before, inside and after the range.
* `merge` joins neighbours that hold the same value.

What each operation does to the meaning of a map is in `RunMap/Lemmas.lean`.
-/
import TreeBorrows.ByteRange

namespace TreeBorrows

/-- A value held by `length` offsets in a row. -/
structure Run (α : Type) where
  length : Nat
  value : α
deriving DecidableEq

/-- A run together with the place where it lies. -/
structure Element (α : Type) where
  start : Nat
  stop : Nat
  value : α
deriving DecidableEq

/-- The offsets that an element covers. -/
def Element.range {α : Type} (e : Element α) : ByteRange := .ofSpan e.start e.stop

/-! ## 1. Runs in a row -/

namespace Run

variable {α β : Type}

/-- How many offsets the runs cover together. -/
def total : List (Run α) → Nat
  | [] => 0
  | r :: rs => r.length + total rs

/-- The value at an offset, counted from the first run. -/
def valueAt? : List (Run α) → Nat → Option α
  | [], _ => none
  | r :: rs, o => if o < r.length then some r.value else valueAt? rs (o - r.length)

/-- The runs with their places, when the first one starts at `start`. -/
def elements (start : Nat) : List (Run α) → List (Element α)
  | [] => []
  | r :: rs => ⟨start, start + r.length, r.value⟩ :: elements (start + r.length) rs

/-- The runs below offset `n`, and the rest.  The run that offset `n` lies inside of is divided
in two. -/
def cut (n : Nat) : List (Run α) → List (Run α) × List (Run α)
  | [] => ([], [])
  | r :: rs =>
    if n = 0 then ([], r :: rs)
    else if r.length ≤ n then
      let (low, high) := cut (n - r.length) rs
      (r :: low, high)
    else ([⟨n, r.value⟩], ⟨r.length - n, r.value⟩ :: rs)

/-- New values for the runs; `f` sees the old value. -/
def mapValues (f : α → β) (rs : List (Run α)) : List (Run β) :=
  rs.map fun r => ⟨r.length, f r.value⟩

/-- The runs after one change each, in order.  Runs beyond the last change stay as they are. -/
def change (f : α → β → α) : List (Run α) → List β → List (Run α)
  | r :: rs, c :: cs => ⟨r.length, f r.value c⟩ :: change f rs cs
  | rs, _ => rs

/-- The runs with equal neighbours joined. -/
def merge [DecidableEq α] : List (Run α) → List (Run α)
  | [] => []
  | r :: rs =>
    match merge rs with
    | [] => [r]
    | s :: ss =>
      if r.value = s.value then ⟨r.length + s.length, s.value⟩ :: ss else r :: s :: ss

end Run

/-! ## 2. The map -/

/-- A value for every offset below the map's size, as runs from offset 0 on. -/
structure RunMap (α : Type) where
  runs : List (Run α)
deriving DecidableEq

/-- A run map in three parts: the runs before a range, inside it and after it. -/
structure Carving (α : Type) where
  before : List (Run α)
  inside : List (Run α)
  after : List (Run α)
deriving DecidableEq

/-- The three parts laid end to end. -/
def Carving.join {α : Type} (c : Carving α) : RunMap α := ⟨c.before ++ c.inside ++ c.after⟩

namespace RunMap

variable {α β : Type}

/-- No run is empty. -/
def IsProper (m : RunMap α) : Prop := ∀ r ∈ m.runs, 0 < r.length

/-- One value for every offset below `size`. -/
def ofSize (size : Nat) (value : α) : RunMap α :=
  if size = 0 then ⟨[]⟩ else ⟨[⟨size, value⟩]⟩

/-- How many offsets the map covers. -/
def size (m : RunMap α) : Nat := Run.total m.runs

/-- How many runs the map is kept in. -/
def runCount (m : RunMap α) : Nat := m.runs.length

/-- The value at an offset. -/
def valueAt? (m : RunMap α) (o : Nat) : Option α := Run.valueAt? m.runs o

/-- The runs with their places, in ascending order. -/
def elements (m : RunMap α) : List (Element α) := Run.elements 0 m.runs

/-- Whether a range can be walked: its end is a word and lies inside the map. -/
def checkRange (m : RunMap α) (r : ByteRange) : Except Fault Unit :=
  match Word.add r.start r.size with
  | .error f => .error f
  | .ok stop => if stop ≤ m.size then .ok () else .error .beyondMap

/-- The map in three parts.  A range without bytes divides no run. -/
def carve (m : RunMap α) (r : ByteRange) : Carving α :=
  if r.isEmpty then ⟨m.runs, [], []⟩
  else
    let (before, rest) := Run.cut r.start m.runs
    let (inside, after) := Run.cut r.size rest
    ⟨before, inside, after⟩

/-- The same values, with runs divided at both ends of the range. -/
def split (m : RunMap α) (r : ByteRange) : RunMap α := (m.carve r).join

/-- The elements inside a range, divided at its ends. -/
def inside (m : RunMap α) (r : ByteRange) : List (Element α) :=
  Run.elements r.start (m.carve r).inside

/-- The elements that share an offset with a range, as they are kept. -/
def touching (m : RunMap α) (r : ByteRange) : List (Element α) :=
  if r.isEmpty then []
  else (m.elements.dropWhile (·.stop ≤ r.start)).takeWhile (·.start < r.stop)

/-- New values inside a range. -/
def update (m : RunMap α) (r : ByteRange) (f : α → α) : RunMap α :=
  let c := m.carve r
  Carving.join { c with inside := Run.mapValues f c.inside }

/-- New values inside a range, one change for each of its elements in order. -/
def change (m : RunMap α) (r : ByteRange) (f : α → β → α) (changes : List β) : RunMap α :=
  let c := m.carve r
  Carving.join { c with inside := Run.change f c.inside changes }

/-- The elements inside a range and the map after an update of them, unless the range cannot be
walked. -/
def tryUpdate (m : RunMap α) (r : ByteRange) (f : α → α) :
    Except Fault (List (Element α) × RunMap α) :=
  (m.checkRange r).map fun () => (m.inside r, m.update r f)

/-- The elements that share an offset with a range, unless the range cannot be walked. -/
def tryTouching (m : RunMap α) (r : ByteRange) : Except Fault (List (Element α)) :=
  (m.checkRange r).map fun () => m.touching r

/-- New values everywhere. -/
def map (m : RunMap α) (f : α → β) : RunMap β := ⟨Run.mapValues f m.runs⟩

/-- The same values in the fewest runs. -/
def merge [DecidableEq α] (m : RunMap α) : RunMap α := ⟨Run.merge m.runs⟩

end RunMap

end TreeBorrows
