/-
# Rows that tile a range

What a row of elements has to be like to give one value to every offset of a range: its elements
follow each other without a gap and without an overlap, none is empty, the first one starts where
the range does and the last one ends where it does (`Row.Tiles`).  If each element also shows what a
function has at its offsets, the row represents the function on the range (`Row.Represents`).

* The elements of runs without empty ones represent what the runs mean (`Run.represents_elements`),
  those of a whole map (`RunMap.represents_elements`) and those inside a range
  (`RunMap.represents_inside`) alike.
* A row that tiles a range is made of the elements of some runs (`Row.Tiles.elements_map_run`), so
  whatever can be represented at all is represented by a run map (`Row.Represents.exists_runMap`).
* In a row that tiles a range, passing over the elements that end early and stopping at the first
  one that starts late finds the elements that share an offset with a given range, and no others
  (`RunMap.touching_eq_filter`).
-/
import TreeBorrows.Proofs.RunMap.Row

namespace TreeBorrows

variable {α : Type}

/-! ## 1. What a row represents -/

namespace Row

/-- Nonempty elements laid end to end, from one offset to another. -/
def Tiles : Row α → Nat → Nat → Prop
  | [], start, stop => start = stop
  | e :: v, start, stop => e.start = start ∧ start < e.stop ∧ Tiles v e.stop stop

/-- The elements tile a range and show the contents of each of its offsets. -/
structure Represents (v : Row α) (start stop : Nat) (contents : Nat → Option α) : Prop where
  tiles : v.Tiles start stop
  shows : ∀ e ∈ v, ∀ o ∈ e.range, contents o = some e.value

variable {v : Row α} {start stop : Nat}

theorem Tiles.start_le_of_mem (h : v.Tiles start stop) {e : Element α} (he : e ∈ v) :
    start ≤ e.start := by
  induction v generalizing start with
  | nil => exact absurd he List.not_mem_nil
  | cons x v ih =>
    obtain ⟨hstart, hlt, hrest⟩ := h
    rcases List.mem_cons.mp he with rfl | he
    · exact Nat.le_of_eq hstart.symm
    · exact Nat.le_trans (Nat.le_of_lt hlt) (ih hrest he)

theorem Tiles.start_le_stop (h : v.Tiles start stop) : start ≤ stop := by
  induction v generalizing start with
  | nil => exact Nat.le_of_eq h
  | cons e v ih =>
    obtain ⟨-, hlt, hrest⟩ := h
    exact Nat.le_trans (Nat.le_of_lt hlt) (ih hrest)

theorem Tiles.stop_le_of_mem (h : v.Tiles start stop) {e : Element α} (he : e ∈ v) :
    e.start < e.stop ∧ e.stop ≤ stop := by
  induction v generalizing start with
  | nil => exact absurd he List.not_mem_nil
  | cons x v ih =>
    obtain ⟨rfl, hlt, hrest⟩ := h
    rcases List.mem_cons.mp he with rfl | he
    · exact ⟨hlt, hrest.start_le_stop⟩
    · exact ih hrest he

/-- Neighbours meet. -/
theorem Tiles.stop_eq_start {A C : Row α} {e e' : Element α}
    (h : Tiles (A ++ e :: e' :: C) start stop) : e.stop = e'.start := by
  induction A generalizing start with
  | nil => exact h.2.2.1.symm
  | cons x A ih => exact ih h.2.2

end Row

/-! ## 2. Elements of runs -/

namespace Run

variable {rs : List (Run α)}

theorem tiles_elements (h : ∀ r ∈ rs, 0 < r.length) (start : Nat) :
    Row.Tiles (elements start rs) start (start + total rs) := by
  induction rs generalizing start with
  | nil => rfl
  | cons r rs ih =>
    have hr := h r List.mem_cons_self
    refine ⟨rfl, Nat.lt_add_of_pos_right hr, ?_⟩
    rw [total_cons, ← Nat.add_assoc]
    exact ih (fun s hs => h s (List.mem_cons_of_mem r hs)) (start + r.length)

/-- The elements of runs represent what the runs mean. -/
theorem represents_elements (h : ∀ r ∈ rs, 0 < r.length) {start : Nat} {contents : Nat → Option α}
    (hcontents : ∀ o < total rs, contents (start + o) = valueAt? rs o) :
    Row.Represents (elements start rs) start (start + total rs) contents where
  tiles := tiles_elements h start
  shows := by
    intro e he o ho
    obtain ⟨hstart, hstop, hvalue⟩ := valueAt?_of_mem_elements he
    rw [Element.mem_range_iff] at ho
    obtain ⟨k, rfl⟩ : ∃ k, o = start + k := ⟨o - start, by omega⟩
    rw [hcontents k (by omega)]
    exact hvalue k ho.1 ho.2

end Run

namespace RunMap

variable {m : RunMap α} {r : ByteRange}

theorem represents_elements (hm : m.IsProper) :
    Row.Represents m.elements 0 m.size m.valueAt? := by
  have hvalues : ∀ o < m.size, m.valueAt? (0 + o) = Run.valueAt? m.runs o := by
    intro o _
    rw [Nat.zero_add, valueAt?]
  have h := Run.represents_elements hm hvalues
  rwa [Nat.zero_add] at h

/-- The elements inside a range tile it, also where it has no bytes. -/
theorem represents_inside (hm : m.IsProper) (hr : r.stop ≤ m.size) :
    Row.Represents (m.inside r) r.start r.stop m.valueAt? where
  tiles := by
    cases hne : r.isEmpty with
    | true =>
      rw [inside_of_isEmpty hne]
      have hsize := ByteRange.isEmpty_iff.mp hne
      show r.start = r.start + r.size
      omega
    | false =>
      obtain ⟨-, htotal⟩ := total_carve_of_le hne hr
      have h := Run.tiles_elements (length_pos_of_mem_carve hm r).2.1 r.start
      rwa [htotal] at h
  shows := by
    intro e he o ho
    rw [Element.mem_range_iff] at ho
    exact ((mem_inside hm hr he).2 o ho.1 ho.2).2

end RunMap

/-! ## 3. Runs of elements -/

/-- An element without its place. -/
def Element.run (e : Element α) : Run α := ⟨e.stop - e.start, e.value⟩

namespace Row

variable {v : Row α} {start stop : Nat}

/-- Nothing but its place is lost with the places of a row that tiles a range. -/
theorem Tiles.elements_map_run (h : v.Tiles start stop) :
    Run.elements start (v.map Element.run) = v := by
  induction v generalizing start with
  | nil => rfl
  | cons e v ih =>
    obtain ⟨rfl, hlt, hrest⟩ := h
    have hstop : e.start + (e.stop - e.start) = e.stop := by omega
    rw [List.map_cons, Run.elements, Element.run, hstop, ih hrest]

theorem Tiles.length_pos_of_mem_map_run (h : v.Tiles start stop) :
    ∀ r ∈ v.map Element.run, 0 < r.length := by
  induction v generalizing start with
  | nil => simp
  | cons e v ih =>
    obtain ⟨rfl, hlt, hrest⟩ := h
    intro r hr
    rcases List.mem_cons.mp hr with rfl | hr
    · exact Nat.sub_pos_of_lt hlt
    · exact ih hrest r hr

theorem Tiles.total_map_run (h : v.Tiles start stop) :
    start + Run.total (v.map Element.run) = stop := by
  induction v generalizing start with
  | nil => exact h
  | cons e v ih =>
    obtain ⟨rfl, hlt, hrest⟩ := h
    have := ih hrest
    rw [List.map_cons, Run.total_cons, Element.run]
    dsimp only
    omega

/-- A row that tiles the offsets from 0 on holds the elements of a run map. -/
theorem Tiles.exists_runMap (h : v.Tiles 0 stop) :
    ∃ m : RunMap α, m.IsProper ∧ m.size = stop ∧ m.elements = v := by
  have htotal := h.total_map_run
  rw [Nat.zero_add] at htotal
  exact ⟨⟨v.map Element.run⟩, h.length_pos_of_mem_map_run, htotal, h.elements_map_run⟩

/-- **What a row represents, a run map means**, and its elements are the row. -/
theorem Represents.exists_runMap {contents : Nat → Option α} (h : v.Represents 0 stop contents) :
    ∃ m : RunMap α, m.IsProper ∧ m.size = stop ∧ m.elements = v ∧
      ∀ o < stop, m.valueAt? o = contents o := by
  obtain ⟨m, hm, rfl, rfl⟩ := h.tiles.exists_runMap
  refine ⟨m, hm, rfl, rfl, fun o ho => ?_⟩
  obtain ⟨e, he, hstart, hstop⟩ := Run.exists_mem_elements 0 ho
  have hvalue := (Run.valueAt?_of_mem_elements he).2.2 o hstart hstop
  rw [Nat.zero_add] at hstart hstop
  rw [RunMap.valueAt?, hvalue, h.shows e he o (Element.mem_range_iff.mpr ⟨hstart, hstop⟩)]

end Row

/-! ## 4. Elements that share an offset with a range -/

/-- Some offset lies in the element and in the range. -/
def Element.Meets (e : Element α) (r : ByteRange) : Prop := ∃ o ∈ e.range, o ∈ r

theorem Element.meets_iff {e : Element α} {r : ByteRange} :
    e.Meets r ↔ max e.start r.start < min e.stop r.stop := by
  unfold Meets ByteRange.stop
  constructor
  · rintro ⟨o, ho, ho'⟩
    rw [Element.mem_range_iff] at ho
    rw [ByteRange.mem_iff] at ho'
    omega
  · intro h
    refine ⟨max e.start r.start, ?_, ?_⟩
    · rw [Element.mem_range_iff]
      omega
    · rw [ByteRange.mem_iff]
      omega

instance (e : Element α) (r : ByteRange) : Decidable (e.Meets r) :=
  decidable_of_iff _ Element.meets_iff.symm

namespace Row

variable {v : Row α} {start stop : Nat} {r : ByteRange}

/-- Where no element ends before the range starts, those that start before its end share an offset
with it. -/
theorem Tiles.takeWhile_eq_filter (h : v.Tiles start stop) (hstart : r.start ≤ start)
    (hne : r.start < r.stop) : v.takeWhile (·.start < r.stop) = v.filter (·.Meets r) := by
  induction v generalizing start with
  | nil => rfl
  | cons e v ih =>
    have hall := fun x hx => Tiles.start_le_of_mem h (e := x) hx
    obtain ⟨rfl, hlt, hrest⟩ := h
    by_cases hstop : e.start < r.stop
    · have hmeets : e.Meets r := Element.meets_iff.mpr (by omega)
      rw [List.takeWhile_cons_of_pos (by simpa using hstop),
        List.filter_cons_of_pos (by simpa using hmeets), ih hrest (by omega)]
    · rw [List.takeWhile_cons_of_neg (by simpa using hstop), eq_comm, List.filter_eq_nil_iff]
      intro x hx
      have hx := hall x hx
      rw [decide_eq_true_eq, Element.meets_iff]
      omega

/-- The elements between those that end too early and those that start too late are the ones that
share an offset with the range. -/
theorem Tiles.takeWhile_dropWhile_eq_filter (h : v.Tiles start stop) (hne : r.start < r.stop) :
    (v.dropWhile (·.stop ≤ r.start)).takeWhile (·.start < r.stop) = v.filter (·.Meets r) := by
  induction v generalizing start with
  | nil => rfl
  | cons e v ih =>
    by_cases hearly : e.stop ≤ r.start
    · have hmeets : ¬e.Meets r := by
        rw [Element.meets_iff]
        omega
      rw [List.dropWhile_cons_of_pos (by simpa using hearly),
        List.filter_cons_of_neg (by simpa using hmeets), ih h.2.2]
    · rw [List.dropWhile_cons_of_neg (by simpa using hearly)]
      by_cases hstart : r.start ≤ start
      · exact h.takeWhile_eq_filter hstart hne
      · obtain ⟨rfl, hlt, hrest⟩ := h
        have hmeets : e.Meets r := Element.meets_iff.mpr (by omega)
        rw [List.takeWhile_cons_of_pos (by simp only [decide_eq_true_eq]; omega),
          List.filter_cons_of_pos (by simpa using hmeets),
          hrest.takeWhile_eq_filter (by omega) hne]

end Row

/-- **A look at a range shows the elements that share an offset with it**, all of them, in order and
as they are kept. -/
theorem RunMap.touching_eq_filter {m : RunMap α} (hm : m.IsProper) (r : ByteRange) :
    m.touching r = m.elements.filter (·.Meets r) := by
  unfold touching
  split
  · next hempty =>
    rw [eq_comm, List.filter_eq_nil_iff]
    rintro e - hmeets
    obtain ⟨o, -, ho⟩ := of_decide_eq_true hmeets
    exact ByteRange.not_mem_of_isEmpty hempty o ho
  · next hempty =>
    have hsize : r.size ≠ 0 := fun h => hempty (ByteRange.isEmpty_iff.mpr h)
    have hne : r.start < r.stop := Nat.lt_add_of_pos_right (Nat.pos_of_ne_zero hsize)
    exact (represents_elements hm).tiles.takeWhile_dropWhile_eq_filter hne

end TreeBorrows
