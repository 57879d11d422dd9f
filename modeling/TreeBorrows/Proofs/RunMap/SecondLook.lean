/-
# The second look at a range

Who looks at a range and comes back to it later, with something to write, relies on finding the same
elements again.  The first look divides the row at both ends of the range, and after that there is
nothing left to divide: the row lies in three parts (`Row.exists_parts`), the elements before the
range, inside of it and after it, and a look at a row in three parts finds the middle one and leaves
all places as they are (`Row.on_updateRange_of_tiles`).

What the elements hold does not matter.  `Row.places` is a row without its values, and a second look
finds the places of the first one in every row with the places that the first one left
(`Row.foundAgain`).  So changes that were worked out at the first look, one for each element, meet
the elements that they are meant for at the second (`RunMap.on_changeRange`).
-/
import TreeBorrows.Proofs.RunMap.TotalMap

namespace TreeBorrows

variable {α β : Type}

/-! ## 1. Places -/

/-- An element that is not empty is told from its place. -/
theorem Element.eq_of_range_eq {e : Element α} {e' : Element β} (h : e'.range = e.range)
    (hlt : e.start < e.stop) : e'.start = e.start ∧ e'.stop = e.stop := by
  obtain ⟨hstart, hsize⟩ := ByteRange.mk.inj h
  omega

namespace Row

/-- Where the elements of a row lie. -/
def places (v : Row α) : List ByteRange := v.map Element.range

@[simp] theorem places_append (v w : Row α) : places (v ++ w) = v.places ++ w.places :=
  List.map_append

@[simp] theorem places_map_mapValue (f : α → α) (v : Row α) :
    places (v.map (Element.mapValue f)) = v.places := by
  simp only [places, List.map_map]
  rfl

variable {A B C v : Row α} {start mid stop size : Nat} {r : ByteRange}

/-- Whether a row tiles a range is a matter of its places. -/
theorem Tiles.of_places (h : v.Tiles start stop) {w : Row β} (hplaces : w.places = v.places) :
    w.Tiles start stop := by
  induction v generalizing w start with
  | nil =>
    obtain rfl := List.map_eq_nil_iff.mp hplaces
    exact h
  | cons e v ih =>
    obtain ⟨e', w, rfl, hrange, hrest⟩ := List.map_eq_cons_iff.mp hplaces
    obtain ⟨rfl, hlt, htail⟩ := h
    obtain ⟨hstart, hstop⟩ := Element.eq_of_range_eq hrange hlt
    exact ⟨hstart, hstop ▸ hlt, hstop ▸ ih htail hrest⟩

theorem Tiles.append (hA : A.Tiles start mid) (hB : B.Tiles mid stop) :
    (A ++ B).Tiles start stop := by
  induction A generalizing start with
  | nil =>
    obtain rfl : start = mid := hA
    exact hB
  | cons e A ih => exact ⟨hA.1, hA.2.1, ih hA.2.2⟩

/-! ## 2. Rows in three parts -/

/-- A row that is divided at both ends of a range is carved there. -/
theorem carve_of_tiles (hA : A.Tiles 0 r.start) (hB : B.Tiles r.start r.stop)
    (hne : r.isEmpty = false) :
    RunMap.carve ⟨(A ++ (B ++ C)).map Element.run⟩ r =
      ⟨A.map Element.run, B.map Element.run, C.map Element.run⟩ := by
  have htotalA := hA.total_map_run
  have htotalB := hB.total_map_run
  unfold ByteRange.stop at htotalB
  have hsizeA : Run.total (A.map Element.run) = r.start := by omega
  have hsizeB : Run.total (B.map Element.run) = r.size := by omega
  have hcutA := Run.cut_append hA.length_pos_of_mem_map_run ((B ++ C).map Element.run)
  have hcutB := Run.cut_append hB.length_pos_of_mem_map_run (C.map Element.run)
  rw [hsizeA, ← List.map_append] at hcutA
  rw [hsizeB, ← List.map_append] at hcutB
  simp only [RunMap.carve, hne, hcutA, hcutB, Bool.false_eq_true, ↓reduceIte]

/-- **In a row that is divided at both ends of a range there is nothing to divide**: an update finds
the elements between them, and writes to these. -/
theorem on_updateRange_of_tiles (hA : A.Tiles 0 r.start) (hB : B.Tiles r.start r.stop)
    (hC : C.Tiles r.stop size) (hlimit : r.stop < Word.limit) (hne : r.isEmpty = false)
    (f : α → α) :
    (updateRange r f).on (A ++ (B ++ C)) = (.ok B, A ++ (B.map (Element.mapValue f) ++ C)) := by
  have hv : (A ++ (B ++ C)).Tiles 0 size := hA.append (hB.append hC)
  have htotal := hv.total_map_run
  have hstop := hC.total_map_run
  rw [Nat.zero_add] at htotal
  have hr : r.stop ≤ RunMap.size ⟨(A ++ (B ++ C)).map Element.run⟩ := by
    rw [RunMap.size, htotal]
    omega
  have hcarve := carve_of_tiles (C := C) hA hB hne
  have hinside : RunMap.inside ⟨(A ++ (B ++ C)).map Element.run⟩ r = B := by
    rw [RunMap.inside, hcarve, hB.elements_map_run]
  have hupdate := RunMap.on_updateRange hv.length_pos_of_mem_map_run
    (RunMap.checkRange_eq_ok_iff.mpr ⟨hlimit, hr⟩) f
  rw [RunMap.elements_update hr hne, hinside, hcarve, hA.elements_map_run, hC.elements_map_run,
    RunMap.elements, hv.elements_map_run] at hupdate
  exact hupdate

/-- An update of a range inside of a row finds or makes the three parts. -/
theorem exists_parts (hv : v.Tiles 0 size) (hlimit : r.stop < Word.limit) (hstop : r.stop ≤ size)
    (hne : r.isEmpty = false) :
    ∃ A B C : Row α, A.Tiles 0 r.start ∧ B.Tiles r.start r.stop ∧ C.Tiles r.stop size ∧
      ∀ f, (updateRange r f).on v = (.ok B, A ++ (B.map (Element.mapValue f) ++ C)) := by
  obtain ⟨m, hm, rfl, rfl⟩ := hv.exists_runMap
  obtain ⟨hbefore, -, hafter⟩ := RunMap.length_pos_of_mem_carve hm r
  obtain ⟨hstart, hsize⟩ := RunMap.total_carve_of_le hne hstop
  have hA := Run.tiles_elements hbefore 0
  rw [hstart, Nat.zero_add] at hA
  have hC := Run.tiles_elements hafter r.stop
  rw [(RunMap.total_carve hne).2.2, Nat.add_sub_cancel' hstop] at hC
  refine ⟨_, _, _, hA, (RunMap.represents_inside hm hstop).tiles, hC, fun f => ?_⟩
  rw [RunMap.on_updateRange hm (RunMap.checkRange_eq_ok_iff.mpr ⟨hlimit, hstop⟩),
    RunMap.elements_update hstop hne]

/-- Where a range has no bytes, nothing is found and nothing changes. -/
theorem on_updateRange_of_isEmpty (hv : v.Tiles 0 size) (hlimit : r.stop < Word.limit)
    (hstop : r.stop ≤ size) (hempty : r.isEmpty = true) (f : α → α) :
    (updateRange r f).on v = (.ok [], v) := by
  obtain ⟨m, hm, rfl, rfl⟩ := hv.exists_runMap
  rw [RunMap.on_updateRange hm (RunMap.checkRange_eq_ok_iff.mpr ⟨hlimit, hstop⟩),
    RunMap.inside_of_isEmpty hempty, RunMap.update_of_isEmpty hempty]

/-! ## 3. The second look -/

theorem map_mapValue_id (v : Row α) : v.map (Element.mapValue id) = v := List.map_id v

/-- Once an update has looked at a range of a row,

* a look at the row that it left finds the elements that it found, with the values that it wrote,
  and leaves the row as it is;
* a look at any row with the same places, whatever values it holds by then, finds elements in the
  places of those that it found, and leaves the row as it is;
* a further update of such a row finds the same elements, and leaves all places. -/
def FoundAgain (v : Row α) (r : ByteRange) (f : α → α) : Prop :=
  ∃ seen w : Row α, (updateRange r f).on v = (.ok seen, w) ∧
    (updateRange r id).on w = (.ok (seen.map (Element.mapValue f)), w) ∧
    ∀ w' : Row α, w'.places = w.places → ∃ seen' : Row α, seen'.places = seen.places ∧
      (updateRange r id).on w' = (.ok seen', w') ∧
      ∀ g, ∃ w'', (updateRange r g).on w' = (.ok seen', w'') ∧ w''.places = w.places

/-- **Every further look at a range finds the elements of the first one**, and divides none. -/
theorem foundAgain (hv : v.Tiles 0 size) (hlimit : r.stop < Word.limit) (hstop : r.stop ≤ size)
    (f : α → α) : v.FoundAgain r f := by
  by_cases hempty : r.isEmpty = true
  · have hupdate : ∀ {w' : Row α}, w'.places = v.places → ∀ g,
        (updateRange r g).on w' = (.ok [], w') := fun hplaces g =>
      on_updateRange_of_isEmpty (hv.of_places hplaces) hlimit hstop hempty g
    exact ⟨[], v, hupdate rfl f, hupdate rfl id, fun w' hplaces =>
      ⟨[], rfl, hupdate hplaces id, fun g => ⟨w', hupdate hplaces g, hplaces⟩⟩⟩
  · have hne := eq_false_of_ne_true hempty
    obtain ⟨A, B, C, hA, hB, hC, hupdate⟩ := exists_parts hv hlimit hstop hne
    have hB' : Tiles (B.map (Element.mapValue f)) r.start r.stop :=
      hB.of_places (places_map_mapValue f B)
    refine ⟨B, _, hupdate f, ?_, fun w' hplaces => ?_⟩
    · rw [on_updateRange_of_tiles hA hB' hC hlimit hne, map_mapValue_id]
    · rw [places_append, places_append, places_map_mapValue] at hplaces
      obtain ⟨A', rest, rfl, hplacesA, hrest⟩ := List.map_eq_append_iff.mp hplaces
      obtain ⟨B', C', rfl, hplacesB, hplacesC⟩ := List.map_eq_append_iff.mp hrest
      have hagain := on_updateRange_of_tiles (hA.of_places hplacesA) (hB.of_places hplacesB)
        (hC.of_places hplacesC) hlimit hne
      refine ⟨B', hplacesB, ?_, fun g => ⟨_, hagain g, ?_⟩⟩
      · rw [hagain, map_mapValue_id]
      · simpa only [places_append, places_map_mapValue] using hplaces

end Row

/-! ## 4. Changes for the elements of a range -/

/-- A write to one element leaves those that lie elsewhere. -/
theorem Row.on_writeElement_append {A C : Row α} {e : Element α}
    (hA : ∀ x ∈ A, x.start ≠ e.start) (hC : ∀ x ∈ C, x.start ≠ e.start) (f : α → α) :
    (writeElement e f).on (A ++ e :: C) = (.ok (), A ++ e.mapValue f :: C) := by
  have hkeep : ∀ v : Row α, (∀ x ∈ v, x.start ≠ e.start) →
      v.map (fun x => if x.start = e.start then x.mapValue f else x) = v := by
    intro v hv
    refine (List.map_congr_left fun x hx => ?_).trans (List.map_id v)
    exact if_neg (hv x hx)
  rw [on_writeElement, List.map_append, List.map_cons, hkeep A hA, hkeep C hC, if_pos rfl]

/-- Each change is written to the element that it stands beside, and nothing is written to any other
one. -/
theorem Run.on_forM_writeElement (f : α → β → α) {A C : Row α} {rs : List (Run α)} {start : Nat}
    (hrs : ∀ r ∈ rs, 0 < r.length) (hA : ∀ e ∈ A, e.start < start)
    (hC : ∀ e ∈ C, start + total rs ≤ e.start) (cs : List β) :
    Row.Edit.on (forM ((elements start rs).zip cs) fun (e, c) => Row.writeElement e (f · c))
        (A ++ (elements start rs ++ C)) =
      (.ok (), A ++ (elements start (change f rs cs) ++ C)) := by
  induction rs generalizing A start cs with
  | nil => cases cs <;> rfl
  | cons r rs ih =>
    cases cs with
    | nil => rfl
    | cons c cs =>
      have hr := hrs r List.mem_cons_self
      rw [total_cons] at hC
      have hlater : ∀ e ∈ elements (start + r.length) rs ++ C, e.start ≠ start := by
        intro e he
        rcases List.mem_append.mp he with he | he
        · have := (valueAt?_of_mem_elements he).1
          omega
        · have := hC e he
          omega
      have hwrite := Row.on_writeElement_append (e := ⟨start, start + r.length, r.value⟩)
        (fun e he => Nat.ne_of_lt (hA e he)) hlater (f · c)
      rw [elements, List.zip_cons_cons, List.forM_cons, List.cons_append,
        Row.on_bind_of_ok hwrite, change, elements, List.cons_append]
      -- the element that was written to is one of those on the left from here on
      have hA' : ∀ e ∈ A ++ [⟨start, start + r.length, f r.value c⟩],
          e.start < start + r.length := by
        intro e he
        rcases List.mem_append.mp he with he | he
        · have := hA e he
          omega
        · obtain rfl := List.mem_singleton.mp he
          exact Nat.lt_add_of_pos_right hr
      have hC' : ∀ e ∈ C, start + r.length + total rs ≤ e.start := by
        intro e he
        have := hC e he
        omega
      have hrest := ih (fun s hs => hrs s (List.mem_cons_of_mem r hs)) hA' hC' cs
      rw [List.append_assoc, List.singleton_append, List.append_assoc, List.singleton_append]
        at hrest
      exact hrest

namespace RunMap

variable {m : RunMap α} {r : ByteRange}

/-- An update that writes the old values divides the map. -/
theorem update_id (m : RunMap α) (r : ByteRange) : m.update r id = m.split r := by
  have hvalues : Run.mapValues id (m.carve r).inside = (m.carve r).inside := List.map_id _
  rw [update, hvalues, split]

theorem change_of_isEmpty (h : r.isEmpty = true) (f : α → β → α) (cs : List β) :
    m.change r f cs = m := by
  cases cs <;> simp [change, carve, h, Carving.join, Run.change]

/-- **Changes that are written to the elements of a range one by one** give the elements of the
changed map.  Each element of the range is gone through together with the change that has its place
in the list. -/
theorem on_changeRange (hm : m.IsProper) (hcheck : m.checkRange r = .ok ()) (f : α → β → α)
    (cs : List β) :
    (Row.changeRange r f cs).on m.elements =
      (.ok ((m.inside r).zip cs), (m.change r f cs).elements) := by
  have hr := (checkRange_eq_ok_iff.mp hcheck).2
  unfold Row.changeRange
  rw [Row.on_bind_of_ok (on_updateRange hm hcheck id)]
  cases hne : r.isEmpty with
  | true =>
    rw [inside_of_isEmpty hne, update_of_isEmpty hne, change_of_isEmpty hne]
    rfl
  | false =>
    obtain ⟨hbefore, hinside, hafter⟩ := length_pos_of_mem_carve hm r
    obtain ⟨hstart, hsize⟩ := total_carve_of_le hne hr
    have hleft : ∀ e ∈ Run.elements 0 (m.carve r).before, e.start < r.start := by
      intro e he
      have hlt := Run.start_lt_stop_of_mem_elements hbefore he
      have hle := (Run.valueAt?_of_mem_elements he).2.1
      omega
    have hright : ∀ e ∈ Run.elements r.stop (m.carve r).after,
        r.start + Run.total (m.carve r).inside ≤ e.start := by
      intro e he
      rw [hsize]
      exact (Run.valueAt?_of_mem_elements he).1
    have hwrite := Run.on_forM_writeElement f hinside hleft hright cs
    rw [elements_update hr hne, Row.map_mapValue_id, inside, Row.on_bind_of_ok hwrite, Row.on_pure,
      change, elements, Carving.join, List.append_assoc, Run.elements_append, Run.elements_append,
      Run.total_change, hstart, hsize, Nat.zero_add, ByteRange.stop]

end RunMap

end TreeBorrows
