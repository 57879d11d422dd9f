/-
# A run map is a total map on its offsets

In memory a run map is a row of elements, and its operations find their way through the row by index
and change it as they go.  This module shows that whatever has been done to a row, it is still one
value for each offset below the size it was made with.

The argument has two halves.  A call on the elements of a run map leaves the elements of another
one, namely those of `RunMap.perform`, and has the same answer (`on_perform`); so a sequence of
calls on a row is one on a run map (`run_elements`).  And run maps are right by themselves: what
they mean is in `RunMap/Lemmas.lean`, and that their elements represent it in `Tiling.lean`.  Both
are put together in `isTotal_run`.
-/
import TreeBorrows.Proofs.RunMap.Tiling
import TreeBorrows.RunMap.Edit

namespace TreeBorrows

variable {α β : Type}

/-! ## 1. Rows in parts -/

theorem Run.elements_mapValues (f : α → α) (start : Nat) (rs : List (Run α)) :
    elements start (mapValues f rs) = (elements start rs).map (Element.mapValue f) := by
  induction rs generalizing start with
  | nil => rfl
  | cons r rs ih => exact congrArg (List.cons _) (ih (start + r.length))

namespace Row

/-- What is written between two indices leaves the elements on both sides as they are. -/
theorem rewrite_append {A B C : Row α} {last : Nat} (h : last + 1 = A.length + B.length)
    (f : α → α) :
    rewrite (A ++ (B ++ C)) A.length last f = A ++ (B.map (Element.mapValue f) ++ C) := by
  unfold rewrite
  rw [List.mapIdx_append, List.mapIdx_append]
  have hA : A.mapIdx (fun i e => if A.length ≤ i ∧ i ≤ last then e.mapValue f else e) = A := by
    refine List.ext_getElem (List.length_mapIdx) fun i _ hi => ?_
    rw [List.getElem_mapIdx, if_neg (by omega)]
  have hB : B.mapIdx (fun i e => if A.length ≤ i + A.length ∧ i + A.length ≤ last then e.mapValue f
      else e) = B.map (Element.mapValue f) := by
    refine List.ext_getElem (by simp) fun i _ hi => ?_
    rw [List.length_map] at hi
    rw [List.getElem_mapIdx, List.getElem_map, if_pos (by omega)]
  have hC : C.mapIdx (fun i e => if A.length ≤ i + B.length + A.length ∧
      i + B.length + A.length ≤ last then e.mapValue f else e) = C := by
    refine List.ext_getElem (List.length_mapIdx) fun i _ hi => ?_
    rw [List.getElem_mapIdx, if_neg (by omega)]
  rw [hA, hB, hC]

/-- Elements put back one by one build the row that joining them gives. -/
theorem on_forM_pushElement [DecidableEq α] {v w w' : Row α}
    (h : v.foldlM push w = .ok w') : Edit.on (forM v pushElement) w = (.ok (), w') := by
  induction v generalizing w with
  | nil =>
    obtain rfl := Except.ok.inj h
    rfl
  | cons e v ih =>
    rw [List.foldlM_cons] at h
    cases hpush : push w e with
    | error breach =>
      rw [hpush] at h
      cases h
    | ok u =>
      rw [hpush] at h
      rw [List.forM_cons, on_bind_of_ok (on_pushElement hpush), ih h]

theorem on_mergeAll [DecidableEq α] {v w : Row α} (h : merge v = .ok w) :
    mergeAll.on v = (.ok (), w) := by
  unfold mergeAll
  rw [on_bind_of_ok on_get, on_bind_of_ok on_set, on_forM_pushElement h]

end Row

/-! ## 2. One call -/

namespace RunMap

variable {m : RunMap α} {r : ByteRange}

theorem elements_ofSize (size : Nat) (value : α) :
    (ofSize size value).elements = Row.ofSize size value := by
  unfold ofSize Row.ofSize
  by_cases h : size = 0
  · subst h
    rfl
  · rw [if_neg h, if_pos (Nat.pos_of_ne_zero h)]
    simp [elements, Run.elements]

/-- Where a range cannot be walked, the sum that is its end is at fault, or its end. -/
theorem checkRange_eq_error_of_not (h : ¬(r.stop < Word.limit ∧ r.stop ≤ m.size)) :
    m.checkRange r = .error (if r.stop < Word.limit then .beyondMap else .overflow) := by
  unfold checkRange Word.add
  unfold ByteRange.stop at h ⊢
  by_cases hlimit : r.start + r.size < Word.limit
  · simp only [hlimit, ↓reduceIte]
    rw [if_neg fun hstop => h ⟨hlimit, hstop⟩]
  · simp only [hlimit, ↓reduceIte]

theorem update_of_isEmpty (h : r.isEmpty = true) (f : α → α) : m.update r f = m := by
  simp [update, carve, h, Carving.join, Run.mapValues]

/-- The elements after an update lie in three parts, and those of the range have new values. -/
theorem elements_update (hr : r.stop ≤ m.size) (hne : r.isEmpty = false) (f : α → α) :
    (m.update r f).elements = Run.elements 0 (m.carve r).before ++
      ((m.inside r).map (Element.mapValue f) ++ Run.elements r.stop (m.carve r).after) := by
  obtain ⟨hbefore, hinside⟩ := total_carve_of_le hne hr
  rw [update, elements, Carving.join, List.append_assoc, Run.elements_append, Run.elements_append,
    Run.total_mapValues, Run.elements_mapValues, hbefore, hinside, Nat.zero_add, inside,
    ByteRange.stop]

/-- New values between the two indices are new values inside of the range. -/
theorem rewrite_split (hr : r.stop ≤ m.size) (hne : r.isEmpty = false) {last : Nat}
    (hlast : last + 1 = (m.carve r).before.length + (m.carve r).inside.length) (f : α → α) :
    Row.rewrite (m.split r).elements (m.carve r).before.length last f =
      (m.update r f).elements := by
  rw [elements_update hr hne, elements_split hr hne, ← Run.length_elements 0 (m.carve r).before]
  refine Row.rewrite_append ?_ f
  rw [hlast, inside, Run.length_elements, Run.length_elements]

/-- An update in place answers the elements of the range and leaves those of the updated map. -/
theorem on_updateRange (hm : m.IsProper) (hcheck : m.checkRange r = .ok ()) (f : α → α) :
    (Row.updateRange r f).on m.elements = (.ok (m.inside r), (m.update r f).elements) := by
  have hr := (checkRange_eq_ok_iff.mp hcheck).2
  have hstop : Row.stopOf m.elements r = .ok r.stop := by rw [stopOf_elements, hcheck]
  unfold Row.updateRange
  rw [Row.on_bind_of_ok (by rw [Row.on_ask, hstop])]
  cases hne : r.isEmpty with
  | true =>
    rw [if_pos rfl, Row.on_pure, inside_of_isEmpty hne, update_of_isEmpty hne]
  | false =>
    rw [if_neg Bool.false_ne_true]
    obtain ⟨found, last, v, divided, divided', hfind, hsplit, hfirst, hend, hsplit', hlast⟩ :=
      exists_way_elements hm hcheck hne
    rw [Row.on_bind_of_ok (by rw [Row.on_ask, hfind]),
      Row.on_bind_of_ok (Row.on_splitElement hsplit), hfirst,
      Row.on_bind_of_ok (by rw [Row.on_ask, hend]),
      Row.on_bind_of_ok (Row.on_splitElement hsplit'),
      Row.on_bind_of_ok (by rw [Row.on_ask, slice_split hr hne hlast]),
      Row.on_bind_of_ok (Row.on_modify _), Row.on_pure, rewrite_split hr hne hlast]

/-- An update of a range that cannot be walked stops before it changes anything. -/
theorem on_updateRange_of_error {fault : Fault} (hcheck : m.checkRange r = .error fault)
    (f : α → α) :
    (Row.updateRange r f).on m.elements = (.error (.range fault), m.elements) := by
  have hstop : Row.stopOf m.elements r = .error (.range fault) := by rw [stopOf_elements, hcheck]
  unfold Row.updateRange
  rw [Row.on_bind_of_error (by rw [Row.on_ask, hstop])]

section Calls

variable [DecidableEq α]

/-- **A call on the elements of a run map does what the run map's own operation does**, and has the
same answer. -/
theorem on_perform (hm : m.IsProper) (action : Action α) :
    (Row.perform action).on m.elements =
      ((m.perform action).1.mapError .range, (m.perform action).2.elements) := by
  cases action with
  | update r f =>
    cases hcheck : m.checkRange r with
    | ok _ =>
      rw [Row.perform, on_updateRange hm hcheck, perform, tryUpdate, hcheck]
      rfl
    | error fault =>
      rw [Row.perform, on_updateRange_of_error hcheck, perform, tryUpdate, hcheck]
      rfl
  | updateAll f =>
    rw [perform, map, elements, elements, Run.elements_mapValues]
    rfl
  | merge =>
    rw [Row.perform, Row.on_bind_of_ok (Row.on_mergeAll (merge_elements m)), Row.on_pure]
    rfl

theorem isProper_perform (hm : m.IsProper) (action : Action α) :
    (m.perform action).2.IsProper := by
  cases action with
  | update r f =>
    cases hcheck : m.checkRange r with
    | ok _ =>
      rw [perform, tryUpdate, hcheck]
      exact isProper_update hm r f
    | error fault =>
      rw [perform, tryUpdate, hcheck]
      exact hm
  | updateAll f => exact isProper_map hm f
  | merge => exact isProper_merge hm

theorem size_perform (m : RunMap α) (action : Action α) : (m.perform action).2.size = m.size := by
  cases action with
  | update r f =>
    cases hcheck : m.checkRange r with
    | ok _ =>
      rw [perform, tryUpdate, hcheck]
      exact size_update m r f
    | error fault => rw [perform, tryUpdate, hcheck]; rfl
  | updateAll f => exact size_map m f
  | merge => exact size_merge m

/-! ## 3. One call after the other -/

theorem isProper_run (hm : m.IsProper) (actions : List (Action α)) : (m.run actions).IsProper := by
  induction actions generalizing m with
  | nil => exact hm
  | cons action actions ih => exact ih (isProper_perform hm action)

theorem size_run (m : RunMap α) (actions : List (Action α)) : (m.run actions).size = m.size := by
  induction actions generalizing m with
  | nil => rfl
  | cons action actions ih => exact (ih _).trans (size_perform m action)

/-- **Calls on the elements of a run map are calls on the run map.** -/
theorem run_elements (hm : m.IsProper) (actions : List (Action α)) :
    Row.run m.elements actions = (m.run actions).elements := by
  induction actions generalizing m with
  | nil => rfl
  | cons action actions ih =>
    rw [Row.run, List.foldl_cons, on_perform hm action]
    exact ih (isProper_perform hm action)

theorem run_ofSize (size : Nat) (value : α) (actions : List (Action α)) :
    Row.run (Row.ofSize size value) actions = ((ofSize size value).run actions).elements := by
  rw [← elements_ofSize, run_elements (isProper_ofSize size value)]

/-! ## 4. What holds of every map -/

/-- A run map with `size` offsets, and the row that it is in memory. -/
structure IsTotal (m : RunMap α) (v : Row α) (size : Nat) : Prop where
  elements_eq : m.elements = v
  size_eq : v.size = size ∧ m.size = size
  /-- Each offset below the size has a value, and no other one has. -/
  defined : ∀ o, (m.valueAt? o).isSome ↔ o < size
  represents : v.Represents 0 size m.valueAt?
  /-- An update visits a row of elements that lie end to end from the start of the range to its end,
  with the values that their offsets have so far. -/
  update : ∀ (r : ByteRange) (f : α → α), r.stop < Word.limit → r.stop ≤ size →
    ∃ (seen : Row α) (m' : RunMap α), m.tryUpdate r f = .ok (seen, m') ∧
      (Row.updateRange r f).on v = (.ok seen, m'.elements) ∧
      seen.Represents r.start r.stop m.valueAt? ∧ (r.size = 0 → seen = []) ∧
      ∀ o, m'.valueAt? o = if o ∈ r then (m.valueAt? o).map f else m.valueAt? o
  /-- A look at a range shows the elements that share an offset with it. -/
  read : ∀ r : ByteRange, r.stop < Word.limit → r.stop ≤ size →
    m.tryTouching r = .ok (v.filter (·.Meets r)) ∧ Row.read v r = .ok (v.filter (·.Meets r))
  /-- Any other range is refused, and the row stays as it is. -/
  refuse : ∀ r : ByteRange, ¬(r.stop < Word.limit ∧ r.stop ≤ size) →
    ∃ fault, m.tryTouching r = .error fault ∧ Row.read v r = .error (.range fault) ∧
      ∀ f, m.tryUpdate r f = .error fault ∧
        (Row.updateRange r f).on v = (.error (.range fault), v)
  updateAll : ∀ f : α → α, (Row.updateAll f).on v = (.ok v, (m.map f).elements) ∧
    ∀ o, (m.map f).valueAt? o = (m.valueAt? o).map f
  merge : Row.mergeAll.on v = (.ok (), m.merge.elements) ∧ ∀ o, m.merge.valueAt? o = m.valueAt? o

theorem isTotal_elements (hm : m.IsProper) : m.IsTotal m.elements m.size where
  elements_eq := rfl
  size_eq := ⟨size_elements m, rfl⟩
  defined o := by
    rw [Option.isSome_iff_ne_none, Ne, valueAt?_eq_none_iff, Nat.not_le]
  represents := represents_elements hm
  update r f hlimit hstop := by
    have hcheck : m.checkRange r = .ok () := checkRange_eq_ok_iff.mpr ⟨hlimit, hstop⟩
    refine ⟨m.inside r, m.update r f, ?_, on_updateRange hm hcheck f, represents_inside hm hstop,
      fun hsize => inside_of_isEmpty (ByteRange.isEmpty_iff.mpr hsize), valueAt?_update m r f⟩
    rw [tryUpdate, hcheck]
    rfl
  read r hlimit hstop := by
    have hcheck : m.checkRange r = .ok () := checkRange_eq_ok_iff.mpr ⟨hlimit, hstop⟩
    rw [← touching_eq_filter hm]
    refine ⟨?_, (holdsTogether hm).read r hcheck⟩
    rw [tryTouching, hcheck]
    rfl
  refuse r h := by
    have hcheck := checkRange_eq_error_of_not h
    refine ⟨_, ?_, ?_, fun f => ⟨?_, on_updateRange_of_error hcheck f⟩⟩
    · rw [tryTouching, hcheck]
      rfl
    · rw [read_elements hm, hcheck]
    · rw [tryUpdate, hcheck]
      rfl
  updateAll f := by
    refine ⟨?_, valueAt?_map m f⟩
    exact on_perform hm (.updateAll f)
  merge := ⟨Row.on_mergeAll (merge_elements m), valueAt?_merge m⟩

/-- **A run map is a total map on its offsets.**  Whatever calls have been made on a row that was
made for `size` offsets, refused ones included, its elements tile the offsets below `size` and show
one value for each of them; an update reaches the offsets of its range, each once, and no other one;
a look shows exactly the elements that share an offset with its range; joining neighbours changes no
value; and a range that does not lie below `size`, or whose end is no word, changes nothing. -/
theorem isTotal_run (size : Nat) (value : α) (actions : List (Action α)) :
    ((ofSize size value).run actions).IsTotal (Row.run (Row.ofSize size value) actions) size := by
  have h := isTotal_elements (isProper_run (isProper_ofSize size value) actions)
  rwa [size_run, size_ofSize, ← run_ofSize] at h

end Calls

end RunMap

end TreeBorrows
