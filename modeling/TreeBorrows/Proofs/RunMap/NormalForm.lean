/-
# Joining neighbours gives a normal form

How a map is cut depends on everything that was done to it, and should not matter.  This module
shows that it does not after neighbours have been joined: two maps that hold the same values are
then the same list of elements.

A row of runs is normal if none is empty and no two neighbours hold the same value (`Run.IsNormal`).
Joining neighbours makes a row normal (`Run.isNormal_merge`).  A normal row can be read off its
values: its first run is as long as the values stay the same, for the run after it holds another one
(`Run.IsNormal.length_le`).  So two normal rows with the same values are equal
(`Run.IsNormal.eq_of_valueAt?`), and everything else follows: joining again changes nothing, and no
row with the same values is shorter.

It can also be said of single elements.  Each lies within an element of the joined row that holds
the same value, and neighbours lie within the same one just when they hold the same value
(`RunMap.joinedBy_merge`).
-/
import TreeBorrows.Proofs.RunMap.TotalMap
import TreeBorrows.Proofs.RunMap.Count
import Mathlib.Data.List.Chain

namespace TreeBorrows

variable {α : Type}

/-! ## 1. Normal rows of runs -/

namespace Run

/-- No run is empty, and neighbours hold different values. -/
structure IsNormal (rs : List (Run α)) : Prop where
  proper : ∀ r ∈ rs, 0 < r.length
  changing : rs.IsChain fun r s => r.value ≠ s.value

variable {r s : Run α} {rs ss : List (Run α)}

theorem IsNormal.tail (h : IsNormal (r :: rs)) : IsNormal rs where
  proper := fun s hs => h.proper s (List.mem_cons_of_mem r hs)
  changing := h.changing.of_cons

theorem valueAt?_zero_cons (h : 0 < r.length) (rs : List (Run α)) :
    valueAt? (r :: rs) 0 = some r.value := by
  rw [valueAt?, if_pos h]

theorem valueAt?_cons_add (r : Run α) (rs : List (Run α)) (o : Nat) :
    valueAt? (r :: rs) (r.length + o) = valueAt? rs o := by
  rw [valueAt?, if_neg (by omega), Nat.add_sub_cancel_left]

/-- The first run of a normal row is as long as that of any other row with the same values: right
after it the value is another one. -/
theorem IsNormal.length_le (h : IsNormal (r :: rs)) (hs : 0 < s.length)
    (hvalues : ∀ o, valueAt? (s :: ss) o = valueAt? (r :: rs) o) : s.length ≤ r.length := by
  by_contra hlt
  have hr := h.proper r List.mem_cons_self
  have hfirst := hvalues 0
  rw [valueAt?_zero_cons hs, valueAt?_zero_cons hr] at hfirst
  have hnext := hvalues (r.length + 0)
  rw [valueAt?_cons_add, Nat.add_zero, valueAt?, if_pos (Nat.lt_of_not_le hlt)] at hnext
  cases rs with
  | nil => cases hnext
  | cons t ts =>
    rw [valueAt?_zero_cons (h.tail.proper t List.mem_cons_self)] at hnext
    have hne : r.value ≠ t.value := (List.isChain_cons_cons.mp h.changing).1
    exact hne (Option.some.inj (hfirst.symm.trans hnext))

/-- **A normal row is determined by its values.** -/
theorem IsNormal.eq_of_valueAt? (h : IsNormal rs) (h' : IsNormal ss)
    (hvalues : ∀ o, valueAt? rs o = valueAt? ss o) : rs = ss := by
  induction rs generalizing ss with
  | nil =>
    cases ss with
    | nil => rfl
    | cons s ss =>
      have hfirst := hvalues 0
      rw [valueAt?_zero_cons (h'.proper s List.mem_cons_self)] at hfirst
      cases hfirst
  | cons r rs ih =>
    have hr := h.proper r List.mem_cons_self
    cases ss with
    | nil =>
      have hfirst := hvalues 0
      rw [valueAt?_zero_cons hr] at hfirst
      cases hfirst
    | cons s ss =>
      have hs := h'.proper s List.mem_cons_self
      have hvalue : r.value = s.value := by
        have hfirst := hvalues 0
        rw [valueAt?_zero_cons hr, valueAt?_zero_cons hs] at hfirst
        exact Option.some.inj hfirst
      have hlength : r.length = s.length :=
        Nat.le_antisymm (h'.length_le hr hvalues) (h.length_le hs fun o => (hvalues o).symm)
      have hrest : ∀ o, valueAt? rs o = valueAt? ss o := by
        intro o
        have := hvalues (r.length + o)
        rwa [valueAt?_cons_add, hlength, valueAt?_cons_add] at this
      have hhead : r = s := by
        cases r
        cases s
        cases hlength
        cases hvalue
        rfl
      rw [hhead, ih h.tail h'.tail hrest]

theorem map_value_elements (start : Nat) (rs : List (Run α)) :
    (elements start rs).map Element.value = rs.map Run.value := by
  induction rs generalizing start with
  | nil => rfl
  | cons r rs ih => exact congrArg (List.cons _) (ih (start + r.length))

section Merge

variable [DecidableEq α]

/-- Joined runs leave nothing to join. -/
theorem isChain_merge (rs : List (Run α)) : (merge rs).IsChain fun r s => r.value ≠ s.value := by
  induction rs with
  | nil => exact .nil
  | cons r rs ih =>
    unfold merge
    split
    · exact .singleton r
    · next s ss hm =>
      rw [hm] at ih
      split
      · cases ss with
        | nil => exact .singleton _
        | cons t ts =>
          rw [List.isChain_cons_cons] at ih ⊢
          exact ih
      · next hne => exact List.isChain_cons_cons.mpr ⟨hne, ih⟩

theorem isNormal_merge (h : ∀ r ∈ rs, 0 < r.length) : IsNormal (merge rs) :=
  ⟨length_pos_of_mem_merge h, isChain_merge rs⟩

end Merge

end Run

/-! ## 2. Maps -/

namespace RunMap

variable [DecidableEq α] {m m' : RunMap α}

/-- **Maps with the same values are equal once neighbours have been joined.** -/
theorem merge_eq_merge (hm : m.IsProper) (hm' : m'.IsProper)
    (h : ∀ o, m.valueAt? o = m'.valueAt? o) : m.merge = m'.merge := by
  refine congrArg RunMap.mk ((Run.isNormal_merge hm).eq_of_valueAt? (Run.isNormal_merge hm') ?_)
  intro o
  rw [Run.valueAt?_merge, Run.valueAt?_merge]
  exact h o

theorem merge_merge (hm : m.IsProper) : m.merge.merge = m.merge :=
  merge_eq_merge (isProper_merge hm) hm (valueAt?_merge m)

/-- No row of elements that represents what the map means is shorter. -/
theorem length_elements_merge_le (hm : m.IsProper) {v : Row α}
    (hv : v.Represents 0 m.size m.valueAt?) : m.merge.elements.length ≤ v.length := by
  obtain ⟨m', hm', hsize, rfl, hvalues⟩ := hv.exists_runMap
  have h : ∀ o, m.valueAt? o = m'.valueAt? o := by
    intro o
    by_cases ho : o < m.size
    · exact (hvalues o ho).symm
    · have hle := Nat.le_of_not_lt ho
      rw [valueAt?_eq_none_iff.mpr hle, eq_comm, valueAt?_eq_none_iff, hsize]
      exact hle
  rw [merge_eq_merge hm hm' h, elements, elements, Run.length_elements, Run.length_elements]
  exact Run.length_merge_le m'.runs

/-- Neighbours among the elements are neighbours among the runs. -/
theorem isChain_elements_merge (m : RunMap α) :
    m.merge.elements.IsChain fun e e' => e.value ≠ e'.value := by
  have h := Run.isChain_merge m.runs
  rw [← List.isChain_map (R := (· ≠ ·)) Run.value] at h
  rw [← List.isChain_map (R := (· ≠ ·)) Element.value, elements, Run.map_value_elements]
  exact h

end RunMap

/-! ## 3. Whatever the calls were -/

/-- The row is the normal form of what a function has below `size`. -/
structure Row.IsNormalForm [DecidableEq α] (w : Row α) (size : Nat) (contents : Nat → Option α) :
    Prop where
  represents : w.Represents 0 size contents
  changing : w.IsChain fun e e' => e.value ≠ e'.value
  shortest : ∀ v : Row α, v.Represents 0 size contents → w.length ≤ v.length
  merged : mergeAll.on w = (.ok (), w)

namespace RunMap

variable [DecidableEq α]

theorem isNormalForm_merge {m : RunMap α} (hm : m.IsProper) :
    Row.IsNormalForm m.merge.elements m.size m.valueAt? where
  represents := by
    have h := represents_elements (isProper_merge hm)
    rwa [size_merge, show m.merge.valueAt? = m.valueAt? from funext (valueAt?_merge m)] at h
  changing := isChain_elements_merge m
  shortest v hv := length_elements_merge_le hm hv
  merged := by
    have h := Row.on_mergeAll (merge_elements m.merge)
    rwa [merge_merge hm] at h

/-- **Joining neighbours computes a normal form.**  Two rows that were made for the same number of
offsets and hold the same values, by whatever calls they have come to hold them, are the same row of
elements after their neighbours have been joined.  In that row no two neighbours hold the same
value, no row that represents these values is shorter, and joining again changes nothing. -/
theorem exists_normalForm (size : Nat) (value value' : α) (actions actions' : List (Action α))
    (h : ∀ o < size, ((ofSize size value).run actions).valueAt? o =
      ((ofSize size value').run actions').valueAt? o) :
    ∃ w : Row α,
      Row.mergeAll.on (Row.run (Row.ofSize size value) actions) = (.ok (), w) ∧
      Row.mergeAll.on (Row.run (Row.ofSize size value') actions') = (.ok (), w) ∧
      w.IsNormalForm size ((ofSize size value).run actions).valueAt? := by
  have hm := isProper_run (isProper_ofSize size value) actions
  have hm' := isProper_run (isProper_ofSize size value') actions'
  have hsize := (size_run (ofSize size value) actions).trans (size_ofSize size value)
  have hsize' := (size_run (ofSize size value') actions').trans (size_ofSize size value')
  have hall : ∀ o, ((ofSize size value).run actions).valueAt? o =
      ((ofSize size value').run actions').valueAt? o := by
    intro o
    by_cases ho : o < size
    · exact h o ho
    · have hle := Nat.le_of_not_lt ho
      rw [valueAt?_eq_none_iff.mpr (hsize.le.trans hle),
        valueAt?_eq_none_iff.mpr (hsize'.le.trans hle)]
  refine ⟨((ofSize size value).run actions).merge.elements, ?_, ?_, ?_⟩
  · rw [run_ofSize]
    exact Row.on_mergeAll (merge_elements _)
  · rw [run_ofSize, merge_eq_merge hm hm' hall]
    exact Row.on_mergeAll (merge_elements _)
  · have hnormal := isNormalForm_merge hm
    rwa [hsize] at hnormal

/-- Four offsets with the values 0, 1, 1, 0, reached in two ways and kept in three elements and in
four. -/
theorem joined_after_two_histories :
    let v := Row.run (Row.ofSize 4 0) [.update ⟨1, 2⟩ (· + 1)]
    let v' := Row.run (Row.ofSize 4 1)
      [.update ⟨0, 1⟩ (· - 1), .update ⟨3, 1⟩ (· - 1), .update ⟨2, 1⟩ id]
    v.length = 3 ∧ v'.length = 4 ∧ Row.mergeAll.on v = Row.mergeAll.on v' := by
  refine ⟨?_, ?_, ?_⟩
  · rw [run_ofSize]
    decide
  · rw [run_ofSize]
    decide
  · obtain ⟨w, hv, hv', -⟩ := exists_normalForm 4 0 1 [.update ⟨1, 2⟩ (· + 1)]
      [.update ⟨0, 1⟩ (· - 1), .update ⟨3, 1⟩ (· - 1), .update ⟨2, 1⟩ id] (by decide)
    rw [hv, hv']

end RunMap

/-! ## 4. Which elements are joined

An element of the joined row holds one value for all of its offsets, so what was joined to it held
that value already.  And it reaches as far as its value does, so whatever held the same value next
to it was joined. -/

/-- An element lies within another one. -/
def Element.IsWithin (e x : Element α) : Prop := x.start ≤ e.start ∧ e.stop ≤ x.stop

namespace Row

/-- The elements of a row lie within those of another one, and only with others of the same kind;
neighbours of the same kind do lie within one element. -/
structure JoinedBy (Same : α → α → Prop) (v w : Row α) : Prop where
  within : ∀ e ∈ v, ∃ x ∈ w, e.IsWithin x
  same : ∀ e ∈ v, ∀ x ∈ w, e.IsWithin x → Same e.value x.value
  neighbours : ∀ (A C : Row α) (e e' : Element α), v = A ++ e :: e' :: C →
    ((∃ x ∈ w, e.IsWithin x ∧ e'.IsWithin x) ↔ Same e.value e'.value)

/-- The same, where another relation tells the values of the row apart in the same way. -/
theorem JoinedBy.congr {Same Same' : α → α → Prop} {v w : Row α} (h : v.JoinedBy Same w)
    (himp : ∀ a a', Same a a' → Same' a a')
    (hback : ∀ e ∈ v, ∀ e' ∈ v, Same' e.value e'.value → Same e.value e'.value) :
    v.JoinedBy Same' w where
  within := h.within
  same e he x hx hin := himp _ _ (h.same e he x hx hin)
  neighbours A C e e' hv := by
    have he : e ∈ v := by simp [hv]
    have he' : e' ∈ v := by simp [hv]
    exact (h.neighbours A C e e' hv).trans ⟨himp _ _, hback e he e' he'⟩

variable {v w : Row α} {start stop p q : Nat} {contents : Nat → Option α}

/-- Where neighbours hold different values, a stretch of one value lies within one element. -/
theorem Represents.exists_covering {a : α} (hv : v.Represents start stop contents)
    (hchanging : v.IsChain fun e e' => e.value ≠ e'.value)
    (hp : start ≤ p) (hpq : p < q) (hq : q ≤ stop)
    (hcontents : ∀ o, p ≤ o → o < q → contents o = some a) :
    ∃ x ∈ v, x.start ≤ p ∧ q ≤ x.stop := by
  obtain ⟨htiles, hshows⟩ := hv
  induction v generalizing start with
  | nil =>
    have : start = stop := htiles
    omega
  | cons e v ih =>
    obtain ⟨rfl, hlt, hrest⟩ := htiles
    by_cases hpe : p < e.stop
    · refine ⟨e, List.mem_cons_self, hp, ?_⟩
      by_contra hqe
      have hvalue := hshows e List.mem_cons_self p (Element.mem_range_iff.mpr ⟨hp, hpe⟩)
      rw [hcontents p (Nat.le_refl p) hpq] at hvalue
      -- the stretch goes on in the next element, which holds another value
      cases v with
      | nil =>
        have : e.stop = stop := hrest
        omega
      | cons e' v =>
        have hstart : e'.start = e.stop := hrest.1
        have hvalue' := hshows e' (List.mem_cons_of_mem e List.mem_cons_self) e.stop
          (Element.mem_range_iff.mpr ⟨hstart.le, hrest.2.1⟩)
        rw [hcontents e.stop hpe.le (Nat.lt_of_not_le hqe)] at hvalue'
        have hne : e.value ≠ e'.value := (List.isChain_cons_cons.mp hchanging).1
        exact hne (Option.some.inj (hvalue.symm.trans hvalue'))
    · obtain ⟨x, hx, hxp, hxq⟩ := ih hchanging.of_cons (Nat.le_of_not_lt hpe) hrest
        fun e' he' => hshows e' (List.mem_cons_of_mem e he')
      exact ⟨x, List.mem_cons_of_mem e hx, hxp, hxq⟩

/-- Elements of two rows that represent the same hold the same value if one lies within the
other. -/
theorem Represents.value_eq (hv : v.Represents start stop contents)
    (hw : w.Represents start stop contents) {e x : Element α} (he : e ∈ v) (hx : x ∈ w)
    (hin : e.IsWithin x) : e.value = x.value := by
  have hlt := (hv.tiles.stop_le_of_mem he).1
  have hvalue := hv.shows e he e.start (Element.mem_range_iff.mpr ⟨Nat.le_refl _, hlt⟩)
  rw [hw.shows x hx e.start (Element.mem_range_iff.mpr ⟨hin.1, hlt.trans_le hin.2⟩)] at hvalue
  exact (Option.some.inj hvalue).symm

/-- A row whose neighbours hold different values joins what is the same in any other row that
represents the same. -/
theorem Represents.joinedBy (hv : v.Represents start stop contents)
    (hw : w.Represents start stop contents)
    (hchanging : w.IsChain fun x x' => x.value ≠ x'.value) : v.JoinedBy (· = ·) w where
  within e he := by
    obtain ⟨hlt, hstop⟩ := hv.tiles.stop_le_of_mem he
    exact hw.exists_covering hchanging (hv.tiles.start_le_of_mem he) hlt hstop
      fun o ho ho' => hv.shows e he o (Element.mem_range_iff.mpr ⟨ho, ho'⟩)
  same e he x hx hin := hv.value_eq hw he hx hin
  neighbours A C e e' heq := by
    have he : e ∈ v := by simp [heq]
    have he' : e' ∈ v := by simp [heq]
    constructor
    · rintro ⟨x, hx, hin, hin'⟩
      exact (hv.value_eq hw he hx hin).trans (hv.value_eq hw he' hx hin').symm
    · intro hvalue
      obtain ⟨hlt, -⟩ := hv.tiles.stop_le_of_mem he
      obtain ⟨hlt', hstop'⟩ := hv.tiles.stop_le_of_mem he'
      have hmeet : e.stop = e'.start := (heq ▸ hv.tiles).stop_eq_start
      have hcontents : ∀ o, e.start ≤ o → o < e'.stop → contents o = some e.value := by
        intro o ho ho'
        by_cases hoe : o < e.stop
        · exact hv.shows e he o (Element.mem_range_iff.mpr ⟨ho, hoe⟩)
        · rw [hvalue]
          exact hv.shows e' he' o (Element.mem_range_iff.mpr ⟨by omega, ho'⟩)
      obtain ⟨x, hx, hstart, hstop⟩ := hw.exists_covering hchanging (hv.tiles.start_le_of_mem he)
        (by omega) hstop' hcontents
      exact ⟨x, hx, ⟨hstart, by omega⟩, ⟨by omega, hstop⟩⟩

end Row

section Joining

variable [DecidableEq α]

/-- **Joining neighbours joins those that hold the same value**, and no others. -/
theorem RunMap.joinedBy_merge {m : RunMap α} (hm : m.IsProper) :
    Row.JoinedBy (· = ·) m.elements m.merge.elements :=
  (represents_elements hm).joinedBy (isNormalForm_merge hm).represents (isChain_elements_merge m)

/-- The same for a row in memory. -/
theorem Row.Tiles.exists_joinedBy {v : Row α} {stop : Nat} (hv : v.Tiles 0 stop) :
    ∃ w : Row α, mergeAll.on v = (.ok (), w) ∧ w.Tiles 0 stop ∧ v.JoinedBy (· = ·) w := by
  obtain ⟨m, hm, rfl, rfl⟩ := hv.exists_runMap
  exact ⟨m.merge.elements, on_mergeAll (RunMap.merge_elements m),
    (RunMap.isNormalForm_merge hm).represents.tiles, RunMap.joinedBy_merge hm⟩

end Joining

end TreeBorrows
