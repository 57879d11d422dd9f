/-
# The elements of a run map are a row that holds together

A `Row` finds its way by index and stops wherever its elements are not as it expects them.  On the
elements of a run map it never stops on their account:

* `walk_elements`: a walk fails exactly where the range cannot be walked, and otherwise leaves the
  elements of `RunMap.split` and gives those of `RunMap.inside`;
* `read_elements`: the same for a look at a range, which gives `RunMap.touching`;
* `merge_elements`: joining always succeeds, and gives the elements of `RunMap.merge`.

The argument is about a row in parts.  What a search passes over lies to the left of the element it
finds (`find_append`, `findEnd_append`), and a division concerns that element alone
(`splitAt_append_of_lt`).  The runs of a map come apart in the same way at any offset
(`Run.exists_run_at`), and so do their elements (`Run.elements_append`).
-/
import TreeBorrows.Proofs.RunMap.Alignment
import TreeBorrows.RunMap.Row

namespace TreeBorrows

variable {α : Type}

theorem Element.mem_range_iff {e : Element α} {o : Nat} :
    o ∈ e.range ↔ e.start ≤ o ∧ o < e.stop := by
  rw [Element.range, ByteRange.ofSpan, ByteRange.mem_iff]
  dsimp only
  omega

namespace Row

variable {A B C : Row α} {e : Element α} {o stop last : Nat}

/-! ## 1. Rows in parts -/

private theorem getElem?_length_append (A C : Row α) (e : Element α) :
    (A ++ e :: C)[A.length]? = some e := by
  rw [List.getElem?_append_right (Nat.le_refl _), Nat.sub_self, List.getElem?_cons_zero]

/-- The element that holds an offset is found between those that end by it and those that end
later. -/
theorem find_append (hA : ∀ x ∈ A, x.stop ≤ o) (he : o ∈ e.range) (hC : ∀ x ∈ C, o < x.stop) :
    find (A ++ e :: C) o = .ok A.length := by
  have hlt : o < e.stop := (Element.mem_range_iff.mp he).2
  have htake : (A ++ e :: C).takeWhile (·.stop ≤ o) = A := by
    rw [List.takeWhile_append_of_pos fun x hx => decide_eq_true (hA x hx),
      List.takeWhile_cons_of_neg (by simpa using hlt), List.append_nil]
  have hlater : (e :: C).any (·.stop ≤ o) = false := by
    rw [List.any_eq_false]
    intro x hx
    have hx : o < x.stop := by
      rcases List.mem_cons.mp hx with rfl | hx
      · exact hlt
      · exact hC x hx
    simpa using hx
  unfold find
  simp only [htake, List.drop_left, hlater, getElem?_length_append, he, Bool.false_eq_true,
    ↓reduceIte]

theorem findEnd_of_getElem? {v : Row α} {i : Nat} (h : v[i]? = some e) (stop : Nat) :
    findEnd v stop i = if e.stop < stop then findEnd v stop (i + 1) else .ok i := by
  rw [findEnd]
  split
  · next hnone => cases hnone.symm.trans h
  · next x hx =>
    obtain rfl : x = e := Option.some.inj (hx.symm.trans h)
    rfl

/-- The search for an end passes over the elements that end before it. -/
theorem findEnd_append (hB : ∀ x ∈ B, x.stop < stop) (he : stop ≤ e.stop) :
    findEnd (A ++ (B ++ e :: C)) stop A.length = .ok (A.length + B.length) := by
  induction B generalizing A with
  | nil =>
    rw [List.nil_append, findEnd_of_getElem? (getElem?_length_append A C e), if_neg (by omega)]
    rfl
  | cons b B ih =>
    have hb : b.stop < stop := hB b List.mem_cons_self
    have hrest := ih (A := A ++ [b]) fun x hx => hB x (List.mem_cons_of_mem b hx)
    rw [List.append_assoc, List.singleton_append, List.length_append, List.length_singleton]
      at hrest
    rw [List.cons_append, findEnd_of_getElem? (getElem?_length_append A _ b), if_pos hb, hrest,
      List.length_cons, Nat.add_assoc, Nat.add_comm 1]

theorem slice_append (h : last + 1 = A.length + B.length) :
    slice (A ++ (B ++ C)) A.length last = .ok B := by
  have hbounds : A.length ≤ last + 1 ∧ last < (A ++ (B ++ C)).length := by
    rw [List.length_append, List.length_append]
    omega
  have htake : (A ++ (B ++ C)).take (last + 1) = A ++ B := by
    rw [h, ← List.length_append, ← List.append_assoc, List.take_left]
  rw [slice, if_pos hbounds, htake, List.drop_left]

theorem drop_of_find {v : Row α} {i : Nat} (h : find v o = .ok i) :
    v.drop i = v.dropWhile (·.stop ≤ o) := by
  have hi : (v.takeWhile (·.stop ≤ o)).length = i := by
    unfold find at h
    dsimp only at h
    split at h
    · cases h
    · split at h
      · cases h
      · split at h
        · exact Except.ok.inj h
        · cases h
  conv_lhs => rw [← List.takeWhile_append_dropWhile (p := fun x => decide (x.stop ≤ o)) (l := v)]
  rw [← hi, List.drop_left]

/-- At the ends of an element there is nothing to divide. -/
theorem splitAt_append_of_eq (h : o = e.start ∨ o = e.stop) :
    splitAt (A ++ e :: C) A.length o = .ok (A ++ e :: C, false) := by
  unfold splitAt
  simp only [getElem?_length_append, h, ↓reduceIte]

/-- Between its ends an element is divided, and nothing else changes. -/
theorem splitAt_append_of_lt (h : e.start < o) (h' : o < e.stop) :
    splitAt (A ++ e :: C) A.length o =
      .ok (A ++ { e with stop := o } :: { e with start := o } :: C, true) := by
  have hends : ¬(o = e.start ∨ o = e.stop) := by omega
  have hmem : o ∈ e.range := Element.mem_range_iff.mpr ⟨Nat.le_of_lt h, h'⟩
  have hinsert (x y : Element α) :
      ((A ++ e :: C).set A.length x).insertIdx (A.length + 1) y = A ++ x :: y :: C := by
    rw [List.set_append_right _ _ (Nat.le_refl _), Nat.sub_self, List.set_cons_zero]
    induction A with
    | nil => simp
    | cons a A ih => simpa using ih
  unfold splitAt
  simp only [getElem?_length_append, hends, hmem, ↓reduceIte, hinsert]

end Row

namespace Run

variable {rs : List (Run α)} {n start : Nat}

/-! ## 2. Runs in parts -/

theorem elements_append (start : Nat) (as bs : List (Run α)) :
    elements start (as ++ bs) = elements start as ++ elements (start + total as) bs := by
  induction as generalizing start with
  | nil => rfl
  | cons a as ih => simp only [List.cons_append, elements, ih, total_cons, Nat.add_assoc]

@[simp] theorem length_elements (start : Nat) (rs : List (Run α)) :
    (elements start rs).length = rs.length := by
  induction rs generalizing start with
  | nil => rfl
  | cons r rs ih => simp only [elements, List.length_cons, ih]

/-- Every offset lies in one of the runs. -/
theorem exists_run_at (h : n < total rs) :
    ∃ pre r post k, rs = pre ++ r :: post ∧ n = total pre + k ∧ k < r.length := by
  induction rs generalizing n with
  | nil => exact absurd h (Nat.not_lt_zero n)
  | cons r rs ih =>
    by_cases hn : n < r.length
    · exact ⟨[], r, rs, n, rfl, (Nat.zero_add n).symm, hn⟩
    · rw [total_cons] at h
      obtain ⟨pre, s, post, k, rfl, hk, hlt⟩ := ih (n := n - r.length) (by omega)
      refine ⟨r :: pre, s, post, k, rfl, ?_, hlt⟩
      rw [total_cons]
      omega

/-- A cut through a run. -/
theorem cut_cons_of_lt {r : Run α} {k : Nat} (hk : 0 < k) (hlt : k < r.length)
    (rs : List (Run α)) :
    cut k (r :: rs) = ([⟨k, r.value⟩], ⟨r.length - k, r.value⟩ :: rs) := by
  rw [cut, if_neg (by omega), if_neg (by omega)]

/-- A cut behind a run. -/
theorem cut_cons_length {r : Run α} (hr : 0 < r.length) (rs : List (Run α)) :
    cut r.length (r :: rs) = ([r], rs) := by
  rw [cut, if_neg (by omega), if_pos (Nat.le_refl _), Nat.sub_self, cut_zero]

/-- The two parts of a divided run lie where it lay. -/
theorem elements_cons_cons {r : Run α} {k : Nat} (hlt : k < r.length) (start : Nat)
    (rs : List (Run α)) :
    elements start (⟨k, r.value⟩ :: ⟨r.length - k, r.value⟩ :: rs) =
      ⟨start, start + k, r.value⟩ :: ⟨start + k, start + r.length, r.value⟩ ::
        elements (start + r.length) rs := by
  have hstop : start + k + (r.length - k) = start + r.length := by omega
  simp only [elements, hstop]

/-- Elements to the left of an offset end by it; those to its right end later (`lt_stop_of_mem`). -/
private theorem stop_le_of_mem {as : List (Run α)} {e : Element α} (he : e ∈ elements start as) :
    e.stop ≤ start + total as :=
  (valueAt?_of_mem_elements he).2.1

private theorem lt_stop_of_mem {as : List (Run α)} (has : ∀ r ∈ as, 0 < r.length) {e : Element α}
    (he : e ∈ elements start as) : start < e.stop :=
  Nat.lt_of_le_of_lt (valueAt?_of_mem_elements he).1 (start_lt_stop_of_mem_elements has he)

/-! ## 3. The ends of a range -/

/-- The search for an offset finds the run that it lies in. -/
theorem find_elements (pre : List (Run α)) {r : Run α} {post : List (Run α)} {k : Nat}
    (hpost : ∀ s ∈ post, 0 < s.length) (hk : k < r.length) (start : Nat) :
    Row.find (elements start (pre ++ r :: post)) (start + total pre + k) = .ok pre.length := by
  rw [elements_append, elements, ← length_elements start pre]
  refine Row.find_append (fun x hx => ?_) ?_ fun x hx => ?_
  · exact Nat.le_trans (stop_le_of_mem hx) (Nat.le_add_right _ _)
  · rw [Element.mem_range_iff]
    dsimp only
    omega
  · have hx := lt_stop_of_mem hpost hx
    omega

/-- **The start of a range.**  The element that holds it is found, and divided if it does not start
there; the elements to the left are those of the runs below the cut. -/
theorem splitAt_start (hrs : ∀ r ∈ rs, 0 < r.length) (hn : n < total rs) (start : Nat) :
    ∃ i divided, Row.find (elements start rs) (start + n) = .ok i ∧
      Row.splitAt (elements start rs) i (start + n) =
        .ok (elements start ((cut n rs).1 ++ (cut n rs).2), divided) ∧
      (if divided then i + 1 else i) = (cut n rs).1.length := by
  obtain ⟨pre, r, post, k, rfl, rfl, hk⟩ := exists_run_at hn
  have hpre : ∀ s ∈ pre, 0 < s.length := fun s hs => hrs s (by simp [hs])
  have hpost : ∀ s ∈ post, 0 < s.length := fun s hs => hrs s (by simp [hs])
  rw [cut_append_add hpre, ← Nat.add_assoc]
  have hfind := find_elements pre hpost hk start
  rcases Nat.eq_zero_or_pos k with rfl | hpos
  · refine ⟨pre.length, false, hfind, ?_, by simp⟩
    rw [cut_zero, List.append_nil, elements_append, elements, ← length_elements start pre]
    exact Row.splitAt_append_of_eq (.inl rfl)
  · refine ⟨pre.length, true, hfind, ?_, by simp [cut_cons_of_lt hpos hk]⟩
    rw [cut_cons_of_lt hpos hk, List.append_assoc, List.singleton_append, elements_append,
      elements_append, elements_cons_cons hk, elements, ← length_elements start pre]
    exact Row.splitAt_append_of_lt (by dsimp only; omega) (by dsimp only; omega)

/-- **The end of a range.**  The search goes on from the first element of the range to the one that
reaches its end, which is divided if it does not end there. -/
theorem splitAt_stop (hrs : ∀ r ∈ rs, 0 < r.length) (hpos : 0 < n) (hn : n ≤ total rs)
    (low : List (Run α)) (start : Nat) :
    ∃ i divided,
      Row.findEnd (elements start (low ++ rs)) (start + total low + n) low.length = .ok i ∧
      Row.splitAt (elements start (low ++ rs)) i (start + total low + n) =
        .ok (elements start (low ++ ((cut n rs).1 ++ (cut n rs).2)), divided) ∧
      i + 1 = low.length + (cut n rs).1.length := by
  have hlast : n - 1 < total rs := by omega
  obtain ⟨pre, r, post, j, rfl, hj, hlt⟩ := exists_run_at hlast
  obtain ⟨k, rfl⟩ : ∃ k, n = total pre + k := ⟨j + 1, by omega⟩
  have hk : 0 < k ∧ k ≤ r.length := by omega
  have hpre : ∀ s ∈ pre, 0 < s.length := fun s hs => hrs s (by simp [hs])
  rw [cut_append_add hpre, ← Nat.add_assoc]
  have hend : Row.findEnd (elements start (low ++ (pre ++ r :: post)))
      (start + total low + total pre + k) low.length = .ok (low.length + pre.length) := by
    rw [elements_append, elements_append, elements, ← length_elements start low,
      ← length_elements (start + total low) pre]
    refine Row.findEnd_append (fun x hx => ?_) (by dsimp only; omega)
    have hx := stop_le_of_mem hx
    omega
  -- the row up to the run in which the range ends
  have hleft : (elements start (low ++ pre)).length = low.length + pre.length := by simp
  rcases Nat.lt_or_eq_of_le hk.2 with hlt | rfl
  · refine ⟨low.length + pre.length, true, hend, ?_, by simp [cut_cons_of_lt hk.1 hlt]; omega⟩
    rw [cut_cons_of_lt hk.1 hlt, List.append_assoc, List.singleton_append, ← List.append_assoc,
      ← List.append_assoc, elements_append, elements_append _ (low ++ pre), elements_cons_cons hlt,
      elements, ← hleft, total_append, ← Nat.add_assoc]
    exact Row.splitAt_append_of_lt (by dsimp only; omega) (by dsimp only; omega)
  · refine ⟨low.length + pre.length, false, hend, ?_, by simp [cut_cons_length hk.1]; omega⟩
    rw [cut_cons_length hk.1, List.append_assoc, List.singleton_append, ← List.append_assoc,
      elements_append, elements, ← hleft, total_append, ← Nat.add_assoc]
    exact Row.splitAt_append_of_eq (.inr rfl)

/-! ## 4. Joined neighbours -/

section Merge

variable [DecidableEq α]

/-- Neighbours with the same value are joined whatever follows them. -/
theorem merge_cons_cons_of_eq {r s : Run α} (h : r.value = s.value) (rs : List (Run α)) :
    merge (r :: s :: rs) = merge (⟨r.length + s.length, s.value⟩ :: rs) := by
  simp only [merge]
  cases merge rs with
  | nil => simp [h]
  | cons u us =>
    dsimp only
    by_cases hu : s.value = u.value
    · simp [h, hu, Nat.add_assoc]
    · simp [h, hu]

/-- A run stays as it is next to one with another value. -/
theorem merge_cons_cons_of_ne {r s : Run α} (h : r.value ≠ s.value) (rs : List (Run α)) :
    merge (r :: s :: rs) = r :: merge (s :: rs) := by
  simp only [merge]
  cases merge rs with
  | nil => simp [h]
  | cons u us =>
    dsimp only
    by_cases hu : s.value = u.value
    · simp [hu, hu ▸ h]
    · simp [hu, h]

/-- A row that ends in an element takes in the elements of the runs after it, joined with it and
with each other. -/
theorem foldlM_push_elements (C : Row α) (start length : Nat) (value : α) (rs : List (Run α)) :
    (elements (start + length) rs).foldlM Row.push (C ++ [⟨start, start + length, value⟩]) =
      .ok (C ++ elements start (merge (⟨length, value⟩ :: rs))) := by
  induction rs generalizing C start length value with
  | nil => rfl
  | cons r rs ih =>
    rw [elements, List.foldlM_cons, Row.push, List.getLast?_concat]
    dsimp only
    by_cases hv : value = r.value
    · rw [if_pos hv, if_pos rfl, List.dropLast_concat, merge_cons_cons_of_eq hv, Nat.add_assoc]
      subst hv
      exact ih C start (length + r.length) r.value
    · rw [if_neg hv, merge_cons_cons_of_ne hv, elements]
      refine (ih (C ++ [⟨start, start + length, value⟩]) (start + length) r.length r.value).trans ?_
      rw [List.append_assoc, List.singleton_append]

end Merge

end Run

namespace RunMap

variable {m : RunMap α} {r : ByteRange}

/-! ## 5. Run maps as rows -/

theorem size_elements (m : RunMap α) : Row.size m.elements = m.size := by
  unfold Row.size elements RunMap.size
  rcases List.eq_nil_or_concat m.runs with h | ⟨rs, r, h⟩
  · rw [h]
    rfl
  · rw [h, List.concat_eq_append, Run.elements_append]
    simp [Run.elements]

/-- A row and its map agree on the ranges that can be walked. -/
theorem stopOf_elements (m : RunMap α) (r : ByteRange) :
    Row.stopOf m.elements r = match m.checkRange r with
      | .error f => .error (.range f)
      | .ok () => .ok r.stop := by
  unfold Row.stopOf checkRange Word.add ByteRange.stop
  rw [size_elements]
  by_cases hlimit : r.start + r.size < Word.limit
  · by_cases hstop : r.start + r.size ≤ m.size <;> simp [hlimit, hstop]
  · simp [hlimit]

/-- **The way to the elements of a range.**  Every step towards them finds what it expects: the
element that holds the start, which is divided there, and the one that reaches the end, which is
divided as well. -/
theorem exists_way_elements (hm : m.IsProper) (hcheck : m.checkRange r = .ok ())
    (hne : r.isEmpty = false) :
    ∃ found last v divided divided', Row.find m.elements r.start = .ok found ∧
      Row.splitAt m.elements found r.start = .ok (v, divided) ∧
      (if divided then found + 1 else found) = (m.carve r).before.length ∧
      Row.findEnd v r.stop (m.carve r).before.length = .ok last ∧
      Row.splitAt v last r.stop = .ok ((m.split r).elements, divided') ∧
      last + 1 = (m.carve r).before.length + (m.carve r).inside.length := by
  obtain ⟨-, hstop⟩ := checkRange_eq_ok_iff.mp hcheck
  have hsize : 0 < r.size := Nat.pos_of_ne_zero fun h =>
    Bool.false_ne_true (hne.symm.trans (ByteRange.isEmpty_iff.mpr h))
  unfold ByteRange.stop RunMap.size at hstop
  obtain ⟨low, high, hcut⟩ : ∃ low high, Run.cut r.start m.runs = (low, high) := ⟨_, _, rfl⟩
  obtain ⟨ins, rest, hcut'⟩ : ∃ ins rest, Run.cut r.size high = (ins, rest) := ⟨_, _, rfl⟩
  have htotal := Run.total_cut r.start m.runs
  have hhigh := (Run.length_pos_of_mem_cut hm r.start).2
  obtain ⟨i, divided, hfind, hsplit, hfirst⟩ := Run.splitAt_start hm (n := r.start) (by omega) 0
  rw [hcut] at htotal hhigh hsplit hfirst
  dsimp only at htotal hhigh hsplit hfirst
  rw [Nat.zero_add] at hfind hsplit
  have hlow : Run.total low = r.start := by omega
  obtain ⟨j, divided', hend, hsplit', hlast⟩ := Run.splitAt_stop hhigh hsize (by omega) low 0
  rw [hcut'] at hsplit' hlast
  rw [Nat.zero_add, hlow] at hend hsplit'
  have hcarve : m.carve r = ⟨low, ins, rest⟩ := by
    simp only [carve, hne, hcut, hcut', Bool.false_eq_true, ↓reduceIte]
  rw [split, hcarve]
  refine ⟨i, j, _, divided, divided', hfind, hsplit, hfirst, hend, ?_, hlast⟩
  rw [elements, Carving.join, List.append_assoc]
  exact hsplit'

/-- The elements of a map that is divided at the ends of a range lie in three parts. -/
theorem elements_split (hr : r.stop ≤ m.size) (hne : r.isEmpty = false) :
    (m.split r).elements = Run.elements 0 (m.carve r).before ++
      (m.inside r ++ Run.elements r.stop (m.carve r).after) := by
  obtain ⟨hbefore, hinside⟩ := total_carve_of_le hne hr
  rw [split, elements, Carving.join, List.append_assoc, Run.elements_append, Run.elements_append,
    hbefore, hinside, Nat.zero_add, inside, ByteRange.stop]

/-- The elements between the two indices are the ones inside of the range. -/
theorem slice_split (hr : r.stop ≤ m.size) (hne : r.isEmpty = false) {last : Nat}
    (hlast : last + 1 = (m.carve r).before.length + (m.carve r).inside.length) :
    Row.slice (m.split r).elements (m.carve r).before.length last = .ok (m.inside r) := by
  rw [elements_split hr hne, ← Run.length_elements 0 (m.carve r).before]
  refine Row.slice_append ?_
  rw [hlast, inside, Run.length_elements, Run.length_elements]

/-- **A walk stops at no element**: it fails exactly if the range cannot be walked, and otherwise
divides the map and gives the elements inside of the range. -/
theorem walk_elements (hm : m.IsProper) (r : ByteRange) :
    Row.walk m.elements r = match m.checkRange r with
      | .error f => .error (.range f)
      | .ok () => .ok ((m.split r).elements, m.inside r) := by
  unfold Row.walk
  rw [stopOf_elements]
  cases hcheck : m.checkRange r with
  | error f => rfl
  | ok _ =>
    cases hempty : r.isEmpty with
    | true =>
      simp [bind, Except.bind, pure, Except.pure, split, inside, carve, hempty, Carving.join,
        Run.elements]
    | false =>
      obtain ⟨found, last, v, divided, divided', hfind, hsplit, hfirst, hend, hsplit', hlast⟩ :=
        exists_way_elements hm hcheck hempty
      have hslice := slice_split (checkRange_eq_ok_iff.mp hcheck).2 hempty hlast
      simp only [bind, Except.bind, pure, Except.pure, hfind, hsplit, hfirst, hend, hsplit', hslice,
        Bool.false_eq_true, ↓reduceIte]

/-- **A look at a range stops at no element** either, and gives those that share an offset with
it. -/
theorem read_elements (hm : m.IsProper) (r : ByteRange) :
    Row.read m.elements r = match m.checkRange r with
      | .error f => .error (.range f)
      | .ok () => .ok (m.touching r) := by
  unfold Row.read
  rw [stopOf_elements]
  cases hcheck : m.checkRange r with
  | error f => rfl
  | ok _ =>
    obtain ⟨-, hstop⟩ := checkRange_eq_ok_iff.mp hcheck
    by_cases hempty : r.isEmpty = true
    · simp [bind, Except.bind, pure, Except.pure, hempty, touching]
    · have hsize : 0 < r.size := Nat.pos_of_ne_zero fun h => hempty (ByteRange.isEmpty_iff.mpr h)
      unfold ByteRange.stop RunMap.size at hstop
      obtain ⟨i, -, hfind, -, -⟩ := Run.splitAt_start hm (n := r.start) (by omega) 0
      rw [Nat.zero_add] at hfind
      simp only [bind, Except.bind, pure, Except.pure, hempty, touching, elements, hfind,
        Row.drop_of_find hfind, Bool.false_eq_true, ↓reduceIte]

/-- The first thing that a look at a single offset shows is its value. -/
theorem head?_touching (hm : m.IsProper) {o : Nat} (ho : o < m.size) :
    (m.touching ⟨o, 1⟩).head?.map Element.value = m.valueAt? o := by
  obtain ⟨pre, r, post, k, hruns, rfl, hk⟩ := Run.exists_run_at ho
  have hpost : ∀ s ∈ post, 0 < s.length := fun s hs => hm s (by simp [hruns, hs])
  have hfind := Run.find_elements pre hpost hk 0
  have hdrop : (Run.elements 0 (pre ++ r :: post)).drop pre.length =
      Run.elements (Run.total pre) (r :: post) := by
    rw [Run.elements_append, ← Run.length_elements 0 pre, List.drop_left, Nat.zero_add]
  rw [Nat.zero_add] at hfind
  have hvalue : m.valueAt? (Run.total pre + k) = some r.value := by
    rw [valueAt?, hruns, Run.valueAt?_append, if_neg (by omega), Nat.add_sub_cancel_left,
      Run.valueAt?, if_pos hk]
  have hfirst : Run.total pre < (⟨Run.total pre + k, 1⟩ : ByteRange).stop :=
    Nat.lt_succ_of_le (Nat.le_add_right _ k)
  rw [touching, if_neg (by simp [ByteRange.isEmpty]), elements, hruns, ← Row.drop_of_find hfind,
    hdrop, Run.elements, List.takeWhile_cons_of_pos (by exact decide_eq_true hfirst), hvalue]
  rfl

/-- **Joining neighbours always succeeds**, for neighbours always meet. -/
theorem merge_elements [DecidableEq α] (m : RunMap α) :
    Row.merge m.elements = .ok m.merge.elements := by
  obtain ⟨runs⟩ := m
  cases runs with
  | nil => rfl
  | cons r rs => exact Run.foldlM_push_elements [] 0 r.length r.value rs

/-! ## 6. What holds of every map -/

section Edits

variable [DecidableEq α]

/-- No operation stops at an element of the map, and each does what the map's own one does. -/
structure HoldsTogether (m : RunMap α) : Prop where
  walk : ∀ r, m.checkRange r = .ok () →
    Row.walk m.elements r = .ok ((m.split r).elements, m.inside r)
  read : ∀ r, m.checkRange r = .ok () → Row.read m.elements r = .ok (m.touching r)
  look : ∀ o, m.checkRange ⟨o, 1⟩ = .ok () →
    ∃ e es, Row.read m.elements ⟨o, 1⟩ = .ok (e :: es) ∧ m.valueAt? o = some e.value
  merge : Row.merge m.elements = .ok m.merge.elements

theorem holdsTogether (hm : m.IsProper) : m.HoldsTogether where
  walk r hr := by rw [walk_elements hm, hr]
  read r hr := by rw [read_elements hm, hr]
  look o ho := by
    have hlt : o < m.size := (checkRange_eq_ok_iff.mp ho).2
    obtain ⟨v, hv⟩ : ∃ v, m.valueAt? o = some v := by
      cases hv : m.valueAt? o with
      | none => exact absurd (valueAt?_eq_none_iff.mp hv) (Nat.not_le_of_lt hlt)
      | some v => exact ⟨v, rfl⟩
    have hfirst := (head?_touching hm hlt).trans hv
    obtain ⟨e, he, rfl⟩ := Option.map_eq_some_iff.mp hfirst
    obtain ⟨es, hes⟩ := List.head?_eq_some_iff.mp he
    refine ⟨e, es, ?_, hv⟩
    rw [read_elements hm, ho]
    exact congrArg Except.ok hes
  merge := merge_elements m

/-- The map becomes another one by some of the operations that change it, one after the other. -/
inductive Edits (m : RunMap α) : RunMap α → Prop where
  | refl : Edits m m
  | split {m' : RunMap α} (r : ByteRange) : Edits m m' → Edits m (m'.split r)
  | update {m' : RunMap α} (r : ByteRange) (f : α → α) : Edits m m' → Edits m (m'.update r f)
  | change {m' : RunMap α} {β : Type} (r : ByteRange) (f : α → β → α) (changes : List β) :
      Edits m m' → Edits m (m'.change r f changes)
  | map {m' : RunMap α} (f : α → α) : Edits m m' → Edits m (m'.map f)
  | merge {m' : RunMap α} : Edits m m' → Edits m m'.merge

namespace Edits

variable {m' : RunMap α}

theorem isProper (h : m.Edits m') (hm : m.IsProper) : m'.IsProper := by
  induction h with
  | refl => exact hm
  | split r _ ih => exact isProper_split ih r
  | update r f _ ih => exact isProper_update ih r f
  | change r f changes _ ih => exact isProper_change ih r f changes
  | map f _ ih => exact isProper_map ih f
  | merge _ ih => exact isProper_merge ih

theorem size_eq (h : m.Edits m') : m'.size = m.size := by
  induction h with
  | refl => rfl
  | split r _ ih => rw [size_split, ih]
  | update r f _ ih => rw [size_update, ih]
  | change r f changes _ ih => rw [size_change, ih]
  | map f _ ih => rw [size_map, ih]
  | merge _ ih => rw [size_merge, ih]

end Edits

end Edits

end RunMap

end TreeBorrows
