/-
# Many finite maps over one registry

A registry gives out indices, and any number of rows of slots are indexed through it.  The rows lag
behind: a row knows nothing of the keys that were registered since it was written last, and where a
key far ahead is written, the slots on the way stay empty.  Rows are also copied, and go separate
ways from there.

All the same each row is a finite map from keys to values.  What was done is kept as a history, the
latest action first.  Two functions say what it comes to, without a registry or a slot: `registered`
lists the keys, and `lastValue` looks for the value that was last written.  `finite_maps` says that
the rows hold exactly that, after every history that does not run out of indices.

The invariant is `Holds`: the registry has the keys, and the slot at an index has the value of the
key there.  Each action keeps it (`holds_perform`), and so does each history (`exists_holds`).
-/
import Mathlib.Data.List.Nodup
import Mathlib.Data.List.Sort
import Mathlib.Logic.Function.Basic
import TreeBorrows.Registry
import TreeBorrows.Slots
import TreeBorrows.Table

namespace TreeBorrows

/-! ## 1. A registry is a table of indices

A registry is its list of keys, and the place of a key is its index.  It is no different from a
table that puts each new key in with the number of keys before it. -/

namespace Registry

variable {K : Type}

/-- The keys with their indices. -/
def table (r : Registry K) : Table K Nat := ⟨r.keys.zipIdx⟩

theorem size_table (r : Registry K) : r.table.size = r.size := by
  simp [table, Table.size, size]

variable [DecidableEq K]

/-- The index of a key is what the table has for it. -/
theorem get?_table (r : Registry K) (k : K) : r.table.get? k = r.index? k := by
  have h : ∀ (keys : List K) (n : Nat),
      (keys.zipIdx n).lookup k = (keys.idxOf? k).map (· + n) := by
    intro keys
    induction keys with
    | nil => simp
    | cons key keys ih =>
      intro n
      rw [List.zipIdx_cons, List.lookup_cons, List.idxOf?_cons, ih]
      by_cases hk : k = key
      · simp [hk]
      · have hbeq : (k == key) = false := beq_false_of_ne hk
        have hne : key ≠ k := fun h => hk h.symm
        simp [hbeq, hne, Function.comp_def, Nat.add_comm, Nat.add_left_comm]
  simpa [table, Table.get?, index?] using h r.keys 0

/-- A new key is put into the table with the number of keys before it. -/
theorem table_insert {r r' : Registry K} {k : K} {i : Nat} (h : r.insert k = .ok (r', i)) :
    r'.table = r.table.insert k r.table.size ∧ i = r.table.size := by
  obtain ⟨-, hnew, hkeys, rfl⟩ := insert_eq_ok_iff.mp h
  have hput : ∀ (entries : List (K × Nat)) (v : Nat), k ∉ entries.map Prod.fst →
      Table.insert.put k v entries = entries ++ [(k, v)] := by
    intro entries v
    induction entries with
    | nil => intro _; rfl
    | cons e entries ih =>
      intro hk
      simp only [List.map_cons, List.mem_cons, not_or] at hk
      rw [Table.insert.put, if_neg hk.1, ih hk.2, List.cons_append]
  rw [size_table]
  refine ⟨?_, rfl⟩
  have hfst : r.keys.zipIdx.map Prod.fst = r.keys := by simp
  rw [table, Table.insert, table, hput _ _ (hfst.symm ▸ hnew), hkeys, List.zipIdx_append]
  simp [size]

end Registry

/-! ## 2. Rows of slots over a registry -/

/-- A registry, and the rows that are indexed through it.  Each row has a name. -/
structure KeyedSlots (K M V : Type) where
  registry : Registry K
  slots : M → Slots V

namespace KeyedSlots

variable {K M V : Type} {s : KeyedSlots K M V} {keys : List K} {values : M → K → Option V}

/-- No key is registered, and no row holds a value. -/
def empty : KeyedSlots K M V := ⟨.empty, fun _ => .empty⟩

/-- The rows hold these values for these keys, each in the slot with the index of its key. -/
structure Holds (s : KeyedSlots K M V) (keys : List K) (values : M → K → Option V) : Prop where
  keys_eq : s.registry.keys = keys
  nodup : keys.Nodup
  get?_eq : ∀ m i, (s.slots m).get? i = keys[i]?.bind (values m)
  eq_none : ∀ m k, k ∉ keys → values m k = none

theorem holds_empty : (empty : KeyedSlots K M V).Holds [] fun _ _ => none where
  keys_eq := rfl
  nodup := .nil
  get?_eq m i := by simp [empty]
  eq_none _ _ _ := rfl

/-- **A row lists its values in the order of the keys**, and leaves out the keys that have none. -/
theorem Holds.toList_eq (h : s.Holds keys values) (m : M) :
    (s.slots m).toList = keys.zipIdx.filterMap fun x => (values m x.1).map (x.2, ·) := by
  -- both lists are sorted by the indices, and so they are equal if their members are
  have hsorted : ∀ {α : Type} (f : α → Option V) (xs : List α),
      (xs.zipIdx.filterMap fun x => (f x.1).map (x.2, ·)).Pairwise fun x y => x.1 < y.1 := by
    intro α f xs
    have hindex : (xs.zipIdx.map Prod.snd).Pairwise (· < ·) := by
      rw [List.zipIdx_map_snd]
      exact List.pairwise_lt_range'
    refine List.pairwise_filterMap.mpr ((List.pairwise_map.mp hindex).imp ?_)
    intro x y hlt b hb c hc
    obtain ⟨v, -, rfl⟩ := Option.map_eq_some_iff.mp hb
    obtain ⟨w, -, rfl⟩ := Option.map_eq_some_iff.mp hc
    exact hlt
  have hirrefl : Std.Irrefl fun x y : Nat × V => x.1 < y.1 := ⟨fun x => Nat.lt_irrefl x.1⟩
  have hantisymm : Std.Antisymm fun x y : Nat × V => x.1 < y.1 :=
    ⟨fun x y hxy hyx => absurd hxy (Nat.lt_asymm hyx)⟩
  refine (hsorted id (s.slots m).entries).eq_of_mem_iff (hsorted (values m) keys) fun ⟨i, v⟩ => ?_
  refine Slots.mem_toList.trans ?_
  rw [h.get?_eq, Option.bind_eq_some_iff, List.mem_filterMap]
  constructor
  · rintro ⟨k, hk, hv⟩
    exact ⟨(k, i), List.mem_zipIdx_iff_getElem?.mpr hk, by rw [hv]; rfl⟩
  · rintro ⟨⟨k, j⟩, hk, hv⟩
    obtain ⟨w, hw, heq⟩ := Option.map_eq_some_iff.mp hv
    obtain ⟨rfl, rfl⟩ := Prod.mk.inj heq
    exact ⟨k, List.mem_zipIdx_iff_getElem?.mp hk, hw⟩

theorem Holds.congr (h : s.Holds keys values) {values' : M → K → Option V}
    (heq : ∀ m k, values' m k = values m k) : s.Holds keys values' := by
  obtain rfl : values' = values := funext₂ heq
  exact h

/-- Another row for one name. -/
theorem Holds.update [DecidableEq M] (h : s.Holds keys values) {m : M} {row : Slots V}
    {column : K → Option V}
    (hrow : ∀ i, row.get? i = keys[i]?.bind column) (hnone : ∀ k, k ∉ keys → column k = none) :
    Holds { s with slots := Function.update s.slots m row } keys
      (Function.update values m column) where
  keys_eq := h.keys_eq
  nodup := h.nodup
  get?_eq m' i := by
    show (Function.update s.slots m row m').get? i = _
    by_cases hm : m' = m
    · subst hm
      rw [Function.update_self, Function.update_self, hrow]
    · rw [Function.update_of_ne hm, Function.update_of_ne hm, h.get?_eq]
  eq_none m' k hk := by
    by_cases hm : m' = m
    · subst hm
      rw [Function.update_self, hnone k hk]
    · rw [Function.update_of_ne hm, h.eq_none m' k hk]

variable [DecidableEq K]

/-- The value of a key in a row. -/
def value? (s : KeyedSlots K M V) (m : M) (k : K) : Option V :=
  (s.registry.index? k).bind (s.slots m).get?

namespace Holds

/-- The index of a key is its place. -/
theorem index?_eq_some_iff (h : s.Holds keys values) {k : K} {i : Nat} :
    s.registry.index? k = some i ↔ keys[i]? = some k := by
  constructor
  · intro hi
    rw [← h.keys_eq]
    exact Registry.getElem?_of_index? hi
  · intro hk
    cases hj : s.registry.index? k with
    | none =>
      rw [Registry.index?_eq_none_iff, h.keys_eq] at hj
      exact absurd (List.mem_of_getElem? hk) hj
    | some j =>
      have hjk := Registry.getElem?_of_index? hj
      rw [h.keys_eq] at hjk
      have hlt : j < keys.length := (List.getElem?_eq_some_iff.mp hjk).1
      rw [(List.getElem?_inj hlt h.nodup).mp (hjk.trans hk.symm)]

theorem index?_eq_none_iff (h : s.Holds keys values) {k : K} :
    s.registry.index? k = none ↔ k ∉ keys := by
  rw [Registry.index?_eq_none_iff, h.keys_eq]

theorem contains_iff (h : s.Holds keys values) {k : K} :
    s.registry.contains k = true ↔ k ∈ keys := by
  rw [Registry.contains_iff, h.keys_eq]

/-- What a key has in a row is found by way of its index. -/
theorem value?_eq (h : s.Holds keys values) (m : M) (k : K) : s.value? m k = values m k := by
  unfold value?
  cases hi : s.registry.index? k with
  | none => exact (h.eq_none m k (h.index?_eq_none_iff.mp hi)).symm
  | some i =>
    rw [Option.bind_some, h.get?_eq, h.index?_eq_some_iff.mp hi]
    rfl

theorem mem_of_index? (h : s.Holds keys values) {k : K} {i : Nat}
    (hi : s.registry.index? k = some i) : k ∈ keys :=
  List.mem_of_getElem? (h.index?_eq_some_iff.mp hi)

/-- Where the slot at the index of a key is all that changes in a row, the value of that key is all
that changes. -/
theorem setSlot [DecidableEq M] (h : s.Holds keys values) {m : M} {k : K} {i : Nat} {row : Slots V}
    {u : Option V} (hi : s.registry.index? k = some i)
    (hrow : ∀ j, row.get? j = if j = i then u else (s.slots m).get? j) :
    Holds { s with slots := Function.update s.slots m row } keys
      fun m' k' => if m' = m ∧ k' = k then u else values m' k' := by
  have hki := h.index?_eq_some_iff.mp hi
  have hlt : i < keys.length := (List.getElem?_eq_some_iff.mp hki).1
  have hcolumn : ∀ j, row.get? j =
      keys[j]?.bind fun k' => if k' = k then u else values m k' := by
    intro j
    rw [hrow, h.get?_eq]
    by_cases hj : j = i
    · rw [if_pos hj, hj, hki, Option.bind_some, if_pos rfl]
    · rw [if_neg hj]
      cases hkj : keys[j]? with
      | none => rfl
      | some k' =>
        -- no key stands at two places
        have hne : k' ≠ k := by
          rintro rfl
          exact hj ((List.getElem?_inj hlt h.nodup).mp (hki.trans hkj.symm)).symm
        rw [Option.bind_some, Option.bind_some, if_neg hne]
  refine (h.update hcolumn fun k' hk' => ?_).congr fun m' k' => ?_
  · have hne : k' ≠ k := fun heq => hk' (heq ▸ h.mem_of_index? hi)
    rw [if_neg hne, h.eq_none m k' hk']
  · rw [Function.update_apply]
    by_cases hm : m' = m
    · simp [hm]
    · simp [hm]

/-- A new key is the last one, and has no value in any row. -/
theorem register (h : s.Holds keys values) {k : K} (hnew : k ∉ keys)
    (hsize : keys.length < Registry.indexLimit) :
    ∃ r, s.registry.insert k = .ok (r, keys.length) ∧
      Holds { s with registry := r } (keys ++ [k]) values := by
  have hkeys := h.keys_eq
  refine ⟨⟨keys ++ [k]⟩, ?_, ?_⟩
  · refine Registry.insert_eq_ok_iff.mpr ⟨?_, hkeys ▸ hnew, by rw [hkeys], ?_⟩
    · rwa [Registry.size, hkeys]
    · rw [Registry.size, hkeys]
  · refine ⟨rfl, ?_, fun m i => ?_, fun m k' hk' => ?_⟩
    · exact List.nodup_append'.mpr ⟨h.nodup, List.nodup_singleton k, by simpa using hnew⟩
    · refine (h.get?_eq m i).trans ?_
      by_cases hi : i < keys.length
      · rw [List.getElem?_append_left hi]
      · have hle := Nat.le_of_not_lt hi
        rw [List.getElem?_eq_none hle, List.getElem?_append_right hle]
        cases hj : i - keys.length with
        | zero => simp [h.eq_none m k hnew]
        | succ j => rfl
    · exact h.eq_none m k' fun hmem => hk' (List.mem_append_left _ hmem)

end Holds

end KeyedSlots

/-! ## 3. Actions -/

/-- What can be done with keys and rows. -/
inductive KeyedAction (K M V : Type) where
  /-- The key gets an index, if it has none. -/
  | register (k : K)
  /-- The key gets a value in a row. -/
  | write (m : M) (k : K) (v : V)
  /-- The value that the key has in a row is changed in place. -/
  | modify (m : M) (k : K) (f : V → V)
  /-- A row becomes a copy of another one. -/
  | clone (source target : M)

namespace KeyedSlots

variable {K M V : Type} [DecidableEq K] [DecidableEq M] {s s' : KeyedSlots K M V} {keys : List K}
  {values : M → K → Option V} {earlier : List (KeyedAction K M V)}

/-- One action.  A key is looked up before it is registered, and where it is to be used. -/
def perform (s : KeyedSlots K M V) : KeyedAction K M V → Except Fault (KeyedSlots K M V)
  | .register k =>
    if s.registry.contains k then .ok s
    else (s.registry.insert k).map fun (registry, _) => { s with registry := registry }
  | .write m k v =>
    match s.registry.index? k with
    | none => .ok s
    | some i => .ok { s with slots := Function.update s.slots m ((s.slots m).insert i v) }
  | .modify m k f =>
    match s.registry.index? k with
    | none => .ok s
    | some i => .ok { s with slots := Function.update s.slots m ((s.slots m).modify i f) }
  | .clone source target =>
    .ok { s with slots := Function.update s.slots target (s.slots source) }

/-- What a history leads to, the latest action first. -/
def after : List (KeyedAction K M V) → Except Fault (KeyedSlots K M V)
  | [] => .ok empty
  | action :: earlier => (after earlier).bind (·.perform action)

/-- The keys of a history, in the order in which they were registered. -/
def registered : List (KeyedAction K M V) → List K
  | [] => []
  | .register k :: earlier =>
    if k ∈ registered earlier then registered earlier else registered earlier ++ [k]
  | .write .. :: earlier | .modify .. :: earlier | .clone .. :: earlier => registered earlier

/-- The value last written for a key in a row, or in the one that the row was copied from before it
was. -/
def lastValue : List (KeyedAction K M V) → M → K → Option V
  | [], _, _ => none
  | .register _ :: earlier, m, k => lastValue earlier m k
  | .write m' k' v :: earlier, m, k =>
    if m = m' ∧ k = k' ∧ k ∈ registered earlier then some v else lastValue earlier m k
  | .modify m' k' f :: earlier, m, k =>
    if m = m' ∧ k = k' then (lastValue earlier m k).map f else lastValue earlier m k
  | .clone source target :: earlier, m, k =>
    if m = target then lastValue earlier source k else lastValue earlier m k

/-! ## 4. Every action keeps the invariant -/

/-- **Every action keeps the invariant**, as long as there is an index for a new key. -/
theorem holds_perform (h : s.Holds (registered earlier) (lastValue earlier))
    (action : KeyedAction K M V)
    (hsize : (registered (action :: earlier)).length ≤ Registry.indexLimit) :
    ∃ s', s.perform action = .ok s' ∧
      s'.Holds (registered (action :: earlier)) (lastValue (action :: earlier)) := by
  cases action with
  | register k =>
    by_cases hk : k ∈ registered earlier
    · refine ⟨s, if_pos (h.contains_iff.mpr hk), ?_⟩
      rw [registered, if_pos hk]
      exact h
    · rw [registered, if_neg hk] at hsize ⊢
      rw [List.length_append, List.length_singleton] at hsize
      obtain ⟨r, hr, hholds⟩ := h.register hk hsize
      refine ⟨_, ?_, hholds⟩
      rw [perform, if_neg fun hc => hk (h.contains_iff.mp hc), hr]
      rfl
  | write m k v =>
    cases hi : s.registry.index? k with
    | none =>
      have hk := h.index?_eq_none_iff.mp hi
      refine ⟨s, by rw [perform, hi], h.congr fun m' k' => ?_⟩
      refine if_neg ?_
      rintro ⟨-, rfl, hmem⟩
      exact hk hmem
    | some i =>
      have hmem : k ∈ registered earlier := h.mem_of_index? hi
      refine ⟨_, by rw [perform, hi], (h.setSlot hi (u := some v) ?_).congr fun m' k' => ?_⟩
      · exact fun j => Slots.get?_insert _ i j v
      · show (if m' = m ∧ k' = k ∧ k' ∈ registered earlier then some v else _) = _
        grind
  | modify m k f =>
    cases hi : s.registry.index? k with
    | none =>
      have hk := h.index?_eq_none_iff.mp hi
      refine ⟨s, by rw [perform, hi], h.congr fun m' k' => ?_⟩
      show (if m' = m ∧ k' = k then _ else _) = _
      split
      · next heq =>
        rw [heq.2, h.eq_none m' k hk]
        rfl
      · rfl
    | some i =>
      have hslot : (s.slots m).get? i = lastValue earlier m k := by
        rw [h.get?_eq, h.index?_eq_some_iff.mp hi, Option.bind_some]
      refine ⟨_, by rw [perform, hi],
        (h.setSlot hi (u := (lastValue earlier m k).map f) ?_).congr fun m' k' => ?_⟩
      · intro j
        rw [Slots.get?_modify]
        split
        · next heq => rw [heq, hslot]
        · rfl
      · show (if m' = m ∧ k' = k then _ else _) = _
        split
        · next heq => rw [heq.1, heq.2]
        · rfl
  | clone source target =>
    refine ⟨_, rfl, (h.update (h.get?_eq source) (h.eq_none source)).congr fun m' k' => ?_⟩
    rw [lastValue, Function.update_apply]
    split <;> rfl

/-! ## 5. Every history -/

omit [DecidableEq M] in
/-- A key that is registered stays so, at its place. -/
theorem registered_append (earlier : List (KeyedAction K M V)) :
    ∀ later, registered earlier <+: registered (later ++ earlier)
  | [] => List.prefix_rfl
  | action :: later => by
    have ih := registered_append earlier later
    cases action with
    | register k =>
      rw [List.cons_append, registered]
      split
      · exact ih
      · exact ih.trans (List.prefix_append _ _)
    | write | modify | clone => exact ih

/-- **A history leads to what it comes to**, as long as it does not run out of indices. -/
theorem exists_holds : ∀ h : List (KeyedAction K M V),
    (registered h).length ≤ Registry.indexLimit →
      ∃ s, after h = .ok s ∧ s.Holds (registered h) (lastValue h)
  | [], _ => ⟨empty, rfl, holds_empty⟩
  | action :: earlier, hsize => by
    have hle := (registered_append earlier [action]).length_le.trans hsize
    obtain ⟨s, hs, hholds⟩ := exists_holds earlier hle
    obtain ⟨s', hs', hholds'⟩ := holds_perform hholds action hsize
    exact ⟨s', by rw [after, hs]; exact hs', hholds'⟩

/-- A history that leads anywhere has not run out of indices. -/
theorem length_registered_le {h : List (KeyedAction K M V)} {s : KeyedSlots K M V}
    (hs : after h = .ok s) : (registered h).length ≤ Registry.indexLimit := by
  induction h generalizing s with
  | nil => exact Nat.zero_le _
  | cons action earlier ih =>
    cases hearlier : after earlier with
    | error fault =>
      rw [after, hearlier] at hs
      nomatch hs
    | ok s₀ =>
      have hle := ih hearlier
      cases action with
      | write | modify | clone => exact hle
      | register k =>
        rw [registered]
        split
        · exact hle
        · next hnew =>
          obtain ⟨s₁, hs₁, hholds⟩ := exists_holds earlier hle
          obtain rfl : s₀ = s₁ := Except.ok.inj (hearlier.symm.trans hs₁)
          -- the registry has given an index to this key, and so there was one
          have hinsert : (s₀.registry.insert k).map
              (fun x => { s₀ with registry := x.1 }) = .ok s := by
            rw [← hs, after, hearlier]
            exact (if_neg fun hc => hnew (hholds.contains_iff.mp hc)).symm
          cases hr : s₀.registry.insert k with
          | error fault =>
            rw [hr] at hinsert
            nomatch hinsert
          | ok x =>
            have hlt := (Registry.insert_eq_ok_iff.mp hr).1
            rw [Registry.size, hholds.keys_eq] at hlt
            rwa [List.length_append, List.length_singleton]

theorem holds_of_after {h : List (KeyedAction K M V)} {s : KeyedSlots K M V}
    (hs : after h = .ok s) : s.Holds (registered h) (lastValue h) := by
  obtain ⟨s', hs', hholds⟩ := exists_holds h (length_registered_le hs)
  obtain rfl : s = s' := Except.ok.inj (hs.symm.trans hs')
  exact hholds

/-- **Each row is a finite map.**  After every history there are indices enough for:

* the keys have the indices in the order in which they were registered, no key has two and no two
  keys have one, and none of this changes later;
* the next new key is given the next index;
* a key has in a row what was last written for it there, or in the row that this one was copied from
  before it was, and has nothing there if nothing was written;
* a row lists the keys that have a value in it, in the order of registration;
* a value that is written, or changed in place, is seen for that key in that row, and nowhere
  else. -/
theorem finite_maps (h : List (KeyedAction K M V))
    (hsize : (registered h).length ≤ Registry.indexLimit) :
    ∃ s, after h = .ok s ∧
      ((registered h).Nodup ∧
        (∀ k, s.registry.contains k = true ↔ k ∈ registered h) ∧
        (∀ k i, s.registry.index? k = some i ↔ (registered h)[i]? = some k) ∧
        ∀ later s', after (later ++ h) = .ok s' →
          ∀ k i, s.registry.index? k = some i → s'.registry.index? k = some i) ∧
      (∀ k, k ∉ registered h → (registered h).length < Registry.indexLimit →
        ∃ r, s.registry.insert k = .ok (r, (registered h).length)) ∧
      (∀ m k, s.value? m k = lastValue h m k) ∧
      (∀ m, (s.slots m).toList =
        (registered h).zipIdx.filterMap fun x => (lastValue h m x.1).map (x.2, ·)) ∧
      ∀ m k, k ∈ registered h →
        (∀ v, ∃ s', s.perform (.write m k v) = .ok s' ∧ ∀ m' k', s'.value? m' k' =
          if m' = m ∧ k' = k then some v else s.value? m' k') ∧
        ∀ f, ∃ s', s.perform (.modify m k f) = .ok s' ∧ ∀ m' k', s'.value? m' k' =
          if m' = m ∧ k' = k then (s.value? m k).map f else s.value? m' k' := by
  obtain ⟨s, hs, hholds⟩ := exists_holds h hsize
  refine ⟨s, hs, ⟨hholds.nodup, fun k => hholds.contains_iff, fun k i => hholds.index?_eq_some_iff,
    ?_⟩, ?_, hholds.value?_eq, hholds.toList_eq, fun m k hk => ⟨fun v => ?_, fun f => ?_⟩⟩
  · intro later s' hs' k i hi
    have hk := hholds.index?_eq_some_iff.mp hi
    rw [(holds_of_after hs').index?_eq_some_iff]
    exact (List.prefix_iff_getElem?.mp (registered_append h later) i
      (List.getElem?_eq_some_iff.mp hk).1).trans
        ((List.getElem?_eq_getElem _).symm.trans hk)
  · intro k hnew hlt
    obtain ⟨r, hr, -⟩ := hholds.register hnew hlt
    exact ⟨r, hr⟩
  · obtain ⟨s', hs', hholds'⟩ := holds_perform hholds (.write m k v) hsize
    refine ⟨s', hs', fun m' k' => ?_⟩
    rw [hholds'.value?_eq, hholds.value?_eq, lastValue]
    grind
  · obtain ⟨s', hs', hholds'⟩ := holds_perform hholds (.modify m k f) hsize
    refine ⟨s', hs', fun m' k' => ?_⟩
    rw [hholds'.value?_eq, hholds.value?_eq, hholds.value?_eq, lastValue]
    grind

/-- The second row is copied when it has a value for the last key alone, which the first one then
changes for itself; the key in the middle never gets one. -/
theorem finite_maps_copied :
    ∃ s : KeyedSlots Char Bool Nat,
      after [.write true 'a' 7, .modify false 'c' (· + 1), .clone false true, .write false 'c' 3,
        .register 'c', .register 'b', .register 'a'] = .ok s ∧
      s.registry.index? 'c' = some 2 ∧
      (s.slots false).toList = [(2, 4)] ∧ (s.slots true).toList = [(0, 7), (2, 3)] ∧
      s.value? true 'b' = none := by
  obtain ⟨s, hs, ⟨-, -, hindex, -⟩, -, hvalue, hlist, -⟩ :=
    finite_maps [.write true 'a' 7, .modify false 'c' (· + 1), .clone false true,
      .write false 'c' 3, .register 'c', .register 'b', .register 'a'] (by decide)
  exact ⟨s, hs, (hindex 'c' 2).mpr (by decide), (hlist false).trans (by decide),
    (hlist true).trans (by decide), (hvalue true 'b').trans (by decide)⟩

end KeyedSlots

end TreeBorrows
