/-
# Rows of fallible steps

Both passes over a tree work through a list and stop at the first failure.  This module holds
what is needed to read such a pass as a statement about the members of its list.

* `mapM_eq_ok_iff` and `mapM_eq_error_iff`: a row of steps succeeds if each step does, and fails
  with the first that fails.
* `collect` is a row in which a member may also ask for nothing.  What is collected depends on
  the members that ask for something (`collect_eq_ok`), so lists that differ in idle members
  only are interchangeable (`collect_eq_nil` with the `_congr` lemmas).
-/
import Mathlib.Data.List.Forall2
import Mathlib.Data.List.ReduceOption

namespace TreeBorrows

/-! ## 1. Rows of fallible steps -/

section MapM

variable {ε α β : Type} {f : α → Except ε β}

theorem mapM_eq_ok_iff {xs : List α} {ys : List β} :
    xs.mapM f = .ok ys ↔ List.Forall₂ (fun x y => f x = .ok y) xs ys := by
  induction xs generalizing ys with
  | nil =>
    rw [List.mapM_nil, List.forall₂_nil_left_iff]
    exact ⟨fun h => (Except.ok.inj h).symm, fun h => congrArg Except.ok h.symm⟩
  | cons x xs ih =>
    rw [List.mapM_cons, List.forall₂_cons_left_iff]
    simp only [← ih]
    cases hx : f x with
    | error e => simp [bind, Except.bind]
    | ok y =>
      cases hxs : xs.mapM f with
      | error e => simp [bind, Except.bind]
      | ok zs => simp [bind, Except.bind, pure, Except.pure, eq_comm]

/-- What a row of steps gives, some member gave. -/
theorem exists_of_mapM_eq_ok {xs : List α} {ys : List β} (h : xs.mapM f = .ok ys) {y : β}
    (hy : y ∈ ys) : ∃ x ∈ xs, f x = .ok y := by
  have hall := mapM_eq_ok_iff.mp h
  clear h
  induction hall with
  | nil => exact absurd hy List.not_mem_nil
  | @cons x _ _ _ hxy _ ih =>
    rcases List.mem_cons.mp hy with rfl | hy
    · exact ⟨x, List.mem_cons_self, hxy⟩
    · obtain ⟨x', hx', hf⟩ := ih hy
      exact ⟨x', List.mem_cons_of_mem x hx', hf⟩

/-- A row of steps stops at the first one that fails. -/
theorem mapM_eq_error_iff {xs : List α} {e : ε} :
    xs.mapM f = .error e ↔
      ∃ pre x post, xs = pre ++ x :: post ∧ (∀ y ∈ pre, ∃ b, f y = .ok b) ∧ f x = .error e := by
  induction xs with
  | nil => simp [pure, Except.pure]
  | cons x xs ih =>
    rw [List.mapM_cons]
    cases hx : f x with
    | error d =>
      constructor
      · intro h
        obtain rfl : d = e := by simpa [bind, Except.bind] using h
        exact ⟨[], x, xs, rfl, by simp, hx⟩
      · rintro ⟨pre, y, post, hxs, hpre, hy⟩
        cases pre with
        | nil =>
          obtain ⟨rfl, rfl⟩ := List.cons.inj hxs
          rw [← hx, hy]
          rfl
        | cons z pre =>
          obtain ⟨rfl, -⟩ := List.cons.inj hxs
          obtain ⟨b, hb⟩ := hpre x List.mem_cons_self
          rw [hx] at hb
          nomatch hb
    | ok b =>
      have hrest : (do let ys ← xs.mapM f; pure (b :: ys) : Except ε (List β)) = .error e ↔
          xs.mapM f = .error e := by
        cases xs.mapM f <;> simp [bind, Except.bind, pure, Except.pure]
      refine hrest.trans (ih.trans ?_)
      constructor
      · rintro ⟨pre, y, post, rfl, hpre, hy⟩
        refine ⟨x :: pre, y, post, rfl, ?_, hy⟩
        intro z hz
        rcases List.mem_cons.mp hz with rfl | hz
        · exact ⟨b, hx⟩
        · exact hpre z hz
      · rintro ⟨pre, y, post, hxs, hpre, hy⟩
        cases pre with
        | nil =>
          obtain ⟨rfl, rfl⟩ := List.cons.inj hxs
          rw [hx] at hy
          nomatch hy
        | cons z pre =>
          obtain ⟨rfl, rfl⟩ := List.cons.inj hxs
          exact ⟨pre, y, post, rfl, fun w hw => hpre w (List.mem_cons_of_mem x hw), hy⟩

/-- A row of steps that all succeed succeeds. -/
theorem exists_mapM_eq_ok {xs : List α} (h : ∀ x ∈ xs, ∃ b, f x = .ok b) :
    ∃ ys, xs.mapM f = .ok ys := by
  cases hm : xs.mapM f with
  | ok ys => exact ⟨ys, rfl⟩
  | error e =>
    obtain ⟨pre, x, post, rfl, -, hx⟩ := mapM_eq_error_iff.mp hm
    obtain ⟨b, hb⟩ := h x (by simp)
    rw [hx] at hb
    nomatch hb

/-- A row of steps is determined by the step at each member. -/
theorem mapM_congr {g : α → Except ε β} {xs : List α} (h : ∀ x ∈ xs, f x = g x) :
    xs.mapM f = xs.mapM g := by
  induction xs with
  | nil => rfl
  | cons x xs ih =>
    rw [List.mapM_cons, List.mapM_cons, h x List.mem_cons_self,
      ih fun y hy => h y (List.mem_cons_of_mem x hy)]

section Silent

variable {f : α → Option β} {xs : List α}

/-- The same for steps that fail without a word. -/
theorem mapM_eq_some_iff {ys : List β} :
    xs.mapM f = some ys ↔ List.Forall₂ (fun x y => f x = some y) xs ys := by
  induction xs generalizing ys with
  | nil =>
    rw [List.mapM_nil, List.forall₂_nil_left_iff]
    exact ⟨fun h => (Option.some.inj h).symm, fun h => congrArg some h.symm⟩
  | cons x xs ih =>
    rw [List.mapM_cons, List.forall₂_cons_left_iff]
    simp only [← ih]
    cases hx : f x with
    | none => simp
    | some y =>
      cases hxs : xs.mapM f with
      | none => simp
      | some zs => simp [eq_comm]

theorem mapM_eq_none_iff : xs.mapM f = none ↔ ∃ x ∈ xs, f x = none := by
  induction xs with
  | nil => simp
  | cons x xs ih =>
    rw [List.mapM_cons, List.exists_mem_cons_iff, ← ih]
    cases hx : f x with
    | none => simp
    | some y =>
      cases hxs : xs.mapM f with
      | none => simp
      | some zs => simp

end Silent

end MapM

/-! ## 2. Collected updates -/

section Collect

variable {ε α β : Type}

/-- What the members of a list ask for, unless one of them fails. -/
def collect (f : α → Except ε (Option β)) (xs : List α) : Except ε (List β) :=
  (xs.mapM f).map List.reduceOption

variable {f : α → Except ε (Option β)} {xs ys : List α}

theorem collect_eq_ok {bs : List β} (h : collect f xs = .ok bs) :
    (∀ x ∈ xs, ∃ b?, f x = .ok b?) ∧ ∀ b, b ∈ bs ↔ ∃ x ∈ xs, f x = .ok (some b) := by
  unfold collect at h
  cases hm : xs.mapM f with
  | error e =>
    rw [hm] at h
    nomatch h
  | ok bs? =>
    rw [hm] at h
    obtain rfl : bs?.reduceOption = bs := Except.ok.inj h
    have hall := mapM_eq_ok_iff.mp hm
    clear hm h
    refine ⟨?_, fun b => ?_⟩
    · intro x hx
      induction hall with
      | nil => exact absurd hx List.not_mem_nil
      | cons hxy _ ih =>
        rcases List.mem_cons.mp hx with rfl | hx
        · exact ⟨_, hxy⟩
        · exact ih hx
    · rw [List.reduceOption_mem_iff]
      induction hall with
      | nil => simp
      | @cons x b? xs bs? hxb _ ih =>
        simp only [List.mem_cons, exists_eq_or_imp, hxb, Except.ok.injEq]
        exact or_congr eq_comm ih

/-- What is collected stays the same while the members ask for the same. -/
theorem collect_eq_ok_of_imp {g : α → Except ε (Option β)}
    (hfg : ∀ x ∈ xs, ∀ b?, f x = .ok b? → g x = .ok b?) {bs : List β} (h : collect f xs = .ok bs) :
    collect g xs = .ok bs := by
  have hcongr : xs.mapM f = xs.mapM g := by
    refine mapM_congr fun x hx => ?_
    obtain ⟨b?, hb⟩ := (collect_eq_ok h).1 x hx
    rw [hb, hfg x hx b? hb]
  rwa [collect, ← hcongr]

theorem exists_collect_eq_ok (h : ∀ x ∈ xs, ∃ b?, f x = .ok b?) : ∃ bs, collect f xs = .ok bs := by
  obtain ⟨bs?, hm⟩ := exists_mapM_eq_ok h
  exact ⟨bs?.reduceOption, by rw [collect, hm]; rfl⟩

/-- A collection stops at the first member that fails. -/
theorem exists_first_of_collect_eq_error {e : ε} (h : collect f xs = .error e) :
    ∃ pre x post, xs = pre ++ x :: post ∧ (∀ y ∈ pre, ∃ b?, f y = .ok b?) ∧ f x = .error e := by
  unfold collect at h
  cases hm : xs.mapM f with
  | ok bs? =>
    rw [hm] at h
    nomatch h
  | error d =>
    rw [hm] at h
    obtain rfl : d = e := Except.error.inj h
    exact mapM_eq_error_iff.mp hm

/-- A collection fails with the failure of one of the members. -/
theorem exists_of_collect_eq_error {e : ε} (h : collect f xs = .error e) :
    ∃ x ∈ xs, f x = .error e := by
  obtain ⟨pre, x, post, rfl, -, hx⟩ := exists_first_of_collect_eq_error h
  exact ⟨x, by simp, hx⟩

/-- A collection from other members fails in the same way if each of them does. -/
theorem collect_map_eq_error_iff {γ : Type} {g : α → γ} {f' : γ → Except ε (Option β)}
    (h : ∀ x ∈ xs, ∀ e, f' (g x) = .error e ↔ f x = .error e) {e : ε} :
    collect f' (xs.map g) = .error e ↔ collect f xs = .error e := by
  have hmap : ∀ {α : Type} {f : α → Except ε (Option β)} {xs : List α},
      collect f xs = .error e ↔ xs.mapM f = .error e := by
    intro α f xs
    unfold collect
    cases xs.mapM f <;> simp [Except.map]
  have hok : ∀ x ∈ xs, (∃ b?, f' (g x) = .ok b?) ↔ ∃ b?, f x = .ok b? := by
    intro x hx
    have hx := h x hx
    cases hf' : f' (g x) <;> cases hf : f x <;> simp_all
  rw [hmap, hmap, mapM_eq_error_iff, mapM_eq_error_iff]
  constructor
  · rintro ⟨pre, y, post, hxs, hpre, hy⟩
    obtain ⟨pre, rest, rfl, rfl, hrest⟩ := List.map_eq_append_iff.mp hxs
    obtain ⟨x, post, rfl, rfl, rfl⟩ := List.map_eq_cons_iff.mp hrest
    refine ⟨pre, x, post, rfl, fun z hz => ?_, (h x (by simp) e).mp hy⟩
    exact (hok z (by simp [hz])).mp (hpre (g z) (List.mem_map_of_mem hz))
  · rintro ⟨pre, x, post, rfl, hpre, hx⟩
    refine ⟨pre.map g, g x, post.map g, by simp, fun y hy => ?_, (h x (by simp) e).mpr hx⟩
    obtain ⟨z, hz, rfl⟩ := List.mem_map.mp hy
    exact (hok z (by simp [hz])).mpr (hpre z hz)

/-! ## 3. Lists that ask for the same -/

theorem collect_append (f : α → Except ε (Option β)) (xs ys : List α) :
    collect f (xs ++ ys) = (collect f xs).bind fun bs => (collect f ys).map (bs ++ ·) := by
  unfold collect
  rw [List.mapM_append]
  cases xs.mapM f with
  | error e => rfl
  | ok bs? =>
    cases ys.mapM f with
    | error e => rfl
    | ok cs? => exact congrArg Except.ok (List.reduceOption_append bs? cs?)

theorem collect_cons_congr {x : α} (h : collect f xs = collect f ys) :
    collect f (x :: xs) = collect f (x :: ys) := by
  rw [← List.singleton_append, collect_append, h, ← collect_append, List.singleton_append]

theorem collect_append_congr {xs' ys' : List α} (h : collect f xs = collect f ys)
    (h' : collect f xs' = collect f ys') : collect f (xs ++ xs') = collect f (ys ++ ys') := by
  rw [collect_append, collect_append, h, h']

theorem collect_flatMap_congr {γ : Type} {cs : List γ} {g h : γ → List α}
    (hgh : ∀ c ∈ cs, collect f (g c) = collect f (h c)) :
    collect f (cs.flatMap g) = collect f (cs.flatMap h) := by
  induction cs with
  | nil => rfl
  | cons c cs ih =>
    rw [List.flatMap_cons, List.flatMap_cons]
    refine collect_append_congr (hgh c List.mem_cons_self) (ih fun d hd => ?_)
    exact hgh d (List.mem_cons_of_mem c hd)

/-- Members that ask for nothing leave nothing. -/
theorem collect_eq_nil (h : ∀ x ∈ xs, f x = .ok none) : collect f xs = .ok [] := by
  induction xs with
  | nil => rfl
  | cons x xs ih =>
    have hx : collect f [x] = .ok [] := by
      unfold collect
      rw [List.mapM_cons, h x List.mem_cons_self]
      rfl
    have hxs := ih fun y hy => h y (List.mem_cons_of_mem x hy)
    rw [← List.singleton_append, collect_append, hx, hxs]
    rfl

end Collect

end TreeBorrows
