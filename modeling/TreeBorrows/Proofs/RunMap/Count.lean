/-
# How many runs a map is kept in

An operation on a range divides a run at each end of it at most, so it adds two runs at most
(`RunMap.length_carve_le`).  New values add none, and joining neighbours takes some away.  A map
without empty runs never has more runs than offsets (`RunMap.runCount_le_size`).
-/
import TreeBorrows.RunMap.Lemmas

namespace TreeBorrows

variable {α β : Type}

namespace Run

/-! ## 1. Rows of runs -/

/-- Runs that are not empty are no more than their offsets. -/
theorem length_le_total {rs : List (Run α)} (h : ∀ r ∈ rs, 0 < r.length) :
    rs.length ≤ total rs := by
  induction rs with
  | nil => exact Nat.le_refl 0
  | cons r rs ih =>
    have hr := h r List.mem_cons_self
    have := ih fun s hs => h s (List.mem_cons_of_mem r hs)
    simp only [List.length_cons, total_cons]
    omega

/-- A cut divides one run at most. -/
theorem length_cut_le (n : Nat) (rs : List (Run α)) :
    (cut n rs).1.length + (cut n rs).2.length ≤ rs.length + 1 := by
  induction rs generalizing n with
  | nil => simp [cut]
  | cons r rs ih =>
    unfold cut
    split
    · simp
    · split
      · have := ih (n - r.length)
        simp only [List.length_cons]
        omega
      · simp only [List.length_cons, List.length_nil]
        omega

@[simp] theorem length_mapValues (f : α → β) (rs : List (Run α)) :
    (mapValues f rs).length = rs.length :=
  List.length_map _

@[simp] theorem length_change (f : α → β → α) (rs : List (Run α)) (cs : List β) :
    (change f rs cs).length = rs.length := by
  induction rs generalizing cs with
  | nil => cases cs <;> rfl
  | cons r rs ih =>
    cases cs with
    | nil => rfl
    | cons c cs => simp [change, ih]

theorem length_merge_le [DecidableEq α] (rs : List (Run α)) : (merge rs).length ≤ rs.length := by
  induction rs with
  | nil => exact Nat.le_refl 0
  | cons r rs ih =>
    unfold merge
    split
    · simp
    · next s ss h =>
      rw [h, List.length_cons] at ih
      split
      · simp only [List.length_cons]
        omega
      · simp only [List.length_cons]
        omega

end Run

namespace RunMap

/-! ## 2. Maps -/

theorem runCount_le_size {m : RunMap α} (h : m.IsProper) : m.runCount ≤ m.size :=
  Run.length_le_total h

/-- The parts of a carving have two runs more than the map at most. -/
theorem length_carve_le (m : RunMap α) (r : ByteRange) :
    (m.carve r).before.length + (m.carve r).inside.length + (m.carve r).after.length ≤
      m.runCount + 2 := by
  have h₁ := Run.length_cut_le r.start m.runs
  have h₂ := Run.length_cut_le r.size (Run.cut r.start m.runs).2
  unfold carve runCount
  split
  · simp only [List.length_nil]
    omega
  · dsimp only
    omega

theorem runCount_join (c : Carving α) :
    c.join.runCount = c.before.length + c.inside.length + c.after.length := by
  simp only [Carving.join, runCount, List.length_append]

/-- A division at the ends of a range adds a run at each end of it at most. -/
theorem runCount_split_le (m : RunMap α) (r : ByteRange) :
    (m.split r).runCount ≤ m.runCount + 2 := by
  rw [split, runCount_join]
  exact length_carve_le m r

/-- So does an update of a range. -/
theorem runCount_update_le (m : RunMap α) (r : ByteRange) (f : α → α) :
    (m.update r f).runCount ≤ m.runCount + 2 := by
  rw [update, runCount_join, Run.length_mapValues]
  exact length_carve_le m r

/-- So does a change of a range. -/
theorem runCount_change_le (m : RunMap α) (r : ByteRange) (f : α → β → α) (cs : List β) :
    (m.change r f cs).runCount ≤ m.runCount + 2 := by
  rw [change, runCount_join, Run.length_change]
  exact length_carve_le m r

@[simp] theorem runCount_map (m : RunMap α) (f : α → β) : (m.map f).runCount = m.runCount :=
  Run.length_mapValues f m.runs

theorem runCount_merge_le [DecidableEq α] (m : RunMap α) : m.merge.runCount ≤ m.runCount :=
  Run.length_merge_le m.runs

end RunMap

end TreeBorrows
