/-
# Settings

What can be chosen about a checker.  None of the settings decides which accesses are allowed:
they say which tags to report on, and how the work is organised.
-/
import TreeBorrows.Pointer

namespace TreeBorrows

/-- The settings of a checker. -/
structure Settings where
  /-- The tags whose creation and transitions are reported. -/
  tracked : List Nat := []
  /-- Foreign accesses pass over subtrees that are known to absorb them. -/
  foreignSkipping : Bool := true
  /-- How many runs a map may gain before equal neighbours are joined. -/
  mergeSlack : Nat := 32
deriving DecidableEq

namespace Settings

/-- The tag is one of those to report on. -/
def tracks (s : Settings) (t : Tag) : Bool := s.tracked.contains t.number

theorem tracks_iff {s : Settings} {t : Tag} : s.tracks t = true ↔ t.number ∈ s.tracked := by
  simp [tracks]

end Settings

end TreeBorrows
