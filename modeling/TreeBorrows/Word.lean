/-
# Sums of 64-bit words

Sizes, offsets and counters are natural numbers below `2 ^ 64`.  They are kept as `Nat`; only
a sum can leave the words, and each of the three sums below says what happens then.
-/
import TreeBorrows.Fault

namespace TreeBorrows.Word

/-- The first number that is no 64-bit word. -/
def limit : Nat := UInt64.size

/-- The sum, if it is a word. -/
def add? (a b : Nat) : Option Nat :=
  if a + b < limit then some (a + b) else none

/-- The sum, where leaving the words is a fault. -/
def add (a b : Nat) : Except Fault Nat :=
  if a + b < limit then .ok (a + b) else .error .overflow

/-- The sum, or the largest word where it is too large. -/
def addSaturating (a b : Nat) : Nat :=
  min (a + b) (limit - 1)

theorem add?_eq_some_iff {a b c : Nat} : add? a b = some c ↔ a + b = c ∧ a + b < limit := by
  grind [add?]

theorem add_eq_ok_iff {a b c : Nat} : add a b = .ok c ↔ a + b = c ∧ a + b < limit := by
  grind [add]

theorem add_eq_error_iff {a b : Nat} {f : Fault} :
    add a b = .error f ↔ f = .overflow ∧ limit ≤ a + b := by
  grind [add]

end TreeBorrows.Word
