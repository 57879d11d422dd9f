/-
# Byte counts and byte ranges

A `ByteRange` is a start and a size inside an allocation, both 64-bit words.  Its end
`start + size` is kept as a natural number (`stop`), so it is always meaningful;
`stop?` says whether that end is itself a word.
-/
import TreeBorrows.Word
import TreeBorrows.Text.Hex

namespace TreeBorrows

/-! ## 1. Byte counts -/

/-- A number of bytes, or an offset in bytes into an allocation. -/
abbrev ByteCount := Nat

namespace ByteCount

/-- The long form of a byte count. -/
def text (n : ByteCount) : String := s!"size{n}"

/-- The short form of a byte count. -/
def shortText (n : ByteCount) : String := s!"s{n}"

end ByteCount

/-! ## 2. Ranges -/

/-- The `size` bytes from offset `start` on. -/
structure ByteRange where
  start : Nat
  size : Nat
deriving DecidableEq

namespace ByteRange

/-- The range from `start` up to, and without, `stop`; empty where `stop` lies before. -/
def ofSpan (start stop : Nat) : ByteRange := ⟨start, stop - start⟩

/-- One past the last byte, as a natural number. -/
def stop (r : ByteRange) : Nat := r.start + r.size

/-- One past the last byte, if it is a 64-bit word. -/
def stop? (r : ByteRange) : Option Nat := Word.add? r.start r.size

/-- A range of no bytes, wherever it starts. -/
def isEmpty (r : ByteRange) : Bool := r.size == 0

/-- Both ends in hexadecimal; an end beyond the words is shown as the largest word. -/
def text (r : ByteRange) : String :=
  s!"[{Text.hex r.start}..{Text.hex (Word.addSaturating r.start r.size)}]"

/-- The offset is one of the range's bytes. -/
instance : Membership Nat ByteRange where
  mem r o := r.start ≤ o ∧ o < r.stop

instance (o : Nat) (r : ByteRange) : Decidable (o ∈ r) :=
  inferInstanceAs (Decidable (r.start ≤ o ∧ o < r.stop))

theorem mem_iff {o : Nat} {r : ByteRange} : o ∈ r ↔ r.start ≤ o ∧ o < r.start + r.size :=
  Iff.rfl

theorem isEmpty_iff {r : ByteRange} : r.isEmpty = true ↔ r.size = 0 := by
  simp [isEmpty]

theorem not_mem_of_isEmpty {r : ByteRange} (h : r.isEmpty = true) (o : Nat) : o ∉ r := by
  rw [isEmpty_iff] at h
  rw [mem_iff]
  omega

end ByteRange

end TreeBorrows
