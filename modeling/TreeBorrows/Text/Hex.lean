/-
# Hexadecimal numerals
-/

namespace TreeBorrows.Text

/-- Lower-case hexadecimal digits, without leading zeros. -/
def hexDigits (n : Nat) : String :=
  String.ofList (Nat.toDigits 16 n)

/-- A hexadecimal numeral with its `0x` mark. -/
def hex (n : Nat) : String :=
  "0x" ++ hexDigits n

end TreeBorrows.Text
