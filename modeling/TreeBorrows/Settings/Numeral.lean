/-
# Integers in a settings document

Decimal integers with an optional sign and no leading zeros, or hexadecimal, octal and binary
ones behind `0x`, `0o` and `0b`.  A single underscore may stand between two digits.  All of
them are 64-bit signed integers.
-/
import TreeBorrows.Text.Digit

namespace TreeBorrows.Settings

/-- The number that digits and underscores denote, read after the number `acc`.  `afterDigit`
says whether the character before was a digit: an underscore needs one on either side. -/
def digits? (base acc : Nat) (afterDigit : Bool) : List Char → Option Nat
  | [] => if afterDigit then some acc else none
  | c :: cs =>
    if c = '_' then
      if afterDigit then digits? base acc false cs else none
    else match Text.digit? base c with
      | some d => digits? base (base * acc + d) true cs
      | none => none

/-- A decimal number without leading zeros. -/
def decimal? : List Char → Option Nat
  | ['0'] => some 0
  | '0' :: _ => none
  | cs => digits? 10 0 false cs

/-- The integer that a word denotes. -/
def integer? (word : List Char) : Option Int :=
  let value? : Option Int :=
    match word with
    | '0' :: 'x' :: cs => (digits? 16 0 false cs).map Int.ofNat
    | '0' :: 'o' :: cs => (digits? 8 0 false cs).map Int.ofNat
    | '0' :: 'b' :: cs => (digits? 2 0 false cs).map Int.ofNat
    | '+' :: cs => (decimal? cs).map Int.ofNat
    | '-' :: cs => (decimal? cs).map fun n => -Int.ofNat n
    | cs => (decimal? cs).map Int.ofNat
  value?.filter fun n => Int64.minValue.toInt ≤ n ∧ n ≤ Int64.maxValue.toInt

end TreeBorrows.Settings
