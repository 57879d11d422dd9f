/-
# Text between quotes

A text written in double quotes so that it can be read off unambiguously: the quote and the
backslash get a backslash, the common control characters their short form, and every other
character that cannot be seen on its own its code point.
-/
import TreeBorrows.Text.DefaultIgnorable
import TreeBorrows.Text.GraphemeExtend
import TreeBorrows.Text.Hex
import TreeBorrows.Text.Unprintable

namespace TreeBorrows.Text

/-- The halfwidth sound marks of Katakana.  They extend the character before them, and still are
letters with a width of their own. -/
def isHalfwidthSoundMark (c : Char) : Bool := c == '\uff9e' || c == '\uff9f'

/-- A character that cannot be seen, or not apart from the one before it. -/
def isHidden (c : Char) : Bool :=
  isUnprintable c || isDefaultIgnorable c || (isGraphemeExtend c && !isHalfwidthSoundMark c)

/-- The written form of a character between double quotes. -/
def escapeChar (c : Char) : String :=
  match c with
  | '\x00' => "\\0"
  | '\t' => "\\t"
  | '\r' => "\\r"
  | '\n' => "\\n"
  | '\x5c' => "\\\\"
  | '\x22' => "\\\""
  | c =>
    if isHidden c then
      "\\u\x7b" ++ hexDigits c.toNat ++ "\x7d"
    else c.toString

/-- The text between double quotes. -/
def quoted (s : String) : String :=
  "\"" ++ String.join (s.toList.map escapeChar) ++ "\""

end TreeBorrows.Text
