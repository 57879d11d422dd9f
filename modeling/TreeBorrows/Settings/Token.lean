/-
# The tokens of a settings document

A document is read character by character.  White space separates tokens and means nothing
else; a comment runs from `#` to the end of its line; line ends are tokens, since an entry ends
with its line.  What is none of this is refused: the documents read here hold nothing but
entries, so no other sign can stand in them.
-/
import TreeBorrows.Text.Digit

namespace TreeBorrows.Settings

/-- A unit of a document. -/
inductive Token where
  /-- A word without quotes: a key, a number or a truth value. -/
  | word (chars : List Char)
  /-- A text in quotes, as what it stands for. -/
  | quoted (chars : List Char)
  | equals
  | opening
  | closing
  | comma
  | lineEnd
deriving DecidableEq

namespace Token

/-- Where the reader is.  The characters of a token that is not complete are kept last first. -/
inductive Mode where
  | between
  | word (acc : List Char)
  | comment
  /-- After a carriage return, which only a line feed may follow. -/
  | carriageReturn
  /-- In a text between double quotes. -/
  | basic (acc : List Char)
  /-- In such a text, after a backslash. -/
  | escape (acc : List Char)
  /-- In such a text, with `left` digits of a code point still to come. -/
  | codePoint (acc : List Char) (left value : Nat)
  /-- In a text between single quotes, in which nothing is escaped. -/
  | literal (acc : List Char)
deriving DecidableEq

/-- A character of a word. -/
def isWordChar (c : Char) : Bool :=
  c.isAlphanum || c == '_' || c == '-' || c == '+'

/-- A character that comments and texts in quotes may hold. -/
def isTextChar (c : Char) : Bool :=
  c == '\t' || (0x20 ≤ c.toNat && c.toNat != 0x7F)

/-- The character with a code point, if there is one. -/
def char? (n : Nat) : Option Char :=
  if n.isValidChar then some (Char.ofNat n) else none

/-- The tokens read so far, last first, and where the reader is. -/
abbrev Reader := List Token × Mode

/-- The reader after a character outside of words, texts and comments. -/
def stepBetween (done : List Token) (c : Char) : Option Reader :=
  match c with
  | ' ' | '\t' => some (done, .between)
  | '\n' => some (.lineEnd :: done, .between)
  | '\r' => some (done, .carriageReturn)
  | '#' => some (done, .comment)
  | '=' => some (.equals :: done, .between)
  | '[' => some (.opening :: done, .between)
  | ']' => some (.closing :: done, .between)
  | ',' => some (.comma :: done, .between)
  | '\x22' => some (done, .basic [])
  | '\x27' => some (done, .literal [])
  | c => if isWordChar c then some (done, .word [c]) else none

/-- The character that a short escape stands for. -/
def shortEscape? (c : Char) : Option Char :=
  match c with
  | 'b' => some '\x08'
  | 't' => some '\t'
  | 'n' => some '\n'
  | 'f' => some '\x0c'
  | 'r' => some '\r'
  | '\x22' => some '\x22'
  | '\x5c' => some '\x5c'
  | _ => none

/-- The reader after one more character; `none` if it cannot stand there. -/
def step (r : Reader) (c : Char) : Option Reader :=
  let (done, mode) := r
  match mode with
  | .between => stepBetween done c
  | .word acc =>
    if isWordChar c then some (done, .word (c :: acc))
    else stepBetween (.word acc.reverse :: done) c
  | .comment =>
    match c with
    | '\n' => some (.lineEnd :: done, .between)
    | '\r' => some (done, .carriageReturn)
    | c => if isTextChar c then some (done, .comment) else none
  | .carriageReturn => if c = '\n' then some (.lineEnd :: done, .between) else none
  | .basic acc =>
    match c with
    | '\x22' => some (.quoted acc.reverse :: done, .between)
    | '\x5c' => some (done, .escape acc)
    | c => if isTextChar c then some (done, .basic (c :: acc)) else none
  | .escape acc =>
    match c with
    | 'u' => some (done, .codePoint acc 4 0)
    | 'U' => some (done, .codePoint acc 8 0)
    | c => (shortEscape? c).map fun c => (done, .basic (c :: acc))
  | .codePoint acc left value =>
    match Text.digit? 16 c with
    | none => none
    | some d =>
      let value := 16 * value + d
      if left = 1 then (char? value).map fun c => (done, .basic (c :: acc))
      else some (done, .codePoint acc (left - 1) value)
  | .literal acc =>
    if c = '\x27' then some (.quoted acc.reverse :: done, .between)
    else if isTextChar c then some (done, .literal (c :: acc))
    else none

/-- The tokens of a whole document.  A byte order mark may stand in front of it. -/
def ofChars? (cs : List Char) : Option (List Token) :=
  let cs := match cs with
    | '\ufeff' :: cs => cs
    | cs => cs
  match cs.foldlM step (([], .between) : Reader) with
  | some (done, .between) | some (done, .comment) => some done.reverse
  | some (done, .word acc) => some (Token.word acc.reverse :: done).reverse
  | _ => none

end Token

end TreeBorrows.Settings
