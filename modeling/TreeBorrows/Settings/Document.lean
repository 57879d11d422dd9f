/-
# Settings documents

Settings are written as a document of entries `key = value`, one on a line, in any order and
each at most once: a list of tags, a truth value, and a number.  Keys other than the three
known ones are refused, and so are values of another type, tables, and negative numbers.
-/
import TreeBorrows.Settings.Environment
import TreeBorrows.Settings.Numeral
import TreeBorrows.Settings.Token
import TreeBorrows.Text.Escaped

namespace TreeBorrows

/-- Why there are no settings. -/
inductive SettingsError where
  /-- The document cannot be read, or is not text. -/
  | unreadable
  /-- The document is not one of settings. -/
  | malformed
  /-- The variable that lists tags holds something else. -/
  | environment (value : String)
deriving DecidableEq

/-- The text that reports an unusable variable. -/
def SettingsError.variableMessage (value : String) : String :=
  s!"Invalid value {Text.quoted value} for {Environment.trackedTagsName}"

namespace Settings

/-- The value of an entry. -/
inductive Value where
  | scalar (word : List Char)
  | list (words : List (List Char))
deriving DecidableEq

/-- A line `key = value`. -/
structure Entry where
  key : List Char
  value : Value
deriving DecidableEq

/-! ## 1. Entries -/

/-- What the reader of entries waits for. -/
inductive Expected where
  /-- A key, or an empty line. -/
  | key
  | equals (key : List Char)
  | value (key : List Char)
  /-- An item of a list, or its end. -/
  | item (key : List Char) (items : List (List Char))
  /-- A comma, or the end of the list. -/
  | separator (key : List Char) (items : List (List Char))
  | lineEnd
deriving DecidableEq

/-- The entries read so far, last first, and what is expected next.  Items are last first
too. -/
abbrev EntryReader := List Entry × Expected

/-- The reader after one more token; `none` if it cannot stand there. -/
def EntryReader.step (r : EntryReader) (t : Token) : Option EntryReader :=
  let (done, expected) := r
  match expected, t with
  | .key, .lineEnd => some (done, .key)
  | .key, .word k | .key, .quoted k => some (done, .equals k)
  | .equals k, .equals => some (done, .value k)
  | .value k, .word w => some (⟨k, .scalar w⟩ :: done, .lineEnd)
  | .value k, .opening => some (done, .item k [])
  | .item k items, .lineEnd => some (done, .item k items)
  | .item k items, .word w => some (done, .separator k (w :: items))
  | .separator k items, .lineEnd => some (done, .separator k items)
  | .separator k items, .comma => some (done, .item k items)
  | .item k items, .closing | .separator k items, .closing =>
    some (⟨k, .list items.reverse⟩ :: done, .lineEnd)
  | .lineEnd, .lineEnd => some (done, .key)
  | _, _ => none

/-- The entries of a document, in order. -/
def entries? (ts : List Token) : Option (List Entry) :=
  match ts.foldlM EntryReader.step (([], .key) : EntryReader) with
  | some (done, .key) | some (done, .lineEnd) => some done.reverse
  | _ => none

/-! ## 2. Settings -/

/-- The number that a word denotes, if it is not negative. -/
def natural? (word : List Char) : Option Nat :=
  match integer? word with
  | some n => if 0 ≤ n then some n.toNat else none
  | none => none

/-- The truth value that a word denotes. -/
def truth? (word : List Char) : Option Bool :=
  if word = "true".toList then some true
  else if word = "false".toList then some false
  else none

/-- The settings after one entry. -/
def assign (s : Settings) (e : Entry) : Option Settings :=
  match e.value with
  | .list words =>
    if e.key = "tracked_tags".toList then
      (words.mapM natural?).map fun tags => { s with tracked := tags }
    else none
  | .scalar word =>
    if e.key = "foreign_access_skipping".toList then
      (truth? word).map fun b => { s with foreignSkipping := b }
    else if e.key = "merge_threshold".toList then
      (natural? word).map fun n => { s with mergeSlack := n }
    else none

/-- The settings that entries describe; what they do not mention keeps its default. -/
def ofEntries? (es : List Entry) : Option Settings :=
  if (es.map Entry.key).Nodup then es.foldlM assign {} else none

/-- The settings that a document describes. -/
def ofText (s : String) : Except SettingsError Settings :=
  match Token.ofChars? s.toList with
  | none => .error .malformed
  | some ts =>
    match (entries? ts).bind ofEntries? with
    | none => .error .malformed
    | some settings => .ok settings

/-- The settings that the content of a file describes, `none` standing for a file that is not
there. -/
def ofFile (content? : Option ByteArray) : Except SettingsError Settings :=
  match content? with
  | none => .error .unreadable
  | some content =>
    match String.fromUTF8? content with
    | none => .error .unreadable
    | some s => ofText s

/-- Settings after the environment was heard. -/
def hear (env : Environment) (s : Settings) : Except SettingsError Settings :=
  (s.withEnvironment env).mapError .environment

end Settings

end TreeBorrows
