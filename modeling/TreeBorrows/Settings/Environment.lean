/-
# Settings from the environment

Two variables can change the settings that a document gave: a list of further tags to report
on, separated by commas, and a switch that turns the skipping of foreign accesses off unless it
reads `0`.
-/
import TreeBorrows.Settings.Basic
import TreeBorrows.Text.Blank
import TreeBorrows.Text.Digit
import TreeBorrows.Word

namespace TreeBorrows

/-- The values of the two variables, `none` where one is not set. -/
structure Environment where
  tracked : Option String
  noForeignSkipping : Option String
deriving DecidableEq

namespace Environment

/-- The name of the variable that lists tags. -/
def trackedTagsName : String := "TBSAN_TRACKED_TAGS"

/-- The pieces between the commas; a text without commas is one piece. -/
def pieces : List Char → List (List Char)
  | [] => [[]]
  | c :: cs =>
    if c = ',' then [] :: pieces cs
    else match pieces cs with
      | [] => [[c]]
      | p :: ps => (c :: p) :: ps

/-- The number that a row of decimal digits denotes, read after the number `acc`; `none` if
there is another character. -/
def digits? (acc : Nat) : List Char → Option Nat
  | [] => some acc
  | c :: cs =>
    match Text.digit? 10 c with
    | some d => digits? (10 * acc + d) cs
    | none => none

/-- At least one decimal digit, with a plus sign before them or not, denoting a word. -/
def word? (cs : List Char) : Option Nat :=
  let ds := match cs with
    | '+' :: ds => ds
    | ds => ds
  if ds.isEmpty then none
  else match digits? 0 ds with
    | some n => if n < Word.limit then some n else none
    | none => none

/-- The numbers in a list; white space around them and empty pieces do not count. -/
def tags? (s : String) : Option (List Nat) :=
  (((pieces s.toList).map Text.trim).filter (!·.isEmpty)).mapM word?

/-- Whether the switch leaves skipping on. -/
def keepsSkipping (s : String) : Bool := Text.trim s.toList == ['0']

end Environment

/-- The tags that the first variable adds, or its value if that is no list of tags. -/
def Environment.furtherTags (env : Environment) : Except String (List Nat) :=
  match env.tracked with
  | none => .ok []
  | some value =>
    match tags? value with
    | some tags => .ok tags
    | none => .error value

/-- Whether foreign accesses are skipped, which a document may have settled already. -/
def Environment.foreignSkipping (env : Environment) (settled : Bool) : Bool :=
  match env.noForeignSkipping with
  | none => settled
  | some value => keepsSkipping value

/-- The settings after the environment was heard, or the value that could not be read. -/
def Settings.withEnvironment (s : Settings) (env : Environment) : Except String Settings :=
  env.furtherTags.map fun tags =>
    { s with
      tracked := s.tracked ++ tags
      foreignSkipping := env.foreignSkipping s.foreignSkipping }

end TreeBorrows
