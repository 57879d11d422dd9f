/-
# Labels

What reports say about a tag: its number, the names it was given, and the permission it was
created with.  None of it changes how the tag behaves.
-/
import TreeBorrows.Permission.Basic
import TreeBorrows.Pointer

namespace TreeBorrows

/-- A tag with its names and its first permission. -/
structure Label where
  tag : Tag
  /-- The names given so far, joined by commas. -/
  name : Option String
  created : Permission
deriving DecidableEq

namespace Label

/-- The label of a new tag, which has no name yet. -/
def new (tag : Tag) (created : Permission) : Label := ⟨tag, none, created⟩

/-- One more name for the tag. -/
def named (l : Label) (name : String) : Label :=
  { l with name := some (match l.name with
      | none => name
      | some old => old ++ ", " ++ name) }

/-- The tag, and its names if it has any. -/
def text (l : Label) : String :=
  match l.name with
  | none => l.tag.text
  | some name => s!"{l.tag.text} ({name})"

@[simp] theorem tag_named (l : Label) (name : String) : (l.named name).tag = l.tag := rfl

end Label

end TreeBorrows
