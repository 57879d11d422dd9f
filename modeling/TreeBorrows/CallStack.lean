/-
# The stack of calls

The calls that are active, innermost first, each with the pointers whose tags it protects.
Ending a call also ends every call inside it that has not ended yet.
-/
import TreeBorrows.Pointer

namespace TreeBorrows

/-- An active call. -/
structure Frame where
  call : CallId
  /-- The pointers whose tags the call protects, in the order in which it came to. -/
  pointers : List Pointer
deriving DecidableEq

/-- The active calls, innermost first. -/
structure CallStack where
  frames : List Frame
deriving DecidableEq

namespace CallStack

/-- No call is active. -/
def empty : CallStack := ⟨[]⟩

/-- How many calls are active. -/
def depth (s : CallStack) : Nat := s.frames.length

/-- The call that was started last among the active ones. -/
def innermost? (s : CallStack) : Option CallId := s.frames.head?.map Frame.call

/-- A call starts; it protects nothing yet. -/
def push (s : CallStack) (c : CallId) : CallStack := ⟨⟨c, []⟩ :: s.frames⟩

/-- The innermost call protects one more pointer's tag; `none` if no call is active. -/
def protect? (s : CallStack) (p : Pointer) : Option CallStack :=
  match s.frames with
  | [] => none
  | f :: fs => some ⟨{ f with pointers := f.pointers ++ [p] } :: fs⟩

/-- The innermost call protects one more pointer's tag, if a call is active. -/
def protect (s : CallStack) (p : Pointer) : CallStack := (s.protect? p).getD s

/-- The frames from the innermost one down to the innermost one of a call, and the stack below;
`none` if the call is not active. -/
def popThrough? (s : CallStack) (c : CallId) : Option (List Frame × CallStack) :=
  go s.frames
where
  go : List Frame → Option (List Frame × CallStack)
  | [] => none
  | f :: fs =>
    if f.call = c then some ([f], ⟨fs⟩)
    else (go fs).map fun (popped, rest) => (f :: popped, rest)

@[simp] theorem depth_push (s : CallStack) (c : CallId) : (s.push c).depth = s.depth + 1 := rfl

/-- Popped frames and the stack below are the whole stack. -/
theorem append_of_popThrough? {s rest : CallStack} {c : CallId} {popped : List Frame}
    (h : s.popThrough? c = some (popped, rest)) : s.frames = popped ++ rest.frames := by
  obtain ⟨frames⟩ := s
  unfold popThrough? at h
  induction frames generalizing popped with
  | nil => simp [popThrough?.go] at h
  | cons f fs ih =>
    unfold popThrough?.go at h
    split at h
    · obtain ⟨rfl, rfl⟩ := by simpa using h
      rfl
    · obtain ⟨⟨popped', rest'⟩, h', h''⟩ := Option.map_eq_some_iff.mp h
      obtain ⟨rfl, rfl⟩ := by simpa using h''
      simpa using ih h'

/-- A call can be ended exactly while it is active. -/
theorem popThrough?_eq_none_iff {s : CallStack} {c : CallId} :
    s.popThrough? c = none ↔ ∀ f ∈ s.frames, f.call ≠ c := by
  obtain ⟨frames⟩ := s
  unfold popThrough?
  induction frames with
  | nil => simp [popThrough?.go]
  | cons f fs ih =>
    unfold popThrough?.go
    split
    · simp_all
    · simp_all

end CallStack

end TreeBorrows
