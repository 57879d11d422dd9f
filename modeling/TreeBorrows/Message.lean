/-
# Messages

What the checker reports on the way, besides its answers.  Messages are kept as data, in the
order in which they arise; who listens decides by `severity` which ones to show.
-/
import TreeBorrows.Derivation
import TreeBorrows.Error
import TreeBorrows.Protection

namespace TreeBorrows

/-- How much a message matters. -/
inductive Severity where
  | trace
  | debug
  | info
  | warn
  | error
deriving DecidableEq

namespace Severity

/-- The position in the order of rising importance. -/
def rank : Severity → Nat
  | trace => 0
  | debug => 1
  | info => 2
  | warn => 3
  | error => 4

/-- The name written in front of a message. -/
def name : Severity → String
  | trace => "TRACE"
  | debug => "DEBUG"
  | info => "INFO"
  | warn => "WARN"
  | error => "ERROR"

end Severity

/-- Something that happened on the way. -/
inductive Message where
  /-- An allocation was made. -/
  | allocated (alloc : AllocationId) (size : Nat) (root : Tag)
  /-- A tracked tag is the root of a new allocation. -/
  | rootCreated (tag : Tag) (alloc : AllocationId)
  /-- An allocation is gone. -/
  | dropped (alloc : AllocationId)
  /-- An access is about to be tried. -/
  | accessed (cause : Cause) (tag : Tag) (alloc : AllocationId) (range : ByteRange)
  /-- The permission of a tracked tag changed on a range. -/
  | transitioned (tag : Tag) (transition : Transition) (cause : Cause) (isForeign : Bool)
      (range : ByteRange)
  /-- A derived pointer shares the tag it comes from. -/
  | tagKept (derivation : Derivation) (tag : Tag) (alloc : AllocationId)
  /-- A derived pointer got a tag of its own. -/
  | reborrowed (parent tag : Tag) (permission : Permission) (alloc : AllocationId)
      (range : ByteRange)
  /-- A tracked tag was created by deriving a pointer. -/
  | childCreated (tag parent : Tag) (permission : Permission) (range : ByteRange)
  /-- A protector was asked for where no call could hold it. -/
  | protectorIgnored (tag : Tag)
  /-- A new tag is protected by a call. -/
  | protectedIn (tag : Tag) (kind : Protection) (call : Option CallId)
  /-- A call starts. -/
  | entering (call : CallId) (tagCount : Nat)
  /-- A call wanted to protect a tag that it cannot protect. -/
  | cannotProtect (tag : Tag) (call : CallId) (error : Error)
  /-- A tracked tag is now protected by a call. -/
  | nowProtected (tag : Tag) (call : CallId)
  /-- A call that is not active was to end. -/
  | notActive (call : CallId)
  /-- A call ends together with one that encloses it. -/
  | unwinding (call through : CallId)
  /-- A tracked tag lost its protector. -/
  | unprotected (tag : Tag)
  /-- A call has ended. -/
  | exited (call : CallId)
deriving DecidableEq

namespace Message

/-- How much the message matters. -/
def severity : Message → Severity
  | accessed .. | tagKept .. | reborrowed .. => .trace
  | allocated .. | dropped .. | protectedIn .. | entering .. | unwinding .. | exited .. => .debug
  | rootCreated .. | transitioned .. | childCreated .. | nowProtected .. | unprotected .. => .info
  | protectorIgnored .. | cannotProtect .. | notActive .. => .warn

/-- An innermost call, or that there is none. -/
def callText : Option CallId → String
  | none => "None"
  | some c => s!"Some({c.text})"

/-- The wording of a message. -/
def text : Message → String
  | allocated a size t => s!"new allocation {a.text} of {size} bytes with root tag {t.text}"
  | rootCreated t a => s!"created tag {t.text} as the root of {a.text}"
  | dropped a => s!"dropped allocation {a.text}"
  | accessed c t a r => s!"{c.textAsAccess false} through {t.text} on {a.text} at {r.text}"
  | transitioned t s c isForeign r =>
    s!"the tag {t.text} transitioned {s.text} due to a {c.textAsAccess isForeign}, " ++
      s!"which is {s.meaning} at {r.text}"
  | tagKept d t a => s!"{d.name} keeps tag {t.text} on {a.text}"
  | reborrowed p t perm a r =>
    s!"reborrow {p.text} -> {t.text} ({perm.text}) on {a.text} at {r.text}"
  | childCreated t p perm r =>
    s!"created tag {t.text} as a child of {p.text} with permission {perm.text} at {r.text}"
  | protectorIgnored t =>
    s!"protected retag of {t.text} outside of any call, ignoring the protector"
  | protectedIn t kind c => s!"protected {t.text} ({kind.name}) in {callText c}"
  | entering c n => s!"entering {c.text} with {n} protected tags"
  | cannotProtect t c e => s!"cannot protect {t.text} in {c.text}: {e.message}"
  | nowProtected t c => s!"tag {t.text} is now protected by {c.text}"
  | notActive c => s!"exit from {c.text}, which is not an active call"
  | unwinding c outer => s!"unwinding {c.text} through {outer.text}"
  | unprotected t => s!"tag {t.text} is no longer protected"
  | exited c => s!"exited {c.text}"

/-- The message with the name of its severity in front. -/
def line (m : Message) : String := s!"{m.severity.name} {m.text}"

end Message

end TreeBorrows
