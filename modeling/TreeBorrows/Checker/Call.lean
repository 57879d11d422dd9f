/-
# Calls and the tags they protect

A call protects the tags of the pointers that are handed to it, from `enter` to `exit`.  Before
a tag is protected, what it and the tags above it are known to absorb is forgotten, since a
protected tag reacts to accesses that it would have absorbed before.

The checker keeps one protector for a tag.  A second call that protects the tag replaces it, and
the first of the calls to end takes it away.
-/
import TreeBorrows.Checker.Basic

namespace TreeBorrows.Checker

/-- Prepares a pointer's tag for being protected. -/
def prepareProtection (k : Checker) (p : Pointer) : Except Error Checker :=
  k.editTree p .protect (·.resetAbsorption p.tag)

/-- A call strongly protects a pointer's tag, or says why it cannot. -/
def protect (k : Checker) (call : CallId) (p : Pointer) : Checker × List Message :=
  match k.prepareProtection p with
  | .error e => (k, [.cannotProtect p.tag call e])
  | .ok k =>
    let k := k.setProtector p.tag .strong
    ({ k with calls := k.calls.protect p },
      if k.settings.tracks p.tag then [.nowProtected p.tag call] else [])

/-- A call strongly protects the tags of some pointers, one after the other. -/
def protectAll (k : Checker) (call : CallId) : List Pointer → Checker × List Message
  | [] => (k, [])
  | p :: ps =>
    let (k, first) := k.protect call p
    let (k, rest) := protectAll k call ps
    (k, first ++ rest)

/-- A call starts, and strongly protects the tags of some pointers until it ends.  Pointers
that do not point into a live allocation are reported and passed over. -/
def enter (k : Checker) (call : CallId) (ps : List Pointer) : Outcome Checker Unit :=
  let (k, messages) := protectAll { k with calls := k.calls.push call } call ps
  (Outcome.ok k ()).after (.entering call ps.length :: messages)

/-- Takes the protector of a tag away. -/
def release (k : Checker) (p : Pointer) : Checker × List Message :=
  (k.clearProtector p.tag, if k.settings.tracks p.tag then [.unprotected p.tag] else [])

/-- Takes the protectors of tags away, one after the other. -/
def releaseAll (k : Checker) : List Pointer → Checker × List Message
  | [] => (k, [])
  | p :: ps =>
    let (k, first) := k.release p
    let (k, rest) := releaseAll k ps
    (k, first ++ rest)

/-- Ends frames that were popped on behalf of a call. -/
def endFrames (k : Checker) (call : CallId) : List Frame → Checker × List Message
  | [] => (k, [])
  | f :: fs =>
    let (k, first) := k.releaseAll f.pointers
    let (k, rest) := endFrames k call fs
    (k, (if f.call = call then [] else [.unwinding f.call call]) ++ first ++ rest)

/-- A call ends, and with it every call inside it that has not ended yet. -/
def exit (k : Checker) (call : CallId) : Outcome Checker Unit :=
  match k.calls.popThrough? call with
  | none => (Outcome.ok k ()).after [.notActive call]
  | some (frames, rest) =>
    let (k, messages) := endFrames { k with calls := rest } call frames
    (Outcome.ok k ()).after (messages ++ [.exited call])

/-- Starts a call with a number of its own.  Who opened it ends it with `exit`. -/
def openCall (k : Checker) (ps : List Pointer) : Outcome Checker CallId :=
  let (k, call) := k.freshCall
  (k.enter call ps).andThen fun k () => .ok k call

end TreeBorrows.Checker
