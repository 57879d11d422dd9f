/-
# Events and runs

What a program can do to a checker, as data.  A run is a list of events carried out one after
the other; an event that fails leaves a state like any other, and the run goes on from there.
-/
import TreeBorrows.Checker.Allocation
import TreeBorrows.Checker.Call
import TreeBorrows.Checker.Pointer

namespace TreeBorrows

/-- Something a program does. -/
inductive Event where
  /-- Makes an allocation. -/
  | allocate (size : Nat)
  /-- Drops an allocation, whoever may free it. -/
  | drop (alloc : AllocationId)
  /-- Frees an allocation through a pointer. -/
  | free (pointer : Pointer)
  /-- Derives a pointer that asks for no protector. -/
  | derive (pointer : Pointer) (range : ByteRange) (derivation : Derivation) (cell : Bool)
  /-- Derives a pointer. -/
  | retag (pointer : Pointer) (range : ByteRange) (derivation : Derivation) (cell : Bool)
      (protector : Protection)
  /-- Reads or writes. -/
  | access (pointer : Pointer) (range : ByteRange) (kind : AccessKind)
  /-- Draws a number for a call. -/
  | drawCall
  /-- Starts a call. -/
  | enter (call : CallId) (pointers : List Pointer)
  /-- Ends a call. -/
  | exit (call : CallId)
  /-- Starts a call with a number of its own. -/
  | openCall (pointers : List Pointer)
  /-- Names a tag. -/
  | name (pointer : Pointer) (name : String)
  /-- Asks for the permission of a tag. -/
  | permissionAt (pointer : Pointer) (offset : Nat)
deriving DecidableEq

/-- What an event answers. -/
inductive Answer where
  /-- It was done. -/
  | done
  /-- The first pointer of a new allocation. -/
  | pointer (p : Pointer)
  /-- The tag of a derived pointer, `none` where it kept its tag. -/
  | tag (t : Option Tag)
  /-- The number of a call. -/
  | call (c : CallId)
  /-- A permission. -/
  | permission (p : Permission)
deriving DecidableEq

namespace Checker

/-- Carries out an event. -/
def perform (k : Checker) : Event → Outcome Checker Answer
  | .allocate size => (k.allocate size).mapAnswer .pointer
  | .drop a => (k.drop a).mapAnswer fun _ => .done
  | .free p => (k.free p).mapAnswer fun _ => .done
  | .derive p r d cell => (k.derive p r d cell).mapAnswer .tag
  | .retag p r d cell kind => (k.retag p r d cell kind).mapAnswer .tag
  | .access p r kind => (k.access p r kind).mapAnswer fun _ => .done
  | .drawCall => let (k, c) := k.freshCall; .ok k (.call c)
  | .enter c ps => (k.enter c ps).mapAnswer fun _ => .done
  | .exit c => (k.exit c).mapAnswer fun _ => .done
  | .openCall ps => (k.openCall ps).mapAnswer .call
  | .name p s => (k.name p s).mapAnswer fun _ => .done
  | .permissionAt p o => ⟨k, [], (k.permissionAt p o).map .permission⟩

/-- The outcomes of the events of a run, in order. -/
def outcomes (k : Checker) : List Event → List (Outcome Checker Answer)
  | [] => []
  | e :: es => k.perform e :: outcomes (k.perform e).state es

/-- The state after a run. -/
def run (k : Checker) (es : List Event) : Checker :=
  es.foldl (fun k e => (k.perform e).state) k

@[simp] theorem run_nil (k : Checker) : k.run [] = k := rfl

@[simp] theorem run_cons (k : Checker) (e : Event) (es : List Event) :
    k.run (e :: es) = (k.perform e).state.run es := rfl

theorem run_append (k : Checker) (es fs : List Event) : k.run (es ++ fs) = (k.run es).run fs :=
  List.foldl_append

end Checker

end TreeBorrows
