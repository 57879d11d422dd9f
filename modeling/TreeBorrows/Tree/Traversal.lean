/-
# Going through a tree with two loops

`Arena.route` lists the visits of an access by recursion on the tree.  Here the access goes through
the tree by itself, with two loops and no bound on either.

* The inner loop (`drain`) takes places off a stack.  A foreign node is asked first whether it is
  to be passed over; if it is not, the access reaches the node, and the places of its children go
  onto the stack.
* The outer loop (`climb`) goes from a node to its parent, and drains at each of them the subtree
  but for the branch that it came from.

Nothing in the loops says that they end.  A traversal that never ends has no outcome (`Option`);
one that ends has succeeded, or has stopped at a fault or at a node that refused, and leaves the
list of what it has done on the way (`Stop`).  That it always ends on the trees there are, and that
it reaches the nodes of the route, is in `Proofs/Tree/Traversal.lean`.
-/
import TreeBorrows.Tree.Route

namespace TreeBorrows

/-- What a traversal does at a node. -/
inductive Stop where
  /-- The node is asked whether it and all below it are to be passed over. -/
  | asked (v : Visit)
  /-- The access reaches the node. -/
  | reached (v : Visit)
deriving DecidableEq

/-- A step of a traversal: it may stop early, it leaves the stops made so far in any case, and it
may never end. -/
abbrev Traversal (ε α : Type) := ExceptT (Fault ⊕ ε) (StateT (List Stop) Option) α

namespace Traversal

variable {ε α : Type}

/-- What a traversal ends with and the stops that it makes, `none` if it never ends. -/
def outcome (x : Traversal ε α) : Option (Except (Fault ⊕ ε) α × List Stop) :=
  (ExceptT.run x).run []

/-- One more stop. -/
def note (s : Stop) : Traversal ε Unit := modify (· ++ [s])

/-- Something that may be at fault. -/
def orFault (x : Except Fault α) : Traversal ε α := ExceptT.mk (pure (x.mapError .inl))

/-- Something that may be refused. -/
def orRefusal (x : Except ε α) : Traversal ε α := ExceptT.mk (pure (x.mapError .inr))

@[simp] theorem orFault_ok (b : α) : (orFault (.ok b) : Traversal ε α) = pure b := rfl

@[simp] theorem orRefusal_ok (b : α) : (orRefusal (.ok b) : Traversal ε α) = pure b := rfl

end Traversal

namespace Arena

open Traversal

variable {ε : Type} (skip : ByteState → Relatedness → Bool) (propagate : Visit → Except ε Unit)

/-- Whether the node is to be passed over with all below it.  Only foreign nodes are asked. -/
def asks (v : Visit) : Traversal ε Bool := do
  if v.position.isForeign then
    note (.asked v)
    return skip v.state v.position
  else return false

/-- The access reaches a node, which may refuse it. -/
def reaches (v : Visit) : Traversal ε Unit := do
  note (.reached v)
  orRefusal (propagate v)

/-- The places of the children of a node, put onto a stack one after the other.  The last one
lies on top. -/
def pushChildren (exclude : Option Nat) (v : Visit) (stack : List (Nat × Relatedness)) :
    List (Nat × Relatedness) :=
  (v.node.children.filter (some · ≠ exclude)).foldl
    (fun stack c => (c, v.position.below) :: stack) stack

/-- Goes on until the stack is empty. -/
def drain (a : Arena) (states : ByteStates) (skip : ByteState → Relatedness → Bool)
    (propagate : Visit → Except ε Unit) (exclude : Option Nat)
    (stack : List (Nat × Relatedness)) : Traversal ε Unit := do
  match stack with
  | [] => return
  | (i, rel) :: stack =>
    let (node, state) ← orFault (a.look states i)
    let v : Visit := ⟨i, node, state, rel⟩
    if ← asks skip v then a |>.drain states skip propagate exclude stack
    else
      reaches propagate v
      a |>.drain states skip propagate exclude (pushChildren exclude v stack)
partial_fixpoint

/-- Goes on until there is no parent to climb to.  The subtree that was climbed out of is left
out. -/
def climb (a : Arena) (states : ByteStates) (skip : ByteState → Relatedness → Bool)
    (propagate : Visit → Except ε Unit) (below current : Option Nat) (rel : Relatedness) :
    Traversal ε Unit := do
  match current with
  | none => return
  | some i =>
    a.drain states skip propagate below [(i, rel)]
    match a.get? i with
    | none => orFault (.error .missingNode)
    | some n => a |>.climb states skip propagate (some i) n.parent .strictChild
partial_fixpoint

/-- The traversal of an access through the node `start`. -/
def traverse (a : Arena) (states : ByteStates) (skip : ByteState → Relatedness → Bool)
    (propagate : Visit → Except ε Unit) (start : Nat) : Traversal ε Unit :=
  a.climb states skip propagate none (some start) .this

end Arena

end TreeBorrows
