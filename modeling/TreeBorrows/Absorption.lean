/-
# What a subtree is known to absorb

Foreign accesses come in streaks, and a node that has reacted to one does not react to the same
one again.  Each node therefore keeps, byte by byte, the strongest foreign access that is known
to leave it and its whole subtree as they are.  A traversal may pass over such a subtree.

`nothing` is always a safe entry; a stronger one only makes more accesses skippable.
-/
import TreeBorrows.Access
import TreeBorrows.Fault

namespace TreeBorrows

/-- The strongest foreign access known to change nothing in a subtree. -/
inductive Absorption where
  /-- No foreign access is known to be absorbed. -/
  | nothing
  /-- Foreign reads are absorbed, foreign writes need not be. -/
  | reads
  /-- Foreign reads and foreign writes are absorbed. -/
  | writes
deriving DecidableEq

namespace Absorption

/-- The position in the order `nothing < reads < writes`. -/
def rank : Absorption → Nat
  | nothing => 0
  | reads => 1
  | writes => 2

instance : LE Absorption := ⟨fun a b => a.rank ≤ b.rank⟩
instance : LT Absorption := ⟨fun a b => a.rank < b.rank⟩
instance (a b : Absorption) : Decidable (a ≤ b) := inferInstanceAs (Decidable (a.rank ≤ b.rank))
instance (a b : Absorption) : Decidable (a < b) := inferInstanceAs (Decidable (a.rank < b.rank))

/-- What a foreign access of this kind asks a subtree to absorb. -/
def ofForeign : AccessKind → Absorption
  | .read => reads
  | .write => writes

/-- What an access asks a node to absorb; `nothing` stands for an access that is local. -/
def ofAccess (kind : AccessKind) (rel : Relatedness) : Absorption :=
  if rel.isForeign then ofForeign kind else nothing

/-- As a description of an access: it was local. -/
def isLocal (a : Absorption) : Bool := a == nothing

/-- As a description of an access: it was foreign. -/
def isForeign (a : Absorption) : Bool := !a.isLocal

/-- A foreign access of this kind is absorbed. -/
def absorbs (a : Absorption) (kind : AccessKind) : Bool :=
  decide (ofForeign kind ≤ a)

/-- The described access is absorbed.  Only foreign accesses can be asked about. -/
def canSkip (a next : Absorption) : Except Fault Bool :=
  if next.isLocal then .error .localAbsorbed else .ok (decide (next ≤ a))

/-- The entry after an access.  A local access ends the streak; a foreign one counts where it
is stronger than what was known. -/
def record (a happened : Absorption) : Absorption :=
  if happened.isLocal then nothing else if a ≤ happened then happened else a

/-- The entry, lowered to `limit` where it is stronger. -/
def weaken (limit a : Absorption) : Absorption :=
  if limit < a then limit else a

@[simp] theorem canSkip_ofForeign (a : Absorption) (kind : AccessKind) :
    a.canSkip (ofForeign kind) = .ok (a.absorbs kind) := by
  cases kind <;> rfl

@[simp] theorem record_nothing (a : Absorption) : a.record nothing = nothing := rfl

theorem le_iff {a b : Absorption} : a ≤ b ↔ a.rank ≤ b.rank := Iff.rfl

theorem weaken_le (limit a : Absorption) : weaken limit a ≤ limit := by
  cases limit <;> cases a <;> decide

theorem weaken_le_self (limit a : Absorption) : weaken limit a ≤ a := by
  cases limit <;> cases a <;> decide

end Absorption

end TreeBorrows
