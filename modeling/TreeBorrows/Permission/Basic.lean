/-
# Permissions

What a tag may still do at a byte.  A permission starts as `reserved`, `reservedCell` or
`frozen` and only loses capability: the order `≤` runs from most to least capable, and the two
kinds of reserved permission are not comparable.
-/
import TreeBorrows.Absorption

namespace TreeBorrows

/-- The state of one tag at one byte. -/
inductive Permission where
  /-- A mutable borrow before its first write.  Foreign reads are tolerated, foreign writes
  disable it. -/
  | reserved
  /-- A mutable borrow of interior mutable data before its first write.  Foreign writes are
  tolerated too, unless it is protected. -/
  | reservedCell
  /-- A mutable borrow that has been written through: no foreign access leaves it as it is. -/
  | active
  /-- A shared borrow: reads only. -/
  | frozen
  /-- A dead borrow: no access through it is allowed. -/
  | disabled
deriving DecidableEq

/-- What a permission allows, whether or not the data is interior mutable. -/
inductive Capability where
  | reserved
  | active
  | frozen
  | disabled
deriving DecidableEq

/-- Whether writes are allowed now, after a first write, or never again. -/
inductive WriteRight where
  | now
  | future
  | never
deriving DecidableEq

/-! ## 1. Capabilities and their order -/

namespace Capability

/-- The position in the order of decreasing capability. -/
def rank : Capability → Nat
  | reserved => 0
  | active => 1
  | frozen => 2
  | disabled => 3

/-- Capabilities are totally ordered, the largest first. -/
def compare (a b : Capability) : Ordering :=
  Ord.compare a.rank b.rank

end Capability

namespace Permission

/-- The capability that a permission gives. -/
def capability : Permission → Capability
  | reserved | reservedCell => .reserved
  | active => .active
  | frozen => .frozen
  | disabled => .disabled

/-- The order by decreasing capability, `none` for the two kinds of reserved permission. -/
def compare? (a b : Permission) : Option Ordering :=
  if a = b then some .eq
  else match a.capability.compare b.capability with
    | .eq => none
    | o => some o

instance : LE Permission := ⟨fun a b => a = b ∨ a.capability.rank < b.capability.rank⟩
instance (a b : Permission) : Decidable (a ≤ b) :=
  inferInstanceAs (Decidable (a = b ∨ a.capability.rank < b.capability.rank))

theorem le_refl (a : Permission) : a ≤ a := Or.inl rfl

theorem le_trans {a b c : Permission} : a ≤ b → b ≤ c → a ≤ c := by
  cases a <;> cases b <;> cases c <;> decide

theorem le_antisymm {a b : Permission} : a ≤ b → b ≤ a → a = b := by
  cases a <;> cases b <;> decide

/-- The order is the comparison. -/
theorem le_iff_compare? {a b : Permission} :
    a ≤ b ↔ a.compare? b = some .lt ∨ a.compare? b = some .eq := by
  cases a <;> cases b <;> decide

/-! ## 2. Rights -/

/-- A permission that a new tag may start with. -/
def canStart : Permission → Bool
  | reserved | reservedCell | frozen => true
  | active | disabled => false

/-- The tag is dead at this byte. -/
def isDisabled (p : Permission) : Bool := p == disabled

/-- The tag has been written through and is still unique. -/
def isActive (p : Permission) : Bool := p == active

/-- The tag may only be read through. -/
def isFrozen (p : Permission) : Bool := p == frozen

/-- The tag still waits for its first write. -/
def isReserved (p : Permission) : Bool := p.capability == .reserved

/-- The permission of a new mutable borrow. -/
def ofExclusive (cell : Bool) : Permission :=
  if cell then reservedCell else reserved

/-- Reads through the tag are allowed. -/
def canRead (p : Permission) : Bool := !p.isDisabled

/-- When writes through the tag are allowed. -/
def writeRight : Permission → WriteRight
  | reserved | reservedCell => .future
  | active => .now
  | frozen | disabled => .never

/-- The strongest foreign access that leaves the permission as it is. -/
def absorption (protectedTag : Bool) : Permission → Absorption
  | reserved => if protectedTag then .nothing else .reads
  | reservedCell => if protectedTag then .nothing else .writes
  | active => .nothing
  | frozen => .reads
  | disabled => .writes

/-! ## 3. Texts -/

/-- The abbreviation used in drawings of a tree. -/
def abbreviation : Permission → String
  | reserved => "Res"
  | reservedCell => "ReIM"
  | active => "Act"
  | frozen => "Frz"
  | disabled => "Dis"

/-- The name used in reports. -/
def text : Permission → String
  | reserved => "Reserved"
  | reservedCell => "Reserved (interior mutable)"
  | active => "Active"
  | frozen => "Frozen"
  | disabled => "Disabled"

end Permission

end TreeBorrows
