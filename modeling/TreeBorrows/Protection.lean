/-
# Protectors

A tag can be protected for the time of a call.  While it is, it must not lose the rights it
holds; a strong protector also keeps its allocation from being freed.
-/

namespace TreeBorrows

/-- How strongly a tag is protected. -/
inductive Protection where
  /-- The tag asked for no protection. -/
  | none
  /-- The tag's rights are protected; its allocation may still be freed. -/
  | weak
  /-- The tag's rights are protected, and its allocation may not be freed. -/
  | strong
deriving DecidableEq

namespace Protection

/-- The tag is to be protected at all. -/
def protects : Protection → Bool
  | none => false
  | weak | strong => true

/-- The name used in messages. -/
def name : Protection → String
  | none => "NoProtector"
  | weak => "WeakProtector"
  | strong => "StrongProtector"

end Protection

end TreeBorrows
