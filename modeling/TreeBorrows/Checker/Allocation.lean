/-
# Making and ending allocations

An allocation is made together with the pointer that owns all of it.  It ends in one of two
ways: `drop` asks nobody, as when the memory goes away by itself; `free` is done by the program
through a pointer, which needs the right to.  Numbers of allocations and tags are never given
out twice.
-/
import TreeBorrows.Checker.Basic

namespace TreeBorrows.Checker

/-- Makes an allocation, whose whole extent its first pointer owns. -/
def allocate (k : Checker) (size : Nat) : Outcome Checker Pointer :=
  let (k, alloc) := k.freshAlloc
  let (k, tag) := k.freshTag
  let allocation : Allocation := ⟨size, .new tag size k.settings⟩
  { state := { k with allocations := k.allocations.insert alloc allocation }
    log := .allocated alloc size tag ::
      (if k.settings.tracks tag then [.rootCreated tag alloc] else [])
    result := .ok ⟨alloc, tag⟩ }

/-- Drops an allocation without asking whether any pointer may free it. -/
def drop (k : Checker) (alloc : AllocationId) : Outcome Checker Unit :=
  if k.allocations.contains alloc then
    (Outcome.ok { k with allocations := k.allocations.erase alloc } ()).after [.dropped alloc]
  else .error k (.useAfterFree ⟨.dealloc, some (.deadAllocation alloc)⟩)

/-- Frees an allocation through a pointer. -/
def free (k : Checker) (p : Pointer) : Outcome Checker Unit :=
  (k.onTree p .dealloc fun ctx t => t.free ctx p.tag).andThen fun k () => k.drop p.alloc

end TreeBorrows.Checker
