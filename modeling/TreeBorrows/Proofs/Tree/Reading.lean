/-
# What reads leave to a tag that waits for its first write

A mutable borrow is reserved until it is first written through.  Meanwhile the pointer that it was
taken from may still be read, and so may everything else that was derived from that pointer.  At a
byte where the borrow is reserved and not protected, such a read leaves all that a write through the
borrow depends on (`Arena.Spares`):

* the borrow stays reserved, for no read takes that from a tag that is not protected;
* the nodes above it keep their permissions, for these reads are child accesses to all of them;
* the other nodes stay alive if they were, and dead if they were, and a protector asks no more of
  them when the borrow is written through.
-/
import TreeBorrows.Proofs.Tree.Commuting

namespace TreeBorrows

/-! ## 1. One node -/

namespace ByteState

variable {rel : Relatedness} {prot : Bool} {s s' : ByteState} {tr : Transition}

/-- A read through a tag or below it leaves the permission as it is. -/
theorem permission_of_child_read (hrel : rel.isForeign = false)
    (h : s.access .read rel prot = .ok (s', tr)) : s'.permission = s.permission := by
  obtain ⟨htr, -, rfl⟩ := access_eq_ok_iff.mp h
  obtain ⟨q, hq, rfl⟩ := Option.map_eq_some_iff.mp htr
  simp only [Permission.afterAccess?, hrel] at hq
  cases hs : s.permission <;> simp_all [Permission.afterChildRead?]

/-- A tag that is reserved and not protected stays reserved, wherever it is read. -/
theorem permission_of_read_of_isReserved (hs : s.permission.isReserved = true)
    (h : s.access .read rel false = .ok (s', tr)) : s'.permission = s.permission := by
  obtain ⟨htr, -, rfl⟩ := access_eq_ok_iff.mp h
  obtain ⟨q, hq, rfl⟩ := Option.map_eq_some_iff.mp htr
  clear htr h
  obtain ⟨p, accessed, absorbed⟩ := s
  dsimp only at hs hq ⊢
  revert hs hq
  cases rel <;> cases p <;> cases q <;> decide

end ByteState

/-! ## 2. One byte -/

namespace Arena

variable {a : Arena} {states states' states'' : ByteStates} {prot : Tag → Bool} {start : Nat}

/-- From the first states to the second ones, no node dies, none comes to life again, and the nodes
at or above `start` keep their permissions. -/
def Spares (a : Arena) (start : Nat) (states states' : ByteStates) : Prop :=
  ∀ i n, a.get? i = some n →
    ((n.stateIn states' i).permission = .disabled ↔
        (n.stateIn states i).permission = .disabled) ∧
      (i ∈ a.lineage start → (n.stateIn states' i).permission = (n.stateIn states i).permission)

namespace Spares

theorem refl (a : Arena) (start : Nat) (states : ByteStates) : a.Spares start states states :=
  fun _ _ _ => ⟨Iff.rfl, fun _ => rfl⟩

theorem trans (h : a.Spares start states states') (h' : a.Spares start states' states'') :
    a.Spares start states states'' := by
  intro i n hn
  obtain ⟨hdead, hsame⟩ := h i n hn
  obtain ⟨hdead', hsame'⟩ := h' i n hn
  exact ⟨hdead'.trans hdead, fun hi => (hsame' hi).trans (hsame hi)⟩

/-- **Whether a write through the node is accepted** depends on nothing else. -/
theorem granted_write_iff (h : a.Spares start states states') :
    a.Granted prot .write start states' ↔ a.Granted prot .write start states := by
  refine forall₃_congr fun i n hn => ?_
  obtain ⟨hdead, hsame⟩ := h i n hn
  rw [ByteState.exists_access_eq_ok_iff, ByteState.exists_access_eq_ok_iff,
    Permission.accepts_write_iff, Permission.accepts_write_iff, isForeign_relatedness]
  by_cases hi : i ∈ a.lineage start
  · simp [hi, hsame hi]
  · simp [hi, hdead]

end Spares

/-- **A read from nearby spares a reserved node**: one that comes through the node's parent or
anything below the parent. -/
theorem spares_of_read {p first : Nat} {n : Node} (hw : a.WellLinked)
    (hc : a.CarriedOut prot .read first states states') (hp : a.IsParent p start)
    (hfirst : first < a.width) (hnear : p ∈ a.lineage first) (hn : a.get? start = some n)
    (hfree : prot n.tag = false) (hres : (n.stateIn states start).permission.isReserved = true) :
    a.Spares start states states' := by
  intro i m hm
  obtain ⟨tr, hstep⟩ := hc i m hm
  refine ⟨(ByteState.permission_of_read hstep).1, fun hi => ?_⟩
  rcases (mem_lineage_of_isParent hw hp).mp hi with rfl | hi
  · obtain rfl := Option.some.inj (hn.symm.trans hm)
    rw [hfree] at hstep
    exact ByteState.permission_of_read_of_isReserved hres hstep
  · refine ByteState.permission_of_child_read ?_ hstep
    simpa [isForeign_relatedness] using mem_lineage_trans hw hfirst hi hnear

end Arena

/-! ## 3. A range -/

namespace Tree

variable {t t' t'' : Tree} {ctx : Context} {acc : Access} {w : ByteRange} {start : Nat}

/-- The trees have the same nodes and bytes, and at every byte of a range the second one spares the
node of the first one. -/
structure Spares (t t' : Tree) (w : ByteRange) (start : Nat) : Prop extends SameNodes t t' where
  spares : ∀ {o states states'}, o ∈ w → t.bytes.valueAt? o = some states →
    t'.bytes.valueAt? o = some states' → t.arena.Spares start states states'

namespace Spares

theorem refl (t : Tree) (w : ByteRange) (start : Nat) : t.Spares t w start where
  toSameNodes := .refl t
  spares {o states states'} _ hval hval' := by
    obtain rfl := Option.some.inj (hval.symm.trans hval')
    exact .refl _ _ _

/-- One more read from nearby. -/
theorem access_read {p : Nat} {n : Node} (h : t.Spares t' w start) (hs : t'.Sound ctx.isProtected)
    (hp : t.arena.IsParent p start) (hn : t.arena.get? start = some n)
    (hfree : ctx.isProtected n.tag = false)
    (hres : ∀ o ∈ w, ∀ states, t.bytes.valueAt? o = some states →
      (n.stateIn states start).permission.isReserved = true)
    (hread : acc.kind = .read)
    (hnear : ∀ first, t.tags.index? acc.tag = some first → p ∈ t.arena.lineage first) :
    t.Spares (t'.access ctx acc).state w start where
  toSameNodes := h.toSameNodes.trans (sameNodes_access t' ctx acc)
  spares {o states states''} ho hval hval'' := by
    obtain ⟨states', hval'⟩ := h.exists_valueAt?_iff.mpr ⟨states, hval⟩
    have hspares := h.spares ho hval hval'
    rcases valueAt?_access hs acc with ⟨-, hall⟩ | ⟨-, first, hfirst, hmem, hnot⟩
    · rw [hall, hval'] at hval''
      exact Option.some.inj hval'' ▸ hspares
    · by_cases hacc : o ∈ acc.range
      · obtain ⟨old, new, hold, hnew, hc⟩ := hmem o hacc
        obtain rfl := Option.some.inj (hold.symm.trans hval')
        obtain rfl := Option.some.inj (hnew.symm.trans hval'')
        have hwidth := hs.lt_width_of_index? hfirst
        rw [h.tags_eq] at hfirst
        rw [hread, h.arena_eq] at hc
        refine hspares.trans (Arena.spares_of_read (h.arena_eq ▸ hs.wellLinked) hc hp
          (h.arena_eq ▸ hwidth) (hnear first hfirst) hn hfree ?_)
        rw [(hspares start n hn).2 (Arena.mem_lineage_self _ _)]
        exact hres o ho states hval
      · rw [hnot o hacc, hval'] at hval''
        exact Option.some.inj hval'' ▸ hspares

end Spares

end Tree

end TreeBorrows
