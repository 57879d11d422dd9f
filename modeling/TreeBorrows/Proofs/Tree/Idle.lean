/-
# Accesses that find nothing to do

Every node may be able to take its step for an access and yet show the same afterwards as before,
at every byte of the range (`Tree.IdleFrom`).  How closely one looks is a parameter: at complete
states, or at the rights alone.  Such an access is not refused, and the tree answers the same about
every tag at every byte (`IdleFrom.map_stateOf`).

An access that has just succeeded is idle when it comes again, and so is a read in its place, over
the range or a part of it (`idleFrom_access_again`).  The step of each node has brought it to a
fixed point, and in all three parts of its state.

* The permission that an access leads to is left alone by the same access, and by a read from the
  same side (`Permission.afterAccess?_again`).
* A byte that counts as accessed goes on doing so.
* What a foreign access has recorded as absorbed is as strong as that access, so that neither it nor
  a read adds to it; and an access from below has left nothing (`Absorption.record_again`).
-/
import TreeBorrows.Proofs.Tree.Commuting

namespace TreeBorrows

variable {kind kind' : AccessKind} {rel rel' : Relatedness} {prot : Bool}

/-! ## 1. One node -/

/-- The permission that an access leads to is left alone by the same access, and by a read from the
same side. -/
theorem Permission.afterAccess?_again {p q : Permission}
    (h : p.afterAccess? kind rel prot = some q) (hrel : rel'.isForeign = rel.isForeign)
    (hkind : kind' = kind ∨ kind' = .read) : q.afterAccess? kind' rel' prot = some q := by
  unfold afterAccess? at h ⊢
  rw [hrel]
  revert h
  rcases hkind with rfl | rfl
  · cases kind' <;> cases rel.isForeign <;> cases prot <;> cases p <;> cases q <;> decide
  · cases kind <;> cases rel.isForeign <;> cases prot <;> cases p <;> cases q <;> decide

/-- What an access has recorded is not changed by the same access, nor by a read from the same
side. -/
theorem Absorption.record_again (a : Absorption) (hrel : rel'.isForeign = rel.isForeign)
    (hkind : kind' = kind ∨ kind' = .read) :
    (a.record (.ofAccess kind rel)).record (.ofAccess kind' rel') =
      a.record (.ofAccess kind rel) := by
  unfold ofAccess
  rw [hrel]
  rcases hkind with rfl | rfl
  · cases kind' <;> cases rel.isForeign <;> cases a <;> decide
  · cases kind <;> cases rel.isForeign <;> cases a <;> decide

namespace ByteState

variable {s s' u : ByteState} {tr : Transition}

/-- A node with the permission that an access has led to takes its step for the access again, and
keeps that permission. -/
theorem access_again (h : s.access kind rel prot = .ok (s', tr))
    (hrel : rel'.isForeign = rel.isForeign) (hkind : kind' = kind ∨ kind' = .read)
    (hu : u.permission = s'.permission) :
    u.access kind' rel' prot = .ok (⟨u.permission, u.accessed || !rel'.isForeign,
      u.absorbed.record (.ofAccess kind' rel')⟩, ⟨u.permission, u.permission⟩) := by
  obtain ⟨htr, -, rfl⟩ := access_eq_ok_iff.mp h
  obtain ⟨q, hq, rfl⟩ := Option.map_eq_some_iff.mp htr
  refine access_eq_ok_iff.mpr ⟨?_, fun hviol => ?_, rfl⟩
  · rw [Permission.transition?, hu, Permission.afterAccess?_again hq hrel hkind, Option.map_some]
  · have hidle : ∀ p : Permission, Transition.violatesProtector ⟨p, p⟩ = false := by
      intro p
      cases p <;> rfl
    rw [hidle] at hviol
    cases hviol.2

/-- **The state that an access has led to is a fixed point** of the same access, and of a read from
the same side. -/
theorem access_again_self (h : s.access kind rel prot = .ok (s', tr))
    (hrel : rel'.isForeign = rel.isForeign) (hkind : kind' = kind ∨ kind' = .read) :
    s'.access kind' rel' prot = .ok (s', ⟨s'.permission, s'.permission⟩) := by
  rw [access_again h hrel hkind rfl]
  obtain ⟨-, -, rfl⟩ := access_eq_ok_iff.mp h
  dsimp only
  rw [hrel, Bool.or_assoc, Bool.or_self, Absorption.record_again _ hrel hkind]

end ByteState

/-! ## 2. Idle accesses -/

/-- Every byte of the first range is one of the second, and where it is empty it lies inside or at
an end. -/
def ByteRange.Within (r s : ByteRange) : Prop := s.start ≤ r.start ∧ r.stop ≤ s.stop

instance (r s : ByteRange) : Decidable (r.Within s) :=
  inferInstanceAs (Decidable (s.start ≤ r.start ∧ r.stop ≤ s.stop))

theorem ByteRange.Within.mem {r s : ByteRange} (h : r.Within s) {o : Nat} (ho : o ∈ r) : o ∈ s :=
  ⟨Nat.le_trans h.1 ho.1, Nat.lt_of_lt_of_le ho.2 h.2⟩

namespace Tree

variable {β : Type} {t : Tree} {ctx : Context} {acc acc' : Access} {start : Nat} {f : ByteState → β}

/-- The access goes through the node `start` and stays inside of the tree; at every byte of its
range every node can take its step, and what `f` shows of the node is the same afterwards. -/
structure IdleFrom (t : Tree) (ctx : Context) (acc : Access) (start : Nat) (f : ByteState → β) :
    Prop where
  index?_eq : t.tags.index? acc.tag = some start
  stop_lt : acc.range.stop < Word.limit
  stop_le : acc.range.stop ≤ t.size
  step : ∀ {o states i n}, o ∈ acc.range → t.bytes.valueAt? o = some states →
    t.arena.get? i = some n → ∃ s tr,
      (n.stateIn states i).access acc.kind (t.arena.relatedness start i) (ctx.isProtected n.tag) =
        .ok (s, tr) ∧ f s = f (n.stateIn states i)

namespace IdleFrom

/-- An idle access passes its first pass. -/
theorem access_eq (h : t.IdleFrom ctx acc start f) (hs : t.Sound ctx.isProtected) :
    ∃ us messages, t.access ctx acc = (t.committed acc.range us).tidied.after messages := by
  obtain ⟨n, hn, ⟨v, messages, hv, -⟩ | ⟨us, messages, -, heq⟩⟩ :=
    access_cases_of_index? hs h.index?_eq h.stop_lt h.stop_le
  · have hgranted : ∃ us, t.pending ctx acc start n.label = .ok us := by
      refine (pending_eq_ok_iff hs (Arena.lt_width_of_get? hn) h.stop_le n.label).mpr ?_
      intro o states ho hval i m hm
      obtain ⟨s, tr, hstep, -⟩ := h.step ho hval hm
      exact ⟨_, hstep⟩
    obtain ⟨us, hus⟩ := hgranted
    cases hv.symm.trans hus
  · exact ⟨us, messages, heq⟩

/-- **An idle access is not refused.** -/
theorem ne_error (h : t.IdleFrom ctx acc start f) (hs : t.Sound ctx.isProtected) (e : Error) :
    (t.access ctx acc).result ≠ .error (.error e) := by
  obtain ⟨us, messages, heq⟩ := h.access_eq hs
  rw [heq]
  exact tidied_ne_error _ e

/-- It succeeds if the number of runs to join at is a word. -/
theorem result_eq (h : t.IdleFrom ctx acc start f) (hs : t.Sound ctx.isProtected)
    (hroom : t.runsAtLastMerge + t.mergeSlack < Word.limit) :
    (t.access ctx acc).result = .ok () := by
  rcases result_access hs acc with ⟨e, he⟩ | hres
  · exact absurd he (h.ne_error hs e)
  · rw [hres, if_pos hroom]

/-- **An idle access changes nothing that `f` shows**, of any tag at any byte. -/
theorem map_stateOf (h : t.IdleFrom ctx acc start f) (hs : t.Sound ctx.isProtected) (tag : Tag)
    (o : Nat) : ((t.access ctx acc).state.stateOf tag o).map f = (t.stateOf tag o).map f := by
  refine map_stateOf_congr f hs (sound_access hs acc) (sameNodes_access t ctx acc)
    (fun i n states states' hn hval hval' => ?_) tag
  have hsame : (t.access ctx acc).state.bytes.valueAt? o = t.bytes.valueAt? o →
      states' = states := fun heq => Option.some.inj (hval'.symm.trans (heq.trans hval))
  rcases valueAt?_access hs acc with ⟨⟨e, he⟩, -⟩ | ⟨-, first, hfirst, hmem, hnot⟩
  · exact absurd he (h.ne_error hs e)
  · obtain rfl := Option.some.inj (h.index?_eq.symm.trans hfirst)
    by_cases ho : o ∈ acc.range
    · obtain ⟨old, new, hold, hnew, hc⟩ := hmem o ho
      obtain rfl := Option.some.inj (hold.symm.trans hval)
      obtain rfl := Option.some.inj (hnew.symm.trans hval')
      obtain ⟨tr, hcarried⟩ := hc i n hn
      obtain ⟨s, tr', hstep, hshow⟩ := h.step ho hval hn
      obtain ⟨rfl, -⟩ := Prod.mk.inj (Except.ok.inj (hstep.symm.trans hcarried))
      exact hshow
    · rw [hsame (hnot o ho)]

end IdleFrom

/-! ## 3. The same access again -/

/-- **An access that has succeeded is idle when it comes again**, as is a read in its place, over
the range or a part of it. -/
theorem idleFrom_access_again (h : t.Sound ctx.isProtected)
    (hok : (t.access ctx acc).result = .ok ()) (htag : acc'.tag = acc.tag)
    (hr : acc'.range.Within acc.range) (hkind : acc'.kind = acc.kind ∨ acc'.kind = .read) :
    ∃ start, (t.access ctx acc).state.IdleFrom ctx acc' start id := by
  have hsame := sameNodes_access t ctx acc
  obtain ⟨start, hi, hlimit, hstop⟩ := exists_of_access_eq_ok hok
  refine ⟨start, ?_, ?_, ?_, ?_⟩
  · rw [hsame.tags_eq, htag, hi]
  · exact Nat.lt_of_le_of_lt hr.2 hlimit
  · rw [hsame.size_eq]
    exact Nat.le_trans hr.2 hstop
  · intro o states' i n ho hval' hn
    rcases valueAt?_access h acc with ⟨⟨e, he⟩, -⟩ | ⟨-, first, hfirst, hmem, -⟩
    · cases he.symm.trans hok
    · obtain rfl := Option.some.inj (hi.symm.trans hfirst)
      obtain ⟨states, new, -, hnew, hc⟩ := hmem o (hr.mem ho)
      obtain rfl := Option.some.inj (hnew.symm.trans hval')
      rw [hsame.arena_eq] at hn ⊢
      obtain ⟨tr, hcarried⟩ := hc i n hn
      exact ⟨_, _, ByteState.access_again_self hcarried rfl hkind, rfl⟩

end Tree

end TreeBorrows
