/-
# Where an access fails, and what it writes where it succeeds

The first pass looks at one element after the other, and how the runs are cut decides which bytes it
looks at.  What it finds does not depend on that: it fails at the first byte of its range at which
some node stands against it, with what the nodes ask for at that byte (`pending_eq_error_iff`), and
what it works out for a byte is what the nodes ask for at that byte
(`valueAt?_committed_of_mem`).  Both are stated with `Arena.requests`, in which no run occurs.
-/
import TreeBorrows.Proofs.Tree.AccessOutcome

namespace TreeBorrows

/-! ## 1. Elements in order -/

theorem Run.pairwise_elements {α : Type} (start : Nat) (rs : List (Run α)) :
    (elements start rs).Pairwise fun d e => d.stop ≤ e.start := by
  induction rs generalizing start with
  | nil => exact .nil
  | cons r rs ih =>
    refine .cons (fun e he => ?_) (ih (start + r.length))
    exact (valueAt?_of_mem_elements he).1

/-- What lies before an element of a range lies in one of the elements before it. -/
theorem RunMap.exists_mem_of_lt_start {α : Type} {m : RunMap α} {r : ByteRange}
    (hm : m.IsProper) (hr : r.stop ≤ m.size) {pre post : List (Element α)} {e : Element α}
    (h : m.inside r = pre ++ e :: post) {o : Nat} (ho : o ∈ r) (hlt : o < e.start) :
    ∃ d ∈ pre, d.start ≤ o ∧ o < d.stop := by
  obtain ⟨d, hd, hlo, hhi⟩ := exists_mem_inside hr ho
  have horder : (pre ++ e :: post).Pairwise fun d e => d.stop ≤ e.start :=
    h ▸ Run.pairwise_elements r.start _
  have he : e.start < e.stop := (mem_inside (e := e) hm hr (by simp [h])).1
  rw [h, List.mem_append, List.mem_cons] at hd
  rcases hd with hd | rfl | hd
  · exact ⟨d, hd, hlo, hhi⟩
  · omega
  · have := (List.pairwise_cons.mp (List.pairwise_append.mp horder).2.1).1 d hd
    omega

/-! ## 2. One byte -/

namespace Arena

variable {a : Arena} {ctx : Context} {acc : Access} {start o o' : Nat} {accessed : Label}
  {states : ByteStates} {us : List Update}

/-- What an access through the node `start` asks of the nodes at one byte, all of them visited. -/
def requests (a : Arena) (ctx : Context) (acc : Access) (start : Nat) (accessed : Label)
    (states : ByteStates) (o : Nat) : Except Failure (List Update) :=
  collect (Tree.planVisit ctx acc accessed o) (a.route states (fun _ _ => false) start)

/-- The offset matters to a failure only. -/
theorem requests_eq_ok_of_requests_eq_ok
    (h : a.requests ctx acc start accessed states o = .ok us) :
    a.requests ctx acc start accessed states o' = .ok us := by
  refine collect_eq_ok_of_imp (fun x _ u? hx => ?_) h
  cases x with
  | error f => nomatch hx
  | ok v => exact Tree.planVisit_eq_ok_iff.mpr (Tree.planVisit_eq_ok_iff.mp hx)

end Arena

/-! ## 3. A range -/

namespace Tree

variable {t : Tree} {ctx : Context} {acc : Access} {start : Nat} {accessed : Label}

/-- A byte at which the nodes ask for something lets them take their steps. -/
theorem granted_iff_exists_requests (h : t.Sound ctx.isProtected) (hstart : start < t.arena.width)
    (accessed : Label) (states : ByteStates) (o : Nat) :
    t.arena.Granted ctx.isProtected acc.kind start states ↔
      ∃ us, t.arena.requests ctx acc start accessed states o = .ok us :=
  Arena.granted_iff_exists_collect h.wellLinked h.noActiveDefault hstart

theorem exists_of_pending_eq_error (h : t.Sound ctx.isProtected) (hstart : start < t.arena.width)
    (hr : acc.range.stop ≤ t.size) {f : Failure}
    (hf : t.pending ctx acc start accessed = .error f) :
    ∃ o states, o ∈ acc.range ∧ t.bytes.valueAt? o = some states ∧
      t.arena.requests ctx acc start accessed states o = .error f ∧
      ∀ o' states', o' ∈ acc.range → o' < o → t.bytes.valueAt? o' = some states' →
        t.arena.Granted ctx.isProtected acc.kind start states' := by
  obtain ⟨pre, e, post, hes, hpre, he⟩ := mapM_eq_error_iff.mp hf
  have hmem : ∀ d ∈ pre ++ [e], d ∈ t.bytes.inside acc.range := by
    intro d hd
    simp only [List.mem_append, List.mem_singleton] at hd
    simpa [hes] using hd.imp_right .inl
  obtain ⟨hlt, hshow⟩ := RunMap.mem_inside h.isProper hr (hmem e (by simp))
  obtain ⟨ho, hval⟩ := hshow e.start (Nat.le_refl _) hlt
  rw [planElement_eq h hstart hval] at he
  refine ⟨e.start, e.value, ho, hval, he, ?_⟩
  intro o' states' ho' hbefore hval'
  obtain ⟨d, hd, hlo, hhi⟩ := RunMap.exists_mem_of_lt_start h.isProper hr hes ho' hbefore
  obtain ⟨-, hshow⟩ := RunMap.mem_inside h.isProper hr (hmem d (by simp [hd]))
  obtain rfl : d.value = states' := Option.some.inj ((hshow o' hlo hhi).2.symm.trans hval')
  obtain ⟨us, hus⟩ := hpre d hd
  rw [planElement_eq h hstart hval'] at hus
  exact (granted_iff_exists_requests h hstart accessed d.value d.start).mpr ⟨us, hus⟩

/-- **An access fails at the first byte at which some node stands against it**, whatever the
cuts. -/
theorem pending_eq_error_iff (h : t.Sound ctx.isProtected) (hstart : start < t.arena.width)
    (hr : acc.range.stop ≤ t.size) {f : Failure} :
    t.pending ctx acc start accessed = .error f ↔
      ∃ o states, o ∈ acc.range ∧ t.bytes.valueAt? o = some states ∧
        t.arena.requests ctx acc start accessed states o = .error f ∧
        ∀ o' states', o' ∈ acc.range → o' < o → t.bytes.valueAt? o' = some states' →
          t.arena.Granted ctx.isProtected acc.kind start states' := by
  refine ⟨exists_of_pending_eq_error h hstart hr, ?_⟩
  rintro ⟨o, states, ho, hval, hf, hfirst⟩
  -- a byte that fails does not let every node take its step
  have hno : ∀ {o states f}, t.arena.requests ctx acc start accessed states o = .error f →
      ¬t.arena.Granted ctx.isProtected acc.kind start states := by
    intro o states f hf hg
    obtain ⟨us, hus⟩ := (granted_iff_exists_requests h hstart accessed states o).mp hg
    rw [hf] at hus
    nomatch hus
  cases hp : t.pending ctx acc start accessed with
  | ok us =>
    have hall := (pending_eq_ok_iff h hstart hr accessed).mp ⟨us, hp⟩
    exact absurd (hall o states ho hval) (hno hf)
  | error f' =>
    obtain ⟨o', states', ho', hval', hf', hfirst'⟩ := exists_of_pending_eq_error h hstart hr hp
    rcases Nat.lt_trichotomy o o' with hlt | rfl | hlt
    · exact absurd (hfirst' o states ho hlt hval) (hno hf)
    · obtain rfl := Option.some.inj (hval.symm.trans hval')
      exact congrArg Except.error (Except.error.inj (hf'.symm.trans hf))
    · exact absurd (hfirst o' states' ho' hlt hval') (hno hf')

/-- **At a byte of its range, an access writes what the nodes ask for there**, whatever the cuts. -/
theorem valueAt?_committed_of_mem (h : t.Sound ctx.isProtected) (hstart : start < t.arena.width)
    (hr : acc.range.stop ≤ t.size) {us : List (List Update)}
    (hus : t.pending ctx acc start accessed = .ok us) {o : Nat} (ho : o ∈ acc.range) :
    ∃ states updates, t.bytes.valueAt? o = some states ∧
      t.arena.requests ctx acc start accessed states o = .ok updates ∧
      (t.committed acc.range us).bytes.valueAt? o = some (applyUpdates states updates) := by
  obtain ⟨e, updates, hu, hval, hval'⟩ :=
    RunMap.exists_valueAt?_change applyUpdates hr (mapM_eq_ok_iff.mp hus) ho
  rw [planElement_eq h hstart hval] at hu
  exact ⟨e.value, updates, hval, Arena.requests_eq_ok_of_requests_eq_ok hu, hval'⟩

end Tree

end TreeBorrows
