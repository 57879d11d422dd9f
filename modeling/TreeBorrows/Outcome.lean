/-
# Outcomes

What an operation leaves behind: the state, the messages it sent on the way, and its answer or
the failure that kept it from one.  A failed operation leaves a state too, which need not be
the state it started from in every internal detail.
-/
import TreeBorrows.Message

namespace TreeBorrows

/-- A state, the messages sent on the way there, and an answer or a failure. -/
structure Outcome (σ α : Type) where
  state : σ
  log : List Message
  result : Except Failure α

namespace Outcome

variable {σ τ α β : Type}

/-- An answer, without a message. -/
def ok (s : σ) (a : α) : Outcome σ α := ⟨s, [], .ok a⟩

/-- A failure, without a message. -/
def fail (s : σ) (f : Failure) : Outcome σ α := ⟨s, [], .error f⟩

/-- An error of the checked program. -/
def error (s : σ) (e : Error) : Outcome σ α := fail s (.error e)

/-- A fault. -/
def fault (s : σ) (f : Fault) : Outcome σ α := fail s (.fault f)

/-- A change of the state that happened or was refused. -/
def ofEdit (s : σ) : Except Error σ → Outcome σ Unit
  | .error e => error s e
  | .ok s => ok s ()

/-- Messages sent before the operation. -/
def after (ms : List Message) (o : Outcome σ α) : Outcome σ α := { o with log := ms ++ o.log }

/-- An operation on what another one left, unless that one failed. -/
def andThen (o : Outcome σ α) (next : σ → α → Outcome σ β) : Outcome σ β :=
  match o.result with
  | .error f => ⟨o.state, o.log, .error f⟩
  | .ok a => (next o.state a).after o.log

/-- Another view of the state. -/
def mapState (f : σ → τ) (o : Outcome σ α) : Outcome τ α := ⟨f o.state, o.log, o.result⟩

/-- Another view of the answer. -/
def mapAnswer (f : α → β) (o : Outcome σ α) : Outcome σ β := ⟨o.state, o.log, o.result.map f⟩

@[simp] theorem state_mapState (f : σ → τ) (o : Outcome σ α) :
    (o.mapState f).state = f o.state := rfl

@[simp] theorem state_after (ms : List Message) (o : Outcome σ α) :
    (o.after ms).state = o.state := rfl

@[simp] theorem result_after (ms : List Message) (o : Outcome σ α) :
    (o.after ms).result = o.result := rfl

@[simp] theorem log_after (ms : List Message) (o : Outcome σ α) :
    (o.after ms).log = ms ++ o.log := rfl

theorem andThen_of_ok {o : Outcome σ α} {a : α} (h : o.result = .ok a)
    (next : σ → α → Outcome σ β) : o.andThen next = (next o.state a).after o.log := by
  simp [andThen, h]

theorem andThen_of_error {o : Outcome σ α} {f : Failure} (h : o.result = .error f)
    (next : σ → α → Outcome σ β) : o.andThen next = ⟨o.state, o.log, .error f⟩ := by
  simp [andThen, h]

/-- What a second operation leaves, given what the first one left. -/
theorem state_andThen {o : Outcome σ α} {next : σ → α → Outcome σ β} {P : σ → Prop}
    (h : P o.state) (hnext : ∀ x, o.result = .ok x → P (next o.state x).state) :
    P (o.andThen next).state := by
  cases hres : o.result with
  | error f =>
    rw [andThen_of_error hres]
    exact h
  | ok x =>
    rw [andThen_of_ok hres]
    exact hnext x hres

theorem mapAnswer_eq_error {o : Outcome σ α} {g : α → β} {f : Failure}
    (h : (o.mapAnswer g).result = .error f) : o.result = .error f := by
  unfold mapAnswer at h
  cases hres : o.result with
  | error f' =>
    rw [hres] at h
    exact congrArg Except.error (Except.error.inj h)
  | ok x =>
    rw [hres] at h
    nomatch h

theorem exists_of_mapAnswer_eq_ok {o : Outcome σ α} {g : α → β} {b : β}
    (h : (o.mapAnswer g).result = .ok b) : ∃ a, o.result = .ok a ∧ g a = b := by
  unfold mapAnswer at h
  cases hres : o.result with
  | error f =>
    rw [hres] at h
    nomatch h
  | ok a =>
    rw [hres] at h
    exact ⟨a, rfl, Except.ok.inj h⟩

/-- Two operations fail with the first or with the second. -/
theorem andThen_eq_error {o : Outcome σ α} {next : σ → α → Outcome σ β} {f : Failure}
    (h : (o.andThen next).result = .error f) :
    (o.result = .error f ∧ (o.andThen next).state = o.state) ∨
      ∃ x, o.result = .ok x ∧ (next o.state x).result = .error f ∧
        (o.andThen next).state = (next o.state x).state := by
  cases hres : o.result with
  | error f' =>
    rw [andThen_of_error hres] at h ⊢
    exact .inl ⟨congrArg Except.error (Except.error.inj h), rfl⟩
  | ok x =>
    rw [andThen_of_ok hres] at h ⊢
    exact .inr ⟨x, rfl, h, rfl⟩

/-- A view of the state that commutes with two operations commutes with one after the other. -/
theorem mapState_andThen {g : σ → τ} {o : Outcome σ α} {next : σ → α → Outcome σ β}
    {next' : τ → α → Outcome τ β}
    (h : ∀ x, o.result = .ok x → next' (g o.state) x = (next o.state x).mapState g) :
    (o.mapState g).andThen next' = (o.andThen next).mapState g := by
  cases hres : o.result with
  | error f =>
    have hres' : (o.mapState g).result = .error f := hres
    rw [andThen_of_error hres, andThen_of_error hres']
    rfl
  | ok x =>
    have hres' : (o.mapState g).result = .ok x := hres
    have hx : next' (o.mapState g).state x = (next o.state x).mapState g := h x hres
    rw [andThen_of_ok hres, andThen_of_ok hres', hx]
    rfl

end Outcome

end TreeBorrows
