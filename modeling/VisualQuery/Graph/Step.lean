import VisualQuery.Graph.Error

/-!
# Steps that may be refused

A step works on a state and ends with an answer or a refusal.  What it did
before it was refused stays done.  An edit that checks everything first is an
atomic step: its refusal leaves the state alone.
-/

namespace VisualQuery

/-- A step over a state. -/
abbrev Step (σ α : Type) := ExceptT QueryError (StateM σ) α

namespace Step

variable {σ α : Type}

/-- Carry out a step: its outcome and the state after it. -/
def perform (step : Step σ α) (state : σ) : Except QueryError α × σ :=
  StateT.run (ExceptT.run step) state

/-- The step of an edit that has no effect when it is refused. -/
def atomic (edit : σ → Except QueryError (α × σ)) : Step σ α :=
  ExceptT.mk fun state =>
    match edit state with
    | .ok (answer, after) => (.ok answer, after)
    | .error error => (.error error, state)

/-- The step of an edit without an answer. -/
def atomicUnit (edit : σ → Except QueryError σ) : Step σ Unit :=
  atomic fun state => (edit state).map fun after => ((), after)

/-- The step that only looks at the state. -/
def inspect (look : σ → Except QueryError α) : Step σ α :=
  atomic fun state => (look state).map fun answer => (answer, state)

/-- Change the state. -/
def update (change : σ → σ) : Step σ Unit :=
  ExceptT.mk fun state => (.ok (), change state)

/-- The present state. -/
def state : Step σ σ := ExceptT.mk fun state => (.ok state, state)

/-- A step on a part of the state; what it did to the part stays done even if
it is refused. -/
def onPart {τ : Type} (part : τ → σ) (replace : σ → τ → τ) (step : Step σ α) : Step τ α :=
  ExceptT.mk fun whole =>
    let (outcome, after) := step.perform (part whole)
    (outcome, replace after whole)

@[simp] theorem perform_pure (answer : α) (state : σ) :
    perform (pure answer) state = (.ok answer, state) := rfl

@[simp] theorem perform_atomic_ok
    {edit : σ → Except QueryError (α × σ)}
    {state after : σ}
    {answer : α}
    (accepted : edit state = .ok (answer, after)) :
    perform (atomic edit) state = (.ok answer, after) := by
  simp [perform, atomic, ExceptT.run, ExceptT.mk, StateT.run, accepted]

@[simp] theorem perform_atomic_error
    {edit : σ → Except QueryError (α × σ)}
    {state : σ}
    {error : QueryError}
    (refused : edit state = .error error) :
    perform (atomic edit) state = (.error error, state) := by
  simp [perform, atomic, ExceptT.run, ExceptT.mk, StateT.run, refused]

@[simp] theorem perform_update
    (change : σ → σ)
    (state : σ) :
    perform (update change) state = (.ok (), change state) := rfl

@[simp] theorem perform_throw
    (error : QueryError)
    (state : σ) :
    perform (throw error : Step σ α) state = (.error error, state) := rfl

/-- A step followed by another one: the second starts where the first ended,
unless the first was refused. -/
theorem perform_bind
    {β : Type}
    (step : Step σ α)
    (next : α → Step σ β)
    (state : σ) :
    perform (step >>= next) state =
      match perform step state with
      | (.ok answer, after) => perform (next answer) after
      | (.error error, after) => (.error error, after) := by
  simp only [perform, ExceptT.run_bind, StateT.run_bind]
  rcases StateT.run (ExceptT.run step) state with ⟨outcome, after⟩
  cases outcome <;> rfl

end Step
end VisualQuery
