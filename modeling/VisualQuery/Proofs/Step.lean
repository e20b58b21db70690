import VisualQuery.Graph.Step

/-!
# What steps leave behind

A step ends in some state whether it is refused or not.  After an atomic edit
that state is the result of the edit or the state before it.
-/

namespace VisualQuery
namespace Step

variable {σ α β : Type}

/-- The state after a step, refused or not. -/
def after (step : Step σ α) (state : σ) : σ :=
  (perform step state).2

/-! ## Outcomes -/

@[simp] theorem perform_state (state : σ) :
    perform Step.state state = (.ok state, state) := rfl

@[simp] theorem perform_inspect
    (look : σ → Except QueryError α)
    (state : σ) :
    perform (inspect look) state = (look state, state) := by
  cases seen : look state with
  | ok answer => exact perform_atomic_ok (by simp only [seen]; rfl)
  | error error => exact perform_atomic_error (by simp only [seen]; rfl)

theorem perform_atomicUnit_ok
    {edit : σ → Except QueryError σ}
    {state reached : σ}
    (accepted : edit state = .ok reached) :
    perform (atomicUnit edit) state = (.ok (), reached) :=
  perform_atomic_ok (by simp only [accepted]; rfl)

theorem perform_atomicUnit_error
    {edit : σ → Except QueryError σ}
    {state : σ}
    {error : QueryError}
    (refused : edit state = .error error) :
    perform (atomicUnit edit) state = (.error error, state) :=
  perform_atomic_error (by simp only [refused]; rfl)

theorem perform_bind_ok
    {step : Step σ α}
    {next : α → Step σ β}
    {state reached : σ}
    {answer : α}
    (performed : perform step state = (.ok answer, reached)) :
    perform (step >>= next) state = perform (next answer) reached := by
  rw [perform_bind, performed]

theorem perform_bind_error
    {step : Step σ α}
    {next : α → Step σ β}
    {state reached : σ}
    {error : QueryError}
    (refused : perform step state = (.error error, reached)) :
    perform (step >>= next) state = (.error error, reached) := by
  rw [perform_bind, refused]

/-- Both parts of an accepted step were accepted. -/
theorem perform_bind_eq_ok
    {step : Step σ α}
    {next : α → Step σ β}
    {state last : σ}
    {result : β}
    (performed : perform (step >>= next) state = (.ok result, last)) :
    ∃ answer reached,
      perform step state = (.ok answer, reached) ∧
        perform (next answer) reached = (.ok result, last) := by
  rw [perform_bind] at performed
  rcases first : perform step state with ⟨answer | error, reached⟩ <;> rw [first] at performed
  · cases congrArg Prod.fst performed
  · exact ⟨_, reached, rfl, performed⟩

/-! ## States -/

/-- The second part of a step starts where the first one ended. -/
theorem after_bind
    (step : Step σ α)
    (next : α → Step σ β)
    (state : σ) :
    after (step >>= next) state =
      match (perform step state).1 with
      | .ok answer => after (next answer) (after step state)
      | .error _ => after step state := by
  simp only [after, perform_bind]
  rcases perform step state with ⟨outcome, reached⟩
  cases outcome <;> rfl

/-- An edit that checks everything first ends in its result, or where it
started. -/
theorem after_atomic
    (edit : σ → Except QueryError (α × σ))
    (state : σ) :
    after (atomic edit) state =
      match edit state with
      | .ok (_, reached) => reached
      | .error _ => state := by
  unfold after
  cases outcome : edit state with
  | ok result =>
      obtain ⟨answer, reached⟩ := result
      rw [perform_atomic_ok outcome]
  | error error => rw [perform_atomic_error outcome]

/-- After an atomic edit, either its result was taken or nothing changed. -/
theorem after_atomic_cases
    (edit : σ → Except QueryError (α × σ))
    (state : σ) :
    (∃ answer, edit state = .ok (answer, after (atomic edit) state)) ∨
      after (atomic edit) state = state := by
  rw [after_atomic]
  cases outcome : edit state with
  | ok result => exact Or.inl ⟨result.1, rfl⟩
  | error error => exact Or.inr rfl

/-- The same for an edit without an answer. -/
theorem after_atomicUnit_cases
    (edit : σ → Except QueryError σ)
    (state : σ) :
    edit state = .ok (after (atomicUnit edit) state) ∨
      after (atomicUnit edit) state = state := by
  rcases after_atomic_cases
      (fun state => (edit state).map fun reached => ((), reached)) state with
    ⟨answer, accepted⟩ | unchanged
  · refine Or.inl ?_
    cases outcome : edit state with
    | ok reached =>
        rw [outcome] at accepted
        injection accepted with same
        injection same with _ same
        rw [same]
        rfl
    | error error =>
        rw [outcome] at accepted
        cases accepted
  · exact Or.inr unchanged

/-- What follows an atomic edit starts from its result. -/
theorem after_atomic_bind
    (edit : σ → Except QueryError (α × σ))
    (next : α → Step σ β)
    (state : σ) :
    after (atomic edit >>= next) state =
      match edit state with
      | .ok (answer, reached) => after (next answer) reached
      | .error _ => state := by
  unfold after
  rw [perform_bind]
  cases outcome : edit state with
  | ok result =>
      obtain ⟨answer, reached⟩ := result
      rw [perform_atomic_ok outcome]
  | error error => rw [perform_atomic_error outcome]

/-- What holds before an atomic edit and of its result holds after it. -/
theorem atomic_property
    {edit : σ → Except QueryError (α × σ)}
    {property : σ → Prop}
    {state : σ}
    (holds : property state)
    (accepted : ∀ answer reached, edit state = .ok (answer, reached) → property reached) :
    property (after (atomic edit) state) := by
  rcases after_atomic_cases edit state with ⟨answer, taken⟩ | unchanged
  · exact accepted answer _ taken
  · rw [unchanged]
    exact holds

theorem atomicUnit_property
    {edit : σ → Except QueryError σ}
    {property : σ → Prop}
    {state : σ}
    (holds : property state)
    (accepted : ∀ reached, edit state = .ok reached → property reached) :
    property (after (atomicUnit edit) state) := by
  rcases after_atomicUnit_cases edit state with taken | unchanged
  · exact accepted _ taken
  · rw [unchanged]
    exact holds

end Step
end VisualQuery
