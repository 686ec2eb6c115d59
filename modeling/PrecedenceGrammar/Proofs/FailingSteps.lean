/-!
# Steps that may fail

What is known of a computation that may fail from its result: a step that is
followed by another one, whose result is changed, or whose error is renamed.
Proofs about longer computations are taken apart with these alone.
-/

namespace PrecedenceGrammar

section Steps

variable {ε δ α β : Type} {step : Except ε α}

theorem bind_eq_ok_iff
    {next : α → Except ε β} {result : β} :
    step >>= next = .ok result ↔ ∃ value, step = .ok value ∧ next value = .ok result := by
  cases step with
  | error error => simp [bind, Except.bind]
  | ok value => simp [bind, Except.bind]

theorem bind_eq_error_iff
    {next : α → Except ε β} {failure : ε} :
    step >>= next = .error failure ↔
      step = .error failure ∨ ∃ value, step = .ok value ∧ next value = .error failure := by
  cases step with
  | error error => simp [bind, Except.bind]
  | ok value => simp [bind, Except.bind]

theorem map_eq_ok_iff
    {change : α → β} {result : β} :
    step.map change = .ok result ↔ ∃ value, step = .ok value ∧ change value = result := by
  cases step <;> simp [Except.map]

theorem map_eq_error_iff
    {change : α → β} {failure : ε} :
    step.map change = .error failure ↔ step = .error failure := by
  cases step <;> simp [Except.map]

variable {rename : ε → δ}

theorem mapError_eq_ok_iff
    {value : α} :
    step.mapError rename = .ok value ↔ step = .ok value := by
  cases step with
  | error error => exact iff_of_false nofun nofun
  | ok found =>
      constructor
      · intro kept
        cases kept
        rfl
      · intro same
        cases same
        rfl

theorem mapError_eq_error_iff
    {failure : δ} :
    step.mapError rename = .error failure ↔
      ∃ error, step = .error error ∧ rename error = failure := by
  cases step with
  | error error =>
      constructor
      · intro renamed
        cases renamed
        exact ⟨error, rfl, rfl⟩
      · intro renamed
        obtain ⟨_, same, rfl⟩ := renamed
        cases same
        rfl
  | ok value =>
      apply iff_of_false
      · nofun
      · intro renamed
        obtain ⟨_, impossible, _⟩ := renamed
        cases impossible

theorem mapError_bind_eq_ok_iff
    {next : α → Except δ β} {result : β} :
    step.mapError rename >>= next = .ok result ↔
      ∃ value, step = .ok value ∧ next value = .ok result := by
  simp only [bind_eq_ok_iff, mapError_eq_ok_iff]

theorem mapError_bind_eq_error_iff
    {next : α → Except δ β} {failure : δ} :
    step.mapError rename >>= next = .error failure ↔
      (∃ error, step = .error error ∧ rename error = failure) ∨
        ∃ value, step = .ok value ∧ next value = .error failure := by
  simp only [bind_eq_error_iff, mapError_eq_error_iff, mapError_eq_ok_iff]

end Steps

end PrecedenceGrammar
