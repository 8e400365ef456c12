/-!
What it takes for a chain of computations that may fail to succeed.
-/

namespace Almanac

variable {ε δ α β : Type}

theorem exists_of_bind_eq_ok {result : Except ε α} {next : α → Except ε β} {b : β}
    (h : result.bind next = .ok b) : ∃ a, result = .ok a ∧ next a = .ok b := by
  cases result with
  | error e => cases h
  | ok a => exact ⟨a, rfl, h⟩

theorem bind_eq_error_iff {result : Except ε α} {next : α → Except ε β} {e : ε} :
    result.bind next = .error e ↔
      result = .error e ∨ ∃ a, result = .ok a ∧ next a = .error e := by
  cases result <;> simp [Except.bind]

theorem exists_of_map_eq_ok {result : Except ε α} {f : α → β} {b : β}
    (h : result.map f = .ok b) : ∃ a, result = .ok a ∧ f a = b := by
  cases result with
  | error e => cases h
  | ok a =>
    cases h
    exact ⟨a, rfl, rfl⟩

theorem eq_ok_of_mapError_eq_ok {result : Except ε α} {f : ε → δ} {a : α}
    (h : result.mapError f = .ok a) : result = .ok a := by
  cases result with
  | error e => cases h
  | ok a =>
    cases h
    rfl

/-- Results can be compared where errors cannot. -/
theorem eq_ok_of_toOption_eq_some {result : Except ε α} {a : α} (h : result.toOption = some a) :
    result = .ok a := by
  cases result with
  | error e => cases h
  | ok a =>
    cases h
    rfl

end Almanac
