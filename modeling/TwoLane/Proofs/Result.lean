import Mathlib.Data.List.Basic

/-! # Results that may be errors -/

namespace TwoLane.Result

variable {ε α β : Type}

/-- What follows a computation gives a result only where the computation does. -/
theorem of_bind_eq_ok {first : Except ε α} {further : α → Except ε β} {result : β}
    (h : (first >>= further) = .ok result) :
    ∃ value, first = .ok value ∧ further value = .ok result := by
  cases first with
  | error _ => cases h
  | ok value => exact ⟨value, rfl, h⟩

/-- A computation with what follows it fails where the one or the other does. -/
theorem of_bind_eq_error {first : Except ε α} {further : α → Except ε β} {error : ε}
    (h : (first >>= further) = .error error) :
    first = .error error ∨ ∃ value, first = .ok value ∧ further value = .error error := by
  cases first with
  | error _ => exact .inl (congrArg Except.error (Except.error.inj h))
  | ok value => exact .inr ⟨value, rfl, h⟩

theorem of_map_eq_error {first : Except ε α} {change : α → β} {error : ε} (h : first.map change = .error error) :
    first = .error error := by
  cases first with
  | error _ => exact congrArg Except.error (Except.error.inj h)
  | ok _ => cases h

theorem of_map_eq_ok {first : Except ε α} {change : α → β} {result : β}
    (h : first.map change = .ok result) : ∃ value, first = .ok value ∧ change value = result := by
  cases first with
  | error _ => cases h
  | ok value =>
      cases h
      exact ⟨value, rfl, rfl⟩

theorem of_toOption_eq_some {result : Except ε α} {value : α} (h : result.toOption = some value) :
    result = .ok value := by
  cases result with
  | error _ => cases h
  | ok _ =>
      cases h
      rfl

end TwoLane.Result
