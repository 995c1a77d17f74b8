import Mathlib.Logic.Basic

/-!
# Calls that can fail

A sequence of calls goes on while they return, and ends with the first that fails.
-/

namespace Amplet.Failing

variable {ε α β : Type}

@[simp] theorem ok_bind (x : α) (f : α → Except ε β) : (.ok x >>= f) = f x := rfl

@[simp] theorem error_bind (failure : ε) (f : α → Except ε β) : (.error failure >>= f) = .error failure := rfl

theorem bind_eq_ok {x : Except ε α} {f : α → Except ε β} {y : β} : (x >>= f) = .ok y ↔ ∃ a, x = .ok a ∧ f a = .ok y := by
  cases x with
  | error failure => simp
  | ok a => simp

end Amplet.Failing
