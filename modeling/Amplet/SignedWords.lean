import Mathlib.Tactic

/-!
# Signed words

The value of a signed word of the machine that a number is stored in.
-/

namespace Amplet.SignedWords

def int32 (x : ℤ) : ℤ := (x + 2 ^ 31) % 2 ^ 32 - 2 ^ 31

def int64 (x : ℤ) : ℤ := (x + 2 ^ 63) % 2 ^ 64 - 2 ^ 63

section

variable {x : ℤ}

theorem int32_of_range (h : -2 ^ 31 ≤ x ∧ x < 2 ^ 31) : int32 x = x := by
  simp only [int32]
  omega

theorem int32_range (x : ℤ) : -2 ^ 31 ≤ int32 x ∧ int32 x < 2 ^ 31 := by
  simp only [int32]
  omega

theorem int32_eq_iff {y : ℤ} : int32 x = int32 y ↔ x % 2 ^ 32 = y % 2 ^ 32 := by
  simp only [int32]
  omega

theorem int32_int32_sub (y : ℤ) : int32 (int32 x - y) = int32 (x - y) := by
  simp only [int32]
  omega

theorem int64_of_range (h : -2 ^ 63 ≤ x ∧ x < 2 ^ 63) : int64 x = x := by
  simp only [int64]
  omega

end

end Amplet.SignedWords
