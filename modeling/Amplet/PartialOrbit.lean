import Mathlib.Data.Set.Finite.Basic
import Mathlib.Data.Fintype.EquivFin
import Mathlib.Tactic

/-!
# Following a partial function

From a point a partial function is applied as long as it has a value. If it has
values at finitely many points only, this comes to an end exactly when no point
is met twice.
-/

namespace Amplet.PartialOrbit
open Option

variable {α : Type*} {f : α → Option α} {a b : α} {i j : ℕ}

def orbit (f : α → Option α) (a : α) : ℕ → Option α
  | 0 => some a
  | n + 1 => (orbit f a n).bind f

def Ends (f : α → Option α) (a : α) : Prop := ∃ n, orbit f a n = none

def Returns (f : α → Option α) (a : α) : Prop :=
  ∃ i j b, i < j ∧ orbit f a i = some b ∧ orbit f a j = some b

theorem orbit_succ' (f : α → Option α) (a : α) (n : ℕ) : orbit f a (n + 1) = (f a).bind fun b => orbit f b n := by
  induction n with
  | zero =>
    rw [orbit, orbit, bind_some]
    cases f a with
    | none => rfl
    | some b => rfl
  | succ n ih =>
    rw [orbit, ih]
    cases f a with
    | none => rfl
    | some b => rfl

theorem orbit_none (h : orbit f a i = none) (hle : i ≤ j) : orbit f a j = none := by
  induction j, hle using Nat.le_induction with
  | base => exact h
  | succ j _ ih => rw [orbit, ih, bind_none]

theorem orbit_offset (h : orbit f a i = orbit f a j) (k : ℕ) : orbit f a (i + k) = orbit f a (j + k) := by
  induction k with
  | zero => exact h
  | succ k ih => rw [← Nat.add_assoc, ← Nat.add_assoc, orbit, orbit, ih]

theorem Returns.not_ends (h : Returns f a) : ¬ Ends f a := by
  obtain ⟨i, j, b, hij, hi, hj⟩ := h
  rintro ⟨n, hn⟩
  obtain ⟨k, rfl⟩ := Nat.exists_eq_add_of_lt hij
  -- the point is met again after every round
  have hround : ∀ m, orbit f a (i + m * (k + 1)) = some b := by
    intro m
    induction m with
    | zero => simpa using hi
    | succ m ih =>
      have hnext := orbit_offset (hi.trans hj.symm) (m * (k + 1))
      rw [ih] at hnext
      rw [show i + (m + 1) * (k + 1) = i + k + 1 + m * (k + 1) by ring]
      exact hnext.symm
  have hlate : n ≤ i + n * (k + 1) := (Nat.le_mul_of_pos_right n (Nat.succ_pos k)).trans (Nat.le_add_left _ _)
  cases (hround n).symm.trans (orbit_none hn hlate)

theorem ends_iff_not_returns (hfinite : {b | f b ≠ none}.Finite) (a : α) : Ends f a ↔ ¬ Returns f a := by
  refine ⟨fun hends hreturns => hreturns.not_ends hends, fun hreturns => ?_⟩
  by_contra hendless
  have hpoint : ∀ n, ∃ b, orbit f a n = some b := fun n =>
    ne_none_iff_exists'.mp fun hnone => hendless ⟨n, hnone⟩
  choose point hpoint using hpoint
  have hvalue : ∀ n, point n ∈ {b | f b ≠ none} := by
    intro n hnone
    refine hendless ⟨n + 1, ?_⟩
    rw [orbit, hpoint n, bind_some, hnone]
  have : Finite {b | f b ≠ none} := hfinite
  obtain ⟨i, j, hne, heq⟩ :=
    Finite.exists_ne_map_eq_of_infinite fun n => (⟨point n, hvalue n⟩ : {b | f b ≠ none})
  have hsame : point i = point j := Subtype.mk.inj heq
  rcases Nat.lt_or_gt_of_ne hne with hij | hji
  · exact hreturns ⟨i, j, point j, hij, hsame ▸ hpoint i, hpoint j⟩
  · exact hreturns ⟨j, i, point j, hji, hpoint j, hsame ▸ hpoint i⟩

end Amplet.PartialOrbit
