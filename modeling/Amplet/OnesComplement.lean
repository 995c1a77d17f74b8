import Mathlib.Algebra.Order.BigOperators.Group.List
import Mathlib.Data.Nat.ModEq
import Mathlib.Tactic.SplitIfs

/-!
# One's complement sums

Words are numbers up to `m`, the word of all ones. Adding the carry back is the sum
modulo `m` with two words for zero: only a sum of zeros is the word zero.
-/

namespace Amplet.OnesComplement
open List

def add (m a b : ℕ) : ℕ := if a + b ≤ m then a + b else a + b - m

def sum (m : ℕ) (ws : List ℕ) : ℕ := ws.foldl (add m) 0

def rep (m n : ℕ) : ℕ := if n = 0 then 0 else (n - 1) % m + 1

section

variable {m n k w x : ℕ} {ws : List ℕ}

theorem rep_zero (m : ℕ) : rep m 0 = 0 := if_pos rfl

theorem rep_pos (hn : 0 < n) : 0 < rep m n := by
  rw [rep, if_neg hn.ne']
  exact Nat.succ_pos _

theorem rep_le (hm : 0 < m) (n : ℕ) : rep m n ≤ m := by
  rw [rep]
  split_ifs
  · exact Nat.zero_le m
  · exact Nat.mod_lt _ hm

theorem rep_modEq (m n : ℕ) : rep m n ≡ n [MOD m] := by
  rw [rep]
  split_ifs with hn
  · rw [hn]
  · have hstep : (n - 1) % m + 1 ≡ n - 1 + 1 [MOD m] := (Nat.mod_modEq _ _).add_right 1
    rwa [Nat.sub_add_cancel (Nat.pos_of_ne_zero hn)] at hstep

theorem rep_eq (hn : 0 < n) (hx : 0 < x) (hxm : x ≤ m) (h : x ≡ n [MOD m]) : rep m n = x := by
  have hless : x - 1 ≡ n - 1 [MOD m] := by
    refine Nat.ModEq.add_right_cancel' 1 ?_
    rwa [Nat.sub_add_cancel hx, Nat.sub_add_cancel hn]
  rw [rep, if_neg hn.ne', ← hless, Nat.mod_eq_of_lt (by omega), Nat.sub_add_cancel hx]

theorem rep_of_le (h : n ≤ m) : rep m n = n := by
  rcases Nat.eq_zero_or_pos n with rfl | hn
  · exact rep_zero m
  · exact rep_eq hn hn h rfl

theorem rep_congr (hn : 0 < n) (hk : 0 < k) (hm : 0 < m) (h : k ≡ n [MOD m]) : rep m n = rep m k :=
  rep_eq hn (rep_pos hk) (rep_le hm k) ((rep_modEq m k).trans h)

theorem add_rep (hm : 0 < m) (hw : w ≤ m) (n : ℕ) : add m (rep m n) w = rep m (n + w) := by
  have hle := rep_le hm n
  have hmod : rep m n + w ≡ n + w [MOD m] := (rep_modEq m n).add_right w
  rw [add]
  rcases Nat.eq_zero_or_pos n with rfl | hn
  · rw [rep_zero, Nat.zero_add, if_pos hw, rep_of_le hw]
  · have hpos := rep_pos (m := m) hn
    split_ifs with hcarry
    · exact (rep_eq (by omega) (by omega) hcarry hmod).symm
    · refine (rep_eq (by omega) (by omega) (by omega) ?_).symm
      refine Nat.ModEq.trans ?_ hmod
      refine Nat.ModEq.add_right_cancel' m ?_
      rw [Nat.sub_add_cancel (by omega)]
      exact (Nat.add_modEq_right).symm

theorem sum_eq_rep (hm : 0 < m) (h : ∀ w ∈ ws, w ≤ m) : sum m ws = rep m ws.sum := by
  have hfold : ∀ n, ws.foldl (add m) (rep m n) = rep m (n + ws.sum) := by
    induction ws with
    | nil => exact fun n => by rw [foldl_nil, sum_nil, Nat.add_zero]
    | cons w ws ih =>
      intro n
      rw [foldl_cons, add_rep hm (h w mem_cons_self), ih fun v hv => h v (mem_cons_of_mem w hv), sum_cons, Nat.add_assoc]
  have hzero := hfold 0
  rwa [rep_zero, Nat.zero_add] at hzero

theorem rep_add_complement (hm : 0 < m) (n : ℕ) : rep m (n + (m - rep m n)) = m := by
  have hle := rep_le hm n
  rcases Nat.eq_zero_or_pos n with rfl | hn
  · rw [rep_zero, Nat.zero_add, Nat.sub_zero, rep_of_le le_rfl]
  · refine rep_eq (by omega) hm le_rfl ?_
    have hsum : n + (m - rep m n) ≡ rep m n + (m - rep m n) [MOD m] :=
      (rep_modEq m n).symm.add_right _
    rw [Nat.add_sub_cancel' hle] at hsum
    exact hsum.symm

end

end Amplet.OnesComplement
