import Mathlib.Data.List.Basic
import Mathlib.Tactic

/-!
# The order of numbers by their digits

Numbers with the same number of digits compare as the first digits in which
they differ. Read from the other end, the last ones decide.
-/

namespace Amplet.DigitOrder
open List

def firstOrder : List ℕ → List ℕ → Ordering
  | x :: xs, y :: ys => (compare x y).then (firstOrder xs ys)
  | _, _ => .eq

def number (base : ℕ) (digits : List ℕ) : ℕ := digits.foldl (fun n d => n * base + d) 0

def digits (base : ℕ) : ℕ → ℕ → List ℕ
  | 0, _ => []
  | n + 1, v => digits base n (v / base) ++ [v % base]

variable {base : ℕ} {n v : ℕ}

theorem compare_digit {m x y : ℕ} (hx : x < base) (hy : y < base) :
    compare (m * base + x) (n * base + y) = (compare m n).then (compare x y) := by
  rcases lt_trichotomy m n with h | rfl | h
  · have hlt : m * base + x < n * base + y := by nlinarith
    rw [compare_lt_iff_lt.mpr hlt, compare_lt_iff_lt.mpr h]
    rfl
  · rw [compare_eq_iff_eq.mpr rfl]
    change _ = compare x y
    rcases lt_trichotomy x y with h | rfl | h
    · rw [compare_lt_iff_lt.mpr h, compare_lt_iff_lt.mpr (by omega)]
    · rw [compare_eq_iff_eq.mpr rfl, compare_eq_iff_eq.mpr rfl]
    · rw [compare_gt_iff_gt.mpr h, compare_gt_iff_gt.mpr (by omega)]
  · have hgt : n * base + y < m * base + x := by nlinarith
    rw [compare_gt_iff_gt.mpr hgt, compare_gt_iff_gt.mpr h]
    rfl

section

variable {xs ys : List ℕ} (hlen : xs.length = ys.length) (hxs : ∀ x ∈ xs, x < base)
  (hys : ∀ y ∈ ys, y < base)
include hlen hxs hys

theorem compare_foldl (m n : ℕ) : compare (xs.foldl (fun n d => n * base + d) m) (ys.foldl (fun n d => n * base + d) n) =
      (compare m n).then (firstOrder xs ys) := by
  induction xs generalizing ys m n with
  | nil =>
    rw [eq_nil_of_length_eq_zero hlen.symm]
    exact (Ordering.then_eq ..).symm
  | cons x xs ih =>
    cases ys with
    | nil => simp at hlen
    | cons y ys =>
      rw [foldl_cons, foldl_cons, ih (Nat.succ.inj hlen) (fun z hz => hxs z (mem_cons_of_mem _ hz))
        (fun z hz => hys z (mem_cons_of_mem _ hz)),
        compare_digit (hxs x (mem_cons_self ..)) (hys y (mem_cons_self ..)), firstOrder,
        Ordering.then_assoc]

theorem compare_number : compare (number base xs) (number base ys) = firstOrder xs ys :=
  compare_foldl hlen hxs hys 0 0

end

theorem number_concat (ds : List ℕ) (d : ℕ) : number base (ds ++ [d]) = number base ds * base + d := by
  rw [number, foldl_append]
  rfl

theorem number_lt {ds : List ℕ} (hds : ∀ d ∈ ds, d < base) : number base ds < base ^ ds.length := by
  induction ds using reverseRecOn with
  | nil => exact Nat.one_pos
  | append_singleton ds d ih =>
    have hd := hds d (by simp)
    have hlt := ih fun x hx => hds x (mem_append_left _ hx)
    rw [number_concat, length_append, length_singleton, pow_succ]
    nlinarith

theorem length_digits (n v : ℕ) : (digits base n v).length = n := by
  induction n generalizing v with
  | zero => rfl
  | succ n ih => rw [digits, length_append, ih, length_singleton]

theorem digits_lt (hbase : 0 < base) {d : ℕ} (hd : d ∈ digits base n v) : d < base := by
  induction n generalizing v with
  | zero => cases hd
  | succ n ih =>
    rcases mem_append.mp hd with hd | hd
    · exact ih hd
    · rw [mem_singleton.mp hd]
      exact Nat.mod_lt v hbase

theorem number_digits (hv : v < base ^ n) : number base (digits base n v) = v := by
  induction n generalizing v with
  | zero =>
    obtain rfl : v = 0 := by simpa using hv
    rfl
  | succ n ih =>
    have hdiv : v / base < base ^ n := by
      rw [pow_succ] at hv
      exact Nat.div_lt_of_lt_mul (by rwa [mul_comm])
    rw [digits, number_concat, ih hdiv]
    exact Nat.div_add_mod' v base

theorem digits_number {ds : List ℕ} (hds : ∀ d ∈ ds, d < base) : digits base ds.length (number base ds) = ds := by
  induction ds using reverseRecOn with
  | nil => rfl
  | append_singleton ds d ih =>
    have hd := hds d (by simp)
    have hpos : 0 < base := Nat.zero_lt_of_lt hd
    have hdiv : (number base ds * base + d) / base = number base ds := by
      rw [Nat.add_comm, Nat.add_mul_div_right _ _ hpos, Nat.div_eq_of_lt hd, Nat.zero_add]
    have hmod : (number base ds * base + d) % base = d := by
      rw [Nat.add_comm, Nat.add_mul_mod_self_right, Nat.mod_eq_of_lt hd]
    rw [length_append, length_singleton, digits, number_concat, hdiv, hmod, ih fun x hx => hds x (mem_append_left _ hx)]

theorem compare_digits (hbase : 0 < base) {w : ℕ} (hv : v < base ^ n) (hw : w < base ^ n) :
    compare v w = firstOrder (digits base n v) (digits base n w) := by
  rw [← compare_number ((length_digits n v).trans (length_digits n w).symm)
    (fun _ => digits_lt hbase) fun _ => digits_lt hbase, number_digits hv, number_digits hw]

theorem firstOrder_self (xs : List ℕ) : firstOrder xs xs = .eq := by
  induction xs with
  | nil => rfl
  | cons x xs ih =>
    rw [firstOrder, ih, compare_eq_iff_eq.mpr rfl]
    rfl

theorem firstOrder_map {α : Type*} [DecidableEq α] {f : α → ℕ} (hf : Function.Injective f) (xs ys : List α) :
    firstOrder (xs.map f) (ys.map f) =
      match (xs.zip ys).find? fun p => p.1 ≠ p.2 with
      | none => .eq
      | some p => compare (f p.1) (f p.2) := by
  induction xs generalizing ys with
  | nil => rfl
  | cons x xs ih =>
    cases ys with
    | nil => rfl
    | cons y ys =>
      rw [map_cons, map_cons, firstOrder, ih, zip_cons_cons]
      by_cases hxy : x = y
      · rw [find?_cons_of_neg (by simpa using hxy), compare_eq_iff_eq.mpr (congrArg f hxy)]
        rfl
      · rw [find?_cons_of_pos (by simpa using hxy)]
        change (compare (f x) (f y)).then _ = compare (f x) (f y)
        rcases lt_or_gt_of_ne (hf.ne hxy) with h | h
        · rw [compare_lt_iff_lt.mpr h]
          rfl
        · rw [compare_gt_iff_gt.mpr h]
          rfl

def sign : Ordering → ℤ
  | .lt => -1
  | .eq => 0
  | .gt => 1

theorem sign_compare (m n : ℕ) : sign (compare m n) = Int.sign (m - n) := by
  rcases lt_trichotomy m n with h | rfl | h
  · rw [compare_lt_iff_lt.mpr h, Int.sign_eq_neg_one_of_neg (by omega)]
    rfl
  · rw [compare_eq_iff_eq.mpr rfl, sub_self]
    rfl
  · rw [compare_gt_iff_gt.mpr h, Int.sign_eq_one_of_pos (by omega)]
    rfl

theorem sign_compare_swap (m n : ℕ) : sign (compare n m) = -sign (compare m n) := by
  rw [sign_compare, sign_compare, ← Int.sign_neg, neg_sub]

theorem sign_compare_nonpos (m n : ℕ) : sign (compare m n) ≤ 0 ↔ m ≤ n := by
  rw [sign_compare, Int.sign_nonpos_iff]
  omega

theorem sign_sign (o : Ordering) : Int.sign (sign o) = sign o := by
  cases o <;> rfl

theorem sign_injective : Function.Injective sign := by
  intro a b h
  cases a <;> cases b <;> first | rfl | cases h

end Amplet.DigitOrder
