import Amplet.Bytes
import Amplet.DigitOrder
import Mathlib.Data.Nat.Digits.Lemmas

/-!
# Numerals

Numbers as texts in a base up to 36, in either case. The second half is `strtol` for a
base that is given or read off the text, with what it leaves of the text.
-/

namespace Amplet.Numerals
open List Bytes DigitOrder

def digitValue (b : UInt8) : ℕ :=
  if isdigit b then b.toNat - 48
  else if 97 ≤ b ∧ b ≤ 122 then b.toNat - 87
  else if 65 ≤ b ∧ b ≤ 90 then b.toNat - 55
  else 36

def digitChar (d : ℕ) : UInt8 := UInt8.ofNat (if d < 10 then 48 + d else 87 + d)

def valueOf (base : ℕ) (s : CStr) : ℕ := number base (s.map digitValue)

def numeral (base n : ℕ) : CStr :=
  if n = 0 then [48] else (Nat.digits base n).reverse.map digitChar

section

variable {base n k : ℕ}

theorem digitValue_digitChar {d : ℕ} (h : d < 36) : digitValue (digitChar d) = d := by
  interval_cases d <;> decide

theorem number_reverse (ds : List ℕ) : number base ds.reverse = Nat.ofDigits base ds := by
  rw [number, foldl_reverse]
  induction ds with
  | nil => rfl
  | cons d ds ih => rw [foldr_cons, ih, Nat.ofDigits_cons, mul_comm, add_comm]

section

variable (hbase : 1 < base) (hmax : base ≤ 36)
include hbase hmax

theorem map_digitValue_numeral (hn : n ≠ 0) : (numeral base n).map digitValue = (Nat.digits base n).reverse := by
  rw [numeral, if_neg hn, map_map]
  conv_rhs => rw [← map_id (Nat.digits base n).reverse]
  apply map_congr_left
  intro d hd
  have hlt := Nat.digits_lt_base hbase (mem_reverse.mp hd)
  exact digitValue_digitChar (by omega)

theorem valueOf_numeral (n : ℕ) : valueOf base (numeral base n) = n := by
  rcases Nat.eq_zero_or_pos n with rfl | hpos
  · rw [numeral, if_pos rfl]
    simp [valueOf, number, digitValue, isdigit]
  · rw [valueOf, map_digitValue_numeral hbase hmax hpos.ne', number_reverse, Nat.ofDigits_digits]

theorem numeral_digit {b : UInt8} (hb : b ∈ numeral base n) : ∃ d < base, b = digitChar d := by
  rw [numeral] at hb
  split_ifs at hb with hn
  · exact ⟨0, by omega, mem_singleton.mp hb⟩
  · obtain ⟨d, hd, rfl⟩ := mem_map.mp hb
    exact ⟨d, Nat.digits_lt_base hbase (mem_reverse.mp hd), rfl⟩

end

theorem numeral_ne_nil : numeral base n ≠ [] := by
  rw [numeral]
  split_ifs with hn
  · exact cons_ne_nil _ _
  · simpa using Nat.digits_ne_nil_iff_ne_zero.mpr hn

theorem length_numeral_of_lt (h : n < base) : (numeral base n).length = 1 := by
  rw [numeral]
  split_ifs with hn
  · rfl
  · rw [length_map, length_reverse, Nat.digits_of_lt base n hn h]
    rfl

theorem length_numeral (hbase : 1 < base) (hle : base ^ k ≤ n) (hlt : n < base ^ (k + 1)) : (numeral base n).length = k + 1 := by
  have hn : n ≠ 0 := (Nat.lt_of_lt_of_le (Nat.pow_pos (by omega)) hle).ne'
  rw [numeral, if_neg hn, length_map, length_reverse]
  have hmore := (Nat.lt_digits_length_iff hbase n).mpr hle
  have hless := (Nat.digits_length_le_iff hbase n).mpr hlt
  omega

theorem length_numeral_cases (hbase : 1 < base) (hle : base ^ k ≤ n) (hlt : n < base ^ (k + 2)) :
    (n < base ^ (k + 1) ∧ (numeral base n).length = k + 1) ∨ (base ^ (k + 1) ≤ n ∧ (numeral base n).length = k + 2) := by
  rcases Nat.lt_or_ge n (base ^ (k + 1)) with hless | hmore
  · exact .inl ⟨hless, length_numeral hbase hle hless⟩
  · exact .inr ⟨hmore, length_numeral hbase hmore hlt⟩

end

theorem valueOf_le_valueOf {b c : ℕ} (h : b ≤ c) (s : CStr) : valueOf b s ≤ valueOf c s := by
  unfold valueOf
  induction s using reverseRecOn with
  | nil => exact le_rfl
  | append_singleton s d ih =>
    rw [map_append, map_singleton, number_concat, number_concat]
    exact Nat.add_le_add_right (Nat.mul_le_mul ih h) _

theorem valueOf_ten_le {s : CStr} (h : ∀ b ∈ s, digitValue b < 2) : valueOf 10 s ≤ valueOf 2 s ^ 4 := by
  unfold valueOf
  induction s using reverseRecOn with
  | nil => exact le_rfl
  | append_singleton s d ih =>
    have hd : digitValue d < 2 := h d (by simp)
    have hs := ih fun b hb => h b (by simp [hb])
    rw [map_append, map_singleton, number_concat, number_concat]
    generalize number 10 (s.map digitValue) = ten at hs ⊢
    generalize number 2 (s.map digitValue) = two at hs ⊢
    generalize digitValue d = k at hd ⊢
    interval_cases k
    · calc ten * 10 + 0 ≤ 16 * two ^ 4 := by omega
        _ = (two * 2 + 0) ^ 4 := by ring
    · calc ten * 10 + 1 ≤ 16 * two ^ 4 + 1 := by omega
        _ ≤ (two * 2 + 1) ^ 4 := by
          ring_nf
          omega

theorem digitValue_plain {b : UInt8} (h : digitValue b < 36) : isspace b = false ∧ b ≠ 45 ∧ b ≠ 43 := by
  revert h
  exact forall_byte (P := fun b => digitValue b < 36 → isspace b = false ∧ b ≠ 45 ∧ b ≠ 43) (by decide +kernel) b

section Conversion

structure Conversion where
  value : ℤ
  rest : CStr
  range : Bool
deriving DecidableEq, Repr

def splitSign : CStr → Bool × CStr
  | 45 :: s => (true, s)
  | 43 :: s => (false, s)
  | s => (false, s)

def radix (base : ℕ) (s : CStr) : ℕ × CStr :=
  if base ≠ 0 then (base, s)
  else
    match s with
    | 48 :: x :: d :: s =>
      if (x = 120 ∨ x = 88) ∧ digitValue d < 16 then (16, d :: s) else (8, 48 :: x :: d :: s)
    | 48 :: s => (8, 48 :: s)
    | s => (10, s)

theorem radix_of_ne {base : ℕ} (h : base ≠ 0) (s : CStr) : radix base s = (base, s) := by
  unfold radix
  rw [if_pos h]

theorem radix_hexadecimal {x d : UInt8} (hx : x = 120 ∨ x = 88) (hd : digitValue d < 16) (s : CStr) :
    radix 0 (48 :: x :: d :: s) = (16, d :: s) := by
  unfold radix
  rw [if_neg (by decide)]
  exact if_pos ⟨hx, hd⟩

theorem radix_octal {s : CStr} (h : ∀ x d t, s = x :: d :: t → ¬((x = 120 ∨ x = 88) ∧ digitValue d < 16)) :
    radix 0 (48 :: s) = (8, 48 :: s) := by
  unfold radix
  rw [if_neg (by decide)]
  match s with
  | [] => rfl
  | [_] => rfl
  | x :: d :: t => exact if_neg (h x d t rfl)

theorem radix_decimal {s : CStr} (h : s.head? ≠ some 48) : radix 0 s = (10, s) := by
  unfold radix
  rw [if_neg (by decide)]
  split
  · exact absurd rfl h
  · exact absurd rfl h
  · rfl

theorem radix_zero_cons {s : CStr} (h : ∀ b ∈ s, digitValue b < 8) : radix 0 (48 :: s) = (8, 48 :: s) := by
  refine radix_octal fun x d t ht hmark => ?_
  have hx : digitValue x < 8 := h x (by rw [ht]; exact mem_cons_self)
  rcases hmark.1 with rfl | rfl
  · exact absurd hx (by decide)
  · exact absurd hx (by decide)

def signed (negative : Bool) (n : ℕ) : ℤ := if negative then -n else n

/-- For any base but sixteen, which may have a mark in front of its digits. -/
def strtolBase (base : ℕ) (s : CStr) : Conversion :=
  let text := splitSign (s.dropWhile isspace)
  let form := radix base text.2
  let digits := form.2.takeWhile fun b => digitValue b < form.1
  if digits = [] then ⟨0, s, false⟩
  else
    let v := signed text.1 (valueOf form.1 digits)
    ⟨max (-2 ^ 63) (min (2 ^ 63 - 1) v), form.2.drop digits.length, v < -2 ^ 63 ∨ 2 ^ 63 - 1 < v⟩

def Spells (base : ℕ) (s : CStr) (n : ℕ) : Prop :=
  (radix base s).2 ≠ [] ∧ (∀ b ∈ (radix base s).2, digitValue b < (radix base s).1) ∧
    n = valueOf (radix base s).1 (radix base s).2

def Enters (base : ℕ) (s : CStr) (v : ℤ) : Prop :=
  ∃ n, Spells base (splitSign (s.dropWhile isspace)).2 n ∧ v = signed (splitSign (s.dropWhile isspace)).1 n

variable {base : ℕ} {s : CStr}

theorem strtolBase_of_enters {v : ℤ} (h : Enters base s v) : strtolBase base s =
      ⟨max (-2 ^ 63) (min (2 ^ 63 - 1) v), [], v < -2 ^ 63 ∨ 2 ^ 63 - 1 < v⟩ := by
  obtain ⟨n, ⟨hne, hdigits, rfl⟩, rfl⟩ := h
  unfold strtolBase
  dsimp only
  generalize radix base (splitSign (s.dropWhile isspace)).2 = form at hne hdigits ⊢
  have hall : form.2.takeWhile (fun b => digitValue b < form.1) = form.2 :=
    takeWhile_eq_self_iff.2 fun b hb => decide_eq_true (hdigits b hb)
  rw [hall, if_neg hne, drop_length]

theorem strtolBase_rest (h : (strtolBase base s).rest = []) : s = [] ∨ ∃ v, Enters base s v := by
  unfold strtolBase at h
  dsimp only at h
  split_ifs at h with hdigits
  · exact .inl h
  · refine .inr ⟨_, _, ⟨?_, ?_, rfl⟩, rfl⟩
    · intro hnil
      exact hdigits (by rw [hnil]; rfl)
    · generalize radix base (splitSign (s.dropWhile isspace)).2 = form at h hdigits ⊢
      have hall : form.2.takeWhile (fun b => digitValue b < form.1) = form.2 :=
        (List.takeWhile_prefix _).eq_of_length_le (drop_eq_nil_iff.1 h)
      exact fun b hb => of_decide_eq_true (takeWhile_eq_self_iff.1 hall b hb)

theorem radix_nil (base : ℕ) : (radix base []).2 = [] := by
  unfold radix
  split_ifs
  · rfl
  · rfl

theorem strtolBase_nil (base : ℕ) : strtolBase base [] = ⟨0, [], false⟩ := by
  unfold strtolBase
  dsimp only
  rw [if_pos]
  have hdigits : (radix base (splitSign (([] : CStr).dropWhile isspace)).2).2 = [] := radix_nil base
  rw [hdigits]
  rfl

theorem strtolBase_eq {v : ℤ} : strtolBase base s = ⟨v, [], false⟩ ↔
      (s = [] ∧ v = 0) ∨ (Enters base s v ∧ -2 ^ 63 ≤ v ∧ v < 2 ^ 63) := by
  constructor
  · intro h
    rcases strtolBase_rest (congrArg Conversion.rest h) with rfl | ⟨w, hw⟩
    · rw [strtolBase_nil, Conversion.mk.injEq] at h
      exact .inl ⟨rfl, h.1.symm⟩
    · rw [strtolBase_of_enters hw, Conversion.mk.injEq] at h
      obtain ⟨hv, -, hrange⟩ := h
      have hin := of_decide_eq_false hrange
      obtain rfl : w = v := by omega
      exact .inr ⟨hw, by omega, by omega⟩
  · rintro (⟨rfl, rfl⟩ | ⟨henters, hlo, hhi⟩)
    · exact strtolBase_nil base
    · rw [strtolBase_of_enters henters, Conversion.mk.injEq]
      exact ⟨by omega, rfl, decide_eq_false (by omega)⟩

end Conversion

end Amplet.Numerals
