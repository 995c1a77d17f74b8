import Mathlib.Data.Nat.Digits.Lemmas
import Mathlib.Tactic

/-!
# Numbers as bytes

Numbers as bytes, the least significant byte first, and bytes that are read from
memory.
-/

namespace Amplet.ByteOrder
open List

def value (bs : List UInt8) : ℕ := Nat.ofDigits 256 (bs.map UInt8.toNat)

def bytes (n x : ℕ) : List UInt8 := (range n).map fun j => UInt8.ofNat (x / 256 ^ j)

def read (m : ℕ → UInt8) (i n : ℕ) : List UInt8 := (range n).map fun j => m (i + j)

section

variable {bs : List UInt8} {n x i j : ℕ} {m : ℕ → UInt8}

@[simp] theorem value_nil : value [] = 0 := rfl

@[simp] theorem value_cons (b : UInt8) (bs : List UInt8) : value (b :: bs) = b.toNat + 256 * value bs := by
  simp [value, Nat.ofDigits_cons]

@[simp] theorem length_bytes (n x : ℕ) : (bytes n x).length = n := by
  simp [bytes]

@[simp] theorem length_read (m : ℕ → UInt8) (i n : ℕ) : (read m i n).length = n := by
  simp [read]

theorem value_append (bs cs : List UInt8) : value (bs ++ cs) = value bs + 256 ^ bs.length * value cs := by
  simp [value, Nat.ofDigits_append]

theorem value_bytes (n x : ℕ) : value (bytes n x) = x % 256 ^ n := by
  induction n with
  | zero => simp [bytes, Nat.mod_one]
  | succ n ih =>
    have hsucc : bytes (n + 1) x = bytes n x ++ [UInt8.ofNat (x / 256 ^ n)] := by
      simp [bytes, range_succ]
    have hbyte : (UInt8.ofNat (x / 256 ^ n)).toNat = x / 256 ^ n % 256 := UInt8.toNat_ofNat' ..
    rw [hsucc, value_append, ih, length_bytes, value_cons, value_nil, hbyte, mul_zero, add_zero, Nat.mod_pow_succ]

theorem value_lt (bs : List UInt8) : value bs < 256 ^ bs.length := by
  induction bs with
  | nil => simp
  | cons b bs ih =>
    have hb := b.toNat_lt
    rw [value_cons, length_cons, pow_succ]
    omega

theorem mul_pow_le_value {b : UInt8} (h : bs[j]? = some b) : b.toNat * 256 ^ j ≤ value bs := by
  induction bs generalizing j with
  | nil => cases h
  | cons c bs ih =>
    cases j with
    | zero =>
      cases h
      rw [value_cons, pow_zero]
      omega
    | succ j =>
      have hplace := ih h
      rw [value_cons, pow_succ, ← mul_assoc]
      omega

theorem getElem?_read (hj : j < n) : (read m i n)[j]? = some (m (i + j)) := by
  simp [read, hj]

theorem read_eq (hlength : bs.length = n) (h : ∀ j < n, bs[j]? = some (m (i + j))) : read m i n = bs := by
  apply ext_getElem?
  intro j
  by_cases hj : j < n
  · rw [getElem?_read hj, h j hj]
  · rw [getElem?_eq_none (by simpa using hj), getElem?_eq_none (by omega)]

end

end Amplet.ByteOrder
