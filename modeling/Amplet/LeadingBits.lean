import Amplet.PrefixTrie
import Mathlib.Data.BitVec

/-!
# Leading bits of stored words

A word is stored in an order that rearranges its bits. Masking the stored word
with a stored mask compares the leading bits of the numbers they stand for.
-/

namespace Amplet.LeadingBits
open List PrefixTrie

variable {w : ℕ} {i k : ℕ}

def topMask (w k : ℕ) : BitVec w := BitVec.allOnes w <<< (w - k)

theorem getMsbD_topMask (k i : ℕ) : (topMask w k).getMsbD i = decide (i < w ∧ i < k) := by
  rw [topMask, BitVec.getMsbD_shiftLeft, BitVec.getMsbD_allOnes]
  exact decide_eq_decide.mpr (by omega)

theorem topMask_succ (k : ℕ) : topMask w k >>> 1 ||| topMask w 1 = topMask w (k + 1) := by
  refine BitVec.eq_of_getMsbD_eq fun i hi => ?_
  rw [BitVec.getMsbD_or, BitVec.getMsbD_ushiftRight, getMsbD_topMask, getMsbD_topMask, getMsbD_topMask]
  rcases Nat.eq_zero_or_pos i with rfl | hpos
  · simp [hi]
  · simp [hi, Nat.not_lt.mpr hpos, show i - 1 < w by omega, show i - 1 < k ↔ i < k + 1 by omega]

theorem and_topMask_eq_iff (hk : k ≤ w) (x y : BitVec w) :
    x &&& topMask w k = y &&& topMask w k ↔ ∀ i < k, x.getMsbD i = y.getMsbD i := by
  constructor
  · intro h i hi
    have hbit := congrArg (BitVec.getMsbD · i) h
    simpa [getMsbD_topMask, hi, hi.trans_le hk] using hbit
  · intro h
    refine BitVec.eq_of_getMsbD_eq fun i _ => ?_
    rw [BitVec.getMsbD_and, BitVec.getMsbD_and, getMsbD_topMask]
    by_cases hi : i < k
    · rw [h i hi]
    · simp [hi]

theorem and_topBit_eq_zero_iff (hi : i < w) (x : BitVec w) : x &&& topMask w 1 >>> i = 0#w ↔ x.getMsbD i = false := by
  have hmask : ∀ j < w, (topMask w 1 >>> i).getMsbD j = decide (j = i) := by
    intro j hj
    rw [BitVec.getMsbD_ushiftRight, getMsbD_topMask]
    rcases lt_trichotomy j i with h | rfl | h
    · simp [h, h.ne]
    · simp [hj, Nat.zero_lt_of_lt hj]
    · simp [h.ne', show ¬ j - i = 0 by omega]
  constructor
  · intro h
    have hbit := congrArg (BitVec.getMsbD · i) h
    simpa [hmask i hi] using hbit
  · intro h
    refine BitVec.eq_of_getMsbD_eq fun j hj => ?_
    rw [BitVec.getMsbD_and, hmask j hj]
    by_cases hji : j = i
    · simp [hji, h]
    · simp [hji]

structure WordOrder (w : ℕ) where
  swap : BitVec w → BitVec w
  swap_swap : ∀ x, swap (swap x) = x
  swap_and : ∀ x y, swap (x &&& y) = swap x &&& swap y

namespace WordOrder
open List

def ofIndex (swap : BitVec w → BitVec w) (source : ℕ → ℕ) (hsource : ∀ i < w, source i < w ∧ source (source i) = i)
    (hbit : ∀ x, ∀ i < w, (swap x).getLsbD i = x.getLsbD (source i)) : WordOrder w where
  swap := swap
  swap_swap x := by
    refine BitVec.eq_of_getLsbD_eq fun i hi => ?_
    rw [hbit _ i hi, hbit x _ (hsource i hi).1, (hsource i hi).2]
  swap_and x y := by
    refine BitVec.eq_of_getLsbD_eq fun i hi => ?_
    rw [BitVec.getLsbD_and, hbit _ i hi, hbit x i hi, hbit y i hi, BitVec.getLsbD_and]

def plain (w : ℕ) : WordOrder w := ⟨id, fun _ => rfl, fun _ _ => rfl⟩

variable (o : WordOrder w) {n : ℕ}

/-- The bits of a stored word, the most significant first. -/
def bit (x : BitVec w) (i : ℕ) : Bool := (o.swap x).getMsbD i

theorem swap_inj {x y : BitVec w} : o.swap x = o.swap y ↔ x = y :=
  (Function.LeftInverse.injective o.swap_swap).eq_iff

theorem swap_masked (x mask : BitVec w) : o.swap (x &&& o.swap mask) = o.swap x &&& mask := by
  rw [o.swap_and, o.swap_swap]

theorem swap_zero : o.swap 0#w = 0#w := by
  have h := o.swap_and (o.swap 0#w) 0#w
  rwa [BitVec.and_zero, o.swap_swap, BitVec.zero_and] at h

theorem swap_allOnes : o.swap (BitVec.allOnes w) = BitVec.allOnes w := by
  have h := o.swap_and (o.swap (BitVec.allOnes w)) (BitVec.allOnes w)
  rw [BitVec.and_allOnes, o.swap_swap, BitVec.allOnes_and] at h
  exact h.symm

theorem swap_topMask_ne (hk : k < w) : o.swap (topMask w k) ≠ BitVec.allOnes w := by
  rw [← o.swap_allOnes, Ne, o.swap_inj]
  intro h
  have hbit := congrArg (BitVec.getMsbD · k) h
  simp [getMsbD_topMask, hk] at hbit

theorem masked_eq_iff (hk : k ≤ w) (x y : BitVec w) :
    x &&& o.swap (topMask w k) = y &&& o.swap (topMask w k) ↔ Agree o.bit k x y := by
  rw [← o.swap_inj, o.swap_masked, o.swap_masked]
  exact and_topMask_eq_iff hk _ _

theorem masked_eq_zero_iff (hi : i < w) (x : BitVec w) : x &&& o.swap (topMask w 1 >>> i) = 0#w ↔ o.bit x i = false := by
  rw [← o.swap_inj, o.swap_masked, o.swap_zero, and_topBit_eq_zero_iff hi, bit]

theorem agree_iff_eq (hn : w ≤ n) (x y : BitVec w) : Agree o.bit n x y ↔ x = y := by
  constructor
  · intro h
    exact o.swap_inj.mp (BitVec.eq_of_getMsbD_eq fun i hi => h i (hi.trans_le hn))
  · rintro rfl i _
    rfl

def wordBit (words : List (BitVec w)) (i : ℕ) : Bool := o.bit (words.getD (i / w) 0#w) (i % w)

theorem wordBit_cons_lt (x : BitVec w) (xs : List (BitVec w)) (hi : i < w) : o.wordBit (x :: xs) i = o.bit x i := by
  rw [wordBit, Nat.div_eq_of_lt hi, Nat.mod_eq_of_lt hi, getD_cons_zero]

theorem wordBit_cons_add (x : BitVec w) (xs : List (BitVec w)) (i : ℕ) (hw : 0 < w) :
    o.wordBit (x :: xs) (i + w) = o.wordBit xs i := by
  rw [wordBit, Nat.add_div_right i hw, Nat.add_mod_right, getD_cons_succ, wordBit]

theorem agree_cons (hw : 0 < w) (n : ℕ) (x y : BitVec w) (xs ys : List (BitVec w)) : Agree o.wordBit n (x :: xs) (y :: ys) ↔
      Agree o.bit (min n w) x y ∧ Agree o.wordBit (n - w) xs ys := by
  constructor
  · intro h
    refine ⟨fun i hi => ?_, fun i hi => ?_⟩
    · rw [← o.wordBit_cons_lt x xs (by omega), ← o.wordBit_cons_lt y ys (by omega)]
      exact h i (by omega)
    · rw [← o.wordBit_cons_add x xs i hw, ← o.wordBit_cons_add y ys i hw]
      exact h (i + w) (by omega)
  · rintro ⟨hhead, htail⟩ i hi
    rcases lt_or_ge i w with hlt | hge
    · rw [o.wordBit_cons_lt x xs hlt, o.wordBit_cons_lt y ys hlt]
      exact hhead i (by omega)
    · obtain ⟨j, rfl⟩ := Nat.exists_eq_add_of_le' hge
      rw [o.wordBit_cons_add x xs j hw, o.wordBit_cons_add y ys j hw]
      exact htail j (by omega)

theorem agree_words_iff_eq (hw : 0 < w) {xs ys : List (BitVec w)} (hlen : xs.length = ys.length)
    (hn : xs.length * w ≤ n) : Agree o.wordBit n xs ys ↔ xs = ys := by
  induction xs generalizing ys n with
  | nil =>
    rw [eq_nil_of_length_eq_zero hlen.symm]
    exact iff_of_true (fun _ _ => rfl) rfl
  | cons x xs ih =>
    cases ys with
    | nil => simp at hlen
    | cons y ys =>
      rw [length_cons, Nat.succ_mul] at hn
      rw [o.agree_cons hw, o.agree_iff_eq (by omega), ih (Nat.succ.inj hlen) (by omega), cons.injEq]

theorem common_cons_self (hw : 0 < w) (n : ℕ) (x : BitVec w) (xs ys : List (BitVec w)) :
    common o.wordBit (n + w) (x :: xs) (x :: ys) = common o.wordBit n xs ys + w := by
  refine common_eq (Nat.add_le_add_right (common_le n xs ys) w) ?_ ?_
  · rw [o.agree_cons hw, Nat.add_sub_cancel]
    exact ⟨fun _ _ => rfl, agree_common n xs ys⟩
  · rw [o.wordBit_cons_add x xs _ hw, o.wordBit_cons_add x ys _ hw]
    rcases (common_le n xs ys).eq_or_lt with heq | hlt
    · exact Or.inl (by rw [heq])
    · exact Or.inr (bit_common_ne hlt)

theorem common_cons_ne (hw : 0 < w) (hn : w ≤ n) {x y : BitVec w} (hne : x ≠ y)
    (xs ys : List (BitVec w)) : common o.wordBit n (x :: xs) (y :: ys) = common o.bit w x y := by
  have hlt : common o.bit w x y < w := common_lt (mt (o.agree_iff_eq le_rfl x y).mp hne)
  refine common_eq (by omega) ?_ (Or.inr ?_)
  · rw [o.agree_cons hw, min_eq_left hlt.le, Nat.sub_eq_zero_of_le hlt.le]
    exact ⟨agree_common w x y, fun i hi => absurd hi (Nat.not_lt_zero i)⟩
  · rw [o.wordBit_cons_lt x xs hlt, o.wordBit_cons_lt y ys hlt]
    exact bit_common_ne hlt

theorem lt_of_bit {x : BitVec w} (h : o.bit x i = true) : i < w :=
  BitVec.lt_of_getMsbD h

theorem lt_of_wordBit (hw : 0 < w) {words : List (BitVec w)} (h : o.wordBit words i = true) : i < words.length * w := by
  by_contra hge
  have hout : words.length ≤ i / w := (Nat.le_div_iff_mul_le hw).mpr (not_lt.mp hge)
  rw [wordBit, getD_eq_getElem?_getD, getElem?_eq_none hout, Option.getD_none, bit, o.swap_zero, BitVec.getMsbD_zero] at h
  exact Bool.false_ne_true h

end WordOrder

end Amplet.LeadingBits
