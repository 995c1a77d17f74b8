import Amplet.DigitOrder
import Amplet.SocketAddress

/-!
# The order of addresses

What `compare_addresses` in `src/common/testlib.c` orders addresses by: at full length
the bytes in memory, otherwise the words that the machine loads.
-/

namespace Amplet.AddressOrder
open List PrefixTrie LeadingBits SocketAddress DigitOrder

section Words

variable {w : ℕ} (o : WordOrder w)

def leadingWords : ℕ → List (BitVec w) → List (BitVec w)
  | _, [] => []
  | len, x :: xs => (o.swap x &&& topMask w (min len w)) :: leadingWords (len - w) xs

def loaded (x : BitVec w) : ℕ := (o.swap x).toNat

theorem length_leadingWords (len : ℕ) (xs : List (BitVec w)) : (leadingWords o len xs).length = xs.length := by
  induction xs generalizing len with
  | nil => rfl
  | cons x xs ih => rw [leadingWords, length_cons, ih, length_cons]

theorem topMask_zero : topMask w 0 = 0#w := by
  rw [topMask, Nat.sub_zero, BitVec.shiftLeft_eq_zero le_rfl]

theorem topMask_self : topMask w w = BitVec.allOnes w := by
  rw [topMask, Nat.sub_self, BitVec.shiftLeft_zero]

theorem leadingWords_zero (xs : List (BitVec w)) : leadingWords o 0 xs = replicate xs.length 0#w := by
  induction xs with
  | nil => rfl
  | cons x xs ih =>
    rw [leadingWords, Nat.zero_min, topMask_zero, BitVec.and_zero, Nat.zero_sub, ih]
    rfl

theorem leadingWords_full {len : ℕ} {xs : List (BitVec w)} (hlen : xs.length * w ≤ len) :
    leadingWords o len xs = xs.map o.swap := by
  induction xs generalizing len with
  | nil => rfl
  | cons x xs ih =>
    rw [length_cons, Nat.succ_mul] at hlen
    rw [leadingWords, min_eq_right (by omega), topMask_self, BitVec.and_allOnes, ih (by omega), map_cons]

theorem loaded_injective : Function.Injective (loaded o) := fun _ _ h =>
  o.swap_inj.mp (BitVec.eq_of_toNat_eq h)

theorem loaded_masked (x : BitVec w) (k : ℕ) : loaded o (o.swap x &&& topMask w k) = (x &&& o.swap (topMask w k)).toNat := by
  rw [loaded, o.swap_and, o.swap_swap]

end Words

theorem sign_then {w : ℕ} (x y : BitVec w) (r : Ordering) : sign ((compare x.toNat y.toNat).then r) =
      if x = y then sign r else if x > y then 1 else -1 := by
  rcases lt_trichotomy x.toNat y.toNat with h | h | h
  · rw [compare_lt_iff_lt.mpr h, if_neg (by rintro rfl; omega), if_neg (by bv_omega)]
    rfl
  · rw [compare_eq_iff_eq.mpr h, if_pos (BitVec.eq_of_toNat_eq h)]
    rfl
  · rw [compare_gt_iff_gt.mpr h, if_neg (by rintro rfl; omega), if_pos (by bv_omega)]
    rfl

theorem memcmp_eq {w : ℕ} {xs ys : List (BitVec w)} (hlen : xs.length = ys.length) :
    memcmp xs ys = sign (firstOrder (xs.map BitVec.toNat) (ys.map BitVec.toNat)) := by
  induction xs generalizing ys with
  | nil =>
    rw [eq_nil_of_length_eq_zero hlen.symm]
    rfl
  | cons x xs ih =>
    cases ys with
    | nil => simp at hlen
    | cons y ys =>
      rw [memcmp, ih (Nat.succ.inj hlen), map_cons, map_cons, firstOrder, sign_then]
      by_cases hxy : x = y
      · rw [if_pos hxy, if_pos hxy]
      · rw [if_neg hxy, if_neg hxy]
        split_ifs with hlt hgt hgt
        · exact absurd hgt (by bv_omega)
        · rfl
        · rfl
        · exact absurd (by bv_omega : x = y) hxy

theorem compareFields_eq (e : Endian) {len i : ℕ} (hi : i * 16 ≤ len) {xs ys : List (BitVec 16)} (hlen : xs.length = ys.length) :
    compareFields e len i 0xffff#16 (xs.zip ys) =
      sign (firstOrder ((leadingWords (ntohs e) (len - i * 16) xs).map (loaded (ntohs e)))
        ((leadingWords (ntohs e) (len - i * 16) ys).map (loaded (ntohs e)))) := by
  induction xs generalizing ys i with
  | nil =>
    rw [eq_nil_of_length_eq_zero hlen.symm]
    rfl
  | cons x xs ih =>
    cases ys with
    | nil => simp at hlen
    | cons y ys =>
      rw [zip_cons_cons, compareFields, if_pos rfl, leadingWords, leadingWords, map_cons,
        map_cons, firstOrder, loaded_masked, loaded_masked, sign_then]
      by_cases hlast : len < (i + 1) * 16
      · -- the rest is masked out, and the code leaves its loop
        have hmask : 0xffff#16 <<< ((i + 1) * 16 - len) = topMask 16 (len - i * 16) := by
          rw [topMask, show 16 - (len - i * 16) = (i + 1) * 16 - len by omega]
          rfl
        have hstop := compareFields_stops e len (i + 1) ((ntohs e).swap_topMask_ne (by omega : len - i * 16 < 16)) (xs.zip ys)
        have hrest : len - i * 16 - 16 = 0 := by omega
        rw [min_eq_left (by omega), hrest, leadingWords_zero, leadingWords_zero, Nat.succ.inj hlen, firstOrder_self]
        simp only [if_pos hlast, hmask, hstop, ite_not]
        rfl
      · have hmask : (ntohs e).swap (topMask 16 16) = 0xffff#16 := by
          rw [topMask_self, (ntohs e).swap_allOnes]
          rfl
        have hrest : len - i * 16 - 16 = len - (i + 1) * 16 := by omega
        rw [min_eq_right (by omega), hrest, ← ih (by omega) (Nat.succ.inj hlen), hmask]
        simp only [if_neg hlast, ite_not]

def orderWords (e : Endian) (len : ℕ) : SockAddr → List ℕ
  | .inet x =>
    (leadingWords (ntohl e) len [x]).map (if len < 32 then loaded (ntohl e) else BitVec.toNat)
  | .inet6 xs =>
    (leadingWords (ntohs e) len xs.toList).map (if len < 128 then loaded (ntohs e) else BitVec.toNat)
  | .other _ _ => []

theorem compareAddresses_eq (e : Endian) {a b : SockAddr} (hfamily : a.family = b.family) (hip : a.width ≠ 0) (len : UInt8) :
    compareAddresses e a b len = sign (firstOrder (orderWords e len.toNat a) (orderWords e len.toNat b)) := by
  rcases SockAddr.same_family hfamily hip with ⟨x, y, rfl, rfl⟩ | ⟨x, y, rfl, rfl⟩
  · rw [compareAddresses, if_neg (not_not.mpr hfamily), orderWords, orderWords]
    by_cases hzero : len = 0
    · rw [if_pos hzero, hzero, UInt8.toNat_zero, leadingWords_zero, leadingWords_zero]
      exact (congrArg sign (firstOrder_self _)).symm
    · rw [if_neg hzero]
      dsimp only
      by_cases hlen : len < 32
      · have hlt : len.toNat < 32 := UInt8.lt_iff_toNat_lt.mp hlen
        have hmask : 0xffffffff#32 <<< (32 - len.toNat) = topMask 32 len.toNat := rfl
        rw [if_pos hlen, if_pos hlt, leadingWords, leadingWords, leadingWords, leadingWords,
          map_singleton, map_singleton, firstOrder, loaded_masked, loaded_masked,
          sign_then, min_eq_left hlt.le, hmask]
        rfl
      · have hle : 32 ≤ len.toNat := UInt8.le_iff_toNat_le.mp (UInt8.not_lt.mp hlen)
        rw [if_neg hlen, if_neg (not_lt.mpr hle), memcmp_eq (by simp), leadingWords_full _ (by simpa using hle),
          leadingWords_full _ (by simpa using hle)]
        rfl
  · rw [compareAddresses, if_neg (not_not.mpr hfamily), orderWords, orderWords]
    have hsize : x.toList.length = y.toList.length := by simp
    by_cases hzero : len = 0
    · rw [if_pos hzero, hzero, UInt8.toNat_zero, leadingWords_zero, leadingWords_zero, hsize]
      exact (congrArg sign (firstOrder_self _)).symm
    · rw [if_neg hzero]
      by_cases hlen : len < 128
      · have hlt : len.toNat < 128 := UInt8.lt_iff_toNat_lt.mp hlen
        have hfields := compareFields_eq e (by simp : 0 * 16 ≤ len.toNat) hsize
        rw [Nat.zero_mul, Nat.sub_zero] at hfields
        rw [if_pos hlen, if_pos hlt, hfields]
      · have hle : 128 ≤ len.toNat := UInt8.le_iff_toNat_le.mp (UInt8.not_lt.mp hlen)
        rw [if_neg hlen, if_neg (not_lt.mpr hle), memcmp_eq (by simp),
          leadingWords_full _ (by simpa using hle), leadingWords_full _ (by simpa using hle)]

def addressWords (e : Endian) (len : ℕ) : SockAddr → List ℕ
  | .inet x => (leadingWords (ntohl e) len [x]).map BitVec.toNat
  | .inet6 xs => (leadingWords (ntohs e) len xs.toList).map BitVec.toNat
  | .other _ _ => []

def wordBase : SockAddr → ℕ
  | .inet _ => 2 ^ 32
  | .inet6 _ => 2 ^ 16
  | .other _ _ => 1

def addressNumber (e : Endian) (len : ℕ) (a : SockAddr) : ℕ :=
  number (wordBase a) (addressWords e len a)

def orderNumber (e : Endian) (len : ℕ) (a : SockAddr) : ℕ :=
  a.family * 2 ^ 128 + number (wordBase a) (orderWords e len a)

section Bounds

variable (e : Endian) (len : ℕ) {a b : SockAddr}

theorem addressWords_lt {d : ℕ} (hd : d ∈ addressWords e len a) : d < wordBase a := by
  cases a with
  | inet | inet6 =>
    obtain ⟨y, -, rfl⟩ := mem_map.mp hd
    exact y.isLt
  | other => cases hd

theorem orderWords_lt {d : ℕ} (hd : d ∈ orderWords e len a) : d < wordBase a := by
  cases a with
  | inet | inet6 =>
    obtain ⟨y, -, rfl⟩ := mem_map.mp hd
    split_ifs <;> exact BitVec.isLt _
  | other => cases hd

theorem number_orderWords_lt : number (wordBase a) (orderWords e len a) < 2 ^ 128 := by
  have hlt : ∀ a, wordBase a ≠ 0 → number (wordBase a) (orderWords e len a) <
      wordBase a ^ (orderWords e len a).length := fun a ha =>
    number_lt fun d => orderWords_lt e len
  cases a with
  | inet x =>
    have hx := hlt (.inet x) (by simp [wordBase])
    rw [orderWords, length_map, length_leadingWords, length_singleton, pow_one] at hx
    exact hx.trans (by norm_num [wordBase])
  | inet6 xs =>
    have hxs := hlt (.inet6 xs) (by simp [wordBase])
    rw [orderWords, length_map, length_leadingWords, Vector.length_toList] at hxs
    exact hxs.trans_eq (by norm_num [wordBase])
  | other => exact Nat.two_pow_pos 128

theorem length_words (hfamily : a.family = b.family) (hip : a.width ≠ 0) :
    (orderWords e len a).length = (orderWords e len b).length ∧
      (addressWords e len a).length = (addressWords e len b).length ∧ wordBase a = wordBase b := by
  rcases SockAddr.same_family hfamily hip with ⟨x, y, rfl, rfl⟩ | ⟨x, y, rfl, rfl⟩ <;>
    simp [orderWords, addressWords, length_leadingWords, wordBase]

variable {e len}

theorem compare_orderWords (hfamily : a.family = b.family) (hip : a.width ≠ 0) :
    compare (number (wordBase a) (orderWords e len a)) (number (wordBase b) (orderWords e len b)) =
      firstOrder (orderWords e len a) (orderWords e len b) := by
  obtain ⟨hlength, -, hbase⟩ := length_words e len hfamily hip
  rw [hbase]
  exact compare_number hlength (fun d hd => hbase ▸ orderWords_lt e len hd) fun d hd =>
    orderWords_lt e len hd

theorem compare_addressNumber (hfamily : a.family = b.family) (hip : a.width ≠ 0) :
    compare (addressNumber e len a) (addressNumber e len b) = firstOrder (addressWords e len a) (addressWords e len b) := by
  obtain ⟨-, hlength, hbase⟩ := length_words e len hfamily hip
  rw [addressNumber, addressNumber, hbase]
  exact compare_number hlength (fun d hd => hbase ▸ addressWords_lt e len hd) fun d hd =>
    addressWords_lt e len hd

end Bounds

theorem compareAddresses_orderNumber (e : Endian) {a b : SockAddr} (ha : a.width ≠ 0) (len : UInt8) : compareAddresses e a b len =
      sign (compare (orderNumber e len.toNat a) (orderNumber e len.toNat b)) := by
  rw [orderNumber, orderNumber, compare_digit (number_orderWords_lt ..) (number_orderWords_lt ..)]
  by_cases hfamily : a.family = b.family
  · rw [compare_eq_iff_eq.mpr hfamily, compareAddresses_eq e hfamily ha, compare_orderWords hfamily ha]
    rfl
  · rw [compareAddresses.eq_def, if_pos hfamily]
    rcases lt_or_gt_of_ne hfamily with h | h
    · rw [compare_lt_iff_lt.mpr h, if_neg (by omega)]
      rfl
    · rw [compare_gt_iff_gt.mpr h, if_pos h]
      rfl

section Bytes

theorem toNat_append_eq {m n : ℕ} (x : BitVec m) (y : BitVec n) : (x ++ y).toNat = x.toNat * 2 ^ n + y.toNat := by
  rw [BitVec.toNat_append, ← Nat.shiftLeft_add_eq_or_of_lt y.isLt, Nat.shiftLeft_eq]

theorem digits_of_number {n v w : ℕ} (h : v = number 256 (digits 256 n w).reverse) :
    digits 256 n v = (digits 256 n w).reverse := by
  have hlt : ∀ d ∈ (digits 256 n w).reverse, d < 256 := fun d hd =>
    digits_lt (by decide) (mem_reverse.mp hd)
  have hdigits := digits_number hlt
  rwa [length_reverse, length_digits, ← h] at hdigits

theorem digits_swapBytes32 (x : BitVec 32) : digits 256 4 (swapBytes32 x).toNat = (digits 256 4 x.toNat).reverse := by
  refine digits_of_number ?_
  simp only [swapBytes32, BitVec.toNat_cast, toNat_append_eq, BitVec.extractLsb'_toNat, Nat.shiftRight_eq_div_pow]
  simp [digits, number, Nat.div_div_eq_div_mul]

theorem digits_swapBytes16 (x : BitVec 16) : digits 256 2 (swapBytes16 x).toNat = (digits 256 2 x.toNat).reverse := by
  refine digits_of_number ?_
  simp only [swapBytes16, BitVec.toNat_cast, toNat_append_eq, BitVec.extractLsb'_toNat, Nat.shiftRight_eq_div_pow]
  simp [digits, number]

variable {w n : ℕ} {o : WordOrder w}

def BytesAlike (n : ℕ) (x y : BitVec w) : Prop :=
  firstOrder (digits 256 n x.toNat) (digits 256 n y.toNat) =
    firstOrder (digits 256 n x.toNat).reverse (digits 256 n y.toNat).reverse

theorem compare_loaded_iff (hsize : 2 ^ w = 256 ^ n)
    (hbytes : ∀ x : BitVec w, digits 256 n (o.swap x).toNat = (digits 256 n x.toNat).reverse)
    (x y : BitVec w) :
    compare (loaded o x) (loaded o y) = compare x.toNat y.toNat ↔ BytesAlike n x y := by
  have hlt : ∀ z : BitVec w, z.toNat < 256 ^ n := fun z => hsize ▸ z.isLt
  rw [loaded, loaded, compare_digits (by decide) (hlt _) (hlt _),
    compare_digits (by decide) (hlt x) (hlt y), hbytes, hbytes, BytesAlike]
  exact eq_comm

def WordsAlike (n : ℕ) (xs ys : List (BitVec w)) : Prop :=
  ∀ p ∈ (xs.zip ys).find? fun p => p.1 ≠ p.2, BytesAlike n p.1 p.2

section

variable (hsize : 2 ^ w = 256 ^ n)
  (hbytes : ∀ x : BitVec w, digits 256 n (o.swap x).toNat = (digits 256 n x.toNat).reverse)
include hsize hbytes

theorem firstOrder_loaded_iff (xs ys : List (BitVec w)) : firstOrder (xs.map (loaded o)) (ys.map (loaded o)) =
        firstOrder (xs.map BitVec.toNat) (ys.map BitVec.toNat) ↔ WordsAlike n xs ys := by
  rw [firstOrder_map (loaded_injective o), firstOrder_map fun _ _ => BitVec.eq_of_toNat_eq, WordsAlike]
  cases (xs.zip ys).find? fun p => p.1 ≠ p.2 with
  | none => exact iff_of_true rfl fun p hp => by cases hp
  | some p =>
    refine (compare_loaded_iff hsize hbytes p.1 p.2).trans ⟨fun h q hq => ?_, fun h => h p rfl⟩
    cases hq
    exact h

theorem firstOrder_limited_iff (limited : Prop) [Decidable limited] (xs ys : List (BitVec w)) :
    firstOrder (xs.map (if limited then loaded o else BitVec.toNat)) (ys.map (if limited then loaded o else BitVec.toNat)) =
        firstOrder (xs.map BitVec.toNat) (ys.map BitVec.toNat) ↔ (limited → WordsAlike n xs ys) := by
  split_ifs with hlimited
  · rw [firstOrder_loaded_iff hsize hbytes]
    exact (imp_iff_right hlimited).symm
  · exact iff_of_true rfl fun h => absurd h hlimited

end

end Bytes

/-- The first word in which the masked addresses differ compares alike from either end. -/
def BytesInOrder (a b : SockAddr) (len : UInt8) : Prop :=
  match a, b with
  | .inet x, .inet y => len < 32 →
    WordsAlike 4 (leadingWords (ntohl .little) len.toNat [x]) (leadingWords (ntohl .little) len.toNat [y])
  | .inet6 x, .inet6 y => len < 128 →
    WordsAlike 2 (leadingWords (ntohs .little) len.toNat x.toList) (leadingWords (ntohs .little) len.toNat y.toList)
  | _, _ => True

structure ComparesNumerically (a b : SockAddr) (len : UInt8) : Prop where
  zero : compareAddresses .little a b len = 0 ↔ a.family = b.family ∧ Agree (SockAddr.bit .little) (min len.toNat a.width) a b
  order : a.family = b.family → Int.sign (compareAddresses .little a b len) =
    Int.sign (addressNumber .little len.toNat a - addressNumber .little len.toNat b)
  antisymmetric : compareAddresses .little b a len = -compareAddresses .little a b len
  transitive : ∀ c : SockAddr, c.width ≠ 0 → compareAddresses .little a b len ≤ 0 →
    compareAddresses .little b c len ≤ 0 → compareAddresses .little a c len ≤ 0

section Results

variable {a b : SockAddr}

theorem agree_min (e : Endian) (hfamily : a.family = b.family) (hip : a.width ≠ 0) (n : ℕ) :
    Agree (SockAddr.bit e) (min n a.width) a b ↔ Agree (SockAddr.bit e) n a b := by
  refine ⟨fun h i hi => ?_, fun h => h.mono (min_le_left _ _)⟩
  by_cases hwidth : i < a.width
  · exact h i (lt_min hi hwidth)
  · have hclear : ∀ c : SockAddr, c.width = a.width → c.bit e i = false := fun c hc =>
      Bool.eq_false_of_not_eq_true fun hbit => hwidth (hc ▸ SockAddr.lt_width_of_bit hbit)
    rw [hclear a rfl, hclear b (SockAddr.width_eq hfamily hip)]

theorem firstOrder_words_iff (hfamily : a.family = b.family) (hip : a.width ≠ 0) (len : UInt8) :
    firstOrder (orderWords .little len.toNat a) (orderWords .little len.toNat b) =
        firstOrder (addressWords .little len.toNat a) (addressWords .little len.toNat b) ↔
      BytesInOrder a b len := by
  rcases SockAddr.same_family hfamily hip with ⟨x, y, rfl, rfl⟩ | ⟨x, y, rfl, rfl⟩
  · rw [BytesInOrder, UInt8.lt_iff_toNat_lt]
    exact firstOrder_limited_iff (o := ntohl .little) rfl digits_swapBytes32 _ _ _
  · rw [BytesInOrder, UInt8.lt_iff_toNat_lt]
    exact firstOrder_limited_iff (o := ntohs .little) rfl digits_swapBytes16 _ _ _

theorem order_iff (hfamily : a.family = b.family) (hip : a.width ≠ 0) (len : UInt8) :
    Int.sign (compareAddresses .little a b len) =
        Int.sign (addressNumber .little len.toNat a - addressNumber .little len.toNat b) ↔
      BytesInOrder a b len := by
  rw [← sign_compare, compare_addressNumber hfamily hip, compareAddresses_eq .little hfamily hip,
    sign_sign, sign_injective.eq_iff]
  exact firstOrder_words_iff hfamily hip len

theorem bytesInOrder_of_family_ne (h : a.family ≠ b.family) (len : UInt8) : BytesInOrder a b len := by
  cases a with
  | inet x =>
    cases b with
    | inet y => exact absurd rfl h
    | inet6 y => trivial
    | other => trivial
  | inet6 x =>
    cases b with
    | inet y => trivial
    | inet6 y => exact absurd rfl h
    | other => trivial
  | other => trivial

theorem compareAddresses_numeric_iff (ha : a.width ≠ 0) (hb : b.width ≠ 0) (len : UInt8) :
    ComparesNumerically a b len ↔ BytesInOrder a b len := by
  constructor
  · intro h
    by_cases hfamily : a.family = b.family
    · exact (order_iff hfamily ha len).mp (h.order hfamily)
    · exact bytesInOrder_of_family_ne hfamily len
  · intro h
    refine ⟨?_, fun hfamily => (order_iff hfamily ha len).mpr h, ?_, fun c hc => ?_⟩
    · by_cases hfamily : a.family = b.family
      · rw [and_iff_right hfamily, agree_min .little hfamily ha]
        exact compareAddresses_eq_zero_iff .little hfamily.symm hb len
      · rw [compareAddresses.eq_def, if_pos hfamily]
        refine iff_of_false ?_ fun h => hfamily h.1
        split_ifs <;> decide
    · rw [compareAddresses_orderNumber .little ha, compareAddresses_orderNumber .little hb]
      exact sign_compare_swap _ _
    · rw [compareAddresses_orderNumber .little ha, compareAddresses_orderNumber .little hb,
        compareAddresses_orderNumber .little ha, sign_compare_nonpos, sign_compare_nonpos,
        sign_compare_nonpos]
      exact le_trans

end Results

theorem private_networks_compare_numerically : ComparesNumerically (.inet 0x0000a8c0#32) (.inet 0x8000a8c0#32) 25 := by
  refine (compareAddresses_numeric_iff (by decide) (by decide) 25).mpr fun _ p hp => ?_
  have hfound : some (0xc0a80000#32, 0xc0a80080#32) = some p := by
    rw [← Option.mem_def.mp hp]
    decide +kernel
  cases hfound
  unfold BytesAlike
  decide +kernel

theorem reversed_networks_out_of_order : compareAddresses .little (.inet 0x0001000a#32) (.inet 0x0000010a#32) 24 = 1 ∧
      addressNumber .little 24 (.inet 0x0001000a#32) < addressNumber .little 24 (.inet 0x0000010a#32) ∧
      ¬ ComparesNumerically (.inet 0x0001000a#32) (.inet 0x0000010a#32) 24 := by
  have hcompare : compareAddresses .little (.inet 0x0001000a#32) (.inet 0x0000010a#32) 24 = 1 := by
    decide +kernel
  have hnumber : addressNumber .little 24 (.inet 0x0001000a#32) < addressNumber .little 24 (.inet 0x0000010a#32) := by
    decide +kernel
  refine ⟨hcompare, hnumber, fun h => ?_⟩
  have hsign := h.order rfl
  rw [hcompare] at hsign
  have hpos := Int.sign_eq_one_iff_pos.mp hsign.symm
  exact absurd (Int.ofNat_lt.mp (sub_pos.mp hpos)) hnumber.le.not_gt

end Amplet.AddressOrder
