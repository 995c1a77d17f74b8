import Amplet.ByteOrder
import Amplet.LeadingBits

/-!
# Leading bits of socket addresses

Embedding of `compare_addresses` in `src/common/testlib.c` and of `get_bit_at_index` and
`get_matching_prefix_length` in `src/common/iptrie.c`. An address holds the words the
machine loads; its byte order is a parameter. No caller passes a null pointer. The
shifts of `int` values are those of the compilers in use: `0xffff << 16` loses its upper
bits when `ntohs` takes it.
-/

namespace Amplet.SocketAddress
open PrefixTrie LeadingBits
open List hiding Vector

inductive Endian
  | little
  | big

def swapBytes32 (x : BitVec 32) : BitVec 32 :=
  (x.extractLsb' 0 8 ++ x.extractLsb' 8 8 ++ x.extractLsb' 16 8 ++ x.extractLsb' 24 8).cast rfl

def swapBytes16 (x : BitVec 16) : BitVec 16 :=
  (x.extractLsb' 0 8 ++ x.extractLsb' 8 8).cast rfl

theorem getLsbD_swapBytes32 (x : BitVec 32) (i : ℕ) (hi : i < 32) :
    (swapBytes32 x).getLsbD i = x.getLsbD (24 - i / 8 * 8 + i % 8) := by
  rw [swapBytes32, BitVec.getLsbD_cast, BitVec.getLsbD_append, BitVec.getLsbD_append, BitVec.getLsbD_append]
  simp only [BitVec.getLsbD_extractLsb']
  split_ifs <;>
  · rw [decide_eq_true (by omega), Bool.true_and]
    congr 1
    omega

theorem getLsbD_swapBytes16 (x : BitVec 16) (i : ℕ) (hi : i < 16) :
    (swapBytes16 x).getLsbD i = x.getLsbD (8 - i / 8 * 8 + i % 8) := by
  rw [swapBytes16, BitVec.getLsbD_cast, BitVec.getLsbD_append]
  simp only [BitVec.getLsbD_extractLsb']
  split_ifs <;>
  · rw [decide_eq_true (by omega), Bool.true_and]
    congr 1
    omega

def ntohl : Endian → WordOrder 32
  | .little => .ofIndex swapBytes32 (fun i => 24 - i / 8 * 8 + i % 8) (fun i _ => by omega)
      getLsbD_swapBytes32
  | .big => .plain 32

def ntohs : Endian → WordOrder 16
  | .little => .ofIndex swapBytes16 (fun i => 8 - i / 8 * 8 + i % 8) (fun i _ => by omega)
      getLsbD_swapBytes16
  | .big => .plain 16

def afInet : ℕ := 2

def afInet6 : ℕ := 10

inductive SockAddr
  | inet (addr : BitVec 32)
  | inet6 (addr : Vector (BitVec 16) 8)
  | other (family : ℕ) (h : family ≠ afInet ∧ family ≠ afInet6)

def SockAddr.family : SockAddr → ℕ
  | .inet _ => afInet
  | .inet6 _ => afInet6
  | .other family _ => family

/-- The bytes of a number that has its least significant byte first, as the machine has them. -/
def hostOrder (e : Endian) (bs : List UInt8) : List UInt8 :=
  match e with
  | .little => bs
  | .big => bs.reverse

@[simp] theorem length_hostOrder (e : Endian) (bs : List UInt8) : (hostOrder e bs).length = bs.length := by
  cases e
  · rfl
  · exact length_reverse

theorem hostOrder_hostOrder (e : Endian) (bs : List UInt8) : hostOrder e (hostOrder e bs) = bs := by
  cases e
  · rfl
  · exact reverse_reverse bs

def storeWord (e : Endian) (n x : ℕ) : List UInt8 := hostOrder e (ByteOrder.bytes n x)

def loadWord (e : Endian) (bs : List UInt8) : ℕ := ByteOrder.value (hostOrder e bs)

def addressBytes (e : Endian) : SockAddr → List UInt8
  | .inet x => storeWord e 4 x.toNat
  | .inet6 x => x.toList.flatMap fun w => storeWord e 2 w.toNat
  | .other _ _ => []

def memcmp {w : ℕ} : List (BitVec w) → List (BitVec w) → ℤ
  | x :: xs, y :: ys => if x = y then memcmp xs ys else if x < y then -1 else 1
  | _, _ => 0

def compareFields (e : Endian) (len : ℕ) : ℕ → BitVec 16 → List (BitVec 16 × BitVec 16) → ℤ
  | _, _, [] => 0
  | i, mask, (a, b) :: fields =>
    if mask = 0xffff#16 then
      let mask :=
        if len < (i + 1) * 16 then (ntohs e).swap (0xffff#16 <<< ((i + 1) * 16 - len)) else mask
      if a &&& mask ≠ b &&& mask then if a &&& mask > b &&& mask then 1 else -1
      else compareFields e len (i + 1) mask fields
    else 0

def compareAddresses (e : Endian) (a b : SockAddr) (len : UInt8) : ℤ :=
  if a.family ≠ b.family then if a.family > b.family then 1 else -1
  else if len = 0 then 0
  else
    match a, b with
    | .inet a4, .inet b4 =>
      if len < 32 then
        let mask := (ntohl e).swap (0xffffffff#32 <<< (32 - len.toNat))
        if a4 &&& mask = b4 &&& mask then 0 else if a4 &&& mask > b4 &&& mask then 1 else -1
      else memcmp [(ntohl e).swap a4] [(ntohl e).swap b4]
    | .inet6 a6, .inet6 b6 =>
      if len < 128 then compareFields e len.toNat 0 0xffff#16 (a6.toList.zip b6.toList)
      else memcmp (a6.toList.map (ntohs e).swap) (b6.toList.map (ntohs e).swap)
    | _, _ => -1

def getBitAtIndex (e : Endian) (address : SockAddr) (index : ℤ) : ℤ :=
  if index < 0 then -1
  else
    match address with
    | .inet addr =>
      if index > 31 then -1
      else if addr &&& (ntohl e).swap (0x80000000#32 >>> index.toNat) ≠ 0 then 1 else 0
    | .inet6 addr =>
      if index > 127 then -1
      else
        let field := addr.toList.getD (index.toNat / 16) 0
        if field &&& (ntohs e).swap (0x8000#16 >>> (index.toNat % 16)) ≠ 0 then 1 else 0
    | .other _ _ => -1

/-- The top bit is set again after each shift, so the sign of the shifted `int` does not matter.
-/
def matchingBits {w : ℕ} (o : WordOrder w) (maxlen : ℕ) (a b mask : BitVec w) (count : ℕ) : ℕ :=
  if count < maxlen ∧ a &&& o.swap mask = b &&& o.swap mask then
    matchingBits o maxlen a b (mask >>> 1 ||| topMask w 1) (count + 1)
  else count
termination_by maxlen - count

def matchingFields (e : Endian) (maxlen : ℕ) : List (BitVec 16 × BitVec 16) → ℕ → ℕ
  | [], count => count
  | (a, b) :: fields, count =>
    if a = b then matchingFields e maxlen fields (count + 16)
    else matchingBits (ntohs e) maxlen a b 0x8000#16 count

def getMatchingPrefixLength (e : Endian) (a b : SockAddr) : ℤ :=
  if a.family ≠ b.family then -1
  else
    match a, b with
    | .inet a4, .inet b4 => matchingBits (ntohl e) 32 a4 b4 0x80000000#32 0
    | .inet6 a6, .inet6 b6 => matchingFields e 128 (a6.toList.zip b6.toList) 0
    | _, _ => 0

def SockAddr.bit (e : Endian) : SockAddr → ℕ → Bool
  | .inet addr, i => (ntohl e).bit addr i
  | .inet6 addr, i => (ntohs e).wordBit addr.toList i
  | .other _ _, _ => false

def SockAddr.width : SockAddr → ℕ
  | .inet _ => 32
  | .inet6 _ => 128
  | .other _ _ => 0

theorem memcmp_eq_zero_iff {w : ℕ} {xs ys : List (BitVec w)} (h : xs.length = ys.length) : memcmp xs ys = 0 ↔ xs = ys := by
  induction xs generalizing ys with
  | nil => simp [memcmp, eq_nil_of_length_eq_zero h.symm]
  | cons x xs ih =>
    cases ys with
    | nil => simp at h
    | cons y ys =>
      rw [memcmp, cons.injEq]
      split_ifs with hxy
      · simp [hxy, ih (Nat.succ.inj h)]
      · simp [hxy]
      · simp [hxy]

theorem compareFields_stops (e : Endian) (len i : ℕ) {mask : BitVec 16} (hmask : mask ≠ 0xffff#16)
    (fields : List (BitVec 16 × BitVec 16)) : compareFields e len i mask fields = 0 := by
  cases fields with
  | nil => rfl
  | cons => exact if_neg hmask

variable {a b : SockAddr} {i maxlen count : ℕ}

theorem compareFields_eq_zero_iff (e : Endian) {len : ℕ} (hi : i * 16 ≤ len)
    {xs ys : List (BitVec 16)} (hlen : xs.length = ys.length) :
    compareFields e len i 0xffff#16 (xs.zip ys) = 0 ↔ Agree (ntohs e).wordBit (len - i * 16) xs ys := by
  induction xs generalizing ys i with
  | nil =>
    rw [eq_nil_of_length_eq_zero hlen.symm]
    exact iff_of_true rfl fun _ _ => rfl
  | cons x xs ih =>
    cases ys with
    | nil => simp at hlen
    | cons y ys =>
      rw [(ntohs e).agree_cons (by decide), zip_cons_cons, compareFields, if_pos rfl]
      by_cases hlast : len < (i + 1) * 16
      · -- the last field that is compared
        have hmask : 0xffff#16 <<< ((i + 1) * 16 - len) = topMask 16 (len - i * 16) := by
          rw [topMask, show 16 - (len - i * 16) = (i + 1) * 16 - len by omega]
          rfl
        have hnone : Agree (ntohs e).wordBit (len - i * 16 - 16) xs ys := fun j hj => by omega
        have hle : len - i * 16 ≤ 16 := by omega
        have hstop := compareFields_stops e len (i + 1) ((ntohs e).swap_topMask_ne (by omega : len - i * 16 < 16)) (xs.zip ys)
        simp only [if_pos hlast, hmask, ne_eq, (ntohs e).masked_eq_iff hle, min_eq_left hle, and_iff_left hnone, hstop]
        split_ifs <;> simp_all
      · have hall : ∀ z : BitVec 16, z &&& 0xffff#16 = z := fun z => BitVec.and_allOnes
        simp only [if_neg hlast, hall, min_eq_right (by omega : 16 ≤ len - i * 16), (ntohs e).agree_iff_eq le_rfl]
        by_cases hxy : x = y
        · rw [if_neg (not_not.mpr hxy), ih (by omega) (Nat.succ.inj hlen), and_iff_right hxy,
            show len - (i + 1) * 16 = len - i * 16 - 16 by omega]
        · rw [if_pos hxy]
          refine iff_of_false ?_ fun h => hxy h.1
          split_ifs <;> decide

theorem SockAddr.same_family (h : a.family = b.family) (hip : a.width ≠ 0) :
    (∃ x y, a = .inet x ∧ b = .inet y) ∨ ∃ x y, a = .inet6 x ∧ b = .inet6 y := by
  cases a with
  | inet x =>
    cases b with
    | inet y => exact Or.inl ⟨x, y, rfl, rfl⟩
    | inet6 y => cases h
    | other family hf => exact absurd h.symm hf.1
  | inet6 x =>
    cases b with
    | inet y => cases h
    | inet6 y => exact Or.inr ⟨x, y, rfl, rfl⟩
    | other family hf => exact absurd h.symm hf.2
  | other => exact absurd rfl hip

theorem compareAddresses_eq_zero_iff (e : Endian) (hfamily : b.family = a.family) (hip : b.width ≠ 0) (len : UInt8) :
    compareAddresses e a b len = 0 ↔ Agree (SockAddr.bit e) len.toNat a b := by
  by_cases hzero : len = 0
  · subst hzero
    simp only [compareAddresses, hfamily, ne_eq, not_true_eq_false, if_false, if_true, true_iff]
    exact fun i hi => absurd hi (Nat.not_lt_zero i)
  rcases SockAddr.same_family hfamily hip with ⟨y, x, rfl, rfl⟩ | ⟨y, x, rfl, rfl⟩
  · change _ ↔ Agree (ntohl e).bit len.toNat x y
    simp only [compareAddresses, hfamily, ne_eq, not_true_eq_false, if_false, hzero]
    by_cases hlen : len < 32
    · have hmask : 0xffffffff#32 <<< (32 - len.toNat) = topMask 32 len.toNat := rfl
      have hle : len.toNat ≤ 32 := (UInt8.lt_iff_toNat_lt.mp hlen).le
      simp only [if_pos hlen, hmask, (ntohl e).masked_eq_iff hle]
      split_ifs <;> simp_all
    · have hle : 32 ≤ len.toNat := UInt8.le_iff_toNat_le.mp (UInt8.not_lt.mp hlen)
      rw [if_neg hlen, memcmp_eq_zero_iff (by simp), (ntohl e).agree_iff_eq hle, cons.injEq, (ntohl e).swap_inj, and_iff_left rfl]
  · change _ ↔ Agree (ntohs e).wordBit len.toNat x.toList y.toList
    simp only [compareAddresses, hfamily, ne_eq, not_true_eq_false, if_false, hzero]
    have hsize : x.toList.length = y.toList.length := by simp
    by_cases hlen : len < 128
    · rw [if_pos hlen, compareFields_eq_zero_iff e (Nat.zero_le _) hsize, Nat.zero_mul, Nat.sub_zero]
    · have hle : 128 ≤ len.toNat := UInt8.le_iff_toNat_le.mp (UInt8.not_lt.mp hlen)
      rw [if_neg hlen, memcmp_eq_zero_iff (by simp), (ntohs e).agree_words_iff_eq (by decide) hsize (by simpa using hle)]
      exact (map_injective_iff.mpr fun _ _ => (ntohs e).swap_inj.mp).eq_iff

theorem getBitAtIndex_eq (e : Endian) (hi : i < a.width) : getBitAtIndex e a i = if a.bit e i then 1 else 0 := by
  cases a with
  | inet x =>
    have hmask : (0x80000000#32 : BitVec 32) = topMask 32 1 := rfl
    have hbit := (ntohl e).masked_eq_zero_iff hi x
    simp only [SockAddr.width] at hi
    simp only [getBitAtIndex, SockAddr.bit, if_neg (by omega : ¬ (i : ℤ) < 0),
      if_neg (by omega : ¬ (i : ℤ) > 31), Int.toNat_natCast, hmask, ne_eq]
    refine if_congr ?_ rfl rfl
    rw [← Bool.not_eq_false]
    exact not_congr hbit
  | inet6 x =>
    have hmask : (0x8000#16 : BitVec 16) = topMask 16 1 := rfl
    have hbit := (ntohs e).masked_eq_zero_iff (Nat.mod_lt i (by decide : 0 < 16)) (x.toList.getD (i / 16) 0#16)
    simp only [SockAddr.width] at hi
    simp only [getBitAtIndex, SockAddr.bit, WordOrder.wordBit, if_neg (by omega : ¬ (i : ℤ) < 0),
      if_neg (by omega : ¬ (i : ℤ) > 127), Int.toNat_natCast, hmask, ne_eq]
    refine if_congr ?_ rfl rfl
    rw [← Bool.not_eq_false]
    exact not_congr hbit
  | other => exact absurd hi (Nat.not_lt_zero i)

theorem matchingBits_eq {w : ℕ} (o : WordOrder w) {k : ℕ} {a b : BitVec w} (hk : k ≤ w)
    (hagree : Agree o.bit k a b) (hmax : count + w ≤ maxlen) (hend : count + w = maxlen ∨ a ≠ b) :
    matchingBits o maxlen a b (topMask w (k + 1)) (count + k) = count + common o.bit w a b := by
  induction hn : w - k generalizing k with
  | zero =>
    obtain rfl : k = w := by omega
    rcases hend with hend | hne
    · rw [matchingBits, if_neg (by omega), common_eq le_rfl hagree (Or.inl rfl)]
    · exact absurd ((o.agree_iff_eq le_rfl a b).mp hagree) hne
  | succ n ih =>
    have hlt : k < w := by omega
    rw [matchingBits]
    split_ifs with hloop
    · have hnext := (o.masked_eq_iff hlt a b).mp hloop.2
      rw [topMask_succ]
      exact ih hlt hnext (by omega)
    · have hdiffer : ¬ Agree o.bit (k + 1) a b := fun h =>
        hloop ⟨by omega, (o.masked_eq_iff hlt a b).mpr h⟩
      rw [common_eq hk hagree (Or.inr fun hbit => hdiffer (agree_succ.mpr ⟨hagree, hbit⟩))]

theorem matchingFields_eq (e : Endian) {xs ys : List (BitVec 16)} (hlen : xs.length = ys.length)
    (hmax : count + xs.length * 16 ≤ maxlen) : matchingFields e maxlen (xs.zip ys) count =
      count + common (ntohs e).wordBit (xs.length * 16) xs ys := by
  induction xs generalizing ys count with
  | nil => rw [length_nil, Nat.zero_mul, Nat.le_zero.mp (common_le 0 [] ys)]; rfl
  | cons x xs ih =>
    cases ys with
    | nil => simp at hlen
    | cons y ys =>
      rw [length_cons, Nat.succ_mul] at hmax ⊢
      rw [zip_cons_cons, matchingFields]
      split_ifs with hxy
      · rw [← hxy, (ntohs e).common_cons_self (by decide), ih (Nat.succ.inj hlen) (by omega)]
        omega
      · rw [(ntohs e).common_cons_ne (by decide) (by omega) hxy]
        exact matchingBits_eq (ntohs e) (Nat.zero_le _) (fun i hi => absurd hi (Nat.not_lt_zero i)) (by omega) (Or.inr hxy)

theorem getMatchingPrefixLength_eq (e : Endian) (hfamily : b.family = a.family) (hip : b.width ≠ 0) :
    getMatchingPrefixLength e a b = common (SockAddr.bit e) b.width a b := by
  rcases SockAddr.same_family hfamily hip with ⟨y, x, rfl, rfl⟩ | ⟨y, x, rfl, rfl⟩
  · have h := matchingBits_eq (ntohl e) (Nat.zero_le 32)
      (fun i hi => absurd hi (Nat.not_lt_zero i) : Agree (ntohl e).bit 0 x y) (le_refl (0 + 32))
      (Or.inl rfl)
    exact congrArg Nat.cast (h.trans (Nat.zero_add _))
  · have h := matchingFields_eq e (by simp : x.toList.length = y.toList.length) (by simp : 0 + x.toList.length * 16 ≤ 128)
    rw [Nat.zero_add, Vector.length_toList] at h
    exact congrArg Nat.cast h

theorem SockAddr.width_ne_zero (h : a.family = afInet ∨ a.family = afInet6) : a.width ≠ 0 := by
  cases a with
  | inet => exact Nat.succ_ne_zero 31
  | inet6 => exact Nat.succ_ne_zero 127
  | other family hf => exact absurd h (not_or.mpr hf)

theorem SockAddr.width_eq (hfamily : a.family = b.family) (hip : a.width ≠ 0) : b.width = a.width := by
  rcases SockAddr.same_family hfamily hip with ⟨x, y, rfl, rfl⟩ | ⟨x, y, rfl, rfl⟩ <;> rfl

theorem SockAddr.lt_width_of_bit {e : Endian} (h : a.bit e i = true) : i < a.width := by
  cases a with
  | inet x => exact (ntohl e).lt_of_bit h
  | inet6 x => simpa [SockAddr.width] using (ntohs e).lt_of_wordBit (by decide) h
  | other => cases h

end Amplet.SocketAddress
