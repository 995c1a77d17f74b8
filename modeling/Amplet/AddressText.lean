import Amplet.Numerals
import Amplet.SocketAddress

/-!
# Addresses as text

What `inet_ntop` writes and `inet_pton` reads: four decimal numbers without leading
zeros between dots, or eight groups of hexadecimal digits between colons. The short form
`::` for groups of zeros is left out.
-/

namespace Amplet.AddressText
open Bytes Numerals SocketAddress
open List hiding Vector

def colon : UInt8 := 58

def octet (part : CStr) : Option ℕ :=
  let n := valueOf 10 part
  if n < 256 ∧ part = numeral 10 n then some n else none

def group (part : CStr) : Option ℕ :=
  if part ≠ [] ∧ part.length ≤ 4 ∧ part.all (digitValue · < 16) then some (valueOf 16 part) else none

def octets (n : ℕ) : List ℕ := [n / 256 ^ 3 % 256, n / 256 ^ 2 % 256, n / 256 % 256, n % 256]

def groups (e : Endian) (v : Vector (BitVec 16) 8) : List ℕ :=
  v.toList.map fun word => ((ntohs e).swap word).toNat

def inetNtop (e : Endian) : SockAddr → CStr
  | .inet x => [dot].intercalate ((octets ((ntohl e).swap x).toNat).map (numeral 10))
  | .inet6 v => [colon].intercalate ((groups e v).map (numeral 16))
  | .other _ _ => []

def inetPton4 (e : Endian) (text : CStr) : Option (BitVec 32) :=
  match (text.splitOn dot).mapM octet with
  | some [a, b, c, d] => some ((ntohl e).swap (BitVec.ofNat 32 (((a * 256 + b) * 256 + c) * 256 + d)))
  | _ => none

def inetPton6 (e : Endian) (text : CStr) : Option (Vector (BitVec 16) 8) :=
  match (text.splitOn colon).mapM group with
  | some words =>
    if words.length = 8 then
      some (Vector.ofFn fun i => (ntohs e).swap (BitVec.ofNat 16 (words.getD i 0)))
    else none
  | none => none

section

variable {b c : UInt8} {n base : ℕ}

theorem octet_numeral (h : n < 256) : octet (numeral 10 n) = some n := by
  have hvalue : valueOf 10 (numeral 10 n) = n := valueOf_numeral (by decide) (by decide) n
  simp only [octet, hvalue]
  rw [if_pos ⟨h, trivial⟩]

theorem digitValue_lt_of_mem (hbase : 1 < base) (hmax : base ≤ 36) (hb : b ∈ numeral base n) : digitValue b < base := by
  obtain ⟨d, hd, rfl⟩ := numeral_digit hbase hmax hb
  rwa [digitValue_digitChar (by omega)]

theorem group_numeral (h : n < 2 ^ 16) : group (numeral 16 n) = some n := by
  have hlength : (numeral 16 n).length ≤ 4 := by
    rw [numeral]
    split_ifs
    · decide
    · rw [length_map, length_reverse]
      exact (Nat.digits_length_le_iff (by decide) n).mpr h
  have hdigits : (numeral 16 n).all (digitValue · < 16) = true := by
    simpa using fun b => digitValue_lt_of_mem (by decide) (by decide)
  rw [group, if_pos ⟨numeral_ne_nil, hlength, hdigits⟩,
    valueOf_numeral (by decide) (by decide)]

theorem mapM_splitOn_intercalate {text : ℕ → CStr} {read : CStr → Option ℕ} {ns : List ℕ} (hne : ns ≠ [])
    (hc : ∀ n ∈ ns, c ∉ text n) (hread : ∀ n ∈ ns, read (text n) = some n) :
    (([c].intercalate (ns.map text)).splitOn c).mapM read = some ns := by
  rw [splitOn_intercalate c (by simpa using hc) (by simpa using hne)]
  clear hne hc
  induction ns with
  | nil => rfl
  | cons n ns ih =>
    rw [map_cons, mapM_cons, hread n (mem_cons_self ..), ih fun m hm => hread m (mem_cons_of_mem _ hm)]
    rfl

theorem numeral_notMem (hb : 16 ≤ digitValue b) (hbase : 1 < base) (hmax : base ≤ 16) : b ∉ numeral base n := fun hmem => by
  have hlt := digitValue_lt_of_mem hbase (by omega) hmem
  omega

theorem intercalate_notMem (hb : b ≠ c) {words : List CStr} (hwords : ∀ word ∈ words, b ∉ word) : b ∉ [c].intercalate words := by
  induction words with
  | nil => exact not_mem_nil
  | cons word words ih =>
    have ih := ih fun w hw => hwords w (mem_cons_of_mem _ hw)
    have hword := hwords word (mem_cons_self ..)
    by_cases hnil : words = []
    · rw [hnil, intercalate_singleton]
      exact hword
    · rw [intercalate_cons_of_ne_nil hnil]
      simp only [mem_append, mem_singleton, not_or]
      exact ⟨⟨hword, hb⟩, ih⟩

theorem inetNtop_notMem (e : Endian) (a : SockAddr) (hb : 16 ≤ digitValue b) (hdot : b ≠ dot)
    (hcolon : b ≠ colon) : b ∉ inetNtop e a := by
  cases a with
  | inet x =>
    refine intercalate_notMem hdot fun word hword => ?_
    obtain ⟨n, -, rfl⟩ := mem_map.mp hword
    exact numeral_notMem hb (by decide) (by decide)
  | inet6 v =>
    refine intercalate_notMem hcolon fun word hword => ?_
    obtain ⟨n, -, rfl⟩ := mem_map.mp hword
    exact numeral_notMem hb (by decide) (by decide)
  | other family h => exact not_mem_nil

theorem inetPton4_inetNtop (e : Endian) (x : BitVec 32) : inetPton4 e (inetNtop e (.inet x)) = some x := by
  have hread : ∀ n ∈ octets ((ntohl e).swap x).toNat, octet (numeral 10 n) = some n := by
    intro n hn
    apply octet_numeral
    simp only [octets, mem_cons, not_mem_nil, or_false] at hn
    omega
  have hparts : ((inetNtop e (.inet x)).splitOn dot).mapM octet = some (octets ((ntohl e).swap x).toNat) :=
    mapM_splitOn_intercalate (cons_ne_nil _ _) (fun n _ => numeral_notMem (by decide) (by decide) (by decide)) hread
  have hsum : ((((ntohl e).swap x).toNat / 256 ^ 3 % 256 * 256 + ((ntohl e).swap x).toNat / 256 ^ 2 % 256) * 256 +
      ((ntohl e).swap x).toNat / 256 % 256) * 256 + ((ntohl e).swap x).toNat % 256 = ((ntohl e).swap x).toNat := by
    have hlt := ((ntohl e).swap x).isLt
    omega
  rw [inetPton4, hparts]
  simp only [octets, hsum, BitVec.ofNat_toNat, BitVec.setWidth_eq, (ntohl e).swap_swap]

theorem inetPton4_groups (e : Endian) (v : Vector (BitVec 16) 8) : inetPton4 e (inetNtop e (.inet6 v)) = none := by
  have hdot : dot ∉ inetNtop e (.inet6 v) := by
    refine intercalate_notMem (by decide) fun word hword => ?_
    obtain ⟨n, -, rfl⟩ := mem_map.mp hword
    exact numeral_notMem (by decide) (by decide) (by decide)
  rw [inetPton4, splitOn_eq_singleton hdot, mapM_cons]
  cases octet (inetNtop e (.inet6 v)) <;> rfl

theorem inetPton6_inetNtop (e : Endian) (v : Vector (BitVec 16) 8) : inetPton6 e (inetNtop e (.inet6 v)) = some v := by
  have hlength : (groups e v).length = 8 := by simp [groups]
  have hread : ∀ n ∈ groups e v, group (numeral 16 n) = some n := by
    intro n hn
    obtain ⟨word, -, rfl⟩ := mem_map.mp hn
    exact group_numeral ((ntohs e).swap word).isLt
  have hparts : ((inetNtop e (.inet6 v)).splitOn colon).mapM group = some (groups e v) :=
    mapM_splitOn_intercalate (ne_nil_of_length_pos (by omega))
      (fun n _ => numeral_notMem (by decide) (by decide) (by decide)) hread
  rw [inetPton6, hparts]
  dsimp only
  rw [if_pos hlength, Option.some.injEq]
  ext1 i hi
  rw [Vector.getElem_ofFn]
  simp [groups, hi, (ntohs e).swap_swap]

end

end Amplet.AddressText
