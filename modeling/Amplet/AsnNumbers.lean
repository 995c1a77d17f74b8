import Amplet.AsnWorker

/-!
# AS numbers on their way from an answer to the tries

The number of a line passes `atoi` in `add_parsed_line`, the tries, and the `int`
of `check_asn_cache` in `src/measured/asnsock.c`. A number comes back from a trie
as what was added last for its prefix.
-/

namespace Amplet.AsnNumbers
open List Option Bytes SocketAddress PrefixTrie AddressTrie AsnLines AsnWorker Delimited

def trieOf (e : Endian) (xs : List (SockAddr × ℤ)) : IpTrie := xs.foldl (addEntry e) ⟨.null, .null⟩

def addLine (e : Endian) (inet : Inet) (result cache : IpTrie) (line : CStr) : Option (IpTrie × IpTrie) :=
  (addParsedLine inet line 0).map fun (_, x) => (addEntry e result x, addEntry e cache x)

structure NumberLine (inet : Inet) (a : SockAddr) (n : ℤ) (line : CStr) : Prop where
  terminated : 0 ∉ line
  fields : ∃ number field others name rest, tokens bar line = number :: field :: others ∧
    strtol number = n ∧ tokens space field = name :: rest ∧ inet.parse name = some a

section Lookup

variable {e : Endian} {inet : Inet} {a b : SockAddr} {n : ℤ} {line : CStr}

theorem Inet.parse_ip {name : CStr} (h : inet.parse name = some a) : a.width ≠ 0 := by
  rw [Inet.parse] at h
  cases hfour : inet.pton4 name with
  | some x =>
    rw [hfour] at h
    cases h
    exact SockAddr.width_ne_zero (.inl rfl)
  | none =>
    rw [hfour] at h
    obtain ⟨x, -, rfl⟩ := map_eq_some_iff.mp h
    exact SockAddr.width_ne_zero (.inr rfl)

theorem NumberLine.parsed (h : NumberLine inet a n line) : parsedLine inet line = some (a, n.bmod (2 ^ 32)) := by
  obtain ⟨number, field, others, name, rest, hfields, hnumber, hnames, hparse⟩ := h.fields
  simp only [parsedLine, hfields, hnames, hparse, map_some, atoi, hnumber]

theorem NumberLine.ip (h : NumberLine inet a n line) : a.width ≠ 0 := by
  obtain ⟨_, _, _, _, _, _, _, _, hparse⟩ := h.fields
  exact Inet.parse_ip hparse

theorem NumberLine.addLine (h : NumberLine inet a n line) (result cache : IpTrie) : addLine e inet result cache line =
      some (addEntry e result (a, n.bmod (2 ^ 32)), addEntry e cache (a, n.bmod (2 ^ 32))) := by
  have hline : stringAt line 0 = line := by
    have hmem : line = [] ++ (line ++ []) := by simp
    exact stringAt_eq h.terminated (by simp) hmem
  have hparsed : parsedLine inet (stringAt line 0) = some (a, n.bmod (2 ^ 32)) := by
    rw [hline, h.parsed]
  obtain ⟨mem, hadd, -, -⟩ := addParsedLine_some hparsed
  rw [AsnNumbers.addLine, hadd]
  rfl

theorem recentAs_append {adds later : List AddCall} {k : ℕ}
    (h : ∀ c ∈ later, ¬ (b.family = c.address.family ∧ Agree (SockAddr.bit e) k c.address b)) :
    recentAs e k (adds ++ later) b = recentAs e k adds b := by
  induction later using reverseRecOn with
  | nil => rw [append_nil]
  | append_singleton later c ih =>
    rw [← append_assoc, recentAs_concat, if_neg (h c (by simp)), ih fun d hd => h d (mem_append_left _ hd)]

theorem iptrieLookupAs_trieOf {xs later : List (SockAddr × ℤ)} {as : ℤ} (hip : a.width ≠ 0)
    (hab : SamePrefix e a b) (hlater : ∀ x ∈ later, ¬ SamePrefix e a x.1) :
    iptrieLookupAs e (trieOf e (xs ++ (a, as) :: later)) b = as := by
  have hipb : b.width ≠ 0 := SockAddr.width_eq hab.1 hip ▸ hip
  have hlength : ∀ c ∈ calls (xs ++ (a, as) :: later), b.family = c.address.family → c.prefixLen = prefixFor b := by
    intro c hc hfamily
    obtain ⟨x, -, rfl⟩ := mem_map.mp hc
    exact (prefixFor_eq hfamily hipb).symm
  have hsplit : calls (xs ++ (a, as) :: later) = (calls xs ++ [⟨a, prefixFor a, as⟩]) ++ calls later := by
    simp [calls]
  have hnone : ∀ c ∈ calls later, ¬ (b.family = c.address.family ∧ Agree (SockAddr.bit e) (prefixFor b).toNat c.address b) := by
    rintro c hc ⟨hfamily, hagree⟩
    obtain ⟨x, hx, rfl⟩ := mem_map.mp hc
    exact hlater x hx (hab.trans ⟨hfamily, hagree.symm⟩ hip)
  have hsame : b.family = a.family ∧ Agree (SockAddr.bit e) (prefixFor b).toNat a b :=
    ⟨hab.1.symm, prefixFor_eq hab.1 hip ▸ hab.2⟩
  rw [iptrieLookupAs_eq, trieOf, foldl_addEntry, (lookup_addAll hipb hlength).2, hsplit,
    recentAs_append hnone, recentAs_concat, if_pos hsame]
  rfl

theorem samePrefix_refl (e : Endian) (a : SockAddr) : SamePrefix e a a := ⟨rfl, fun _ _ => rfl⟩

theorem trieOf_concat (xs : List (SockAddr × ℤ)) (x : SockAddr × ℤ) : addEntry e (trieOf e xs) x = trieOf e (xs ++ [x]) := by
  rw [trieOf, trieOf, foldl_append]
  rfl

end Lookup

/-- By lookups, and by a later `check_asn_cache` for an address of the same prefix. -/
structure Survives (e : Endian) (a : SockAddr) (n : ℤ) (result cache : IpTrie) : Prop where
  found : iptrieLookupAs e result a = n
  cached : iptrieLookupAs e cache a = n
  hit : ∀ later : List (SockAddr × ℤ), (∀ x ∈ later, ¬ SamePrefix e a x.1) → ∀ b, SamePrefix e a b → ∀ zs, ∃ result',
      checkAsnCache e (later.foldl (addEntry e) cache) (trieOf e zs) b = some result' ∧
      result' = addEntry e (trieOf e zs) (b, n) ∧ iptrieLookupAs e result' b = n

section Results

variable {e : Endian} {inet : Inet} {a : SockAddr} {line : CStr}

theorem survives_of_lt {n : ℤ} (hip : a.width ≠ 0) (hpos : 0 ≤ n) (hlt : n < 2 ^ 31) (xs ys : List (SockAddr × ℤ)) :
    Survives e a n (addEntry e (trieOf e xs) (a, n)) (addEntry e (trieOf e ys) (a, n)) := by
  have hnone : ∀ x ∈ ([] : List (SockAddr × ℤ)), ¬ SamePrefix e a x.1 := by simp
  rw [trieOf_concat, trieOf_concat]
  refine ⟨iptrieLookupAs_trieOf hip (samePrefix_refl e a) hnone,
    iptrieLookupAs_trieOf hip (samePrefix_refl e a) hnone, fun later hlater b hab zs => ?_⟩
  have hipb : b.width ≠ 0 := SockAddr.width_eq hab.1 hip ▸ hip
  have hcache : later.foldl (addEntry e) (trieOf e (ys ++ [(a, n)])) = trieOf e (ys ++ (a, n) :: later) := by
    rw [trieOf, trieOf, ← foldl_append, append_assoc, singleton_append]
  have hint : n.bmod (2 ^ 32) = n := Int.bmod_eq_of_le (by omega) (by omega)
  refine ⟨addEntry e (trieOf e zs) (b, n), ?_, rfl, ?_⟩
  · rw [hcache, checkAsnCache, iptrieLookupAs_trieOf hip hab hlater, hint, if_neg (not_lt.mpr hpos)]
    rfl
  · rw [trieOf_concat]
    exact iptrieLookupAs_trieOf hipb (samePrefix_refl e b) (by simp)

theorem as_number_survives_iff {n : ℕ} (hn : n < 2 ^ 32) (h : NumberLine inet a n line) (xs ys : List (SockAddr × ℤ)) :
    (∃ result cache, addLine e inet (trieOf e xs) (trieOf e ys) line = some (result, cache) ∧
      Survives e a n result cache) ↔ n < 2 ^ 31 := by
  have hadd := h.addLine (e := e) (trieOf e xs) (trieOf e ys)
  constructor
  · rintro ⟨result, cache, hsome, hsurvives⟩
    obtain ⟨rfl, rfl⟩ := Prod.mk.inj (some.inj (hadd.symm.trans hsome))
    have hfound := hsurvives.found
    rw [trieOf_concat, iptrieLookupAs_trieOf h.ip (samePrefix_refl e a) (by simp)] at hfound
    -- an int is below 2^31
    have hlt := Int.bmod_lt (x := (n : ℤ)) (m := 2 ^ 32) (by norm_num)
    rw [hfound] at hlt
    norm_num at hlt
    exact_mod_cast hlt
  · intro hlt
    have hint : (n : ℤ).bmod (2 ^ 32) = n := Int.bmod_eq_of_le (by omega) (by omega)
    rw [hint] at hadd
    exact ⟨_, _, hadd, survives_of_lt h.ip (Int.natCast_nonneg n) (by exact_mod_cast hlt) xs ys⟩

end Results

theorem documentationLine_number : NumberLine (libcInet .little) documentationHost 64500 documentationLine := by
  exact ⟨by decide +kernel, cstr "64500   ", cstr " 192.0.2.1        ", [cstr " EXAMPLE-AS"], cstr "192.0.2.1",
    [], by decide +kernel, by decide +kernel, by decide +kernel, parse_documentationHost⟩

theorem documentation_number_survives : ∃ result cache,
    addLine .little (libcInet .little) (trieOf .little []) (trieOf .little []) documentationLine =
      some (result, cache) ∧ Survives .little documentationHost 64500 result cache :=
  (as_number_survives_iff (by norm_num) documentationLine_number [] []).mpr (by norm_num)

def privateLine : CStr := cstr "4200000000 | 192.0.2.1        | EXAMPLE-AS"

theorem private_number_lost : ∃ result cache,
    addLine .little (libcInet .little) (trieOf .little []) (trieOf .little []) privateLine = some (result, cache) ∧
      iptrieLookupAs .little result documentationHost = -94967296 ∧
      checkAsnCache .little cache (trieOf .little []) documentationHost = none ∧
      ¬ Survives .little documentationHost 4200000000 result cache := by
  have hline : NumberLine (libcInet .little) documentationHost 4200000000 privateLine := by
    exact ⟨by decide +kernel, cstr "4200000000 ", cstr " 192.0.2.1        ", [cstr " EXAMPLE-AS"],
      cstr "192.0.2.1", [], by decide +kernel, by decide +kernel, by decide +kernel, parse_documentationHost⟩
  have hfound : iptrieLookupAs .little (addEntry .little (trieOf .little [])
      (documentationHost, (4200000000 : ℤ).bmod (2 ^ 32))) documentationHost = -94967296 := by
    decide +kernel
  refine ⟨_, _, hline.addLine _ _, hfound, ?_, fun h => ?_⟩
  · rw [checkAsnCache, hfound]
    rfl
  · have hlost := h.found
    rw [hfound] at hlost
    exact absurd hlost (by norm_num)

end Amplet.AsnNumbers
