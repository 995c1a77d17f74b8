import Amplet.SocketAddress

/-!
# The trie of AS numbers

Embedding of `iptrie_add`, `iptrie_lookup_as` and `iptrie_to_list` in
`src/common/iptrie.c`. The list is returned, so the field `next` of a node is left out.
A node made by the code stands for a trie of `Amplet.PrefixTrie`; branching nodes have
the AS number 0.
-/

namespace Amplet.AddressTrie
open List Option PrefixTrie SocketAddress

inductive IpTrieNode
  | null
  | node (as : ℤ) (prefixLen : UInt8) (address : SockAddr) (left right : IpTrieNode)

def IpTrieNode.isNull : IpTrieNode → Bool
  | .null => true
  | .node .. => false

structure IpTrie where
  ipv4 : IpTrieNode
  ipv6 : IpTrieNode

def iptrieAddInternal (e : Endian) (address : SockAddr) (prefixLen : UInt8) (as : ℤ) : IpTrieNode → IpTrieNode
  | .null => .node as prefixLen address .null .null
  | .node rootAs rootPrefixLen rootAddress left right =>
    if prefixLen = rootPrefixLen ∧ compareAddresses e rootAddress address prefixLen = 0 then
      .node as rootPrefixLen rootAddress left right
    else
      let matching := getMatchingPrefixLength e rootAddress address
      let len := if matching > rootPrefixLen.toNat then (rootPrefixLen.toNat : ℤ) else matching
      let cmp := getBitAtIndex e address len
      if len < rootPrefixLen.toNat then
        -- the branch for the new address is the call on an empty trie
        let root := IpTrieNode.node rootAs rootPrefixLen rootAddress left right
        let leaf := IpTrieNode.node as prefixLen address .null .null
        if cmp = 0 then .node 0 (UInt8.ofInt len) address leaf root
        else .node 0 (UInt8.ofInt len) address root leaf
      else if cmp = 0 then
        .node rootAs rootPrefixLen rootAddress (iptrieAddInternal e address prefixLen as left) right
      else
        .node rootAs rootPrefixLen rootAddress left (iptrieAddInternal e address prefixLen as right)

def iptrieAdd (e : Endian) (root : IpTrie) (address : SockAddr) (prefixLen : UInt8) (as : ℤ) :
    IpTrie :=
  match address with
  | .inet _ => { root with ipv4 := iptrieAddInternal e address prefixLen as root.ipv4 }
  | .inet6 _ => { root with ipv6 := iptrieAddInternal e address prefixLen as root.ipv6 }
  | .other _ _ => root

def iptrieLookupAsInternal (e : Endian) (address : SockAddr) : IpTrieNode → ℤ
  | .null => -1
  | .node as prefixLen rootAddress left right =>
    if compareAddresses e rootAddress address prefixLen ≠ 0 then -1
    else if left.isNull ∧ right.isNull then as
    else
      let next := getBitAtIndex e address prefixLen.toNat
      if next = 0 ∧ ¬ left.isNull then iptrieLookupAsInternal e address left
      else if next = 1 ∧ ¬ right.isNull then iptrieLookupAsInternal e address right
      else -1

def iptrieLookupAs (e : Endian) (root : IpTrie) (address : SockAddr) : ℤ :=
  match address with
  | .inet _ => iptrieLookupAsInternal e address root.ipv4
  | .inet6 _ => iptrieLookupAsInternal e address root.ipv6
  | .other _ _ => -1

def nodeOf (p : UInt8) : Trie SockAddr ℤ → IpTrieNode
  | .leaf address as => .node as p address .null .null
  | .branch shared address left right =>
    .node 0 (UInt8.ofNat shared) address (nodeOf p left) (nodeOf p right)

@[simp] theorem nodeOf_isNull (p : UInt8) (t : Trie SockAddr ℤ) : (nodeOf p t).isNull = false := by
  cases t <;> rfl

variable {e : Endian} {p : UInt8} {a : SockAddr} {n shared : ℕ}

structure Keeps (e : Endian) (p : UInt8) (a : SockAddr) (t : Trie SockAddr ℤ) : Prop where
  ip : a.width ≠ 0
  valid : t.Valid (SockAddr.bit e) p.toNat
  keys : t.All fun k => a.family = k.family

theorem Keeps.congr {t : Trie SockAddr ℤ} {k : SockAddr} (h : Keeps e p a t) (hk : a.family = k.family) : Keeps e p k t :=
  ⟨SockAddr.width_eq hk h.ip ▸ h.ip, h.valid, h.keys.imp fun _ hkey => hk.symm.trans hkey⟩

theorem Keeps.shared_lt {key : SockAddr} {left right : Trie SockAddr ℤ}
    (h : Keeps e p a (.branch shared key left right)) : shared < a.width := by
  have hbit : right.key.bit e shared = true := h.valid.2.2.2.2.key.2
  rw [← SockAddr.width_eq h.keys.2.2.key h.ip]
  exact SockAddr.lt_width_of_bit hbit

theorem Keeps.shared_toNat {key : SockAddr} {left right : Trie SockAddr ℤ}
    (h : Keeps e p a (.branch shared key left right)) : (UInt8.ofNat shared).toNat = shared :=
  UInt8.toNat_ofNat_of_lt (h.valid.1.trans p.toNat_lt)

theorem common_lt_width {k : SockAddr} (hip : a.width ≠ 0) (hk : a.family = k.family)
    (h : common (SockAddr.bit e) n k a < n) : common (SockAddr.bit e) n k a < a.width := by
  have hdiffer := bit_common_ne h
  cases hbit : a.bit e (common (SockAddr.bit e) n k a) with
  | true => exact SockAddr.lt_width_of_bit hbit
  | false =>
    rw [← SockAddr.width_eq hk hip]
    exact SockAddr.lt_width_of_bit (Bool.eq_true_of_not_eq_false (hbit ▸ hdiffer))

theorem matching_limited {k : SockAddr} (hip : a.width ≠ 0) (hk : a.family = k.family)
    (h : n ≤ a.width ∨ ¬ Agree (SockAddr.bit e) n k a) :
    (if getMatchingPrefixLength e k a > n then (n : ℤ) else getMatchingPrefixLength e k a) = common (SockAddr.bit e) n k a := by
  rw [getMatchingPrefixLength_eq e hk hip]
  rcases (common_le n k a).eq_or_lt with heq | hlt
  · have hagree : Agree (SockAddr.bit e) n k a := agree_of_common heq.not_lt
    have hle := le_common (h.resolve_right (not_not.mpr hagree)) hagree
    split_ifs <;> omega
  · rw [common_eq (common_lt_width hip hk hlt).le (agree_common n k a) (Or.inr (bit_common_ne hlt)), if_neg (by omega)]

theorem nodeOf_join (hn : n < a.width) (as : ℤ) (t : Trie SockAddr ℤ) : (if getBitAtIndex e a n = 0 then
        IpTrieNode.node 0 (UInt8.ofInt n) a (.node as p a .null .null) (nodeOf p t)
      else .node 0 (UInt8.ofInt n) a (nodeOf p t) (.node as p a .null .null)) =
      nodeOf p (t.join (SockAddr.bit e) n a as) := by
  have hlen : UInt8.ofInt n = UInt8.ofNat n := by
    simp only [UInt8.ofInt, ← UInt8.toNat_inj, UInt8.toNat_ofNat']
    omega
  rw [getBitAtIndex_eq e hn, Trie.join, hlen]
  cases a.bit e n <;> rfl

theorem iptrieAddInternal_nodeOf {t : Trie SockAddr ℤ} (ht : Keeps e p a t) (as : ℤ) : iptrieAddInternal e a p as (nodeOf p t) =
      nodeOf p (t.insert (SockAddr.bit e) p.toNat a as) := by
  have hip := ht.ip
  induction t with
  | leaf key value =>
    have hkey : a.family = key.family := ht.keys
    have hcompare := compareAddresses_eq_zero_iff e hkey hip p
    rw [nodeOf, iptrieAddInternal, Trie.insert]
    by_cases hagree : Agree (SockAddr.bit e) p.toNat key a
    · rw [if_pos ⟨rfl, hcompare.mpr hagree⟩, if_pos hagree, nodeOf]
    · have hlt := common_lt hagree
      rw [if_neg fun h => hagree (hcompare.mp h.2), if_neg hagree]
      simp only [matching_limited hip hkey (Or.inr hagree), if_pos (Int.ofNat_lt.mpr hlt)]
      exact nodeOf_join (common_lt_width hip hkey hlt) as (.leaf key value)
  | branch shared key left right ihl ihr =>
    have hkey : a.family = key.family := ht.keys.1
    have hother : p ≠ UInt8.ofNat shared := by
      rintro rfl
      exact ht.valid.1.ne ht.shared_toNat.symm
    rw [nodeOf, iptrieAddInternal, if_neg fun h => hother h.1, Trie.insert]
    simp only [ht.shared_toNat, matching_limited hip hkey (Or.inl ht.shared_lt.le), Nat.cast_lt]
    by_cases hcommon : common (SockAddr.bit e) shared key a < shared
    · rw [if_pos hcommon, if_pos hcommon]
      exact nodeOf_join (common_lt_width hip hkey hcommon) as (.branch shared key left right)
    · have heq : common (SockAddr.bit e) shared key a = shared :=
        (common_le shared key a).antisymm (not_lt.mp hcommon)
      rw [if_neg hcommon, if_neg hcommon, heq, getBitAtIndex_eq e ht.shared_lt,
        ihl ⟨hip, ht.valid.2.1, ht.keys.2.1⟩, ihr ⟨hip, ht.valid.2.2.1, ht.keys.2.2⟩]
      cases a.bit e shared <;> rfl

theorem iptrieLookupAsInternal_nodeOf {t : Trie SockAddr ℤ} (ht : Keeps e p a t) : iptrieLookupAsInternal e a (nodeOf p t) =
      (t.lookup (SockAddr.bit e) p.toNat a).getD (-1) := by
  have hip := ht.ip
  induction t with
  | leaf key value =>
    have hkey : a.family = key.family := ht.keys
    have hcompare := compareAddresses_eq_zero_iff e hkey hip p
    rw [nodeOf, iptrieLookupAsInternal, Trie.lookup]
    by_cases hagree : Agree (SockAddr.bit e) p.toNat key a
    · rw [if_neg (not_not.mpr (hcompare.mpr hagree)), if_pos ⟨rfl, rfl⟩, if_pos hagree]
      rfl
    · rw [if_pos (mt hcompare.mp hagree), if_neg hagree]
      rfl
  | branch shared key left right ihl ihr =>
    have hkey : a.family = key.family := ht.keys.1
    have hcompare := compareAddresses_eq_zero_iff e hkey hip (UInt8.ofNat shared)
    rw [ht.shared_toNat] at hcompare
    rw [nodeOf, iptrieLookupAsInternal, Trie.lookup]
    by_cases hagree : Agree (SockAddr.bit e) shared key a
    · rw [if_neg (not_not.mpr (hcompare.mpr hagree)), if_pos hagree,
        ht.shared_toNat, getBitAtIndex_eq e ht.shared_lt, ihl ⟨hip, ht.valid.2.1, ht.keys.2.1⟩,
        ihr ⟨hip, ht.valid.2.2.1, ht.keys.2.2⟩]
      cases a.bit e shared <;> simp
    · rw [if_pos (mt hcompare.mp hagree), if_neg hagree]
      rfl

def Stored (e : Endian) (p : UInt8) (a : SockAddr) (node : IpTrieNode) : Prop :=
  node = .null ∨ ∃ t, Keeps e p a t ∧ node = nodeOf p t

structure AddCall where
  address : SockAddr
  prefixLen : UInt8
  as : ℤ

def addAll (e : Endian) (adds : List AddCall) : IpTrie :=
  adds.foldl (fun root c => iptrieAdd e root c.address c.prefixLen c.as) ⟨.null, .null⟩

def subtrie (root : IpTrie) : SockAddr → IpTrieNode
  | .inet _ => root.ipv4
  | .inet6 _ => root.ipv6
  | .other _ _ => .null

theorem iptrieLookupAs_eq (root : IpTrie) (a : SockAddr) :
    iptrieLookupAs e root a = iptrieLookupAsInternal e a (subtrie root a) := by
  cases a <;> rfl

theorem addAll_concat (adds : List AddCall) (c : AddCall) :
    addAll e (adds ++ [c]) = iptrieAdd e (addAll e adds) c.address c.prefixLen c.as := by
  rw [addAll, foldl_append]
  rfl

theorem subtrie_add_same (root : IpTrie) {c : AddCall} (hip : a.width ≠ 0) (hfamily : a.family = c.address.family) :
    subtrie (iptrieAdd e root c.address c.prefixLen c.as) a =
      iptrieAddInternal e c.address c.prefixLen c.as (subtrie root a) := by
  rcases SockAddr.same_family hfamily hip with ⟨x, y, rfl, hc⟩ | ⟨x, y, rfl, hc⟩ <;>
    rw [hc] <;> rfl

theorem subtrie_add_other (root : IpTrie) {c : AddCall} (hfamily : a.family ≠ c.address.family) :
    subtrie (iptrieAdd e root c.address c.prefixLen c.as) a = subtrie root a := by
  obtain ⟨address, prefixLen, as⟩ := c
  cases a <;> cases address <;> first | rfl | exact absurd rfl hfamily

/-- The last AS number added for an address with the first `n` bits of `a`. -/
def recentAs (e : Endian) (n : ℕ) (adds : List AddCall) (a : SockAddr) : Option ℤ :=
  (adds.reverse.find? fun c =>
    a.family = c.address.family ∧ Agree (SockAddr.bit e) n c.address a).map AddCall.as

theorem recentAs_concat (n : ℕ) (adds : List AddCall) (c : AddCall) (k : SockAddr) : recentAs e n (adds ++ [c]) k =
      if k.family = c.address.family ∧ Agree (SockAddr.bit e) n c.address k then some c.as
      else recentAs e n adds k := by
  rw [recentAs, reverse_append, reverse_singleton, singleton_append]
  split_ifs with hc
  · rw [find?_cons_of_pos (by simpa using hc)]
    rfl
  · rw [find?_cons_of_neg (by simpa using hc), recentAs]

variable {adds : List AddCall}

theorem recentAs_some {as : ℤ} (h : recentAs e n adds a = some as) :
    ∃ c ∈ adds, a.family = c.address.family ∧ Agree (SockAddr.bit e) n c.address a ∧ c.as = as := by
  obtain ⟨c, hfind, rfl⟩ := map_eq_some_iff.mp h
  have hc := find?_some hfind
  simp only [decide_eq_true_eq] at hc
  exact ⟨c, mem_reverse.mp (mem_of_find?_eq_some hfind), hc.1, hc.2, rfl⟩

theorem recentAs_isSome {c : AddCall} (hc : c ∈ adds) : ∃ as, recentAs e n adds c.address = some as := by
  refine isSome_iff_exists.mp ?_
  rw [recentAs, isSome_map, find?_isSome]
  exact ⟨c, mem_reverse.mpr hc, by simp [Agree]⟩

section

variable (hip : a.width ≠ 0) (hlength : ∀ c ∈ adds, a.family = c.address.family → c.prefixLen = p)
include hip hlength

theorem addAll_represents : (subtrie (addAll e adds) a = .null ∧ ∀ k, a.family = k.family → recentAs e p.toNat adds k = none) ∨
      ∃ t, Keeps e p a t ∧ subtrie (addAll e adds) a = nodeOf p t ∧ ∀ k, a.family = k.family →
          t.lookup (SockAddr.bit e) p.toNat k = recentAs e p.toNat adds k := by
  induction adds using reverseRecOn with
  | nil => exact Or.inl ⟨by cases a <;> rfl, fun _ _ => rfl⟩
  | append_singleton adds c ih =>
    have ih := ih fun d hd => hlength d (mem_append_left _ hd)
    rw [addAll_concat]
    simp only [recentAs_concat]
    by_cases hfamily : a.family = c.address.family
    · obtain rfl := hlength c (by simp) hfamily
      have hip' : c.address.width ≠ 0 := SockAddr.width_eq hfamily hip ▸ hip
      right
      rw [subtrie_add_same _ hip hfamily]
      rcases ih with ⟨hnull, hnone⟩ | ⟨t, ht, hnode, hlookup⟩
      · refine ⟨.leaf c.address c.as, ⟨hip, trivial, hfamily⟩, by rw [hnull]; rfl, fun k hk => ?_⟩
        rw [Trie.lookup, hnone k hk]
        simp only [← hk, hfamily, true_and]
      · refine ⟨t.insert (SockAddr.bit e) c.prefixLen.toNat c.address c.as,
          ⟨hip, Trie.valid_insert ht.valid, Trie.all_insert hfamily ht.keys⟩, ?_, fun k hk => ?_⟩
        · rw [hnode, iptrieAddInternal_nodeOf (ht.congr hfamily)]
        · rw [Trie.lookup_insert ht.valid, hlookup k hk]
          simp only [← hk, hfamily, true_and]
    · rw [subtrie_add_other _ hfamily]
      have hother {k : SockAddr} (hk : a.family = k.family) : ¬(k.family = c.address.family ∧
            Agree (SockAddr.bit e) p.toNat c.address k) := fun h => hfamily (hk.trans h.1)
      rcases ih with ⟨hnull, hnone⟩ | ⟨t, ht, hnode, hlookup⟩
      · exact Or.inl ⟨hnull, fun k hk => by rw [if_neg (hother hk), hnone k hk]⟩
      · exact Or.inr ⟨t, ht, hnode, fun k hk => by rw [if_neg (hother hk), hlookup k hk]⟩

theorem lookup_addAll : Stored e p a (subtrie (addAll e adds) a) ∧ iptrieLookupAsInternal e a (subtrie (addAll e adds) a) =
        (recentAs e p.toNat adds a).getD (-1) := by
  rcases addAll_represents hip hlength with ⟨hnull, hnone⟩ | ⟨t, ht, hnode, hlookup⟩
  · rw [hnull, hnone a rfl]
    exact ⟨Or.inl rfl, rfl⟩
  · rw [hnode, ← hlookup a rfl]
    exact ⟨Or.inr ⟨t, ht, rfl⟩, iptrieLookupAsInternal_nodeOf ht⟩

end

theorem subtrie_filter (adds : List AddCall) (hip : a.width ≠ 0) :
    subtrie (addAll e (adds.filter fun c => a.family = c.address.family)) a = subtrie (addAll e adds) a := by
  induction adds using reverseRecOn with
  | nil => rfl
  | append_singleton adds c ih =>
    rw [filter_append, addAll_concat]
    by_cases hfamily : a.family = c.address.family
    · rw [filter_cons_of_pos (by simpa using hfamily), filter_nil, addAll_concat,
        subtrie_add_same _ hip hfamily, subtrie_add_same _ hip hfamily, ih]
    · rw [filter_cons_of_neg (by simpa using hfamily), filter_nil, append_nil, subtrie_add_other _ hfamily, ih]

theorem iptrieLookupAs_recent (e : Endian) (p4 p6 : UInt8) {adds : List AddCall}
    (h4 : ∀ c ∈ adds, c.address.family = afInet → c.prefixLen = p4)
    (h6 : ∀ c ∈ adds, c.address.family = afInet6 → c.prefixLen = p6) (a : SockAddr) :
    (a.family = afInet → iptrieLookupAs e (addAll e adds) a = (recentAs e p4.toNat adds a).getD (-1)) ∧
    (a.family = afInet6 → iptrieLookupAs e (addAll e adds) a = (recentAs e p6.toNat adds a).getD (-1)) ∧
    iptrieLookupAs e (addAll e (adds.filter fun c => a.family = c.address.family)) a = iptrieLookupAs e (addAll e adds) a := by
  rw [iptrieLookupAs_eq, iptrieLookupAs_eq]
  refine ⟨fun hfamily => ?_, fun hfamily => ?_, ?_⟩
  · exact (lookup_addAll (SockAddr.width_ne_zero (Or.inl hfamily)) fun c hc h => h4 c hc (h ▸ hfamily)).2
  · exact (lookup_addAll (SockAddr.width_ne_zero (Or.inr hfamily)) fun c hc h => h6 c hc (h ▸ hfamily)).2
  · cases a with
    | inet => rw [subtrie_filter adds (SockAddr.width_ne_zero (Or.inl rfl))]
    | inet6 => rw [subtrie_filter adds (SockAddr.width_ne_zero (Or.inr rfl))]
    | other => rfl

def leaves : IpTrieNode → List AddCall
  | .null => []
  | .node as prefixLen address left right =>
    if left.isNull ∧ right.isNull then [⟨address, prefixLen, as⟩]
    else leaves left ++ leaves right

def iptrieLeaves (root : IpTrie) : List AddCall := leaves root.ipv4 ++ leaves root.ipv6

def iptrieToList (root : IpTrie) : List SockAddr :=
  ((iptrieLeaves root).map AddCall.address).reverse

theorem leaves_nodeOf (p : UInt8) (t : Trie SockAddr ℤ) :
    leaves (nodeOf p t) = t.leaves.map fun entry => ⟨entry.1, p, entry.2⟩ := by
  induction t with
  | leaf address as => rfl
  | branch shared address left right ihl ihr =>
    rw [nodeOf, leaves, nodeOf_isNull, if_neg (by simp), ihl, ihr, Trie.leaves, map_append]

theorem leaves_addAll (hip : a.width ≠ 0) (hlength : ∀ c ∈ adds, a.family = c.address.family → c.prefixLen = p) :
    (leaves (subtrie (addAll e adds) a)).Pairwise (fun c d => ¬ Agree (SockAddr.bit e) p.toNat c.address d.address) ∧
      (∀ c ∈ leaves (subtrie (addAll e adds) a), a.family = c.address.family ∧ c.prefixLen = p) ∧
      ∀ k, a.family = k.family → ∀ as, recentAs e p.toNat adds k = some as ↔ ∃ c ∈ leaves (subtrie (addAll e adds) a),
          Agree (SockAddr.bit e) p.toNat c.address k ∧ c.as = as := by
  rcases addAll_represents hip hlength with ⟨hnull, hnone⟩ | ⟨t, ht, hnode, hlookup⟩
  · rw [hnull]
    refine ⟨Pairwise.nil, by simp [leaves], fun k hk as => ?_⟩
    simp [hnone k hk, leaves]
  · rw [hnode, leaves_nodeOf]
    refine ⟨pairwise_map.mpr ht.valid.leaves_pairwise, ?_, fun k hk as => ?_⟩
    · intro c hc
      obtain ⟨entry, hentry, rfl⟩ := mem_map.mp hc
      exact ⟨ht.keys.of_leaf hentry, rfl⟩
    · rw [← hlookup k hk, Trie.lookup_eq_some_iff ht.valid]
      constructor
      · rintro ⟨key, hmem, hagree⟩
        exact ⟨_, mem_map_of_mem hmem, hagree, rfl⟩
      · rintro ⟨c, hc, hagree, rfl⟩
        obtain ⟨entry, hentry, rfl⟩ := mem_map.mp hc
        exact ⟨entry.1, hentry, hagree⟩

/-- 192.0.2.0 (twice), 192.0.3.0 and 2001:db8::, as a little endian machine loads them. -/
def documentationAdds : List AddCall :=
  [⟨.inet 0x010200c0#32, 24, 64500⟩, ⟨.inet 0x010300c0#32, 24, 64501⟩,
    ⟨.inet6 #v[0x0120#16, 0xb80d#16, 0, 0, 0, 0, 0, 0x0100#16], 64, 64502⟩,
    ⟨.inet 0x020200c0#32, 24, 64503⟩]

theorem documentation_networks_found : iptrieLookupAs .little (addAll .little documentationAdds) (.inet 0x090200c0#32) = 64503 ∧
      iptrieLookupAs .little (addAll .little documentationAdds) (.inet 0x090400c0#32) = -1 := by
  have h4 : ∀ c ∈ documentationAdds, c.address.family = afInet → c.prefixLen = 24 := by decide
  have h6 : ∀ c ∈ documentationAdds, c.address.family = afInet6 → c.prefixLen = 64 := by decide
  constructor
  · rw [(iptrieLookupAs_recent .little 24 64 h4 h6 _).1 rfl]
    decide +kernel
  · rw [(iptrieLookupAs_recent .little 24 64 h4 h6 _).1 rfl]
    decide +kernel

end Amplet.AddressTrie
