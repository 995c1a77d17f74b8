import Amplet.AddressTrie
import Amplet.LinkedList

/-!
# Walking over the trie of AS numbers

Embedding of `iptrie_on_all_leaves` and `iptrie_to_list` in `src/common/iptrie.c`. A
node is named by the way to it, which is also the pointer that the field `next` of
another node holds.
-/

namespace Amplet.TrieWalk
open List PrefixTrie SocketAddress AddressTrie LinkedList

abbrev Pointer := List Bool

structure Leaf where
  pointer : Pointer
  entry : AddCall

variable {σ : Type*}

def inTurn (first second : σ → ℤ × σ) (data : σ) : ℤ × σ :=
  let (result, data) := first data
  if result < 0 then (-1, data)
  else
    let (result, data) := second data
    if result < 0 then (-1, data) else (0, data)

def iptrieOnAllLeavesInternal (func : Leaf → σ → ℤ × σ) : Pointer → IpTrieNode → σ → ℤ × σ
  | _, .null, data => (0, data)
  | pointer, .node as prefixLen address left right, data =>
    if left.isNull ∧ right.isNull then func ⟨pointer, ⟨address, prefixLen, as⟩⟩ data
    else
      inTurn (iptrieOnAllLeavesInternal func (pointer ++ [false]) left)
        (iptrieOnAllLeavesInternal func (pointer ++ [true]) right) data

def iptrieOnAllLeaves (func : Leaf → σ → ℤ × σ) (root : IpTrie) (data : σ) : ℤ × σ :=
  inTurn (iptrieOnAllLeavesInternal func [false] root.ipv4) (iptrieOnAllLeavesInternal func [true] root.ipv6) data

structure Links where
  next : Pointer → Option Pointer
  head : Option Pointer

def iptrieToListInternal (node : Leaf) (links : Links) : ℤ × Links :=
  (0, ⟨Function.update links.next node.pointer links.head, some node.pointer⟩)

def iptrieToListLinks (root : IpTrie) (next : Pointer → Option Pointer) : Links :=
  (iptrieOnAllLeaves iptrieToListInternal root ⟨next, none⟩).2

def callEach (func : Leaf → σ → ℤ × σ) : List Leaf → σ → ℤ × σ
  | [], data => (0, data)
  | node :: nodes, data =>
    if (func node data).1 < 0 then (-1, (func node data).2)
    else callEach func nodes (func node data).2

def nodesOf : Pointer → IpTrieNode → List Leaf
  | _, .null => []
  | pointer, .node as prefixLen address left right =>
    if left.isNull ∧ right.isNull then [⟨pointer, ⟨address, prefixLen, as⟩⟩]
    else nodesOf (pointer ++ [false]) left ++ nodesOf (pointer ++ [true]) right

def iptrieNodes (root : IpTrie) : List Leaf := nodesOf [false] root.ipv4 ++ nodesOf [true] root.ipv6

theorem nodesOf_entries (pointer : Pointer) (t : IpTrieNode) : (nodesOf pointer t).map Leaf.entry = leaves t := by
  induction t generalizing pointer with
  | null => rfl
  | node as prefixLen address left right ihl ihr =>
    rw [nodesOf, leaves]
    split_ifs
    · rfl
    · rw [map_append, ihl, ihr]

theorem iptrieNodes_entries (root : IpTrie) : (iptrieNodes root).map Leaf.entry = iptrieLeaves root := by
  rw [iptrieNodes, map_append, nodesOf_entries, nodesOf_entries, iptrieLeaves]

theorem nodesOf_below {pointer : Pointer} {t : IpTrieNode} {n : Leaf} (hn : n ∈ nodesOf pointer t) : pointer <+: n.pointer := by
  induction t generalizing pointer with
  | null => cases hn
  | node as prefixLen address left right ihl ihr =>
    rw [nodesOf] at hn
    split_ifs at hn
    · rw [mem_singleton.mp hn]
    · rcases mem_append.mp hn with hn | hn
      · exact (prefix_append _ _).trans (ihl hn)
      · exact (prefix_append _ _).trans (ihr hn)

theorem pointer_ne (pointer : Pointer) {m n : Leaf} (hm : pointer ++ [false] <+: m.pointer)
    (hn : pointer ++ [true] <+: n.pointer) : m.pointer ≠ n.pointer := by
  obtain ⟨x, hx⟩ := hm
  obtain ⟨y, hy⟩ := hn
  intro heq
  rw [← hx, ← hy, append_assoc, append_assoc] at heq
  have htail := append_cancel_left heq
  simp at htail

theorem nodesOf_pairwise (pointer : Pointer) (t : IpTrieNode) :
    (nodesOf pointer t).Pairwise fun m n => m.pointer ≠ n.pointer := by
  induction t generalizing pointer with
  | null => exact Pairwise.nil
  | node as prefixLen address left right ihl ihr =>
    rw [nodesOf]
    split_ifs
    · exact pairwise_singleton _ _
    · exact pairwise_append.mpr ⟨ihl _, ihr _, fun m hm n hn =>
        pointer_ne _ (nodesOf_below hm) (nodesOf_below hn)⟩

theorem iptrieNodes_pairwise (root : IpTrie) : (iptrieNodes root).Pairwise fun m n => m.pointer ≠ n.pointer := by
  refine pairwise_append.mpr ⟨nodesOf_pairwise _ _, nodesOf_pairwise _ _, fun m hm n hn => ?_⟩
  exact pointer_ne [] (nodesOf_below hm) (nodesOf_below hn)

theorem callEach_append (func : Leaf → σ → ℤ × σ) (xs ys : List Leaf) (data : σ) : callEach func (xs ++ ys) data =
      if (callEach func xs data).1 < 0 then (-1, (callEach func xs data).2)
      else callEach func ys (callEach func xs data).2 := by
  induction xs generalizing data with
  | nil => rfl
  | cons n xs ih =>
    rw [cons_append, callEach, callEach]
    by_cases hneg : (func n data).1 < 0
    · rw [if_pos hneg, if_pos hneg]
      rfl
    · rw [if_neg hneg, if_neg hneg, ih]

def signOf (r : ℤ × σ) : ℤ × σ := (if r.1 < 0 then -1 else 0, r.2)

theorem signOf_inTurn (first second : σ → ℤ × σ) (data : σ) : signOf (inTurn first second data) = inTurn first second data := by
  by_cases hfirst : (first data).1 < 0
  · simp [inTurn, signOf, hfirst]
  · by_cases hsecond : (second (first data).2).1 < 0 <;> simp [inTurn, signOf, hfirst, hsecond]

theorem callEach_inTurn {func : Leaf → σ → ℤ × σ} {first second : σ → ℤ × σ} {xs ys : List Leaf}
    (hfirst : ∀ data, callEach func xs data = signOf (first data))
    (hsecond : ∀ data, callEach func ys data = signOf (second data)) (data : σ) :
    callEach func (xs ++ ys) data = inTurn first second data := by
  rw [callEach_append, hfirst, hsecond, inTurn]
  by_cases hneg : (first data).1 < 0
  · simp [signOf, hneg]
  · simp only [signOf, if_neg hneg, lt_irrefl, if_false]
    split_ifs <;> rfl

theorem callEach_nodesOf (func : Leaf → σ → ℤ × σ) (pointer : Pointer) (t : IpTrieNode) (data : σ) :
    callEach func (nodesOf pointer t) data = signOf (iptrieOnAllLeavesInternal func pointer t data) := by
  induction t generalizing pointer data with
  | null => rfl
  | node as prefixLen address left right ihl ihr =>
    rw [nodesOf, iptrieOnAllLeavesInternal]
    by_cases hleaf : left.isNull ∧ right.isNull
    · rw [if_pos hleaf, if_pos hleaf, callEach, callEach, signOf]
      split_ifs <;> rfl
    · rw [if_neg hleaf, if_neg hleaf, signOf_inTurn]
      exact callEach_inTurn (ihl _) (ihr _) data

theorem iptrieOnAllLeaves_eq (func : Leaf → σ → ℤ × σ) (root : IpTrie) (data : σ) :
    iptrieOnAllLeaves func root data = callEach func (iptrieNodes root) data :=
  (callEach_inTurn (callEach_nodesOf func _ _) (callEach_nodesOf func _ _) data).symm

theorem callEach_links {nodes : List Leaf} (hnodes : nodes.Pairwise fun m n => m.pointer ≠ n.pointer)
    {links : Links} {done : List Pointer} (hchain : Chain links.next links.head done)
    (hfresh : ∀ n ∈ nodes, n.pointer ∉ done) :
    Chain (callEach iptrieToListInternal nodes links).2.next (callEach iptrieToListInternal nodes links).2.head
      ((nodes.map Leaf.pointer).reverse ++ done) := by
  induction nodes generalizing links done with
  | nil => exact hchain
  | cons n nodes ih =>
    obtain ⟨hn, hnodes⟩ := pairwise_cons.mp hnodes
    have hcall : callEach iptrieToListInternal (n :: nodes) links =
        callEach iptrieToListInternal nodes (iptrieToListInternal n links).2 := rfl
    have hpush := hchain.push_front (hfresh n (mem_cons_self ..))
    rw [hcall, map_cons, reverse_cons, append_assoc, singleton_append]
    refine ih hnodes hpush fun m hm hmem => ?_
    rcases mem_cons.mp hmem with heq | hmem
    · exact hn m hm heq.symm
    · exact hfresh m (mem_cons_of_mem _ hm) hmem

theorem chain_iptrieToListLinks (root : IpTrie) (next : Pointer → Option Pointer) :
    Chain (iptrieToListLinks root next).next (iptrieToListLinks root next).head
      ((iptrieNodes root).map Leaf.pointer).reverse := by
  rw [iptrieToListLinks, iptrieOnAllLeaves_eq]
  have hempty : Chain (Links.mk next none).next (Links.mk next none).head [] :=
    chain_nil.mpr rfl
  have hchain := callEach_links (iptrieNodes_pairwise root) hempty fun _ _ => not_mem_nil
  rwa [append_nil] at hchain

structure PrefixLengths where
  ipv4 : UInt8
  ipv6 : UInt8

def PrefixLengths.of (lengths : PrefixLengths) : SockAddr → UInt8
  | .inet _ => lengths.ipv4
  | .inet6 _ => lengths.ipv6
  | .other _ _ => 0

def SameEntry (e : Endian) (lengths : PrefixLengths) (a b : SockAddr) : Prop :=
  a.family = b.family ∧ Agree (SockAddr.bit e) (lengths.of a).toNat a b

instance (e : Endian) (lengths : PrefixLengths) (a b : SockAddr) : Decidable (SameEntry e lengths a b) :=
  inferInstanceAs (Decidable (_ ∧ _))

section Entries

variable {e : Endian} {lengths : PrefixLengths} {adds : List AddCall} {a b c : SockAddr}

theorem PrefixLengths.of_eq (h : a.family = b.family) (hip : a.width ≠ 0) : lengths.of a = lengths.of b := by
  rcases SockAddr.same_family h hip with ⟨x, y, rfl, rfl⟩ | ⟨x, y, rfl, rfl⟩ <;> rfl

theorem SameEntry.symm (h : SameEntry e lengths a b) (hip : a.width ≠ 0) :
    SameEntry e lengths b a :=
  ⟨h.1.symm, PrefixLengths.of_eq h.1 hip ▸ h.2.symm⟩

theorem SameEntry.trans (h : SameEntry e lengths a b) (h' : SameEntry e lengths b c)
    (hip : a.width ≠ 0) : SameEntry e lengths a c :=
  ⟨h.1.trans h'.1, h.2.trans (PrefixLengths.of_eq h.1 hip ▸ h'.2)⟩

section

variable (hadds : ∀ d ∈ adds, d.address.width ≠ 0 → d.prefixLen = lengths.of d.address)
include hadds

theorem leaves_entries (hip : a.width ≠ 0) : (leaves (subtrie (addAll e adds) a)).Pairwise
        (fun x y => ¬ SameEntry e lengths x.address y.address) ∧
      (∀ x ∈ leaves (subtrie (addAll e adds) a), a.family = x.address.family ∧ x.prefixLen = lengths.of x.address ∧
        recentAs e (lengths.of x.address).toNat adds x.address = some x.as) ∧
      ∀ d ∈ adds, a.family = d.address.family →
        ∃ x ∈ leaves (subtrie (addAll e adds) a), SameEntry e lengths x.address d.address := by
  have hlength : ∀ d ∈ adds, a.family = d.address.family → d.prefixLen = lengths.of a := by
    intro d hd hfamily
    rw [PrefixLengths.of_eq hfamily hip]
    exact hadds d hd (SockAddr.width_eq hfamily hip ▸ hip)
  obtain ⟨hpairwise, hleaves, hrecent⟩ := leaves_addAll (e := e) hip hlength
  have hof : ∀ x ∈ leaves (subtrie (addAll e adds) a), lengths.of x.address = lengths.of a :=
    fun x hx => (PrefixLengths.of_eq (hleaves x hx).1 hip).symm
  refine ⟨hpairwise.imp_of_mem ?_, fun x hx => ?_, fun d hd hfamily => ?_⟩
  · intro x y hx _ hne hsame
    exact hne (hof x hx ▸ hsame.2)
  · obtain ⟨hfamily, hbits⟩ := hleaves x hx
    refine ⟨hfamily, hbits.trans (hof x hx).symm, ?_⟩
    rw [hof x hx]
    exact (hrecent x.address hfamily x.as).mpr ⟨x, hx, fun _ _ => rfl, rfl⟩
  · obtain ⟨as, has⟩ := recentAs_isSome (e := e) (n := (lengths.of a).toNat) hd
    obtain ⟨x, hx, hagree, -⟩ := (hrecent d.address hfamily as).mp has
    exact ⟨x, hx, (hleaves x hx).1.symm.trans hfamily, (hof x hx).symm ▸ hagree⟩

theorem iptrieLeaves_entries : (iptrieLeaves (addAll e adds)).Pairwise (fun x y => ¬ SameEntry e lengths x.address y.address) ∧
      (∀ x ∈ iptrieLeaves (addAll e adds), x.address.width ≠ 0 ∧ x.prefixLen = lengths.of x.address ∧
        recentAs e (lengths.of x.address).toNat adds x.address = some x.as) ∧
      ∀ d ∈ adds, d.address.width ≠ 0 → ∃ x ∈ iptrieLeaves (addAll e adds), SameEntry e lengths x.address d.address := by
  obtain ⟨hpair4, hleaf4, hadd4⟩ := leaves_entries (e := e) (a := .inet 0) hadds (SockAddr.width_ne_zero (Or.inl rfl))
  obtain ⟨hpair6, hleaf6, hadd6⟩ := leaves_entries (e := e) (a := .inet6 (Vector.replicate 8 0))
    hadds (SockAddr.width_ne_zero (Or.inr rfl))
  refine ⟨pairwise_append.mpr ⟨hpair4, hpair6, fun x hx y hy hsame => ?_⟩, fun x hx => ?_, fun d hd hip => ?_⟩
  · have hfamily := (hleaf4 x hx).1.trans (hsame.1.trans (hleaf6 y hy).1.symm)
    exact absurd hfamily (by decide)
  · rcases mem_append.mp hx with hx | hx
    · exact ⟨SockAddr.width_ne_zero (Or.inl (hleaf4 x hx).1.symm), (hleaf4 x hx).2⟩
    · exact ⟨SockAddr.width_ne_zero (Or.inr (hleaf6 x hx).1.symm), (hleaf6 x hx).2⟩
  · obtain ⟨address, prefixLen, as⟩ := d
    cases address with
    | inet y =>
      obtain ⟨x, hx, hsame⟩ := hadd4 _ hd rfl
      exact ⟨x, mem_append_left _ hx, hsame⟩
    | inet6 y =>
      obtain ⟨x, hx, hsame⟩ := hadd6 _ hd rfl
      exact ⟨x, mem_append_right _ hx, hsame⟩
    | other family h => exact absurd rfl hip

end

theorem countP_eq_one {α : Type*} {P : α → Prop} [DecidablePred P] {l : List α}
    (hpairwise : l.Pairwise fun a b => ¬(P a ∧ P b)) (hexists : ∃ a ∈ l, P a) :
    l.countP P = 1 := by
  induction l with
  | nil => simp at hexists
  | cons b l ih =>
    obtain ⟨hb, hl⟩ := pairwise_cons.mp hpairwise
    by_cases hP : P b
    · have hnone : l.countP P = 0 := by
        rw [countP_eq_zero]
        intro a ha hPa
        exact hb a ha ⟨hP, by simpa using hPa⟩
      rw [countP_cons_of_pos (by simpa using hP), hnone]
    · obtain ⟨a, ha, hPa⟩ := hexists
      rcases mem_cons.mp ha with rfl | ha
      · exact absurd hPa hP
      · rw [countP_cons_of_neg (by simpa using hP), ih hl ⟨a, ha, hPa⟩]

theorem iptrie_leaves_visited (e : Endian) (lengths : PrefixLengths) {adds : List AddCall}
    (hadds : ∀ d ∈ adds, d.address.width ≠ 0 → d.prefixLen = lengths.of d.address)
    (func : Leaf → σ → ℤ × σ) (data : σ) (next : Pointer → Option Pointer) :
    iptrieOnAllLeaves func (addAll e adds) data = callEach func (iptrieNodes (addAll e adds)) data ∧
      (∀ n ∈ iptrieNodes (addAll e adds), (∃ d ∈ adds, d.address.width ≠ 0 ∧ SameEntry e lengths d.address n.entry.address) ∧
        n.entry.prefixLen = lengths.of n.entry.address ∧
        recentAs e (lengths.of n.entry.address).toNat adds n.entry.address = some n.entry.as) ∧
      (∀ d ∈ adds, d.address.width ≠ 0 → (iptrieNodes (addAll e adds)).countP
        (fun n => SameEntry e lengths n.entry.address d.address) = 1) ∧
      Chain (iptrieToListLinks (addAll e adds) next).next (iptrieToListLinks (addAll e adds) next).head
        ((iptrieNodes (addAll e adds)).map Leaf.pointer).reverse := by
  obtain ⟨hpairwise, hleaf, hadd⟩ := iptrieLeaves_entries (e := e) hadds
  refine ⟨iptrieOnAllLeaves_eq func _ data, fun n hn => ?_, fun d hd hip => ?_, chain_iptrieToListLinks _ next⟩
  · have hmem : n.entry ∈ iptrieLeaves (addAll e adds) :=
      iptrieNodes_entries (addAll e adds) ▸ mem_map_of_mem hn
    obtain ⟨hip, hbits, hrecent⟩ := hleaf n.entry hmem
    obtain ⟨d, hd, hfamily, hagree, -⟩ := recentAs_some hrecent
    have hof : lengths.of n.entry.address = lengths.of d.address := PrefixLengths.of_eq hfamily hip
    exact ⟨⟨d, hd, SockAddr.width_eq hfamily hip ▸ hip, hfamily.symm, hof ▸ hagree⟩, hbits, hrecent⟩
  · have hcount := countP_eq_one (P := fun x : AddCall => SameEntry e lengths x.address d.address)
      (hpairwise.imp_of_mem ?_) (hadd d hd hip)
    · rw [← iptrieNodes_entries, countP_map] at hcount
      exact hcount
    · rintro x y hx hy hne ⟨hxd, hyd⟩
      exact hne (hxd.trans (hyd.symm (hleaf y hy).1) (hleaf x hx).1)

end Entries

theorem documentation_network_visited : (iptrieNodes (addAll .little documentationAdds)).countP (fun n =>
      SameEntry .little ⟨24, 64⟩ n.entry.address (.inet 0x010200c0#32)) = 1 := by
  have hadds : ∀ d ∈ documentationAdds, d.address.width ≠ 0 → d.prefixLen = (PrefixLengths.mk 24 64).of d.address := by decide
  exact (iptrie_leaves_visited .little ⟨24, 64⟩ hadds (fun _ data => (0, data)) () fun _ => none).2.2.1
    _ (mem_cons_self ..) (by decide)

end Amplet.TrieWalk
