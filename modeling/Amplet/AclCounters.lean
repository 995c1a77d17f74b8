import Amplet.AclRules

/-!
# The child counters of access control trees

A counter of eight bits holds as long as no node has more than 255 children.
The 256th child of a node makes its counter zero: neither loop of the code sees
the children then, and the rules below them are lost.
-/

namespace Amplet.AclCounters
open List Bytes AclTree AclPaths LongestPrefix AclPrecedence AclRules

inductive Reaches : AclNode → List CStr → AclNode → Prop
  | here (node : AclNode) : Reaches node [] node
  | child {node c n : AclNode} {path : List CStr} (hc : c ∈ node.children) (h : Reaches c path n) :
      Reaches node (c.label :: path) n

def CountersExact (calls : List AclCall) : Prop :=
  ∀ property path node, Reaches ((addCalls calls).subtree property) path node →
    node.numChildren.toNat = (childLabels (rulePaths calls property) path).card

def ExactName (q : CStr) : Prop := q ≠ cstr "all" ∧ q.head? ≠ some dot

instance (q : CStr) : Decidable (ExactName q) := inferInstanceAs (Decidable (_ ∧ _))

def lastRule (calls : List AclCall) (property : AclProperty) (q : CStr) : Option UInt8 :=
  (calls.reverse.find? fun c => c.property = property ∧ c.fqdn = q).map AclCall.value

def RulesKept (calls : List AclCall) : Prop :=
  CountersExact calls ∧ ∀ property q v, ExactName q → lastRule calls property q = some v →
    getAcl (addCalls calls) q (propertyByte property) = v

section

variable {paths : List (List CStr)} {parent : UInt8} {path : List CStr} {node n c : AclNode}
  {calls : List AclCall} {property : AclProperty}

section

variable (h : Inherits paths parent path node)
include h

theorem Inherits.find? (hc : c ∈ node.children) : node.children.find? (fun b => b.label = c.label) = some c := by
  cases h with
  | mk _ _ _ nodup _ _ =>
    obtain ⟨b, hb⟩ : ∃ b, node.children.find? (fun b => b.label = c.label) = some b := by
      rw [← Option.isSome_iff_exists, find?_isSome]
      exact ⟨c, hc, by simp⟩
    have hlabel : b.label = c.label := by simpa using find?_some hb
    rw [hb, inj_on_of_nodup_map nodup (mem_of_find?_eq_some hb) hc hlabel]

theorem Inherits.reaches {p : List CStr} (hreach : Reaches node p n) : (∃ parent', Inherits paths parent' (path ++ p) n) ∧
      ∀ rest, setting n rest = setting node (p ++ rest) := by
  induction hreach generalizing parent path with
  | here node => exact ⟨⟨parent, by rwa [append_nil]⟩, fun rest => rfl⟩
  | @child node c n p hc hreach ih =>
    have hfind := Inherits.find? h hc
    obtain ⟨-, -, hinherits⟩ := h.child hfind
    obtain ⟨⟨parent', hn⟩, hsetting⟩ := ih hinherits
    refine ⟨⟨parent', by rwa [append_cons]⟩, fun rest => ?_⟩
    rw [hsetting, cons_append, setting, hfind]

theorem Inherits.counter_eq (hall : ∀ l rest, path ++ l :: rest ∈ paths → setting node (l :: rest) ≠ none) :
    node.numChildren.toNat = (childLabels paths path).card := by
  cases h with
  | mk _ _ count nodup known _ =>
    have hlabels : (node.children.map AclNode.label).toFinset = childLabels paths path := by
      ext l
      rw [mem_toFinset]
      constructor
      · intro hl
        obtain ⟨c, hc, rfl⟩ := mem_map.1 hl
        exact known c hc
      · intro hl
        obtain ⟨rest, hrest⟩ := exists_of_mem_childLabels hl
        have hsome := hall l rest hrest
        cases hfind : node.children.find? (fun c => c.label = l) with
        | none => exact absurd (by rw [setting, hfind]) hsome
        | some c =>
          have hlabel : c.label = l := by simpa using find?_some hfind
          exact hlabel ▸ mem_map_of_mem (mem_of_find?_eq_some hfind)
    rw [count, ← hlabels, toFinset_card_of_nodup nodup, length_map]

end

theorem ruleTable_ne_none (h : path ∈ rulePaths calls property) : ruleTable calls property path ≠ none := by
  obtain ⟨c, hc, rfl⟩ := mem_map.1 h
  obtain ⟨hmem, hrule⟩ := mem_filter.1 hc
  rw [decide_eq_true_iff] at hrule
  rw [ruleTable, ne_eq, Option.map_eq_none_iff, find?_eq_none]
  exact fun hnone => hnone c (mem_reverse.2 hmem) (by simpa using hrule)

theorem represents_rulePaths (hnarrow : ∀ path, (childLabels (rulePaths calls property) path).card ≤ 255) :
    Represents (rulePaths calls property) calls property ((addCalls calls).subtree property) :=
  represents_addCalls (fun _ hp => rulePaths_wellFormed hp) hnarrow property calls fun _ hc hp ha => mem_rulePaths hc hp ha

theorem countersExact (hnarrow : ∀ property path, (childLabels (rulePaths calls property) path).card ≤ 255) :
    CountersExact calls := by
  intro property path node hreach
  have hrep := represents_rulePaths (hnarrow property)
  obtain ⟨⟨parent, hnode⟩, hsetting⟩ := Inherits.reaches hrep.inherits hreach
  refine Inherits.counter_eq hnode fun l rest hrest => ?_
  rw [hsetting, hrep.settings]
  exact ruleTable_ne_none hrest

theorem ruleTable_eq_lastRule {q : CStr} (hq : q ≠ cstr "all") :
    ruleTable calls property (labels q) = lastRule calls property q := by
  have hsame : ∀ c : AclCall, (c.property = property ∧ c.fqdn ≠ cstr "all" ∧ labels c.fqdn = labels q) ↔
        (c.property = property ∧ c.fqdn = q) := by
    intro c
    constructor
    · exact fun h => ⟨h.1, labels_injective h.2.2⟩
    · rintro ⟨hproperty, rfl⟩
      exact ⟨hproperty, hq, rfl⟩
  simp only [ruleTable, lastRule, hsame]

theorem rulesKept (hnarrow : ∀ property path, (childLabels (rulePaths calls property) path).card ≤ 255) :
    RulesKept calls := by
  refine ⟨countersExact hnarrow, fun property q v hexact hlast => ?_⟩
  rw [getAcl_eq_lookup (hnarrow property)]
  refine lookup_eq_of_longest prefix_rfl ?_ (fun p hp _ => hp.length_le) _
  rw [ruleTable_eq_lastRule hexact.1, hlast]

theorem rulePaths_append (calls : List AclCall) (c : AclCall) (property : AclProperty) :
    rulePaths (calls ++ [c]) property = rulePaths calls property ++
      if c.property = property ∧ c.fqdn ≠ cstr "all" then [labels c.fqdn] else [] := by
  rw [rulePaths, filter_append, map_append, rulePaths]
  congr 1
  by_cases h : c.property = property ∧ c.fqdn ≠ cstr "all"
  · rw [if_pos h, filter_cons_of_pos (by simpa using h)]
    rfl
  · rw [if_neg h, filter_cons_of_neg (by simpa using h)]
    rfl

theorem childLabels_mono {paths' : List (List CStr)} (h : ∀ p ∈ paths, p ∈ paths') (path : List CStr) :
    childLabels paths path ⊆ childLabels paths' path := by
  intro l hl
  obtain ⟨rest, hrest⟩ := exists_of_mem_childLabels hl
  exact mem_childLabels (h _ hrest)

theorem exists_reaches {p rest : List CStr} {l : CStr} (h : setting node (p ++ l :: rest) ≠ none) : ∃ n, Reaches node p n := by
  induction p generalizing node with
  | nil => exact ⟨node, .here node⟩
  | cons k p ih =>
    rw [cons_append, setting] at h
    cases hfind : node.children.find? (fun c => c.label = k) with
    | none => exact absurd (by rw [hfind]) h
    | some c =>
      rw [hfind] at h
      obtain ⟨n, hn⟩ := ih h
      have hlabel : c.label = k := by simpa using find?_some hfind
      exact ⟨n, hlabel ▸ .child (mem_of_find?_eq_some hfind) hn⟩

theorem Inherits.reaches_addPath {p rule : List CStr} (h : Inherits paths parent path node)
    (hreach : Reaches node p n) (hrule : rule ≠ []) (value : UInt8) :
    Reaches (addPath node (p ++ rule) value) p (addPath n rule value) := by
  induction hreach generalizing parent path with
  | here node => exact .here _
  | @child node c n p hc hreach ih =>
    have hfind := Inherits.find? h hc
    obtain ⟨-, -, hinherits⟩ := h.child hfind
    have hbelow := ih hinherits
    cases h with
    | mk _ _ count nodup _ _ =>
      obtain ⟨k, rest, hrest⟩ := exists_cons_of_ne_nil (append_ne_nil_of_right_ne_nil p hrule)
      obtain ⟨i, hi⟩ : ∃ i, node.children.findIdx? (fun b => b.label = c.label) = some i := by
        rw [← Option.isSome_iff_exists, findIdx?_isSome, any_eq_true]
        exact ⟨c, hc, by simp⟩
      have hmodify := modify_findIdx? (fun b => addPath b (k :: rest) value) nodup hi
      rw [hrest] at hbelow
      rw [cons_append, hrest, addPath, findChild_eq c.label count, hi]
      · dsimp only
        rw [hmodify, ← addPath_label c (k :: rest) value]
        refine .child (mem_map.2 ⟨c, hc, ?_⟩) hbelow
        rw [addPath_label, if_pos rfl]
      · simp

theorem childLabels_append (calls : List AclCall) (c : AclCall) (property : AclProperty) (path : List CStr) :
    childLabels (rulePaths (calls ++ [c]) property) path = childLabels (rulePaths calls property) path ∨
      c.property = property ∧ c.fqdn ≠ cstr "all" ∧ ∃ l rest, labels c.fqdn = path ++ l :: rest ∧
        childLabels (rulePaths (calls ++ [c]) property) path = insert l (childLabels (rulePaths calls property) path) := by
  rw [rulePaths_append]
  split_ifs with hrule
  swap
  · exact .inl (by rw [append_nil])
  have hmem : ∀ {l}, l ∈ childLabels (rulePaths calls property ++ [labels c.fqdn]) path ↔
      l ∈ childLabels (rulePaths calls property) path ∨ ∃ rest, labels c.fqdn = path ++ l :: rest := by
    intro l
    constructor
    · intro hl
      obtain ⟨rest, hrest⟩ := exists_of_mem_childLabels hl
      rcases mem_append.1 hrest with hold | hnew
      · exact .inl (mem_childLabels hold)
      · exact .inr ⟨rest, (mem_singleton.1 hnew).symm⟩
    · rintro (hold | ⟨rest, hrest⟩)
      · exact childLabels_mono (fun p hp => mem_append_left _ hp) path hold
      · have hin : path ++ l :: rest ∈ rulePaths calls property ++ [labels c.fqdn] :=
          mem_append_right _ (mem_singleton.2 hrest.symm)
        exact mem_childLabels hin
  by_cases hbelow : ∃ l rest, labels c.fqdn = path ++ l :: rest
  · obtain ⟨l, rest, hrest⟩ := hbelow
    refine .inr ⟨hrule.1, hrule.2, l, rest, hrest, ?_⟩
    ext l'
    rw [hmem, Finset.mem_insert, or_comm]
    refine or_congr_left ⟨?_, ?_⟩
    · rintro ⟨rest', hrest'⟩
      have hsame := append_cancel_left (hrest'.symm.trans hrest)
      exact (cons.inj hsame).1
    · rintro rfl
      exact ⟨rest, hrest⟩
  · refine .inl (Finset.ext fun l => ?_)
    rw [hmem, or_iff_left]
    exact fun ⟨rest, hrest⟩ => hbelow ⟨l, rest, hrest⟩

section

variable (hnarrow : ∀ property path, (childLabels (rulePaths calls property) path).card ≤ 255)
include hnarrow

theorem narrow_of_countersExact {c : AclCall} (hexact : CountersExact (calls ++ [c])) :
    ∀ property path, (childLabels (rulePaths (calls ++ [c]) property) path).card ≤ 255 := by
  intro property path
  rcases childLabels_append calls c property path with hsame | ⟨hproperty, hfqdn, l, rest, hlabels, hinsert⟩
  · rw [hsame]
    exact hnarrow property path
  · by_cases hempty : childLabels (rulePaths calls property) path = ∅
    · rw [hinsert, hempty]
      simp
    · -- the node had a child, so the way to it is there before and after the call
      obtain ⟨l', hl'⟩ := Finset.nonempty_iff_ne_empty.2 hempty
      obtain ⟨rest', hrest'⟩ := exists_of_mem_childLabels hl'
      have hrep := represents_rulePaths (hnarrow property)
      have hsome := ruleTable_ne_none hrest'
      rw [← hrep.settings] at hsome
      obtain ⟨n, hn⟩ := exists_reaches hsome
      have hreach := Inherits.reaches_addPath hrep.inherits hn (cons_ne_nil l rest) c.value
      have htree : (addCalls (calls ++ [c])).subtree property =
          addPath ((addCalls calls).subtree property) (path ++ l :: rest) c.value := by
        rw [addCalls, foldl_append, foldl_cons, foldl_nil, subtree_addCall,
          if_pos hproperty.symm, if_neg hfqdn, addAclInternal_eq_addPath, hlabels, addCalls]
      rw [← htree] at hreach
      rw [← hexact property path _ hreach]
      exact Nat.le_of_lt_succ (UInt8.toNat_lt _)

theorem getAcl_of_full {c : AclCall} {l : CStr} (hfull : (childLabels (rulePaths calls property) []).card = 255)
    (hproperty : c.property = property) (hfqdn : c.fqdn ≠ cstr "all")
    (hlabels : labels c.fqdn = [l]) (hnew : l ∉ childLabels (rulePaths calls property) [])
    (q : CStr) :
    getAcl (addCalls (calls ++ [c])) q (propertyByte property) = defaultRule calls property := by
  have hrep := represents_rulePaths (hnarrow property)
  have hcounter := countersExact hnarrow property [] _ (.here _)
  rw [hfull] at hcounter
  have hzero : ((addCalls calls).subtree property).numChildren + 1 = 0 := by
    rw [← UInt8.toNat_inj, UInt8.toNat_add, hcounter]
    rfl
  rw [getAcl, ofByte_propertyByte]
  dsimp only
  rw [addCalls, foldl_append, foldl_cons, foldl_nil, subtree_addCall,
    if_pos hproperty.symm, if_neg hfqdn, addAclInternal_eq_addPath, hlabels, ← addCalls]
  cases hrep.inherits with
  | mk unset _ count _ known _ =>
    have hnone : findChild ((addCalls calls).subtree property) l = none := by
      rw [findChild_eq l count, findIdx?_eq_none_iff]
      intro b hb
      exact decide_eq_false fun hlabel => hnew (hlabel ▸ known b hb)
    rw [addPath, hnone, ← unset hrep.root_unset]
    dsimp only
    rw [appendChild, hzero, getAclInternal, if_neg (by decide)]

end

theorem narrow_of_shorter {calls' : List AclCall} (h : calls' <+: calls)
    (hnarrow : ∀ property path, (childLabels (rulePaths calls property) path).card ≤ 255) :
    ∀ property path, (childLabels (rulePaths calls' property) path).card ≤ 255 := by
  intro property path
  obtain ⟨rest, rfl⟩ := h
  refine (Finset.card_le_card (childLabels_mono (fun p hp => ?_) path)).trans (hnarrow property path)
  rw [rulePaths, filter_append, map_append]
  exact mem_append_left _ hp

end

/-- The counters are exact and the rules for exact names kept if and only if no node is given more
than 255 children. -/
theorem rules_kept_iff (calls : List AclCall) : (∀ calls', calls' <+: calls → RulesKept calls') ↔
      ∀ property path, (childLabels (rulePaths calls property) path).card ≤ 255 := by
  constructor
  · intro hkept
    induction calls using reverseRecOn with
    | nil => exact fun property path => Nat.zero_le _
    | append_singleton calls c ih =>
      have hbefore := ih fun calls' h => hkept calls' (h.trans (prefix_append calls [c]))
      exact narrow_of_countersExact hbefore (hkept _ prefix_rfl).1
  · exact fun hnarrow calls' h => rulesKept (narrow_of_shorter h hnarrow)

section Siblings

def host (i : ℕ) : CStr := [UInt8.ofNat (97 + i / 16), UInt8.ofNat (97 + i % 16)]

def deniedHosts (n : ℕ) : List AclCall :=
  ⟨cstr "all", .test, 2⟩ :: (range n).map fun i => ⟨host i, .test, 0⟩

theorem letter_injective {a b : ℕ} (ha : a < 16) (hb : b < 16) (h : UInt8.ofNat (97 + a) = UInt8.ofNat (97 + b)) : a = b := by
  have hnat := congrArg UInt8.toNat h
  rw [UInt8.toNat_ofNat', UInt8.toNat_ofNat'] at hnat
  omega

theorem host_injective {i j : ℕ} (hi : i < 256) (hj : j < 256) (h : host i = host j) : i = j := by
  obtain ⟨hhigh, hlow⟩ := cons.inj h
  have hdiv := letter_injective (by omega) (by omega) hhigh
  have hmod := letter_injective (by omega) (by omega) (cons.inj hlow).1
  omega

theorem letter_ne_dot : ∀ a < 16, dot ≠ UInt8.ofNat (97 + a) := by decide

theorem labels_host {i : ℕ} (hi : i < 256) : labels (host i) = [host i] := by
  refine labels_of_no_dot fun hdot => ?_
  rcases mem_cons.1 hdot with hhigh | hlow
  · exact letter_ne_dot (i / 16) (by omega) hhigh
  · exact letter_ne_dot (i % 16) (by omega) (mem_singleton.1 hlow)

theorem host_ne_all (i : ℕ) : host i ≠ cstr "all" := by
  intro h
  have hlength := congrArg length h
  exact absurd hlength (show ¬2 = 3 by decide)

theorem deniedHosts_succ (n : ℕ) : deniedHosts (n + 1) = deniedHosts n ++ [⟨host n, .test, 0⟩] := by
  rw [deniedHosts, range_succ, map_append]
  rfl

variable {n : ℕ}

theorem rulePaths_deniedHosts (hn : n ≤ 256) (property : AclProperty) : rulePaths (deniedHosts n) property =
      if property = .test then (range n).map fun i => [host i] else [] := by
  induction n with
  | zero => cases property <;> rfl
  | succ n ih =>
    rw [deniedHosts_succ, rulePaths_append, ih (by omega), range_succ, map_append]
    by_cases hproperty : property = .test
    · rw [if_pos hproperty, if_pos hproperty, if_pos ⟨hproperty.symm, host_ne_all n⟩, labels_host (by omega)]
      rfl
    · rw [if_neg hproperty, if_neg hproperty, if_neg fun h => hproperty h.1.symm]
      rfl

theorem childLabels_deniedHosts (hn : n ≤ 256) :
    childLabels (rulePaths (deniedHosts n) .test) [] = (Finset.range n).image host := by
  ext l
  rw [rulePaths_deniedHosts hn, if_pos rfl, Finset.mem_image]
  constructor
  · intro hl
    obtain ⟨rest, hrest⟩ := exists_of_mem_childLabels hl
    obtain ⟨i, hi, hpath⟩ := mem_map.1 hrest
    exact ⟨i, Finset.mem_range.2 (mem_range.1 hi), (cons.inj hpath).1⟩
  · rintro ⟨i, hi, rfl⟩
    have hin : [host i] ∈ (range n).map fun i => [host i] :=
      mem_map_of_mem (mem_range.2 (Finset.mem_range.1 hi))
    exact mem_childLabels hin

theorem card_deniedHosts (hn : n ≤ 256) : (childLabels (rulePaths (deniedHosts n) .test) []).card = n := by
  rw [childLabels_deniedHosts hn, Finset.card_image_of_injOn, Finset.card_range]
  intro i hi j hj h
  have hilt := Finset.mem_range.1 hi
  have hjlt := Finset.mem_range.1 hj
  exact host_injective (by omega) (by omega) h

theorem narrow_deniedHosts (hn : n ≤ 255) :
    ∀ property path, (childLabels (rulePaths (deniedHosts n) property) path).card ≤ 255 := by
  intro property path
  calc (childLabels (rulePaths (deniedHosts n) property) path).card ≤ _ := toFinset_card_le _
    _ ≤ (rulePaths (deniedHosts n) property).length := length_filterMap_le _ _
    _ ≤ 255 := by
      rw [rulePaths_deniedHosts (by omega)]
      split_ifs
      · rwa [length_map, length_range]
      · exact Nat.zero_le _

end Siblings

theorem denied_host_allowed : lastRule (deniedHosts 256) .test (host 0) = some 0 ∧
      getAcl (addCalls (deniedHosts 256)) (host 0) (propertyByte .test) = 2 ∧
      ¬RulesKept (deniedHosts 256) := by
  have hlast : lastRule (deniedHosts 256) .test (host 0) = some 0 := by decide +kernel
  have hget : getAcl (addCalls (deniedHosts 256)) (host 0) (propertyByte .test) = 2 := by
    have hnew : host 255 ∉ childLabels (rulePaths (deniedHosts 255) .test) [] := by
      rw [childLabels_deniedHosts (by decide), Finset.mem_image]
      rintro ⟨i, hi, hsame⟩
      have hlt := Finset.mem_range.1 hi
      have := host_injective (by omega) (by decide) hsame
      omega
    have hdefault : defaultRule (deniedHosts 255) .test = 2 := by decide +kernel
    rw [deniedHosts_succ 255, ← hdefault]
    exact getAcl_of_full (narrow_deniedHosts le_rfl) (card_deniedHosts (by decide)) rfl
      (host_ne_all 255) (labels_host (by decide)) hnew (host 0)
  refine ⟨hlast, hget, fun hkept => ?_⟩
  have hzero := hkept.2 .test (host 0) 0 (by decide) hlast
  exact absurd (hget.symm.trans hzero) (by decide)

end Amplet.AclCounters
