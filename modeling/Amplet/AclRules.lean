import Amplet.AclPrecedence
import Mathlib.Data.List.MinMax

/-!
# Access control over sequences of rules

The rule that decides a query is named without the tree: among the matching calls for
the property the most recent one with the longest pattern, where `all` ranks below every
other pattern.
-/

namespace Amplet.AclRules
open List Bytes AclTree AclPaths LongestPrefix AclPrecedence

structure AclCall where
  fqdn : CStr
  property : AclProperty
  value : UInt8
deriving DecidableEq

def propertyByte : AclProperty → UInt8
  | .server => 1
  | .test => 2
  | .schedule => 4

theorem ofByte_propertyByte (p : AclProperty) : AclProperty.ofByte (propertyByte p) = some p := by
  cases p <;> rfl

def addCall (root : AclRoot) (c : AclCall) : AclRoot :=
  (addAcl root c.fqdn (propertyByte c.property) c.value).2

def addCalls (calls : List AclCall) : AclRoot := calls.foldl addCall initialiseAcl

/-- A pattern with a leading dot covers every name it ends, `all` covers every
name, and any other pattern only itself. -/
def Matches (pattern q : CStr) : Prop :=
  pattern = cstr "all" ∨ (pattern.head? = some dot ∧ pattern <:+ q) ∨ (pattern.head? ≠ some dot ∧ pattern = q)

instance (pattern q : CStr) : Decidable (Matches pattern q) :=
  inferInstanceAs (Decidable (_ ∨ _ ∨ _))

def priority (pattern : CStr) : ℕ := if pattern = cstr "all" then 0 else pattern.length + 1

/-- The most recent of the matching calls with the longest pattern. -/
def decisive (calls : List AclCall) (property : AclProperty) (q : CStr) : Option AclCall :=
  (calls.reverse.filter fun c => c.property = property ∧ Matches c.fqdn q).argmax fun c => priority c.fqdn

def rulePaths (calls : List AclCall) (property : AclProperty) : List (List CStr) :=
  (calls.filter fun c => c.property = property ∧ c.fqdn ≠ cstr "all").map fun c => labels c.fqdn

def ruleTable (calls : List AclCall) (property : AclProperty) (path : List CStr) : Option UInt8 :=
  (calls.reverse.find? fun c =>
    c.property = property ∧ c.fqdn ≠ cstr "all" ∧ labels c.fqdn = path).map AclCall.value

def defaultRule (calls : List AclCall) (property : AclProperty) : UInt8 :=
  ((calls.reverse.find? fun c =>
    c.property = property ∧ c.fqdn = cstr "all").map AclCall.value).getD 0

theorem subtree_setSubtree (root : AclRoot) (node : AclNode) (p p' : AclProperty) :
    (root.setSubtree node p).subtree p' = if p' = p then node else root.subtree p' := by
  cases p <;> cases p' <;> rfl

theorem subtree_addCall (root : AclRoot) (c : AclCall) (p : AclProperty) : (addCall root c).subtree p =
      if p = c.property then
        if c.fqdn = cstr "all" then updateAclSubtree (root.subtree p) c.value
        else addAclInternal (root.subtree p) c.fqdn c.value
      else root.subtree p := by
  by_cases ha : c.fqdn = cstr "all" <;> by_cases hp : p = c.property <;>
    simp [addCall, addAcl, ofByte_propertyByte, subtree_setSubtree, ha, hp]

theorem ruleTable_append (calls : List AclCall) (c : AclCall) (property : AclProperty) : ruleTable (calls ++ [c]) property =
      if c.property = property ∧ c.fqdn ≠ cstr "all" then
        Function.update (ruleTable calls property) (labels c.fqdn) (some c.value)
      else ruleTable calls property := by
  funext path
  simp only [ruleTable, reverse_append, reverse_singleton, singleton_append, find?_cons]
  by_cases hc : c.property = property ∧ c.fqdn ≠ cstr "all"
  · by_cases hl : labels c.fqdn = path
    · simp [hc, hl]
    · simp [hc, hl, Function.update_of_ne (Ne.symm hl), ruleTable]
  · have hskip : ¬ (c.property = property ∧ c.fqdn ≠ cstr "all" ∧ labels c.fqdn = path) :=
      fun h => hc ⟨h.1, h.2.1⟩
    simp [hc, hskip, ruleTable]

theorem defaultRule_append (calls : List AclCall) (c : AclCall) (property : AclProperty) : defaultRule (calls ++ [c]) property =
      if c.property = property ∧ c.fqdn = cstr "all" then c.value
      else defaultRule calls property := by
  simp only [defaultRule, reverse_append, reverse_singleton, singleton_append, find?_cons]
  by_cases hc : c.property = property ∧ c.fqdn = cstr "all"
  · simp [hc]
  · simp [hc]

/-- The tree of a property inherits, its root is never set, and its settings are the rules. -/
structure Represents (paths : List (List CStr)) (calls : List AclCall) (property : AclProperty)
    (node : AclNode) : Prop where
  inherits : Inherits paths (defaultRule calls property) [] node
  root_unset : node.isset = false
  settings : setting node = ruleTable calls property

theorem represents_nil (paths : List (List CStr)) (property : AclProperty) :
    Represents paths [] property (initialiseAcl.subtree property) := by
  have hnode : initialiseAcl.subtree property = newAclNode (cstr "all") 0 false := by
    cases property <;> rfl
  rw [hnode]
  refine ⟨newAclNode_inherits paths [] _ (fun _ => rfl), rfl, ?_⟩
  rw [setting_newAclNode, if_neg (by simp), Function.update_eq_self_iff.mpr rfl]
  rfl

theorem updateAclSubtree_isset (node : AclNode) (value : UInt8) : (updateAclSubtree node value).isset = node.isset := by
  obtain ⟨label, permissions, isset, numChildren, children⟩ := node
  rw [updateAclSubtree]
  split_ifs <;> rfl

variable {calls : List AclCall} {property : AclProperty} {pattern : CStr}

section

variable {paths : List (List CStr)} (hwf : ∀ p ∈ paths, WellFormed p)
  (hnarrow : ∀ node, (childLabels paths node).card ≤ 255)
include hwf hnarrow

theorem represents_addCall {root : AclRoot} {c : AclCall}
    (hmem : c.property = property → c.fqdn ≠ cstr "all" → labels c.fqdn ∈ paths)
    (h : Represents paths calls property (root.subtree property)) :
    Represents paths (calls ++ [c]) property ((addCall root c).subtree property) := by
  rw [subtree_addCall]
  by_cases hp : property = c.property
  · subst hp
    by_cases ha : c.fqdn = cstr "all"
    · have hup := updateAclSubtree_inherits c.value h.inherits (fun _ => h.root_unset)
      rw [if_pos rfl, if_pos ha]
      refine ⟨?_, ?_, ?_⟩
      · rw [defaultRule_append, if_pos ⟨rfl, ha⟩]
        exact hup.1
      · rw [updateAclSubtree_isset, h.root_unset]
      · rw [ruleTable_append, if_neg (by simp [ha]), hup.2, h.settings]
    · have hadd := addPath_spec hwf hnarrow c.value h.inherits (Or.inl rfl) (labels_ne_nil c.fqdn) (by simpa using hmem rfl ha)
      rw [if_pos rfl, if_neg ha, addAclInternal_eq_addPath]
      refine ⟨?_, ?_, ?_⟩
      · rw [defaultRule_append, if_neg (by simp [ha])]
        exact hadd.1
      · rw [addPath_isset, h.root_unset]
      · rw [ruleTable_append, if_pos ⟨rfl, ha⟩, hadd.2, h.settings]
  · rw [if_neg hp]
    refine ⟨?_, h.root_unset, ?_⟩
    · rw [defaultRule_append, if_neg (fun hc => hp hc.1.symm)]
      exact h.inherits
    · rw [ruleTable_append, if_neg (fun hc => hp hc.1.symm), h.settings]

theorem represents_addCalls (property : AclProperty) (calls : List AclCall)
    (hmem : ∀ c ∈ calls, c.property = property → c.fqdn ≠ cstr "all" → labels c.fqdn ∈ paths) :
    Represents paths calls property ((addCalls calls).subtree property) := by
  induction calls using reverseRecOn with
  | nil => exact represents_nil paths property
  | append_singleton calls c ih =>
    rw [addCalls, foldl_append]
    exact represents_addCall hwf hnarrow (hmem c (by simp)) (ih fun c' hc' => hmem c' (mem_append_left _ hc'))

end

theorem mem_rulePaths {c : AclCall} (hc : c ∈ calls) (hp : c.property = property) (ha : c.fqdn ≠ cstr "all") :
    labels c.fqdn ∈ rulePaths calls property :=
  mem_map_of_mem (mem_filter.mpr ⟨hc, by simp [hp, ha]⟩)

theorem rulePaths_wellFormed {p : List CStr} (hp : p ∈ rulePaths calls property) :
    WellFormed p := by
  obtain ⟨c, -, rfl⟩ := mem_map.mp hp
  exact labels_wellFormed c.fqdn

theorem getAcl_eq_lookup (hnarrow : ∀ node, (childLabels (rulePaths calls property) node).card ≤ 255) (q : CStr) :
    getAcl (addCalls calls) q (propertyByte property) =
      lookup (ruleTable calls property) (defaultRule calls property) (labels q) := by
  have hrep := represents_addCalls (fun _ hp => rulePaths_wellFormed hp) hnarrow property calls
    (fun c hc hp ha => mem_rulePaths hc hp ha)
  rw [getAcl, ofByte_propertyByte]
  dsimp only
  rw [getAclInternal_eq_lookup (fun _ hp => rulePaths_wellFormed hp) hrep.inherits, hrep.settings]

theorem matches_iff {q : CStr} (h : pattern ≠ cstr "all") : Matches pattern q ↔ labels pattern <+: labels q := by
  rw [labels_prefix_iff]
  simp [Matches, h]

theorem find?_of_mem_argmax {α : Type*} [DecidableEq α] {f : α → ℕ} {rel p : α → Bool}
    {l : List α} {c : α} (hc : c ∈ (l.filter rel).argmax f) (hp : p c = true)
    (hkey : ∀ a, p a = true → rel a = true ∧ f a = f c) : l.find? p = some c := by
  obtain ⟨hmem, -, hfirst⟩ := mem_argmax_iff.mp hc
  have hsome : (l.find? p).isSome := by
    rw [find?_isSome]
    exact ⟨c, (mem_filter.mp hmem).1, hp⟩
  obtain ⟨d, hd⟩ := Option.isSome_iff_exists.mp hsome
  obtain ⟨hpd, as, bs, rfl, hnot⟩ := find?_eq_some_iff_append.mp hd
  obtain ⟨hrd, hfd⟩ := hkey d hpd
  have hsplit : (as ++ d :: bs).filter rel = as.filter rel ++ d :: bs.filter rel := by
    simp [hrd]
  rw [hsplit] at hmem hfirst
  have hle := hfirst d (by simp) hfd.ge
  have hd_notin : d ∉ as.filter rel := fun h => by
    simpa [hpd] using hnot d (mem_filter.mp h).1
  have hc_notin : c ∉ as.filter rel := fun h => by
    simpa [hp] using hnot c (mem_filter.mp h).1
  by_contra hne
  have hdc : d ≠ c := fun h => hne (by rw [hd, h])
  rw [idxOf_append_of_notMem hd_notin, idxOf_append_of_notMem hc_notin, idxOf_cons_self, idxOf_cons_ne _ hdc] at hle
  omega

theorem exists_call_of_ruleTable {p : List CStr} (h : ruleTable calls property p ≠ none) :
    ∃ c ∈ calls, c.property = property ∧ c.fqdn ≠ cstr "all" ∧ labels c.fqdn = p := by
  obtain ⟨v, hv⟩ := Option.ne_none_iff_exists'.mp h
  obtain ⟨c, hc, -⟩ := Option.map_eq_some_iff.mp hv
  have hmem := mem_of_find?_eq_some hc
  have hprop := find?_some hc
  simp only [decide_eq_true_eq] at hprop
  exact ⟨c, by simpa using hmem, hprop⟩

theorem lookup_eq_decisive (calls : List AclCall) (property : AclProperty) (q : CStr) :
    lookup (ruleTable calls property) (defaultRule calls property) (labels q) =
      ((decisive calls property q).map AclCall.value).getD 0 := by
  cases hd : decisive calls property q with
  | none =>
    have hnone := argmax_eq_none.mp hd
    rw [filter_eq_nil_iff] at hnone
    rw [lookup_eq_fallback]
    · have hall : calls.reverse.find? (fun c => c.property = property ∧ c.fqdn = cstr "all") =
          none := by
        rw [find?_eq_none]
        intro c hc hcall
        simp only [decide_eq_true_eq] at hcall
        exact hnone c hc (by simp [hcall, Matches])
      rw [defaultRule, hall, Option.map_none, Option.getD_none]
    · intro p hp
      by_contra hne
      obtain ⟨c, hc, hcp, hca, rfl⟩ := exists_call_of_ruleTable hne
      exact hnone c (by simpa using hc) (by simp [hcp, (matches_iff hca).mpr hp])
  | some c =>
    obtain ⟨hmem, hmax, -⟩ := mem_argmax_iff.mp hd
    simp only [mem_filter, mem_reverse, decide_eq_true_eq] at hmem hmax
    rw [Option.map_some, Option.getD_some]
    by_cases ha : c.fqdn = cstr "all"
    · -- only `all` rules match, so the descent finds no setting
      have hfirst : calls.reverse.find? (fun c => c.property = property ∧ c.fqdn = cstr "all") = some c :=
        find?_of_mem_argmax hd (by simp [hmem.2.1, ha]) fun a h => by
          simp only [decide_eq_true_eq] at h
          exact ⟨by simp [h.1, h.2, Matches], by simp [h.2, ha]⟩
      rw [lookup_eq_fallback]
      · rw [defaultRule, hfirst]
        rfl
      · intro p hp
        by_contra hne
        obtain ⟨b, hb, hbp, hba, rfl⟩ := exists_call_of_ruleTable hne
        have hle := hmax b ⟨hb, hbp, (matches_iff hba).mpr hp⟩
        simp [priority, ha, hba] at hle
    · have hfirst : calls.reverse.find? (fun b =>
          b.property = property ∧ b.fqdn ≠ cstr "all" ∧ labels b.fqdn = labels c.fqdn) =
            some c :=
        find?_of_mem_argmax hd (by simp [hmem.2.1, ha]) fun b h => by
          simp only [decide_eq_true_eq] at h
          have hbc := labels_injective h.2.2
          exact ⟨by simp [h.1, hbc, hmem.2.2], by rw [hbc]⟩
      have hpre := (matches_iff ha).mp hmem.2.2
      apply lookup_eq_of_longest hpre
      · rw [ruleTable, hfirst]
        rfl
      · intro p hp hne
        obtain ⟨b, hb, hbp, hba, rfl⟩ := exists_call_of_ruleTable hne
        have hle := hmax b ⟨hb, hbp, (matches_iff hba).mpr hp⟩
        simp only [priority, ha, hba, ↓reduceIte, add_le_add_iff_right] at hle
        exact labels_length_le hp hpre hle

def SamePerPattern (calls calls' : List AclCall) : Prop :=
  ∀ property pattern, (calls'.filter fun c => c.property = property ∧ c.fqdn = pattern) =
    calls.filter fun c => c.property = property ∧ c.fqdn = pattern

variable {calls' : List AclCall}

section

variable (h : SamePerPattern calls calls')
include h

theorem SamePerPattern.mem_iff (c : AclCall) : c ∈ calls' ↔ c ∈ calls := by
  have hc := congrArg (c ∈ ·) (h c.property c.fqdn)
  simpa using hc

theorem SamePerPattern.find? : (calls'.reverse.find? fun c => c.property = property ∧ c.fqdn = pattern) =
      calls.reverse.find? fun c => c.property = property ∧ c.fqdn = pattern := by
  rw [← head?_filter, ← head?_filter, filter_reverse, filter_reverse, h]

theorem SamePerPattern.ruleTable_eq (property : AclProperty) : ruleTable calls' property = ruleTable calls property := by
  funext path
  simp only [ruleTable]
  by_cases hpat : ∃ pattern, pattern ≠ cstr "all" ∧ labels pattern = path
  · obtain ⟨pattern, ha, rfl⟩ := hpat
    have hkey : (fun c : AclCall => decide (c.property = property ∧ c.fqdn ≠ cstr "all" ∧ labels c.fqdn = labels pattern)) =
          fun c => decide (c.property = property ∧ c.fqdn = pattern) := by
      funext c
      rw [decide_eq_decide]
      constructor
      · rintro ⟨hp, -, hl⟩
        exact ⟨hp, labels_injective hl⟩
      · rintro ⟨hp, rfl⟩
        exact ⟨hp, ha, rfl⟩
    rw [hkey, h.find?]
  · have hnone : ∀ l : List AclCall, l.find? (fun c => decide (c.property = property ∧
        c.fqdn ≠ cstr "all" ∧ labels c.fqdn = path)) = none := by
      intro l
      rw [find?_eq_none]
      intro c _ hc
      simp only [decide_eq_true_eq] at hc
      exact hpat ⟨c.fqdn, hc.2⟩
    rw [hnone, hnone]

theorem SamePerPattern.childLabels_eq (property : AclProperty) (node : List CStr) :
    childLabels (rulePaths calls' property) node = childLabels (rulePaths calls property) node := by
  ext l
  simp only [childLabels, rulePaths, mem_toFinset, mem_filterMap, mem_map, mem_filter, h.mem_iff]

end

/-- The tree answers with the decisive rule, in whatever order the rules came. -/
theorem getAcl_precedence (calls : List AclCall)
    (hnarrow : ∀ property node, (childLabels (rulePaths calls property) node).card ≤ 255)
    (q : CStr) (property : AclProperty) :
    getAcl (addCalls calls) q (propertyByte property) = ((decisive calls property q).map AclCall.value).getD 0 ∧
      ∀ calls', SamePerPattern calls calls' → getAcl (addCalls calls') q (propertyByte property) =
          getAcl (addCalls calls) q (propertyByte property) := by
  constructor
  · rw [getAcl_eq_lookup (hnarrow property), lookup_eq_decisive]
  · intro calls' h
    have hnarrow' : ∀ node, (childLabels (rulePaths calls' property) node).card ≤ 255 := by
      intro node
      rw [h.childLabels_eq]
      exact hnarrow property node
    rw [getAcl_eq_lookup hnarrow', getAcl_eq_lookup (hnarrow property), h.ruleTable_eq, defaultRule, defaultRule, h.find?]

theorem childLabels_card_le (calls : List AclCall) (property : AclProperty)
    (node : List CStr) : (childLabels (rulePaths calls property) node).card ≤ calls.length :=
  calc (childLabels (rulePaths calls property) node).card ≤ _ := toFinset_card_le _
    _ ≤ (rulePaths calls property).length := length_filterMap_le _ _
    _ ≤ calls.length := by
      rw [rulePaths, length_map]
      exact length_filter_le _ _

theorem getAcl_precedence_nested_wildcards :
    let calls : List AclCall := [⟨cstr ".nz", .test, 1⟩, ⟨cstr "foo.wand.net.nz", .test, 3⟩,
      ⟨cstr ".wand.net.nz", .test, 0⟩, ⟨cstr "all", .test, 5⟩, ⟨cstr ".nz", .test, 2⟩]
    getAcl (addCalls calls) (cstr "bar.wand.net.nz") 2 = 0 ∧ getAcl (addCalls calls) (cstr "bar.net.nz") 2 = 2 ∧
      getAcl (addCalls calls) (cstr "foo.wand.net.nz") 2 = 3 ∧
      getAcl (addCalls calls) (cstr "nz") 2 = 5 := by
  intro calls
  have hall := fun q => (getAcl_precedence calls
    (fun property node => (childLabels_card_le calls property node).trans (by decide)) q .test).1
  refine ⟨(hall _).trans ?_, (hall _).trans ?_, (hall _).trans ?_, (hall _).trans ?_⟩ <;> decide

end Amplet.AclRules
