import Amplet.AclPaths
import Amplet.LongestPrefix

/-!
# Precedence of access control rules

A node that was never set explicitly carries the permission of its parent. Under this
invariant a query is a longest-prefix lookup in the table of explicit settings.
-/

namespace Amplet.AclPrecedence
open List Bytes AclTree AclPaths LongestPrefix

def childLabels (paths : List (List CStr)) (node : List CStr) : Finset CStr :=
  (paths.filterMap fun p => if node <+: p then p[node.length]? else none).toFinset

variable {paths : List (List CStr)} {l : CStr} {i : ℕ}

theorem mem_childLabels {node rest : List CStr} (h : node ++ l :: rest ∈ paths) : l ∈ childLabels paths node := by
  simp only [childLabels, mem_toFinset, mem_filterMap]
  exact ⟨_, h, by simp⟩

theorem exists_of_mem_childLabels {node : List CStr} (h : l ∈ childLabels paths node) : ∃ rest, node ++ l :: rest ∈ paths := by
  simp only [childLabels, mem_toFinset, mem_filterMap] at h
  obtain ⟨p, hp, hl⟩ := h
  split_ifs at hl with hpre
  obtain ⟨t, rfl⟩ := hpre
  cases t with
  | nil => simp at hl
  | cons l' t =>
    simp only [le_refl, getElem?_append_right, Nat.sub_self, getElem?_cons_zero, Option.some.injEq] at hl
    exact ⟨t, hl ▸ hp⟩

/-- Non-wildcard nodes are ends of names, so only the root and wildcards have children. -/
inductive Inherits (paths : List (List CStr)) : UInt8 → List CStr → AclNode → Prop where
  | mk {parent : UInt8} {path : List CStr} {node : AclNode}
      (unset : node.isset = false → node.permissions = parent)
      (leaf : path ≠ [] → node.isWildcard = false → node.children = [])
      (count : node.numChildren.toNat = node.children.length)
      (nodup : (node.children.map AclNode.label).Nodup)
      (known : ∀ c ∈ node.children, c.label ∈ childLabels paths path)
      (inherit : ∀ c ∈ node.children, Inherits paths node.permissions (path ++ [c.label]) c) :
      Inherits paths parent path node

def setting (node : AclNode) : List CStr → Option UInt8
  | [] => if node.isset then some node.permissions else none
  | l :: path =>
    match node.children.find? (fun c => c.label = l) with
    | some c => setting c path
    | none => none

theorem setting_none_eq (node : AclNode) (h : node.children.find? (fun c => c.label = l) = none) :
    below (setting node) l = fun _ => none := by
  funext p
  simp [below, setting, h]

variable {c : AclNode}

theorem setting_some_eq (node : AclNode) (h : node.children.find? (fun c => c.label = l) = some c) :
    below (setting node) l = setting c := by
  funext p
  simp [below, setting, h]

variable {node : AclNode} {parent : UInt8} {path : List CStr}

theorem Inherits.own (h : Inherits paths parent path node) : (setting node []).getD parent = node.permissions := by
  cases h with
  | mk unset =>
    cases hs : node.isset with
    | true => simp [setting, hs]
    | false => simp [setting, hs, unset hs]

theorem getAclLoop_eq (children : List AclNode) (fqdn : CStr) (start : ℕ) (permissions : UInt8) :
    getAclLoop children children.length fqdn start permissions =
      match children.find? (fun c => c.label = fqdn.drop start) with
      | some c => getAclInternal c (fqdn.take start)
      | none => permissions := by
  induction children with
  | nil => simp [getAclLoop]
  | cons c rest ih =>
    by_cases hc : c.label = fqdn.drop start
    · simp [getAclLoop, hc]
    · simp [getAclLoop, hc, ih]

theorem getAclInternal_eq (fqdn : CStr) (hcount : node.numChildren.toNat = node.children.length) : getAclInternal node fqdn =
      match node.children.find? (fun c => c.label = fqdn.drop (getLabel fqdn)) with
      | some c => getAclInternal c (fqdn.take (getLabel fqdn))
      | none => node.permissions := by
  obtain ⟨label, permissions, isset, numChildren, children⟩ := node
  dsimp only at hcount
  rw [getAclInternal]
  by_cases hn : 0 < numChildren
  · rw [if_pos hn, hcount, getAclLoop_eq]
  · have hzero : children = [] := by
      rw [UInt8.lt_iff_toNat_lt] at hn
      simp only [UInt8.toNat_zero, not_lt, nonpos_iff_eq_zero] at hn
      exact length_eq_zero_iff.mp (by omega)
    rw [if_neg hn, hzero]
    rfl

theorem lookup_setting_cons (h : Inherits paths parent path node) (l : CStr) (rest : List CStr) :
    lookup (setting node) parent (l :: rest) =
      match node.children.find? (fun c => c.label = l) with
      | some c => lookup (setting c) node.permissions rest
      | none => node.permissions := by
  rw [LongestPrefix.lookup, h.own]
  cases hf : node.children.find? (fun c => c.label = l) with
  | some c => rw [setting_some_eq node hf]
  | none =>
    rw [setting_none_eq node hf]
    exact lookup_eq_fallback (fun _ _ => rfl) _

theorem Inherits.child (h : Inherits paths parent path node) (hf : node.children.find? (fun c => c.label = l) = some c) :
    c ∈ node.children ∧ c.label = l ∧ Inherits paths node.permissions (path ++ [l]) c := by
  have hmem := mem_of_find?_eq_some hf
  have hl : c.label = l := by simpa using find?_some hf
  cases h with
  | mk _ _ _ _ _ inherit => exact ⟨hmem, hl, hl ▸ inherit c hmem⟩

theorem getAclInternal_nil (hwf : ∀ p ∈ paths, WellFormed p) (hpath : path ≠ [])
    (h : Inherits paths parent path node) : getAclInternal node [] = node.permissions := by
  cases h with
  | mk _ _ count _ known _ =>
    rw [getAclInternal_eq [] count]
    have hnone : node.children.find? (fun c => c.label = ([] : CStr)) = none := by
      rw [find?_eq_none]
      intro c hc hl
      obtain ⟨rest, hrest⟩ := exists_of_mem_childLabels (known c hc)
      exact (hwf _ hrest).label_ne_nil hpath (by simpa using hl)
    simp only [drop_nil, hnone]

theorem getAclInternal_eq_lookup (hwf : ∀ p ∈ paths, WellFormed p) (h : Inherits paths parent path node) (fqdn : CStr) :
    getAclInternal node fqdn = lookup (setting node) parent (labels fqdn) := by
  induction hn : fqdn.length using Nat.strong_induction_on generalizing fqdn parent path node with
  | _ n ih =>
    have hcount : node.numChildren.toNat = node.children.length := by cases h; assumption
    rw [getAclInternal_eq fqdn hcount, labels]
    split_ifs with hstart
    · rw [lookup_setting_cons h]
      cases hf : node.children.find? (fun c => c.label = fqdn.drop (getLabel fqdn)) with
      | none => rfl
      | some c =>
        have hlt := getLabel_lt hstart
        exact ih _ (by simp only [length_take]; omega) (h.child hf).2.2 _ rfl
    · rw [lookup_setting_cons h]
      simp only [ne_eq, not_not] at hstart
      rw [hstart, drop_zero, take_zero]
      cases hf : node.children.find? (fun c => c.label = fqdn) with
      | none => rfl
      | some c =>
        have hc := (h.child hf).2.2
        have hown := hc.own
        simp only [LongestPrefix.lookup, hown]
        exact getAclInternal_nil hwf (by simp) hc

theorem updateAclChildren_eq (children : List AclNode) (value : UInt8) : updateAclChildren children children.length value =
      children.map (fun c => updateAclSubtree c value) := by
  induction children with
  | nil => simp [updateAclChildren]
  | cons c rest ih => simp [updateAclChildren, ih]

theorem updateAclSubtree_label (node : AclNode) (value : UInt8) : (updateAclSubtree node value).label = node.label := by
  obtain ⟨label, permissions, isset, numChildren, children⟩ := node
  rw [updateAclSubtree]
  split_ifs <;> rfl

variable {f : AclNode → AclNode}

theorem find?_map_label (children : List AclNode) (hf : ∀ c, (f c).label = c.label) (l : CStr) :
    (children.map f).find? (fun c => c.label = l) = (children.find? (fun c => c.label = l)).map f := by
  rw [find?_map]
  congr 2
  funext c
  simp [hf]

theorem setting_map (node : AclNode) (hf : ∀ c, (f c).label = c.label)
    (hset : ∀ c ∈ node.children, setting (f c) = setting c) (l : CStr) (p : List CStr) :
    setting { node with children := node.children.map f } (l :: p) = setting node (l :: p) := by
  simp only [setting, find?_map_label node.children hf]
  cases hfind : node.children.find? (fun c => c.label = l) with
  | none => rfl
  | some c => simp [hset c (mem_of_find?_eq_some hfind)]

theorem updateAclSubtree_eq (value : UInt8) (hcount : node.numChildren.toNat = node.children.length) :
    updateAclSubtree node value =
      if node.isset && node.isWildcard then node
      else { node with
        permissions := if node.isset then node.permissions else value
        children := node.children.map (fun c => updateAclSubtree c value) } := by
  obtain ⟨label, permissions, isset, numChildren, children⟩ := node
  dsimp only at hcount
  rw [updateAclSubtree, hcount, updateAclChildren_eq]
  rfl

theorem updateAclSubtree_inherits (value : UInt8) (h : Inherits paths parent path node) (hroot : path = [] → node.isset = false) :
    Inherits paths value path (updateAclSubtree node value) ∧ setting (updateAclSubtree node value) = setting node := by
  induction h with
  | @mk parent path node unset leaf count nodup known inherit ih =>
    rw [updateAclSubtree_eq value count]
    by_cases hw : (node.isset && node.isWildcard) = true
    · rw [if_pos hw]
      simp only [Bool.and_eq_true] at hw
      refine ⟨⟨fun hs => ?_, leaf, count, nodup, known, inherit⟩, rfl⟩
      simp [hw.1] at hs
    · rw [if_neg hw]
      have ih' : ∀ c ∈ node.children, Inherits paths value (path ++ [c.label])
          (updateAclSubtree c value) ∧ setting (updateAclSubtree c value) = setting c :=
        fun c hc => ih c hc (by simp)
      constructor
      · refine ⟨fun hs => ?_, fun hp hl => ?_, by simpa using count, ?_, ?_, ?_⟩
        · simp only at hs ⊢
          simp [hs]
        · simp [leaf hp hl]
        · simpa [map_map, Function.comp_def, updateAclSubtree_label] using nodup
        · intro c hc
          obtain ⟨b, hb, rfl⟩ := mem_map.mp hc
          rw [updateAclSubtree_label]
          exact known b hb
        · intro c hc
          obtain ⟨b, hb, rfl⟩ := mem_map.mp hc
          cases hs : node.isset with
          | true =>
            -- a set node that is updated is the end of a name
            have hp : path ≠ [] := fun hp => by simp [hroot hp] at hs
            have hnil := leaf hp (by simpa [hs] using hw)
            simp [hnil] at hb
          | false =>
            simp only [Bool.false_eq_true, ↓reduceIte, updateAclSubtree_label]
            exact (ih' b hb).1
      · funext p
        cases p with
        | nil => cases hs : node.isset <;> simp [setting, hs]
        | cons l p =>
          have hmap := setting_map node (f := fun c => updateAclSubtree c value)
            (fun c => updateAclSubtree_label c value) (fun c hc => (ih' c hc).2) l p
          rw [← hmap]
          rfl

def addPath (root : AclNode) : List CStr → UInt8 → AclNode
  | [], _ => root
  | [l], value =>
    match findChild root l with
    | some i => { root with children := root.children.modify i (modifyRule value) }
    | none => appendChild root (newAclNode l value true)
  | l :: path, value =>
    match findChild root l with
    | some i => { root with children := root.children.modify i fun c => addPath c path value }
    | none => appendChild root (addPath (newAclNode l root.permissions false) path value)

theorem addAclInternal_eq_addPath (root : AclNode) (fqdn : CStr) (value : UInt8) :
    addAclInternal root fqdn value = addPath root (labels fqdn) value := by
  induction hn : fqdn.length using Nat.strong_induction_on generalizing fqdn root with
  | _ n ih =>
    rw [addAclInternal, labels]
    by_cases hstart : getLabel fqdn ≠ 0
    · have hlt := getLabel_lt hstart
      have hrec := fun r => ih _ (by simp only [length_take]; omega) r (fqdn.take (getLabel fqdn)) rfl
      obtain ⟨l, p, hp⟩ := exists_cons_of_ne_nil (labels_ne_nil (fqdn.take (getLabel fqdn)))
      cases hf : findChild root (fqdn.drop (getLabel fqdn)) <;>
        simp only [hstart, not_false_eq_true, ↓reduceDIte, hrec, hp, addPath, ne_eq, hf]
    · simp only [ne_eq, not_not] at hstart
      cases hf : findChild root fqdn <;>
        simp only [hstart, ne_eq, not_true_eq_false, ↓reduceDIte, drop_zero, addPath, hf]

theorem modifyRule_label (value : UInt8) (c : AclNode) : (modifyRule value c).label = c.label :=
  rfl

theorem addPath_label (root : AclNode) (path : List CStr) (value : UInt8) : (addPath root path value).label = root.label := by
  match path with
  | [] => rfl
  | [l] =>
    rw [addPath]
    cases findChild root l <;> rfl
  | l :: l' :: path =>
    rw [addPath]
    · cases findChild root l <;> rfl
    · simp

variable {children : List AclNode}

theorem modify_findIdx? (f : AclNode → AclNode) (hnodup : (children.map AclNode.label).Nodup)
    (hi : children.findIdx? (fun c => c.label = l) = some i) :
    children.modify i f = children.map (fun c => if c.label = l then f c else c) := by
  induction children generalizing i with
  | nil => simp at hi
  | cons c rest ih =>
    simp only [map_cons, nodup_cons] at hnodup
    rw [findIdx?_cons] at hi
    by_cases hc : c.label = l
    · simp only [hc, decide_true, ↓reduceIte, Option.some.injEq] at hi
      subst hi
      have hrest : rest.map (fun c => if c.label = l then f c else c) = rest := by
        refine (map_congr_left fun b hb => ?_).trans (map_id rest)
        have hne : b.label ≠ l := fun hbl =>
          hnodup.1 (hc ▸ hbl ▸ mem_map_of_mem hb)
        simp [hne]
      simp [hc, hrest]
    · simp only [hc, decide_false, Bool.false_eq_true, ↓reduceIte, Option.map_eq_some_iff] at hi
      obtain ⟨j, hj, rfl⟩ := hi
      simp [hc, ih hnodup.2 hj]

theorem findChild_eq {root : AclNode} (l : CStr) (hcount : root.numChildren.toNat = root.children.length) :
    findChild root l = root.children.findIdx? (fun c => c.label = l) := by
  simp [findChild, hcount]

theorem find?_eq_none_of_findIdx? (h : children.findIdx? (fun c => c.label = l) = none) :
    children.find? (fun c => c.label = l) = none := by
  rw [findIdx?_eq_none_iff] at h
  rw [find?_eq_none]
  intro c hc
  simpa using h c hc

theorem exists_find?_of_findIdx? (h : children.findIdx? (fun c => c.label = l) = some i) :
    ∃ c, children.find? (fun c => c.label = l) = some c := by
  rw [← Option.isSome_iff_exists, find?_isSome]
  obtain ⟨hi, hp, -⟩ := findIdx?_eq_some_iff_getElem.mp h
  exact ⟨_, getElem_mem hi, hp⟩

theorem setting_mapChild (hc : node.children.find? (fun c => c.label = l) = some c)
    (hg : ∀ b, (if b.label = l then f b else b).label = b.label) :
    setting { node with children := node.children.map fun b => if b.label = l then f b else b } =
      graft (setting node) l (setting (f c)) := by
  funext p
  cases p with
  | nil => rfl
  | cons k p =>
    simp only [setting, find?_map_label _ hg, graft]
    by_cases hk : k = l
    · subst hk
      have hcl : c.label = k := by simpa using find?_some hc
      simp [hc, hcl]
    · cases hfk : node.children.find? (fun c => c.label = k) with
      | none => simp [hk]
      | some b =>
        have hbk : b.label = k := by simpa using find?_some hfk
        simp [hk, hbk]

theorem inherits_modify (h : Inherits paths parent path node) (hi : node.children.findIdx? (fun c => c.label = l) = some i)
    (hc : node.children.find? (fun c => c.label = l) = some c) (hlabel : ∀ c, (f c).label = c.label)
    (hf : Inherits paths node.permissions (path ++ [l]) (f c)) :
    Inherits paths parent path { node with children := node.children.modify i f } ∧
      setting { node with children := node.children.modify i f } = graft (setting node) l (setting (f c)) := by
  cases h with
  | mk unset leaf count nodup known inherit =>
    have hg : ∀ b, (if b.label = l then f b else b).label = b.label := by
      intro b
      split_ifs
      · exact hlabel b
      · rfl
    rw [modify_findIdx? f nodup hi]
    constructor
    · refine ⟨unset, fun hp hl => by simp [leaf hp hl], by simpa using count, ?_, ?_, ?_⟩
      · simpa [map_map, Function.comp_def, hg] using nodup
      · intro b hb
        obtain ⟨a, ha, rfl⟩ := mem_map.mp hb
        rw [hg]
        exact known a ha
      · intro b hb
        obtain ⟨a, ha, rfl⟩ := mem_map.mp hb
        dsimp only
        split_ifs with hal
        · -- distinct labels: the only child called `l` is `c`
          have hac : a = c := by
            have hcl : c.label = l := by simpa using find?_some hc
            exact inj_on_of_nodup_map nodup ha (mem_of_find?_eq_some hc) (hal.trans hcl.symm)
          rw [hlabel, hal, hac]
          exact hf
        · exact inherit a ha
    · exact setting_mapChild hc hg

theorem children_appendChild (c : AclNode) (count : node.numChildren.toNat = node.children.length) :
    (appendChild node c).children = node.children ++ [c] := by
  simp [appendChild, count]

theorem setting_appendChild (count : node.numChildren.toNat = node.children.length)
    (hnone : node.children.find? (fun b => b.label = c.label) = none) :
    setting (appendChild node c) = graft (setting node) c.label (setting c) := by
  funext p
  cases p with
  | nil => rfl
  | cons k p =>
    simp only [setting, children_appendChild c count, find?_append, graft]
    by_cases hk : k = c.label
    · subst hk
      simp [hnone]
    · cases hfk : node.children.find? (fun b => b.label = k) with
      | none => simp [hk, Ne.symm hk]
      | some b => simp [hk]

theorem length_le_childLabels (nodup : (children.map AclNode.label).Nodup)
    (known : ∀ b ∈ children, b.label ∈ childLabels paths path) :
    children.length ≤ (childLabels paths path).card := by
  calc children.length = (children.map AclNode.label).toFinset.card := by
        rw [toFinset_card_of_nodup nodup, length_map]
    _ ≤ (childLabels paths path).card := by
        apply Finset.card_le_card
        intro l hl
        simp only [mem_toFinset, mem_map] at hl
        obtain ⟨b, hb, rfl⟩ := hl
        exact known b hb

theorem inherits_appendChild (hnarrow : ∀ node, (childLabels paths node).card ≤ 255)
    (h : Inherits paths parent path node) (hwild : path = [] ∨ node.isWildcard = true)
    (hnone : node.children.find? (fun b => b.label = c.label) = none)
    (hknown : c.label ∈ childLabels paths path)
    (hc : Inherits paths node.permissions (path ++ [c.label]) c) :
    Inherits paths parent path (appendChild node c) ∧
      setting (appendChild node c) = graft (setting node) c.label (setting c) := by
  cases h with
  | mk unset leaf count nodup known inherit =>
    have hchildren := children_appendChild c count
    have hfresh : c.label ∉ node.children.map AclNode.label := by
      intro hmem
      obtain ⟨b, hb, hbl⟩ := mem_map.mp hmem
      rw [find?_eq_none] at hnone
      exact hnone b hb (by simpa using hbl)
    have hnodup' : ((node.children ++ [c]).map AclNode.label).Nodup := by
      rw [map_append, map_singleton, nodup_append]
      refine ⟨nodup, nodup_singleton _, ?_⟩
      rintro a ha b hb rfl
      rw [mem_singleton] at hb
      exact hfresh (hb ▸ ha)
    have hknown' : ∀ b ∈ node.children ++ [c], b.label ∈ childLabels paths path := by
      intro b hb
      rcases mem_append.mp hb with hb | hb
      · exact known b hb
      · rw [mem_singleton.mp hb]
        exact hknown
    have hcard : node.children.length + 1 ≤ 255 := by
      have hle := length_le_childLabels hnodup' hknown'
      rw [length_append, length_singleton] at hle
      exact hle.trans (hnarrow path)
    constructor
    · refine ⟨unset, fun hp hl => ?_, ?_, by rw [hchildren]; exact hnodup', by rw [hchildren]; exact hknown', ?_⟩
      · rcases hwild with hw | hw
        · exact absurd hw hp
        · have hl' : node.isWildcard = false := hl
          simp [hw] at hl'
      · rw [hchildren]
        simp only [appendChild, UInt8.toNat_add, UInt8.toNat_one, length_append, length_singleton]
        omega
      · intro b hb
        rw [hchildren] at hb
        rcases mem_append.mp hb with hb | hb
        · exact inherit b hb
        · rw [mem_singleton.mp hb]
          exact hc
    · exact setting_appendChild count hnone

theorem modifyRule_inherits (value : UInt8) (hpath : path ≠ []) (h : Inherits paths parent path node) :
    Inherits paths parent path (modifyRule value node) ∧
      setting (modifyRule value node) = Function.update (setting node) [] (some value) := by
  cases h with
  | mk unset leaf count nodup known inherit =>
    cases hw : node.isWildcard with
    | false =>
      have hnil := leaf hpath hw
      have heq : modifyRule value node = { node with permissions := value, isset := true } := by
        simp [modifyRule, hw]
      rw [heq]
      constructor
      · refine ⟨fun hs => absurd hs (by simp), leaf, count, nodup, known, ?_⟩
        simp [hnil]
      · funext p
        cases p with
        | nil => simp [setting]
        | cons l p => simp [setting, hnil]
    | true =>
      have heq : modifyRule value node =
          { node with
            permissions := value
            isset := true
            children := node.children.map (fun c => updateAclSubtree c value) } := by
        simp [modifyRule, hw, count, updateAclChildren_eq]
      have hsub := fun c hc => updateAclSubtree_inherits value (inherit c hc) (by simp)
      rw [heq]
      constructor
      · refine ⟨fun hs => absurd hs (by simp), fun hp hl => ?_, by simpa using count, ?_, ?_, ?_⟩
        · simp [leaf hp hl]
        · simpa [map_map, Function.comp_def, updateAclSubtree_label] using nodup
        · intro b hb
          obtain ⟨c, hc, rfl⟩ := mem_map.mp hb
          rw [updateAclSubtree_label]
          exact known c hc
        · intro b hb
          obtain ⟨c, hc, rfl⟩ := mem_map.mp hb
          rw [updateAclSubtree_label]
          exact (hsub c hc).1
      · funext p
        cases p with
        | nil => simp [setting]
        | cons l p =>
          rw [Function.update_of_ne (by simp)]
          exact setting_map node (fun c => updateAclSubtree_label c value) (fun c hc => (hsub c hc).2) l p

theorem newAclNode_inherits (paths : List (List CStr)) (path : List CStr) (label : CStr)
    {permissions : UInt8} {isset : Bool} (h : isset = false → permissions = parent) :
    Inherits paths parent path (newAclNode label permissions isset) :=
  ⟨h, fun _ _ => rfl, rfl, nodup_nil, by simp [newAclNode], by simp [newAclNode]⟩

theorem setting_newAclNode (label : CStr) (permissions : UInt8) (isset : Bool) : setting (newAclNode label permissions isset) =
      Function.update (fun _ => none) [] (if isset then some permissions else none) := by
  funext p
  cases p with
  | nil => rw [Function.update_self]; rfl
  | cons l p => simp [setting, newAclNode]

theorem addPath_spec (hwf : ∀ p ∈ paths, WellFormed p)
    (hnarrow : ∀ node, (childLabels paths node).card ≤ 255) {rule : List CStr} (value : UInt8)
    (h : Inherits paths parent path node) (hwild : path = [] ∨ node.isWildcard = true)
    (hne : rule ≠ []) (hmem : path ++ rule ∈ paths) :
    Inherits paths parent path (addPath node rule value) ∧
      setting (addPath node rule value) = Function.update (setting node) rule (some value) := by
  induction rule generalizing parent path node with
  | nil => exact absurd rfl hne
  | cons l rest ih =>
    have hcount : node.numChildren.toNat = node.children.length := by cases h; assumption
    have hknown := mem_childLabels hmem
    rw [update_cons_eq_graft]
    cases rest with
    | nil =>
      rw [addPath, findChild_eq l hcount]
      cases hi : node.children.findIdx? (fun c => c.label = l) with
      | some i =>
        obtain ⟨c, hc⟩ := exists_find?_of_findIdx? hi
        have hrule := modifyRule_inherits value (by simp) (h.child hc).2.2
        have hmod := inherits_modify h hi hc (modifyRule_label value) hrule.1
        rw [hrule.2, ← setting_some_eq node hc] at hmod
        exact hmod
      | none =>
        have hnone := find?_eq_none_of_findIdx? hi
        have happ := inherits_appendChild (c := newAclNode l value true) hnarrow h hwild hnone
          hknown (newAclNode_inherits paths _ l (by simp))
        rw [setting_newAclNode, if_pos rfl, ← setting_none_eq node hnone] at happ
        exact happ
    | cons l' rest =>
      -- more labels follow, so `l` is a wildcard and its node may have children
      have hl := (hwf _ hmem).wildcard (cons_ne_nil l' rest)
      have hmem' : path ++ [l] ++ l' :: rest ∈ paths := by simpa using hmem
      rw [addPath, findChild_eq l hcount]
      · cases hi : node.children.findIdx? (fun c => c.label = l) with
        | some i =>
          obtain ⟨c, hc⟩ := exists_find?_of_findIdx? hi
          obtain ⟨-, hcl, hinh⟩ := h.child hc
          have hrec := ih hinh (Or.inr (by simp [AclNode.isWildcard, hcl, hl])) (by simp) hmem'
          have hmod := inherits_modify h hi hc (fun c => addPath_label c (l' :: rest) value) hrec.1
          rw [hrec.2, ← setting_some_eq node hc] at hmod
          exact hmod
        | none =>
          have hnone := find?_eq_none_of_findIdx? hi
          have hnew : Inherits paths node.permissions (path ++ [l]) (newAclNode l node.permissions false) :=
            newAclNode_inherits paths (path ++ [l]) l (fun _ => rfl)
          have hrec := ih hnew (Or.inr (by simp [AclNode.isWildcard, newAclNode, hl])) (by simp) hmem'
          have hlabel : (addPath (newAclNode l node.permissions false) (l' :: rest) value).label = l := addPath_label _ _ _
          have happ := inherits_appendChild (c := addPath (newAclNode l node.permissions false) (l' :: rest) value) hnarrow h
            hwild (by rw [hlabel]; exact hnone) (by rw [hlabel]; exact hknown)
            (by rw [hlabel]; exact hrec.1)
          have hempty : setting (newAclNode l node.permissions false) = fun _ => none := by
            rw [setting_newAclNode, if_neg (by simp), Function.update_eq_self_iff]
          rw [hrec.2, hlabel, hempty, ← setting_none_eq node hnone] at happ
          exact happ
      · simp

theorem addPath_isset (root : AclNode) (path : List CStr) (value : UInt8) : (addPath root path value).isset = root.isset := by
  match path with
  | [] => rfl
  | [l] =>
    rw [addPath]
    cases findChild root l <;> rfl
  | l :: l' :: path =>
    rw [addPath]
    · cases findChild root l <;> rfl
    · simp

end Amplet.AclPrecedence
