import Amplet.AclTree

/-!
# Names as label paths

`labels` lists the labels the tree code cuts off a name, last label first. A pattern
that starts with a dot is a suffix of a name exactly when its labels are a prefix of
those of the name.
-/

namespace Amplet.AclPaths
open List Bytes AclTree

def labels (fqdn : CStr) : List CStr :=
  if _h : getLabel fqdn ≠ 0 then
    fqdn.drop (getLabel fqdn) :: labels (fqdn.take (getLabel fqdn))
  else [fqdn]
termination_by fqdn.length
decreasing_by
  have := getLabel_lt _h
  simp only [length_take]
  omega

variable {q s pattern : CStr}

theorem labels_of_no_dot (h : dot ∉ s) : labels s = [s] := by
  rw [labels]
  simp [getLabel, strrchr_eq_none h]

theorem labels_of_leading_dot {b : CStr} (h : dot ∉ b) : labels (dot :: b) = [dot :: b] := by
  have hs := strrchr_append_cons [] h
  rw [labels]
  simp only [nil_append, length_nil] at hs
  simp [getLabel, hs]

theorem labels_append {a b : CStr} (ha : a ≠ []) (h : dot ∉ b) : labels (a ++ dot :: b) = (dot :: b) :: labels a := by
  have hs := strrchr_append_cons a h
  rw [labels]
  simp [getLabel, hs, ha]

theorem labels_ne_nil (s : CStr) : labels s ≠ [] := by
  rw [labels]
  split_ifs <;> simp

theorem name_induction {P : CStr → Prop} (bare : ∀ s, dot ∉ s → P s) (leading : ∀ b, dot ∉ b → P (dot :: b))
    (append : ∀ a b, a ≠ [] → dot ∉ b → P a → P (a ++ dot :: b)) (s : CStr) : P s := by
  induction hn : s.length using Nat.strong_induction_on generalizing s with
  | _ n ih =>
    rcases last_split dot s with h | ⟨a, b, rfl, hb⟩
    · exact bare s h
    · by_cases ha : a = []
      · subst ha
        exact leading b hb
      · refine append a b ha hb (ih a.length ?_ a rfl)
        subst hn
        simp

theorem labels_flatten (s : CStr) : (labels s).reverse.flatten = s := by
  induction s using name_induction with
  | bare s h => simp [labels_of_no_dot h]
  | leading b h => simp [labels_of_leading_dot h]
  | append a b ha h ih => simp [labels_append ha h, ih]

theorem labels_injective {t : CStr} (h : labels s = labels t) : s = t := by
  rw [← labels_flatten s, ← labels_flatten t, h]

/-- Only the last label of a path may lack its dot, and only a lone label may
be empty. -/
structure WellFormed (path : List CStr) : Prop where
  wildcards : ∀ l ∈ path.dropLast, l.head? = some dot
  nonempty : ∀ l ∈ path.tail, l ≠ []

theorem labels_wellFormed (s : CStr) : WellFormed (labels s) := by
  induction s using name_induction with
  | bare s h => exact ⟨by simp [labels_of_no_dot h], by simp [labels_of_no_dot h]⟩
  | leading b h => exact ⟨by simp [labels_of_leading_dot h], by simp [labels_of_leading_dot h]⟩
  | append a b ha h ih =>
    rw [labels_append ha h]
    constructor
    · intro l hl
      rw [dropLast_cons_of_ne_nil (labels_ne_nil a)] at hl
      rcases mem_cons.mp hl with rfl | hl
      · simp
      · exact ih.wildcards l hl
    · intro l hl hnil
      subst hnil
      cases hp : labels a with
      | nil => exact labels_ne_nil a hp
      | cons l' p =>
        simp only [hp, tail_cons, mem_cons] at hl
        rcases hl with rfl | hl
        · have hf := labels_flatten a
          have hw := ih.nonempty
          rw [hp] at hf hw
          cases p with
          | nil => exact ha (by simpa using hf.symm)
          | cons l'' p =>
            have := ih.wildcards [] (by simp [hp])
            simp at this
        · exact ih.nonempty [] (by simpa [hp] using hl) rfl

theorem WellFormed.wildcard {p rest : List CStr} {l : CStr} (h : WellFormed (p ++ l :: rest))
    (hrest : rest ≠ []) : l.head? = some dot := by
  apply h.wildcards
  rw [dropLast_append_of_ne_nil (by simp), dropLast_cons_of_ne_nil hrest]
  simp

theorem WellFormed.label_ne_nil {p rest : List CStr} {l : CStr} (h : WellFormed (p ++ l :: rest)) (hp : p ≠ []) : l ≠ [] := by
  apply h.nonempty
  rw [tail_append_of_ne_nil hp]
  simp

theorem suffix_of_labels_prefix (h : labels pattern <+: labels q) : pattern <:+ q := by
  obtain ⟨t, ht⟩ := h
  refine ⟨t.reverse.flatten, ?_⟩
  rw [← labels_flatten q, ← ht, reverse_append, flatten_append, labels_flatten]

theorem head_of_wildcard_labels (h : ∀ l ∈ labels s, l.head? = some dot) : s.head? = some dot := by
  induction s using name_induction with
  | bare s hs => exact h s (by simp [labels_of_no_dot hs])
  | leading b hb => rfl
  | append a b ha hb ih =>
    rw [labels_append ha hb] at h
    rw [head?_append_of_ne_nil _ ha]
    exact ih fun l hl => h l (mem_cons_of_mem _ hl)

theorem labels_prefix_of_suffix (hdot : pattern.head? = some dot) (h : pattern <:+ q) : labels pattern <+: labels q := by
  obtain ⟨x, rfl⟩ := h
  induction pattern using name_induction with
  | bare s hs =>
    cases s with
    | nil => simp at hdot
    | cons c s => exact absurd (by simp_all) hs
  | leading b hb =>
    by_cases hx : x = []
    · simp [hx]
    · rw [labels_append hx hb, labels_of_leading_dot hb]
      simp
  | append a b ha hb ih =>
    rw [head?_append_of_ne_nil _ ha] at hdot
    rw [← append_assoc, labels_append ha hb, labels_append (append_ne_nil_of_right_ne_nil x ha) hb]
    exact (prefix_cons_inj _).mpr (ih hdot)

theorem labels_prefix_iff : labels pattern <+: labels q ↔
      (pattern.head? = some dot ∧ pattern <:+ q) ∨ (pattern.head? ≠ some dot ∧ pattern = q) := by
  constructor
  · intro h
    by_cases hdot : pattern.head? = some dot
    · exact Or.inl ⟨hdot, suffix_of_labels_prefix h⟩
    · refine Or.inr ⟨hdot, labels_injective ?_⟩
      obtain ⟨t, ht⟩ := h
      cases t with
      | nil => simpa using ht
      | cons l t =>
        -- a longer name would put every label of the pattern before its last one
        refine absurd (head_of_wildcard_labels fun l' hl' => ?_) hdot
        apply (labels_wellFormed q).wildcards
        rw [← ht, dropLast_append_of_ne_nil (by simp)]
        exact mem_append_left _ hl'
  · rintro (⟨hdot, h⟩ | ⟨-, rfl⟩)
    · exact labels_prefix_of_suffix hdot h
    · exact prefix_rfl

theorem labels_length_le {p₁ p₂ : CStr} (h₁ : labels p₁ <+: labels q) (h₂ : labels p₂ <+: labels q)
    (hlen : p₁.length ≤ p₂.length) : (labels p₁).length ≤ (labels p₂).length := by
  by_contra hlt
  have hpre : labels p₂ <+: labels p₁ := prefix_of_prefix_length_le h₂ h₁ (by omega)
  have hsuf := suffix_of_labels_prefix hpre
  have heq : p₂ = p₁ := hsuf.eq_of_length_le hlen
  rw [heq] at hlt
  exact hlt le_rfl

end Amplet.AclPaths
