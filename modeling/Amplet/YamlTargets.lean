import Amplet.DepthFirstWalk
import Amplet.Failing
import Amplet.TargetLists

/-!
# Targets of a test definition

Embedding of `parse_test_targets` in `src/measured/schedule.c`. The nodes of a document
are numbered; a sequence lists the numbers of its items, an alias being the number of
the node it stands for. The recursion is bounded by a number of levels; a call that
needs more has not returned. The length of the array is an `int`, which must not
overflow.
-/

namespace Amplet.YamlTargets
open List Bytes TargetLists DepthFirstWalk Failing

inductive YamlNode (count : ℕ)
  | scalar (value : CStr)
  | sequence (items : List (Fin count))
  | mapping (pairs : List (Fin count × Fin count))

structure YamlDocument where
  count : ℕ
  node : Fin count → YamlNode count

inductive Stuck
  | running
  | overflow
deriving DecidableEq, Repr

def intMax : ℕ := 2 ^ 31 - 1

/-- An element is `none` for NULL. -/
structure TargetArray where
  cells : List (Option ℕ)
  len : ℕ
  len_le : len ≤ intMax

def noTargets : TargetArray := ⟨[none], 1, by decide⟩

/-- Keeps what was there; the new element is written before it is read. -/
def TargetArray.grow (a : TargetArray) : List (Option ℕ) :=
  a.cells.take (a.len + 1) ++ replicate (a.len + 1 - a.cells.length) none

def TargetArray.addTarget (a : TargetArray) (target : ℕ) : Except Stuck TargetArray :=
  if h : a.len < intMax then
    .ok ⟨(a.grow.set (a.len - 1) (some target)).set a.len none, a.len + 1, h⟩
  else .error .overflow

def parseTestTargets (document : YamlDocument) : ℕ → Fin document.count → TargetArray → Except Stuck TargetArray
  | 0, _, _ => .error .running
  | levels + 1, index, targets =>
    match document.node index with
    | .scalar _ => targets.addTarget index
    | .sequence items =>
      items.foldlM (fun targets item => parseTestTargets document levels item targets) targets
    | .mapping _ => .ok targets

structure Holds (a : TargetArray) (targets : List ℕ) : Prop where
  cells : a.cells = targets.map some ++ [none]
  len : a.len = targets.length + 1

def items (document : YamlDocument) (i : Fin document.count) : Option (List (Fin document.count)) :=
  match document.node i with
  | .sequence items => some items
  | _ => none

def scalars (document : YamlDocument) (i : Fin document.count) : List ℕ :=
  match document.node i with
  | .scalar _ => [(i : ℕ)]
  | _ => []

section

variable {document : YamlDocument} {a a' : TargetArray} {xs l : List ℕ} {levels : ℕ}
  {i : Fin document.count} {is : List (Fin document.count)}

theorem Holds.addTarget (h : Holds a xs) (hlen : a.len < intMax) (target : ℕ) :
    ∃ a', a.addTarget target = .ok a' ∧ Holds a' (xs ++ [target]) := by
  have hgrow : a.grow = xs.map some ++ [none, none] := by
    rw [TargetArray.grow, take_of_length_le (by simp [h.cells, h.len]), h.cells, h.len]
    simp
  rw [TargetArray.addTarget, dif_pos hlen]
  refine ⟨_, rfl, ?_, ?_⟩
  · dsimp only
    rw [hgrow, h.len]
    simp
  · simp [h.len]

def parseItems (document : YamlDocument) (levels : ℕ) (is : List (Fin document.count))
    (a : TargetArray) : Except Stuck TargetArray :=
  is.foldlM (fun targets item => parseTestTargets document levels item targets) a

theorem parseTestTargets_inner {js : List (Fin document.count)} (h : items document i = some js) (levels : ℕ) (a : TargetArray) :
    parseTestTargets document (levels + 1) i a = parseItems document levels js a := by
  rw [parseTestTargets, parseItems]
  rw [items] at h
  split at h
  next js' hnode =>
    cases h
    rw [hnode]
  · cases h

theorem parseTestTargets_leaf (h : items document i = none) (levels : ℕ) (a : TargetArray) :
    parseTestTargets document (levels + 1) i a =
      (scalars document i).foldlM (fun targets target => targets.addTarget target) a := by
  rw [parseTestTargets, scalars]
  rw [items] at h
  cases hnode : document.node i with
  | scalar value => simp
  | sequence js =>
    rw [hnode] at h
    cases h
  | mapping pairs => rfl

theorem parseItems_cons (levels : ℕ) (i : Fin document.count) (is : List (Fin document.count)) (a : TargetArray) :
    parseItems document levels (i :: is) a = parseTestTargets document levels i a >>= fun a => parseItems document levels is a :=
  foldlM_cons ..

theorem parseItems_append (levels : ℕ) (is js : List (Fin document.count)) (a : TargetArray) :
    parseItems document levels (is ++ js) a = parseItems document levels is a >>= fun a => parseItems document levels js a :=
  foldlM_append ..

theorem parseItems_congr {levels' : ℕ} (hcall : ∀ {i a a'}, parseTestTargets document levels i a = .ok a' →
      parseTestTargets document levels' i a = .ok a')
    (h : parseItems document levels is a = .ok a') : parseItems document levels' is a = .ok a' := by
  induction is generalizing a with
  | nil => exact h
  | cons i is ih =>
    rw [parseItems_cons] at h ⊢
    obtain ⟨a₁, ha₁, hrest⟩ := bind_eq_ok.mp h
    rw [hcall ha₁, ok_bind]
    exact ih hrest

theorem parseTestTargets_succ (h : parseTestTargets document levels i a = .ok a') :
    parseTestTargets document (levels + 1) i a = .ok a' := by
  induction levels generalizing i a a' with
  | zero => cases h
  | succ levels ih =>
    cases hitems : items document i with
    | none =>
      rw [parseTestTargets_leaf hitems] at h ⊢
      exact h
    | some js =>
      rw [parseTestTargets_inner hitems] at h ⊢
      exact parseItems_congr ih h

theorem Holds.addScalars (h : Holds a xs) (i : Fin document.count) (hlen : xs.length + (scalars document i).length < intMax) :
    ∃ a', (scalars document i).foldlM (fun targets target => targets.addTarget target) a = .ok a' ∧
      Holds a' (xs ++ scalars document i) := by
  rw [scalars] at hlen ⊢
  split at hlen
  next value hnode =>
    have hroom : a.len < intMax := by
      rw [h.len]
      simpa using hlen
    obtain ⟨a', ha', hholds⟩ := h.addTarget hroom i
    exact ⟨a', by simp [ha'], hholds⟩
  · exact ⟨a, rfl, by simpa using h⟩

theorem parseItems_of_walk (hwalk : Walk (items document) (scalars document) is l)
    (h : Holds a xs) (hlen : xs.length + l.length < intMax) :
    ∃ levels a', parseItems document levels is a = .ok a' ∧ Holds a' (xs ++ l) := by
  induction hwalk generalizing a xs with
  | nil => exact ⟨0, a, rfl, by simpa using h⟩
  | @leaf i is l hnone _ ih =>
    rw [length_append] at hlen
    obtain ⟨a₁, ha₁, hholds⟩ := h.addScalars i (by omega)
    obtain ⟨levels, a', ha', hholds'⟩ := ih hholds (by rw [length_append]; omega)
    refine ⟨levels + 1, a', ?_, by rwa [← append_assoc]⟩
    rw [parseItems_cons, parseTestTargets_leaf hnone, ha₁, ok_bind]
    exact parseItems_congr parseTestTargets_succ ha'
  | @inner i js is l hsome _ ih =>
    obtain ⟨levels, a', ha', hholds⟩ := ih h hlen
    rw [parseItems_append] at ha'
    obtain ⟨a₁, ha₁, hrest⟩ := bind_eq_ok.mp ha'
    refine ⟨levels + 1, a', ?_, hholds⟩
    rw [parseItems_cons, parseTestTargets_inner hsome, ha₁, ok_bind]
    exact parseItems_congr parseTestTargets_succ hrest

theorem Holds.of_addScalars (h : Holds a xs) (i : Fin document.count)
    (hadd : (scalars document i).foldlM (fun targets target => targets.addTarget target) a = .ok a') :
    Holds a' (xs ++ scalars document i) := by
  by_cases hlen : xs.length + (scalars document i).length < intMax
  · obtain ⟨a₁, ha₁, hholds⟩ := h.addScalars i hlen
    rwa [Except.ok.inj (hadd.symm.trans ha₁)]
  · rw [scalars] at hadd hlen ⊢
    split at hadd
    next value hnode =>
      -- the length overflows, so the call has not returned
      have hroom : ¬a.len < intMax := by
        rw [h.len]
        simpa [hnode] using hlen
      simp [TargetArray.addTarget, hroom] at hadd
    next hnode =>
      obtain rfl : a = a' := Except.ok.inj hadd
      simpa using h

theorem walk_of_parseTestTargets (h : Holds a xs) (hparse : parseTestTargets document levels i a = .ok a') :
    ∃ l, Walk (items document) (scalars document) [i] l ∧ Holds a' (xs ++ l) := by
  induction levels generalizing i a a' xs with
  | zero => cases hparse
  | succ levels ih =>
    cases hitems : items document i with
    | none =>
      rw [parseTestTargets_leaf hitems] at hparse
      refine ⟨scalars document i ++ [], .leaf hitems .nil, ?_⟩
      rw [append_nil]
      exact h.of_addScalars i hparse
    | some js =>
      rw [parseTestTargets_inner hitems] at hparse
      suffices hall : ∃ l, Walk (items document) (scalars document) js l ∧ Holds a' (xs ++ l) by
        obtain ⟨l, hwalk, hholds⟩ := hall
        exact ⟨l, .inner hitems (by rwa [append_nil]), hholds⟩
      clear hitems
      induction js generalizing a xs with
      | nil =>
        obtain rfl : a = a' := Except.ok.inj hparse
        exact ⟨[], .nil, by rwa [append_nil]⟩
      | cons j js ihjs =>
        rw [parseItems_cons] at hparse
        obtain ⟨a₁, ha₁, hrest⟩ := bind_eq_ok.mp hparse
        obtain ⟨l₁, hwalk₁, hholds₁⟩ := ih h ha₁
        obtain ⟨l₂, hwalk₂, hholds₂⟩ := ihjs hholds₁ hrest
        exact ⟨l₁ ++ l₂, hwalk₁.append hwalk₂, by rwa [← append_assoc]⟩

theorem parseTestTargets_of_walk (hwalk : Walk (items document) (scalars document) [i] l) (h : Holds a xs)
    (hlen : xs.length + l.length < intMax) :
    ∃ levels a', parseTestTargets document levels i a = .ok a' ∧ Holds a' (xs ++ l) := by
  obtain ⟨levels, a', hparse, hholds⟩ := parseItems_of_walk hwalk h hlen
  rw [parseItems_cons] at hparse
  obtain ⟨a₁, ha₁, hrest⟩ := bind_eq_ok.mp hparse
  obtain rfl : a₁ = a' := Except.ok.inj hrest
  exact ⟨levels, a₁, ha₁, hholds⟩

end

def Flattens (document : YamlDocument) (i : Fin document.count) (a : TargetArray) (targets : List ℕ) : Prop :=
  ∃ levels a' l, parseTestTargets document levels i a = .ok a' ∧
    Walk (items document) (scalars document) [i] l ∧ Holds a' (targets ++ l)

/-- If and only if no sequence at or below the node contains itself, and one more than the number
of targets fits an `int`. -/
theorem targets_flattened_iff (document : YamlDocument) (i : Fin document.count) (a : TargetArray)
    (targets : List ℕ) (ha : Holds a targets) :
    Flattens document i a targets ↔ Acyclic (items document) i ∧ ∀ l, Walk (items document) (scalars document) [i] l →
        targets.length + l.length < intMax := by
  constructor
  · rintro ⟨levels, a', l, -, hwalk, hholds⟩
    refine ⟨hwalk.acyclic i (mem_singleton_self i), fun l' hwalk' => ?_⟩
    have hlen := a'.len_le
    rw [hholds.len, length_append, hwalk.unique hwalk'] at hlen
    exact hlen
  · rintro ⟨hacyclic, hfits⟩
    obtain ⟨l, hwalk⟩ := hacyclic.exists_walk (scalars document)
    obtain ⟨levels, a', hparse, hholds⟩ := parseTestTargets_of_walk hwalk ha (hfits l hwalk)
    exact ⟨levels, a', l, hparse, hwalk, hholds⟩

def nestedDocument : YamlDocument where
  count := 4
  node := ![.sequence [1, 2], .scalar (cstr "a"), .sequence [3], .scalar (cstr "b")]

def nestedRoot : Fin nestedDocument.count := ⟨0, by decide⟩

theorem holds_noTargets : Holds noTargets [] := ⟨rfl, rfl⟩

theorem targets_flattened_nested : Flattens nestedDocument nestedRoot noTargets [] ↔ Acyclic (items nestedDocument) nestedRoot ∧
        ∀ l, Walk (items nestedDocument) (scalars nestedDocument) [nestedRoot] l → ([] : List ℕ).length + l.length < intMax :=
  targets_flattened_iff nestedDocument nestedRoot noTargets [] holds_noTargets

def selfDocument : YamlDocument where
  count := 1
  node := fun _ => .sequence [0]

def selfRoot : Fin selfDocument.count := ⟨0, by decide⟩

theorem self_sequence_never_returns : (¬∃ levels a, parseTestTargets selfDocument levels selfRoot noTargets = .ok a) ∧
      ¬Flattens selfDocument selfRoot noTargets [] := by
  have hnever : ¬∃ levels a, parseTestTargets selfDocument levels selfRoot noTargets = .ok a := by
    rintro ⟨levels, a, hparse⟩
    obtain ⟨l, hwalk, -⟩ := walk_of_parseTestTargets holds_noTargets hparse
    have hacyclic := hwalk.acyclic selfRoot (mem_singleton_self _)
    have hself : Child (items selfDocument) selfRoot selfRoot :=
      ⟨[selfRoot], rfl, mem_singleton_self _⟩
    exact hacyclic selfRoot .refl (.single hself)
  refine ⟨hnever, ?_⟩
  rintro ⟨levels, a', l, hparse, -⟩
  exact hnever ⟨levels, a', hparse⟩

end Amplet.YamlTargets
