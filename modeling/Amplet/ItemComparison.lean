import Amplet.TestSchedule

/-!
# Comparison of schedule items

Two items may be merged when they agree in their test, their times and their
arguments. The loop over the arguments tests the second array where it means its
element, so a second list that ends first is followed past its end.
-/

namespace Amplet.ItemComparison
open Option Bytes Ownership TargetLists TestSchedule

def paramList (arrays : ParamArrays) (item : TestItem) : Option (List CStr) :=
  item.params.bind (readCell arrays)

def Live (arrays : ParamArrays) (item : TestItem) : Prop :=
  ∀ p, item.params = some p → readCell arrays p ≠ none

structure SameTimes (a b : TestItem) : Prop where
  test : a.test = b.test
  interval : a.interval = b.interval
  period : a.period = b.period
  start : a.start = b.start
  stop : a.stop = b.stop

def Compared (arrays : ParamArrays) (a b : TestItem) : Prop :=
  ∃ result, compareTestItems arrays a b = some result ∧ (result = true ↔ SameTimes a b ∧ paramList arrays a = paramList arrays b)

section

variable {arrays : ParamArrays} {a b : TestItem}

theorem compareParams_eq_none_iff (as bs : List CStr) : compareParams as bs = none ↔ bs <+: as ∧ bs ≠ as := by
  induction as generalizing bs with
  | nil => cases bs <;> simp [compareParams]
  | cons x as ih =>
    cases bs with
    | nil => simp [compareParams]
    | cons y bs =>
      rw [compareParams, List.cons_prefix_cons]
      by_cases hxy : x = y
      · subst hxy
        simp [ih]
      · simp [hxy, Ne.symm hxy]

theorem compareParams_eq_some {as bs : List CStr} {result : Bool}
    (h : compareParams as bs = some result) : result = true ↔ as = bs := by
  induction as generalizing bs with
  | nil => cases bs <;> simp_all [compareParams]
  | cons x as ih =>
    cases bs with
    | nil => simp [compareParams] at h
    | cons y bs =>
      rw [compareParams] at h
      by_cases hxy : x = y
      · subst hxy
        rw [if_neg (by simp)] at h
        simp [ih h]
      · rw [if_pos hxy] at h
        simp_all

theorem compareTestItems_of_sameTimes (h : SameTimes a b) : compareTestItems arrays a b =
      match a.params, b.params with
      | some p, some q =>
        match readCell arrays p, readCell arrays q with
        | some as, some bs => compareParams as bs
        | _, _ => none
      | none, none => some true
      | _, _ => some false := by
  unfold compareTestItems
  refine (if_neg (not_not.2 h.test)).trans ?_
  refine (if_neg (not_not.2 h.interval)).trans ?_
  refine (if_neg (not_not.2 h.period)).trans ?_
  refine (if_neg (not_not.2 h.start)).trans ?_
  exact (if_neg (not_not.2 h.stop)).trans rfl

theorem compareTestItems_of_not_sameTimes (h : ¬SameTimes a b) : compareTestItems arrays a b = some false := by
  rw [compareTestItems]
  split_ifs with htest hinterval hperiod hstart hstop
  all_goals try rfl
  rw [not_not] at htest hinterval hperiod hstart hstop
  exact absurd ⟨htest, hinterval, hperiod, hstart, hstop⟩ h

end

/-- For items with live arguments: rightly, unless they are due at the same times and the
arguments of the second are a proper beginning of those of the first. -/
theorem items_compared_iff (arrays : ParamArrays) (a b : TestItem) (ha : Live arrays a) (hb : Live arrays b) :
    Compared arrays a b ↔ ¬(SameTimes a b ∧ ∃ as bs, paramList arrays a = some as ∧ paramList arrays b = some bs ∧
        bs <+: as ∧ bs ≠ as) := by
  by_cases htimes : SameTimes a b
  swap
  · refine iff_of_true ⟨false, compareTestItems_of_not_sameTimes htimes, ?_⟩ fun h => htimes h.1
    simp [htimes]
  rw [Compared, compareTestItems_of_sameTimes htimes]
  simp only [htimes, true_and]
  cases hp : a.params with
  | none =>
    have hnone : paramList arrays a = none := by rw [paramList, hp]; rfl
    cases hq : b.params with
    | none => simp [paramList, hp, hq]
    | some q =>
      obtain ⟨bs, hbs⟩ := ne_none_iff_exists'.1 (hb q hq)
      simp [paramList, hp, hq, hbs]
  | some p =>
    obtain ⟨as, has⟩ := ne_none_iff_exists'.1 (ha p hp)
    cases hq : b.params with
    | none => simp [paramList, hp, hq, has]
    | some q =>
      obtain ⟨bs, hbs⟩ := ne_none_iff_exists'.1 (hb q hq)
      have hparams : paramList arrays a = some as ∧ paramList arrays b = some bs := by
        simp [paramList, hp, hq, has, hbs]
      simp only [has, hbs, hparams.1, hparams.2, some.injEq]
      constructor
      · rintro ⟨result, hresult, -⟩ ⟨as', bs', rfl, rfl, hshorter⟩
        rw [(compareParams_eq_none_iff _ _).2 hshorter] at hresult
        cases hresult
      · intro hother
        have hsome : compareParams as bs ≠ none := fun hnone =>
          hother ⟨as, bs, rfl, rfl, (compareParams_eq_none_iff as bs).1 hnone⟩
        obtain ⟨result, hresult⟩ := ne_none_iff_exists'.1 hsome
        exact ⟨result, hresult, compareParams_eq_some hresult⟩

def pingItem (params : Option ℕ) : TestItem where
  abstime := ⟨0, 0⟩
  interval := ⟨60, 0⟩
  start := 0
  stop := 3600000000
  period := .hourly
  test := ⟨2, cstr "icmp", 0, 1, false, none⟩
  dests := []
  resolve := []
  testMeta := ⟨none, none, none, 100, 0⟩
  params := params

def pingArrays : ParamArrays := [some [cstr "icmp"], some [cstr "icmp", cstr "-r"]]

theorem live_pingItem (p : Fin 2) : Live pingArrays (pingItem (some p)) := by
  intro q hq
  cases hq
  fin_cases p <;> decide

theorem items_compared_longer : Compared pingArrays (pingItem (some 0)) (pingItem (some 1)) ↔
      ¬(SameTimes (pingItem (some 0)) (pingItem (some 1)) ∧ ∃ as bs, paramList pingArrays (pingItem (some 0)) = some as ∧
          paramList pingArrays (pingItem (some 1)) = some bs ∧ bs <+: as ∧ bs ≠ as) :=
  items_compared_iff pingArrays _ _ (live_pingItem 0) (live_pingItem 1)

theorem shorter_arguments_overrun : compareTestItems pingArrays (pingItem (some 1)) (pingItem (some 0)) = none ∧
      ¬Compared pingArrays (pingItem (some 1)) (pingItem (some 0)) := by
  have hnone : compareTestItems pingArrays (pingItem (some 1)) (pingItem (some 0)) = none := by
    decide
  refine ⟨hnone, ?_⟩
  rintro ⟨result, hresult, -⟩
  rw [hnone] at hresult
  cases hresult

end Amplet.ItemComparison
