import Amplet.ScheduleChunks

/-!
# Owners of the argument arrays

`create_and_schedule_test` stores the argument array of a definition in every
item its loop creates, and `free_test_schedule_item` frees the array of any
item. One chunk is one owner; with several chunks the array is shared.
-/

namespace Amplet.ParamsOwnership
open List Option Bytes TargetLists Ownership TestSchedule ScheduleChunks

def paramsOf (arrays : ParamArrays) (item : TestItem) : Option (List CStr) :=
  contents TestItem.params arrays item

def ParamsOwned (s : Schedule) : Prop := Owned TestItem.params s.arrays s.items

theorem filterMap_modify {α β : Type*} {f : α → Option β} {g : α → α} (h : ∀ x, f (g x) = f x)
    (l : List α) (i : ℕ) : (l.modify i g).filterMap f = l.filterMap f := by
  induction l generalizing i with
  | nil => simp
  | cons x l ih =>
    cases i with
    | zero => simp [filterMap_cons, h]
    | succ i => simp [filterMap_cons, ih]

variable {base : EventBase} {s s' : Schedule} {remaining : Option (List ℕ)}
  {test template : TestItem}

theorem placed_refs (h : Placed base s test remaining s') :
    (s'.items.filterMap TestItem.params = s.items.filterMap TestItem.params ∧
        freeTestScheduleItem s.arrays test = some s'.arrays) ∨
      (s'.items.filterMap TestItem.params = (s.items ++ [test]).filterMap TestItem.params ∧ s'.arrays = s.arrays) := by
  cases h with
  | dropped _ arrays free result =>
    subst result
    exact Or.inl ⟨rfl, free⟩
  | merged _ _ _ items arrays merge free result =>
    subst result
    obtain ⟨-, i, item, -, -, rfl⟩ := mergeScheduledTests_some merge
    exact Or.inl ⟨filterMap_modify (takesFirst_params test) s.items i, free⟩
  | added _ _ _ result =>
    subst result
    exact Or.inr ⟨by rw [filterMap_append, filterMap_append]; rfl, rfl⟩

theorem placed_owned (howned : Owned TestItem.params s.arrays (s.items ++ [test])) (h : Placed base s test remaining s') :
    ParamsOwned s' ∧ ∀ item ∈ s.items, paramsOf s'.arrays item = paramsOf s.arrays item := by
  rcases placed_refs h with ⟨hrefs, hfree⟩ | ⟨hrefs, harrays⟩
  · obtain ⟨arrays, hfree', howned', hsame⟩ :=
      (howned.perm (perm_append_singleton test s.items)).release
    obtain rfl := some.inj (hfree'.symm.trans hfree)
    exact ⟨(owned_congr hrefs).mpr howned', hsame⟩
  · rw [ParamsOwned, harrays]
    exact ⟨(owned_congr hrefs).mpr howned, fun _ _ => rfl⟩

theorem placed_shared {item : TestItem} {r : ℕ} (hitem : item ∈ s.items) (hr : item.params = some r)
    (htest : test.params = some r) (h : Placed base s test remaining s') : ¬ ParamsOwned s' := by
  intro howned
  rcases placed_refs h with ⟨hrefs, hfree⟩ | ⟨hrefs, harrays⟩
  · have hmem : r ∈ s'.items.filterMap TestItem.params := by
      rw [hrefs]
      exact mem_filterMap.mpr ⟨item, hitem, hr⟩
    have hlive := howned.live r hmem
    rw [freeTestScheduleItem, releaseOwner, htest] at hfree
    dsimp only at hfree
    split_ifs at hfree
    rw [← some.inj hfree, readCell_set_self] at hlive
    simp at hlive
  · have hshared := (owned_congr hrefs).mp howned
    exact hshared.ref_ne (Sublist.append (singleton_sublist.mpr hitem) (Sublist.refl [test])) hr htest

/-- The first call of `populate_target_lists` uses up the targets, or leaves too
few of them to go on. -/
def OneChunk (env : Environment) (s : Schedule) (d : TestDefinition) (template : TestItem) :
    Prop :=
  ∀ test bufs remaining, populateTargetLists env.table template s.bufs d.targets = some (test, bufs, remaining) →
    test.total < test.test.minTargets.toNat ∨ remaining.getD [] = []

def SoleOwner (env : Environment) (s : Schedule) (d : TestDefinition) : Prop :=
  ∀ template, admitTest env d (parseArgs s d).2 = some template → d.args = none ∨ OneChunk env s d template

variable {env : Environment} {d : TestDefinition}

theorem oneChunk_iff {last : TestItem} {full : List TestItem} {bufs : Buffers}
    (h : Chunked env base template (turns d.targets) (parseArgs s d).1 d.targets s' full last
      remaining bufs) : OneChunk env s d template ↔ full = [] := by
  obtain ⟨test, bufs', rest, hpop, hfull⟩ := h.first
  rw [parseArgs_bufs] at hpop
  rw [hfull, OneChunk, hpop]
  constructor
  · exact fun hone => hone test bufs' rest rfl
  · intro hends test' bufs'' rest' heq
    simp only [some.injEq, Prod.mk.injEq] at heq
    obtain ⟨rfl, -, rfl⟩ := heq
    exact hends

theorem admitTest_params {params : Option ℕ} (h : admitTest env d params = some template) :
    template.params = params ∧ ¬ (d.args.isSome ∧ params = none) := by
  rw [admitTest] at h
  split at h
  · cases h
  · split at h
    · cases h
    · split_ifs at h with hargs
      cases h
      exact ⟨rfl, hargs⟩

theorem parseArgs_cases (s : Schedule) (d : TestDefinition) : ((parseArgs s d).2 = none ∧ (parseArgs s d).1 = s) ∨
      (d.args ≠ none ∧ (parseArgs s d).2 = some s.arrays.length ∧
        ∃ words, (parseArgs s d).1 = { s with arrays := s.arrays ++ [some words] }) := by
  rw [parseArgs]
  split
  · exact Or.inl ⟨rfl, rfl⟩
  next hargs =>
    split
    · exact Or.inl ⟨rfl, rfl⟩
    next words _ => exact Or.inr ⟨by simp [hargs], rfl, words, rfl⟩

theorem parseArgs_owned (h : ParamsOwned s) (d : TestDefinition) : ParamsOwned (parseArgs s d).1 ∧
      ∀ item ∈ s.items, paramsOf (parseArgs s d).1.arrays item = paramsOf s.arrays item := by
  rcases parseArgs_cases s d with ⟨-, hs⟩ | ⟨-, -, words, hs⟩
  · rw [hs]
    exact ⟨h, fun _ _ => rfl⟩
  · rw [hs]
    refine ⟨h.alloc words, fun item hitem => ?_⟩
    cases hr : item.params with
    | none => simp [paramsOf, contents, hr]
    | some r =>
      have hlive := h.live r (mem_filterMap.mpr ⟨item, hitem, hr⟩)
      simp only [paramsOf, contents, hr, bind_some]
      exact readCell_append (lt_length_of_readCell hlive) _

theorem chunked_owned {last : TestItem} {full : List TestItem} {bufs : Buffers}
    (howned : ParamsOwned s) (htemplate : admitTest env d (parseArgs s d).2 = some template)
    (h : Chunked env base template (turns d.targets) (parseArgs s d).1 d.targets s' full last
      remaining bufs) (hsole : d.args = none ∨ full = []) :
    Owned TestItem.params (parseArgs s d).1.arrays (((parseArgs s d).1.items ++ full.map (scheduleItem base)) ++ [last]) := by
  have hparams : ∀ test ∈ full ++ [last], test.params = (parseArgs s d).2 := fun test htest =>
    (h.filled test htest).params.trans (admitTest_params htemplate).1
  rcases parseArgs_cases s d with ⟨hnone, hs⟩ | ⟨hargs, hsome, words, hs⟩
  · rw [hs, append_assoc]
    refine (owned_append_none fun item hitem => ?_).mpr howned
    rcases mem_append.mp hitem with hitem | hitem
    · obtain ⟨test, htest, rfl⟩ := mem_map.mp hitem
      exact (hparams test (mem_append_left _ htest)).trans hnone
    · exact (hparams item (mem_append_right _ hitem)).trans hnone
  · obtain rfl := hsole.resolve_left hargs
    rw [hs, map_nil, append_nil]
    exact howned.append_fresh words ((hparams last (by simp)).trans hsome)

theorem create_owned_iff (howned : ParamsOwned s) (hret : createAndScheduleTest env base s d = .returned s') :
    (ParamsOwned s' ↔ SoleOwner env s d) ∧ (SoleOwner env s d →
      ∀ item ∈ s.items, paramsOf s'.arrays item = paramsOf s.arrays item) := by
  have hargs := parseArgs_owned howned d
  rw [createAndScheduleTest] at hret
  cases htemplate : admitTest env d (parseArgs s d).2 with
  | none =>
    rw [htemplate] at hret
    obtain rfl := LoopResult.returned.inj hret
    exact ⟨iff_of_true hargs.1 fun template h => by simp [htemplate] at h, fun _ => hargs.2⟩
  | some template =>
    rw [htemplate] at hret
    obtain ⟨full, last, remaining, bufs, hchunked⟩ := scheduleLoop_chunked hret
    have hsole : SoleOwner env s d ↔ d.args = none ∨ full = [] := by
      rw [SoleOwner, ← oneChunk_iff hchunked]
      simp [htemplate]
    have hkeeps (h : SoleOwner env s d) :=
      placed_owned (chunked_owned howned htemplate hchunked (hsole.mp h)) hchunked.placed
    refine ⟨⟨fun howned' => ?_, fun h => (hkeeps h).1⟩, fun h item hitem => ?_⟩
    · rw [hsole]
      by_contra hnot
      rw [not_or] at hnot
      -- the first chunk is scheduled with the array the last one carries
      obtain ⟨test, rest, rfl⟩ := exists_cons_of_ne_nil hnot.2
      obtain ⟨r, hr⟩ : ∃ r, template.params = some r := by
        have hpresent := (admitTest_params htemplate)
        rw [← ne_none_iff_exists', hpresent.1]
        exact fun hnone => hpresent.2 ⟨isSome_iff_ne_none.mpr hnot.1, hnone⟩
      have hmem : scheduleItem base test ∈ (parseArgs s d).1.items ++ (test :: rest).map (scheduleItem base) := by simp
      have hshared : (scheduleItem base test).params = some r :=
        (hchunked.filled test (by simp)).params.trans hr
      exact placed_shared hmem hshared ((hchunked.filled last (by simp)).params.trans hr) hchunked.placed howned'
    · have hitem' : item ∈ (parseArgs s d).1.items ++ full.map (scheduleItem base) := by
        rw [parseArgs_items]
        exact mem_append_left _ hitem
      exact ((hkeeps h).2 item hitem').trans (hargs.2 item hitem)

theorem reachable_owned (h : Reachable (fun env _ s d => SoleOwner env s d) s) :
    ParamsOwned s := by
  induction h with
  | empty => exact Owned.nil
  | document _ _ ih => exact ih
  | loaded _ hok hret ih => exact (create_owned_iff ih hret).1.mpr hok
  | cleared _ hclear _ =>
    simp only [clearTestSchedule, map_eq_some_iff] at hclear
    obtain ⟨_, -, rfl⟩ := hclear
    exact Owned.nil

theorem filterMap_range_getElem? {α : Type*} (l : List α) : (range l.length).filterMap (fun i => l[i]?) = l := by
  induction l with
  | nil => rfl
  | cons x l ih => simpa [range_succ_eq_map, filterMap_map, Function.comp_def] using ih

theorem cleared_events_perm (base : EventBase) (items : List TestItem) :
    (((base.order items.length).filterMap fun i => items[i]?).reverse).Perm items := by
  refine (reverse_perm _).trans ?_
  have hperm := (base.complete items.length).filterMap fun i => items[i]?
  rwa [filterMap_range_getElem?] at hperm

theorem clearTestSchedule_keeps (base : EventBase) (s : Schedule) {kept : List TestItem}
    (h : Owned TestItem.params s.arrays (s.items ++ kept)) :
    ∃ s', clearTestSchedule base s = some s' ∧ s'.items = [] ∧
      ∀ item ∈ kept, paramsOf s'.arrays item = paramsOf s.arrays item := by
  obtain ⟨arrays, hfold, -, hsame⟩ :=
    (h.perm ((cleared_events_perm base s.items).symm.append_right kept)).releaseAll
  refine ⟨{ s with items := [], arrays := arrays }, ?_, rfl, hsame⟩
  rw [clearTestSchedule, map_eq_some_iff]
  exact ⟨arrays, hfold, rfl⟩

theorem owned_focus (h : ParamsOwned s) {i : ℕ} {item : TestItem} (hi : s.items[i]? = some item) :
    Owned TestItem.params s.arrays (s.items.eraseIdx i ++ [item]) := by
  obtain ⟨hlt, rfl⟩ := List.getElem?_eq_some_iff.mp hi
  exact h.perm ((getElem_cons_eraseIdx_perm hlt).symm.trans (perm_append_singleton _ _).symm)

structure Independent (s : Schedule) : Prop where
  distinct : ∀ (i j : ℕ) (a b : TestItem) (r : ℕ), i ≠ j → s.items[i]? = some a → s.items[j]? = some b →
    a.params = some r → b.params ≠ some r
  live : ∀ item ∈ s.items, item.params ≠ none → paramsOf s.arrays item ≠ none
  release : ∀ i item, s.items[i]? = some item → ∃ arrays, freeTestScheduleItem s.arrays item = some arrays ∧
      ∀ other ∈ s.items.eraseIdx i, paramsOf arrays other = paramsOf s.arrays other
  load : ∀ env base d s', SoleOwner env s d → createAndScheduleTest env base s d = .returned s' →
    ∀ item ∈ s.items, paramsOf s'.arrays item = paramsOf s.arrays item
  clear : ∀ base, ∃ s', clearTestSchedule base s = some s'
  fork : ∀ base i item, s.items[i]? = some item →
    ∃ s', forkChild base s i = some s' ∧ paramsOf s'.arrays item = paramsOf s.arrays item

theorem ParamsOwned.independent (h : ParamsOwned s) : Independent s where
  distinct := by
    intro i j a b r hij hi hj ha hb
    have hmem : b ∈ s.items.eraseIdx i := mem_eraseIdx_iff_getElem?.mpr ⟨j, hij.symm, hj⟩
    exact (owned_focus h hi).ref_ne (Sublist.append (singleton_sublist.mpr hmem) (Sublist.refl [a])) hb ha
  live := by
    intro item hitem hparams
    obtain ⟨r, hr⟩ := ne_none_iff_exists'.mp hparams
    have hlive := h.live r (mem_filterMap.mpr ⟨item, hitem, hr⟩)
    simpa [paramsOf, contents, hr, isSome_iff_ne_none] using hlive
  release := by
    intro i item hi
    obtain ⟨arrays, hfree, -, hsame⟩ :=
      ((owned_focus h hi).perm (perm_append_singleton _ _)).release
    exact ⟨arrays, hfree, hsame⟩
  load := fun env base d s' hsole hret => (create_owned_iff h hret).2 hsole
  clear := by
    intro base
    have hall : Owned TestItem.params s.arrays (s.items ++ []) := by
      rw [append_nil]
      exact h
    obtain ⟨s', hclear, -⟩ := clearTestSchedule_keeps base s hall
    exact ⟨s', hclear⟩
  fork := by
    intro base i item hi
    obtain ⟨s', hclear, -, hsame⟩ := clearTestSchedule_keeps base
      { s with items := s.items.eraseIdx i } (owned_focus h hi)
    exact ⟨s', hclear, hsame item (mem_singleton_self item)⟩

/-- Ownership survives exactly the definitions that make one owner, and in every run of such
definitions the items are independent. -/
theorem params_have_one_owner (s : Schedule) : (∀ (env : Environment) (base : EventBase) (s' : Schedule) (d : TestDefinition),
      ParamsOwned s → createAndScheduleTest env base s d = .returned s' →
      (ParamsOwned s' ↔ SoleOwner env s d)) ∧
    (Reachable (fun env _ s d => SoleOwner env s d) s → Independent s) := by
  refine ⟨fun env base s' d howned hret => (create_owned_iff howned hret).1, fun hs => ?_⟩
  exact (reachable_owned hs).independent

def http : Test := ⟨5, cstr "http", 1, 0, false, none⟩

def httpEnvironment : Environment := ⟨[http], [], ⟨none, none, none, 100, 0⟩⟩

def httpDefinition (targets : List ℕ) : TestDefinition :=
  ⟨some (cstr "http"), none, none, none, none, some (cstr "-c"), some targets⟩

def oneName : Schedule := ⟨[], [], fun _ => cstr "a"⟩

theorem single_target_soleOwner {target : ℕ} (h : d.targets = some [target]) : SoleOwner env s d := by
  refine fun template _ => Or.inr fun test bufs remaining hpop => Or.inr ?_
  have hroom : ({ template with dests := [], resolve := [] } : TestItem).HasRoom :=
    or_iff_not_imp_left.mpr UInt16.pos_iff_ne_zero.mpr
  simp only [h, populateTargetLists, populateLoop, if_pos hroom] at hpop
  cases hprocess : processTarget env.table ({ template with dests := [], resolve := [] }, s.bufs) target with
  | none => simp [hprocess] at hpop
  | some p =>
    simp only [hprocess, some.injEq, Prod.mk.injEq] at hpop
    rw [← hpop.2.2, getD_some]

def Loads (s : Schedule) (d : TestDefinition) (s' : Schedule) : Prop :=
  createAndScheduleTest httpEnvironment (.oldestFirst ⟨1000, 0⟩) s d = .returned s'

theorem three_definitions_load : ∃ s₁ s₂ s₃, Loads oneName (httpDefinition [0]) s₁ ∧
    Loads s₁ { httpDefinition [1, 2] with args := none } s₂ ∧
    Loads s₂ { httpDefinition [3] with args := some (cstr "-k") } s₃ ∧
    s₃.items.map (paramsOf s₃.arrays) = [some [cstr "-c"], none, none, some [cstr "-k"]] :=
  ⟨_, _, _, rfl, rfl, rfl, rfl⟩

theorem three_definitions_own_args : ∃ s₁ s₂ s₃, Loads oneName (httpDefinition [0]) s₁ ∧
    Loads s₁ { httpDefinition [1, 2] with args := none } s₂ ∧
    Loads s₂ { httpDefinition [3] with args := some (cstr "-k") } s₃ ∧
    s₃.items.map (paramsOf s₃.arrays) = [some [cstr "-c"], none, none, some [cstr "-k"]] ∧
    Independent s₃ := by
  obtain ⟨s₁, s₂, s₃, h₁, h₂, h₃, hparams⟩ := three_definitions_load
  refine ⟨s₁, s₂, s₃, h₁, h₂, h₃, hparams, (params_have_one_owner s₃).2 ?_⟩
  exact .loaded (.loaded (.loaded (.empty _) (single_target_soleOwner rfl) h₁) (fun _ _ => .inl rfl) h₂)
    (single_target_soleOwner rfl) h₃

theorem two_targets_share_args : ∃ s' a b, createAndScheduleTest httpEnvironment (.oldestFirst ⟨1000, 0⟩) oneName
        (httpDefinition [0, 0]) = .returned s' ∧
      s'.items = [a, b] ∧ a.params = some 0 ∧ b.params = some 0 ∧
      paramsOf s'.arrays b = some [cstr "-c"] ∧
      (∃ arrays, freeTestScheduleItem s'.arrays a = some arrays ∧ paramsOf arrays b = none) ∧
      ∃ child, forkChild (.oldestFirst ⟨1000, 0⟩) s' 1 = some child ∧ paramsOf child.arrays b = none :=
  ⟨_, _, _, rfl, rfl, rfl, rfl, rfl, ⟨_, rfl, rfl⟩, ⟨_, rfl, rfl⟩⟩

end Amplet.ParamsOwnership
