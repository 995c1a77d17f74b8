import Amplet.ScheduleChunks

/-!
# Target limits and progress of the chunking loop

An item never has more destinations than its test allows, whatever is merged
into it later. Every turn of the loop on a list of targets takes at least one
of them, so there are at most as many turns as targets.
-/

namespace Amplet.ScheduleLimits
open List Option Bytes TargetLists TestSchedule ScheduleChunks

def Within (item : TestItem) : Prop :=
  0 < item.test.maxTargets → item.total ≤ item.test.maxTargets.toNat

variable {s : Schedule} {test : TestItem} {base : EventBase}

theorem within_scheduleItem (h : Within test) (base : EventBase) : Within (scheduleItem base test) := h

theorem within_takesFirst {item : TestItem} (hne : test.total ≠ 0) (hroom : item.HasRoom) : Within (takesFirst test item) := by
  intro hpos
  rw [takesFirst_test] at hpos ⊢
  rw [takesFirst_total hne]
  exact hroom.resolve_left (UInt16.pos_iff_ne_zero.mp hpos)

theorem within_modify {items : List TestItem} (h : ∀ item ∈ items, Within item) {i : ℕ}
    {f : TestItem → TestItem} (hf : ∀ item, items[i]? = some item → Within (f item)) :
    ∀ item ∈ items.modify i f, Within item := by
  intro item hmem
  obtain ⟨j, hj⟩ := mem_iff_getElem?.mp hmem
  rw [getElem?_modify] at hj
  obtain ⟨old, hold, rfl⟩ := map_eq_some_iff.mp hj
  split_ifs with hij
  · exact hf old (hij ▸ hold)
  · exact h old (mem_of_getElem? hold)

theorem placed_within {s' : Schedule} {remaining : Option (List ℕ)} (hitems : ∀ item ∈ s.items, Within item) (htest : Within test)
    (h : Placed base s test remaining s') : ∀ item ∈ s'.items, Within item := by
  cases h with
  | dropped _ _ _ result =>
    subst result
    exact hitems
  | merged _ _ _ items arrays merge _ result =>
    subst result
    obtain ⟨hne, i, item, hitem, hcheck, rfl⟩ := mergeScheduledTests_some merge
    obtain ⟨-, -, hroom⟩ := checkTestCompare_true hcheck
    refine within_modify hitems fun old hold => ?_
    obtain rfl := some.inj (hitem.symm.trans hold)
    exact within_takesFirst hne hroom
  | added _ _ _ result =>
    subst result
    intro item hmem
    rcases mem_append.mp hmem with hmem | hmem
    · exact hitems item hmem
    · rw [mem_singleton.mp hmem]
      exact within_scheduleItem htest base

theorem create_within {env : Environment} {s' : Schedule} {d : TestDefinition} (hitems : ∀ item ∈ s.items, Within item)
    (hret : createAndScheduleTest env base s d = .returned s') :
    ∀ item ∈ s'.items, Within item := by
  rw [createAndScheduleTest] at hret
  split at hret
  · obtain rfl := LoopResult.returned.inj hret
    rwa [parseArgs_items]
  · obtain ⟨full, last, remaining, bufs, hchunked⟩ := scheduleLoop_chunked hret
    refine placed_within ?_ (hchunked.filled last (by simp)).within hchunked.placed
    intro item hmem
    rcases mem_append.mp hmem with hmem | hmem
    · exact hitems item (by rwa [parseArgs_items] at hmem)
    · obtain ⟨test, htest, rfl⟩ := mem_map.mp hmem
      exact within_scheduleItem (hchunked.filled test (mem_append_left _ htest)).within base

theorem reachable_within {ok : Environment → EventBase → Schedule → TestDefinition → Prop}
    (h : Reachable ok s) : ∀ item ∈ s.items, Within item := by
  induction h with
  | empty => simp
  | document _ _ ih => exact ih
  | loaded _ _ hret ih => exact create_within ih hret
  | cleared _ hclear _ =>
    simp only [clearTestSchedule, map_eq_some_iff] at hclear
    obtain ⟨_, -, rfl⟩ := hclear
    simp

theorem scheduleTurn_more {env : Environment} {template : TestItem} {s' : Schedule}
    {targets : Option (List ℕ)} {rest : List ℕ}
    (h : scheduleTurn env base template s targets = some (.more s' rest)) :
    rest ≠ [] ∧ ∃ consumed, consumed ≠ [] ∧ targets = some (consumed ++ rest) := by
  rw [scheduleTurn] at h
  split at h
  · cases h
  next hpop =>
    obtain ⟨rfl, hne, -, -⟩ := placeTest_more h
    cases targets with
    | none => simp [populateTargetLists] at hpop
    | some targets =>
      obtain ⟨consumed, rest', hrest, hsplit, -, hsome, -⟩ := populateTargetLists_consumes hpop
      cases hrest
      exact ⟨hne, consumed, hsome (by simp [hsplit, hne]), by rw [hsplit]⟩

theorem scheduleLoop_ends (env : Environment) (base : EventBase) (template : TestItem) {n m : ℕ}
    (s : Schedule) (targets : Option (List ℕ)) (hn : turns targets ≤ n) (hm : turns targets ≤ m) :
    scheduleLoop env base template n s targets = scheduleLoop env base template m s targets ∧
      scheduleLoop env base template n s targets ≠ .unfinished := by
  induction n generalizing m s targets with
  | zero => simp [turns] at hn
  | succ n ih =>
    obtain ⟨m, rfl⟩ : ∃ k, m = k + 1 := by
      cases m with
      | zero => simp [turns] at hm
      | succ k => exact ⟨k, rfl⟩
    rw [scheduleLoop, scheduleLoop]
    cases hturn : scheduleTurn env base template s targets with
    | none => simp
    | some turn =>
      cases turn with
      | done s' => simp
      | more s' rest =>
        obtain ⟨hrest, consumed, hne, rfl⟩ := scheduleTurn_more hturn
        have hpos := length_pos_iff.mpr hne
        have hpos' := length_pos_iff.mpr hrest
        simp only [turns, getD_some, length_append] at hn hm
        exact ih s' (some rest) (by simp [turns]; omega) (by simp [turns]; omega)

/-- Limits hold in every reachable schedule, and each call takes a first part of its targets. -/
theorem targets_limited_and_consumed : (∀ s, Reachable (fun _ _ _ _ => True) s → ∀ item ∈ s.items, 0 < item.test.maxTargets →
      item.total ≤ item.test.maxTargets.toNat) ∧
    (∀ (table : List NametableItem) (template test : TestItem) (bufs bufs' : Buffers)
      (targets : List ℕ) (remaining : Option (List ℕ)), targets ≠ [] →
      populateTargetLists table template bufs (some targets) = some (test, bufs', remaining) →
      ∃ consumed rest, remaining = some rest ∧ targets = consumed ++ rest ∧ consumed ≠ [] ∧
        consumed.foldlM (processTarget table) ({ template with dests := [], resolve := [] }, bufs) = some (test, bufs')) ∧
    (∀ (env : Environment) (base : EventBase) (template : TestItem) (s s' : Schedule) (targets rest : List ℕ),
      scheduleTurn env base template s (some targets) = some (.more s' rest) →
      ∃ consumed, consumed ≠ [] ∧ targets = consumed ++ rest) ∧
    ∀ (env : Environment) (base : EventBase) (template : TestItem) (s : Schedule)
      (targets : Option (List ℕ)) (n : ℕ), max 1 (targets.getD []).length ≤ n →
      scheduleLoop env base template n s targets = scheduleLoop env base template (turns targets) s targets ∧
        scheduleLoop env base template n s targets ≠ .unfinished := by
  refine ⟨fun s hs => reachable_within hs, ?_, ?_, ?_⟩
  · intro table template test bufs bufs' targets remaining hne hpop
    obtain ⟨consumed, rest, hrest, hsplit, hfold, hsome, -⟩ := populateTargetLists_consumes hpop
    exact ⟨consumed, rest, hrest, hsplit, hsome hne, hfold⟩
  · intro env base template s s' targets rest hturn
    obtain ⟨-, consumed, hne, hsplit⟩ := scheduleTurn_more hturn
    exact ⟨consumed, hne, some.inj hsplit⟩
  · intro env base template s targets n hn
    exact scheduleLoop_ends env base template s targets hn le_rfl

def fastping : Test := ⟨11, cstr "fastping", 1, 1, false, none⟩

def fastpingEnvironment : Environment := ⟨[fastping], [], ⟨none, none, none, 100, 0⟩⟩

def fastpingDefinition : TestDefinition :=
  ⟨some (cstr "fastping"), none, none, none, none, none, some [0, 1]⟩

theorem fastping_items_within : ∃ s', createAndScheduleTest fastpingEnvironment (.oldestFirst ⟨1000, 0⟩)
        ⟨[], [], fun _ => cstr "a!v4"⟩ fastpingDefinition = .returned s' ∧
      s'.items.length = 2 ∧
      ∀ item ∈ s'.items, 0 < item.test.maxTargets → item.total ≤ item.test.maxTargets.toNat := by
  obtain ⟨s', hret, hlen⟩ : ∃ s', createAndScheduleTest fastpingEnvironment
      (.oldestFirst ⟨1000, 0⟩) ⟨[], [], fun _ => cstr "a!v4"⟩ fastpingDefinition =
        .returned s' ∧ s'.items.length = 2 := ⟨_, rfl, rfl⟩
  exact ⟨s', hret, hlen, targets_limited_and_consumed.1 s' (.loaded (.empty _) trivial hret)⟩

end Amplet.ScheduleLimits
