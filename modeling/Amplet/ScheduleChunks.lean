import Amplet.TestSchedule

/-!
# The chunks of a definition

`create_and_schedule_test` fills one test item after another. Which items depends on the
targets alone: every chunk but the last is full and is scheduled on its own, and the
last is dropped, merged or scheduled.
-/

namespace Amplet.ScheduleChunks
open List Option TargetLists TestSchedule

def chunks (env : Environment) (template : TestItem) : ℕ → Buffers → Option (List ℕ) → List TestItem
  | 0, _, _ => []
  | n + 1, bufs, targets =>
    match populateTargetLists env.table template bufs targets with
    | none => []
    | some (test, bufs, remaining) =>
      if test.total < test.test.minTargets.toNat then [test]
      else
        match remaining with
        | some (target :: targets) => test :: chunks env template n bufs (some (target :: targets))
        | _ => [test]

structure Filled (template test : TestItem) : Prop where
  same : test = { template with dests := test.dests, resolve := test.resolve }
  within : 0 < test.test.maxTargets → test.total ≤ test.test.maxTargets.toNat

variable {template : TestItem}

variable {test : TestItem}

theorem Filled.params (h : Filled template test) : test.params = template.params := by
  rw [h.same]

theorem cleared_hasRoom (item : TestItem) : ({ item with dests := [], resolve := [] } : TestItem).HasRoom := by
  by_cases h : item.test.maxTargets = 0
  · exact Or.inl h
  · exact Or.inr (UInt16.lt_iff_toNat_lt.mp (UInt16.pos_iff_ne_zero.mpr h))

variable {bufs bufs' : Buffers} {targets : Option (List ℕ)}

theorem populateTargetLists_filled {table : List NametableItem} {remaining : Option (List ℕ)}
    (h : populateTargetLists table template bufs targets = some (test, bufs', remaining)) :
    Filled template test := by
  cases targets with
  | none =>
    simp only [populateTargetLists, some.injEq, Prod.mk.injEq] at h
    obtain ⟨rfl, -, -⟩ := h
    exact ⟨rfl, by simp [TestItem.total]⟩
  | some targets =>
    rw [populateTargetLists] at h
    split at h
    · cases h
    next hloop =>
      simp only [some.injEq, Prod.mk.injEq] at h
      obtain ⟨rfl, -, -⟩ := h
      have hitem := populateLoop_item hloop (by simp [TestItem.total])
      exact ⟨hitem.1, hitem.2⟩

theorem populateTargetLists_consumes {table : List NametableItem} {targets : List ℕ}
    {remaining : Option (List ℕ)}
    (h : populateTargetLists table template bufs (some targets) = some (test, bufs', remaining)) :
    ∃ consumed rest, remaining = some rest ∧ targets = consumed ++ rest ∧
      consumed.foldlM (processTarget table) ({ template with dests := [], resolve := [] }, bufs) = some (test, bufs') ∧
      (targets ≠ [] → consumed ≠ []) ∧ (rest ≠ [] → ¬ test.HasRoom) := by
  rw [populateTargetLists] at h
  split at h
  · cases h
  next rest hloop =>
    cases h
    obtain ⟨consumed, hsplit, hfold, hsome, hfull⟩ := populateLoop_spec hloop
    exact ⟨consumed, _, rfl, hsplit, hfold, hsome (cleared_hasRoom template), hfull⟩

theorem eventBaseForeach_found {check : TestItem → Option Bool} {items : List TestItem}
    {order : List ℕ} {i : ℕ} (h : eventBaseForeach check items order = some (some i)) :
    ∃ item, items[i]? = some item ∧ check item = some true := by
  induction order with
  | nil => simp [eventBaseForeach] at h
  | cons j order ih =>
    rw [eventBaseForeach] at h
    split at h
    · exact ih h
    next item hitem =>
      split at h
      · cases h
      next hcheck =>
        simp only [some.injEq] at h
        exact ⟨item, h ▸ hitem, hcheck⟩
      · exact ih h

theorem eventBaseForeach_none {check : TestItem → Option Bool} {items : List TestItem}
    {order : List ℕ} (h : eventBaseForeach check items order = some none) {i : ℕ}
    (hi : i ∈ order) {item : TestItem} (hitem : items[i]? = some item) :
    check item = some false := by
  induction order with
  | nil => cases hi
  | cons j order ih =>
    rw [eventBaseForeach] at h
    rcases mem_cons.mp hi with rfl | hi
    · simp only [hitem] at h
      split at h
      · cases h
      · cases h
      next hcheck => exact hcheck
    · split at h
      · exact ih h hi
      · split at h
        · cases h
        · cases h
        · exact ih h hi

def takesFirst (test item : TestItem) : TestItem :=
  match test.dests, test.resolve with
  | addr :: _, _ => { item with dests := item.dests ++ [addr] }
  | [], name :: _ => { item with resolve := name :: item.resolve }
  | [], [] => item

theorem takesFirst_test (test item : TestItem) : (takesFirst test item).test = item.test := by
  rw [takesFirst]
  split <;> rfl

theorem takesFirst_params (test item : TestItem) : (takesFirst test item).params = item.params := by
  rw [takesFirst]
  split <;> rfl

theorem takesFirst_total (h : test.total ≠ 0) (item : TestItem) : (takesFirst test item).total = item.total + 1 := by
  rw [takesFirst]
  split
  · simp [TestItem.total]
    omega
  · simp [TestItem.total]
    omega
  next hd hr => simp [TestItem.total, hd, hr] at h

variable {s : Schedule}

theorem mergeScheduledTests_some {base : EventBase} {items : List TestItem}
    (h : mergeScheduledTests base s test = some (some items)) :
    test.total ≠ 0 ∧ ∃ i item, s.items[i]? = some item ∧ checkTestCompare s.arrays test item = some true ∧
      items = s.items.modify i (takesFirst test) := by
  rw [mergeScheduledTests] at h
  split at h
  · cases h
  · cases h
  next i hfound =>
    obtain ⟨item, hitem, hcheck⟩ := eventBaseForeach_found hfound
    have htakes : takesFirst test = fun item => takesFirst test item := rfl
    cases hd : test.dests with
    | cons addr rest =>
      simp only [hd, some.injEq] at h
      refine ⟨by simp [TestItem.total, hd], i, item, hitem, hcheck, ?_⟩
      rw [← h, htakes]
      simp only [takesFirst, hd]
    | nil =>
      cases hr : test.resolve with
      | cons name rest =>
        simp only [hd, hr, some.injEq] at h
        refine ⟨by simp [TestItem.total, hr], i, item, hitem, hcheck, ?_⟩
        rw [← h, htakes]
        simp only [takesFirst, hd, hr]
      | nil => simp [hd, hr] at h

theorem mergeScheduledTests_none {base : EventBase} (h : mergeScheduledTests base s test = some none) :
    ∀ item ∈ s.items, checkTestCompare s.arrays test item = some false := by
  intro item hmem
  obtain ⟨i, hi⟩ := mem_iff_getElem?.mp hmem
  have hlt : i < s.items.length := (List.getElem?_eq_some_iff.mp hi).1
  rw [mergeScheduledTests] at h
  split at h
  · cases h
  next hnone =>
    exact eventBaseForeach_none hnone ((base.complete _).mem_iff.mpr (mem_range.mpr hlt)) hi
  · split at h <;> simp at h

theorem checkTestCompare_true {arrays : ParamArrays} {sched : TestItem} (h : checkTestCompare arrays test sched = some true) :
    compareTestItems arrays sched test = some true ∧ sched.test = test.test ∧ sched.HasRoom := by
  rw [checkTestCompare] at h
  split at h
  · cases h
  · cases h
  next hcmp =>
    have htest : sched.test = test.test := by
      by_contra hne
      simp [compareTestItems, hne] at hcmp
    refine ⟨hcmp, htest, ?_⟩
    simpa [TestItem.HasRoom, htest] using h

theorem checkTestCompare_false {arrays : ParamArrays} {sched : TestItem} (h : checkTestCompare arrays test sched = some false) :
    ¬ (compareTestItems arrays sched test = some true ∧ sched.HasRoom) := by
  rintro ⟨hcmp, hroom⟩
  have htest : sched.test = test.test := by
    by_contra hne
    simp [compareTestItems, hne] at hcmp
  rw [TestItem.HasRoom, htest] at hroom
  simp [checkTestCompare, hcmp, hroom] at h

section Place

variable {base : EventBase} {s s' : Schedule} {test : TestItem} {remaining : Option (List ℕ)}

theorem placeTest_more {rest : List ℕ} (h : placeTest base s test remaining = some (.more s' rest)) :
    remaining = some rest ∧ rest ≠ [] ∧ ¬ test.total < test.test.minTargets.toNat ∧
      s' = { s with items := s.items ++ [scheduleItem base test] } := by
  rw [placeTest] at h
  by_cases hfew : test.total < test.test.minTargets.toNat
  · simp [hfew] at h
  · rw [if_neg hfew] at h
    dsimp only at h
    split at h
    · cases h
    · simp at h
    · split at h
      · simp only [some.injEq, Turn.more.injEq] at h
        obtain ⟨rfl, rfl⟩ := h
        exact ⟨rfl, by simp, hfew, rfl⟩
      · simp at h

inductive Placed (base : EventBase) (s : Schedule) (test : TestItem)
    (remaining : Option (List ℕ)) (s' : Schedule) : Prop
  | dropped (few : test.total < test.test.minTargets.toNat) (arrays : ParamArrays)
      (free : freeTestScheduleItem s.arrays test = some arrays)
      (result : s' = { s with arrays := arrays })
  | merged (enough : ¬ test.total < test.test.minTargets.toNat) (last : remaining = some [])
      (several : test.test.maxTargets ≠ 1) (items : List TestItem) (arrays : ParamArrays)
      (merge : mergeScheduledTests base s test = some (some items))
      (free : freeTestScheduleItem s.arrays test = some arrays)
      (result : s' = { s with items := items, arrays := arrays })
  | added (enough : ¬ test.total < test.test.minTargets.toNat)
      (last : ∀ rest, remaining = some rest → rest = [])
      (merge : remaining = some [] → test.test.maxTargets ≠ 1 → mergeScheduledTests base s test = some none)
      (result : s' = { s with items := s.items ++ [scheduleItem base test] })

theorem placeTest_done (h : placeTest base s test remaining = some (.done s')) : Placed base s test remaining s' := by
  rw [placeTest] at h
  split_ifs at h with hfew hlast
  · simp only [map_eq_some_iff, Turn.done.injEq] at h
    obtain ⟨arrays, hfree, rfl⟩ := h
    exact .dropped hfew arrays hfree rfl
  · dsimp only at h
    split at h
    · cases h
    next items hmerge =>
      simp only [map_eq_some_iff, Turn.done.injEq] at h
      obtain ⟨arrays, hfree, rfl⟩ := h
      exact .merged hfew hlast.1 hlast.2 items arrays hmerge hfree rfl
    next hmerge =>
      simp only [hlast.1, some.injEq, Turn.done.injEq] at h
      exact .added hfew (by simp [hlast.1]) (fun _ _ => hmerge) h.symm
  · dsimp only at h
    split at h
    · simp at h
    next hnot =>
      simp only [some.injEq, Turn.done.injEq] at h
      refine .added hfew ?_ (fun hr hm => absurd ⟨hr, hm⟩ hlast) h.symm
      intro rest hrest
      cases rest with
      | nil => rfl
      | cons t ts => exact absurd hrest (hnot t ts)

end Place

structure Chunked (env : Environment) (base : EventBase) (template : TestItem) (n : ℕ)
    (s : Schedule) (targets : Option (List ℕ)) (s' : Schedule) (full : List TestItem)
    (last : TestItem) (remaining : Option (List ℕ)) (bufs : Buffers) : Prop where
  chunks_eq : chunks env template n s.bufs targets = full ++ [last]
  filled : ∀ test ∈ full ++ [last], Filled template test
  full_up : ∀ test ∈ full, ¬ test.HasRoom
  absent : remaining = none ↔ targets = none
  first : ∃ test bufs rest, populateTargetLists env.table template s.bufs targets = some (test, bufs, rest) ∧
      (full = [] ↔ test.total < test.test.minTargets.toNat ∨ rest.getD [] = [])
  placed : Placed base ⟨s.items ++ full.map (scheduleItem base), s.arrays, bufs⟩ last remaining s'

theorem populateTargetLists_absent {table : List NametableItem} {remaining : Option (List ℕ)}
    (h : populateTargetLists table template bufs targets = some (test, bufs', remaining)) :
    remaining = none ↔ targets = none := by
  cases targets with
  | none =>
    simp only [populateTargetLists, some.injEq, Prod.mk.injEq] at h
    simp [← h.2.2]
  | some targets =>
    obtain ⟨_, _, rfl, -⟩ := populateTargetLists_consumes h
    simp

theorem Placed.ends {base : EventBase} {s' : Schedule} {remaining : Option (List ℕ)} (h : Placed base s test remaining s') :
    test.total < test.test.minTargets.toNat ∨ remaining.getD [] = [] := by
  cases h with
  | dropped few => exact Or.inl few
  | merged _ last => exact Or.inr (by rw [last]; rfl)
  | added _ last =>
    cases remaining with
    | none => exact Or.inr rfl
    | some rest => exact Or.inr (last rest rfl)

theorem Chunked.single {env : Environment} {base : EventBase} (n : ℕ) {s' : Schedule}
    {remaining : Option (List ℕ)}
    (hpop : populateTargetLists env.table template s.bufs targets = some (test, bufs, remaining))
    (hplaced : Placed base ⟨s.items, s.arrays, bufs⟩ test remaining s') :
    Chunked env base template (n + 1) s targets s' [] test remaining bufs := by
  have hends := hplaced.ends
  have hchunks : chunks env template (n + 1) s.bufs targets = [test] := by
    rw [chunks, hpop]
    dsimp only
    split_ifs with hfew
    · rfl
    · split
      · simp [hfew] at hends
      · rfl
  exact ⟨hchunks, by simpa using populateTargetLists_filled hpop, by simp,
    populateTargetLists_absent hpop, ⟨test, bufs, remaining, hpop, by simp [hends]⟩,
    by simpa using hplaced⟩

theorem Chunked.cons {env : Environment} {base : EventBase} {last : TestItem} {n : ℕ}
    {s' : Schedule} {remaining : Option (List ℕ)} {rest : List ℕ} {full : List TestItem}
    (hpop : populateTargetLists env.table template s.bufs targets = some (test, bufs, some rest))
    (hne : rest ≠ []) (henough : ¬ test.total < test.test.minTargets.toNat)
    (hrec : Chunked env base template n ⟨s.items ++ [scheduleItem base test], s.arrays, bufs⟩
      (some rest) s' full last remaining bufs') :
    Chunked env base template (n + 1) s targets s' (test :: full) last remaining bufs' := by
  obtain ⟨t, ts, rfl⟩ := exists_cons_of_ne_nil hne
  have htargets : targets ≠ none := by
    rw [ne_eq, ← populateTargetLists_absent hpop]
    simp
  have hroom : ¬ test.HasRoom := by
    obtain ⟨list, rfl⟩ := ne_none_iff_exists'.mp htargets
    obtain ⟨_, rest, hrest, -, -, -, hfull⟩ := populateTargetLists_consumes hpop
    cases hrest
    exact hfull hne
  refine ⟨?_, ?_, ?_, ?_, ⟨test, bufs, some (t :: ts), hpop, by simp [henough]⟩, ?_⟩
  · rw [chunks, hpop]
    simp only [henough, ↓reduceIte, cons_append]
    exact congrArg _ hrec.chunks_eq
  · intro x hx
    rcases mem_cons.mp hx with rfl | hx
    · exact populateTargetLists_filled hpop
    · exact hrec.filled x hx
  · intro x hx
    rcases mem_cons.mp hx with rfl | hx
    · exact hroom
    · exact hrec.full_up x hx
  · rw [hrec.absent]
    simp [htargets]
  · simpa using hrec.placed

theorem scheduleLoop_chunked {env : Environment} {base : EventBase} {n : ℕ} {s' : Schedule}
    (h : scheduleLoop env base template n s targets = .returned s') :
    ∃ full last remaining bufs, Chunked env base template n s targets s' full last remaining bufs := by
  induction n generalizing s targets with
  | zero => simp [scheduleLoop] at h
  | succ n ih =>
    rw [scheduleLoop, scheduleTurn] at h
    cases hpop : populateTargetLists env.table template s.bufs targets with
    | none => simp [hpop] at h
    | some p =>
      obtain ⟨test, bufs, remaining⟩ := p
      rw [hpop] at h
      dsimp only at h
      split at h
      · cases h
      next hplace =>
        cases h
        exact ⟨[], test, remaining, bufs, .single n hpop (placeTest_done hplace)⟩
      next s₁ rest hplace =>
        obtain ⟨rfl, hne, henough, rfl⟩ := placeTest_more hplace
        obtain ⟨full, last, remaining, bufs', hrec⟩ := ih h
        exact ⟨test :: full, last, remaining, bufs', hrec.cons hpop hne henough⟩

theorem parseArgs_items (s : Schedule) (d : TestDefinition) : (parseArgs s d).1.items = s.items := by
  rw [parseArgs]
  split
  · rfl
  · split <;> rfl

theorem parseArgs_bufs (s : Schedule) (d : TestDefinition) : (parseArgs s d).1.bufs = s.bufs := by
  rw [parseArgs]
  split
  · rfl
  · split <;> rfl

end Amplet.ScheduleChunks
