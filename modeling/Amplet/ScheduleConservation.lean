import Amplet.ScheduleChunks

/-!
# Destinations across a scheduling call

A call of `create_and_schedule_test` adds the destinations that `populate_target_lists`
produced, except that a merge moves one destination of the last chunk only, and a last
chunk below the minimum of the test is dropped.
-/

namespace Amplet.ScheduleConservation
open List Bytes TargetLists TestSchedule ScheduleChunks

inductive Destination
  | address (addr : AddrInfo)
  | name (dest : ResolveDest)
deriving DecidableEq

def itemDestinations (item : TestItem) : Multiset Destination :=
  Multiset.ofList (item.dests.map Destination.address ++ item.resolve.map Destination.name)

def destinations (items : List TestItem) : Multiset Destination :=
  (items.map itemDestinations).sum

theorem card_itemDestinations (item : TestItem) : (itemDestinations item).card = item.total := by
  simp [itemDestinations, TestItem.total]

theorem destinations_append (items more : List TestItem) :
    destinations (items ++ more) = destinations items + destinations more := by
  simp [destinations]

theorem destinations_singleton (item : TestItem) : destinations [item] = itemDestinations item := by
  simp [destinations]

theorem destinations_scheduleItem (base : EventBase) (items : List TestItem) :
    destinations (items.map (scheduleItem base)) = destinations items := by
  rw [destinations, map_map]
  rfl

theorem destinations_modify {items : List TestItem} {i : ℕ} {item : TestItem}
    (h : items[i]? = some item) (f : TestItem → TestItem) (added : Multiset Destination)
    (hf : itemDestinations (f item) = itemDestinations item + added) :
    destinations (items.modify i f) = destinations items + added := by
  induction items generalizing i with
  | nil => simp at h
  | cons x items ih =>
    cases i with
    | zero =>
      simp only [getElem?_cons_zero, Option.some.injEq] at h
      subst h
      simp only [modify_zero_cons, destinations, map_cons, sum_cons, hf]
      rw [add_right_comm]
    | succ i =>
      have hrec := ih (by simpa using h)
      simp only [destinations] at hrec ⊢
      rw [modify_succ_cons, map_cons, sum_cons, hrec, map_cons, sum_cons, add_assoc]

theorem itemDestinations_takesFirst {test : TestItem} (h : test.total ≠ 0) (item : TestItem) : ∃ moved ∈ itemDestinations test,
      itemDestinations (takesFirst test item) = itemDestinations item + {moved} := by
  rw [takesFirst]
  split
  next addr rest hd =>
    refine ⟨.address addr, by simp [itemDestinations, hd], ?_⟩
    rw [itemDestinations, itemDestinations, ← Multiset.coe_singleton, Multiset.coe_add, Multiset.coe_eq_coe]
    simpa using (perm_append_singleton _ _).symm.append_left _
  next name rest hd hr =>
    refine ⟨.name name, by simp [itemDestinations, hr], ?_⟩
    rw [itemDestinations, itemDestinations, ← Multiset.coe_singleton, Multiset.coe_add, Multiset.coe_eq_coe]
    simpa using (perm_middle.trans (perm_append_singleton _ _).symm)
  next hd hr => exact absurd (by simp [TestItem.total, hd, hr]) h

def produced (env : Environment) (s : Schedule) (d : TestDefinition) (template : TestItem) :
    Multiset Destination :=
  destinations (chunks env template (turns d.targets) s.bufs d.targets)

/-- The last chunk is not a remnant too small for the test, and if a scheduled
item can take it then it has one destination. -/
def LastKept (s : Schedule) (d : TestDefinition) (last : TestItem) : Prop :=
  (last.total < last.test.minTargets.toNat → last.total = 0) ∧
  (¬ last.total < last.test.minTargets.toNat → d.targets ≠ none → last.test.maxTargets ≠ 1 → (∃ item ∈ s.items,
      compareTestItems (parseArgs s d).1.arrays item last = some true ∧ item.HasRoom) →
    last.total = 1)

def KeepsTargets (env : Environment) (s : Schedule) (d : TestDefinition) (template : TestItem) :
    Prop :=
  ∀ last, (chunks env template (turns d.targets) s.bufs d.targets).getLast? = some last → LastKept s d last

theorem eq_singleton_iff_card {α : Type*} {m : Multiset α} {x : α} (h : x ∈ m) :
    {x} = m ↔ m.card = 1 := by
  constructor
  · rintro rfl
    exact Multiset.card_singleton x
  · intro hcard
    obtain ⟨y, rfl⟩ := Multiset.card_eq_one.mp hcard
    rw [Multiset.mem_singleton.mp h]

theorem destinations_kept_iff {env : Environment} (base : EventBase) {s s' : Schedule}
    {d : TestDefinition} {template : TestItem}
    (htemplate : admitTest env d (parseArgs s d).2 = some template)
    (hret : createAndScheduleTest env base s d = .returned s') :
    destinations s'.items = destinations s.items + produced env s d template ↔
      KeepsTargets env s d template := by
  simp only [createAndScheduleTest, htemplate] at hret
  obtain ⟨full, last, remaining, bufs, hchunked⟩ := scheduleLoop_chunked hret
  have hchunks := hchunked.chunks_eq
  rw [parseArgs_bufs] at hchunks
  have hplaced := hchunked.placed
  rw [parseArgs_items] at hplaced
  have hproduced : produced env s d template = destinations full + itemDestinations last := by
    rw [produced, hchunks, destinations_append, destinations_singleton]
  have hbefore : destinations (s.items ++ full.map (scheduleItem base)) = destinations s.items + destinations full := by
    rw [destinations_append, destinations_scheduleItem]
  have hkeeps : KeepsTargets env s d template ↔ LastKept s d last := by
    rw [KeepsTargets, hchunks, getLast?_concat]
    exact ⟨fun h => h last rfl, fun h l hl => Option.some.inj hl ▸ h⟩
  rw [hproduced, hkeeps, ← add_assoc, ← hbefore]
  cases hplaced with
  | dropped few arrays _ result =>
    have hsame : destinations s'.items = destinations (s.items ++ full.map (scheduleItem base)) := by rw [result]
    rw [hsame, left_eq_add, ← Multiset.card_eq_zero, card_itemDestinations]
    exact ⟨fun h => ⟨fun _ => h, fun hge => absurd few hge⟩, fun h => h.1 few⟩
  | merged enough hlast several items arrays merge _ result =>
    obtain ⟨hne, i, item, hitem, hcheck, rfl⟩ := mergeScheduledTests_some merge
    obtain ⟨hcmp, -, hroom⟩ := checkTestCompare_true hcheck
    obtain ⟨moved, hmoved, hadd⟩ := itemDestinations_takesFirst hne item
    have hafter : destinations s'.items = destinations (s.items ++ full.map (scheduleItem base)) + {moved} := by
      rw [result]
      exact destinations_modify hitem (takesFirst last) {moved} hadd
    -- a full chunk of the same definition has no room, so the item was there before
    have hold : item ∈ s.items := by
      rcases mem_append.mp (mem_of_getElem? hitem) with h | h
      · exact h
      · obtain ⟨test, htest, rfl⟩ := mem_map.mp h
        exact absurd hroom (hchunked.full_up test htest)
    have htargets : d.targets ≠ none := by
      rw [ne_eq, ← hchunked.absent, hlast]
      simp
    rw [hafter, add_right_inj, eq_singleton_iff_card hmoved, card_itemDestinations]
    refine ⟨fun h => ⟨fun few => absurd few enough, fun _ _ _ _ => h⟩, fun h => ?_⟩
    exact h.2 enough htargets several ⟨item, hold, hcmp, hroom⟩
  | added enough hlast merge result =>
    have hafter : destinations s'.items = destinations (s.items ++ full.map (scheduleItem base)) + itemDestinations last := by
      rw [result, destinations_append _ [scheduleItem base last], destinations_singleton]
      rfl
    refine ⟨fun _ => ⟨fun few => absurd few enough, ?_⟩, fun _ => hafter⟩
    rintro - htargets hseveral ⟨item, hitem, hcmp, hroom⟩
    obtain ⟨rest, hrest⟩ := Option.ne_none_iff_exists'.mp (mt hchunked.absent.mp htargets)
    have hnone := merge (by rw [hrest, hlast rest hrest]) hseveral
    exact absurd ⟨hcmp, hroom⟩ (checkTestCompare_false (mergeScheduledTests_none hnone item (mem_append_left _ hitem)))

def listOrder : EventBase := .oldestFirst ⟨1000, 0⟩

def icmp : Test := ⟨2, cstr "icmp", 0, 1, false, none⟩

def pingEnvironment : Environment := ⟨[icmp], [], ⟨none, none, none, 100, 0⟩⟩

def pingDefinition (targets : List ℕ) : TestDefinition :=
  ⟨some (cstr "icmp"), none, none, none, none, none, some targets⟩

def threeNames : Schedule := ⟨[], [], fun n => cstr (["a", "b", "c"].getD n "")⟩

theorem single_name_kept : ∃ s₁ s₂ template, createAndScheduleTest pingEnvironment listOrder threeNames (pingDefinition [0]) =
        .returned s₁ ∧
      admitTest pingEnvironment (pingDefinition [1]) none = some template ∧
      createAndScheduleTest pingEnvironment listOrder s₁ (pingDefinition [1]) = .returned s₂ ∧
      destinations s₂.items = destinations s₁.items + produced pingEnvironment s₁ (pingDefinition [1]) template := by
  refine ⟨_, _, _, rfl, rfl, rfl, (destinations_kept_iff listOrder rfl rfl).mpr ?_⟩
  intro last hlast
  cases hlast
  exact ⟨by decide +kernel, fun _ _ _ _ => rfl⟩

theorem second_name_lost : ∃ s₁ s₂ template, createAndScheduleTest pingEnvironment listOrder threeNames (pingDefinition [0]) =
        .returned s₁ ∧
      admitTest pingEnvironment (pingDefinition [1, 2]) none = some template ∧
      createAndScheduleTest pingEnvironment listOrder s₁ (pingDefinition [1, 2]) = .returned s₂ ∧
      destinations s₂.items ≠ destinations s₁.items + produced pingEnvironment s₁ (pingDefinition [1, 2]) template := by
  refine ⟨_, _, _, rfl, rfl, rfl, ?_⟩
  decide +kernel

end Amplet.ScheduleConservation
