import Amplet.AddressLimit
import Amplet.SingleTest

/-!
# What each target contributes

The targets of a test without a limit, in the documented forms. The limit of a target is
compared with the number of all entries so far, and it is cut to 16 bits, and to eight
for a name to be resolved.
-/

namespace Amplet.TargetContribution
open List Option Bytes TargetLists SingleTest
open AddressLimit (targetText parseOption_decimal parseTarget_targetText)

/-- The forms `name`, `name!n`, `name!v4`, `name!v6`, `name!n!v4` and `name!n!v6`. -/
structure TargetForm where
  name : CStr
  count : Option ℕ
  family : Family
  name_ne_nil : name ≠ []
  bang_notMem : bang ∉ name
  count_pos : ∀ n ∈ count, n ≠ 0

def familyOption : Family → List CStr
  | .unspec => []
  | .inet => [cstr "v4"]
  | .inet6 => [cstr "v6"]

def TargetForm.options (t : TargetForm) : List CStr :=
  (t.count.map decimal).toList ++ familyOption t.family

def TargetForm.text (t : TargetForm) : CStr := targetText t.name t.options

def matching (family : Family) (chain : List AddrInfo) : List AddrInfo :=
  chain.filter fun addr => family = .unspec ∨ family = addr.family

def TargetForm.addresses (table : List NametableItem) (t : TargetForm) : List AddrInfo :=
  match nameToAddress table t.name with
  | none => []
  | some entry =>
    match t.count with
    | none => matching t.family entry.addr
    | some n => (matching t.family entry.addr).take n

def TargetForm.unresolved (table : List NametableItem) (t : TargetForm) : List (CStr × Family × ℕ) :=
  match nameToAddress table t.name with
  | none => [(t.name, t.family, t.count.getD 0)]
  | some _ => []

def resolveKey (dest : ResolveDest) : CStr × Family × ℕ := (dest.name, dest.family, dest.count.toNat)

def Contributed (table : List NametableItem) (targets : List TargetForm) (item : TestItem) : Prop :=
  item.dests = targets.flatMap (TargetForm.addresses table) ∧
    item.resolve.reverse.map resolveKey = targets.flatMap (TargetForm.unresolved table)

def entries (table : List NametableItem) (targets : List TargetForm) : ℕ :=
  (targets.flatMap (TargetForm.addresses table)).length + (targets.flatMap (TargetForm.unresolved table)).length

def Independent (table : List NametableItem) (item : TestItem) (targets : List TargetForm) : Prop :=
  ∃ item' bufs rest, populateTargetLists table item (messageBuffers (targets.map TargetForm.text))
        (some (range targets.length)) = some (item', bufs, rest) ∧
      Contributed table targets item'

def storedCount : Option ℕ → UInt16
  | none => 0
  | some n => UInt16.ofNat (min n (2 ^ 63 - 1))

/-- The limit fits its field, and the addresses of a known name fit what it leaves after the
entries so far. -/
def Fits (table : List NametableItem) (t : TargetForm) (taken : ℕ) : Prop :=
  ∀ n ∈ t.count,
    match nameToAddress table t.name with
    | none => n ≤ 255
    | some entry =>
      let kept := (storedCount t.count).toNat
      let available := (matching t.family entry.addr).length
      kept = 0 ∧ available ≤ n ∨ kept ≠ 0 ∧ available ≤ kept - taken ∨ kept = n ∧ taken = 0

section

variable {table : List NametableItem} {item : TestItem} {targets : List TargetForm}

theorem option_ne_nil (t : TargetForm) : ∀ o ∈ t.options, o ≠ [] ∧ bang ∉ o := by
  have hv : ∀ o ∈ familyOption t.family, o ≠ [] ∧ bang ∉ o := by
    cases t.family <;> decide
  intro o ho
  rcases mem_append.1 ho with hcount | hfamily
  · obtain ⟨n, hn, rfl⟩ := map_eq_some_iff.1 (mem_toList.1 hcount)
    exact ⟨decimal_ne_nil (t.count_pos n hn), fun h => absurd (isdigit_decimal h) (by decide)⟩
  · exact hv o hfamily

theorem foldl_options (t : TargetForm) : t.options.foldl parseOption (.unspec, 0) = (t.family, storedCount t.count) := by
  have hv4 : ∀ limits, parseOption limits (cstr "v4") = (.inet, limits.2) := fun _ => rfl
  have hv6 : ∀ limits, parseOption limits (cstr "v6") = (.inet6, limits.2) := fun _ => rfl
  have hcount : (t.count.map decimal).toList.foldl parseOption (.unspec, 0) = (.unspec, storedCount t.count) := by
    cases hn : t.count with
    | none => rfl
    | some n => exact parseOption_decimal (t.count_pos n hn) _
  rw [TargetForm.options, foldl_append, hcount]
  cases t.family with
  | unspec => rfl
  | inet => exact hv4 _
  | inet6 => exact hv6 _

theorem parseTarget_text (t : TargetForm) : parseTarget t.text = some (t.name, t.family, storedCount t.count) := by
  have hfold := foldl_options t
  have hoptions := option_ne_nil t
  rw [TargetForm.text]
  cases ho : t.options with
  | nil =>
    rw [ho] at hfold
    rw [targetText, map_nil, flatten_nil, append_nil, parseTarget, strtok_of_not_mem t.name_ne_nil t.bang_notMem]
    exact congrArg (fun limits => some (t.name, limits)) hfold
  | cons option options =>
    rw [ho] at hfold hoptions
    rw [parseTarget_targetText t.name_ne_nil t.bang_notMem (fun o ho => (hoptions o ho).1) (fun o ho => (hoptions o ho).2), hfold]

theorem addAddresses_eq_take (family : Family) (count : UInt16) (item : TestItem)
    (hmax : item.test.maxTargets = 0) (chain : List AddrInfo) :
    addAddresses family count item chain =
      { item with
        dests := item.dests ++
          if count = 0 then matching family chain
          else (matching family chain).take (count.toNat - item.total) } := by
  induction chain generalizing item with
  | nil => simp [addAddresses, matching]
  | cons addr rest ih =>
    rw [addAddresses]
    have hmax' : ¬(0 < item.test.maxTargets ∧ item.test.maxTargets.toNat ≤ item.total) := by
      rw [hmax]
      exact fun h => absurd h.1 (by decide)
    have hpos : 0 < count ↔ count ≠ 0 := UInt16.pos_iff_ne_zero
    by_cases hfull : 0 < count ∧ count.toNat ≤ item.total
    · rw [if_pos (.inr hfull), if_neg (hpos.1 hfull.1), Nat.sub_eq_zero_of_le hfull.2]
      simp
    · rw [if_neg (not_or.2 ⟨hmax', hfull⟩)]
      by_cases hfamily : family = .unspec ∨ family = addr.family
      · have hmatching : matching family (addr :: rest) = addr :: matching family rest :=
          filter_cons_of_pos (by simpa using hfamily)
        have htotal : ({ item with dests := item.dests ++ [addr] } : TestItem).total = item.total + 1 := by
          simp only [TestItem.total, length_append, length_singleton]
          omega
        rw [if_pos hfamily, ih { item with dests := item.dests ++ [addr] } hmax, htotal, hmatching]
        by_cases hzero : count = 0
        · simp [hzero]
        · have hroom : count.toNat - item.total = count.toNat - (item.total + 1) + 1 := by
            have := not_le.1 fun h => hfull ⟨hpos.2 hzero, h⟩
            omega
          rw [if_neg hzero, if_neg hzero, hroom, take_succ_cons]
          simp
      · have hmatching : matching family (addr :: rest) = matching family rest :=
          filter_cons_of_neg (by simpa using hfamily)
        rw [if_neg hfamily, ih item hmax, hmatching]

theorem take_eq_iff (t : TargetForm) (available : List AddrInfo) (taken : ℕ) {n : ℕ} (hn : t.count = some n) :
    (if storedCount t.count = 0 then available
      else available.take ((storedCount t.count).toNat - taken)) = available.take n ↔
    (storedCount t.count).toNat = 0 ∧ available.length ≤ n ∨
      (storedCount t.count).toNat ≠ 0 ∧ available.length ≤ (storedCount t.count).toNat - taken ∨
      (storedCount t.count).toNat = n ∧ taken = 0 := by
  have hkept : (storedCount t.count).toNat ≤ n := by
    rw [hn, storedCount, UInt16.toNat_ofNat']
    exact (Nat.mod_le _ _).trans (Nat.min_le_left _ _)
  have hpos := t.count_pos n hn
  have hzero : storedCount t.count = 0 ↔ (storedCount t.count).toNat = 0 := by
    rw [← UInt16.toNat_inj, UInt16.toNat_zero]
  simp only [hzero]
  split_ifs with hcut
  · rw [eq_comm, take_eq_self_iff]
    omega
  · rw [take_eq_take_iff]
    omega

theorem contributed_addTarget_iff (hmax : item.test.maxTargets = 0)
    (h : Contributed table targets item) (t : TargetForm) : Contributed table (targets ++ [t])
        (addTarget table item t.name t.family (storedCount t.count)) ↔
      Fits table t (entries table targets) := by
  obtain ⟨hdests, hresolve⟩ := h
  have htotal : item.total = entries table targets := by
    rw [TestItem.total, entries, ← hdests, ← hresolve, length_map, length_reverse]
  rw [Contributed, addTarget, Fits, flatMap_append, flatMap_append, flatMap_singleton,
    flatMap_singleton, TargetForm.addresses, TargetForm.unresolved]
  cases hname : nameToAddress table t.name with
  | none =>
    have hkey : (resolveKey ⟨t.name, t.family, (storedCount t.count).toUInt8⟩ =
        (t.name, t.family, t.count.getD 0)) ↔ ∀ n ∈ t.count, n ≤ 255 := by
      rw [resolveKey, Prod.mk.injEq, Prod.mk.injEq]
      simp only [true_and]
      cases t.count with
      | none => simp [storedCount]
      | some n =>
        simp only [storedCount, UInt16.toNat_toUInt8, UInt16.toNat_ofNat', getD_some, mem_some_iff, forall_eq']
        omega
    simp only [append_nil, reverse_cons, map_append, map_cons, map_nil]
    rw [← hkey, hresolve, append_cancel_left_eq, cons.injEq]
    simp [hdests]
  | some entry =>
    simp only [addAddresses_eq_take _ _ item hmax, htotal, hdests, hresolve, append_nil, and_true, append_cancel_left_eq]
    cases hn : t.count with
    | none => simp [storedCount]
    | some n =>
      have htake := take_eq_iff t (matching t.family entry.addr) (entries table targets) hn
      rw [hn] at htake
      simpa using htake

theorem test_addTarget (table : List NametableItem) (item : TestItem) (name : CStr) (family : Family) (count : UInt16) :
    (addTarget table item name family count).test = item.test := by
  obtain ⟨added, names, heq⟩ := addTarget_eq table item name family count
  rw [heq]

def addTargets (table : List NametableItem) (item : TestItem) (targets : List TargetForm) : TestItem :=
  targets.foldl (fun item t => addTarget table item t.name t.family (storedCount t.count)) item

theorem test_addTargets (table : List NametableItem) (item : TestItem) (targets : List TargetForm) :
    (addTargets table item targets).test = item.test := by
  induction targets generalizing item with
  | nil => rfl
  | cons t targets ih =>
    rw [addTargets, foldl_cons, ← addTargets, ih, test_addTarget]

theorem populateLoop_forms (table : List NametableItem) (item : TestItem) {bufs : Buffers}
    {refs : List ℕ} (hmax : item.test.maxTargets = 0)
    (htexts : readTexts bufs refs = targets.map TargetForm.text) :
    ∃ bufs', populateLoop table (item, bufs) refs = some (addTargets table item targets, bufs', []) := by
  induction refs generalizing item bufs targets with
  | nil =>
    obtain rfl : targets = [] := by simpa [readTexts] using htexts.symm
    exact ⟨bufs, rfl⟩
  | cons r refs ih =>
    cases targets with
    | nil => cases htexts
    | cons t targets =>
      obtain ⟨htext, hrest⟩ := cons.inj htexts
      have hmax' : (addTarget table item t.name t.family (storedCount t.count)).test.maxTargets = 0 := by
        rw [test_addTarget, hmax]
      have hparse : parseTarget (bufs r) = some (t.name, t.family, storedCount t.count) := by
        rw [htext, parseTarget_text]
      obtain ⟨bufs', hloop⟩ := ih _ hmax' hrest
      refine ⟨bufs', ?_⟩
      rw [populateLoop, if_pos (.inl hmax), processTarget]
      dsimp only
      rw [hparse]
      exact hloop

theorem independent_iff (hmax : item.test.maxTargets = 0) : Independent table item targets ↔
      Contributed table targets (addTargets table { item with dests := [], resolve := [] } targets) := by
  have htexts : readTexts (messageBuffers (targets.map TargetForm.text))
      (range targets.length) = targets.map TargetForm.text := by
    rw [readTexts_of_nodup nodup_range]
    have hmap := map_messageBuffers (targets.map TargetForm.text)
    rwa [length_map] at hmap
  obtain ⟨bufs', hloop⟩ :=
    populateLoop_forms table { item with dests := [], resolve := [] } hmax htexts
  rw [Independent, populateTargetLists, hloop]
  simp

end

/-- Each target adds what it stands for if and only if each limit fits after the entries before
it. -/
theorem targets_independent_iff (table : List NametableItem) (item : TestItem)
    (targets : List TargetForm) (hmax : item.test.maxTargets = 0) :
    (∀ before, before <+: targets → Independent table item before) ↔
      ∀ before t after, targets = before ++ t :: after → Fits table t (entries table before) := by
  have hstep : ∀ before t, Independent table item before →
      (Independent table item (before ++ [t]) ↔ Fits table t (entries table before)) := by
    intro before t h
    rw [independent_iff hmax] at h ⊢
    have htest : (addTargets table { item with dests := [], resolve := [] } before).test.maxTargets =
        0 := by
      rw [test_addTargets]
      exact hmax
    rw [← contributed_addTarget_iff htest h t, addTargets, foldl_append, ← addTargets]
    rfl
  constructor
  · rintro h before t after rfl
    refine (hstep before t (h before (prefix_append _ _))).1 (h _ ?_)
    exact ⟨after, by simp⟩
  · intro h before hbefore
    induction before using reverseRecOn with
    | nil => exact (independent_iff hmax).2 ⟨rfl, rfl⟩
    | append_singleton before t ih =>
      obtain ⟨after, rfl⟩ := hbefore
      have hfits := h before t after (by simp)
      exact (hstep before t (ih ⟨t :: after, by simp⟩)).2 hfits

def unlimitedItem : TestItem := singleTestItem ⟨2, cstr "icmp", 0, 1, false, none⟩ none

def twoNames : List NametableItem :=
  [⟨⟨.inet, [10, 0, 0, 1], cstr "a"⟩, []⟩, ⟨⟨.inet, [10, 0, 0, 2], cstr "b"⟩, []⟩]

def single (name : CStr) (hne : name ≠ []) (hbang : bang ∉ name) : TargetForm :=
  ⟨name, some 1, .unspec, hne, hbang, by simp⟩

/-- The targets `a!1`, `b`, `x!3!v6` and `b!4!v4`. -/
def mixedTargets : List TargetForm :=
  [single (cstr "a") (by decide) (by decide), ⟨cstr "b", none, .unspec, by decide, by decide, by simp⟩,
    ⟨cstr "x", some 3, .inet6, by decide, by decide, by simp⟩,
    ⟨cstr "b", some 4, .inet, by decide, by decide, by simp⟩]

theorem mixed_targets_independent : Independent twoNames unlimitedItem mixedTargets := by
  refine (targets_independent_iff twoNames unlimitedItem mixedTargets rfl).mpr ?_ _ (prefix_refl _)
  rintro (_ | ⟨_, _ | ⟨_, _ | ⟨_, _ | ⟨_, before⟩⟩⟩⟩) t after h n hn
  · obtain ⟨rfl, -⟩ := cons.inj h
    cases hn
    exact Or.inr (Or.inr ⟨rfl, rfl⟩)
  · obtain ⟨-, h⟩ := cons.inj h
    obtain ⟨rfl, -⟩ := cons.inj h
    cases hn
  · simp only [mixedTargets, cons_append, cons.injEq] at h
    obtain ⟨-, -, rfl, -⟩ := h
    cases hn
    exact (by decide : 3 ≤ 255)
  · simp only [mixedTargets, cons_append, cons.injEq] at h
    obtain ⟨rfl, rfl, rfl, rfl, -⟩ := h
    cases hn
    exact Or.inr (Or.inl ⟨by decide, by decide⟩)
  · simp [mixedTargets] at h

theorem second_target_adds_nothing : (populateTargetLists twoNames unlimitedItem (messageBuffers [cstr "a!1", cstr "b!1"])
        (some [0, 1])).map (fun p => (p.1.dests, p.1.resolve)) =
      some ([⟨.inet, [10, 0, 0, 1], cstr "a"⟩], []) ∧
    ¬Independent twoNames unlimitedItem
      [single (cstr "a") (by decide) (by decide), single (cstr "b") (by decide) (by decide)] := by
  refine ⟨by decide +kernel, fun h => ?_⟩
  rw [independent_iff rfl] at h
  exact absurd h.1 (by decide +kernel)

/-- For target strings of any bytes: if and only if no target without a name is read before the
limit of the test is reached. -/
theorem names_present_iff (table : List NametableItem) (item : TestItem) (bufs : Buffers) (targets : List ℕ) :
    populateTargetLists table item bufs (some targets) ≠ none ↔
      ¬ReadsNameless table item.test.maxTargets.toNat 0 (readTexts bufs targets) := by
  have hcount := (populateLoop_count table ({ item with dests := [], resolve := [] }, bufs) targets).1
  rw [not_iff_not, populateTargetLists]
  refine Iff.trans ?_ hcount
  split <;> simp_all

theorem nameless_targets_abort : (populateTargetLists [] unlimitedItem (messageBuffers [cstr ""]) (some [0])).isNone ∧
      (populateTargetLists [] unlimitedItem (messageBuffers [cstr "!!!"]) (some [0])).isNone := by
  decide +kernel

end Amplet.TargetContribution
