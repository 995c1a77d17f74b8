import Amplet.TestSchedule

/-!
# Tests requested by a control message

Embedding of `parse_single_test` in `src/measured/control.c` and of the assertion of
`run_test` in `src/measured/run.c`. A message is given by the fields its unpacking
found.
-/

namespace Amplet.SingleTest
open List Function Option Bytes ParamString TargetLists TestSchedule

inductive ControlType
  | server
  | test
  | schedule
  | response
  | result
deriving DecidableEq, Repr

structure TestRequest where
  testType : Option UInt64
  targets : List CStr
  params : Option CStr

structure ServerRequest where
  testType : Option UInt64
  params : Option CStr

structure ControlMessage where
  type : Option ControlType
  test : Option TestRequest

inductive ParsedTest
  | refused
  | aborted
  | accepted (item : TestItem) (arrays : ParamArrays)

def minInterPacketDelay : UInt32 := 100

/-- A NULL result of `parse_param_string` is stored like any other. -/
def singleTestItem (test : Test) (params : Option (List CStr)) : TestItem where
  abstime := ⟨0, 0⟩
  interval := ⟨0, 0⟩
  start := 0
  stop := 0
  period := .invalid
  test := test
  dests := []
  resolve := []
  testMeta := ⟨none, none, none, minInterPacketDelay, 0⟩
  params := params.map fun _ => 0

def messageBuffers (targets : List CStr) : Buffers := fun i => targets.getD i []

def parseSingleTest (env : Environment) (msg : Option ControlMessage) : ParsedTest :=
  match msg with
  | some ⟨some .test, some ⟨some testType, targets, params⟩⟩ =>
    match getTestById env.tests testType with
    | none => .refused
    | some test =>
      let words := parseParamString params
      let item := singleTestItem test words
      if targets ≠ [] then
        match populateTargetLists env.table item (messageBuffers targets) (some (range targets.length)) with
        | none => .aborted
        | some (item, _, _) => .accepted item [words]
      else .accepted item [words]
  | _ => .refused

/-- Refused, or an item that passes the assertion of `run_test` and has kept its arguments. -/
def SafelyHandled (env : Environment) (msg : Option ControlMessage) : Prop :=
  match parseSingleTest env msg with
  | .refused => True
  | .aborted => False
  | .accepted item _ => item.test.minTargets.toNat ≤ item.total ∧ item.params ≠ none

def capped (k x : ℕ) : ℕ := if k = 0 then x else min x k

def countTarget (table : List NametableItem) (maxTargets n : ℕ) (target : CStr) : ℕ :=
  if maxTargets ≠ 0 ∧ maxTargets ≤ n then n
  else
    match parseTarget target with
    | none => n
    | some (name, family, count) =>
      match nameToAddress table name with
      | none => n + 1
      | some entry =>
        let matching := entry.addr.countP fun addr => family = .unspec ∨ family = addr.family
        max n (capped count.toNat (capped maxTargets (n + matching)))

def countTargets (table : List NametableItem) (maxTargets n : ℕ) (targets : List CStr) : ℕ :=
  targets.foldl (countTarget table maxTargets) n

/-- A target that is empty or made of exclamation marks is read before the
limit of the test is reached. -/
def ReadsNameless (table : List NametableItem) (maxTargets n : ℕ) (targets : List CStr) : Prop :=
  ∃ before target after, targets = before ++ target :: after ∧ (∀ b ∈ target, b = bang) ∧
    (maxTargets = 0 ∨ countTargets table maxTargets n before < maxTargets)

theorem addAddresses_total (family : Family) (count : UInt16) (item : TestItem) (chain : List AddrInfo) :
    (addAddresses family count item chain).total = max item.total (capped count.toNat (capped item.test.maxTargets.toNat
        (item.total + chain.countP fun addr => family = .unspec ∨ family = addr.family))) := by
  induction chain generalizing item with
  | nil =>
    simp only [addAddresses, countP_nil, Nat.add_zero, capped]
    split_ifs <;> omega
  | cons addr rest ih =>
    have hpos (k : UInt16) : 0 < k ↔ k.toNat ≠ 0 := by
      rw [UInt16.lt_iff_toNat_lt, UInt16.toNat_zero, Nat.pos_iff_ne_zero]
    rw [addAddresses]
    simp only [hpos]
    by_cases hfam : family = .unspec ∨ family = addr.family
    · rw [countP_cons_of_pos (by simpa using hfam)]
      have hstep : ({ item with dests := item.dests ++ [addr] } : TestItem).total = item.total + 1 := by
        simp only [TestItem.total, length_append, length_singleton]
        omega
      split_ifs with hfull
      · simp only [capped]
        split_ifs <;> omega
      · rw [ih, hstep]
        simp only [capped]
        split_ifs <;> omega
    · rw [countP_cons_of_neg (by simpa using hfam), if_neg hfam]
      split_ifs with hfull
      · simp only [capped]
        split_ifs <;> omega
      · exact ih item

variable {target : CStr} {maxTargets : ℕ}

theorem addTarget_total (table : List NametableItem) {item : TestItem} {name : CStr}
    {family : Family} {count : UInt16} (hroom : item.HasRoom)
    (hparse : parseTarget target = some (name, family, count)) :
    (addTarget table item name family count).total = countTarget table item.test.maxTargets.toNat item.total target := by
  have hnot : ¬ (item.test.maxTargets.toNat ≠ 0 ∧ item.test.maxTargets.toNat ≤ item.total) := by
    rcases hroom with hzero | hlt
    · simp [hzero]
    · omega
  rw [countTarget, if_neg hnot, hparse, addTarget]
  cases hfind : nameToAddress table name with
  | none =>
    simp only [TestItem.total, length_cons, hfind]
    omega
  | some entry =>
    simp only [hfind]
    exact addAddresses_total family count item entry.addr

theorem parseTarget_eq_none_iff (target : CStr) : parseTarget target = none ↔ ∀ b ∈ target, b = bang := by
  simp only [← mem_singleton, ← strtok_eq_none_iff]
  rw [parseTarget]
  split <;> simp_all

theorem hasRoom_iff (item : TestItem) :
    item.HasRoom ↔ item.test.maxTargets.toNat = 0 ∨ item.total < item.test.maxTargets.toNat := by
  rw [TestItem.HasRoom, ← UInt16.toNat_inj, UInt16.toNat_zero]

theorem countTargets_full {table : List NametableItem} {n : ℕ} (hfull : maxTargets ≠ 0 ∧ maxTargets ≤ n) (targets : List CStr) :
    countTargets table maxTargets n targets = n := by
  induction targets with
  | nil => rfl
  | cons t ts ih =>
    rw [countTargets, foldl_cons, countTarget, if_pos hfull]
    exact ih

theorem readsNameless_cons {table : List NametableItem} {n : ℕ} {targets : List CStr}
    (hname : ¬ ∀ b ∈ target, b = bang) : ReadsNameless table maxTargets n (target :: targets) ↔
      ReadsNameless table maxTargets (countTarget table maxTargets n target) targets := by
  constructor
  · rintro ⟨before, t, after, hsplit, hbang, hroom⟩
    cases before with
    | nil =>
      obtain ⟨rfl, -⟩ := cons.inj hsplit
      exact absurd hbang hname
    | cons b before =>
      cases hsplit
      exact ⟨before, t, after, rfl, hbang, hroom⟩
  · rintro ⟨before, t, after, rfl, hbang, hroom⟩
    exact ⟨target :: before, t, after, rfl, hbang, hroom⟩

def readTexts (bufs : Buffers) : List ℕ → List CStr
  | [] => []
  | target :: targets =>
    bufs target :: readTexts (update bufs target (strtokResidue [bang] (bufs target))) targets

theorem readTexts_of_nodup {refs : List ℕ} (h : refs.Nodup) (bufs : Buffers) : readTexts bufs refs = refs.map bufs := by
  induction refs generalizing bufs with
  | nil => rfl
  | cons r refs ih =>
    obtain ⟨hr, hrefs⟩ := nodup_cons.mp h
    rw [readTexts, ih hrefs, map_cons]
    -- the rest of the list does not read the buffer that was cut
    congr 1
    exact map_congr_left fun q hq => update_of_ne (by rintro rfl; exact hr hq) _ _

theorem populateLoop_count (table : List NametableItem) (s : TestItem × Buffers) (refs : List ℕ) :
    (populateLoop table s refs = none ↔ ReadsNameless table s.1.test.maxTargets.toNat s.1.total (readTexts s.2 refs)) ∧
      ∀ item bufs rest, populateLoop table s refs = some (item, bufs, rest) →
        item.total = countTargets table s.1.test.maxTargets.toNat s.1.total (readTexts s.2 refs) := by
  induction refs generalizing s with
  | nil =>
    refine ⟨by simp [populateLoop, ReadsNameless, readTexts], fun item bufs rest h => ?_⟩
    simp only [populateLoop, some.injEq, Prod.mk.injEq] at h
    rw [← h.1]
    rfl
  | cons r refs ih =>
    rw [populateLoop, readTexts]
    by_cases hroom : s.1.HasRoom
    · rw [if_pos hroom, processTarget]
      cases hparse : parseTarget (s.2 r) with
      | none =>
        have hbang := (parseTarget_eq_none_iff _).mp hparse
        refine ⟨iff_of_true rfl ?_, by simp⟩
        exact ⟨[], s.2 r, _, rfl, hbang, (hasRoom_iff s.1).mp hroom⟩
      | some p =>
        obtain ⟨name, family, count⟩ := p
        have hname : ¬ ∀ b ∈ s.2 r, b = bang := by
          rw [← parseTarget_eq_none_iff, hparse]
          simp
        have htotal := addTarget_total table hroom hparse
        obtain ⟨added, names, heq⟩ := addTarget_eq table s.1 name family count
        have htest : (addTarget table s.1 name family count).test = s.1.test := by rw [heq]
        have hrec := ih (addTarget table s.1 name family count, update s.2 r (strtokResidue [bang] (s.2 r)))
        simp only [htest, htotal] at hrec
        exact ⟨hrec.1.trans (readsNameless_cons hname).symm, hrec.2⟩
    · rw [if_neg hroom]
      rw [hasRoom_iff, not_or, not_lt] at hroom
      constructor
      · refine iff_of_false (by simp) ?_
        rintro ⟨before, t, after, -, -, hlt⟩
        rw [countTargets_full hroom] at hlt
        omega
      · intro item bufs rest h
        simp only [some.injEq, Prod.mk.injEq] at h
        rw [← h.1, countTargets_full hroom]

theorem map_messageBuffers (targets : List CStr) : (range targets.length).map (messageBuffers targets) = targets := by
  refine ext_getElem (by simp) fun i h _ => ?_
  simp only [length_map, length_range] at h
  simp [messageBuffers, getD_eq_getElem?_getD, h]

structure RequestFits (env : Environment) (test : Test) (targets : List CStr)
    (params : Option CStr) : Prop where
  words : parseParamString params ≠ none
  named : ¬ ReadsNameless env.table test.maxTargets.toNat 0 targets
  enough : test.minTargets.toNat ≤ countTargets env.table test.maxTargets.toNat 0 targets

theorem populate_request (env : Environment) (test : Test) (words : Option (List CStr)) (targets : List CStr) :
    (populateTargetLists env.table (singleTestItem test words) (messageBuffers targets) (some (range targets.length)) = none ↔
      ReadsNameless env.table test.maxTargets.toNat 0 targets) ∧
    ∀ item bufs rest, populateTargetLists env.table (singleTestItem test words) (messageBuffers targets)
          (some (range targets.length)) = some (item, bufs, rest) →
        item.test = test ∧ item.params = words.map (fun _ => 0) ∧
          item.total = countTargets env.table test.maxTargets.toNat 0 targets := by
  have hcount := populateLoop_count env.table ({ singleTestItem test words with
    dests := [], resolve := [] }, messageBuffers targets) (range targets.length)
  simp only [readTexts_of_nodup nodup_range, map_messageBuffers] at hcount
  rw [populateTargetLists]
  constructor
  · refine Iff.trans ?_ hcount.1
    split <;> simp_all
  · intro item bufs rest h
    split at h
    · cases h
    next hloop =>
      simp only [some.injEq, Prod.mk.injEq] at h
      obtain ⟨rfl, -, -⟩ := h
      have hsame := (populateLoop_item hloop (by simp [TestItem.total])).1
      refine ⟨by rw [hsame]; rfl, by rw [hsame]; rfl, hcount.2 _ _ _ hloop⟩

theorem safelyHandled_request {env : Environment} {testType : UInt64} {test : Test}
    (htest : getTestById env.tests testType = some test) (targets : List CStr)
    (params : Option CStr) :
    SafelyHandled env (some ⟨some .test, some ⟨some testType, targets, params⟩⟩) ↔
      RequestFits env test targets params := by
  have hwords : (parseParamString params).map (fun _ => 0) ≠ none ↔ parseParamString params ≠ none := by simp
  have hfits : RequestFits env test targets params ↔ (parseParamString params ≠ none ∧
      ¬ ReadsNameless env.table test.maxTargets.toNat 0 targets ∧
      test.minTargets.toNat ≤ countTargets env.table test.maxTargets.toNat 0 targets) :=
    ⟨fun h => ⟨h.words, h.named, h.enough⟩, fun h => ⟨h.1, h.2.1, h.2.2⟩⟩
  rw [hfits, SafelyHandled]
  simp only [parseSingleTest, htest]
  by_cases hempty : targets = []
  · subst hempty
    have hnone : ¬ ReadsNameless env.table test.maxTargets.toNat 0 [] := by
      rintro ⟨before, t, after, h, -⟩
      simp at h
    rw [if_neg (by simp)]
    simp only [hnone, not_false_eq_true, true_and, ← hwords]
    exact and_comm
  · obtain ⟨hnone, hsome⟩ := populate_request env test (parseParamString params) targets
    rw [if_pos hempty, ← hnone]
    cases hpop : populateTargetLists env.table (singleTestItem test (parseParamString params))
        (messageBuffers targets) (some (range targets.length)) with
    | none => simp
    | some p =>
      obtain ⟨item, bufs, rest⟩ := p
      obtain ⟨hitem, hparams, htotal⟩ := hsome item bufs rest hpop
      simp only [hitem, hparams, htotal, hwords, reduceCtorEq, not_false_eq_true, true_and]
      exact and_comm

theorem parseSingleTest_refused {env : Environment} {msg : Option ControlMessage} (h : ∀ testType targets params test,
      msg = some ⟨some .test, some ⟨some testType, targets, params⟩⟩ →
      getTestById env.tests testType ≠ some test) : parseSingleTest env msg = .refused := by
  unfold parseSingleTest
  split
  next testType targets params =>
    split
    · rfl
    next test htest => exact absurd htest (h testType targets params test rfl)
  · rfl

theorem safelyHandled_iff (env : Environment) (msg : Option ControlMessage) :
    SafelyHandled env msg ↔ ∀ testType targets params test, msg = some ⟨some .test, some ⟨some testType, targets, params⟩⟩ →
      getTestById env.tests testType = some test → RequestFits env test targets params := by
  constructor
  · rintro h testType targets params test rfl htest
    exact (safelyHandled_request htest targets params).mp h
  · intro h
    by_cases hreq : ∃ testType targets params test, msg = some ⟨some .test, some ⟨some testType, targets, params⟩⟩ ∧
          getTestById env.tests testType = some test
    · obtain ⟨testType, targets, params, test, rfl, htest⟩ := hreq
      exact (safelyHandled_request htest targets params).mpr (h testType targets params test rfl htest)
    · rw [SafelyHandled, parseSingleTest_refused]
      · trivial
      · exact fun testType targets params test hmsg htest =>
          hreq ⟨testType, targets, params, test, hmsg, htest⟩

def icmpTest : Test := ⟨2, cstr "icmp", 0, 1, false, none⟩

def icmpEnvironment : Environment := ⟨[icmpTest], [], ⟨none, none, none, 100, 0⟩⟩

def icmpRequest (targets : List CStr) (params : Option CStr) : Option ControlMessage :=
  some ⟨some .test, some ⟨some 2, targets, params⟩⟩

theorem request_with_target_safe : SafelyHandled icmpEnvironment (icmpRequest [cstr "a!v4"] (some (cstr "-s 84"))) := by
  refine (safelyHandled_iff _ _).mpr ?_
  rintro testType targets params test hmsg htest
  cases hmsg
  cases htest
  refine ⟨by decide +kernel, ?_, by decide +kernel⟩
  rintro ⟨before, target, after, hsplit, hbang, -⟩
  have hmem : target ∈ [cstr "a!v4"] := by
    rw [hsplit]
    simp
  rw [mem_singleton.mp hmem] at hbang
  revert hbang
  decide

theorem requests_mishandled : (∃ item arrays, parseSingleTest icmpEnvironment (icmpRequest [] none) =
        .accepted item arrays ∧ item.total < item.test.minTargets.toNat) ∧
      parseSingleTest icmpEnvironment (icmpRequest [cstr "!"] none) = .aborted ∧
      parseParamString (some (cstr "-s \"84")) = none ∧
      ∃ item arrays, parseSingleTest icmpEnvironment (icmpRequest [cstr "a"] (some (cstr "-s \"84"))) = .accepted item arrays ∧
          item.params = none := by
  refine ⟨⟨_, _, rfl, by decide⟩, rfl, by decide +kernel, ?_⟩
  exact ⟨_, _, rfl, by decide +kernel⟩

end Amplet.SingleTest
