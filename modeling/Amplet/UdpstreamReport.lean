import Amplet.RunLength
import Amplet.ScheduleTime
import Amplet.SignedWords

/-!
# Report of a udpstream test

Embedding of `report_stream` in `src/tests/udpstream/udpstream_common.c`. What the
report has in floating point is left out: the means, the loss in percent and the voice
scores. `qsort` is a stable merge sort.
-/

namespace Amplet.UdpstreamReport
open List RunLength ScheduleTime SignedWords

structure Options where
  tport : UInt16
  packetSize : UInt16
  packetCount : UInt16
  packetSpacing : UInt32
  percentileCount : UInt32
  rttSamples : UInt32
  dscp : UInt8
deriving DecidableEq, Repr

structure Summary where
  maximum : UInt32
  minimum : UInt32
  samples : UInt32
deriving DecidableEq, Repr

structure SummaryStats where
  maximum : ℤ
  minimum : ℤ
  samples : UInt32
deriving DecidableEq, Repr

def reportSummary (summary : Summary) : Option SummaryStats :=
  if summary.samples = 0 then none
  else some ⟨int32 summary.maximum.toNat, int32 summary.minimum.toNat, summary.samples⟩

inductive Direction
  | serverToClient
  | clientToServer
deriving DecidableEq, Repr

inductive Status
  | lost
  | received
deriving DecidableEq, Repr

structure Item where
  direction : Direction
  rtt : Option SummaryStats
  jitter : Option SummaryStats
  percentiles : List ℤ
  packetsReceived : Option ℕ
  lossPeriods : List (Run Status)
deriving DecidableEq, Repr

def timerisset (tv : TimeVal) : Bool := tv.sec ≠ 0 || tv.usec ≠ 0

theorem timerisset_iff {tv : TimeVal} : timerisset tv = true ↔ tv.sec ≠ 0 ∨ tv.usec ≠ 0 := by
  simp [timerisset]

/-- A difference of unsigned numbers, as an `int`. -/
def cmp (a b : ℤ) : ℤ := int32 (a - b)

theorem cmp_self (a : ℤ) : cmp a a = 0 := by
  simp [cmp, int32]

def qsort (ipdv : List ℤ) : List ℤ := ipdv.mergeSort fun a b => cmp a b ≤ 0

structure Tally where
  received : ℕ
  prev : ℤ
  ipdv : List ℤ
  lossPeriods : List (Run Status)
deriving DecidableEq, Repr

def Tally.next (tally : Tally) (time : TimeVal) : Tally :=
  if !timerisset time then { tally with lossPeriods := push tally.lossPeriods .lost }
  else
    let received := tally.received + 1
    let lossPeriods := push tally.lossPeriods .received
    let current := int32 time.us
    if received = 1 then ⟨received, current, tally.ipdv, lossPeriods⟩
    else ⟨received, current, tally.ipdv ++ [int32 (current - tally.prev)], lossPeriods⟩

def tallyOf (times : List TimeVal) : Tally := times.foldl Tally.next ⟨0, 0, [], []⟩

def percentilesOf (percentileCount : ℕ) (sorted : List ℤ) : List ℤ :=
  let n := min percentileCount sorted.length
  (range n).map fun i => sorted[sorted.length / n * (i + 1) - 1]?.getD 0

def delays (times : ℕ → TimeVal) (options : Options) : List TimeVal :=
  (range options.packetCount.toNat).map times

def reportStream (direction : Direction) (rtt : Option Summary) (times : Option (ℕ → TimeVal)) (options : Options) : Item :=
  match times with
  | none => ⟨direction, none, none, [], none, []⟩
  | some times =>
    let tally := tallyOf (delays times options)
    let item : Item := ⟨direction, none, none, [], some tally.received, tally.lossPeriods⟩
    if tally.ipdv.length = 0 then item
    else
      let ipdv := qsort tally.ipdv
      let jitter : Summary :=
        ⟨UInt32.ofInt (ipdv[ipdv.length - 1]?.getD 0), UInt32.ofInt (ipdv[0]?.getD 0), UInt32.ofNat ipdv.length⟩
      { item with
        jitter := reportSummary jitter
        percentiles := percentilesOf options.percentileCount.toNat ipdv
        rtt := rtt.bind reportSummary }

section Tally

variable {tally : Tally} {time : TimeVal}

theorem next_lost (h : timerisset time = false) :
    tally.next time = { tally with lossPeriods := push tally.lossPeriods .lost } := by
  rw [Tally.next, h]
  rfl

theorem next_received (h : timerisset time = true) : tally.next time = ⟨tally.received + 1, int32 time.us,
        if tally.received = 0 then tally.ipdv else tally.ipdv ++ [int32 (int32 time.us - tally.prev)],
        push tally.lossPeriods .received⟩ := by
  rw [Tally.next, h]
  by_cases hfirst : tally.received = 0
  · simp [hfirst]
  · simp [hfirst]

end Tally

section Periods

variable {tally : Tally} {statuses : List Status}

def status (time : TimeVal) : Status := if timerisset time then .received else .lost

structure Encodes (tally : Tally) (statuses : List Status) : Prop where
  proper : Proper tally.lossPeriods
  expanded : expand tally.lossPeriods = statuses
  received : tally.received = statuses.count .received

theorem Encodes.next (h : Encodes tally statuses) (time : TimeVal) : Encodes (tally.next time) (statuses ++ [status time]) := by
  rw [status]
  cases htime : timerisset time with
  | false =>
    rw [next_lost htime]
    refine ⟨h.proper.push _, ?_, ?_⟩
    · exact (expand_push ..).trans (by rw [h.expanded]; rfl)
    · simpa using h.received
  | true =>
    rw [next_received htime]
    refine ⟨h.proper.push _, ?_, ?_⟩
    · exact (expand_push ..).trans (by rw [h.expanded]; rfl)
    · simpa using h.received

theorem Encodes.foldl (h : Encodes tally statuses) (times : List TimeVal) :
    Encodes (times.foldl Tally.next tally) (statuses ++ times.map status) := by
  induction times generalizing tally statuses with
  | nil => simpa using h
  | cons time times ih =>
    have hrest := ih (h.next time)
    rwa [append_assoc] at hrest

theorem tallyOf_encodes (times : List TimeVal) : Encodes (tallyOf times) (times.map status) :=
  Encodes.foldl ⟨proper_nil, rfl, rfl⟩ times

end Periods

section Report

variable (direction : Direction) (rtt : Option Summary) (times : ℕ → TimeVal) (options : Options)

def samplesOf : List ℤ := (tallyOf (delays times options)).ipdv

theorem reportStream_lossPeriods : (reportStream direction rtt (some times) options).lossPeriods =
      (tallyOf (delays times options)).lossPeriods := by
  simp only [reportStream]
  split_ifs <;> rfl

theorem reportStream_packetsReceived : (reportStream direction rtt (some times) options).packetsReceived =
      some (tallyOf (delays times options)).received := by
  simp only [reportStream]
  split_ifs <;> rfl

theorem reportStream_percentiles (h : (samplesOf times options).length ≠ 0) :
    (reportStream direction rtt (some times) options).percentiles =
      percentilesOf options.percentileCount.toNat (qsort (samplesOf times options)) := by
  rw [samplesOf] at h ⊢
  simp only [reportStream]
  rw [if_neg h]

theorem expand_lossPeriods : expand (reportStream direction rtt (some times) options).lossPeriods =
      (range options.packetCount.toNat).map fun i => status (times i) := by
  rw [reportStream_lossPeriods, (tallyOf_encodes _).expanded, delays, map_map]
  rfl

theorem packetsReceived_eq_total : (reportStream direction rtt (some times) options).packetsReceived =
      some (total .received (reportStream direction rtt (some times) options).lossPeriods) := by
  have h := tallyOf_encodes (delays times options)
  rw [reportStream_packetsReceived, reportStream_lossPeriods, total_eq_count, h.expanded, h.received]

theorem lossPeriods_encode :
    let item := reportStream direction rtt (some times) options
    (item.lossPeriods.IsChain fun period next => period.value ≠ next.value) ∧ (∀ period ∈ item.lossPeriods, 1 ≤ period.length) ∧
      (item.lossPeriods.map Run.length).sum = options.packetCount.toNat ∧
      expand item.lossPeriods = (range options.packetCount.toNat).map (fun i => status (times i)) ∧
      item.packetsReceived = some (total .received item.lossPeriods) := by
  have hproper := (tallyOf_encodes (delays times options)).proper
  have hexpand := expand_lossPeriods direction rtt times options
  rw [← reportStream_lossPeriods direction rtt] at hproper
  refine ⟨hproper.alternating, hproper.nonempty, ?_, hexpand, packetsReceived_eq_total ..⟩
  rw [sum_length, hexpand, length_map, length_range]

end Report

section Sorting

variable {l samples : List ℤ} {lo hi : ℤ} {i j s n percentileCount : ℕ}

theorem qsort_eq {le : ℤ → ℤ → Bool} (h : ∀ a ∈ l, ∀ b ∈ l, decide (cmp a b ≤ 0) = le a b) : qsort l = l.mergeSort le := by
  have hmap := map_mergeSort (f := id) h
  rwa [map_id, map_id] at hmap

theorem qsort_of_spread (h : ∀ x ∈ l, lo ≤ x ∧ x ≤ hi) (hspread : hi - lo < 2 ^ 31) : qsort l = l.mergeSort := by
  refine qsort_eq fun a ha b hb => ?_
  have ha' := h a ha
  have hb' := h b hb
  rw [cmp, int32_of_range (by omega)]
  simp

theorem qsort_of_pairwise (h : l.Pairwise fun a b => cmp a b ≤ 0) : qsort l = l :=
  mergeSort_of_pairwise (h.imp fun hab => decide_eq_true hab)

theorem mergeSort_pairwise (l : List ℤ) : l.mergeSort.Pairwise (· ≤ ·) := by
  have htrans : ∀ a b c : ℤ, decide (a ≤ b) = true → decide (b ≤ c) = true → decide (a ≤ c) = true := by
    simp only [decide_eq_true_eq]
    exact fun a b c => le_trans
  have htotal : ∀ a b : ℤ, (decide (a ≤ b) || decide (b ≤ a)) = true := by
    simp only [Bool.or_eq_true, decide_eq_true_eq]
    exact le_total
  exact (pairwise_mergeSort htrans htotal l).imp fun hab => of_decide_eq_true hab

theorem getD_mono (h : l.Pairwise (· ≤ ·)) (hij : i ≤ j) (hj : j < l.length) : l[i]?.getD 0 ≤ l[j]?.getD 0 := by
  rw [getElem?_eq_getElem hj, getElem?_eq_getElem (by omega)]
  rcases Nat.eq_or_lt_of_le hij with rfl | hlt
  · exact le_rfl
  · exact pairwise_iff_getElem.mp h i j _ hj hlt

structure Ranked (samples values : List ℤ) (n : ℕ) : Prop where
  length : values.length = n
  rank : ∀ i, 1 ≤ i → i ≤ n → values[i - 1]? = samples.mergeSort[i * samples.length / n - 1]?
  nondecreasing : values.Pairwise (· ≤ ·)
  maximum : ∀ last ∈ values.getLast?, ∀ x ∈ samples, x ≤ last

theorem percentilesOf_getElem? (hlength : l.length = s) (hn : n = min percentileCount s) (hi : i < n) :
    (percentilesOf percentileCount l)[i]? = some (l[s / n * (i + 1) - 1]?.getD 0) := by
  subst hlength
  rw [percentilesOf, ← hn]
  simp [hi]

theorem length_percentilesOf (percentileCount : ℕ) (l : List ℤ) :
    (percentilesOf percentileCount l).length = min percentileCount l.length := by
  simp [percentilesOf]

theorem percentilesOf_getLast? (hlength : l.length = s) (hn : n = min percentileCount s) (hpos : 0 < n) :
    (percentilesOf percentileCount l).getLast? = some (l[s / n * n - 1]?.getD 0) := by
  rw [getLast?_eq_getElem?, length_percentilesOf, hlength, ← hn,
    percentilesOf_getElem? hlength hn (by omega), Nat.sub_add_cancel hpos]

theorem some_getD (h : i < l.length) : some (l[i]?.getD 0) = l[i]? := by
  rw [getElem?_eq_getElem h, Option.getD_some]

theorem ranked_zero (samples : List ℤ) : Ranked samples [] 0 :=
  ⟨rfl, fun i hi hi' => by omega, .nil, by simp⟩

theorem ranked_of_dvd (hn : n = min percentileCount samples.length) (hpos : 0 < n)
    (hdvd : n ∣ samples.length) : Ranked samples (percentilesOf percentileCount samples.mergeSort) n := by
  have hlength : samples.mergeSort.length = samples.length := length_mergeSort ..
  have hsorted := mergeSort_pairwise samples
  have hlast := percentilesOf_getLast? hlength hn hpos
  rw [Nat.div_mul_cancel hdvd] at hlast
  obtain ⟨q, hq⟩ := hdvd
  have hstep : samples.length / n = q := by
    rw [hq, Nat.mul_div_cancel_left _ hpos]
  have hbound : ∀ {i}, i ≤ n → q * i - 1 < samples.length := by
    intro i hi
    have hmul := Nat.mul_le_mul_left q hi
    have hle : n ≤ samples.length := hn ▸ min_le_right ..
    rw [mul_comm n q] at hq
    omega
  constructor
  · rw [length_percentilesOf, hlength, hn]
  · intro i hi hin
    have hrank : i * samples.length / n = q * i := by
      rw [hq, mul_left_comm, Nat.mul_div_cancel_left _ hpos, mul_comm]
    rw [percentilesOf_getElem? hlength hn (by omega), Nat.sub_add_cancel hi, hstep, hrank, some_getD (hlength ▸ hbound hin)]
  · rw [percentilesOf, hlength, ← hn, hstep, pairwise_map]
    refine pairwise_lt_range.imp_of_mem fun {i j} _ hj hij => ?_
    have hmul := Nat.mul_le_mul_left q (show i + 1 ≤ j + 1 by omega)
    exact getD_mono hsorted (by omega) (hlength ▸ hbound (mem_range.mp hj))
  · rw [hlast]
    rintro last ⟨rfl⟩ x hx
    have hmem : x ∈ samples.mergeSort := mem_mergeSort.mpr hx
    obtain ⟨k, hk⟩ := getElem?_of_mem hmem
    have hlt := (List.getElem?_eq_some_iff.mp hk).1
    have hle := getD_mono hsorted (show k ≤ samples.length - 1 by omega) (by omega)
    rwa [hk] at hle

theorem not_ranked_of_not_dvd (hlt : lo < hi) (hspread : hi - lo < 2 ^ 31)
    (hn : n = min percentileCount (s + 1)) (hpos : 0 < n) (hdvd : ¬n ∣ s + 1) :
    ¬Ranked (replicate s lo ++ [hi]) (percentilesOf percentileCount (qsort (replicate s lo ++ [hi]))) n := by
  have hsorted : qsort (replicate s lo ++ [hi]) = replicate s lo ++ [hi] := by
    refine qsort_of_pairwise (pairwise_append.mpr ⟨?_, pairwise_singleton .., ?_⟩)
    · exact pairwise_replicate.mpr (.inr (cmp_self lo).le)
    · intro a ha b hb
      rw [eq_of_mem_replicate ha, mem_singleton.mp hb, cmp, int32_of_range (by omega)]
      omega
  have hindex : (s + 1) / n * n - 1 < s := by
    have hne : (s + 1) / n * n ≠ s + 1 := fun h => hdvd ⟨(s + 1) / n, by rw [mul_comm, h]⟩
    have hle := Nat.div_mul_le_self (s + 1) n
    have hquotient := Nat.div_pos (show n ≤ s + 1 by omega) hpos
    have hmul := Nat.mul_le_mul hquotient hpos
    omega
  have hlast := percentilesOf_getLast? (l := replicate s lo ++ [hi]) (by simp) hn hpos
  rw [getElem?_append_left (by simpa using hindex), getElem?_replicate_of_lt hindex, Option.getD_some] at hlast
  intro h
  rw [hsorted] at h
  exact absurd (h.maximum lo hlast hi (by simp)) (not_le.mpr hlt)

theorem not_ranked_of_spread (hlo : -2 ^ 31 ≤ lo) (hhi : hi < 2 ^ 31) (hspread : 2 ^ 31 ≤ hi - lo)
    (hn : n = min percentileCount (s + 1)) (hpos : 0 < n) (hs : 0 < s) :
    ¬Ranked (hi :: replicate s lo) (percentilesOf percentileCount (qsort (hi :: replicate s lo))) n := by
  have hsorted : qsort (hi :: replicate s lo) = hi :: replicate s lo := by
    refine qsort_of_pairwise (pairwise_cons.mpr ⟨fun b hb => ?_, ?_⟩)
    · rw [eq_of_mem_replicate hb]
      simp only [cmp, int32]
      omega
    · exact pairwise_replicate.mpr (.inr (cmp_self lo).le)
  obtain ⟨k, hk, hks⟩ : ∃ k, (s + 1) / n * n - 1 = k + 1 ∧ k < s := by
    have hle := Nat.div_mul_le_self (s + 1) n
    have hmod := Nat.div_add_mod' (s + 1) n
    have hrest := Nat.mod_lt (s + 1) hpos
    have hquotient := Nat.mul_le_mul_right n (Nat.div_pos (show n ≤ s + 1 by omega) hpos)
    by_cases hone : n = 1
    · subst hone
      exact ⟨s - 1, by omega, by omega⟩
    · exact ⟨(s + 1) / n * n - 2, by omega, by omega⟩
  have hlast := percentilesOf_getLast? (l := hi :: replicate s lo) (by simp) hn hpos
  rw [hk, getElem?_cons_succ, getElem?_replicate_of_lt hks, Option.getD_some] at hlast
  intro h
  rw [hsorted] at h
  exact absurd (h.maximum lo hlast hi (by simp)) (by omega)

end Sorting

section Realisation

variable {tally : Tally} {x : ℤ} {samples : List ℤ}

def timeAt (us : ℤ) : TimeVal := ⟨us / 1000000, us % 1000000⟩

theorem us_timeAt (us : ℤ) : (timeAt us).us = us := by
  simp only [timeAt, TimeVal.us]
  omega

theorem timerisset_timeAt (h : 0 < x) : timerisset (timeAt x) = true := by
  rw [timerisset_iff, timeAt]
  dsimp only
  omega

def following (x : ℤ) : List ℤ → List TimeVal
  | [] => []
  | d :: samples => timeAt (x + d) :: following (x + d) samples

theorem length_following (x : ℤ) (samples : List ℤ) : (following x samples).length = samples.length := by
  induction samples generalizing x with
  | nil => rfl
  | cons d samples ih => rw [following, length_cons, length_cons, ih]

theorem foldl_following (hreceived : tally.received ≠ 0) (hprev : tally.prev = int32 x)
    (hrange : ∀ d ∈ samples, -2 ^ 31 ≤ d ∧ d < 2 ^ 31) (hx : 2 ^ 31 * (samples.length : ℤ) < x) :
    ((following x samples).foldl Tally.next tally).ipdv = tally.ipdv ++ samples := by
  induction samples generalizing x tally with
  | nil => simp [following]
  | cons d samples ih =>
    have hd := hrange d (mem_cons_self ..)
    have hlength : 2 ^ 31 * (samples.length : ℤ) < x + d := by
      rw [length_cons, Nat.cast_succ] at hx
      omega
    have hset := timerisset_timeAt (show 0 < x + d by omega)
    have hdiff : int32 (int32 (x + d) - int32 x) = d := by
      simp only [int32]
      omega
    rw [following, foldl_cons, ih ?_ ?_ (fun e he => hrange e (mem_cons_of_mem _ he)) hlength, next_received hset]
    · dsimp only
      rw [if_neg hreceived, us_timeAt, hprev, hdiff, append_assoc]
      rfl
    · rw [next_received hset]
      exact Nat.succ_ne_zero _
    · rw [next_received hset]
      exact congrArg int32 (us_timeAt _)

theorem exists_samplesOf (hlength : samples.length < 65535) (hrange : ∀ d ∈ samples, -2 ^ 31 ≤ d ∧ d < 2 ^ 31)
    (percentileCount : UInt32) :
    ∃ times options, options.percentileCount = percentileCount ∧ samplesOf times options = samples := by
  let x : ℤ := 2 ^ 31 * samples.length + 1
  let list := timeAt x :: following x samples
  let options : Options := ⟨0, 0, UInt16.ofNat list.length, 0, percentileCount, 0, 0⟩
  refine ⟨fun i => list[i]?.getD ⟨0, 0⟩, options, rfl, ?_⟩
  have hcount : options.packetCount.toNat = list.length := by
    have hlist : list.length = samples.length + 1 := congrArg (· + 1) (length_following ..)
    rw [UInt16.toNat_ofNat']
    omega
  have hdelays : delays (fun i => list[i]?.getD ⟨0, 0⟩) options = list := by
    rw [delays, hcount]
    apply ext_getElem
    · simp
    · intro i hi hi'
      simp [hi']
  have hset := timerisset_timeAt (show 0 < x by omega)
  rw [samplesOf, hdelays, tallyOf, foldl_cons, foldl_following ?_ ?_ hrange (by omega), next_received hset]
  · rfl
  · rw [next_received hset]
    exact Nat.succ_ne_zero _
  · rw [next_received hset]
    exact congrArg int32 (us_timeAt _)

end Realisation

section Percentiles

variable {s : ℕ} {lo hi : ℤ} {percentileCount : UInt32}

def RankedReports (s : ℕ) (lo hi : ℤ) (percentileCount : UInt32) : Prop :=
  ∀ direction rtt times options, options.percentileCount = percentileCount →
    (samplesOf times options).length = s → (∀ x ∈ samplesOf times options, lo ≤ x ∧ x ≤ hi) →
    Ranked (samplesOf times options) (reportStream direction rtt (some times) options).percentiles (min percentileCount.toNat s)

theorem RankedReports.ranked (h : RankedReports s lo hi percentileCount) {samples : List ℤ}
    (hlength : samples.length = s) (hs : 1 ≤ s ∧ s < 65535) (hrange : -2 ^ 31 ≤ lo ∧ hi < 2 ^ 31)
    (hsamples : ∀ x ∈ samples, lo ≤ x ∧ x ≤ hi) :
    Ranked samples (percentilesOf percentileCount.toNat (qsort samples)) (min percentileCount.toNat s) := by
  have hint32 : ∀ d ∈ samples, -2 ^ 31 ≤ d ∧ d < 2 ^ 31 := fun d hd =>
    ⟨hrange.1.trans (hsamples d hd).1, (hsamples d hd).2.trans_lt hrange.2⟩
  obtain ⟨times, options, hcount, rfl⟩ := exists_samplesOf (by omega) hint32 percentileCount
  have hranked := h .clientToServer none times options hcount hlength hsamples
  rwa [reportStream_percentiles _ _ _ _ (by omega), hcount] at hranked

theorem percentiles_pos (hcount : percentileCount ≠ 0) (hs : 1 ≤ s) : 0 < min percentileCount.toNat s := by
  have hne : percentileCount.toNat ≠ 0 := fun hzero => hcount (UInt32.toNat_inj.mp hzero)
  omega

theorem RankedReports.evenly (h : RankedReports s lo hi percentileCount) (hs : 1 ≤ s ∧ s < 65535)
    (hrange : -2 ^ 31 ≤ lo ∧ lo < hi ∧ hi < 2 ^ 31) :
    percentileCount = 0 ∨ s = 1 ∨ hi - lo < 2 ^ 31 ∧ s % min percentileCount.toNat s = 0 := by
  by_contra! hcon
  obtain ⟨hcount, hone, hdvd⟩ := hcon
  have hpos := percentiles_pos hcount hs.1
  obtain ⟨m, rfl⟩ := Nat.exists_eq_add_of_le' hs.1
  by_cases hspread : hi - lo < 2 ^ 31
  · -- the largest sample is the only one of its size, and comes after the last percentile
    refine not_ranked_of_not_dvd hrange.2.1 hspread rfl hpos ?_ (h.ranked (by simp) hs ⟨hrange.1, hrange.2.2⟩ ?_)
    · exact fun hd => hdvd hspread (Nat.mod_eq_zero_of_dvd hd)
    · intro x hx
      rcases mem_append.mp hx with hx | hx
      · rw [eq_of_mem_replicate hx]
        omega
      · rw [mem_singleton.mp hx]
        omega
  · -- the largest sample is sorted to the front
    refine not_ranked_of_spread hrange.1 hrange.2.2 (by omega) rfl hpos (by omega)
      (h.ranked (by simp) hs ⟨hrange.1, hrange.2.2⟩ ?_)
    intro x hx
    rcases mem_cons.mp hx with rfl | hx
    · omega
    · rw [eq_of_mem_replicate hx]
      omega

theorem rankedReports_zero (hs : 1 ≤ s) : RankedReports s lo hi 0 := by
  intro direction rtt times options hcount hlength hsamples
  have hmin : min (0 : UInt32).toNat s = 0 := Nat.zero_min s
  have hnil : percentilesOf (0 : UInt32).toNat (qsort (samplesOf times options)) = [] := by
    simp [percentilesOf]
  rw [reportStream_percentiles _ _ _ _ (by omega), hcount, hmin, hnil]
  exact ranked_zero _

theorem rankedReports_of_dvd (hs : 1 ≤ s) (hcount : percentileCount ≠ 0)
    (hdvd : min percentileCount.toNat s ∣ s) (hspread : s = 1 ∨ hi - lo < 2 ^ 31) :
    RankedReports s lo hi percentileCount := by
  intro direction rtt times options hoptions hlength hsamples
  have hsorted : qsort (samplesOf times options) = (samplesOf times options).mergeSort := by
    rcases hspread with rfl | hspread
    · obtain ⟨x, hx⟩ := length_eq_one_iff.mp hlength
      rw [hx]
      simp [qsort]
    · exact qsort_of_spread hsamples hspread
  rw [reportStream_percentiles _ _ _ _ (by omega), hoptions, hsorted]
  exact ranked_of_dvd (by rw [hlength]) (percentiles_pos hcount hs) (hlength ▸ hdvd)

/-- Exactly if the samples divide evenly among the percentiles and are sorted rightly. -/
theorem percentiles_ranked_iff (hs : 1 ≤ s ∧ s < 65535) (hrange : -2 ^ 31 ≤ lo ∧ lo < hi ∧ hi < 2 ^ 31) :
    RankedReports s lo hi percentileCount ↔
      percentileCount = 0 ∨ s = 1 ∨ hi - lo < 2 ^ 31 ∧ s % min percentileCount.toNat s = 0 := by
  refine ⟨fun h => h.evenly hs hrange, fun hcond => ?_⟩
  by_cases hzero : percentileCount = 0
  · rw [hzero]
    exact rankedReports_zero hs.1
  have hpos := percentiles_pos hzero hs.1
  rcases hcond with hcond | rfl | ⟨hspread, hmod⟩
  · exact absurd hcond hzero
  · have hone : min percentileCount.toNat 1 = 1 := by omega
    exact rankedReports_of_dvd le_rfl hzero (by rw [hone]) (.inl rfl)
  · exact rankedReports_of_dvd hs.1 hzero (Nat.dvd_of_mod_eq_zero hmod) (.inr hspread)

theorem percentiles_ranked_twenty : RankedReports 20 (-1000000) 1000000 10 :=
  (percentiles_ranked_iff (by decide) (by decide)).mpr (.inr (.inr (by decide)))

theorem percentiles_short :
    let options : Options := ⟨8826, 100, 16, 20000, 10, 1, 0⟩
    let times := fun i : ℕ => timeAt (1000 + i * i)
    samplesOf times options = [1, 3, 5, 7, 9, 11, 13, 15, 17, 19, 21, 23, 25, 27, 29] ∧
      (reportStream .clientToServer none (some times) options).percentiles =
        [1, 3, 5, 7, 9, 11, 13, 15, 17, 19] ∧ ¬RankedReports 15 1 29 10 := by
  intro options times
  have hsamples : samplesOf times options = [1, 3, 5, 7, 9, 11, 13, 15, 17, 19, 21, 23, 25, 27, 29] := by
    decide
  have hpercentiles : (reportStream .clientToServer none (some times) options).percentiles =
      [1, 3, 5, 7, 9, 11, 13, 15, 17, 19] := by
    rw [reportStream_percentiles _ _ _ _ (by rw [hsamples]; decide), hsamples, qsort_of_pairwise (by decide)]
    decide
  refine ⟨hsamples, hpercentiles, fun h => ?_⟩
  have hranked := h .clientToServer none times options rfl (by rw [hsamples]; rfl) (by rw [hsamples]; decide)
  rw [hpercentiles, hsamples] at hranked
  exact absurd (hranked.maximum 19 rfl 29 (by decide)) (by decide)

end Percentiles

section Jitter

variable {tally : Tally} {times : ℕ → TimeVal} {options : Options} {l : List ℤ}

theorem next_range (time : TimeVal) (h : ∀ x ∈ tally.ipdv, -2 ^ 31 ≤ x ∧ x < 2 ^ 31) :
    ∀ x ∈ (tally.next time).ipdv, -2 ^ 31 ≤ x ∧ x < 2 ^ 31 := by
  cases hset : timerisset time with
  | false => rwa [next_lost hset]
  | true =>
    rw [next_received hset]
    dsimp only
    split_ifs
    · exact h
    · intro x hx
      rcases mem_append.mp hx with hx | hx
      · exact h x hx
      · rw [mem_singleton.mp hx]
        exact int32_range _

theorem samplesOf_range : ∀ x ∈ samplesOf times options, -2 ^ 31 ≤ x ∧ x < 2 ^ 31 := by
  have hfold : ∀ (list : List TimeVal) (tally : Tally), (∀ x ∈ tally.ipdv, -2 ^ 31 ≤ x ∧ x < 2 ^ 31) →
      ∀ x ∈ (list.foldl Tally.next tally).ipdv, -2 ^ 31 ≤ x ∧ x < 2 ^ 31 := by
    intro list
    induction list with
    | nil => exact fun _ h => h
    | cons time list ih => exact fun tally h => ih _ (next_range time h)
  exact hfold _ _ fun x hx => absurd hx not_mem_nil

def Consistent (l : List ℤ) : Prop := ∀ a ∈ l, ∀ b ∈ l, (cmp a b).sign = (a - b).sign

theorem consistent_iff (hrange : ∀ x ∈ l, -2 ^ 31 ≤ x ∧ x < 2 ^ 31) : Consistent l ↔ ∀ a ∈ l, ∀ b ∈ l, a - b < 2 ^ 31 := by
  constructor
  · intro h a ha b hb
    by_contra hfar
    -- the difference wraps to a negative one
    have hra := hrange a ha
    have hrb := hrange b hb
    have hneg : cmp a b < 0 := by
      simp only [cmp, int32]
      omega
    have hsign := h a ha b hb
    rw [Int.sign_eq_neg_one_of_neg hneg, Int.sign_eq_one_of_pos (by omega)] at hsign
    cases hsign
  · intro h a ha b hb
    have hab := h a ha b hb
    have hba := h b hb a ha
    rw [cmp, int32_of_range (by omega)]

theorem Consistent.qsort_eq_mergeSort (h : Consistent l) : qsort l = l.mergeSort := by
  refine qsort_eq fun a ha b hb => decide_eq_decide.mpr ?_
  rw [← Int.sign_nonpos_iff, h a ha b hb, Int.sign_nonpos_iff, sub_nonpos]

theorem int32_ofInt {x : ℤ} (h : -2 ^ 31 ≤ x ∧ x < 2 ^ 31) : int32 (UInt32.ofInt x).toNat = x := by
  have hbits : ((UInt32.ofInt x).toNat : ℤ) = x % 2 ^ 32 := by
    rw [UInt32.ofInt, UInt32.toNat_ofNat']
    omega
  rw [hbits]
  simp only [int32]
  omega

theorem length_next (time : TimeVal) : (tally.next time).ipdv.length ≤ tally.ipdv.length + 1 := by
  cases hset : timerisset time with
  | false =>
    rw [next_lost hset]
    exact Nat.le_succ _
  | true =>
    rw [next_received hset]
    dsimp only
    split_ifs
    · exact Nat.le_succ _
    · rw [length_append, length_singleton]

theorem length_samplesOf_le : (samplesOf times options).length ≤ options.packetCount.toNat := by
  have hfold : ∀ (list : List TimeVal) (tally : Tally),
      (list.foldl Tally.next tally).ipdv.length ≤ tally.ipdv.length + list.length := by
    intro list
    induction list with
    | nil => exact fun _ => le_rfl
    | cons time list ih =>
      intro tally
      have hfirst : (tally.next time).ipdv.length ≤ tally.ipdv.length + 1 := length_next time
      have hrest := ih (tally.next time)
      rw [foldl_cons, length_cons]
      omega
  have hall := hfold (delays times options) ⟨0, 0, [], []⟩
  rwa [delays, length_map, length_range, length_nil, Nat.zero_add] at hall

theorem qsort_perm (l : List ℤ) : (qsort l).Perm l := mergeSort_perm l _

theorem qsort_getD_mem {i : ℕ} (hi : i < l.length) : (qsort l)[i]?.getD 0 ∈ l := by
  have hlt : i < (qsort l).length := by rwa [(qsort_perm l).length_eq]
  rw [getElem?_eq_getElem hlt, Option.getD_some]
  exact (qsort_perm l).mem_iff.mp (getElem_mem hlt)

theorem reportStream_jitter (direction : Direction) (rtt : Option Summary) (h : samplesOf times options ≠ []) :
    (reportStream direction rtt (some times) options).jitter =
      some ⟨(qsort (samplesOf times options))[(samplesOf times options).length - 1]?.getD 0,
        (qsort (samplesOf times options))[0]?.getD 0, UInt32.ofNat (samplesOf times options).length⟩ := by
  have hpos := length_pos_of_ne_nil h
  have hlength := (qsort_perm (samplesOf times options)).length_eq
  have hcount : UInt32.ofNat (samplesOf times options).length ≠ 0 := by
    have hle : (samplesOf times options).length ≤ options.packetCount.toNat := length_samplesOf_le
    have hmax := options.packetCount.toNat_lt
    rw [Ne, ← UInt32.toNat_inj, UInt32.toNat_ofNat', UInt32.toNat_zero]
    omega
  have hlast := samplesOf_range _ (qsort_getD_mem (Nat.sub_one_lt hpos.ne'))
  have hfirst := samplesOf_range _ (qsort_getD_mem hpos)
  unfold samplesOf at *
  simp only [reportStream, if_neg hpos.ne', hlength, reportSummary, if_neg hcount, int32_ofInt hlast, int32_ofInt hfirst]

def JitterRight (direction : Direction) (rtt : Option Summary) (times : ℕ → TimeVal) (options : Options) : Prop :=
  Consistent (samplesOf times options) ∧ (qsort (samplesOf times options)).Pairwise (· ≤ ·) ∧
    ∀ jitter, (reportStream direction rtt (some times) options).jitter = some jitter →
      jitter.minimum ∈ samplesOf times options ∧ jitter.maximum ∈ samplesOf times options ∧
        ∀ x ∈ samplesOf times options, jitter.minimum ≤ x ∧ x ≤ jitter.maximum

theorem jitterRight_of_consistent (direction : Direction) (rtt : Option Summary)
    (h : Consistent (samplesOf times options)) : JitterRight direction rtt times options := by
  have hsorted : (qsort (samplesOf times options)).Pairwise (· ≤ ·) := by
    rw [h.qsort_eq_mergeSort]
    exact mergeSort_pairwise _
  refine ⟨h, hsorted, fun jitter hjitter => ?_⟩
  by_cases hempty : samplesOf times options = []
  · unfold samplesOf at hempty
    simp only [reportStream, hempty, length_nil, if_true] at hjitter
    cases hjitter
  have hpos := length_pos_of_ne_nil hempty
  rw [reportStream_jitter direction rtt hempty] at hjitter
  cases hjitter
  refine ⟨qsort_getD_mem hpos, qsort_getD_mem (Nat.sub_one_lt hpos.ne'), fun x hx => ?_⟩
  obtain ⟨i, hi⟩ := mem_iff_getElem?.mp ((qsort_perm _).mem_iff.mpr hx)
  have hlt := (List.getElem?_eq_some_iff.mp hi).1
  have hlength := (qsort_perm (samplesOf times options)).length_eq
  have hmin := getD_mono hsorted (Nat.zero_le i) hlt
  have hmax := getD_mono hsorted (show i ≤ (samplesOf times options).length - 1 by omega) (by omega)
  rw [hi, Option.getD_some] at hmin hmax
  exact ⟨hmin, hmax⟩

theorem jitter_right_iff (direction : Direction) (rtt : Option Summary) (times : ℕ → TimeVal) (options : Options) :
    JitterRight direction rtt times options ↔ ∀ a ∈ samplesOf times options, ∀ b ∈ samplesOf times options, a - b < 2 ^ 31 := by
  rw [← consistent_iff samplesOf_range]
  exact ⟨And.left, jitterRight_of_consistent direction rtt⟩

theorem jitter_swapped :
    let options : Options := ⟨8826, 100, 3, 20000, 10, 1, 0⟩
    let times := fun i : ℕ => timeAt ([1, 2000000001, 1000000001][i]?.getD 0)
    samplesOf times options = [2000000000, -1000000000] ∧ (reportStream .clientToServer none (some times) options).jitter =
        some ⟨-1000000000, 2000000000, 2⟩ := by
  intro options times
  have hsamples : samplesOf times options = [2000000000, -1000000000] := by decide
  refine ⟨hsamples, ?_⟩
  rw [reportStream_jitter _ _ (by rw [hsamples]; decide), hsamples, qsort_of_pairwise (by decide)]
  decide

end Jitter

end Amplet.UdpstreamReport
