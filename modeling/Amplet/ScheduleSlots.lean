import Amplet.ScheduleTime

/-!
# Slots of a scheduled test

The next run time in plain microseconds. `fork_test` accepts a firing up to and
including the clock fudge before the slot; the rescheduling skips the slot only strictly
inside the fudge, and not when it rolls over to the next period.
-/

namespace Amplet.ScheduleTime.TestTimes

def length (times : TestTimes) : ℤ := getPeriodMaxValue times.period * 1000000

def base (times : TestTimes) (t : ℤ) : ℤ := getPeriodStart times.period (t / 1000000) * 1000000

def first (times : TestTimes) (t : ℤ) : ℤ := times.base t + times.start

/-- Microseconds from `t` to the next repeat, when the first slot is past. -/
def gap (times : TestTimes) (t : ℤ) : ℤ :=
  times.frequency - (t - times.first t) % times.frequency

def nextSlot (times : TestTimes) (t : ℤ) (run : Bool) : ℤ :=
  if t < times.first t then
    if run ∧ times.first t - t < scheduleClockFudge then
      if 0 < times.frequency then times.first t + times.frequency
      else times.first t + times.length
    else times.first t
  else if times.frequency = 0 then times.first t + times.length
  else
    let slot :=
      if run ∧ times.gap t < scheduleClockFudge then t + times.gap t + times.frequency
      else t + times.gap t
    if times.base t + times.stop < slot then times.first t + times.length else slot

end Amplet.ScheduleTime.TestTimes

namespace Amplet.ScheduleSlots
open ScheduleTime

theorem timerAdd_normal {a b : TimeVal} (ha : a.Normal) (hb : b.Normal) : (timerAdd a b).Normal := by
  simp only [TimeVal.Normal, timerAdd] at *
  split_ifs <;> dsimp only <;> omega

theorem timerAdd_us (a b : TimeVal) : (timerAdd a b).us = a.us + b.us := by
  simp only [TimeVal.us, timerAdd]
  split_ifs <;> dsimp only <;> omega

theorem timerLt_iff {a b : TimeVal} (ha : a.Normal) (hb : b.Normal) : timerLt a b = true ↔ a.us < b.us := by
  simp only [TimeVal.Normal, TimeVal.us, timerLt] at *
  split_ifs with h <;> simp only [decide_eq_true_eq] <;> omega

theorem timerSub_us (a b : TimeVal) : (timerSub a b).us = a.us - b.us := by
  simp only [TimeVal.us, timerSub]
  split_ifs <;> dsimp only <;> omega

theorem timerSub_normal {a b : TimeVal} (ha : a.Normal) (hb : b.Normal) : (timerSub a b).Normal := by
  simp only [TimeVal.Normal, timerSub] at *
  split_ifs <;> dsimp only <;> omega

theorem exceeds_fudge_iff {d : TimeVal} (hd : d.Normal) (hpos : 0 < d.us) :
    (d.sec ≠ 0 ∨ scheduleClockFudge < d.usec) ↔ scheduleClockFudge < d.us := by
  simp only [TimeVal.Normal, TimeVal.us, scheduleClockFudge] at *
  omega

variable {now : TimeVal}

theorem forkTest_iff {abstime : TimeVal} (hn : now.Normal) (ha : abstime.Normal) (forks : Bool) :
    forkTest now abstime forks = true ↔ forks = true ∧ abstime.us - now.us ≤ scheduleClockFudge := by
  have hlt := timerLt_iff hn ha
  by_cases h : timerLt now abstime = true
  · have hpos : 0 < (timerSub abstime now).us := by
      rw [timerSub_us]
      exact sub_pos.mpr (hlt.mp h)
    have hex := exceeds_fudge_iff (timerSub_normal ha hn) hpos
    rw [timerSub_us] at hex
    simp only [forkTest, h, Bool.true_and, Bool.or_eq_true, decide_eq_true_eq, ne_eq, hex]
    split_ifs with hf
    · simp only [false_iff, not_and, not_le]
      exact fun _ => hf
    · simp only [not_lt.mp hf, and_true]
  · have hle : abstime.us - now.us ≤ scheduleClockFudge := by
      have hus : ¬ now.us < abstime.us := fun h' => h (hlt.mpr h')
      simp only [scheduleClockFudge]
      omega
    simp [forkTest, h, hle]

def periodPhase : SchedulePeriod → ℤ
  | .weekly => 4 * 86400
  | _ => 0

theorem getPeriodStart_spec {period : SchedulePeriod} (h : period ≠ .invalid) (now : ℤ) : getPeriodStart period now ≤ now ∧
      now < getPeriodStart period now + getPeriodMaxValue period ∧
      getPeriodMaxValue period ∣ getPeriodStart period now + periodPhase period := by
  cases period with
  | invalid => exact absurd rfl h
  | hourly | daily | weekly =>
    simp only [getPeriodStart, gmtime, timegm, getPeriodMaxValue, periodPhase]; omega

theorem getPeriodStart_unique {period : SchedulePeriod} (h : period ≠ .invalid) {now s : ℤ}
    (hle : s ≤ now) (hlt : now < s + getPeriodMaxValue period)
    (hdvd : getPeriodMaxValue period ∣ s + periodPhase period) :
    getPeriodStart period now = s := by
  have hspec := getPeriodStart_spec h now
  cases period with
  | invalid => exact absurd rfl h
  | hourly | daily | weekly => simp only [getPeriodMaxValue, periodPhase] at *; omega

section

variable (times : TestTimes)

theorem length_pos : 1000000 ≤ times.length := by
  have := getPeriodMaxValue_pos times.valid
  simp only [TestTimes.length]
  omega

theorem length_whole : 1000000 ∣ times.length := Dvd.intro_left _ rfl

theorem base_spec (t : ℤ) : times.base t ≤ t ∧ t < times.base t + times.length ∧ 1000000 ∣ times.base t := by
  have h := getPeriodStart_spec times.valid (t / 1000000)
  simp only [TestTimes.base, TestTimes.length]
  refine ⟨by omega, by omega, Dvd.intro_left _ rfl⟩

theorem base_us (h : now.Normal) : times.base now.us = getPeriodStart times.period now.sec * 1000000 := by
  have hsec : now.us / 1000000 = now.sec := by
    simp only [TimeVal.Normal, TimeVal.us] at *
    omega
  rw [TestTimes.base, hsec]

theorem first_whole (t : ℤ) : 1000000 ∣ times.first t :=
  (base_spec times t).2.2.add times.start_whole

end

theorem rolloverOffset_us (h : now.Normal) (periodEnd start : ℤ) :
    (rolloverOffset now periodEnd start).us = periodEnd * 1000000 + start - now.us := by
  simp only [TimeVal.Normal, TimeVal.us, rolloverOffset, addTvParts] at *
  split_ifs <;> dsimp only <;> omega

theorem rolloverOffset_normal (h : now.Normal) (periodEnd start : ℤ) : (rolloverOffset now periodEnd start).Normal := by
  simp only [TimeVal.Normal] at *
  by_cases hu : 0 < now.usec
  all_goals
    simp only [rolloverOffset, hu, ↓reduceIte, addTvParts]
    split_ifs <;> dsimp only <;> omega

theorem split_us (d : ℤ) : (⟨d / 1000000, d % 1000000⟩ : TimeVal).us = d := by
  simp only [TimeVal.us]
  omega

theorem split_normal (d : ℤ) : (⟨d / 1000000, d % 1000000⟩ : TimeVal).Normal := by
  simp only [TimeVal.Normal]
  omega

theorem sensibleOffset_eq {next : TimeVal} (naive : TimeVal) (h : next.Normal)
    (hpos : 0 < next.us) : sensibleOffset next naive = next := by
  rw [sensibleOffset, if_neg]
  simp only [TimeVal.Normal, TimeVal.us] at *
  omega

variable {t : ℤ}

section

variable (times : TestTimes)

theorem gap_spec (hf : times.frequency ≠ 0) : 0 < times.gap t ∧ times.gap t ≤ times.frequency ∧
      times.frequency ∣ t + times.gap t - times.first t := by
  have hpos : 0 < times.frequency := by
    have := times.frequency_range.1
    omega
  have hmod := Int.emod_lt_of_pos (t - times.first t) hpos
  have hnonneg := Int.emod_nonneg (t - times.first t) hf
  refine ⟨?_, ?_, ?_⟩
  · simp only [TestTimes.gap]
    omega
  · simp only [TestTimes.gap]
    omega
  · have hdm := Int.mul_ediv_add_emod (t - times.first t) times.frequency
    refine ⟨(t - times.first t) / times.frequency + 1, ?_⟩
    simp only [TestTimes.gap]
    linarith

theorem rollover_offset (h : now.Normal) (naive : TimeVal) : now.us + (sensibleOffset (rolloverOffset now
      (getPeriodStart times.period now.sec + getPeriodMaxValue times.period) times.start) naive).us =
        times.first now.us + times.length ∧
    (sensibleOffset (rolloverOffset now (getPeriodStart times.period now.sec + getPeriodMaxValue times.period) times.start)
        naive).Normal := by
  have hus : (rolloverOffset now (getPeriodStart times.period now.sec + getPeriodMaxValue times.period) times.start).us =
        times.first now.us + times.length - now.us := by
    rw [rolloverOffset_us h, TestTimes.first, base_us times h, TestTimes.length]
    ring
  have hpos : 0 < (rolloverOffset now (getPeriodStart times.period now.sec + getPeriodMaxValue times.period) times.start).us := by
    have hspec := base_spec times now.us
    have hstart := times.start_range
    rw [hus, TestTimes.first]
    omega
  have hnormal := rolloverOffset_normal h (getPeriodStart times.period now.sec + getPeriodMaxValue times.period) times.start
  rw [sensibleOffset_eq naive hnormal hpos]
  refine ⟨?_, hnormal⟩
  rw [hus]
  ring

/-- The test on whole seconds in the source never decides. -/
theorem next_offset (h : now.Normal) (run : Bool) : now.us + (times.next now run).1.us = times.nextSlot now.us run ∧
      (times.next now run).1.Normal := by
  have hbase := base_us times h
  have hspec := base_spec times now.us
  have hstart := times.start_range
  have hstop := times.stop_range
  have hdiff : (now.sec - getPeriodStart times.period now.sec) * 1000000 + now.usec - times.start =
      now.us - times.first now.us := by
    rw [TestTimes.first, hbase, TimeVal.us]
    ring
  simp only [TestTimes.next, getNextScheduleTimeInternal, hdiff]
  by_cases hearly : now.us < times.first now.us
  · have habs : |now.us - times.first now.us| = times.first now.us - now.us := by
      rw [abs_sub_comm]
      exact abs_of_pos (by omega)
    rw [if_pos (by omega), TestTimes.nextSlot, if_pos hearly, habs]
    refine ⟨?_, split_normal _⟩
    rw [split_us]
    have hlen := length_pos times
    simp only [TestTimes.length] at *
    split_ifs with hrun hf
    · rw [abs_of_pos (by omega)]
      ring
    · rw [abs_of_pos (by omega)]
      ring
    · rw [habs]
      ring
  · rw [if_neg (by omega), TestTimes.nextSlot, if_neg hearly]
    by_cases hf : times.frequency = 0
    · simp only [hf, ↓reduceIte, true_or]
      exact rollover_offset times h _
    · have hgap := gap_spec times (t := now.us) hf
      simp only [hf, ↓reduceIte, false_or]
      rw [← TestTimes.gap]
      generalize hd : (if run = true ∧ times.gap now.us < scheduleClockFudge then
        times.gap now.us + times.frequency else times.gap now.us) = d
      have hdpos : 0 < d := by
        rw [← hd]
        split_ifs <;> omega
      have hslot : (if run = true ∧ times.gap now.us < scheduleClockFudge then
          now.us + times.gap now.us + times.frequency else now.us + times.gap now.us) = now.us + d := by
        rw [← hd]
        split_ifs <;> ring
      have hroll_iff : (getPeriodStart times.period now.sec + getPeriodMaxValue times.period < now.sec + d / 1000000 ∨
            getPeriodStart times.period now.sec * 1000000 + times.stop < now.us + d) ↔
          times.base now.us + times.stop < now.us + d := by
        rw [hbase]
        simp only [TimeVal.Normal, TimeVal.us] at *
        omega
      rw [hslot]
      simp only [hroll_iff]
      split_ifs with hover
      · exact rollover_offset times h _
      · rw [sensibleOffset_eq _ (split_normal d) (by rw [split_us]; exact hdpos), split_us]
        exact ⟨rfl, split_normal d⟩

theorem next_snd (now : TimeVal) (run : Bool) : (times.next now run).2 = timerAdd now (times.next now run).1 := by
  simp only [TestTimes.next, getNextScheduleTimeInternal]
  split <;> rfl

theorem next_abstime (h : now.Normal) (run : Bool) :
    (times.next now run).2.us = times.nextSlot now.us run ∧ (times.next now run).2.Normal := by
  obtain ⟨hus, hnormal⟩ := next_offset times h run
  rw [next_snd]
  exact ⟨by rw [timerAdd_us, hus], timerAdd_normal h hnormal⟩

theorem base_of_same_period {u : ℤ} (hle : times.base t ≤ u) (hlt : u < times.base t + times.length) :
    times.base u = times.base t := by
  have hspec := getPeriodStart_spec times.valid (t / 1000000)
  simp only [TestTimes.base, TestTimes.length] at *
  rw [getPeriodStart_unique times.valid (s := getPeriodStart times.period (t / 1000000)) (by omega) (by omega) hspec.2.2]

theorem base_next_period (t : ℤ) : times.base (times.base t + times.length) = times.base t + times.length := by
  have hspec := getPeriodStart_spec times.valid (t / 1000000)
  have hpos := getPeriodMaxValue_pos times.valid
  simp only [TestTimes.base, TestTimes.length]
  rw [getPeriodStart_unique times.valid (s := getPeriodStart times.period (t / 1000000) + getPeriodMaxValue times.period)
    (by omega) (by omega)]
  · ring
  · have := hspec.2.2.add (dvd_refl (getPeriodMaxValue times.period))
    rwa [add_right_comm] at this

theorem eq_add_gap {u : ℤ} (hf : times.frequency ≠ 0) (hlt : t < u) (hle : u ≤ t + times.frequency)
    (hdvd : times.frequency ∣ u - times.first t) :
    u = t + times.gap t := by
  obtain ⟨hpos, hle', hdvd'⟩ := gap_spec times (t := t) hf
  have hsub : times.frequency ∣ u - (t + times.gap t) := by
    have := dvd_sub hdvd hdvd'
    rwa [show u - times.first t - (t + times.gap t - times.first t) = u - (t + times.gap t) by
      ring] at this
  have hzero := Int.eq_zero_of_abs_lt_dvd hsub (abs_lt.mpr ⟨by omega, by omega⟩)
  omega

theorem frequency_large (hf : times.frequency ≠ 0) : 1000000 ≤ times.frequency := by
  have h0 := times.frequency_range.1
  have hw := times.frequency_whole
  omega

theorem nextSlot_gt (t : ℤ) (run : Bool) : t < times.nextSlot t run := by
  have hspec := base_spec times t
  have hlen := length_pos times
  have hstart := times.start_range.1
  rw [TestTimes.nextSlot]
  by_cases hearly : t < times.first t
  · rw [if_pos hearly]
    split_ifs <;> omega
  · rw [if_neg hearly]
    have hroll : t < times.first t + times.length := by
      rw [TestTimes.first]
      omega
    by_cases hf : times.frequency = 0
    · rwa [if_pos hf]
    · have hgap := gap_spec times (t := t) hf
      simp only [if_neg hf]
      split_ifs <;> omega

theorem nextSlot_whole (t : ℤ) (run : Bool) : 1000000 ∣ times.nextSlot t run := by
  have hfirst := first_whole times t
  have hlen := length_whole times
  have hfreq := times.frequency_whole
  rw [TestTimes.nextSlot]
  by_cases hearly : t < times.first t
  · rw [if_pos hearly]
    split_ifs <;> omega
  · rw [if_neg hearly]
    by_cases hf : times.frequency = 0
    · rw [if_pos hf]
      omega
    · have hgap : 1000000 ∣ t + times.gap t := by
        have := hfreq.trans (gap_spec times (t := t) hf).2.2
        omega
      simp only [if_neg hf]
      split_ifs <;> omega

end

def SlotOf (times : TestTimes) (t slot : ℤ) : Prop :=
  slot = times.first t ∨ (0 < times.frequency ∧ times.first t < slot ∧
    times.frequency ∣ slot - times.first t ∧ slot ≤ times.base t + times.stop)

/-- Not early, or early by less than the fudge, unless the slot is the start of a period and the
test starts with it. At the fudge itself only a slot outside the period is skipped. -/
def SkipsStarted (times : TestTimes) (slot t : ℤ) : Prop :=
  slot ≤ t ∨ (¬ (times.start = 0 ∧ times.base slot = slot) ∧ (slot - t < scheduleClockFudge ∨ ¬ SlotOf times t slot))

variable {slot : ℤ}

section

variable (times : TestTimes)

theorem slotOf_iff_gap (hf : times.frequency ≠ 0) (hfirst : times.first t ≤ t) (hlt : t < slot)
    (hle : slot - t ≤ scheduleClockFudge) :
    SlotOf times t slot ↔ slot = t + times.gap t ∧ slot ≤ times.base t + times.stop := by
  have hlarge := frequency_large times hf
  simp only [scheduleClockFudge] at hle
  constructor
  · rintro (h | ⟨-, -, hdvd, hstop⟩)
    · omega
    · exact ⟨eq_add_gap times hf hlt (by omega) hdvd, hstop⟩
  · rintro ⟨h, hstop⟩
    refine Or.inr ⟨by omega, by omega, ?_, hstop⟩
    rw [h]
    exact (gap_spec times hf).2.2

section

variable (hw : 1000000 ∣ slot) (hlt : t < slot) (hle : slot - t ≤ scheduleClockFudge)
include hw hlt hle

theorem period_start_iff : times.base slot = slot ↔ slot = times.base t + times.length := by
  have hspec := base_spec times t
  have hlen := length_whole times
  simp only [scheduleClockFudge] at hle
  constructor
  · intro h
    by_contra hne
    have hsame := base_of_same_period times (t := t) (u := slot) (by omega) (by omega)
    omega
  · rintro rfl
    exact base_next_period times t

theorem nextSlot_gt_before_first (hfirst : t < times.first t) : slot < times.nextSlot t true ↔
      slot - t < scheduleClockFudge ∨ ¬ SlotOf times t slot := by
  have hfw := first_whole times t
  have hlen := length_pos times
  have hslot : SlotOf times t slot ↔ slot = times.first t := by
    refine ⟨?_, Or.inl⟩
    rintro (h | ⟨hf, hgt, hdvd, -⟩)
    · exact h
    · -- a repeat is at least a second after the first slot
      have hlarge := frequency_large times hf.ne'
      have := Int.le_of_dvd (by omega) hdvd
      simp only [scheduleClockFudge] at hle
      omega
  rw [hslot, TestTimes.nextSlot, if_pos hfirst]
  simp only [scheduleClockFudge] at *
  by_cases hin : times.first t - t < 100 * 1000
  · rw [if_pos ⟨trivial, hin⟩]
    split_ifs with hf
    · have hlarge := frequency_large times hf.ne'
      omega
    · omega
  · rw [if_neg fun h => hin h.2]
    omega

theorem nextSlot_gt_once (hfirst : times.first t ≤ t) (hf : times.frequency = 0) : slot < times.nextSlot t true ↔
      ¬ (times.start = 0 ∧ slot = times.base t + times.length) ∧ (slot - t < scheduleClockFudge ∨ ¬ SlotOf times t slot) := by
  have hspec := base_spec times t
  have hlen := length_whole times
  have hsw := times.start_whole
  have hstart := times.start_range.1
  have hslot : ¬ SlotOf times t slot := by
    rintro (h | ⟨hpos, -⟩) <;> omega
  rw [TestTimes.nextSlot, if_neg (by omega), if_pos hf]
  simp only [hslot, not_false_eq_true, or_true, and_true]
  simp only [scheduleClockFudge, TestTimes.first] at *
  omega

theorem nextSlot_gt_repeat (hfirst : times.first t ≤ t) (hf : times.frequency ≠ 0) : slot < times.nextSlot t true ↔
      ¬ (times.start = 0 ∧ slot = times.base t + times.length) ∧ (slot - t < scheduleClockFudge ∨ ¬ SlotOf times t slot) := by
  have hspec := base_spec times t
  have hlen := length_whole times
  have hsw := times.start_whole
  have hstart := times.start_range.1
  have hstop : times.stop ≤ times.length := times.stop_range.2
  have hlarge := frequency_large times hf
  have hgap := (gap_spec times (t := t) hf).1
  rw [slotOf_iff_gap times hf hfirst hlt hle, TestTimes.nextSlot, if_neg (by omega), if_neg hf]
  simp only [scheduleClockFudge] at *
  by_cases hin : times.gap t < 100 * 1000
  · simp only [hin, and_self, ↓reduceIte]
    split_ifs with hover <;> simp only [TestTimes.first] at * <;> omega
  · simp only [hin, and_false, ↓reduceIte]
    split_ifs with hover <;> simp only [TestTimes.first] at * <;> omega

end

theorem nextSlot_gt_started_iff (hw : 1000000 ∣ slot) (hle : slot - t ≤ scheduleClockFudge) :
    slot < times.nextSlot t true ↔ SkipsStarted times slot t := by
  by_cases hearly : slot ≤ t
  · exact iff_of_true (lt_of_le_of_lt hearly (nextSlot_gt times t true)) (Or.inl hearly)
  have hlt : t < slot := not_le.mp hearly
  simp only [SkipsStarted, hearly, false_or, period_start_iff times hw hlt hle]
  by_cases hfirst : t < times.first t
  · rw [nextSlot_gt_before_first times hw hlt hle hfirst]
    have hstart : times.start ≠ 0 := by
      have := (base_spec times t).1
      rw [TestTimes.first] at hfirst
      omega
    simp [hstart]
  · by_cases hf : times.frequency = 0
    · exact nextSlot_gt_once times hw hlt hle (not_lt.mp hfirst) hf
    · exact nextSlot_gt_repeat times hw hlt hle (not_lt.mp hfirst) hf

end

/-- A timer firing: the one clock reading it uses, and whether `fork` works. -/
structure Firing where
  now : TimeVal
  forks : Bool
  normal : now.Normal

structure ItemHistory where
  abstime : TimeVal
  started : List TimeVal

def fire (times : TestTimes) (s : ItemHistory) (f : Firing) : ItemHistory :=
  let r := runScheduledTest times s.abstime f.now f.forks
  ⟨r.2, if r.1 then s.abstime :: s.started else s.started⟩

/-- A firing that comes too early to start anything reads a clock that has reached every slot
started so far. -/
def FiringOk (times : TestTimes) (s : ItemHistory) (f : Firing) : Prop :=
  if forkTest f.now s.abstime f.forks then SkipsStarted times s.abstime.us f.now.us
  else ∀ slot ∈ s.started, slot.us ≤ f.now.us

inductive Reached (times : TestTimes) : ItemHistory → Prop where
  | scheduled {now : TimeVal} (h : now.Normal) : Reached times ⟨(times.next now false).2, []⟩
  | fired {s : ItemHistory} {f : Firing} (hs : Reached times s) (hf : FiringOk times s f) :
      Reached times (fire times s f)

structure Increasing (s : ItemHistory) : Prop where
  normal : s.abstime.Normal
  whole : 1000000 ∣ s.abstime.us
  ahead : ∀ slot ∈ s.started, slot.us < s.abstime.us
  sorted : s.started.Pairwise fun a b => b.us < a.us

theorem abstime_whole (times : TestTimes) (h : now.Normal) (run : Bool) : 1000000 ∣ (times.next now run).2.us := by
  rw [(next_abstime times h run).1]
  exact nextSlot_whole times now.us run

variable {s : ItemHistory} {times : TestTimes}

theorem fire_of_started {f : Firing} (h : forkTest f.now s.abstime f.forks = true) :
    fire times s f = ⟨(times.next f.now true).2, s.abstime :: s.started⟩ := by
  simp [fire, runScheduledTest, h]

theorem fire_of_early {f : Firing} (h : forkTest f.now s.abstime f.forks = false) :
    fire times s f = ⟨(times.next f.now false).2, s.started⟩ := by
  simp [fire, runScheduledTest, h]

theorem fire_increasing {f : Firing} (hs : Increasing s) (hf : FiringOk times s f) : Increasing (fire times s f) := by
  have hnext := fun run => next_abstime times f.normal run
  rw [FiringOk] at hf
  cases hrun : forkTest f.now s.abstime f.forks with
  | true =>
    rw [hrun, if_pos rfl] at hf
    have hle := ((forkTest_iff f.normal hs.normal f.forks).mp hrun).2
    have hgt := (nextSlot_gt_started_iff times hs.whole hle).mpr hf
    rw [← (hnext true).1] at hgt
    rw [fire_of_started hrun]
    refine ⟨(hnext true).2, abstime_whole times f.normal true, ?_, List.pairwise_cons.mpr ⟨hs.ahead, hs.sorted⟩⟩
    intro slot hslot
    rcases List.mem_cons.mp hslot with rfl | hslot
    · exact hgt
    · exact (hs.ahead slot hslot).trans hgt
  | false =>
    rw [hrun, if_neg (by simp)] at hf
    have hgt := nextSlot_gt times f.now.us false
    rw [← (hnext false).1] at hgt
    rw [fire_of_early hrun]
    exact ⟨(hnext false).2, abstime_whole times f.normal false, fun slot hslot => (hf slot hslot).trans_lt hgt, hs.sorted⟩

theorem reached_increasing (h : Reached times s) :
    Increasing s := by
  induction h with
  | scheduled hn =>
    exact ⟨(next_abstime times hn false).2, abstime_whole times hn false, by simp, by simp⟩
  | fired _ hf ih => exact fire_increasing ih hf

theorem started_slots_increase (times : TestTimes) : (∀ (scheduled now : TimeVal) (run : Bool), scheduled.Normal → now.Normal →
      forkTest now (times.next scheduled run).2 true = true → ((times.next scheduled run).2.us <
            (runScheduledTest times (times.next scheduled run).2 now true).2.us ↔
          SkipsStarted times (times.next scheduled run).2.us now.us)) ∧
      ∀ s, Reached times s → s.started.Pairwise fun a b => b.us < a.us := by
  refine ⟨?_, fun s hs => (reached_increasing hs).sorted⟩
  intro scheduled now run hsched hnow hfork
  have hle := ((forkTest_iff hnow (next_abstime times hsched run).2 true).mp hfork).2
  simp only [runScheduledTest, hfork, (next_abstime times hnow true).1]
  exact nextSlot_gt_started_iff times (abstime_whole times hsched run) hle

def hourlyTimes : TestTimes where
  period := .hourly
  start := 0
  stop := 3600000000
  frequency := 60000000
  valid := by decide
  start_range := by decide
  stop_range := by decide
  frequency_range := by decide
  start_whole := by decide
  stop_whole := by decide
  frequency_whole := by decide

theorem hour_slot_starts_twice : admitTimes (some (Bytes.cstr "hourly")) none none none = some hourlyTimes ∧
      (hourlyTimes.next ⟨3550, 0⟩ false).2 = ⟨3600, 0⟩ ∧
      runScheduledTest hourlyTimes ⟨3600, 0⟩ ⟨3599, 950000⟩ true = (true, ⟨3600, 0⟩) ∧
      runScheduledTest hourlyTimes ⟨3600, 0⟩ ⟨3600, 0⟩ true = (true, ⟨3660, 0⟩) := by
  refine ⟨?_, ?_, ?_, ?_⟩ <;> decide

theorem minute_slot_skipped : SkipsStarted hourlyTimes 60000000 59960000 ∧ (hourlyTimes.next ⟨30, 0⟩ false).2.us <
        (runScheduledTest hourlyTimes (hourlyTimes.next ⟨30, 0⟩ false).2 ⟨59, 960000⟩ true).2.us := by
  have hskip : SkipsStarted hourlyTimes 60000000 59960000 :=
    Or.inr ⟨by decide, Or.inl (by decide)⟩
  exact ⟨hskip, ((started_slots_increase hourlyTimes).1 ⟨30, 0⟩ ⟨59, 960000⟩ false (by decide) (by decide) (by decide)).mpr hskip⟩

end Amplet.ScheduleSlots
