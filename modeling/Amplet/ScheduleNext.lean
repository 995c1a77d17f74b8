import Amplet.ScheduleSlots
import Mathlib.Order.Bounds.Defs

/-!
# The next slot of a test

The slots of a test over all periods, as a set of instants. Without a run just before,
the computed time is the least slot after now.
-/

namespace Amplet.ScheduleNext
open ScheduleTime ScheduleSlots

/-- The seconds at which an hour, a day, or a week from Sunday on begins. -/
def PeriodStarts (period : SchedulePeriod) (s : ℤ) : Prop :=
  getPeriodMaxValue period ∣ s + periodPhase period

def slots (times : TestTimes) : Set ℤ :=
  {slot | ∃ s, PeriodStarts times.period s ∧ ∃ n : ℕ, slot = s * 1000000 + times.start + n * times.frequency ∧
      (n = 0 ∨ 0 < times.frequency ∧ 1 ≤ n ∧ times.start + n * times.frequency ≤ times.stop)}

def Overshoots (times : TestTimes) (t : ℤ) : Prop :=
  t < times.first t ∧ times.first t - t < scheduleClockFudge ∧ 0 < times.frequency ∧
    times.stop < times.start + times.frequency ∧ times.frequency ≠ times.length

section

variable {times : TestTimes} {t slot : ℤ}

theorem mem_slots_iff (t : ℤ) : slot ∈ slots times ↔ ∃ (k : ℤ) (n : ℕ),
    slot = times.first t + k * times.length + n * times.frequency ∧
      (n = 0 ∨ 0 < times.frequency ∧ 1 ≤ n ∧ times.start + n * times.frequency ≤ times.stop) := by
  obtain ⟨-, -, k₀, hk₀⟩ := getPeriodStart_spec times.valid (t / 1000000)
  constructor
  · rintro ⟨s, ⟨k, hk⟩, n, hslot, hn⟩
    refine ⟨k - k₀, n, ?_, hn⟩
    rw [hslot, TestTimes.first, TestTimes.base, TestTimes.length]
    linear_combination 1000000 * hk - 1000000 * hk₀
  · rintro ⟨k, n, hslot, hn⟩
    refine ⟨getPeriodStart times.period (t / 1000000) + k * getPeriodMaxValue times.period, ⟨k₀ + k, ?_⟩, n, ?_, hn⟩
    · linear_combination hk₀
    · rw [hslot, TestTimes.first, TestTimes.base, TestTimes.length]
      ring

theorem slot_whole (h : slot ∈ slots times) : 1000000 ∣ slot := by
  obtain ⟨s, -, n, rfl, -⟩ := h
  exact (Dvd.dvd.mul_left dvd_rfl s |>.add times.start_whole).add (times.frequency_whole.mul_left _)

theorem slot_cases (h : slot ∈ slots times) (hlt : t < slot) : times.first t + times.length ≤ slot ∨ slot = times.first t ∨
      0 < times.frequency ∧ times.first t < slot ∧ times.frequency ∣ slot - times.first t ∧ slot ≤ times.base t + times.stop := by
  have hspec := base_spec times t
  have hlen := length_pos times
  have hstart := times.start_range
  have hstop : times.stop ≤ times.length := times.stop_range.2
  have hfreq := times.frequency_range.1
  obtain ⟨k, n, hslot, hn⟩ := (mem_slots_iff t).1 h
  have hrepeat : 0 ≤ n * times.frequency := mul_nonneg (Int.natCast_nonneg n) hfreq
  rcases lt_trichotomy k 0 with hneg | rfl | hpos
  · -- the slots of earlier periods are over
    have hk : k * times.length ≤ -times.length := by nlinarith
    simp only [TestTimes.first, TestTimes.length] at *
    rcases hn with rfl | ⟨-, -, hwindow⟩
    · simp only [Nat.cast_zero, zero_mul, add_zero] at hslot
      omega
    · omega
  · rcases hn with rfl | ⟨hf, hone, hwindow⟩
    · exact .inr (.inl (by simpa using hslot))
    · have hmore : times.frequency ≤ n * times.frequency := by
        have : (1 : ℤ) ≤ n := by exact_mod_cast hone
        nlinarith
      rw [zero_mul, add_zero] at hslot
      refine .inr (.inr ⟨hf, by omega, ⟨n, by rw [hslot]; ring⟩, ?_⟩)
      rw [hslot, TestTimes.first]
      omega
  · have hk : times.length ≤ k * times.length := by nlinarith
    exact .inl (by omega)

theorem first_mem (times : TestTimes) (t : ℤ) : times.first t ∈ slots times :=
  (mem_slots_iff t).2 ⟨0, 0, by simp, .inl rfl⟩

theorem next_first_mem (times : TestTimes) (t : ℤ) : times.first t + times.length ∈ slots times :=
  (mem_slots_iff t).2 ⟨1, 0, by simp, .inl rfl⟩

theorem repeat_mem (t : ℤ) (hf : 0 < times.frequency) (hlt : times.first t < slot)
    (hdvd : times.frequency ∣ slot - times.first t) (hstop : slot ≤ times.base t + times.stop) :
    slot ∈ slots times := by
  obtain ⟨m, hm⟩ := hdvd
  have hpos : 0 < m := by
    have : 0 < times.frequency * m := by omega
    exact (mul_pos_iff_of_pos_left hf).1 this
  obtain ⟨n, rfl⟩ := Int.eq_ofNat_of_zero_le hpos.le
  refine (mem_slots_iff t).2 ⟨0, n, ?_, .inr ⟨hf, by omega, ?_⟩⟩
  · linear_combination hm
  · rw [TestTimes.first] at hm
    linarith

theorem first_repeat_mem_iff (hf : 0 < times.frequency) : times.first t + times.frequency ∈ slots times ↔
      times.start + times.frequency ≤ times.stop ∨ times.frequency = times.length := by
  have hlen := length_pos times
  have hstart := times.start_range.1
  have hstop : times.stop ≤ times.length := times.stop_range.2
  have hfreq : times.frequency ≤ times.length := times.frequency_range.2
  constructor
  · intro h
    obtain ⟨k, n, hslot, hn⟩ := (mem_slots_iff t).1 h
    have hsum : times.frequency = k * times.length + n * times.frequency := by linarith
    rcases hn with rfl | ⟨-, hone, hwindow⟩
    · right
      simp only [Nat.cast_zero, zero_mul, add_zero] at hsum
      have hk : k = 1 := by
        have hpos : 0 < k := by
          by_contra hle
          nlinarith
        by_contra hne
        have : 2 ≤ k := by omega
        nlinarith
      rw [hsum, hk, one_mul]
    · left
      have hmore : times.frequency ≤ n * times.frequency := by
        have : (1 : ℤ) ≤ n := by exact_mod_cast hone
        nlinarith
      linarith
  · rintro (hwindow | hperiod)
    · refine repeat_mem t hf (by omega) (by simp) ?_
      rw [TestTimes.first]
      omega
    · rw [hperiod]
      exact next_first_mem times t

theorem nextSlot_le (times : TestTimes) (t : ℤ) : times.nextSlot t false ≤ times.first t + times.length := by
  have hlen := length_pos times
  have hstart := times.start_range.1
  have hstop : times.stop ≤ times.length := times.stop_range.2
  simp only [TestTimes.nextSlot, Bool.false_eq_true, false_and, if_false]
  simp only [TestTimes.first]
  split_ifs <;> omega

theorem nextSlot_lowerBound (times : TestTimes) (t : ℤ) :
    times.nextSlot t false ∈ lowerBounds {slot ∈ slots times | t < slot} := by
  rintro slot ⟨hmem, hlt⟩
  rcases slot_cases hmem hlt with hnext | hfirst | ⟨hf, hgt, hdvd, hstop⟩
  · exact (nextSlot_le times t).trans hnext
  · rw [TestTimes.nextSlot, if_pos (by omega)]
    simp [hfirst]
  · simp only [TestTimes.nextSlot, Bool.false_eq_true, false_and, if_false, hf.ne']
    obtain ⟨-, hle, hdvd'⟩ := gap_spec times (t := t) hf.ne'
    have hrepeat : t + times.gap t ≤ slot := by
      -- both are whole numbers of repeats after the first slot, less than one apart
      have hsub : times.frequency ∣ slot - (t + times.gap t) := by
        have := dvd_sub hdvd hdvd'
        rwa [sub_sub_sub_cancel_right] at this
      by_contra hbefore
      have := Int.le_of_dvd (by omega) (dvd_neg.2 hsub)
      omega
    split_ifs
    · exact hgt.le
    · omega
    · exact hrepeat

theorem nextSlot_mem_iff (times : TestTimes) (t : ℤ) (run : Bool) :
    times.nextSlot t run ∈ slots times ↔ ¬(run = true ∧ Overshoots times t) := by
  rw [TestTimes.nextSlot, Overshoots]
  by_cases hearly : t < times.first t
  · rw [if_pos hearly]
    split_ifs with hskip hf
    · rw [first_repeat_mem_iff hf]
      constructor
      · rintro hin ⟨-, -, -, -, hstop, hperiod⟩
        exact hin.elim (not_le.2 hstop) hperiod
      · intro h
        by_contra hout
        rw [not_or, not_le] at hout
        exact h ⟨hskip.1, hearly, hskip.2, hf, hout.1, hout.2⟩
    · exact iff_of_true (next_first_mem times t) fun h => hf h.2.2.2.1
    · exact iff_of_true (first_mem times t) fun h => hskip ⟨h.1, h.2.2.1⟩
  · rw [if_neg hearly]
    refine iff_of_true ?_ fun h => hearly h.2.1
    by_cases hf : times.frequency = 0
    · rw [if_pos hf]
      exact next_first_mem times t
    · rw [if_neg hf]
      obtain ⟨hpos, -, hdvd⟩ := gap_spec times (t := t) hf
      have hfpos : 0 < times.frequency := by
        have := times.frequency_range.1
        omega
      dsimp only
      split_ifs with hskip hover hover
      · exact next_first_mem times t
      · refine repeat_mem t hfpos (by omega) ?_ (by omega)
        have := dvd_add hdvd (dvd_refl times.frequency)
        rwa [show t + times.gap t - times.first t + times.frequency =
          t + times.gap t + times.frequency - times.first t by ring] at this
      · exact next_first_mem times t
      · exact repeat_mem t hfpos (by omega) hdvd (by omega)

theorem fudge_le_iff (hslot : slot ∈ slots times) (hlt : t < slot) (hle : slot - t < scheduleClockFudge) :
    scheduleClockFudge ≤ times.nextSlot t true - t ↔
      ¬(times.start = 0 ∧ times.base t + times.length - t < scheduleClockFudge) := by
  have hwhole := slot_whole hslot
  have hnext := nextSlot_whole times t true
  have hgt := nextSlot_gt times t true
  have hspec := base_spec times t
  have hlen := length_whole times
  have hskip := nextSlot_gt_started_iff times hwhole hle.le
  have hperiod := period_start_iff times hwhole hlt hle.le
  have hafter : scheduleClockFudge ≤ times.nextSlot t true - t ↔ slot < times.nextSlot t true := by
    simp only [scheduleClockFudge] at *
    omega
  have hboundary : slot = times.base t + times.length ↔ times.base t + times.length - t < scheduleClockFudge := by
    simp only [scheduleClockFudge] at *
    omega
  rw [hafter, hskip, SkipsStarted, hperiod, hboundary]
  rw [or_iff_right (not_le.2 hlt)]
  exact and_iff_left (Or.inl hle)

end

/-- The offset is normalised and leads to the least slot after now, which is stored. -/
theorem next_is_least_slot (times : TestTimes) (now : TimeVal) (h : now.Normal) : (times.next now false).1.Normal ∧
      IsLeast {slot ∈ slots times | now.us < slot} (now.us + (times.next now false).1.us) ∧
      (times.next now false).2.us = now.us + (times.next now false).1.us ∧
      (times.next now false).2.Normal := by
  obtain ⟨hus, hnormal⟩ := next_offset times h false
  obtain ⟨habs, hnormal'⟩ := next_abstime times h false
  refine ⟨hnormal, ?_, habs.trans hus.symm, hnormal'⟩
  rw [hus]
  refine ⟨⟨?_, nextSlot_gt times now.us false⟩, nextSlot_lowerBound times now.us⟩
  exact (nextSlot_mem_iff times now.us false).2 (by simp)

theorem next_is_least_slot_minute : (⟨59, 999999⟩ : TimeVal).Normal ∧
      IsLeast {slot ∈ slots hourlyTimes | (⟨59, 999999⟩ : TimeVal).us < slot}
        ((⟨59, 999999⟩ : TimeVal).us + (hourlyTimes.next ⟨59, 999999⟩ false).1.us) :=
  ⟨by decide, (next_is_least_slot hourlyTimes ⟨59, 999999⟩ (by decide)).2.1⟩

/-- Less than the fudge before a slot: exactly if the slot is not the start of the next period of
a test that starts with its period. -/
theorem next_after_run_apart_iff (times : TestTimes) (now : TimeVal) (h : now.Normal)
    (hearly : ∃ slot ∈ slots times, now.us < slot ∧ slot - now.us < scheduleClockFudge) :
    scheduleClockFudge ≤ (times.next now true).1.us ↔
      ¬(times.start = 0 ∧ times.base now.us + times.length - now.us < scheduleClockFudge) := by
  obtain ⟨slot, hslot, hlt, hle⟩ := hearly
  obtain ⟨hus, -⟩ := next_offset times h true
  rw [← fudge_le_iff hslot hlt hle, ← hus, add_sub_cancel_left]

theorem sixty_mem_slots : (60000000 : ℤ) ∈ slots hourlyTimes :=
  ⟨0, ⟨0, rfl⟩, 1, by decide, .inr ⟨by decide, le_rfl, by decide⟩⟩

theorem next_after_run_apart_minute : (⟨59, 950000⟩ : TimeVal).Normal ∧
      (scheduleClockFudge ≤ (hourlyTimes.next ⟨59, 950000⟩ true).1.us ↔
        ¬(hourlyTimes.start = 0 ∧ hourlyTimes.base (⟨59, 950000⟩ : TimeVal).us +
          hourlyTimes.length - (⟨59, 950000⟩ : TimeVal).us < scheduleClockFudge)) :=
  ⟨by decide, next_after_run_apart_iff hourlyTimes ⟨59, 950000⟩ (by decide) ⟨60000000, sixty_mem_slots, by decide, by decide⟩⟩

theorem hour_scheduled_again : (3600000000 : ℤ) ∈ slots hourlyTimes ∧
      3600000000 - (⟨3599, 950000⟩ : TimeVal).us < scheduleClockFudge ∧
      (hourlyTimes.next ⟨3599, 950000⟩ true).1 = ⟨0, 50000⟩ ∧
      (hourlyTimes.next ⟨3599, 950000⟩ true).1.us < scheduleClockFudge :=
  ⟨⟨3600, ⟨1, rfl⟩, 0, by decide, .inl rfl⟩, by decide, by decide, by decide⟩

theorem next_after_run_slot_iff (times : TestTimes) (now : TimeVal) (h : now.Normal) :
    now.us + (times.next now true).1.us ∈ slots times ↔ ¬Overshoots times now.us := by
  rw [(next_offset times h true).1, nextSlot_mem_iff]
  simp

theorem next_after_run_slot_minute : (⟨59, 950000⟩ : TimeVal).Normal ∧
      ((⟨59, 950000⟩ : TimeVal).us + (hourlyTimes.next ⟨59, 950000⟩ true).1.us ∈ slots hourlyTimes ↔
        ¬Overshoots hourlyTimes (⟨59, 950000⟩ : TimeVal).us) :=
  ⟨by decide, next_after_run_slot_iff hourlyTimes ⟨59, 950000⟩ (by decide)⟩

def onceTimes : TestTimes where
  period := .daily
  start := 3600000000
  stop := 3600000000
  frequency := 600000000
  valid := by decide
  start_range := by decide
  stop_range := by decide
  frequency_range := by decide
  start_whole := hourlyTimes.stop_whole
  stop_whole := hourlyTimes.stop_whole
  frequency_whole := by decide

theorem once_scheduled_outside_window :
    admitTimes (some (Bytes.cstr "daily")) (some 3600) (some 3600) (some 600) = some onceTimes ∧
      (onceTimes.next ⟨3599, 950000⟩ true).2 = ⟨4200, 0⟩ ∧ (4200000000 : ℤ) ∉ slots onceTimes := by
  refine ⟨by decide, by decide, fun h => ?_⟩
  have hnext : onceTimes.nextSlot 3599950000 true = 4200000000 := by decide
  rw [← hnext, nextSlot_mem_iff] at h
  exact h ⟨rfl, by decide, by decide, by decide, by decide, by decide⟩

end Amplet.ScheduleNext
