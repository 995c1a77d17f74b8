import Amplet.Bytes

/-!
# Schedule arithmetic

Embedding of the time computations of `src/measured/schedule.c` and of the decision of
`fork_test` in `src/measured/run.c`. Times are `timeval` pairs over the integers, far
below the limits of the 64 bit fields. `gmtime` and `timegm` fold month and year into a
day count since the epoch, in which `timegm` is linear.
-/

namespace Amplet.ScheduleTime
open Bytes

structure TimeVal where
  sec : ℤ
  usec : ℤ
deriving DecidableEq, Repr

/-- `US_FROM_TV` -/
def TimeVal.us (tv : TimeVal) : ℤ := tv.sec * 1000000 + tv.usec

/-- `DIFF_TV_US` -/
def diffTvUs (a b : TimeVal) : ℤ := (a.sec - b.sec) * 1000000 + (a.usec - b.usec)

def TimeVal.Normal (tv : TimeVal) : Prop := 0 ≤ tv.usec ∧ tv.usec < 1000000

instance (tv : TimeVal) : Decidable tv.Normal := inferInstanceAs (Decidable (_ ∧ _))

def timerLt (a b : TimeVal) : Bool :=
  if a.sec = b.sec then a.usec < b.usec else a.sec < b.sec

def timerAdd (a b : TimeVal) : TimeVal :=
  if 1000000 ≤ a.usec + b.usec then ⟨a.sec + b.sec + 1, a.usec + b.usec - 1000000⟩
  else ⟨a.sec + b.sec, a.usec + b.usec⟩

def timerSub (a b : TimeVal) : TimeVal :=
  if a.usec - b.usec < 0 then ⟨a.sec - b.sec - 1, a.usec - b.usec + 1000000⟩
  else ⟨a.sec - b.sec, a.usec - b.usec⟩

/-- `ADD_TV_PARTS`; the carry loop leaves quotient and remainder. -/
def addTvParts (tv : TimeVal) (sec usec : ℤ) : TimeVal :=
  if 1000000 ≤ tv.usec + usec then
    ⟨tv.sec + sec + (tv.usec + usec) / 1000000, (tv.usec + usec) % 1000000⟩
  else ⟨tv.sec + sec, tv.usec + usec⟩

inductive SchedulePeriod
  | invalid
  | hourly
  | daily
  | weekly
deriving DecidableEq, Repr

def getPeriodLabel (period : CStr) : SchedulePeriod :=
  let is (s : String) : Bool := strcasecmp period (cstr s) = 0
  if is "hour" || is "hourly" || is "H" then .hourly
  else if is "day" || is "daily" || is "D" then .daily
  else if is "week" || is "weekly" || is "W" then .weekly
  else .invalid

def getPeriodMaxValue : SchedulePeriod → ℤ
  | .hourly => 60 * 60
  | .daily => 60 * 60 * 24
  | .weekly => 60 * 60 * 24 * 7
  | .invalid => -1

def getPeriodDefaultFrequency : SchedulePeriod → ℤ
  | .hourly => 60
  | .daily => 60 * 10
  | .weekly => 60 * 60
  | .invalid => -1

def checkTimeRange (value : ℤ) (period : SchedulePeriod) : ℤ :=
  if getPeriodMaxValue period * 1000000 < 0 ∨ value < 0 ∨ getPeriodMaxValue period * 1000000 < value then -1
  else value

structure Tm where
  sec : ℤ
  min : ℤ
  hour : ℤ
  mday : ℤ
  wday : ℤ

/-- The epoch was a Thursday, day four of a week that starts on Sunday. -/
def gmtime (t : ℤ) : Tm :=
  ⟨t % 60, t / 60 % 60, t / 3600 % 24, t / 86400, (t / 86400 + 4) % 7⟩

def timegm (tm : Tm) : ℤ := tm.mday * 86400 + tm.hour * 3600 + tm.min * 60 + tm.sec

def getPeriodStart (period : SchedulePeriod) (now : ℤ) : ℤ :=
  let tm := { gmtime now with sec := 0, min := 0 }
  match period with
  | .hourly => timegm tm
  | .daily => timegm { tm with hour := 0 }
  | .weekly => timegm { tm with hour := 0, mday := tm.mday - tm.wday }
  | .invalid => timegm { tm with hour := 0 }

/-- `SCHEDULE_CLOCK_FUDGE`, in microseconds -/
def scheduleClockFudge : ℤ := 100 * 1000

def rolloverOffset (now : TimeVal) (periodEnd start : ℤ) : TimeVal :=
  addTvParts (if 0 < now.usec then ⟨periodEnd - now.sec - 1, 1000000 - now.usec⟩
      else ⟨periodEnd - now.sec, 0⟩)
    (start / 1000000) (start % 1000000)

def sensibleOffset (next naive : TimeVal) : TimeVal :=
  if next.sec < 0 ∨ next.usec < 0 ∨ 1000000 ≤ next.usec then naive else next

def getNextScheduleTimeInternal (now : TimeVal) (period : SchedulePeriod)
    (start stop frequency : ℤ) (run : Bool) : TimeVal × TimeVal :=
  let periodStart := getPeriodStart period now.sec
  let testEnd := periodStart * 1000000 + stop
  let diff := (now.sec - periodStart) * 1000000 + now.usec - start
  if diff < 0 then
    let diff :=
      if run ∧ |diff| < scheduleClockFudge then
        if 0 < frequency then |diff| + frequency
        else |diff| + getPeriodMaxValue period * 1000000
      else diff
    let next : TimeVal := ⟨|diff| / 1000000, |diff| % 1000000⟩
    (next, timerAdd now next)
  else
    let repeatDiff := frequency - diff % frequency
    let diff :=
      if frequency = 0 then diff
      else if run ∧ repeatDiff < scheduleClockFudge then repeatDiff + frequency
      else repeatDiff
    let next : TimeVal :=
      if frequency = 0 then ⟨0, 0⟩ else ⟨diff / 1000000, diff % 1000000⟩
    let periodEnd := periodStart + getPeriodMaxValue period
    let next :=
      if frequency = 0 ∨ periodEnd < now.sec + diff / 1000000 ∨ testEnd < now.us + diff then
        rolloverOffset now periodEnd start
      else next
    let next := sensibleOffset next (if frequency = 0 then ⟨getPeriodMaxValue period, 0⟩ else ⟨frequency / 1000000, 0⟩)
    (next, timerAdd now next)

/-- What the admission checks guarantee; all values came from whole seconds. -/
structure TestTimes where
  period : SchedulePeriod
  start : ℤ
  stop : ℤ
  frequency : ℤ
  valid : period ≠ .invalid
  start_range : 0 ≤ start ∧ start ≤ getPeriodMaxValue period * 1000000
  stop_range : 0 ≤ stop ∧ stop ≤ getPeriodMaxValue period * 1000000
  frequency_range : 0 ≤ frequency ∧ frequency ≤ getPeriodMaxValue period * 1000000
  start_whole : 1000000 ∣ start
  stop_whole : 1000000 ∣ stop
  frequency_whole : 1000000 ∣ frequency
deriving DecidableEq

variable {period : SchedulePeriod} {value initial : ℤ}

theorem getPeriodMaxValue_pos (h : period ≠ .invalid) : 0 < getPeriodMaxValue period := by
  cases period <;> simp_all [getPeriodMaxValue]

theorem getPeriodDefaultFrequency_range (h : period ≠ .invalid) : 0 ≤ getPeriodDefaultFrequency period ∧
      getPeriodDefaultFrequency period ≤ getPeriodMaxValue period := by
  cases period <;> simp_all [getPeriodMaxValue, getPeriodDefaultFrequency]

theorem checkTimeRange_nonneg (h : ¬ checkTimeRange value period < 0) :
    0 ≤ value ∧ value ≤ getPeriodMaxValue period * 1000000 := by
  rw [checkTimeRange] at h
  split_ifs at h with hr
  · omega
  · push Not at hr
    exact hr.2

def keyValue (seconds : Option ℤ) (initial : ℤ) : ℤ :=
  match seconds with
  | some s => s * 1000000
  | none => initial

theorem keyValue_whole {seconds : Option ℤ} (h : 1000000 ∣ initial) : 1000000 ∣ keyValue seconds initial := by
  cases seconds with
  | none => exact h
  | some s => exact Dvd.intro_left s rfl

theorem getPeriodMaxValue_range (h : period ≠ .invalid) : 0 ≤ getPeriodMaxValue period * 1000000 ∧
      getPeriodMaxValue period * 1000000 ≤ getPeriodMaxValue period * 1000000 := by
  have hpos := getPeriodMaxValue_pos h
  omega

theorem getPeriodDefaultFrequency_whole_range (h : period ≠ .invalid) : 0 ≤ getPeriodDefaultFrequency period * 1000000 ∧
      getPeriodDefaultFrequency period * 1000000 ≤ getPeriodMaxValue period * 1000000 := by
  have hdef := getPeriodDefaultFrequency_range h
  omega

theorem orDefault_range (hinitial : 0 ≤ initial ∧ initial ≤ getPeriodMaxValue period * 1000000)
    (h : ¬(0 ≤ value ∧ checkTimeRange value period < 0)) :
    0 ≤ (if value < 0 then initial else value) ∧ (if value < 0 then initial else value) ≤ getPeriodMaxValue period * 1000000 := by
  split_ifs with hneg
  · exact hinitial
  · exact checkTimeRange_nonneg fun hrange => h ⟨not_lt.mp hneg, hrange⟩

theorem orDefault_whole (seconds : Option ℤ) (initial : ℤ) :
    1000000 ∣ (if keyValue seconds (-1) < 0 then initial * 1000000 else keyValue seconds (-1)) := by
  split_ifs with hneg
  · exact Dvd.intro_left initial rfl
  · cases seconds with
    | none => exact absurd (by decide) hneg
    | some s => exact Dvd.intro_left s rfl

/-- The checks of `create_and_schedule_test`, in the order of the source. -/
def admitTimes (periodStr : Option CStr) (start stop frequency : Option ℤ) :
    Option TestTimes :=
  let period := match periodStr with
    | none => SchedulePeriod.daily
    | some s => getPeriodLabel s
  if hvalid : period = .invalid then none
  else if hstart : checkTimeRange (keyValue start 0) period < 0 then none
  else if hstop : 0 ≤ keyValue stop (-1) ∧ checkTimeRange (keyValue stop (-1)) period < 0 then none
  else if hfreq : 0 ≤ keyValue frequency (-1) ∧ checkTimeRange (keyValue frequency (-1)) period < 0 then none
  else some {
    period := period
    start := keyValue start 0
    stop := if keyValue stop (-1) < 0 then getPeriodMaxValue period * 1000000
      else keyValue stop (-1)
    frequency := if keyValue frequency (-1) < 0 then getPeriodDefaultFrequency period * 1000000
      else keyValue frequency (-1)
    valid := hvalid
    start_range := checkTimeRange_nonneg hstart
    stop_range := orDefault_range (getPeriodMaxValue_range hvalid) hstop
    frequency_range := orDefault_range (getPeriodDefaultFrequency_whole_range hvalid) hfreq
    start_whole := keyValue_whole (dvd_zero _)
    stop_whole := orDefault_whole stop _
    frequency_whole := orDefault_whole frequency _ }

def forkTest (now abstime : TimeVal) (forks : Bool) : Bool :=
  if timerLt now abstime && ((timerSub abstime now).sec ≠ 0 || scheduleClockFudge < (timerSub abstime now).usec) then
    false
  else forks

def TestTimes.next (times : TestTimes) (now : TimeVal) (run : Bool) : TimeVal × TimeVal :=
  getNextScheduleTimeInternal now times.period times.start times.stop times.frequency run

/-- With one clock reading for both calls: whether the test was started, and the next `abstime`.
-/
def runScheduledTest (times : TestTimes) (abstime now : TimeVal) (forks : Bool) : Bool × TimeVal :=
  (forkTest now abstime forks, (times.next now (forkTest now abstime forks)).2)

end Amplet.ScheduleTime
