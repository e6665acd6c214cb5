import Gargoyle.Bandwidth.Archive
import Gargoyle.Bwctl.SetData
import Gargoyle.Data.Calendar
import Mathlib.Data.List.Iterate
import Mathlib.Order.Iterate

/-!
# The intervals of a history

`get_interval_starts_for_history` of `libnftbwctl` finds out when the intervals
of a history began. It does so from the date, by `localtime` and `mktime`, where
the module counts in seconds and looks the month up in its tables. The time zone
is one with a fixed offset, of which `localtime` and `mktime` know the calendar.

The two agree on the boundaries of a rule without a reset time. With one, the
library adds the reset time to the start of an interval instead of looking for
the next boundary, and the two part at the second boundary at the latest.
-/

namespace Gargoyle

namespace Bwctl

open Bandwidth Calendar

/-- `struct tm`, without the fields that are not used. -/
structure Tm where
  sec : ℤ
  min : ℤ
  hour : ℤ
  mday : ℤ
  mon : ℤ
  year : ℤ
  wday : ℤ
deriving DecidableEq

section Library

variable (west : ℤ)

/-- `localtime` in a zone that is `west` minutes west of Greenwich. -/
def localtime (t : ℤ) : Tm :=
  let s := t - 60 * west
  let day := s / 86400
  { sec := s % 60
    min := s / 60 % 60
    hour := s / 3600 % 24
    mday := dayOf day
    mon := monthOf day
    year := yearOf day - 1900
    wday := (day + 4) % 7 }

/-- `mktime` in that zone. -/
def mktime (tm : Tm) : ℤ :=
  dayNumber (tm.year + 1900) tm.mon tm.mday * 86400 + tm.hour * 3600 + tm.min * 60 + tm.sec +
    60 * west

def nextSunday : ℕ → Tm → Tm
  | 0, tm => tm
  | n + 1, tm =>
    if tm.wday ≠ 0 then
      nextSunday n (localtime west (mktime west { tm with mday := tm.mday + 1 }))
    else tm

def calendarStep (resetInterval next : ℤ) : ℤ :=
  let curr := localtime west next
  if resetInterval = bandwidthMinute then mktime west { curr with sec := 0, min := curr.min + 1 }
  else if resetInterval = bandwidthHour then
    mktime west { curr with sec := 0, min := 0, hour := curr.hour + 1 }
  else if resetInterval = bandwidthDay then
    mktime west { curr with sec := 0, min := 0, hour := 0, mday := curr.mday + 1 }
  else if resetInterval = bandwidthWeek then
    let tmp := mktime west { curr with sec := 0, min := 0, hour := 0, mday := curr.mday + 1 }
    mktime west (nextSunday west 7 (localtime west tmp))
  else if resetInterval = bandwidthMonth then
    mktime west { curr with sec := 0, min := 0, hour := 0, mday := 1, mon := curr.mon + 1 }
  else next

def forwardStep (resetInterval prev : ℤ) : ℤ :=
  let next := calendarStep west resetInterval prev
  if next ≤ prev then
    if resetInterval = bandwidthMinute then prev + 60
    else if resetInterval = bandwidthHour then prev + 3600
    else if resetInterval = bandwidthDay ∨ resetInterval = bandwidthWeek ∨
        resetInterval = bandwidthMonth then prev + 86400
    else next
  else next

/-- The loop of `get_next_node_start_time`, for a bounded number of rounds;
`none` says that it has not ended. -/
def nodeStartRounds (resetInterval resetTime current : ℤ) : ℕ → ℤ → Option ℤ
  | 0, _ => none
  | n + 1, next =>
    if next + resetTime ≤ current then
      nodeStartRounds resetInterval resetTime current n (forwardStep west resetInterval next)
    else some (next + resetTime)

/-- `get_next_node_start_time`, with more rounds than a second each would
need. -/
def getNextNodeStartTime (current resetInterval resetTime : ℤ) (isConstantInterval : Bool) :
    Option ℤ :=
  if isConstantInterval then some (current + resetInterval)
  else nodeStartRounds west resetInterval resetTime current ((-resetTime).toNat + 2) current

/-- The loop of `get_interval_starts_for_history`. -/
def intervalStarts (nodeStart : ℤ → Option ℤ) : ℕ → ℤ → ℤ → Option (List ℤ)
  | 0, _, _ => some []
  | n + 1, nextStart, nextEnd =>
    (nodeStart nextEnd).bind fun nextEnd' =>
      (intervalStarts nodeStart n nextEnd nextEnd').map fun starts => nextStart :: starts

def getIntervalStartsForHistory (h : IpBwHistory) : Option (List ℤ) :=
  let nodeStart := fun t => getNextNodeStartTime west t h.resetInterval h.resetTime
    h.isConstantInterval
  if h.historyBws.length > 0 then
    (nodeStart h.firstStart).bind fun nextEnd =>
      intervalStarts nodeStart h.historyBws.length h.firstStart nextEnd
  else some []

end Library

/-! ## Periods -/

def periodStart (resetInterval t : ℤ) : ℤ :=
  if resetInterval = bandwidthMinute then t - t % 60
  else if resetInterval = bandwidthHour then t - t % 3600
  else if resetInterval = bandwidthDay then t - t % 86400
  else if resetInterval = bandwidthWeek then t - (t + 4 * 86400) % (7 * 86400)
  else firstDay (monthNumber (t / 86400)) * 86400

def nextPeriod (resetInterval t : ℤ) : ℤ :=
  if resetInterval = bandwidthMinute then t - t % 60 + 60
  else if resetInterval = bandwidthHour then t - t % 3600 + 3600
  else if resetInterval = bandwidthDay then t - t % 86400 + 86400
  else if resetInterval = bandwidthWeek then t - (t + 4 * 86400) % (7 * 86400) + 7 * 86400
  else firstDay (monthNumber (t / 86400) + 1) * 86400

@[simp] theorem periodStart_minute (t : ℤ) : periodStart bandwidthMinute t = t - t % 60 :=
  rfl

@[simp] theorem nextPeriod_minute (t : ℤ) : nextPeriod bandwidthMinute t = t - t % 60 + 60 :=
  rfl

@[simp] theorem periodStart_hour (t : ℤ) : periodStart bandwidthHour t = t - t % 3600 :=
  rfl

@[simp] theorem nextPeriod_hour (t : ℤ) : nextPeriod bandwidthHour t = t - t % 3600 + 3600 :=
  rfl

@[simp] theorem periodStart_day (t : ℤ) : periodStart bandwidthDay t = t - t % 86400 :=
  rfl

@[simp] theorem nextPeriod_day (t : ℤ) : nextPeriod bandwidthDay t = t - t % 86400 + 86400 :=
  rfl

@[simp] theorem periodStart_week (t : ℤ) :
    periodStart bandwidthWeek t = t - (t + 4 * 86400) % (7 * 86400) :=
  rfl

@[simp] theorem nextPeriod_week (t : ℤ) :
    nextPeriod bandwidthWeek t = t - (t + 4 * 86400) % (7 * 86400) + 7 * 86400 :=
  rfl

@[simp] theorem periodStart_month (t : ℤ) :
    periodStart bandwidthMonth t = firstDay (monthNumber (t / 86400)) * 86400 :=
  rfl

@[simp] theorem nextPeriod_month (t : ℤ) :
    nextPeriod bandwidthMonth t = firstDay (monthNumber (t / 86400) + 1) * 86400 :=
  rfl

inductive Calendrical : ℤ → Prop
  | minute : Calendrical bandwidthMinute
  | hour : Calendrical bandwidthHour
  | day : Calendrical bandwidthDay
  | week : Calendrical bandwidthWeek
  | month : Calendrical bandwidthMonth

/-! ### The library -/

theorem lt_nextPeriod {resetInterval : ℤ} (hkind : Calendrical resetInterval) (t : ℤ) :
    t < nextPeriod resetInterval t := by
  cases hkind with
  | minute =>
    rw [nextPeriod_minute]
    omega
  | hour =>
    rw [nextPeriod_hour]
    omega
  | day =>
    rw [nextPeriod_day]
    omega
  | week =>
    rw [nextPeriod_week]
    omega
  | month =>
    have hspec := (monthNumber_spec (t / 86400)).2
    rw [nextPeriod_month]
    omega

section Library

variable {west : ℤ}

theorem mktime_localtime (t days hours minutes seconds : ℤ) :
    mktime west { localtime west t with
      mday := (localtime west t).mday + days, hour := hours, min := minutes, sec := seconds } =
      ((t - 60 * west) / 86400 + days) * 86400 + hours * 3600 + minutes * 60 + seconds +
        60 * west := by
  simp only [mktime, localtime, sub_add_cancel, dayNumber_date]

theorem mktime_localtime_self (t : ℤ) : mktime west (localtime west t) = t := by
  have hday := dayNumber_date ((t - 60 * west) / 86400) 0
  simp only [mktime, localtime, sub_add_cancel]
  rw [add_zero, add_zero] at hday
  rw [hday]
  omega

theorem mktime_nextDay (day : ℤ) :
    mktime west { localtime west (day * 86400 + 60 * west) with
      mday := (localtime west (day * 86400 + 60 * west)).mday + 1 } =
      (day + 1) * 86400 + 60 * west := by
  have htime := @mktime_localtime west (day * 86400 + 60 * west) 1
    (localtime west (day * 86400 + 60 * west)).hour
    (localtime west (day * 86400 + 60 * west)).min
    (localtime west (day * 86400 + 60 * west)).sec
  refine htime.trans ?_
  simp only [localtime]
  omega

theorem nextSunday_spec (n : ℕ) (day : ℤ) (h : -(day + 4) % 7 ≤ n) :
    mktime west (nextSunday west n (localtime west (day * 86400 + 60 * west))) =
      (day + -(day + 4) % 7) * 86400 + 60 * west := by
  induction n generalizing day with
  | zero =>
    have hsunday : -(day + 4) % 7 = 0 := by omega
    rw [nextSunday, mktime_localtime_self, hsunday, add_zero]
  | succ n ih =>
    have hday : (day * 86400 + 60 * west - 60 * west) / 86400 = day := by omega
    have hwday : (localtime west (day * 86400 + 60 * west)).wday = (day + 4) % 7 := by
      simp only [localtime, hday]
    rw [nextSunday]
    split_ifs with hsunday
    · rw [hwday] at hsunday
      rw [mktime_nextDay, ih (day + 1) (by omega)]
      omega
    · rw [hwday] at hsunday
      rw [mktime_localtime_self]
      omega

/-- The step of the library is the next period of its zone. -/
theorem calendarStep_eq {resetInterval : ℤ} (hkind : Calendrical resetInterval) (x : ℤ) :
    calendarStep west resetInterval x =
      nextPeriod resetInterval (x - 60 * west) + 60 * west := by
  have hday := dayNumber_date ((x - 60 * west) / 86400) 0
  rw [add_zero, add_zero] at hday
  cases hkind with
  | minute =>
    rw [calendarStep, if_pos rfl, nextPeriod_minute]
    simp only [mktime, localtime, sub_add_cancel, hday]
    omega
  | hour =>
    rw [calendarStep, if_neg (by decide), if_pos rfl, nextPeriod_hour]
    simp only [mktime, localtime, sub_add_cancel, hday]
    omega
  | day =>
    rw [calendarStep, if_neg (by decide), if_neg (by decide), if_pos rfl, mktime_localtime,
      nextPeriod_day]
    omega
  | week =>
    rw [calendarStep, if_neg (by decide), if_neg (by decide), if_neg (by decide), if_pos rfl,
      nextPeriod_week]
    simp only [mktime_localtime]
    have hsunday := @nextSunday_spec west 7 ((x - 60 * west) / 86400 + 1) (by omega)
    simp only [zero_mul, add_zero]
    rw [hsunday]
    omega
  | month =>
    rw [calendarStep, if_neg (by decide), if_neg (by decide), if_neg (by decide),
      if_neg (by decide), if_pos rfl, nextPeriod_month]
    simp only [mktime, localtime, sub_add_cancel, dayNumber_eq_firstDay, monthNumber, add_assoc]
    omega

def libraryNext (resetInterval resetTime t : ℤ) : ℤ :=
  if 0 < resetTime then t + resetTime else nextPeriod resetInterval t

theorem getNextNodeStartTime_eq {resetInterval resetTime : ℤ} (hkind : Calendrical resetInterval)
    (hrt : 0 ≤ resetTime) (x : ℤ) :
    getNextNodeStartTime west x resetInterval resetTime false =
      some (libraryNext resetInterval resetTime (x - 60 * west) + 60 * west) := by
  have hrounds : (-resetTime).toNat = 0 := by omega
  have hlater := lt_nextPeriod hkind (x - 60 * west)
  rw [getNextNodeStartTime, if_neg (by decide), hrounds, libraryNext, nodeStartRounds]
  split_ifs with hdue hpos hpos
  · omega
  · have hstep : forwardStep west resetInterval x =
        nextPeriod resetInterval (x - 60 * west) + 60 * west := by
      simp only [forwardStep, calendarStep_eq hkind]
      rw [if_neg (by omega)]
    rw [hstep, nodeStartRounds, if_neg (by omega)]
    congr 1
    omega
  · congr 1
    omega
  · omega

theorem intervalStarts_eq {nodeStart : ℤ → Option ℤ} {next : ℤ → ℤ}
    (h : ∀ x, nodeStart x = some (next x)) (n : ℕ) (start : ℤ) :
    intervalStarts nodeStart n start (next start) = some (List.iterate next start n) := by
  induction n generalizing start with
  | zero => rfl
  | succ n ih =>
    rw [intervalStarts, h, Option.bind_some, ih]
    rfl

theorem getIntervalStartsForHistory_eq {h : IpBwHistory} (hkind : Calendrical h.resetInterval)
    (hconst : h.isConstantInterval = false) (hrt : 0 ≤ h.resetTime) :
    getIntervalStartsForHistory west h = some (List.iterate
      (fun x => libraryNext h.resetInterval h.resetTime (x - 60 * west) + 60 * west)
      h.firstStart h.historyBws.length) := by
  simp only [getIntervalStartsForHistory, hconst, getNextNodeStartTime_eq hkind hrt]
  split_ifs with hnodes
  · rw [Option.bind_some]
    exact @intervalStarts_eq _
      (fun x => libraryNext h.resetInterval h.resetTime (x - 60 * west) + 60 * west)
      (fun _ => rfl) _ _
  · have hnone : h.historyBws.length = 0 := by omega
    rw [hnone]
    rfl

end Library

/-! ### The module -/

def moduleNext (resetInterval resetTime t : ℤ) : ℤ :=
  if t < periodStart resetInterval t + resetTime then periodStart resetInterval t + resetTime
  else nextPeriod resetInterval t + resetTime

theorem nextPeriodReset_eq {info : NftBandwidthInfo} {t period start periodEnd : ℤ}
    (hrt : 0 ≤ info.resetTime) (hstart : start ≤ t) (hend : periodEnd = start + period) :
    nextPeriodReset info t period periodEnd =
      if t < start + info.resetTime then start + info.resetTime
      else periodEnd + info.resetTime := by
  simp only [nextPeriodReset]
  split_ifs <;> omega

theorem yearStart_eq : ∀ i < 70, yearStart (i : ℕ) = daysBeforeYear (2039 - (i : ℕ)) := by
  decide

theorem monthStartDays_eq (y : ℤ) {m : ℕ} (hm : m < 12) :
    (monthStartDays y).getD m 0 = daysBeforeMonth y m := by
  have hleap : isLeap y = isLeapYear y := rfl
  rw [monthStartDays, hleap]
  cases hcase : isLeapYear y <;> interval_cases m <;>
    simp [daysSinceYear, daysSinceLeapyear, daysBeforeMonth, monthLength, hcase]

theorem monthIndex_eq (y yearDay : ℤ) {m : ℕ} (hm : m < 12) :
    monthIndex (monthStartDays y) yearDay m = monthFrom y yearDay m := by
  induction m with
  | zero => rfl
  | succ m ih =>
    rw [monthIndex, monthFrom, monthStartDays_eq y hm, ih (by omega)]
    split_ifs <;> omega

theorem firstDay_1970 : firstDay (12 * 1970) = 0 := by decide

theorem firstDay_2038 : firstDay (12 * 2038) = 24837 := by decide

theorem firstDay_next_le_2038 {day : ℤ} (h : day < 24837) :
    firstDay (monthNumber day + 1) ≤ 24837 := by
  have hnot : ¬ 12 * 2038 ≤ monthNumber day := by
    rw [le_monthNumber_iff, firstDay_2038]
    omega
  rw [← firstDay_2038]
  apply firstDay_strictMono.monotone
  omega

/-- Before 2038 the month of the module is that of the calendar. -/
theorem nextMonthReset_eq (info : NftBandwidthInfo) {t : ℤ} (h0 : 0 ≤ t)
    (h : t < 24837 * 86400) :
    nextMonthReset info t = moduleNext bandwidthMonth info.resetTime t := by
  have hdiv : divS64 t (60 * 60 * 24) = t / 86400 := by
    rw [divS64, bmod_eq_self (by norm_num) (by norm_num), Int.tdiv_eq_ediv_of_nonneg h0]
    norm_num
  obtain ⟨hi2, hi70, hle, hnext⟩ := @yearIndex_spec (t / 86400) (by omega) (by omega)
  have hyear : yearOf (t / 86400) = 2039 - (yearIndex (t / 86400) : ℤ) := by
    rw [yearStart_eq _ hi70] at hle
    have hprev := yearStart_eq (yearIndex (t / 86400) - 1) (by omega)
    rw [Nat.cast_sub (by omega), Nat.cast_one] at hprev
    rw [hprev] at hnext
    exact yearOf_eq hle (by convert hnext using 2; ring)
  have hmonth : monthIndex (monthStartDays (2039 - (yearIndex (t / 86400) : ℤ)))
      (t / 86400 - yearStart (yearIndex (t / 86400))) 11 = monthOf (t / 86400) := by
    rw [monthIndex_eq _ _ (by norm_num), yearStart_eq _ hi70, ← hyear, monthOf]
  have hm : monthOf (t / 86400) < 12 := (monthOf_spec (t / 86400)).1
  have hstart : yearStart (yearIndex (t / 86400)) +
      (monthStartDays (2039 - (yearIndex (t / 86400) : ℤ))).getD (monthOf (t / 86400)) 0 =
        firstDay (monthNumber (t / 86400)) := by
    rw [yearStart_eq _ hi70, monthStartDays_eq _ hm, ← hyear, monthNumber, firstDay_of_year _ hm]
  have hdecember : monthOf (t / 86400) = 11 →
      yearStart ((yearIndex (t / 86400) : ℤ) - 1) = firstDay (monthNumber (t / 86400) + 1) := by
    intro hlast
    have hprev := yearStart_eq (yearIndex (t / 86400) - 1) (by omega)
    rw [Nat.cast_sub (by omega), Nat.cast_one] at hprev
    rw [hprev, monthNumber, firstDay_succ_of_year _ hm, hlast, daysBeforeMonth_twelve, hyear]
    congr 1
    ring
  have hother : monthOf (t / 86400) ≠ 11 → yearStart (yearIndex (t / 86400)) +
      (monthStartDays (2039 - (yearIndex (t / 86400) : ℤ))).getD (monthOf (t / 86400) + 1) 0 =
        firstDay (monthNumber (t / 86400) + 1) := by
    intro hlast
    rw [yearStart_eq _ hi70, monthStartDays_eq _ (by omega), monthNumber,
      firstDay_succ_of_year _ hm, hyear]
  obtain ⟨hlow, hhigh⟩ := monthNumber_spec (t / 86400)
  have hnonneg : 0 ≤ firstDay (monthNumber (t / 86400)) := by
    rw [← firstDay_1970]
    apply firstDay_strictMono.monotone
    rw [le_monthNumber_iff, firstDay_1970]
    omega
  have hlast : firstDay (monthNumber (t / 86400) + 1) ≤ 24837 := firstDay_next_le_2038 (by omega)
  rw [moduleNext, periodStart_month, nextPeriod_month]
  simp only [nextMonthReset, hdiv, hmonth, hstart]
  rw [toInt32, bmod_eq_self (by omega) (by omega)]
  by_cases hdue : t < firstDay (monthNumber (t / 86400)) * 86400 + info.resetTime
  · rw [if_pos (by omega), if_pos hdue]
    omega
  · rw [if_neg (by omega), if_neg hdue]
    split_ifs with hlast
    · rw [hdecember hlast, toInt32, bmod_eq_self (by omega) (by omega)]
      omega
    · rw [hother hlast, toInt32, bmod_eq_self (by omega) (by omega)]
      omega

theorem not_constant {info : NftBandwidthInfo} (hinfo : StmtEvaluated info)
    (hkind : Calendrical info.resetInterval) : info.resetIsConstantInterval = false := by
  by_contra hnot
  have hcases := hinfo.constant_iff.1 (by simpa using hnot)
  have hbounds : bandwidthMinute ≤ info.resetInterval ∧ info.resetInterval ≤ bandwidthNever := by
    generalize info.resetInterval = k at hkind
    cases hkind <;> decide
  omega

/-- The boundaries of the module, by the calendar. -/
theorem boundaryAfter_eq {info : NftBandwidthInfo} (hinfo : StmtEvaluated info)
    (hkind : Calendrical info.resetInterval) {t : ℤ} (h0 : 0 ≤ t)
    (h : info.resetInterval = bandwidthMonth → t < 24837 * 86400) :
    info.boundaryAfter t = moduleNext info.resetInterval info.resetTime t := by
  have hrt := hinfo.time_nonneg
  have hconst := not_constant hinfo hkind
  have hdiv : ∀ k : ℤ, 0 < k → k < 2 ^ 31 → divS64 t k = t / k := by
    intro k hk hk'
    rw [divS64, bmod_eq_self hk.le hk', Int.tdiv_eq_ediv_of_nonneg h0]
  rw [NftBandwidthInfo.boundaryAfter, getNextResetTime, if_pos hconst, moduleNext]
  generalize info.resetInterval = k at *
  cases hkind with
  | minute =>
    rw [if_pos rfl, hdiv 60 (by norm_num) (by norm_num), periodStart_minute, nextPeriod_minute,
      nextPeriodReset_eq hrt (show t - t % 60 ≤ t by omega) (by omega)]
    split_ifs <;> omega
  | hour =>
    rw [if_neg (by decide), if_pos rfl, hdiv (60 * 60) (by norm_num) (by norm_num),
      periodStart_hour, nextPeriod_hour,
      nextPeriodReset_eq hrt (show t - t % 3600 ≤ t by omega) (by omega)]
    split_ifs <;> omega
  | day =>
    rw [if_neg (by decide), if_neg (by decide), if_pos rfl,
      hdiv (60 * 60 * 24) (by norm_num) (by norm_num), periodStart_day, nextPeriod_day,
      nextPeriodReset_eq hrt (show t - t % 86400 ≤ t by omega) (by omega)]
    split_ifs <;> omega
  | week =>
    have hmod : (4 + t / (60 * 60 * 24)).tmod 7 = (4 + t / (60 * 60 * 24)) % 7 :=
      Int.tmod_eq_emod_of_nonneg (by omega)
    rw [if_neg (by decide), if_neg (by decide), if_neg (by decide), if_pos rfl, periodStart_week,
      nextPeriod_week]
    simp only [hdiv (60 * 60 * 24) (by norm_num) (by norm_num), hmod]
    rw [nextPeriodReset_eq hrt (show t - (t + 4 * 86400) % (7 * 86400) ≤ t by omega) (by omega)]
    split_ifs <;> omega
  | month =>
    rw [if_neg (by decide), if_neg (by decide), if_neg (by decide), if_neg (by decide),
      if_pos rfl]
    exact nextMonthReset_eq info h0 (h rfl)

/-- A reset lies inside of its period. -/
theorem period_length {info : NftBandwidthInfo} (hinfo : StmtEvaluated info)
    (hkind : Calendrical info.resetInterval) (t : ℤ) :
    periodStart info.resetInterval t ≤ t ∧
      periodStart info.resetInterval t + info.resetTime < nextPeriod info.resetInterval t := by
  have hminute := hinfo.time_lt_minute
  have hhour := hinfo.time_lt_hour
  have hday := hinfo.time_lt_day
  have hweek := hinfo.time_lt_week
  have hmonth := hinfo.time_lt_month
  generalize info.resetInterval = k at *
  cases hkind with
  | minute =>
    have hrt := hminute rfl
    rw [periodStart_minute, nextPeriod_minute]
    omega
  | hour =>
    have hrt := hhour rfl
    rw [periodStart_hour, nextPeriod_hour]
    omega
  | day =>
    have hrt := hday rfl
    rw [periodStart_day, nextPeriod_day]
    omega
  | week =>
    have hrt := hweek rfl
    rw [periodStart_week, nextPeriod_week]
    omega
  | month =>
    have hrt := hmonth rfl
    have hspec := (monthNumber_spec (t / 86400)).1
    have hlength := firstDay_lt_succ (monthNumber (t / 86400))
    rw [periodStart_month, nextPeriod_month]
    omega

theorem period_eq {resetInterval t t' : ℤ} (hkind : Calendrical resetInterval)
    (hlow : periodStart resetInterval t ≤ t') (hhigh : t' < nextPeriod resetInterval t) :
    periodStart resetInterval t' = periodStart resetInterval t ∧
      nextPeriod resetInterval t' = nextPeriod resetInterval t := by
  cases hkind with
  | minute =>
    simp only [periodStart_minute, nextPeriod_minute] at *
    omega
  | hour =>
    simp only [periodStart_hour, nextPeriod_hour] at *
    omega
  | day =>
    simp only [periodStart_day, nextPeriod_day] at *
    omega
  | week =>
    simp only [periodStart_week, nextPeriod_week] at *
    omega
  | month =>
    simp only [periodStart_month, nextPeriod_month] at *
    rw [monthNumber_eq (by omega : firstDay (monthNumber (t / 86400)) ≤ t' / 86400) (by omega)]
    exact ⟨rfl, rfl⟩

/-! ### Agreement -/

theorem iterate_shift (next : ℤ → ℤ) (c x : ℤ) (i : ℕ) :
    (fun x => next (x - c) + c)^[i] x = next^[i] (x - c) + c := by
  induction i generalizing x with
  | zero => simp
  | succ i ih => rw [Function.iterate_succ_apply, ih, add_sub_cancel_right,
      Function.iterate_succ_apply]

theorem nextPeriod_iterate_month (t : ℤ) (i : ℕ) :
    (nextPeriod bandwidthMonth)^[i + 1] t =
      firstDay (monthNumber (t / 86400) + (i + 1)) * 86400 := by
  induction i with
  | zero => simp
  | succ i ih =>
    have hday : ∀ d : ℤ, d * 86400 / 86400 = d := by
      intro d
      omega
    rw [Function.iterate_succ_apply', ih, nextPeriod_month, hday, monthNumber_firstDay]
    push_cast
    ring_nf

section Agreement

variable {info : NftBandwidthInfo}

/-- Without a reset time the library agrees with the module up to 2038. -/
theorem agree_of_no_reset_time (hinfo : StmtEvaluated info)
    (hkind : Calendrical info.resetInterval) (hzero : info.resetTime = 0) {t : ℤ} (h0 : 0 ≤ t)
    (n : ℕ) :
    (∀ i, 1 ≤ i → i < n → (libraryNext info.resetInterval info.resetTime)^[i] t =
        info.boundaryAfter^[i] t) ↔
      n ≤ 1 ∨ (info.resetInterval = bandwidthMonth →
        monthNumber (t / 86400) + n < 12 * 2038 + 2) := by
  have hnext : libraryNext info.resetInterval info.resetTime = nextPeriod info.resetInterval := by
    funext x
    rw [libraryNext, if_neg (by omega)]
  rw [hnext]
  constructor
  · intro hagree
    by_contra hnot
    push Not at hnot
    obtain ⟨hn, hmonth, hlate⟩ := hnot
    obtain ⟨i, rfl⟩ : ∃ i, n = i + 2 := ⟨n - 2, by omega⟩
    have hlast := hagree (i + 1) (by omega) (by omega)
    have hle := getNextResetTime_le_horizon hinfo hmonth (info.boundaryAfter^[i] t)
      (info.boundaryAfter^[i] t)
    rw [hmonth, nextPeriod_iterate_month, Function.iterate_succ_apply',
      NftBandwidthInfo.boundaryAfter] at hlast
    rw [resetHorizon, hzero] at hle
    have hlater : firstDay (12 * 2038) < firstDay (monthNumber (t / 86400) + (i + 1)) := by
      apply firstDay_strictMono
      push_cast at hlate
      omega
    rw [firstDay_2038] at hlater
    omega
  · intro hcond i hi hin
    have hearly : info.resetInterval = bandwidthMonth →
        monthNumber (t / 86400) + n < 12 * 2038 + 2 := hcond.resolve_left (by omega)
    clear hi hcond
    induction i with
    | zero => rfl
    | succ i ih =>
      have hnonneg : 0 ≤ (nextPeriod info.resetInterval)^[i] t :=
        h0.trans (Function.id_le_iterate_of_id_le
          (fun x => (lt_nextPeriod hkind x).le) i t)
      have hrange : info.resetInterval = bandwidthMonth →
          (nextPeriod info.resetInterval)^[i] t < 24837 * 86400 := by
        intro hmonth
        have hlast := lt_nextPeriod hkind ((nextPeriod info.resetInterval)^[i] t)
        rw [← Function.iterate_succ_apply' (nextPeriod info.resetInterval)] at hlast
        refine hlast.trans_le ?_
        rw [hmonth, nextPeriod_iterate_month, ← firstDay_2038]
        have hmono : firstDay (monthNumber (t / 86400) + (i + 1)) ≤ firstDay (12 * 2038) := by
          apply firstDay_strictMono.monotone
          have := hearly hmonth
          omega
        omega
      have hstart := (period_length hinfo hkind ((nextPeriod info.resetInterval)^[i] t)).1
      rw [Function.iterate_succ_apply', Function.iterate_succ_apply', ← ih (by omega),
        boundaryAfter_eq hinfo hkind hnonneg hrange, moduleNext, if_neg (by omega), hzero,
        add_zero]

theorem add_resetTime_eq_boundaryAfter_iff (hinfo : StmtEvaluated info)
    (hkind : Calendrical info.resetInterval) (hpos : 0 < info.resetTime) {t : ℤ} (h0 : 0 ≤ t) :
    t + info.resetTime = info.boundaryAfter t ↔
      periodStart info.resetInterval t = t ∧
        (info.resetInterval = bandwidthMonth → t ≤ 24837 * 86400) := by
  have hlater := lt_nextPeriod hkind t
  by_cases hrange : info.resetInterval = bandwidthMonth → t < 24837 * 86400
  · rw [boundaryAfter_eq hinfo hkind h0 hrange, moduleNext]
    constructor
    · intro heq
      refine ⟨?_, fun hmonth => (hrange hmonth).le⟩
      split_ifs at heq <;> omega
    · rintro ⟨hphase, -⟩
      rw [if_pos (by omega), hphase]
  · push Not at hrange
    obtain ⟨hmonth, hlate⟩ := hrange
    have hle := getNextResetTime_le_horizon hinfo hmonth t t
    rw [← NftBandwidthInfo.boundaryAfter, resetHorizon] at hle
    constructor
    · intro heq
      have ht : t = 24837 * 86400 := by omega
      refine ⟨?_, fun _ => by omega⟩
      rw [hmonth, ht]
      decide
    · rintro ⟨-, hlast⟩
      have ht : t = 24837 * 86400 := le_antisymm (hlast hmonth) hlate
      have hboundary : info.boundaryAfter t = nextMonthReset info t := by
        rw [NftBandwidthInfo.boundaryAfter, getNextResetTime, if_pos (not_constant hinfo hkind),
          hmonth, if_neg (by decide), if_neg (by decide), if_neg (by decide), if_neg (by decide),
          if_pos rfl]
      have hhorizon : t < resetHorizon info := by
        rw [resetHorizon]
        omega
      rw [hboundary, nextMonthReset_2038 (hinfo.time_lt_month hmonth) (by omega) hhorizon,
        resetHorizon]
      omega

/-- With a reset time the library agrees on one interval at most. -/
theorem agree_of_reset_time (hinfo : StmtEvaluated info)
    (hkind : Calendrical info.resetInterval) (hpos : 0 < info.resetTime) {t : ℤ} (h0 : 0 ≤ t)
    (n : ℕ) :
    (∀ i, 1 ≤ i → i < n → (libraryNext info.resetInterval info.resetTime)^[i] t =
        info.boundaryAfter^[i] t) ↔
      n ≤ 1 ∨ n = 2 ∧ periodStart info.resetInterval t = t ∧
        (info.resetInterval = bandwidthMonth → t ≤ 24837 * 86400) := by
  have hnext : ∀ x, libraryNext info.resetInterval info.resetTime x = x + info.resetTime := by
    intro x
    rw [libraryNext, if_pos hpos]
  obtain ⟨hstart, hlength⟩ := period_length hinfo hkind t
  have hlater := lt_nextPeriod hkind t
  have hhorizon : info.resetInterval = bandwidthMonth → ∀ x,
      info.boundaryAfter x ≤ 24837 * 86400 + info.resetTime := by
    intro hmonth x
    have hle := getNextResetTime_le_horizon hinfo hmonth x x
    rw [resetHorizon] at hle
    rw [NftBandwidthInfo.boundaryAfter]
    omega
  have hfirst := add_resetTime_eq_boundaryAfter_iff hinfo hkind hpos h0
  constructor
  · intro hagree
    by_contra hnot
    have hn : 2 ≤ n := by omega
    have hone := hagree 1 le_rfl (by omega)
    simp only [Function.iterate_one, hnext] at hone
    obtain ⟨hphase, hmonth⟩ := hfirst.1 hone
    have hthree : 2 < n := by
      by_contra hle
      exact hnot (Or.inr ⟨by omega, hphase, hmonth⟩)
    have htwo := hagree 2 (by omega) hthree
    simp only [Function.iterate_succ_apply', Function.iterate_zero_apply, hnext, ← hone] at htwo
    by_cases hrange : info.resetInterval = bandwidthMonth → t + info.resetTime < 24837 * 86400
    · obtain ⟨hsame, hsame'⟩ := @period_eq info.resetInterval t (t + info.resetTime) hkind
        (by omega) (by omega)
      rw [boundaryAfter_eq hinfo hkind (by omega) hrange, moduleNext, hsame, hsame', hphase,
        if_neg (by omega)] at htwo
      omega
    · push Not at hrange
      have hle := hhorizon hrange.1 (t + info.resetTime)
      have hend := firstDay_next_le_2038 (show t / 86400 < 24837 by omega)
      rw [hphase, hrange.1, nextPeriod_month] at hlength
      omega
  · rintro (hn | ⟨rfl, hcond⟩) i hi hin
    · omega
    · obtain rfl : i = 1 := by omega
      simp only [Function.iterate_one, hnext]
      exact hfirst.2 hcond

end Agreement

/-- In a zone with a fixed offset the start times that the library computes are
the boundaries of the module exactly if there is no second node, or no reset
time and no boundary after the start of 2038 for a monthly rule, or a single
boundary after a start on the very start of a period. -/
theorem starts_are_boundaries_iff {info : NftBandwidthInfo} (hinfo : StmtEvaluated info)
    (hkind : Calendrical info.resetInterval) {west : ℤ} {h : IpBwHistory}
    (hinterval : h.resetInterval = info.resetInterval) (htime : h.resetTime = info.resetTime)
    (hconstant : h.isConstantInterval = info.resetIsConstantInterval)
    (hfirst : 0 ≤ h.firstStart - 60 * west) :
    let t := h.firstStart - 60 * west
    let n := h.historyBws.length
    ∃ starts, getIntervalStartsForHistory west h = some starts ∧ starts.length = n ∧
      ((∀ i, 1 ≤ i → i < n → starts[i]? = some (info.boundaryAfter^[i] t + 60 * west)) ↔
        n ≤ 1 ∨
        info.resetTime = 0 ∧ (info.resetInterval = bandwidthMonth →
          monthNumber (t / 86400) + n < 12 * 2038 + 2) ∨
        n = 2 ∧ 0 < info.resetTime ∧ periodStart info.resetInterval t = t ∧
          (info.resetInterval = bandwidthMonth → t ≤ 24837 * 86400)) := by
  intro t n
  have hrt := hinfo.time_nonneg
  refine ⟨_, getIntervalStartsForHistory_eq (hinterval ▸ hkind)
    (hconstant.trans (not_constant hinfo hkind)) (htime ▸ hrt), List.length_iterate _ _ _, ?_⟩
  have hstarts : (∀ i, 1 ≤ i → i < n → (List.iterate
      (fun x => libraryNext h.resetInterval h.resetTime (x - 60 * west) + 60 * west)
        h.firstStart n)[i]? = some (info.boundaryAfter^[i] t + 60 * west)) ↔
      ∀ i, 1 ≤ i → i < n → (libraryNext info.resetInterval info.resetTime)^[i] t =
        info.boundaryAfter^[i] t := by
    refine forall_congr' fun i => forall_congr' fun _ => forall_congr' fun hin => ?_
    rw [List.getElem?_iterate _ _ n i hin, iterate_shift, hinterval, htime, Option.some_inj,
      add_left_inj]
  refine hstarts.trans ?_
  rcases hrt.eq_or_lt with hzero | hpos
  · rw [agree_of_no_reset_time hinfo hkind hzero.symm hfirst]
    constructor
    · rintro (hn | hmonth)
      · exact .inl hn
      · exact .inr (.inl ⟨hzero.symm, hmonth⟩)
    · rintro (hn | ⟨-, hmonth⟩ | ⟨-, hpos, -⟩)
      · exact .inl hn
      · exact .inr hmonth
      · omega
  · rw [agree_of_reset_time hinfo hkind hpos hfirst]
    constructor
    · rintro (hn | ⟨hn, hcond⟩)
      · exact .inl hn
      · exact .inr (.inr ⟨hn, hpos, hcond⟩)
    · rintro (hn | ⟨hzero, -⟩ | ⟨hn, -, hcond⟩)
      · exact .inl hn
      · omega
      · exact .inr ⟨hn, hcond⟩

def dailyFrom (resetTime : ℤ) : NftBandwidthInfo :=
  { id := "daily", type := .individualSrc, checkType := .noswap, localSubnet := 0,
    localSubnetMask := 0, localSubnet6 := 0, localSubnet6Mask := 0, cmp := .monitor,
    resetIsConstantInterval := false, resetInterval := bandwidthDay, resetTime := resetTime,
    bandwidthCutoff := 0, currentBandwidth := 0, nextReset := 0, previousReset := 0,
    lastBackupTime := 0, numIntervalsToSave := 15, iam := none, combinedBw := none }

def twoDaysFrom (resetTime : ℤ) : IpBwHistory :=
  { family := 2, ip := 0, resetInterval := bandwidthDay, resetTime := resetTime,
    isConstantInterval := false, firstStart := 19723 * 86400 + resetTime,
    firstEnd := 19724 * 86400 + resetTime, lastEnd := 19724 * 86400 + resetTime,
    historyBws := [1000, 2000] }

theorem stmtEvaluated_dailyFrom {resetTime : ℤ} (h0 : 0 ≤ resetTime) (h : resetTime < 86400) :
    StmtEvaluated (dailyFrom resetTime) where
  interval_pos := show 0 < bandwidthDay by decide
  constant_iff := show false = true ↔ bandwidthDay < bandwidthMinute ∨ bandwidthNever < bandwidthDay
    by decide
  time_nonneg := h0
  time_lt_minute := fun hkind => absurd hkind (show bandwidthDay ≠ bandwidthMinute by decide)
  time_lt_hour := fun hkind => absurd hkind (show bandwidthDay ≠ bandwidthHour by decide)
  time_lt_day := fun _ => h
  time_lt_week := fun hkind => absurd hkind (show bandwidthDay ≠ bandwidthWeek by decide)
  time_lt_month := fun hkind => absurd hkind (show bandwidthDay ≠ bandwidthMonth by decide)
  time_never := fun hkind => absurd hkind (show bandwidthDay ≠ bandwidthNever by decide)
  next_unset := rfl

/-- A rule that counts from midnight on. -/
theorem starts_are_boundaries_at_midnight :
    ∃ starts, getIntervalStartsForHistory 0 (twoDaysFrom 0) = some starts ∧ starts.length = 2 ∧
      ∀ i, 1 ≤ i → i < 2 →
        starts[i]? = some ((dailyFrom 0).boundaryAfter^[i] (19723 * 86400) + 60 * 0) := by
  obtain ⟨starts, hstarts, hlength, hiff⟩ := @starts_are_boundaries_iff (dailyFrom 0)
    (stmtEvaluated_dailyFrom le_rfl (by norm_num)) Calendrical.day 0 (twoDaysFrom 0) rfl rfl rfl
    (by decide)
  exact ⟨starts, hstarts, hlength, hiff.2 (Or.inr (.inl ⟨rfl, fun hkind =>
    absurd hkind (by decide)⟩))⟩

/-- A rule that counts from one o'clock on: the library takes the second day to
begin an hour after the first. -/
theorem second_day_starts_an_hour_later :
    StmtEvaluated (dailyFrom 3600) ∧
      getIntervalStartsForHistory 0 (twoDaysFrom 3600) =
        some [19723 * 86400 + 3600, 19723 * 86400 + 7200] ∧
      (dailyFrom 3600).boundaryAfter^[1] (19723 * 86400 + 3600 - 60 * 0) + 60 * 0 =
        19724 * 86400 + 3600 :=
  ⟨stmtEvaluated_dailyFrom (by norm_num) (by norm_num), by decide, by decide⟩

end Bwctl

end Gargoyle
