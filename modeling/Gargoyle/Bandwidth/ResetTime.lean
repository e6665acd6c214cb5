import Mathlib.Data.List.GetD
import Mathlib.Tactic.IntervalCases
import Gargoyle.Bandwidth.Defs

/-!
# When the counters of a rule are next reset

`getNextResetTime info now previousReset` is `get_next_reset_time`. The rules
that count by minute, hour, day and week share one shape, `nextPeriodReset`;
monthly rules look the month up in the tables below, in 32-bit arithmetic; a
rule with a constant interval steps forward from its reset time or from its
previous reset. The part of the source that shifts the reset time by the time
zone does not enter its result and is left out.

The last section shows that the next reset lies after `now` for every rule that
the `nft` front end lets through.
-/

namespace Gargoyle

open List

namespace Bandwidth

/-- `div_s64`: the divisor is a 32-bit integer and the quotient is rounded
towards zero. -/
def divS64 (dividend divisor : ℤ) : ℤ := dividend.tdiv (divisor.bmod (2 ^ 32))

/-- The value a computation in `int` leaves. -/
def toInt32 (x : ℤ) : ℤ := x.bmod (2 ^ 32)

def daysSinceYear : List ℤ :=
  [0, 31, 59, 90, 120, 151, 181, 212, 243, 273, 304, 334]

def daysSinceLeapyear : List ℤ :=
  [0, 31, 60, 91, 121, 152, 182, 213, 244, 274, 305, 335]

def daysSinceEpochForEachYearStart : List ℤ :=
  [25202, 24837, 24472, 24106, 23741, 23376, 23011, 22645, 22280, 21915,
   21550, 21184, 20819, 20454, 20089, 19723, 19358, 18993, 18628, 18262,
   17897, 17532, 17167, 16801, 16436, 16071, 15706, 15340, 14975, 14610,
   14245, 13879, 13514, 13149, 12784, 12418, 12053, 11688, 11323, 10957,
   10592, 10227, 9862, 9496, 9131, 8766, 8401, 8035, 7670, 7305,
   6940, 6574, 6209, 5844, 5479, 5113, 4748, 4383, 4018, 3652,
   3287, 2922, 2557, 2191, 1826, 1461, 1096, 730, 365, 0]

/-- The entry of the year table at an index of type `int`; zero stands for what
lies outside the table. -/
def yearStart (i : ℤ) : ℤ :=
  if 0 ≤ i then daysSinceEpochForEachYearStart.getD i.toNat 0 else 0

def isLeap (y : ℤ) : Bool := y % 4 = 0 && (y % 100 ≠ 0 || y % 400 = 0)

def monthStartDays (year : ℤ) : List ℤ :=
  if isLeap year then daysSinceLeapyear else daysSinceYear

/-- The first index of the year table that is not after `days`. -/
def yearIndex (days : ℤ) : ℕ :=
  daysSinceEpochForEachYearStart.findIdx fun d => decide (d ≤ days)

/-- The search for the month downwards from the month `m`. -/
def monthIndex (starts : List ℤ) (yearDay : ℤ) : ℕ → ℕ
  | 0 => 0
  | m + 1 => if starts.getD (m + 1) 0 > yearDay then monthIndex starts yearDay m else m + 1

/-- The reset of a period that ends at `periodEnd`, moved by the reset time. -/
def nextPeriodReset (info : NftBandwidthInfo) (now period periodEnd : ℤ) : ℤ :=
  if info.resetTime > 0 then
    let altReset := periodEnd + info.resetTime - period
    if altReset > now then altReset else periodEnd + info.resetTime
  else periodEnd

/-- The monthly branch of `get_next_reset_time`. -/
def nextMonthReset (info : NftBandwidthInfo) (now : ℤ) : ℤ :=
  let days := divS64 now (60 * 60 * 24)
  let yi : ℤ := yearIndex days
  let yearDay := days - yearStart yi
  let starts := monthStartDays (2039 - yi)
  let month := monthIndex starts yearDay 11
  let altReset :=
    toInt32 ((yearStart yi + starts.getD month 0) * (60 * 60 * 24)) + info.resetTime
  if altReset > now then altReset
  else if month = 11 then
    toInt32 (yearStart (yi - 1) * (60 * 60 * 24)) + info.resetTime
  else
    toInt32 ((yearStart yi + starts.getD (month + 1) 0) * (60 * 60 * 24)) + info.resetTime

/-- `while(next_reset <= now) next_reset += reset_interval`, for a bounded
number of rounds. -/
def advancePast (interval now : ℤ) : ℕ → ℤ → ℤ
  | 0, t => t
  | n + 1, t => if t ≤ now then advancePast interval now n (t + interval) else t

def advance (interval now t : ℤ) : ℤ := advancePast interval now ((now - t).toNat + 1) t

/-- The branch of `get_next_reset_time` for a constant interval. -/
def nextConstantReset (info : NftBandwidthInfo) (now previousReset : ℤ) : ℤ :=
  if info.resetTime > 0 ∧ previousReset > 0 ∧ previousReset ≤ now then
    if info.resetTime > now then
      let wholeIntervals := divS64 (info.resetTime - now) info.resetInterval + 1
      advance info.resetInterval now (info.resetTime - wholeIntervals * info.resetInterval)
    else
      let wholeIntervals := divS64 (now - info.resetTime) info.resetInterval
      advance info.resetInterval now (info.resetTime + wholeIntervals * info.resetInterval)
  else if previousReset > 0 then
    if previousReset ≤ now then
      let wholeIntervals := divS64 (now - previousReset) info.resetInterval
      advance info.resetInterval now (previousReset + wholeIntervals * info.resetInterval)
    else previousReset
  else now + info.resetInterval

def getNextResetTime (info : NftBandwidthInfo) (now previousReset : ℤ) : ℤ :=
  if info.resetIsConstantInterval = false then
    if info.resetInterval = bandwidthMinute then
      nextPeriodReset info now 60 ((divS64 now 60 + 1) * 60)
    else if info.resetInterval = bandwidthHour then
      nextPeriodReset info now (60 * 60) ((divS64 now (60 * 60) + 1) * 60 * 60)
    else if info.resetInterval = bandwidthDay then
      nextPeriodReset info now (60 * 60 * 24) ((divS64 now (60 * 60 * 24) + 1) * 60 * 60 * 24)
    else if info.resetInterval = bandwidthWeek then
      let days := divS64 now (60 * 60 * 24)
      let currentWeekday := (4 + days).tmod 7
      nextPeriodReset info now (60 * 60 * 24 * 7) ((days + (7 - currentWeekday)) * (60 * 60 * 24))
    else if info.resetInterval = bandwidthMonth then nextMonthReset info now
    else 0
  else nextConstantReset info now previousReset

/-- The loop of `get_nominal_previous_reset_time`, which goes back in steps of
half an interval until it meets an earlier reset. -/
def nominalPreviousLoop (info : NftBandwidthInfo) (currentNextReset halfInterval : ℤ) :
    ℕ → ℤ → ℤ → ℤ
  | 0, _, previousReset => previousReset
  | n + 1, halfCount, previousReset =>
    if previousReset ≥ currentNextReset then
      nominalPreviousLoop info currentNextReset halfInterval n (halfCount + 1)
        (getNextResetTime info (currentNextReset - halfCount * halfInterval) 0)
    else previousReset

def getNominalPreviousResetTime (info : NftBandwidthInfo) (currentNextReset : ℤ) : ℤ :=
  if info.resetIsConstantInterval = false then
    let next := getNextResetTime info currentNextReset 0
    let half := divS64 (next - currentNextReset) 2
    let halfInterval := if half = 0 then 1 else half
    nominalPreviousLoop info currentNextReset halfInterval (currentNextReset.toNat + 3) 1
      currentNextReset
  else currentNextReset - info.resetInterval

/-! ## The next reset lies ahead -/

/-- What `stmt_evaluate_bandwidth` makes sure of before a rule is sent to the
kernel: the interval is one of the named ones or a positive number of seconds,
the reset time lies inside a named interval, and the time of the next reset is
left for the module to fill in. -/
structure StmtEvaluated (info : NftBandwidthInfo) : Prop where
  interval_pos : 0 < info.resetInterval
  constant_iff : info.resetIsConstantInterval = true ↔
    info.resetInterval < bandwidthMinute ∨ bandwidthNever < info.resetInterval
  time_nonneg : 0 ≤ info.resetTime
  time_lt_minute : info.resetInterval = bandwidthMinute → info.resetTime < 60
  time_lt_hour : info.resetInterval = bandwidthHour → info.resetTime < 60 * 60
  time_lt_day : info.resetInterval = bandwidthDay → info.resetTime < 60 * 60 * 24
  time_lt_week : info.resetInterval = bandwidthWeek → info.resetTime < 60 * 60 * 24 * 7
  time_lt_month : info.resetInterval = bandwidthMonth → info.resetTime < 60 * 60 * 24 * 28
  time_never : info.resetInterval = bandwidthNever → info.resetTime = 0
  next_unset : info.nextReset = 0

theorem lt_advancePast {interval now : ℤ} (hpos : 0 < interval) (n : ℕ) (t : ℤ)
    (h : now - t < n) : now < advancePast interval now n t := by
  induction n generalizing t with
  | zero => simpa [advancePast] using h
  | succ n ih =>
    rw [advancePast]
    split_ifs with hle
    · exact ih (t + interval) (by push_cast at h; omega)
    · omega

theorem lt_advance {interval now : ℤ} (hpos : 0 < interval) (t : ℤ) :
    now < advance interval now t := by
  apply lt_advancePast hpos
  omega

theorem lt_nextConstantReset {info : NftBandwidthInfo} (hpos : 0 < info.resetInterval)
    (now previousReset : ℤ) : now < nextConstantReset info now previousReset := by
  unfold nextConstantReset
  split_ifs
  · exact lt_advance hpos _
  · exact lt_advance hpos _
  · exact lt_advance hpos _
  · omega
  · omega

theorem lt_nextPeriodReset {info : NftBandwidthInfo} {now periodEnd : ℤ} (period : ℤ)
    (h : now < periodEnd) : now < nextPeriodReset info now period periodEnd := by
  simp only [nextPeriodReset]
  split_ifs with hpos hlater
  · exact hlater
  · omega
  · exact h

theorem bmod_eq_self {k : ℤ} (hk : 0 ≤ k) (hk' : k < 2 ^ 31) : k.bmod (2 ^ 32) = k := by
  apply Int.bmod_eq_of_le <;> omega

theorem lt_divS64_succ_mul (now : ℤ) {k : ℤ} (hk : 0 < k) (hk' : k < 2 ^ 31) :
    now < (divS64 now k + 1) * k := by
  rw [divS64, bmod_eq_self hk.le hk']
  exact Int.lt_tdiv_add_one_mul_self now hk

/-- The year of a day, found in the table. -/
theorem yearIndex_spec {days : ℤ} (h0 : 0 ≤ days) (h : days < 24837) :
    2 ≤ yearIndex days ∧ yearIndex days < 70 ∧ yearStart (yearIndex days) ≤ days ∧
      days < yearStart ((yearIndex days : ℤ) - 1) := by
  have hlen : daysSinceEpochForEachYearStart.length = 70 := rfl
  have hlt : yearIndex days < daysSinceEpochForEachYearStart.length := by
    apply findIdx_lt_length_of_exists
    exact ⟨0, by decide, by simpa using h0⟩
  have hfound : daysSinceEpochForEachYearStart.getD (yearIndex days) 0 ≤ days := by
    rw [getD_eq_getElem _ _ hlt]
    exact of_decide_eq_true (findIdx_getElem (w := hlt))
  have hbefore : ∀ j (hj : j < yearIndex days),
      ¬ daysSinceEpochForEachYearStart.getD j 0 ≤ days := by
    intro j hj hle
    have hnot := not_of_lt_findIdx hj
    have hjlen : j < daysSinceEpochForEachYearStart.length := by omega
    rw [getD_eq_getElem _ _ hjlen] at hle
    simp [hle] at hnot
  have htwo : 2 ≤ yearIndex days := by
    by_contra hlt2
    have hcases : yearIndex days = 0 ∨ yearIndex days = 1 := by omega
    rcases hcases with hi | hi <;> rw [hi] at hfound <;>
      simp [daysSinceEpochForEachYearStart] at hfound <;> omega
  refine ⟨htwo, by omega, ?_, ?_⟩
  · rw [yearStart, if_pos (by omega), Int.toNat_natCast]
    exact hfound
  · have hprev := hbefore (yearIndex days - 1) (by omega)
    have hcast : ((yearIndex days : ℤ) - 1).toNat = yearIndex days - 1 := by omega
    rw [yearStart, if_pos (by omega), hcast]
    omega

theorem monthIndex_le (starts : List ℤ) (yearDay : ℤ) (m : ℕ) :
    monthIndex starts yearDay m ≤ m := by
  induction m with
  | zero => exact le_rfl
  | succ m ih =>
    rw [monthIndex]
    split_ifs <;> omega

theorem monthIndex_next (starts : List ℤ) (yearDay : ℤ) (m : ℕ) :
    monthIndex starts yearDay m = m ∨
      yearDay < starts.getD (monthIndex starts yearDay m + 1) 0 := by
  induction m with
  | zero => exact .inl rfl
  | succ m ih =>
    rw [monthIndex]
    split_ifs with hlt
    · rcases ih with ih | ih
      · rw [ih]
        exact .inr hlt
      · exact .inr ih
    · exact .inl rfl

theorem monthStartDays_bounds (year : ℤ) {m : ℕ} (hm : m ≤ 11) :
    0 ≤ (monthStartDays year).getD m 0 ∧ (monthStartDays year).getD m 0 ≤ 335 := by
  unfold monthStartDays
  split_ifs
  · interval_cases m <;> decide
  · interval_cases m <;> decide

theorem yearStart_bounds {i : ℕ} (h : 1 ≤ i) (h' : i < 70) :
    0 ≤ yearStart i ∧ yearStart i ≤ 24837 ∧ (2 ≤ i → yearStart i ≤ 24472) := by
  interval_cases i <;> decide

/-- Before 2038 the next month is in the future. -/
theorem lt_nextMonthReset {info : NftBandwidthInfo} (hrt : 0 ≤ info.resetTime) {now : ℤ}
    (h0 : 0 ≤ now) (h : now < 24837 * (60 * 60 * 24)) : now < nextMonthReset info now := by
  have hdays : now < (divS64 now (60 * 60 * 24) + 1) * (60 * 60 * 24) :=
    lt_divS64_succ_mul now (by norm_num) (by norm_num)
  have hdiv : divS64 now (60 * 60 * 24) = now / (60 * 60 * 24) := by
    rw [divS64, bmod_eq_self (by norm_num) (by norm_num), Int.tdiv_eq_ediv_of_nonneg h0]
  have hd0 : 0 ≤ divS64 now (60 * 60 * 24) := by omega
  have hd : divS64 now (60 * 60 * 24) < 24837 := by omega
  obtain ⟨hi2, hi70, hle, hnext⟩ := yearIndex_spec hd0 hd
  simp only [nextMonthReset]
  generalize hyi : yearIndex (divS64 now (60 * 60 * 24)) = yi at *
  generalize hm : monthIndex (monthStartDays (2039 - (yi : ℤ)))
    (divS64 now (60 * 60 * 24) - yearStart yi) 11 = month
  have hmle : month ≤ 11 := hm ▸ monthIndex_le _ _ 11
  have hys := yearStart_bounds (i := yi) (by omega) hi70
  have hyprev := yearStart_bounds (i := yi - 1) (by omega) (by omega)
  rw [Nat.cast_sub (by omega), Nat.cast_one] at hyprev
  split_ifs with hlater h11
  · exact hlater
  · -- December: the next reset is counted from the start of the following year
    rw [toInt32, bmod_eq_self (by omega) (by omega)]
    omega
  · -- any other month ends before the year does
    have hmn := monthIndex_next (monthStartDays (2039 - (yi : ℤ)))
      (divS64 now (60 * 60 * 24) - yearStart yi) 11
    rw [hm] at hmn
    have hms := monthStartDays_bounds (2039 - (yi : ℤ)) (m := month + 1) (by omega)
    have hmlt := hmn.resolve_left h11
    rw [toInt32, bmod_eq_self (by omega) (by omega)]
    omega

def resetHorizon (info : NftBandwidthInfo) : ℤ := 24837 * (60 * 60 * 24) + info.resetTime

theorem toInt32_month_le : ∀ i < 71, ∀ m < 12,
    toInt32 ((yearStart (i : ℕ) + (monthStartDays (2039 - (i : ℕ))).getD m 0) * (60 * 60 * 24)) ≤
      24837 * (60 * 60 * 24) := by
  decide

theorem toInt32_year_le : ∀ i < 71,
    toInt32 (yearStart ((i : ℕ) - 1) * (60 * 60 * 24)) ≤ 24837 * (60 * 60 * 24) := by
  decide

theorem yearIndex_lt (days : ℤ) : yearIndex days < 71 := by
  have hle : yearIndex days ≤ daysSinceEpochForEachYearStart.length := findIdx_le_length
  have hlen : daysSinceEpochForEachYearStart.length = 70 := rfl
  omega

theorem nextMonthReset_le (info : NftBandwidthInfo) (now : ℤ) :
    nextMonthReset info now ≤ resetHorizon info := by
  have hi := yearIndex_lt (divS64 now (60 * 60 * 24))
  have hm := monthIndex_le (monthStartDays (2039 - (yearIndex (divS64 now (60 * 60 * 24)) : ℤ)))
    (divS64 now (60 * 60 * 24) - yearStart (yearIndex (divS64 now (60 * 60 * 24)))) 11
  simp only [nextMonthReset, resetHorizon]
  split_ifs with hlater h11
  · have := toInt32_month_le _ hi _ (Nat.lt_succ_of_le hm)
    omega
  · have := toInt32_year_le _ hi
    omega
  · have := toInt32_month_le _ hi
      (monthIndex (monthStartDays (2039 - (yearIndex (divS64 now (60 * 60 * 24)) : ℤ)))
        (divS64 now (60 * 60 * 24) - yearStart (yearIndex (divS64 now (60 * 60 * 24)))) 11 + 1)
      (by omega)
    omega

theorem monthIndex_eq_zero {starts : List ℤ} {yearDay : ℤ} (m : ℕ)
    (h : ∀ j, 1 ≤ j → j ≤ m → yearDay < starts.getD j 0) : monthIndex starts yearDay m = 0 := by
  induction m with
  | zero => rfl
  | succ m ih =>
    rw [monthIndex, if_pos (h (m + 1) (by omega) le_rfl)]
    exact ih fun j h₁ h₂ => h j h₁ (by omega)

theorem yearIndex_2038 {days : ℤ} (h : 24837 ≤ days) (h' : days < 25202) : yearIndex days = 1 := by
  have hnot : ¬ 25202 ≤ days := by omega
  simp [yearIndex, daysSinceEpochForEachYearStart, findIdx_cons, hnot, h]

theorem nextMonthReset_2038 {info : NftBandwidthInfo}
    (hrt : info.resetTime < 60 * 60 * 24 * 28) {now : ℤ} (h0 : 24837 * (60 * 60 * 24) ≤ now)
    (h : now < resetHorizon info) : nextMonthReset info now = resetHorizon info := by
  rw [resetHorizon] at h ⊢
  have hdiv : divS64 now (60 * 60 * 24) = now / (60 * 60 * 24) := by
    rw [divS64, bmod_eq_self (by norm_num) (by norm_num), Int.tdiv_eq_ediv_of_nonneg (by omega)]
  have hyear : yearIndex (divS64 now (60 * 60 * 24)) = 1 :=
    yearIndex_2038 (by omega) (by omega)
  have hmonth : monthIndex (monthStartDays (2039 - ((1 : ℕ) : ℤ)))
      (divS64 now (60 * 60 * 24) - yearStart ((1 : ℕ) : ℤ)) 11 = 0 := by
    apply monthIndex_eq_zero
    have hyd : divS64 now (60 * 60 * 24) - yearStart ((1 : ℕ) : ℤ) < 28 := by
      have : yearStart ((1 : ℕ) : ℤ) = 24837 := by decide
      omega
    intro j h₁ h₂
    have hstart : 28 < (monthStartDays (2039 - ((1 : ℕ) : ℤ))).getD j 0 := by
      interval_cases j <;> decide
    omega
  have hstart : toInt32 ((yearStart ((1 : ℕ) : ℤ) +
      (monthStartDays (2039 - ((1 : ℕ) : ℤ))).getD 0 0) * (60 * 60 * 24)) =
        24837 * (60 * 60 * 24) := by
    decide
  simp only [nextMonthReset, hyear, hmonth, hstart]
  rw [if_pos h]

/-- The next reset is in the future if the next month is. -/
theorem lt_getNextResetTime_of_month {info : NftBandwidthInfo} (hinfo : StmtEvaluated info)
    (hnever : info.resetInterval ≠ bandwidthNever) {now : ℤ}
    (hmonth : info.resetInterval = bandwidthMonth → now < nextMonthReset info now)
    (previousReset : ℤ) : now < getNextResetTime info now previousReset := by
  unfold getNextResetTime
  split_ifs with hconst hmin hhour hday hweek hmon
  · exact lt_nextPeriodReset _ (lt_divS64_succ_mul now (by norm_num) (by norm_num))
  · apply lt_nextPeriodReset
    have := lt_divS64_succ_mul now (k := 60 * 60) (by norm_num) (by norm_num)
    omega
  · apply lt_nextPeriodReset
    have := lt_divS64_succ_mul now (k := 60 * 60 * 24) (by norm_num) (by norm_num)
    omega
  · apply lt_nextPeriodReset
    have hlt := lt_divS64_succ_mul now (k := 60 * 60 * 24) (by norm_num) (by norm_num)
    have hwd := Int.tmod_lt_of_pos (4 + divS64 now (60 * 60 * 24)) (show (0 : ℤ) < 7 by norm_num)
    omega
  · exact hmonth hmon
  · exfalso
    have hnot : ¬ (info.resetInterval < bandwidthMinute ∨ bandwidthNever < info.resetInterval) := by
      rw [← hinfo.constant_iff, hconst]
      simp
    simp only [bandwidthMinute, bandwidthHour, bandwidthDay, bandwidthWeek, bandwidthMonth,
      bandwidthNever] at *
    omega
  · exact lt_nextConstantReset hinfo.interval_pos now previousReset

theorem lt_getNextResetTime_of_horizon {info : NftBandwidthInfo} (hinfo : StmtEvaluated info)
    (hnever : info.resetInterval ≠ bandwidthNever) {now : ℤ} (h0 : 0 ≤ now)
    (hmonth : info.resetInterval = bandwidthMonth → now < resetHorizon info)
    (previousReset : ℤ) : now < getNextResetTime info now previousReset := by
  refine lt_getNextResetTime_of_month hinfo hnever (fun hmon => ?_) previousReset
  by_cases h2038 : now < 24837 * (60 * 60 * 24)
  · exact lt_nextMonthReset hinfo.time_nonneg h0 h2038
  · rw [nextMonthReset_2038 (hinfo.time_lt_month hmon) (not_lt.1 h2038) (hmonth hmon)]
    exact hmonth hmon

theorem getNextResetTime_le_horizon {info : NftBandwidthInfo} (hinfo : StmtEvaluated info)
    (hmonth : info.resetInterval = bandwidthMonth) (now previousReset : ℤ) :
    getNextResetTime info now previousReset ≤ resetHorizon info := by
  have hconst : info.resetIsConstantInterval = false := by
    by_contra hnot
    have hcases := hinfo.constant_iff.1 (by simpa using hnot)
    rw [hmonth] at hcases
    exact absurd hcases (by decide)
  have hother : bandwidthMonth ≠ bandwidthMinute ∧ bandwidthMonth ≠ bandwidthHour ∧
      bandwidthMonth ≠ bandwidthDay ∧ bandwidthMonth ≠ bandwidthWeek := by
    decide
  obtain ⟨hmin, hhour, hday, hweek⟩ := hother
  rw [getNextResetTime, if_pos hconst, hmonth, if_neg hmin, if_neg hhour, if_neg hday,
    if_neg hweek, if_pos rfl]
  exact nextMonthReset_le info now

theorem getNextResetTime_of_never {info : NftBandwidthInfo} (hinfo : StmtEvaluated info)
    (hnever : info.resetInterval = bandwidthNever) (now previousReset : ℤ) :
    getNextResetTime info now previousReset = 0 := by
  have hconst : info.resetIsConstantInterval = false := by
    by_contra hnot
    have hcases := hinfo.constant_iff.1 (by simpa using hnot)
    rw [hnever] at hcases
    exact absurd hcases (by decide)
  rw [getNextResetTime, if_pos hconst, hnever]
  rfl

def InResetRange (info : NftBandwidthInfo) (now : ℤ) : Prop :=
  0 ≤ now ∧ (info.resetInterval = bandwidthMonth → now < 24837 * (60 * 60 * 24))

theorem lt_getNextResetTime {info : NftBandwidthInfo} (hinfo : StmtEvaluated info)
    (hnever : info.resetInterval ≠ bandwidthNever) {now : ℤ} (hnow : InResetRange info now)
    (previousReset : ℤ) : now < getNextResetTime info now previousReset := by
  refine lt_getNextResetTime_of_month hinfo hnever (fun hmon => ?_) previousReset
  exact lt_nextMonthReset hinfo.time_nonneg hnow.1 (hnow.2 hmon)

end Bandwidth

end Gargoyle
