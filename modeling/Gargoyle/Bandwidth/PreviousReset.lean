import Gargoyle.Bandwidth.NextReset

/-!
# Monthly resets

The monthly branch of `get_next_reset_time` looks the month up in tables which go
from 1970 to 2039. With each read of a table checked (`nextMonthResetChecked`) it
stays inside the tables up to the end of November 2039.

The seconds of a day are multiplied in 32 bits, which hold no month after January
2038. Up to the reset of that month the branch returns the first reset after
`now`, and from it on it does not.
-/

namespace Gargoyle

namespace Bandwidth

open Bwctl Calendar

/-! ## Reads of the tables -/

theorem readTable_of_lt {table : List ℤ} {i : ℕ} (h : i < table.length) :
    readTable table i = some (table.getD i 0) := by
  rw [readTable, if_pos (Int.natCast_nonneg i), Int.toNat_natCast, List.getD_eq_getElem _ _ h,
    List.getElem?_eq_getElem h]

theorem readYear_of_lt {i : ℕ} (h : i < 70) :
    readTable daysSinceEpochForEachYearStart i = some (yearStart i) := by
  rw [readTable_of_lt (show i < daysSinceEpochForEachYearStart.length from h), yearStart,
    if_pos (Int.natCast_nonneg i), Int.toNat_natCast]

theorem length_monthStartDays (year : ℤ) : (monthStartDays year).length = 12 := by
  unfold monthStartDays
  split_ifs <;> rfl

theorem findYear_eq (days : ℤ) (table : List ℤ) (i : ℕ) (h : ∃ d ∈ table, d ≤ days) :
    findYear days table i = some (i + table.findIdx fun d => decide (d ≤ days)) := by
  induction table generalizing i with
  | nil => simp at h
  | cons d ds ih =>
    rw [findYear, List.findIdx_cons]
    by_cases hd : d ≤ days
    · simp [hd]
    · have hrest : ∃ d' ∈ ds, d' ≤ days := by
        obtain ⟨d', hmem, hle⟩ := h
        rcases List.mem_cons.1 hmem with rfl | hmem
        · exact absurd hle hd
        · exact ⟨d', hmem, hle⟩
      rw [if_pos (not_le.1 hd), ih (i + 1) hrest]
      simp only [hd, decide_false, cond_false]
      congr 1
      omega

theorem findMonth_eq (starts : List ℤ) (yearDay : ℤ) {m : ℕ} (h : m < starts.length) :
    findMonth starts yearDay m = some (monthIndex starts yearDay m) := by
  induction m with
  | zero => rfl
  | succ m ih =>
    rw [findMonth, readTable_of_lt h, monthIndex, Option.bind_eq_bind, Option.bind_some,
      ih (by omega)]
    split_ifs <;> rfl

theorem monthIndex_start_le {starts : List ℤ} {yearDay : ℤ} {m : ℕ}
    (hstart : starts.getD 0 0 ≤ yearDay) :
    starts.getD (monthIndex starts yearDay m) 0 ≤ yearDay := by
  induction m with
  | zero => exact hstart
  | succ m ih =>
    rw [monthIndex]
    split_ifs with hlt
    · exact ih
    · omega

theorem toInt32_bounds (x : ℤ) : -2 ^ 31 ≤ toInt32 x ∧ toInt32 x < 2 ^ 31 := by
  have hlow := @Int.le_bmod x (2 ^ 32) (by norm_num)
  have hhigh := @Int.bmod_lt x (2 ^ 32) (by norm_num)
  rw [toInt32]
  norm_num at hlow hhigh ⊢
  omega

/-- The next month is found without an overflow before the end of 2039. -/
theorem nextMonthResetChecked_eq {info : NftBandwidthInfo} (hrt : 0 ≤ info.resetTime)
    (hlt : info.resetTime < 60 * 60 * 24 * 28) {now : ℤ} (h0 : 0 ≤ now)
    (h : now < 25536 * 86400) :
    nextMonthResetChecked info now = some (nextMonthReset info now) := by
  have hdiv : divS64 now (60 * 60 * 24) = now / 86400 := by
    rw [divS64, bmod_eq_self (by norm_num) (by norm_num), Int.tdiv_eq_ediv_of_nonneg h0]
    norm_num
  generalize hdays : divS64 now (60 * 60 * 24) = days at hdiv
  have hmem : ∃ d ∈ daysSinceEpochForEachYearStart, d ≤ days := ⟨0, by decide, by omega⟩
  have hyi : yearIndex days < 70 := by
    have hlt : yearIndex days < daysSinceEpochForEachYearStart.length :=
      List.findIdx_lt_length_of_exists (by simpa using hmem)
    exact hlt
  have hyear : findYear days daysSinceEpochForEachYearStart 0 = some (yearIndex days) := by
    rw [findYear_eq days _ 0 hmem, Nat.zero_add]
    rfl
  have hlength := length_monthStartDays (2039 - (yearIndex days : ℤ))
  have hmle := monthIndex_le (monthStartDays (2039 - (yearIndex days : ℤ)))
    (days - yearStart (yearIndex days)) 11
  have hmonth := findMonth_eq (monthStartDays (2039 - (yearIndex days : ℤ)))
    (days - yearStart (yearIndex days)) (m := 11) (by omega)
  -- December of the last year of the table is out of reach
  have hdecember : monthIndex (monthStartDays (2039 - (yearIndex days : ℤ)))
      (days - yearStart (yearIndex days)) 11 = 11 → 1 ≤ yearIndex days := by
    intro hlast
    by_contra hzero
    have hfirst : yearIndex days = 0 := by omega
    have hle : yearStart ((0 : ℕ) : ℤ) ≤ days := by
      have hfound : decide (daysSinceEpochForEachYearStart[yearIndex days] ≤ days) = true :=
        List.findIdx_getElem (w := hyi)
      simp only [hfirst] at hfound
      exact of_decide_eq_true hfound
    rw [hfirst] at hlast
    have hzero : (monthStartDays (2039 - ((0 : ℕ) : ℤ))).getD 0 0 = 0 := by decide
    have hstart := @monthIndex_start_le (monthStartDays (2039 - ((0 : ℕ) : ℤ)))
      (days - yearStart ((0 : ℕ) : ℤ)) 11 (by omega)
    rw [hlast] at hstart
    have htable : (monthStartDays (2039 - ((0 : ℕ) : ℤ))).getD 11 0 = 334 ∧
        yearStart ((0 : ℕ) : ℤ) = 25202 := by
      decide
    omega
  have hsum : ∀ x, toKtime (toInt32 x + info.resetTime) = toInt32 x + info.resetTime := by
    intro x
    have hbounds := toInt32_bounds x
    exact toKtime_eq_self (by omega) (by omega)
  have hstart : 0 ≤ yearStart (yearIndex days) ∧ yearStart (yearIndex days) ≤ 25202 := by
    rcases Nat.eq_zero_or_pos (yearIndex days) with hzero | hpos
    · rw [hzero]
      decide
    · have hys := yearStart_bounds hpos hyi
      omega
  have hday : toInt32 (days - yearStart (yearIndex days)) = days - yearStart (yearIndex days) :=
    Int.bmod_eq_of_le (by omega) (by omega)
  simp only [nextMonthResetChecked, nextMonthReset, hdays, hyear, Option.bind_eq_bind,
    Option.bind_some, readYear_of_lt hyi, hday, hmonth, hsum]
  generalize hm : monthIndex (monthStartDays (2039 - (yearIndex days : ℤ)))
    (days - yearStart (yearIndex days)) 11 = month at *
  rw [readTable_of_lt (by omega), Option.bind_some]
  split_ifs with hlater hlast
  · rfl
  · have hprev := readYear_of_lt (i := yearIndex days - 1) (by omega)
    rw [Nat.cast_sub (hdecember hlast), Nat.cast_one] at hprev
    rw [hprev]
    rfl
  · rw [← Nat.cast_succ, readTable_of_lt (by omega)]
    rfl

/-! ## The first reset after now -/

def monthlyResets (info : NftBandwidthInfo) : Set ℤ :=
  {t | ∃ month : ℤ, t = firstDay month * 86400 + info.resetTime}

/-- The next month is the first one behind now. -/
theorem isLeast_moduleNext_month {info : NftBandwidthInfo} (h0 : 0 ≤ info.resetTime) (now : ℤ)
    (hlt : info.resetTime < 60 * 60 * 24 * 28) :
    IsLeast {t | now < t ∧ t ∈ monthlyResets info}
      (moduleNext bandwidthMonth info.resetTime now) := by
  obtain ⟨hlow, hhigh⟩ := monthNumber_spec (now / 86400)
  generalize hmonth : monthNumber (now / 86400) = month at *
  rw [moduleNext, periodStart_month, nextPeriod_month, hmonth]
  split_ifs with hahead
  · refine ⟨⟨hahead, month, rfl⟩, ?_⟩
    rintro t ⟨ht, m, rfl⟩
    have hm : month ≤ m := by
      by_contra hnot
      have hbefore := firstDay_lt_succ (month - 1)
      have hle := firstDay_strictMono.monotone (show m ≤ month - 1 by omega)
      rw [sub_add_cancel] at hbefore
      omega
    have hle := firstDay_strictMono.monotone hm
    omega
  · refine ⟨⟨by omega, month + 1, rfl⟩, ?_⟩
    rintro t ⟨ht, m, rfl⟩
    have hm : month + 1 ≤ m := by
      by_contra hnot
      have hle := firstDay_strictMono.monotone (show m ≤ month by omega)
      omega
    have hle := firstDay_strictMono.monotone hm
    omega

theorem moduleNext_2038 {info : NftBandwidthInfo} (hlt : info.resetTime < 60 * 60 * 24 * 28)
    {now : ℤ} (hnow : 24837 * 86400 ≤ now) (h : now < resetHorizon info) :
    moduleNext bandwidthMonth info.resetTime now = resetHorizon info := by
  have hmonth : monthNumber (now / 86400) = 12 * 2038 := by
    have hfirst := firstDay_2038
    have hnext := firstDay_lt_succ (12 * 2038)
    rw [resetHorizon] at h
    exact monthNumber_eq (by omega) (by omega)
  rw [resetHorizon] at h ⊢
  rw [moduleNext, periodStart_month, hmonth, firstDay_2038, if_pos (by omega)]
  rfl

/-- The first reset after `now` is found exactly if it is not after the reset of
January 2038. -/
theorem month_reset_found_iff {info : NftBandwidthInfo} (hinfo : Calendared info)
    (hmonth : info.resetInterval = bandwidthMonth) {now : ℤ} (h0 : 0 ≤ now)
    (h : now < 25536 * 86400) (previousReset : ℤ) :
    (IsLeast {t | now < t ∧ t ∈ monthlyResets info} (getNextResetTime info now previousReset) ∧
        nextMonthResetChecked info now = some (getNextResetTime info now previousReset)) ↔
      now < resetHorizon info := by
  have hlt : info.resetTime < 60 * 60 * 24 * 28 := by
    have hlt := hinfo.time_lt
    rw [hmonth, shortestPeriod_month] at hlt
    omega
  have hnext : getNextResetTime info now previousReset = nextMonthReset info now := by
    rw [getNextResetTime, if_pos hinfo.named, hmonth, if_neg (by decide), if_neg (by decide),
      if_neg (by decide), if_neg (by decide), if_pos rfl]
  rw [hnext, nextMonthResetChecked_eq hinfo.time_nonneg hlt h0 h]
  constructor
  · rintro ⟨hleast, -⟩
    exact hleast.1.1.trans_le (nextMonthReset_le info now)
  · intro hbefore
    refine ⟨?_, rfl⟩
    have heq : nextMonthReset info now = moduleNext bandwidthMonth info.resetTime now := by
      by_cases h2038 : now < 24837 * 86400
      · exact nextMonthReset_eq info h0 h2038
      · rw [nextMonthReset_2038 hlt (by omega) hbefore, moduleNext_2038 hlt (by omega) hbefore]
    rw [heq]
    exact isLeast_moduleNext_month hinfo.time_nonneg now hlt

def monthly : NftBandwidthInfo := { dailyFrom 0 with resetInterval := bandwidthMonth }

theorem calendared_monthly : Calendared monthly :=
  ⟨rfl, Calendrical.month, le_rfl, show (0 : ℤ) < 2419200 by norm_num⟩

/-- On the last day of February 2024 the reset is on the first of March. -/
theorem march_2024_found :
    IsLeast {t | 19782 * 86400 < t ∧ t ∈ monthlyResets monthly}
        (getNextResetTime monthly (19782 * 86400) 0) ∧
      nextMonthResetChecked monthly (19782 * 86400) =
        some (getNextResetTime monthly (19782 * 86400) 0) :=
  (month_reset_found_iff calendared_monthly rfl (by norm_num) (by norm_num) 0).2
    (show (19782 * 86400 : ℤ) < 24837 * (60 * 60 * 24) + 0 by norm_num)

/-- At the start of 2038 the reset of February is returned, which does not fit 32
bits. -/
theorem february_2038_lost :
    Calendared monthly ∧ monthly.resetInterval = bandwidthMonth ∧
      getNextResetTime monthly (24837 * 86400) 0 = -2146372096 ∧
      ¬ IsLeast {t | 24837 * 86400 < t ∧ t ∈ monthlyResets monthly}
        (getNextResetTime monthly (24837 * 86400) 0) := by
  have hnext : getNextResetTime monthly (24837 * 86400) 0 = -2146372096 := by decide
  refine ⟨calendared_monthly, rfl, hnext, fun hleast => ?_⟩
  have hahead := hleast.1.1
  rw [hnext] at hahead
  norm_num at hahead

/-!
## The reset before a reset

`get_nominal_previous_reset_time` goes back from a reset in halves of the interval
that follows it, until the next reset is an earlier one. No interval is more than
half as long again as any other of its kind, so that the search meets the reset
before and does not pass it.
-/

/-! ### Starts of periods -/

section Starts

variable {resetInterval : ℤ}

theorem period_bounds (hkind : Calendrical resetInterval) (t : ℤ) :
    periodStart resetInterval t ≤ t ∧
      periodStart resetInterval t + shortestPeriod resetInterval ≤ nextPeriod resetInterval t ∧
      2 * (nextPeriod resetInterval t - periodStart resetInterval t) ≤
        3 * shortestPeriod resetInterval := by
  cases hkind with
  | minute =>
    rw [periodStart_minute, nextPeriod_minute, shortestPeriod_minute]
    omega
  | hour =>
    rw [periodStart_hour, nextPeriod_hour, shortestPeriod_hour]
    omega
  | day =>
    rw [periodStart_day, nextPeriod_day, shortestPeriod_day]
    omega
  | week =>
    rw [periodStart_week, nextPeriod_week, shortestPeriod_week]
    omega
  | month =>
    have hspec := (monthNumber_spec (t / 86400)).1
    have hlength := firstDay_succ_bounds (monthNumber (t / 86400))
    rw [periodStart_month, nextPeriod_month, shortestPeriod_month]
    omega

theorem nextPeriod_pred (hkind : Calendrical resetInterval) (t : ℤ) :
    nextPeriod resetInterval (periodStart resetInterval t - 1) = periodStart resetInterval t := by
  cases hkind with
  | minute =>
    rw [nextPeriod_minute, periodStart_minute]
    omega
  | hour =>
    rw [nextPeriod_hour, periodStart_hour]
    omega
  | day =>
    rw [nextPeriod_day, periodStart_day]
    omega
  | week =>
    rw [nextPeriod_week, periodStart_week]
    omega
  | month =>
    rw [nextPeriod_month, periodStart_month]
    generalize monthNumber (t / 86400) = month
    have hgap := firstDay_lt_succ (month - 1)
    rw [sub_add_cancel] at hgap
    rw [monthNumber_eq (show firstDay (month - 1) ≤ (firstDay month * 86400 - 1) / 86400 by omega)
      (by rw [sub_add_cancel]; omega), sub_add_cancel]

theorem periodStart_periodStart (hkind : Calendrical resetInterval) (t : ℤ) :
    periodStart resetInterval (periodStart resetInterval t) = periodStart resetInterval t := by
  obtain ⟨hlow, hhigh, -⟩ := period_bounds hkind t
  have hshortest : 0 < shortestPeriod resetInterval := by cases hkind <;> decide
  exact (period_eq hkind le_rfl (by omega)).1

theorem periodStart_nextPeriod (hkind : Calendrical resetInterval) (t : ℤ) :
    periodStart resetInterval (nextPeriod resetInterval t) = nextPeriod resetInterval t := by
  cases hkind with
  | minute =>
    rw [nextPeriod_minute, periodStart_minute]
    omega
  | hour =>
    rw [nextPeriod_hour, periodStart_hour]
    omega
  | day =>
    rw [nextPeriod_day, periodStart_day]
    omega
  | week =>
    rw [nextPeriod_week, periodStart_week]
    omega
  | month =>
    rw [nextPeriod_month, periodStart_month, Int.mul_ediv_cancel _ (by norm_num),
      monthNumber_firstDay]

theorem nextPeriod_le_of_lt (hkind : Calendrical resetInterval) {s t : ℤ}
    (h : periodStart resetInterval t < periodStart resetInterval s) :
    nextPeriod resetInterval t ≤ periodStart resetInterval s := by
  by_contra hnot
  have hsame := (period_eq hkind h.le (not_le.1 hnot)).1
  rw [periodStart_periodStart hkind] at hsame
  omega

end Starts

/-! ### Boundaries -/

def boundarySet (info : NftBandwidthInfo) : Set ℤ :=
  {t | ∃ s, t = periodStart info.resetInterval s + info.resetTime}

/-- The times that `get_next_reset_time` can return. -/
def returnedResets (info : NftBandwidthInfo) : Set ℤ :=
  {t | ∃ now, 0 ≤ now ∧ getNextResetTime info now 0 = t}

section Boundaries

variable {info : NftBandwidthInfo}

theorem boundary_gap (hinfo : Calendared info) {s t : ℤ}
    (h : periodStart info.resetInterval t < periodStart info.resetInterval s) :
    nextPeriod info.resetInterval t + info.resetTime ≤
      periodStart info.resetInterval s + info.resetTime := by
  have hnext := nextPeriod_le_of_lt hinfo.kind h
  omega

theorem isLeast_moduleNext (hinfo : Calendared info) (x : ℤ) :
    IsLeast {t | x < t ∧ t ∈ boundarySet info}
      (moduleNext info.resetInterval info.resetTime x) := by
  obtain ⟨hlow, hlength, -⟩ := period_bounds hinfo.kind x
  have hend := lt_nextPeriod hinfo.kind x
  have h0 := hinfo.time_nonneg
  have hlt := hinfo.time_lt
  rw [moduleNext]
  split_ifs with hahead
  · refine ⟨⟨hahead, x, rfl⟩, ?_⟩
    rintro t ⟨ht, s, rfl⟩
    by_contra hnot
    have hnext := nextPeriod_le_of_lt hinfo.kind
      (show periodStart info.resetInterval s < periodStart info.resetInterval x by omega)
    have hgap := (period_bounds hinfo.kind s).2.1
    omega
  · refine ⟨⟨by omega, nextPeriod info.resetInterval x, ?_⟩, ?_⟩
    · rw [periodStart_nextPeriod hinfo.kind]
    · rintro t ⟨ht, s, rfl⟩
      have hnext := nextPeriod_le_of_lt hinfo.kind
        (show periodStart info.resetInterval x < periodStart info.resetInterval s by omega)
      omega

theorem moduleNext_eq (hinfo : Calendared info) {s x : ℤ}
    (hlow : periodStart info.resetInterval s + info.resetTime ≤ x)
    (hhigh : x < nextPeriod info.resetInterval s + info.resetTime) :
    moduleNext info.resetInterval info.resetTime x =
      nextPeriod info.resetInterval s + info.resetTime := by
  refine (isLeast_moduleNext hinfo x).unique ⟨⟨hhigh, nextPeriod info.resetInterval s, ?_⟩, ?_⟩
  · rw [periodStart_nextPeriod hinfo.kind]
  · rintro t ⟨ht, r, rfl⟩
    exact boundary_gap hinfo (by omega)

end Boundaries

/-! ### The search -/

/-- The search ends at the reset before this one. -/
theorem nominalPreviousLoop_eq {info : NftBandwidthInfo} {b half p pp : ℤ} (hpos : 0 < half)
    (hhalf : half ≤ p - pp) (hpb : p < b)
    (hb : ∀ x, p ≤ x → x < b → getNextResetTime info x 0 = b)
    (hp : ∀ x, pp ≤ x → x < p → getNextResetTime info x 0 = p) (n : ℕ) {k previousReset : ℤ}
    (hk : 1 ≤ k) (hprev : b ≤ previousReset) (hreached : p ≤ b - (k - 1) * half)
    (hrounds : b - (k - 1) * half - p < n) :
    nominalPreviousLoop info b half n k previousReset = p := by
  induction n generalizing k previousReset with
  | zero => omega
  | succ n ih =>
    have hstep : (k - 1) * half = k * half - half := by ring
    have hback : 0 < k * half := mul_pos (by omega) hpos
    rw [hstep] at hreached hrounds
    rw [nominalPreviousLoop, if_pos hprev]
    by_cases hpassed : p ≤ b - k * half
    · rw [hb _ hpassed (by omega)]
      refine ih (by omega) le_rfl ?_ ?_
      · rwa [add_sub_cancel_right]
      · rw [add_sub_cancel_right]
        push_cast at hrounds
        omega
    · rw [hp _ (by omega) (not_le.1 hpassed)]
      cases n with
      | zero => rfl
      | succ n => rw [nominalPreviousLoop, if_neg (not_le.2 hpb)]

/-! ### What the module can return -/

theorem toInt32_month_past_2038 : ∀ m < 12,
    toInt32 ((yearStart ((0 : ℕ) : ℤ) + (monthStartDays (2039 - ((0 : ℕ) : ℤ))).getD m 0) *
        (60 * 60 * 24)) ≤ 0 ∧
      (1 ≤ m → toInt32 ((yearStart ((1 : ℕ) : ℤ) +
        (monthStartDays (2039 - ((1 : ℕ) : ℤ))).getD m 0) * (60 * 60 * 24)) ≤ 0) := by
  decide

theorem toInt32_year_past_2038 :
    toInt32 (yearStart (((0 : ℕ) : ℤ) - 1) * (60 * 60 * 24)) ≤ 0 ∧
      toInt32 (yearStart (((1 : ℕ) : ℤ) - 1) * (60 * 60 * 24)) ≤ 0 := by
  decide

theorem yearIndex_2039 {days : ℤ} (h : 25202 ≤ days) : yearIndex days = 0 := by
  simp [yearIndex, daysSinceEpochForEachYearStart, List.findIdx_cons, h]

/-- Behind the tables the next month is in the past. -/
theorem nextMonthReset_past {info : NftBandwidthInfo} (hrt : 0 ≤ info.resetTime) {now : ℤ}
    (h : resetHorizon info ≤ now) : nextMonthReset info now ≤ info.resetTime := by
  have hnow : 24837 * (60 * 60 * 24) ≤ now := by
    rw [resetHorizon] at h
    omega
  have hdays : 24837 ≤ divS64 now (60 * 60 * 24) := by
    rw [divS64, bmod_eq_self (by norm_num) (by norm_num), Int.tdiv_eq_ediv_of_nonneg (by omega)]
    omega
  have hle := nextMonthReset_le info now
  generalize hmonth : monthIndex (monthStartDays (2039 - (yearIndex (divS64 now (60 * 60 * 24)) : ℤ)))
    (divS64 now (60 * 60 * 24) - yearStart (yearIndex (divS64 now (60 * 60 * 24)))) 11 = month
  have hm : month ≤ 11 := hmonth ▸ monthIndex_le _ _ 11
  have hyear : yearIndex (divS64 now (60 * 60 * 24)) = 0 ∨
      yearIndex (divS64 now (60 * 60 * 24)) = 1 := by
    by_cases hlast : 25202 ≤ divS64 now (60 * 60 * 24)
    · exact .inl (yearIndex_2039 hlast)
    · exact .inr (yearIndex_2038 hdays (by omega))
  simp only [nextMonthReset, hmonth] at hle ⊢
  split_ifs at hle ⊢ with hlater hlast
  · omega
  · rcases hyear with hyear | hyear
    · rw [hyear]
      have := toInt32_year_past_2038.1
      omega
    · rw [hyear]
      have := toInt32_year_past_2038.2
      omega
  · rcases hyear with hyear | hyear
    · rw [hyear]
      have := (toInt32_month_past_2038 (month + 1) (by omega)).1
      omega
    · rw [hyear]
      have := (toInt32_month_past_2038 (month + 1) (by omega)).2 (by omega)
      omega

theorem returned_cases {info : NftBandwidthInfo} (hinfo : Calendared info) {t : ℤ}
    (ht : t ∈ returnedResets info) : t ∈ boundarySet info ∨ t < shortestPeriod info.resetInterval := by
  obtain ⟨now, h0, rfl⟩ := ht
  by_cases hbefore : info.resetInterval = bandwidthMonth → now < 24837 * 86400
  · rw [hinfo.getNextResetTime_eq h0 hbefore]
    exact .inl (isLeast_moduleNext hinfo now).1.2
  · rw [Classical.not_imp] at hbefore
    obtain ⟨hmonth, hnow⟩ := hbefore
    have hlt := hinfo.time_lt
    have hnext : getNextResetTime info now 0 = nextMonthReset info now := by
      rw [getNextResetTime, if_pos hinfo.named, hmonth, if_neg (by decide), if_neg (by decide),
        if_neg (by decide), if_neg (by decide), if_pos rfl]
    rw [hnext]
    rw [hmonth, shortestPeriod_month] at hlt ⊢
    by_cases hhorizon : now < resetHorizon info
    · rw [nextMonthReset_2038 hlt (by omega) hhorizon,
        ← moduleNext_2038 hlt (by omega) hhorizon, ← hmonth]
      exact .inl (isLeast_moduleNext hinfo now).1.2
    · exact .inr ((nextMonthReset_past hinfo.time_nonneg (by omega)).trans_lt hlt)

/-! ### The previous reset -/

/-- Before 2038 the reset before a reset is found, and the next reset after it is
the one the search began at. -/
theorem nominal_previous_inverts {info : NftBandwidthInfo} (hinfo : Calendared info) {b : ℤ}
    (hb : b ∈ returnedResets info) (hthree : 3 * shortestPeriod info.resetInterval ≤ b)
    (h2038 : b < 24837 * 86400) :
    IsGreatest {p | p < b ∧ p ∈ returnedResets info} (getNominalPreviousResetTime info b) ∧
      getNextResetTime info (getNominalPreviousResetTime info b) 0 = b := by
  have hshortest : 60 ≤ shortestPeriod info.resetInterval := by
    have hkind := hinfo.kind
    generalize info.resetInterval = k at hkind
    cases hkind <;> decide
  obtain ⟨s, hs⟩ := (returned_cases hinfo hb).resolve_right (by omega)
  -- the two periods before the one that begins at `b`
  have hprev := nextPeriod_pred hinfo.kind s
  generalize hs₁ : periodStart info.resetInterval s - 1 = s₁ at hprev
  have hprev' := nextPeriod_pred hinfo.kind s₁
  generalize hs₂ : periodStart info.resetInterval s₁ - 1 = s₂ at hprev'
  obtain ⟨-, hlow, hhigh⟩ := period_bounds hinfo.kind s
  obtain ⟨-, hlow₁, hhigh₁⟩ := period_bounds hinfo.kind s₁
  obtain ⟨-, hlow₂, hhigh₂⟩ := period_bounds hinfo.kind s₂
  have hmodule : ∀ x, periodStart info.resetInterval s₂ + info.resetTime ≤ x → x ≤ b →
      getNextResetTime info x 0 = moduleNext info.resetInterval info.resetTime x :=
    fun x hle hlt => hinfo.getNextResetTime_eq (by omega) (fun _ => by omega) 0
  have hnextb : ∀ x, periodStart info.resetInterval s₁ + info.resetTime ≤ x → x < b →
      getNextResetTime info x 0 = b := by
    intro x hle hlt
    rw [hmodule x (by omega) hlt.le, moduleNext_eq hinfo hle (by omega)]
    omega
  have hnextp : ∀ x, periodStart info.resetInterval s₂ + info.resetTime ≤ x →
      x < periodStart info.resetInterval s₁ + info.resetTime →
      getNextResetTime info x 0 = periodStart info.resetInterval s₁ + info.resetTime := by
    intro x hle hlt
    rw [hmodule x hle (by omega), moduleNext_eq hinfo hle (by omega)]
    omega
  have hnominal : getNominalPreviousResetTime info b =
      periodStart info.resetInterval s₁ + info.resetTime := by
    have hhalf : divS64 (getNextResetTime info b 0 - b) 2 =
        (nextPeriod info.resetInterval s - periodStart info.resetInterval s) / 2 := by
      rw [hmodule b (by omega) le_rfl, moduleNext_eq (s := s) hinfo (by omega) (by omega), divS64,
        bmod_eq_self (by norm_num) (by norm_num), Int.tdiv_eq_ediv_of_nonneg (by omega)]
      omega
    simp only [getNominalPreviousResetTime, if_pos hinfo.named, hhalf]
    rw [if_neg (by omega)]
    exact nominalPreviousLoop_eq (by omega) (by omega) (by omega) hnextb hnextp _ le_rfl le_rfl
      (by omega) (by push_cast; omega)
  rw [hnominal]
  refine ⟨⟨⟨by omega, _, by omega, hnextp _ le_rfl (by omega)⟩, ?_⟩, hnextb _ le_rfl (by omega)⟩
  rintro t ⟨htb, ht⟩
  rcases returned_cases hinfo ht with ⟨r, rfl⟩ | hsmall
  · by_contra hnot
    have hgap := boundary_gap (s := r) (t := s₁) hinfo (by omega)
    omega
  · omega

/-- Before the first of March 2024 there is the first of February. -/
theorem february_2024_found :
    IsGreatest {p | p < 19783 * 86400 ∧ p ∈ returnedResets monthly}
        (getNominalPreviousResetTime monthly (19783 * 86400)) ∧
      getNextResetTime monthly (getNominalPreviousResetTime monthly (19783 * 86400)) 0 =
        19783 * 86400 :=
  nominal_previous_inverts calendared_monthly
    ⟨19782 * 86400, by norm_num, by decide⟩ (by decide) (by norm_num)

end Bandwidth

end Gargoyle
