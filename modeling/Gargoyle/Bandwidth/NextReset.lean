import Gargoyle.Bandwidth.LowHalf
import Gargoyle.Bwctl.IntervalStarts

/-!
# The next reset is the first one after now

A rule that counts by minute, hour, day or week resets at the times of a residue
class, and so does a rule with a constant interval. `get_next_reset_time` steps
to the first of these times after `now`.

It divides by the interval with `div_s64`, whose divisor is a 32-bit integer. Of
a constant interval only the low half enters the division, so that an interval of
2^31 seconds or more can be stepped over, or be a division by zero, or leave the
64 bits of a time.
-/

namespace Gargoyle

namespace Bandwidth

open Bwctl Calendar

/-! ## Residue classes -/

section Residues

variable {interval base now now' t : ℤ}

theorem isLeast_of_le_add (hmod : t ≡ base [ZMOD interval]) (hlt : now < t)
    (hle : t ≤ now + interval) : IsLeast {s | now < s ∧ s ≡ base [ZMOD interval]} t := by
  refine ⟨⟨hlt, hmod⟩, ?_⟩
  rintro s ⟨hs, hsmod⟩
  by_contra hlt'
  obtain ⟨k, hk⟩ := (hsmod.trans hmod.symm).dvd
  have hpos : 0 < interval * k := by omega
  have hinterval : 0 < interval := by omega
  have hk' : 1 ≤ k := pos_of_mul_pos_right hpos hinterval.le
  have hge : interval ≤ interval * k := le_mul_of_one_le_right hinterval.le hk'
  omega

theorem isLeast_mono {s : Set ℤ} {t' : ℤ} (h : IsLeast {x | now < x ∧ x ∈ s} t)
    (h' : IsLeast {x | now' < x ∧ x ∈ s} t') (hle : now ≤ now') : t ≤ t' :=
  h.2 ⟨hle.trans_lt h'.1.1, h'.1.2⟩

theorem advancePast_modEq (interval now : ℤ) (n : ℕ) (t : ℤ) :
    advancePast interval now n t ≡ t [ZMOD interval] := by
  induction n generalizing t with
  | zero => exact Int.ModEq.rfl
  | succ n ih =>
    rw [advancePast]
    split_ifs
    · exact (ih (t + interval)).trans Int.add_modEq_right
    · exact Int.ModEq.rfl

theorem advancePast_le (n : ℕ) (hle : t ≤ now + interval) :
    advancePast interval now n t ≤ now + interval := by
  induction n generalizing t with
  | zero => exact hle
  | succ n ih =>
    rw [advancePast]
    split_ifs with h
    · exact ih (by omega)
    · exact hle

theorem advance_of_lt (interval : ℤ) (h : now < t) : advance interval now t = t := by
  have hzero : (now - t).toNat = 0 := by omega
  rw [advance, hzero, advancePast, if_neg (not_le.2 h)]

theorem isLeast_advance_iff (hpos : 0 < interval) (hmod : t ≡ base [ZMOD interval]) :
    IsLeast {s | now < s ∧ s ≡ base [ZMOD interval]} (advance interval now t) ↔
      t ≤ now + interval := by
  constructor
  · intro hleast
    by_contra hlater
    rw [advance_of_lt interval (by omega)] at hleast
    have hbefore : t + -1 * interval ≡ base [ZMOD interval] :=
      (add_mul_modEq t interval (-1)).trans hmod
    have hle := hleast.2 ⟨by omega, hbefore⟩
    omega
  · intro hle
    exact isLeast_of_le_add ((advancePast_modEq _ _ _ _).trans hmod) (lt_advance hpos t)
      (advancePast_le _ hle)

end Residues

/-! ## Rules with resets in a residue class -/

def shortestPeriod (resetInterval : ℤ) : ℤ :=
  if resetInterval = bandwidthMinute then 60
  else if resetInterval = bandwidthHour then 60 * 60
  else if resetInterval = bandwidthDay then 60 * 60 * 24
  else if resetInterval = bandwidthWeek then 60 * 60 * 24 * 7
  else 60 * 60 * 24 * 28

@[simp] theorem shortestPeriod_minute : shortestPeriod bandwidthMinute = 60 := rfl

@[simp] theorem shortestPeriod_hour : shortestPeriod bandwidthHour = 3600 := rfl

@[simp] theorem shortestPeriod_day : shortestPeriod bandwidthDay = 86400 := rfl

@[simp] theorem shortestPeriod_week : shortestPeriod bandwidthWeek = 604800 := rfl

@[simp] theorem shortestPeriod_month : shortestPeriod bandwidthMonth = 2419200 := rfl

structure Calendared (info : NftBandwidthInfo) : Prop where
  named : info.resetIsConstantInterval = false
  kind : Calendrical info.resetInterval
  time_nonneg : 0 ≤ info.resetTime
  time_lt : info.resetTime < shortestPeriod info.resetInterval

structure Constant (info : NftBandwidthInfo) : Prop where
  constant : info.resetIsConstantInterval = true
  interval_pos : 0 < info.resetInterval
  time_nonneg : 0 ≤ info.resetTime

def Periodic (info : NftBandwidthInfo) : Prop :=
  Constant info ∨ Calendared info ∧ info.resetInterval ≠ bandwidthMonth

namespace NftBandwidthInfo

def resetLength (info : NftBandwidthInfo) : ℤ :=
  if info.resetIsConstantInterval then info.resetInterval else shortestPeriod info.resetInterval

def resetBase (info : NftBandwidthInfo) (previousReset : ℤ) : ℤ :=
  if info.resetIsConstantInterval then
    if info.resetTime > 0 then info.resetTime else previousReset
  else if info.resetInterval = bandwidthWeek then 60 * 60 * 24 * 3 + info.resetTime
  else info.resetTime

def resets (info : NftBandwidthInfo) (previousReset : ℤ) : Set ℤ :=
  {t | t ≡ info.resetBase previousReset [ZMOD info.resetLength]}

end NftBandwidthInfo

/-- `get_next_reset_time` comes to its end and returns the first reset after `now`. -/
structure FindsNextReset (info : NftBandwidthInfo) (previousReset now t : ℤ) : Prop where
  returned : ∃ rounds, getNextResetTimeChecked rounds info now previousReset = some t
  least : IsLeast {s | now < s ∧ s ∈ info.resets previousReset} t

def DivisorFits (info : NftBandwidthInfo) (previousReset now : ℤ) : Prop :=
  info.resetIsConstantInterval = true →
    if info.resetTime > now then FitsAhead info.resetInterval info.resetTime now
    else FitsBehind info.resetInterval (info.resetBase previousReset) now

theorem divisorFits_of_lt {info : NftBandwidthInfo} (hpos : 0 < info.resetInterval)
    (hlt : info.resetInterval < 2 ^ 31) {previousReset now : ℤ} (h0 : 0 ≤ now) :
    DivisorFits info previousReset now := by
  intro _
  rw [FitsAhead, FitsBehind, bmod_eq_self hpos.le hlt]
  split_ifs with hahead
  · refine Or.inl ⟨hpos, ?_⟩
    have hroom := Int.lt_ediv_add_one_mul_self (2 ^ 63 + info.resetTime) hpos
    rw [add_mul, one_mul] at hroom
    rw [mul_comm]
    omega
  · exact Or.inl ⟨hpos, Or.inl rfl⟩

/-! ## Constant intervals -/

section Constant

variable {info : NftBandwidthInfo} {previousReset now : ℤ}

/-- The time from which the loop of a constant interval goes on. -/
def constantStart (info : NftBandwidthInfo) (previousReset now : ℤ) : ℤ :=
  if info.resetTime > now then
    toKtime (info.resetTime -
      (divS64 (info.resetTime - now) info.resetInterval + 1) * info.resetInterval)
  else
    toKtime (info.resetBase previousReset +
      divS64 (now - info.resetBase previousReset) info.resetInterval * info.resetInterval)

theorem Constant.resetBase (hinfo : Constant info)
    (hprev : 0 < previousReset ∧ previousReset ≤ now) :
    (info.resetTime > now → info.resetBase previousReset = info.resetTime) ∧
      (¬ info.resetTime > now →
        0 < info.resetBase previousReset ∧ info.resetBase previousReset ≤ now) := by
  rw [NftBandwidthInfo.resetBase, if_pos hinfo.constant]
  split_ifs with hphase
  · exact ⟨fun _ => rfl, fun hbehind => ⟨hphase, not_lt.1 hbehind⟩⟩
  · exact ⟨fun hahead => absurd (by omega) hphase, fun _ => hprev⟩

theorem Constant.resets (hinfo : Constant info) (previousReset : ℤ) :
    info.resets previousReset =
      {t | t ≡ info.resetBase previousReset [ZMOD info.resetInterval]} := by
  rw [NftBandwidthInfo.resets, NftBandwidthInfo.resetLength, if_pos hinfo.constant]

theorem Constant.checked_eq (hinfo : Constant info)
    (hprev : 0 < previousReset ∧ previousReset ≤ now)
    (hdiv : info.resetInterval.bmod (2 ^ 32) ≠ 0) (rounds : ℕ) :
    getNextResetTimeChecked rounds info now previousReset =
      advanceChecked info.resetInterval now rounds (constantStart info previousReset now) := by
  rw [getNextResetTimeChecked, if_neg (by simp [hinfo.constant]), nextConstantResetChecked,
    constantStart, NftBandwidthInfo.resetBase, if_pos hinfo.constant]
  simp only [divS64Checked, if_neg hdiv, Option.bind_eq_bind, Option.bind_some]
  by_cases hphase : info.resetTime > 0
  · simp only [if_pos hphase, if_pos (show info.resetTime > 0 ∧ previousReset > 0 ∧
      previousReset ≤ now from ⟨hphase, hprev⟩)]
    split_ifs
    · rfl
    · rfl
  · have hbehind : ¬ info.resetTime > now := by omega
    simp only [if_neg hphase, if_neg hbehind, if_neg (fun h : info.resetTime > 0 ∧ _ => hphase h.1),
      if_pos hprev.1, if_pos hprev.2]

theorem Constant.checked_eq_none (hinfo : Constant info)
    (hprev : 0 < previousReset ∧ previousReset ≤ now)
    (hdiv : info.resetInterval.bmod (2 ^ 32) = 0) (rounds : ℕ) :
    getNextResetTimeChecked rounds info now previousReset = none := by
  rw [getNextResetTimeChecked, if_neg (by simp [hinfo.constant]), nextConstantResetChecked]
  simp only [divS64Checked, if_pos hdiv, Option.bind_eq_bind, Option.bind_none,
    if_pos hprev.1, if_pos hprev.2, ite_self]

theorem or_iff_of_pos {d : ℤ} {p q : Prop} (hd : 0 < d) : 0 < d ∧ p ∨ d < 0 ∧ q ↔ p := by
  rw [or_iff_left fun h => lt_asymm hd h.1, and_iff_right hd]

theorem or_iff_of_neg {d : ℤ} {p q : Prop} (hd : d < 0) : 0 < d ∧ p ∨ d < 0 ∧ q ↔ q := by
  rw [or_iff_right fun h => lt_asymm hd h.1, and_iff_right hd]

/-- Where counting begins right, and where it ends in time. -/
theorem Constant.start_iff (hinfo : Constant info) (hlt : info.resetInterval < 2 ^ 63)
    (htime : info.resetTime < 2 ^ 63) (hnow : now < 2 ^ 63)
    (hprev : 0 < previousReset ∧ previousReset ≤ now)
    (hdiv : info.resetInterval.bmod (2 ^ 32) ≠ 0)
    (hroom : ∀ s ∈ info.resets previousReset, s ≤ now + info.resetInterval → s < 2 ^ 63) :
    (constantStart info previousReset now ≡ info.resetBase previousReset
          [ZMOD info.resetInterval] ∧
        constantStart info previousReset now ≤ now + info.resetInterval) ↔
      DivisorFits info previousReset now := by
  have hpos := hinfo.interval_pos
  obtain ⟨hbase, hbehind⟩ := hinfo.resetBase hprev
  rw [hinfo.resets] at hroom
  rw [DivisorFits, forall_prop_of_true hinfo.constant, constantStart]
  split_ifs with hahead
  · rw [hbase hahead] at hroom ⊢
    rw [FitsAhead]
    rcases lt_or_gt_of_ne hdiv with hneg | hdpos
    · refine (fits_ahead_iff_of_neg hahead (by omega) htime hpos hlt hneg hroom).trans ?_
      exact (or_iff_of_neg hneg).symm
    · refine (fits_ahead_iff_of_pos hahead (by omega) htime hpos hlt hdpos).trans ?_
      exact (or_iff_of_pos hdpos).symm
  · obtain ⟨hb, hbn⟩ := hbehind hahead
    rw [FitsBehind]
    rcases lt_or_gt_of_ne hdiv with hneg | hdpos
    · exact (fits_behind_iff_of_neg hb hbn hnow hpos hneg).trans (or_iff_of_neg hneg).symm
    · exact (fits_behind_iff_of_pos hb hbn hnow hroom hpos hdpos).trans (or_iff_of_pos hdpos).symm

theorem DivisorFits.ne_zero (h : DivisorFits info previousReset now) (hinfo : Constant info) :
    info.resetInterval.bmod (2 ^ 32) ≠ 0 := by
  have hfits := h hinfo.constant
  rw [FitsAhead, FitsBehind] at hfits
  split_ifs at hfits
  · rcases hfits with hfits | hfits
    · exact hfits.1.ne'
    · exact hfits.1.ne
  · rcases hfits with hfits | hfits
    · exact hfits.1.ne'
    · exact hfits.1.ne

theorem constantStart_ge (info : NftBandwidthInfo) (previousReset now : ℤ) :
    -2 ^ 63 ≤ constantStart info previousReset now := by
  rw [constantStart]
  split_ifs
  · exact (toKtime_bounds _).1
  · exact (toKtime_bounds _).1

/-- The next reset of a constant interval is the first one behind now. -/
theorem Constant.findsNextReset (hinfo : Constant info) (hlt : info.resetInterval < 2 ^ 63)
    (htime : info.resetTime < 2 ^ 63) (hnow : now < 2 ^ 63)
    (hprev : 0 < previousReset ∧ previousReset ≤ now) {first : ℤ}
    (hleast : IsLeast {s | now < s ∧ s ∈ info.resets previousReset} first) (hfirst : first < 2 ^ 63)
    (hfits : DivisorFits info previousReset now) :
    FindsNextReset info previousReset now first := by
  have hpos := hinfo.interval_pos
  have hdiv := hfits.ne_zero hinfo
  rw [hinfo.resets] at hleast
  have hnext : ∀ s, s ≡ info.resetBase previousReset [ZMOD info.resetInterval] →
      s ≤ now + info.resetInterval → s ≤ first := by
    intro s hs hle
    by_contra hlater
    obtain ⟨k, hk⟩ := (hleast.1.2.trans hs.symm).dvd
    have hk1 : 1 ≤ k := pos_of_mul_pos_right (show 0 < info.resetInterval * k by omega) hpos.le
    have hge := le_mul_of_one_le_right hpos.le hk1
    have hafter := hleast.1.1
    omega
  have hroom : ∀ s ∈ info.resets previousReset, s ≤ now + info.resetInterval → s < 2 ^ 63 := by
    rw [hinfo.resets]
    exact fun s hs hle => (hnext s hs hle).trans_lt hfirst
  obtain ⟨hmod, hle⟩ := (hinfo.start_iff hlt htime hnow hprev hdiv hroom).2 hfits
  have hclass : {s | now < s ∧ s ≡ constantStart info previousReset now [ZMOD info.resetInterval]} =
      {s | now < s ∧ s ≡ info.resetBase previousReset [ZMOD info.resetInterval]} :=
    Set.ext fun s => and_congr_right fun _ =>
      ⟨fun h => h.trans hmod, fun h => h.trans hmod.symm⟩
  obtain ⟨rounds, hrounds⟩ := advanceChecked_eq_some hpos (constantStart_ge info previousReset now)
    hfirst (hclass ▸ hleast) (hnext _ hmod hle)
  refine ⟨⟨rounds, ?_⟩, ?_⟩
  · rw [hinfo.checked_eq hprev hdiv, hrounds]
  · rw [hinfo.resets]
    exact hleast

theorem Constant.divisorFits (hinfo : Constant info) (htime : info.resetTime < 2 ^ 63)
    (hend : now + info.resetInterval < 2 ^ 63)
    (hprev : 0 < previousReset ∧ previousReset ≤ now) {t : ℤ}
    (h : FindsNextReset info previousReset now t) : DivisorFits info previousReset now := by
  have hpos := hinfo.interval_pos
  obtain ⟨⟨rounds, hrounds⟩, hleast⟩ := h
  have hdiv : info.resetInterval.bmod (2 ^ 32) ≠ 0 := by
    intro hzero
    rw [hinfo.checked_eq_none hprev hzero] at hrounds
    cases hrounds
  rw [hinfo.checked_eq hprev hdiv] at hrounds
  obtain ⟨hafter, hmod, hge⟩ := advanceChecked_spec hpos hend
    (constantStart_ge info previousReset now) hrounds
  rw [hinfo.resets] at hleast
  refine (hinfo.start_iff (by omega) htime (by omega) hprev hdiv fun s _ hle => by omega).1
    ⟨hmod.symm.trans hleast.1.2, hge.trans ?_⟩
  by_contra hlater
  have hbefore : t + -1 * info.resetInterval ≡ info.resetBase previousReset
      [ZMOD info.resetInterval] := (add_mul_modEq t info.resetInterval (-1)).trans hleast.1.2
  have hle := hleast.2 ⟨show now < t + -1 * info.resetInterval by omega, hbefore⟩
  omega

end Constant

/-! ## Named periods -/

theorem Calendared.stmtEvaluated {info : NftBandwidthInfo} (h : Calendared info) :
    StmtEvaluated { info with nextReset := 0 } := by
  obtain ⟨hnamed, hkind, htime, hlt⟩ := h
  have hbounds : bandwidthMinute ≤ info.resetInterval ∧ info.resetInterval ≤ bandwidthMonth := by
    generalize info.resetInterval = k at hkind
    cases hkind <;> decide
  have hmonth : bandwidthMinute = 80 ∧ bandwidthMonth = 84 ∧ bandwidthNever = 85 := ⟨rfl, rfl, rfl⟩
  refine ⟨?_, ?_, htime, ?_, ?_, ?_, ?_, ?_, ?_, rfl⟩
  · simp only
    omega
  · simp only [hnamed]
    constructor
    · intro hfalse
      cases hfalse
    · omega
  · exact fun hk => (hk ▸ hlt : info.resetTime < shortestPeriod bandwidthMinute)
  · exact fun hk => (hk ▸ hlt : info.resetTime < shortestPeriod bandwidthHour)
  · exact fun hk => (hk ▸ hlt : info.resetTime < shortestPeriod bandwidthDay)
  · exact fun hk => (hk ▸ hlt : info.resetTime < shortestPeriod bandwidthWeek)
  · exact fun hk => (hk ▸ hlt : info.resetTime < shortestPeriod bandwidthMonth)
  · intro hk
    simp only at hk
    omega

theorem Calendared.getNextResetTime_eq {info : NftBandwidthInfo} (h : Calendared info) {now : ℤ}
    (h0 : 0 ≤ now) (hmonth : info.resetInterval = bandwidthMonth → now < 24837 * 86400)
    (previousReset : ℤ) :
    getNextResetTime info now previousReset = moduleNext info.resetInterval info.resetTime now := by
  rw [← boundaryAfter_eq h.stmtEvaluated h.kind h0 hmonth, NftBandwidthInfo.boundaryAfter,
    getNextResetTime, getNextResetTime, if_pos h.named, if_pos h.named]
  rfl

theorem nextPeriodResetChecked_eq {info : NftBandwidthInfo} {now period periodEnd : ℤ}
    (hnow : now < 2 ^ 63) (hlow : period - 2 ^ 63 ≤ periodEnd) (h0 : 0 ≤ periodEnd)
    (h : nextPeriodReset info now period periodEnd < 2 ^ 63) :
    nextPeriodResetChecked info now period periodEnd =
      nextPeriodReset info now period periodEnd := by
  simp only [nextPeriodReset] at h
  simp only [nextPeriodResetChecked, nextPeriodReset]
  by_cases hpos : info.resetTime > 0
  · simp only [if_pos hpos] at h ⊢
    by_cases hahead : periodEnd + info.resetTime - period > now
    · rw [if_pos hahead] at h
      rw [toKtime_eq_self (by omega) h, if_pos hahead, if_pos hahead]
    · rw [if_neg hahead] at h
      rw [toKtime_eq_self (by omega) (show periodEnd + info.resetTime - period < 2 ^ 63 by omega),
        if_neg hahead, if_neg hahead, toKtime_eq_self (by omega) h]
  · rw [if_neg hpos] at h ⊢
    rw [if_neg hpos, toKtime_eq_self (by omega) h]

/-- By the calendar nothing overflows below `2 ^ 63`. -/
theorem Calendared.checked_eq {info : NftBandwidthInfo} (hinfo : Calendared info)
    (hmonth : info.resetInterval ≠ bandwidthMonth) {now : ℤ} (h0 : 0 ≤ now) (hnow : now < 2 ^ 63)
    {previousReset : ℤ} (h : getNextResetTime info now previousReset < 2 ^ 63) (rounds : ℕ) :
    getNextResetTimeChecked rounds info now previousReset =
      some (getNextResetTime info now previousReset) := by
  obtain ⟨hnamed, hkind, -, -⟩ := hinfo
  simp only [getNextResetTime, if_pos hnamed] at h
  simp only [getNextResetTimeChecked, getNextResetTime, if_pos hnamed]
  generalize info.resetInterval = k at *
  cases hkind with
  | minute =>
    have hend := lt_divS64_succ_mul now (k := 60) (by norm_num) (by norm_num)
    simp only [if_true] at h ⊢
    exact congrArg some (nextPeriodResetChecked_eq hnow (by omega) (by omega) h)
  | hour =>
    have hend := lt_divS64_succ_mul now (k := 60 * 60) (by norm_num) (by norm_num)
    rw [if_neg (by decide), if_pos rfl] at h ⊢
    rw [if_neg (by decide), if_pos rfl]
    exact congrArg some (nextPeriodResetChecked_eq hnow (by omega) (by omega) h)
  | day =>
    have hend := lt_divS64_succ_mul now (k := 60 * 60 * 24) (by norm_num) (by norm_num)
    rw [if_neg (by decide), if_neg (by decide), if_pos rfl] at h ⊢
    rw [if_neg (by decide), if_neg (by decide), if_pos rfl]
    exact congrArg some (nextPeriodResetChecked_eq hnow (by omega) (by omega) h)
  | week =>
    have hend := lt_divS64_succ_mul now (k := 60 * 60 * 24) (by norm_num) (by norm_num)
    have hwd := Int.tmod_lt_of_pos (4 + divS64 now (60 * 60 * 24)) (show (0 : ℤ) < 7 by norm_num)
    rw [if_neg (by decide), if_neg (by decide), if_neg (by decide), if_pos rfl] at h ⊢
    rw [if_neg (by decide), if_neg (by decide), if_neg (by decide), if_pos rfl]
    exact congrArg some (nextPeriodResetChecked_eq hnow (by omega) (by omega) h)
  | month => exact absurd rfl hmonth

/-- The next reset by the calendar is the first boundary behind now. -/
theorem Calendared.isLeast {info : NftBandwidthInfo} (h : Calendared info)
    (hmonth : info.resetInterval ≠ bandwidthMonth) {now : ℤ} (h0 : 0 ≤ now) (previousReset : ℤ) :
    IsLeast {t | now < t ∧ t ∈ info.resets previousReset}
      (getNextResetTime info now previousReset) := by
  have hnext := h.getNextResetTime_eq h0 (fun hk => absurd hk hmonth) previousReset
  obtain ⟨hnamed, hkind, htime, hlt⟩ := h
  rw [hnext, NftBandwidthInfo.resets, NftBandwidthInfo.resetLength, NftBandwidthInfo.resetBase,
    if_neg (by simp [hnamed]), if_neg (by simp [hnamed]), moduleNext]
  generalize info.resetInterval = k at *
  cases hkind with
  | minute =>
    rw [if_neg (by decide), shortestPeriod_minute, periodStart_minute, nextPeriod_minute] at *
    split_ifs
    · exact isLeast_of_le_add (by rw [Int.ModEq]; omega) (by omega) (by omega)
    · exact isLeast_of_le_add (by rw [Int.ModEq]; omega) (by omega) (by omega)
  | hour =>
    rw [if_neg (by decide), shortestPeriod_hour, periodStart_hour, nextPeriod_hour] at *
    split_ifs
    · exact isLeast_of_le_add (by rw [Int.ModEq]; omega) (by omega) (by omega)
    · exact isLeast_of_le_add (by rw [Int.ModEq]; omega) (by omega) (by omega)
  | day =>
    rw [if_neg (by decide), shortestPeriod_day, periodStart_day, nextPeriod_day] at *
    split_ifs
    · exact isLeast_of_le_add (by rw [Int.ModEq]; omega) (by omega) (by omega)
    · exact isLeast_of_le_add (by rw [Int.ModEq]; omega) (by omega) (by omega)
  | week =>
    rw [if_pos rfl, shortestPeriod_week, periodStart_week, nextPeriod_week] at *
    split_ifs
    · exact isLeast_of_le_add (by rw [Int.ModEq]; omega) (by omega) (by omega)
    · exact isLeast_of_le_add (by rw [Int.ModEq]; omega) (by omega) (by omega)
  | month => exact absurd rfl hmonth

/-! ## All periodic rules -/

section Periodic

variable {info : NftBandwidthInfo} {previousReset now now' first : ℤ}

theorem Periodic.findsNextReset (hinfo : Periodic info)
    (hktime : info.resetInterval < 2 ^ 63 ∧ info.resetTime < 2 ^ 63) (h0 : 0 ≤ now)
    (hnow : now < 2 ^ 63)
    (hprev : info.resetIsConstantInterval = true → 0 < previousReset ∧ previousReset ≤ now)
    (hleast : IsLeast {s | now < s ∧ s ∈ info.resets previousReset} first) (hfirst : first < 2 ^ 63)
    (hfits : DivisorFits info previousReset now) :
    FindsNextReset info previousReset now first := by
  rcases hinfo with hconst | ⟨hnamed, hmonth⟩
  · exact hconst.findsNextReset hktime.1 hktime.2 hnow (hprev hconst.constant) hleast hfirst hfits
  · have heq := (hnamed.isLeast hmonth h0 previousReset).unique hleast
    rw [← heq] at hfirst
    exact ⟨⟨0, heq ▸ hnamed.checked_eq hmonth h0 hnow hfirst 0⟩, hleast⟩

theorem Periodic.divisorFits (hinfo : Periodic info) (htime : info.resetTime < 2 ^ 63)
    (hend : now + info.resetLength < 2 ^ 63)
    (hprev : info.resetIsConstantInterval = true → 0 < previousReset ∧ previousReset ≤ now)
    (h : FindsNextReset info previousReset now first) : DivisorFits info previousReset now := by
  rcases hinfo with hconst | ⟨hnamed, -⟩
  · rw [NftBandwidthInfo.resetLength, if_pos hconst.constant] at hend
    exact hconst.divisorFits htime hend (hprev hconst.constant) h
  · exact fun hconst => absurd hconst (by simp [hnamed.named])

theorem Periodic.exists_isLeast (hinfo : Periodic info) (previousReset now : ℤ) :
    ∃ first ≤ now + info.resetLength,
      IsLeast {s | now < s ∧ s ∈ info.resets previousReset} first := by
  have hpos : 0 < info.resetLength := by
    rcases hinfo with hconst | ⟨hnamed, -⟩
    · rw [NftBandwidthInfo.resetLength, if_pos hconst.constant]
      exact hconst.interval_pos
    · rw [NftBandwidthInfo.resetLength, if_neg (by simp [hnamed.named])]
      exact hnamed.time_nonneg.trans_lt hnamed.time_lt
  have hgap := Int.emod_lt_of_pos (now - info.resetBase previousReset) hpos
  have hgap0 := Int.emod_nonneg (now - info.resetBase previousReset) hpos.ne'
  refine ⟨now - (now - info.resetBase previousReset) % info.resetLength + info.resetLength,
    by omega, isLeast_of_le_add ?_ (by omega) (by omega)⟩
  rw [Int.modEq_iff_dvd]
  refine ⟨-((now - info.resetBase previousReset) / info.resetLength) - 1, ?_⟩
  have hsplit := Int.mul_ediv_add_emod (now - info.resetBase previousReset) info.resetLength
  rw [mul_sub, mul_neg, mul_one]
  omega

/-- The first resets after two times are found, and in order, if the division fits at both. While
an interval after them still is a `ktime_t` this is exactly so. -/
theorem next_resets_found_iff (hinfo : Periodic info)
    (hktime : info.resetInterval < 2 ^ 63 ∧ info.resetTime < 2 ^ 63) (h0 : 0 ≤ now)
    (hle : now ≤ now') (hnow : now' < 2 ^ 63)
    (hprev : info.resetIsConstantInterval = true → 0 < previousReset ∧ previousReset ≤ now) :
    ((∃ t ∈ info.resets previousReset, now' < t ∧ t < 2 ^ 63) →
        DivisorFits info previousReset now → DivisorFits info previousReset now' →
          ∃ t t', FindsNextReset info previousReset now t ∧
            FindsNextReset info previousReset now' t' ∧ t ≤ t') ∧
      (now' + info.resetLength < 2 ^ 63 →
        ((∃ t t', FindsNextReset info previousReset now t ∧
            FindsNextReset info previousReset now' t' ∧ t ≤ t') ↔
          DivisorFits info previousReset now ∧ DivisorFits info previousReset now')) := by
  have hprev' : info.resetIsConstantInterval = true → 0 < previousReset ∧ previousReset ≤ now' :=
    fun hconst => ⟨(hprev hconst).1, (hprev hconst).2.trans hle⟩
  obtain ⟨first, hnear, hleast⟩ := hinfo.exists_isLeast previousReset now
  obtain ⟨first', hnear', hleast'⟩ := hinfo.exists_isLeast previousReset now'
  have horder := isLeast_mono hleast hleast' hle
  have hfound : first' < 2 ^ 63 → DivisorFits info previousReset now →
      DivisorFits info previousReset now' → ∃ t t', FindsNextReset info previousReset now t ∧
        FindsNextReset info previousReset now' t' ∧ t ≤ t' := fun hfirst hfits hfits' =>
    ⟨first, first', hinfo.findsNextReset hktime h0 (hle.trans_lt hnow) hprev hleast
      (horder.trans_lt hfirst) hfits, hinfo.findsNextReset hktime (h0.trans hle) hnow hprev' hleast'
      hfirst hfits', horder⟩
  constructor
  · rintro ⟨t, ht, hafter, hlt⟩
    exact hfound ((hleast'.2 ⟨hafter, ht⟩).trans_lt hlt)
  · intro hend
    refine ⟨?_, fun h => hfound (hnear'.trans_lt hend) h.1 h.2⟩
    rintro ⟨t, t', hfinds, hfinds', -⟩
    exact ⟨hinfo.divisorFits hktime.2 (by omega) hprev hfinds,
      hinfo.divisorFits hktime.2 hend hprev' hfinds'⟩

end Periodic

/-- A rule that resets every `interval` seconds. -/
def everySeconds (interval resetTime : ℤ) : NftBandwidthInfo :=
  { dailyFrom resetTime with resetIsConstantInterval := true, resetInterval := interval }

theorem constant_everySeconds {interval resetTime : ℤ} (hpos : 0 < interval) (h0 : 0 ≤ resetTime) :
    Constant (everySeconds interval resetTime) :=
  ⟨rfl, hpos, h0⟩

/-- Every two hours, counted from a time that still lies ahead. -/
theorem two_hours_found :
    ∃ t t', FindsNextReset (everySeconds 7200 100000) 500 1000 t ∧
      FindsNextReset (everySeconds 7200 100000) 500 6400 t' ∧ t ≤ t' := by
  have hconst := @constant_everySeconds 7200 100000 (by norm_num) (by norm_num)
  have hprev : (0 : ℤ) < 500 ∧ (500 : ℤ) ≤ 1000 := by norm_num
  have hfits : ∀ now, 0 ≤ now → DivisorFits (everySeconds 7200 100000) 500 now := fun now h0 =>
    divisorFits_of_lt hconst.interval_pos (show (7200 : ℤ) < 2 ^ 31 by norm_num) h0
  exact ((next_resets_found_iff (Or.inl hconst)
    ⟨show (7200 : ℤ) < 2 ^ 63 by norm_num, show (100000 : ℤ) < 2 ^ 63 by norm_num⟩ (by norm_num)
    (by norm_num) (by norm_num) fun _ => hprev).2 (show (6400 + 7200 : ℤ) < 2 ^ 63 by norm_num)).2
    ⟨hfits 1000 (by norm_num), hfits 6400 (by norm_num)⟩

/-- An interval of a minute more than 2^32 seconds is divided as a minute: two
minutes after the previous reset, the reset after the next one is returned. -/
theorem long_interval_stepped_over :
    Constant (everySeconds (2 ^ 32 + 60) 0) ∧
      (∀ rounds, getNextResetTimeChecked (rounds + 1) (everySeconds (2 ^ 32 + 60) 0) 1120 1000 =
        some (1000 + 2 * (2 ^ 32 + 60))) ∧
      ¬ ∃ t, FindsNextReset (everySeconds (2 ^ 32 + 60) 0) 1000 1120 t := by
  refine ⟨constant_everySeconds (by norm_num) le_rfl, fun rounds => rfl, ?_⟩
  rintro ⟨t, ⟨rounds, hrounds⟩, hleast⟩
  have hbetween : (1000 + (2 ^ 32 + 60) : ℤ) ∈
      (everySeconds (2 ^ 32 + 60) 0).resets 1000 :=
    show (1000 + (2 ^ 32 + 60) : ℤ) ≡ 1000 [ZMOD 2 ^ 32 + 60] by decide
  have hle := hleast.2 ⟨by norm_num, hbetween⟩
  cases rounds with
  | zero => cases hrounds
  | succ rounds =>
    have hreturned : (1000 + 2 * (2 ^ 32 + 60) : ℤ) = t := Option.some.inj hrounds
    omega

end Bandwidth

end Gargoyle
