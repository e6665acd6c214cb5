import Gargoyle.Bandwidth.ResetTime
import Mathlib.Algebra.Ring.Parity
import Mathlib.Data.Int.ModEq
import Mathlib.Tactic.Linarith

/-!
# Reset times in 64 bits

`getNextResetTimeChecked` is `get_next_reset_time` in the numbers of the kernel. Sums and
products wrap in a `ktime_t`, `div_s64` may be asked to divide by zero, and a table may be read
where it has no entry. The loops of a constant interval may go over the end of the numbers and never
find a time after `now`; they are followed for a number of rounds.

From a time that the first reset after `now` is in step with, and not before, a loop comes to that
reset (`advanceChecked_eq_some`).
-/

namespace Gargoyle

namespace Bandwidth

/-- The value a computation in `ktime_t` leaves. -/
def toKtime (x : ℤ) : ℤ := x.bmod (2 ^ 64)

def divS64Checked (dividend divisor : ℤ) : Option ℤ :=
  if divisor.bmod (2 ^ 32) = 0 then none else some (divS64 dividend divisor)

/-! ## Reads of the tables -/

def readTable (table : List ℤ) (i : ℤ) : Option ℤ := if 0 ≤ i then table[i.toNat]? else none

def findYear (days : ℤ) : List ℤ → ℕ → Option ℕ
  | [], _ => none
  | d :: ds, i => if d > days then findYear days ds (i + 1) else some i

/-- The search for the month down from the month `m`. -/
def findMonth (starts : List ℤ) (yearDay : ℤ) : ℕ → Option ℕ
  | 0 => some 0
  | m + 1 => do
    let d ← readTable starts ((m + 1 : ℕ) : ℤ)
    if d > yearDay then findMonth starts yearDay m else some (m + 1)

/-- The monthly branch of `get_next_reset_time`; `none` says that it reads outside
its tables. -/
def nextMonthResetChecked (info : NftBandwidthInfo) (now : ℤ) : Option ℤ := do
  let days := divS64 now (60 * 60 * 24)
  let yi ← findYear days daysSinceEpochForEachYearStart 0
  let year ← readTable daysSinceEpochForEachYearStart yi
  let yearDay := toInt32 (days - year)
  let starts := monthStartDays (2039 - yi)
  let month ← findMonth starts yearDay 11
  let start ← readTable starts month
  let altReset := toKtime (toInt32 ((year + start) * (60 * 60 * 24)) + info.resetTime)
  if altReset > now then some altReset
  else if month = 11 then do
    let next ← readTable daysSinceEpochForEachYearStart (yi - 1)
    some (toKtime (toInt32 (next * (60 * 60 * 24)) + info.resetTime))
  else do
    let next ← readTable starts (month + 1)
    some (toKtime (toInt32 ((year + next) * (60 * 60 * 24)) + info.resetTime))

/-! ## The branches -/

def nextPeriodResetChecked (info : NftBandwidthInfo) (now period periodEnd : ℤ) : ℤ :=
  if info.resetTime > 0 then
    let altReset := toKtime (periodEnd + info.resetTime - period)
    if altReset > now then altReset else toKtime (periodEnd + info.resetTime)
  else toKtime periodEnd

/-- `while(next_reset <= now) next_reset += reset_interval`. -/
def advanceChecked (interval now : ℤ) : ℕ → ℤ → Option ℤ
  | 0, _ => none
  | n + 1, t => if t ≤ now then advanceChecked interval now n (toKtime (t + interval)) else some t

def nextConstantResetChecked (rounds : ℕ) (info : NftBandwidthInfo) (now previousReset : ℤ) :
    Option ℤ :=
  if info.resetTime > 0 ∧ previousReset > 0 ∧ previousReset ≤ now then
    if info.resetTime > now then do
      let quotient ← divS64Checked (info.resetTime - now) info.resetInterval
      advanceChecked info.resetInterval now rounds
        (toKtime (info.resetTime - (quotient + 1) * info.resetInterval))
    else do
      let wholeIntervals ← divS64Checked (now - info.resetTime) info.resetInterval
      advanceChecked info.resetInterval now rounds
        (toKtime (info.resetTime + wholeIntervals * info.resetInterval))
  else if previousReset > 0 then
    if previousReset ≤ now then do
      let wholeIntervals ← divS64Checked (now - previousReset) info.resetInterval
      advanceChecked info.resetInterval now rounds
        (toKtime (previousReset + wholeIntervals * info.resetInterval))
    else some previousReset
  else some (toKtime (now + info.resetInterval))

/-- `get_next_reset_time`; `none` if it divides by zero, reads outside a table, or is still in a loop
after so many rounds. -/
def getNextResetTimeChecked (rounds : ℕ) (info : NftBandwidthInfo) (now previousReset : ℤ) :
    Option ℤ :=
  if info.resetIsConstantInterval = false then
    if info.resetInterval = bandwidthMinute then
      some (nextPeriodResetChecked info now 60 ((divS64 now 60 + 1) * 60))
    else if info.resetInterval = bandwidthHour then
      some (nextPeriodResetChecked info now (60 * 60) ((divS64 now (60 * 60) + 1) * 60 * 60))
    else if info.resetInterval = bandwidthDay then
      some (nextPeriodResetChecked info now (60 * 60 * 24)
        ((divS64 now (60 * 60 * 24) + 1) * 60 * 60 * 24))
    else if info.resetInterval = bandwidthWeek then
      let days := divS64 now (60 * 60 * 24)
      let currentWeekday := (4 + days).tmod 7
      some (nextPeriodResetChecked info now (60 * 60 * 24 * 7)
        ((days + (7 - currentWeekday)) * (60 * 60 * 24)))
    else if info.resetInterval = bandwidthMonth then nextMonthResetChecked info now
    else some 0
  else nextConstantResetChecked rounds info now previousReset

/-! ## Wrapping -/

theorem toKtime_eq_self {x : ℤ} (hlow : -2 ^ 63 ≤ x) (hhigh : x < 2 ^ 63) : toKtime x = x := by
  apply Int.bmod_eq_of_le <;> omega

theorem toKtime_bounds (x : ℤ) : -2 ^ 63 ≤ toKtime x ∧ toKtime x < 2 ^ 63 := by
  have hlow := @Int.le_bmod x (2 ^ 64) (by norm_num)
  have hhigh := @Int.bmod_lt x (2 ^ 64) (by norm_num)
  rw [toKtime]
  norm_num at hlow hhigh ⊢
  omega

theorem exists_toKtime_add (x : ℤ) : ∃ k, toKtime x + k * 2 ^ 64 = x := by
  refine ⟨x.bdiv (2 ^ 64), ?_⟩
  have hsplit := Int.bmod_add_bdiv x (2 ^ 64)
  rw [toKtime, mul_comm]
  exact_mod_cast hsplit

/-! ## The loops -/

section Loops

variable {interval now t first : ℤ}

/-- The loop comes to the first reset after `now`, if it begins at an earlier one or there. -/
theorem advanceChecked_eq_some (hpos : 0 < interval) (hbounds : -2 ^ 63 ≤ t)
    (hfirst : first < 2 ^ 63)
    (hleast : IsLeast {s | now < s ∧ s ≡ t [ZMOD interval]} first) (hle : t ≤ first) :
    ∃ rounds, advanceChecked interval now rounds t = some first := by
  obtain ⟨k, hk⟩ := hleast.1.2.symm.dvd
  have hk0 : 0 ≤ k := by
    by_contra hneg
    have hprod : interval * k < 0 := mul_neg_of_pos_of_neg hpos (not_le.1 hneg)
    omega
  obtain ⟨n, rfl⟩ := Int.eq_ofNat_of_zero_le hk0
  clear hk0
  induction n generalizing t with
  | zero =>
    have heq : t = first := by
      rw [Nat.cast_zero, mul_zero] at hk
      omega
    refine ⟨1, ?_⟩
    rw [advanceChecked, if_neg (not_le.2 (heq ▸ hleast.1.1)), heq]
  | succ n ih =>
    have hstep : first - (t + interval) = interval * (n : ℤ) := by
      push_cast at hk
      linarith
    have hn : 0 ≤ interval * (n : ℤ) := mul_nonneg hpos.le (Int.natCast_nonneg n)
    have hearlier : t ≤ now := by
      by_contra hlater
      have hmin := hleast.2 ⟨not_le.1 hlater, Int.ModEq.rfl⟩
      omega
    have hself : toKtime (t + interval) = t + interval := toKtime_eq_self (by omega) (by omega)
    have hclass : {s | now < s ∧ s ≡ t [ZMOD interval]} =
        {s | now < s ∧ s ≡ t + interval [ZMOD interval]} := by
      have hstep : t + interval ≡ t [ZMOD interval] := Int.add_modEq_right
      exact Set.ext fun s => and_congr_right fun _ =>
        ⟨fun h => h.trans hstep.symm, fun h => h.trans hstep⟩
    rw [hclass] at hleast
    obtain ⟨rounds, hrounds⟩ := ih (by omega) hleast (by omega) hstep
    refine ⟨rounds + 1, ?_⟩
    rw [advanceChecked, if_pos hearlier, hself, hrounds]

theorem advanceChecked_spec (hpos : 0 < interval) (hroom : now + interval < 2 ^ 63)
    (hbounds : -2 ^ 63 ≤ t) {rounds : ℕ} {r : ℤ}
    (h : advanceChecked interval now rounds t = some r) :
    now < r ∧ r ≡ t [ZMOD interval] ∧ t ≤ r := by
  induction rounds generalizing t with
  | zero => cases h
  | succ n ih =>
    rw [advanceChecked] at h
    split_ifs at h with hle
    · have hself : toKtime (t + interval) = t + interval := toKtime_eq_self (by omega) (by omega)
      rw [hself] at h
      obtain ⟨hlt, hmod, hge⟩ := ih (by omega) h
      exact ⟨hlt, hmod.trans Int.add_modEq_right, by omega⟩
    · obtain rfl := Option.some.inj h
      exact ⟨not_le.1 hle, Int.ModEq.rfl, le_rfl⟩

end Loops

end Bandwidth

end Gargoyle
