import Mathlib.Data.Int.ConditionallyCompleteOrder
import Mathlib.Tactic.IntervalCases
import Mathlib.Tactic.Linarith
import Mathlib.Tactic.Ring

/-!
# The Gregorian calendar

Days are counted from the first of January 1970, and months of a year from 0.
`dayNumber y m d` is the number of the day `d` of the month `m` of the year `y`,
where a month past the end of the year belongs to a later year and a day past the
end of the month to a later month, as `mktime` has it. `yearOf`, `monthOf` and
`dayOf` find the date of a day.
-/

namespace Calendar

def isLeapYear (y : ℤ) : Bool := y % 4 = 0 && (y % 100 ≠ 0 || y % 400 = 0)

/-- The number of days before the year `y`. -/
def daysBeforeYear (y : ℤ) : ℤ :=
  365 * (y - 1970) + (y - 1969) / 4 - (y - 1901) / 100 + (y - 1601) / 400

/-- The length of the month `m`. -/
def monthLength (y : ℤ) (m : ℕ) : ℤ :=
  if m = 1 then (if isLeapYear y then 29 else 28)
  else if m = 3 ∨ m = 5 ∨ m = 8 ∨ m = 10 then 30
  else 31

/-- The number of days of the year `y` before the month `m`. -/
def daysBeforeMonth (y : ℤ) : ℕ → ℤ
  | 0 => 0
  | m + 1 => daysBeforeMonth y m + monthLength y m

/-- The number of the day `d` of the month `m` of the year `y`. -/
def dayNumber (y m d : ℤ) : ℤ :=
  daysBeforeYear (y + m / 12) + daysBeforeMonth (y + m / 12) (m % 12).toNat + (d - 1)

/-! ## The date of a day -/

def yearFrom (day : ℤ) : ℕ → ℤ → ℤ
  | 0, y => y
  | n + 1, y => if daysBeforeYear y ≤ day then y else yearFrom day n (y - 1)

def yearOf (day : ℤ) : ℤ :=
  yearFrom day (max (day / 365) (day / 366) - min (day / 365) (day / 366)).toNat
    (1970 + max (day / 365) (day / 366))

def monthFrom (y yearDay : ℤ) : ℕ → ℕ
  | 0 => 0
  | m + 1 => if daysBeforeMonth y (m + 1) ≤ yearDay then m + 1 else monthFrom y yearDay m

def monthOf (day : ℤ) : ℕ := monthFrom (yearOf day) (day - daysBeforeYear (yearOf day)) 11

def dayOf (day : ℤ) : ℤ :=
  day - daysBeforeYear (yearOf day) - daysBeforeMonth (yearOf day) (monthOf day) + 1

theorem isLeapYear_iff (y : ℤ) : isLeapYear y = true ↔ y % 4 = 0 ∧ (y % 100 ≠ 0 ∨ y % 400 = 0) := by
  simp [isLeapYear]

theorem daysBeforeMonth_twelve (y : ℤ) :
    daysBeforeYear y + daysBeforeMonth y 12 = daysBeforeYear (y + 1) := by
  have hlength : daysBeforeMonth y 12 = if isLeapYear y then 366 else 365 := by
    cases hleap : isLeapYear y <;> simp [daysBeforeMonth, monthLength, hleap]
  have hleap := isLeapYear_iff y
  rw [hlength]
  unfold daysBeforeYear
  split_ifs with h
  · have := hleap.1 h
    omega
  · have := mt hleap.2 h
    omega

theorem monthLength_bounds (y : ℤ) (m : ℕ) : 28 ≤ monthLength y m ∧ monthLength y m ≤ 31 := by
  unfold monthLength
  split_ifs <;> omega

theorem daysBeforeYear_mono {y y' : ℤ} (h : y ≤ y') : daysBeforeYear y ≤ daysBeforeYear y' := by
  unfold daysBeforeYear
  omega

theorem yearFrom_spec {day : ℤ} (n : ℕ) {y : ℤ} (hlow : daysBeforeYear (y - n) ≤ day)
    (hhigh : day < daysBeforeYear (y + 1)) :
    daysBeforeYear (yearFrom day n y) ≤ day ∧ day < daysBeforeYear (yearFrom day n y + 1) := by
  induction n generalizing y with
  | zero =>
    rw [Nat.cast_zero, sub_zero] at hlow
    exact ⟨hlow, hhigh⟩
  | succ n ih =>
    rw [yearFrom]
    split_ifs with hle
    · exact ⟨hle, hhigh⟩
    · refine ih ?_ ?_
      · rw [show y - 1 - (n : ℤ) = y - ((n + 1 : ℕ) : ℤ) by push_cast; ring]
        exact hlow
      · rw [sub_add_cancel]
        exact not_le.1 hle

theorem daysBeforeYear_bounds (k : ℤ) :
    (0 ≤ k → 365 * k ≤ daysBeforeYear (1970 + k) ∧ daysBeforeYear (1970 + k) ≤ 366 * k) ∧
      (k ≤ 0 → 366 * k ≤ daysBeforeYear (1970 + k) ∧ daysBeforeYear (1970 + k) ≤ 365 * k) := by
  unfold daysBeforeYear
  -- near zero the quotients have to be computed
  by_cases hsmall : -2 ≤ k ∧ k ≤ 2
  · obtain ⟨hlow, hhigh⟩ := hsmall
    interval_cases k <;> norm_num
  · omega

theorem yearOf_spec (day : ℤ) :
    daysBeforeYear (yearOf day) ≤ day ∧ day < daysBeforeYear (yearOf day + 1) := by
  have hmax : min (day / 365) (day / 366) ≤ max (day / 365) (day / 366) := min_le_max
  refine yearFrom_spec _ ?_ ?_
  · have hbounds := daysBeforeYear_bounds (min (day / 365) (day / 366))
    rw [Int.toNat_of_nonneg (by omega), show ∀ a b : ℤ, 1970 + a - (a - b) = 1970 + b by intros; ring]
    omega
  · have hbounds := daysBeforeYear_bounds (max (day / 365) (day / 366) + 1)
    rw [← add_assoc] at hbounds
    omega

theorem yearOf_eq {day y : ℤ} (hlow : daysBeforeYear y ≤ day) (hhigh : day < daysBeforeYear (y + 1)) :
    yearOf day = y := by
  obtain ⟨hlow', hhigh'⟩ := yearOf_spec day
  rcases lt_trichotomy (yearOf day) y with hlt | heq | hgt
  · have := daysBeforeYear_mono (show yearOf day + 1 ≤ y by omega)
    omega
  · exact heq
  · have := daysBeforeYear_mono (show y + 1 ≤ yearOf day by omega)
    omega

theorem monthFrom_spec (y yearDay : ℤ) (m : ℕ) (hlow : 0 ≤ yearDay)
    (hhigh : yearDay < daysBeforeMonth y (m + 1)) :
    monthFrom y yearDay m ≤ m ∧ daysBeforeMonth y (monthFrom y yearDay m) ≤ yearDay ∧
      yearDay < daysBeforeMonth y (monthFrom y yearDay m + 1) := by
  induction m with
  | zero => exact ⟨le_rfl, hlow, hhigh⟩
  | succ m ih =>
    rw [monthFrom]
    split_ifs with hle
    · exact ⟨le_rfl, hle, hhigh⟩
    · obtain ⟨hm, hrest⟩ := ih (not_le.1 hle)
      exact ⟨hm.trans (Nat.le_succ m), hrest⟩

/-! ## Months -/

def firstDay (month : ℤ) : ℤ := dayNumber 0 month 1

def monthNumber (day : ℤ) : ℤ := 12 * yearOf day + monthOf day

theorem dayNumber_eq_firstDay (y m d : ℤ) : dayNumber y m d = firstDay (12 * y + m) + (d - 1) := by
  have hyear : 0 + (12 * y + m) / 12 = y + m / 12 := by omega
  have hmonth : (12 * y + m) % 12 = m % 12 := by omega
  simp only [firstDay, dayNumber, hyear, hmonth]
  ring

theorem firstDay_of_year (y : ℤ) {m : ℕ} (hm : m < 12) :
    firstDay (12 * y + m) = daysBeforeYear y + daysBeforeMonth y m := by
  have hyear : 0 + (12 * y + (m : ℤ)) / 12 = y := by omega
  have hmonth : ((12 * y + (m : ℤ)) % 12).toNat = m := by omega
  simp only [firstDay, dayNumber, hyear, hmonth]
  ring

theorem firstDay_succ_of_year (y : ℤ) {m : ℕ} (hm : m < 12) :
    firstDay (12 * y + m + 1) = daysBeforeYear y + daysBeforeMonth y (m + 1) := by
  by_cases hlast : m = 11
  · subst hlast
    have hnext : 12 * y + ((11 : ℕ) : ℤ) + 1 = 12 * (y + 1) + ((0 : ℕ) : ℤ) := by
      push_cast
      ring
    rw [hnext, firstDay_of_year (y + 1) (by omega), daysBeforeMonth_twelve, daysBeforeMonth]
    ring
  · rw [add_assoc, ← Nat.cast_succ, firstDay_of_year y (by omega)]

theorem firstDay_succ_bounds (month : ℤ) :
    firstDay month + 28 ≤ firstDay (month + 1) ∧ firstDay (month + 1) ≤ firstDay month + 31 := by
  have hsplit : month = 12 * (month / 12) + ((month % 12).toNat : ℕ) := by omega
  have hm : (month % 12).toNat < 12 := by omega
  rw [hsplit, firstDay_of_year _ hm, firstDay_succ_of_year _ hm, daysBeforeMonth]
  obtain ⟨hlow, hhigh⟩ := monthLength_bounds (month / 12) (month % 12).toNat
  constructor
  · linarith
  · linarith

theorem firstDay_lt_succ (month : ℤ) : firstDay month + 28 ≤ firstDay (month + 1) :=
  (firstDay_succ_bounds month).1

theorem firstDay_strictMono : StrictMono firstDay := by
  refine strictMono_int_of_lt_succ fun month => ?_
  have := firstDay_lt_succ month
  omega

theorem monthOf_spec (day : ℤ) :
    monthOf day < 12 ∧
      daysBeforeYear (yearOf day) + daysBeforeMonth (yearOf day) (monthOf day) ≤ day ∧
      day < daysBeforeYear (yearOf day) + daysBeforeMonth (yearOf day) (monthOf day + 1) := by
  obtain ⟨hlow, hhigh⟩ := yearOf_spec day
  rw [← daysBeforeMonth_twelve] at hhigh
  obtain ⟨hm, hmonth, hnext⟩ := monthFrom_spec (yearOf day) (day - daysBeforeYear (yearOf day)) 11
    (by omega) (by rw [show 11 + 1 = 12 from rfl]; omega)
  rw [monthOf]
  exact ⟨Nat.lt_succ_of_le hm, by omega, by omega⟩

theorem monthNumber_spec (day : ℤ) :
    firstDay (monthNumber day) ≤ day ∧ day < firstDay (monthNumber day + 1) := by
  obtain ⟨hm, hmonth, hnext⟩ := monthOf_spec day
  rw [monthNumber, firstDay_of_year _ hm, firstDay_succ_of_year _ hm]
  exact ⟨hmonth, hnext⟩

theorem le_monthNumber_iff {month day : ℤ} : month ≤ monthNumber day ↔ firstDay month ≤ day := by
  obtain ⟨hlow, hhigh⟩ := monthNumber_spec day
  constructor
  · intro hle
    exact (firstDay_strictMono.monotone hle).trans hlow
  · intro hle
    exact Int.lt_add_one_iff.1 (firstDay_strictMono.lt_iff_lt.1 (hle.trans_lt hhigh))

theorem monthNumber_eq {day month : ℤ} (hlow : firstDay month ≤ day)
    (hhigh : day < firstDay (month + 1)) : monthNumber day = month := by
  have h₁ := le_monthNumber_iff.2 hlow
  have h₂ := mt le_monthNumber_iff.1 (not_le.2 hhigh)
  omega

theorem monthNumber_firstDay (month : ℤ) : monthNumber (firstDay month) = month :=
  monthNumber_eq le_rfl (firstDay_strictMono (lt_add_one month))

theorem dayOf_eq (day : ℤ) : dayOf day = day - firstDay (monthNumber day) + 1 := by
  rw [monthNumber, firstDay_of_year _ (monthOf_spec day).1, dayOf]
  ring

theorem dayNumber_date (day d : ℤ) :
    dayNumber (yearOf day) (monthOf day) (dayOf day + d) = day + d := by
  rw [dayNumber_eq_firstDay, ← monthNumber, dayOf_eq]
  ring

end Calendar
