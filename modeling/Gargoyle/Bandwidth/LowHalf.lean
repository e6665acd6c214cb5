import Gargoyle.Bandwidth.CheckedReset
import Mathlib.Data.Nat.Factorization.Basic
import Mathlib.RingTheory.Coprime.Lemmas
import Mathlib.Tactic.Positivity
import Mathlib.Tactic.Ring

/-!
# Dividing by the low half of an interval

For a constant interval `get_next_reset_time` divides by the low 32 bits of the interval and
multiplies the quotient by all of it. What it has then is in step with the resets as long as nothing
wraps, and too late once the quotient is too large. `FitsBehind` and `FitsAhead` say for which
times it is neither, without the quotient.

When the product wraps, what is left is out of step, since the interval would have to divide the
multiple of `2 ^ 64` that is gone (`interval_le_of_dvd`). There is one exception: an interval of
`2 ^ 31` seconds, which divides `2 ^ 64` itself.
-/

namespace Gargoyle

namespace Bandwidth

def FitsBehind (interval base now : ℤ) : Prop :=
  let d := interval.bmod (2 ^ 32)
  0 < d ∧ (interval = d ∨ now - base < 2 * d) ∨
    d < 0 ∧ now - base < -d * ((2 ^ 63 + base) / interval + 1)

def FitsAhead (interval base now : ℤ) : Prop :=
  let d := interval.bmod (2 ^ 32)
  0 < d ∧ base - now < d * ((2 ^ 63 + base) / interval) ∨
    d < 0 ∧ (base - now ≤ interval ∧ base - now < 2 * -d ∨
      interval = 2 ^ 31 ∧ 2 ^ 63 ≤ base + ((base - now) / 2 ^ 31 - 1) * 2 ^ 31)

/-! ## What a wrapped product is in step with -/

/-- Only a long interval divides a multiple of `2 ^ 64`. -/
theorem interval_le_of_dvd {interval k : ℤ} (hpos : 0 < interval) (hk : k ≠ 0)
    (hd : interval.bmod (2 ^ 32) ≠ 0) (hdvd : interval ∣ k * 2 ^ 64) :
    interval ≤ |k| * |interval.bmod (2 ^ 32)| := by
  obtain ⟨a, o, hodd, hn⟩ := Nat.exists_eq_two_pow_mul_odd (n := interval.natAbs) (by omega)
  have hinterval : interval = 2 ^ a * (o : ℤ) := by
    rw [← Int.natAbs_of_nonneg hpos.le, hn]
    push_cast
    rfl
  have ho : (o : ℤ) ∣ k := by
    have hcop : IsCoprime (o : ℤ) (2 ^ 64) := by
      refine IsCoprime.pow_right ?_
      rw [Int.isCoprime_iff_gcd_eq_one]
      exact (Nat.coprime_two_right (n := o)).2 hodd
    refine hcop.dvd_of_dvd_mul_right (dvd_trans ?_ hdvd)
    exact hinterval ▸ Dvd.intro_left _ rfl
  have ha : (2 : ℤ) ^ a ∣ interval.bmod (2 ^ 32) := by
    have hsplit := Int.bmod_add_bdiv interval (2 ^ 32)
    have hlow : a ≤ 32 := by
      by_contra hlarge
      refine hd (Int.bmod_eq_zero_of_dvd ?_)
      have hpow : (2 : ℤ) ^ 32 ∣ 2 ^ a := pow_dvd_pow 2 (not_le.1 hlarge).le
      rw [hinterval]
      exact_mod_cast Dvd.dvd.mul_right hpow (o : ℤ)
    rw [← eq_sub_iff_add_eq] at hsplit
    rw [hsplit]
    push_cast
    refine dvd_sub (hinterval ▸ Dvd.intro _ rfl) (Dvd.dvd.mul_right ?_ _)
    exact pow_dvd_pow 2 hlow
  have hole : (o : ℤ) ≤ |k| := Int.le_of_dvd (abs_pos.2 hk) ((dvd_abs _ _).2 ho)
  have hale : (2 : ℤ) ^ a ≤ |interval.bmod (2 ^ 32)| :=
    Int.le_of_dvd (abs_pos.2 hd) ((dvd_abs _ _).2 ha)
  calc interval = o * 2 ^ a := by rw [hinterval, mul_comm]
    _ ≤ |k| * |interval.bmod (2 ^ 32)| := by
      exact mul_le_mul hole hale (by positivity) (abs_nonneg k)

theorem low_half_spec (interval : ℤ) : ∃ m, interval.bmod (2 ^ 32) + m * 2 ^ 32 = interval ∧
    -2 ^ 31 ≤ interval.bmod (2 ^ 32) ∧ interval.bmod (2 ^ 32) < 2 ^ 31 := by
  have hsplit := Int.bmod_add_bdiv interval (2 ^ 32)
  have hlow := @Int.le_bmod interval (2 ^ 32) (by norm_num)
  have hhigh := @Int.bmod_lt interval (2 ^ 32) (by norm_num)
  refine ⟨interval.bdiv (2 ^ 32), ?_, ?_⟩
  · rw [mul_comm]
    exact_mod_cast hsplit
  · norm_num at hlow hhigh ⊢
    omega

theorem add_mul_modEq (base interval k : ℤ) : base + k * interval ≡ base [ZMOD interval] := by
  rw [Int.modEq_iff_dvd]
  exact ⟨-k, by ring⟩

theorem toKtime_in_class {interval base q : ℤ} (hpos : 0 < interval)
    (hd : interval.bmod (2 ^ 32) ≠ 0)
    (hmod : toKtime (base + q * interval) ≡ base [ZMOD interval]) :
    ∃ k, toKtime (base + q * interval) + k * 2 ^ 64 = base + q * interval ∧
      interval ∣ k * 2 ^ 64 ∧ (k ≠ 0 → interval ≤ |k| * |interval.bmod (2 ^ 32)|) := by
  obtain ⟨k, hk⟩ := exists_toKtime_add (base + q * interval)
  have hdvd : interval ∣ k * 2 ^ 64 := by
    have hsub : k * 2 ^ 64 = base - toKtime (base + q * interval) + interval * q := by linarith
    rw [hsub]
    exact dvd_add hmod.dvd (dvd_mul_right interval q)
  exact ⟨k, hk, hdvd, fun hk0 => interval_le_of_dvd hpos hk0 hd hdvd⟩

/-! ## A base that is past -/

section Behind

variable {interval base now : ℤ}

theorem fits_behind_iff_of_pos (hb : 0 < base) (hbn : base ≤ now) (hnow : now < 2 ^ 63)
    (hroom : ∀ s, s ≡ base [ZMOD interval] → s ≤ now + interval → s < 2 ^ 63)
    (hpos : 0 < interval) (hd : 0 < interval.bmod (2 ^ 32)) :
    (toKtime (base + divS64 (now - base) interval * interval) ≡ base [ZMOD interval] ∧
        toKtime (base + divS64 (now - base) interval * interval) ≤ now + interval) ↔
      interval = interval.bmod (2 ^ 32) ∨ now - base < 2 * interval.bmod (2 ^ 32) := by
  obtain ⟨m, hm, -, hdlt⟩ := low_half_spec interval
  rw [divS64, Int.tdiv_eq_ediv_of_nonneg (by omega)]
  generalize hdd : interval.bmod (2 ^ 32) = d at *
  have hlow := Int.ediv_mul_le (now - base) hd.ne'
  have hhigh := Int.lt_ediv_add_one_mul_self (now - base) hd
  have hq0 : 0 ≤ (now - base) / d := Int.ediv_nonneg (by omega) hd.le
  generalize hq : (now - base) / d = q at *
  have hm0 : 0 ≤ m := by omega
  rcases hm0.eq_or_lt with rfl | hmpos
  · -- the interval is a 32-bit number
    have hself : interval = d := by omega
    have hfit : base + q * interval ≤ now := by rw [hself]; omega
    have hge : 0 ≤ q * interval := mul_nonneg hq0 hpos.le
    rw [toKtime_eq_self (by omega) (by omega)]
    exact iff_of_true ⟨add_mul_modEq _ _ _, by omega⟩ (Or.inl hself)
  · have hne : interval ≠ d := by omega
    rw [or_iff_right hne]
    constructor
    · rintro ⟨hmod, hle⟩
      by_contra hnot
      have hq2 : 2 ≤ q := by
        by_contra hlt
        have : (q + 1) * d ≤ 2 * d := mul_le_mul_of_nonneg_right (by omega) hd.le
        omega
      obtain ⟨k, hk, -, hbound⟩ := toKtime_in_class hpos (by omega) hmod
      have hprod : 0 < q * interval := mul_pos (by omega) hpos
      have hbounds := toKtime_bounds (base + q * interval)
      have hk0 : 0 ≤ k := by omega
      rcases hk0.eq_or_lt with rfl | hkpos
      · -- the first boundary is stepped past
        have h1 : (q - 1) * (2 ^ 32 + d) ≤ (q - 1) * interval :=
          mul_le_mul_of_nonneg_left (by omega) (by omega)
        have h2 : (q - 1) * interval = q * interval - interval := by ring
        have h3 : (q - 1) * (2 ^ 32 + d) = (q - 2) * 2 ^ 32 + 2 ^ 32 + (q + 1) * d - 2 * d := by ring
        have h4 : 0 ≤ (q - 2) * 2 ^ 32 := mul_nonneg (by omega) (by norm_num)
        omega
      · -- the product has wrapped
        have hwide := hbound hkpos.ne'
        rw [hdd, abs_of_pos hkpos, abs_of_pos hd] at hwide
        have h1 : d * (k * 2 ^ 64) ≤ d * (base + q * interval + 2 ^ 63) :=
          mul_le_mul_of_nonneg_left (by omega) hd.le
        have h2 : interval * 2 ^ 64 ≤ k * d * 2 ^ 64 := mul_le_mul_of_nonneg_right hwide (by norm_num)
        have h3 : q * d * interval ≤ (now - base) * interval :=
          mul_le_mul_of_nonneg_right hlow hpos.le
        have h4 : d * base ≤ interval * base := mul_le_mul_of_nonneg_right (by omega) hb.le
        have h5 : now * interval ≤ 2 ^ 63 * interval := mul_le_mul_of_nonneg_right hnow.le hpos.le
        nlinarith only [h1, h2, h3, h4, h5, hm, hmpos, hdlt]
    · intro hfew
      have hqle : q ≤ 1 := by
        by_contra hlt
        have : 2 * d ≤ q * d := mul_le_mul_of_nonneg_right (by omega) hd.le
        omega
      have hle : q * interval ≤ 1 * interval := mul_le_mul_of_nonneg_right hqle hpos.le
      have hge : 0 ≤ q * interval := mul_nonneg hq0 hpos.le
      have hmod := add_mul_modEq base interval q
      have hlt := hroom _ hmod (by omega)
      rw [toKtime_eq_self (by omega) hlt]
      exact ⟨hmod, by omega⟩

theorem fits_behind_iff_of_neg (hb : 0 < base) (hbn : base ≤ now) (hnow : now < 2 ^ 63)
    (hpos : 0 < interval) (hd : interval.bmod (2 ^ 32) < 0) :
    (toKtime (base + divS64 (now - base) interval * interval) ≡ base [ZMOD interval] ∧
        toKtime (base + divS64 (now - base) interval * interval) ≤ now + interval) ↔
      now - base < -interval.bmod (2 ^ 32) * ((2 ^ 63 + base) / interval + 1) := by
  obtain ⟨m, hm, hdge, -⟩ := low_half_spec interval
  obtain ⟨e, he⟩ : ∃ e, interval.bmod (2 ^ 32) = -e := ⟨_, (neg_neg _).symm⟩
  rw [divS64, he, Int.tdiv_neg, Int.tdiv_eq_ediv_of_nonneg (by omega), neg_neg]
  rw [he] at hm hdge hd
  have hepos : 0 < e := by omega
  have hele : e ≤ interval := by omega
  have hlow := Int.ediv_mul_le (now - base) hepos.ne'
  have hiff := Int.ediv_lt_iff_lt_mul (a := now - base) (b := (2 ^ 63 + base) / interval + 1) hepos
  have hroom := Int.le_ediv_iff_mul_le (a := (now - base) / e) (b := 2 ^ 63 + base) hpos
  have hn0 : 0 ≤ (now - base) / e := Int.ediv_nonneg (by omega) hepos.le
  rw [mul_comm e, ← hiff, Int.lt_add_one_iff, hroom]
  generalize (now - base) / e = n at *
  have hprod : 0 ≤ n * interval := mul_nonneg hn0 hpos.le
  constructor
  · rintro ⟨hmod, -⟩
    by_contra hfar
    obtain ⟨k, hk, -, hbound⟩ := toKtime_in_class hpos (by omega) hmod
    have hbounds := toKtime_bounds (base + -n * interval)
    have hneg : -n * interval = -(n * interval) := neg_mul _ _
    have hkneg : k < 0 := by omega
    have hwide := hbound hkneg.ne
    rw [he, abs_neg, abs_of_neg hkneg, abs_of_pos hepos] at hwide
    have h1 : e * (-k * 2 ^ 64) ≤ e * (2 ^ 63 - base + n * interval) :=
      mul_le_mul_of_nonneg_left (by omega) hepos.le
    have h2 : interval * 2 ^ 64 ≤ -k * e * 2 ^ 64 := mul_le_mul_of_nonneg_right hwide (by norm_num)
    have h3 : n * e * interval ≤ (now - base) * interval := mul_le_mul_of_nonneg_right hlow hpos.le
    have h4 : (now - base) * interval ≤ (2 ^ 63 - 1) * interval :=
      mul_le_mul_of_nonneg_right (by omega) hpos.le
    have h5 : 0 ≤ e * base := mul_nonneg hepos.le hb.le
    nlinarith only [h1, h2, h3, h4, h5, hele, hpos]
  · intro hnear
    have hneg : -n * interval = -(n * interval) := neg_mul _ _
    rw [toKtime_eq_self (by omega) (by omega)]
    exact ⟨add_mul_modEq _ _ _, by omega⟩

end Behind

/-! ## A base that lies ahead -/

section Ahead

variable {interval base now : ℤ}

theorem fits_ahead_iff_of_pos (hb : now < base) (h0 : 0 ≤ now) (hbase : base < 2 ^ 63)
    (hpos : 0 < interval) (hinterval : interval < 2 ^ 63) (hd : 0 < interval.bmod (2 ^ 32)) :
    (toKtime (base - (divS64 (base - now) interval + 1) * interval) ≡ base [ZMOD interval] ∧
        toKtime (base - (divS64 (base - now) interval + 1) * interval) ≤ now + interval) ↔
      base - now < interval.bmod (2 ^ 32) * ((2 ^ 63 + base) / interval) := by
  obtain ⟨m, hm, -, hdlt⟩ := low_half_spec interval
  have hdle : interval.bmod (2 ^ 32) ≤ interval := by omega
  rw [divS64, Int.tdiv_eq_ediv_of_nonneg (by omega)]
  generalize hdd : interval.bmod (2 ^ 32) = d at *
  have hlow := Int.ediv_mul_le (base - now) hd.ne'
  have hhigh := Int.lt_ediv_add_one_mul_self (base - now) hd
  have hiff := Int.ediv_lt_iff_lt_mul (a := base - now) (b := (2 ^ 63 + base) / interval) hd
  have hroom := Int.le_ediv_iff_mul_le (a := (base - now) / d + 1) (b := 2 ^ 63 + base) hpos
  have hn0 : 0 ≤ (base - now) / d := Int.ediv_nonneg (by omega) hd.le
  rw [mul_comm d, ← hiff, ← Int.add_one_le_iff, hroom]
  generalize (base - now) / d = n at *
  have hback : (n + 1) * d ≤ (n + 1) * interval := mul_le_mul_of_nonneg_left hdle (by omega)
  have hneg : base + -(n + 1) * interval = base - (n + 1) * interval := by ring
  constructor
  · rintro ⟨hmod, -⟩
    by_contra hfar
    rw [← hneg] at hmod
    obtain ⟨k, hk, -, hbound⟩ := toKtime_in_class hpos (by omega) hmod
    rw [hneg] at hk
    have hbounds := toKtime_bounds (base - (n + 1) * interval)
    have hkneg : k < 0 := by omega
    have hwide := hbound hkneg.ne
    rw [hdd, abs_of_neg hkneg, abs_of_pos hd] at hwide
    have hne : m ≠ 0 := by
      rintro rfl
      have hself : interval = d := by omega
      rw [hself] at hfar
      have hexpand : (n + 1) * d = n * d + d := by ring
      omega
    have h1 : d * (-k * 2 ^ 64) ≤ d * (2 ^ 63 - base + (n + 1) * interval) :=
      mul_le_mul_of_nonneg_left (by omega) hd.le
    have h2 : interval * 2 ^ 64 ≤ -k * d * 2 ^ 64 := mul_le_mul_of_nonneg_right hwide (by norm_num)
    have h3 : n * d * interval ≤ (base - now) * interval := mul_le_mul_of_nonneg_right hlow hpos.le
    have h4 : (base - now) * interval ≤ 2 ^ 63 * interval :=
      mul_le_mul_of_nonneg_right (by omega) hpos.le
    have h5 : 0 ≤ d * base := mul_nonneg hd.le (by omega)
    have h6 : d * interval ≤ 2 ^ 31 * interval := mul_le_mul_of_nonneg_right hdlt.le hpos.le
    have hm1 : 1 ≤ m := by omega
    nlinarith only [h1, h2, h3, h4, h5, h6, hm, hm1, hdlt, hinterval, hd]
  · intro hnear
    rw [toKtime_eq_self (by omega) (by omega), ← hneg]
    exact ⟨add_mul_modEq _ _ _, by omega⟩

theorem eq_of_dvd_two_pow {interval : ℤ} (hlow : 2 ^ 31 ≤ interval) (hhigh : interval < 2 ^ 32)
    (hdvd : interval ∣ 2 ^ 64) : interval = 2 ^ 31 := by
  obtain ⟨n, rfl⟩ := Int.eq_ofNat_of_zero_le (show 0 ≤ interval by omega)
  obtain ⟨a, -, rfl⟩ := (Nat.dvd_prime_pow Nat.prime_two).1
    (show n ∣ 2 ^ 64 by exact_mod_cast hdvd)
  have ha : 31 ≤ a := (Nat.pow_le_pow_iff_right (by norm_num : 1 < 2)).1 (by exact_mod_cast hlow)
  have ha' : a < 32 := (Nat.pow_lt_pow_iff_right (by norm_num : 1 < 2)).1 (by exact_mod_cast hhigh)
  obtain rfl : a = 31 := by omega
  norm_num

theorem fits_ahead_iff_of_neg (hb : now < base) (h0 : 0 ≤ now) (hbase : base < 2 ^ 63)
    (hpos : 0 < interval) (hinterval : interval < 2 ^ 63) (hd : interval.bmod (2 ^ 32) < 0)
    (hroom : ∀ s, s ≡ base [ZMOD interval] → s ≤ now + interval → s < 2 ^ 63) :
    (toKtime (base - (divS64 (base - now) interval + 1) * interval) ≡ base [ZMOD interval] ∧
        toKtime (base - (divS64 (base - now) interval + 1) * interval) ≤ now + interval) ↔
      base - now ≤ interval ∧ base - now < 2 * -interval.bmod (2 ^ 32) ∨
        interval = 2 ^ 31 ∧ 2 ^ 63 ≤ base + ((base - now) / 2 ^ 31 - 1) * 2 ^ 31 := by
  obtain ⟨m, hm, hdge, -⟩ := low_half_spec interval
  obtain ⟨e, he⟩ : ∃ e, interval.bmod (2 ^ 32) = -e := ⟨_, (neg_neg _).symm⟩
  have hspecial : interval = 2 ^ 31 → e = 2 ^ 31 := by
    rintro rfl
    rw [← neg_inj, ← he]
    decide
  rw [divS64, he, Int.tdiv_neg, Int.tdiv_eq_ediv_of_nonneg (by omega), neg_neg]
  rw [he] at hm hdge hd
  have hepos : 0 < e := by omega
  have hele : e ≤ interval := by omega
  have hlow := Int.ediv_mul_le (base - now) hepos.ne'
  have hhigh := Int.lt_ediv_add_one_mul_self (base - now) hepos
  have hn0 : 0 ≤ (base - now) / e := Int.ediv_nonneg (by omega) hepos.le
  generalize hn : (base - now) / e = n at *
  have hsum : base - (-n + 1) * interval = base + (n - 1) * interval := by ring
  rw [hsum]
  have hmod' := add_mul_modEq base interval (n - 1)
  constructor
  · rintro ⟨hmod, hle⟩
    obtain ⟨k, hk, hdvd, hbound⟩ := toKtime_in_class hpos (by omega) hmod
    have hbounds := toKtime_bounds (base + (n - 1) * interval)
    have hstart : -interval ≤ (n - 1) * interval := by
      have h := mul_le_mul_of_nonneg_right (show (-1 : ℤ) ≤ n - 1 by omega) hpos.le
      omega
    have hk0 : 0 ≤ k := by omega
    rcases hk0.eq_or_lt with rfl | hkpos
    · -- nothing has wrapped
      have hn1 : n ≤ 1 := by
        by_contra hmany
        have h := mul_le_mul_of_nonneg_right (show (1 : ℤ) ≤ n - 1 by omega) hpos.le
        omega
      have hup := mul_le_mul_of_nonneg_right (show n + 1 ≤ 2 by omega) hepos.le
      refine Or.inl ⟨?_, by omega⟩
      rcases hn0.eq_or_lt with rfl | hnpos
      · omega
      · obtain rfl : n = 1 := by omega
        omega
    · have hwide := hbound hkpos.ne'
      rw [he, abs_neg, abs_of_pos hkpos, abs_of_pos hepos] at hwide
      have h1 : e * (k * 2 ^ 64) ≤ e * (base + (n - 1) * interval + 2 ^ 63) :=
        mul_le_mul_of_nonneg_left (by omega) hepos.le
      have h2 : interval * 2 ^ 64 ≤ k * e * 2 ^ 64 := mul_le_mul_of_nonneg_right hwide (by norm_num)
      have h3 : n * e * interval ≤ (base - now) * interval :=
        mul_le_mul_of_nonneg_right hlow hpos.le
      have h4 : (base - now) * interval ≤ 2 ^ 63 * interval :=
        mul_le_mul_of_nonneg_right (by omega) hpos.le
      have h5 : e * base ≤ e * 2 ^ 63 := mul_le_mul_of_nonneg_left hbase.le hepos.le
      have h6 : 0 < e * interval := mul_pos hepos hpos
      have htwice : interval < 2 * e := by nlinarith only [h1, h2, h3, h4, h5, h6]
      have hk1 : k < 2 := by
        have h7 : (n - 1) * interval ≤ n * interval := mul_le_mul_of_nonneg_right (by omega) hpos.le
        have h8 : n * interval ≤ n * (2 * e) := mul_le_mul_of_nonneg_left htwice.le hn0
        have h9 : n * (2 * e) = 2 * (n * e) := by ring
        omega
      obtain rfl : k = 1 := by omega
      rw [one_mul] at hdvd
      have hself := eq_of_dvd_two_pow (by omega) (by omega) hdvd
      have heq := hspecial hself
      refine Or.inr ⟨hself, ?_⟩
      rw [← hself]
      rw [heq, ← hself] at hn
      rw [hn]
      omega
  · rintro (⟨hle, hfew⟩ | ⟨hself, hfar⟩)
    · have hn1 : n ≤ 1 := by
        by_contra hmany
        have h := mul_le_mul_of_nonneg_right (show (2 : ℤ) ≤ n by omega) hepos.le
        omega
      have hcases : n = 0 ∨ n = 1 := by omega
      have hprod : (n - 1) * interval = -interval ∨ (n - 1) * interval = 0 := by
        rcases hcases with rfl | rfl
        · exact .inl (by ring)
        · exact .inr (by ring)
      have hlt := hroom _ hmod' (by omega)
      rw [toKtime_eq_self (by omega) hlt]
      exact ⟨hmod', by omega⟩
    · have heq := hspecial hself
      rw [heq] at hn hlow
      rw [hn] at hfar
      have hval : toKtime (base + (n - 1) * interval) = base + (n - 1) * interval - 2 ^ 64 := by
        have hbounds := toKtime_bounds (base + (n - 1) * interval)
        obtain ⟨k, hk⟩ := exists_toKtime_add (base + (n - 1) * interval)
        rw [hself] at hk hbounds ⊢
        obtain rfl : k = 1 := by omega
        omega
      rw [hval]
      refine ⟨?_, ?_⟩
      · have hdvd : interval ∣ 2 ^ 64 := by
          rw [hself]
          exact pow_dvd_pow 2 (by norm_num)
        refine Int.ModEq.trans ?_ hmod'
        rw [Int.modEq_iff_dvd, sub_sub_cancel]
        exact hdvd
      · rw [hself]
        omega

end Ahead

end Bandwidth

end Gargoyle
