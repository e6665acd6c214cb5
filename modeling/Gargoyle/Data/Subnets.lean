import Mathlib.Algebra.Order.Group.Nat

/-!
# Subnets of words

The words that agree with a word on all bits but the last ones are an interval, and both ends come
from operators on bits.
-/

namespace Subnets

variable {w : ℕ}

def mask (w k : ℕ) : BitVec w := BitVec.allOnes w <<< k

def first (x m : BitVec w) : BitVec w := x &&& m

def last (x m : BitVec w) : BitVec w := x &&& m ||| ~~~m

theorem first_mask (x : BitVec w) (k : ℕ) : first x (mask w k) = x >>> k <<< k :=
  BitVec.shiftLeft_ushiftRight.symm

theorem toNat_first (x : BitVec w) (k : ℕ) :
    (first x (mask w k)).toNat = x.toNat / 2 ^ k * 2 ^ k := by
  have hle : x.toNat / 2 ^ k * 2 ^ k < 2 ^ w := (Nat.div_mul_le_self _ _).trans_lt x.isLt
  rw [first_mask, BitVec.toNat_shiftLeft, BitVec.toNat_ushiftRight, Nat.shiftRight_eq_div_pow,
    Nat.shiftLeft_eq, Nat.mod_eq_of_lt hle]

theorem getLsbD_not_mask (k i : ℕ) :
    (~~~mask w k).getLsbD i = (decide (i < w) && decide (i < k)) := by
  rw [mask, BitVec.getLsbD_not, BitVec.getLsbD_shiftLeft, BitVec.getLsbD_allOnes]
  by_cases hw : i < w
  · have hsub : i - k < w := (Nat.sub_le _ _).trans_lt hw
    simp [hw, hsub]
  · simp [hw]

theorem toNat_not_mask {k : ℕ} (hk : k ≤ w) : (~~~mask w k).toNat = 2 ^ k - 1 := by
  refine Nat.eq_of_testBit_eq fun i => ?_
  rw [Nat.testBit_two_pow_sub_one, ← BitVec.getLsbD, getLsbD_not_mask]
  by_cases hik : i < k
  · have hiw : i < w := hik.trans_le hk
    simp [hik, hiw]
  · simp [hik]

theorem toNat_last (x : BitVec w) {k : ℕ} (hk : k ≤ w) :
    (last x (mask w k)).toNat = x.toNat / 2 ^ k * 2 ^ k + (2 ^ k - 1) := by
  have hfirst := toNat_first x k
  rw [first] at hfirst
  rw [last, BitVec.toNat_or, hfirst, toNat_not_mask hk, ← Nat.shiftLeft_eq,
    Nat.shiftLeft_add_eq_or_of_lt (Nat.sub_lt (Nat.two_pow_pos k) Nat.one_pos)]

theorem first_eq_iff (x y : BitVec w) {k : ℕ} (hk : k ≤ w) :
    first x (mask w k) = first y (mask w k) ↔
      (first y (mask w k)).toNat ≤ x.toNat ∧ x.toNat ≤ (last y (mask w k)).toNat := by
  have hpos := Nat.two_pow_pos k
  rw [← BitVec.toNat_inj, toNat_last y hk, toNat_first, toNat_first]
  constructor
  · intro heq
    have hdiv := Nat.div_add_mod' x.toNat (2 ^ k)
    have hmod := Nat.mod_lt x.toNat hpos
    omega
  · rintro ⟨hle, hge⟩
    have hquot : x.toNat / 2 ^ k = y.toNat / 2 ^ k := by
      refine Nat.div_eq_of_lt_le hle ?_
      rw [Nat.succ_mul]
      omega
    rw [hquot]

theorem toNat_first_le_last (x : BitVec w) {k : ℕ} (hk : k ≤ w) :
    (first x (mask w k)).toNat ≤ (last x (mask w k)).toNat := by
  rw [toNat_first, toNat_last x hk]
  exact Nat.le_add_right _ _

end Subnets
