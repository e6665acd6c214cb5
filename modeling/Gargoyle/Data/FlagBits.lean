import Mathlib.Data.Nat.Bitwise

/-!
# Flags in the high bits of a word

The bits of a word from the place `k` on are flags, numbered from 0, and the bits below are left
alone. A word is known from its low part and its flags.
-/

namespace FlagBits

variable {w : ℕ} (k : ℕ)

def flag (x : BitVec w) (j : ℕ) : Bool := x.getLsbD (k + j)

def lowMask (w k : ℕ) : BitVec w := BitVec.ofNat w (2 ^ k - 1)

def low (x : BitVec w) : BitVec w := x &&& lowMask w k

def single (w k j : ℕ) : BitVec w := BitVec.ofNat w (2 ^ (k + j))

theorem getLsbD_low (x : BitVec w) (i : ℕ) :
    (low k x).getLsbD i = (decide (i < k) && x.getLsbD i) := by
  rw [low, BitVec.getLsbD_and, lowMask, BitVec.getLsbD_ofNat, Nat.testBit_two_pow_sub_one]
  by_cases hi : i < w
  · simp [hi, Bool.and_comm]
  · simp [BitVec.getLsbD_of_ge x i (not_lt.1 hi)]

@[simp]
theorem flag_low (x : BitVec w) (j : ℕ) : flag k (low k x) j = false := by
  rw [flag, getLsbD_low]
  simp

@[simp]
theorem low_low (x : BitVec w) : low k (low k x) = low k x := by
  refine BitVec.eq_of_getLsbD_eq fun i _ => ?_
  simp [getLsbD_low]

theorem ext_flags {x y : BitVec w} (hlow : low k x = low k y)
    (hflag : ∀ j, k + j < w → flag k x j = flag k y j) : x = y := by
  refine BitVec.eq_of_getLsbD_eq fun i hi => ?_
  by_cases hk : i < k
  · have h := congrArg (fun z => z.getLsbD i) hlow
    simpa [getLsbD_low, hk] using h
  · obtain ⟨j, rfl⟩ := Nat.exists_eq_add_of_le (not_lt.1 hk)
    exact hflag j hi

theorem low_eq_self {x : BitVec w} (h : ∀ j, k + j < w → flag k x j = false) : low k x = x :=
  ext_flags k (low_low k x) fun j hj => by rw [flag_low, h j hj]

theorem low_and_or {x m v : BitVec w} (hm : low k m = lowMask w k) (hv : low k v = 0) :
    low k (x &&& m ||| v) = low k x := by
  refine BitVec.eq_of_getLsbD_eq fun i hi => ?_
  have hmi := congrArg (fun z => z.getLsbD i) hm
  have hvi := congrArg (fun z => z.getLsbD i) hv
  simp only [getLsbD_low, lowMask, BitVec.getLsbD_ofNat, Nat.testBit_two_pow_sub_one] at hmi hvi
  rw [getLsbD_low, getLsbD_low, BitVec.getLsbD_or, BitVec.getLsbD_and]
  by_cases hk : i < k
  · simp_all
  · simp [hk]

/-! ## One flag -/

section Single

variable {k} {j : ℕ}

theorem low_single (w k j : ℕ) : low k (single w k j) = 0 := by
  refine BitVec.eq_of_getLsbD_eq fun i hi => ?_
  rw [getLsbD_low, single, BitVec.getLsbD_ofNat, Nat.testBit_two_pow]
  by_cases hk : i < k
  · have hne : ¬ k + j = i := by omega
    simp [hne]
  · simp [hk]

theorem low_not_single (w k j : ℕ) : low k (~~~ single w k j) = lowMask w k := by
  refine BitVec.eq_of_getLsbD_eq fun i hi => ?_
  rw [getLsbD_low, lowMask, BitVec.getLsbD_not, single, BitVec.getLsbD_ofNat,
    BitVec.getLsbD_ofNat, Nat.testBit_two_pow, Nat.testBit_two_pow_sub_one]
  by_cases hk : i < k
  · have hne : ¬ k + j = i := by omega
    simp [hne, hi, hk]
  · simp [hk]

end Single

/-! ## The flags of a list -/

/-- The sum of the numbers with one flag, from the flag `i` on, as a list has them. -/
def value (i : ℕ) : List Bool → ℕ
  | [] => 0
  | b :: bs => (if b then 2 ^ (k + i) else 0) + value (i + 1) bs

def pack : List Bool → ℕ
  | [] => 0
  | b :: bs => b.toNat + 2 * pack bs

theorem value_eq_mul (i : ℕ) (bs : List Bool) : value k i bs = 2 ^ (k + i) * pack bs := by
  induction bs generalizing i with
  | nil => rfl
  | cons b bs ih =>
    rw [value, ih, pack, ← Nat.add_assoc, Nat.pow_succ, Nat.mul_add, Nat.mul_assoc]
    cases b <;> simp

theorem testBit_pack (bs : List Bool) (j : ℕ) : (pack bs).testBit j = bs.getD j false := by
  induction bs generalizing j with
  | nil => simp [pack]
  | cons b bs ih =>
    cases j with
    | zero => cases b <;> simp [pack, Nat.testBit_zero]
    | succ j =>
      have hhalf : pack (b :: bs) / 2 = pack bs := by
        rw [pack]
        have hb := Bool.toNat_lt b
        omega
      rw [Nat.testBit_succ, hhalf, ih, List.getD_cons_succ]

theorem flag_value (bs : List Bool) {j : ℕ} (h : k + j < w) :
    flag k (BitVec.ofNat w (value k 0 bs)) j = bs.getD j false := by
  rw [flag, BitVec.getLsbD_ofNat, value_eq_mul, Nat.testBit_two_pow_mul, testBit_pack]
  simp [h]

theorem low_value (w : ℕ) (bs : List Bool) : low k (BitVec.ofNat w (value k 0 bs)) = 0 := by
  refine BitVec.eq_of_getLsbD_eq fun i hi => ?_
  rw [getLsbD_low, BitVec.getLsbD_ofNat, value_eq_mul, Nat.testBit_two_pow_mul]
  by_cases hk : i < k
  · have hnot : ¬ k ≤ i := by omega
    simp [hnot]
  · simp [hk]

theorem and_not_lowMask_eq_iff (x : BitVec w) (bs : List Bool) :
    x &&& ~~~ lowMask w k = BitVec.ofNat w (value k 0 bs) ↔
      ∀ j, k + j < w → flag k x j = bs.getD j false := by
  have hlow : low k (x &&& ~~~ lowMask w k) = 0 := by
    refine BitVec.eq_of_getLsbD_eq fun i hi => ?_
    rw [getLsbD_low, BitVec.getLsbD_and, BitVec.getLsbD_not, lowMask, BitVec.getLsbD_ofNat,
      Nat.testBit_two_pow_sub_one]
    by_cases hk : i < k
    · simp [hk, hi]
    · simp [hk]
  have hflag : ∀ j, k + j < w → flag k (x &&& ~~~ lowMask w k) j = flag k x j := by
    intro j hj
    rw [flag, BitVec.getLsbD_and, BitVec.getLsbD_not, lowMask, BitVec.getLsbD_ofNat,
      Nat.testBit_two_pow_sub_one]
    simp [hj, flag]
  constructor
  · intro h j hj
    rw [← hflag j hj, h, flag_value k bs hj]
  · intro h
    refine ext_flags k (hlow.trans (low_value k w bs).symm) fun j hj => ?_
    rw [hflag j hj, flag_value k bs hj, h j hj]

end FlagBits
