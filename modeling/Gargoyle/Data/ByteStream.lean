import Mathlib.Data.List.Basic
import Mathlib.Tactic.Ring

/-!
# Streams of bytes

A file is written one item after the other and read in the same order. `bytesLE w v`
are the `w` lowest bytes of `v`, least significant first. A reader takes an item
from the front of a stream and returns the rest of it; it yields `none` when the
stream ends before the item does.

`Inverts R W f` says that the reader `R` takes what the writer `W` has written, and
makes `f a` of what was written for `a`. Readers that are used for one item are
then used for many.
-/

abbrev StreamReader (α : Type*) := List UInt8 → Option (α × List UInt8)

namespace ByteStream

/-- The `w` lowest bytes of `v`. -/
def bytesLE : ℕ → ℕ → List UInt8
  | 0, _ => []
  | w + 1, v => UInt8.ofNat v :: bytesLE w (v / 256)

/-- Take a number of `w` bytes. -/
def takeLE : ℕ → StreamReader ℕ
  | 0, xs => some (0, xs)
  | _ + 1, [] => none
  | w + 1, x :: xs => (takeLE w xs).map fun r => (x.toNat + 256 * r.1, r.2)

/-- Take `n` items. -/
def takeMany {α : Type*} (R : StreamReader α) : ℕ → StreamReader (List α)
  | 0, xs => some ([], xs)
  | n + 1, xs =>
    (R xs).bind fun r => (takeMany R n r.2).map fun rs => (r.1 :: rs.1, rs.2)

theorem takeLE_bytesLE (w v : ℕ) (xs : List UInt8) :
    takeLE w (bytesLE w v ++ xs) = some (v % 256 ^ w, xs) := by
  induction w generalizing v with
  | zero => simp [takeLE, bytesLE, Nat.mod_one]
  | succ w ih =>
    have hbyte : (UInt8.ofNat v).toNat = v % 256 := UInt8.toNat_ofNat'
    rw [bytesLE, List.cons_append, takeLE, ih, Option.map_some, hbyte, pow_succ',
      Nat.mod_mul]

theorem takeLE_of_lt {w v : ℕ} (h : v < 256 ^ w) (xs : List UInt8) :
    takeLE w (bytesLE w v ++ xs) = some (v, xs) := by
  rw [takeLE_bytesLE, Nat.mod_eq_of_lt h]

theorem takeMany_flatMap {α β : Type*} {R : StreamReader β} {W : α → List UInt8} {f : α → β}
    {as : List α} (h : ∀ a ∈ as, ∀ xs, R (W a ++ xs) = some (f a, xs)) (xs : List UInt8) :
    takeMany R as.length (as.flatMap W ++ xs) = some (as.map f, xs) := by
  induction as with
  | nil => rfl
  | cons a as ih =>
    rw [List.flatMap_cons, List.append_assoc, List.length_cons, takeMany,
      h a List.mem_cons_self, Option.bind_some,
      ih fun b hb => h b (List.mem_cons_of_mem a hb)]
    rfl

end ByteStream

/-!
## Comparing bytes and comparing numbers

Bytes with the most significant one first are compared by `memcmp` as the numbers that they stand
for, as long as there are equally many of them.
-/

namespace Gargoyle

namespace BigEndian

def value : List UInt8 → ℕ
  | [] => 0
  | x :: xs => x.toNat * 256 ^ xs.length + value xs

def memcmp : List UInt8 → List UInt8 → ℤ
  | x :: xs, y :: ys => if x = y then memcmp xs ys else (x.toNat : ℤ) - y.toNat
  | _, _ => 0

theorem value_lt (xs : List UInt8) : value xs < 256 ^ xs.length := by
  induction xs with
  | nil => exact Nat.one_pos
  | cons x xs ih =>
    have hx : (x.toNat + 1) * 256 ^ xs.length ≤ 256 * 256 ^ xs.length :=
      Nat.mul_le_mul_right _ x.toNat_lt
    rw [Nat.succ_mul] at hx
    rw [value, List.length_cons, Nat.pow_succ]
    omega

theorem memcmp_swap (xs ys : List UInt8) : memcmp ys xs = -memcmp xs ys := by
  induction xs generalizing ys with
  | nil => cases ys <;> rfl
  | cons x xs ih =>
    cases ys with
    | nil => rfl
    | cons y ys =>
      by_cases hxy : x = y
      · rw [memcmp, memcmp, if_pos hxy, if_pos hxy.symm, ih]
      · rw [memcmp, memcmp, if_neg hxy, if_neg (Ne.symm hxy)]
        omega

/-- Bytes of one length are compared as numbers. -/
theorem memcmp_nonpos_iff {xs ys : List UInt8} (h : xs.length = ys.length) :
    memcmp xs ys ≤ 0 ↔ value xs ≤ value ys := by
  induction xs generalizing ys with
  | nil =>
    obtain rfl := List.length_eq_zero_iff.1 h.symm
    simp [memcmp]
  | cons x xs ih =>
    obtain ⟨y, ys, rfl⟩ := List.exists_cons_of_length_eq_add_one h.symm
    have hlen : xs.length = ys.length := Nat.succ.inj h
    have hxs := value_lt xs
    have hys := value_lt ys
    rw [memcmp, value, value, hlen]
    rw [hlen] at hxs
    split_ifs with hxy
    · rw [hxy, ih hlen]
      omega
    · have hne : x.toNat ≠ y.toNat := fun heq => hxy (UInt8.toNat_inj.1 heq)
      -- the first difference is worth more than all that follows
      rcases Nat.lt_or_gt_of_ne hne with hlt | hlt
      · have hstep : (x.toNat + 1) * 256 ^ ys.length ≤ y.toNat * 256 ^ ys.length :=
          Nat.mul_le_mul_right _ hlt
        rw [Nat.succ_mul] at hstep
        exact ⟨fun _ => by omega, fun _ => by omega⟩
      · have hstep : (y.toNat + 1) * 256 ^ ys.length ≤ x.toNat * 256 ^ ys.length :=
          Nat.mul_le_mul_right _ hlt
        rw [Nat.succ_mul] at hstep
        exact ⟨fun _ => by omega, fun _ => by omega⟩

theorem memcmp_nonneg_iff {xs ys : List UInt8} (h : xs.length = ys.length) :
    0 ≤ memcmp xs ys ↔ value ys ≤ value xs := by
  rw [memcmp_swap ys xs, ← memcmp_nonpos_iff h.symm]
  omega

end BigEndian

end Gargoyle
