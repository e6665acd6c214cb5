import Mathlib.Algebra.Order.Ring.Int

/-!
# Numbers of C

A signed expression that overflows has no value, which is `none`. A conversion to a signed type keeps
the low bits, and a size is a number of so many bits without a sign.
-/

inductive AddressSize
  | bits32
  | bits64
deriving DecidableEq

def AddressSize.bits : AddressSize → ℕ
  | bits32 => 32
  | bits64 => 64

/-- `sizeof(char*)`. -/
def AddressSize.bytes : AddressSize → ℕ
  | bits32 => 4
  | bits64 => 8

namespace CInt

/-- The value of an expression of the type `int`. -/
def int (x : ℤ) : Option ℤ := if -2 ^ 31 ≤ x ∧ x < 2 ^ 31 then some x else none

/-- A size or another number, converted to `int`. -/
def toInt (x : ℤ) : ℤ := x.bmod (2 ^ 32)

/-- How many elements of the size of an address `malloc(n * sizeof(char*))` has room for. -/
def slotsAllocated (address : AddressSize) (n : ℕ) : ℕ :=
  n * address.bytes % 2 ^ address.bits / address.bytes

variable {x y : ℤ} {n : ℕ}

theorem int_eq_some_iff : int x = some y ↔ (-2 ^ 31 ≤ x ∧ x < 2 ^ 31) ∧ x = y := by
  rw [int]
  split_ifs with h
  · rw [Option.some_inj, and_iff_right h]
  · simp only [false_iff]
    exact fun hsome => h hsome.1

theorem int_of_bounds (hlow : -2 ^ 31 ≤ x) (hhigh : x < 2 ^ 31) : int x = some x :=
  int_eq_some_iff.2 ⟨⟨hlow, hhigh⟩, rfl⟩

theorem toInt_of_lt (hn : n < 2 ^ 31) : toInt n = n :=
  Int.bmod_eq_of_le (by omega) (by omega)

end CInt
