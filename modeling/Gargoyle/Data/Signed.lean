import Gargoyle.Data.Numerals
import Mathlib.Data.List.TakeWhile

/-!
# Signed decimal texts

`printSigned` is what `printf` writes for a signed number, and `scanSigned` is what `scanf` reads from
the front of a text: blanks, a sign, and as many digits as there are. What follows the digits is not
looked at, so that a text is read as another one that only begins like it.
-/

namespace Gargoyle

namespace Signed

open Numerals

/-- `isspace` of the C locale. -/
def isSpace (c : Char) : Bool := c ∈ [' ', '\t', '\n', '\x0b', '\x0c', '\r']

def printSigned (v : ℤ) : List Char :=
  if v < 0 then '-' :: Nat.toDigits 10 v.natAbs else Nat.toDigits 10 v.natAbs

def scanDigits (cs : List Char) : Option ℕ :=
  let digits := cs.takeWhile Char.isDigit
  if digits = [] then none else some (numeralValue 10 digits)

/-- The number of a signed type of `bits` bits that is nearest to `v`. -/
def fit (bits : ℕ) (v : ℤ) : ℤ :=
  if v < -2 ^ (bits - 1) then -2 ^ (bits - 1)
  else if 2 ^ (bits - 1) ≤ v then 2 ^ (bits - 1) - 1
  else v

/-- The number in front of a text, behind blanks and with an optional sign. A number that does not fit
is the nearest one of the type, which has `bits` bits. -/
def scanSigned (bits : ℕ) (cs : List Char) : Option ℤ :=
  match cs.dropWhile isSpace with
  | '-' :: rest => (scanDigits rest).map fun n : ℕ => fit bits (-(n : ℤ))
  | '+' :: rest => (scanDigits rest).map fun n : ℕ => fit bits n
  | rest => (scanDigits rest).map fun n : ℕ => fit bits n

theorem scanDigits_toDigits (n : ℕ) : scanDigits (Nat.toDigits 10 n) = some n := by
  have hall : (Nat.toDigits 10 n).takeWhile Char.isDigit = Nat.toDigits 10 n :=
    List.takeWhile_eq_self_iff.2 fun c hc =>
      Nat.isDigit_of_mem_toDigits (by decide) (by decide) hc
  simp only [scanDigits]
  rw [hall, if_neg Nat.toDigits_ne_nil, numeralValue_toDigits (by decide) (by decide)]

/-- A text of digits is read as its number. -/
theorem scanSigned_digits (bits : ℕ) {cs : List Char} (hne : cs ≠ [])
    (h : ∀ c ∈ cs, c.isDigit = true) :
    scanSigned bits cs = some (fit bits (numeralValue 10 cs)) := by
  obtain ⟨d, ds, rfl⟩ := List.exists_cons_of_ne_nil hne
  have hdigit := h d List.mem_cons_self
  have hspace : isSpace d = false := by
    rw [isSpace, decide_eq_false_iff_not]
    intro hmem
    simp only [List.mem_cons, List.not_mem_nil, or_false] at hmem
    rcases hmem with rfl | rfl | rfl | rfl | rfl | rfl <;> cases hdigit
  have hdrop : (d :: ds).dropWhile isSpace = d :: ds := by
    rw [List.dropWhile_cons, hspace]
    rfl
  have hscan : scanDigits (d :: ds) = some (numeralValue 10 (d :: ds)) := by
    have hall : (d :: ds).takeWhile Char.isDigit = d :: ds := List.takeWhile_eq_self_iff.2 h
    simp only [scanDigits]
    rw [hall, if_neg hne]
  simp only [scanSigned]
  rw [hdrop]
  split
  · rename_i rest heq
    obtain ⟨rfl, -⟩ := List.cons.inj heq
    cases hdigit
  · rename_i rest heq
    obtain ⟨rfl, -⟩ := List.cons.inj heq
    cases hdigit
  · rw [hscan]
    rfl

theorem scanSigned_toDigits (bits n : ℕ) : scanSigned bits (Nat.toDigits 10 n) =
    some (fit bits n) := by
  rw [scanSigned_digits bits Nat.toDigits_ne_nil fun c hc =>
    Nat.isDigit_of_mem_toDigits (by decide) (by decide) hc,
    numeralValue_toDigits (by decide) (by decide)]

theorem fit_of_fits {bits : ℕ} {v : ℤ} (hlow : -2 ^ (bits - 1) ≤ v) (hhigh : v < 2 ^ (bits - 1)) :
    fit bits v = v := by
  rw [fit, if_neg (Int.not_lt.2 hlow), if_neg (Int.not_le.2 hhigh)]

theorem scanSigned_printSigned {bits : ℕ} {v : ℤ} (hlow : -2 ^ (bits - 1) ≤ v)
    (hhigh : v < 2 ^ (bits - 1)) : scanSigned bits (printSigned v) = some v := by
  unfold printSigned
  split_ifs with hneg
  · have hdrop : ('-' :: Nat.toDigits 10 v.natAbs).dropWhile isSpace =
        '-' :: Nat.toDigits 10 v.natAbs := rfl
    have habs : -(v.natAbs : ℤ) = v := by omega
    simp only [scanSigned]
    rw [hdrop]
    simp only [scanDigits_toDigits, Option.map_some, habs]
    rw [fit_of_fits hlow hhigh]
  · have habs : (v.natAbs : ℤ) = v := by omega
    rw [scanSigned_toDigits, habs, fit_of_fits hlow hhigh]

end Signed

end Gargoyle
