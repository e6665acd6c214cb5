import Mathlib.Data.Fin.VecNotation
import Mathlib.Tactic.FinCases
import Gargoyle.Data.Numerals
import Gargoyle.Bandwidth.Defs

/-!
# A kernel to run the module in

`referenceKernel w` has words of `w` bits and prints addresses in their usual
notation, on a little-endian machine. An IPv6 address is printed with all of its
eight groups unless it is zero, which is what `%pI6c` does for an address that
has no two zero groups in a row and no dotted tail. Only texts that the printing
routines produce are read back.
-/

namespace Gargoyle

namespace Bandwidth

open Numerals

def memoryByte (a : BitVec 32) (i : ℕ) : ℕ := a.toNat / 256 ^ i % 256

/-- `%pI4`. -/
def dottedDecimal (a : BitVec 32) : String :=
  String.ofList (numerals '.' 10
    [memoryByte a 0, memoryByte a 1, memoryByte a 2, memoryByte a 3])

def readDottedDecimal (s : String) : Option (BitVec 32) :=
  match readNumerals '.' 10 s.toList with
  | [b₀, b₁, b₂, b₃] =>
    let a := BitVec.ofNat 32 (b₀ + 256 * b₁ + 256 ^ 2 * b₂ + 256 ^ 3 * b₃)
    if dottedDecimal a = s then some a else none
  | _ => none

def group (a : In6Addr) (w : Fin 4) (half : ℕ) : ℕ :=
  256 * memoryByte (a w) (2 * half) + memoryByte (a w) (2 * half + 1)

def groups (a : In6Addr) : List ℕ :=
  [group a 0 0, group a 0 1, group a 1 0, group a 1 1,
    group a 2 0, group a 2 1, group a 3 0, group a 3 1]

def wordOfGroups (g g' : ℕ) : BitVec 32 :=
  BitVec.ofNat 32 (g / 256 + 256 * (g % 256) + 256 ^ 2 * (g' / 256) + 256 ^ 3 * (g' % 256))

/-- `%pI6c`. -/
def colonHex (a : In6Addr) : String :=
  if a = 0 then "::" else String.ofList (numerals ':' 16 (groups a))

def readColonHex (s : String) : Option In6Addr :=
  if s = "::" then some 0
  else
    match readNumerals ':' 16 s.toList with
    | [g₀, g₁, g₂, g₃, g₄, g₅, g₆, g₇] =>
      let a : In6Addr :=
        ![wordOfGroups g₀ g₁, wordOfGroups g₂ g₃, wordOfGroups g₄ g₅, wordOfGroups g₆ g₇]
      if colonHex a = s then some a else none
    | _ => none

theorem word_eq_memoryBytes (a : BitVec 32) :
    BitVec.ofNat 32 (memoryByte a 0 + 256 * memoryByte a 1 + 256 ^ 2 * memoryByte a 2 +
      256 ^ 3 * memoryByte a 3) = a := by
  apply BitVec.eq_of_toNat_eq
  have hlt := a.isLt
  simp only [BitVec.toNat_ofNat, memoryByte]
  omega

theorem wordOfGroups_group (a : In6Addr) (w : Fin 4) :
    wordOfGroups (group a w 0) (group a w 1) = a w := by
  rw [← word_eq_memoryBytes (a w), wordOfGroups]
  have hlow : ∀ i, memoryByte (a w) i < 256 := fun i => Nat.mod_lt _ (by norm_num)
  have h₁ := hlow 1
  have h₃ := hlow 3
  congr 1
  simp only [group, Nat.mul_zero, Nat.mul_one, Nat.zero_add, Nat.reduceAdd]
  omega

theorem digitChar_ne_dot : ∀ d < 16, Nat.digitChar d ≠ '.' := by
  decide

theorem digitChar_ne_colon : ∀ d < 16, Nat.digitChar d ≠ ':' := by
  decide

theorem readDottedDecimal_dottedDecimal (a : BitVec 32) :
    readDottedDecimal (dottedDecimal a) = some a := by
  have hread : readNumerals '.' 10 (dottedDecimal a).toList =
      [memoryByte a 0, memoryByte a 1, memoryByte a 2, memoryByte a 3] := by
    rw [dottedDecimal, String.toList_ofList]
    exact readNumerals_numerals (by norm_num) (by norm_num) digitChar_ne_dot (by simp)
  simp only [readDottedDecimal, hread, word_eq_memoryBytes, if_true]

theorem readNumerals_groups (a : In6Addr) :
    readNumerals ':' 16 (numerals ':' 16 (groups a)) = groups a :=
  readNumerals_numerals (by norm_num) (by norm_num) digitChar_ne_colon (by simp [groups])

theorem readColonHex_colonHex (a : In6Addr) : readColonHex (colonHex a) = some a := by
  by_cases hzero : a = 0
  · simp [colonHex, readColonHex, hzero]
  · have htext : colonHex a = String.ofList (numerals ':' 16 (groups a)) := by
      simp [colonHex, hzero]
    have hread : readNumerals ':' 16 (colonHex a).toList = groups a := by
      rw [htext, String.toList_ofList, readNumerals_groups]
    have hne : colonHex a ≠ "::" := by
      intro h
      have hlen := congrArg List.length hread
      rw [h] at hlen
      change 3 = 8 at hlen
      omega
    have hwords : (![wordOfGroups (group a 0 0) (group a 0 1),
        wordOfGroups (group a 1 0) (group a 1 1), wordOfGroups (group a 2 0) (group a 2 1),
        wordOfGroups (group a 3 0) (group a 3 1)] : In6Addr) = a := by
      funext w
      fin_cases w <;> exact wordOfGroups_group a _
    rw [readColonHex, if_neg hne, hread]
    simp only [groups, hwords, if_true]

theorem readDottedDecimal_colonHex (a : In6Addr) : readDottedDecimal (colonHex a) = none := by
  have hdot : '.' ∉ (colonHex a).toList := by
    unfold colonHex
    split_ifs
    · decide
    · rw [String.toList_ofList]
      exact not_mem_numerals (by norm_num) (by norm_num) (by decide) digitChar_ne_dot _
  rw [readDottedDecimal, readNumerals_of_not_mem 10 hdot]

/-- A kernel with words of `w` bits. -/
@[reducible] def referenceKernel (w : ℕ) : Kernel where
  ulongBits := w
  junk := 0
  pI4 := dottedDecimal
  pI6c := colonHex
  in4Pton := readDottedDecimal
  in6Pton := readColonHex
  junk_lt := by norm_num
  pI4_zero := by decide
  pI6c_zero := by simp [colonHex]
  in4Pton_pI4 := readDottedDecimal_dottedDecimal
  in4Pton_pI6c := readDottedDecimal_colonHex
  in6Pton_pI6c := readColonHex_colonHex

end Bandwidth

end Gargoyle
