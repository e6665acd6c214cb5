import Gargoyle.Data.InetText
import Gargoyle.Data.ScriptNumber
import Gargoyle.Data.TextSplit

/-!
# Numbers in the texts of the web interface

`parsePaddedInt` takes the first run of blanks and all leading zeros off a text, and calls
`parseInt`, which reads the digits that the text begins with. `none` stands for `NaN`.
-/

namespace Gargoyle

open List

namespace Web

open Numerals InetText

/-- `[\t ]`. -/
def isTabOrSpace (c : Char) : Bool := c = '\t' || c = ' '

def leadingNumber (base : ℕ) (isDigit : Char → Bool) (s : List Char) : Option ℤ :=
  let digits := s.takeWhile isDigit
  if digits = [] then none else some (numeralValue base (digits.map Char.toLower))

/-- `parseInt` without a radix: digits, or `0x` and hexadecimal digits. -/
def parseUnsigned : List Char → Option ℤ
  | '0' :: 'x' :: s => leadingNumber 16 isHexDigit s
  | '0' :: 'X' :: s => leadingNumber 16 isHexDigit s
  | s => leadingNumber 10 Char.isDigit s

def parseInt (s : List Char) : Option ℤ :=
  match s.dropWhile ScriptNumber.isSpace with
  | '-' :: s => (parseUnsigned s).map (- ·)
  | '+' :: s => parseUnsigned s
  | s => parseUnsigned s

def isPadded (s : List Char) : Bool :=
  (s.length > 1 && ['0'].isPrefixOf s) || (s.length > 2 && ['-', '0'].isPrefixOf s)

def unpadOnce (s : List Char) : List Char :=
  let s := if ['0'].isPrefixOf s then s.drop 1 else s
  if ['-', '0'].isPrefixOf s then '-' :: s.drop 2 else s

def unpad : ℕ → List Char → List Char
  | 0, s => s
  | n + 1, s => if isPadded s then unpad n (unpadOnce s) else s

def parsePaddedInt (intStr : List Char) : Option ℤ :=
  let intStr := intStr.takeWhile (!isTabOrSpace ·) ++
    (intStr.dropWhile (!isTabOrSpace ·)).dropWhile isTabOrSpace
  parseInt (unpad intStr.length intStr)

/-! ## Texts of digits -/

theorem toLower_digit {c : Char} (hc : c.isDigit = true) : c.toLower = c := by
  have hle : 48 ≤ c.toNat ∧ c.toNat ≤ 57 := by
    simpa [Char.isDigit, UInt32.le_iff_toNat_le] using hc
  unfold Char.toLower
  rw [dif_neg]
  rintro ⟨hupper, -⟩
  have hge : 65 ≤ c.toNat := UInt32.le_iff_toNat_le.1 hupper
  omega

theorem leadingNumber_digits {s : List Char} (hs : ∀ c ∈ s, c.isDigit = true) (hne : s ≠ []) :
    leadingNumber 10 Char.isDigit s = some (numeralValue 10 s : ℤ) := by
  have htake : s.takeWhile Char.isDigit = s := List.takeWhile_eq_self_iff.2 hs
  have hlower : s.map Char.toLower = s :=
    (map_congr_left fun c hc => toLower_digit (hs c hc)).trans (map_id s)
  rw [leadingNumber, htake, if_neg hne, hlower]

theorem digit_ne {c : Char} (hc : c.isDigit = true) :
    c ≠ '-' ∧ c ≠ '+' ∧ c ≠ 'x' ∧ c ≠ 'X' ∧ isTabOrSpace c = false ∧ ScriptNumber.isSpace c = false := by
  have hbounds : 48 ≤ c.toNat ∧ c.toNat ≤ 57 := by
    simpa [Char.isDigit, UInt32.le_iff_toNat_le] using hc
  have hall : ∀ n ≤ 9, (fun c : Char => c ≠ '-' ∧ c ≠ '+' ∧ c ≠ 'x' ∧ c ≠ 'X' ∧
      isTabOrSpace c = false ∧ ScriptNumber.isSpace c = false) (Char.ofNat (n + 48)) := by decide
  have hchar := hall (c.toNat - 48) (by omega)
  have heq : Char.ofNat (c.toNat - 48 + 48) = c := by
    rw [Nat.sub_add_cancel hbounds.1, Char.ofNat_toNat]
  rwa [heq] at hchar

theorem parseInt_digits {s : List Char} (hs : ∀ c ∈ s, c.isDigit = true) (hne : s ≠ []) :
    parseInt s = some (numeralValue 10 s : ℤ) := by
  obtain ⟨c, t, rfl⟩ := exists_cons_of_ne_nil hne
  have hc := digit_ne (hs c mem_cons_self)
  have hdrop : (c :: t).dropWhile ScriptNumber.isSpace = c :: t :=
    dropWhile_cons_of_neg (by rw [hc.2.2.2.2.2]; exact Bool.false_ne_true)
  rw [parseInt, hdrop]
  split
  · next heq => exact absurd (List.cons.inj heq).1 hc.1
  · next heq => exact absurd (List.cons.inj heq).1 hc.2.1
  · rw [parseUnsigned.eq_def]
    split
    · next heq =>
        have hx := digit_ne (hs 'x' (heq ▸ mem_cons_of_mem _ mem_cons_self))
        exact absurd rfl hx.2.2.1
    · next heq =>
        have hx := digit_ne (hs 'X' (heq ▸ mem_cons_of_mem _ mem_cons_self))
        exact absurd rfl hx.2.2.2.1
    · exact leadingNumber_digits hs hne

/-- The zeros in front do not change the number. -/
theorem unpad_digits {s : List Char} (hs : ∀ c ∈ s, c.isDigit = true) (hne : s ≠ []) (n : ℕ) :
    (∀ c ∈ unpad n s, c.isDigit = true) ∧ unpad n s ≠ [] ∧
      numeralValue 10 (unpad n s) = numeralValue 10 s := by
  induction n generalizing s with
  | zero => exact ⟨hs, hne, rfl⟩
  | succ n ih =>
    rw [unpad]
    split_ifs with hpadded
    · have hnot : ∀ t, (∀ c ∈ t, c.isDigit = true) → ['-', '0'].isPrefixOf t = false := by
        intro t ht
        cases t with
        | nil => rfl
        | cons c t =>
          have hc := (digit_ne (ht c mem_cons_self)).1
          rw [List.isPrefixOf, beq_eq_false_iff_ne.2 hc.symm, Bool.false_and]
      rw [isPadded, hnot s hs, Bool.and_false, Bool.or_false, Bool.and_eq_true,
        decide_eq_true_eq] at hpadded
      obtain ⟨t, rfl⟩ : ∃ t, s = '0' :: t := by
        obtain ⟨t, ht⟩ := List.isPrefixOf_iff_prefix.1 hpadded.2
        exact ⟨t, ht.symm⟩
      have ht : ∀ c ∈ t, c.isDigit = true := fun c hc => hs c (mem_cons_of_mem _ hc)
      have hne : t ≠ [] := by
        rintro rfl
        exact absurd hpadded.1 (by decide)
      have honce : unpadOnce ('0' :: t) = t := by
        rw [unpadOnce, if_pos hpadded.2]
        simp only [drop_succ_cons, drop_zero]
        rw [hnot t ht, if_neg Bool.false_ne_true]
      rw [honce]
      exact ih ht hne
    · exact ⟨hs, hne, rfl⟩

theorem parsePaddedInt_digits {s : List Char} (hs : ∀ c ∈ s, c.isDigit = true) (hne : s ≠ []) :
    parsePaddedInt s = some (numeralValue 10 s : ℤ) := by
  have hnot : ∀ c ∈ s, (!isTabOrSpace c) = true := fun c hc => by
    rw [(digit_ne (hs c hc)).2.2.2.2.1]
    rfl
  have hstrip : s.takeWhile (!isTabOrSpace ·) ++
      (s.dropWhile (!isTabOrSpace ·)).dropWhile isTabOrSpace = s := by
    rw [List.takeWhile_eq_self_iff.2 hnot, List.dropWhile_eq_nil_iff.2 hnot, dropWhile_nil,
      List.append_nil]
  obtain ⟨hdigits, hsome, hvalue⟩ := unpad_digits hs hne s.length
  rw [parsePaddedInt, hstrip, parseInt_digits hdigits hsome, hvalue]

end Web

end Gargoyle
