import Gargoyle.Data.Numerals
import Mathlib.Data.Int.Log
import Mathlib.Data.List.DropRight
import Mathlib.Data.Rat.Floor

/-!
# Numbers of scripts

The number of a script is a rational that a double holds, an infinity or `NaN`. `ofText` is the
number that a text stands for where a number is asked for: blanks around it do not matter, an
empty text is zero, and what is no numeral is `NaN`. The signs of zeros are left out.
-/

namespace Gargoyle

open List

open Numerals (numeralValue)

inductive ScriptNumber
  | nan
  | infinity (negative : Bool)
  | finite (q : ℚ)
deriving DecidableEq

namespace ScriptNumber

def roundToEven (q : ℚ) : ℤ :=
  let below := ⌊q⌋
  if q - below < 1 / 2 then below
  else if q - below > 1 / 2 then below + 1
  else if below % 2 = 0 then below
  else below + 1

def nearest (q : ℚ) : ScriptNumber :=
  let e := max (Int.log 2 |q| - 52) (-1074)
  let rounded := (roundToEven (q / 2 ^ e) : ℚ) * 2 ^ e
  if 2 ^ 1024 ≤ |rounded| then infinity (q < 0) else finite rounded

def isSpace (c : Char) : Bool :=
  c ∈ [' ', '\t', '\n', '\x0b', '\x0c', '\r', '\u00a0', '\u1680', '\u2028', '\u2029', '\u202f',
    '\u205f', '\u3000', '\ufeff'] || ('\u2000' ≤ c && c ≤ '\u200a')

def ofDigits (base : ℕ) (digits : List Char) : ScriptNumber :=
  let digits := digits.map Char.toLower
  let allowed := ((List.range base).map Nat.digitChar)
  if digits ≠ [] ∧ digits.all (allowed.contains ·) then nearest (numeralValue base digits) else nan

/-- The exponent behind an `e`, which is zero if there is none. -/
def exponent : List Char → Option ℤ
  | [] => some 0
  | _ :: '-' :: s => if s ≠ [] ∧ s.all Char.isDigit then some (-(numeralValue 10 s : ℤ)) else none
  | _ :: '+' :: s => if s ≠ [] ∧ s.all Char.isDigit then some (numeralValue 10 s) else none
  | _ :: s => if s ≠ [] ∧ s.all Char.isDigit then some (numeralValue 10 s) else none

def ofUnsigned (s : List Char) : Option ℚ :=
  let isMark := fun c => c = 'e' || c = 'E'
  let mantissa := s.takeWhile (!isMark ·)
  let whole := mantissa.takeWhile (· ≠ '.')
  let fraction := (mantissa.dropWhile (· ≠ '.')).drop 1
  if whole ++ fraction ≠ [] ∧ (whole ++ fraction).all Char.isDigit then
    (exponent (s.dropWhile (!isMark ·))).map fun e =>
      (numeralValue 10 (whole ++ fraction) : ℚ) * 10 ^ (e - (fraction.length : ℤ))
  else none

def ofSigned (negative : Bool) (s : List Char) : ScriptNumber :=
  if s = "Infinity".toList then infinity negative
  else (ofUnsigned s).elim nan fun q => nearest (if negative then -q else q)

def ofText (s : List Char) : ScriptNumber :=
  match (s.dropWhile isSpace).rdropWhile isSpace with
  | [] => finite 0
  | '0' :: 'x' :: s => ofDigits 16 s
  | '0' :: 'X' :: s => ofDigits 16 s
  | '0' :: 'o' :: s => ofDigits 8 s
  | '0' :: 'O' :: s => ofDigits 8 s
  | '0' :: 'b' :: s => ofDigits 2 s
  | '0' :: 'B' :: s => ofDigits 2 s
  | '-' :: s => ofSigned true s
  | '+' :: s => ofSigned false s
  | s => ofSigned false s

def isLess : ScriptNumber → ℤ → Bool
  | nan, _ => false
  | infinity negative, _ => negative
  | finite q, n => q < n

def isGreater : ScriptNumber → ℤ → Bool
  | nan, _ => false
  | infinity negative, _ => !negative
  | finite q, n => n < q

def subFrom (n : ℤ) : ScriptNumber → ScriptNumber
  | nan => nan
  | infinity negative => infinity !negative
  | finite q => nearest (n - q)

def truncate (q : ℚ) : ℤ := if q < 0 then ⌈q⌉ else ⌊q⌋

/-- `substr` from the start. -/
def upTo (s : List Char) : ScriptNumber → List Char
  | nan => []
  | infinity negative => if negative then [] else s
  | finite q => s.take (truncate q).toNat

/-- `substr` to the end. -/
def startingAt (s : List Char) : ScriptNumber → List Char
  | nan => s
  | infinity negative => if negative then s else []
  | finite q =>
    if truncate q < 0 then s.drop (s.length + truncate q).toNat else s.drop (truncate q).toNat

/-- `repeat`, which fails for a negative number and an infinite one. -/
def repeated (c : Char) : ScriptNumber → Option (List Char)
  | nan => some []
  | infinity _ => none
  | finite q => if truncate q < 0 then none else some (List.replicate (truncate q).toNat c)

/-! ## Whole numbers -/

theorem roundToEven_intCast (n : ℤ) : roundToEven n = n := by
  have hhalf : (n : ℚ) - n < 1 / 2 := by
    rw [sub_self]
    norm_num
  rw [roundToEven]
  simp only [Int.floor_intCast]
  rw [if_pos hhalf]

theorem truncate_intCast (n : ℤ) : truncate n = n := by
  rw [truncate, Int.ceil_intCast, Int.floor_intCast, ite_self]

theorem roundToEven_bounds (q : ℚ) : ⌊q⌋ ≤ roundToEven q ∧ roundToEven q ≤ ⌊q⌋ + 1 := by
  rw [roundToEven]
  split_ifs <;> omega

/-- Integers below `2 ^ 53` are exact. -/
theorem nearest_intCast {n : ℤ} (h : |n| < 2 ^ 53) : nearest n = finite n := by
  have hbound : |(n : ℚ)| < 2 ^ 53 := by exact_mod_cast h
  have hlarge : ¬(2 : ℚ) ^ 1024 ≤ |(n : ℚ)| := by
    exact not_le.2 (hbound.trans_le (pow_le_pow_right₀ one_le_two (by norm_num)))
  by_cases hzero : n = 0
  · subst hzero
    have hround : roundToEven ((0 : ℤ) : ℚ) = 0 := roundToEven_intCast 0
    rw [Int.cast_zero] at hround
    rw [nearest, Int.cast_zero, zero_div, hround, Int.cast_zero, zero_mul, abs_zero,
      if_neg (by norm_num)]
  · have hone : (1 : ℚ) ≤ |(n : ℚ)| := by
      have habs := Int.one_le_abs hzero
      exact_mod_cast habs
    have hpos : (0 : ℚ) < |(n : ℚ)| := zero_lt_one.trans_le hone
    have hlog : 0 ≤ Int.log 2 |(n : ℚ)| := by
      rw [← Int.zpow_le_iff_le_log Nat.one_lt_two hpos]
      simpa using hone
    have hlog' : Int.log 2 |(n : ℚ)| < 53 := by
      rw [← Int.lt_zpow_iff_log_lt Nat.one_lt_two hpos]
      exact_mod_cast hbound
    have hmax : max (Int.log 2 |(n : ℚ)| - 52) (-1074) = Int.log 2 |(n : ℚ)| - 52 :=
      max_eq_left (by omega)
    obtain ⟨k, hk⟩ : ∃ k : ℕ, Int.log 2 |(n : ℚ)| - 52 = -(k : ℤ) :=
      ⟨(52 - Int.log 2 |(n : ℚ)|).toNat, by omega⟩
    have hscaled : (n : ℚ) / 2 ^ (-(k : ℤ)) = ((n * 2 ^ k : ℤ) : ℚ) := by
      rw [zpow_neg, zpow_natCast, div_inv_eq_mul]
      push_cast
      rfl
    have hback : ((n * 2 ^ k : ℤ) : ℚ) * 2 ^ (-(k : ℤ)) = n := by
      rw [← hscaled, div_mul_cancel₀ _ (zpow_ne_zero _ two_ne_zero)]
    rw [nearest, hmax, hk, hscaled, roundToEven_intCast]
    simp only [hback]
    rw [if_neg hlarge]

/-! ### Whole numbers -/

theorem subFrom_natCast {n m : ℕ} (h : n ≤ m) (hm : m < 2 ^ 53) :
    (finite n).subFrom m = finite (m - n : ℕ) := by
  have hcast : ((m : ℤ) : ℚ) - (n : ℚ) = (((m - n : ℕ) : ℤ) : ℚ) := by
    push_cast [Nat.cast_sub h]
    rfl
  rw [subFrom, hcast, nearest_intCast]
  · rfl
  · rw [abs_of_nonneg (by omega)]
    omega

theorem repeated_natCast (c : Char) (n : ℕ) :
    (finite n).repeated c = some (List.replicate n c) := by
  have htruncate : truncate (n : ℚ) = (n : ℤ) := truncate_intCast n
  rw [repeated, htruncate, if_neg (by omega), Int.toNat_natCast]

theorem upTo_natCast (s : List Char) (n : ℕ) : (finite n).upTo s = s.take n := by
  have htruncate : truncate (n : ℚ) = (n : ℤ) := truncate_intCast n
  rw [upTo, htruncate, Int.toNat_natCast]

/-- A large number stays large when it is rounded. -/
theorem nearest_large {q : ℚ} (h : 2 ^ 53 ≤ |q|) :
    nearest q = infinity (q < 0) ∨ ∃ r, nearest q = finite r ∧
      (0 < q → 2 ^ 52 ≤ r) ∧ (q < 0 → r ≤ 1 - 2 ^ 52) := by
  have hpos : 0 < |q| := (by norm_num : (0 : ℚ) < 2 ^ 53).trans_le h
  have hlog : 53 ≤ Int.log 2 |q| := by
    rw [← Int.zpow_le_iff_le_log Nat.one_lt_two hpos]
    exact_mod_cast h
  have hmax : max (Int.log 2 |q| - 52) (-1074) = Int.log 2 |q| - 52 := max_eq_left (by omega)
  have hscale : (1 : ℚ) ≤ 2 ^ (Int.log 2 |q| - 52) := one_le_zpow₀ one_le_two (by omega)
  have hscalepos : (0 : ℚ) < 2 ^ (Int.log 2 |q| - 52) := zero_lt_one.trans_le hscale
  have hsplit : (2 : ℚ) ^ (52 : ℤ) * 2 ^ (Int.log 2 |q| - 52) ≤ |q| := by
    rw [← zpow_add₀ two_ne_zero, add_sub_cancel]
    exact Int.zpow_log_le_self Nat.one_lt_two hpos
  rw [nearest, hmax]
  split_ifs
  · exact .inl rfl
  · refine .inr ⟨_, rfl, fun hq => ?_, fun hq => ?_⟩
    · rw [abs_of_pos hq] at hsplit hscale hscalepos ⊢
      have hfloor : (2 ^ 52 : ℤ) ≤ ⌊q / 2 ^ (Int.log 2 q - 52)⌋ := by
        rw [Int.le_floor, le_div_iff₀ hscalepos]
        exact_mod_cast hsplit
      have hround := hfloor.trans (roundToEven_bounds _).1
      have hround' : (2 ^ 52 : ℚ) ≤ roundToEven (q / 2 ^ (Int.log 2 q - 52)) := by
        exact_mod_cast hround
      calc (2 : ℚ) ^ 52 = 2 ^ 52 * 1 := (mul_one _).symm
        _ ≤ _ := mul_le_mul hround' hscale zero_le_one
          ((by norm_num : (0 : ℚ) ≤ 2 ^ 52).trans hround')
    · rw [abs_of_neg hq] at hsplit hscale hscalepos ⊢
      have hquot : q / 2 ^ (Int.log 2 (-q) - 52) ≤ -(2 ^ 52) := by
        rw [div_le_iff₀ hscalepos]
        have hneg := neg_le_neg hsplit
        rw [neg_neg] at hneg
        calc q ≤ _ := hneg
          _ = _ := by norm_cast; ring
      have hfloor : ⌊q / 2 ^ (Int.log 2 (-q) - 52)⌋ ≤ -(2 ^ 52) := by
        have hle := (Int.floor_le _).trans hquot
        exact_mod_cast hle
      have hround : roundToEven (q / 2 ^ (Int.log 2 (-q) - 52)) ≤ 1 - 2 ^ 52 := by
        have hle := (roundToEven_bounds (q / 2 ^ (Int.log 2 (-q) - 52))).2
        omega
      have hround' : (roundToEven (q / 2 ^ (Int.log 2 (-q) - 52)) : ℚ) ≤ 1 - 2 ^ 52 := by
        exact_mod_cast hround
      have hnonpos : (roundToEven (q / 2 ^ (Int.log 2 (-q) - 52)) : ℚ) ≤ 0 :=
        hround'.trans (by norm_num)
      exact (mul_le_of_one_le_right hnonpos hscale).trans hround'

/-- Rounding does not change a comparison with a small integer. -/
theorem compare_nearest {n k : ℤ} (hk : |k| < 2 ^ 52 - 1) :
    ((nearest n).isLess k = true ↔ n < k) ∧ ((nearest n).isGreater k = true ↔ k < n) := by
  rcases lt_or_ge |n| (2 ^ 53) with hsmall | hlarge
  · rw [nearest_intCast hsmall, isLess, isGreater, decide_eq_true_eq, decide_eq_true_eq]
    exact ⟨Int.cast_lt, Int.cast_lt⟩
  · have hq : (2 : ℚ) ^ 53 ≤ |(n : ℚ)| := by exact_mod_cast hlarge
    have hkq := abs_lt.1 hk
    rcases lt_or_gt_of_ne (show n ≠ 0 by rintro rfl; norm_num at hlarge) with hneg | hpos
    · have hnegq : (n : ℚ) < 0 := by exact_mod_cast hneg
      rw [abs_of_neg hneg] at hlarge
      rcases nearest_large hq with heq | ⟨r, heq, -, hr⟩
      · rw [heq, isLess, isGreater, decide_eq_true hnegq]
        exact ⟨iff_of_true rfl (by omega), iff_of_false Bool.false_ne_true (by omega)⟩
      · have hr := hr hnegq
        have hrk : r < k := hr.trans_lt (by exact_mod_cast (by omega : (1 - 2 ^ 52 : ℤ) < k))
        rw [heq, isLess, isGreater, decide_eq_true hrk, decide_eq_false hrk.le.not_gt]
        exact ⟨iff_of_true rfl (by omega), iff_of_false Bool.false_ne_true (by omega)⟩
    · have hposq : (0 : ℚ) < n := by exact_mod_cast hpos
      rw [abs_of_pos hpos] at hlarge
      rcases nearest_large hq with heq | ⟨r, heq, hr, -⟩
      · rw [heq, isLess, isGreater, decide_eq_false hposq.le.not_gt]
        exact ⟨iff_of_false Bool.false_ne_true (by omega), iff_of_true rfl (by omega)⟩
      · have hr := hr hposq
        have hrk : (k : ℚ) < r := lt_of_lt_of_le (by exact_mod_cast (by omega : k < 2 ^ 52)) hr
        rw [heq, isLess, isGreater, decide_eq_true hrk, decide_eq_false hrk.le.not_gt]
        exact ⟨iff_of_false Bool.false_ne_true (by omega), iff_of_true rfl (by omega)⟩

/-! ## Decimal integers -/

inductive IsDecimal : List Char → ℤ → Prop
  | plain {s : List Char} (hne : s ≠ []) (hs : ∀ c ∈ s, c.isDigit = true) :
      IsDecimal s (numeralValue 10 s)
  | plus {s : List Char} (hne : s ≠ []) (hs : ∀ c ∈ s, c.isDigit = true) :
      IsDecimal ('+' :: s) (numeralValue 10 s)
  | minus {s : List Char} (hne : s ≠ []) (hs : ∀ c ∈ s, c.isDigit = true) :
      IsDecimal ('-' :: s) (-(numeralValue 10 s : ℤ))

theorem digit_not_special {c : Char} (hc : c.isDigit = true) :
    isSpace c = false ∧ c ∉ ['-', '+', 'x', 'X', 'o', 'O', 'b', 'B', 'e', 'E', '.', 'I'] := by
  have hbounds : 48 ≤ c.toNat ∧ c.toNat ≤ 57 := by
    simpa [Char.isDigit, UInt32.le_iff_toNat_le] using hc
  have hall : ∀ n ≤ 9, (fun c : Char => isSpace c = false ∧
      c ∉ ['-', '+', 'x', 'X', 'o', 'O', 'b', 'B', 'e', 'E', '.', 'I']) (Char.ofNat (n + 48)) := by
    decide
  have hchar := hall (c.toNat - 48) (by omega)
  have heq : Char.ofNat (c.toNat - 48 + 48) = c := by
    rw [Nat.sub_add_cancel hbounds.1, Char.ofNat_toNat]
  rwa [heq] at hchar

theorem ofUnsigned_digits {s : List Char} (hne : s ≠ []) (hs : ∀ c ∈ s, c.isDigit = true) :
    ofUnsigned s = some (numeralValue 10 s : ℚ) := by
  have hmark : ∀ c ∈ s, (!(decide (c = 'e') || decide (c = 'E'))) = true := by
    intro c hc
    have hnot := (digit_not_special (hs c hc)).2
    simp only [mem_cons, not_or] at hnot
    simp [hnot]
  have hdot : ∀ c ∈ s, decide (c ≠ '.') = true := by
    intro c hc
    have hnot := (digit_not_special (hs c hc)).2
    simp only [mem_cons, not_or] at hnot
    simp [hnot]
  rw [ofUnsigned]
  simp only [List.takeWhile_eq_self_iff.2 hmark, List.dropWhile_eq_nil_iff.2 hmark,
    List.takeWhile_eq_self_iff.2 hdot, List.dropWhile_eq_nil_iff.2 hdot, drop_nil,
    List.append_nil]
  rw [if_pos ⟨hne, List.all_eq_true.2 hs⟩, exponent, Option.map_some, length_nil]
  simp

theorem ofSigned_digits (negative : Bool) {s : List Char} (hne : s ≠ [])
    (hs : ∀ c ∈ s, c.isDigit = true) :
    ofSigned negative s =
      nearest (((if negative then -(numeralValue 10 s : ℤ) else numeralValue 10 s) : ℤ) : ℚ) := by
  have hnot : s ≠ "Infinity".toList := by
    rintro rfl
    exact absurd (hs 'I' (by decide)) (by decide)
  rw [ofSigned, if_neg hnot, ofUnsigned_digits hne hs, Option.elim_some]
  cases negative with
  | true => simp
  | false => simp

theorem trim_eq {s : List Char} (hs : ∀ c ∈ s, isSpace c = false) :
    (s.dropWhile isSpace).rdropWhile isSpace = s := by
  have hstart : s.dropWhile isSpace = s := by
    cases s with
    | nil => rfl
    | cons c s =>
      rw [dropWhile_cons_of_neg]
      rw [hs c mem_cons_self]
      exact Bool.false_ne_true
  rw [hstart, rdropWhile_eq_self_iff]
  intro hne
  rw [hs _ (getLast_mem hne)]
  exact Bool.false_ne_true

/-- A decimal text is read as the nearest number. -/
theorem ofText_decimal {s : List Char} {n : ℤ} (h : IsDecimal s n) : ofText s = nearest n := by
  have hspace : ∀ {s : List Char}, (∀ c ∈ s, c.isDigit = true) → ∀ c ∈ s, isSpace c = false :=
    fun hs c hc => (digit_not_special (hs c hc)).1
  cases h with
  | @plain s hne hs =>
    have hspecial : ∀ d ∈ ['-', '+', 'x', 'X', 'o', 'O', 'b', 'B'], d ∉ s := fun d hd hmem =>
      (digit_not_special (hs d hmem)).2 (mem_append_left ['e', 'E', '.', 'I'] hd)
    rw [ofText, trim_eq (hspace hs)]
    split
    · exact absurd rfl hne
    · exact absurd (mem_cons_of_mem _ mem_cons_self) (hspecial 'x' (by decide))
    · exact absurd (mem_cons_of_mem _ mem_cons_self) (hspecial 'X' (by decide))
    · exact absurd (mem_cons_of_mem _ mem_cons_self) (hspecial 'o' (by decide))
    · exact absurd (mem_cons_of_mem _ mem_cons_self) (hspecial 'O' (by decide))
    · exact absurd (mem_cons_of_mem _ mem_cons_self) (hspecial 'b' (by decide))
    · exact absurd (mem_cons_of_mem _ mem_cons_self) (hspecial 'B' (by decide))
    · exact absurd mem_cons_self (hspecial '-' (by decide))
    · exact absurd mem_cons_self (hspecial '+' (by decide))
    · rw [ofSigned_digits false hne hs]
      rfl
  | @plus s hne hs =>
    rw [ofText, trim_eq (List.forall_mem_cons.2 ⟨by decide, hspace hs⟩)]
    exact ofSigned_digits false hne hs
  | @minus s hne hs =>
    rw [ofText, trim_eq (List.forall_mem_cons.2 ⟨by decide, hspace hs⟩)]
    exact ofSigned_digits true hne hs

end ScriptNumber

end Gargoyle
