import Gargoyle.Data.Sweep
import Gargoyle.Web.PaddedInt
import Gargoyle.Web.Schedules

/-!
# The times of two quotas

`timeVariablesToWeeklyRanges` turns the texts for the hours, the days and the ranges of the week
into a list of starts and ends, in seconds of the week. `rangesOverlap` goes through two such
lists. The texts come from the form for quotas, in English. A text without a hyphen makes the
functions fail, which is `none`.
-/

namespace Gargoyle

open List

namespace Quotas

open Sweep TextSplit Timerange Web

/-- The arguments of `timeVariablesToWeeklyRanges`. -/
structure TimeVariables where
  hours : List Char
  days : List Char
  weekly : List Char
  invert : Bool

def daySeconds : ℤ := 24 * 60 * 60

def weekSeconds : ℤ := 7 * 24 * 60 * 60

def dayToIndex (dayName : List Char) : Option ℕ :=
  (dayNames.map fun name => name.map Char.toUpper).idxOf? dayName

def dayIndexOf (text : List Char) : Option ℕ := dayToIndex ((text.take 3).map Char.toUpper)

/-- `[:\t ]`. -/
def isTimeSeparator (c : Char) : Bool := c = ':' || isTabOrSpace c

def numberOrZero (splitPiece : List (List Char)) (i : ℕ) : ℤ :=
  (parsePaddedInt (splitPiece.getD i [])).getD 0

/-- `parsePiece`, for a time of the week. -/
def parseWeeklyPiece (piece : List Char) : ℤ :=
  let splitPiece := splitRuns isTimeSeparator piece
  ((dayIndexOf (splitPiece.getD 0 [])).elim 0 fun day => (day : ℤ) * daySeconds) +
    numberOrZero splitPiece 1 * 3600 + numberOrZero splitPiece 2 * 60 + numberOrZero splitPiece 3

/-- `parsePiece`, for a time of the day. -/
def parseHoursPiece (piece : List Char) : ℤ :=
  let splitPiece := splitRuns isTimeSeparator piece
  numberOrZero splitPiece 0 * 3600 + numberOrZero splitPiece 1 * 60 + numberOrZero splitPiece 2

def parsePair (parsePiece : List Char → ℤ) (pair : List Char) : Option (ℤ × ℤ) :=
  match splitAround isTabOrSpace '-' pair with
  | first :: last :: _ => some (parsePiece first, parsePiece last)
  | _ => none

/-- The loop of `splitRangesAtEnd`. What is behind the end is put behind the other ranges. -/
def splitAtEnd (max : ℤ) : ℕ → List (ℤ × ℤ) → List (ℤ × ℤ)
  | _, [] => []
  | 0, _ => []
  | n + 1, (s, e) :: rangeList =>
    if e < s then (s, max) :: splitAtEnd max n (rangeList ++ [(0, e)])
    else (s, e) :: splitAtEnd max n rangeList

def startsFirst (a b : ℤ × ℤ) : Prop := a.1 ≤ b.1

instance : DecidableRel startsFirst := fun a b => inferInstanceAs (Decidable (a.1 ≤ b.1))

/-- `splitRangesAtEnd`. Each range is split once at most. -/
def splitRangesAtEnd (rangeList : List (ℤ × ℤ)) (max : ℤ) : List ℤ :=
  flat ((splitAtEnd max (2 * rangeList.length) rangeList).insertionSort startsFirst)

def weeklyRanges (weekly : List Char) : Option (List ℤ) :=
  ((splitAround isTabOrSpace ',' weekly).mapM (parsePair parseWeeklyPiece)).map fun ranges =>
    splitRangesAtEnd ranges weekSeconds

/-- Whether a day is one of `validDays`. -/
def isValidDay (days : List Char) (day : ℕ) : Bool :=
  days = [] || (splitAround isTabOrSpace ',' days).any fun name => dayIndexOf name = some day

/-- `replace(/^[\t ]*/, "").replace(/[\t ]*$/, "")`. -/
def trimPair (pair : List Char) : List Char :=
  (pair.dropWhile isTabOrSpace).rdropWhile isTabOrSpace

def hourRanges (hours : List Char) : Option (List ℤ) :=
  if hours = [] then some [0, daySeconds]
  else
    ((splitAround isTabOrSpace ',' hours).mapM fun pair =>
      parsePair parseHoursPiece (trimPair pair)).map fun ranges =>
        splitRangesAtEnd ranges daySeconds

def dailyRanges (hours days : List Char) : Option (List ℤ) :=
  (hourRanges hours).map fun hourRanges =>
    (List.range 7).flatMap fun day =>
      if isValidDay days day then hourRanges.map fun t => (day : ℤ) * daySeconds + t else []

def invertRanges (ranges : List ℤ) : List ℤ :=
  let ranges := if ranges.head? = some 0 then ranges.tail else 0 :: ranges
  if ranges.getLast? = some weekSeconds then ranges.dropLast else ranges ++ [weekSeconds]

def timeVariablesToWeeklyRanges (v : TimeVariables) : Option (List ℤ) :=
  if v.hours = [] ∧ v.days = [] ∧ v.weekly = [] then some [0, weekSeconds]
  else
    (if v.weekly ≠ [] then weeklyRanges v.weekly else dailyRanges v.hours v.days).map fun ranges =>
      if v.invert then invertRanges ranges else ranges

def startEndPairs : List ℤ → List (ℤ × ℤ)
  | s :: e :: ranges => (s, e) :: startEndPairs ranges
  | _ => []

def rangesOverlap (t₁ t₂ : TimeVariables) : Option Bool := do
  let ranges₁ ← timeVariablesToWeeklyRanges t₁
  let ranges₂ ← timeVariablesToWeeklyRanges t₂
  some (sweep (startEndPairs ranges₁) (startEndPairs ranges₂))

/-!
## What the form for quotas accepts

A time in the form has blanks around it, and for the ranges of the week a day in front of it, with
one blank behind the day. All texts that `validateHours` and `validateWeeklyRange` accept are made
of such times. They are read as they are meant, but for a range of the week in front of which there
is a blank: the day is looked for in the empty text before the blank.
-/

open RegularExpression Patterns
open Numerals (numeralValue)

/-! ### Times -/

def dayName (d : Fin 7) : List Char := dayNames.getD d []

structure FormTime where
  before : List Char
  day : Option (Fin 7)
  gap : List Char
  parts : List (List Char)
  after : List Char
  blank_before : ∀ c ∈ before, isTabOrSpace c = true
  blank_after : ∀ c ∈ after, isTabOrSpace c = true
  no_gap : day = none → gap = []
  one_blank : day ≠ none → ∃ c, isTabOrSpace c = true ∧ gap = [c]
  clock : ClockParts parts
  few : parts.length ≤ 3

namespace FormTime

variable (t : FormTime)

def dayText : List Char := t.day.elim [] dayName

def core : List Char := t.dayText ++ (t.gap ++ [':'].intercalate t.parts)

def text : List Char := t.before ++ (t.core ++ t.after)

def seconds : ℤ := (t.day.elim 0 fun d => (d.val : ℤ) * daySeconds) + partsSeconds t.parts 3600

def misread : ℤ :=
  (numeralValue 10 (t.parts.getD 0 []) : ℤ) * 60 + numeralValue 10 (t.parts.getD 1 [])

def readStart : ℤ := if t.before = [] then t.seconds else t.misread

def noBefore : FormTime := { t with before := [], blank_before := forall_mem_nil _ }

def noAfter : FormTime := { t with after := [], blank_after := forall_mem_nil _ }

end FormTime

def pairText (r : FormTime × FormTime) : List Char := r.1.text ++ '-' :: r.2.text

def pairsText (rs : List (FormTime × FormTime)) : List Char := [','].intercalate (rs.map pairText)

/-! ### How they are split -/

section Times

variable {t : FormTime}

theorem digit_not_separator {c : Char} (hc : c.isDigit = true) : isTimeSeparator c = false := by
  have hcolon : c ≠ ':' := by
    rintro rfl
    exact absurd hc (by decide)
  rw [isTimeSeparator, (digit_ne hc).2.2.2.2.1, decide_eq_false hcolon]
  rfl

theorem separator_of_blank {c : Char} (hc : isTabOrSpace c = true) : isTimeSeparator c = true := by
  rw [isTimeSeparator, hc, Bool.or_true]

theorem head_parts {parts : List (List Char)}
    (hparts : ∀ p ∈ parts, p ≠ [] ∧ ∀ c ∈ p, c.isDigit = true) (hne : parts ≠ []) :
    ∃ c s, [':'].intercalate parts = c :: s ∧ c.isDigit = true := by
  obtain ⟨p, ps, rfl⟩ := exists_cons_of_ne_nil hne
  obtain ⟨hp, hdigits⟩ := hparts p mem_cons_self
  obtain ⟨c, p, rfl⟩ := exists_cons_of_ne_nil hp
  rw [intercalate_colon]
  exact ⟨c, _, rfl, hdigits c mem_cons_self⟩

theorem last_parts {parts : List (List Char)}
    (hparts : ∀ p ∈ parts, p ≠ [] ∧ ∀ c ∈ p, c.isDigit = true) (hne : parts ≠ []) :
    ∃ s c, [':'].intercalate parts = s ++ [c] ∧ c.isDigit = true := by
  induction parts with
  | nil => exact absurd rfl hne
  | cons p ps ih =>
    obtain ⟨⟨hp, hdigits⟩, hps⟩ := List.forall_mem_cons.1 hparts
    cases ps with
    | nil =>
      rcases eq_nil_or_concat p with rfl | ⟨s, c, rfl⟩
      · exact absurd rfl hp
      · rw [concat_eq_append] at hdigits ⊢
        exact ⟨s, c, Timerange.intercalate_singleton ':' _, hdigits c (by simp)⟩
    | cons q qs =>
      obtain ⟨s, c, hlast, hc⟩ := ih hps (cons_ne_nil q qs)
      refine ⟨p ++ ':' :: s, c, ?_, hc⟩
      rw [Timerange.intercalate_cons_cons, hlast, append_assoc]
      rfl

/-- A time is split into its numbers. -/
theorem splitRuns_parts {parts : List (List Char)}
    (hparts : ∀ p ∈ parts, p ≠ [] ∧ ∀ c ∈ p, c.isDigit = true) (hne : parts ≠ [])
    {after : List Char} (hafter : ∀ c ∈ after, isTabOrSpace c = true) :
    splitRuns isTimeSeparator ([':'].intercalate parts ++ after) =
      parts ++ if after = [] then [] else [[]] := by
  induction parts with
  | nil => exact absurd rfl hne
  | cons p ps ih =>
    obtain ⟨⟨-, hdigits⟩, hps⟩ := List.forall_mem_cons.1 hparts
    have hp : ∀ c ∈ p, isTimeSeparator c = false := fun c hc => digit_not_separator (hdigits c hc)
    cases ps with
    | nil =>
      rw [Timerange.intercalate_singleton]
      by_cases hnil : after = []
      · rw [if_pos hnil, hnil, List.append_nil, splitRuns_of_none hp, List.append_nil]
      · have hpiece := splitRuns_piece hp hnil (fun c hc => separator_of_blank (hafter c hc))
          (s := []) (fun _ hc => by cases hc)
        rw [List.append_nil] at hpiece
        rw [if_neg hnil, hpiece]
        rfl
    | cons q qs =>
      have hrest := ih hps (cons_ne_nil q qs)
      obtain ⟨c, s, htext, hc⟩ := head_parts hps (cons_ne_nil q qs)
      have hhead : ∀ d ∈ ([':'].intercalate (q :: qs) ++ after).head?,
          isTimeSeparator d = false := by
        rw [htext]
        rintro d ⟨⟩
        exact digit_not_separator hc
      have hcolon : ∀ d ∈ [':'], isTimeSeparator d = true :=
        List.forall_mem_singleton.2 rfl
      have hpiece := splitRuns_piece hp (cons_ne_nil ':' []) hcolon hhead
      rw [hrest] at hpiece
      rw [Timerange.intercalate_cons_cons, append_assoc]
      exact hpiece

theorem dayText_spec : ∀ d : Fin 7, dayName d ≠ [] ∧
    (∀ c ∈ dayName d, isTimeSeparator c = false ∧ c ≠ ',' ∧ c ≠ '-') ∧
    dayIndexOf (dayName d) = some d.val := by
  have hall : ∀ d : Fin 7, dayName d ≠ [] ∧
      ((dayName d).all fun c =>
        decide (isTimeSeparator c = false ∧ c ≠ ',' ∧ c ≠ '-')) = true ∧
      dayIndexOf (dayName d) = some d.val := by decide
  intro d
  obtain ⟨hne, hchars, hindex⟩ := hall d
  exact ⟨hne, Numerals.forall_mem_of_all hchars, hindex⟩

theorem not_blank_of_not_separator {c : Char} (hc : isTimeSeparator c = false) :
    isTabOrSpace c = false := by
  rw [isTimeSeparator, Bool.or_eq_false_iff] at hc
  exact hc.2

theorem FormTime.head_core (t : FormTime) : ∃ c s, t.core = c :: s ∧ isTabOrSpace c = false := by
  rw [core, dayText]
  cases hday : t.day with
  | none =>
    obtain ⟨c, s, htext, hc⟩ := head_parts t.clock.digits t.clock.ne_nil
    rw [t.no_gap hday, htext]
    exact ⟨c, s, rfl, not_blank_of_not_separator (digit_not_separator hc)⟩
  | some d =>
    obtain ⟨hne, hchars, -⟩ := dayText_spec d
    obtain ⟨c, s, hname⟩ := exists_cons_of_ne_nil hne
    rw [Option.elim_some, hname]
    exact ⟨c, _, rfl, not_blank_of_not_separator
      (hchars c (hname ▸ mem_cons_self)).1⟩

theorem FormTime.last_core (t : FormTime) :
    ∃ s c, t.core = s ++ [c] ∧ isTabOrSpace c = false := by
  obtain ⟨s, c, htext, hc⟩ := last_parts t.clock.digits t.clock.ne_nil
  refine ⟨t.dayText ++ (t.gap ++ s), c, ?_, not_blank_of_not_separator (digit_not_separator hc)⟩
  rw [core, htext, append_assoc, append_assoc]

theorem FormTime.dropWhile_text (t : FormTime) (s : List Char) :
    (t.text ++ s).dropWhile isTabOrSpace = t.noBefore.text ++ s := by
  obtain ⟨c, u, hcore, hc⟩ := t.head_core
  have hrest : t.noBefore.text ++ s = t.core ++ t.after ++ s := rfl
  rw [text, append_assoc, hrest]
  refine dropWhile_blanks t.blank_before ?_
  rw [hcore]
  rintro d ⟨⟩
  exact hc

theorem FormTime.rdropWhile_text (t : FormTime) (s : List Char) :
    (s ++ t.text).rdropWhile isTabOrSpace = s ++ t.noAfter.text := by
  obtain ⟨u, c, hcore, hc⟩ := t.last_core
  have hrest : s ++ t.noAfter.text = s ++ (t.before ++ (t.core ++ [])) := rfl
  have hsplit : s ++ t.text = s ++ (t.before ++ t.core) ++ t.after := by
    simp only [text, append_assoc]
  rw [hsplit, hrest, List.append_nil]
  refine rdropWhile_blanks t.blank_after ?_
  rw [hcore]
  intro d hd
  rw [← append_assoc, ← append_assoc, getLast?_concat] at hd
  exact Option.some.inj hd ▸ hc

theorem FormTime.text_chars {t : FormTime} {c : Char} (hc : c ∈ t.text) : c ≠ ',' ∧ c ≠ '-' := by
  have hblank : isTabOrSpace c = true → c ≠ ',' ∧ c ≠ '-' := by
    rw [isTabOrSpace, Bool.or_eq_true, decide_eq_true_eq, decide_eq_true_eq]
    rintro (rfl | rfl) <;> decide
  have hdigit : c.isDigit = true → c ≠ ',' ∧ c ≠ '-' := by
    intro hc
    refine ⟨?_, (digit_ne hc).1⟩
    rintro rfl
    exact absurd hc (by decide)
  simp only [text, core, mem_append] at hc
  rcases hc with hc | (hc | hc | hc) | hc
  · exact hblank (t.blank_before c hc)
  · rw [dayText] at hc
    cases hday : t.day with
    | none =>
      rw [hday] at hc
      exact absurd hc not_mem_nil
    | some d =>
      rw [hday] at hc
      exact ((dayText_spec d).2.1 c hc).2
  · cases hday : t.day with
    | none =>
      rw [t.no_gap hday] at hc
      exact absurd hc not_mem_nil
    | some d =>
      obtain ⟨b, hb, hgap⟩ := t.one_blank (by rw [hday]; exact Option.some_ne_none d)
      rw [hgap] at hc
      exact hblank (List.mem_singleton.1 hc ▸ hb)
  · obtain ⟨p, ps, hparts⟩ := exists_cons_of_ne_nil t.clock.ne_nil
    have hdigits := t.clock.digits
    rw [hparts] at hc hdigits
    rw [intercalate_colon, mem_append, mem_flatMap] at hc
    rcases hc with hc | ⟨q, hq, hc⟩
    · exact hdigit ((hdigits p mem_cons_self).2 c hc)
    · rcases List.mem_cons.1 hc with rfl | hc
      · decide
      · exact hdigit ((hdigits q (mem_cons_of_mem p hq)).2 c hc)
  · exact hblank (t.blank_after c hc)

/-! ### How they are read -/

theorem numberOrZero_digits {pieces : List (List Char)} {i : ℕ}
    (h : ∀ c ∈ pieces.getD i [], c.isDigit = true) :
    numberOrZero pieces i = numeralValue 10 (pieces.getD i []) := by
  rw [numberOrZero]
  by_cases hne : pieces.getD i [] = []
  · rw [hne]
    rfl
  · rw [parsePaddedInt_digits h hne]
    rfl

theorem getD_parts (parts : List (List Char)) (after : List Char) (i : ℕ) :
    (parts ++ if after = [] then [] else [[]]).getD i [] = parts.getD i [] := by
  split_ifs
  · rw [List.append_nil]
  · rcases Nat.lt_or_ge i parts.length with hlt | hge
    · rw [getD_append _ _ _ _ hlt]
    · rw [getD_append_right _ _ _ _ hge, getD_eq_default parts _ hge]
      cases i - parts.length <;> rfl

theorem partsSeconds_eq {parts : List (List Char)} (hlength : parts.length ≤ 3) :
    (partsSeconds parts 3600 : ℤ) = numeralValue 10 (parts.getD 0 []) * 3600 +
      numeralValue 10 (parts.getD 1 []) * 60 + numeralValue 10 (parts.getD 2 []) := by
  match parts with
  | [] => rfl
  | [h] => simp [partsSeconds, numeralValue]
  | [h, m] => simp [partsSeconds, numeralValue]
  | [h, m, s] =>
    simp [partsSeconds]
    ring
  | h :: m :: s :: u :: ps =>
    simp only [length_cons] at hlength
    omega

theorem FormTime.digits_getD (t : FormTime) (i : ℕ) :
    ∀ c ∈ t.parts.getD i [], c.isDigit = true := by
  rcases Nat.lt_or_ge i t.parts.length with hlt | hge
  · rw [getD_eq_getElem _ _ hlt]
    exact (t.clock.digits _ (getElem_mem hlt)).2
  · rw [getD_eq_default _ _ hge]
    exact fun _ hc => absurd hc not_mem_nil

theorem FormTime.parseHoursPiece {t : FormTime} (hday : t.day = none) (hbefore : t.before = []) :
    parseHoursPiece t.text = t.seconds := by
  have htext : t.text = [':'].intercalate t.parts ++ t.after := by
    rw [text, core, dayText, hday, t.no_gap hday, hbefore]
    rfl
  have hnumber : ∀ i, numberOrZero (t.parts ++ if t.after = [] then [] else [[]]) i =
      numeralValue 10 (t.parts.getD i []) := fun i => by
    rw [numberOrZero_digits, getD_parts]
    rw [getD_parts]
    exact t.digits_getD i
  simp only [Quotas.parseHoursPiece, htext,
    splitRuns_parts t.clock.digits t.clock.ne_nil t.blank_after, hnumber]
  rw [seconds, hday, partsSeconds_eq t.few]
  simp

/-- A time of the form is read with its day. -/
theorem FormTime.parseWeeklyPiece {t : FormTime} (hday : t.day ≠ none) :
    parseWeeklyPiece t.text = t.readStart := by
  obtain ⟨d, hd⟩ := Option.ne_none_iff_exists'.1 hday
  obtain ⟨b, hb, hgap⟩ := t.one_blank hday
  obtain ⟨hne, hchars, hindex⟩ := dayText_spec d
  obtain ⟨c, u, hfirst, hc⟩ := head_parts t.clock.digits t.clock.ne_nil
  have hname : ∀ c ∈ dayName d, isTimeSeparator c = false := fun c hc => (hchars c hc).1
  have htext : t.core ++ t.after =
      dayName d ++ ([b] ++ ([':'].intercalate t.parts ++ t.after)) := by
    rw [core, dayText, hd, hgap]
    simp
  have hcore : splitRuns isTimeSeparator (t.core ++ t.after) =
      dayName d :: (t.parts ++ if t.after = [] then [] else [[]]) := by
    rw [htext, splitRuns_piece hname (cons_ne_nil b [])
      (List.forall_mem_singleton.2 (separator_of_blank hb)),
      splitRuns_parts t.clock.digits t.clock.ne_nil t.blank_after]
    rw [hfirst]
    rintro e ⟨⟩
    exact digit_not_separator hc
  have hnumber : ∀ i, numberOrZero (t.parts ++ if t.after = [] then [] else [[]]) i =
      numeralValue 10 (t.parts.getD i []) := fun i => by
    rw [numberOrZero_digits, getD_parts]
    rw [getD_parts]
    exact t.digits_getD i
  have hshift : ∀ (p : List Char) (ps : List (List Char)) i,
      numberOrZero (p :: ps) (i + 1) = numberOrZero ps i := fun _ _ _ => rfl
  rw [Quotas.parseWeeklyPiece, text]
  by_cases hbefore : t.before = []
  · rw [hbefore, nil_append, hcore, readStart, if_pos hbefore]
    simp only [hshift, hnumber, getD_cons_zero, hindex, Option.elim_some]
    rw [seconds, hd, partsSeconds_eq t.few, Option.elim_some]
    ring
  · obtain ⟨e, v, hhead⟩ := exists_cons_of_ne_nil hne
    have hrun := splitRuns_run hbefore (fun c hc => separator_of_blank (t.blank_before c hc))
      (s := t.core ++ t.after) (by
        rw [htext, hhead]
        rintro f ⟨⟩
        exact hname e (hhead ▸ mem_cons_self))
    have hnan : numberOrZero (dayName d :: (t.parts ++
        if t.after = [] then [] else [[]])) 0 = 0 := by
      have hall : ∀ d : Fin 7, parsePaddedInt (dayName d) = none := by decide
      rw [numberOrZero, getD_cons_zero, hall d]
      rfl
    have hnoday : dayIndexOf [] = none := by decide
    rw [hrun, hcore, readStart, if_neg hbefore, misread]
    simp only [hshift, hnumber, hnan, getD_cons_zero, hnoday, Option.elim_none]
    ring

end Times

/-! ### Ranges -/

section Pairs

def meantPair (r : FormTime × FormTime) : ℤ × ℤ := (r.1.seconds, r.2.seconds)

def readPair (r : FormTime × FormTime) : ℤ × ℤ := (r.1.readStart, r.2.seconds)

def readPairs : List (FormTime × FormTime) → List (ℤ × ℤ)
  | [] => []
  | r :: rs => readPair r :: rs.map meantPair

theorem dropWhile_pairText (r : FormTime × FormTime) :
    (pairText r).dropWhile isTabOrSpace = pairText (r.1.noBefore, r.2) :=
  r.1.dropWhile_text _

theorem rdropWhile_pairText (r : FormTime × FormTime) :
    (pairText r).rdropWhile isTabOrSpace = pairText (r.1, r.2.noAfter) := by
  rw [pairText, append_cons, r.2.rdropWhile_text, append_assoc]
  rfl

theorem comma_not_mem_pairText (r : FormTime × FormTime) : ',' ∉ pairText r := by
  rw [pairText, mem_append, mem_cons]
  rintro (hmem | heq | hmem)
  · exact (FormTime.text_chars hmem).1 rfl
  · exact absurd heq (by decide)
  · exact (FormTime.text_chars hmem).1 rfl

theorem splitAround_pairText (r : FormTime × FormTime) :
    splitAround isTabOrSpace '-' (pairText r) = [r.1.noAfter.text, r.2.noBefore.text] := by
  rw [pairText, splitAround_pair (fun hmem => (FormTime.text_chars hmem).2 rfl)
    fun hmem => (FormTime.text_chars hmem).2 rfl]
  have hfirst := r.1.rdropWhile_text []
  have hlast := r.2.dropWhile_text []
  rw [List.append_nil, List.append_nil] at hlast
  rw [hlast]
  exact congrArg (fun t => [t, r.2.noBefore.text]) hfirst

theorem parsePair_weekly {r : FormTime × FormTime} (h : r.1.day ≠ none ∧ r.2.day ≠ none) :
    parsePair parseWeeklyPiece (pairText r) = some (readPair r) := by
  have hfirst : parseWeeklyPiece r.1.noAfter.text = r.1.readStart :=
    FormTime.parseWeeklyPiece (t := r.1.noAfter) h.1
  have hlast : parseWeeklyPiece r.2.noBefore.text = r.2.seconds :=
    FormTime.parseWeeklyPiece (t := r.2.noBefore) h.2
  rw [parsePair, splitAround_pairText]
  simp only [hfirst, hlast]
  rfl

theorem parsePair_hours {r : FormTime × FormTime} (h : r.1.day = none ∧ r.2.day = none) :
    parsePair parseHoursPiece (trimPair (pairText r)) = some (meantPair r) := by
  have hfirst : parseHoursPiece r.1.noBefore.noAfter.text = r.1.seconds :=
    FormTime.parseHoursPiece (t := r.1.noBefore.noAfter) h.1 rfl
  have hlast : parseHoursPiece r.2.noAfter.noBefore.text = r.2.seconds :=
    FormTime.parseHoursPiece (t := r.2.noAfter.noBefore) h.2 rfl
  rw [trimPair, dropWhile_pairText, rdropWhile_pairText, parsePair, splitAround_pairText]
  simp only [hfirst, hlast]
  rfl

theorem mapM_innerPieces {f : List Char → Option (ℤ × ℤ)} {rs : List (FormTime × FormTime)}
    (h : ∀ r ∈ rs, f (pairText (r.1.noBefore, r.2)) = some (meantPair r) ∧
      f (pairText (r.1.noBefore, r.2.noAfter)) = some (meantPair r)) :
    (innerPieces isTabOrSpace (rs.map pairText)).mapM f = some (rs.map meantPair) := by
  induction rs with
  | nil => rfl
  | cons r rs ih =>
    obtain ⟨⟨hlast, hinner⟩, hrs⟩ := List.forall_mem_cons.1 h
    cases rs with
    | nil =>
      rw [map_singleton, innerPieces, dropWhile_pairText, mapM_cons, hlast]
      rfl
    | cons q rs =>
      have hrest := ih hrs
      rw [map_cons] at hrest
      rw [map_cons, map_cons, innerPieces, dropWhile_pairText, rdropWhile_pairText,
        mapM_cons, hinner, hrest]
      rfl

theorem mapM_splitAround {f : List Char → Option (ℤ × ℤ)} {r : FormTime × FormTime}
    {rs : List (FormTime × FormTime)} {first : ℤ × ℤ} (hfirst : f (pairText r) = some first)
    (hfirst' : f (pairText (r.1, r.2.noAfter)) = some first)
    (h : ∀ r ∈ rs, f (pairText (r.1.noBefore, r.2)) = some (meantPair r) ∧
      f (pairText (r.1.noBefore, r.2.noAfter)) = some (meantPair r)) :
    (splitAround isTabOrSpace ',' (pairsText (r :: rs))).mapM f =
      some (first :: rs.map meantPair) := by
  cases rs with
  | nil =>
    rw [pairsText, map_singleton, Timerange.intercalate_singleton,
      splitAround_of_not_mem (comma_not_mem_pairText r), mapM_cons, hfirst]
    rfl
  | cons q rs =>
    have hcomma : ∀ p ∈ pairText r :: pairText q :: rs.map pairText, ',' ∉ p := by
      have hmem : ∀ p ∈ (r :: q :: rs).map pairText, ',' ∉ p := by
        intro p hp
        obtain ⟨r', -, rfl⟩ := List.mem_map.1 hp
        exact comma_not_mem_pairText r'
      exact hmem
    have hrest := mapM_innerPieces h
    rw [map_cons] at hrest
    rw [pairsText, map_cons, map_cons, splitAround_intercalate hcomma,
      rdropWhile_pairText, mapM_cons, hfirst', hrest]
    rfl

theorem mapM_weekly {rs : List (FormTime × FormTime)} (hne : rs ≠ [])
    (h : ∀ r ∈ rs, r.1.day ≠ none ∧ r.2.day ≠ none) :
    (splitAround isTabOrSpace ',' (pairsText rs)).mapM (parsePair parseWeeklyPiece) =
      some (readPairs rs) := by
  obtain ⟨r, rs, rfl⟩ := exists_cons_of_ne_nil hne
  obtain ⟨hr, hrs⟩ := List.forall_mem_cons.1 h
  exact mapM_splitAround (parsePair_weekly hr) (parsePair_weekly (r := (r.1, r.2.noAfter)) hr)
    fun q hq => ⟨parsePair_weekly (r := (q.1.noBefore, q.2)) (hrs q hq),
      parsePair_weekly (r := (q.1.noBefore, q.2.noAfter)) (hrs q hq)⟩

theorem mapM_hours {rs : List (FormTime × FormTime)} (hne : rs ≠ [])
    (h : ∀ r ∈ rs, r.1.day = none ∧ r.2.day = none) :
    ((splitAround isTabOrSpace ',' (pairsText rs)).mapM fun pair =>
      parsePair parseHoursPiece (trimPair pair)) = some (rs.map meantPair) := by
  obtain ⟨r, rs, rfl⟩ := exists_cons_of_ne_nil hne
  obtain ⟨hr, hrs⟩ := List.forall_mem_cons.1 h
  exact mapM_splitAround (f := fun pair => parsePair parseHoursPiece (trimPair pair))
    (parsePair_hours hr) (parsePair_hours (r := (r.1, r.2.noAfter)) hr)
    fun q hq => ⟨parsePair_hours (r := (q.1.noBefore, q.2)) (hrs q hq),
      parsePair_hours (r := (q.1.noBefore, q.2.noAfter)) (hrs q hq)⟩

end Pairs

/-! ### Specifications -/

structure DailySpec where
  hours : List (FormTime × FormTime)
  days : List (Fin 7)
  except : Bool
  given : hours ≠ [] ∨ days ≠ []
  no_day : ∀ r ∈ hours, r.1.day = none ∧ r.2.day = none

structure WeeklySpec where
  ranges : List (FormTime × FormTime)
  except : Bool
  given : ranges ≠ []
  has_day : ∀ r ∈ ranges, r.1.day ≠ none ∧ r.2.day ≠ none

inductive WeekSpec
  | always
  | daily (d : DailySpec)
  | weekly (w : WeeklySpec)

def daysText (days : List (Fin 7)) : List Char :=
  [','].intercalate (days.map fun d => weekdayNames.getD d.val [])

def WeekSpec.variables : WeekSpec → TimeVariables
  | always => ⟨[], [], [], false⟩
  | daily d => ⟨pairsText d.hours, daysText d.days, [], d.except⟩
  | weekly w => ⟨[], [], pairsText w.ranges, w.except⟩

def spacedTime : RegularExpression Char :=
  blanks * (oneOfWords dayNames * (oneOf ['\t', ' '] * (hour *
    (optional (char ':' * (optional digitToFive * digit)) *
      (optional (char ':' * (optional digitToFive * digit)) * blanks)))))

inductive FormAccepts : TimeVariables → Prop
  | always : FormAccepts ⟨[], [], [], false⟩
  | daily {hours days : List Char} {except : Bool} (hhours : hours = [] ∨ validateHours hours = 0)
      (hdays : ∃ ds : List (Fin 7), days = daysText ds) (hgiven : hours ≠ [] ∨ days ≠ []) :
      FormAccepts ⟨hours, days, [], except⟩
  | weekly {weekly : List Char} {except : Bool} (hvalid : validateWeeklyRange weekly = 0)
      (hspaced : validateRanges spacedTime weekly = 0) : FormAccepts ⟨[], [], weekly, except⟩

theorem isTabOrSpace_of_mem : ∀ c ∈ ['\t', ' '], isTabOrSpace c = true :=
  Numerals.forall_mem_of_all (by decide)

theorem isTabOrSpace_of_blanks {w : List Char} (h : blanks.rmatch w) :
    ∀ c ∈ w, isTabOrSpace c = true :=
  fun c hc => isTabOrSpace_of_mem c (rmatch_star_oneOf h c hc)

theorem exists_formTime_of_hours (w : List Char) (h : hoursTime.rmatch w) :
    ∃ t : FormTime, t.text = w ∧ t.day = none := by
  obtain ⟨before, w, rfl, hbefore, h⟩ := (mul_rmatch_iff ..).1 h
  obtain ⟨parts, after, rfl, hparts, hfew, hafter⟩ := exists_parts_of_hours h
  exact ⟨⟨before, none, [], parts, after, isTabOrSpace_of_blanks hbefore,
    isTabOrSpace_of_blanks hafter, fun _ => rfl, fun hne => absurd rfl hne, hparts, hfew⟩, rfl, rfl⟩

theorem exists_formTime_of_weekly (w : List Char) (h : spacedTime.rmatch w) :
    ∃ t : FormTime, t.text = w ∧ t.day ≠ none := by
  obtain ⟨before, w, rfl, hbefore, h⟩ := (mul_rmatch_iff ..).1 h
  obtain ⟨name, w, rfl, hname, h⟩ := (mul_rmatch_iff ..).1 h
  obtain ⟨gap, w, rfl, hgap, h⟩ := (mul_rmatch_iff ..).1 h
  obtain ⟨parts, after, rfl, hparts, hfew, hafter⟩ := exists_parts_of_weekly h
  obtain ⟨d, hd, rfl⟩ := List.mem_iff_getElem.1 (rmatch_oneOfWords_iff.1 hname)
  obtain ⟨b, hb, rfl⟩ := rmatch_oneOf_iff.1 hgap
  have hlt : d < 7 := hd
  refine ⟨⟨before, some ⟨d, hlt⟩, [b], parts, after, isTabOrSpace_of_blanks hbefore,
    isTabOrSpace_of_blanks hafter, fun hnone => (by cases hnone),
    fun _ => ⟨b, isTabOrSpace_of_mem b hb, rfl⟩, hparts, hfew⟩, ?_, Option.some_ne_none _⟩
  have hdayName : dayName ⟨d, hlt⟩ = dayNames[d] := getD_eq_getElem dayNames [] hd
  simp only [FormTime.text, FormTime.core, FormTime.dayText, Option.elim_some, hdayName,
    append_assoc]
  rfl

theorem exists_weekSpec {v : TimeVariables} (h : FormAccepts v) :
    ∃ s : WeekSpec, s.variables = v := by
  cases h with
  | always => exact ⟨.always, rfl⟩
  | @daily hours days except hhours hdays hgiven =>
    obtain ⟨ds, rfl⟩ := hdays
    have hdays : daysText ds ≠ [] → ds ≠ [] := by
      rintro hne rfl
      exact hne rfl
    rcases hhours with rfl | hvalid
    · exact ⟨.daily ⟨[], ds, except, Or.inr (hdays (hgiven.resolve_left fun h => h rfl)),
        forall_mem_nil _⟩, rfl⟩
    · obtain ⟨rs, hne, rfl, hrs⟩ := exists_of_validateRanges exists_formTime_of_hours hvalid
      exact ⟨.daily ⟨rs, ds, except, Or.inl hne, hrs⟩, rfl⟩
  | @weekly weekly except hvalid hspaced =>
    obtain ⟨rs, hne, rfl, hrs⟩ := exists_of_validateRanges exists_formTime_of_weekly hspaced
    exact ⟨.weekly ⟨rs, except, hne, hrs⟩, rfl⟩

end Quotas

end Gargoyle
