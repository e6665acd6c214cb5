import Gargoyle.Data.Patterns
import Gargoyle.Timerange.Reload
import Gargoyle.Timerange.Stored
import Mathlib.Data.List.GetD

/-!
# Schedules of the web interface

`validateHours` and `validateWeeklyRange` check the texts of the forms for restrictions and quotas,
piece by piece. The module of the packet filter also compares the ranges of a text with each other:
it refuses a range that ends where it starts, and ranges that overlap, and it has room for 25 ranges
and for a text of 1023 characters.
-/

namespace Gargoyle

namespace Web

open RegularExpression Patterns
open Numerals (numeralValue)
open Timerange Segments

/-! ## The checks of the forms -/

/-- `[\t ]*`. -/
def blanks : RegularExpression Char := star (oneOf ['\t', ' '])

/-- `[0-9]`. -/
def digit : RegularExpression Char := oneOf ['0', '1', '2', '3', '4', '5', '6', '7', '8', '9']

/-- `[0-5]`. -/
def digitToFive : RegularExpression Char := oneOf ['0', '1', '2', '3', '4', '5']

/-- `([0-1]?[0-9]|2[0-3])`. -/
def hour : RegularExpression Char :=
  optional (oneOf ['0', '1']) * digit + oneOf ['2'] * oneOf ['0', '1', '2', '3']

/-- The pattern of a time in `validateHours`. -/
def hoursTime : RegularExpression Char :=
  blanks * (hour * (optional (char ':' * (digitToFive * digit)) * blanks))

def dayNames : List (List Char) :=
  [['S', 'u', 'n'], ['M', 'o', 'n'], ['T', 'u', 'e'], ['W', 'e', 'd'], ['T', 'h', 'u'],
    ['F', 'r', 'i'], ['S', 'a', 't']]

/-- The pattern of a time in `validateWeeklyRange`. -/
def weeklyTime : RegularExpression Char :=
  blanks * (oneOfWords dayNames * (blanks * (hour *
    (optional (char ':' * (optional digitToFive * digit)) *
      (optional (char ':' * (optional digitToFive * digit)) * blanks)))))

def validateRanges (time : RegularExpression Char) (str : List Char) : ℕ :=
  if (str.splitOn ',').all fun piece =>
    match piece.splitOn '-' with
    | [first, last] => time.rmatch first && time.rmatch last
    | _ => false
  then 0 else 1

def validateHours (hoursStr : List Char) : ℕ := validateRanges hoursTime hoursStr

def validateWeeklyRange (weeklyStr : List Char) : ℕ := validateRanges weeklyTime weeklyStr

def validateTimes (isWeeklyRange : Bool) (str : List Char) : ℕ :=
  if isWeeklyRange then validateWeeklyRange str else validateHours str

/-! ## Times that the forms accept -/

section Clock

variable {w : List Char}

structure NumberUpTo (n : ℕ) (p : List Char) : Prop where
  ne_nil : p ≠ []
  digits : ∀ c ∈ p, c.isDigit = true
  value : numeralValue 10 p ≤ n

theorem numberUpTo_digit {n : ℕ} {ds : List Char} {d : Char} (hd : d ∈ ds)
    (hall : ds.all (fun d => decide (d.isDigit = true ∧ numeralValue 10 [d] ≤ n)) = true) :
    NumberUpTo n [d] := by
  obtain ⟨hdigit, hvalue⟩ := Numerals.forall_mem_of_all hall d hd
  exact ⟨List.cons_ne_nil _ _, List.forall_mem_singleton.2 hdigit, hvalue⟩

theorem numberUpTo_digits {n : ℕ} {cs ds : List Char} {c d : Char} (hc : c ∈ cs) (hd : d ∈ ds)
    (hall : cs.all (fun c => ds.all fun d =>
      decide ((c.isDigit = true ∧ d.isDigit = true) ∧ numeralValue 10 [c, d] ≤ n)) = true) :
    NumberUpTo n [c, d] := by
  obtain ⟨⟨hdigit, hdigit'⟩, hvalue⟩ :=
    Numerals.forall_mem_of_all (List.all_eq_true.1 hall c hc) d hd
  exact ⟨List.cons_ne_nil _ _,
    List.forall_mem_cons.2 ⟨hdigit, List.forall_mem_singleton.2 hdigit'⟩, hvalue⟩

theorem hour_numberUpTo (h : hour.rmatch w) : NumberUpTo 23 w := by
  rcases (add_rmatch_iff ..).1 h with h | h
  · obtain ⟨t, u, rfl, ht, hu⟩ := (mul_rmatch_iff ..).1 h
    obtain ⟨d, hd, rfl⟩ := rmatch_oneOf_iff.1 hu
    rcases rmatch_optional_iff.1 ht with rfl | ht
    · exact numberUpTo_digit hd (by decide)
    · obtain ⟨c, hc, rfl⟩ := rmatch_oneOf_iff.1 ht
      exact numberUpTo_digits hc hd (by decide)
  · obtain ⟨t, u, rfl, ht, hu⟩ := (mul_rmatch_iff ..).1 h
    obtain ⟨c, hc, rfl⟩ := rmatch_oneOf_iff.1 ht
    obtain ⟨d, hd, rfl⟩ := rmatch_oneOf_iff.1 hu
    exact numberUpTo_digits hc hd (by decide)

theorem sixty_numberUpTo (h : (optional digitToFive * digit).rmatch w) : NumberUpTo 59 w := by
  obtain ⟨t, u, rfl, ht, hu⟩ := (mul_rmatch_iff ..).1 h
  obtain ⟨d, hd, rfl⟩ := rmatch_oneOf_iff.1 hu
  rcases rmatch_optional_iff.1 ht with rfl | ht
  · exact numberUpTo_digit hd (by decide)
  · obtain ⟨c, hc, rfl⟩ := rmatch_oneOf_iff.1 ht
    exact numberUpTo_digits hc hd (by decide)

structure ClockParts (parts : List (List Char)) : Prop where
  ne_nil : parts ≠ []
  digits : ∀ p ∈ parts, p ≠ [] ∧ ∀ c ∈ p, c.isDigit = true
  seconds : partsSeconds parts 3600 < 86400

theorem ClockParts.of_numbers {h : List Char} {ps : List (List Char)} (hh : NumberUpTo 23 h)
    (hps : ∀ p ∈ ps, NumberUpTo 59 p) (hlength : ps.length ≤ 2) : ClockParts (h :: ps) := by
  refine ⟨by simp, ?_, ?_⟩
  · intro p hp
    rcases List.mem_cons.1 hp with rfl | hp
    · exact ⟨hh.ne_nil, hh.digits⟩
    · exact ⟨(hps p hp).ne_nil, (hps p hp).digits⟩
  · have hhour := hh.value
    match ps with
    | [] =>
      simp only [partsSeconds]
      omega
    | [m] =>
      have hm := (hps m (by simp)).value
      simp only [partsSeconds]
      omega
    | [m, s] =>
      have hm := (hps m (by simp)).value
      have hs := (hps s (by simp)).value
      simp only [partsSeconds]
      omega

theorem exists_numbers {P : RegularExpression Char}
    (hP : ∀ {v}, P.rmatch v → NumberUpTo 59 v) (h : (optional (char ':' * P)).rmatch w) :
    ∃ ps : List (List Char), w = ps.flatMap (':' :: ·) ∧ (∀ p ∈ ps, NumberUpTo 59 p) ∧
      ps.length ≤ 1 := by
  rcases rmatch_optional_iff.1 h with rfl | h
  · exact ⟨[], rfl, by simp, by simp⟩
  · obtain ⟨t, p, rfl, ht, hp⟩ := (mul_rmatch_iff ..).1 h
    obtain rfl := (char_rmatch_iff ..).1 ht
    exact ⟨[p], by simp, by simpa using hP hp, by simp⟩

theorem intercalate_colon (h : List Char) (ps : List (List Char)) :
    [':'].intercalate (h :: ps) = h ++ ps.flatMap (':' :: ·) := by
  induction ps generalizing h with
  | nil => simp [List.intercalate]
  | cons p ps ih => rw [intercalate_cons_cons, ih, List.flatMap_cons, List.cons_append]

theorem mem_whitespace_of_blanks (h : blanks.rmatch w) : ∀ c ∈ w, c ∈ whitespace := by
  have hall : ∀ c ∈ ['\t', ' '], c ∈ whitespace := Numerals.forall_mem_of_all (by decide)
  exact fun c hc => hall c (rmatch_star_oneOf h c hc)

theorem exists_parts_of_hours
    (h : (hour * (optional (char ':' * (digitToFive * digit)) * blanks)).rmatch w) :
    ∃ parts after, w = [':'].intercalate parts ++ after ∧ ClockParts parts ∧ parts.length ≤ 3 ∧
      blanks.rmatch after := by
  obtain ⟨hh, w, rfl, hhour, h⟩ := (mul_rmatch_iff ..).1 h
  obtain ⟨v, after, rfl, hminutes, hafter⟩ := (mul_rmatch_iff ..).1 h
  obtain ⟨ps, rfl, hps, hlength⟩ := exists_numbers (fun hv => sixty_numberUpTo (by
    obtain ⟨t, u, rfl, ht, hu⟩ := (mul_rmatch_iff ..).1 hv
    exact (mul_rmatch_iff ..).2 ⟨t, u, rfl, rmatch_optional_iff.2 (Or.inr ht), hu⟩)) hminutes
  refine ⟨hh :: ps, after, ?_, ClockParts.of_numbers (hour_numberUpTo hhour) hps (by omega),
    by rw [List.length_cons]; omega, hafter⟩
  rw [intercalate_colon, List.append_assoc]

theorem exists_parts_of_weekly
    (h : (hour * (optional (char ':' * (optional digitToFive * digit)) *
      (optional (char ':' * (optional digitToFive * digit)) * blanks))).rmatch w) :
    ∃ parts after, w = [':'].intercalate parts ++ after ∧ ClockParts parts ∧ parts.length ≤ 3 ∧
      blanks.rmatch after := by
  obtain ⟨hh, w, rfl, hhour, h⟩ := (mul_rmatch_iff ..).1 h
  obtain ⟨v, w, rfl, hminutes, h⟩ := (mul_rmatch_iff ..).1 h
  obtain ⟨v', after, rfl, hseconds, hafter⟩ := (mul_rmatch_iff ..).1 h
  obtain ⟨ps, rfl, hps, hlength⟩ := exists_numbers sixty_numberUpTo hminutes
  obtain ⟨qs, rfl, hqs, hlength'⟩ := exists_numbers sixty_numberUpTo hseconds
  have hnumbers := List.forall_mem_append.2 ⟨hps, hqs⟩
  have hcount : (ps ++ qs).length ≤ 2 := by
    rw [List.length_append]
    omega
  refine ⟨hh :: (ps ++ qs), after, ?_,
    ClockParts.of_numbers (hour_numberUpTo hhour) hnumbers hcount,
    by rw [List.length_cons]; omega, hafter⟩
  rw [intercalate_colon, List.flatMap_append, List.append_assoc, List.append_assoc]

theorem exists_timeText_of_hours (h : hoursTime.rmatch w) :
    ∃ t : TimeText, t.text = w ∧ t.seconds < 86400 := by
  obtain ⟨before, w, rfl, hbefore, h⟩ := (mul_rmatch_iff ..).1 h
  obtain ⟨parts, after, rfl, hparts, -, hafter⟩ := exists_parts_of_hours h
  refine ⟨.ofClock before after _ (mem_whitespace_of_blanks hbefore)
    (mem_whitespace_of_blanks hafter)
    hparts.ne_nil hparts.digits, ?_, ?_⟩
  · simp [TimeText.text, TimeText.core, TimeText.ofClock]
  · simpa [TimeText.seconds, TimeText.ofClock] using hparts.seconds

theorem dayNames_spec : ∀ d < 7, (dayNames.getD d []).length = 3 ∧
    toLowercase (dayNames.getD d []) = weekdayNames.getD d [] ∧
    ∀ c ∈ dayNames.getD d [], c.isDigit = false ∧ c ≠ ',' ∧ c ≠ '-' := by
  have hall : ∀ d < 7, (dayNames.getD d []).length = 3 ∧
      toLowercase (dayNames.getD d []) = weekdayNames.getD d [] ∧
      (dayNames.getD d []).all (fun c => decide (c.isDigit = false ∧ c ≠ ',' ∧ c ≠ '-')) =
        true := by
    decide
  intro d hd
  obtain ⟨hlength, hlower, hchars⟩ := hall d hd
  exact ⟨hlength, hlower, Numerals.forall_mem_of_all hchars⟩

theorem blank_chars : ∀ c ∈ whitespace, c.isDigit = false ∧ c ≠ ',' ∧ c ≠ '-' :=
  Numerals.forall_mem_of_all (by decide)

def weekTime (before between after name : List Char) (d : Fin 7) (parts : List (List Char))
    (hbefore : ∀ c ∈ before, c ∈ whitespace) (hbetween : ∀ c ∈ between, c ∈ whitespace)
    (hafter : ∀ c ∈ after, c ∈ whitespace) (hname : name.length = 3)
    (hday : toLowercase name = weekdayNames.get d)
    (hchars : ∀ c ∈ name, c.isDigit = false ∧ c ≠ ',' ∧ c ≠ '-') (hparts : ClockParts parts) :
    TimeText where
  blanksBefore := before
  weekday := some d
  dayText := name ++ between
  parts := parts
  blanksAfter := after
  blank_before := hbefore
  blank_after := hafter
  no_day h := by cases h
  day e he := by
    obtain rfl := Option.some.inj he
    refine ⟨by simp [hname], ?_, fun c hc => ?_⟩
    · rw [← hday, ← hname, List.take_left]
    · rcases List.mem_append.1 hc with hc | hc
      · exact hchars c hc
      · exact blank_chars c (hbetween c hc)
  parts_ne_nil := hparts.ne_nil
  digits := hparts.digits

theorem exists_timeText_of_weekly (h : weeklyTime.rmatch w) :
    ∃ t : TimeText, t.text = w ∧ t.seconds < 604800 := by
  obtain ⟨before, w, rfl, hbefore, h⟩ := (mul_rmatch_iff ..).1 h
  obtain ⟨name, w, rfl, hname, h⟩ := (mul_rmatch_iff ..).1 h
  obtain ⟨between, w, rfl, hbetween, h⟩ := (mul_rmatch_iff ..).1 h
  obtain ⟨parts, after, rfl, hparts, -, hafter⟩ := exists_parts_of_weekly h
  obtain ⟨d, hd, rfl⟩ := List.mem_iff_getElem.1 (rmatch_oneOfWords_iff.1 hname)
  change d < 7 at hd
  obtain ⟨hthree, hday, hchars⟩ := dayNames_spec d hd
  rw [List.getD_eq_getElem _ _ hd] at hthree hday hchars
  rw [List.getD_eq_getElem weekdayNames _ hd] at hday
  refine ⟨weekTime before between after _ ⟨d, hd⟩ _ (mem_whitespace_of_blanks hbefore)
    (mem_whitespace_of_blanks hbetween) (mem_whitespace_of_blanks hafter) hthree hday hchars hparts,
    ?_, ?_⟩
  · simp [TimeText.text, TimeText.core, weekTime]
  · have hclock := hparts.seconds
    change d * 86400 + partsSeconds parts 3600 < 604800
    omega

end Clock

theorem exists_map_eq {α β : Type*} {f : β → α} {Q : β → Prop} {l : List α}
    (h : ∀ a ∈ l, ∃ b, f b = a ∧ Q b) : ∃ bs : List β, bs.map f = l ∧ ∀ b ∈ bs, Q b := by
  induction l with
  | nil => exact ⟨[], rfl, by simp⟩
  | cons a l ih =>
    obtain ⟨b, rfl, hb⟩ := h a (by simp)
    obtain ⟨bs, rfl, hbs⟩ := ih fun a' ha' => h a' (List.mem_cons_of_mem _ ha')
    exact ⟨b :: bs, rfl, List.forall_mem_cons.2 ⟨hb, hbs⟩⟩

/-- A text that is accepted is a list of ranges. -/
theorem exists_of_validateRanges {T : Type*} {textOf : T → List Char} {Q : T → Prop}
    {time : RegularExpression Char} (htime : ∀ w, time.rmatch w → ∃ t, textOf t = w ∧ Q t)
    {str : List Char} (h : validateRanges time str = 0) :
    ∃ rs : List (T × T), rs ≠ [] ∧
      [','].intercalate (rs.map fun r => textOf r.1 ++ '-' :: textOf r.2) = str ∧
      ∀ r ∈ rs, Q r.1 ∧ Q r.2 := by
  rw [validateRanges, ite_eq_left_iff] at h
  have hall := List.all_eq_true.1 (not_not.1 (mt h one_ne_zero))
  have hpieces : ∀ piece ∈ str.splitOn ',', ∃ r : T × T,
      textOf r.1 ++ '-' :: textOf r.2 = piece ∧ Q r.1 ∧ Q r.2 := by
    intro piece hpiece
    have hmatch := hall piece hpiece
    split at hmatch
    · next first last hsplit =>
        rw [Bool.and_eq_true] at hmatch
        obtain ⟨t, rfl, ht⟩ := htime first hmatch.1
        obtain ⟨t', rfl, ht'⟩ := htime last hmatch.2
        refine ⟨(t, t'), ?_, ht, ht'⟩
        rw [← @List.intercalate_splitOn _ piece _ _ '-', hsplit, intercalate_cons_cons,
          intercalate_singleton]
    · exact absurd hmatch Bool.false_ne_true
  obtain ⟨rs, hrs, hin⟩ := exists_map_eq hpieces
  refine ⟨rs, ?_, by rw [hrs, List.intercalate_splitOn], hin⟩
  rintro rfl
  exact List.splitOn_ne_nil ',' str hrs.symm

theorem exists_rangesText {isWeeklyRange : Bool} {text : List Char}
    (h : validateTimes isWeeklyRange text = 0) : ∃ rs, rs ≠ [] ∧ rangesText rs = text ∧
      ∀ r ∈ meant rs, (0 ≤ r.1 ∧ r.1 < circle isWeeklyRange) ∧
        0 ≤ r.2 ∧ r.2 < circle isWeeklyRange := by
  obtain ⟨time, hvalid, htime⟩ : ∃ time, validateRanges time text = 0 ∧
      ∀ w, time.rmatch w → ∃ t : TimeText, t.text = w ∧ (t.seconds : ℤ) < circle isWeeklyRange := by
    cases isWeeklyRange with
    | true =>
      refine ⟨weeklyTime, h, fun w hw => ?_⟩
      obtain ⟨t, ht, hlt⟩ := exists_timeText_of_weekly hw
      exact ⟨t, ht, show (t.seconds : ℤ) < 604800 by exact_mod_cast hlt⟩
    | false =>
      refine ⟨hoursTime, h, fun w hw => ?_⟩
      obtain ⟨t, ht, hlt⟩ := exists_timeText_of_hours hw
      exact ⟨t, ht, show (t.seconds : ℤ) < 86400 by exact_mod_cast hlt⟩
  obtain ⟨rs, hne, htext, hin⟩ := exists_of_validateRanges htime hvalid
  refine ⟨rs, hne, htext, fun x hx => ?_⟩
  obtain ⟨r, hr, rfl⟩ := List.mem_map.1 hx
  exact ⟨⟨Int.natCast_nonneg _, (hin r hr).1⟩, Int.natCast_nonneg _, (hin r hr).2⟩

/-! ## What the module makes of them -/

section Enforced

variable {length : ℤ} {rs : List (ℤ × ℤ)}

structure Enforceable (length : ℤ) (rs : List (ℤ × ℤ)) : Prop where
  inside : ∀ r ∈ rs, (0 ≤ r.1 ∧ r.1 < length) ∧ 0 ≤ r.2 ∧ r.2 < length
  nonempty : ∀ r ∈ rs, r.1 ≠ r.2
  apart : rs.Pairwise (Timerange.Apart length)

/-- When ranges that have been parsed are stored. -/
theorem parseTimeRanges_of_parsed (word : WordSize) {isWeeklyRange : Bool} {text : List Char}
    (hparsed : (splitOnSeparators text [','] (-1) false).map (parsePiece word) = rs)
    (hne : rs ≠ [])
    (hin : ∀ r ∈ rs, (0 ≤ r.1 ∧ r.1 < circle isWeeklyRange) ∧
      0 ≤ r.2 ∧ r.2 < circle isWeeklyRange) :
    (∃ ts, parseTimeRanges word text isWeeklyRange = .ranges ts) ↔
      (∀ r ∈ rs, r.1 ≠ r.2) ∧ rs.Pairwise (Timerange.Apart (circle isWeeklyRange)) := by
  have hinside : ∀ r ∈ rs, (0 ≤ r.1 ∧ r.1 < circle isWeeklyRange) ∧
      0 ≤ r.2 ∧ r.2 ≤ circle isWeeklyRange :=
    fun r hr => ⟨(hin r hr).1, (hin r hr).2.1, (hin r hr).2.2.le⟩
  rw [← overlapFound_eq_false_iff word (circle_le isWeeklyRange) hinside]
  constructor
  · rintro ⟨ts, hts⟩
    refine ⟨?_, ?_⟩
    · obtain ⟨sorted, hsorted, -⟩ := parseTimeRanges_inv hts
      rw [hparsed] at hsorted
      exact proper_of_sortRanges rfl (fun r hr => (ends_ne_of_inside hinside r hr).1) hsorted
    · by_contra hoverlap
      rw [Bool.not_eq_false] at hoverlap
      simp [parseTimeRanges, hparsed, hoverlap] at hts
  · rintro ⟨hproper, hoverlap⟩
    -- no range ends with the day, so the first one is not the whole of it
    exact parseTimeRanges_of_proper hparsed hne hinside hproper hoverlap
      fun r hr => (hin r hr).2.2.ne

end Enforced

/-- The module stores what can be enforced, and nothing else. -/
theorem parseTimeRanges_iff_enforceable (word : WordSize) (isWeeklyRange : Bool) {text : List Char}
    (h : validateTimes isWeeklyRange text = 0) :
    (∃ ts, parseTimeRanges word text isWeeklyRange = .ranges ts) ↔
      ∃ rs, rangesText rs = text ∧ Enforceable (circle isWeeklyRange) (meant rs) := by
  have hlength := circle_le isWeeklyRange
  have hiff : ∀ rs, rs ≠ [] → rangesText rs = text →
      (∀ r ∈ meant rs, (0 ≤ r.1 ∧ r.1 < circle isWeeklyRange) ∧
        0 ≤ r.2 ∧ r.2 < circle isWeeklyRange) →
      ((∃ ts, parseTimeRanges word text isWeeklyRange = .ranges ts) ↔
        (∀ r ∈ meant rs, r.1 ≠ r.2) ∧ (meant rs).Pairwise (Timerange.Apart (circle isWeeklyRange))) := by
    rintro rs hne rfl hin
    refine parseTimeRanges_of_parsed word (parsed_rangesText_of_lt (fun r hr => ?_) word)
      (by simpa [meant] using hne) hin
    have := hin _ (List.mem_map_of_mem hr)
    omega
  constructor
  · intro hts
    obtain ⟨rs, hne, htext, hin⟩ := exists_rangesText h
    obtain ⟨hproper, hapart⟩ := (hiff rs hne htext hin).1 hts
    exact ⟨rs, htext, hin, hproper, hapart⟩
  · rintro ⟨rs, htext, henf⟩
    have hne : rs ≠ [] := by
      rintro rfl
      rw [← htext] at h
      cases isWeeklyRange <;> exact absurd h (by decide)
    exact (hiff rs hne htext henf.inside).2 ⟨henf.nonempty, henf.apart⟩

def carrying (isWeeklyRange : Bool) (text : List Char) : TimerangeAttrs where
  flags := none
  hours := if isWeeklyRange then none else some text
  weekdays := none
  weeklyranges := if isWeeklyRange then some text else none

def Enforced (word : WordSize) (isWeeklyRange : Bool) (text : List Char) : Prop :=
  ∃ ts priv, parseTimeRanges word text isWeeklyRange = .ranges ts ∧
    copyText (some text) = text ∧
    nftTimerangeInit word (carrying isWeeklyRange text) = .ok priv ∧ priv.ranges = ts

theorem nftTimerangeInit_carrying (word : WordSize) (isWeeklyRange : Bool) {text : List Char}
    (hne : text ≠ []) (hwhole : copyText (some text) = text) {ts : List ℤ}
    (hts : parseTimeRanges word text isWeeklyRange = .ranges ts) :
    nftTimerangeInit word (carrying isWeeklyRange text) = storeRanges isWeeklyRange ts := by
  have hpos := List.length_pos_iff.2 hne
  rw [nftTimerangeInit, if_neg (by cases isWeeklyRange <;> simp [carrying]),
    if_neg (by simp [carrying]), storeRanges_eq]
  cases isWeeklyRange with
  | false =>
    show (initHours word (copyText (some text)) _ >>= _) = _
    rw [hwhole, initHours, if_pos hpos, hts, copyRanges]
    split_ifs <;> rfl
  | true =>
    have hweekly : ∀ priv : NftTimerangeInfo, priv.type = .unset →
        initWeeklyRanges word text priv = copyRanges priv .weeklyRange (.ranges ts) := by
      intro priv htype
      rw [initWeeklyRanges, if_pos hpos, hts]
      exact if_pos (Or.inl htype)
    show (initWeeklyRanges word (copyText (some text)) _ >>= _) = _
    rw [hwhole, hweekly _ rfl, copyRanges]
    split_ifs <;> rfl

/-- A text that the form accepts is one that the module enforces exactly if it has at most 1023
characters and is a text of ranges of which none is empty and any two are apart, and of which at most
25 pieces are stored. -/
theorem accepted_enforced_iff (word : WordSize) (isWeeklyRange : Bool) {text : List Char}
    (h : validateTimes isWeeklyRange text = 0) :
    Enforced word isWeeklyRange text ↔ text.length < 1024 ∧
      ∃ rs, rangesText rs = text ∧ Enforceable (circle isWeeklyRange) (meant rs) ∧
        storedPieces (meant rs) ≤ 25 := by
  have hne : text ≠ [] := by
    rintro rfl
    cases isWeeklyRange <;> exact absurd h (by decide)
  have hwhole : copyText (some text) = text ↔ text.length < 1024 := by
    rw [copyText, Option.getD_some, List.take_eq_self_iff, timerangeTextSize]
    omega
  have hlength : ∀ {rs ts}, rangesText rs = text → Enforceable (circle isWeeklyRange) (meant rs) →
      parseTimeRanges word text isWeeklyRange = .ranges ts →
      (ts.length < rangeLength ↔ storedPieces (meant rs) ≤ 25) := by
    rintro rs ts rfl henf hts
    have hle := circle_le isWeeklyRange
    have hparsed := parsed_rangesText_of_lt (fun r hr => by
      have := henf.inside _ (List.mem_map_of_mem hr)
      omega) word
    rw [length_of_parseTimeRanges hparsed (fun r hr => ⟨(henf.inside r hr).1,
      (henf.inside r hr).2.1, (henf.inside r hr).2.2.le⟩) henf.nonempty henf.apart hts, rangeLength]
    omega
  rw [← hwhole]
  constructor
  · rintro ⟨ts, priv, hts, hcopy, hinit, -⟩
    obtain ⟨rs, htext, henf⟩ := (parseTimeRanges_iff_enforceable word isWeeklyRange h).1 ⟨ts, hts⟩
    rw [nftTimerangeInit_carrying word isWeeklyRange hne hcopy hts] at hinit
    exact ⟨hcopy, rs, htext, henf, (hlength htext henf hts).1 (storeRanges_ok_iff.1 hinit).1⟩
  · rintro ⟨hcopy, rs, htext, henf, hpieces⟩
    obtain ⟨ts, hts⟩ := (parseTimeRanges_iff_enforceable word isWeeklyRange h).2 ⟨rs, htext, henf⟩
    refine ⟨ts, rangeRule isWeeklyRange ts, hts, hcopy, ?_, rfl⟩
    rw [nftTimerangeInit_carrying word isWeeklyRange hne hcopy hts]
    exact storeRanges_ok_iff.2 ⟨(hlength htext henf hts).2 hpieces, rfl⟩

/-- From eight to twelve, and from ten in the evening to two in the morning. -/
theorem office_and_night_enforced :
    validateTimes false "08:00-12:00,22:00-02:00".toList = 0 ∧
      Enforced .bits32 false "08:00-12:00,22:00-02:00".toList := by
  have hvalid : validateTimes false "08:00-12:00,22:00-02:00".toList = 0 := by decide
  have hmeant : meant officeAndNight = [(28800, 43200), (79200, 7200)] := by decide
  have hcircle : circle false = 86400 := by decide
  refine ⟨hvalid, (accepted_enforced_iff .bits32 false hvalid).2 ⟨by decide, officeAndNight, ?_, ?_⟩⟩
  · decide
  · rw [hmeant, hcircle]
    exact ⟨⟨by decide, by decide, List.pairwise_pair.2 (Or.inr (by decide))⟩, by decide⟩

/-- The form accepts a day that is written as a range from midnight to midnight, and two ranges of
which one lies in the other; the module refuses them. -/
theorem accepted_but_refused :
    validateHours "00:00-00:00".toList = 0 ∧
      parseTimeRanges .bits32 "00:00-00:00".toList false = .null ∧
      validateWeeklyRange "Mon 08:00-Fri 18:00,Tue 10:00-Tue 12:00".toList = 0 ∧
      parseTimeRanges .bits32 "Mon 08:00-Fri 18:00,Tue 10:00-Tue 12:00".toList true = .null := by
  decide

end Web

end Gargoyle
