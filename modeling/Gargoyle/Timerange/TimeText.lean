import Gargoyle.Timerange.Match

/-!
# Ranges as they are written

A time is written as a weekday, which may be missing, and numbers with colons
between them: hours, minutes and seconds. A range is written with a hyphen, and
a list of ranges with commas; blanks may stand around the times.
-/

namespace Gargoyle

open List

namespace Timerange

open Numerals

structure TimeText where
  blanksBefore : List Char
  weekday : Option (Fin 7)
  dayText : List Char
  parts : List (List Char)
  blanksAfter : List Char
  blank_before : ∀ c ∈ blanksBefore, c ∈ whitespace
  blank_after : ∀ c ∈ blanksAfter, c ∈ whitespace
  no_day : weekday = none → dayText = []
  day : ∀ d, weekday = some d → 3 ≤ dayText.length ∧
    toLowercase (dayText.take 3) = weekdayNames.get d ∧
    ∀ c ∈ dayText, c.isDigit = false ∧ c ≠ ',' ∧ c ≠ '-'
  parts_ne_nil : parts ≠ []
  digits : ∀ p ∈ parts, p ≠ [] ∧ ∀ c ∈ p, c.isDigit = true

/-- What the numbers of a time stand for, if the first one counts `multiple`
seconds. -/
def partsSeconds : List (List Char) → ℕ → ℕ
  | [], _ => 0
  | p :: ps, multiple => numeralValue 10 p * multiple + partsSeconds ps (multiple / 60)

def TimeText.seconds (t : TimeText) : ℕ :=
  (t.weekday.elim 0 fun d => d.val * 86400) + partsSeconds t.parts 3600

def TimeText.core (t : TimeText) : List Char := t.dayText ++ [':'].intercalate t.parts

def TimeText.text (t : TimeText) : List Char := t.blanksBefore ++ (t.core ++ t.blanksAfter)

def rangesText (rs : List (TimeText × TimeText)) : List Char :=
  [','].intercalate (rs.map fun r => r.1.text ++ '-' :: r.2.text)

/-! ## Digits -/

theorem isDigit_iff (c : Char) : c.isDigit = true ↔ 48 ≤ c.toNat ∧ c.toNat ≤ 57 := by
  simp only [Char.isDigit, Bool.and_eq_true, decide_eq_true_eq, ge_iff_le, UInt32.le_iff_toNat_le]
  rfl

theorem ne_of_isDigit {c d : Char} (hc : c.isDigit = true) (hd : d.isDigit = false) : c ≠ d := by
  rintro rfl
  rw [hc] at hd
  exact absurd hd (by decide)

theorem not_mem_of_isDigit {c : Char} {ds : List Char} (hc : c.isDigit = true)
    (hds : ∀ d ∈ ds, d.isDigit = false) : c ∉ ds :=
  fun hmem => ne_of_isDigit hc (hds c hmem) rfl

theorem not_mem_of_all_digits {p : List Char} {d : Char} (hp : ∀ c ∈ p, c.isDigit = true)
    (hd : d.isDigit = false) : d ∉ p :=
  fun hmem => ne_of_isDigit (hp d hmem) hd rfl

theorem toLower_of_isDigit {c : Char} (hc : c.isDigit = true) : c.toLower = c := by
  have hle := ((isDigit_iff c).1 hc).2
  unfold Char.toLower
  rw [dif_neg]
  rintro ⟨hupper, -⟩
  have hge : 65 ≤ c.toNat := UInt32.le_iff_toNat_le.1 hupper
  omega

theorem weekdayNumber_of_isDigit {c : Char} (hc : c.isDigit = true) (cs : List Char) :
    weekdayNumber (c :: cs) = none := by
  rw [weekdayNumber, idxOf?_eq_none_iff]
  intro hmem
  have hhead : c ∈ weekdayNames.flatMap (List.take 1) :=
    List.mem_flatMap.2 ⟨c :: cs, hmem, by simp⟩
  exact not_mem_of_isDigit hc (forall_mem_of_all (by decide)) hhead

theorem scanLu_digits {p : List Char} (hne : p ≠ []) (hp : ∀ c ∈ p, c.isDigit = true) :
    scanLu p = some (numeralValue 10 p) := by
  have hspace : p.dropWhile isSpace = p := by
    obtain ⟨c, cs, rfl⟩ := exists_cons_of_ne_nil hne
    have hc : isSpace c = false := by
      have hnone : ∀ d ∈ [' ', '\t', '\n', '\x0b', '\x0c', '\r', '\xa0'], d.isDigit = false :=
        forall_mem_of_all (by decide)
      have hnot := not_mem_of_isDigit (hp c (by simp)) hnone
      simpa [isSpace] using hnot
    simp [hc]
  have htake : p.takeWhile Char.isDigit = p := List.takeWhile_eq_self_iff.2 hp
  simp only [scanLu, hspace, htake]
  rw [if_neg hne]

/-! ## Reading a time -/

theorem addTimeParts_eq (word : WordSize) {parts : List (List Char)}
    (hparts : ∀ p ∈ parts, p ≠ [] ∧ ∀ c ∈ p, c.isDigit = true) (seconds tmp multiple : ℕ)
    (hfits : seconds + partsSeconds parts multiple < 2 ^ 32) :
    addTimeParts word parts seconds tmp multiple = seconds + partsSeconds parts multiple := by
  have hword : 2 ^ 32 ≤ 2 ^ word.bits := by cases word <;> decide
  induction parts generalizing seconds tmp multiple with
  | nil => simp [addTimeParts, partsSeconds]
  | cons p ps ih =>
    obtain ⟨hne, hdigits⟩ := hparts p (by simp)
    have hps : ∀ q ∈ ps, q ≠ [] ∧ ∀ c ∈ q, c.isDigit = true := fun q hq =>
      hparts q (mem_cons_of_mem p hq)
    rw [partsSeconds] at hfits ⊢
    have hvalue : toUnsignedLong word (numeralValue 10 p) * multiple =
        numeralValue 10 p * multiple := by
      rcases Nat.eq_zero_or_pos multiple with rfl | hpos
      · simp
      · have hle := Nat.le_mul_of_pos_right (numeralValue 10 p) hpos
        rw [toUnsignedLong, Nat.mod_eq_of_lt (by omega)]
    have hsum : toUnsignedLong word (seconds + numeralValue 10 p * multiple) =
        seconds + numeralValue 10 p * multiple := Nat.mod_eq_of_lt (by omega)
    rw [addTimeParts, scanLu_digits hne hdigits, Option.map_some, Option.getD_some, hvalue, hsum,
      ih hps _ _ _ (by omega)]
    omega

section TimeText

variable (t : TimeText)

theorem TimeText.parts_spec : ∀ p ∈ t.parts, p ≠ [] ∧ ':' ∉ p := fun p hp =>
  ⟨(t.digits p hp).1, not_mem_of_all_digits (t.digits p hp).2 (by decide)⟩

theorem TimeText.numbers :
    ∃ hne : [':'].intercalate t.parts ≠ [],
      (([':'].intercalate t.parts).head hne).isDigit = true ∧
      (([':'].intercalate t.parts).getLast hne).isDigit = true ∧
      ∀ c ∈ [':'].intercalate t.parts, c.isDigit = true ∨ c = ':' := by
  have hdigits := t.digits
  have hparts := t.parts_ne_nil
  generalize t.parts = parts at hdigits hparts
  induction parts with
  | nil => exact absurd rfl hparts
  | cons p ps ih =>
    obtain ⟨hne, hp⟩ := hdigits p (by simp)
    cases ps with
    | nil =>
      rw [intercalate_singleton]
      exact ⟨hne, hp _ (head_mem hne), hp _ (getLast_mem hne), fun c hc =>
        Or.inl (hp c hc)⟩
    | cons q qs =>
      obtain ⟨hne', -, hlast, hall⟩ := ih (fun r hr => hdigits r (mem_cons_of_mem p hr))
        (by simp)
      rw [intercalate_cons_cons]
      refine ⟨by simp, ?_, ?_, fun c hc => ?_⟩
      · rw [head_append_of_ne_nil hne]
        exact hp _ (head_mem hne)
      · rw [getLast_append_of_ne_nil _ (by simp), getLast_cons hne']
        exact hlast
      · rcases List.mem_append.1 hc with hc | hc
        · exact .inl (hp c hc)
        · rcases List.mem_cons.1 hc with rfl | hc
          · exact .inr rfl
          · exact hall c hc

theorem not_mem_whitespace_of_isDigit {c : Char} (hc : c.isDigit = true) : c ∉ whitespace :=
  not_mem_of_isDigit hc (forall_mem_of_all (by decide))

theorem toLower_not_mem_name :
    ∀ d : Fin 7, ∀ c ∈ whitespace, c.toLower ∉ weekdayNames.get d := by
  have hall : ∀ d : Fin 7,
      (whitespace.all fun c => decide (c.toLower ∉ weekdayNames.get d)) = true := by decide
  exact fun d => forall_mem_of_all (hall d)

theorem weekdayNumber_name : ∀ d : Fin 7, weekdayNumber (weekdayNames.get d) = some d.val := by
  decide

theorem TimeText.tight_core : Tight t.core := by
  obtain ⟨hne, hhead, hlast, -⟩ := t.numbers
  refine ⟨by simp [core, hne], ?_, ?_⟩
  · cases hday : t.weekday with
    | none =>
      simp only [core, t.no_day hday, nil_append]
      exact not_mem_whitespace_of_isDigit hhead
    | some d =>
      obtain ⟨hlength, hname, -⟩ := t.day d hday
      obtain ⟨c, cs, hdayText⟩ := exists_cons_of_ne_nil
        (show t.dayText ≠ [] by rintro hnil; simp [hnil] at hlength)
      simp only [core, hdayText, cons_append, head_cons]
      intro hblank
      refine toLower_not_mem_name d c hblank ?_
      rw [← hname, hdayText]
      simp [toLowercase]
  · simp only [core]
    rw [getLast_append_of_ne_nil _ hne]
    exact not_mem_whitespace_of_isDigit hlast

/-- A time is read as its seconds. -/
theorem TimeText.parseTime_core (h : t.seconds < 2 ^ 32) (word : WordSize) :
    parseTime word t.core = t.seconds := by
  obtain ⟨hne, hhead, hlast, hall⟩ := t.numbers
  have htight := t.tight_core
  have hstart : t.core.dropWhile (· ∈ [' ', '\t']) = t.core := by
    obtain ⟨c, cs, hcore⟩ := exists_cons_of_ne_nil htight.ne_nil
    have hc := htight.head
    simp only [hcore, head_cons, whitespace, mem_cons, not_or] at hc ⊢
    simp [hc.1, hc.2.1]
  simp only [parseTime, hstart]
  cases hday : t.weekday with
  | none =>
    have hcore : t.core = [':'].intercalate t.parts := by rw [core, t.no_day hday, nil_append]
    obtain ⟨c, cs, hcons⟩ := exists_cons_of_ne_nil hne
    have hc : c.isDigit = true := by simpa [hcons] using hhead
    have hnumber : weekdayNumber (toLowercase (t.core.take 3)) = none := by
      rw [hcore, hcons, take_succ_cons, toLowercase, map_cons, toLower_of_isDigit hc]
      exact weekdayNumber_of_isDigit hc _
    rw [hnumber, ite_self, hcore, splitOnSeparators_intercalate t.parts_spec]
    simp only [seconds, hday, Option.elim_none, Nat.zero_add] at h ⊢
    exact (addTimeParts_eq word t.digits 0 0 3600 (by omega)).trans (Nat.zero_add _)
  | some d =>
    obtain ⟨hlength, hname, hletters⟩ := t.day d hday
    have hlong : t.core.length > 3 := by
      have := length_pos_of_ne_nil hne
      simp only [core, length_append]
      omega
    have hnumber : weekdayNumber (toLowercase (t.core.take 3)) = some d.val := by
      rw [core, take_append_of_le_length hlength, hname, weekdayNumber_name]
    have hdrop : (t.core.drop 3).dropWhile (! ·.isDigit) = [':'].intercalate t.parts := by
      rw [core, drop_append_of_le_length hlength, dropWhile_append_of_pos]
      · obtain ⟨c, cs, hcons⟩ := exists_cons_of_ne_nil hne
        have hc : c.isDigit = true := by simpa [hcons] using hhead
        rw [hcons]
        simp [hc]
      · intro c hc
        simp [(hletters c (mem_of_mem_drop hc)).1]
    rw [if_pos hlong, hnumber, hdrop, splitOnSeparators_intercalate t.parts_spec]
    simp only [seconds, hday, Option.elim_some] at h ⊢
    rw [show (60 * 60 : ℕ) = 3600 from rfl, addTimeParts_eq word t.digits _ 0 3600 (by omega)]
    omega

theorem TimeText.core_chars {c : Char} (hc : c ∈ t.core) : c ≠ ',' ∧ c ≠ '-' := by
  obtain ⟨-, -, -, hall⟩ := t.numbers
  rcases List.mem_append.1 hc with hc | hc
  · cases hday : t.weekday with
    | none =>
      rw [t.no_day hday] at hc
      simp at hc
    | some d => exact ((t.day d hday).2.2 c hc).2
  · rcases hall c hc with hdigit | rfl
    · exact ⟨ne_of_isDigit hdigit (by decide), ne_of_isDigit hdigit (by decide)⟩
    · decide

theorem TimeText.text_chars {c : Char} (hc : c ∈ t.text) : c ≠ ',' ∧ c ≠ '-' := by
  have hblank : ∀ d ∈ whitespace, d ≠ ',' ∧ d ≠ '-' := forall_mem_of_all (by decide)
  rcases List.mem_append.1 hc with hc | hc
  · exact hblank c (t.blank_before c hc)
  · rcases List.mem_append.1 hc with hc | hc
    · exact t.core_chars hc
    · exact hblank c (t.blank_after c hc)

end TimeText

/-- A range is read as its two times. -/
theorem parsePiece_range {r : TimeText × TimeText} (h : r.1.seconds < 2 ^ 31)
    (h' : r.2.seconds < 2 ^ 31) (word : WordSize) :
    parsePiece word (r.1.text ++ '-' :: r.2.text) = (↑r.1.seconds, ↑r.2.seconds) := by
  have htrim : trimFlankingWhitespace (r.1.text ++ '-' :: r.2.text) =
      (r.1.core ++ r.1.blanksAfter) ++ '-' :: (r.2.blanksBefore ++ r.2.core) := by
    have htight := r.1.tight_core.append r.2.tight_core (r.1.blanksAfter ++ '-' :: r.2.blanksBefore)
    have heq := trimFlankingWhitespace_eq r.1.blank_before htight r.2.blank_after
    simpa [TimeText.text] using heq
  have hfirst : r.1.core ++ r.1.blanksAfter ≠ [] ∧ '-' ∉ r.1.core ++ r.1.blanksAfter := by
    refine ⟨by simp [r.1.tight_core.ne_nil], fun hmem => ?_⟩
    exact (r.1.text_chars (mem_append_right _ hmem)).2 rfl
  have hlast : r.2.blanksBefore ++ r.2.core ≠ [] ∧ '-' ∉ r.2.blanksBefore ++ r.2.core := by
    refine ⟨by simp [r.2.tight_core.ne_nil], fun hmem => ?_⟩
    refine (@TimeText.text_chars r.2 '-' ?_).2 rfl
    rw [TimeText.text, ← append_assoc]
    exact mem_append_left _ hmem
  have hcore₁ : trimFlankingWhitespace (r.1.core ++ r.1.blanksAfter) = r.1.core := by
    simpa using @trimFlankingWhitespace_eq [] _ _ (by simp) r.1.tight_core r.1.blank_after
  have hcore₂ : trimFlankingWhitespace (r.2.blanksBefore ++ r.2.core) = r.2.core := by
    simpa using @trimFlankingWhitespace_eq _ _ [] r.2.blank_before r.2.tight_core (by simp)
  have hlong : ∀ n : ℕ, n < 2 ^ 31 → toLong word n = n := by
    intro n hn
    cases word <;> exact Int.bmod_eq_of_le (by simp only [WordSize.bits]; omega)
      (by simp only [WordSize.bits]; omega)
  rw [parsePiece, htrim, splitOnSeparators_pair hfirst hlast]
  simp only [hcore₁, hcore₂, r.1.parseTime_core (by omega), r.2.parseTime_core (by omega),
    hlong _ h, hlong _ h']

/-! ## Matching -/

def meant (texts : List (TimeText × TimeText)) : List (ℤ × ℤ) :=
  texts.map fun r => ((r.1.seconds : ℤ), (r.2.seconds : ℤ))

theorem parsed_rangesText_of_lt {texts : List (TimeText × TimeText)}
    (h : ∀ r ∈ texts, r.1.seconds < 2 ^ 31 ∧ r.2.seconds < 2 ^ 31) (word : WordSize) :
    (splitOnSeparators (rangesText texts) [','] (-1) false).map (parsePiece word) =
      meant texts := by
  rw [rangesText, splitOnSeparators_intercalate, map_map, meant]
  · refine map_congr_left fun r hr => ?_
    exact parsePiece_range (h r hr).1 (h r hr).2 word
  · intro p hp
    obtain ⟨r, -, rfl⟩ := List.mem_map.1 hp
    refine ⟨by simp, fun hmem => ?_⟩
    rcases List.mem_append.1 hmem with hmem | hmem
    · exact (r.1.text_chars hmem).1 rfl
    · rcases List.mem_cons.1 hmem with heq | hmem
      · exact absurd heq (by decide)
      · exact (r.2.text_chars hmem).1 rfl

theorem parsed_rangesText {texts : List (TimeText × TimeText)} {isWeeklyRange : Bool}
    (h : DisjointArcs (circle isWeeklyRange) (meant texts)) (word : WordSize) :
    (splitOnSeparators (rangesText texts) [','] (-1) false).map (parsePiece word) =
      meant texts := by
  refine parsed_rangesText_of_lt (fun r hr => ?_) word
  obtain ⟨-, hhigh, -, hhigh'⟩ := h.inside _ (mem_map_of_mem hr)
  have hlength := circle_le isWeeklyRange
  omega

/-- Disjoint ranges of the day or of the week, in any order, are accepted and
match what they say exactly if there is one and no range that crosses the end of
the circle ends where another one starts. -/
theorem matches_ranges_iff (word : WordSize) (isWeeklyRange : Bool)
    (texts : List (TimeText × TimeText))
    (h : DisjointArcs (circle isWeeklyRange) (meant texts)) :
    (∃ ts, parseTimeRanges word (rangesText texts) isWeeklyRange = .ranges ts ∧
      ∀ t, 0 ≤ t → (timerangeMt (rangeRule isWeeklyRange ts) t = true ↔
        ∃ r ∈ meant texts, Contains r (secondOf isWeeklyRange t))) ↔
      texts ≠ [] ∧ ¬ TouchesAcross (meant texts) := by
  have hparsed := parsed_rangesText h word
  constructor
  · rintro ⟨ts, hts, hmatch⟩
    have hne : texts ≠ [] := by
      rintro rfl
      have hout : parseTimeRanges word (rangesText []) isWeeklyRange = .outOfBounds := by
        cases isWeeklyRange <;> cases word <;> decide
      rw [hout] at hts
      exact absurd hts (by simp)
    refine ⟨hne, fun htouch => ?_⟩
    obtain ⟨out, hout, hordered, -, hmissed⟩ :=
      parseTimeRanges_of_arcs hparsed h (by simpa [meant] using hne)
    obtain ⟨r, hr, hnot⟩ := hmissed htouch
    obtain rfl : ts = flat out := by
      rw [hout] at hts
      exact (ParsedRanges.ranges.inj hts).symm
    obtain ⟨hlow, hhigh, -⟩ := h.inside r hr
    obtain ⟨t, ht, hsecond⟩ := exists_secondOf isWeeklyRange hlow hhigh
    have hcontains : Contains r r.1 := by
      unfold Contains
      split_ifs <;> omega
    have hfound := (hmatch t ht).2 ⟨r, hr, hsecond ▸ hcontains⟩
    rw [timerangeMt_rangeRule isWeeklyRange _ ht, hsecond, inRanges_flat hordered] at hfound
    exact hnot hfound
  · rintro ⟨hne, hnot⟩
    obtain ⟨out, hout, hordered, hcovers, -⟩ :=
      parseTimeRanges_of_arcs hparsed h (by simpa [meant] using hne)
    refine ⟨flat out, hout, fun t ht => ?_⟩
    obtain ⟨hlow, hhigh⟩ := secondOf_bounds isWeeklyRange t
    rw [timerangeMt_rangeRule isWeeklyRange _ ht, inRanges_flat hordered, hcovers hnot _ hlow hhigh]

def TimeText.ofClock (before after : List Char) (parts : List (List Char))
    (hbefore : ∀ c ∈ before, c ∈ whitespace) (hafter : ∀ c ∈ after, c ∈ whitespace)
    (hne : parts ≠ []) (hdigits : ∀ p ∈ parts, p ≠ [] ∧ ∀ c ∈ p, c.isDigit = true) : TimeText where
  blanksBefore := before
  weekday := none
  dayText := []
  parts := parts
  blanksAfter := after
  blank_before := hbefore
  blank_after := hafter
  no_day _ := rfl
  day _ h := by cases h
  parts_ne_nil := hne
  digits := hdigits

theorem mem_whitespace_of_mem_nil (c : Char) (h : c ∈ ([] : List Char)) : c ∈ whitespace :=
  absurd h not_mem_nil

theorem hourParts_ne_nil (tens ones : Char) : [[tens, ones], ['0', '0']] ≠ [] :=
  cons_ne_nil _ _

theorem hourParts_digits {tens ones : Char} (htens : tens.isDigit = true)
    (hones : ones.isDigit = true) (p : List Char) (hp : p ∈ [[tens, ones], ['0', '0']]) :
    p ≠ [] ∧ ∀ c ∈ p, c.isDigit = true := by
  rcases List.mem_pair.1 hp with rfl | rfl
  · simp [htens, hones]
  · simp

def fullHour (tens ones : Char) (htens : tens.isDigit = true) (hones : ones.isDigit = true) :
    TimeText :=
  .ofClock [] [] [[tens, ones], ['0', '0']] mem_whitespace_of_mem_nil mem_whitespace_of_mem_nil
    (hourParts_ne_nil tens ones) (hourParts_digits htens hones)

def officeAndNight : List (TimeText × TimeText) :=
  [(fullHour '0' '8' rfl rfl, fullHour '1' '2' rfl rfl),
    (fullHour '2' '2' rfl rfl, fullHour '0' '2' rfl rfl)]

theorem disjointArcs_officeAndNight : DisjointArcs (circle false) (meant officeAndNight) := by
  have hmeant : meant officeAndNight = [(28800, 43200), (79200, 7200)] := by decide
  have hcircle : circle false = 86400 := by decide
  rw [hmeant, hcircle]
  refine ⟨by decide, by decide, ?_, 50000, by decide, by decide, ?_⟩
  · refine List.pairwise_pair.2 fun s hlow hhigh hboth => ?_
    norm_num [ContainsBelow] at hboth
    omega
  · norm_num [ContainsBelow]

end Timerange

end Gargoyle
