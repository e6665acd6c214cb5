import Gargoyle.Timerange.TimeText

/-!
# Ranges that overlap

`parse_time_ranges` lays each range out on a line from its start, and so one that
passes the end of the day goes on into the next one. There it is not compared with
the ranges of the next day: a range that lies in what passes the end is not noticed,
unless it goes on until the other one starts again.
-/

namespace Gargoyle

open List

namespace Timerange

open Segments

section Parsed

variable {length : ℤ} {rs : List (ℤ × ℤ)}

def laidOutEnd (length : ℤ) (r : ℤ × ℤ) : ℤ := if r.2 < r.1 then r.2 + length else r.2

def Apart (length : ℤ) (r r' : ℤ × ℤ) : Prop :=
  laidOutEnd length r' ≤ r.1 ∨ laidOutEnd length r ≤ r'.1

theorem unwrappedEnd_eq (word : WordSize) (hlength : length ≤ 604800) {r : ℤ × ℤ}
    (hr : (0 ≤ r.1 ∧ r.1 < length) ∧ 0 ≤ r.2 ∧ r.2 ≤ length) :
    unwrappedEnd word length r = laidOutEnd length r := by
  rw [unwrappedEnd, laidOutEnd, toLong]
  cases word <;> rw [Int.bmod_eq_of_le (by simp only [WordSize.bits]; omega)
    (by simp only [WordSize.bits]; omega)]

theorem overlapFound_eq_false_iff (word : WordSize) (hlength : length ≤ 604800)
    (hin : ∀ r ∈ rs, (0 ≤ r.1 ∧ r.1 < length) ∧ 0 ≤ r.2 ∧ r.2 ≤ length) :
    overlapFound word length rs = false ↔ rs.Pairwise (Apart length) := by
  have hend : ∀ i (hi : i < rs.length), unwrappedEnd word length rs[i] = laidOutEnd length rs[i] :=
    fun i hi => unwrappedEnd_eq word hlength (hin _ (getElem_mem hi))
  have hmem : ∀ r : (ℤ × ℤ) × ℕ, r ∈ rs.zipIdx ↔ ∃ hr : r.2 < rs.length, rs[r.2] = r.1 :=
    fun r => by rw [mem_zipIdx_iff_getElem?, List.getElem?_eq_some_iff]
  rw [overlapFound, pairwise_iff_getElem]
  simp only [any_eq_false, hmem, Bool.not_eq_true, Bool.and_eq_false_iff,
    decide_eq_false_iff_not, not_lt, not_not]
  constructor
  · intro h i j hi hj hij
    rcases h (rs[i], i) ⟨hi, rfl⟩ (rs[j], j) ⟨hj, rfl⟩ with heq | hle | hle
    · exact absurd heq hij.ne
    · exact .inl (by rwa [hend j hj] at hle)
    · exact .inr (by rwa [hend i hi] at hle)
  · rintro h ⟨r, i⟩ ⟨hi, hr⟩ ⟨r', j⟩ ⟨hj, hr'⟩
    dsimp only at hi hr hj hr' ⊢
    rw [← hr, ← hr', hend i hi, hend j hj]
    rcases lt_trichotomy i j with hij | hij | hij
    · exact .inr (h i j hi hj hij)
    · exact .inl hij
    · exact .inr (h j i hj hi hij).symm

theorem ends_ne_of_inside (hin : ∀ r ∈ rs, (0 ≤ r.1 ∧ r.1 < length) ∧ 0 ≤ r.2 ∧ r.2 ≤ length) :
    ∀ r ∈ rs, r.1 ≠ -1 ∧ r.2 ≠ -1 := by
  intro r hr
  have := hin r hr
  omega

theorem parseTimeRanges_of_proper {word : WordSize} {isWeeklyRange : Bool} {text : List Char}
    (hparsed : (splitOnSeparators text [','] (-1) false).map (parsePiece word) = rs)
    (hne : rs ≠ []) (hin : ∀ r ∈ rs, (0 ≤ r.1 ∧ r.1 < circle isWeeklyRange) ∧
      0 ≤ r.2 ∧ r.2 ≤ circle isWeeklyRange) (hproper : ∀ r ∈ rs, r.1 ≠ r.2)
    (hoverlap : overlapFound word (circle isWeeklyRange) rs = false)
    (hend : ∀ r ∈ rs, r.2 ≠ circle isWeeklyRange) :
    ∃ ts, parseTimeRanges word text isWeeklyRange = .ranges ts := by
  have hends := ends_ne_of_inside hin
  obtain ⟨sorted, hsort, hperm, -⟩ := sortRanges_spec rfl (fun r hr => (hends r hr).1) hproper
  have hmerged : mergeAdjacentTimeRanges (untilEnd sorted) = flat (joinTouching sorted) := by
    rw [untilEnd_eq fun r hr => hends r (hperm.mem_iff.1 hr)]
    exact mergeAdjacentTimeRanges_flat fun r hr => hproper r (hperm.mem_iff.1 hr)
  have hsorted_ne : sorted ≠ [] := fun hnil => hne (List.nil_perm.1 (hnil ▸ hperm))
  obtain ⟨j, js, hjs⟩ := exists_cons_of_ne_nil (joinTouching_ne_nil hsorted_ne)
  obtain ⟨-, r, hr, hlast⟩ := ends_of_mem_joinTouching (hjs ▸ mem_cons_self : j ∈ _)
  have hnot : ¬ ((j.1 :: j.2 :: flat js)[0]? = some 0 ∧
      (j.1 :: j.2 :: flat js)[1]? = some (circle isWeeklyRange)) := by
    rintro ⟨-, hwhole⟩
    exact hend r (hperm.mem_iff.1 hr) (hlast.trans (Option.some.inj hwhole))
  simp only [parseTimeRanges, hparsed, hoverlap, hsort, hmerged, hjs, flat_cons]
  rw [if_neg Bool.false_ne_true, if_neg hnot]
  exact ⟨_, rfl⟩

/-! ## Overlaps on the circle -/

def ShareArc (length : ℤ) (r r' : ℤ × ℤ) : Prop :=
  ∃ s, 0 ≤ s ∧ s < length ∧ ContainsBelow r s ∧ ContainsBelow r' s

def OverBefore (r r' : ℤ × ℤ) : Prop := Wraps r ∧ ¬ Wraps r' ∧ r'.2 ≤ r.1

theorem apart_iff {r r' : ℤ × ℤ} (hr : (0 ≤ r.1 ∧ r.1 < length) ∧ 0 ≤ r.2 ∧ r.2 ≤ length)
    (hr' : (0 ≤ r'.1 ∧ r'.1 < length) ∧ 0 ≤ r'.2 ∧ r'.2 ≤ length) (hne : r.1 ≠ r.2)
    (hne' : r'.1 ≠ r'.2) : Apart length r r' ↔
      (ShareArc length r r' → OverBefore r r' ∨ OverBefore r' r) := by
  unfold Apart laidOutEnd ShareArc OverBefore Wraps ContainsBelow
  constructor
  · rintro hapart ⟨s, hlow, hhigh, hs, hs'⟩
    split_ifs at hapart hs hs' <;> omega
  · intro h
    by_contra hapart
    rw [not_or, not_le, not_le] at hapart
    -- the later start lies in both, and the last second of the circle if both pass its end
    have hshare : ∃ s, 0 ≤ s ∧ s < length ∧
        (if r.1 ≤ r.2 then r.1 ≤ s ∧ s < r.2 else r.1 ≤ s ∨ s < r.2) ∧
        if r'.1 ≤ r'.2 then r'.1 ≤ s ∧ s < r'.2 else r'.1 ≤ s ∨ s < r'.2 := by
      by_cases hwraps : r.2 < r.1 ∧ r'.2 < r'.1
      · refine ⟨length - 1, by omega, by omega, ?_, ?_⟩ <;> split_ifs <;> omega
      · refine ⟨max r.1 r'.1, by omega, by omega, ?_, ?_⟩ <;> split_ifs at hapart ⊢ <;> omega
    have hbefore := h hshare
    split_ifs at hapart <;> omega

theorem end_ne_of_wraps (hin : ∀ r ∈ rs, (0 ≤ r.1 ∧ r.1 < length) ∧ 0 ≤ r.2 ∧ r.2 ≤ length)
    (hapart : rs.Pairwise (Apart length)) {r : ℤ × ℤ} (hr : r ∈ rs) (hwraps : Wraps r) :
    ∀ x ∈ rs, x.2 ≠ length := by
  intro x hx heq
  have hsymm : Std.Symm (Apart length) := ⟨fun _ _ h => h.symm⟩
  obtain ⟨hstart, hstop⟩ := hin r hr
  obtain ⟨hstart', -⟩ := hin x hx
  have hxr : x ≠ r := by
    rintro rfl
    unfold Wraps at hwraps
    omega
  have hboth : Apart length x r := hapart.forall hx hr hxr
  unfold Apart laidOutEnd at hboth
  unfold Wraps at hwraps
  split_ifs at hboth <;> omega

end Parsed

/-- Ranges of which two overlap are refused exactly if some range is empty, or if two of them
overlap otherwise than by one that lies in the part of the other one behind the end of the
circle, and before its start. -/
theorem overlapping_refused_iff (word : WordSize) (isWeeklyRange : Bool)
    (texts : List (TimeText × TimeText))
    (hin : ∀ r ∈ meant texts, r.1 < circle isWeeklyRange ∧ r.2 ≤ circle isWeeklyRange)
    (hoverlap : ¬ (meant texts).Pairwise fun r r' => ¬ ShareArc (circle isWeeklyRange) r r') :
    parseTimeRanges word (rangesText texts) isWeeklyRange = .null ↔
      (∃ r ∈ meant texts, r.1 = r.2) ∨
        ¬ (meant texts).Pairwise fun r r' =>
          ShareArc (circle isWeeklyRange) r r' → OverBefore r r' ∨ OverBefore r' r := by
  have hlength := circle_le isWeeklyRange
  have hinside : ∀ r ∈ meant texts, (0 ≤ r.1 ∧ r.1 < circle isWeeklyRange) ∧
      0 ≤ r.2 ∧ r.2 ≤ circle isWeeklyRange := by
    intro r hr
    obtain ⟨t, -, rfl⟩ := List.mem_map.1 hr
    exact ⟨⟨Int.natCast_nonneg _, (hin _ hr).1⟩, Int.natCast_nonneg _, (hin _ hr).2⟩
  have hparsed : (splitOnSeparators (rangesText texts) [','] (-1) false).map (parsePiece word) =
      meant texts := by
    refine parsed_rangesText_of_lt (fun r hr => ?_) word
    have := hin _ (mem_map_of_mem hr)
    omega
  have hfound := overlapFound_eq_false_iff word hlength hinside
  by_cases hproper : ∀ r ∈ meant texts, r.1 ≠ r.2
  · have hapart : (meant texts).Pairwise (Apart (circle isWeeklyRange)) ↔
        (meant texts).Pairwise fun r r' =>
          ShareArc (circle isWeeklyRange) r r' → OverBefore r r' ∨ OverBefore r' r :=
      List.Pairwise.iff_of_mem fun {r r'} hr hr' =>
        apart_iff (hinside r hr) (hinside r' hr') (hproper r hr) (hproper r' hr')
    have hnone : ¬ ∃ r ∈ meant texts, r.1 = r.2 := fun ⟨r, hr, heq⟩ => hproper r hr heq
    rw [← hapart, ← hfound, or_iff_right hnone]
    cases hcase : overlapFound word (circle isWeeklyRange) (meant texts) with
    | true => simp [parseTimeRanges, hparsed, hcase]
    | false =>
      refine iff_of_false (fun hnull => ?_) (by simp)
      -- an overlap that is not found takes a range that passes the end of the circle
      obtain ⟨r, hr, hwraps⟩ : ∃ r ∈ meant texts, Wraps r := by
        by_contra hnowrap
        refine hoverlap (List.Pairwise.imp_of_mem ?_ (hapart.1 (hfound.1 hcase)))
        intro r r' hr hr' hbefore hshare
        rcases hbefore hshare with h | h
        · exact hnowrap ⟨r, hr, h.1⟩
        · exact hnowrap ⟨r', hr', h.1⟩
      obtain ⟨ts, hts⟩ := parseTimeRanges_of_proper hparsed (ne_nil_of_mem hr) hinside
        hproper hcase (end_ne_of_wraps hinside (hfound.1 hcase) hr hwraps)
      rw [hts] at hnull
      cases hnull
  · refine iff_of_true ?_ (Or.inl (by simpa using hproper))
    have hsort : sortRanges (meant texts).length (meant texts) = none := by
      refine Option.eq_none_iff_forall_ne_some.2 fun sorted hsorted => hproper ?_
      exact proper_of_sortRanges rfl (fun r hr => (ends_ne_of_inside hinside r hr).1) hsorted
    simp [parseTimeRanges, hparsed, hsort]

theorem isDigit_lastDigit (n : ℕ) : (Nat.digitChar (n % 10)).isDigit = true := by
  rw [Nat.isDigit_digitChar, decide_eq_true (Nat.mod_lt n (by norm_num))]

def hourOf (tens ones : ℕ) : TimeText :=
  fullHour (Nat.digitChar (tens % 10)) (Nat.digitChar (ones % 10)) (isDigit_lastDigit tens)
    (isDigit_lastDigit ones)

def overlappingDay : List (TimeText × TimeText) :=
  [(hourOf 0 8, hourOf 1 2), (hourOf 1 0, hourOf 1 4)]

theorem overlapping_day_refused :
    parseTimeRanges .bits64 (rangesText overlappingDay) false = .null := by
  have hmeant : meant overlappingDay = [(28800, 43200), (36000, 50400)] := by decide
  have hcircle : circle false = 86400 := by decide
  have hshare : ShareArc 86400 (28800, 43200) (36000, 50400) :=
    ⟨40000, by norm_num, by norm_num, by norm_num [ContainsBelow], by norm_num [ContainsBelow]⟩
  refine (overlapping_refused_iff .bits64 false overlappingDay ?_ ?_).2 (Or.inr ?_)
  · rw [hmeant, hcircle]
    decide
  · rw [hmeant, hcircle, pairwise_pair]
    exact not_not.2 hshare
  · rw [hmeant, hcircle, pairwise_pair]
    intro h
    have hbefore := h hshare
    norm_num [OverBefore, Wraps] at hbefore

def overlappingNight : List (TimeText × TimeText) :=
  [(hourOf 2 2, hourOf 0 2), (hourOf 0 1, hourOf 0 3)]

/-- Two ranges have the hour after one in common and are accepted. -/
theorem overlapping_night_accepted :
    rangesText overlappingNight = "22:00-02:00,01:00-03:00".toList ∧
      meant overlappingNight = [(79200, 7200), (3600, 10800)] ∧
      ShareArc (circle false) (79200, 7200) (3600, 10800) ∧
      parseTimeRanges .bits64 "22:00-02:00,01:00-03:00".toList false ≠ .null := by
  have hcircle : circle false = 86400 := by decide
  refine ⟨by decide, by decide, ?_, by decide⟩
  rw [hcircle]
  exact ⟨3600, by norm_num, by norm_num, by norm_num [ContainsBelow], by norm_num [ContainsBelow]⟩

end Timerange

end Gargoyle
