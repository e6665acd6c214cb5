import Gargoyle.Quotas.WeekSpecs
import Mathlib.Data.Int.ConditionallyCompleteOrder

/-!
# Times that overlap

A specification stands for a set of seconds of the week, and `rangesOverlap` compares the pieces
that are made of its texts. The answer is whether two of them meet.
-/

namespace Gargoyle

open List

namespace Quotas

open Segments Sweep TextSplit Timerange Web

/-! ## What is meant -/

def week : Set ℤ := Set.Ico 0 weekSeconds

def InRange (r : ℤ × ℤ) (x : ℤ) : Prop :=
  if r.1 ≤ r.2 then r.1 ≤ x ∧ x < r.2 else r.1 ≤ x ∨ x < r.2

def DailySpec.written (d : DailySpec) (x : ℤ) : Prop :=
  (d.hours = [] ∨ ∃ r ∈ d.hours, InRange (meantPair r) (x % daySeconds)) ∧
    (d.days = [] ∨ ∃ e ∈ d.days, (e.val : ℤ) = x / daySeconds)

def WeeklySpec.written (w : WeeklySpec) (x : ℤ) : Prop := ∃ r ∈ w.ranges, InRange (meantPair r) x

def WeekSpec.seconds : WeekSpec → Set ℤ
  | always => week
  | daily d => {x ∈ week | d.written x ↔ d.except = false}
  | weekly w => {x ∈ week | w.written x ↔ w.except = false}

def ShareInterval (s t : WeekSpec) : Prop :=
  ∃ a b, a < b ∧ Set.Ico a b ⊆ s.seconds ∩ t.seconds

/-! ## Pieces -/

def cutAtEnd (max : ℤ) (rs : List (ℤ × ℤ)) : List (ℤ × ℤ) :=
  (rs.map fun r => if r.2 < r.1 then (r.1, max) else r) ++
    (rs.filter fun r => r.2 < r.1).map fun r => (0, r.2)

def inOrder (rs : List (ℤ × ℤ)) : List (ℤ × ℤ) := rs.insertionSort startsFirst

def hourPieces (hours : List (FormTime × FormTime)) : List (ℤ × ℤ) :=
  if hours = [] then [(0, daySeconds)] else inOrder (cutAtEnd daySeconds (hours.map meantPair))

def onDay (day : ℕ) (p : ℤ × ℤ) : ℤ × ℤ :=
  ((day : ℤ) * daySeconds + p.1, (day : ℤ) * daySeconds + p.2)

def DailySpec.covered (d : DailySpec) : List (ℤ × ℤ) :=
  (List.range 7).flatMap fun day =>
    if d.days = [] ∨ ∃ e ∈ d.days, e.val = day then (hourPieces d.hours).map (onDay day) else []

def WeeklySpec.covered (w : WeeklySpec) : List (ℤ × ℤ) :=
  inOrder (cutAtEnd weekSeconds (readPairs w.ranges))

def gapsFrom (e : ℤ) : List (ℤ × ℤ) → List (ℤ × ℤ)
  | [] => if e = weekSeconds then [] else [(e, weekSeconds)]
  | r :: rs => (e, r.1) :: gapsFrom r.2 rs

def gaps : List (ℤ × ℤ) → List (ℤ × ℤ)
  | [] => [(0, weekSeconds)]
  | r :: rs => if r.1 = 0 then gapsFrom r.2 rs else (0, r.1) :: gapsFrom r.2 rs

namespace WeekSpec

def covered : WeekSpec → List (ℤ × ℤ)
  | always => [(0, weekSeconds)]
  | daily d => d.covered
  | weekly w => w.covered

def except : WeekSpec → Bool
  | always => false
  | daily d => d.except
  | weekly w => w.except

def pieces (s : WeekSpec) : List (ℤ × ℤ) := if s.except then gaps s.covered else s.covered

end WeekSpec

/-! ## What is made of the texts -/

section Texts

/-- The loop cuts each range that goes past the end. -/
theorem splitAtEnd_eq (max : ℤ) {rs ws : List (ℤ × ℤ)} (hrs : ∀ r ∈ rs, 0 ≤ r.2)
    (hws : ∀ r ∈ ws, ¬r.2 < r.1) {n : ℕ}
    (hn : rs.length + (rs.filter fun r => r.2 < r.1).length + ws.length ≤ n) :
    splitAtEnd max n (rs ++ ws) =
      (rs.map fun r => if r.2 < r.1 then (r.1, max) else r) ++
        (ws ++ (rs.filter fun r => r.2 < r.1).map fun r => (0, r.2)) := by
  induction n generalizing rs ws with
  | zero =>
    obtain rfl : rs = [] := eq_nil_of_length_eq_zero (by omega)
    obtain rfl : ws = [] := eq_nil_of_length_eq_zero (by omega)
    rfl
  | succ n ih =>
    cases rs with
    | nil =>
      cases ws with
      | nil => rfl
      | cons w ws =>
        obtain ⟨hw, hws⟩ := List.forall_mem_cons.1 hws
        have hrest := @ih [] ws hrs hws (by simp at hn ⊢; omega)
        simp only [nil_append, map_nil, filter_nil, List.append_nil] at hrest ⊢
        rw [splitAtEnd, if_neg hw, hrest]
    | cons r rs =>
      obtain ⟨hr, hrs⟩ := List.forall_mem_cons.1 hrs
      rw [cons_append, splitAtEnd, map_cons]
      by_cases hwrap : r.2 < r.1
      · have hfilter : (r :: rs).filter (fun r => r.2 < r.1) =
            r :: rs.filter fun r => r.2 < r.1 :=
          filter_cons_of_pos (decide_eq_true hwrap)
        rw [hfilter] at hn ⊢
        have hpushed : ∀ w ∈ ws ++ [((0 : ℤ), r.2)], ¬w.2 < w.1 :=
          List.forall_mem_append.2 ⟨hws, List.forall_mem_singleton.2 (not_lt.2 hr)⟩
        have hrest := ih hrs hpushed (by
          simp only [length_cons, length_append, length_nil] at hn ⊢
          omega)
        rw [if_pos hwrap, if_pos hwrap, append_assoc, hrest, map_cons,
          append_assoc]
        rfl
      · have hfilter : (r :: rs).filter (fun r => r.2 < r.1) =
            rs.filter fun r => r.2 < r.1 :=
          filter_cons_of_neg (by simpa using hwrap)
        rw [hfilter] at hn ⊢
        have hrest := ih hrs hws (by
          simp only [length_cons] at hn
          omega)
        rw [if_neg hwrap, if_neg hwrap, hrest]
        rfl

theorem splitRangesAtEnd_eq {max : ℤ} {rs : List (ℤ × ℤ)} (hrs : ∀ r ∈ rs, 0 ≤ r.2) :
    splitRangesAtEnd rs max = flat (inOrder (cutAtEnd max rs)) := by
  have hfilter := length_filter_le (fun r : ℤ × ℤ => decide (r.2 < r.1)) rs
  have hloop := @splitAtEnd_eq max rs [] hrs (forall_mem_nil _) (2 * rs.length)
    (by rw [length_nil]; omega)
  rw [List.append_nil, nil_append] at hloop
  rw [splitRangesAtEnd, hloop]
  rfl

theorem startEndPairs_flat (rs : List (ℤ × ℤ)) : startEndPairs (flat rs) = rs := by
  induction rs with
  | nil => rfl
  | cons r rs ih => rw [flat_cons, startEndPairs, ih]

theorem startEndPairs_close (e : ℤ) (rs : List (ℤ × ℤ)) :
    startEndPairs (if (e :: flat rs).getLast? = some weekSeconds then (e :: flat rs).dropLast
      else e :: flat rs ++ [weekSeconds]) = gapsFrom e rs := by
  induction rs generalizing e with
  | nil =>
    simp only [flat_nil, getLast?_singleton, Option.some_inj, gapsFrom]
    split_ifs <;> rfl
  | cons r rs ih =>
    rw [flat_cons, getLast?_cons_cons, getLast?_cons_cons, gapsFrom, ← ih r.2]
    split_ifs <;> rfl

theorem startEndPairs_invertRanges (rs : List (ℤ × ℤ)) :
    startEndPairs (invertRanges (flat rs)) = gaps rs := by
  cases rs with
  | nil => rfl
  | cons r rs =>
    have hhead : (flat (r :: rs)).head? = some 0 ↔ r.1 = 0 := Option.some_inj
    rw [invertRanges, gaps]
    by_cases hzero : r.1 = 0
    · rw [if_pos (hhead.2 hzero), if_pos hzero]
      exact startEndPairs_close r.2 rs
    · rw [if_neg (mt hhead.1 hzero), if_neg hzero]
      exact startEndPairs_close 0 (r :: rs)

theorem daySeconds_pos : 0 < daySeconds := by decide

theorem FormTime.seconds_nonneg (t : FormTime) : 0 ≤ t.seconds := by
  rw [seconds]
  cases t.day with
  | none => exact Int.add_nonneg le_rfl (Int.natCast_nonneg _)
  | some d =>
    have hday := mul_nonneg (Int.natCast_nonneg d.val) daySeconds_pos.le
    exact Int.add_nonneg hday (Int.natCast_nonneg _)

theorem meantPair_nonneg (rs : List (FormTime × FormTime)) : ∀ r ∈ rs.map meantPair, 0 ≤ r.2 := by
  intro r hr
  obtain ⟨r, -, rfl⟩ := List.mem_map.1 hr
  exact r.2.seconds_nonneg

theorem readPairs_nonneg (rs : List (FormTime × FormTime)) : ∀ r ∈ readPairs rs, 0 ≤ r.2 := by
  cases rs with
  | nil => exact forall_mem_nil _
  | cons r rs => exact List.forall_mem_cons.2 ⟨r.2.seconds_nonneg, meantPair_nonneg rs⟩

theorem pairsText_ne_nil {rs : List (FormTime × FormTime)} (hne : rs ≠ []) : pairsText rs ≠ [] := by
  obtain ⟨r, rs, rfl⟩ := exists_cons_of_ne_nil hne
  have hpair : pairText r ≠ [] := append_ne_nil_of_right_ne_nil _ (cons_ne_nil _ _)
  cases rs with
  | nil =>
    rw [pairsText, map_singleton, Timerange.intercalate_singleton]
    exact hpair
  | cons q rs =>
    rw [pairsText, map_cons, map_cons, Timerange.intercalate_cons_cons]
    exact append_ne_nil_of_left_ne_nil hpair _

theorem weeklyRanges_eq (w : WeeklySpec) :
    weeklyRanges (pairsText w.ranges) = some (flat w.covered) := by
  rw [weeklyRanges, mapM_weekly w.given w.has_day, Option.map_some,
    splitRangesAtEnd_eq (readPairs_nonneg w.ranges)]
  rfl

theorem hourRanges_eq (d : DailySpec) :
    hourRanges (pairsText d.hours) = some (flat (hourPieces d.hours)) := by
  rw [hourRanges, hourPieces]
  by_cases hne : d.hours = []
  · rw [if_pos hne, hne]
    rfl
  · rw [if_neg (pairsText_ne_nil hne), if_neg hne, mapM_hours hne d.no_day, Option.map_some,
      splitRangesAtEnd_eq (meantPair_nonneg d.hours)]

theorem weekday_spec : ∀ e : Fin 7, weekdayNames.getD e.val [] ≠ [] ∧
    (∀ c ∈ weekdayNames.getD e.val [], c ≠ ',' ∧ isTabOrSpace c = false) ∧
    dayIndexOf (weekdayNames.getD e.val []) = some e.val := by
  have hall : ∀ e : Fin 7, weekdayNames.getD e.val [] ≠ [] ∧
      ((weekdayNames.getD e.val []).all fun c => decide (c ≠ ',' ∧ isTabOrSpace c = false)) = true ∧
      dayIndexOf (weekdayNames.getD e.val []) = some e.val := by decide
  intro e
  obtain ⟨hne, hchars, hindex⟩ := hall e
  exact ⟨hne, Numerals.forall_mem_of_all hchars, hindex⟩

theorem daysText_eq_nil_iff {days : List (Fin 7)} : daysText days = [] ↔ days = [] := by
  constructor
  · intro hnil
    cases days with
    | nil => rfl
    | cons e days =>
      have hname := (weekday_spec e).1
      cases days with
      | nil =>
        rw [daysText, map_singleton, Timerange.intercalate_singleton] at hnil
        exact absurd hnil hname
      | cons f days =>
        rw [daysText, map_cons, map_cons, Timerange.intercalate_cons_cons] at hnil
        exact absurd (List.append_eq_nil_iff.1 hnil).1 hname
  · rintro rfl
    rfl

theorem isValidDay_iff (days : List (Fin 7)) (day : ℕ) :
    isValidDay (daysText days) day = true ↔ days = [] ∨ ∃ e ∈ days, e.val = day := by
  rw [isValidDay, Bool.or_eq_true, decide_eq_true_eq, daysText_eq_nil_iff]
  by_cases hne : days = []
  · exact iff_of_true (Or.inl hne) (Or.inl hne)
  · rw [or_iff_right hne, or_iff_right hne]
    have hsplit : splitAround isTabOrSpace ',' (daysText days) =
        days.map fun e => weekdayNames.getD e.val [] := by
      refine splitAround_clean (by simpa using hne) fun p hp => ?_
      obtain ⟨e, -, rfl⟩ := List.mem_map.1 hp
      have hchars := (weekday_spec e).2.1
      exact ⟨fun hmem => (hchars _ hmem).1 rfl, fun c hc => (hchars c hc).2⟩
    rw [hsplit, any_map, any_eq_true]
    refine exists_congr fun e => and_congr_right fun _ => ?_
    rw [Function.comp_apply, decide_eq_true_eq, (weekday_spec e).2.2, Option.some_inj]

theorem dailyRanges_eq (d : DailySpec) :
    dailyRanges (pairsText d.hours) (daysText d.days) = some (flat d.covered) := by
  have hday : ∀ day : ℕ, (if isValidDay (daysText d.days) day then
      (flat (hourPieces d.hours)).map fun t => (day : ℤ) * daySeconds + t else []) =
        flat (if d.days = [] ∨ ∃ e ∈ d.days, e.val = day then
          (hourPieces d.hours).map (onDay day) else []) := by
    intro day
    have hvalid := isValidDay_iff d.days day
    by_cases hchosen : d.days = [] ∨ ∃ e ∈ d.days, e.val = day
    · rw [if_pos (hvalid.2 hchosen), if_pos hchosen, flat, flat, map_flatMap, flatMap_map]
      rfl
    · rw [if_neg (mt hvalid.1 hchosen), if_neg hchosen, flat_nil]
  rw [dailyRanges, hourRanges_eq, Option.map_some, DailySpec.covered]
  simp only [hday]
  rw [flat, flatMap_assoc]
  rfl

/-- What is made of the texts of a specification. -/
theorem timeVariablesToWeeklyRanges_eq (s : WeekSpec) :
    ∃ ranges, timeVariablesToWeeklyRanges s.variables = some ranges ∧
      startEndPairs ranges = s.pieces := by
  have hinvert : ∀ (except : Bool) (rs : List (ℤ × ℤ)),
      startEndPairs (if except then invertRanges (flat rs) else flat rs) =
        if except then gaps rs else rs := by
    intro except rs
    cases except with
    | true => exact startEndPairs_invertRanges rs
    | false => exact startEndPairs_flat rs
  cases s with
  | always => exact ⟨_, rfl, rfl⟩
  | daily d =>
    have hgiven : ¬((WeekSpec.daily d).variables.hours = [] ∧
        (WeekSpec.daily d).variables.days = [] ∧ (WeekSpec.daily d).variables.weekly = []) := by
      rintro ⟨hhours, hdays, -⟩
      rcases d.given with hne | hne
      · exact pairsText_ne_nil hne hhours
      · exact hne (daysText_eq_nil_iff.1 hdays)
    have hranges : dailyRanges (WeekSpec.daily d).variables.hours
        (WeekSpec.daily d).variables.days = some (flat d.covered) := dailyRanges_eq d
    refine ⟨_, ?_, hinvert d.except d.covered⟩
    rw [timeVariablesToWeeklyRanges, if_neg hgiven, if_neg (fun h => h rfl), hranges]
    rfl
  | weekly w =>
    have hne : (WeekSpec.weekly w).variables.weekly ≠ [] := pairsText_ne_nil w.given
    have hranges : weeklyRanges (WeekSpec.weekly w).variables.weekly = some (flat w.covered) :=
      weeklyRanges_eq w
    refine ⟨_, ?_, hinvert w.except w.covered⟩
    rw [timeVariablesToWeeklyRanges, if_neg (fun h => hne h.2.2), if_pos hne, hranges]
    rfl

theorem rangesOverlap_eq (s t : WeekSpec) :
    ∃ found, rangesOverlap s.variables t.variables = some found ∧
      (found = true ↔ Meets s.pieces t.pieces) := by
  obtain ⟨ranges, hranges, hpieces⟩ := timeVariablesToWeeklyRanges_eq s
  obtain ⟨ranges', hranges', hpieces'⟩ := timeVariablesToWeeklyRanges_eq t
  refine ⟨sweep s.pieces t.pieces, ?_, sweep_iff⟩
  rw [rangesOverlap, hranges, hranges', ← hpieces, ← hpieces']
  rfl

end Texts

/-!
## When the answer about times is right

Ranges with equal ends, ranges that end at midnight and ranges that touch under `except` leave
empty pieces; ranges that overlap under `except` leave reversed ones. With them a piece may hide
another one, or seem to cross it. Without any of these, and if no blank stands in front of ranges
of the week, the answer is right.
-/

/-- No range is empty or ends at midnight, no blank stands in front of ranges of the week, and
under `except` the ranges are apart from each other. -/
structure WeekSpec.Regular (s : WeekSpec) : Prop where
  unblanked : ∀ w, s = .weekly w → ∀ r ∈ w.ranges.head?, r.1.before = []
  proper : ∀ p ∈ s.covered, p.1 < p.2
  apart : s.except = true → s.covered.Pairwise fun p q => p.2 < q.1

section Regular

theorem week_bounds {x : ℤ} (hx : x ∈ week) : 0 ≤ x ∧ x < weekSeconds := hx

/-- Cutting at the end does not change what is covered. -/
theorem coversBelow_cutAtEnd {max : ℤ} (rs : List (ℤ × ℤ)) {x : ℤ} (hx : 0 ≤ x) (hmax : x < max) :
    CoversBelow (cutAtEnd max rs) x ↔ ∃ r ∈ rs, InRange r x := by
  constructor
  · rintro ⟨p, hp, hle, hlt⟩
    rcases List.mem_append.1 hp with hp | hp
    · obtain ⟨r, hr, rfl⟩ := List.mem_map.1 hp
      refine ⟨r, hr, ?_⟩
      rw [InRange]
      by_cases hwrap : r.2 < r.1
      · rw [if_pos hwrap] at hle
        rw [if_neg (not_le.2 hwrap)]
        exact .inl hle
      · rw [if_neg hwrap] at hle hlt
        rw [if_pos (not_lt.1 hwrap)]
        exact ⟨hle, hlt⟩
    · obtain ⟨r, hr, rfl⟩ := List.mem_map.1 hp
      obtain ⟨hr, hwrap⟩ := List.mem_filter.1 hr
      refine ⟨r, hr, ?_⟩
      rw [InRange, if_neg (not_le.2 (of_decide_eq_true hwrap))]
      exact .inr hlt
  · rintro ⟨r, hr, hin⟩
    rw [InRange] at hin
    by_cases hwrap : r.2 < r.1
    · rw [if_neg (not_le.2 hwrap)] at hin
      rcases hin with hle | hlt
      · exact ⟨(r.1, max), mem_append_left _ (List.mem_map.2 ⟨r, hr, if_pos hwrap⟩), hle,
          hmax⟩
      · exact ⟨(0, r.2), mem_append_right _ (List.mem_map.2
          ⟨r, List.mem_filter.2 ⟨hr, decide_eq_true hwrap⟩, rfl⟩), hx, hlt⟩
    · rw [if_pos (not_lt.1 hwrap)] at hin
      exact ⟨r, mem_append_left _ (List.mem_map.2 ⟨r, hr, if_neg hwrap⟩), hin⟩

theorem mem_inOrder {rs : List (ℤ × ℤ)} {p : ℤ × ℤ} : p ∈ inOrder rs ↔ p ∈ rs :=
  mem_insertionSort startsFirst

theorem coversBelow_inOrder {rs : List (ℤ × ℤ)} {x : ℤ} :
    CoversBelow (inOrder rs) x ↔ CoversBelow rs x :=
  exists_congr fun _ => and_congr_left fun _ => mem_inOrder

theorem sorted_inOrder (rs : List (ℤ × ℤ)) :
    (inOrder rs).Pairwise fun p q => p.1 ≤ q.1 := by
  have htotal : Std.Total startsFirst := ⟨fun p q => le_total p.1 q.1⟩
  have htrans : IsTrans (ℤ × ℤ) startsFirst := ⟨fun p q r h h' => le_trans h h'⟩
  exact pairwise_insertionSort startsFirst rs

theorem bounds_cutAtEnd {max : ℤ} {rs : List (ℤ × ℤ)}
    (h : ∀ r ∈ rs, (0 ≤ r.1 ∧ r.1 < max) ∧ 0 ≤ r.2 ∧ r.2 < max) :
    ∀ p ∈ cutAtEnd max rs, (0 ≤ p.1 ∧ p.1 < max) ∧ p.2 ≤ max := by
  intro p hp
  rcases List.mem_append.1 hp with hp | hp
  · obtain ⟨r, hr, rfl⟩ := List.mem_map.1 hp
    obtain ⟨hstart, -, hlt⟩ := h r hr
    split_ifs
    · exact ⟨hstart, le_rfl⟩
    · exact ⟨hstart, hlt.le⟩
  · obtain ⟨r, hr, rfl⟩ := List.mem_map.1 hp
    obtain ⟨⟨hstart, hlt⟩, -, hend⟩ := h r (List.mem_filter.1 hr).1
    exact ⟨⟨le_rfl, hstart.trans_lt hlt⟩, hend.le⟩

theorem FormTime.seconds_lt_day {t : FormTime} (h : t.day = none) : t.seconds < daySeconds := by
  have hclock := t.clock.seconds
  have hday : daySeconds = 86400 := rfl
  rw [seconds, h, Option.elim_none, hday]
  omega

theorem FormTime.seconds_lt_week (t : FormTime) : t.seconds < weekSeconds := by
  have hclock := t.clock.seconds
  have hday : daySeconds = 86400 := rfl
  have hweek : weekSeconds = 604800 := rfl
  rw [seconds, hday, hweek]
  cases t.day with
  | none =>
    rw [Option.elim_none]
    omega
  | some d =>
    have hd := d.isLt
    rw [Option.elim_some]
    omega

structure Fits (rs : List (ℤ × ℤ)) : Prop where
  sorted : rs.Pairwise fun p q => p.1 ≤ q.1
  bounds : ∀ p ∈ rs, 0 ≤ p.1 ∧ p.2 ≤ weekSeconds

theorem hourPieces_bounds (d : DailySpec) :
    ∀ p ∈ hourPieces d.hours, (0 ≤ p.1 ∧ p.1 < daySeconds) ∧ p.2 ≤ daySeconds := by
  rw [hourPieces]
  split_ifs
  · exact List.forall_mem_singleton.2 ⟨⟨le_rfl, daySeconds_pos⟩, le_rfl⟩
  · intro p hp
    refine bounds_cutAtEnd ?_ p (mem_inOrder.1 hp)
    intro r hr
    obtain ⟨q, hq, rfl⟩ := List.mem_map.1 hr
    obtain ⟨hfirst, hlast⟩ := d.no_day q hq
    exact ⟨⟨q.1.seconds_nonneg, q.1.seconds_lt_day hfirst⟩, q.2.seconds_nonneg,
      q.2.seconds_lt_day hlast⟩

theorem hourPieces_sorted (d : DailySpec) :
    (hourPieces d.hours).Pairwise fun p q => p.1 ≤ q.1 := by
  rw [hourPieces]
  split_ifs
  · exact pairwise_singleton _ _
  · exact sorted_inOrder _

theorem coversBelow_hourPieces (d : DailySpec) {y : ℤ} (hy : 0 ≤ y) (hlt : y < daySeconds) :
    CoversBelow (hourPieces d.hours) y ↔
      d.hours = [] ∨ ∃ r ∈ d.hours, InRange (meantPair r) y := by
  rw [hourPieces]
  split_ifs with hnil
  · exact iff_of_true ⟨_, mem_singleton_self _, hy, hlt⟩ (Or.inl hnil)
  · rw [coversBelow_inOrder, coversBelow_cutAtEnd _ hy hlt, or_iff_right hnil]
    exact ⟨fun ⟨r, hr, hin⟩ => (List.mem_map.1 hr).elim fun q hq => ⟨q, hq.1, hq.2 ▸ hin⟩,
      fun ⟨q, hq, hin⟩ => ⟨meantPair q, mem_map_of_mem hq, hin⟩⟩

theorem mem_dailyCovered {d : DailySpec} {p : ℤ × ℤ} :
    p ∈ d.covered ↔ ∃ day < 7, (d.days = [] ∨ ∃ e ∈ d.days, e.val = day) ∧
      ∃ q ∈ hourPieces d.hours, onDay day q = p := by
  rw [DailySpec.covered, mem_flatMap]
  refine exists_congr fun day => ?_
  rw [mem_range]
  refine and_congr_right fun _ => ?_
  split_ifs with hchosen
  · rw [mem_map]
    exact (and_iff_right hchosen).symm
  · exact iff_of_false not_mem_nil fun h => hchosen h.1

theorem fits_daily (d : DailySpec) : Fits d.covered where
  sorted := by
    rw [DailySpec.covered, pairwise_flatMap]
    constructor
    · intro day _
      split_ifs
      · exact List.pairwise_map.2 ((hourPieces_sorted d).imp fun h => by
          rw [onDay, onDay]
          exact Int.add_le_add_left h _)
      · exact List.Pairwise.nil
    · refine List.pairwise_lt_range.imp ?_
      intro day day' hlt p hp q hq
      split_ifs at hp hq with h₁ h₂
      · obtain ⟨p', hp', rfl⟩ := List.mem_map.1 hp
        obtain ⟨q', hq', rfl⟩ := List.mem_map.1 hq
        have hfirst := hourPieces_bounds d p' hp'
        have hsecond := hourPieces_bounds d q' hq'
        have hday : daySeconds = 86400 := rfl
        simp only [onDay, hday] at hfirst hsecond ⊢
        omega
      · exact absurd hq not_mem_nil
      · exact absurd hp not_mem_nil
      · exact absurd hp not_mem_nil
  bounds := by
    intro p hp
    obtain ⟨day, hlt, -, q, hq, rfl⟩ := mem_dailyCovered.1 hp
    have hbounds := hourPieces_bounds d q hq
    have hday : daySeconds = 86400 := rfl
    have hweek : weekSeconds = 604800 := rfl
    simp only [onDay, hday, hweek] at hbounds ⊢
    omega

/-- The pieces of all days cover what is written. -/
theorem coversBelow_daily (d : DailySpec) {x : ℤ} (hx : x ∈ week) :
    CoversBelow d.covered x ↔ d.written x := by
  obtain ⟨hnonneg, hlt⟩ := week_bounds hx
  have hday : daySeconds = 86400 := rfl
  have hweek : weekSeconds = 604800 := rfl
  rw [hweek] at hlt
  have hmod : 0 ≤ x % daySeconds ∧ x % daySeconds < daySeconds := by
    rw [hday]
    omega
  rw [DailySpec.written, ← coversBelow_hourPieces d hmod.1 hmod.2]
  constructor
  · rintro ⟨p, hp, hle, hend⟩
    obtain ⟨day, -, hchosen, q, hq, rfl⟩ := mem_dailyCovered.1 hp
    have hbounds := hourPieces_bounds d q hq
    simp only [onDay, hday] at hbounds hle hend
    have hquot : x / daySeconds = (day : ℤ) := by
      rw [hday]
      omega
    refine ⟨⟨q, hq, ?_, ?_⟩, hchosen.imp_right ?_⟩
    · rw [hday]
      omega
    · rw [hday]
      omega
    · rintro ⟨e, he, rfl⟩
      exact ⟨e, he, hquot.symm⟩
  · rintro ⟨⟨q, hq, hle, hend⟩, hchosen⟩
    obtain ⟨day, hquot⟩ : ∃ day : ℕ, x / daySeconds = day :=
      Int.eq_ofNat_of_zero_le (by rw [hday]; omega)
    rw [hday] at hle hend hquot
    refine ⟨onDay day q, mem_dailyCovered.2 ⟨day, by omega, hchosen.imp_right ?_, q, hq, rfl⟩,
      ?_, ?_⟩
    · rintro ⟨e, he, heq⟩
      rw [hday, hquot] at heq
      exact ⟨e, he, by exact_mod_cast heq⟩
    · simp only [onDay, hday]
      omega
    · simp only [onDay, hday]
      omega

theorem readPairs_eq {rs : List (FormTime × FormTime)}
    (h : ∀ r ∈ rs.head?, r.1.before = []) : readPairs rs = rs.map meantPair := by
  cases rs with
  | nil => rfl
  | cons r rs => rw [readPairs, readPair, FormTime.readStart, if_pos (h r rfl), map_cons,
      meantPair]

theorem fits_weekly {w : WeeklySpec} (h : ∀ r ∈ w.ranges.head?, r.1.before = []) :
    Fits w.covered where
  sorted := sorted_inOrder _
  bounds := by
    intro p hp
    have hbounds : ∀ r ∈ readPairs w.ranges,
        (0 ≤ r.1 ∧ r.1 < weekSeconds) ∧ 0 ≤ r.2 ∧ r.2 < weekSeconds := by
      rw [readPairs_eq h]
      intro r hr
      obtain ⟨q, -, rfl⟩ := List.mem_map.1 hr
      exact ⟨⟨q.1.seconds_nonneg, q.1.seconds_lt_week⟩, q.2.seconds_nonneg, q.2.seconds_lt_week⟩
    obtain ⟨⟨hstart, -⟩, hend⟩ := bounds_cutAtEnd hbounds p (mem_inOrder.1 hp)
    exact ⟨hstart, hend⟩

theorem coversBelow_weekly {w : WeeklySpec} (h : ∀ r ∈ w.ranges.head?, r.1.before = []) {x : ℤ}
    (hx : x ∈ week) : CoversBelow w.covered x ↔ w.written x := by
  rw [WeeklySpec.covered, coversBelow_inOrder, readPairs_eq h,
    coversBelow_cutAtEnd _ (week_bounds hx).1 (week_bounds hx).2, WeeklySpec.written]
  exact ⟨fun ⟨r, hr, hin⟩ => (List.mem_map.1 hr).elim fun q hq => ⟨q, hq.1, hq.2 ▸ hin⟩,
    fun ⟨q, hq, hin⟩ => ⟨meantPair q, mem_map_of_mem hq, hin⟩⟩

/-! ### What is between ranges -/

/-- What is left of the week behind `e`. -/
theorem gapsFrom_spec {e : ℤ} {rs : List (ℤ × ℤ)} (hweek : e ≤ weekSeconds)
    (hfirst : ∀ r ∈ rs, e < r.1) (hproper : ∀ r ∈ rs, r.1 < r.2 ∧ r.2 ≤ weekSeconds)
    (hapart : rs.Pairwise fun p q => p.2 < q.1) :
    (∀ x, CoversBelow (gapsFrom e rs) x ↔ (e ≤ x ∧ x < weekSeconds) ∧ ¬CoversBelow rs x) ∧
      Ordered (gapsFrom e rs) ∧ ∀ p ∈ gapsFrom e rs, e ≤ p.1 ∧ p.2 ≤ weekSeconds := by
  induction rs generalizing e with
  | nil =>
    have hnone : ∀ x, ¬CoversBelow ([] : List (ℤ × ℤ)) x :=
      fun x h => h.elim fun r hr => absurd hr.1 not_mem_nil
    rw [gapsFrom]
    split_ifs with hend
    · refine ⟨fun x => iff_of_false (hnone x) fun h => ?_, ⟨forall_mem_nil _,
        List.Pairwise.nil⟩, forall_mem_nil _⟩
      exact absurd (h.1.1.trans_lt h.1.2) (not_lt.2 hend.ge)
    · refine ⟨fun x => ?_, ⟨List.forall_mem_singleton.2 (lt_of_le_of_ne hweek hend),
        pairwise_singleton _ _⟩, List.forall_mem_singleton.2 ⟨le_rfl, le_rfl⟩⟩
      rw [and_iff_left (hnone x)]
      constructor
      · rintro ⟨r, hr, hin⟩
        rwa [List.mem_singleton.1 hr] at hin
      · exact fun hin => ⟨_, mem_singleton_self _, hin⟩
  | cons r rs ih =>
    obtain ⟨hr, hfirst⟩ := List.forall_mem_cons.1 hfirst
    obtain ⟨⟨hlt, hend⟩, hproper⟩ := List.forall_mem_cons.1 hproper
    obtain ⟨hnext, hapart⟩ := List.pairwise_cons.1 hapart
    obtain ⟨hcovers, hordered, hbounds⟩ := ih hend hnext hproper hapart
    have hstarts : ∀ p ∈ gapsFrom r.2 rs, e ≤ p.1 ∧ p.2 ≤ weekSeconds := fun p hp =>
      ⟨(hr.le.trans hlt.le).trans (hbounds p hp).1, (hbounds p hp).2⟩
    rw [gapsFrom]
    refine ⟨fun x => ?_, ⟨List.forall_mem_cons.2 ⟨hr, hordered.proper⟩,
      List.pairwise_cons.2 ⟨fun p hp => (hstarts p hp).1, hordered.sorted⟩⟩,
      List.forall_mem_cons.2 ⟨⟨le_rfl, hlt.le.trans hend⟩, hstarts⟩⟩
    rw [coversBelow_cons, coversBelow_cons, hcovers]
    have hbehind : CoversBelow rs x → r.2 < x := fun ⟨q, hq, hin⟩ =>
      (hnext q hq).trans_le hin.1
    constructor
    · rintro (⟨hle, hlt'⟩ | ⟨⟨hle, hlt'⟩, hnot⟩)
      · refine ⟨⟨hle, hlt'.trans (hlt.trans_le hend)⟩, ?_⟩
        rintro (hin | hin)
        · exact absurd hin.1 (not_le.2 hlt')
        · exact absurd (hbehind hin) (not_lt.2 (hlt'.trans hlt).le)
      · refine ⟨⟨(hr.trans hlt).le.trans hle, hlt'⟩, ?_⟩
        rintro (hin | hin)
        · exact absurd hin.2 (not_lt.2 hle)
        · exact hnot hin
    · rintro ⟨⟨hle, hlt'⟩, hnot⟩
      rw [not_or] at hnot
      rcases lt_or_ge x r.1 with hbefore | hin
      · exact .inl ⟨hle, hbefore⟩
      · exact .inr ⟨⟨not_lt.1 fun h => hnot.1 ⟨hin, h⟩, hlt'⟩, hnot.2⟩

/-- The gaps cover what the ranges do not. -/
theorem gaps_spec {rs : List (ℤ × ℤ)} (hproper : ∀ r ∈ rs, r.1 < r.2) (hfits : Fits rs)
    (hapart : rs.Pairwise fun p q => p.2 < q.1) :
    (∀ x ∈ week, CoversBelow (gaps rs) x ↔ ¬CoversBelow rs x) ∧
      Ordered (gaps rs) ∧ ∀ p ∈ gaps rs, 0 ≤ p.1 ∧ p.2 ≤ weekSeconds := by
  have hproper' : ∀ r ∈ rs, r.1 < r.2 ∧ r.2 ≤ weekSeconds := fun r hr =>
    ⟨hproper r hr, (hfits.bounds r hr).2⟩
  have hzero : (0 : ℤ) ≤ weekSeconds := by decide
  -- The week begins with a gap, or with the first range.
  have hopen : gaps rs = gapsFrom 0 rs → (∀ r ∈ rs, 0 < r.1) →
      (∀ x ∈ week, CoversBelow (gaps rs) x ↔ ¬CoversBelow rs x) ∧
      Ordered (gaps rs) ∧ ∀ p ∈ gaps rs, 0 ≤ p.1 ∧ p.2 ≤ weekSeconds := by
    intro heq hpos
    obtain ⟨hcovers, hordered, hbounds⟩ := gapsFrom_spec hzero hpos hproper' hapart
    rw [heq]
    exact ⟨fun x hx => (hcovers x).trans (and_iff_right hx), hordered, hbounds⟩
  cases rs with
  | nil => exact hopen rfl (forall_mem_nil _)
  | cons r rs =>
    obtain ⟨hnext, hapart'⟩ := List.pairwise_cons.1 hapart
    by_cases hstart : r.1 = 0
    · obtain ⟨⟨hlt, hend⟩, hrest⟩ := List.forall_mem_cons.1 hproper'
      obtain ⟨hcovers, hordered, hbounds⟩ := gapsFrom_spec hend hnext hrest hapart'
      rw [gaps, if_pos hstart]
      refine ⟨fun x hx => ?_, hordered, fun p hp => ⟨?_, (hbounds p hp).2⟩⟩
      · rw [hcovers, coversBelow_cons, not_or, hstart, and_iff_left hx.2, not_and, not_lt]
        exact and_congr_left fun _ => ⟨fun h _ => h, fun h => h hx.1⟩
      · exact ((hfits.bounds r mem_cons_self).1.trans hlt.le).trans (hbounds p hp).1
    · refine hopen (by rw [gaps, if_neg hstart, gapsFrom]) fun q hq => ?_
      have hpos : 0 < r.1 :=
        lt_of_le_of_ne (hfits.bounds r mem_cons_self).1 (Ne.symm hstart)
      rcases List.mem_cons.1 hq with rfl | hq
      · exact hpos
      · exact (hpos.trans (hproper r mem_cons_self)).trans (hnext q hq)

/-! ### The pieces of regular specifications -/

variable {s t : WeekSpec}

theorem fits_covered (h : s.Regular) : Fits s.covered := by
  cases s with
  | always => exact ⟨pairwise_singleton _ _, List.forall_mem_singleton.2 ⟨le_rfl, le_rfl⟩⟩
  | daily d => exact fits_daily d
  | weekly w => exact fits_weekly (h.unblanked w rfl)

/-- The pieces of a regular specification are its seconds, in order. -/
theorem pieces_spec (h : s.Regular) :
    Ordered s.pieces ∧ (∀ x, CoversBelow s.pieces x ↔ x ∈ s.seconds) := by
  have hfits := fits_covered h
  have hcovered : ∀ x ∈ week, CoversBelow s.covered x ↔ (x ∈ s.seconds ↔ s.except = false) := by
    intro x hx
    cases s with
    | always =>
      exact iff_of_true ⟨_, mem_singleton_self _, hx⟩ (iff_of_true hx rfl)
    | daily d =>
      rw [WeekSpec.covered, coversBelow_daily d hx]
      by_cases hexcept : d.except = false <;>
        simp [WeekSpec.seconds, WeekSpec.except, hx, hexcept]
    | weekly w =>
      rw [WeekSpec.covered, coversBelow_weekly (h.unblanked w rfl) hx]
      by_cases hexcept : w.except = false <;>
        simp [WeekSpec.seconds, WeekSpec.except, hx, hexcept]
  have hweek : s.seconds ⊆ week := by
    cases s with
    | always => exact Set.Subset.rfl
    | daily d => exact fun x hx => hx.1
    | weekly w => exact fun x hx => hx.1
  have hin : ∀ ps : List (ℤ × ℤ), (∀ p ∈ ps, 0 ≤ p.1 ∧ p.2 ≤ weekSeconds) →
      ∀ x, CoversBelow ps x → x ∈ week := fun ps hps x ⟨p, hp, hle, hlt⟩ =>
    ⟨(hps p hp).1.trans hle, hlt.trans_le (hps p hp).2⟩
  rw [WeekSpec.pieces]
  cases hexcept : s.except with
  | false =>
    simp only [hexcept, iff_true] at hcovered
    rw [if_neg Bool.false_ne_true]
    exact ⟨⟨h.proper, hfits.sorted⟩, fun x => ⟨fun hc =>
      (hcovered x (hin _ hfits.bounds x hc)).1 hc, fun hx => (hcovered x (hweek hx)).2 hx⟩⟩
  | true =>
    obtain ⟨hgaps, hordered, hbounds⟩ := gaps_spec h.proper hfits (h.apart hexcept)
    have hmissing : ∀ x ∈ week, CoversBelow (gaps s.covered) x ↔ x ∈ s.seconds := by
      intro x hx
      rw [hgaps x hx, hcovered x hx, hexcept]
      simp
    rw [if_pos rfl]
    exact ⟨hordered, fun x => ⟨fun hc => (hmissing x (hin _ hbounds x hc)).1 hc,
      fun hx => (hmissing x (hweek hx)).2 hx⟩⟩

theorem shareInterval_iff (hs : s.Regular) (ht : t.Regular) :
    ShareInterval s t ↔ ∃ p ∈ s.pieces, ∃ q ∈ t.pieces, Crosses p q := by
  obtain ⟨hsordered, hscovers⟩ := pieces_spec hs
  obtain ⟨htordered, htcovers⟩ := pieces_spec ht
  constructor
  · rintro ⟨a, b, hab, hsub⟩
    obtain ⟨hains, haint⟩ := hsub (Set.left_mem_Ico.2 hab)
    obtain ⟨p, hp, hple, hplt⟩ := (hscovers a).2 hains
    obtain ⟨q, hq, hqle, hqlt⟩ := (htcovers a).2 haint
    exact ⟨p, hp, q, hq, hqle.trans_lt hplt, hple.trans_lt hqlt⟩
  · rintro ⟨p, hp, q, hq, hstart, hstart'⟩
    refine ⟨max p.1 q.1, min p.2 q.2, max_lt (lt_min (hsordered.proper p hp) hstart')
      (lt_min hstart (htordered.proper q hq)), fun x ⟨hle, hlt⟩ => ⟨?_, ?_⟩⟩
    · exact (hscovers x).1 ⟨p, hp, (le_max_left ..).trans hle, hlt.trans_le (min_le_left ..)⟩
    · exact (htcovers x).1 ⟨q, hq, (le_max_right ..).trans hle, hlt.trans_le (min_le_right ..)⟩

theorem meets_iff_shareInterval (hs : s.Regular) (ht : t.Regular) :
    Meets s.pieces t.pieces ↔ ShareInterval s t :=
  (meets_iff_of_ordered (pieces_spec hs).1 (pieces_spec ht).1).trans (shareInterval_iff hs ht).symm

/-! ### The answer -/

theorem no_blanks : ∀ c ∈ ([] : List Char), isTabOrSpace c = true := forall_mem_nil _

theorem no_gap_of_no_day : (none : Option (Fin 7)) = none → ([] : List Char) = [] := fun _ => rfl

def fullHour (tens units : Char)
    (h : ClockParts [[tens, units], ['0', '0']]) : FormTime where
  before := []
  day := none
  gap := []
  parts := [[tens, units], ['0', '0']]
  after := []
  blank_before := no_blanks
  blank_after := no_blanks
  no_gap := no_gap_of_no_day
  one_blank := fun hne => absurd rfl hne
  clock := h
  few := Nat.le_succ 2

theorem clockParts_ten_at_night : ClockParts [['2', '2'], ['0', '0']] :=
  ⟨cons_ne_nil _ _, by simp, by decide⟩

theorem clockParts_midnight : ClockParts [['0', '0'], ['0', '0']] :=
  ⟨cons_ne_nil _ _, by simp, by decide⟩

def lateEvening : DailySpec where
  hours := [(fullHour '2' '2' clockParts_ten_at_night, fullHour '0' '0' clockParts_midnight)]
  days := []
  except := false
  given := Or.inl (cons_ne_nil _ _)
  no_day := List.forall_mem_singleton.2 ⟨rfl, rfl⟩

end Regular

end Quotas

end Gargoyle
