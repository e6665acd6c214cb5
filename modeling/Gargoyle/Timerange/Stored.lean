import Gargoyle.Timerange.Overlap

/-!
# How many ranges are stored

A rule has room for 50 starts and ends. Ranges that touch are joined before they are copied into the
rule, and one that passes the end of the circle is cut in two unless another one starts before it ends,
so that the room that a list needs is known from its ranges.
-/

namespace Gargoyle

open List

namespace Timerange

open Segments

def Continued (rs : List (ℤ × ℤ)) (r : ℤ × ℤ) : Prop := ∃ r' ∈ rs, r'.1 < r'.2 ∧ r'.2 = r.1

def CutInTwo (rs : List (ℤ × ℤ)) : Prop := ∃ r ∈ rs, ∀ r' ∈ rs, r.2 < r'.1

instance (rs : List (ℤ × ℤ)) (r : ℤ × ℤ) : Decidable (Continued rs r) :=
  inferInstanceAs (Decidable (∃ r' ∈ rs, _))

instance (rs : List (ℤ × ℤ)) : Decidable (CutInTwo rs) :=
  inferInstanceAs (Decidable (∃ r ∈ rs, _))

def storedPieces (rs : List (ℤ × ℤ)) : ℕ :=
  rs.countP (fun r => ¬Continued rs r) + if CutInTwo rs then 1 else 0

/-- `nft_timerange_init` copies ranges into a rule that has nothing else. -/
def storeRanges (isWeeklyRange : Bool) (ts : List ℤ) : Except InitError NftTimerangeInfo :=
  copyRanges ⟨[], List.replicate 7 false, .unset, false⟩
    (if isWeeklyRange then .weeklyRange else .hours) (.ranges ts)

theorem storeRanges_eq (isWeeklyRange : Bool) (ts : List ℤ) :
    storeRanges isWeeklyRange ts =
      if rangeLength ≤ ts.length then .error .outOfBounds else .ok (rangeRule isWeeklyRange ts) := rfl

theorem storeRanges_ok_iff {isWeeklyRange : Bool} {ts : List ℤ} {priv : NftTimerangeInfo} :
    storeRanges isWeeklyRange ts = .ok priv ↔
      ts.length < rangeLength ∧ priv = rangeRule isWeeklyRange ts := by
  rw [storeRanges_eq]
  split_ifs with hlong
  · simp [hlong]
  · simp [Nat.not_le.1 hlong, eq_comm]

/-! ## Ranges in order -/

section InOrder

variable {rs : List (ℤ × ℤ)}

def InOrder (rs : List (ℤ × ℤ)) : Prop := rs.Pairwise fun r r' => r.1 < r.2 ∧ r.2 ≤ r'.1

def touching : List (ℤ × ℤ) → ℕ
  | r :: r' :: rs => (if r.2 = r'.1 then 1 else 0) + touching (r' :: rs)
  | _ => 0

theorem touching_congr (a b : ℤ) (r : ℤ × ℤ) (rs : List (ℤ × ℤ)) :
    touching ((a, r.2) :: rs) = touching ((b, r.2) :: rs) := by
  cases rs <;> rfl

theorem length_joinTouching (rs : List (ℤ × ℤ)) :
    (joinTouching rs).length + touching rs = rs.length := by
  induction rs using joinTouching.induct with
  | case1 => simp [joinTouching, touching]
  | case2 r => simp [joinTouching, touching]
  | case3 r r' rs hmeet ih =>
    have hsame : touching ((r.1, r'.2) :: rs) = touching (r' :: rs) := touching_congr r.1 r'.1 r' rs
    rw [hsame, length_cons] at ih
    rw [joinTouching, if_pos hmeet, touching, if_pos hmeet, length_cons, length_cons]
    omega
  | case4 r r' rs hmeet ih =>
    rw [joinTouching, if_neg hmeet, touching, if_neg hmeet, length_cons, length_cons]
    omega

theorem InOrder.not_continued_head {r : ℤ × ℤ} (h : InOrder (r :: rs)) : ¬Continued (r :: rs) r := by
  rintro ⟨r', hr', hproper, hend⟩
  rcases List.mem_cons.1 hr' with rfl | hr'
  · omega
  · have hbefore := List.rel_of_pairwise_cons h hr'
    omega

theorem InOrder.continued_cons_iff {r x : ℤ × ℤ} (h : InOrder (r :: rs)) (hx : x ∈ rs) :
    Continued (r :: rs) x ↔ r.2 = x.1 ∨ Continued rs x := by
  have hr := (List.rel_of_pairwise_cons h hx).1
  constructor
  · rintro ⟨r', hr', hproper, hend⟩
    rcases List.mem_cons.1 hr' with rfl | hr'
    · exact .inl hend
    · exact .inr ⟨r', hr', hproper, hend⟩
  · rintro (hend | ⟨r', hr', hrest⟩)
    · exact ⟨r, mem_cons_self, hr, hend⟩
    · exact ⟨r', mem_cons_of_mem r hr', hrest⟩

theorem InOrder.touching_eq (h : InOrder rs) : touching rs = rs.countP (Continued rs ·) := by
  induction rs with
  | nil => rfl
  | cons r rs ih =>
    have hrest := ih (List.Pairwise.of_cons h)
    rw [countP_cons_of_neg (by simpa using h.not_continued_head)]
    cases rs with
    | nil => rfl
    | cons r' rs =>
      have hhead := InOrder.not_continued_head (List.Pairwise.of_cons h)
      -- the first range ends before the third one starts
      have hlater : rs.countP (Continued (r :: r' :: rs) ·) = rs.countP (Continued (r' :: rs) ·) := by
        refine countP_congr fun x hx => ?_
        have hfirst := List.rel_of_pairwise_cons h mem_cons_self
        have hsecond := List.rel_of_pairwise_cons (List.Pairwise.of_cons h) hx
        rw [decide_eq_true_iff, decide_eq_true_iff,
          h.continued_cons_iff (mem_cons_of_mem r' hx), or_iff_right (by omega)]
      rw [touching, hrest, countP_cons_of_neg (by simpa using hhead), countP_cons, hlater]
      simp only [h.continued_cons_iff mem_cons_self, or_iff_left hhead, decide_eq_true_iff]
      exact Nat.add_comm _ _

theorem InOrder.length_joinTouching (h : InOrder rs) :
    (joinTouching rs).length = rs.countP fun r => ¬Continued rs r := by
  have hjoined := Timerange.length_joinTouching rs
  have hcount := length_eq_countP_add_countP (Continued rs ·) (l := rs)
  rw [h.touching_eq] at hjoined
  simp only [decide_not, decide_eq_true_iff] at hcount ⊢
  omega

theorem inOrder_of_apart {length : ℤ} (hin : ∀ r ∈ rs, (0 ≤ r.1 ∧ r.1 < length) ∧
    0 ≤ r.2 ∧ r.2 ≤ length) (hproper : ∀ r ∈ rs, r.1 ≠ r.2) (hapart : rs.Pairwise (Apart length))
    (hsorted : rs.Pairwise fun r r' => r.1 ≤ r'.1) : InOrder rs := by
  refine List.Pairwise.imp_of_mem ?_ (hsorted.and hapart)
  rintro r r' hr hr' ⟨hle, hapart⟩
  have hr₁ := hin r hr
  have hr₂ := hin r' hr'
  have hne := hproper r hr
  have hne' := hproper r' hr'
  unfold Apart laidOutEnd at hapart
  split_ifs at hapart <;> omega

end InOrder

/-! ## The array that is returned -/

theorem storedPieces_perm {rs rs' : List (ℤ × ℤ)} (h : rs.Perm rs') :
    storedPieces rs = storedPieces rs' := by
  have hcontinued : ∀ r, Continued rs r ↔ Continued rs' r := fun r => by
    simp only [Continued, h.mem_iff]
  have hcut : CutInTwo rs ↔ CutInTwo rs' := by simp only [CutInTwo, h.mem_iff]
  simp only [storedPieces, hcontinued, hcut, h.countP_eq]

theorem InOrder.cutInTwo_iff {init : List (ℤ × ℤ)} {a b : ℤ} (h : InOrder (init ++ [(a, b)])) :
    CutInTwo (init ++ [(a, b)]) ↔ b < ((init ++ [(a, b)]).head (by simp)).1 := by
  obtain ⟨-, -, hbefore⟩ := List.pairwise_append.1 h
  constructor
  · rintro ⟨r, hr, hstarts⟩
    rcases List.mem_append.1 hr with hr | hr
    · have hproper := (hbefore r hr (a, b) mem_cons_self).1
      have hstart := hstarts r (by simp [hr])
      omega
    · obtain rfl := List.mem_singleton.1 hr
      exact hstarts _ (head_mem _)
  · intro hlt
    refine ⟨(a, b), by simp, fun r hr => hlt.trans_le ?_⟩
    cases init with
    | nil =>
      obtain rfl := List.mem_singleton.1 hr
      exact le_rfl
    | cons r' init =>
      rcases List.mem_cons.1 hr with rfl | hr
      · exact le_rfl
      · have hfirst := List.rel_of_pairwise_cons h hr
        exact (hfirst.1.trans_le hfirst.2).le

theorem InOrder.length_adjustRanges {length : ℤ} {rs : List (ℤ × ℤ)} {ts : List ℤ} (h : InOrder rs)
    (hne : rs ≠ []) (hts : adjustRanges length (flat (joinTouching rs)) = .ranges ts) :
    ts.length = 2 * storedPieces rs := by
  obtain ⟨init, ⟨a, b⟩, rfl⟩ : ∃ init z, rs = init ++ [z] :=
    ⟨_, _, (dropLast_append_getLast hne).symm⟩
  obtain ⟨js, a', hjoin⟩ := joinTouching_append_last init a
  have hlength := h.length_joinTouching
  have hhead := head_joinTouching (init ++ [(a, b)])
  rw [hjoin, head?_eq_some_head (by simp), head?_eq_some_head (by simp), Option.map_some,
    Option.map_some, Option.some_inj] at hhead
  rw [hjoin, adjustRanges_flat] at hts
  rw [← ParsedRanges.ranges.inj hts, storedPieces, ← hlength, hjoin, hhead]
  simp only [h.cutInTwo_iff]
  split_ifs
  · rw [length_flat, length_append, length_append, length_cons, length_singleton, length_singleton]
  · rw [length_flat, Nat.add_zero]

theorem length_of_parseTimeRanges {word : WordSize} {isWeeklyRange : Bool} {text : List Char}
    {rs : List (ℤ × ℤ)} {ts : List ℤ}
    (hparsed : (splitOnSeparators text [','] (-1) false).map (parsePiece word) = rs)
    (hin : ∀ r ∈ rs, (0 ≤ r.1 ∧ r.1 < circle isWeeklyRange) ∧ 0 ≤ r.2 ∧ r.2 ≤ circle isWeeklyRange)
    (hproper : ∀ r ∈ rs, r.1 ≠ r.2) (hapart : rs.Pairwise (Apart (circle isWeeklyRange)))
    (h : parseTimeRanges word text isWeeklyRange = .ranges ts) :
    ts.length = 2 * storedPieces rs := by
  have hends := ends_ne_of_inside hin
  have hlength := circle_le isWeeklyRange
  have hshort : ShortStarts rs := fun r hr => by
    have := hin r hr
    omega
  obtain ⟨sorted, hsort, hperm, hordered⟩ := sortRanges_spec rfl (fun r hr => (hends r hr).1) hproper
  obtain ⟨sorted', hsort', hts⟩ := parseTimeRanges_inv h
  rw [hparsed, hsort, Option.some_inj] at hsort'
  subst hsort'
  have hsymm : ∀ {r r' : ℤ × ℤ}, Apart (circle isWeeklyRange) r r' →
      Apart (circle isWeeklyRange) r' r := Or.symm
  have horder := inOrder_of_apart (fun r hr => hin r (hperm.mem_iff.1 hr))
    (fun r hr => hproper r (hperm.mem_iff.1 hr)) ((hperm.pairwise_iff hsymm).2 hapart)
    (hordered hshort)
  rw [untilEnd_eq fun r hr => hends r (hperm.mem_iff.1 hr),
    mergeAdjacentTimeRanges_flat fun r hr => hproper r (hperm.mem_iff.1 hr)] at hts
  rw [← storedPieces_perm hperm]
  refine horder.length_adjustRanges ?_ hts
  rintro rfl
  simp [joinTouching, adjustRanges] at hts

/-! ## Rules that match -/

/-- Disjoint ranges of the day or of the week, in any order, are accepted, copied into a rule, and
match what they say exactly if there is one, no range that crosses the end of the circle ends where
another one starts, and at most 25 pieces are stored. -/
theorem stored_ranges_match_iff (word : WordSize) (isWeeklyRange : Bool)
    (texts : List (TimeText × TimeText)) (h : DisjointArcs (circle isWeeklyRange) (meant texts)) :
    (∃ ts priv, parseTimeRanges word (rangesText texts) isWeeklyRange = .ranges ts ∧
      storeRanges isWeeklyRange ts = .ok priv ∧
      ∀ t, 0 ≤ t → (timerangeMt priv t = true ↔
        ∃ r ∈ meant texts, Contains r (secondOf isWeeklyRange t))) ↔
      texts ≠ [] ∧ ¬TouchesAcross (meant texts) ∧ storedPieces (meant texts) ≤ 25 := by
  have hinside : ∀ r ∈ meant texts, (0 ≤ r.1 ∧ r.1 < circle isWeeklyRange) ∧
      0 ≤ r.2 ∧ r.2 ≤ circle isWeeklyRange := fun r hr =>
    ⟨⟨(h.inside r hr).1, (h.inside r hr).2.1⟩, (h.inside r hr).2.2⟩
  have hapart := (overlapFound_eq_false_iff word (circle_le isWeeklyRange) hinside).1
    (h.overlapFound_eq_false (circle_le isWeeklyRange) word)
  have hlength : ∀ ts, parseTimeRanges word (rangesText texts) isWeeklyRange = .ranges ts →
      (ts.length < rangeLength ↔ storedPieces (meant texts) ≤ 25) := by
    intro ts hts
    rw [length_of_parseTimeRanges (parsed_rangesText h word) hinside h.nonempty hapart hts,
      rangeLength]
    omega
  rw [← and_assoc, ← matches_ranges_iff word isWeeklyRange texts h]
  constructor
  · rintro ⟨ts, priv, hts, hstored, hmatch⟩
    obtain ⟨hshort, rfl⟩ := storeRanges_ok_iff.1 hstored
    exact ⟨⟨ts, hts, hmatch⟩, (hlength ts hts).1 hshort⟩
  · rintro ⟨⟨ts, hts, hmatch⟩, hpieces⟩
    exact ⟨ts, _, hts, storeRanges_ok_iff.2 ⟨(hlength ts hts).2 hpieces, rfl⟩, hmatch⟩

/-- The ranges of a day that are written as `08:00-12:00,22:00-02:00`. -/
theorem office_and_night_matched :
    ∃ ts priv, parseTimeRanges .bits64 "08:00-12:00,22:00-02:00".toList false = .ranges ts ∧
      storeRanges false ts = .ok priv ∧
      ∀ t, 0 ≤ t → (timerangeMt priv t = true ↔
        ∃ r ∈ meant officeAndNight, Contains r (secondOf false t)) := by
  have htext : rangesText officeAndNight = "08:00-12:00,22:00-02:00".toList := by decide
  rw [← htext]
  refine (stored_ranges_match_iff .bits64 false officeAndNight disjointArcs_officeAndNight).2
    ⟨by decide, ?_⟩
  have hmeant : meant officeAndNight = [(28800, 43200), (79200, 7200)] := by decide
  rw [hmeant]
  exact ⟨by simp [TouchesAcross, Wraps], by decide⟩

def nightAndMorning : List (TimeText × TimeText) :=
  [(hourOf 0 2, hourOf 0 5), (hourOf 2 2, hourOf 0 2)]

/-- The ranges of a day that are written as `02:00-05:00,22:00-02:00` are
accepted, but do not match at eleven in the evening. -/
theorem night_before_morning_missed :
    DisjointArcs (circle false) (meant nightAndMorning) ∧
      parseTimeRanges .bits64 "02:00-05:00,22:00-02:00".toList false =
        .ranges [7200, 18000, 79200, 7200] ∧
      rangesText nightAndMorning = "02:00-05:00,22:00-02:00".toList ∧
      timerangeMt (rangeRule false [7200, 18000, 79200, 7200]) 82800 = false ∧
      ∃ r ∈ meant nightAndMorning, Contains r (secondOf false 82800) := by
  have hmeant : meant nightAndMorning = [(7200, 18000), (79200, 7200)] := by decide
  have hcircle : circle false = 86400 := by decide
  refine ⟨?_, by decide +kernel, by decide, by decide, ?_⟩
  · rw [hmeant, hcircle]
    refine ⟨by decide, by decide, ?_, 50000, by decide, by decide, ?_⟩
    · refine List.pairwise_pair.2 fun s hlow hhigh hboth => ?_
      norm_num [ContainsBelow] at hboth
      omega
    · norm_num [ContainsBelow]
  · rw [hmeant]
    exact ⟨(79200, 7200), by simp, by decide⟩

end Timerange

end Gargoyle
