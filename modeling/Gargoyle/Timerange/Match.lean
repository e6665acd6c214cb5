import Gargoyle.Timerange.Ranges

/-!
# What a list of ranges matches

Ranges are arcs of a circle, the day or the week, that may pass the point where
it closes. Sorted by their starts, disjoint arcs form a chain of which only the
last one may pass that point. `parse_time_ranges` cuts this one in two, but only
if it ends before the first one starts: if it ends on that very second the range
stays as it is, and its end lies before its start.
-/

namespace Gargoyle

open List

namespace Timerange

open Segments

def Contains (r : ℤ × ℤ) (s : ℤ) : Prop :=
  if r.1 ≤ r.2 then r.1 ≤ s ∧ s ≤ r.2 else r.1 ≤ s ∨ s ≤ r.2

def ContainsBelow (r : ℤ × ℤ) (s : ℤ) : Prop :=
  if r.1 ≤ r.2 then r.1 ≤ s ∧ s < r.2 else r.1 ≤ s ∨ s < r.2

instance (r : ℤ × ℤ) (s : ℤ) : Decidable (Contains r s) := by
  unfold Contains
  infer_instance

def Wraps (r : ℤ × ℤ) : Prop := r.2 < r.1

structure DisjointArcs (length : ℤ) (rs : List (ℤ × ℤ)) : Prop where
  inside : ∀ r ∈ rs, 0 ≤ r.1 ∧ r.1 < length ∧ 0 ≤ r.2 ∧ r.2 ≤ length
  nonempty : ∀ r ∈ rs, r.1 ≠ r.2
  disjoint : rs.Pairwise fun r r' => ∀ s, 0 ≤ s → s < length →
    ¬ (ContainsBelow r s ∧ ContainsBelow r' s)
  free : ∃ s, 0 ≤ s ∧ s < length ∧ ∀ r ∈ rs, ¬ ContainsBelow r s

section Arcs

variable {length : ℤ} {rs : List (ℤ × ℤ)}

theorem containsBelow_start {r : ℤ × ℤ} (hne : r.1 ≠ r.2) : ContainsBelow r r.1 := by
  unfold ContainsBelow
  split_ifs <;> omega

theorem DisjointArcs.perm {rs' : List (ℤ × ℤ)} (h : DisjointArcs length rs)
    (hperm : rs'.Perm rs) : DisjointArcs length rs' where
  inside := fun r hr => h.inside r (hperm.mem_iff.1 hr)
  nonempty := fun r hr => h.nonempty r (hperm.mem_iff.1 hr)
  disjoint := by
    refine (hperm.pairwise_iff ?_).2 h.disjoint
    intro r r' hdisjoint s hlow hhigh hboth
    exact hdisjoint s hlow hhigh ⟨hboth.2, hboth.1⟩
  free := by
    obtain ⟨s, hlow, hhigh, hfree⟩ := h.free
    exact ⟨s, hlow, hhigh, fun r hr => hfree r (hperm.mem_iff.1 hr)⟩

theorem DisjointArcs.chain (h : DisjointArcs length rs)
    (hsorted : rs.Pairwise fun r r' => r.1 ≤ r'.1) :
    rs.Pairwise fun r r' => r.1 < r.2 ∧ r.2 ≤ r'.1 ∧ (Wraps r' → r'.2 ≤ r.1) := by
  refine List.Pairwise.imp_of_mem ?_ (hsorted.and h.disjoint)
  rintro r r' hr hr' ⟨hle, hdisjoint⟩
  obtain ⟨hlow, hhigh, -, -⟩ := h.inside r hr
  obtain ⟨hlow', hhigh', -, -⟩ := h.inside r' hr'
  have hne := h.nonempty r hr
  have hfirst : ¬ ContainsBelow r r'.1 := fun hr =>
    hdisjoint r'.1 hlow' hhigh' ⟨hr, containsBelow_start (h.nonempty r' hr')⟩
  have hsecond : ¬ ContainsBelow r' r.1 := fun hr' =>
    hdisjoint r.1 hlow hhigh ⟨containsBelow_start hne, hr'⟩
  unfold ContainsBelow at hfirst hsecond
  unfold Wraps
  split_ifs at hfirst hsecond <;> omega

/-- No overlap is found among disjoint arcs. -/
theorem DisjointArcs.overlapFound_eq_false (h : DisjointArcs length rs) (hlength : length ≤ 604800)
    (word : WordSize) : overlapFound word length rs = false := by
  have hlong : ∀ r ∈ rs, toLong word (r.2 + length) = r.2 + length := by
    intro r hr
    obtain ⟨-, hhigh, hlow, hstop⟩ := h.inside r hr
    cases word <;> exact Int.bmod_eq_of_le (by simp only [WordSize.bits]; omega)
      (by simp only [WordSize.bits]; omega)
  -- the later one of two starts would lie in both arcs
  have hmeet : ∀ r ∈ rs, ∀ r' ∈ rs, r.1 ≤ r'.1 → r'.1 < unwrappedEnd word length r →
      ContainsBelow r r'.1 := by
    intro r hr r' hr' hle hlt
    unfold unwrappedEnd at hlt
    unfold ContainsBelow
    split_ifs at hlt ⊢ <;> omega
  have hsymm : ∀ (i j : ℕ) (r r' : ℤ × ℤ), rs[i]? = some r → rs[j]? = some r' → i ≠ j →
      ∀ s, 0 ≤ s → s < length → ¬ (ContainsBelow r s ∧ ContainsBelow r' s) := by
    intro i j r r' hi hj hij s hlow hhigh hboth
    obtain ⟨hi', rfl⟩ := List.getElem?_eq_some_iff.1 hi
    obtain ⟨hj', rfl⟩ := List.getElem?_eq_some_iff.1 hj
    rcases Nat.lt_or_gt_of_ne hij with hlt | hgt
    · exact List.pairwise_iff_getElem.1 h.disjoint i j hi' hj' hlt s hlow hhigh hboth
    · exact List.pairwise_iff_getElem.1 h.disjoint j i hj' hi' hgt s hlow hhigh ⟨hboth.2, hboth.1⟩
  by_contra hfound
  rw [Bool.not_eq_false, overlapFound, any_eq_true] at hfound
  obtain ⟨⟨r, i⟩, hr, hfound⟩ := hfound
  obtain ⟨⟨r', j⟩, hr', hfound⟩ := List.any_eq_true.1 hfound
  have hi := List.mem_zipIdx_iff_getElem?.1 hr
  have hj := List.mem_zipIdx_iff_getElem?.1 hr'
  have hmem := mem_of_getElem? hi
  have hmem' := mem_of_getElem? hj
  simp only [ne_eq, decide_not, Bool.and_eq_true, Bool.not_eq_eq_eq_not, Bool.not_true,
    decide_eq_false_iff_not, decide_eq_true_eq] at hfound
  obtain ⟨hij, hlt, hlt'⟩ := hfound
  rcases le_total r.1 r'.1 with hle | hle
  · obtain ⟨hlow, hhigh, -, -⟩ := h.inside r' hmem'
    exact hsymm i j r r' hi hj hij r'.1 hlow hhigh
      ⟨hmeet r hmem r' hmem' hle hlt', containsBelow_start (h.nonempty r' hmem')⟩
  · obtain ⟨hlow, hhigh, -, -⟩ := h.inside r hmem
    exact hsymm i j r r' hi hj hij r.1 hlow hhigh
      ⟨containsBelow_start (h.nonempty r hmem), hmeet r' hmem' r hmem hle hlt⟩

theorem adjustRanges_flat (js : List (ℤ × ℤ)) (a b : ℤ) :
    adjustRanges length (flat (js ++ [(a, b)])) =
      .ranges (if b < ((js ++ [(a, b)]).head (by simp)).1 then flat ((0, b) :: js ++ [(a, length)])
        else flat (js ++ [(a, b)])) := by
  cases js with
  | nil =>
    simp only [nil_append, flat_cons, flat_nil, adjustRanges, getLast_cons_cons,
      getLast_singleton, dropLast_cons_cons, dropLast_singleton, head_cons]
    by_cases hlt : b < a
    · simp [hlt]
    · simp [hlt]
  | cons j js =>
    have hlast : ∀ hne, (j.1 :: j.2 :: (flat js ++ [a, b])).getLast hne = b := by
      intro hne
      simp
    have hdrop : (j.1 :: j.2 :: (flat js ++ [a, b])).dropLast = j.1 :: j.2 :: (flat js ++ [a]) := by
      have hconcat : j.1 :: j.2 :: (flat js ++ [a, b]) =
          (j.1 :: j.2 :: (flat js ++ [a])) ++ [b] := by
        simp
      rw [hconcat, dropLast_concat]
    simp only [cons_append, flat_cons, flat_append, flat_nil, adjustRanges, hlast, hdrop,
      head_cons]
    split_ifs with h₁ h₂ h₃
    · simp
    · simp [length_flat] at h₂
      omega
    · simp [length_flat] at h₃
      omega
    · rfl

end Arcs

/-! ## Sorted arcs -/

section Sorted

variable {length a b : ℤ} {rs : List (ℤ × ℤ)} (h : DisjointArcs length (rs ++ [(a, b)]))
  (hsorted : (rs ++ [(a, b)]).Pairwise fun r r' => r.1 ≤ r'.1)

include h hsorted

theorem DisjointArcs.of_mem_init {r : ℤ × ℤ} (hr : r ∈ rs) :
    r.1 < r.2 ∧ r.2 ≤ a ∧ (b < a → b ≤ r.1) :=
  List.pairwise_append.1 (h.chain hsorted) |>.2.2 r hr (a, b) (by simp)

theorem DisjointArcs.chained : Chained (rs ++ [(a, if b < a then length else b)]) := by
  have hinside := h.inside (a, b) (by simp)
  have hne := h.nonempty (a, b) (by simp)
  refine ⟨?_, List.pairwise_append.2 ⟨?_, pairwise_singleton _ _, ?_⟩⟩
  · intro r hr
    rcases List.mem_append.1 hr with hr | hr
    · exact (h.of_mem_init hsorted hr).1
    · obtain rfl := List.mem_singleton.1 hr
      simp only
      split_ifs <;> omega
  · exact (List.pairwise_append.1 (h.chain hsorted)).1.imp fun hr => hr.2.1
  · intro r hr r' hr'
    obtain rfl := List.mem_singleton.1 hr'
    exact (h.of_mem_init hsorted hr).2.1

theorem DisjointArcs.coversBelow {s : ℤ}
    (hs : CoversBelow (rs ++ [(a, if b < a then length else b)]) s) :
    ∃ r ∈ rs ++ [(a, b)], ContainsBelow r s := by
  obtain ⟨r, hr, hlow, hhigh⟩ := hs
  rcases List.mem_append.1 hr with hr | hr
  · refine ⟨r, by simp [hr], ?_⟩
    rw [ContainsBelow, if_pos (h.of_mem_init hsorted hr).1.le]
    exact ⟨hlow, hhigh⟩
  · obtain rfl := List.mem_singleton.1 hr
    refine ⟨(a, b), by simp, ?_⟩
    simp only at hlow hhigh
    simp only [ContainsBelow]
    split_ifs at hhigh ⊢ <;> omega

theorem DisjointArcs.covers_iff {s : ℤ} (hhigh : s < length) :
    (∃ r ∈ rs ++ [(a, b)], Contains r s) ↔
      Covers (rs ++ [(a, if b < a then length else b)]) s ∨ (b < a ∧ s ≤ b) := by
  have hne := h.nonempty (a, b) (by simp)
  have hinit : (∃ r ∈ rs, Contains r s) ↔ Covers rs s := by
    refine exists_congr fun r => and_congr_right fun hr => ?_
    rw [Contains, if_pos (h.of_mem_init hsorted hr).1.le]
  have hlast : Contains (a, b) s ↔
      (a ≤ s ∧ s ≤ if b < a then length else b) ∨ (b < a ∧ s ≤ b) := by
    simp only [Contains]
    split_ifs <;> omega
  simp only [mem_append, mem_singleton, or_and_right, exists_or, exists_eq_left, Covers]
  rw [hinit, hlast]
  exact or_assoc.symm

omit h hsorted in
structure JoinedArcs (length a b : ℤ) (rs js : List (ℤ × ℤ)) (a' : ℤ) : Prop where
  join : joinTouching (rs ++ [(a, b)]) = js ++ [(a', b)]
  covers : ∀ s, Covers (js ++ [(a', if b < a then length else b)]) s ↔
    Covers (rs ++ [(a, if b < a then length else b)]) s
  coversBelow : ∀ s, CoversBelow (js ++ [(a', if b < a then length else b)]) s ↔
    CoversBelow (rs ++ [(a, if b < a then length else b)]) s
  ordered : js.Pairwise fun r r' => r.1 ≤ r'.1
  before : ∀ j ∈ js, 0 ≤ j.1 ∧ j.1 ≤ a' ∧ j.2 < a'
  start : 0 ≤ a' ∧ a' ≤ a
  first : ∃ r₀ ∈ rs ++ [(a, b)], ((js ++ [(a', b)]).head (by simp)).1 = r₀.1 ∧
    ∀ r ∈ rs ++ [(a, b)], r₀.1 ≤ r.1

/-- Arcs that touch are joined, with the last one apart. -/
theorem DisjointArcs.joined : ∃ js a', JoinedArcs length a b rs js a' := by
  have hchained := h.chained hsorted
  obtain ⟨js, a', hjoin⟩ := joinTouching_append_last rs a
  have hordered := sorted_joinTouching hchained
  have hapart := apart_joinTouching hchained
  have hstart : ∀ j ∈ js ++ [(a', if b < a then length else b)], 0 ≤ j.1 ∧ j.1 ≤ a := by
    intro j hj
    rw [← hjoin] at hj
    obtain ⟨⟨r, hr, heq⟩, -⟩ := ends_of_mem_joinTouching hj
    rw [← heq]
    rcases List.mem_append.1 hr with hr | hr
    · exact ⟨(h.inside r (by simp [hr])).1, (List.pairwise_append.1 hsorted).2.2 r hr (a, b) (by simp)⟩
    · obtain rfl := List.mem_singleton.1 hr
      exact ⟨(h.inside (a, b) (by simp)).1, le_rfl⟩
  rw [hjoin] at hordered hapart
  refine ⟨js, a', hjoin b, ?_, ?_, (List.pairwise_append.1 hordered).1, ?_,
    hstart (a', if b < a then length else b) (by simp), ?_⟩
  · intro s
    rw [← hjoin]
    exact (covers_joinTouching hchained s).1
  · intro s
    rw [← hjoin]
    exact (covers_joinTouching hchained s).2
  · intro j hj
    exact ⟨(hstart j (by simp [hj])).1, (List.pairwise_append.1 hordered).2.2 j hj _ mem_cons_self,
      (List.pairwise_append.1 hapart).2.2 j hj _ mem_cons_self⟩
  · have hhead := head_joinTouching (rs ++ [(a, b)])
    rw [hjoin b, head?_eq_some_head (by simp), head?_eq_some_head (by simp),
      Option.map_some, Option.map_some, Option.some_inj] at hhead
    refine ⟨_, head_mem (by simp), hhead, fun r hr => ?_⟩
    cases rs with
    | nil =>
      obtain rfl := List.mem_singleton.1 hr
      exact le_rfl
    | cons r' rs =>
      rcases List.mem_cons.1 hr with rfl | hr
      · exact le_rfl
      · exact rel_of_pairwise_cons hsorted hr

theorem DisjointArcs.not_always_active {js : List (ℤ × ℤ)} {a' : ℤ}
    (hj : JoinedArcs length a b rs js a') :
    ¬ ((flat (js ++ [(a', b)]))[0]? = some 0 ∧ (flat (js ++ [(a', b)]))[1]? = some length) := by
  rintro ⟨hzero, hone⟩
  have hwhole : ((0 : ℤ), length) ∈ js ++ [(a', if b < a then length else b)] := by
    cases js with
    | nil =>
      have hinside := h.inside (a, b) (by simp)
      simp only [nil_append, flat_cons, flat_nil, getElem?_cons_zero, Option.some_inj,
        getElem?_cons_succ] at hzero hone
      simp only at hinside
      rw [if_neg (by omega)]
      simp [hzero, hone]
    | cons j js =>
      simp only [cons_append, flat_cons, getElem?_cons_zero, Option.some_inj,
        getElem?_cons_succ] at hzero hone
      have hpair : j = (0, length) := Prod.ext hzero hone
      simp [hpair]
  obtain ⟨s, hlow, hhigh, hfree⟩ := h.free
  obtain ⟨r, hr, hcontains⟩ := h.coversBelow hsorted ((hj.coversBelow s).1
    ⟨(0, length), hwhole, hlow, hhigh⟩)
  exact hfree r hr hcontains

/-- Arcs that were joined are cut at the end and stay in order. -/
theorem DisjointArcs.adjusted {js : List (ℤ × ℤ)} {a' : ℤ} (hj : JoinedArcs length a b rs js a') :
    ∃ out, adjustRanges length (flat (js ++ [(a', b)])) = .ranges (flat out) ∧
      (out.Pairwise fun r r' => r.1 ≤ r'.1) ∧
      ((b < a → ∀ r ∈ rs, r.1 ≠ b) → ∀ s, 0 ≤ s → s < length →
        (Covers out s ↔ ∃ r ∈ rs ++ [(a, b)], Contains r s)) ∧
      (b < a → (∃ r ∈ rs, r.1 = b) → ¬ Covers out a) := by
  have hne := h.nonempty (a, b) (by simp)
  obtain ⟨r₀, hr₀, hfirst, hmin⟩ := hj.first
  have hlast : r₀.1 ≤ a := hmin (a, b) (by simp)
  have hordered : ∀ c : ℤ, (js ++ [(a', c)]).Pairwise fun r r' => r.1 ≤ r'.1 := by
    intro c
    refine List.pairwise_append.2 ⟨hj.ordered, pairwise_singleton _ _, fun j hj' r hr => ?_⟩
    obtain rfl := List.mem_singleton.1 hr
    exact (hj.before j hj').2.1
  rw [adjustRanges_flat, hfirst]
  by_cases hcut : b < r₀.1
  · -- the last arc wraps and is cut in two
    have hwrap : b < a := hcut.trans_le hlast
    rw [if_pos hcut]
    refine ⟨_, rfl, List.pairwise_cons.2 ⟨fun j hj' => ?_, hordered length⟩, fun _ s hlow hhigh => ?_,
      ?_⟩
    · rcases List.mem_append.1 hj' with hj' | hj'
      · exact (hj.before j hj').1
      · obtain rfl := List.mem_singleton.1 hj'
        exact hj.start.1
    · have hcovers := hj.covers s
      rw [h.covers_iff hsorted hhigh, ← hcovers, cons_append, covers_cons, if_pos hwrap]
      simp only [hwrap, true_and, hlow]
      exact or_comm
    · rintro - ⟨r, hr, rfl⟩
      have := hmin r (by simp [hr])
      omega
  · rw [if_neg hcut]
    refine ⟨_, rfl, hordered b, fun hapart s hlow hhigh => ?_, fun hwrap _ => ?_⟩
    · -- nothing to be cut
      have hstay : ¬ b < a := by
        intro hwrap
        rcases List.mem_append.1 hr₀ with hr | hr
        · have hle := (h.of_mem_init hsorted hr).2.2 hwrap
          exact hapart hwrap r₀ hr (by omega)
        · obtain rfl := List.mem_singleton.1 hr
          exact hcut hwrap
      have hcovers := hj.covers s
      rw [if_neg hstay] at hcovers
      rw [h.covers_iff hsorted hhigh, if_neg hstay, hcovers]
      simp [hstay]
    · -- the arc that wraps has stayed in one
      rintro ⟨j, hj', hlow, hhigh⟩
      rcases List.mem_append.1 hj' with hj' | hj'
      · have hbefore := (hj.before j hj').2.2
        have hstart := hj.start.2
        omega
      · obtain rfl := List.mem_singleton.1 hj'
        simp only at hhigh
        omega

end Sorted

/-! ## Arcs in any order -/

def TouchesAcross (rs : List (ℤ × ℤ)) : Prop := ∃ r ∈ rs, Wraps r ∧ ∃ r' ∈ rs, r'.1 = r.2

theorem circle_le (isWeeklyRange : Bool) : circle isWeeklyRange ≤ 604800 := by
  cases isWeeklyRange <;> decide

theorem parseTimeRanges_inv {word : WordSize} {text : List Char} {isWeeklyRange : Bool}
    {ts : List ℤ} (h : parseTimeRanges word text isWeeklyRange = .ranges ts) :
    ∃ sorted, sortRanges ((splitOnSeparators text [','] (-1) false).map (parsePiece word)).length
        ((splitOnSeparators text [','] (-1) false).map (parsePiece word)) = some sorted ∧
      adjustRanges (circle isWeeklyRange) (mergeAdjacentTimeRanges (untilEnd sorted)) =
        .ranges ts := by
  simp only [parseTimeRanges] at h
  split_ifs at h with hoverlap
  split at h
  next => exact absurd h (by simp)
  next sorted hsorted =>
      split_ifs at h with hwhole
      exact ⟨sorted, hsorted, h⟩

/-- Disjoint arcs are accepted and cover the same times. -/
theorem parseTimeRanges_of_arcs {word : WordSize} {text : List Char} {isWeeklyRange : Bool}
    {rs : List (ℤ × ℤ)}
    (hparsed : (splitOnSeparators text [','] (-1) false).map (parsePiece word) = rs)
    (h : DisjointArcs (circle isWeeklyRange) rs) (hne : rs ≠ []) :
    ∃ out, parseTimeRanges word text isWeeklyRange = .ranges (flat out) ∧
      (out.Pairwise fun r r' => r.1 ≤ r'.1) ∧
      (¬ TouchesAcross rs → ∀ s, 0 ≤ s → s < circle isWeeklyRange →
        (Covers out s ↔ ∃ r ∈ rs, Contains r s)) ∧
      (TouchesAcross rs → ∃ r ∈ rs, ¬ Covers out r.1) := by
  have hlength := circle_le isWeeklyRange
  have hshort : ShortStarts rs := by
    intro r hr
    obtain ⟨hlow, hhigh, -⟩ := h.inside r hr
    omega
  have hends : ∀ r ∈ rs, r.1 ≠ -1 ∧ r.2 ≠ -1 := by
    intro r hr
    obtain ⟨hlow, -, hlow', -⟩ := h.inside r hr
    omega
  obtain ⟨sorted, hsort, hperm, hsorted⟩ :=
    sortRanges_spec rfl (fun r hr => (hends r hr).1) h.nonempty
  have harcs := h.perm hperm
  have hmerged : mergeAdjacentTimeRanges (untilEnd sorted) = flat (joinTouching sorted) := by
    rw [untilEnd_eq fun r hr => hends r (hperm.mem_iff.1 hr)]
    exact mergeAdjacentTimeRanges_flat harcs.nonempty
  obtain ⟨init, ⟨a, b⟩, rfl⟩ : ∃ init z, sorted = init ++ [z] := by
    have hsorted_ne : sorted ≠ [] := fun hnil => hne (List.nil_perm.1 (hnil ▸ hperm))
    exact ⟨_, _, (dropLast_append_getLast hsorted_ne).symm⟩
  obtain ⟨js, a', hj⟩ := harcs.joined (hsorted hshort)
  obtain ⟨out, hout, hordered, hcovers, hmissed⟩ := harcs.adjusted (hsorted hshort) hj
  have hmem : ∀ r, r ∈ rs ↔ r ∈ init ++ [(a, b)] := fun r => hperm.mem_iff.symm
  have hne' := harcs.nonempty (a, b) (by simp)
  refine ⟨out, ?_, hordered, fun hnot s hlow hhigh => ?_, ?_⟩
  · simp only [parseTimeRanges, hparsed, h.overlapFound_eq_false hlength, hsort, hmerged, hj.join]
    rw [if_neg (by simp), if_neg (harcs.not_always_active (hsorted hshort) hj), hout]
  · simp only [hmem]
    refine hcovers (fun hwrap r hr heq => hnot ?_) s hlow hhigh
    exact ⟨(a, b), (hmem _).2 (by simp), hwrap, r, (hmem r).2 (by simp [hr]), heq⟩
  · rintro ⟨r, hr, hwrap, r', hr', heq⟩
    -- only the last arc can wrap
    obtain rfl : r = (a, b) := by
      rcases List.mem_append.1 ((hmem r).1 hr) with hr | hr
      · have := (harcs.of_mem_init (hsorted hshort) hr).1
        unfold Wraps at hwrap
        omega
      · exact List.mem_singleton.1 hr
    refine ⟨(a, b), hr, hmissed hwrap ⟨r', ?_, heq⟩⟩
    rcases List.mem_append.1 ((hmem r').1 hr') with hr' | hr'
    · exact hr'
    · obtain rfl := List.mem_singleton.1 hr'
      exact absurd heq hne'

def secondOf (isWeeklyRange : Bool) (stampTime : ℤ) : ℤ :=
  if isWeeklyRange then (stampTime + 4 * 86400) % 604800 else stampTime % 86400

theorem secondOf_bounds (isWeeklyRange : Bool) (t : ℤ) :
    0 ≤ secondOf isWeeklyRange t ∧ secondOf isWeeklyRange t < circle isWeeklyRange := by
  cases isWeeklyRange
  · have hcircle : circle false = 86400 := by decide
    rw [hcircle, secondOf, if_neg (by decide)]
    omega
  · have hcircle : circle true = 604800 := by decide
    rw [hcircle, secondOf, if_pos rfl]
    omega

theorem exists_secondOf (isWeeklyRange : Bool) {s : ℤ} (hlow : 0 ≤ s)
    (hhigh : s < circle isWeeklyRange) : ∃ t, 0 ≤ t ∧ secondOf isWeeklyRange t = s := by
  cases isWeeklyRange
  · have hcircle : circle false = 86400 := by decide
    refine ⟨s, hlow, ?_⟩
    rw [hcircle] at hhigh
    rw [secondOf, if_neg (by decide)]
    omega
  · have hcircle : circle true = 604800 := by decide
    refine ⟨s + 3 * 86400, by omega, ?_⟩
    rw [hcircle] at hhigh
    rw [secondOf, if_pos rfl]
    omega

def rangeRule (isWeeklyRange : Bool) (ts : List ℤ) : NftTimerangeInfo :=
  ⟨ts, List.replicate 7 false, if isWeeklyRange then .weeklyRange else .hours, false⟩

theorem timerangeMt_rangeRule (isWeeklyRange : Bool) (ts : List ℤ) {t : ℤ} (ht : 0 ≤ t) :
    timerangeMt (rangeRule isWeeklyRange ts) t = inRanges (secondOf isWeeklyRange t) ts := by
  have hmod : t.tmod 86400 = t % 86400 := Int.tmod_eq_emod_of_nonneg ht
  have hdiv : t.tdiv 86400 = t / 86400 := Int.tdiv_eq_ediv_of_nonneg ht
  cases isWeeklyRange
  · simp [timerangeMt, rangeRule, secondOf, hmod]
  · have hweekday : (4 + t / 86400).tmod 7 = (4 + t / 86400) % 7 :=
      Int.tmod_eq_emod_of_nonneg (by omega)
    have hsecond : t % 86400 + (4 + t / 86400) % 7 * 86400 = (t + 4 * 86400) % 604800 := by omega
    simp [timerangeMt, rangeRule, secondOf, hmod, hdiv, hweekday, hsecond]

end Timerange

end Gargoyle
