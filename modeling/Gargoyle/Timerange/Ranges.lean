import Gargoyle.Data.Segments
import Gargoyle.Timerange.Text
import Mathlib.Data.List.Perm.Basic

/-!
# Time ranges

The module `nft_timerange` matches packets by the time of day or of the week.
The ranges of a rule are read from a text such as `"08:00-12:00,22:00-02:00"`,
sorted, joined where they touch and stored as a list of starts and ends; a range
that crosses midnight, or the end of Saturday, is stored in two parts.

A `long` has the word size of the kernel. Its array of ranges ends with `-1`, so
that the arrays are lists here; reads and writes outside an array are a result
of their own.
-/

namespace Gargoyle

open List

namespace Timerange

/-- The sizes a `long` can have. -/
inductive WordSize
  | bits32
  | bits64
deriving DecidableEq

def WordSize.bits : WordSize → ℕ
  | .bits32 => 32
  | .bits64 => 64

/-- The value that is left of a number in an `unsigned long`. -/
def toUnsignedLong (word : WordSize) (n : ℕ) : ℕ := n % 2 ^ word.bits

/-- The value that is left of a number in a `long`. -/
def toLong (word : WordSize) (x : ℤ) : ℤ := x.bmod (2 ^ word.bits)

/-! ## Texts -/

def weekdayNames : List (List Char) :=
  [['s', 'u', 'n'], ['m', 'o', 'n'], ['t', 'u', 'e'], ['w', 'e', 'd'], ['t', 'h', 'u'],
    ['f', 'r', 'i'], ['s', 'a', 't']]

def weekdayNumber (day : List Char) : Option ℕ := weekdayNames.idxOf? day

/-- The loop of `parse_time` over the parts of a time. A part that is no number
is taken for the one before it. -/
def addTimeParts (word : WordSize) : List (List Char) → ℕ → ℕ → ℕ → ℕ
  | [], seconds, _, _ => seconds
  | part :: parts, seconds, tmp, multiple =>
    let tmp := ((scanLu part).map (toUnsignedLong word)).getD tmp
    addTimeParts word parts (toUnsignedLong word (seconds + tmp * multiple)) tmp (multiple / 60)

def parseTime (word : WordSize) (timeStr : List Char) : ℕ :=
  let timeStr := timeStr.dropWhile (· ∈ [' ', '\t'])
  let weekday := if timeStr.length > 3 then weekdayNumber (toLowercase (timeStr.take 3)) else none
  match weekday with
  | some day =>
    addTimeParts word
      (splitOnSeparators ((timeStr.drop 3).dropWhile (! ·.isDigit)) [':'] (-1) false)
      (day * 60 * 60 * 24) 0 (60 * 60)
  | none => addTimeParts word (splitOnSeparators timeStr [':'] (-1) false) 0 0 (60 * 60)

/-- A day of the list that `parse_weekdays` takes apart. -/
def markWeekday (weekdays : List Bool) (day : List Char) : Option (List Bool) :=
  match weekdayNumber day with
  | some i => some (weekdays.set i true)
  | none => if day = ['a', 'l', 'l'] then some (List.replicate 7 true) else none

/-- The loop of `parse_weekdays`; the second component is `found`. -/
def markWeekdays : List (List Char) → List Bool × Bool → List Bool × Bool
  | [], acc => acc
  | day :: days, (weekdays, found) =>
    match markWeekday weekdays (toLowercase ((trimFlankingWhitespace day).take 3)) with
    | some weekdays' => markWeekdays days (weekdays', true)
    | none => markWeekdays days (weekdays, found)

def parseWeekdays (wdStr : List Char) : Option (List Bool) :=
  let (weekdays, found) :=
    markWeekdays (splitOnSeparators wdStr [','] (-1) false) (List.replicate 7 false, false)
  if found then some weekdays else none

/-! ## Ranges -/

def circle (isWeeklyRange : Bool) : ℤ := (if isWeeklyRange then 7 else 1) * 24 * 60 * 60

def parsePiece (word : WordSize) (piece : List Char) : ℤ × ℤ :=
  match splitOnSeparators (trimFlankingWhitespace piece) ['-'] 2 false with
  | [first, last] =>
    (toLong word (parseTime word (trimFlankingWhitespace first)),
      toLong word (parseTime word (trimFlankingWhitespace last)))
  | _ => (0, 0)

def unwrappedEnd (word : WordSize) (length : ℤ) (r : ℤ × ℤ) : ℤ :=
  if r.2 < r.1 then toLong word (r.2 + length) else r.2

def overlapFound (word : WordSize) (length : ℤ) (rs : List (ℤ × ℤ)) : Bool :=
  rs.zipIdx.any fun r => rs.zipIdx.any fun r' =>
    r.2 ≠ r'.2 && (r.1.1 < unwrappedEnd word length r'.1 && r'.1.1 < unwrappedEnd word length r.1)

/-- The search for the next start, which is kept in an `int`. -/
def nextStartIndex : List (ℤ × ℤ) → ℕ → ℤ → ℕ → ℕ
  | [], _, _, nextIndex => nextIndex
  | r :: rs, i, nextStart, nextIndex =>
    if r.1 = -1 then nextIndex
    else if nextStart < 0 ∨ nextStart > r.1 then
      nextStartIndex rs (i + 1) (r.1.bmod (2 ^ 32)) i
    else nextStartIndex rs (i + 1) nextStart nextIndex

def sortRanges : ℕ → List (ℤ × ℤ) → Option (List (ℤ × ℤ))
  | 0, rs => some rs
  | _ + 1, [] => some []
  | n + 1, r :: rs =>
    if r.1 = -1 then some (r :: rs)
    else
      let i := nextStartIndex (r :: rs) 0 (-1) 0
      let tmp := (r :: rs).getD i r
      if tmp.1 = tmp.2 then none
      else (sortRanges n ((r :: rs).set i r).tail).map (tmp :: ·)

/-- The array up to its `-1`. -/
def untilEnd (rs : List (ℤ × ℤ)) : List ℤ :=
  (rs.flatMap fun r => [r.1, r.2]).takeWhile (· ≠ -1)

/-- The loop of `merge_adjacent_time_ranges`: the entries that equal one of their
neighbours are left out, but for the first and the last. -/
def mergeAfter : Option ℤ → List ℤ → List ℤ
  | _, [] => []
  | _, [x] => [x]
  | none, x :: y :: ts => x :: mergeAfter (some x) (y :: ts)
  | some prev, x :: y :: ts =>
    if x ≠ prev ∧ x ≠ y then x :: mergeAfter (some x) (y :: ts)
    else mergeAfter (some x) (y :: ts)

def mergeAdjacentTimeRanges (ts : List ℤ) : List ℤ := mergeAfter none ts

/-- What `parse_time_ranges` returns. -/
inductive ParsedRanges
  | outOfBounds
  | null
  | ranges (ts : List ℤ)
deriving DecidableEq

/-- The last part of `parse_time_ranges`, which splits the range that crosses
the end of the circle. -/
def adjustRanges (length : ℤ) (ts : List ℤ) : ParsedRanges :=
  match ts with
  | [] => .outOfBounds
  | first :: rest =>
    let last := (first :: rest).getLast (cons_ne_nil first rest)
    let adjusted := if last < first then 0 :: last :: (first :: rest).dropLast else first :: rest
    .ranges (if adjusted.length % 2 = 1 then adjusted ++ [length] else adjusted)

def parseTimeRanges (word : WordSize) (timeRanges : List Char) (isWeeklyRange : Bool) :
    ParsedRanges :=
  let length := circle isWeeklyRange
  let parsed := (splitOnSeparators timeRanges [','] (-1) false).map (parsePiece word)
  if overlapFound word length parsed then .null
  else
    match sortRanges parsed.length parsed with
    | none => .null
    | some sorted =>
      let merged := mergeAdjacentTimeRanges (untilEnd sorted)
      if merged[0]? = some 0 ∧ merged[1]? = some length then .null
      else adjustRanges length merged

/-! ## Rules -/

inductive TimerangeType
  | unset
  | hours
  | weekdays
  | daysHours
  | weeklyRange
deriving DecidableEq

structure NftTimerangeInfo where
  ranges : List ℤ
  days : List Bool
  type : TimerangeType
  invert : Bool
deriving DecidableEq

/-- The loop of `timerange_mt` over the ranges. -/
def inRanges (seconds : ℤ) : List ℤ → Bool
  | start :: stop :: ts => seconds ≥ start && (seconds ≤ stop || inRanges seconds ts)
  | _ => false

/-- `timerange_mt`, at a local time. -/
def timerangeMt (priv : NftTimerangeInfo) (stampTime : ℤ) : Bool :=
  let secondsSinceMidnight := stampTime.tmod 86400
  let weekday := (4 + stampTime.tdiv 86400).tmod 7
  let matchFound :=
    match priv.type with
    | .unset => false
    | .hours => inRanges secondsSinceMidnight priv.ranges
    | .weekdays => priv.days.getD weekday.toNat false
    | .daysHours =>
      priv.days.getD weekday.toNat false && inRanges secondsSinceMidnight priv.ranges
    | .weeklyRange => inRanges (secondsSinceMidnight + weekday * 86400) priv.ranges
  matchFound ^^ priv.invert

structure TimerangeAttrs where
  flags : Option ℕ
  hours : Option (List Char)
  weekdays : Option (List Char)
  weeklyranges : Option (List Char)

def timerangeTextSize : ℕ := 1024

def rangeLength : ℕ := 51

def copyText (text : Option (List Char)) : List Char :=
  (text.getD []).take (timerangeTextSize - 1)

/-- How `nft_timerange_init` can fail. -/
inductive InitError
  | outOfBounds
  | einval
  | eopnotsupp
deriving DecidableEq

def copyRanges (priv : NftTimerangeInfo) (type : TimerangeType) :
    ParsedRanges → Except InitError NftTimerangeInfo
  | .outOfBounds => .error .outOfBounds
  | .null => .ok priv
  | .ranges ts =>
    if rangeLength ≤ ts.length then .error .outOfBounds
    else .ok { priv with ranges := ts, type := type }

/-- The part of `nft_timerange_init` for hours. -/
def initHours (word : WordSize) (hours : List Char) (priv : NftTimerangeInfo) :
    Except InitError NftTimerangeInfo :=
  if hours.length > 0 then copyRanges priv .hours (parseTimeRanges word hours false)
  else .ok priv

def initWeekdays (weekdays : List Char) (priv : NftTimerangeInfo) : NftTimerangeInfo :=
  if weekdays.length > 0 then
    match parseWeekdays weekdays with
    | none => priv
    | some days =>
      { priv with
        days := days
        type := if priv.type = .hours then .daysHours else .weekdays }
  else priv

def initWeeklyRanges (word : WordSize) (weeklyranges : List Char) (priv : NftTimerangeInfo) :
    Except InitError NftTimerangeInfo :=
  if weeklyranges.length > 0 then
    let parsed := parseTimeRanges word weeklyranges true
    if priv.type = .unset ∨ parsed = .outOfBounds then copyRanges priv .weeklyRange parsed
    else .ok priv
  else .ok priv

/-- `nft_timerange_init`, on a rule whose memory has been cleared. -/
def nftTimerangeInit (word : WordSize) (tb : TimerangeAttrs) : Except InitError NftTimerangeInfo :=
  if tb.hours = none ∧ tb.weekdays = none ∧ tb.weeklyranges = none then .error .einval
  else if tb.flags.getD 0 / 2 ≠ 0 then .error .eopnotsupp
  else do
    let priv ← initHours word (copyText tb.hours)
      ⟨[], List.replicate 7 false, .unset, tb.flags.getD 0 % 2 = 1⟩
    let priv ← initWeeklyRanges word (copyText tb.weeklyranges)
      (initWeekdays (copyText tb.weekdays) priv)
    if priv.type = .unset then .error .einval else .ok priv

/-- A number as `"%ld"` prints it. -/
def printLong (x : ℤ) : List Char :=
  if x < 0 then '-' :: Nat.toDigits 10 x.natAbs else Nat.toDigits 10 x.natAbs

/-- The ranges as `nft_timerange_dump` prints them, from an even index or an odd
one. -/
def printRanges : Bool → List ℤ → List Char
  | _, [] => []
  | _, [t] => printLong t
  | even, t :: t' :: ts =>
    printLong t ++ (if even then '-' else ',') :: printRanges (!even) (t' :: ts)

/-- The days as `nft_timerange_dump` prints them. -/
def printDays (days : List Bool) : List Char :=
  [','].intercalate ((days.take 7).map fun day => [if day then '1' else '0'])

def nftTimerangeDump (priv : NftTimerangeInfo) : TimerangeAttrs :=
  let ranges := (printRanges true priv.ranges).take (timerangeTextSize - 1)
  let days := printDays priv.days
  { flags := some (if priv.invert then 1 else 0)
    hours := some (if priv.type = .hours ∨ priv.type = .daysHours then ranges else [])
    weekdays := some (if priv.type = .weekdays ∨ priv.type = .daysHours then days else [])
    weeklyranges := some (if priv.type = .weeklyRange then ranges else []) }

/-!
## Sorting and joining

The list of ranges goes through a selection sort and is then joined where two
neighbours touch. The sort keeps the ranges and puts them in the order of their
starts, and joining on the flat list is joining of segments.
-/

open Segments

/-! ### The sort -/

theorem nextStartIndex_bounds (rs : List (ℤ × ℤ)) (i : ℕ) (nextStart : ℤ) (nextIndex : ℕ) :
    nextStartIndex rs i nextStart nextIndex = nextIndex ∨
      (i ≤ nextStartIndex rs i nextStart nextIndex ∧
        nextStartIndex rs i nextStart nextIndex < i + rs.length) := by
  induction rs generalizing i nextStart nextIndex with
  | nil => exact .inl rfl
  | cons r rs ih =>
    rw [nextStartIndex]
    split_ifs with hend hless
    · exact .inl rfl
    · right
      rcases ih (i + 1) (r.1.bmod (2 ^ 32)) i with heq | hbounds
      · rw [heq, length_cons]
        omega
      · rw [length_cons]
        omega
    · rcases ih (i + 1) nextStart nextIndex with heq | hbounds
      · exact .inl heq
      · rw [length_cons]
        omega

theorem nextStartIndex_lt (r : ℤ × ℤ) (rs : List (ℤ × ℤ)) :
    nextStartIndex (r :: rs) 0 (-1) 0 < (r :: rs).length := by
  rcases nextStartIndex_bounds (r :: rs) 0 (-1) 0 with heq | hbounds
  · rw [heq]
    simp
  · omega

theorem swap_perm {r : ℤ × ℤ} {rs : List (ℤ × ℤ)} {i : ℕ} (hi : i < (r :: rs).length) :
    ((r :: rs).getD i r :: ((r :: rs).set i r).tail).Perm (r :: rs) := by
  cases i with
  | zero => simp
  | succ i =>
    have hi' : i < rs.length := by simpa using hi
    have hget : (r :: rs).getD (i + 1) r = rs[i] := by simp [hi']
    have htail : ((r :: rs).set (i + 1) r).tail = rs.set i r := by simp
    rw [hget, htail]
    have hset := (set_perm_cons_eraseIdx hi' r).cons rs[i]
    have hget' := (getElem_cons_eraseIdx_perm hi').cons r
    exact (hset.trans (List.Perm.swap _ _ _)).trans hget'

/-- The starts that an `int` holds. -/
def ShortStarts (rs : List (ℤ × ℤ)) : Prop := ∀ r ∈ rs, 0 ≤ r.1 ∧ r.1 < 2 ^ 31

theorem nextStartIndex_spec {rs : List (ℤ × ℤ)} (hshort : ShortStarts rs) (i : ℕ) {nextStart : ℤ}
    (hnext : 0 ≤ nextStart) (nextIndex : ℕ) :
    (nextStartIndex rs i nextStart nextIndex = nextIndex ∧ ∀ r ∈ rs, nextStart ≤ r.1) ∨
      ∃ k r, nextStartIndex rs i nextStart nextIndex = i + k ∧ rs[k]? = some r ∧
        r.1 < nextStart ∧ ∀ r' ∈ rs, r.1 ≤ r'.1 := by
  induction rs generalizing i nextStart nextIndex with
  | nil => exact .inl ⟨rfl, by simp⟩
  | cons r rs ih =>
    obtain ⟨hlow, hhigh⟩ := hshort r (by simp)
    have hrest : ShortStarts rs := fun r' hr' => hshort r' (mem_cons_of_mem r hr')
    rw [nextStartIndex, if_neg (by omega)]
    split_ifs with hless
    · have hlt : r.1 < nextStart := by omega
      have hint : r.1.bmod (2 ^ 32) = r.1 := Int.bmod_eq_of_le (by omega) (by omega)
      rw [hint]
      right
      rcases ih hrest (i + 1) hlow i with ⟨hfound, hmin⟩ | ⟨k, x, hfound, hx, hlt', hmin⟩
      · refine ⟨0, r, by rw [hfound]; rfl, rfl, hlt, ?_⟩
        simpa using hmin
      · refine ⟨k + 1, x, by rw [hfound]; omega, by simpa using hx, hlt'.trans hlt, ?_⟩
        simpa using ⟨hlt'.le, fun a b hab => hmin (a, b) hab⟩
    · have hle : nextStart ≤ r.1 := by omega
      rcases ih hrest (i + 1) hnext nextIndex with ⟨hfound, hmin⟩ | ⟨k, x, hfound, hx, hlt', hmin⟩
      · refine .inl ⟨hfound, ?_⟩
        simpa using ⟨hle, fun a b hab => hmin (a, b) hab⟩
      · refine .inr ⟨k + 1, x, by rw [hfound]; omega, by simpa using hx, hlt', ?_⟩
        simpa using ⟨hlt'.le.trans hle, fun a b hab => hmin (a, b) hab⟩

theorem getD_nextStartIndex_le {r : ℤ × ℤ} {rs : List (ℤ × ℤ)} (hshort : ShortStarts (r :: rs)) :
    ∀ r' ∈ r :: rs, ((r :: rs).getD (nextStartIndex (r :: rs) 0 (-1) 0) r).1 ≤ r'.1 := by
  obtain ⟨hlow, hhigh⟩ := hshort r (by simp)
  have hrest : ShortStarts rs := fun r' hr' => hshort r' (mem_cons_of_mem r hr')
  have hint : r.1.bmod (2 ^ 32) = r.1 := Int.bmod_eq_of_le (by omega) (by omega)
  rw [nextStartIndex, if_neg (by omega), if_pos (by omega), hint]
  rcases nextStartIndex_spec hrest 1 hlow 0 with ⟨hfound, hmin⟩ | ⟨k, x, hfound, hx, hlt, hmin⟩
  · rw [hfound]
    simpa using hmin
  · have hget : (r :: rs).getD (1 + k) r = x := by
      rw [Nat.add_comm, getD_cons_succ, getD_eq_getElem?_getD, hx]
      rfl
    rw [hfound, hget]
    simpa using ⟨hlt.le, fun a b hab => hmin (a, b) hab⟩

theorem proper_of_sortRanges {n : ℕ} {rs sorted : List (ℤ × ℤ)} (hn : rs.length = n)
    (hend : ∀ r ∈ rs, r.1 ≠ -1) (h : sortRanges n rs = some sorted) : ∀ r ∈ rs, r.1 ≠ r.2 := by
  induction n generalizing rs sorted with
  | zero =>
    obtain rfl := List.length_eq_zero_iff.1 hn
    simp
  | succ n ih =>
    cases rs with
    | nil => simp
    | cons r rs =>
      have hperm := swap_perm (nextStartIndex_lt r rs)
      rw [sortRanges, if_neg (hend r (by simp))] at h
      simp only at h
      split_ifs at h with hempty
      obtain ⟨rest, hrest, -⟩ := Option.map_eq_some_iff.1 h
      have hproper := ih (by simpa using hn) (fun x hx =>
        hend x (hperm.mem_iff.1 (mem_cons_of_mem _ hx))) hrest
      intro x hx
      rcases List.mem_cons.1 (hperm.mem_iff.2 hx) with rfl | hx
      · exact hempty
      · exact hproper x hx

/-- The sort puts short starts into order. -/
theorem sortRanges_spec {n : ℕ} {rs : List (ℤ × ℤ)} (hn : rs.length = n)
    (hend : ∀ r ∈ rs, r.1 ≠ -1) (hproper : ∀ r ∈ rs, r.1 ≠ r.2) :
    ∃ sorted, sortRanges n rs = some sorted ∧ sorted.Perm rs ∧
      (ShortStarts rs → sorted.Pairwise fun r r' => r.1 ≤ r'.1) := by
  induction n generalizing rs with
  | zero =>
    obtain rfl := List.length_eq_zero_iff.1 hn
    exact ⟨[], rfl, List.Perm.refl _, fun _ => List.Pairwise.nil⟩
  | succ n ih =>
    cases rs with
    | nil => exact ⟨[], rfl, List.Perm.refl _, fun _ => List.Pairwise.nil⟩
    | cons r rs =>
      have hlt := nextStartIndex_lt r rs
      have hperm := swap_perm hlt
      have hmem : ∀ x ∈ ((r :: rs).set (nextStartIndex (r :: rs) 0 (-1) 0) r).tail,
          x ∈ r :: rs := fun x hx => hperm.mem_iff.1 (mem_cons_of_mem _ hx)
      obtain ⟨sorted, hsorted, hperm', hordered⟩ := @ih
        ((r :: rs).set (nextStartIndex (r :: rs) 0 (-1) 0) r).tail (by simpa using hn) (fun x hx => hend x (hmem x hx)) fun x hx => hproper x (hmem x hx)
      refine ⟨_ :: sorted, ?_, (hperm'.cons _).trans hperm, fun hshort => ?_⟩
      · rw [sortRanges, if_neg (hend r (by simp))]
        simp only
        rw [if_neg (hproper _ (hperm.mem_iff.1 mem_cons_self)), hsorted]
        rfl
      · refine List.pairwise_cons.2 ⟨fun x hx => ?_, hordered fun x hx => hshort x (hmem x hx)⟩
        exact getD_nextStartIndex_le hshort x (hmem x (hperm'.mem_iff.1 hx))

/-! ### Joining on the flat list -/

def flat (rs : List (ℤ × ℤ)) : List ℤ := rs.flatMap fun r => [r.1, r.2]

@[simp] theorem flat_nil : flat [] = [] := rfl

@[simp] theorem flat_cons (r : ℤ × ℤ) (rs : List (ℤ × ℤ)) :
    flat (r :: rs) = r.1 :: r.2 :: flat rs := rfl

@[simp] theorem flat_append (rs rs' : List (ℤ × ℤ)) : flat (rs ++ rs') = flat rs ++ flat rs' := by
  simp [flat]

theorem length_flat (rs : List (ℤ × ℤ)) : (flat rs).length = 2 * rs.length := by
  induction rs with
  | nil => rfl
  | cons r rs ih =>
    simp only [flat_cons, length_cons, ih]
    omega

theorem untilEnd_eq {rs : List (ℤ × ℤ)} (hend : ∀ r ∈ rs, r.1 ≠ -1 ∧ r.2 ≠ -1) :
    untilEnd rs = flat rs := by
  refine List.takeWhile_eq_self_iff.2 fun t ht => ?_
  obtain ⟨r, hr, htr⟩ := List.mem_flatMap.1 ht
  obtain ⟨hstart, hstop⟩ := hend r hr
  rcases List.mem_pair.1 htr with rfl | rfl
  · simpa using hstart
  · simpa using hstop

theorem mergeAfter_end {prev stop : ℤ} (hne : stop ≠ prev) {rs : List (ℤ × ℤ)}
    (hproper : ∀ r ∈ rs, r.1 ≠ r.2) (start : ℤ) :
    start :: mergeAfter (some prev) (stop :: flat rs) = flat (joinTouching ((start, stop) :: rs)) := by
  induction rs generalizing prev start stop with
  | nil => simp [mergeAfter, joinTouching]
  | cons r rs ih =>
    have hr : r.2 ≠ r.1 := (hproper r (by simp)).symm
    have hrs : ∀ r' ∈ rs, r'.1 ≠ r'.2 := fun r' hr' => hproper r' (mem_cons_of_mem r hr')
    rw [flat_cons, mergeAfter, joinTouching]
    by_cases hmeet : stop = r.1
    · rw [if_neg (by simp [hmeet]), if_pos hmeet, mergeAfter, if_neg (by simp [hmeet])]
      exact ih hr hrs start
    · rw [if_pos ⟨hne, hmeet⟩, if_neg hmeet, flat_cons, mergeAfter,
        if_pos ⟨fun h => hmeet h.symm, hr.symm⟩, ih hr hrs r.1]

theorem mergeAdjacentTimeRanges_flat {rs : List (ℤ × ℤ)} (hproper : ∀ r ∈ rs, r.1 ≠ r.2) :
    mergeAdjacentTimeRanges (flat rs) = flat (joinTouching rs) := by
  cases rs with
  | nil => simp [mergeAdjacentTimeRanges, mergeAfter, joinTouching]
  | cons r rs =>
    have hr : r.2 ≠ r.1 := (hproper r (by simp)).symm
    rw [mergeAdjacentTimeRanges, flat_cons, mergeAfter]
    exact mergeAfter_end hr (fun r' hr' => hproper r' (mem_cons_of_mem r hr')) r.1

/-! ### The search of the match -/

theorem inRanges_flat {rs : List (ℤ × ℤ)} (hordered : rs.Pairwise fun r r' => r.1 ≤ r'.1) (s : ℤ) :
    inRanges s (flat rs) = true ↔ Covers rs s := by
  induction rs with
  | nil => simp [inRanges, Covers]
  | cons r rs ih =>
    obtain ⟨hfirst, hrest⟩ := List.pairwise_cons.1 hordered
    have hlater : Covers rs s → r.1 ≤ s := by
      rintro ⟨r', hr', hstart, -⟩
      exact (hfirst r' hr').trans hstart
    rw [flat_cons, inRanges, covers_cons]
    simp only [ge_iff_le, Bool.and_eq_true, decide_eq_true_eq, Bool.or_eq_true, ih hrest]
    tauto

end Timerange

end Gargoyle
