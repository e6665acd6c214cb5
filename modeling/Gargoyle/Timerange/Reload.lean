import Gargoyle.Timerange.TimeText

/-!
# Listing a rule and loading it again

`nft_timerange_dump` prints the times of a rule in seconds, but `parse_time`
takes a lone number for hours; the days are printed as digits, which
`parse_weekdays` does not know. No rule comes back as it was: a rule with
weekdays loses them, and all times are multiplied by 3600. As 3600 is a multiple
of 16, ranges that came back unchanged would have to be multiples of every power
of 16; this is so even in words that overflow.
-/

namespace Gargoyle

open List

namespace Timerange

open Segments Numerals

def reread (word : WordSize) (n : ℕ) : ℤ := toLong word (3600 * n)

/-! ## Reading digits and hyphens -/

theorem toLong_toUnsignedLong (word : WordSize) (n : ℕ) :
    toLong word (toUnsignedLong word n) = toLong word n := by
  rw [toLong, toLong, toUnsignedLong, Int.natCast_mod]
  exact Int.emod_bmod _ _

theorem parseTime_digits {p : List Char} (hne : p ≠ []) (hp : ∀ c ∈ p, c.isDigit = true)
    (word : WordSize) : toLong word (parseTime word p) = reread word (numeralValue 10 p) := by
  obtain ⟨c, cs, rfl⟩ := exists_cons_of_ne_nil hne
  have hc := hp c (by simp)
  have hstart : (c :: cs).dropWhile (· ∈ [' ', '\t']) = c :: cs := by
    have hnone : ∀ d ∈ [' ', '\t'], d.isDigit = false := forall_mem_of_all (by decide)
    have hnot := not_mem_of_isDigit hc hnone
    simpa using hnot
  have hday : weekdayNumber (toLowercase ((c :: cs).take 3)) = none := by
    rw [take_succ_cons, toLowercase, map_cons, toLower_of_isDigit hc]
    exact weekdayNumber_of_isDigit hc _
  have hsplit : splitOnSeparators (c :: cs) [':'] (-1) false = [c :: cs] := by
    have hpieces : ∀ q ∈ [c :: cs], q ≠ [] ∧ ':' ∉ q := by
      intro q hq
      obtain rfl := List.mem_singleton.1 hq
      exact ⟨hne, not_mem_of_all_digits hp (by decide)⟩
    simpa [intercalate_singleton] using splitOnSeparators_intercalate hpieces
  simp only [parseTime, hstart, hday, ite_self, hsplit]
  simp only [addTimeParts, scanLu_digits hne hp, Option.map_some, Option.getD_some, Nat.zero_add]
  rw [toLong_toUnsignedLong, reread, toLong, toLong, toUnsignedLong, Nat.cast_mul, Int.natCast_mod]
  refine (Int.emod_mul_bmod _ _).trans ?_
  congr 1
  exact Int.mul_comm _ _

def Printed (p : List Char) : Prop := ∀ c ∈ p, c.isDigit = true ∨ c = '-'

theorem trim_printed {p : List Char} (hp : Printed p) : trimFlankingWhitespace p = p := by
  have hblank : ∀ c ∈ p, c ∉ whitespace := by
    intro c hc
    rcases hp c hc with hdigit | rfl
    · exact not_mem_whitespace_of_isDigit hdigit
    · decide
  rcases eq_or_ne p [] with rfl | hne
  · rfl
  · have htight : Tight p :=
      ⟨hne, hblank _ (head_mem hne), hblank _ (getLast_mem hne)⟩
    simpa using @trimFlankingWhitespace_eq [] p [] (by simp) htight (by simp)

theorem digits_of_mem_split {p q : List Char} (hp : Printed p) {n : ℤ}
    (hq : q ∈ splitOnSeparators p ['-'] n false) : q ≠ [] ∧ ∀ c ∈ q, c.isDigit = true := by
  have hstart : ∀ c ∈ (p.dropWhile (· ∈ ['-'])).head?, c ∉ ['-'] := by
    intro c hc
    have hnot := head?_dropWhile_not (fun c => decide (c ∈ ['-'])) p
    rw [Option.mem_def.1 hc] at hnot
    simpa using hnot
  obtain ⟨hne, hchars⟩ := mem_splitLoop hstart hq
  refine ⟨hne, fun c hc => ?_⟩
  obtain ⟨hmem, hnot⟩ := hchars c hc
  exact (hp c (dropWhile_subset _ hmem)).resolve_right (by simpa using hnot)

theorem trim_digits {q : List Char} (hq : ∀ c ∈ q, c.isDigit = true) :
    trimFlankingWhitespace q = q := trim_printed fun c hc => Or.inl (hq c hc)

theorem reread_zero (word : WordSize) : reread word 0 = 0 := by
  cases word <;> decide

theorem parsePiece_printed {p : List Char} (hp : Printed p) (word : WordSize) :
    ∃ n m, parsePiece word p = (reread word n, reread word m) := by
  rw [parsePiece, trim_printed hp]
  split
  next first last hsplit =>
      have hdigits : ∀ q ∈ [first, last], q ≠ [] ∧ ∀ c ∈ q, c.isDigit = true := by
        rw [← hsplit]
        exact fun q hq => digits_of_mem_split hp hq
      obtain ⟨hne, hfirst⟩ := hdigits first (by simp)
      obtain ⟨hne', hlast⟩ := hdigits last (by simp)
      refine ⟨numeralValue 10 first, numeralValue 10 last, ?_⟩
      rw [trim_digits hfirst, trim_digits hlast, parseTime_digits hne hfirst,
        parseTime_digits hne' hlast]
  next => exact ⟨0, 0, by rw [reread_zero]⟩

/-! ## Printed ranges -/

def printRange (r : ℤ × ℤ) : List Char := printLong r.1 ++ '-' :: printLong r.2

theorem isDigit_of_mem_digits {n : ℕ} : ∀ c ∈ Nat.toDigits 10 n, c.isDigit = true :=
  fun _ hc => Nat.isDigit_of_mem_toDigits (by decide) (by decide) hc

theorem printed_printLong (x : ℤ) : Printed (printLong x) := by
  intro c hc
  have hdigit : ∀ c ∈ Nat.toDigits 10 x.natAbs, c.isDigit = true := isDigit_of_mem_digits
  unfold printLong at hc
  split_ifs at hc
  · rcases List.mem_cons.1 hc with rfl | hc
    · exact .inr rfl
    · exact .inl (hdigit c hc)
  · exact .inl (hdigit c hc)

theorem printed_printRange (r : ℤ × ℤ) : Printed (printRange r) := by
  intro c hc
  rcases List.mem_append.1 hc with hc | hc
  · exact printed_printLong r.1 c hc
  · rcases List.mem_cons.1 hc with rfl | hc
    · exact .inr rfl
    · exact printed_printLong r.2 c hc

theorem printRange_spec (r : ℤ × ℤ) : printRange r ≠ [] ∧ ',' ∉ printRange r := by
  refine ⟨by simp [printRange], fun hmem => ?_⟩
  rcases printed_printRange r ',' hmem with hdigit | heq
  · exact absurd hdigit (by decide)
  · exact absurd heq (by decide)

theorem printRanges_flat (rs : List (ℤ × ℤ)) :
    printRanges true (flat rs) = [','].intercalate (rs.map printRange) := by
  induction rs with
  | nil => simp [printRanges, List.intercalate]
  | cons r rs ih =>
    cases rs with
    | nil => simp [printRanges, printRange]
    | cons r' rs =>
      simp only [flat_cons, map_cons] at ih ⊢
      rw [intercalate_cons_cons, ← ih]
      simp [printRanges, printRange]

theorem hyphen_not_mem_digits {n : ℕ} : ∀ c ∈ Nat.toDigits 10 n, c ∉ ['-'] :=
  not_mem_singleton_of_not_mem (not_mem_of_all_digits isDigit_of_mem_digits (by decide))

theorem dropWhile_digits {n : ℕ} {t q : List Char} (hq : q <+: Nat.toDigits 10 n ++ t) :
    q.dropWhile (· ∈ ['-']) = q := by
  refine dropWhile_of_head fun c hc => ?_
  obtain ⟨rest, hq⟩ := hq
  obtain ⟨d, ds, hds⟩ := exists_cons_of_ne_nil (@Nat.toDigits_ne_nil n 10)
  have hd : d.isDigit = true := isDigit_of_mem_digits d (hds ▸ mem_cons_self)
  cases q with
  | nil => simp at hc
  | cons x xs =>
    rw [hds, cons_append, cons_append, List.cons.injEq] at hq
    simp only [head?_cons, Option.mem_def, Option.some_inj] at hc
    rw [← hc, hq.1]
    exact ne_of_isDigit hd (by decide)

theorem dropWhile_printLong {x : ℤ} {t p : List Char} (hp : p <+: printLong x ++ t) :
    p.dropWhile (· ∈ ['-']) <+: Nat.toDigits 10 x.natAbs ++ t := by
  by_cases hneg : x < 0
  · have hprint : printLong x = '-' :: Nat.toDigits 10 x.natAbs := if_pos hneg
    rw [hprint, cons_append] at hp
    rcases List.prefix_cons_iff.1 hp with rfl | ⟨q, rfl, hq⟩
    · exact nil_prefix
    · rw [dropWhile_cons_of_pos (by simp), dropWhile_digits hq]
      exact hq
  · have hprint : printLong x = Nat.toDigits 10 x.natAbs := if_neg hneg
    rw [hprint] at hp
    rw [dropWhile_digits hp]
    exact hp

theorem dropWhile_printLong_append (x : ℤ) (t : List Char) :
    (printLong x ++ t).dropWhile (· ∈ ['-']) = Nat.toDigits 10 x.natAbs ++ t := by
  by_cases hneg : x < 0
  · have hprint : printLong x = '-' :: Nat.toDigits 10 x.natAbs := if_pos hneg
    rw [hprint, cons_append, dropWhile_cons_of_pos (by simp)]
    exact dropWhile_digits (prefix_refl _)
  · have hprint : printLong x = Nat.toDigits 10 x.natAbs := if_neg hneg
    rw [hprint]
    exact dropWhile_digits (prefix_refl _)

theorem parsePiece_of_start {r : ℤ × ℤ} {p : List Char} (hp : p <+: printRange r) (word : WordSize) :
    (parsePiece word p).1 = (parsePiece word p).2 ∨
      (parsePiece word p).1 = reread word r.1.natAbs := by
  have hprinted : Printed p := fun c hc => printed_printRange r c (hp.subset hc)
  have hsplit : splitOnSeparators p ['-'] 2 false =
      splitLoop ['-'] false 2 (p.dropWhile (· ∈ ['-'])) := rfl
  have hrest := dropWhile_printLong hp
  rw [parsePiece, trim_printed hprinted, hsplit]
  generalize p.dropWhile (· ∈ ['-']) = q at hrest
  rcases prefix_append_cases hrest with hleft | ⟨c, rfl, hc⟩
  · left
    rcases eq_or_ne q [] with rfl | hne
    · rfl
    · rw [splitLoop_last hne fun c hc => hyphen_not_mem_digits c (hleft.subset hc)]
  · rcases List.prefix_cons_iff.1 hc with rfl | ⟨d, rfl, -⟩
    · left
      rw [List.append_nil, splitLoop_last Nat.toDigits_ne_nil hyphen_not_mem_digits]
    · rw [splitLoop_cons hyphen_not_mem_digits mem_cons_self]
      rcases eq_or_ne (d.dropWhile (· ∈ ['-'])) [] with hnil | hne
      · left
        rw [hnil]
        rfl
      · right
        rw [splitLoop_succ hne]
        simp only [splitLoop]
        rw [trim_digits isDigit_of_mem_digits, parseTime_digits Nat.toDigits_ne_nil isDigit_of_mem_digits,
          numeralValue_toDigits (by decide) (by decide)]

theorem parsePiece_printRange (r : ℤ × ℤ) (word : WordSize) :
    parsePiece word (printRange r) = (reread word r.1.natAbs, reread word r.2.natAbs) := by
  have hsplit : splitOnSeparators (printRange r) ['-'] 2 false =
      [Nat.toDigits 10 r.1.natAbs, Nat.toDigits 10 r.2.natAbs] := by
    have hlast := dropWhile_printLong_append r.2 []
    rw [List.append_nil, List.append_nil] at hlast
    change splitLoop ['-'] false 2 ((printRange r).dropWhile (· ∈ ['-'])) = _
    rw [printRange, dropWhile_printLong_append, splitLoop_cons hyphen_not_mem_digits
      mem_cons_self, hlast, splitLoop_last Nat.toDigits_ne_nil hyphen_not_mem_digits]
  rw [parsePiece, trim_printed (printed_printRange r), hsplit]
  simp only [trim_digits isDigit_of_mem_digits,
    parseTime_digits Nat.toDigits_ne_nil isDigit_of_mem_digits,
    numeralValue_toDigits (show 1 < 10 by decide) (show 10 ≤ 16 by decide)]

/-! ## Multiples of 3600 -/

theorem dvd_toLong {word : WordSize} {d x : ℤ} (hx : d ∣ x) (hword : d ∣ 2 ^ word.bits) :
    d ∣ toLong word x := by
  have hdiv := Int.bmod_add_bdiv x (2 ^ word.bits)
  have heq : toLong word x = x - ((2 ^ word.bits : ℕ) : ℤ) * x.bdiv (2 ^ word.bits) := by
    rw [toLong]
    omega
  rw [heq]
  push_cast
  exact Int.dvd_sub hx (hword.mul_right _)

theorem toLong_bounds (word : WordSize) (x : ℤ) :
    -2 ^ 63 ≤ toLong word x ∧ toLong word x < 2 ^ 63 ∧
      -2 ^ word.bits < toLong word x ∧ toLong word x < 2 ^ word.bits := by
  have hlow := @Int.le_bmod x (2 ^ word.bits) (Nat.two_pow_pos _)
  have hhigh := @Int.bmod_lt x (2 ^ word.bits) (Nat.two_pow_pos _)
  rw [toLong]
  cases word <;> simp only [WordSize.bits] at * <;> omega

theorem sixteen_dvd_reread (word : WordSize) (n : ℕ) : 16 ∣ reread word n := by
  refine dvd_toLong (Dvd.dvd.mul_right (by decide) _) ?_
  cases word <;> decide

/-- Only zeros are read back as themselves. -/
theorem eq_zero_of_reread {word : WordSize} {xs : List ℤ}
    (h : ∀ x ∈ xs, x = 0 ∨ ∃ y ∈ xs, x = reread word y.natAbs) : ∀ x ∈ xs, x = 0 := by
  have hpow : ∀ n, 4 * n ≤ word.bits → ∀ x ∈ xs, (16 : ℤ) ^ n ∣ x := by
    intro n
    induction n with
    | zero => simp
    | succ n ih =>
      intro hn x hx
      rcases h x hx with rfl | ⟨y, hy, rfl⟩
      · exact dvd_zero _
      · refine dvd_toLong ?_ ?_
        · have hy' : (16 : ℤ) ^ n ∣ (y.natAbs : ℤ) := Int.dvd_natAbs.2 (ih (by omega) y hy)
          rw [pow_succ, mul_comm]
          exact mul_dvd_mul (by decide) hy'
        · have hsixteen : (16 : ℤ) ^ (n + 1) = 2 ^ (4 * (n + 1)) := by
            rw [pow_mul]
            norm_num
          rw [hsixteen]
          exact pow_dvd_pow 2 hn
  intro x hx
  rcases h x hx with hzero | ⟨y, -, hy⟩
  · exact hzero
  · have hbounds := toLong_bounds word (3600 * y.natAbs)
    have hdvd : (2 : ℤ) ^ word.bits ∣ x := by
      have hquarter : 4 * (word.bits / 4) = word.bits := by cases word <;> rfl
      have hfull := hpow (word.bits / 4) hquarter.le x hx
      have hsixteen : (16 : ℤ) ^ (word.bits / 4) = 2 ^ word.bits := by
        rw [← hquarter, pow_mul, hquarter]
        norm_num
      rwa [hsixteen] at hfull
    rw [← reread, ← hy] at hbounds
    refine Int.eq_zero_of_abs_lt_dvd hdvd ?_
    rw [abs_lt]
    exact ⟨hbounds.2.2.1, hbounds.2.2.2⟩

/-! ## Ranges -/

theorem mem_printRanges {even : Bool} {ts : List ℤ} {c : Char} (hc : c ∈ printRanges even ts) :
    c.isDigit = true ∨ c = '-' ∨ c = ',' := by
  have hlong : ∀ t, c ∈ printLong t → c.isDigit = true ∨ c = '-' ∨ c = ',' := fun t hc =>
    (printed_printLong t c hc).imp_right Or.inl
  induction ts generalizing even with
  | nil => simp [printRanges] at hc
  | cons t ts ih =>
    cases ts with
    | nil => exact hlong t (by simpa [printRanges] using hc)
    | cons t' ts =>
      rw [printRanges] at hc
      rcases List.mem_append.1 hc with hc | hc
      · exact hlong t hc
      · rcases List.mem_cons.1 hc with rfl | hc
        · cases even
          · exact .inr (.inr rfl)
          · exact .inr (.inl rfl)
        · exact ih hc

theorem parsed_printRanges {word : WordSize} {ts : List ℤ} {n : ℕ} {y : ℤ × ℤ}
    (hy : y ∈ (splitOnSeparators ((printRanges true ts).take n) [','] (-1) false).map
      (parsePiece word)) : ∃ k l, y = (reread word k, reread word l) := by
  obtain ⟨p, hp, rfl⟩ := List.mem_map.1 hy
  have hstart : ∀ c ∈ (((printRanges true ts).take n).dropWhile (· ∈ [','])).head?, c ∉ [','] := by
    intro c hc
    have hnot := head?_dropWhile_not (fun c => decide (c ∈ [','])) ((printRanges true ts).take n)
    rw [Option.mem_def.1 hc] at hnot
    simpa using hnot
  obtain ⟨-, hchars⟩ := mem_splitLoop hstart hp
  refine parsePiece_printed (fun c hc => ?_) word
  obtain ⟨hmem, hnot⟩ := hchars c hc
  have hc' := mem_printRanges (mem_of_mem_take (dropWhile_subset _ hmem))
  exact hc'.imp_right fun hsep => hsep.resolve_right (by simpa using hnot)

theorem length_printLong_le {x : ℤ} (hlow : -2 ^ 63 ≤ x) (hhigh : x < 2 ^ 63) :
    (printLong x).length ≤ 21 := by
  have hdigits : (Nat.toDigits 10 x.natAbs).length ≤ 20 :=
    (Nat.length_toDigits_le_iff (by decide) (by decide)).2 (by omega)
  unfold printLong
  split_ifs
  · rw [length_cons]
    omega
  · omega

theorem length_intercalate_le {sep : Char} {k : ℕ} {texts : List (List Char)}
    (h : ∀ t ∈ texts, t.length ≤ k) : ([sep].intercalate texts).length ≤ (k + 1) * texts.length := by
  induction texts with
  | nil => simp [List.intercalate]
  | cons t texts ih =>
    have ht := h t (by simp)
    cases texts with
    | nil =>
      rw [intercalate_singleton]
      simp only [length_singleton]
      omega
    | cons t' texts =>
      have ih' := ih fun x hx => h x (mem_cons_of_mem t hx)
      rw [intercalate_cons_cons, length_append, length_cons, length_cons,
        Nat.mul_succ]
      omega

theorem adjustRanges_pairs {length : ℤ} {js : List (ℤ × ℤ)} {ts : List ℤ}
    (h : adjustRanges length (flat js) = .ranges ts) :
    ∃ rs, ts = flat rs ∧ rs ≠ [] ∧ (rs = js ∨ rs.length = js.length + 1) ∧
      (∀ r ∈ rs, r.1 = 0 ∨ ∃ j ∈ js, j.1 = r.1) ∧
      ∀ r ∈ rs, r.2 = length ∨ ∃ j ∈ js, j.2 = r.2 := by
  rcases eq_nil_or_concat js with rfl | ⟨js, ⟨a, b⟩, rfl⟩
  · exact absurd h (by simp [adjustRanges])
  · rw [concat_eq_append] at h ⊢
    rw [adjustRanges_flat] at h
    split_ifs at h
    · refine ⟨_, (ParsedRanges.ranges.inj h).symm, by simp, Or.inr (by simp), ?_, ?_⟩
      · intro r hr
        simp only [cons_append, mem_cons, mem_append, not_mem_nil,
          or_false] at hr
        rcases hr with rfl | hr | rfl
        · exact .inl rfl
        · exact .inr ⟨r, by simp [hr], rfl⟩
        · exact .inr ⟨(a, b), by simp, rfl⟩
      · intro r hr
        simp only [cons_append, mem_cons, mem_append, not_mem_nil,
          or_false] at hr
        rcases hr with rfl | hr | rfl
        · exact .inr ⟨(a, b), by simp, rfl⟩
        · exact .inr ⟨r, by simp [hr], rfl⟩
        · exact .inl rfl
    · refine ⟨_, (ParsedRanges.ranges.inj h).symm, by simp, Or.inl rfl, ?_, ?_⟩
      · exact fun r hr => Or.inr ⟨r, hr, rfl⟩
      · exact fun r hr => Or.inr ⟨r, hr, rfl⟩

structure Reread (word : WordSize) (length : ℤ) (parsed rs : List (ℤ × ℤ)) : Prop where
  proper : ∀ y ∈ parsed, y.1 ≠ y.2
  ne_nil : rs ≠ []
  starts : ∀ r ∈ rs, r.1 = 0 ∨ ∃ y ∈ parsed, y.1 = r.1
  ends : ∀ r ∈ rs, r.2 = length ∨ ∃ k, r.2 = reread word k
  /-- Without ranges that touch the list is the one that was read, or longer. -/
  apart : (∀ y ∈ parsed, ∀ y' ∈ parsed, y.2 ≠ y'.1) →
    rs.Perm parsed ∨ rs.length = parsed.length + 1

/-- What is read back has been printed or is zero. -/
theorem reread_of_parseTimeRanges {word : WordSize} {isWeeklyRange : Bool} {ts ts' : List ℤ} {n : ℕ}
    (h : parseTimeRanges word ((printRanges true ts).take n) isWeeklyRange = .ranges ts') :
    ∃ rs, ts' = flat rs ∧ Reread word (circle isWeeklyRange)
      ((splitOnSeparators ((printRanges true ts).take n) [','] (-1) false).map (parsePiece word))
      rs := by
  obtain ⟨sorted, hsorted, hadjust⟩ := parseTimeRanges_inv h
  have hread := fun y => @parsed_printRanges word ts n y
  generalize (splitOnSeparators ((printRanges true ts).take n) [','] (-1) false).map
    (parsePiece word) = parsed at hsorted hread ⊢
  have hends : ∀ y ∈ parsed, y.1 ≠ -1 ∧ y.2 ≠ -1 := by
    intro y hy
    obtain ⟨k, l, rfl⟩ := hread y hy
    have hk := sixteen_dvd_reread word k
    have hl := sixteen_dvd_reread word l
    simp only
    omega
  have hproper := proper_of_sortRanges rfl (fun y hy => (hends y hy).1) hsorted
  obtain ⟨sorted', hsorted', hperm, -⟩ :=
    sortRanges_spec rfl (fun y hy => (hends y hy).1) hproper
  obtain rfl : sorted = sorted' := Option.some_inj.1 (hsorted.symm.trans hsorted')
  rw [untilEnd_eq fun y hy => hends y (hperm.mem_iff.1 hy),
    mergeAdjacentTimeRanges_flat fun y hy => hproper y (hperm.mem_iff.1 hy)] at hadjust
  obtain ⟨rs, hflat, hne, hlength, hstarts, hstops⟩ := adjustRanges_pairs hadjust
  refine ⟨rs, hflat, hproper, hne, fun r hr => ?_, fun r hr => ?_, fun hapart => ?_⟩
  · refine (hstarts r hr).imp_right ?_
    rintro ⟨j, hj, hjr⟩
    obtain ⟨⟨y, hy, hyj⟩, -⟩ := ends_of_mem_joinTouching hj
    exact ⟨y, hperm.mem_iff.1 hy, hyj.trans hjr⟩
  · refine (hstops r hr).imp_right ?_
    rintro ⟨j, hj, hjr⟩
    obtain ⟨-, ⟨y, hy, hyj⟩⟩ := ends_of_mem_joinTouching hj
    obtain ⟨k, l, rfl⟩ := hread y (hperm.mem_iff.1 hy)
    exact ⟨l, (hyj.trans hjr).symm⟩
  · have hjoin : joinTouching sorted = sorted := joinTouching_of_forall_ne fun y hy y' hy' =>
      hapart y (hperm.mem_iff.1 hy) y' (hperm.mem_iff.1 hy')
    rw [hjoin] at hlength
    rcases hlength with rfl | hlength
    · exact .inl hperm
    · exact .inr (hlength.trans (by rw [hperm.length_eq]))

/-- Ranges that were printed are not read back. -/
theorem parseTimeRanges_printRanges_ne (word : WordSize) (isWeeklyRange : Bool) {ts : List ℤ}
    (hlength : ts.length < rangeLength) :
    parseTimeRanges word ((printRanges true ts).take (timerangeTextSize - 1)) isWeeklyRange ≠
      .ranges ts := by
  intro hparse
  obtain ⟨rs, rfl, hreread⟩ := reread_of_parseTimeRanges hparse
  rw [printRanges_flat] at hreread
  have hpieces : ∀ p ∈ rs.map printRange, p ≠ [] ∧ ',' ∉ p := by
    intro p hp
    obtain ⟨r, -, rfl⟩ := List.mem_map.1 hp
    exact printRange_spec r
  have hcircle := circle_le isWeeklyRange
  -- the starts come from each other by reading, even if the text has been cut off
  have hstarts : ∀ r ∈ rs, r.1 = 0 := by
    have hfirst : ∀ x ∈ rs.map Prod.fst, x = 0 := by
      refine @eq_zero_of_reread word _ fun x hx => ?_
      obtain ⟨r, hr, rfl⟩ := List.mem_map.1 hx
      refine (hreread.starts r hr).imp_right ?_
      rintro ⟨y, hy, hyr⟩
      have hne := hreread.proper y hy
      obtain ⟨p, hp, rfl⟩ := List.mem_map.1 hy
      obtain ⟨q, hq, hprefix⟩ :=
        prefix_of_mem_splitOnSeparators hpieces ( take_prefix _ _) hp
      obtain ⟨r', hr', rfl⟩ := List.mem_map.1 hq
      exact ⟨r'.1, mem_map_of_mem hr',
        hyr.symm.trans ((parsePiece_of_start hprefix word).resolve_left hne)⟩
    exact fun r hr => hfirst r.1 (mem_map_of_mem hr)
  -- so the text is short
  have hshort : ([','].intercalate (rs.map printRange)).length ≤ timerangeTextSize - 1 := by
    have hbound : ∀ p ∈ rs.map printRange, p.length ≤ 23 := by
      intro p hp
      obtain ⟨r, hr, rfl⟩ := List.mem_map.1 hp
      have hstop : -2 ^ 63 ≤ r.2 ∧ r.2 < 2 ^ 63 := by
        rcases hreread.ends r hr with heq | ⟨k, heq⟩
        · have hpos : 0 ≤ circle isWeeklyRange := by cases isWeeklyRange <;> decide
          omega
        · have hbounds := toLong_bounds word (3600 * k)
          rw [heq, reread]
          exact ⟨hbounds.1, hbounds.2.1⟩
      have hprint := length_printLong_le hstop.1 hstop.2
      have hzero : printLong 0 = ['0'] := by decide
      rw [printRange, hstarts r hr, hzero]
      simp only [length_append, length_cons, length_nil]
      omega
    have htotal := @length_intercalate_le ',' 23 _ hbound
    rw [length_flat, rangeLength] at hlength
    rw [length_map] at htotal
    rw [timerangeTextSize]
    omega
  rw [take_of_length_le hshort, splitOnSeparators_intercalate hpieces, map_map] at hreread
  have hparsed : rs.map (parsePiece word ∘ printRange) =
      rs.map fun r => ((0 : ℤ), reread word r.2.natAbs) := by
    refine map_congr_left fun r hr => ?_
    rw [Function.comp, parsePiece_printRange, hstarts r hr, Int.natAbs_zero, reread_zero]
  rw [hparsed] at hreread
  have hends : ∀ r ∈ rs, reread word r.2.natAbs ≠ 0 := fun r hr =>
    (hreread.proper _ (mem_map_of_mem hr)).symm
  have hapart := hreread.apart fun y hy y' hy' => by
    obtain ⟨r, hr, rfl⟩ := List.mem_map.1 hy
    obtain ⟨r', -, rfl⟩ := List.mem_map.1 hy'
    exact hends r hr
  rw [length_map] at hapart
  have hperm := hapart.resolve_right (by omega)
  -- the ends come from each other as well
  have hstops : ∀ x ∈ rs.map Prod.snd, x = 0 := by
    refine @eq_zero_of_reread word _ fun x hx => ?_
    obtain ⟨r, hr, rfl⟩ := List.mem_map.1 hx
    obtain ⟨r', hr', heq⟩ := List.mem_map.1 (hperm.mem_iff.1 hr)
    exact .inr ⟨r'.2, mem_map_of_mem hr', by rw [← heq]⟩
  obtain ⟨r, hr⟩ := exists_mem_of_ne_nil rs hreread.ne_nil
  have hzero := hstops r.2 (mem_map_of_mem hr)
  exact hends r hr (by rw [hzero, Int.natAbs_zero, reread_zero])

/-! ## Weekdays -/

theorem markWeekdays_printed {days : List (List Char)} (h : ∀ p ∈ days, p = ['0'] ∨ p = ['1'])
    (acc : List Bool × Bool) : markWeekdays days acc = acc := by
  induction days generalizing acc with
  | nil => rfl
  | cons p days ih =>
    have hunknown : ∀ weekdays,
        markWeekday weekdays (toLowercase ((trimFlankingWhitespace p).take 3)) = none := by
      intro weekdays
      rcases h p (by simp) with rfl | rfl <;> rfl
    obtain ⟨weekdays, found⟩ := acc
    rw [markWeekdays, hunknown]
    exact ih (fun q hq => h q (mem_cons_of_mem p hq)) (weekdays, found)

theorem parseWeekdays_printDays (days : List Bool) :
    parseWeekdays (copyText (some (printDays days))) = none := by
  have hdays : ∀ p ∈ (days.take 7).map fun day => [if day then '1' else '0'],
      p = ['0'] ∨ p = ['1'] := by
    intro p hp
    obtain ⟨day, -, rfl⟩ := List.mem_map.1 hp
    cases day
    · exact .inl rfl
    · exact .inr rfl
  have hpieces : ∀ p ∈ (days.take 7).map fun day => [if day then '1' else '0'],
      p ≠ [] ∧ ',' ∉ p := by
    intro p hp
    rcases hdays p hp with rfl | rfl <;> decide
  have hlength : (printDays days).length ≤ timerangeTextSize - 1 := by
    have hle := @length_intercalate_le ',' 1 _ fun p hp => by
      rcases hdays p hp with rfl | rfl <;> exact le_rfl
    rw [length_map, length_take] at hle
    rw [printDays, timerangeTextSize]
    omega
  rw [copyText, Option.getD_some, take_of_length_le hlength, parseWeekdays, printDays,
    splitOnSeparators_intercalate hpieces, markWeekdays_printed hdays]
  rfl

theorem initWeekdays_printDays (days : List Bool) (priv : NftTimerangeInfo) :
    initWeekdays (copyText (some (printDays days))) priv = priv := by
  unfold initWeekdays
  rw [parseWeekdays_printDays]
  split_ifs <;> rfl

/-! ## Rules -/

theorem copyRanges_ok {priv priv' : NftTimerangeInfo} {type : TimerangeType} {parsed : ParsedRanges}
    (h : copyRanges priv type parsed = .ok priv') :
    priv' = priv ∨ ∃ ts, parsed = .ranges ts ∧ ts.length < rangeLength ∧
      priv' = { priv with ranges := ts, type := type } := by
  cases parsed with
  | outOfBounds => exact absurd h (by simp [copyRanges])
  | null => exact .inl (Except.ok.inj h).symm
  | ranges ts =>
    rw [copyRanges] at h
    split_ifs at h with hlong
    exact .inr ⟨ts, rfl, not_le.1 hlong, (Except.ok.inj h).symm⟩

theorem initHours_ok {word : WordSize} {hours : List Char} {priv priv' : NftTimerangeInfo}
    (h : initHours word hours priv = .ok priv') :
    priv' = priv ∨ ∃ ts, parseTimeRanges word hours false = .ranges ts ∧ ts.length < rangeLength ∧
      priv' = { priv with ranges := ts, type := .hours } := by
  rw [initHours] at h
  split_ifs at h
  · exact copyRanges_ok h
  · exact .inl (Except.ok.inj h).symm

theorem initWeeklyRanges_ok {word : WordSize} {weeklyranges : List Char}
    {priv priv' : NftTimerangeInfo} (h : initWeeklyRanges word weeklyranges priv = .ok priv') :
    priv' = priv ∨ ∃ ts, parseTimeRanges word weeklyranges true = .ranges ts ∧
      ts.length < rangeLength ∧ priv' = { priv with ranges := ts, type := .weeklyRange } := by
  rw [initWeeklyRanges] at h
  simp only at h
  split_ifs at h
  · exact copyRanges_ok h
  · exact .inl (Except.ok.inj h).symm
  · exact .inl (Except.ok.inj h).symm

theorem bind_eq_ok {α β ε : Type} {x : Except ε α} {f : α → Except ε β} {b : β}
    (h : x >>= f = .ok b) : ∃ a, x = .ok a ∧ f a = .ok b := by
  cases x with
  | error e => exact absurd h (by simp [bind, Except.bind])
  | ok a => exact ⟨a, rfl, h⟩

theorem nftTimerangeInit_ok {word : WordSize} {tb : TimerangeAttrs} {priv : NftTimerangeInfo}
    (h : nftTimerangeInit word tb = .ok priv) :
    ∃ invert priv', initHours word (copyText tb.hours)
        ⟨[], List.replicate 7 false, .unset, invert⟩ = .ok priv' ∧
      initWeeklyRanges word (copyText tb.weeklyranges)
        (initWeekdays (copyText tb.weekdays) priv') = .ok priv ∧
      priv.type ≠ .unset := by
  rw [nftTimerangeInit] at h
  split_ifs at h
  obtain ⟨priv', hhours, h⟩ := bind_eq_ok h
  obtain ⟨priv'', hweekly, h⟩ := bind_eq_ok h
  split_ifs at h with htype
  obtain rfl := Except.ok.inj h
  exact ⟨_, priv', hhours, hweekly, htype⟩

/-- No rule is loaded as it was listed. -/
theorem nftTimerangeInit_dump_ne (word : WordSize) (priv : NftTimerangeInfo) :
    nftTimerangeInit word (nftTimerangeDump priv) ≠ .ok priv := by
  intro h
  obtain ⟨invert, priv', hhours, hweekly, htype⟩ := nftTimerangeInit_ok h
  have hdays : initWeekdays (copyText (nftTimerangeDump priv).weekdays) priv' = priv' := by
    simp only [nftTimerangeDump]
    split_ifs
    · exact initWeekdays_printDays priv.days priv'
    · rfl
  have hcopy : copyText (some ((printRanges true priv.ranges).take (timerangeTextSize - 1))) =
      (printRanges true priv.ranges).take (timerangeTextSize - 1) := by
    rw [copyText, Option.getD_some, take_take, min_self]
  rw [hdays] at hweekly
  rcases initWeeklyRanges_ok hweekly with heq | ⟨ts, hparse, hlength, heq⟩
  · subst heq
    rcases initHours_ok hhours with hunset | ⟨ts, hparse, hlength, hset⟩
    · exact htype (hunset ▸ rfl)
    · have hranges : priv.ranges = ts := hset ▸ rfl
      have hkind : priv.type = .hours := hset ▸ rfl
      rw [nftTimerangeDump, if_pos (Or.inl hkind), hcopy] at hparse
      rw [← hranges] at hparse hlength
      exact parseTimeRanges_printRanges_ne word false hlength hparse
  · have hranges : priv.ranges = ts := heq ▸ rfl
    have hkind : priv.type = .weeklyRange := heq ▸ rfl
    rw [nftTimerangeDump, if_pos hkind, hcopy] at hparse
    rw [← hranges] at hparse hlength
    exact parseTimeRanges_printRanges_ne word true hlength hparse

/-- The rule for one o'clock to two o'clock comes back as one that begins after
3600 hours. -/
theorem one_to_two_reloaded :
    nftTimerangeInit .bits64 ⟨none, some "1:00-2:00".toList, none, none⟩ =
        .ok ⟨[3600, 7200], List.replicate 7 false, .hours, false⟩ ∧
      (nftTimerangeDump ⟨[3600, 7200], List.replicate 7 false, .hours, false⟩).hours =
        some "3600-7200".toList ∧
      nftTimerangeInit .bits64
          (nftTimerangeDump ⟨[3600, 7200], List.replicate 7 false, .hours, false⟩) =
        .ok ⟨[12960000, 25920000], List.replicate 7 false, .hours, false⟩ := by
  refine ⟨by decide +kernel, by decide +kernel, by decide +kernel⟩

/-!
## Storing ranges in a rule

A rule has room for 51 numbers, and the last one that is stored is the `-1` behind
the starts and ends. The loops of `nft_timerange_init` that store them give up at
the index 101. Each loop stays inside if there are at most 50 starts and ends, and
otherwise it writes behind the array before it refuses anything.
-/

def storeLoop : List ℤ → ℕ → List ℕ × Bool
  | [], rangeIndex => ([rangeIndex], true)
  | _ :: ts, rangeIndex =>
    if rangeIndex > 100 then ([], false)
    else
      let rest := storeLoop ts (rangeIndex + 1)
      (rangeIndex :: rest.1, rest.2)

/-- The ranges of a text, when there is one and `parse_time_ranges` makes ranges
of it. -/
def rangesOfText (word : WordSize) (text : List Char) (isWeeklyRange : Bool) : Option (List ℤ) :=
  if text.length > 0 then
    match parseTimeRanges word text isWeeklyRange with
    | .ranges ts => some ts
    | .outOfBounds | .null => none
  else none

def daysOfText (text : List Char) : Option (List Bool) :=
  if text.length > 0 then parseWeekdays text else none

/-- The ranges that `nft_timerange_init` copies: the ones of the day if there are
any, and the ones of the week if there are no days either. -/
def storedRanges (word : WordSize) (tb : TimerangeAttrs) : Option (List ℤ) :=
  if tb.hours = none ∧ tb.weekdays = none ∧ tb.weeklyranges = none then none
  else if tb.flags.getD 0 / 2 ≠ 0 then none
  else
    match rangesOfText word (copyText tb.hours) false with
    | some ts => some ts
    | none =>
      if (daysOfText (copyText tb.weekdays)).isSome then none
      else rangesOfText word (copyText tb.weeklyranges) true

/-- The indices of the rule that `nft_timerange_init` writes to. -/
def writtenIndices (word : WordSize) (tb : TimerangeAttrs) : List ℕ :=
  match storedRanges word tb with
  | some ts => (storeLoop ts 0).1
  | none => []

/-! ### The loop -/

theorem storeLoop_inside_iff (ts : List ℤ) {i : ℕ} (hi : i ≤ rangeLength) :
    (∀ j ∈ (storeLoop ts i).1, j < rangeLength) ↔ i + ts.length < rangeLength := by
  induction ts generalizing i with
  | nil => simp [storeLoop]
  | cons t ts ih =>
    have hguard : ¬ i > 100 := by
      unfold rangeLength at hi
      omega
    rw [storeLoop, if_neg hguard, forall_mem_cons, length_cons]
    constructor
    · rintro ⟨hlt, hrest⟩
      have := (ih hlt).1 hrest
      omega
    · intro hlt
      have hlt' : i + 1 ≤ rangeLength := by omega
      exact ⟨by omega, (ih hlt').2 (by omega)⟩

/-! ### Rules -/

/-- No write of `nft_timerange_init` lies behind the array of the rule, and longer ranges are
refused, exactly if the ranges that it copies have at most 50 starts and ends. -/
theorem writtenIndices_inside_iff (word : WordSize) (tb : TimerangeAttrs) :
    ((∀ i ∈ writtenIndices word tb, i < rangeLength) ∧
      ∀ ts, storedRanges word tb = some ts → rangeLength ≤ ts.length →
        (storeLoop ts 0).2 = false) ↔
      ∀ ts, storedRanges word tb = some ts → ts.length ≤ 50 := by
  unfold writtenIndices
  cases hts : storedRanges word tb with
  | none => simp
  | some ts =>
    simp only [Option.some.injEq, forall_eq']
    rw [storeLoop_inside_iff ts (Nat.zero_le _)]
    unfold rangeLength
    omega

def evenHours : List Char :=
  "0-1,2-3,4-5,6-7,8-9,10-11,12-13,14-15,16-17,18-19,20-21,22-23,24-25,26-27,28-29,30-31,32-33,34-35,36-37,38-39,40-41,42-43,44-45,46-47,48-49,50-51".toList

/-- The 26 ranges of a text are accepted, with writes behind the array. -/
theorem even_hours_behind_array :
    evenHours.length ≤ 1024 ∧
      51 ∈ writtenIndices .bits32 ⟨none, none, none, some evenHours⟩ ∧
      52 ∈ writtenIndices .bits32 ⟨none, none, none, some evenHours⟩ := by
  decide +kernel

end Timerange

end Gargoyle
