import Gargoyle.Data.Numerals
import Mathlib.Data.List.DropRight

/-!
# Texts of the time range module

The helpers of `nft_timerange.c` that take texts apart. A text is a C string
without its terminating NUL; a piece of a split text is never empty.
-/

namespace Gargoyle

open List

namespace Timerange

open Numerals

/-- The loop of `split_on_separators`: each round takes a piece and goes on to
the next character that is not a separator. -/
def splitLoop (separators : List Char) (includeRemainderAtMax : Bool) :
    ℕ → List Char → List (List Char)
  | 0, _ => []
  | n + 1, start =>
    if start = [] then []
    else
      let piece := if n = 0 ∧ includeRemainderAtMax then start
        else start.takeWhile (· ∉ separators)
      piece :: splitLoop separators includeRemainderAtMax n
        ((start.dropWhile (· ∉ separators)).dropWhile (· ∈ separators))

def splitOnSeparators (line separators : List Char) (maxPieces : ℤ)
    (includeRemainderAtMax : Bool) : List (List Char) :=
  let rounds := if maxPieces < 0 then line.countP (· ∈ separators) + 1 else maxPieces.toNat
  splitLoop separators includeRemainderAtMax rounds (line.dropWhile (· ∈ separators))

def whitespace : List Char := [' ', '\t', '\n', '\r']

def trimFlankingWhitespace (str : List Char) : List Char :=
  (str.dropWhile (· ∈ whitespace)).rdropWhile (· ∈ whitespace)

def toLowercase (str : List Char) : List Char := str.map Char.toLower

/-- What `isspace` of the kernel accepts. -/
def isSpace (c : Char) : Bool := c ∈ [' ', '\t', '\n', '\x0b', '\x0c', '\r', '\xa0']

/-- `sscanf` with `"%lu"`; `none` if nothing is converted. -/
def scanLu (str : List Char) : Option ℕ :=
  let digits := (str.dropWhile isSpace).takeWhile Char.isDigit
  if digits = [] then none else some (numeralValue 10 digits)

/-! ## Splitting -/

section Split

variable {separators : List Char}

theorem splitLoop_succ {start : List Char} (hne : start ≠ []) (n : ℕ) :
    splitLoop separators false (n + 1) start =
      start.takeWhile (· ∉ separators) :: splitLoop separators false n
        ((start.dropWhile (· ∉ separators)).dropWhile (· ∈ separators)) := by
  rw [splitLoop, if_neg hne, if_neg (by simp)]

theorem splitLoop_cons {piece rest : List Char} {sep : Char}
    (hpiece : ∀ c ∈ piece, c ∉ separators) (hsep : sep ∈ separators) (n : ℕ) :
    splitLoop separators false (n + 1) (piece ++ sep :: rest) =
      piece :: splitLoop separators false n (rest.dropWhile (· ∈ separators)) := by
  have hall : ∀ c ∈ piece, decide (c ∉ separators) = true := by
    intro c hc
    simpa using hpiece c hc
  have htake : (piece ++ sep :: rest).takeWhile (· ∉ separators) = piece := by
    rw [takeWhile_append_of_pos hall]
    simp [hsep]
  have hdrop : (piece ++ sep :: rest).dropWhile (· ∉ separators) = sep :: rest := by
    rw [dropWhile_append_of_pos hall]
    simp [hsep]
  have hnil : piece ++ sep :: rest ≠ [] := by simp
  rw [splitLoop_succ hnil, htake, hdrop]
  simp [hsep]

theorem splitLoop_last {piece : List Char} (hne : piece ≠ [])
    (hpiece : ∀ c ∈ piece, c ∉ separators) (n : ℕ) :
    splitLoop separators false (n + 1) piece = [piece] := by
  have hall : ∀ c ∈ piece, decide (c ∉ separators) = true := by
    intro c hc
    simpa using hpiece c hc
  have htake : piece.takeWhile (· ∉ separators) = piece := List.takeWhile_eq_self_iff.2 hall
  have hdrop : piece.dropWhile (· ∉ separators) = [] := List.dropWhile_eq_nil_iff.2 hall
  rw [splitLoop_succ hne, htake, hdrop]
  cases n <;> rfl

theorem dropWhile_of_head_notMem {t : List Char} (h : ∀ c ∈ t.head?, c ∉ separators) :
    t.dropWhile (· ∈ separators) = t := by
  cases t with
  | nil => rfl
  | cons c cs =>
    have hc : c ∉ separators := h c (by simp)
    simp [hc]

def terminated (sep : Char) (pieces : List (List Char)) (last : List Char) : List Char :=
  pieces.flatMap (· ++ [sep]) ++ last

theorem terminated_cons (sep : Char) (p : List Char) (pieces : List (List Char))
    (last : List Char) :
    terminated sep (p :: pieces) last = p ++ sep :: terminated sep pieces last := by
  simp [terminated]

theorem terminated_head {sep : Char} {pieces : List (List Char)} {last : List Char}
    (hpieces : ∀ p ∈ pieces, p ≠ [] ∧ ∀ c ∈ p, c ∉ separators)
    (hlast : ∀ c ∈ last, c ∉ separators) :
    ∀ c ∈ (terminated sep pieces last).head?, c ∉ separators := by
  cases pieces with
  | nil => exact fun c hc => hlast c (mem_of_mem_head? hc)
  | cons p pieces =>
    obtain ⟨hne, hchars⟩ := hpieces p mem_cons_self
    obtain ⟨d, ds, rfl⟩ := exists_cons_of_ne_nil hne
    intro c hc
    obtain rfl : d = c := by simpa [terminated] using hc
    exact hchars d mem_cons_self

theorem splitLoop_terminated {sep : Char} {pieces : List (List Char)} {last : List Char}
    (hpieces : ∀ p ∈ pieces, p ≠ [] ∧ ∀ c ∈ p, c ∉ separators)
    (hlast : ∀ c ∈ last, c ∉ separators) (hsep : sep ∈ separators) {n : ℕ}
    (hn : pieces.length < n) :
    splitLoop separators false n (terminated sep pieces last) =
      pieces ++ if last = [] then [] else [last] := by
  induction pieces generalizing n with
  | nil =>
    obtain ⟨m, rfl⟩ := Nat.exists_eq_succ_of_ne_zero (by omega : n ≠ 0)
    rcases eq_or_ne last [] with rfl | hne
    · simp [terminated, splitLoop]
    · rw [if_neg hne]
      exact splitLoop_last hne hlast m
  | cons p pieces ih =>
    obtain ⟨m, rfl⟩ := Nat.exists_eq_succ_of_ne_zero (by omega : n ≠ 0)
    have hrest : ∀ q ∈ pieces, q ≠ [] ∧ ∀ c ∈ q, c ∉ separators :=
      fun q hq => hpieces q (mem_cons_of_mem p hq)
    rw [length_cons] at hn
    rw [terminated_cons, splitLoop_cons (hpieces p mem_cons_self).2 hsep,
      dropWhile_of_head_notMem (terminated_head hrest hlast), ih hrest (by omega),
      cons_append]

theorem splitOnSeparators_terminated {sep : Char} {pieces : List (List Char)} {last : List Char}
    (hpieces : ∀ p ∈ pieces, p ≠ [] ∧ ∀ c ∈ p, c ∉ separators)
    (hlast : ∀ c ∈ last, c ∉ separators) (hsep : sep ∈ separators) :
    splitOnSeparators (terminated sep pieces last) separators (-1) false =
      pieces ++ if last = [] then [] else [last] := by
  have hcount : pieces.length ≤ (terminated sep pieces last).countP (· ∈ separators) := by
    clear hpieces hlast
    induction pieces with
    | nil => simp
    | cons p pieces ih =>
      rw [terminated_cons, countP_append, countP_cons_of_pos (by simpa using hsep),
        length_cons]
      omega
  rw [splitOnSeparators, if_pos (by decide), dropWhile_of_head_notMem (terminated_head hpieces hlast)]
  exact splitLoop_terminated hpieces hlast hsep (by omega)

theorem mem_splitLoop {n : ℕ} {start p : List Char} (hstart : ∀ c ∈ start.head?, c ∉ separators)
    (hp : p ∈ splitLoop separators false n start) :
    p ≠ [] ∧ ∀ c ∈ p, c ∈ start ∧ c ∉ separators := by
  induction n generalizing start with
  | zero => simp [splitLoop] at hp
  | succ n ih =>
    rcases eq_or_ne start [] with rfl | hne
    · simp [splitLoop] at hp
    · rw [splitLoop_succ hne] at hp
      rcases List.mem_cons.1 hp with rfl | hp
      · obtain ⟨c, cs, rfl⟩ := exists_cons_of_ne_nil hne
        have hc : c ∉ separators := hstart c (by simp)
        refine ⟨by simp [hc], fun d hd => ⟨takeWhile_subset _ hd, ?_⟩⟩
        simpa using mem_takeWhile_imp hd
      · have hhead : ∀ c ∈ ((start.dropWhile (· ∉ separators)).dropWhile
            (· ∈ separators)).head?, c ∉ separators := by
          intro c hc
          have hnot := head?_dropWhile_not (fun c => decide (c ∈ separators))
            (start.dropWhile (· ∉ separators))
          rw [Option.mem_def.1 hc] at hnot
          simpa using hnot
        obtain ⟨hne', hchars⟩ := ih hhead hp
        refine ⟨hne', fun c hc => ⟨?_, (hchars c hc).2⟩⟩
        exact dropWhile_subset _ (dropWhile_subset _ (hchars c hc).1)

theorem length_flatten_splitLoop_le (n : ℕ) (start : List Char) :
    (splitLoop separators false n start).flatten.length ≤ start.countP (· ∉ separators) := by
  induction n generalizing start with
  | zero => simp [splitLoop]
  | succ n ih =>
    rcases eq_or_ne start [] with rfl | hne
    · simp [splitLoop]
    · have hcount : start.countP (· ∉ separators) =
          (start.takeWhile (· ∉ separators)).length +
            (start.dropWhile (· ∉ separators)).countP (· ∉ separators) := by
        conv_lhs => rw [← takeWhile_append_dropWhile (p := (· ∉ separators)) (l := start)]
        have hall : ∀ c ∈ start.takeWhile (· ∉ separators), decide (c ∉ separators) = true :=
          fun c hc => mem_takeWhile_imp (p := fun c => decide (c ∉ separators)) hc
        rw [countP_append, List.countP_eq_length.2 hall]
      have hrest : ((start.dropWhile (· ∉ separators)).dropWhile (· ∈ separators)).countP
          (· ∉ separators) ≤ (start.dropWhile (· ∉ separators)).countP (· ∉ separators) :=
        (dropWhile_sublist _).countP_le
      rw [splitLoop_succ hne, flatten_cons, length_append, hcount]
      exact Nat.add_le_add_left ((ih _).trans hrest) _

theorem length_flatten_add_splitLoop_le (n : ℕ) (start : List Char) :
    (splitLoop separators false n start).flatten.length +
      (splitLoop separators false n start).length ≤ start.length + 1 := by
  induction n generalizing start with
  | zero => simp [splitLoop]
  | succ n ih =>
    rcases eq_or_ne start [] with rfl | hne
    · simp [splitLoop]
    · have hlength : start.length = (start.takeWhile (· ∉ separators)).length +
          (start.dropWhile (· ∉ separators)).length := by
        rw [← length_append, takeWhile_append_dropWhile]
      have hrest := ih ((start.dropWhile (· ∉ separators)).dropWhile (· ∈ separators))
      rw [splitLoop_succ hne, flatten_cons, length_append, length_cons, hlength]
      cases hdrop : start.dropWhile (· ∉ separators) with
      | nil =>
        rw [dropWhile_nil]
        have hnil : splitLoop separators false n [] = [] := by cases n <;> rfl
        simp [hnil]
      | cons c cs =>
        have hc : c ∈ separators := by
          have hnot := head?_dropWhile_not (fun c => decide (c ∉ separators)) start
          rw [hdrop] at hnot
          simpa using hnot
        rw [hdrop, dropWhile_cons_of_pos (by simpa using hc)] at hrest
        rw [dropWhile_cons_of_pos (by simpa using hc), length_cons]
        have hle := (dropWhile_sublist (l := cs) fun c => decide (c ∈ separators)).length_le
        omega

def spaced (ps : List (List Char × List Char)) : List Char := ps.flatMap fun p => p.1 ++ p.2

structure Spaced (separators : List Char) (ps : List (List Char × List Char)) : Prop where
  pieces : ∀ p ∈ ps, p.1 ≠ [] ∧ ∀ c ∈ p.1, c ∉ separators
  runs : ∀ p ∈ ps, ∀ c ∈ p.2, c ∈ separators
  apart : ∀ p ∈ ps.dropLast, p.2 ≠ []

theorem Spaced.tail {p : List Char × List Char} {ps : List (List Char × List Char)}
    (h : Spaced separators (p :: ps)) : Spaced separators ps where
  pieces := fun q hq => h.pieces q (mem_cons_of_mem p hq)
  runs := fun q hq => h.runs q (mem_cons_of_mem p hq)
  apart := fun q hq => h.apart q (by
    have hne : ps ≠ [] := ne_nil_of_mem (dropLast_subset ps hq)
    rw [dropLast_cons_of_ne_nil hne]
    exact mem_cons_of_mem p hq)

theorem Spaced.head {ps : List (List Char × List Char)} (h : Spaced separators ps) :
    ∀ c ∈ (spaced ps).head?, c ∉ separators := by
  cases ps with
  | nil => simp [spaced]
  | cons p ps =>
    obtain ⟨hne, hchars⟩ := h.pieces p mem_cons_self
    obtain ⟨d, ds, hp⟩ := exists_cons_of_ne_nil hne
    intro c hc
    obtain rfl : d = c := by simpa [spaced, hp] using hc
    exact hchars d (by simp [hp])

/-- Spaced pieces are split as they were put together. -/
theorem Spaced.splitLoop {ps : List (List Char × List Char)} (h : Spaced separators ps) {n : ℕ}
    (hn : ps.length ≤ n) : splitLoop separators false n (spaced ps) = ps.map Prod.fst := by
  induction ps generalizing n with
  | nil => cases n <;> rfl
  | cons p ps ih =>
    obtain ⟨m, rfl⟩ := Nat.exists_eq_succ_of_ne_zero (Nat.ne_zero_of_lt hn)
    obtain ⟨hne, hchars⟩ := h.pieces p mem_cons_self
    have hall : ∀ c ∈ p.1, decide (c ∉ separators) = true := fun c hc => by
      simpa using hchars c hc
    -- behind the piece stands a separator, or nothing at all
    have hstop : ∀ c ∈ (p.2 ++ spaced ps).head?, c ∈ separators := by
      cases hrun : p.2 with
      | cons d ds =>
        intro c hc
        obtain rfl : d = c := by simpa using hc
        exact h.runs p mem_cons_self d (by simp [hrun])
      | nil =>
        cases ps with
        | nil => simp [spaced]
        | cons q qs => exact absurd hrun (h.apart p (by simp))
    have htake : (p.1 ++ (p.2 ++ spaced ps)).takeWhile (· ∉ separators) = p.1 ∧
        (p.1 ++ (p.2 ++ spaced ps)).dropWhile (· ∉ separators) = p.2 ++ spaced ps := by
      rw [takeWhile_append_of_pos hall, dropWhile_append_of_pos hall]
      cases hrest : p.2 ++ spaced ps with
      | nil => simp
      | cons c cs =>
        have hc : c ∈ separators := hstop c (by simp [hrest])
        simp [hc]
    have hrun : (p.2 ++ spaced ps).dropWhile (· ∈ separators) = spaced ps := by
      rw [dropWhile_append_of_pos fun c hc => by
        simpa using h.runs p mem_cons_self c hc]
      exact dropWhile_of_head_notMem h.tail.head
    have hspaced : spaced (p :: ps) = p.1 ++ (p.2 ++ spaced ps) := by simp [spaced]
    rw [hspaced, splitLoop_succ (by simp [hne]), htake.1, htake.2, hrun,
      ih h.tail (Nat.succ_le_succ_iff.1 hn), map_cons]

theorem Spaced.splitOnSeparators {ps : List (List Char × List Char)} (h : Spaced separators ps)
    {lead : List Char} (hlead : ∀ c ∈ lead, c ∈ separators) :
    splitOnSeparators (lead ++ spaced ps) separators (-1) false = ps.map Prod.fst := by
  have hcount : ps.length ≤ (spaced ps).countP (· ∈ separators) + 1 := by
    clear hlead
    induction ps with
    | nil => simp
    | cons p ps ih =>
      have hrest := ih h.tail
      cases ps with
      | nil => simp
      | cons q qs =>
        obtain ⟨c, cs, hrun⟩ := exists_cons_of_ne_nil (h.apart p (by simp))
        have hc : c ∈ separators := h.runs p mem_cons_self c (by simp [hrun])
        have hspaced : spaced (p :: q :: qs) = p.1 ++ (p.2 ++ spaced (q :: qs)) := by
          simp [spaced]
        rw [hspaced, countP_append, countP_append, hrun,
          countP_cons_of_pos (by simpa using hc)]
        simp only [length_cons] at hrest ⊢
        omega
  have hdrop : (lead ++ spaced ps).dropWhile (· ∈ separators) = spaced ps := by
    rw [dropWhile_append_of_pos fun c hc => by simpa using hlead c hc]
    exact dropWhile_of_head_notMem h.head
  rw [Timerange.splitOnSeparators, if_pos (by decide), hdrop]
  refine h.splitLoop (hcount.trans ?_)
  rw [countP_append]
  omega

end Split

/-! ## Putting together -/

section Join

variable {sep : Char}

theorem not_mem_singleton_of_not_mem {p : List Char} (h : sep ∉ p) : ∀ c ∈ p, c ∉ [sep] := by
  intro c hc heq
  exact h (List.mem_singleton.1 heq ▸ hc)

theorem intercalate_cons_cons (sep : Char) (p q : List Char) (rest : List (List Char)) :
    [sep].intercalate (p :: q :: rest) = p ++ sep :: [sep].intercalate (q :: rest) := by
  simp [List.intercalate]

theorem intercalate_singleton (sep : Char) (p : List Char) : [sep].intercalate [p] = p := by
  simp [List.intercalate]

theorem dropWhile_of_head {t : List Char} (h : ∀ c ∈ t.head?, c ≠ sep) :
    t.dropWhile (· ∈ [sep]) = t := by
  cases t with
  | nil => rfl
  | cons c cs =>
    have hc : c ≠ sep := h c (by simp)
    simp [hc]

theorem intercalate_head {pieces : List (List Char)} (hpieces : ∀ p ∈ pieces, p ≠ [] ∧ sep ∉ p) :
    ∀ c ∈ ([sep].intercalate pieces).head?, c ≠ sep := by
  match pieces with
  | [] => simp [List.intercalate]
  | p :: rest =>
    obtain ⟨hne, hsep⟩ := hpieces p (by simp)
    obtain ⟨c, cs, rfl⟩ := exists_cons_of_ne_nil hne
    have hc : c ≠ sep := fun heq => hsep (heq ▸ mem_cons_self)
    cases rest <;> simp [List.intercalate, hc]

theorem intercalate_start {pieces : List (List Char)} (hpieces : ∀ p ∈ pieces, p ≠ [] ∧ sep ∉ p) :
    ([sep].intercalate pieces).dropWhile (· ∈ [sep]) = [sep].intercalate pieces :=
  dropWhile_of_head (intercalate_head hpieces)

theorem splitLoop_intercalate {pieces : List (List Char)}
    (hpieces : ∀ p ∈ pieces, p ≠ [] ∧ sep ∉ p) (n : ℕ) :
    splitLoop [sep] false n ([sep].intercalate pieces) = pieces.take n := by
  induction n generalizing pieces with
  | zero => simp [splitLoop]
  | succ n ih =>
    match pieces with
    | [] => simp [splitLoop, List.intercalate]
    | [p] =>
      obtain ⟨hne, hsep⟩ := hpieces p (by simp)
      rw [intercalate_singleton, splitLoop_last hne (not_mem_singleton_of_not_mem hsep)]
      simp
    | p :: q :: rest =>
      obtain ⟨-, hsep⟩ := hpieces p (by simp)
      have hrest : ∀ r ∈ q :: rest, r ≠ [] ∧ sep ∉ r := fun r hr =>
        hpieces r (mem_cons_of_mem p hr)
      rw [intercalate_cons_cons, splitLoop_cons (not_mem_singleton_of_not_mem hsep)
        mem_cons_self, intercalate_start hrest, ih hrest, take_succ_cons]

theorem length_le_countP_intercalate (sep : Char) (pieces : List (List Char)) :
    pieces.length ≤ ([sep].intercalate pieces).countP (· ∈ [sep]) + 1 := by
  match pieces with
  | [] => simp
  | [p] => simp
  | p :: q :: rest =>
    have ih := length_le_countP_intercalate sep (q :: rest)
    rw [intercalate_cons_cons, countP_append, countP_cons_of_pos (by simp)]
    simp only [length_cons] at ih ⊢
    omega

theorem splitOnSeparators_intercalate {pieces : List (List Char)}
    (hpieces : ∀ p ∈ pieces, p ≠ [] ∧ sep ∉ p) :
    splitOnSeparators ([sep].intercalate pieces) [sep] (-1) false = pieces := by
  have hlength := length_le_countP_intercalate sep pieces
  simp only [splitOnSeparators]
  rw [if_pos (by decide), intercalate_start hpieces, splitLoop_intercalate hpieces]
  exact take_of_length_le hlength

theorem splitOnSeparators_pair {p q : List Char} (hp : p ≠ [] ∧ sep ∉ p) (hq : q ≠ [] ∧ sep ∉ q) :
    splitOnSeparators (p ++ sep :: q) [sep] 2 false = [p, q] := by
  have hpieces : ∀ r ∈ [p, q], r ≠ [] ∧ sep ∉ r := by simp [hp, hq]
  have hjoin : p ++ sep :: q = [sep].intercalate [p, q] := by
    rw [intercalate_cons_cons, intercalate_singleton]
  simp only [splitOnSeparators]
  rw [if_neg (by decide), hjoin, intercalate_start hpieces, splitLoop_intercalate hpieces]
  rfl

theorem prefix_append_cases {t a b : List Char} (h : t <+: a ++ b) :
    t <+: a ∨ ∃ c, t = a ++ c ∧ c <+: b := by
  rcases prefix_or_prefix_of_prefix h (prefix_append a b) with hleft | ⟨c, rfl⟩
  · exact .inl hleft
  · exact .inr ⟨c, rfl, (prefix_append_right_inj a).1 h⟩

theorem prefix_start {pieces : List (List Char)} (hpieces : ∀ p ∈ pieces, p ≠ [] ∧ sep ∉ p)
    {t : List Char} (ht : t <+: [sep].intercalate pieces) : t.dropWhile (· ∈ [sep]) = t := by
  refine dropWhile_of_head fun c hc => intercalate_head hpieces c ?_
  obtain ⟨rest, hrest⟩ := ht
  rw [← hrest, head?_append_of_ne_nil _ (by rintro rfl; simp at hc)]
  exact hc

theorem prefix_of_mem_splitLoop {pieces : List (List Char)}
    (hpieces : ∀ p ∈ pieces, p ≠ [] ∧ sep ∉ p) {t : List Char}
    (ht : t <+: [sep].intercalate pieces) {n : ℕ} {q : List Char}
    (hq : q ∈ splitLoop [sep] false n t) : ∃ p ∈ pieces, q <+: p := by
  have hwhole : ∀ p, p ≠ [] ∧ sep ∉ p → ∀ t', t' <+: p → ∀ m, q ∈ splitLoop [sep] false m t' →
      q <+: p := by
    intro p hp t' ht' m hmem
    cases m with
    | zero => simp [splitLoop] at hmem
    | succ m =>
      rcases eq_or_ne t' [] with rfl | hne
      · simp [splitLoop] at hmem
      · have hsep : sep ∉ t' := fun hc => hp.2 (ht'.subset hc)
        rw [splitLoop_last hne (not_mem_singleton_of_not_mem hsep), mem_singleton] at hmem
        exact hmem ▸ ht'
  induction n generalizing pieces t with
  | zero => simp [splitLoop] at hq
  | succ n ih =>
    match pieces with
    | [] =>
      obtain rfl : t = [] := by simpa [List.intercalate] using ht
      simp [splitLoop] at hq
    | [p] =>
      rw [intercalate_singleton] at ht
      exact ⟨p, by simp, hwhole p (hpieces p (by simp)) t ht _ hq⟩
    | p :: p' :: rest =>
      obtain ⟨-, hsep⟩ := hpieces p (by simp)
      have hrest : ∀ r ∈ p' :: rest, r ≠ [] ∧ sep ∉ r := fun r hr =>
        hpieces r (mem_cons_of_mem p hr)
      rw [intercalate_cons_cons] at ht
      rcases prefix_append_cases ht with hleft | ⟨c, rfl, hc⟩
      · exact ⟨p, by simp, hwhole p (hpieces p (by simp)) t hleft _ hq⟩
      · rcases List.prefix_cons_iff.1 hc with rfl | ⟨d, rfl, hd⟩
        · rw [List.append_nil] at hq
          exact ⟨p, by simp, hwhole p (hpieces p (by simp)) p (prefix_refl p) _ hq⟩
        · rw [splitLoop_cons (not_mem_singleton_of_not_mem hsep) mem_cons_self,
            prefix_start hrest hd] at hq
          rcases List.mem_cons.1 hq with rfl | hq
          · exact ⟨q, by simp, prefix_refl q⟩
          · obtain ⟨r, hr, hprefix⟩ := ih hrest hd hq
            exact ⟨r, mem_cons_of_mem p hr, hprefix⟩

theorem prefix_of_mem_splitOnSeparators {pieces : List (List Char)}
    (hpieces : ∀ p ∈ pieces, p ≠ [] ∧ sep ∉ p) {t : List Char}
    (ht : t <+: [sep].intercalate pieces) {n : ℤ} {q : List Char}
    (hq : q ∈ splitOnSeparators t [sep] n false) : ∃ p ∈ pieces, q <+: p := by
  rw [splitOnSeparators, prefix_start hpieces ht] at hq
  exact prefix_of_mem_splitLoop hpieces ht hq

end Join

/-! ## Blanks -/

structure Tight (str : List Char) : Prop where
  ne_nil : str ≠ []
  head : str.head ne_nil ∉ whitespace
  last : str.getLast ne_nil ∉ whitespace

theorem Tight.append {s t : List Char} (hs : Tight s) (ht : Tight t) (mid : List Char) :
    Tight (s ++ (mid ++ t)) where
  ne_nil := by simp [hs.ne_nil]
  head := by
    rw [head_append_of_ne_nil hs.ne_nil]
    exact hs.head
  last := by
    rw [getLast_append_of_ne_nil _ (by simp [ht.ne_nil]),
      getLast_append_of_ne_nil _ ht.ne_nil]
    exact ht.last

theorem trimFlankingWhitespace_eq {pre str post : List Char} (hpre : ∀ c ∈ pre, c ∈ whitespace)
    (hstr : Tight str) (hpost : ∀ c ∈ post, c ∈ whitespace) :
    trimFlankingWhitespace (pre ++ (str ++ post)) = str := by
  have hpre' : ∀ c ∈ pre, decide (c ∈ whitespace) = true := fun c hc => by simpa using hpre c hc
  have hpost' : ∀ c ∈ post.reverse, decide (c ∈ whitespace) = true := fun c hc => by
    simpa using hpost c (by simpa using hc)
  have hhead : (str ++ post).dropWhile (· ∈ whitespace) = str ++ post := by
    obtain ⟨c, cs, rfl⟩ := exists_cons_of_ne_nil hstr.ne_nil
    have hc := hstr.head
    simp only [head_cons] at hc
    simp [hc]
  have hlast : str.reverse.dropWhile (· ∈ whitespace) = str.reverse := by
    have hne : str.reverse ≠ [] := by simp [hstr.ne_nil]
    have hc := hstr.last
    rw [← head_reverse hne] at hc
    obtain ⟨c, cs, hrev⟩ := exists_cons_of_ne_nil hne
    simp only [hrev, head_cons] at hc ⊢
    simp [hc]
  rw [trimFlankingWhitespace, dropWhile_append_of_pos hpre', hhead, List.rdropWhile,
    reverse_append, dropWhile_append_of_pos hpost', hlast, reverse_reverse]

end Timerange

end Gargoyle
