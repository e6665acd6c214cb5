import Gargoyle.Data.CInt
import Gargoyle.Data.MemoryBlock
import Gargoyle.Data.Runs
import Mathlib.Data.List.DropRight

/-!
# Splitting a text

`split_on_separators` takes a line apart at the separators. The pieces are strings of their own, and
their addresses stand in an array that ends with `NULL`. A line is given without the zero at its end; a
function is `none` if it reads behind that zero or writes outside of the memory that was allocated, or
if a number of the type `int` overflows.
-/

namespace Gargoyle

open List

namespace EricsTools

open CInt
open MemoryBlock (alloc)
open Runs

/-- A `char*` to a string in memory of its own, or `NULL`. -/
abbrev CharPointer := Option (MemoryBlock UInt8)

section Model

variable (separators : List UInt8)

def nextNonSeparator : List UInt8 → List UInt8
  | [] => []
  | c :: start => if c ∈ separators then nextNonSeparator start else c :: start

def firstSeparatorIndex : List UInt8 → Option ℕ
  | [] => if separators = [] then none else some 0
  | c :: start => if c ∈ separators then some 0 else (firstSeparatorIndex start).map (· + 1)

def nextPiece (maxPieces includeRemainderAtMax : ℤ) (splitIndex firstSeparatorIndex : ℕ)
    (start : List UInt8) : Option (MemoryBlock UInt8) :=
  if splitIndex + 1 < maxPieces ∨ includeRemainderAtMax ≤ 0 then
    ((alloc (firstSeparatorIndex + 1)).writeAll 0 (start.take firstSeparatorIndex)).bind
      fun nextPiece => nextPiece.write firstSeparatorIndex 0
  else (alloc (start.length + 1)).strcpy 0 start

theorem length_nextNonSeparator_le (start : List UInt8) :
    (nextNonSeparator separators start).length ≤ start.length := by
  induction start with
  | nil => exact le_rfl
  | cons c start ih =>
    rw [nextNonSeparator]
    split_ifs
    · exact ih.trans (Nat.le_succ _)
    · exact le_rfl

theorem length_next_lt {start : List UInt8} {n : ℕ} (hstart : start ≠ [])
    (hn : firstSeparatorIndex separators start = some n) :
    (nextNonSeparator separators (start.drop n)).length < start.length := by
  obtain ⟨c, start, rfl⟩ := exists_cons_of_ne_nil hstart
  cases n with
  | zero =>
    have hc : c ∈ separators := by
      by_contra hc
      rw [firstSeparatorIndex, if_neg hc, Option.map_eq_some_iff] at hn
      obtain ⟨m, -, hm⟩ := hn
      exact Nat.succ_ne_zero m hm
    rw [drop_zero, nextNonSeparator, if_pos hc, length_cons]
    exact Nat.lt_succ_of_le (length_nextNonSeparator_le separators start)
  | succ n =>
    have hle := length_nextNonSeparator_le separators ((c :: start).drop (n + 1))
    rw [length_drop, length_cons] at hle
    rw [length_cons]
    omega

def splitLoop (maxPieces includeRemainderAtMax : ℤ) (start : List UInt8) (splitIndex : ℕ)
    (split : MemoryBlock CharPointer) : Option (ℕ × MemoryBlock CharPointer) :=
  if _hstart : start = [] then some (splitIndex, split)
  else if splitIndex < maxPieces then
    match hn : firstSeparatorIndex separators start with
    | none => none
    | some n =>
      let next := nextNonSeparator separators (start.drop n)
      if 0 < n then
        (nextPiece maxPieces includeRemainderAtMax splitIndex n start).bind fun piece =>
          (split.write splitIndex (some piece)).bind fun split =>
            (split.write (splitIndex + 1) none).bind fun split =>
              splitLoop maxPieces includeRemainderAtMax next (splitIndex + 1) split
      else splitLoop maxPieces includeRemainderAtMax next splitIndex split
  else some (splitIndex, split)
termination_by start.length
decreasing_by all_goals exact length_next_lt separators _hstart hn

/-- `split_on_separators`, with `num_pieces` and the array, for lines and numbers of pieces that are
numbers of the type `int`. -/
def splitOnSeparators (line : Option (List UInt8)) (maxPieces includeRemainderAtMax : ℤ) :
    Option (ℕ × MemoryBlock CharPointer) :=
  match line with
  | none => ((alloc 1).write 0 none).map (0, ·)
  | some line =>
    let maxPieces : ℤ :=
      if maxPieces < 0 then line.countP (· ∈ separators) + 1 else maxPieces
    ((alloc (1 + maxPieces).toNat).write 0 none).bind fun split =>
      splitLoop separators maxPieces includeRemainderAtMax (nextNonSeparator separators line) 0 split

/-- The pieces that the comment of `split_on_separators` describes. -/
def pieces (line : List UInt8) (maxPieces includeRemainderAtMax : ℤ) : List (List UInt8) :=
  if maxPieces < 0 then runs (· ∈ separators) line
  else firstRuns (· ∈ separators) (0 < includeRemainderAtMax) maxPieces.toNat line

end Model

def stringOf (s : List UInt8) : MemoryBlock UInt8 := (s ++ [0]).map some

section Split

variable {separators : List UInt8}

theorem nextNonSeparator_eq (start : List UInt8) :
    nextNonSeparator separators start = start.dropWhile (· ∈ separators) := by
  induction start with
  | nil => rfl
  | cons c start ih =>
    rw [nextNonSeparator, dropWhile_cons]
    by_cases hc : c ∈ separators
    · rw [if_pos hc, if_pos (decide_eq_true hc), ih]
    · rw [if_neg hc, if_neg (by rwa [decide_eq_true_iff])]

theorem firstSeparatorIndex_eq (hsep : separators ≠ []) (start : List UInt8) :
    firstSeparatorIndex separators start =
      some (start.takeWhile fun c => !decide (c ∈ separators)).length := by
  induction start with
  | nil => rw [firstSeparatorIndex, if_neg hsep, takeWhile_nil, length_nil]
  | cons c start ih =>
    rw [firstSeparatorIndex, takeWhile_cons]
    by_cases hc : c ∈ separators
    · rw [if_pos hc, if_neg (by simpa using hc), length_nil]
    · rw [if_neg hc, if_pos (by simpa using hc), ih, Option.map_some, length_cons]

theorem filled_stringOf (s : List UInt8) :
    MemoryBlock.filled (s.length + 1) (s ++ [0]) = stringOf s := by
  rw [MemoryBlock.filled, length_append, length_singleton, Nat.sub_self,
    replicate_zero, List.append_nil, stringOf]

theorem nextPiece_eq {maxPieces includeRemainderAtMax : ℤ} {splitIndex n : ℕ} {start : List UInt8}
    (hn : n ≤ start.length) :
    nextPiece maxPieces includeRemainderAtMax splitIndex n start =
      some (stringOf (if splitIndex + 1 < maxPieces ∨ includeRemainderAtMax ≤ 0 then start.take n
        else start)) := by
  rw [nextPiece]
  split_ifs with h
  · have hlength : (start.take n).length = n := length_take_of_le hn
    have hcopy := @MemoryBlock.writeAll_filled _ (n + 1) [] (start.take n)
      (by rw [length_nil, hlength]; omega)
    have hzero := @MemoryBlock.write_filled _ (n + 1) (start.take n) (by omega) 0
    rw [length_nil, nil_append] at hcopy
    rw [hlength] at hzero
    rw [← MemoryBlock.filled_nil, hcopy, Option.bind_some, hzero, ← filled_stringOf, hlength]
  · have hcopy := @MemoryBlock.writeAll_filled _ (start.length + 1) [] (start ++ [0])
      (by rw [length_nil, length_append, length_singleton]; omega)
    rw [length_nil, nil_append] at hcopy
    rw [← MemoryBlock.filled_nil, MemoryBlock.strcpy, hcopy, filled_stringOf]

def slots (found : List (List UInt8)) : List CharPointer := found.map (some ∘ stringOf) ++ [none]

theorem slots_append_singleton (found : List (List UInt8)) (piece : List UInt8) :
    slots (found ++ [piece]) = found.map (some ∘ stringOf) ++ [some (stringOf piece)] ++ [none] := by
  rw [slots, map_append]
  rfl

theorem write_slots {split : MemoryBlock CharPointer} {size : ℕ} {found : List (List UInt8)}
    (h : split.Holds size (slots found)) (hsize : found.length + 1 < size) (piece : List UInt8) :
    ∃ split₁ split₂ : MemoryBlock CharPointer,
      split.write found.length (some (stringOf piece)) = some split₁ ∧
        split₁.write (found.length + 1) none = some split₂ ∧
        split₂.Holds size (slots (found ++ [piece])) := by
  have hlength : (found.map (some ∘ stringOf)).length = found.length := length_map _
  obtain ⟨split₁, hwrite₁, hsplit₁⟩ :=
    (h.of_prefix (prefix_append _ _)).write (by omega) (some (stringOf piece))
  obtain ⟨split₂, hwrite₂, hsplit₂⟩ := hsplit₁.write
    (by rw [length_append, length_singleton]; omega) none
  rw [length_append, length_singleton, hlength] at hwrite₂
  rw [hlength] at hwrite₁
  rw [← slots_append_singleton] at hsplit₂
  exact ⟨split₁, split₂, hwrite₁, hwrite₂, hsplit₂⟩

theorem round_eq {start : List UInt8} {n : ℕ}
    (hn : (start.takeWhile fun c => !decide (c ∈ separators)).length = n) :
    start.take n = (start.takeWhile fun c => !decide (c ∈ separators)) ∧
      nextNonSeparator separators (start.drop n) =
        (start.dropWhile fun c => !decide (c ∈ separators)).dropWhile (· ∈ separators) := by
  have hsplit := takeWhile_append_dropWhile
    (p := fun c => !decide (c ∈ separators)) (l := start)
  have htake := @List.take_left _ (start.takeWhile fun c => !decide (c ∈ separators))
    (start.dropWhile fun c => !decide (c ∈ separators))
  have hdrop := @List.drop_left _ (start.takeWhile fun c => !decide (c ∈ separators))
    (start.dropWhile fun c => !decide (c ∈ separators))
  rw [hsplit, hn] at htake hdrop
  rw [nextNonSeparator_eq, hdrop]
  exact ⟨htake, rfl⟩

/-- The loop adds the runs of what is left of the line, as far as there are slots for them. -/
theorem splitLoop_holds (hsep : separators ≠ []) {size room : ℕ} (includeRemainderAtMax : ℤ)
    {start : List UInt8} {found added : List (List UInt8)} {split : MemoryBlock CharPointer}
    (hstart : start.dropWhile (· ∈ separators) = start)
    (h : split.Holds room (slots found)) (hroom : (found ++ added).length < room)
    (hadded : firstRuns (· ∈ separators) (0 < includeRemainderAtMax) (size - found.length) start =
      added) :
    ∃ split' : MemoryBlock CharPointer,
      splitLoop separators size includeRemainderAtMax start found.length split =
        some ((found ++ added).length, split') ∧
      split'.Holds room (slots (found ++ added)) := by
  induction hlength : start.length using Nat.strongRecOn generalizing start found split added with
  | _ length ih =>
    subst hlength hadded
    by_cases hnil : start = []
    · subst hnil
      refine ⟨split, ?_, ?_⟩
      · rw [splitLoop, dif_pos rfl, firstRuns_nil, List.append_nil]
      · rwa [firstRuns_nil, List.append_nil]
    by_cases hmore : found.length < size
    · obtain ⟨k, hk⟩ : ∃ k, size - found.length = k + 1 := ⟨size - found.length - 1, by omega⟩
      obtain ⟨n, hn⟩ : ∃ n, (start.takeWhile fun c => !decide (c ∈ separators)).length = n :=
        ⟨_, rfl⟩
      obtain ⟨piece, hpiece⟩ : ∃ piece, (if k = 0 ∧ 0 < includeRemainderAtMax then start
        else start.takeWhile fun c => !decide (c ∈ separators)) = piece := ⟨_, rfl⟩
      obtain ⟨htake, hnext⟩ := round_eq hn
      have hfirst : firstSeparatorIndex separators start = some n := by
        rw [firstSeparatorIndex_eq hsep, hn]
      have hshorter := length_next_lt separators hnil hfirst
      obtain ⟨c, rest, rfl⟩ := exists_cons_of_ne_nil hnil
      have hc : decide (c ∈ separators) = false := by
        by_contra hc
        rw [Bool.not_eq_false] at hc
        have hlength := congrArg List.length hstart
        have hle := (dropWhile_sublist (l := rest) (· ∈ separators)).length_le
        rw [dropWhile_cons, if_pos hc, length_cons] at hlength
        omega
      have hruns := @firstRuns_cons_run _ (· ∈ separators) c (decide (0 < includeRemainderAtMax)) hc k rest
      simp only [decide_eq_true_iff] at hruns
      rw [hpiece, ← firstRuns_dropWhile k, ← hnext] at hruns
      rw [hk, hruns, append_cons] at hroom
      have hplace : found.length + 1 < room := by
        rw [length_append, length_append, length_singleton] at hroom
        omega
      obtain ⟨split₁, split₂, hwrite₁, hwrite₂, hsplit₂⟩ := write_slots h hplace piece
      have hpos : 0 < n := by
        rw [← hn, takeWhile_cons_of_pos (by rw [hc]; rfl)]
        exact Nat.succ_pos _
      have hcopy := @nextPiece_eq size includeRemainderAtMax found.length n (c :: rest)
        (by rw [← hn]; exact (takeWhile_sublist _).length_le)
      have hwhole : (if (found.length : ℤ) + 1 < size ∨ includeRemainderAtMax ≤ 0 then
          (c :: rest).take n else c :: rest) = piece := by
        rw [← hpiece, htake]
        by_cases hend : k = 0 ∧ 0 < includeRemainderAtMax
        · rw [if_pos hend, if_neg (by omega)]
        · rw [if_neg hend, if_pos (by omega)]
      rw [hwhole] at hcopy
      have hlast : (found ++ [piece]).length = found.length + 1 := by
        rw [length_append, length_singleton]
      have hleft : size - (found.length + 1) = k := by omega
      obtain ⟨split', hloop, hsplit'⟩ := ih _ hshorter
        (by rw [nextNonSeparator_eq, dropWhile_idempotent]) hsplit₂
        (by rwa [hlast, hleft]) rfl rfl
      rw [hlast, hleft, append_assoc, singleton_append, ← hruns] at hloop hsplit'
      refine ⟨split', ?_, ?_⟩
      · rw [splitLoop, dif_neg hnil, if_pos (by omega), hk]
        split
        · rename_i hnone
          rw [hfirst] at hnone
          cases hnone
        · rename_i m hm
          rw [hfirst, Option.some.injEq] at hm
          subst hm
          rw [if_pos hpos, hcopy, Option.bind_some, hwrite₁, Option.bind_some, hwrite₂,
            Option.bind_some, hloop]
      · rwa [hk]
    · have hno : size - found.length = 0 := by omega
      refine ⟨split, ?_, ?_⟩
      · rw [splitLoop, dif_neg hnil, if_neg (by omega), hno, firstRuns_zero, List.append_nil]
      · rwa [hno, firstRuns_zero, List.append_nil]

theorem splitOnSeparators_holds (hsep : separators ≠ []) (line : List UInt8) (size : ℕ) {room : ℕ}
    {includeRemainderAtMax : ℤ}
    (hroom : (firstRuns (· ∈ separators) (0 < includeRemainderAtMax) size line).length < room) :
    ∃ split : MemoryBlock CharPointer,
      (((alloc room).write 0 none).bind fun split => splitLoop separators size
        includeRemainderAtMax (nextNonSeparator separators line) 0 split) =
        some ((firstRuns (· ∈ separators) (0 < includeRemainderAtMax) size line).length, split) ∧
      split.Holds room
        (slots (firstRuns (· ∈ separators) (0 < includeRemainderAtMax) size line)) := by
  obtain ⟨split, hwrite, hsplit⟩ :=
    (MemoryBlock.holds_alloc room).write (by rw [length_nil]; omega) (none : CharPointer)
  obtain ⟨split', hloop, hsplit'⟩ := @splitLoop_holds separators hsep size room
    includeRemainderAtMax (line.dropWhile (· ∈ separators)) [] _ split (dropWhile_idempotent _ _)
    hsplit (by rwa [length_nil, Nat.sub_zero, nil_append, firstRuns_dropWhile]) rfl
  rw [length_nil, Nat.sub_zero, nil_append, firstRuns_dropWhile] at hloop
  rw [length_nil, Nat.sub_zero, nil_append, firstRuns_dropWhile] at hsplit'
  rw [length_nil] at hwrite
  refine ⟨split', ?_, hsplit'⟩
  rw [hwrite, Option.bind_some, nextNonSeparator_eq, hloop]

theorem splitOnSeparators_neg (hsep : separators ≠ []) (line : List UInt8) {maxPieces : ℤ}
    (hmax : maxPieces < 0) (includeRemainderAtMax : ℤ) :
    ∃ split : MemoryBlock CharPointer,
      splitOnSeparators separators (some line) maxPieces includeRemainderAtMax =
        some ((runs (· ∈ separators) line).length, split) ∧
      split.Holds (1 + (line.countP (· ∈ separators) + 1))
        (slots (runs (· ∈ separators) line)) := by
  have hholds := @splitOnSeparators_holds separators hsep line (line.countP (· ∈ separators) + 1) _
    includeRemainderAtMax (Nat.lt_one_add_iff.2 (length_firstRuns_le _ _ _))
  have hsize : (1 + (((line.countP (· ∈ separators) : ℕ) : ℤ) + 1)).toNat =
      1 + (line.countP (· ∈ separators) + 1) := by omega
  rw [firstRuns_of_countP_lt (Nat.lt_succ_self _)] at hholds
  rw [splitOnSeparators, if_pos hmax, hsize]
  exact hholds

end Split

/-! ## Numbers of the type int -/

section IntModel

variable (separators : List UInt8)

/-- The loop with the index of the first separator as an `int`, and one more where a piece is copied
alone. -/
def splitLoopInt (maxPieces includeRemainderAtMax : ℤ) (start : List UInt8) (splitIndex : ℕ)
    (split : MemoryBlock CharPointer) : Option (ℕ × MemoryBlock CharPointer) :=
  if _hstart : start = [] then some (splitIndex, split)
  else if splitIndex < maxPieces then
    match hn : firstSeparatorIndex separators start with
    | none => none
    | some n =>
      let next := nextNonSeparator separators (start.drop n)
      (int (if splitIndex + 1 < maxPieces ∨ includeRemainderAtMax ≤ 0 then n + 1 else n)).bind
        fun _ =>
          if 0 < n then
            (nextPiece maxPieces includeRemainderAtMax splitIndex n start).bind fun piece =>
              (split.write splitIndex (some piece)).bind fun split =>
                (split.write (splitIndex + 1) none).bind fun split =>
                  splitLoopInt maxPieces includeRemainderAtMax next (splitIndex + 1) split
          else splitLoopInt maxPieces includeRemainderAtMax next splitIndex split
  else some (splitIndex, split)
termination_by start.length
decreasing_by all_goals exact length_next_lt separators _hstart hn

def boundOf (line : List UInt8) (maxPieces : ℤ) : Option ℤ :=
  if maxPieces < 0 then
    (int line.length).bind fun _ => int (line.countP (· ∈ separators) + 1)
  else some maxPieces

/-- `split_on_separators`, with the numbers as it computes them. -/
def splitOnSeparatorsInt (address : AddressSize) (line : Option (List UInt8))
    (maxPieces includeRemainderAtMax : ℤ) : Option (ℕ × MemoryBlock CharPointer) :=
  match line with
  | none => ((alloc 1).write 0 none).map (0, ·)
  | some line =>
    (boundOf separators line maxPieces).bind fun maxPieces =>
      (int (1 + maxPieces)).bind fun number =>
        ((alloc (slotsAllocated address number.toNat)).write 0 none).bind fun split =>
          splitLoopInt separators maxPieces includeRemainderAtMax
            (nextNonSeparator separators line) 0 split

def maxNumber (line : List UInt8) (maxPieces : ℤ) : ℕ :=
  if maxPieces < 0 then line.countP (· ∈ separators) + 1 else maxPieces.toNat

/-- Each run that becomes a piece has a length of the type `int`, with its zero if it is copied
alone. -/
def RunsFit (maxPieces includeRemainderAtMax : ℤ) : ℕ → List (List UInt8) → Prop
  | _, [] => True
  | splitIndex, run :: rest =>
    splitIndex < maxPieces →
      run.length + (if splitIndex + 1 < maxPieces ∨ includeRemainderAtMax ≤ 0 then 1 else 0) <
        2 ^ 31 ∧ RunsFit maxPieces includeRemainderAtMax (splitIndex + 1) rest

/-- The numbers are of the type `int`, and the array has slots for the pieces and for `NULL`. -/
structure SplitFits (address : AddressSize) (line : List UInt8)
    (maxPieces includeRemainderAtMax : ℤ) : Prop where
  index : maxPieces < 0 → line.length < 2 ^ 31
  number : 1 + maxNumber separators line maxPieces < 2 ^ 31
  room : (pieces separators line maxPieces includeRemainderAtMax).length <
    slotsAllocated address (1 + maxNumber separators line maxPieces)
  runs : RunsFit (maxNumber separators line maxPieces) includeRemainderAtMax 0
    (runs (· ∈ separators) line)

end IntModel

section Split

variable {separators : List UInt8}

theorem boundOf_eq_some_iff {line : List UInt8} {maxPieces bound : ℤ} :
    boundOf separators line maxPieces = some bound ↔
      (maxPieces < 0 → line.length < 2 ^ 31 ∧ 1 + maxNumber separators line maxPieces ≤ 2 ^ 31) ∧
        bound = maxNumber separators line maxPieces := by
  rw [boundOf, maxNumber]
  split_ifs with hneg
  · simp only [Option.bind_eq_some_iff, int_eq_some_iff, hneg, true_imp_iff]
    constructor
    · rintro ⟨index, ⟨⟨-, hlow⟩, -⟩, ⟨-, hhigh⟩, rfl⟩
      exact ⟨⟨by omega, by omega⟩, by push_cast; rfl⟩
    · rintro ⟨⟨hindex, hcount⟩, rfl⟩
      exact ⟨line.length, ⟨⟨by omega, by omega⟩, rfl⟩, ⟨by omega, by omega⟩, by push_cast; rfl⟩
  · simp only [Option.some_inj, hneg, false_imp_iff, true_and]
    omega

/-- One round: the first run of what is left, and the rest behind it. -/
theorem runs_round (hsep : separators ≠ []) {start : List UInt8} (hnil : start ≠ [])
    (hstart : start.dropWhile (· ∈ separators) = start) :
    ∃ n, firstSeparatorIndex separators start = some n ∧ 0 < n ∧ (start.take n).length = n ∧
      runs (· ∈ separators) start = start.take n ::
        runs (· ∈ separators) (nextNonSeparator separators (start.drop n)) := by
  obtain ⟨c, rest, rfl⟩ := exists_cons_of_ne_nil hnil
  have hc : decide (c ∈ separators) = false := by
    by_contra hc
    rw [Bool.not_eq_false] at hc
    have hlength := congrArg List.length hstart
    have hle := (dropWhile_sublist (l := rest) (· ∈ separators)).length_le
    rw [dropWhile_cons, if_pos hc, length_cons] at hlength
    omega
  obtain ⟨n, hn⟩ : ∃ n, ((c :: rest).takeWhile fun c => !decide (c ∈ separators)).length = n :=
    ⟨_, rfl⟩
  obtain ⟨htake, hnext⟩ := round_eq hn
  refine ⟨n, ?_, ?_, ?_, ?_⟩
  · rw [firstSeparatorIndex_eq hsep, hn]
  · rw [← hn, takeWhile_cons_of_pos (by rw [hc]; rfl)]
    exact Nat.succ_pos _
  · rw [htake, hn]
  · rw [htake, hnext, runs_dropWhile]
    exact @runs_cons_run _ (· ∈ separators) c hc rest

theorem splitLoop_step {maxPieces includeRemainderAtMax : ℤ} {start : List UInt8}
    {splitIndex n : ℕ} (split : MemoryBlock CharPointer) (hnil : start ≠ [])
    (hmore : splitIndex < maxPieces) (hn : firstSeparatorIndex separators start = some n)
    (hpos : 0 < n) :
    splitLoop separators maxPieces includeRemainderAtMax start splitIndex split =
      (nextPiece maxPieces includeRemainderAtMax splitIndex n start).bind fun piece =>
        (split.write splitIndex (some piece)).bind fun split =>
          (split.write (splitIndex + 1) none).bind fun split =>
            splitLoop separators maxPieces includeRemainderAtMax
              (nextNonSeparator separators (start.drop n)) (splitIndex + 1) split := by
  rw [splitLoop, dif_neg hnil, if_pos hmore]
  split
  · rename_i hnone
    rw [hn] at hnone
    cases hnone
  · rename_i m hm
    rw [hn, Option.some.injEq] at hm
    subst hm
    rw [if_pos hpos]

theorem splitLoopInt_step {maxPieces includeRemainderAtMax : ℤ} {start : List UInt8}
    {splitIndex n : ℕ} (split : MemoryBlock CharPointer) (hnil : start ≠ [])
    (hmore : splitIndex < maxPieces) (hn : firstSeparatorIndex separators start = some n)
    (hpos : 0 < n) :
    splitLoopInt separators maxPieces includeRemainderAtMax start splitIndex split =
      (int (if splitIndex + 1 < maxPieces ∨ includeRemainderAtMax ≤ 0 then n + 1 else n)).bind
        fun _ =>
          (nextPiece maxPieces includeRemainderAtMax splitIndex n start).bind fun piece =>
            (split.write splitIndex (some piece)).bind fun split =>
              (split.write (splitIndex + 1) none).bind fun split =>
                splitLoopInt separators maxPieces includeRemainderAtMax
                  (nextNonSeparator separators (start.drop n)) (splitIndex + 1) split := by
  rw [splitLoopInt, dif_neg hnil, if_pos hmore]
  split
  · rename_i hnone
    rw [hn] at hnone
    cases hnone
  · rename_i m hm
    rw [hn, Option.some.injEq] at hm
    subst hm
    simp only [if_pos hpos]

/-- The loop is the one for numbers of any size as long as the runs fit, and stops at the first one
that does not. -/
theorem splitLoopInt_eq_some_iff (hsep : separators ≠ []) {maxPieces includeRemainderAtMax : ℤ}
    {start : List UInt8} {splitIndex : ℕ} {split : MemoryBlock CharPointer}
    {r : ℕ × MemoryBlock CharPointer} (hstart : start.dropWhile (· ∈ separators) = start) :
    splitLoopInt separators maxPieces includeRemainderAtMax start splitIndex split = some r ↔
      RunsFit maxPieces includeRemainderAtMax splitIndex (runs (· ∈ separators) start) ∧
        splitLoop separators maxPieces includeRemainderAtMax start splitIndex split = some r := by
  induction hlength : start.length using Nat.strongRecOn generalizing start splitIndex split with
  | _ length ih =>
    subst hlength
    by_cases hnil : start = []
    · subst hnil
      rw [splitLoopInt, splitLoop, dif_pos rfl, dif_pos rfl, runs_nil, RunsFit, true_and]
    by_cases hmore : splitIndex < maxPieces
    · obtain ⟨n, hn, hpos, hrun, hruns⟩ := runs_round hsep hnil hstart
      rw [splitLoopInt_step split hnil hmore hn hpos, splitLoop_step split hnil hmore hn hpos,
        hruns, RunsFit, hrun, imp_iff_right hmore]
      have hint : (∃ x, int (if splitIndex + 1 < maxPieces ∨ includeRemainderAtMax ≤ 0 then n + 1
          else n) = some x) ↔
          n + (if splitIndex + 1 < maxPieces ∨ includeRemainderAtMax ≤ 0 then 1 else 0) < 2 ^ 31 := by
        simp only [int_eq_some_iff, exists_and_left, exists_eq', and_true]
        split_ifs <;> omega
      have hrest : ∀ split, splitLoopInt separators maxPieces includeRemainderAtMax
          (nextNonSeparator separators (start.drop n)) (splitIndex + 1) split = some r ↔ _ :=
        fun split => ih _ (length_next_lt separators hnil hn)
          (by rw [nextNonSeparator_eq, dropWhile_idempotent]) rfl
      simp only [Option.bind_eq_some_iff, hrest, exists_and_right]
      rw [hint]
      constructor
      · rintro ⟨hlength, piece, hpiece, split₁, hwrite₁, split₂, hwrite₂, hfits, hloop⟩
        exact ⟨⟨hlength, hfits⟩, piece, hpiece, split₁, hwrite₁, split₂, hwrite₂, hloop⟩
      · rintro ⟨⟨hlength, hfits⟩, piece, hpiece, split₁, hwrite₁, split₂, hwrite₂, hloop⟩
        exact ⟨hlength, piece, hpiece, split₁, hwrite₁, split₂, hwrite₂, hfits, hloop⟩
    · rw [splitLoopInt, splitLoop, dif_neg hnil, dif_neg hnil, if_neg hmore, if_neg hmore]
      refine (and_iff_right ?_).symm
      cases runs (· ∈ separators) start with
      | nil => trivial
      | cons run rest => exact fun hlt => absurd hlt hmore

theorem pieces_eq (line : List UInt8) (maxPieces includeRemainderAtMax : ℤ) :
    pieces separators line maxPieces includeRemainderAtMax =
      firstRuns (· ∈ separators) (0 < includeRemainderAtMax) (maxNumber separators line maxPieces)
        line := by
  rw [pieces, maxNumber]
  split_ifs with hmax
  · rw [firstRuns_of_countP_lt (Nat.lt_succ_self _)]
  · rfl

/-- The pieces are found one after the other, and no access is outside of the array, if and only if
the numbers fit. Without a line there is no piece. -/
theorem splitOnSeparatorsInt_iff (hsep : separators ≠ []) (address : AddressSize) (line : List UInt8)
    (maxPieces includeRemainderAtMax : ℤ) :
    ((∃ split : MemoryBlock CharPointer,
      splitOnSeparatorsInt separators address (some line) maxPieces includeRemainderAtMax =
        some ((pieces separators line maxPieces includeRemainderAtMax).length, split) ∧
      split.Holds (slotsAllocated address (1 + maxNumber separators line maxPieces))
        (slots (pieces separators line maxPieces includeRemainderAtMax))) ↔
      SplitFits separators address line maxPieces includeRemainderAtMax) ∧
    splitOnSeparatorsInt separators address none maxPieces includeRemainderAtMax =
      some (0, [some none]) := by
  refine ⟨?_, rfl⟩
  have hstart := @dropWhile_idempotent _ (· ∈ separators) line
  have hpieces := @pieces_eq separators line maxPieces includeRemainderAtMax
  have hnumber : (1 + (maxNumber separators line maxPieces : ℤ)).toNat =
    1 + maxNumber separators line maxPieces := by omega
  constructor
  · rintro ⟨split, h, hsplit⟩
    have hroom := hsplit.length_le
    rw [slots, length_append, length_map, length_singleton] at hroom
    rw [splitOnSeparatorsInt] at h
    obtain ⟨bound, hbound, h⟩ := Option.bind_eq_some_iff.1 h
    obtain ⟨hneg, rfl⟩ := boundOf_eq_some_iff.1 hbound
    obtain ⟨number, hint, h⟩ := Option.bind_eq_some_iff.1 h
    obtain ⟨⟨-, hhigh⟩, -⟩ := int_eq_some_iff.1 hint
    obtain ⟨split₁, -, h⟩ := Option.bind_eq_some_iff.1 h
    rw [nextNonSeparator_eq, splitLoopInt_eq_some_iff hsep hstart, runs_dropWhile] at h
    exact ⟨fun hlt => (hneg hlt).1, by omega, hroom, h.1⟩
  · intro hfits
    obtain ⟨split, hloop, hsplit⟩ := splitOnSeparators_holds hsep line
      (maxNumber separators line maxPieces) (hpieces ▸ hfits.room)
    have hnum := hfits.number
    obtain ⟨split₁, hwrite, hloop⟩ := Option.bind_eq_some_iff.1 hloop
    refine ⟨split, ?_, by rwa [hpieces]⟩
    rw [splitOnSeparatorsInt,
      boundOf_eq_some_iff.2 ⟨fun hneg => ⟨hfits.index hneg, hnum.le⟩, rfl⟩, Option.bind_some,
      int_of_bounds (by omega) (by omega), Option.bind_some, hnumber, hwrite, Option.bind_some,
      nextNonSeparator_eq, splitLoopInt_eq_some_iff hsep hstart, runs_dropWhile, hpieces]
    rw [nextNonSeparator_eq] at hloop
    exact ⟨hfits.runs, hloop⟩

/-- Two pieces, the second of which is all that is left. -/
theorem splitOnSeparatorsInt_two :
    [32] ≠ ([] : List UInt8) ∧ ∃ split : MemoryBlock CharPointer,
      splitOnSeparatorsInt [32] .bits32 (some [32, 97, 32, 32, 98, 32, 99]) 2 1 = some (2, split) ∧
        split.Holds 3 (slots [[97], [98, 32, 99]]) := by
  have hsep : [32] ≠ ([] : List UInt8) := cons_ne_nil _ _
  have hpieces : pieces [32] [32, 97, 32, 32, 98, 32, 99] 2 1 = [[97], [98, 32, 99]] := by
    decide
  have hruns : runs (· ∈ ([32] : List UInt8)) [32, 97, 32, 32, 98, 32, 99] = [[97], [98], [99]] := by
    decide
  have h := ((splitOnSeparatorsInt_iff hsep .bits32 [32, 97, 32, 32, 98, 32, 99] 2 1).1).2
    ⟨by decide, by decide, by rw [hpieces]; decide, by rw [hruns]; simp [RunsFit, maxNumber]⟩
  rw [hpieces] at h
  exact ⟨hsep, h⟩

/-- One more than the greatest `int` is no number of slots, and with addresses of 32 bits the bytes
for `2 ^ 30` slots are none. -/
theorem splitOnSeparatorsInt_many :
    splitOnSeparatorsInt [32] .bits64 (some [97]) (2 ^ 31 - 1) 0 = none ∧
      splitOnSeparatorsInt [32] .bits32 (some [97]) (2 ^ 30 - 1) 0 = none := by
  decide

end Split

end EricsTools

end Gargoyle
