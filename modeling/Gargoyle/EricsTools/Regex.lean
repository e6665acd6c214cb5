import Gargoyle.Data.EscapeRuns
import Gargoyle.Data.MemoryBlock
import Mathlib.Data.List.DropRight

/-!
# Regular expressions between slashes

`convert_to_regex` takes a regular expression that stands between slashes, as a user writes it, and
interprets some of the escapes in it. Where a backslash is met, the function does not note whether it
is escaped: it looks back one or two characters. A text is given without the zero at its end, and a
function is `none` if it reads or writes outside of the memory that was allocated.
-/

namespace Gargoyle

open Option (bind_some map_some some_ne_none)

open List

namespace EricsTools

open EscapeRuns
open MemoryBlock (alloc filled)

def slash : UInt8 := 47

def backslash : UInt8 := 92

/-- The characters behind a backslash that are interpreted: `n`, `r`, `t` and `/`. -/
def named : List UInt8 := [110, 114, 116, slash]

def character (next : UInt8) : UInt8 :=
  if next = 110 then 10 else if next = 114 then 13 else if next = 116 then 9 else slash

/-- `trim_flanking_whitespace`, for texts of bytes. -/
def trimFlanking (str : List UInt8) : List UInt8 :=
  (str.dropWhile (· ∈ [32, 9, 10, 13])).rdropWhile (· ∈ [32, 9, 10, 13])

def placeOf (previous2 : UInt8) (newIndex : ℕ) : Option ℕ :=
  if previous2 = backslash then some newIndex
  else if newIndex = 0 then none else some (newIndex - 1)

theorem internalIndex_lt {internal : MemoryBlock UInt8} {internalIndex : ℕ} {next : UInt8}
    (h : internal.read internalIndex = some next) : internalIndex < internal.length := by
  by_contra hge
  rw [MemoryBlock.read, getElem?_eq_none (Nat.le_of_not_lt hge)] at h
  cases h

/-- The loop of `convert_to_regex`; the result is the new text, or that the text was not valid. -/
def convertLoop (internal : MemoryBlock UInt8) (internalIndex newIndex : ℕ) (previous : UInt8)
    (new : MemoryBlock UInt8) : Option (Option (MemoryBlock UInt8)) :=
  match hnext : internal.read internalIndex with
  | none => none
  | some next =>
    if next = 0 then
      if previous = backslash then some none else (new.write newIndex 0).map some
    else if next = slash ∧ previous ≠ backslash then some none
    else if next ∈ named ∧ previous = backslash then
      (if 2 ≤ internalIndex then internal.read (internalIndex - 2) else some 0).bind fun previous2 =>
        (placeOf previous2 newIndex).bind fun newIndex =>
          (new.write newIndex (if previous2 = backslash then next else character next)).bind
            fun new => convertLoop internal (internalIndex + 1) (newIndex + 1) 0 new
    else (new.write newIndex next).bind fun new =>
      convertLoop internal (internalIndex + 1) (newIndex + 1) next new
termination_by internal.length - internalIndex
decreasing_by all_goals exact Nat.sub_succ_lt_self _ _ (internalIndex_lt hnext)

/-- `convert_to_regex` up to the call of `regcomp`. Where the text is a single slash, the length that
`memcpy` gets is `-1`, as a number without a sign. -/
def convertText (str : List UInt8) : Option (Option (MemoryBlock UInt8)) :=
  let trimmed := trimFlanking str
  if trimmed.head? ≠ some slash ∨ trimmed.getLast? ≠ some slash then some none
  else if trimmed.length < 2 then none
  else
    let internalLength := trimmed.length - 2
    ((alloc trimmed.length).writeAll 0 ((trimmed.drop 1).take internalLength)).bind fun internal =>
      (internal.write internalLength 0).bind fun internal =>
        convertLoop internal 0 0 0 (alloc trimmed.length)

/-- The text that `regcomp` gets, unless there is none, and what is returned then. -/
def outcome (regcomp : List UInt8 → ℤ) : Option (List UInt8) → Option (List UInt8) × ℤ
  | none => (none, 0)
  | some new => (some new, if regcomp new = 0 then 1 else 0)

/-- `convert_to_regex`, with the text that is handed to `regcomp`. -/
def convertToRegex (regcomp : List UInt8 → ℤ) (str : List UInt8) : Option (Option (List UInt8) × ℤ) :=
  (convertText str).bind fun converted =>
    match converted with
    | none => some (outcome regcomp none)
    | some new => new.text.map fun new => outcome regcomp (some new)

/-! ## What the escapes mean -/

def interpretEscape (next : UInt8) : List UInt8 :=
  if next ∈ named then [character next] else [backslash, next]

def interpret : List UInt8 → Option (List UInt8)
  | [] => some []
  | [c] => if c = slash ∨ c = backslash then none else some [c]
  | c :: next :: s =>
    if c = backslash then (interpret s).map (interpretEscape next ++ ·)
    else if c = slash then none
    else (interpret (next :: s)).map (c :: ·)

def bodyOf (trimmed : List UInt8) : Option (List UInt8) :=
  if 2 ≤ trimmed.length ∧ trimmed.head? = some slash ∧ trimmed.getLast? = some slash then
    some (trimmed.drop 1).dropLast
  else none

/-- What `convert_to_regex` should do with a text. -/
def Interprets (regcomp : List UInt8 → ℤ) (str : List UInt8) : Prop :=
  convertToRegex regcomp str = some (outcome regcomp ((bodyOf (trimFlanking str)).bind interpret))

/-- A text between slashes in which looking back is right. It is rejected for a slash without a
backslash, or because the last backslash is not escaped, or because of a slash with an even number of
backslashes where there are backslashes at the end as well. Or else there are no backslashes at the end,
and behind two or more of them there is no slash, and `n`, `r` and `t` only where their number is
even. -/
def LookingBackIsRight (body : List UInt8) : Prop :=
  let runs := (escapeRuns backslash body).1
  let last := (escapeRuns backslash body).2
  (0, slash) ∈ runs ∨ Odd last ∨ (0 < last ∧ ∃ run ∈ runs, Even run.1 ∧ run.2 = slash) ∨
    (last = 0 ∧ ∀ run ∈ runs, run.2 ∈ named → run.1 ≤ 1 ∨ (run.2 ≠ slash ∧ Even run.1))

section Interpret

def interpretRun (run : ℕ × UInt8) : Option (List UInt8) :=
  if Even run.1 then
    if run.2 = slash then none else some (List.replicate run.1 backslash ++ [run.2])
  else some (List.replicate (run.1 - 1) backslash ++ interpretEscape run.2)

theorem backslash_notMem_named : backslash ∉ named := by decide

theorem interpret_cons {c : UInt8} (hc : c ≠ backslash) (s : List UInt8) :
    interpret (c :: s) = if c = slash then none else (interpret s).map (c :: ·) := by
  cases s with
  | nil =>
    rw [interpret, interpret]
    simp only [hc, or_false]
    rfl
  | cons next s => rw [interpret, if_neg hc]

theorem interpret_replicate (j : ℕ) (s : List UInt8) :
    interpret (List.replicate (j + j) backslash ++ s) =
      (interpret s).map (List.replicate (j + j) backslash ++ ·) := by
  induction j with
  | zero => simp
  | succ j ih =>
    have htwo : j + 1 + (j + 1) = j + j + 1 + 1 := by omega
    have hescape : interpretEscape backslash = [backslash, backslash] :=
      if_neg backslash_notMem_named
    rw [htwo, replicate_succ, replicate_succ, cons_append, cons_append,
      interpret, if_pos rfl, ih, hescape, Option.map_map]
    rfl

/-- A text is read run by run. -/
theorem interpret_ofRuns {runs : List (ℕ × UInt8)} (h : ∀ run ∈ runs, run.2 ≠ backslash) (last : ℕ) :
    interpret (ofRuns backslash runs last) =
      joinRuns interpretRun
        (if Even last then some (List.replicate last backslash) else none) runs := by
  induction runs with
  | nil =>
    rw [ofRuns, joinRuns]
    rcases Nat.even_or_odd last with heven | hodd
    · obtain ⟨j, rfl⟩ := heven
      have hread := interpret_replicate j []
      rw [List.append_nil] at hread
      rw [if_pos ⟨j, rfl⟩, hread, interpret, map_some, List.append_nil]
    · obtain ⟨j, rfl⟩ := hodd
      have hread := interpret_replicate j [backslash]
      rw [← replicate_succ', ← two_mul] at hread
      rw [if_neg (Nat.not_even_two_mul_add_one j), hread]
      rfl
  | cons run runs ih =>
    have hne := h run mem_cons_self
    have hrest := ih fun run hrun => h run (mem_cons_of_mem _ hrun)
    rw [ofRuns, joinRuns, interpretRun]
    rcases Nat.even_or_odd run.1 with heven | hodd
    · obtain ⟨j, hj⟩ := heven
      rw [if_pos ⟨j, hj⟩, hj, interpret_replicate, interpret_cons hne]
      by_cases hslash : run.2 = slash
      · rw [if_pos hslash, if_pos hslash]
        rfl
      · rw [if_neg hslash, if_neg hslash, Option.map_map, bind_some, ← hrest]
        congr 1
        funext s
        simp
    · obtain ⟨j, hj⟩ := hodd
      have hread := interpret_replicate j (backslash :: run.2 :: ofRuns backslash runs last)
      rw [← two_mul] at hread
      rw [if_neg (by rw [hj]; exact Nat.not_even_two_mul_add_one j), hj, Nat.add_sub_cancel,
        replicate_succ', append_assoc, singleton_append, hread, interpret,
        if_pos rfl, Option.map_map, bind_some, ← hrest]
      congr 1
      funext s
      simp

end Interpret

section LookBack

/-- What `convert_to_regex` writes for a run of backslashes and the character behind it. -/
def lookBackRun (run : ℕ × UInt8) : Option (List UInt8) :=
  if run.2 ∈ named ∧ run.1 = 1 then some [character run.2]
  else if run.2 = slash ∧ run.1 = 0 then none
  else some (List.replicate run.1 backslash ++ [run.2])

variable {len : ℕ} {s done rest written : List UInt8} {next previous : UInt8}

theorem convertLoop_read {internal new : MemoryBlock UInt8} {internalIndex newIndex : ℕ}
    (hread : internal.read internalIndex = some next) :
    convertLoop internal internalIndex newIndex previous new =
      if next = 0 then
        if previous = backslash then some none else (new.write newIndex 0).map some
      else if next = slash ∧ previous ≠ backslash then some none
      else if next ∈ named ∧ previous = backslash then
        (if 2 ≤ internalIndex then internal.read (internalIndex - 2) else some 0).bind fun previous2 =>
          (placeOf previous2 newIndex).bind fun newIndex =>
            (new.write newIndex (if previous2 = backslash then next else character next)).bind
              fun new => convertLoop internal (internalIndex + 1) (newIndex + 1) 0 new
      else (new.write newIndex next).bind fun new =>
        convertLoop internal (internalIndex + 1) (newIndex + 1) next new := by
  rw [convertLoop]
  split
  · rename_i hnone
    rw [hread] at hnone
    cases hnone
  · rename_i next' hsome
    rw [hread, Option.some.injEq] at hsome
    subst hsome
    rfl

theorem convertLoop_copy (hs : done ++ next :: rest = s) (hzero : next ≠ 0)
    (hslash : ¬(next = slash ∧ previous ≠ backslash))
    (hnamed : ¬(next ∈ named ∧ previous = backslash)) (hroom : written.length < len) :
    convertLoop (filled len s) done.length written.length previous (filled len written) =
      convertLoop (filled len s) (done ++ [next]).length (written ++ [next]).length next
        (filled len (written ++ [next])) := by
  have hread : (filled len s).read done.length = some next := by
    rw [← hs, MemoryBlock.read_filled_append]
  rw [convertLoop_read hread, if_neg hzero, if_neg hslash, if_neg hnamed,
    MemoryBlock.write_filled hroom, bind_some, length_append, length_append]
  rfl

theorem convertLoop_backslashes (k : ℕ) (hs : done ++ (List.replicate k backslash ++ rest) = s)
    (hroom : written.length + k ≤ len) :
    convertLoop (filled len s) done.length written.length previous (filled len written) =
      convertLoop (filled len s) (done ++ List.replicate k backslash).length
        (written ++ List.replicate k backslash).length (if k = 0 then previous else backslash)
        (filled len (written ++ List.replicate k backslash)) := by
  induction k generalizing done written previous with
  | zero => simp
  | succ k ih =>
    rw [replicate_succ, cons_append] at hs
    have hcopy := @convertLoop_copy len s done _ written backslash previous hs (by decide)
      (fun h => absurd h.1 (by decide)) (fun h => backslash_notMem_named h.1) (by omega)
    have hrest := @ih (done ++ [backslash]) (written ++ [backslash]) backslash
      (by rw [← hs, append_assoc, singleton_append])
      (by rw [length_append, length_singleton]; omega)
    rw [hcopy, hrest, ite_self, if_neg (Nat.succ_ne_zero k), replicate_succ,
      append_assoc, append_assoc, singleton_append]

theorem convertLoop_named (hs : done ++ next :: rest = s) (hzero : next ≠ 0) (hnamed : next ∈ named)
    {previous2 : UInt8} {place : ℕ} {new : MemoryBlock UInt8}
    (hprevious2 : (if 2 ≤ done.length then (filled len s).read (done.length - 2) else some 0) =
      some previous2)
    (hplace : placeOf previous2 written.length = some place)
    (hwrite : (filled len written).write place
      (if previous2 = backslash then next else character next) = some new) :
    convertLoop (filled len s) done.length written.length backslash (filled len written) =
      convertLoop (filled len s) (done ++ [next]).length (place + 1) 0 new := by
  have hread : (filled len s).read done.length = some next := by
    rw [← hs, MemoryBlock.read_filled_append]
  rw [convertLoop_read hread, if_neg hzero, if_neg (fun h => h.2 rfl), if_pos ⟨hnamed, rfl⟩,
    hprevious2, bind_some, hplace, bind_some, hwrite, bind_some,
    length_append]
  rfl

theorem convertLoop_slash (hs : done ++ slash :: rest = s) (hprevious : previous ≠ backslash)
    (newIndex : ℕ) (new : MemoryBlock UInt8) :
    convertLoop (filled len s) done.length newIndex previous new = some none := by
  have hread : (filled len s).read done.length = some slash := by
    rw [← hs, MemoryBlock.read_filled_append]
  rw [convertLoop_read hread, if_neg (by decide), if_pos ⟨rfl, hprevious⟩]

theorem convertLoop_end (hs : done ++ [0] = s) (hroom : written.length < len) :
    convertLoop (filled len s) done.length written.length previous (filled len written) =
      some (if previous = backslash then none else some (filled len (written ++ [0]))) := by
  have hread : (filled len s).read done.length = some 0 := by
    rw [← hs, MemoryBlock.read_filled_append]
  rw [convertLoop_read hread, if_pos rfl, MemoryBlock.write_filled hroom]
  split_ifs <;> rfl

/-- The character before the previous one, inside a run. -/
theorem read_previous2 (k : ℕ) (hs : done ++ List.replicate (k + 1) backslash ++ rest = s)
    (hdone : done.getLast? ≠ some backslash) :
    ∃ previous2,
      (if 2 ≤ (done ++ List.replicate (k + 1) backslash).length then
        (filled len s).read ((done ++ List.replicate (k + 1) backslash).length - 2) else some 0) =
        some previous2 ∧ (previous2 = backslash ↔ k ≠ 0) := by
  rw [length_append, length_replicate]
  cases k with
  | zero =>
    rcases eq_nil_or_concat done with rfl | ⟨front, x, rfl⟩
    · exact ⟨0, rfl, iff_of_false (by decide) (fun h => h rfl)⟩
    · rw [concat_eq_append, getLast?_concat, ne_eq, Option.some.injEq] at hdone
      refine ⟨x, ?_, iff_of_false hdone (fun h => h rfl)⟩
      have hplace : (front ++ [x]).length + (0 + 1) - 2 = front.length := by
        rw [length_append, length_singleton]
        omega
      rw [concat_eq_append, hplace, if_pos, ← hs, concat_eq_append, append_assoc,
        append_assoc, singleton_append, MemoryBlock.read_filled_append]
      rw [length_append, length_singleton]
      omega
  | succ k =>
    refine ⟨backslash, ?_, iff_of_true rfl (Nat.succ_ne_zero k)⟩
    have hplace : done.length + (k + 1 + 1) - 2 = (done ++ List.replicate k backslash).length := by
      rw [length_append, length_replicate]
      omega
    rw [hplace, if_pos (by omega), ← hs, replicate_succ', replicate_succ',
      append_assoc, append_assoc, append_assoc, ← append_assoc done,
      singleton_append, MemoryBlock.read_filled_append]

/-- A run of backslashes and the character behind it. -/
theorem convertLoop_run {run : ℕ × UInt8} (hne : run.2 ≠ backslash) (hzero : run.2 ≠ 0)
    (hs : done ++ (List.replicate run.1 backslash ++ run.2 :: rest) = s) (hlen : s.length ≤ len)
    (hdone : done.getLast? ≠ some backslash) (hprevious : previous ≠ backslash)
    (hroom : written.length ≤ done.length) :
    (lookBackRun run = none ∧
      convertLoop (filled len s) done.length written.length previous (filled len written) =
        some none) ∨
    ∃ t previous', lookBackRun run = some t ∧ previous' ≠ backslash ∧ t.length ≤ run.1 + 1 ∧
      convertLoop (filled len s) done.length written.length previous (filled len written) =
        convertLoop (filled len s) (done ++ (List.replicate run.1 backslash ++ [run.2])).length
          (written ++ t).length previous' (filled len (written ++ t)) := by
  have hlength := congrArg List.length hs
  rw [length_append, length_append, length_cons, length_replicate] at hlength
  have hcopied := @convertLoop_backslashes len s done _ written previous run.1 hs (by omega)
  have hs' : done ++ List.replicate run.1 backslash ++ run.2 :: rest = s := by
    rw [← hs, append_assoc]
  have hroom' : (written ++ List.replicate run.1 backslash).length < len := by
    rw [length_append, length_replicate]
    omega
  have hback : (if run.1 = 0 then previous else backslash) = backslash ↔ run.1 ≠ 0 := by
    by_cases hk : run.1 = 0
    · rw [if_pos hk]
      exact iff_of_false hprevious (fun h => h hk)
    · rw [if_neg hk]
      exact iff_of_true rfl hk
  rw [hcopied]
  by_cases hescape : run.2 ∈ named ∧ run.1 = 1
  · obtain ⟨hnamed, hone⟩ := hescape
    rw [hone] at hs' hroom' ⊢
    obtain ⟨previous2, hread, hprevious2⟩ := @read_previous2 len s done _ 0 hs' hdone
    have hother : previous2 ≠ backslash := fun h => hprevious2.1 h rfl
    have hwrite := @MemoryBlock.write_filled_last _ len written backslash (by omega)
      (character run.2)
    have hinterpreted := @convertLoop_named len s _ rest (written ++ [backslash]) run.2 hs' hzero
      hnamed previous2 written.length _ hread
      (by rw [placeOf, if_neg hother, length_append, length_singleton]; rfl)
      (by rw [if_neg hother]; exact hwrite)
    refine .inr ⟨[character run.2], 0, by rw [lookBackRun, if_pos ⟨hnamed, hone⟩], by decide,
      by simp, ?_⟩
    have hlast : (written ++ [character run.2]).length = written.length + 1 := by
      rw [length_append, length_singleton]
    rw [if_neg Nat.one_ne_zero, ← append_assoc, hlast]
    exact hinterpreted
  · by_cases hslash : run.2 = slash ∧ run.1 = 0
    · refine .inl ⟨by rw [lookBackRun, if_neg hescape, if_pos hslash], ?_⟩
      rw [hslash.1] at hs'
      exact convertLoop_slash hs' (fun h => hback.1 h hslash.2) _ _
    · have hlook : lookBackRun run = some (List.replicate run.1 backslash ++ [run.2]) := by
        rw [lookBackRun, if_neg hescape, if_neg hslash]
      by_cases hnamed : run.2 ∈ named ∧ run.1 ≠ 0
      · obtain ⟨k, hk⟩ : ∃ k, run.1 = k + 1 := ⟨run.1 - 1, by omega⟩
        have hmore : k ≠ 0 := fun h => hescape ⟨hnamed.1, by omega⟩
        rw [hk] at hs' hroom' hlook ⊢
        obtain ⟨previous2, hread, hprevious2⟩ := @read_previous2 len s done _ k hs' hdone
        have hsecond := hprevious2.2 hmore
        have hcopy := @convertLoop_named len s _ rest (written ++ List.replicate (k + 1) backslash)
          run.2 hs' hzero hnamed.1 previous2 _ _ hread (by rw [placeOf, if_pos hsecond])
          (by rw [if_pos hsecond]; exact MemoryBlock.write_filled hroom' run.2)
        have hlast : (written ++ List.replicate (k + 1) backslash ++ [run.2]).length =
            (written ++ List.replicate (k + 1) backslash).length + 1 := by
          rw [length_append, length_singleton]
        refine .inr ⟨_, 0, hlook, by decide, by simp, ?_⟩
        rw [if_neg (Nat.succ_ne_zero k), hcopy, ← append_assoc, ← append_assoc, hlast]
      · have hcopy := @convertLoop_copy len s _ rest (written ++ List.replicate run.1 backslash)
          run.2 _ hs' hzero
          (fun h => hslash ⟨h.1, by
            by_contra hk
            exact h.2 (hback.2 hk)⟩)
          (fun h => hnamed ⟨h.1, hback.1 h.2⟩) hroom'
        refine .inr ⟨_, run.2, hlook, hne, by simp, ?_⟩
        rw [hcopy, append_assoc, append_assoc]

/-- The loop goes from one run of backslashes to the next. -/
theorem convertLoop_ofRuns {runs : List (ℕ × UInt8)} {last : ℕ}
    (hruns : ∀ run ∈ runs, run.2 ≠ backslash ∧ run.2 ≠ 0)
    (hs : done ++ (ofRuns backslash runs last ++ [0]) = s) (hlen : s.length ≤ len)
    (hdone : done.getLast? ≠ some backslash) (hprevious : previous ≠ backslash)
    (hroom : written.length ≤ done.length) :
    convertLoop (filled len s) done.length written.length previous (filled len written) =
      some ((joinRuns lookBackRun (if last = 0 then some [] else none) runs).map
        fun t => filled len (written ++ t ++ [0])) := by
  induction runs generalizing done written previous with
  | nil =>
    rw [ofRuns] at hs
    have hlength := congrArg List.length hs
    rw [length_append, length_append, length_replicate, length_singleton]
      at hlength
    have hcopied := @convertLoop_backslashes len s done _ written previous last hs (by omega)
    have hend := @convertLoop_end len s (done ++ List.replicate last backslash)
      (written ++ List.replicate last backslash) (if last = 0 then previous else backslash)
      (by rw [← hs, append_assoc])
      (by rw [length_append, length_replicate]; omega)
    rw [hcopied, hend, joinRuns]
    by_cases hlast : last = 0
    · subst hlast
      rw [if_pos rfl, if_pos rfl, if_neg hprevious, replicate_zero, map_some]
    · rw [if_neg hlast, if_neg hlast, if_pos rfl]
      rfl
  | cons run runs ih =>
    obtain ⟨hne, hzero⟩ := hruns run mem_cons_self
    rw [ofRuns, append_assoc, cons_append] at hs
    have hrun := @convertLoop_run len s done _ written previous run hne hzero hs hlen hdone
      hprevious hroom
    rw [joinRuns]
    rcases hrun with ⟨hlook, hloop⟩ | ⟨t, previous', hlook, hprevious', ht, hloop⟩
    · rw [hloop, hlook]
      rfl
    · have hrest := @ih (done ++ (List.replicate run.1 backslash ++ [run.2])) (written ++ t)
        previous' (fun run hrun => hruns run (mem_cons_of_mem _ hrun))
        (by rw [← hs]; simp)
        (by
          rw [← append_assoc, getLast?_concat, ne_eq, Option.some.injEq]
          exact hne)
        hprevious'
        (by simp only [length_append, length_replicate, length_singleton]; omega)
      rw [hloop, hrest, hlook, bind_some, Option.map_map]
      congr 2
      funext t'
      simp

theorem zero_notMem_lookBackRun {run : ℕ × UInt8} (hzero : run.2 ≠ 0) {t : List UInt8}
    (ht : lookBackRun run = some t) : 0 ∉ t := by
  rw [lookBackRun] at ht
  split_ifs at ht
  · rw [Option.some.injEq] at ht
    subst ht
    rw [mem_singleton, character]
    split_ifs <;> decide
  · rw [Option.some.injEq] at ht
    subst ht
    rw [mem_append, mem_singleton, not_or]
    exact ⟨fun h => absurd (eq_of_mem_replicate h) (by decide), Ne.symm hzero⟩

end LookBack

section Compare

/-- The text that `convert_to_regex` makes of the text between the slashes. -/
def lookBack (body : List UInt8) : Option (List UInt8) :=
  joinRuns lookBackRun (if (escapeRuns backslash body).2 = 0 then some [] else none)
    (escapeRuns backslash body).1

variable {run : ℕ × UInt8}

theorem lookBackRun_eq_none : lookBackRun run = none ↔ run.2 = slash ∧ run.1 = 0 := by
  rw [lookBackRun]
  split_ifs with hescape hslash
  · exact iff_of_false not_false (fun h => by omega)
  · exact iff_of_true rfl hslash
  · exact iff_of_false not_false hslash

theorem interpretRun_eq_none : interpretRun run = none ↔ Even run.1 ∧ run.2 = slash := by
  rw [interpretRun]
  split_ifs with heven hslash
  · exact iff_of_true rfl ⟨heven, hslash⟩
  · exact iff_of_false not_false (fun h => hslash h.2)
  · exact iff_of_false not_false (fun h => heven h.1)

theorem escape_of_notMem {k : ℕ} {c : UInt8} (hk : Odd k) (hc : c ∉ named) :
    List.replicate (k - 1) backslash ++ interpretEscape c = List.replicate k backslash ++ [c] := by
  obtain ⟨j, rfl⟩ := hk
  rw [Nat.add_sub_cancel, interpretEscape, if_neg hc, replicate_succ', append_assoc]
  rfl

/-- When a run is read right by looking back. -/
theorem lookBackRun_eq_iff :
    lookBackRun run = interpretRun run ↔
      (run.2 ∈ named → run.1 ≤ 1 ∨ (run.2 ≠ slash ∧ Even run.1)) := by
  have hslash : slash ∈ named := by decide
  rw [lookBackRun, interpretRun]
  rcases Nat.even_or_odd run.1 with heven | hodd
  · have hone : run.1 ≠ 1 := by
      intro h
      rw [h] at heven
      exact absurd heven (by decide)
    rw [if_neg (fun h => hone h.2), if_pos heven]
    by_cases h : run.2 = slash
    · rw [if_pos h]
      by_cases hzero : run.1 = 0
      · rw [if_pos ⟨h, hzero⟩]
        exact iff_of_true rfl (fun _ => Or.inl (by omega))
      · rw [if_neg (fun h => hzero h.2)]
        refine iff_of_false (some_ne_none _) ?_
        intro hright
        rcases hright (by rw [h]; exact hslash) with hle | hother
        · omega
        · exact hother.1 h
    · rw [if_neg h, if_neg (fun hand => h hand.1)]
      exact iff_of_true rfl (fun _ => Or.inr ⟨h, heven⟩)
  · have hpos : run.1 ≠ 0 := by
      intro h
      rw [h] at hodd
      exact absurd hodd (by decide)
    rw [if_neg (Nat.not_even_iff_odd.2 hodd), if_neg (fun h : run.2 = slash ∧ _ => hpos h.2)]
    by_cases hnamed : run.2 ∈ named
    · by_cases hone : run.1 = 1
      · rw [if_pos ⟨hnamed, hone⟩, hone, interpretEscape, if_pos hnamed]
        exact iff_of_true rfl (fun _ => Or.inl le_rfl)
      · rw [if_neg (fun h => hone h.2), interpretEscape, if_pos hnamed]
        refine iff_of_false ?_ ?_
        · intro h
          have hlength := congrArg List.length (Option.some.inj h)
          simp only [length_append, length_replicate, length_singleton] at hlength
          omega
        · intro hright
          rcases hright hnamed with hle | hother
          · omega
          · exact Nat.not_even_iff_odd.2 hodd hother.2
    · rw [if_neg (fun h => hnamed h.1), escape_of_notMem hodd hnamed]
      exact iff_of_true rfl (fun h => absurd h hnamed)

theorem length_interpretRun_le {s t : List UInt8} (hs : lookBackRun run = some s)
    (ht : interpretRun run = some t) : t.length ≤ s.length := by
  have hescape : (interpretEscape run.2).length ≤ 2 := by
    rw [interpretEscape]
    split_ifs <;> simp
  rw [lookBackRun] at hs
  rw [interpretRun] at ht
  split_ifs at hs ht with hone heven hslash hslash
  all_goals
    rw [Option.some.injEq] at hs ht
    subst hs ht
    simp only [length_append, length_replicate, length_singleton]
  · rw [hone.2] at heven
    exact absurd heven (by decide)
  · rw [hone.2, interpretEscape, if_pos hone.1]
    rfl
  · exact le_rfl
  · have hodd := Nat.not_even_iff_odd.1 ‹_›
    obtain ⟨j, hj⟩ := hodd
    omega

/-- When looking back by two characters reads the regular expression right. -/
theorem joinRuns_lookBackRun_eq_iff (runs : List (ℕ × UInt8)) (last : ℕ) :
    joinRuns lookBackRun (if last = 0 then some [] else none) runs =
        joinRuns interpretRun
          (if Even last then some (List.replicate last backslash) else none) runs ↔
      (0, slash) ∈ runs ∨ Odd last ∨ (0 < last ∧ ∃ run ∈ runs, Even run.1 ∧ run.2 = slash) ∨
        (last = 0 ∧ ∀ run ∈ runs, run.2 ∈ named → run.1 ≤ 1 ∨ (run.2 ≠ slash ∧ Even run.1)) := by
  have hlook := @joinRuns_eq_none _ _ lookBackRun (if last = 0 then some [] else none) runs
  have hinterpret := @joinRuns_eq_none _ _ interpretRun
    (if Even last then some (List.replicate last backslash) else none) runs
  by_cases hbare : (0, slash) ∈ runs
  · rw [hlook.2 (Or.inl ⟨_, hbare, lookBackRun_eq_none.2 ⟨rfl, rfl⟩⟩),
      hinterpret.2 (Or.inl ⟨_, hbare, interpretRun_eq_none.2 ⟨Even.zero, rfl⟩⟩)]
    exact iff_of_true rfl (Or.inl hbare)
  rcases Nat.even_or_odd last with heven | hodd
  · by_cases hlast : last = 0
    · subst hlast
      rw [if_pos rfl, if_pos heven, replicate_zero]
      have hall : joinRuns lookBackRun (some []) runs = joinRuns interpretRun (some []) runs ↔
          ∀ run ∈ runs, lookBackRun run = interpretRun run := by
        refine ⟨fun h => ?_, joinRuns_congr⟩
        cases hs : joinRuns lookBackRun (some []) runs with
        | none =>
          obtain ⟨run, hrun, hnone⟩ := (joinRuns_eq_none.1 hs).resolve_right (by simp)
          obtain ⟨hslash, hzero⟩ := lookBackRun_eq_none.1 hnone
          have hmem : run = (0, slash) := Prod.ext hzero hslash
          exact absurd (hmem ▸ hrun) hbare
        | some s =>
          rw [hs] at h
          exact (eq_of_joinRuns_eq (fun _ _ _ _ => length_interpretRun_le) hs h.symm).2 rfl
      rw [hall]
      constructor
      · intro h
        exact .inr (.inr (.inr ⟨rfl, fun run hrun => lookBackRun_eq_iff.1 (h run hrun)⟩))
      · rintro (h | h | h | h)
        · exact absurd h hbare
        · exact absurd h (by decide)
        · exact absurd h.1 (lt_irrefl 0)
        · exact fun run hrun => lookBackRun_eq_iff.2 (h.2 run hrun)
    · rw [hlook.2 (Or.inr (if_neg hlast)), eq_comm, hinterpret]
      constructor
      · rintro (⟨run, hrun, hnone⟩ | h)
        · exact .inr (.inr (.inl ⟨by omega, run, hrun, interpretRun_eq_none.1 hnone⟩))
        · rw [if_pos heven] at h
          cases h
      · rintro (h | h | h | h)
        · exact absurd h hbare
        · exact absurd heven (Nat.not_even_iff_odd.2 h)
        · obtain ⟨-, run, hrun, hslash⟩ := h
          exact .inl ⟨run, hrun, interpretRun_eq_none.2 hslash⟩
        · exact absurd h.1 hlast
  · have hpos : last ≠ 0 := by
      rintro rfl
      exact absurd hodd (by decide)
    rw [hlook.2 (Or.inr (if_neg hpos)),
      hinterpret.2 (Or.inr (if_neg (Nat.not_even_iff_odd.2 hodd)))]
    exact iff_of_true rfl (Or.inr (.inl hodd))

theorem lookBack_eq_iff (body : List UInt8) :
    lookBack body = interpret body ↔ LookingBackIsRight body := by
  have hne : ∀ run ∈ (escapeRuns backslash body).1, run.2 ≠ backslash :=
    fun run hrun => ne_of_mem_escapeRuns backslash hrun
  have hread := interpret_ofRuns hne (escapeRuns backslash body).2
  rw [ofRuns_escapeRuns] at hread
  rw [lookBack, hread]
  exact joinRuns_lookBackRun_eq_iff _ _

theorem framed_cases {s : List UInt8} (hhead : s.head? = some slash) (hlast : s.getLast? = some slash) :
    s = [slash] ∨ ∃ body, s = slash :: (body ++ [slash]) := by
  obtain ⟨rest, rfl⟩ := List.head?_eq_some_iff.1 hhead
  rcases eq_nil_or_concat rest with rfl | ⟨body, c, rfl⟩
  · exact .inl rfl
  · rw [concat_eq_append, ← cons_append, getLast?_concat, Option.some.injEq] at hlast
    subst hlast
    exact .inr ⟨body, by rw [concat_eq_append]⟩

theorem head?_framed (body : List UInt8) : (slash :: (body ++ [slash])).head? = some slash := rfl

theorem getLast?_framed (body : List UInt8) :
    (slash :: (body ++ [slash])).getLast? = some slash := by
  rw [← cons_append, getLast?_concat]

theorem length_framed (body : List UInt8) :
    (slash :: (body ++ [slash])).length = body.length + 2 := by
  rw [length_cons, length_append, length_singleton]

theorem bodyOf_framed (body : List UInt8) : bodyOf (slash :: (body ++ [slash])) = some body := by
  rw [bodyOf, if_pos ⟨by rw [length_framed]; omega, head?_framed body, getLast?_framed body⟩,
    drop_one, tail_cons, dropLast_concat]

theorem mem_of_mem_trimFlanking {str : List UInt8} {c : UInt8} (h : c ∈ trimFlanking str) :
    c ∈ str :=
  (dropWhile_sublist _).mem (List.IsPrefix.mem h ( rdropWhile_prefix _ _))

theorem convertText_framed {str body : List UInt8} (hzero : 0 ∉ body)
    (htrimmed : trimFlanking str = slash :: (body ++ [slash])) :
    convertText str = some ((lookBack body).map fun t => filled (body.length + 2) (t ++ [0])) := by
  have hbody : ((slash :: (body ++ [slash])).drop 1).take body.length = body := by
    rw [drop_one, tail_cons, take_left]
  have hcopy := @MemoryBlock.writeAll_filled _ (body.length + 2) [] body
    (by rw [length_nil]; omega)
  rw [length_nil, nil_append] at hcopy
  have hruns : ∀ run ∈ (escapeRuns backslash body).1, run.2 ≠ backslash ∧ run.2 ≠ 0 := by
    intro run hrun
    refine ⟨ne_of_mem_escapeRuns backslash hrun, ?_⟩
    intro h
    have hmem := mem_ofRuns backslash hrun (escapeRuns backslash body).2
    rw [ofRuns_escapeRuns, h] at hmem
    exact hzero hmem
  have hloop := @convertLoop_ofRuns (body.length + 2) (body ++ [0]) [] [] 0 _ _ hruns
    (by rw [ofRuns_escapeRuns, nil_append])
    (by rw [length_append, length_singleton]; omega) (by simp) (by decide) le_rfl
  rw [convertText, htrimmed, if_neg (by rw [head?_framed, getLast?_framed]; simp), length_framed,
    if_neg (by omega)]
  simp only [Nat.add_sub_cancel, hbody]
  rw [← MemoryBlock.filled_nil, hcopy, bind_some, MemoryBlock.write_filled (by omega),
    bind_some]
  exact hloop

theorem zero_notMem_lookBack {body t : List UInt8} (hzero : 0 ∉ body) (ht : lookBack body = some t) :
    0 ∉ t := by
  intro hmem
  rw [lookBack] at ht
  have hlast : (escapeRuns backslash body).2 = 0 := by
    by_contra hlast
    rw [if_neg hlast, joinRuns_eq_none.2 (Or.inr rfl)] at ht
    cases ht
  rw [if_pos hlast] at ht
  obtain ⟨run, hrun, s, hs, hin⟩ := mem_joinRuns ht hmem
  refine zero_notMem_lookBackRun ?_ hs hin
  intro h
  have hmem := mem_ofRuns backslash hrun (escapeRuns backslash body).2
  rw [ofRuns_escapeRuns, h] at hmem
  exact hzero hmem

theorem convertToRegex_framed (regcomp : List UInt8 → ℤ) {str body : List UInt8} (hzero : 0 ∉ body)
    (htrimmed : trimFlanking str = slash :: (body ++ [slash])) :
    convertToRegex regcomp str = some (outcome regcomp (lookBack body)) := by
  rw [convertToRegex, convertText_framed hzero htrimmed, bind_some]
  cases hlook : lookBack body with
  | none => rfl
  | some t =>
    rw [map_some]
    have htext := @MemoryBlock.text_filled (body.length + 2) _ [] (zero_notMem_lookBack hzero hlook)
    simp only [htext, map_some]

theorem outcome_injective (regcomp : List UInt8 → ℤ) : Function.Injective (outcome regcomp) := by
  intro a b h
  have hfirst := congrArg Prod.fst h
  cases a <;> cases b <;> exact hfirst

/-- A text is interpreted as it should be unless it is a single slash, or looking back is wrong
between its slashes. -/
theorem interprets_iff (regcomp : List UInt8 → ℤ) (str : List UInt8) (hzero : 0 ∉ str) :
    Interprets regcomp str ↔ trimFlanking str ≠ [slash] ∧
      ∀ body, trimFlanking str = slash :: (body ++ [slash]) → LookingBackIsRight body := by
  rw [Interprets]
  by_cases hframed : (trimFlanking str).head? = some slash ∧ (trimFlanking str).getLast? = some slash
  · rcases framed_cases hframed.1 hframed.2 with hone | ⟨body, hbody⟩
    · have hnone : convertToRegex regcomp str = none := by
        rw [convertToRegex, convertText, hone, if_neg (by simp), if_pos (by simp), Option.bind_none]
      rw [hnone]
      exact iff_of_false (some_ne_none _).symm (fun h => h.1 hone)
    · have hbodyZero : 0 ∉ body := by
        intro hmem
        refine hzero (mem_of_mem_trimFlanking ?_)
        rw [hbody]
        exact mem_cons_of_mem _ (mem_append_left _ hmem)
      rw [convertToRegex_framed regcomp hbodyZero hbody, hbody, bodyOf_framed, bind_some,
        Option.some.injEq, (outcome_injective regcomp).eq_iff, lookBack_eq_iff]
      constructor
      · refine fun h => ⟨by simp, ?_⟩
        intro body' hbody'
        rw [List.cons.injEq, append_cancel_right_eq] at hbody'
        exact hbody'.2 ▸ h
      · exact fun h => h.2 body rfl
  · rw [bodyOf, if_neg (fun h => hframed h.2), convertToRegex, convertText,
      if_pos (by rw [← not_and_or]; exact hframed)]
    refine iff_of_true rfl ⟨?_, ?_⟩
    · intro hone
      rw [hone] at hframed
      exact hframed ⟨rfl, rfl⟩
    · intro body hbody
      rw [hbody] at hframed
      exact absurd ⟨head?_framed body, getLast?_framed body⟩ hframed

/-- An escaped backslash before the last slash: the text is rejected. -/
theorem escaped_backslash_rejected :
    ¬ ∀ (regcomp : List UInt8 → ℤ) (str : List UInt8), 0 ∉ str → Interprets regcomp str := by
  intro h
  have hbody : (0 : UInt8) ∉ [backslash, backslash] := by decide
  have htrimmed : trimFlanking [slash, backslash, backslash, slash] =
      slash :: ([backslash, backslash] ++ [slash]) := by decide
  have hright := h (fun _ => 0) [slash, backslash, backslash, slash] (by decide)
  have hlook : lookBack [backslash, backslash] = none := by decide
  have hinterpret : interpret [backslash, backslash] = some [backslash, backslash] := by decide
  rw [Interprets, convertToRegex_framed _ hbody htrimmed, htrimmed, bodyOf_framed, bind_some,
    hlook, hinterpret, Option.some.injEq] at hright
  exact absurd (outcome_injective _ hright) (by decide)

/-- An escaped slash is right. -/
theorem interprets_escaped_slash :
    (0 : UInt8) ∉ [slash, backslash, slash, slash] ∧
      (Interprets (fun _ => 0) [slash, backslash, slash, slash] ↔
        trimFlanking [slash, backslash, slash, slash] ≠ [slash] ∧
          ∀ body, trimFlanking [slash, backslash, slash, slash] = slash :: (body ++ [slash]) →
            LookingBackIsRight body) := by
  have hzero : (0 : UInt8) ∉ [slash, backslash, slash, slash] := by decide
  exact ⟨hzero, interprets_iff (fun _ => 0) _ hzero⟩

end Compare

end EricsTools

end Gargoyle
