import Gargoyle.Data.HashedMap
import Gargoyle.Data.Signed
import Gargoyle.Ddns.LookupUrls
import Gargoyle.EricsTools.Regex

/-!
# Files of services

`load_service_configurations` and `load_service_providers` read a file line by line. A line `service`
with a name begins a section, and the other lines of the section are definitions. Both functions have
the same three loops: over the sections, over the lines in front of a section, and over the lines of a
section. What they make of the definitions is given by `Sections`.

A loop tests how the line just read has ended before it looks at the line.
-/

namespace Gargoyle

open List

open Option (bind_some map_some)

namespace Ddns

namespace ServiceFiles

open CText EricsTools LookupUrls

abbrev Text := List UInt8

def newlineTerminator : Text := [10, 13]

/-- `dyn_read_t`. The terminator is `none` at the end of the file. -/
structure DynRead where
  str : Text
  terminator : Option UInt8
deriving DecidableEq

/-- `dynamic_read`, with what is left of the file. -/
def dynamicRead (file : Text) : DynRead × Text :=
  let rest := file.dropWhile (· ∉ newlineTerminator)
  (⟨file.takeWhile (· ∉ newlineTerminator), rest.head?⟩, rest.tail)

def parseVariableDefinitionLine (line : Text) : Option Text × Option Text :=
  let trimmedLine := trimFlanking (cstr line)
  if trimmedLine.head? = some 35 then (none, none)
  else
    let splitLine := pieces whitespaceSeparators trimmedLine 2 1
    (splitLine[0]?, splitLine[1]?)

/-- What a file of services is read for: the sections and the records that are made of them. A
definition is `none` where the program reads or writes outside of its memory. Nothing is made of a
section without definitions, and a definition does not change the name. A section that is not accepted
is freed, which a section is `discardable` for, and a definition is `Idle` if it leaves the record. -/
structure Sections (σ ρ : Type*) where
  fresh : Option Text → σ
  define : σ → Text → Option Text → Option σ
  name : σ → Option Text
  accepted : σ → Bool
  discardable : σ → Bool
  record : σ → ρ
  Idle : σ → Text → Option Text → Prop
  fresh_rejected : ∀ name, accepted (fresh name) = false
  fresh_discardable : ∀ name, discardable (fresh name) = true
  name_define : ∀ {s s' : σ} {key : Text} {value : Option Text},
    define s key value = some s' → name s' = name s
  record_define : ∀ {s s' : σ} {key : Text} {value : Option Text},
    define s key value = some s' → (record s' = record s ↔ Idle s key value)

def service : Text := bytes "service"

def remaining (next : DynRead) (file : Text) : ℕ :=
  file.length + if next.terminator = none then 0 else 1

theorem remaining_dynamicRead (file : Text) :
    remaining (dynamicRead file).1 (dynamicRead file).2 ≤ file.length := by
  have hle := (dropWhile_sublist (l := file) (· ∉ newlineTerminator)).length_le
  rw [remaining, dynamicRead]
  cases hrest : file.dropWhile (· ∉ newlineTerminator) with
  | nil => exact Nat.zero_le _
  | cons c rest =>
    rw [hrest, length_cons] at hle
    exact hle

theorem remaining_of_terminator {next : DynRead} {file : Text} (h : next.terminator ≠ none) :
    remaining next file = file.length + 1 := by
  rw [remaining, if_neg h]

theorem remaining_dynamicRead_lt {next : DynRead} {file : Text} (h : next.terminator ≠ none) :
    remaining (dynamicRead file).1 (dynamicRead file).2 < remaining next file := by
  rw [remaining_of_terminator h]
  exact Nat.lt_succ_of_le (remaining_dynamicRead file)

def cycleLoop (next : DynRead) (file : Text) : DynRead × Text :=
  if _hline : next.terminator ≠ none ∧
      (parseVariableDefinitionLine next.str).1 ≠ some service then
    cycleLoop (dynamicRead file).1 (dynamicRead file).2
  else (next, file)
termination_by remaining next file
decreasing_by exact remaining_dynamicRead_lt _hline.1

theorem remaining_cycleLoop (next : DynRead) (file : Text) :
    remaining (cycleLoop next file).1 (cycleLoop next file).2 ≤ remaining next file := by
  fun_induction cycleLoop next file with
  | case1 next file h ih => exact ih.trans (remaining_dynamicRead_lt h.1).le
  | case2 next file h => exact Nat.le_refl _

section Loops

variable {σ ρ : Type*} (sections : Sections σ ρ) {hash : Text → ℕ}

def defineLine (s : σ) (line : Text) : Option σ :=
  match parseVariableDefinitionLine line with
  | (none, _) => some s
  | (some name, value) => sections.define s name value

theorem defineLine_of_eq (s : σ) {line name : Text} {value : Option Text}
    (h : parseVariableDefinitionLine line = (some name, value)) :
    defineLine sections s line = sections.define s name value := by
  rw [defineLine, h]

def sectionLoop (next : DynRead) (file : Text) (s : σ) : Option (σ × DynRead × Text) :=
  if _hline : next.terminator ≠ none ∧
      (parseVariableDefinitionLine next.str).1 ≠ some service then
    (defineLine sections s next.str).bind fun s =>
      sectionLoop (dynamicRead file).1 (dynamicRead file).2 s
  else some (s, next, file)
termination_by remaining next file
decreasing_by exact remaining_dynamicRead_lt _hline.1

theorem remaining_sectionLoop {next : DynRead} {file : Text} {s s' : σ} {next' : DynRead}
    {file' : Text} (h : sectionLoop sections next file s = some (s', next', file')) :
    remaining next' file' ≤ remaining next file := by
  fun_induction sectionLoop sections next file s with
  | case1 next file s hline ih =>
    obtain ⟨s₁, -, hrest⟩ := Option.bind_eq_some_iff.1 h
    exact (ih s₁ hrest).trans (remaining_dynamicRead_lt hline.1).le
  | case2 next file s hline =>
    simp only [Option.some.injEq, Prod.mk.injEq] at h
    rw [← h.2.1, ← h.2.2]

/-- What is done with a section that has been read. A record without a name makes the program follow
`NULL`. -/
def store (table : HashedMap hash ρ) (s : σ) : Option (HashedMap hash ρ) :=
  if sections.accepted s = true then
    (sections.name s).map fun name => table.set name (sections.record s)
  else if sections.discardable s = true then some table
  else none

theorem remaining_section_lt {next next' : DynRead} {file file' : Text} {s s' : σ}
    (hfound : (cycleLoop next file).1.terminator ≠ none)
    (h : sectionLoop sections (dynamicRead (cycleLoop next file).2).1
      (dynamicRead (cycleLoop next file).2).2 s = some (s', next', file')) :
    remaining next' file' < remaining next file :=
  lt_of_le_of_lt (remaining_sectionLoop sections h)
    (lt_of_lt_of_le (remaining_dynamicRead_lt hfound) (remaining_cycleLoop next file))

def loadLoop (next : DynRead) (file : Text) (table : HashedMap hash ρ) : Option (HashedMap hash ρ) :=
  if _hnext : next.terminator = none then some table
  else if _hfound : (cycleLoop next file).1.terminator = none then some table
  else
    match _hsection : sectionLoop sections (dynamicRead (cycleLoop next file).2).1
      (dynamicRead (cycleLoop next file).2).2
      (sections.fresh (parseVariableDefinitionLine (cycleLoop next file).1.str).2) with
    | none => none
    | some (s, next', file') =>
      (store sections table s).bind fun table => loadLoop next' file' table
termination_by remaining next file
decreasing_by exact remaining_section_lt sections _hfound _hsection

def loadServices (hash : Text → ℕ) (file : Text) : Option (HashedMap hash ρ) :=
  loadLoop sections (dynamicRead file).1 (dynamicRead file).2 HashedMap.empty

/-! ## One line after the other -/

def lines (file : Text) : List Text := file.splitOnP (· ∈ newlineTerminator)

abbrev State (hash : Text → ℕ) (σ ρ : Type*) := HashedMap hash ρ × Option σ

def finish (st : State hash σ ρ) : Option (HashedMap hash ρ) :=
  match st.2 with
  | none => some st.1
  | some s => store sections st.1 s

def readLine (st : State hash σ ρ) (line : Text) : Option (State hash σ ρ) :=
  if (parseVariableDefinitionLine line).1 = some service then
    (finish sections st).map fun table =>
      (table, some (sections.fresh (parseVariableDefinitionLine line).2))
  else
    match st.2 with
    | none => some st
    | some s => (defineLine sections s line).map fun s => (st.1, some s)

@[simp] theorem finish_none (table : HashedMap hash ρ) :
    finish sections (table, none) = some table := rfl

@[simp] theorem finish_some (table : HashedMap hash ρ) (s : σ) :
    finish sections (table, some s) = store sections table s := rfl

theorem readLine_service (st : State hash σ ρ) {line : Text}
    (h : (parseVariableDefinitionLine line).1 = some service) :
    readLine sections st line = (finish sections st).map fun table =>
      (table, some (sections.fresh (parseVariableDefinitionLine line).2)) := if_pos h

theorem readLine_none (table : HashedMap hash ρ) {line : Text}
    (h : (parseVariableDefinitionLine line).1 ≠ some service) :
    readLine sections (table, none) line = some (table, none) := if_neg h

theorem readLine_some (table : HashedMap hash ρ) (s : σ) {line : Text}
    (h : (parseVariableDefinitionLine line).1 ≠ some service) :
    readLine sections (table, some s) line =
      (defineLine sections s line).map fun s => (table, some s) := if_neg h

def readLines (st : State hash σ ρ) : List Text → Option (State hash σ ρ)
  | [] => some st
  | line :: lines => (readLine sections st line).bind fun st => readLines st lines

theorem readLines_append (st : State hash σ ρ) (ls ls' : List Text) :
    readLines sections st (ls ++ ls') =
      (readLines sections st ls).bind fun st => readLines sections st ls' := by
  induction ls generalizing st with
  | nil => rfl
  | cons line ls ih =>
    rw [cons_append, readLines, readLines]
    cases readLine sections st line with
    | none => rfl
    | some st' =>
      rw [bind_some, bind_some]
      exact ih st'

theorem lines_eq (file : Text) :
    lines file = (dynamicRead file).1.str ::
      if (dynamicRead file).1.terminator = none then [] else lines (dynamicRead file).2 := by
  have hsplit := takeWhile_append_dropWhile (p := (· ∉ newlineTerminator)) (l := file)
  have hfree : ∀ c ∈ file.takeWhile (· ∉ newlineTerminator),
      decide (c ∈ newlineTerminator) = false := by
    intro c hc
    simpa using List.all_eq_true.1 all_takeWhile c hc
  rw [dynamicRead]
  cases hrest : file.dropWhile (· ∉ newlineTerminator) with
  | nil =>
    rw [hrest, List.append_nil] at hsplit
    rw [hsplit] at hfree ⊢
    exact splitOnP_eq_singleton hfree
  | cons c rest =>
    have hc := head?_dropWhile_not (· ∉ newlineTerminator) file
    rw [hrest] at hc hsplit
    have hend : decide (c ∈ newlineTerminator) = true := by simpa using hc
    have hpieces := splitOnP_append_cons_of_forall_mem hfree c hend rest
    rw [hsplit] at hpieces
    exact hpieces

theorem lines_ne_nil (file : Text) : lines file ≠ [] := splitOnP_ne_nil _ _

theorem lines_append_newline (file : Text) : lines (file ++ [10]) = lines file ++ [[]] :=
  splitOnP_append_cons file [] (by decide)

def pending (next : DynRead) (file : Text) : List Text :=
  if next.terminator = none then [] else next.str :: (lines file).dropLast

theorem pending_dynamicRead (file : Text) :
    pending (dynamicRead file).1 (dynamicRead file).2 = (lines file).dropLast := by
  rw [pending, lines_eq file]
  split_ifs with hend
  · rfl
  · rw [dropLast_cons_of_ne_nil (lines_ne_nil _)]

/-! ## The loops read one line after the other -/

theorem pending_cons {next : DynRead} {file : Text} (h : next.terminator ≠ none) :
    pending next file =
      next.str :: pending (dynamicRead file).1 (dynamicRead file).2 := by
  rw [pending, if_neg h, pending_dynamicRead]

/-- Where a loop over lines stops: at the end of the file or at a `service` line. -/
def Stopped (next : DynRead) : Prop :=
  next.terminator ≠ none → (parseVariableDefinitionLine next.str).1 = some service

theorem stopped_of_not {next : DynRead}
    (h : ¬(next.terminator ≠ none ∧
      (parseVariableDefinitionLine next.str).1 ≠ some service)) : Stopped next := by
  intro hnext
  by_contra hname
  exact h ⟨hnext, hname⟩

theorem stopped_cycleLoop (next : DynRead) (file : Text) : Stopped (cycleLoop next file).1 := by
  fun_induction cycleLoop next file with
  | case1 next file h ih => exact ih
  | case2 next file h => exact stopped_of_not h

theorem readLines_cycleLoop (next : DynRead) (file : Text) (table : HashedMap hash ρ) :
    readLines sections (table, none) (pending (cycleLoop next file).1 (cycleLoop next file).2) =
      readLines sections (table, none) (pending next file) := by
  fun_induction cycleLoop next file with
  | case1 next file h ih =>
    rw [ih, pending_cons h.1, readLines, readLine_none sections table h.2, bind_some]
  | case2 next file h => rfl

theorem stopped_sectionLoop {next : DynRead} {file : Text} {s s' : σ} {next' : DynRead}
    {file' : Text} (h : sectionLoop sections next file s = some (s', next', file')) :
    Stopped next' := by
  fun_induction sectionLoop sections next file s with
  | case1 next file s hline ih =>
    obtain ⟨s₁, -, hrest⟩ := Option.bind_eq_some_iff.1 h
    exact ih s₁ hrest
  | case2 next file s hline =>
    simp only [Option.some.injEq, Prod.mk.injEq] at h
    rw [← h.2.1]
    exact stopped_of_not hline

theorem readLines_sectionLoop (next : DynRead) (file : Text) (s : σ) (table : HashedMap hash ρ) :
    readLines sections (table, some s) (pending next file) =
      (sectionLoop sections next file s).bind fun r =>
        readLines sections (table, some r.1) (pending r.2.1 r.2.2) := by
  fun_induction sectionLoop sections next file s with
  | case1 next file s hline ih =>
    rw [pending_cons hline.1, readLines, readLine_some sections table s hline.2]
    cases hdef : defineLine sections s next.str with
    | none => rfl
    | some s₁ => exact ih s₁
  | case2 next file s hline => rfl

theorem readLines_stopped {next : DynRead} (hstop : Stopped next) (file : Text) (s : σ)
    (table : HashedMap hash ρ) :
    (readLines sections (table, some s) (pending next file)).bind (finish sections) =
      (store sections table s).bind fun table =>
        (readLines sections (table, none) (pending next file)).bind (finish sections) := by
  by_cases hnext : next.terminator = none
  · have hpending : pending next file = [] := if_pos hnext
    rw [hpending]
    cases hstore : store sections table s with
    | none => exact hstore
    | some table' => exact hstore
  · rw [pending_cons hnext, readLines, readLine_service sections _ (hstop hnext), finish_some]
    cases hstore : store sections table s with
    | none => rfl
    | some table' =>
      rw [bind_some, readLines, readLine_service sections _ (hstop hnext), finish_none]

/-- The loop reads one line after the other and finishes. -/
theorem loadLoop_eq (next : DynRead) (file : Text) (table : HashedMap hash ρ) :
    loadLoop sections next file table =
      (readLines sections (table, none) (pending next file)).bind (finish sections) := by
  fun_induction loadLoop sections next file table with
  | case1 next file table hnext =>
    have hpending : pending next file = [] := if_pos hnext
    rw [hpending]
    rfl
  | case2 next file table hnext hfound =>
    have hpending : pending (cycleLoop next file).1 (cycleLoop next file).2 = [] :=
      if_pos hfound
    rw [← readLines_cycleLoop, hpending]
    rfl
  | case3 next file table hnext hfound hsection =>
    rw [← readLines_cycleLoop, pending_cons hfound, readLines,
      readLine_service sections _ (stopped_cycleLoop next file hfound), finish_none,
      map_some, bind_some, readLines_sectionLoop, hsection]
    rfl
  | case4 next file table hnext hfound s next' file' hsection ih =>
    rw [← readLines_cycleLoop, pending_cons hfound, readLines,
      readLine_service sections _ (stopped_cycleLoop next file hfound), finish_none,
      map_some, bind_some, readLines_sectionLoop, hsection, bind_some,
      readLines_stopped sections (stopped_sectionLoop sections hsection)]
    congr 1
    funext table'
    exact ih table'

theorem loadServices_eq (hash : Text → ℕ) (file : Text) :
    loadServices sections hash file =
      (readLines sections (HashedMap.empty, none) (lines file).dropLast).bind (finish sections) := by
  rw [loadServices, loadLoop_eq, pending_dynamicRead]

/-! ## The last line -/

def beforeLast (hash : Text → ℕ) (file : Text) : Option (State hash σ ρ) :=
  readLines sections (HashedMap.empty, none) (lines file).dropLast

def lastLine (file : Text) : Text := (lines file).getLast (lines_ne_nil file)

theorem loadServices_newline (hash : Text → ℕ) (file : Text) :
    loadServices sections hash (file ++ [10]) =
      (beforeLast sections hash file).bind fun st =>
        (readLine sections st (lastLine file)).bind (finish sections) := by
  rw [loadServices_eq, lines_append_newline, dropLast_concat]
  conv_lhs => rw [← dropLast_append_getLast (lines_ne_nil file)]
  rw [readLines_append, Option.bind_assoc, beforeLast]
  congr 1
  funext st
  rw [lastLine, readLines, Option.bind_assoc]
  rfl

/-- The program follows `NULL` or frees something twice at the end of the section. -/
def Faulty (s : σ) : Prop :=
  if sections.accepted s = true then sections.name s = none else sections.discardable s = false

/-- A record is in the table, from an earlier section with the name of this one. -/
def Stored (table : HashedMap hash ρ) (s : σ) (record : ρ) : Prop :=
  ∃ name, sections.name s = some name ∧ (name, record) ∈ table.entries

/-- A definition that is read out of bounds is spared in a section at whose end the program faults, and
any other one if the program faults with it and without it, or with neither and one of these holds. The
section is accepted and the definition idle. The section is rejected and not completed. The section is
spoiled or completed, and the record that it has without the definition or with it is there. -/
def Spared (table : HashedMap hash ρ) (s : σ) (key : Text) (value : Option Text) : Prop :=
  match sections.define s key value with
  | none => Faulty sections s
  | some s' =>
    (Faulty sections s ↔ Faulty sections s') ∧ (¬Faulty sections s →
      match sections.accepted s, sections.accepted s' with
      | true, true => sections.Idle s key value
      | false, false => True
      | true, false => Stored sections table s (sections.record s)
      | false, true => Stored sections table s (sections.record s'))

def NeedsNoBreak (st : State hash σ ρ) (line : Text) : Prop :=
  ∀ s name value, st.2 = some s → parseVariableDefinitionLine line = (some name, value) →
    name ≠ service → Spared sections st.1 s name value

theorem store_eq_none_iff (table : HashedMap hash ρ) (s : σ) :
    store sections table s = none ↔ Faulty sections s := by
  rw [Faulty, store]
  cases sections.accepted s <;> simp

theorem exists_store (table : HashedMap hash ρ) {s : σ} (h : ¬Faulty sections s) :
    if sections.accepted s = true then
      ∃ name, sections.name s = some name ∧
        store sections table s = some (table.set name (sections.record s))
    else store sections table s = some table := by
  rw [Faulty] at h
  split_ifs at h ⊢ with haccepted
  · obtain ⟨name, hname⟩ := Option.ne_none_iff_exists'.1 h
    exact ⟨name, hname, by rw [store, if_pos haccepted, hname, map_some]⟩
  · rw [store, if_neg haccepted, if_pos (Bool.eq_true_of_not_eq_false h)]

theorem stored_iff {table : HashedMap hash ρ} {s : σ} {name : Text}
    (hname : sections.name s = some name) (record : ρ) :
    Stored sections table s record ↔ table.set name record = table := by
  rw [HashedMap.set_eq_self_iff, Stored, hname]
  simp

/-- When a definition makes no difference to what is stored. -/
theorem store_eq_iff (table : HashedMap hash ρ) {s s' : σ} {key : Text} {value : Option Text}
    (hdefine : sections.define s key value = some s') :
    store sections table s = store sections table s' ↔ Spared sections table s key value := by
  have hname := sections.name_define hdefine
  simp only [Spared, hdefine]
  by_cases hfaulty : Faulty sections s
  · rw [(store_eq_none_iff sections table s).2 hfaulty, eq_comm, store_eq_none_iff]
    simp [hfaulty]
  · by_cases hfaulty' : Faulty sections s'
    · rw [(store_eq_none_iff sections table s').2 hfaulty', store_eq_none_iff]
      simp [hfaulty, hfaulty']
    · have hstore := exists_store sections table hfaulty
      have hstore' := exists_store sections table hfaulty'
      rw [hname] at hstore'
      simp only [hfaulty, hfaulty', not_false_eq_true, true_and, true_implies]
      cases hs : sections.accepted s <;> cases hs' : sections.accepted s'
      all_goals simp only [hs, hs', if_true, if_false, Bool.false_eq_true] at hstore hstore' ⊢
      · rw [hstore, hstore']
        simp
      · obtain ⟨name, hkey, hstore'⟩ := hstore'
        rw [hstore, hstore', Option.some.injEq, eq_comm, stored_iff sections hkey]
      · obtain ⟨name, hkey, hstore⟩ := hstore
        rw [hstore, hstore', Option.some.injEq, stored_iff sections hkey]
      · obtain ⟨name, hkey, hstore⟩ := hstore
        obtain ⟨name', hkey', hstore'⟩ := hstore'
        obtain rfl := Option.some.inj (hkey.symm.trans hkey')
        rw [hstore, hstore', Option.some.injEq, HashedMap.set_inj, eq_comm,
          sections.record_define hdefine]

/-- When the last line makes no difference without its line break. -/
theorem finish_eq_iff (st : State hash σ ρ) (line : Text) :
    finish sections st = (readLine sections st line).bind (finish sections) ↔
      NeedsNoBreak sections st line := by
  obtain ⟨table, section?⟩ := st
  by_cases hservice : (parseVariableDefinitionLine line).1 = some service
  · have hkeep : finish sections (table, section?) =
        (readLine sections (table, section?) line).bind (finish sections) := by
      rw [readLine_service sections _ hservice]
      cases hend : finish sections (table, section?) with
      | none => rfl
      | some table' =>
        rw [map_some, bind_some, finish_some, store, sections.fresh_rejected,
          sections.fresh_discardable]
        rfl
    refine iff_of_true hkeep fun s name value _ hline hname => ?_
    rw [hline] at hservice
    exact absurd (Option.some.inj hservice) hname
  · cases section? with
    | none =>
      refine iff_of_true ?_ fun s name value hs => by cases hs
      rw [readLine_none sections table hservice, bind_some]
    | some s =>
      rw [readLine_some sections table s hservice, finish_some]
      cases hline : parseVariableDefinitionLine line with
      | mk name? value =>
        cases name? with
        | none =>
          rw [defineLine, hline]
          refine iff_of_true rfl fun s name value' _ hline' _ => ?_
          rw [hline] at hline'
          cases hline'
        | some name =>
          have hname : name ≠ service := by
            rintro rfl
            exact hservice (by rw [hline])
          have hiff : NeedsNoBreak sections (table, some s) line ↔
              Spared sections table s name value := by
            constructor
            · intro h
              exact h s name value rfl hline hname
            · intro h s' name' value' hs hline' _
              rw [hline] at hline'
              cases hs
              cases hline'
              exact h
          rw [hiff, defineLine_of_eq sections s hline]
          cases hdef : sections.define s name value with
          | none =>
            simp only [Spared, hdef]
            exact store_eq_none_iff sections table s
          | some s' => exact store_eq_iff sections table hdef

def EndsComplete (hash : Text → ℕ) (file : Text) : Prop :=
  ∀ st, beforeLast sections hash file = some st → NeedsNoBreak sections st (lastLine file)

theorem loadServices_newline_eq_iff (hash : Text → ℕ) (file : Text) :
    loadServices sections hash file = loadServices sections hash (file ++ [10]) ↔
      EndsComplete sections hash file := by
  rw [loadServices_newline, loadServices_eq, ← beforeLast, EndsComplete]
  cases hst : beforeLast sections hash file with
  | none => simp
  | some st =>
    rw [bind_some, bind_some, finish_eq_iff]
    simp

end Loops

/-!
## The services and the service providers

The sections of the two files. A section of the configuration file is accepted if the service is enabled,
has a known provider of the same family, intervals and a source of its address. A section of the provider
file is accepted if it has either a template or a script, and what is needed with it.

Both files are read without their last line if that has no line break. The content does not depend on
the line break if and only if that line makes no difference to its section.
-/

variable {hash : Text → ℕ}

/-- `sscanf` with `%d`. -/
def scanInt (value : Text) : Option ℤ :=
  Signed.scanSigned 32 (value.map fun c => Char.ofNat c.toNat)

/-- `split_on_separators` with no limit to the number of pieces. -/
def splitValue (value : Text) : List Text := pieces whitespaceSeparators value (-1) 0

abbrev KeylessMap := HashedMap (id : ℕ → ℕ) Text

/-- `INTERFACE` and `INTERNET`. -/
inductive IpSource
  | interface
  | internet
deriving DecidableEq

variable (hash) in
/-- `ddns_service_config`. An interval that is not given is `-1`. -/
@[ext]
structure ServiceConfig where
  name : Option Text
  serviceProvider : Option Text := none
  ipv6 : ℤ := 0
  checkInterval : ℤ := -1
  forceInterval : ℤ := -1
  ipSource : Option IpSource := none
  ipUrl : Option (List Text) := none
  ipInterface : Option Text := none
  variableDefinitions : HashedMap hash Text := HashedMap.empty
  cachedMetaVariables : KeylessMap := HashedMap.empty

/-- `ddns_service_provider`. A regular expression is the text that `regcomp` has compiled. -/
@[ext]
structure ServiceProvider where
  name : Option Text
  urlTemplate : Option Text := none
  externalScript : Option Text := none
  ipv6 : ℤ := 0
  requiredVariables : Option (List Text) := none
  optionalVariables : Option (List Text) := none
  optionalVariableDefaults : Option (List Text) := none
  metaVariables : Option (List Text) := none
  metaVariableDefs : KeylessMap := HashedMap.empty
  metaVariablesToCache : KeylessMap := HashedMap.empty
  unescapedVariables : KeylessMap := HashedMap.empty
  successRegexp : Option Text := none
  failureRegexp : Option Text := none

def getMultipleForUnit (unit : Text) : ℤ :=
  if unit = bytes "minutes" then 60
  else if unit = bytes "hours" then 60 * 60
  else if unit = bytes "days" then 24 * 60 * 60
  else if unit = bytes "weeks" then 7 * 24 * 60 * 60
  else 1

def inUnit (interval : ℤ) (unit : Option Text) : ℤ :=
  match unit with
  | none => interval
  | some unit => if 0 < interval then (interval * getMultipleForUnit unit).bmod (2 ^ 32) else interval

def IpSource.ofText (current : Option IpSource) (value : Text) : Option IpSource :=
  if value.map tolower = bytes "internet" then some .internet
  else if value.map tolower = bytes "interface" then some .interface
  else current

variable (hash) in
/-- A section of the configuration file, with `service_enabled`. -/
structure ConfigSection where
  config : ServiceConfig hash
  serviceEnabled : ℤ := 0

namespace ConfigSection

def define (s : ConfigSection hash) (key : Text) (value? : Option Text) : ConfigSection hash :=
  let config := s.config
  match value? with
  | none => { s with config := { config with
      variableDefinitions := config.variableDefinitions.set key [] } }
  | some value =>
    if key = bytes "enabled" then
      { s with serviceEnabled := (scanInt value).getD s.serviceEnabled }
    else if key = bytes "service_provider" then
      { s with config := { config with serviceProvider := some value } }
    else if key = bytes "check_interval" then
      { s with config := { config with
        checkInterval := (scanInt value).getD config.checkInterval } }
    else if key = bytes "force_interval" then
      { s with config := { config with
        forceInterval := (scanInt value).getD config.forceInterval } }
    else if key = bytes "ip_source" then
      { s with config := { config with ipSource := IpSource.ofText config.ipSource value } }
    else if key = bytes "ip_url" then
      { s with config := { config with ipUrl := some (splitValue value) } }
    else if key = bytes "ip_interface" then
      { s with config := { config with ipInterface := some value } }
    else if key = bytes "ipv6" then
      { s with config := { config with ipv6 := (scanInt value).getD config.ipv6 } }
    else
      { s with config := { config with
        variableDefinitions := config.variableDefinitions.set key value } }

theorem name_define (s : ConfigSection hash) (key : Text) (value? : Option Text) :
    (s.define key value?).config.name = s.config.name := by
  cases value? with
  | none => rfl
  | some value =>
    simp only [define, apply_ite config, apply_ite ServiceConfig.name, ite_self]

def record (s : ConfigSection hash) : ServiceConfig hash :=
  let forceUnit := s.config.variableDefinitions.get (bytes "force_unit")
  let withoutForce := s.config.variableDefinitions.remove (bytes "force_unit")
  { s.config with
    forceInterval := inUnit s.config.forceInterval forceUnit
    checkInterval := inUnit s.config.checkInterval (withoutForce.get (bytes "check_unit"))
    variableDefinitions := withoutForce.remove (bytes "check_unit") }

def accepted (providers : HashedMap hash ServiceProvider) (s : ConfigSection hash) : Bool :=
  let config := s.record
  match config.serviceProvider.bind providers.get with
  | none => false
  | some provider =>
    0 < s.serviceEnabled && 0 < config.checkInterval && 0 < config.forceInterval &&
      (config.ipSource = some .internet ||
        config.ipSource = some .interface && config.ipInterface.isSome) &&
      provider.ipv6 = config.ipv6

theorem accepted_fresh (providers : HashedMap hash ServiceProvider) (name : Option Text) :
    accepted providers { config := { name := name } } = false := rfl

/-- A variable is there already, or it is a unit of which nothing comes. -/
def IdleVariable (config : ServiceConfig hash) (key value : Text) : Prop :=
  let before := config.variableDefinitions
  let others := before.remove (bytes "force_unit")
  let others' := (before.set key value).remove (bytes "force_unit")
  inUnit config.forceInterval ((before.set key value).get (bytes "force_unit")) =
      inUnit config.forceInterval (before.get (bytes "force_unit")) ∧
    inUnit config.checkInterval (others'.get (bytes "check_unit")) =
      inUnit config.checkInterval (others.get (bytes "check_unit")) ∧
    others'.remove (bytes "check_unit") = others.remove (bytes "check_unit")

/-- A definition repeats what the section says, or has no part in the record. -/
def Idle (s : ConfigSection hash) (key : Text) (value? : Option Text) : Prop :=
  let config := s.config
  match value? with
  | none => IdleVariable config key []
  | some value =>
    if key = bytes "enabled" then True
    else if key = bytes "service_provider" then some value = config.serviceProvider
    else if key = bytes "check_interval" then
      let unit := (config.variableDefinitions.remove (bytes "force_unit")).get (bytes "check_unit")
      inUnit ((scanInt value).getD config.checkInterval) unit = inUnit config.checkInterval unit
    else if key = bytes "force_interval" then
      let unit := config.variableDefinitions.get (bytes "force_unit")
      inUnit ((scanInt value).getD config.forceInterval) unit = inUnit config.forceInterval unit
    else if key = bytes "ip_source" then IpSource.ofText config.ipSource value = config.ipSource
    else if key = bytes "ip_url" then some (splitValue value) = config.ipUrl
    else if key = bytes "ip_interface" then some value = config.ipInterface
    else if key = bytes "ipv6" then (scanInt value).getD config.ipv6 = config.ipv6
    else IdleVariable config key value

theorem record_define {s s' : ConfigSection hash} {key : Text} {value? : Option Text}
    (h : some (s.define key value?) = some s') : s'.record = s.record ↔ s.Idle key value? := by
  obtain rfl := Option.some.inj h
  cases value? with
  | none => simp [define, Idle, IdleVariable, record, ServiceConfig.ext_iff, and_left_comm]
  | some value =>
    simp only [define, Idle]
    split_ifs <;> simp [IdleVariable, record, ServiceConfig.ext_iff, and_left_comm]

theorem name_of_define {s s' : ConfigSection hash} {key : Text} {value? : Option Text}
    (h : some (s.define key value?) = some s') : s'.config.name = s.config.name := by
  rw [← Option.some.inj h, name_define]

end ConfigSection

def configSections (providers : HashedMap hash ServiceProvider) :
    Sections (ConfigSection hash) (ServiceConfig hash) where
  fresh name := { config := { name := name } }
  define s key value? := some (s.define key value?)
  name s := s.config.name
  accepted := ConfigSection.accepted providers
  discardable _ := true
  record := ConfigSection.record
  Idle := ConfigSection.Idle
  fresh_rejected := ConfigSection.accepted_fresh providers
  fresh_discardable _ := rfl
  name_define := ConfigSection.name_of_define
  record_define := ConfigSection.record_define

def loadServiceConfigurations (hash : Text → ℕ) (file : Text)
    (serviceProviders : HashedMap hash ServiceProvider) :
    Option (HashedMap hash (ServiceConfig hash)) :=
  loadServices (configSections serviceProviders) hash file

namespace ServiceProvider

/-- A map in which each of some names has the value `1`. -/
def addNames (hash : Text → ℕ) (map : KeylessMap) (names : List Text) : KeylessMap :=
  names.foldl (fun map name => map.set (hash name) (bytes "1")) map

/-- A regular expression is kept if `convert_to_regex` returns 1. -/
def setRegexp (p : ServiceProvider) (key : Text) (r : Option Text × ℤ) :
    ServiceProvider :=
  if r.2 = 1 then
    { p with
      successRegexp := if key = bytes "success_regexp" then r.1 else p.successRegexp
      failureRegexp := if key = bytes "failure_regexp" then r.1 else p.failureRegexp }
  else p

theorem name_setRegexp (p : ServiceProvider) (key : Text) (r : Option Text × ℤ) :
    (p.setRegexp key r).name = p.name := by
  rw [setRegexp]
  split_ifs <;> rfl

def define (regcomp : Text → ℤ) (hash : Text → ℕ) (p : ServiceProvider) (key : Text) :
    Option Text → Option ServiceProvider
  | none => some p
  | some value =>
    if key = bytes "url_template" then some { p with urlTemplate := some value }
    else if key = bytes "external_script" then some { p with externalScript := some value }
    else if key = bytes "ipv6" then some { p with ipv6 := (scanInt value).getD p.ipv6 }
    else if key = bytes "required_variables" then
      some { p with requiredVariables := some (splitValue value) }
    else if key = bytes "optional_variables" then
      some { p with optionalVariables := some (splitValue value) }
    else if key = bytes "optional_variable_defaults" then
      some { p with optionalVariableDefaults := some (splitValue value) }
    else if key = bytes "meta_variables" then
      some { p with metaVariables := some (splitValue value) }
    else if key = bytes "meta_variables_to_cache" then
      some { p with metaVariablesToCache := addNames hash p.metaVariablesToCache (splitValue value) }
    else if key = bytes "unescaped_variables" then
      some { p with unescapedVariables := addNames hash p.unescapedVariables (splitValue value) }
    else if key = bytes "success_regexp" ∨ key = bytes "failure_regexp" then
      (convertToRegex regcomp value).map (p.setRegexp key)
    else some { p with metaVariableDefs := p.metaVariableDefs.set (hash key) value }

theorem map_name_define (regcomp : Text → ℤ) (hash : Text → ℕ) (p : ServiceProvider) (key : Text)
    (value? : Option Text) : (p.define regcomp hash key value?).map name =
      (p.define regcomp hash key value?).map fun _ => p.name := by
  cases value? with
  | none => rfl
  | some value =>
    have hregexp : name ∘ p.setRegexp key = fun _ => p.name := funext (name_setRegexp p key)
    simp only [define, apply_ite (Option.map _), map_some, Option.map_map, hregexp]
    rfl

theorem name_define {regcomp : Text → ℤ} {p p' : ServiceProvider} {key : Text}
    {value? : Option Text} (h : p.define regcomp hash key value? = some p') : p'.name = p.name := by
  have hname := map_name_define regcomp hash p key value?
  rw [h] at hname
  exact Option.some.inj hname

def accepted (p : ServiceProvider) : Bool :=
  if p.urlTemplate.isSome && p.externalScript.isSome then false
  else if p.urlTemplate.isSome && p.requiredVariables.isSome &&
      (p.successRegexp.isSome || p.failureRegexp.isSome) then true
  else p.externalScript.isSome && p.requiredVariables.isSome

theorem accepted_fresh (name : Option Text) :
    accepted ({ name := name } : ServiceProvider) = false := rfl

/-- `free_service_provider` frees `success_regexp` twice if there are both expressions. -/
def discardable (p : ServiceProvider) : Bool :=
  !(p.successRegexp.isSome && p.failureRegexp.isSome)

theorem discardable_fresh (name : Option Text) :
    discardable ({ name := name } : ServiceProvider) = true := rfl

def regexp (p : ServiceProvider) (key : Text) : Option Text :=
  if key = bytes "success_regexp" then p.successRegexp else p.failureRegexp

/-- A definition repeats what the section says. -/
def Idle (regcomp : Text → ℤ) (hash : Text → ℕ) (p : ServiceProvider) (key : Text) :
    Option Text → Prop
  | none => True
  | some value =>
    if key = bytes "url_template" then some value = p.urlTemplate
    else if key = bytes "external_script" then some value = p.externalScript
    else if key = bytes "ipv6" then (scanInt value).getD p.ipv6 = p.ipv6
    else if key = bytes "required_variables" then some (splitValue value) = p.requiredVariables
    else if key = bytes "optional_variables" then some (splitValue value) = p.optionalVariables
    else if key = bytes "optional_variable_defaults" then
      some (splitValue value) = p.optionalVariableDefaults
    else if key = bytes "meta_variables" then some (splitValue value) = p.metaVariables
    else if key = bytes "meta_variables_to_cache" then
      addNames hash p.metaVariablesToCache (splitValue value) = p.metaVariablesToCache
    else if key = bytes "unescaped_variables" then
      addNames hash p.unescapedVariables (splitValue value) = p.unescapedVariables
    else if key = bytes "success_regexp" ∨ key = bytes "failure_regexp" then
      ∀ r, convertToRegex regcomp value = some r → r.2 = 1 → r.1 = p.regexp key
    else (hash key, value) ∈ p.metaVariableDefs.entries

theorem setRegexp_eq_self_iff (p : ServiceProvider) {key : Text}
    (hkey : key = bytes "success_regexp" ∨ key = bytes "failure_regexp") (r : Option Text × ℤ) :
    p.setRegexp key r = p ↔ (r.2 = 1 → r.1 = p.regexp key) := by
  have hne : bytes "failure_regexp" ≠ bytes "success_regexp" := by decide
  rw [setRegexp, regexp]
  by_cases hvalid : r.2 = 1
  · obtain rfl | rfl := hkey
    · simp [ServiceProvider.ext_iff, hvalid, hne.symm]
    · simp [ServiceProvider.ext_iff, hvalid, hne]
  · simp [hvalid]

theorem define_regexp (regcomp : Text → ℤ) (hash : Text → ℕ) (p : ServiceProvider)
    {key value : Text} (hkey : key = bytes "success_regexp" ∨ key = bytes "failure_regexp") :
    p.define regcomp hash key (some value) =
      (convertToRegex regcomp value).map (p.setRegexp key) := by
  rw [define]
  obtain rfl | rfl := hkey
  all_goals
    iterate 9 rw [if_neg (by decide)]
    rw [if_pos (by simp)]

theorem idle_regexp (regcomp : Text → ℤ) (hash : Text → ℕ) (p : ServiceProvider)
    {key value : Text} (hkey : key = bytes "success_regexp" ∨ key = bytes "failure_regexp") :
    p.Idle regcomp hash key (some value) ↔
      ∀ r, convertToRegex regcomp value = some r → r.2 = 1 → r.1 = p.regexp key := by
  rw [Idle]
  obtain rfl | rfl := hkey
  all_goals
    iterate 9 rw [if_neg (by decide)]
    rw [if_pos (by simp)]

theorem define_eq_self_iff {regcomp : Text → ℤ} {p p' : ServiceProvider} {key : Text}
    {value? : Option Text} (h : p.define regcomp hash key value? = some p') :
    p' = p ↔ p.Idle regcomp hash key value? := by
  cases value? with
  | none => simp [Idle, ← Option.some.inj h]
  | some value =>
    by_cases hregexp : key = bytes "success_regexp" ∨ key = bytes "failure_regexp"
    · rw [define_regexp regcomp hash p hregexp, Option.map_eq_some_iff] at h
      obtain ⟨r, hr, rfl⟩ := h
      rw [setRegexp_eq_self_iff p hregexp r, idle_regexp regcomp hash p hregexp, hr]
      simp
    · revert h
      simp only [define, Idle, if_neg hregexp]
      split_ifs
      all_goals
        intro h
        obtain rfl := Option.some.inj h
        simp only [ServiceProvider.ext_iff, HashedMap.set_eq_self_iff, true_and, and_true]

end ServiceProvider

def providerSections (regcomp : Text → ℤ) (hash : Text → ℕ) :
    Sections ServiceProvider ServiceProvider where
  fresh name := { name := name }
  define := ServiceProvider.define regcomp hash
  name p := p.name
  accepted := ServiceProvider.accepted
  discardable := ServiceProvider.discardable
  record := id
  Idle := ServiceProvider.Idle regcomp hash
  fresh_rejected := ServiceProvider.accepted_fresh
  fresh_discardable := ServiceProvider.discardable_fresh
  name_define := ServiceProvider.name_define
  record_define := ServiceProvider.define_eq_self_iff

def loadServiceProviders (regcomp : Text → ℤ) (hash : Text → ℕ) (file : Text) :
    Option (HashedMap hash ServiceProvider) :=
  loadServices (providerSections regcomp hash) hash file

/-! ### What a file means -/

abbrev Definition : Type := Text × Option Text

def definitions (lines : List Text) : List Definition :=
  lines.filterMap fun line =>
    (parseVariableDefinitionLine line).1.map fun key => (key, (parseVariableDefinitionLine line).2)

def splitSections : List Definition → List Definition × List (Option Text × List Definition)
  | [] => ([], [])
  | d :: ds =>
    if d.1 = service then ([], (d.2, (splitSections ds).1) :: (splitSections ds).2)
    else (d :: (splitSections ds).1, (splitSections ds).2)

section Meaning

variable {σ ρ : Type*} (sections : Sections σ ρ) {hash : Text → ℕ}

def defineAll (s : σ) (ds : List Definition) : Option σ :=
  ds.foldlM (fun s d => sections.define s d.1 d.2) s

def storeAll (table : HashedMap hash ρ) (parts : List (Option Text × List Definition)) :
    Option (HashedMap hash ρ) :=
  parts.foldlM (fun table part =>
    (defineAll sections (sections.fresh part.1) part.2).bind (store sections table)) table

theorem storeAll_cons (table : HashedMap hash ρ) (name : Option Text) (ds : List Definition)
    (parts : List (Option Text × List Definition)) : storeAll sections table ((name, ds) :: parts) =
      (defineAll sections (sections.fresh name) ds).bind fun s =>
        (store sections table s).bind fun table => storeAll sections table parts := by
  rw [storeAll, List.foldlM_cons, Option.bind_eq_bind, Option.bind_assoc]
  rfl

/-- The table in the end, in a section and in front of the first one. -/
theorem readLines_finish (ls : List Text) (table : HashedMap hash ρ) :
    (∀ s, (readLines sections (table, some s) ls).bind (finish sections) =
      (defineAll sections s (splitSections (definitions ls)).1).bind fun s =>
        (store sections table s).bind fun table =>
          storeAll sections table (splitSections (definitions ls)).2) ∧
      (readLines sections (table, none) ls).bind (finish sections) =
        storeAll sections table (splitSections (definitions ls)).2 := by
  induction ls generalizing table with
  | nil =>
    refine ⟨fun s => ?_, rfl⟩
    show store sections table s = (store sections table s).bind some
    exact (Option.bind_fun_some _).symm
  | cons line ls ih =>
    cases hparse : parseVariableDefinitionLine line with
    | mk key value =>
      cases key with
      | none =>
        have hkey : (parseVariableDefinitionLine line).1 ≠ some service := by simp [hparse]
        have hdefs : definitions (line :: ls) = definitions ls := by
          simp [definitions, hparse]
        rw [hdefs]
        refine ⟨fun s => ?_, ?_⟩
        · rw [readLines, readLine_some sections table s hkey, defineLine, hparse]
          exact (ih table).1 s
        · rw [readLines, readLine_none sections table hkey]
          exact (ih table).2
      | some key =>
        have hdefs : definitions (line :: ls) = (key, value) :: definitions ls := by
          simp [definitions, hparse]
        rw [hdefs, splitSections]
        by_cases hservice : key = service
        · have hkey : (parseVariableDefinitionLine line).1 = some service := by
            rw [hparse, hservice]
          rw [if_pos hservice]
          refine ⟨fun s => ?_, ?_⟩
          · rw [readLines, readLine_service sections _ hkey, hparse, finish_some, defineAll,
              List.foldlM_nil]
            show _ = (store sections table s).bind _
            cases store sections table s with
            | none => rfl
            | some table' => exact ((ih table').1 _).trans (storeAll_cons ..).symm
          · rw [readLines, readLine_service sections _ hkey, hparse]
            exact ((ih table).1 _).trans (storeAll_cons ..).symm
        · have hkey : (parseVariableDefinitionLine line).1 ≠ some service := by
            rw [hparse]
            exact fun h => hservice (Option.some.inj h)
          rw [if_neg hservice]
          refine ⟨fun s => ?_, ?_⟩
          · rw [readLines, readLine_some sections table s hkey, defineLine_of_eq sections s hparse,
              defineAll, List.foldlM_cons]
            cases sections.define s key value with
            | none => rfl
            | some s' => exact (ih table).1 s'
          · rw [readLines, readLine_none sections table hkey]
            exact (ih table).2

theorem loadServices_sections (hash : Text → ℕ) (file : Text) :
    loadServices sections hash file = storeAll sections HashedMap.empty
      (splitSections (definitions (lines file).dropLast)).2 := by
  rw [loadServices_eq]
  exact (readLines_finish sections _ _).2

end Meaning

/-- Both files are read as their sections: what stands in front of the first one is skipped, and each
section is made from its own definitions alone and stored before the next one. -/
theorem load_sections (regcomp : Text → ℤ) (hash : Text → ℕ) (file : Text)
    (serviceProviders : HashedMap hash ServiceProvider) :
    let parts := (splitSections (definitions (lines file).dropLast)).2
    loadServiceConfigurations hash file serviceProviders =
        storeAll (configSections serviceProviders) HashedMap.empty parts ∧
      loadServiceProviders regcomp hash file =
        storeAll (providerSections regcomp hash) HashedMap.empty parts :=
  ⟨loadServices_sections _ hash file, loadServices_sections _ hash file⟩

/-- A line break at the end of a file changes nothing if and only if the file needs none. -/
theorem load_newline_eq_iff (regcomp : Text → ℤ) (hash : Text → ℕ) (file : Text)
    (serviceProviders : HashedMap hash ServiceProvider) :
    (loadServiceConfigurations hash file serviceProviders =
        loadServiceConfigurations hash (file ++ [10]) serviceProviders ↔
      EndsComplete (configSections serviceProviders) hash file) ∧
    (loadServiceProviders regcomp hash file = loadServiceProviders regcomp hash (file ++ [10]) ↔
      EndsComplete (providerSections regcomp hash) hash file) :=
  ⟨loadServices_newline_eq_iff _ hash file, loadServices_newline_eq_iff _ hash file⟩

/-- `sdbm_string_hash`, for a word of 64 bits. -/
def mapHash (key : Text) : ℕ :=
  key.foldl (fun h c => (c.toNat + h * 2 ^ 6 + h * 2 ^ 16 - h) % 2 ^ 64) 0

/-- The script of a provider that the file ends in is not read. -/
theorem last_script_lost :
    loadServiceProviders (fun _ => 0) mapHash
        (bytes "service a\nrequired_variables x\nexternal_script y") ≠
      loadServiceProviders (fun _ => 0) mapHash
        (bytes "service a\nrequired_variables x\nexternal_script y" ++ [10]) := by
  intro h
  have hkeys := congrArg (Option.map HashedMap.keys) h
  rw [loadServiceProviders, loadServiceProviders, loadServices_newline, loadServices_eq] at hkeys
  revert hkeys
  decide

end ServiceFiles

end Ddns

end Gargoyle
