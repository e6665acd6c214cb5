import Gargoyle.Gpkg.StatusValues

/-!
# The status file, saved and loaded again

Each installed version has a stanza in the file that is saved. When it is loaded again, the stanza
is added under the same name and version. The lines behind the first one of a value are lost,
because they are printed without a blank before them; a list of alternatives is lost in part if
it is printed in more characters than `fgets` reads at once, and changed if its first element
begins with a colon or a tab.
-/

namespace Gargoyle

open Option (bind_some map_some)

open List

namespace Gpkg

open Bandwidth FgetsLines
open Timerange (splitOnSeparators splitLoop spaced Spaced length_flatten_splitLoop_le)

/-! ## The text and its lines -/

def firstLine (v : List Char) : List Char := v.takeWhile (· ≠ '\n')

def stripped (v : List Char) : List Char := v.dropWhile (· ∈ valueSeparators)

def NotIndented (s : List Char) : Prop := ∀ c ∈ s.head?, c ≠ ' ' ∧ c ≠ '\t'

section Loop

variable [Kernel]

def finish (f : FileLoad) (s : LoadState) (text : List Char) : Option LoadedPackages :=
  ((pieces 16383 text).foldlM (LoadState.readLine f) s).bind LoadState.flush

variable {f : FileLoad}

def LoadState.settled (s : LoadState) : LoadState := { s with lastVariable := none }

theorem LoadState.readContinuation_of_not_indented {line : List Char} (h : NotIndented line)
    (s : LoadState) : s.readContinuation line = s.settled := by
  rw [LoadState.readContinuation]
  split
  · rw [if_neg]
    · rfl
    · rintro (hblank | hblank)
      · exact (h ' ' hblank).1 rfl
      · exact (h '\t' hblank).2 rfl
  · rfl

theorem LoadState.readLine_settled {line : List Char} (h : NotIndented line) (s : LoadState) :
    s.settled.readLine f line = s.readLine f line := by
  rw [LoadState.readLine, LoadState.readLine, LoadState.readContinuation_of_not_indented h,
    LoadState.readContinuation_of_not_indented h]
  rfl

theorem finish_nil (s : LoadState) : finish f s [] = s.flush := rfl

theorem finish_settled {text : List Char} (h : NotIndented text) (s : LoadState) :
    finish f s.settled text = finish f s text := by
  rw [finish, finish]
  cases hpieces : pieces 16383 text with
  | nil => rfl
  | cons piece ps =>
    have hpiece : NotIndented piece := by
      rw [NotIndented, head?_of_pieces hpieces]
      exact h
    rw [foldlM_cons, foldlM_cons, LoadState.readLine_settled hpiece]

theorem finish_congr {text : List Char} (h : NotIndented text) {s s' : LoadState}
    (hs : s.settled = s'.settled) : finish f s text = finish f s' text := by
  rw [← finish_settled h s, hs, finish_settled h s']

theorem finish_line {t : List Char} (ht : '\n' ∉ t) (hlength : t.length < 16383) (s : LoadState)
    (text : List Char) :
    finish f s (t ++ '\n' :: text) =
      (s.readLine f (t ++ ['\n'])).bind fun s' => finish f s' text := by
  rw [finish, pieces_line ht hlength, foldlM_cons]
  cases s.readLine f (t ++ ['\n']) <;> rfl

theorem finish_full {t : List Char} (ht : '\n' ∉ t) (hlength : t.length = 16383) (s : LoadState)
    (text : List Char) :
    finish f s (t ++ text) = (s.readLine f t).bind fun s' => finish f s' text := by
  have hne : t ≠ [] := by
    rintro rfl
    cases hlength
  rw [finish, pieces_full ht hne hlength, foldlM_cons]
  cases s.readLine f t <;> rfl

theorem finish_newline {text : List Char} (h : NotIndented text) (s : LoadState) :
    finish f s ('\n' :: text) = finish f s text := by
  have hline := finish_line (f := f) (t := []) not_mem_nil (by decide) s text
  have hread : s.readLine f ['\n'] = some s.settled := by
    have hnot : NotIndented ['\n'] := by
      rintro c ⟨⟩
      decide
    rw [LoadState.readLine, if_neg (by decide), LoadState.readContinuation_of_not_indented hnot]
  rw [nil_append, nil_append, hread] at hline
  exact hline.trans (finish_settled h s)

omit [Kernel] in
theorem ContinuesText.notIndented {l : List Char} (h : ContinuesText l) (text : List Char) :
    NotIndented (l ++ '\n' :: text) := by
  cases l with
  | nil =>
    rintro c ⟨⟩
    decide
  | cons d l =>
    rintro c ⟨⟩
    exact h.start d rfl

omit [Kernel] in
theorem notIndented_continuations {ls : List (List Char)} (hls : ∀ l ∈ ls, ContinuesText l)
    {text : List Char} (h : NotIndented text) :
    NotIndented (ls.flatMap (· ++ ['\n']) ++ text) := by
  cases ls with
  | nil => exact h
  | cons l ls =>
    rw [flatMap_cons, append_assoc, append_assoc]
    exact (hls l mem_cons_self).notIndented _

theorem finish_continuations {ls : List (List Char)} (hls : ∀ l ∈ ls, ContinuesText l)
    {text : List Char} (h : NotIndented text) (s : LoadState) :
    finish f s (ls.flatMap (· ++ ['\n']) ++ text) = finish f s text := by
  induction ls generalizing s with
  | nil => rfl
  | cons l ls ih =>
    obtain ⟨hl, hls⟩ := List.forall_mem_cons.1 hls
    have hnewline : '\n' ∉ l := fun hmem => (hl.oneLine _ hmem).2.1 rfl
    have hrest := notIndented_continuations hls h
    have hline : NotIndented (l ++ ['\n']) := hl.notIndented []
    have hcolon : ':' ∉ l ++ ['\n'] := by
      rw [mem_append, not_or]
      exact ⟨hl.no_colon, by decide⟩
    rw [flatMap_cons, append_assoc, append_assoc, singleton_append,
      finish_line hnewline hl.short, LoadState.readLine, if_neg hcolon,
      LoadState.readContinuation_of_not_indented hline, bind_some,
      finish_settled hrest, ih hls]

structure PlainKey (key : List Char) : Prop where
  no_colon : ':' ∉ key
  no_newline : '\n' ∉ key
  start : NotIndented key

omit [Kernel] in
theorem PlainKey.notIndented {key : List Char} (h : PlainKey key) (value text : List Char) :
    NotIndented (savedLine key value ++ text) := by
  intro c hc
  cases key with
  | nil =>
    obtain rfl := Option.some.inj hc
    decide
  | cons d key => exact h.start c hc

omit [Kernel] in
theorem lineValue_saved {t : List Char} (ht : OneLine t) {ends : List Char}
    (hends : ends = [] ∨ ends = ['\n']) {key : List Char} (hkey : ':' ∉ key) :
    lineValue (key ++ ':' :: ' ' :: (t ++ ends)) = stripped t := by
  have hvalue : ∀ t : List Char, OneLine t →
      (t ++ ends).takeWhile (fun c => c ≠ '\r' ∧ c ≠ '\n') = t := by
    intro t ht
    rw [takeWhile_append_of_pos fun c hc => by simpa using ⟨(ht c hc).1, (ht c hc).2.1⟩]
    rcases hends with rfl | rfl <;> simp
  have hstripped : OneLine (stripped t) := fun c hc => ht c (dropWhile_subset _ hc)
  have hdrop : (t ++ ends).dropWhile (· ∈ valueSeparators) = stripped t ++ ends := by
    rw [dropWhile_append]
    split_ifs with hempty
    · rw [stripped, List.isEmpty_iff.1 hempty]
      rcases hends with rfl | rfl <;> rfl
    · rfl
  have hblank : (' ' :: (t ++ ends)).dropWhile (· ∈ valueSeparators) =
      (t ++ ends).dropWhile (· ∈ valueSeparators) := rfl
  rw [lineValue_append hkey, hblank, hdrop, hvalue _ hstripped]

/-- One line is read as it was saved. -/
theorem finish_savedLine {key : List Char} (hkey : PlainKey key) {t : List Char} (ht : OneLine t)
    (hlength : key.length + 2 + t.length ≤ 16383) {text : List Char} (h : NotIndented text)
    (s : LoadState) :
    finish f s (savedLine key t ++ text) =
      (s.readVariable f key (stripped t)).bind fun s' => finish f s' text := by
  have hread : ∀ ends, ends = [] ∨ ends = ['\n'] →
      s.readLine f (key ++ ':' :: ' ' :: (t ++ ends)) = s.readVariable f key (stripped t) := by
    intro ends hends
    rw [LoadState.readLine, if_pos (mem_append_right key mem_cons_self),
      lineKey_append hkey.no_colon, lineValue_saved ht hends hkey.no_colon]
  have hnewline : '\n' ∉ key ++ ':' :: ' ' :: t := by
    intro hmem
    rcases List.mem_append.1 hmem with hmem | hmem
    · exact hkey.no_newline hmem
    · rcases List.mem_cons.1 hmem with heq | hmem
      · exact absurd heq (by decide)
      · rcases List.mem_cons.1 hmem with heq | hmem
        · exact absurd heq (by decide)
        · exact (ht _ hmem).2.1 rfl
  have htext : savedLine key t ++ text = (key ++ ':' :: ' ' :: t) ++ '\n' :: text := by
    simp [savedLine]
  have hsize : (key ++ ':' :: ' ' :: t).length = key.length + 2 + t.length := by
    simp only [length_append, length_cons]
    omega
  rw [htext]
  rcases hlength.lt_or_eq with hlt | heq
  · have hline : key ++ ':' :: ' ' :: t ++ ['\n'] = key ++ ':' :: ' ' :: (t ++ ['\n']) := by simp
    rw [finish_line hnewline (hsize ▸ hlt), hline, hread _ (Or.inr rfl)]
  · -- The line fills the buffer, so that its end is read as a line of its own.
    have hline : key ++ ':' :: ' ' :: t = key ++ ':' :: ' ' :: (t ++ []) := by simp
    rw [finish_full hnewline (hsize.trans heq), hline, hread _ (Or.inl rfl)]
    simp only [finish_newline h]

omit [Kernel] in
theorem stripped_of_lineText {key t : List Char} (h : LineText key t) : stripped t = t := by
  cases t with
  | nil => rfl
  | cons c t => exact dropWhile_cons_of_neg (by simpa using h.start c rfl)

omit [Kernel] in
theorem firstLine_of_oneLine {t : List Char} (ht : OneLine t) (ls : List (List Char)) :
    firstLine (t ++ ls.flatMap ('\n' :: ·)) = t := by
  rw [firstLine, takeWhile_append_of_pos fun c hc => by simpa using (ht c hc).2.1]
  cases ls with
  | nil => simp
  | cons l ls => simp

/-- Of a value with several lines the first comes back. -/
theorem finish_savedValue {key : List Char} (hkey : PlainKey key) {v : List Char}
    (hv : ValueText key v) {text : List Char} (h : NotIndented text) (s : LoadState) :
    finish f s (savedLine key v ++ text) =
      (s.readVariable f key (firstLine v)).bind fun s' => finish f s' text := by
  obtain ⟨first, ls, rfl, hfirst, hls⟩ := hv
  have hjoin : ls.flatMap ('\n' :: ·) ++ ['\n'] = '\n' :: ls.flatMap (· ++ ['\n']) := by
    clear hls
    induction ls with
    | nil => rfl
    | cons l ls ih =>
      rw [flatMap_cons, append_assoc, ih, flatMap_cons]
      simp
  have htext : savedLine key (first ++ ls.flatMap ('\n' :: ·)) ++ text =
      savedLine key first ++ (ls.flatMap (· ++ ['\n']) ++ text) := by
    calc savedLine key (first ++ ls.flatMap ('\n' :: ·)) ++ text
        = key ++ ':' :: ' ' :: (first ++ (ls.flatMap ('\n' :: ·) ++ ['\n']) ++ text) := by
          simp [savedLine]
      _ = savedLine key first ++ (ls.flatMap (· ++ ['\n']) ++ text) := by
          rw [hjoin]
          simp [savedLine]
  have hlength : key.length + 2 + first.length ≤ 16383 := by
    have := hfirst.short
    omega
  rw [htext, finish_savedLine hkey hfirst.oneLine hlength (notIndented_continuations hls h),
    stripped_of_lineText hfirst, firstLine_of_oneLine hfirst.oneLine]
  simp only [finish_continuations hls h]

end Loop

/-! ## Alternatives -/

section Alternatives

def plainCount (t : List Char) : ℕ := t.countP (· ∉ [',', ' '])

theorem plainCount_append (s t : List Char) : plainCount (s ++ t) = plainCount s + plainCount t :=
  countP_append

theorem plainCount_le_of_sublist {s t : List Char} (h : s.Sublist t) :
    plainCount s ≤ plainCount t :=
  h.countP_le

theorem split_ne_of_plainCount_lt {t : List Char} {alts : List (List Char)}
    (h : plainCount t < alts.flatten.length) :
    splitOnSeparators t [',', ' '] (-1) false ≠ alts := by
  rintro rfl
  have hflatten := @length_flatten_splitLoop_le [',', ' '] (t.countP (· ∈ [',', ' ']) + 1)
    (t.dropWhile (· ∈ [',', ' ']))
  have hdrop : plainCount (t.dropWhile (· ∈ [',', ' '])) ≤ plainCount t :=
    plainCount_le_of_sublist (dropWhile_sublist _)
  rw [splitOnSeparators, if_pos (by decide)] at h
  exact absurd (h.trans_le (hflatten.trans hdrop)) (lt_irrefl _)

variable {alts : List (List Char)} (halts : ∀ a ∈ alts, AlternativeText a)

theorem alternativesText_of_ne_nil (hne : alts ≠ []) :
    alternativesText alts = [',', ' '].intercalate alts := by
  rw [alternativesText, joinStrs, if_neg hne, Option.getD_some]

include halts

theorem plainCount_intercalate :
    plainCount ([',', ' '].intercalate alts) = alts.flatten.length := by
  induction alts with
  | nil => rfl
  | cons a alts ih =>
    obtain ⟨ha, halts⟩ := List.forall_mem_cons.1 halts
    have hcount : plainCount a = a.length :=
      List.countP_eq_length.2 fun c hc => by simpa using ha.no_separator c hc
    cases alts with
    | nil => simp [hcount]
    | cons b alts =>
      have hseparator : plainCount [',', ' '] = 0 := by decide
      rw [List.intercalate_cons_cons, plainCount_append, plainCount_append, ih halts, hcount,
        hseparator, Nat.add_zero, ← length_append, ← flatten_cons]

theorem length_intercalate :
    ([',', ' '].intercalate alts).length ≤ alts.flatten.length + 2 * alts.length := by
  induction alts with
  | nil => exact Nat.zero_le _
  | cons a alts ih =>
    obtain ⟨-, halts⟩ := List.forall_mem_cons.1 halts
    cases alts with
    | nil => simp
    | cons b alts =>
      have hrest := ih halts
      rw [List.intercalate_cons_cons, length_append, length_append,
        flatten_cons, length_append, length_cons]
      simp only [length_cons, length_nil] at hrest ⊢
      omega

theorem exists_last_intercalate (hne : alts ≠ []) :
    ∃ u c, [',', ' '].intercalate alts = u ++ [c] ∧ c ∉ [',', ' '] := by
  induction alts with
  | nil => exact absurd rfl hne
  | cons a alts ih =>
    obtain ⟨ha, halts⟩ := List.forall_mem_cons.1 halts
    cases alts with
    | nil =>
      rcases eq_nil_or_concat a with hnil | ⟨u, c, rfl⟩
      · exact absurd hnil ha.ne_nil
      · rw [concat_eq_append] at ha ⊢
        exact ⟨u, c, List.intercalate_singleton, ha.no_separator c (by simp)⟩
    | cons b alts =>
      obtain ⟨u, c, hlast, hc⟩ := ih halts (cons_ne_nil _ _)
      refine ⟨a ++ [',', ' '] ++ u, c, ?_, hc⟩
      rw [List.intercalate_cons_cons, hlast, append_assoc _ u]

theorem plainCount_pos_of_suffix (hne : alts ≠ []) {s t : List Char} (ht : t ≠ [])
    (h : [',', ' '].intercalate alts = s ++ t) : 0 < plainCount t := by
  obtain ⟨u, c, hlast, hc⟩ := exists_last_intercalate halts hne
  rcases eq_nil_or_concat t with hnil | ⟨t, d, rfl⟩
  · exact absurd hnil ht
  · rw [concat_eq_append] at h ⊢
    rw [hlast, ← append_assoc] at h
    obtain ⟨-, hd⟩ := append_inj' h rfl
    obtain rfl := (List.cons.inj hd).1
    rw [plainCount_append]
    have hone : plainCount [c] = 1 := by
      rw [plainCount, countP_singleton, if_pos (decide_eq_true hc)]
    omega

omit halts in
theorem length_le_length_flatten (hne : ∀ a ∈ alts, a ≠ []) :
    alts.length ≤ alts.flatten.length := by
  induction alts with
  | nil => exact le_rfl
  | cons a alts ih =>
    obtain ⟨ha, halts⟩ := List.forall_mem_cons.1 hne
    have hrest := ih halts
    have hpos := length_pos_of_ne_nil ha
    rw [flatten_cons, length_append, length_cons]
    omega

theorem head_intercalate (hne : alts ≠ []) :
    ([',', ' '].intercalate alts).head? = alts.head?.bind List.head? ∧
      ∃ c t, [',', ' '].intercalate alts = c :: t ∧ c ∉ [',', ' '] := by
  cases alts with
  | nil => exact absurd rfl hne
  | cons a alts =>
    have ha := halts a mem_cons_self
    obtain ⟨c, a', rfl⟩ := exists_cons_of_ne_nil ha.ne_nil
    have hc := ha.no_separator c mem_cons_self
    cases alts with
    | nil =>
      rw [List.intercalate_singleton]
      exact ⟨rfl, c, a', rfl, hc⟩
    | cons b alts =>
      rw [List.intercalate_cons_cons]
      exact ⟨rfl, c, _, rfl, hc⟩

theorem split_intercalate :
    splitOnSeparators ([',', ' '].intercalate alts) [',', ' '] (-1) false = alts := by
  have hspaced : ∀ alts : List (List Char), (∀ a ∈ alts, AlternativeText a) →
      ∃ ps, Spaced [',', ' '] ps ∧ ps.map Prod.fst = alts ∧
        spaced ps = [',', ' '].intercalate alts := by
    intro alts halts
    induction alts with
    | nil => exact ⟨[], ⟨fun _ h => absurd h not_mem_nil, fun _ h => absurd h not_mem_nil,
        fun _ h => absurd h not_mem_nil⟩, rfl, rfl⟩
    | cons a alts ih =>
      obtain ⟨ha, halts⟩ := List.forall_mem_cons.1 halts
      cases alts with
      | nil =>
        refine ⟨[(a, [])], ⟨?_, ?_, ?_⟩, rfl, by simp [spaced]⟩
        · intro q hq
          obtain rfl := List.mem_singleton.1 hq
          exact ⟨ha.ne_nil, ha.no_separator⟩
        · simp
        · simp
      | cons b alts =>
        obtain ⟨ps, hps, hfst, htext⟩ := ih halts
        have hne : ps ≠ [] := by
          rintro rfl
          cases hfst
        refine ⟨(a, [',', ' ']) :: ps, ⟨?_, ?_, ?_⟩, by rw [map_cons, hfst], ?_⟩
        · exact List.forall_mem_cons.2 ⟨⟨ha.ne_nil, ha.no_separator⟩, hps.pieces⟩
        · exact List.forall_mem_cons.2 ⟨fun c hc => hc, hps.runs⟩
        · rw [dropLast_cons_of_ne_nil hne]
          exact List.forall_mem_cons.2 ⟨cons_ne_nil _ _, hps.apart⟩
        · rw [List.intercalate_cons_cons, ← htext]
          rfl
  obtain ⟨ps, hps, hfst, htext⟩ := hspaced alts halts
  have hsplit := hps.splitOnSeparators (forall_mem_nil _)
  rw [nil_append, hfst, htext] at hsplit
  exact hsplit

/-- When the alternatives are split as they were joined. -/
theorem split_stripped_iff :
    splitOnSeparators (stripped (alternativesText alts)) [',', ' '] (-1) false = alts ↔
      alts ≠ [] ∧ ∀ c ∈ alts.head?.bind List.head?, c ≠ ':' ∧ c ≠ '\t' := by
  by_cases hne : alts = []
  · subst hne
    exact iff_of_false (by decide) fun h => h.1 rfl
  · obtain ⟨hhead, c, t, htext, hc⟩ := head_intercalate halts hne
    rw [alternativesText_of_ne_nil hne]
    have hfirst : alts.head?.bind List.head? = some c := by
      rw [← hhead, htext]
      rfl
    rw [hfirst]
    by_cases hskip : c ∈ valueSeparators
    · refine iff_of_false ?_ ?_
      · refine split_ne_of_plainCount_lt ?_
        have hdrop : stripped (c :: t) = stripped t :=
          dropWhile_cons_of_pos (decide_eq_true hskip)
        have hcount : plainCount (c :: t) = plainCount t + 1 :=
          countP_cons_of_pos (decide_eq_true hc)
        have hle : plainCount (stripped t) ≤ plainCount t :=
          plainCount_le_of_sublist (dropWhile_sublist _)
        rw [htext, hdrop, ← plainCount_intercalate halts, htext, hcount]
        exact Nat.lt_succ_of_le hle
      · rintro ⟨-, h⟩
        obtain ⟨hcolon, htab⟩ := h c rfl
        simp only [mem_cons, not_mem_nil, or_false, not_or] at hc
        simp only [valueSeparators, mem_cons, not_mem_nil, or_false] at hskip
        rcases hskip with rfl | rfl | rfl
        · exact hcolon rfl
        · exact hc.2 rfl
        · exact htab rfl
    · have hdrop : stripped (c :: t) = c :: t :=
        dropWhile_cons_of_neg (by simpa using hskip)
      rw [htext, hdrop, ← htext, split_intercalate halts]
      refine iff_of_true rfl ⟨hne, ?_⟩
      rintro _ ⟨⟩
      refine ⟨?_, ?_⟩
      · rintro rfl
        exact hskip (by decide)
      · rintro rfl
        exact hskip (by decide)

end Alternatives

/-! ## One stanza -/

section Stanza

def reloadFile (dest text : List Char) : FileLoad := ⟨fun _ _ => true, some dest, none, text⟩

structure SavedVersion where
  name : String
  version : String
  info : LoadedInfo

def SavedVersion.Fits (e : SavedVersion) : Prop :=
  ∀ alts, e.info.alternatives = some alts → (alternativesText alts).length ≤ 16369

variable {f : FileLoad}

theorem vars_setVariable (f : FileLoad) (name key value : List Char) (i : LoadedInfo)
    {key' : List Char} (hkey' : key' ≠ "User-Installed".toList) :
    (f.setVariable name key value i).vars key' =
      if key' = key then some value else i.vars key' := by
  rw [FileLoad.setVariable]
  by_cases huser : key = LoadedInfo.statusKey ∧ f.includes name "User-Installed".toList
  · rw [if_pos huser, LoadedInfo.vars_set, if_neg hkey', LoadedInfo.vars_set]
  · rw [if_neg huser, LoadedInfo.vars_set]

theorem alternatives_setVariable (f : FileLoad) (name key value : List Char) (i : LoadedInfo) :
    (f.setVariable name key value i).alternatives = i.alternatives := by
  rw [FileLoad.setVariable]
  split_ifs <;> rfl

def storeAll (f : FileLoad) (name : List Char) (i : LoadedInfo) (keys : List (List Char))
    (j : LoadedInfo) : LoadedInfo :=
  keys.foldl (fun j key =>
    match i.vars key with
    | some v => f.setVariable name key (firstLine v) j
    | none => j) j

theorem alternatives_storeAll (name : List Char) (i : LoadedInfo) (keys : List (List Char))
    (j : LoadedInfo) : (storeAll f name i keys j).alternatives = j.alternatives := by
  induction keys generalizing j with
  | nil => rfl
  | cons key keys ih =>
    rw [storeAll, foldl_cons]
    cases i.vars key with
    | none => exact ih j
    | some v => exact (ih _).trans (alternatives_setVariable f name key _ j)

/-- What is stored under a key after all lines. -/
theorem vars_storeAll (name : List Char) (i : LoadedInfo) (keys : List (List Char))
    (j : LoadedInfo) {key : List Char} (hkey : key ≠ "User-Installed".toList) :
    (storeAll f name i keys j).vars key =
      if key ∈ keys then ((i.vars key).map firstLine).or (j.vars key) else j.vars key := by
  induction keys generalizing j with
  | nil => rfl
  | cons key₁ keys ih =>
    rw [storeAll, foldl_cons]
    cases hvar : i.vars key₁ with
    | none =>
      have hrest := ih j
      rw [storeAll] at hrest
      rw [hrest]
      by_cases heq : key = key₁
      · subst heq
        rw [hvar]
        split_ifs <;> rfl
      · simp only [mem_cons, heq, false_or]
    | some v =>
      have hrest := ih (f.setVariable name key₁ (firstLine v) j)
      rw [storeAll] at hrest
      rw [hrest, vars_setVariable f name key₁ _ j hkey]
      by_cases heq : key = key₁
      · subst heq
        rw [hvar, if_pos rfl, if_pos mem_cons_self]
        split_ifs <;> rfl
      · simp only [mem_cons, heq, false_or, if_false]

theorem plainKey_package : PlainKey "Package".toList :=
  ⟨by decide, by decide, by rintro c ⟨⟩; decide⟩

theorem plainKey_version : PlainKey "Version".toList :=
  ⟨by decide, by decide, by rintro c ⟨⟩; decide⟩

theorem plainKey_alternatives : PlainKey "Alternatives".toList :=
  ⟨by decide, by decide, by rintro c ⟨⟩; decide⟩

theorem savedKeys_plain : ∀ key ∈ savedKeys, PlainKey key ∧ key ≠ "Package".toList ∧
    key ≠ "Version".toList ∧ key ≠ "Alternatives".toList ∧ key ≠ "User-Installed".toList ∧
    key ≠ LoadedInfo.destinationKey := by
  have hall : ∀ key ∈ savedKeys, ':' ∉ key ∧ '\n' ∉ key ∧ key ≠ "Package".toList ∧
      key ≠ "Version".toList ∧ key ≠ "Alternatives".toList ∧ key ≠ "User-Installed".toList ∧
      key ≠ LoadedInfo.destinationKey := Numerals.forall_mem_of_all (by decide)
  have hstart : ∀ key ∈ savedKeys, NotIndented key := by
    intro key hkey
    simp only [savedKeys, mem_cons, not_mem_nil, or_false] at hkey
    rcases hkey with rfl | rfl | rfl | rfl | rfl | rfl <;> rintro c ⟨⟩ <;> decide
  intro key hkey
  obtain ⟨hcolon, hnewline, hrest⟩ := hall key hkey
  exact ⟨⟨hcolon, hnewline, hstart key hkey⟩, hrest⟩

theorem notIndented_variables (i : LoadedInfo) {keys : List (List Char)}
    (hkeys : ∀ key ∈ keys, key ∈ savedKeys) {text : List Char} (h : NotIndented text) :
    NotIndented (savedVariables i keys ++ text) := by
  induction keys with
  | nil => exact h
  | cons key keys ih =>
    obtain ⟨hkey, hkeys⟩ := List.forall_mem_cons.1 hkeys
    rw [savedVariables, flatMap_cons, append_assoc]
    cases i.vars key with
    | some v => exact (savedKeys_plain key hkey).1.notIndented v _
    | none => exact ih hkeys

variable [Kernel]

structure Pending (data : LoadedPackages) (name version : List Char) (i : LoadedInfo)
    (s : LoadState) : Prop where
  data : s.data = data
  info : s.nextPkgData = some i
  name : s.pkgName = some name
  version : s.pkgVersion = .text version
  loaded : s.loadedAtLeastOneVariable = true

theorem Pending.flush {data : LoadedPackages} {name version : List Char} {i : LoadedInfo}
    {s : LoadState} (h : Pending data name version i s) :
    s.flush = some (addLoaded data i (String.ofList name) (String.ofList version)) := by
  rw [LoadState.flush, h.name, h.info, h.loaded]
  simp only [h.version, h.data]

theorem Pending.freeVersion {data : LoadedPackages} {name version : List Char} {i : LoadedInfo}
    {s : LoadState} (h : Pending data name version i s) : s.freeVersion = some .freed := by
  rw [LoadState.freeVersion]
  simp only [h.version]

/-- The variables of a stanza are read back in their order. -/
theorem finish_variables {name : List Char} {i : LoadedInfo} (hi : ValueTexts i)
    (hincludes : ∀ key, f.includes name key = true) {keys : List (List Char)}
    (hkeys : ∀ key ∈ keys, key ∈ savedKeys) {text : List Char} (h : NotIndented text)
    {j : LoadedInfo} {s : LoadState} (hname : s.pkgName = some name)
    (hinfo : s.nextPkgData = some j) :
    finish f s (savedVariables i keys ++ text) =
      finish f
        { s with
          nextPkgData := some (storeAll f name i keys j)
          loadedAtLeastOneVariable :=
            s.loadedAtLeastOneVariable || keys.any fun key => (i.vars key).isSome } text := by
  induction keys generalizing j s with
  | nil =>
    have hnone : storeAll f name i [] j = j := rfl
    rw [savedVariables, flatMap_nil, nil_append, any_nil, Bool.or_false, hnone,
      ← hinfo]
  | cons key keys ih =>
    obtain ⟨hkey, hkeys⟩ := List.forall_mem_cons.1 hkeys
    rw [savedVariables, flatMap_cons, append_assoc, ← savedVariables, storeAll,
      foldl_cons, any_cons]
    cases hvar : i.vars key with
    | none =>
      rw [Option.isSome_none, Bool.false_or, nil_append]
      exact ih hkeys hname hinfo
    | some v =>
      have hrest := notIndented_variables i hkeys h
      obtain ⟨hplain, hpackage, hversion, halternatives, -⟩ := savedKeys_plain key hkey
      have hread : s.readVariable f key (firstLine v) = some
          { s with
            nextPkgData := some (f.setVariable name key (firstLine v) j)
            lastVariable := some key
            loadedAtLeastOneVariable := true } := by
        rw [LoadState.readVariable, if_neg hpackage, if_neg hversion, if_neg halternatives]
        simp only [hname, hincludes, hinfo]
        rfl
      rw [finish_savedValue hplain (hi.vars key hkey v hvar) hrest, hread, bind_some,
        ← finish_settled hrest, Option.isSome_some, Bool.true_or, Bool.or_true]
      have hmore := ih hkeys (s := LoadState.settled
        { s with
          nextPkgData := some (f.setVariable name key (firstLine v) j)
          lastVariable := some key
          loadedAtLeastOneVariable := true }) hname rfl
      exact hmore.trans (finish_congr h rfl)

/-- The name and the version begin a stanza. -/
theorem finish_header {name version : List Char} (hname : LineText "Package".toList name)
    (hversion : LineText "Version".toList version) {s : LoadState} {data : LoadedPackages}
    (hflush : s.flush = some data) {text : List Char} (h : NotIndented text) :
    finish f s (savedLine "Package".toList name ++ (savedLine "Version".toList version ++ text)) =
      s.freeVersion.bind fun _ => finish f
        { data := data
          nextPkgData := some (f.initialInfo name)
          pkgName := some name
          pkgVersion := .text version } text := by
  have hstart : s.readVariable f "Package".toList name = s.freeVersion.map fun pointer =>
      { data := data
        nextPkgData := some (f.initialInfo name)
        pkgName := some name
        pkgVersion := pointer } := by
    have hflush : LoadState.flush { s with lastVariable := none } = some data := hflush
    rw [LoadState.readVariable, if_pos rfl, LoadState.startStanza, hflush]
    rfl
  have hlength := hname.short
  have hlength' := hversion.short
  rw [finish_savedLine plainKey_package hname.oneLine (by omega)
      (plainKey_version.notIndented version text), stripped_of_lineText hname, hstart]
  cases s.freeVersion with
  | none => rfl
  | some pointer =>
    rw [map_some, bind_some, bind_some,
      finish_savedLine plainKey_version hversion.oneLine (by omega) h,
      stripped_of_lineText hversion, LoadState.readVariable, if_neg (by decide), if_pos rfl,
      bind_some]

omit [Kernel] in
theorem oneLine_alternativesText {alts : List (List Char)}
    (halts : ∀ a ∈ alts, AlternativeText a) : OneLine (alternativesText alts) := by
  by_cases hne : alts = []
  · subst hne
    exact Numerals.forall_mem_of_all (by decide)
  · rw [alternativesText_of_ne_nil hne]
    clear hne
    induction alts with
    | nil => exact fun _ h => absurd h not_mem_nil
    | cons a alts ih =>
      obtain ⟨ha, halts⟩ := List.forall_mem_cons.1 halts
      cases alts with
      | nil =>
        rw [List.intercalate_singleton]
        exact ha.oneLine
      | cons b alts =>
        have hseparator : OneLine [',', ' '] := Numerals.forall_mem_of_all (by decide)
        rw [List.intercalate_cons_cons]
        intro c hc
        rcases List.mem_append.1 hc with hc | hc
        · rcases List.mem_append.1 hc with hc | hc
          · exact ha.oneLine c hc
          · exact hseparator c hc
        · exact ih halts c hc

/-- The alternatives come back if they fit a line. -/
theorem finish_alternatives {i : LoadedInfo} (hi : ValueTexts i)
    (hfits : ∀ alts, i.alternatives = some alts → (alternativesText alts).length ≤ 16369)
    {data : LoadedPackages} {name version : List Char} {j : LoadedInfo} {s : LoadState}
    (hs : Pending data name version j s) (hj : j.alternatives = none) {text : List Char}
    (h : NotIndented text) :
    ∃ s', finish f s (savedAlternatives i ++ '\n' :: text) = finish f s' text ∧
      Pending data name version
        { j with
          alternatives := i.alternatives.map fun alts =>
            splitOnSeparators (stripped (alternativesText alts)) [',', ' '] (-1) false } s' := by
  rw [savedAlternatives]
  cases halternatives : i.alternatives with
  | none => exact ⟨s, finish_newline h s, hs.data, by rw [hs.info, Option.map_none, ← hj], hs.name,
      hs.version, hs.loaded⟩
  | some alts =>
    have hnewline : NotIndented ('\n' :: text) := by
      rintro c ⟨⟩
      decide
    have hlength : 12 + 2 + (alternativesText alts).length ≤ 16383 := by
      have := hfits alts halternatives
      omega
    have hline := finish_savedLine (f := f) plainKey_alternatives
      (oneLine_alternativesText (hi.alternatives alts halternatives)) hlength hnewline s
    have hinfo : LoadState.nextPkgData { s with lastVariable := none } = some j := hs.info
    rw [LoadState.readVariable, if_neg (by decide), if_neg (by decide), if_pos rfl, hinfo,
      map_some, bind_some, finish_newline h] at hline
    exact ⟨_, hline, hs.data, rfl, hs.name, hs.version, hs.loaded⟩

structure Spoilt (data : LoadedPackages) (name : List Char) (alts : List (List Char))
    (s : LoadState) : Prop where
  flush : ∃ version j, s.flush = some (addLoaded data j (String.ofList name) version) ∧
    j.alternatives ≠ some alts

omit [Kernel] in
theorem lineValue_sublist (t : List Char) : (lineValue (t ++ ['\n'])).Sublist t := by
  have hsublist : (lineValue (t ++ ['\n'])).Sublist (t ++ ['\n']) :=
    (takeWhile_sublist _).trans ((dropWhile_sublist _).trans (dropWhile_sublist _))
  have hnewline : '\n' ∉ lineValue (t ++ ['\n']) := fun hmem => by
    simpa using mem_takeWhile_imp hmem
  obtain ⟨u, v, heq, hu, hv⟩ := List.sublist_append_iff.1 hsublist
  rcases eq_nil_or_concat v with rfl | ⟨v, c, rfl⟩
  · rwa [heq, List.append_nil]
  · rw [concat_eq_append] at heq hv
    have hmem := hv.subset (mem_append_right v (mem_singleton_self c))
    refine absurd ?_ hnewline
    rw [heq, ← List.mem_singleton.1 hmem]
    exact mem_append_right u (mem_append_right v (mem_singleton_self c))

theorem Pending.spoilt {data : LoadedPackages} {name version : List Char} {j : LoadedInfo}
    {s : LoadState} (hs : Pending data name version j s) {alts : List (List Char)}
    (hj : j.alternatives ≠ some alts) : Spoilt data name alts s :=
  ⟨_, j, hs.flush, hj⟩

/-- The last line of a stanza, with the alternatives. -/
theorem Pending.readLine_rest (hincludes : ∀ name key, f.includes name key = true)
    {data : LoadedPackages} {name version : List Char} {j : LoadedInfo} {s : LoadState}
    (hs : Pending data name version j s) (hlast : s.lastVariable = none)
    {alts : List (List Char)} (hj : j.alternatives ≠ some alts) {line : List Char}
    (hline : plainCount (lineValue line) < alts.flatten.length) :
    ∃ s', s.readLine f line = some s' ∧ Spoilt data name alts s' := by
  have hs' : Pending data name version j { s with lastVariable := none } :=
    ⟨hs.data, hs.info, hs.name, hs.version, hs.loaded⟩
  rw [LoadState.readLine]
  by_cases hcolon : ':' ∈ line
  · rw [if_pos hcolon, LoadState.readVariable]
    split_ifs with hpackage hversion halternatives
    · rw [LoadState.startStanza, hs'.flush, bind_some, hs'.freeVersion, map_some]
      exact ⟨_, rfl, _, j, rfl, hj⟩
    · have hnext : Pending data name (lineValue line) j
          { s with lastVariable := none, pkgVersion := .text (lineValue line) } :=
        ⟨hs.data, hs.info, hs.name, rfl, hs.loaded⟩
      exact ⟨_, rfl, hnext.spoilt hj⟩
    · have hnext : ∀ i, Pending data name version i
          { s with lastVariable := none, nextPkgData := some i } := fun i =>
        ⟨hs.data, rfl, hs.name, hs.version, hs.loaded⟩
      rw [hs'.info, map_some]
      refine ⟨_, rfl, (hnext _).spoilt ?_⟩
      intro heq
      exact split_ne_of_plainCount_lt hline (Option.some.inj heq)
    · have hnext : ∀ i, Pending data name version i
          { s with
            nextPkgData := some i
            pkgName := some name
            lastVariable := some (lineKey line)
            loadedAtLeastOneVariable := true } := fun i => ⟨hs.data, rfl, rfl, hs.version, rfl⟩
      rw [hs.name]
      simp only [hincludes, if_true]
      rw [hs.info, map_some]
      refine ⟨_, rfl, (hnext _).spoilt ?_⟩
      rwa [alternatives_setVariable]
  · rw [if_neg hcolon]
    have hcontinue : s.readContinuation line = { s with lastVariable := none } := by
      rw [LoadState.readContinuation]
      simp only [hlast]
    exact ⟨_, rfl, hcontinue ▸ hs'.spoilt hj⟩

/-- Alternatives that do not fit in a line are not all read. -/
theorem finish_long_alternatives (hincludes : ∀ name key, f.includes name key = true)
    {i : LoadedInfo} (hi : ValueTexts i) {alts : List (List Char)}
    (halternatives : i.alternatives = some alts)
    (hlong : 16369 < (alternativesText alts).length)
    {data : LoadedPackages} {name version : List Char} {j : LoadedInfo} {s : LoadState}
    (hs : Pending data name version j s) {text : List Char} (h : NotIndented text) :
    ∃ s', finish f s (savedAlternatives i ++ '\n' :: text) = finish f s' text ∧
      Spoilt data name alts s' := by
  have halts := hi.alternatives alts halternatives
  have hne : alts ≠ [] := by
    rintro rfl
    exact absurd hlong (by decide)
  have hsize := hi.size alts halternatives
  have hcount := plainCount_intercalate halts
  have hlength := length_intercalate halts
  obtain ⟨-, c, t, hfirst, hc⟩ := head_intercalate halts hne
  have hone := oneLine_alternativesText halts
  have hlines : savedAlternatives i =
      savedLine "Alternatives".toList ([',', ' '].intercalate alts) := by
    simp only [savedAlternatives, halternatives, alternativesText_of_ne_nil hne]
  rw [alternativesText_of_ne_nil hne] at hlong hone
  -- What is read with the key, and what is left for a line of its own.
  obtain ⟨a, r, htext, ha⟩ : ∃ a r, [',', ' '].intercalate alts = a ++ r ∧ a.length = 16369 :=
    ⟨_, _, (take_append_drop 16369 _).symm, length_take_of_le hlong.le⟩
  have hr : r ≠ [] := by
    rintro rfl
    rw [htext, List.append_nil, ha] at hlong
    exact lt_irrefl _ hlong
  have hpos : 0 < plainCount a := by
    cases a with
    | nil => cases ha
    | cons d a =>
      obtain rfl : c = d := (List.cons.inj (hfirst.symm.trans htext)).1
      exact List.countP_pos_iff.2 ⟨c, mem_cons_self, decide_eq_true hc⟩
  have hpos' := plainCount_pos_of_suffix halts hne hr htext
  have hflatten : 2 * alts.length ≤ alts.flatten.length + alts.length := by
    have := length_le_length_flatten fun a ha => (halts a ha).ne_nil
    omega
  rw [htext, plainCount_append] at hcount
  rw [htext, length_append] at hlength
  have hmem : ∀ c ∈ a ++ r, c ≠ '\n' := fun c hc => (hone c (htext ▸ hc)).2.1
  have honea : OneLine a := fun c hc => hone c (htext ▸ mem_append_left r hc)
  have hkey : '\n' ∉ "Alternatives".toList ++ ':' :: ' ' :: a := by
    intro hnewline
    rcases List.mem_append.1 hnewline with hnewline | hnewline
    · exact plainKey_alternatives.no_newline hnewline
    · simp only [mem_cons] at hnewline
      rcases hnewline with heq | heq | hnewline
      · exact absurd heq (by decide)
      · exact absurd heq (by decide)
      · exact hmem _ (mem_append_left r hnewline) rfl
  have hfull : ("Alternatives".toList ++ ':' :: ' ' :: a).length = 16383 := by
    rw [length_append, length_cons, length_cons, ha]
    rfl
  have hread : s.readLine f ("Alternatives".toList ++ ':' :: ' ' :: a) = some
      { s with
        nextPkgData := some
          { j with alternatives := some (splitOnSeparators (stripped a) [',', ' '] (-1) false) }
        lastVariable := none } := by
    have hvalue := lineValue_saved honea (Or.inl rfl) plainKey_alternatives.no_colon
    have hinfo : LoadState.nextPkgData { s with lastVariable := none } = some j := hs.info
    rw [List.append_nil] at hvalue
    rw [LoadState.readLine, if_pos (mem_append_right _ mem_cons_self), hvalue,
      lineKey_append plainKey_alternatives.no_colon, LoadState.readVariable, if_neg (by decide),
      if_neg (by decide), if_pos rfl, hinfo, map_some]
  have hvalue : plainCount (lineValue (r ++ ['\n'])) < alts.flatten.length := by
    have := plainCount_le_of_sublist (lineValue_sublist r)
    omega
  have hsplit : some (splitOnSeparators (stripped a) [',', ' '] (-1) false) ≠ some alts := by
    intro heq
    have hstripped : plainCount (stripped a) ≤ plainCount a :=
      plainCount_le_of_sublist (dropWhile_sublist _)
    exact split_ne_of_plainCount_lt (by omega) (Option.some.inj heq)
  have hpending : Pending data name version
      { j with alternatives := some (splitOnSeparators (stripped a) [',', ' '] (-1) false) }
      { s with
        nextPkgData := some
          { j with alternatives := some (splitOnSeparators (stripped a) [',', ' '] (-1) false) }
        lastVariable := none } := ⟨hs.data, rfl, hs.name, hs.version, hs.loaded⟩
  obtain ⟨s', hs', hspoilt⟩ := hpending.readLine_rest hincludes rfl hsplit hvalue
  refine ⟨s', ?_, hspoilt⟩
  have hpieces : savedLine "Alternatives".toList (a ++ r) ++ '\n' :: text =
      ("Alternatives".toList ++ ':' :: ' ' :: a) ++ (r ++ '\n' :: '\n' :: text) := by
    simp [savedLine]
  rw [hlines, htext, hpieces, finish_full hkey hfull, hread, bind_some,
    finish_line (fun hnewline => hmem _ (mem_append_right a hnewline) rfl) (by omega), hs',
    bind_some, finish_newline h]

end Stanza

end Gpkg

end Gargoyle
