import Gargoyle.Gpkg.StatusText

/-!
# The values that are loaded

A value that has been loaded consists of a first line, which does not begin with what is skipped
in front of a value, and of the lines that went on with it, which have no colon and do not begin
with a blank. All of them fit in a line of the file.
-/

namespace Gargoyle

open List

namespace Gpkg

open Bandwidth FgetsLines
open Timerange (splitOnSeparators mem_splitLoop length_flatten_add_splitLoop_le)

/-! ## Texts of one line -/

def OneLine (s : List Char) : Prop := ∀ c ∈ s, c ≠ '\r' ∧ c ≠ '\n' ∧ c ≠ '\x00'

structure LineText (key t : List Char) : Prop where
  start : ∀ c ∈ t.head?, c ∉ valueSeparators
  oneLine : OneLine t
  short : key.length + 1 + t.length < 16383

structure ContinuesText (t : List Char) : Prop where
  start : ∀ c ∈ t.head?, c ≠ ' ' ∧ c ≠ '\t'
  no_colon : ':' ∉ t
  oneLine : OneLine t
  short : t.length < 16383

def ValueText (key v : List Char) : Prop :=
  ∃ (first : List Char) (ls : List (List Char)), v = first ++ ls.flatMap ('\n' :: ·) ∧
    LineText key first ∧ ∀ l ∈ ls, ContinuesText l

structure AlternativeText (a : List Char) : Prop where
  ne_nil : a ≠ []
  no_separator : ∀ c ∈ a, c ∉ [',', ' ']
  oneLine : OneLine a

structure ValueTexts (i : LoadedInfo) : Prop where
  vars : ∀ key ∈ savedKeys, ∀ v, i.vars key = some v → ValueText key v
  alternatives : ∀ alts, i.alternatives = some alts → ∀ a ∈ alts, AlternativeText a
  size : ∀ alts, i.alternatives = some alts → alts.flatten.length + alts.length ≤ 16370

/-! ## The lines of a file -/

structure FileLine (line : List Char) : Prop where
  text : ∃ t ends, line = t ++ ends ∧ '\n' ∉ t ∧ t.length < 16383 ∧ (ends = [] ∨ ends = ['\n'])
  no_zero : '\x00' ∉ line

theorem fileLine_of_mem {f : FileLoad} (hshort : ShortLines 16383 f.text) {line : List Char}
    (h : line ∈ f.lines) : FileLine line := by
  obtain ⟨piece, hpiece, rfl⟩ := List.mem_map.1 (takeWhile_subset _ h)
  obtain ⟨t, ends, rfl, hbreak, hlength, hends⟩ := exists_of_mem_pieces (by decide) hshort hpiece
  refine ⟨?_, fun hmem => by simpa using mem_takeWhile_imp hmem⟩
  rw [takeWhile_append]
  split_ifs
  · have hall : ends.takeWhile (· ≠ '\x00') = ends := by
      rcases hends with rfl | rfl <;> rfl
    rw [hall]
    exact ⟨t, ends, rfl, hbreak, hlength, hends⟩
  · exact ⟨t.takeWhile (· ≠ '\x00'), [], (List.append_nil _).symm,
      fun hmem => hbreak (takeWhile_subset _ hmem),
      ((takeWhile_sublist _).length_le).trans_lt hlength, Or.inl rfl⟩

theorem lineKey_append {key : List Char} (hkey : ':' ∉ key) (s : List Char) :
    lineKey (key ++ ':' :: s) = key := by
  rw [lineKey, takeWhile_append_of_pos fun c hc =>
    decide_eq_true (ne_of_mem_of_not_mem hc hkey)]
  simp

theorem lineValue_append {key : List Char} (hkey : ':' ∉ key) (s : List Char) :
    lineValue (key ++ ':' :: s) =
      (s.dropWhile (· ∈ valueSeparators)).takeWhile fun c => c ≠ '\r' ∧ c ≠ '\n' := by
  rw [lineValue, dropWhile_append_of_pos fun c hc =>
    decide_eq_true (ne_of_mem_of_not_mem hc hkey)]
  rfl

theorem oneLine_takeWhile {s : List Char} (hzero : '\x00' ∉ s) :
    OneLine (s.takeWhile fun c => c ≠ '\r' ∧ c ≠ '\n') := by
  intro c hc
  have hbreak : c ≠ '\r' ∧ c ≠ '\n' := by simpa using mem_takeWhile_imp hc
  exact ⟨hbreak.1, hbreak.2, ne_of_mem_of_not_mem (takeWhile_subset _ hc) hzero⟩

theorem length_takeWhile_le {t ends : List Char} (hends : ends = [] ∨ ends = ['\n']) :
    ((t ++ ends).takeWhile fun c => c ≠ '\r' ∧ c ≠ '\n').length ≤ t.length := by
  rw [takeWhile_append]
  split_ifs
  · rcases hends with rfl | rfl <;> simp
  · exact (takeWhile_sublist _).length_le

theorem head?_takeWhile {p : Char → Bool} {s : List Char} {c : Char}
    (h : c ∈ (s.takeWhile p).head?) : c ∈ s.head? := by
  cases s with
  | nil => exact h
  | cons d s =>
    rw [takeWhile_cons] at h
    split_ifs at h
    · exact h
    · cases h

theorem not_mem_of_head?_dropWhile {seps s : List Char} {c : Char}
    (h : c ∈ (s.dropWhile (· ∈ seps)).head?) : c ∉ seps := by
  have hnot := head?_dropWhile_not (fun c => decide (c ∈ seps)) s
  rw [Option.mem_def.1 h] at hnot
  simpa using hnot

/-- A line of a file has a key and a value. -/
theorem FileLine.lineText {line : List Char} (h : FileLine line) (hcolon : ':' ∈ line) :
    LineText (lineKey line) (lineValue line) := by
  obtain ⟨⟨t, ends, rfl, -, hlength, hends⟩, hzero⟩ := h
  have hcolon : ':' ∈ t := by
    rcases List.mem_append.1 hcolon with hmem | hmem
    · exact hmem
    · rcases hends with rfl | rfl
      · exact absurd hmem not_mem_nil
      · exact absurd hmem (by decide)
  obtain ⟨key, w, rfl, hkey⟩ := eq_append_cons_of_mem hcolon
  rw [append_assoc, cons_append] at hzero ⊢
  rw [lineKey_append hkey, lineValue_append hkey]
  refine ⟨fun c hc => not_mem_of_head?_dropWhile (head?_takeWhile hc),
    oneLine_takeWhile fun hmem => hzero ?_, ?_⟩
  · exact mem_append_right key (mem_cons_of_mem _ (dropWhile_subset _ hmem))
  · have hvalue : (((w ++ ends).dropWhile (· ∈ valueSeparators)).takeWhile
        fun c => c ≠ '\r' ∧ c ≠ '\n').length ≤ w.length := by
      rw [dropWhile_append]
      split_ifs
      · have hends' : ends.dropWhile (· ∈ valueSeparators) = [] ++ ends := by
          rcases hends with rfl | rfl <;> rfl
        rw [hends']
        exact (length_takeWhile_le hends).trans (Nat.zero_le _)
      · exact (length_takeWhile_le hends).trans (dropWhile_sublist _).length_le
    rw [length_append, length_cons] at hlength
    omega

theorem FileLine.continuesText {line : List Char} (h : FileLine line) (hcolon : ':' ∉ line) :
    ContinuesText (lineContinuation line) := by
  obtain ⟨⟨t, ends, rfl, -, hlength, hends⟩, hzero⟩ := h
  have hsubset : ∀ c ∈ lineContinuation (t ++ ends), c ∈ t ++ ends := fun c hc =>
    dropWhile_subset _ (takeWhile_subset _ hc)
  refine ⟨fun c hc => ?_, fun hmem => hcolon (hsubset _ hmem),
    oneLine_takeWhile fun hmem => hzero (dropWhile_subset _ hmem), ?_⟩
  · simpa using not_mem_of_head?_dropWhile (head?_takeWhile hc)
  · refine lt_of_le_of_lt ?_ hlength
    rw [lineContinuation, dropWhile_append]
    split_ifs
    · have hends' : ends.dropWhile (· ∈ [' ', '\t']) = [] ++ ends := by
        rcases hends with rfl | rfl <;> rfl
      rw [hends']
      exact (length_takeWhile_le hends).trans (Nat.zero_le _)
    · exact (length_takeWhile_le hends).trans (dropWhile_sublist _).length_le

theorem FileLine.alternativeText {line : List Char} (h : FileLine line) (hcolon : ':' ∈ line) :
    ∀ a ∈ splitOnSeparators (lineValue line) [',', ' '] (-1) false, AlternativeText a := by
  intro a ha
  have hline := (h.lineText hcolon).oneLine
  obtain ⟨hne, hchars⟩ := mem_splitLoop (fun c hc => not_mem_of_head?_dropWhile hc) ha
  exact ⟨hne, fun c hc => (hchars c hc).2,
    fun c hc => hline c (dropWhile_subset _ (hchars c hc).1)⟩

theorem LineText.size_alternatives {value : List Char}
    (h : LineText "Alternatives".toList value) :
    (splitOnSeparators value [',', ' '] (-1) false).flatten.length +
      (splitOnSeparators value [',', ' '] (-1) false).length ≤ 16370 := by
  have hsplit := @length_flatten_add_splitLoop_le [',', ' ']
    (value.countP (· ∈ [',', ' ']) + 1) (value.dropWhile (· ∈ [',', ' ']))
  have hdrop := (dropWhile_sublist (l := value) fun c => decide (c ∈ [',', ' '])).length_le
  have hshort : 12 + 1 + value.length < 16383 := h.short
  rw [splitOnSeparators, if_pos (by decide)]
  omega

/-! ## Stanzas -/

theorem ValueText.of_line {key v : List Char} (h : LineText key v) : ValueText key v :=
  ⟨v, [], (List.append_nil v).symm, h, fun _ hmem => absurd hmem not_mem_nil⟩

theorem ValueText.continue {key v l : List Char} (h : ValueText key v) (hl : ContinuesText l) :
    ValueText key (v ++ '\n' :: l) := by
  obtain ⟨first, ls, rfl, hfirst, hls⟩ := h
  refine ⟨first, ls ++ [l], by simp, hfirst, fun l' hl' => ?_⟩
  rcases List.mem_append.1 hl' with hmem | hmem
  · exact hls l' hmem
  · exact List.mem_singleton.1 hmem ▸ hl

namespace LoadedInfo

theorem vars_set (i : LoadedInfo) (key value key' : List Char) :
    (i.set key value).vars key' = if key' = key then some value else i.vars key' :=
  Function.update_apply i.vars key (some value) key'

theorem vars_over {new existing : LoadedInfo} {key : List Char} (hkey : key ≠ destinationKey) :
    (new.writtenOver existing).vars key = (new.vars key).or (existing.vars key) :=
  if_neg fun hboth => hkey hboth.1

end LoadedInfo

theorem ValueTexts.set {i : LoadedInfo} (h : ValueTexts i) {key value : List Char}
    (hvalue : key ∈ savedKeys → ValueText key value) : ValueTexts (i.set key value) where
  vars key' hkey' v hv := by
    rw [LoadedInfo.vars_set] at hv
    split_ifs at hv with heq
    · subst heq
      obtain rfl := Option.some.inj hv
      exact hvalue hkey'
    · exact h.vars key' hkey' v hv
  alternatives := h.alternatives
  size := h.size

theorem destinationKey_not_saved : LoadedInfo.destinationKey ∉ savedKeys := by decide

theorem statusKey_saved : LoadedInfo.statusKey ∈ savedKeys := by decide

theorem valueTexts_empty : ValueTexts {} where
  vars _ _ _ hv := by cases hv
  alternatives _ halts := by cases halts
  size _ halts := by cases halts

theorem valueTexts_initialInfo (f : FileLoad) (name : List Char) :
    ValueTexts (f.initialInfo name) := by
  have hdestination : ∀ i : LoadedInfo, ValueTexts i → ∀ value,
      ValueTexts (i.set LoadedInfo.destinationKey value) := fun i hi value =>
    hi.set fun hkey => absurd hkey destinationKey_not_saved
  have hsource : ∀ i : LoadedInfo, ValueTexts i → ∀ value,
      ValueTexts (i.set "Source-ID".toList value) := fun i hi value =>
    hi.set fun hkey => absurd hkey (by decide)
  rw [FileLoad.initialInfo]
  cases f.pkgSrcId with
  | none =>
    simp only
    split_ifs
    · exact hdestination _ valueTexts_empty _
    · exact valueTexts_empty
  | some id =>
    simp only
    split_ifs
    · exact hsource _ (hdestination _ valueTexts_empty _) _
    · exact hsource _ valueTexts_empty _
    · exact hdestination _ valueTexts_empty _
    · exact valueTexts_empty

theorem ValueTexts.setVariable {i : LoadedInfo} (h : ValueTexts i) (f : FileLoad)
    {name key value : List Char} (hvalue : LineText key value) :
    ValueTexts (f.setVariable name key value i) := by
  have hset : ValueTexts (i.set key value) := h.set fun _ => .of_line hvalue
  rw [FileLoad.setVariable]
  by_cases huser : key = LoadedInfo.statusKey ∧ f.includes name "User-Installed".toList
  · rw [if_pos huser]
    exact hset.set fun hkey => absurd hkey (by decide)
  · rw [if_neg huser]
    exact hset

theorem ValueTexts.corrected {i : LoadedInfo} (h : ValueTexts i) : ValueTexts i.corrected := by
  have hstatus : ValueText LoadedInfo.statusKey
      ((i.vars LoadedInfo.statusKey).getD "unknown ok not-installed".toList) := by
    cases hvar : i.vars LoadedInfo.statusKey with
    | none =>
      refine .of_line ⟨?_, Numerals.forall_mem_of_all (by decide), by decide⟩
      rintro c ⟨⟩
      decide
    | some v => exact h.vars _ statusKey_saved v hvar
  have hset := h.set fun _ => hstatus
  rw [LoadedInfo.corrected]
  split_ifs
  · exact hset.set fun hkey => absurd hkey destinationKey_not_saved
  · exact hset

theorem isSome_status_corrected (i : LoadedInfo) :
    (i.corrected.vars LoadedInfo.statusKey).isSome := by
  rw [LoadedInfo.corrected]
  split_ifs
  · rw [LoadedInfo.vars_set, if_neg (by decide), LoadedInfo.vars_set, if_pos rfl]
    rfl
  · rw [LoadedInfo.vars_set, if_pos rfl]
    rfl

theorem ValueTexts.writtenOver {new existing : LoadedInfo} (hnew : ValueTexts new)
    (hexisting : ValueTexts existing) : ValueTexts (new.writtenOver existing) where
  vars key hkey v hv := by
    have hne : key ≠ LoadedInfo.destinationKey := fun heq =>
      destinationKey_not_saved (heq ▸ hkey)
    rw [LoadedInfo.vars_over hne] at hv
    rcases Option.or_eq_some_iff.1 hv with hv | ⟨-, hv⟩
    · exact hnew.vars key hkey v hv
    · exact hexisting.vars key hkey v hv
  alternatives alts halts := by
    rcases Option.or_eq_some_iff.1 halts with halts | ⟨-, halts⟩
    · exact hnew.alternatives alts halts
    · exact hexisting.alternatives alts halts
  size alts halts := by
    rcases Option.or_eq_some_iff.1 halts with halts | ⟨-, halts⟩
    · exact hnew.size alts halts
    · exact hexisting.size alts halts

theorem isSome_status_over {new existing : LoadedInfo}
    (h : (new.vars LoadedInfo.statusKey).isSome) :
    ((new.writtenOver existing).vars LoadedInfo.statusKey).isSome := by
  obtain ⟨v, hv⟩ := Option.isSome_iff_exists.1 h
  rw [LoadedInfo.vars_over (by decide), hv]
  rfl

/-! ## Packages -/

section Packages

variable [Kernel]

structure VersionTexts (f : String × LoadedInfo) : Prop where
  version : LineText "Version".toList f.1.toList
  values : ValueTexts f.2
  status : (f.2.vars LoadedInfo.statusKey).isSome

structure PackageTexts (e : String × LoadedVersions) : Prop where
  name : LineText "Package".toList e.1.toList
  versions : ∀ f ∈ e.2.infos.entries, VersionTexts f
  current : ∀ v, e.2.current = some v → LineText "Version".toList v.toList

def DataTexts (data : LoadedPackages) : Prop := ∀ e ∈ data.entries, PackageTexts e

theorem dataTexts_empty : DataTexts HashedMap.empty := fun _ hmem => absurd hmem not_mem_nil

omit [Kernel] in
theorem mem_entries_modify {κ V : Type*} {hash : κ → ℕ} (m : HashedMap hash V) (k : κ) (g : V → V)
    {e : κ × V} (h : e ∈ (m.modify k g).entries) :
    ∃ v, (e.1, v) ∈ m.entries ∧ (e.2 = v ∨ e.2 = g v ∧ hash e.1 = hash k) := by
  obtain ⟨e', he', rfl⟩ := List.mem_map.1 h
  refine ⟨e'.2, he', ?_⟩
  by_cases hhash : hash e'.1 = hash k
  · exact .inr ⟨if_pos hhash, hhash⟩
  · exact .inl (if_neg hhash)

theorem versionTexts_written {infos : StringMap LoadedInfo}
    (h : ∀ f ∈ infos.entries, VersionTexts f) {version : String} {i : LoadedInfo}
    (hnew : VersionTexts (version, i)) :
    ∀ f ∈ (LoadedVersions.written infos version i).entries, VersionTexts f := by
  intro f hf
  rw [LoadedVersions.written] at hf
  cases hget : infos.get version with
  | some existing =>
    rw [hget] at hf
    obtain ⟨v, hv, hcase⟩ := mem_entries_modify infos version _ hf
    have hold := h _ hv
    rcases hcase with heq | ⟨heq, -⟩
    · exact (Prod.ext rfl heq : f = (f.1, v)) ▸ hold
    · refine ⟨hold.version, ?_, ?_⟩
      · rw [heq]
        exact hnew.values.writtenOver hold.values
      · rw [heq]
        exact isSome_status_over hnew.status
  | none =>
    rw [hget] at hf
    rcases (infos.mem_entries_set version i f).1 hf with rfl | ⟨hf, -⟩
    · exact hnew
    · exact h f hf

theorem version_of_refresh {infos : StringMap LoadedInfo}
    (h : ∀ f ∈ infos.entries, VersionTexts f) {current : Option String}
    (hcurrent : ∀ v, current = some v → LineText "Version".toList v.toList) {v : String}
    (hv : (LoadedVersions.placed infos).or current = some v) :
    LineText "Version".toList v.toList := by
  rcases Option.or_eq_some_iff.1 hv with hplaced | ⟨-, hold⟩
  · obtain ⟨f, hf, rfl⟩ := Option.map_eq_some_iff.1 hplaced
    exact (h f (List.mem_filter.1 (mem_of_getLast? hf)).1).version
  · exact hcurrent v hold

/-- A version made of lines is added. -/
theorem DataTexts.addLoaded {data : LoadedPackages} (h : DataTexts data) {i : LoadedInfo}
    {name version : List Char} (hi : ValueTexts i) (hname : LineText "Package".toList name)
    (hversion : LineText "Version".toList version) :
    DataTexts (addLoaded data i (String.ofList name) (String.ofList version)) := by
  have htext : ∀ t : List Char, (String.ofList t).toList = t := fun _ => String.toList_ofList
  have hnew : VersionTexts (String.ofList version, i.corrected) :=
    ⟨(htext version).symm ▸ hversion, hi.corrected, isSome_status_corrected i⟩
  intro e he
  rw [Gpkg.addLoaded] at he
  cases hget : data.get (String.ofList name) with
  | some vs =>
    rw [hget] at he
    obtain ⟨v, hv, hcase⟩ := mem_entries_modify data _ _ he
    have hold := h _ hv
    rcases hcase with heq | ⟨heq, hhash⟩
    · refine ⟨hold.name, ?_, ?_⟩
      · rw [heq]
        exact hold.versions
      · rw [heq]
        exact hold.current
    · have hvs : v = vs := by
        have hgetv := data.get_of_mem hv
        rw [data.get_congr hhash, hget] at hgetv
        exact (Option.some.inj hgetv).symm
      subst hvs
      have hversions := versionTexts_written hold.versions hnew
      refine ⟨hold.name, ?_, ?_⟩
      · rw [heq]
        exact hversions
      · rw [heq]
        exact fun w hw => version_of_refresh hversions hold.current hw
  | none =>
    rw [hget] at he
    rcases (data.mem_entries_set _ _ e).1 he with rfl | ⟨he, -⟩
    · have hversions : ∀ f ∈ (HashedMap.empty.set (String.ofList version) i.corrected :
          StringMap LoadedInfo).entries, VersionTexts f := by
        intro f hf
        rcases (HashedMap.empty.mem_entries_set _ _ f).1 hf with rfl | ⟨hmem, -⟩
        · exact hnew
        · exact absurd hmem not_mem_nil
      exact ⟨(htext name).symm ▸ hname, hversions, fun w hw => version_of_refresh hversions
        (fun _ hnone => by cases hnone) hw⟩
    · exact h e he

/-! ## The loop over the lines -/

structure StateTexts (s : LoadState) : Prop where
  data : DataTexts s.data
  name : ∀ name, s.pkgName = some name → LineText "Package".toList name
  version : ∀ version, s.pkgVersion = .text version → LineText "Version".toList version
  info : ∀ i, s.nextPkgData = some i → ValueTexts i

theorem StateTexts.flush {s : LoadState} (h : StateTexts s) {data : LoadedPackages}
    (hflush : s.flush = some data) : DataTexts data := by
  rw [LoadState.flush] at hflush
  split at hflush
  · rename_i name i hname hi _
    split at hflush
    · exact Option.some.inj hflush ▸ h.data
    · cases hflush
    · rename_i version hversion
      obtain rfl := Option.some.inj hflush
      exact h.data.addLoaded (h.info i hi) (h.name name hname) (h.version version hversion)
  · exact Option.some.inj hflush ▸ h.data

theorem StateTexts.startStanza {s s' : LoadState} (h : StateTexts s) {f : FileLoad}
    {name : List Char} (hname : LineText "Package".toList name)
    (hstart : s.startStanza f name = some s') : StateTexts s' := by
  obtain ⟨data, hflush, hstart⟩ := Option.bind_eq_some_iff.1 hstart
  obtain ⟨version, hfree, rfl⟩ := Option.map_eq_some_iff.1 hstart
  refine ⟨h.flush hflush, ?_, ?_, ?_⟩
  · rintro _ ⟨⟩
    exact hname
  · rintro version' rfl
    rw [LoadState.freeVersion] at hfree
    split at hfree <;> cases hfree
  · rintro _ ⟨⟩
    exact valueTexts_initialInfo f name

/-- A variable made of a line is stored. -/
theorem StateTexts.readVariable {s s' : LoadState} (h : StateTexts s) {f : FileLoad}
    {key value : List Char} (hvalue : LineText key value)
    (halternatives : ∀ a ∈ splitOnSeparators value [',', ' '] (-1) false, AlternativeText a)
    (hread : s.readVariable f key value = some s') : StateTexts s' := by
  have hs : StateTexts { s with lastVariable := none } := ⟨h.data, h.name, h.version, h.info⟩
  rw [LoadState.readVariable] at hread
  split_ifs at hread with hpackage hversion halt
  · subst hpackage
    exact hs.startStanza hvalue hread
  · subst hversion
    obtain rfl := Option.some.inj hread
    refine ⟨h.data, h.name, ?_, h.info⟩
    rintro _ ⟨⟩
    exact hvalue
  · subst halt
    obtain ⟨i, hi, rfl⟩ := Option.map_eq_some_iff.1 hread
    refine ⟨h.data, h.name, h.version, ?_⟩
    rintro _ ⟨⟩
    refine ⟨(h.info i hi).vars, ?_, ?_⟩
    · rintro _ ⟨⟩
      exact halternatives
    · rintro _ ⟨⟩
      exact hvalue.size_alternatives
  · split at hread
    · exact Option.some.inj hread ▸ hs
    · split_ifs at hread
      · obtain ⟨i, hi, rfl⟩ := Option.map_eq_some_iff.1 hread
        refine ⟨h.data, h.name, h.version, ?_⟩
        rintro _ ⟨⟩
        exact (h.info i hi).setVariable f hvalue
      · exact Option.some.inj hread ▸ hs

theorem StateTexts.readContinuation {s : LoadState} (h : StateTexts s) {line : List Char}
    (hline : ContinuesText (lineContinuation line)) : StateTexts (s.readContinuation line) := by
  have hs : StateTexts { s with lastVariable := none } := ⟨h.data, h.name, h.version, h.info⟩
  rw [LoadState.readContinuation]
  split
  · rename_i key i hkey hi
    split_ifs
    · split
      · rename_i old hold
        refine ⟨h.data, h.name, h.version, ?_⟩
        rintro _ ⟨⟩
        exact (h.info i hi).set fun hkey => ((h.info i hi).vars key hkey old hold).continue hline
      · exact hs
    · exact hs
  · exact hs

theorem StateTexts.readLine {s s' : LoadState} (h : StateTexts s) {f : FileLoad} {line : List Char}
    (hline : FileLine line) (hread : s.readLine f line = some s') : StateTexts s' := by
  rw [LoadState.readLine] at hread
  split_ifs at hread with hcolon
  · exact h.readVariable (hline.lineText hcolon) (hline.alternativeText hcolon) hread
  · exact Option.some.inj hread ▸ h.readContinuation (hline.continuesText hcolon)

theorem StateTexts.readLines {f : FileLoad} {ls : List (List Char)}
    (hls : ∀ line ∈ ls, FileLine line) {s s' : LoadState} (h : StateTexts s)
    (hread : ls.foldlM (LoadState.readLine f) s = some s') : StateTexts s' := by
  induction ls generalizing s with
  | nil => exact Option.some.inj hread ▸ h
  | cons line ls ih =>
    obtain ⟨hline, hls⟩ := List.forall_mem_cons.1 hls
    rw [foldlM_cons] at hread
    obtain ⟨s₁, hfirst, hrest⟩ := Option.bind_eq_some_iff.1 hread
    exact ih hls (h.readLine hline hfirst) hrest

theorem DataTexts.loadFile {data data' : LoadedPackages} (h : DataTexts data) {f : FileLoad}
    (hshort : ShortLines 16383 f.text) (hload : loadFile data f = some data') :
    DataTexts data' := by
  obtain ⟨s, hs, hflush⟩ := Option.bind_eq_some_iff.1 hload
  have hstart : StateTexts { data := data } :=
    ⟨h, fun _ hname => (by cases hname), fun _ hversion => (by cases hversion),
      fun _ hinfo => (by cases hinfo)⟩
  exact (hstart.readLines (fun line hline => fileLine_of_mem hshort hline) hs).flush hflush

theorem DataTexts.loadFiles {fs : List FileLoad} (hshort : ∀ f ∈ fs, ShortLines 16383 f.text)
    {data data' : LoadedPackages} (h : DataTexts data) (hload : loadFiles data fs = some data') :
    DataTexts data' := by
  induction fs generalizing data with
  | nil => exact Option.some.inj hload ▸ h
  | cons f fs ih =>
    obtain ⟨hf, hfs⟩ := List.forall_mem_cons.1 hshort
    rw [Gpkg.loadFiles, foldlM_cons] at hload
    obtain ⟨data₁, hfirst, hrest⟩ := Option.bind_eq_some_iff.1 hload
    exact ih hfs (h.loadFile hf hfirst) hrest

end Packages

end Gpkg

end Gargoyle
