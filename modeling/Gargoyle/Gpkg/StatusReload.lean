import Gargoyle.Gpkg.StatusRoundTrip

/-!
# What the saved status file brings back

The stanzas of the installed versions are read one after the other. If all lists of alternatives
fit in a line, each stanza adds a package with the one version, and this is taken to be installed
unless its status says that it is not. From this it follows for which installed versions saving
and loading gives all values back.
-/

namespace Gargoyle

open List

namespace Gpkg

open Bandwidth FgetsLines
open Timerange (splitOnSeparators)

/-! ## Stanzas -/

section Stanzas

structure SavedTexts (e : SavedVersion) : Prop where
  name : LineText "Package".toList e.name.toList
  version : LineText "Version".toList e.version.toList
  values : ValueTexts e.info
  status : (e.info.vars LoadedInfo.statusKey).isSome

def SavedVersion.stanza (e : SavedVersion) : List Char := savedStanza e.name e.version e.info

theorem SavedVersion.notIndented_stanza (e : SavedVersion) (text : List Char) :
    NotIndented (e.stanza ++ text) := by
  simp only [stanza, savedStanza, append_assoc]
  exact plainKey_package.notIndented _ _

theorem notIndented_stanzas (es : List SavedVersion) :
    NotIndented (es.flatMap SavedVersion.stanza) := by
  cases es with
  | nil => rintro c ⟨⟩
  | cons e es => exact e.notIndented_stanza _

theorem notIndented_savedAlternatives (i : LoadedInfo) (text : List Char) :
    NotIndented (savedAlternatives i ++ '\n' :: text) := by
  rw [savedAlternatives]
  cases i.alternatives with
  | none =>
    rintro c ⟨⟩
    decide
  | some alts => exact plainKey_alternatives.notIndented _ _

def reloaded (f : FileLoad) (name : String) (i : LoadedInfo) : LoadedInfo :=
  { storeAll f name.toList i savedKeys (f.initialInfo name.toList) with
    alternatives := i.alternatives.map fun alts =>
      splitOnSeparators (stripped (alternativesText alts)) [',', ' '] (-1) false }

theorem alternatives_initialInfo (f : FileLoad) (name : List Char) :
    (f.initialInfo name).alternatives = none := by
  rw [FileLoad.initialInfo]
  cases f.pkgSrcId with
  | none =>
    simp only
    split_ifs <;> rfl
  | some id =>
    simp only
    split_ifs <;> rfl

structure Outcome (f : FileLoad) (e o : SavedVersion) : Prop where
  name : o.name = e.name
  version : e.Fits → o.version = e.version
  info : e.Fits → o.info = reloaded f e.name e.info
  differs : ¬e.Fits → o.info.alternatives ≠ e.info.alternatives

variable [Kernel]

def SavedVersion.addTo (data : LoadedPackages) (o : SavedVersion) : LoadedPackages :=
  addLoaded data o.info o.name o.version

variable {f : FileLoad}

/-- A stanza is read back, and the rest after it. -/
theorem finish_stanza (hincludes : ∀ name key, f.includes name key = true) {e : SavedVersion}
    (he : SavedTexts e) {s : LoadState} {data : LoadedPackages} (hflush : s.flush = some data)
    {text : List Char} (h : NotIndented text) :
    ∃ s' o, finish f s (e.stanza ++ text) = s.freeVersion.bind (fun _ => finish f s' text) ∧
      s'.flush = some (SavedVersion.addTo data o) ∧ Outcome f e o ∧
      (e.Fits → s'.freeVersion.isSome) := by
  have hheader := finish_header (f := f) he.name he.version hflush
    (notIndented_variables e.info (fun key hkey => hkey)
      (notIndented_savedAlternatives e.info text))
  have hvariables := finish_variables (f := f) he.values (hincludes e.name.toList)
    (fun key hkey => hkey) (notIndented_savedAlternatives e.info text)
    (j := f.initialInfo e.name.toList)
    (s := { data := data
            nextPkgData := some (f.initialInfo e.name.toList)
            pkgName := some e.name.toList
            pkgVersion := .text e.version.toList }) rfl rfl
  have hloaded : (savedKeys.any fun key => (e.info.vars key).isSome) = true :=
    List.any_eq_true.2 ⟨LoadedInfo.statusKey, statusKey_saved, he.status⟩
  have htext : e.stanza ++ text = savedLine "Package".toList e.name.toList ++
      (savedLine "Version".toList e.version.toList ++
        (savedVariables e.info savedKeys ++ (savedAlternatives e.info ++ '\n' :: text))) := by
    simp only [SavedVersion.stanza, savedStanza, append_assoc]
    rfl
  rw [htext, hheader, hvariables, hloaded]
  have hpending : Pending data e.name.toList e.version.toList
      (storeAll f e.name.toList e.info savedKeys (f.initialInfo e.name.toList))
      { data := data
        nextPkgData := some (storeAll f e.name.toList e.info savedKeys
          (f.initialInfo e.name.toList))
        pkgName := some e.name.toList
        pkgVersion := .text e.version.toList
        loadedAtLeastOneVariable := true } := ⟨rfl, rfl, rfl, rfl, rfl⟩
  have hnone : (storeAll f e.name.toList e.info savedKeys
      (f.initialInfo e.name.toList)).alternatives = none :=
    (alternatives_storeAll _ _ _ _).trans (alternatives_initialInfo f _)
  by_cases hfits : e.Fits
  · obtain ⟨s', hfinish, hs'⟩ := finish_alternatives he.values hfits hpending hnone h
    have hflush' := hs'.flush
    rw [String.ofList_toList, String.ofList_toList] at hflush'
    refine ⟨s', ⟨e.name, e.version, reloaded f e.name e.info⟩, ?_, hflush',
      ⟨rfl, fun _ => rfl, fun _ => rfl, fun hnot => absurd hfits hnot⟩, fun _ => ?_⟩
    · exact congrArg _ (funext fun _ => hfinish)
    · rw [hs'.freeVersion]
      rfl
  · obtain ⟨alts, halternatives, hlong⟩ : ∃ alts, e.info.alternatives = some alts ∧
        16369 < (alternativesText alts).length := by
      simpa [SavedVersion.Fits] using hfits
    obtain ⟨s', hfinish, version, j, hflush', hj⟩ :=
      finish_long_alternatives hincludes he.values halternatives hlong hpending h
    rw [String.ofList_toList] at hflush'
    refine ⟨s', ⟨e.name, version, j⟩, ?_, hflush', ⟨rfl, fun h => absurd h hfits,
      fun h => absurd h hfits, fun _ => halternatives ▸ hj⟩, fun h => absurd h hfits⟩
    exact congrArg _ (funext fun _ => hfinish)

theorem exists_of_finish_stanzas (hincludes : ∀ name key, f.includes name key = true)
    {es : List SavedVersion} (hes : ∀ e ∈ es, SavedTexts e) {s : LoadState}
    {data data' : LoadedPackages} (hflush : s.flush = some data)
    (hfinish : finish f s (es.flatMap SavedVersion.stanza) = some data') :
    ∃ ps : List (SavedVersion × SavedVersion), ps.map Prod.fst = es ∧
      (∀ p ∈ ps, Outcome f p.1 p.2) ∧ data' = (ps.map Prod.snd).foldl SavedVersion.addTo data := by
  induction es generalizing s data with
  | nil => exact ⟨[], rfl, fun _ h => absurd h not_mem_nil,
      (Option.some.inj (hflush.symm.trans hfinish)).symm⟩
  | cons e es ih =>
    obtain ⟨he, hes⟩ := List.forall_mem_cons.1 hes
    obtain ⟨s', o, hstanza, hflush', hout, -⟩ :=
      finish_stanza hincludes he hflush (notIndented_stanzas es)
    rw [flatMap_cons, hstanza] at hfinish
    obtain ⟨-, -, hrest⟩ := Option.bind_eq_some_iff.1 hfinish
    obtain ⟨ps, rfl, hps, hdata⟩ := ih hes hflush' hrest
    exact ⟨(e, o) :: ps, rfl, List.forall_mem_cons.2 ⟨hout, hps⟩, hdata⟩

theorem isSome_finish_stanzas (hincludes : ∀ name key, f.includes name key = true)
    {es : List SavedVersion} (hes : ∀ e ∈ es, SavedTexts e) (hfits : ∀ e ∈ es, e.Fits)
    {s : LoadState} {data : LoadedPackages} (hflush : s.flush = some data)
    (hfree : s.freeVersion.isSome) :
    (finish f s (es.flatMap SavedVersion.stanza)).isSome := by
  induction es generalizing s data with
  | nil =>
    rw [flatMap_nil, finish_nil, hflush]
    rfl
  | cons e es ih =>
    obtain ⟨he, hes⟩ := List.forall_mem_cons.1 hes
    obtain ⟨hfit, hfits⟩ := List.forall_mem_cons.1 hfits
    obtain ⟨s', o, hstanza, hflush', -, hfree'⟩ :=
      finish_stanza hincludes he hflush (notIndented_stanzas es)
    obtain ⟨pointer, hpointer⟩ := Option.isSome_iff_exists.1 hfree
    rw [flatMap_cons, hstanza, hpointer, Option.bind_some]
    exact ih hes hfits hflush' (hfree' hfit)

theorem get_addTo_of_ne {o : SavedVersion} {name : String}
    (h : sdbmStringHash o.name ≠ sdbmStringHash name) (data : LoadedPackages) :
    (o.addTo data).get name = data.get name := by
  rw [SavedVersion.addTo, addLoaded]
  cases data.get o.name with
  | some vs => rw [HashedMap.get_modify, if_neg (Ne.symm h)]
  | none => rw [HashedMap.get_set_of_ne _ _ h]

theorem get_addAll_of_ne {os : List SavedVersion} {name : String}
    (h : ∀ o ∈ os, sdbmStringHash o.name ≠ sdbmStringHash name) (data : LoadedPackages) :
    (os.foldl SavedVersion.addTo data).get name = data.get name := by
  induction os generalizing data with
  | nil => rfl
  | cons o os ih =>
    obtain ⟨ho, hos⟩ := List.forall_mem_cons.1 h
    rw [foldl_cons, ih hos, get_addTo_of_ne ho]

theorem get_addAll_of_mem {os : List SavedVersion}
    (hdistinct : os.Pairwise fun o o' => sdbmStringHash o.name ≠ sdbmStringHash o'.name)
    {data : LoadedPackages} (hfresh : ∀ o ∈ os, data.get o.name = none) {o : SavedVersion}
    (ho : o ∈ os) :
    (os.foldl SavedVersion.addTo data).get o.name =
      some (.single o.version o.info.corrected) := by
  induction os generalizing data with
  | nil => exact absurd ho not_mem_nil
  | cons o₁ os ih =>
    obtain ⟨hhead, hdistinct⟩ := List.pairwise_cons.1 hdistinct
    obtain ⟨hnone, hfresh⟩ := List.forall_mem_cons.1 hfresh
    rw [foldl_cons]
    rcases List.mem_cons.1 ho with rfl | ho
    · rw [get_addAll_of_ne fun o' ho' => (hhead o' ho').symm, SavedVersion.addTo, addLoaded,
        hnone, HashedMap.get_set_self]
    · refine ih hdistinct (fun o' ho' => ?_) ho
      rw [get_addTo_of_ne (hhead o' ho'), hfresh o' ho']

end Stanzas

/-! ## Installed versions -/

section Installed

variable [Kernel]

def LoadedVersions.installed (vs : LoadedVersions) : Option (String × LoadedInfo) :=
  vs.current.bind fun version => (vs.infos.get version).map fun i => (version, i)

def installedVersion (data : LoadedPackages) (name : String) : Option (String × LoadedInfo) :=
  (data.get name).bind LoadedVersions.installed

def savedVersions (data : LoadedPackages) : List SavedVersion :=
  data.entries.filterMap fun e => e.2.installed.map fun p => ⟨e.1, p.1, p.2⟩

theorem savedText_eq (data : LoadedPackages) :
    savedText data = (savedVersions data).flatMap SavedVersion.stanza := by
  rw [savedText, savedVersions]
  induction data.entries with
  | nil => rfl
  | cons e es ih =>
    rw [flatMap_cons, ih, filterMap_cons, savePkgStatus, LoadedVersions.installed]
    cases e.2.current with
    | none => rfl
    | some version =>
      simp only [Option.bind_some]
      cases e.2.infos.get version <;> rfl

theorem mem_savedVersions {data : LoadedPackages} {e : SavedVersion} :
    e ∈ savedVersions data ↔
      ∃ vs, (e.name, vs) ∈ data.entries ∧ vs.installed = some (e.version, e.info) := by
  rw [savedVersions, mem_filterMap]
  constructor
  · rintro ⟨⟨name, vs⟩, hmem, heq⟩
    obtain ⟨p, hp, rfl⟩ := Option.map_eq_some_iff.1 heq
    exact ⟨vs, hmem, hp⟩
  · rintro ⟨vs, hmem, heq⟩
    exact ⟨(e.name, vs), hmem, Option.map_eq_some_iff.2 ⟨_, heq, rfl⟩⟩

theorem exists_saved {data : LoadedPackages} {name version : String} {i : LoadedInfo}
    (h : installedVersion data name = some (version, i)) :
    ∃ name', sdbmStringHash name' = sdbmStringHash name ∧
      (⟨name', version, i⟩ : SavedVersion) ∈ savedVersions data := by
  obtain ⟨vs, hget, hvs⟩ := Option.bind_eq_some_iff.1 h
  obtain ⟨name', hhash, hmem⟩ := data.exists_mem_of_get hget
  exact ⟨name', hhash, mem_savedVersions.2 ⟨vs, hmem, hvs⟩⟩

theorem installedVersion_of_saved {data : LoadedPackages} {e : SavedVersion}
    (h : e ∈ savedVersions data) :
    installedVersion data e.name = some (e.version, e.info) := by
  obtain ⟨vs, hmem, hvs⟩ := mem_savedVersions.1 h
  rw [installedVersion, data.get_of_mem hmem, Option.bind_some, hvs]

theorem installedVersion_congr (data : LoadedPackages) {name name' : String}
    (h : sdbmStringHash name = sdbmStringHash name') :
    installedVersion data name = installedVersion data name' := by
  rw [installedVersion, data.get_congr h, installedVersion]

theorem pairwise_savedVersions (data : LoadedPackages) :
    (savedVersions data).Pairwise fun e e' =>
      sdbmStringHash e.name ≠ sdbmStringHash e'.name := by
  refine List.pairwise_filterMap.2 (data.sorted.imp ?_)
  intro e e' hlt b hb b' hb'
  obtain ⟨p, -, rfl⟩ := Option.map_eq_some_iff.1 hb
  obtain ⟨p', -, rfl⟩ := Option.map_eq_some_iff.1 hb'
  exact hlt.ne

theorem DataTexts.savedTexts {data : LoadedPackages} (h : DataTexts data) {e : SavedVersion}
    (he : e ∈ savedVersions data) : SavedTexts e := by
  obtain ⟨vs, hmem, hvs⟩ := mem_savedVersions.1 he
  obtain ⟨version, hcurrent, hinfo⟩ := Option.bind_eq_some_iff.1 hvs
  obtain ⟨i, hget, heq⟩ := Option.map_eq_some_iff.1 hinfo
  obtain ⟨hversion, hi⟩ := Prod.mk.inj heq
  subst hi
  subst hversion
  obtain ⟨key, -, hentry⟩ := vs.infos.exists_mem_of_get hget
  have hpackage := h _ hmem
  have htexts := hpackage.versions _ hentry
  exact ⟨hpackage.name, hpackage.current _ hcurrent, htexts.values, htexts.status⟩

theorem installed_single (version : String) (i : LoadedInfo) :
    (LoadedVersions.single version i).installed =
      if i.isPlaced then some (version, i) else none := by
  have hcurrent : (LoadedVersions.single version i).current =
      if i.isPlaced then some version else none := by
    have hentries : (HashedMap.empty.set version i : StringMap LoadedInfo).entries =
        [(version, i)] := rfl
    have hrefresh : (LoadedVersions.single version i).current =
        (LoadedVersions.placed (HashedMap.empty.set version i)).or none := rfl
    rw [hrefresh, LoadedVersions.placed, hentries, filter_singleton]
    cases i.isPlaced <;> rfl
  have hget : (LoadedVersions.single version i).infos.get version = some i :=
    HashedMap.get_set_self _ _ _
  rw [LoadedVersions.installed, hcurrent]
  split_ifs
  · rw [Option.bind_some, hget]
    rfl
  · rfl

/-! ## Values -/

structure SameValues (i j : LoadedInfo) : Prop where
  vars : ∀ key ∈ savedKeys, j.vars key = i.vars key
  alternatives : j.alternatives = i.alternatives

omit [Kernel] in
theorem vars_corrected {j : LoadedInfo} (hstatus : (j.vars LoadedInfo.statusKey).isSome)
    {key : List Char} (hkey : key ≠ LoadedInfo.destinationKey) :
    j.corrected.vars key = j.vars key := by
  obtain ⟨status, hstatus⟩ := Option.isSome_iff_exists.1 hstatus
  have hset : (j.set LoadedInfo.statusKey
      ((j.vars LoadedInfo.statusKey).getD "unknown ok not-installed".toList)).vars key =
        j.vars key := by
    rw [LoadedInfo.vars_set, hstatus]
    split_ifs with heq
    · rw [heq, hstatus]
      rfl
    · rfl
  rw [LoadedInfo.corrected]
  split_ifs
  · rw [LoadedInfo.vars_set, if_neg hkey, hset]
  · exact hset

omit [Kernel] in
theorem alternatives_corrected (j : LoadedInfo) : j.corrected.alternatives = j.alternatives := by
  rw [LoadedInfo.corrected]
  split_ifs <;> rfl

omit [Kernel] in
theorem isPlaced_corrected {j : LoadedInfo} {status dest : List Char}
    (hstatus : j.vars LoadedInfo.statusKey = some status)
    (hdest : j.vars LoadedInfo.destinationKey = some dest) :
    j.corrected.isPlaced ↔
      dest ≠ notInstalledString.toList ∧ ¬LoadedInfo.notInstalled <:+: status := by
  have hne : LoadedInfo.destinationKey ≠ LoadedInfo.statusKey := by decide
  have hset : (j.set LoadedInfo.statusKey status).vars LoadedInfo.destinationKey = some dest := by
    rw [LoadedInfo.vars_set, if_neg hne, hdest]
  have hcondition : LoadedInfo.notInstalled <:+: status ∧
      ((j.set LoadedInfo.statusKey status).vars LoadedInfo.destinationKey).isSome ↔
        LoadedInfo.notInstalled <:+: status := by
    rw [hset]
    exact and_iff_left rfl
  rw [LoadedInfo.isPlaced, LoadedInfo.corrected]
  simp only [hstatus, Option.getD_some, hcondition]
  split_ifs with hnot
  · rw [LoadedInfo.vars_set, if_pos rfl, Option.any_some]
    simp [hnot]
  · rw [hset, Option.any_some]
    simp [hnot]

variable {dest text : List Char} {name : String}

omit [Kernel] in
theorem vars_initialInfo_reload {key : List Char} :
    ((reloadFile dest text).initialInfo name.toList).vars key =
      if key = LoadedInfo.destinationKey then some dest else none :=
  LoadedInfo.vars_set _ _ _ _

omit [Kernel] in
theorem vars_reloaded (i : LoadedInfo) {key : List Char} (hkey : key ∈ savedKeys) :
    (reloaded (reloadFile dest text) name i).vars key = (i.vars key).map firstLine := by
  obtain ⟨-, -, -, -, huser, hdest⟩ := savedKeys_plain key hkey
  have hall := vars_storeAll (f := reloadFile dest text) name.toList i savedKeys
    ((reloadFile dest text).initialInfo name.toList) huser
  rw [if_pos hkey, vars_initialInfo_reload, if_neg hdest, Option.or_none] at hall
  exact hall

omit [Kernel] in
theorem destinationKey_ne : LoadedInfo.destinationKey ≠ "User-Installed".toList := by decide

omit [Kernel] in
theorem destination_reloaded (i : LoadedInfo) :
    (reloaded (reloadFile dest text) name i).vars LoadedInfo.destinationKey = some dest := by
  have hall := vars_storeAll (f := reloadFile dest text) name.toList i savedKeys
    ((reloadFile dest text).initialInfo name.toList) destinationKey_ne
  rw [if_neg destinationKey_not_saved, vars_initialInfo_reload, if_pos rfl] at hall
  exact hall

structure Survives (dest : List Char) (i : LoadedInfo) : Prop where
  placed : dest ≠ notInstalledString.toList
  installed : ∀ v, i.vars LoadedInfo.statusKey = some v → ¬LoadedInfo.notInstalled <:+: v
  oneLine : ∀ key ∈ savedKeys, ∀ v, i.vars key = some v → '\n' ∉ v
  alternatives : ∀ alts, i.alternatives = some alts →
    alts ≠ [] ∧ ∀ c ∈ alts.head?.bind List.head?, c ≠ ':' ∧ c ≠ '\t'
  fits : ∀ alts, i.alternatives = some alts → (alternativesText alts).length ≤ 16369

omit [Kernel] in
theorem firstLine_eq_iff {v : List Char} : firstLine v = v ↔ '\n' ∉ v := by
  rw [firstLine, takeWhile_eq_self_iff]
  constructor
  · intro h hmem
    exact absurd rfl (of_decide_eq_true (h _ hmem))
  · exact fun h c hc => decide_eq_true (ne_of_mem_of_not_mem hc h)

omit [Kernel] in
/-- When the values of a version come back. -/
theorem sameValues_reloaded_iff {e : SavedVersion} (he : SavedTexts e) :
    SameValues e.info (reloaded (reloadFile dest text) e.name e.info).corrected ↔
      (∀ key ∈ savedKeys, ∀ v, e.info.vars key = some v → '\n' ∉ v) ∧
        ∀ alts, e.info.alternatives = some alts →
          alts ≠ [] ∧ ∀ c ∈ alts.head?.bind List.head?, c ≠ ':' ∧ c ≠ '\t' := by
  have hstatus : ((reloaded (reloadFile dest text) e.name e.info).vars
      LoadedInfo.statusKey).isSome := by
    rw [vars_reloaded e.info statusKey_saved, Option.isSome_map]
    exact he.status
  have hvars : ∀ key ∈ savedKeys,
      (reloaded (reloadFile dest text) e.name e.info).corrected.vars key = e.info.vars key ↔
        ∀ v, e.info.vars key = some v → '\n' ∉ v := by
    intro key hkey
    rw [vars_corrected hstatus (savedKeys_plain key hkey).2.2.2.2.2, vars_reloaded e.info hkey]
    cases e.info.vars key with
    | none => simp
    | some v => simp [firstLine_eq_iff]
  have halternatives : (reloaded (reloadFile dest text) e.name e.info).corrected.alternatives =
      e.info.alternatives ↔ ∀ alts, e.info.alternatives = some alts →
        alts ≠ [] ∧ ∀ c ∈ alts.head?.bind List.head?, c ≠ ':' ∧ c ≠ '\t' := by
    rw [alternatives_corrected, reloaded]
    cases halts : e.info.alternatives with
    | none => simp
    | some alts =>
      have hsplit := split_stripped_iff (he.values.alternatives alts halts)
      rw [Option.map_some, Option.some_inj, hsplit]
      simp
  constructor
  · exact fun h => ⟨fun key hkey => (hvars key hkey).1 (h.vars key hkey),
      halternatives.1 h.alternatives⟩
  · rintro ⟨hlines, halts⟩
    exact ⟨fun key hkey => (hvars key hkey).2 (hlines key hkey), halternatives.2 halts⟩

/-- When a version comes back as installed. -/
theorem restored_iff {e : SavedVersion} (he : SavedTexts e) (hfits : e.Fits) :
    (∃ j, (LoadedVersions.single e.version
        (reloaded (reloadFile dest text) e.name e.info).corrected).installed =
          some (e.version, j) ∧ SameValues e.info j) ↔ Survives dest e.info := by
  obtain ⟨status, hstatus⟩ := Option.isSome_iff_exists.1 he.status
  have hread : (reloaded (reloadFile dest text) e.name e.info).vars LoadedInfo.statusKey =
      some (firstLine status) := by
    rw [vars_reloaded e.info statusKey_saved, hstatus, Option.map_some]
  have hplaced := isPlaced_corrected hread (destination_reloaded e.info)
  have hsame := @sameValues_reloaded_iff dest text e he
  rw [installed_single]
  constructor
  · rintro ⟨j, hj, hvalues⟩
    split_ifs at hj with hyes
    obtain rfl := (Prod.mk.inj (Option.some.inj hj)).2
    obtain ⟨hlines, halts⟩ := hsame.1 hvalues
    obtain ⟨hdest, hnot⟩ := hplaced.1 hyes
    refine ⟨hdest, fun v hv => ?_, hlines, halts, hfits⟩
    obtain rfl := Option.some.inj (hstatus.symm.trans hv)
    rwa [firstLine_eq_iff.2 (hlines _ statusKey_saved status hstatus)] at hnot
  · intro h
    have hline := firstLine_eq_iff.2 (h.oneLine _ statusKey_saved status hstatus)
    have hyes := hplaced.2 ⟨h.placed, hline.symm ▸ h.installed status hstatus⟩
    rw [if_pos hyes]
    exact ⟨_, rfl, hsame.2 ⟨h.oneLine, h.alternatives⟩⟩

omit [Kernel] in
theorem zero_not_mem_savedLine {key v : List Char} (hkey : '\x00' ∉ key) (hv : '\x00' ∉ v) :
    '\x00' ∉ savedLine key v := by
  rw [savedLine, mem_append, mem_cons, mem_cons, mem_append]
  rintro (hmem | heq | heq | hmem | hmem)
  · exact hkey hmem
  · exact absurd heq (by decide)
  · exact absurd heq (by decide)
  · exact hv hmem
  · exact absurd hmem (by decide)

omit [Kernel] in
theorem OneLine.zero_not_mem {t : List Char} (h : OneLine t) : '\x00' ∉ t :=
  fun hmem => (h _ hmem).2.2 rfl

omit [Kernel] in
theorem ValueText.zero_not_mem {key v : List Char} (h : ValueText key v) : '\x00' ∉ v := by
  obtain ⟨first, ls, rfl, hfirst, hls⟩ := h
  rw [mem_append, mem_flatMap]
  rintro (hmem | ⟨l, hl, hmem⟩)
  · exact hfirst.oneLine.zero_not_mem hmem
  · rcases List.mem_cons.1 hmem with heq | hmem
    · exact absurd heq (by decide)
    · exact (hls l hl).oneLine.zero_not_mem hmem

omit [Kernel] in
theorem SavedTexts.zero_not_mem {e : SavedVersion} (h : SavedTexts e) : '\x00' ∉ e.stanza := by
  have hkeys : ∀ key ∈ savedKeys, '\x00' ∉ key := Numerals.forall_mem_of_all (by decide)
  rw [SavedVersion.stanza, savedStanza]
  simp only [mem_append]
  rintro ((((hmem | hmem) | hmem) | hmem) | hmem)
  · exact zero_not_mem_savedLine (by decide) h.name.oneLine.zero_not_mem hmem
  · exact zero_not_mem_savedLine (by decide) h.version.oneLine.zero_not_mem hmem
  · obtain ⟨key, hkey, hmem⟩ := List.mem_flatMap.1 hmem
    cases hvar : e.info.vars key with
    | none =>
      rw [hvar] at hmem
      exact absurd hmem not_mem_nil
    | some v =>
      rw [hvar] at hmem
      exact zero_not_mem_savedLine (hkeys key hkey) (h.values.vars key hkey v hvar).zero_not_mem
        hmem
  · rw [savedAlternatives] at hmem
    cases halts : e.info.alternatives with
    | none =>
      rw [halts] at hmem
      exact absurd hmem not_mem_nil
    | some alts =>
      rw [halts] at hmem
      exact zero_not_mem_savedLine (by decide)
        (oneLine_alternativesText (h.values.alternatives alts halts)).zero_not_mem hmem
  · exact absurd hmem (by decide)

theorem loadFile_saved {data : LoadedPackages} (h : DataTexts data) (dest : List Char) :
    loadFile HashedMap.empty (reloadFile dest (savedText data)) =
      finish (reloadFile dest (savedText data)) { data := HashedMap.empty }
        ((savedVersions data).flatMap SavedVersion.stanza) := by
  have hzero : '\x00' ∉ savedText data := by
    rw [savedText_eq, mem_flatMap]
    rintro ⟨e, he, hmem⟩
    exact (h.savedTexts he).zero_not_mem hmem
  have hpieces : ((pieces 16383 (savedText data)).map fun piece => piece.takeWhile (· ≠ '\x00')) =
      pieces 16383 (savedText data) := by
    refine (map_congr_left fun piece hpiece => ?_).trans (map_id _)
    refine List.takeWhile_eq_self_iff.2 fun c hc => decide_eq_true ?_
    exact ne_of_mem_of_not_mem ((mem_pieces hpiece).2 c hc) hzero
  have hlines : (reloadFile dest (savedText data)).lines = pieces 16383 (savedText data) := by
    have htext : (reloadFile dest (savedText data)).text = savedText data := rfl
    rw [FileLoad.lines, htext, hpieces]
    exact List.takeWhile_eq_self_iff.2 fun piece hpiece => decide_eq_true (mem_pieces hpiece).1
  rw [loadFile, hlines, ← savedText_eq]
  rfl

structure Restores (dest : List Char) (data data' : LoadedPackages) : Prop where
  load : loadFile HashedMap.empty (reloadFile dest (savedText data)) = some data'
  same : ∀ name version i, installedVersion data name = some (version, i) →
    ∃ j, installedVersion data' name = some (version, j) ∧ SameValues i j
  no_other : ∀ name, (installedVersion data' name).isSome → (installedVersion data name).isSome

/-- Each version that has been saved is found in the file. -/
theorem exists_of_load {data data' : LoadedPackages} (h : DataTexts data)
    (hload : loadFile HashedMap.empty (reloadFile dest (savedText data)) = some data') :
    (∀ e ∈ savedVersions data, ∃ o, Outcome (reloadFile dest (savedText data)) e o ∧
      installedVersion data' e.name =
        (LoadedVersions.single o.version o.info.corrected).installed) ∧
    ∀ name, (installedVersion data' name).isSome →
      ∃ e ∈ savedVersions data, sdbmStringHash e.name = sdbmStringHash name := by
  rw [loadFile_saved h] at hload
  obtain ⟨ps, hps, hout, rfl⟩ := exists_of_finish_stanzas (fun _ _ => rfl)
    (fun e he => h.savedTexts he) rfl hload
  have hmem : ∀ p ∈ ps, p.1 ∈ savedVersions data := fun p hp => hps ▸ mem_map_of_mem hp
  have hdistinct : (ps.map Prod.snd).Pairwise fun o o' =>
      sdbmStringHash o.name ≠ sdbmStringHash o'.name := by
    have hpairwise := pairwise_savedVersions data
    rw [← hps, pairwise_map] at hpairwise
    refine List.pairwise_map.2 (hpairwise.imp_of_mem ?_)
    intro p p' hp hp' hne
    rwa [(hout p hp).name, (hout p' hp').name]
  constructor
  · intro e he
    rw [← hps] at he
    obtain ⟨p, hp, rfl⟩ := List.mem_map.1 he
    refine ⟨p.2, hout p hp, ?_⟩
    have hfresh : ∀ o ∈ ps.map Prod.snd, (HashedMap.empty : LoadedPackages).get o.name = none :=
      fun _ _ => rfl
    have hget := get_addAll_of_mem hdistinct hfresh (mem_map_of_mem hp)
    rw [(hout p hp).name] at hget
    rw [installedVersion, hget, Option.bind_some]
  · intro name hname
    by_contra hnone
    push Not at hnone
    have hne : ∀ o ∈ ps.map Prod.snd, sdbmStringHash o.name ≠ sdbmStringHash name := by
      intro o ho
      obtain ⟨p, hp, rfl⟩ := List.mem_map.1 ho
      rw [(hout p hp).name]
      exact hnone p.1 (hmem p hp)
    rw [installedVersion, get_addAll_of_ne hne] at hname
    cases hname

/-- Whatever was loaded from files without lines that are too long, the installed versions are
brought back if and only if each of them survives. -/
theorem restores_iff {fs : List FileLoad} (hshort : ∀ f ∈ fs, ShortLines 16383 f.text)
    {data : LoadedPackages} (hload : loadFiles HashedMap.empty fs = some data)
    (dest : List Char) :
    (∃ data', Restores dest data data') ↔
      ∀ name version i, installedVersion data name = some (version, i) → Survives dest i := by
  have htexts : DataTexts data := dataTexts_empty.loadFiles hshort hload
  constructor
  · rintro ⟨data', hrestores⟩ name version i hinstalled
    obtain ⟨name', -, he⟩ := exists_saved hinstalled
    obtain ⟨o, hout, hread⟩ := (exists_of_load htexts hrestores.load).1 _ he
    obtain ⟨j, hj, hsame⟩ := hrestores.same name' version i (installedVersion_of_saved he)
    rw [hread] at hj
    have hfits : SavedVersion.Fits ⟨name', version, i⟩ := by
      by_contra hnot
      refine hout.differs hnot ?_
      rw [installed_single] at hj
      split_ifs at hj
      obtain rfl := (Prod.mk.inj (Option.some.inj hj)).2
      rw [← hsame.alternatives, alternatives_corrected]
    rw [hout.version hfits, hout.info hfits] at hj
    exact (restored_iff (htexts.savedTexts he) hfits).1 ⟨j, hj, hsame⟩
  · intro hsurvives
    have hfits : ∀ e ∈ savedVersions data, e.Fits := fun e he =>
      (hsurvives e.name e.version e.info (installedVersion_of_saved he)).fits
    obtain ⟨data', hdata'⟩ := Option.isSome_iff_exists.1 (isSome_finish_stanzas
      (f := reloadFile dest (savedText data)) (s := { data := HashedMap.empty })
      (fun _ _ => rfl) (fun e he => htexts.savedTexts he) hfits rfl rfl)
    rw [← loadFile_saved htexts] at hdata'
    obtain ⟨hall, hothers⟩ := exists_of_load htexts hdata'
    refine ⟨data', hdata', fun name version i hinstalled => ?_, fun name hname => ?_⟩
    · obtain ⟨name', hhash, he⟩ := exists_saved hinstalled
      obtain ⟨o, hout, hread⟩ := hall _ he
      rw [hout.version (hfits _ he), hout.info (hfits _ he)] at hread
      rw [← installedVersion_congr data' hhash, hread]
      exact (restored_iff (htexts.savedTexts he) (hfits _ he)).2
        (hsurvives name version i hinstalled)
    · obtain ⟨e, he, hhash⟩ := hothers name hname
      rw [← installedVersion_congr data hhash, installedVersion_of_saved he]
      rfl

end Installed

/-! ## A value of two lines -/

def continuedDepends : FileLoad where
  includes _ _ := true
  destName := some "root".toList
  pkgSrcId := none
  text := ("Package: a\nVersion: 1\nDepends: b,\n c\n" ++
    "Status: install user installed\n").toList

section Continued

local instance continuedKernel : Kernel := referenceKernel 64

theorem shortLines_continued : ∀ f ∈ [continuedDepends], ShortLines 16383 f.text := by
  intro f hf t ht _
  obtain rfl := List.mem_singleton.1 hf
  exact ht.length_le.trans_lt (by decide)

theorem restores_iff_continued : ∃ data, loadFiles HashedMap.empty [continuedDepends] = some data ∧
    ((∃ data', Restores "root".toList data data') ↔
      ∀ name version i, installedVersion data name = some (version, i) →
        Survives "root".toList i) := by
  obtain ⟨data, hload⟩ := Option.isSome_iff_exists.1
    (by decide : (loadFiles HashedMap.empty [continuedDepends]).isSome)
  exact ⟨data, hload, restores_iff shortLines_continued hload _⟩

/-- The package that is read back depends on the first one only. -/
theorem continuation_line_lost : (∀ f ∈ [continuedDepends], ShortLines 16383 f.text) ∧
    ∃ data, loadFiles HashedMap.empty [continuedDepends] = some data ∧
      ¬∃ data', Restores "root".toList data data' := by
  obtain ⟨data, hload⟩ := Option.isSome_iff_exists.1
    (by decide : (loadFiles HashedMap.empty [continuedDepends]).isSome)
  have hdepends : ((loadFiles HashedMap.empty [continuedDepends]).bind fun data =>
      (installedVersion data "a").bind fun p => p.2.vars "Depends".toList) =
        some "b,\nc".toList := by
    decide
  have hread : ((loadFiles HashedMap.empty [continuedDepends]).bind fun data =>
      (loadFile HashedMap.empty (reloadFile "root".toList (savedText data))).bind fun data' =>
        (installedVersion data' "a").bind fun p => p.2.vars "Depends".toList) =
          some "b,".toList := by
    decide
  rw [hload, Option.bind_some] at hdepends hread
  refine ⟨shortLines_continued, data, hload, ?_⟩
  rintro ⟨data', hrestores⟩
  obtain ⟨⟨version, i⟩, hinstalled, hi⟩ := Option.bind_eq_some_iff.1 hdepends
  obtain ⟨j, hj, hsame⟩ := hrestores.same "a" version i hinstalled
  rw [hrestores.load, Option.bind_some, hj, Option.bind_some,
    hsame.vars _ mem_cons_self, hi] at hread
  exact absurd hread (by decide)

end Continued

end Gpkg

end Gargoyle
