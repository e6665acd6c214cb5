import Gargoyle.Bandwidth.ReferenceKernel
import Gargoyle.Data.AcyclicRelations
import Gargoyle.Data.Calls
import Gargoyle.Gpkg.Lookup

/-!
# When loading comes to an end

A version is marked as loaded after its dependencies have been loaded, so that the mark
does not stop a call that comes back to the version on its way. The calls end exactly
when no package requires itself through versions that are not loaded, and the lookups
that they make end exactly when no provided name leads back to itself through names
without a version that can be installed.

Both are said for data that has been loaded further than some earlier data: the marks
that are already there stay as they are, and what depends on them is only cut
shorter.
-/

namespace Gargoyle

open List

namespace Gpkg

open Bandwidth Relation

section Packages

variable [Kernel]

/-! ## Data that is loaded further -/

structure PackageInfo.Further (i i' : PackageInfo) : Prop where
  fields : i' = { i with loaded := i'.loaded }
  loaded : ∀ l, i.loaded = some l → i'.loaded = some l

structure Versions.Further (vs vs' : Versions) : Prop where
  current : vs'.current = vs.current
  latest : vs'.latest = vs.latest
  keys : vs'.infos.keys = vs.infos.keys
  infos : ∀ v, Option.Rel PackageInfo.Further (vs.infos.get v) (vs'.infos.get v)

structure PackageData.Further (data data' : PackageData) : Prop where
  provides : data'.provides = data.provides
  packages : ∀ name, Option.Rel Versions.Further (data.packages.get name) (data'.packages.get name)

section OptionRel

variable {α : Type*} {r : α → α → Prop} {a : α} {o : Option α}

omit [Kernel] in
theorem optionRel_refl (h : ∀ a, r a a) (o : Option α) : Option.Rel r o o := by
  cases o with
  | none => exact .none
  | some a => exact .some (h a)

omit [Kernel] in
theorem exists_of_rel_some (h : Option.Rel r (some a) o) : ∃ b, o = some b ∧ r a b := by
  cases h with
  | some h => exact ⟨_, rfl, h⟩

omit [Kernel] in
theorem exists_of_rel_some' (h : Option.Rel r o (some a)) : ∃ b, o = some b ∧ r b a := by
  cases h with
  | some h => exact ⟨_, rfl, h⟩

omit [Kernel] in
theorem eq_none_of_rel (h : Option.Rel r none o) : o = none := by
  cases h with
  | none => rfl

omit [Kernel] in
theorem optionRel_trans (h : ∀ a b c, r a b → r b c → r a c) {o o' o'' : Option α}
    (ho : Option.Rel r o o') (ho' : Option.Rel r o' o'') : Option.Rel r o o'' := by
  cases ho with
  | none => exact ho'
  | some hab =>
    cases ho' with
    | some hbc => exact .some (h _ _ _ hab hbc)

end OptionRel

section Further

theorem PackageInfo.Further.refl (i : PackageInfo) : i.Further i := ⟨rfl, fun _ h => h⟩

theorem Versions.Further.refl (vs : Versions) : vs.Further vs :=
  ⟨rfl, rfl, rfl, fun _ => optionRel_refl PackageInfo.Further.refl _⟩

theorem PackageData.Further.refl (data : PackageData) : data.Further data :=
  ⟨rfl, fun _ => optionRel_refl Versions.Further.refl _⟩

theorem PackageInfo.Further.trans {i i' i'' : PackageInfo} (h : i.Further i')
    (h' : i'.Further i'') : i.Further i'' := by
  refine ⟨?_, fun l hl => h'.loaded l (h.loaded l hl)⟩
  rw [h'.fields, h.fields]

theorem Versions.Further.trans {vs vs' vs'' : Versions} (h : vs.Further vs')
    (h' : vs'.Further vs'') : vs.Further vs'' :=
  ⟨h'.current.trans h.current, h'.latest.trans h.latest, h'.keys.trans h.keys, fun v =>
    optionRel_trans (r := PackageInfo.Further) (fun _ _ _ h h' => h.trans h') (h.infos v)
      (h'.infos v)⟩

theorem PackageData.Further.trans {data data' data'' : PackageData} (h : data.Further data')
    (h' : data'.Further data'') : data.Further data'' :=
  ⟨h'.provides.trans h.provides, fun name =>
    optionRel_trans (r := Versions.Further) (fun _ _ _ h h' => h.trans h') (h.packages name)
      (h'.packages name)⟩

variable {data data' : PackageData} {r : PackageRef}

theorem PackageData.Further.get (h : data.Further data') {name : String} {vs : Versions}
    (hget : data.packages.get name = some vs) :
    ∃ vs', data'.packages.get name = some vs' ∧ vs.Further vs' :=
  exists_of_rel_some (hget ▸ h.packages name)

theorem PackageData.Further.get_none (h : data.Further data') {name : String}
    (hget : data.packages.get name = none) : data'.packages.get name = none :=
  eq_none_of_rel (hget ▸ h.packages name)

theorem PackageData.Further.realName (h : data.Further data') (name : String) :
    data'.realName name = data.realName name := by
  rw [PackageData.realName, h.provides, PackageData.realName]

theorem PackageData.Further.dependName (h : data.Further data') (name : String) :
    data'.dependName name = data.dependName name := by
  rw [PackageData.dependName, PackageData.dependName, h.realName]
  cases hget : data.packages.get name with
  | none => rw [h.get_none hget]
  | some vs =>
    obtain ⟨vs', hget', -⟩ := h.get hget
    rw [hget']

theorem PackageData.Further.info (h : data.Further data') (r : PackageRef) :
    Option.Rel PackageInfo.Further (data.info r) (data'.info r) := by
  unfold PackageData.info
  cases hget : data.packages.get r.name with
  | none =>
    rw [h.get_none hget]
    exact .none
  | some vs =>
    obtain ⟨vs', hget', hvs⟩ := h.get hget
    rw [hget']
    exact hvs.infos r.version

theorem PackageData.Further.info_some (h : data.Further data') {i : PackageInfo}
    (hi : data.info r = some i) : ∃ i', data'.info r = some i' ∧ i.Further i' :=
  exists_of_rel_some (hi ▸ h.info r)

theorem PackageData.Further.exists_info (h : data.Further data') {i' : PackageInfo}
    (hi' : data'.info r = some i') : ∃ i, data.info r = some i ∧ i.Further i' :=
  exists_of_rel_some' (hi' ▸ h.info r)

theorem PackageData.Further.loaded_eq_none (h : data.Further data') {i : PackageInfo}
    (hi : data'.info r = some i) (hnot : i.loaded = none) :
    ∃ i₀, data.info r = some i₀ ∧ i₀.loaded = none ∧ i₀.depends = i.depends := by
  obtain ⟨i₀, hi₀, hfurther⟩ := h.exists_info hi
  refine ⟨i₀, hi₀, ?_, ?_⟩
  · cases hl : i₀.loaded with
    | none => rfl
    | some l =>
      rw [hfurther.loaded l hl] at hnot
      cases hnot
  · rw [hfurther.fields]

theorem PackageData.Further.loaded_isSome (h : data.Further data')
    (hsome : ∀ i, data.info r = some i → i.loaded.isSome) (i : PackageInfo)
    (hi : data'.info r = some i) : i.loaded.isSome := by
  cases hl : i.loaded with
  | some l => rfl
  | none =>
    obtain ⟨i₀, hi₀, hnone, -⟩ := h.loaded_eq_none hi hl
    have hsome₀ := hsome i₀ hi₀
    rw [hnone] at hsome₀
    cases hsome₀

/-- Loading a version goes further. -/
theorem PackageData.Further.setLoaded (h : data.Further data') {i : PackageInfo}
    (hi : data.info r = some i) (hnot : i.loaded = none) (loaded : Loaded) :
    data.Further (data'.setLoaded r loaded) := by
  refine ⟨h.provides, fun name => ?_⟩
  change Option.Rel _ _ ((data'.packages.modify r.name _).get name)
  rw [HashedMap.get_modify]
  split_ifs with hname
  · cases hget : data.packages.get name with
    | none =>
      rw [h.get_none hget]
      exact .none
    | some vs =>
      obtain ⟨vs', hget', hvs⟩ := h.get hget
      rw [hget']
      refine .some ⟨hvs.current, hvs.latest, (HashedMap.keys_modify ..).trans hvs.keys, ?_⟩
      intro v
      change Option.Rel _ _ ((vs'.infos.modify r.version _).get v)
      rw [HashedMap.get_modify]
      split_ifs with hv
      · have hi₀ : vs.infos.get v = some i := by
          rw [HashedMap.get_congr _ hv, ← hi, PackageData.info,
            ← HashedMap.get_congr data.packages hname, hget]
          rfl
        obtain ⟨i', hi', hfurther⟩ := exists_of_rel_some (hi₀ ▸ hvs.infos v)
        rw [hi₀, hi']
        refine .some ⟨?_, fun l hl => ?_⟩
        · rw [hfurther.fields]
        · rw [hnot] at hl
          cases hl
      · exact hvs.infos v
  · exact h.packages name

end Further

/-! ## The lookup for a version that can be installed -/

/-- The lookup goes on from the name `name` to the real name `real`: no version of the
first can be installed. -/
def FallsTo (data : PackageData) (real name : String) : Prop :=
  data.realName name = some real ∧ ∀ vs, data.packages.get name = some vs →
    ∀ e ∈ vs.infos.entries, vs.satisfiable e.1 e.2 = false

section Lookups

variable {data data' : PackageData} {name : String}

omit [Kernel] in
theorem foldl_eq_none_iff {α β : Type*} {c : α → Prop} [DecidablePred c]
    {f : α → Option β → Option β} (hf : ∀ a o, (f a o).isSome) (l : List α) (o : Option β) :
    l.foldl (fun o a => if c a then f a o else o) o = none ↔ o = none ∧ ∀ a ∈ l, ¬ c a := by
  induction l generalizing o with
  | nil => simp
  | cons a l ih =>
    rw [foldl_cons, ih, forall_mem_cons]
    by_cases ha : c a
    · have hsome : f a o ≠ none := Option.isSome_iff_ne_none.1 (hf a o)
      simp [ha, hsome]
    · simp [ha]

theorem Versions.foundVersion_eq_none_iff (vs : Versions) :
    vs.foundVersion false ⟨"*", none⟩ true = none ↔
      ∀ e ∈ vs.infos.entries, vs.satisfiable e.1 e.2 = false := by
  have hbetter : ∀ test found, (vs.better false test found).isSome := by
    intro test found
    cases found with
    | none => rfl
    | some found =>
      rw [Versions.better]
      split_ifs <;> rfl
  have hvalid : ∀ version, DependDef.valid ⟨"*", none⟩ version = true := fun version => by
    rw [DependDef.valid, if_pos (by decide)]
  refine (foldl_eq_none_iff (f := fun e : String × PackageInfo => vs.better false e.1)
    (fun e => hbetter e.1) vs.infos.entries none).trans ?_
  simp [hvalid]

theorem satisfiable_of_fallsTo {real : String} (h : FallsTo data real name) (calls : ℕ) :
    internalGetPackageCurrentOrLatestMatching data (calls + 1) name false ⟨"*", none⟩ true =
      internalGetPackageCurrentOrLatestMatching data calls real false ⟨"*", none⟩ true := by
  have hfound : ((data.packages.get name).bind fun vs =>
      (vs.foundVersion false ⟨"*", none⟩ true).map (vs.found name)) = none := by
    cases hget : data.packages.get name with
    | none => rfl
    | some vs =>
      rw [Option.bind_some, (vs.foundVersion_eq_none_iff).2 (h.2 vs hget)]
      rfl
  rw [internalGetPackageCurrentOrLatestMatching, if_neg (by simp), hfound, h.1]

theorem satisfiable_of_not_fallsTo (h : ∀ real, ¬ FallsTo data real name) :
    (internalGetPackageCurrentOrLatestMatching data 1 name false ⟨"*", none⟩ true).isSome := by
  rw [internalGetPackageCurrentOrLatestMatching, if_neg (by simp)]
  cases hfound : (data.packages.get name).bind fun vs =>
      (vs.foundVersion false ⟨"*", none⟩ true).map (vs.found name) with
  | some found => rfl
  | none =>
    cases hreal : data.realName name with
    | none => rfl
    | some real =>
      refine absurd ⟨hreal, fun vs hget => ?_⟩ (h real)
      rw [hget, Option.bind_some, Option.map_eq_none_iff] at hfound
      exact vs.foundVersion_eq_none_iff.1 hfound

theorem satisfiable_returns_of_acc (h : Acc (FallsTo data) name) :
    ∃ calls,
      (internalGetPackageCurrentOrLatestMatching data calls name false ⟨"*", none⟩ true).isSome := by
  induction h with
  | intro name _ ih =>
    by_cases hfalls : ∃ real, FallsTo data real name
    · obtain ⟨real, hreal⟩ := hfalls
      obtain ⟨calls, hcalls⟩ := ih real hreal
      exact ⟨calls + 1, by rw [satisfiable_of_fallsTo hreal, hcalls]⟩
    · exact ⟨1, satisfiable_of_not_fallsTo fun real hreal => hfalls ⟨real, hreal⟩⟩

theorem acc_of_satisfiable_returns {calls : ℕ} (h : (internalGetPackageCurrentOrLatestMatching data
    calls name false ⟨"*", none⟩ true).isSome) : Acc (FallsTo data) name := by
  induction calls generalizing name with
  | zero => cases h
  | succ calls ih =>
    refine ⟨name, fun real hreal => ih ?_⟩
    rwa [satisfiable_of_fallsTo hreal] at h

/-- The lookups return exactly if no name falls back on itself. -/
theorem matchingAndSatisfiable_returns_iff (data : PackageData) :
    (∀ name m, ∃ calls,
      (getPackageCurrentOrLatestMatchingAndSatisfiable data calls name m).isSome) ↔
      WellFounded (FallsTo data) := by
  constructor
  · intro h
    refine ⟨fun name => ?_⟩
    obtain ⟨calls, hcalls⟩ := h name ⟨"*", none⟩
    exact acc_of_satisfiable_returns hcalls
  · intro h name m
    cases hfound : (data.packages.get name).bind fun vs =>
        (vs.foundVersion false m true).map (vs.found name) with
    | some found =>
      refine ⟨1, ?_⟩
      rw [getPackageCurrentOrLatestMatchingAndSatisfiable,
        internalGetPackageCurrentOrLatestMatching, if_neg (by simp), hfound]
      rfl
    | none =>
      cases hreal : data.realName name with
      | none =>
        refine ⟨1, ?_⟩
        rw [getPackageCurrentOrLatestMatchingAndSatisfiable,
          internalGetPackageCurrentOrLatestMatching, if_neg (by simp), hfound, hreal]
        rfl
      | some real =>
        obtain ⟨calls, hcalls⟩ := satisfiable_returns_of_acc (h.apply real)
        refine ⟨calls + 1, ?_⟩
        rw [getPackageCurrentOrLatestMatchingAndSatisfiable,
          internalGetPackageCurrentOrLatestMatching, if_neg (by simp), hfound, hreal]
        exact hcalls

theorem PackageData.Further.fallsTo (h : data.Further data') {real : String}
    (hfalls : FallsTo data' real name) : FallsTo data real name := by
  refine ⟨(h.realName name).symm.trans hfalls.1, fun vs hget e he => ?_⟩
  obtain ⟨vs', hget', hvs⟩ := h.get hget
  have hkey : e.1 ∈ vs'.infos.keys := hvs.keys ▸ mem_map_of_mem he
  obtain ⟨i', hi'⟩ := (vs'.infos.mem_keys e.1).1 hkey
  have hnot := hfalls.2 vs' hget' (e.1, i') hi'
  obtain ⟨i'', hi'', hfurther⟩ := exists_of_rel_some (vs.infos.get_of_mem he ▸ hvs.infos e.1)
  obtain rfl := Option.some.inj ((vs'.infos.get_of_mem hi').symm.trans hi'')
  rw [Versions.satisfiable, decide_eq_false_iff_not, hvs.current] at hnot
  rw [Versions.satisfiable, decide_eq_false_iff_not]
  rintro (hcurrent | hloaded)
  · exact hnot (Or.inl hcurrent)
  · obtain ⟨l, hl, hsat⟩ := Option.map_eq_some_iff.1 hloaded
    exact hnot (Or.inr (by rw [hfurther.loaded l hl, Option.map_some, hsat]))

theorem PackageData.Further.wellFounded_fallsTo (h : data.Further data')
    (hfalls : WellFounded (FallsTo data)) : WellFounded (FallsTo data') :=
  Subrelation.wf (fun hrel => h.fallsTo hrel) hfalls

end Lookups

/-! ## More calls -/

section Mono

variable {load load' : PackageData → String → Option PackageData} {calls calls' : ℕ}
  {p : LoadParams} {data data' : PackageData} {name : String}

theorem resolve_mono (hle : calls ≤ calls') {m : DependDef} {r : Lookup}
    (h : resolve data calls name m = some r) : resolve data calls' name m = some r := by
  obtain ⟨dep, hdep, hrest⟩ := Option.bind_eq_some_iff.1 h
  refine Option.bind_eq_some_iff.2 ⟨dep, matching_mono hle hdep, ?_⟩
  split_ifs at hrest ⊢ with hnone
  · exact matching_mono hle hrest
  · exact hrest

theorem loadDepend_mono (hload : ∀ data name data', load data name = some data' →
    load' data name = some data') (hle : calls ≤ calls') {size : Bool} {s s' : DependState}
    {d : String × DependDef} (h : loadDepend load calls size s d = some s') :
    loadDepend load' calls' size s d = some s' := by
  obtain ⟨data, hdata, hrest⟩ := Option.bind_eq_some_iff.1 h
  obtain ⟨dep, hdep, hend⟩ := Option.bind_eq_some_iff.1 hrest
  refine Option.bind_eq_some_iff.2 ⟨data, hload _ _ _ hdata, ?_⟩
  exact Option.bind_eq_some_iff.2 ⟨dep, resolve_mono hle hdep, hend⟩

theorem loadVersion_mono (hload : ∀ data name data', load data name = some data' →
    load' data name = some data') (hle : calls ≤ calls') {installed : Lookup} {version : String}
    (h : loadVersion load calls p name installed data version = some data') :
    loadVersion load' calls' p name installed data version = some data' := by
  unfold loadVersion at h ⊢
  cases hi : data.info ⟨name, version⟩ with
  | none => simpa [hi] using h
  | some i =>
    simp only [hi] at h ⊢
    split_ifs at h ⊢ with hloaded
    · exact h
    · obtain ⟨s, hs, hend⟩ := Option.bind_eq_some_iff.1 h
      refine Option.bind_eq_some_iff.2 ⟨s, List.foldlM_option_mono ?_ hs, hend⟩
      exact fun s d s' => loadDepend_mono hload hle

theorem load_mono (hle : calls ≤ calls')
    (h : loadRecursivePackageDataVariables p calls data name = some data') :
    loadRecursivePackageDataVariables p calls' data name = some data' := by
  induction calls generalizing calls' data name data' with
  | zero => cases h
  | succ calls ih =>
    obtain ⟨calls', rfl⟩ : ∃ n, calls' = n + 1 := ⟨calls' - 1, by omega⟩
    obtain ⟨installed, hinstalled, hrest⟩ := Option.bind_eq_some_iff.1 h
    refine Option.bind_eq_some_iff.2
      ⟨installed, currentOrLatest_mono (by omega) hinstalled, ?_⟩
    cases hget : data.packages.get name with
    | none => simpa [hget] using hrest
    | some vs =>
      simp only [hget] at hrest ⊢
      refine List.foldlM_option_mono (fun data version data' hv => ?_) hrest
      exact loadVersion_mono (fun _ _ _ => ih (by omega)) (by omega) hv

end Mono

/-! ## What the calls change -/

section Changes

variable {data₀ : PackageData} {load : PackageData → String → Option PackageData} {calls : ℕ}
  {p : LoadParams} {data data' : PackageData} {name : String}

theorem DependState.data_takeOver (s : DependState) (size : Bool) (name : String) (m : DependDef)
    (dep : Lookup) : (s.takeOver size name m dep).data = s.data := by
  rw [DependState.takeOver]
  cases dep.ret.bind s.data.info with
  | none => rfl
  | some i =>
    simp only
    split_ifs <;> rfl

theorem loadDepend_eq_some {size : Bool} {s s' : DependState} {d : String × DependDef}
    (h : loadDepend load calls size s d = some s') :
    ∃ dep, load s.data (s.data.dependName d.1) = some s'.data ∧
      resolve s'.data calls (s.data.dependName d.1) d.2 = some dep ∧
      s' = { s with data := s'.data }.takeOver size (s.data.dependName d.1) d.2 dep := by
  obtain ⟨data, hdata, hrest⟩ := Option.bind_eq_some_iff.1 h
  obtain ⟨dep, hdep, hend⟩ := Option.bind_eq_some_iff.1 hrest
  obtain rfl := Option.some.inj hend
  rw [DependState.data_takeOver]
  exact ⟨dep, hdata, hdep, rfl⟩

theorem loadVersion_eq_some {installed : Lookup} {version : String}
    (h : loadVersion load calls p name installed data version = some data') :
    (data' = data ∧ ∀ i, data.info ⟨name, version⟩ = some i → i.loaded.isSome) ∨
      ∃ i s, data.info ⟨name, version⟩ = some i ∧ i.loaded = none ∧
        (dependList i.depends).foldlM (loadDepend load calls p.size)
          (let isInstalled := installed.isCurrent && (installed.matchingVersion == some version)
          ⟨data, .empty, .empty, ownSize p isInstalled i, !onHold isInstalled installed.isCurrent i,
            []⟩) = some s ∧
        data' = s.data.setLoaded ⟨name, version⟩ (s.loaded p) := by
  unfold loadVersion at h
  cases hi : data.info ⟨name, version⟩ with
  | none =>
    rw [hi] at h
    exact .inl ⟨(Option.some.inj h).symm, fun i hi' => nomatch hi'⟩
  | some i =>
    simp only [hi] at h
    split_ifs at h with hloaded
    · refine .inl ⟨(Option.some.inj h).symm, fun i' hi' => ?_⟩
      obtain rfl := Option.some.inj hi'
      exact hloaded
    · obtain ⟨s, hs, hend⟩ := Option.bind_eq_some_iff.1 h
      exact .inr ⟨i, s, rfl, Option.not_isSome_iff_eq_none.1 hloaded, hs,
        (Option.some.inj hend).symm⟩

theorem loadVersion_further
    (hload : ∀ data name data', data₀.Further data → load data name = some data' →
      data₀.Further data') {installed : Lookup} {version : String} (hdata : data₀.Further data)
    (h : loadVersion load calls p name installed data version = some data') :
    data₀.Further data' := by
  rcases loadVersion_eq_some h with ⟨rfl, -⟩ | ⟨i, s, hi, hnot, hs, rfl⟩
  · exact hdata
  · obtain ⟨i₀, hi₀, hnot₀, -⟩ := hdata.loaded_eq_none hi hnot
    refine PackageData.Further.setLoaded ?_ hi₀ hnot₀ _
    refine List.foldlM_option_invariant (P := fun s => data₀.Further s.data) ?_ hdata hs
    intro s d _ s' hs hstep
    obtain ⟨dep, hcall, -⟩ := loadDepend_eq_some hstep
    exact hload _ _ _ hs hcall

theorem load_further (hdata : data₀.Further data)
    (h : loadRecursivePackageDataVariables p calls data name = some data') :
    data₀.Further data' := by
  induction calls generalizing data name data' with
  | zero => cases h
  | succ calls ih =>
    obtain ⟨installed, -, hrest⟩ := Option.bind_eq_some_iff.1 h
    cases hget : data.packages.get name with
    | none =>
      simp only [hget] at hrest
      obtain rfl := Option.some.inj hrest
      exact hdata
    | some vs =>
      simp only [hget] at hrest
      refine List.foldlM_option_invariant (fun data version _ data' hdata hv => ?_) hdata hrest
      exact loadVersion_further (fun _ _ _ => ih) hdata hv

end Changes

/-! ## The calls -/

/-- A call for the package `a` makes a call for the package `b`: a version of the first
that is not loaded has a dependency that is loaded under the name of the second. -/
def RequiredBy (data : PackageData) (b a : String) : Prop :=
  ∃ v i, data.info ⟨a, v⟩ = some i ∧ i.loaded = none ∧
    ∃ d ∈ dependList i.depends, data.dependName d.1 = b

section Calls

variable {data₀ data data' : PackageData} {p : LoadParams} {name : String}

theorem resolve_returns (hfalls : WellFounded (FallsTo data)) (name : String) (m : DependDef) :
    ∃ calls r, resolve data calls name m = some r := by
  obtain ⟨calls, hcalls⟩ := (matchingAndSatisfiable_returns_iff data).2 hfalls name m
  obtain ⟨dep, hdep⟩ := Option.isSome_iff_exists.1 hcalls
  obtain ⟨dep', hdep'⟩ := Option.isSome_iff_exists.1 (matching_returns data name m)
  refine ⟨max calls 4, if dep.ret.isNone then dep' else dep, ?_⟩
  refine Option.bind_eq_some_iff.2 ⟨dep, matching_mono (le_max_left calls 4) hdep, ?_⟩
  split_ifs
  · exact matching_mono (le_max_right calls 4) hdep'
  · rfl

def Returns (p : LoadParams) (data₀ : PackageData) (name : String) : Prop :=
  ∀ data, data₀.Further data →
    ∃ calls data', loadRecursivePackageDataVariables p calls data name = some data'

theorem loadDepend_returns (hfalls : WellFounded (FallsTo data₀)) {d : String × DependDef}
    (hload : Returns p data₀ (data₀.dependName d.1)) {s : DependState}
    (hs : data₀.Further s.data) :
    ∃ calls s', loadDepend (loadRecursivePackageDataVariables p calls) calls p.size s d = some s' ∧
      data₀.Further s'.data := by
  rw [← hs.dependName] at hload
  obtain ⟨calls, data', hcall⟩ := hload s.data hs
  have hdata' := load_further hs hcall
  obtain ⟨calls', dep, hdep⟩ :=
    resolve_returns (hdata'.wellFounded_fallsTo hfalls) (s.data.dependName d.1) d.2
  refine ⟨max calls calls', _, Option.bind_eq_some_iff.2 ⟨data', ?_,
    Option.bind_eq_some_iff.2 ⟨dep, ?_, rfl⟩⟩, ?_⟩
  · exact load_mono (le_max_left calls calls') hcall
  · exact resolve_mono (le_max_right calls calls') hdep
  · rw [DependState.data_takeOver]
    exact hdata'

/-- A version returns if all that it requires does. -/
theorem loadVersion_returns (hfalls : WellFounded (FallsTo data₀))
    (hload : ∀ b, RequiredBy data₀ b name → Returns p data₀ b) (installed : Lookup)
    (version : String) (hdata : data₀.Further data) :
    ∃ calls data', loadVersion (loadRecursivePackageDataVariables p calls) calls p name installed
      data version = some data' ∧ data₀.Further data' := by
  cases hi : data.info ⟨name, version⟩ with
  | none => exact ⟨0, data, by rw [loadVersion, hi], hdata⟩
  | some i =>
    cases hl : i.loaded with
    | some l =>
      refine ⟨0, data, ?_, hdata⟩
      rw [loadVersion, hi]
      simp [hl]
    | none =>
      obtain ⟨i₀, hi₀, hnot₀, hdepends⟩ := hdata.loaded_eq_none hi hl
      have hround : ∀ s : DependState, ∀ d ∈ dependList i.depends, data₀.Further s.data →
          ∃ calls s', loadDepend (loadRecursivePackageDataVariables p calls) calls p.size s d =
            some s' ∧ data₀.Further s'.data := fun s d hd =>
        loadDepend_returns hfalls (hload _ ⟨version, i₀, hi₀, hnot₀, d, hdepends ▸ hd, rfl⟩)
      obtain ⟨calls, s, hs, hfurther⟩ := List.exists_foldlM_option
        (f := fun calls => loadDepend (loadRecursivePackageDataVariables p calls) calls p.size)
        (fun m n hle s d s' => loadDepend_mono (fun _ _ _ => load_mono hle) hle) hround
        (s := ⟨data, .empty, .empty, _, _, []⟩) hdata
      refine ⟨calls, s.data.setLoaded ⟨name, version⟩ (s.loaded p), ?_,
        hfurther.setLoaded hi₀ hnot₀ _⟩
      rw [loadVersion, hi]
      simp only [hl, Option.isSome_none, Bool.false_eq_true, if_false]
      exact Option.bind_eq_some_iff.2 ⟨s, hs, rfl⟩

theorem load_returns (p : LoadParams) (hfalls : WellFounded (FallsTo data₀))
    (hacc : Acc (RequiredBy data₀) name) : Returns p data₀ name := by
  induction hacc with
  | intro name _ ih =>
    intro data hdata
    obtain ⟨installed, hinstalled⟩ :=
      Option.isSome_iff_exists.1 (currentOrLatest_returns data name false)
    cases hget : data.packages.get name with
    | none =>
      refine ⟨3, data, Option.bind_eq_some_iff.2 ⟨installed, hinstalled, ?_⟩⟩
      rw [hget]
    | some vs =>
      obtain ⟨calls, data', hloop, -⟩ := List.exists_foldlM_option (l := vs.infos.keys)
        (f := fun calls => loadVersion (loadRecursivePackageDataVariables p calls) calls p name
          installed)
        (fun m n hle data version data' =>
          loadVersion_mono (fun _ _ _ => load_mono hle) hle)
        (fun data version _ => loadVersion_returns hfalls ih installed version) hdata
      refine ⟨max calls 2 + 1, data', Option.bind_eq_some_iff.2 ⟨installed,
        currentOrLatest_mono (le_max_right calls 2) hinstalled, ?_⟩⟩
      rw [hget]
      refine List.foldlM_option_mono (fun data version data' => ?_) hloop
      exact loadVersion_mono (fun _ _ _ => load_mono (le_max_left calls 2)) (le_max_left calls 2)

/-! ## The other direction -/

def LoadedAcc (data₀ data : PackageData) : Prop :=
  ∀ r i₀ i, data₀.info r = some i₀ → data.info r = some i → i₀.loaded = none → i.loaded.isSome →
    ∀ d ∈ dependList i₀.depends, Acc (RequiredBy data₀) (data₀.dependName d.1)

theorem PackageData.info_modifyInfo (data : PackageData) (r r' : PackageRef)
    (f : PackageInfo → PackageInfo) :
    (data.modifyInfo r f).info r' =
      if sdbmStringHash r'.name = sdbmStringHash r.name ∧
        sdbmStringHash r'.version = sdbmStringHash r.version then (data.info r').map f
      else data.info r' := by
  rw [PackageData.info, PackageData.info]
  change ((data.packages.modify r.name _).get r'.name).bind _ = _
  rw [HashedMap.get_modify]
  by_cases hname : sdbmStringHash r'.name = sdbmStringHash r.name
  · rw [if_pos hname]
    cases data.packages.get r'.name with
    | none => simp
    | some vs =>
      simp only [Option.map_some, Option.bind_some, hname, true_and]
      exact HashedMap.get_modify ..
  · rw [if_neg hname]
    simp [hname]

theorem PackageData.info_setLoaded (data : PackageData) (r r' : PackageRef) (loaded : Loaded) :
    (data.setLoaded r loaded).info r' =
      if sdbmStringHash r'.name = sdbmStringHash r.name ∧
        sdbmStringHash r'.version = sdbmStringHash r.version then
        (data.info r').map fun i => { i with loaded := some loaded }
      else data.info r' :=
  data.info_modifyInfo r r' _

theorem PackageData.info_congr (data : PackageData) {r r' : PackageRef}
    (hname : sdbmStringHash r'.name = sdbmStringHash r.name)
    (hversion : sdbmStringHash r'.version = sdbmStringHash r.version) :
    data.info r' = data.info r := by
  rw [PackageData.info, PackageData.info, HashedMap.get_congr _ hname]
  cases data.packages.get r.name with
  | none => rfl
  | some vs => exact HashedMap.get_congr _ hversion

/-- One version is loaded after all that it requires. -/
theorem loadVersion_acc {load : PackageData → String → Option PackageData} {calls : ℕ}
    (hload : ∀ data name data', data₀.Further data ∧ LoadedAcc data₀ data →
      load data name = some data' →
        (data₀.Further data' ∧ LoadedAcc data₀ data') ∧ Acc (RequiredBy data₀) name)
    {installed : Lookup} {version : String} (hdata : data₀.Further data ∧ LoadedAcc data₀ data)
    (h : loadVersion load calls p name installed data version = some data') :
    (data₀.Further data' ∧ LoadedAcc data₀ data') ∧
      ∀ i₀, data₀.info ⟨name, version⟩ = some i₀ → i₀.loaded = none →
        ∀ d ∈ dependList i₀.depends, Acc (RequiredBy data₀) (data₀.dependName d.1) := by
  rcases loadVersion_eq_some h with ⟨rfl, hloaded⟩ | ⟨i, s, hi, hnot, hs, rfl⟩
  · refine ⟨hdata, fun i₀ hi₀ hnot₀ => ?_⟩
    obtain ⟨i, hi, -⟩ := hdata.1.info_some hi₀
    exact hdata.2 _ i₀ i hi₀ hi hnot₀ (hloaded i hi)
  · obtain ⟨i₀, hi₀, hnot₀, hdepends⟩ := hdata.1.loaded_eq_none hi hnot
    obtain ⟨⟨hfurther, hloaded⟩, hdeps⟩ := List.foldlM_option_forall
      (P := fun s : DependState => data₀.Further s.data ∧ LoadedAcc data₀ s.data)
      (Q := fun d => Acc (RequiredBy data₀) (data₀.dependName d.1))
      (fun s d s' hs hstep => by
        obtain ⟨dep, hcall, -⟩ := loadDepend_eq_some hstep
        rw [hs.1.dependName] at hcall
        exact hload _ _ _ hs hcall) hdata hs
    rw [← hdepends] at hdeps
    refine ⟨⟨hfurther.setLoaded hi₀ hnot₀ _, fun r i₀' i' hi₀' hi' hnot₀' hsome => ?_⟩,
      fun i₀' hi₀' _ => ?_⟩
    · rw [PackageData.info_setLoaded] at hi'
      split_ifs at hi' with hsame
      · rw [PackageData.info_congr data₀ hsame.1 hsame.2, hi₀] at hi₀'
        obtain rfl := Option.some.inj hi₀'
        exact hdeps
      · exact hloaded r i₀' i' hi₀' hi' hnot₀' hsome
    · obtain rfl := Option.some.inj (hi₀.symm.trans hi₀')
      exact hdeps

/-- A package that has been loaded requires no circle. -/
theorem acc_of_load {calls : ℕ} (hdata : data₀.Further data ∧ LoadedAcc data₀ data)
    (h : loadRecursivePackageDataVariables p calls data name = some data') :
    (data₀.Further data' ∧ LoadedAcc data₀ data') ∧ Acc (RequiredBy data₀) name := by
  induction calls generalizing data name data' with
  | zero => cases h
  | succ calls ih =>
    obtain ⟨installed, -, hrest⟩ := Option.bind_eq_some_iff.1 h
    cases hget₀ : data₀.packages.get name with
    | none =>
      rw [hdata.1.get_none hget₀] at hrest
      obtain rfl := Option.some.inj hrest
      refine ⟨hdata, name, ?_⟩
      rintro b ⟨v, i, hi, -⟩
      rw [PackageData.info, hget₀] at hi
      cases hi
    | some vs₀ =>
      obtain ⟨vs, hget, hvs⟩ := hdata.1.get hget₀
      simp only [hget] at hrest
      obtain ⟨hend, hversions⟩ := List.foldlM_option_forall
        (P := fun data => data₀.Further data ∧ LoadedAcc data₀ data)
        (Q := fun version => ∀ i₀, data₀.info ⟨name, version⟩ = some i₀ → i₀.loaded = none →
          ∀ d ∈ dependList i₀.depends, Acc (RequiredBy data₀) (data₀.dependName d.1))
        (fun data version data' hdata hv => loadVersion_acc (fun _ _ _ => ih) hdata hv) hdata hrest
      refine ⟨hend, name, ?_⟩
      rintro b ⟨v, i, hi, hnot, d, hd, rfl⟩
      have hv : vs₀.infos.get v = some i := by
        rw [PackageData.info, hget₀] at hi
        exact hi
      obtain ⟨v', hhash, hmem⟩ := vs₀.infos.exists_mem_of_get hv
      have hkey : v' ∈ vs.infos.keys := hvs.keys ▸ mem_map_of_mem hmem
      refine hversions v' hkey i ((data₀.info_congr ?_ ?_).trans hi) hnot d hd
      · rfl
      · exact hhash

theorem LoadedAcc.refl (data : PackageData) : LoadedAcc data data := by
  intro r i₀ i hi₀ hi hnot hsome
  obtain rfl := Option.some.inj (hi₀.symm.trans hi)
  rw [hnot] at hsome
  cases hsome

theorem acyclic_of_loads (p : LoadParams) (calls : ℕ) (h : ∀ name ∈ data₀.packages.keys,
    (loadRecursivePackageDataVariables p calls data₀ name).isSome) :
    Acyclic (RequiredBy data₀) := by
  intro a hcycle
  refine not_acc_of_transGen hcycle ⟨a, fun b hb => ?_⟩
  obtain ⟨v, i, hi, hnot, d, hd, rfl⟩ := hb
  obtain ⟨vs, hget, -⟩ := Option.bind_eq_some_iff.1 hi
  obtain ⟨name, hname, hentry⟩ := data₀.packages.exists_mem_of_get hget
  obtain ⟨data', hdata'⟩ := Option.isSome_iff_exists.1 (h name (mem_map_of_mem hentry))
  have hinfo : data₀.info ⟨name, v⟩ = data₀.info ⟨a, v⟩ := data₀.info_congr hname rfl
  have hrequired : RequiredBy data₀ (data₀.dependName d.1) name :=
    ⟨v, i, hinfo.trans hi, hnot, d, hd, rfl⟩
  exact (acc_of_load ⟨.refl data₀, .refl data₀⟩ hdata').2.inv hrequired

/-! ## Finitely many names -/

theorem finite_requiredBy (data : PackageData) :
    ∃ s : Set String, s.Finite ∧ ∀ a b, RequiredBy data b a → b ∈ s := by
  refine ⟨_, Set.Finite.subset (finite_toSet (data.packages.entries.flatMap fun e =>
    e.2.infos.entries.flatMap fun f => (dependList f.2.depends).map fun d =>
      data.dependName d.1)) subset_rfl, ?_⟩
  rintro a b ⟨v, i, hi, -, d, hd, rfl⟩
  obtain ⟨vs, hvs, hi⟩ := Option.bind_eq_some_iff.1 hi
  obtain ⟨a', -, ha'⟩ := data.packages.exists_mem_of_get hvs
  obtain ⟨v', -, hv'⟩ := vs.infos.exists_mem_of_get hi
  exact List.mem_flatMap.2 ⟨_, ha', List.mem_flatMap.2 ⟨_, hv', List.mem_map.2 ⟨d, hd, rfl⟩⟩⟩

theorem finite_fallsTo (data : PackageData) :
    ∃ s : Set String, s.Finite ∧ ∀ a b, FallsTo data b a → b ∈ s := by
  refine ⟨_, Set.Finite.subset (finite_toSet (data.provides.entries.filterMap fun e =>
    e.2.realName)) subset_rfl, ?_⟩
  rintro a b ⟨hreal, -⟩
  obtain ⟨provided, hprovided, hname⟩ := Option.bind_eq_some_iff.1 hreal
  obtain ⟨a', -, ha'⟩ := data.provides.exists_mem_of_get hprovided
  exact List.mem_filterMap.2 ⟨_, ha', hname⟩

/-- The calls for all packages end, and the lookups return, exactly when no package
requires itself and no provided name leads back to itself. -/
theorem load_returns_iff (data : PackageData) :
    ((∀ p name, ∃ calls, (loadRecursivePackageDataVariables p calls data name).isSome) ∧
      (∀ name m, ∃ calls, (getPackageCurrentOrLatestMatching data calls name m).isSome) ∧
      ∀ name m, ∃ calls,
        (getPackageCurrentOrLatestMatchingAndSatisfiable data calls name m).isSome) ↔
      Acyclic (RequiredBy data) ∧ Acyclic (FallsTo data) := by
  obtain ⟨s, hs, hrequired⟩ := finite_requiredBy data
  obtain ⟨t, ht, hfalls⟩ := finite_fallsTo data
  rw [matchingAndSatisfiable_returns_iff, ← wellFounded_iff_acyclic hs hrequired,
    ← wellFounded_iff_acyclic ht hfalls]
  constructor
  · rintro ⟨hload, -, hwf⟩
    refine ⟨⟨fun name => ?_⟩, hwf⟩
    obtain ⟨calls, hcalls⟩ := hload ⟨false, false, 0⟩ name
    obtain ⟨data', hdata'⟩ := Option.isSome_iff_exists.1 hcalls
    exact (acc_of_load ⟨.refl data, .refl data⟩ hdata').2
  · rintro ⟨hwf, hwf'⟩
    refine ⟨fun p name => ?_, fun name m => ⟨4, matching_returns data name m⟩, hwf'⟩
    obtain ⟨calls, data', hdata'⟩ := load_returns p hwf' (hwf.apply name) data (.refl data)
    exact ⟨calls, by rw [hdata']; rfl⟩

end Calls

/-! ## Two packages that require each other -/

def oneVersion (depends : Option String) : Versions where
  infos := HashedMap.empty.set "1.0" { depends := depends }
  current := none
  latest := "1.0"
  current_mem := fun _ h => nomatch h
  latest_mem := HashedMap.mem_keys_set_self ..

def eachOther : PackageData where
  packages := (HashedMap.empty.set "ppp" (oneVersion (some "pppd"))).set "pppd"
    (oneVersion (some "ppp"))
  provides := .empty
  real_mem := fun _ _ _ h => nomatch h

end Packages

section EachOther

local instance packageKernel : Kernel := referenceKernel 64

/-- The calls for a package that requires itself over another one do not end. -/
theorem eachOther_never_returns :
    ¬ ∃ calls, (loadRecursivePackageDataVariables ⟨true, false, 0⟩ calls eachOther "ppp").isSome := by
  rintro ⟨calls, hcalls⟩
  obtain ⟨data', hdata'⟩ := Option.isSome_iff_exists.1 hcalls
  obtain ⟨-, hacc⟩ := acc_of_load ⟨.refl eachOther, .refl eachOther⟩ hdata'
  have hppp : RequiredBy eachOther "pppd" "ppp" :=
    ⟨"1.0", { depends := some "pppd" }, rfl, rfl, ("pppd", ⟨"*", none⟩), by decide, rfl⟩
  have hpppd : RequiredBy eachOther "ppp" "pppd" :=
    ⟨"1.0", { depends := some "ppp" }, rfl, rfl, ("ppp", ⟨"*", none⟩), by decide, rfl⟩
  have hself : TransGen (RequiredBy eachOther) "ppp" "ppp" := .tail (.single hpppd) hppp
  exact not_acc_of_transGen hself hacc

end EachOther

end Gpkg

end Gargoyle
