import Gargoyle.Gpkg.RealCost
import Gargoyle.Gpkg.VersionChoice

/-!
# Which versions can be installed

The mark `Depends-Satisfiable` is kept by a version as long as each of its dependencies is
resolved to a version that is installed or has the mark. A lookup finds such a version where one
is offered: by the package itself, or else by its provider, of which any version will do.

The versions of the package have been loaded when the lookup is made, and their marks are
the final ones. Those of the provider need not be.
-/

namespace Gargoyle

namespace Gpkg

open Bandwidth Relation

section Satisfiable

variable [Kernel]

def PackageData.Installable (data : PackageData) (r : PackageRef) : Prop :=
  ∃ vs i, data.packages.get r.name = some vs ∧ (r.version, i) ∈ vs.infos.entries ∧
    vs.satisfiable r.version i = true

inductive Offered (data : PackageData) : String → DependDef → Prop
  | package {name v : String} {m : DependDef} {vs : Versions} :
      data.packages.get name = some vs → vs.Meets m true v → Offered data name m
  | provider {name real : String} {m : DependDef} :
      data.realName name = some real → Offered data real ⟨"*", none⟩ → Offered data name m

def PackageData.Met (data atLookup : PackageData) (name : String) (m : DependDef) : Prop :=
  (∃ vs v, data.packages.get name = some vs ∧ vs.Meets m true v) ∨
    ∃ real, data.realName name = some real ∧ Offered atLookup real ⟨"*", none⟩

/-! ## The lookups -/

section Lookups

variable {data : PackageData} {name : String} {m : DependDef} {mustBeSatisfiable : Bool}
  {calls : ℕ} {dep : Lookup} {r : PackageRef}

theorem Versions.meets_of_foundVersion {vs : Versions} {v : String}
    (h : vs.foundVersion false m mustBeSatisfiable = some v) : vs.Meets m mustBeSatisfiable v := by
  change vs.foundVersionIn .byHash false m mustBeSatisfiable = some v at h
  by_cases hmeets : ∃ w, vs.Meets m mustBeSatisfiable w
  · obtain ⟨w, hw, hwmeets, -⟩ := foundVersionIn_spec (o := .byHash) hmeets
    obtain rfl := Option.some.inj (h.symm.trans hw)
    exact hwmeets
  · rw [foundVersionIn_of_none fun w hw => hmeets ⟨w, hw⟩] at h
    cases h

theorem Versions.foundVersion_isSome {vs : Versions} {v : String}
    (h : vs.Meets m mustBeSatisfiable v) :
    ∃ w, vs.foundVersion false m mustBeSatisfiable = some w := by
  obtain ⟨w, hw, -⟩ := foundVersionIn_spec (o := .byHash) ⟨v, h⟩
  exact ⟨w, hw⟩

inductive LookupEnds (data : PackageData) (mustBeSatisfiable : Bool) :
    String → DependDef → Lookup → Prop
  | found {name v : String} {m : DependDef} {vs : Versions} :
      data.packages.get name = some vs → vs.Meets m mustBeSatisfiable v →
      LookupEnds data mustBeSatisfiable name m (vs.found name v)
  | provider {name real : String} {m : DependDef} {dep : Lookup} :
      (∀ vs, data.packages.get name = some vs → ∀ v, ¬vs.Meets m mustBeSatisfiable v) →
      data.realName name = some real → LookupEnds data mustBeSatisfiable real ⟨"*", none⟩ dep →
      LookupEnds data mustBeSatisfiable name m dep
  | nothing {name : String} {m : DependDef} :
      (∀ vs, data.packages.get name = some vs → ∀ v, ¬vs.Meets m mustBeSatisfiable v) →
      data.realName name = none → LookupEnds data mustBeSatisfiable name m .nothing

theorem lookupEnds_of_currentOrLatest (hall : m.allVersionsValid = true)
    (h : internalGetPackageCurrentOrLatest data calls name false = some dep) :
    LookupEnds data false name m dep := by
  induction calls generalizing name m with
  | zero => cases h
  | succ calls ih =>
    rw [internalGetPackageCurrentOrLatest] at h
    cases hget : data.packages.get name with
    | some vs =>
      obtain ⟨v, hv, heq⟩ := exists_currentOrLatest vs name
      simp only [hget, heq, Option.some.injEq] at h
      obtain ⟨i, hi⟩ := (vs.infos.mem_keys v).1 hv
      have hvalid : m.valid v = true := by rw [DependDef.valid, if_pos hall]
      exact h ▸ .found hget ⟨i, hi, hvalid, fun h => absurd h Bool.false_ne_true⟩
    | none =>
      have hnone : ∀ vs, data.packages.get name = some vs → ∀ v, ¬vs.Meets m false v := by
        intro vs hvs
        rw [hget] at hvs
        cases hvs
      cases hreal : data.realName name with
      | none =>
        simp only [hget, hreal, Option.some.injEq] at h
        exact h ▸ .nothing hnone hreal
      | some real =>
        simp only [hget, hreal] at h
        exact .provider hnone hreal (ih (by decide) h)

/-- A lookup by a constraint ends at a version or at the name itself. -/
theorem lookupEnds_of_matching
    (h : internalGetPackageCurrentOrLatestMatching data calls name false m mustBeSatisfiable =
      some dep) : LookupEnds data mustBeSatisfiable name m dep := by
  induction calls generalizing name m with
  | zero => cases h
  | succ calls ih =>
    rw [internalGetPackageCurrentOrLatestMatching] at h
    split_ifs at h with hall
    · rw [hall.2]
      exact lookupEnds_of_currentOrLatest hall.1 h
    · cases hfound : (data.packages.get name).bind fun vs =>
          (vs.foundVersion false m mustBeSatisfiable).map (vs.found name) with
      | some found =>
        simp only [hfound, Option.some.injEq] at h
        obtain ⟨vs, hget, hmap⟩ := Option.bind_eq_some_iff.1 hfound
        obtain ⟨v, hv, rfl⟩ := Option.map_eq_some_iff.1 hmap
        exact h ▸ .found hget (Versions.meets_of_foundVersion hv)
      | none =>
        have hnone : ∀ vs, data.packages.get name = some vs →
            ∀ v, ¬vs.Meets m mustBeSatisfiable v := by
          intro vs hget v hv
          obtain ⟨w, hw⟩ := Versions.foundVersion_isSome hv
          rw [hget, Option.bind_some, hw] at hfound
          cases hfound
        cases hreal : data.realName name with
        | none =>
          simp only [hfound, hreal, Option.some.injEq] at h
          exact h ▸ .nothing hnone hreal
        | some real =>
          simp only [hfound, hreal] at h
          exact .provider hnone hreal (ih h)

theorem LookupEnds.offered (h : LookupEnds data mustBeSatisfiable name m dep)
    (hr : dep.ret = some r) (hinstallable : data.Installable r) : Offered data name m := by
  induction h with
  | @found name v m vs hget hmeets =>
    obtain rfl := Option.some.inj hr
    obtain ⟨vs', i, hget', hi, hsat⟩ := hinstallable
    obtain rfl := Option.some.inj (hget.symm.trans hget')
    obtain ⟨-, -, hvalid, -⟩ := hmeets
    exact .package hget ⟨i, hi, hvalid, fun _ => hsat⟩
  | provider _ hreal _ ih => exact .provider hreal (ih hr)
  | nothing => cases hr

theorem LookupEnds.installable (h : LookupEnds data true name m dep) (hr : dep.ret = some r) :
    data.Installable r := by
  induction h with
  | found hget hmeets =>
    obtain rfl := Option.some.inj hr
    obtain ⟨i, hi, -, hsat⟩ := hmeets
    exact ⟨_, i, hget, hi, hsat rfl⟩
  | provider _ _ _ ih => exact ih hr
  | nothing => cases hr

theorem LookupEnds.ret_isSome (h : LookupEnds data true name m dep)
    (hoffered : Offered data name m) : dep.ret.isSome := by
  induction h with
  | found => rfl
  | provider hnone hreal _ ih =>
    cases hoffered with
    | package hget hmeets => exact absurd hmeets (hnone _ hget _)
    | provider hreal' hoffered =>
      obtain rfl := Option.some.inj (hreal.symm.trans hreal')
      exact ih hoffered
  | nothing hnone hreal =>
    cases hoffered with
    | package hget hmeets => exact absurd hmeets (hnone _ hget _)
    | provider hreal' _ =>
      rw [hreal] at hreal'
      cases hreal'

theorem LookupEnds.isCurrent_of_none (h : LookupEnds data mustBeSatisfiable name m dep)
    (hr : dep.ret = none) : dep.isCurrent = false := by
  induction h with
  | found => cases hr
  | provider _ _ _ ih => exact ih hr
  | nothing => rfl

theorem PackageData.installable_iff (hproper : data.Proper r) : data.Installable r ↔
    data.isInstalled r = true ∨
      ∃ i l, data.info r = some i ∧ i.loaded = some l ∧ l.dependsSatisfiable = true := by
  obtain ⟨vs, hget, hmem⟩ := hproper
  obtain ⟨i, hi⟩ := (vs.infos.mem_keys _).1 hmem
  have hinfo : data.info r = some i := by
    rw [PackageData.info, hget, Option.bind_some, vs.infos.get_of_mem hi]
  have hsat : vs.satisfiable r.version i = true ↔ data.isInstalled r = true ∨
      ∃ l, i.loaded = some l ∧ l.dependsSatisfiable = true := by
    simp [Versions.satisfiable, PackageData.isInstalled, hget, Option.map_eq_some_iff]
  constructor
  · rintro ⟨vs', j, hget', hj, hjsat⟩
    obtain rfl := Option.some.inj (hget.symm.trans hget')
    have heq : some j = some i := (vs.infos.get_of_mem hj).symm.trans (vs.infos.get_of_mem hi)
    obtain rfl := Option.some.inj heq
    refine (hsat.1 hjsat).imp_right ?_
    rintro ⟨l, hl, hlsat⟩
    exact ⟨_, l, hinfo, hl, hlsat⟩
  · intro h
    refine ⟨vs, i, hget, hi, hsat.2 (h.imp_right ?_)⟩
    rintro ⟨j, l, hj, hl, hlsat⟩
    obtain rfl := Option.some.inj (hinfo.symm.trans hj)
    exact ⟨l, hl, hlsat⟩

theorem resolve_installable_iff (h : resolve data calls name m = some dep) :
    (∃ r, dep.ret = some r ∧ data.Installable r) ↔ Offered data name m := by
  obtain ⟨first, hfirst, hrest⟩ := Option.bind_eq_some_iff.1 h
  constructor
  · rintro ⟨r, hr, hinstallable⟩
    split_ifs at hrest
    · exact (lookupEnds_of_matching hrest).offered hr hinstallable
    · obtain rfl := Option.some.inj hrest
      exact (lookupEnds_of_matching hfirst).offered hr hinstallable
  · intro hoffered
    have hsome := (lookupEnds_of_matching hfirst).ret_isSome hoffered
    obtain ⟨r, hr⟩ := Option.isSome_iff_exists.1 hsome
    rw [hr] at hrest
    obtain rfl := Option.some.inj hrest
    exact ⟨r, hr, (lookupEnds_of_matching hfirst).installable hr⟩

theorem resolve_isCurrent_of_none (h : resolve data calls name m = some dep)
    (hr : dep.ret = none) : dep.isCurrent = false := by
  obtain ⟨first, hfirst, hrest⟩ := Option.bind_eq_some_iff.1 h
  split_ifs at hrest
  · exact (lookupEnds_of_matching hrest).isCurrent_of_none hr
  · obtain rfl := Option.some.inj hrest
    exact (lookupEnds_of_matching hfirst).isCurrent_of_none hr

end Lookups

/-! ## The mark -/

section Mark

variable {p : LoadParams} {calls : ℕ} {s s' : DependState} {steps : List DependStep} {name : String}
  {m : DependDef} {dep : Lookup} {data data' atLookup : PackageData}

theorem takeOver_satisfiable_iff (h : resolve s.data calls name m = some dep) (size : Bool) :
    (s.takeOver size name m dep).satisfiable = true ↔
      s.satisfiable = true ∧ Offered s.data name m := by
  rw [← resolve_installable_iff h, DependState.takeOver]
  cases hret : dep.ret with
  | none => simp [resolve_isCurrent_of_none h hret]
  | some r =>
    obtain ⟨hproper, hcurrent⟩ := resolve_proper h r hret
    obtain ⟨vs, hget, hmem⟩ := id hproper
    obtain ⟨i, hi⟩ := (vs.infos.mem_keys _).1 hmem
    have hinfo : s.data.info r = some i := by
      rw [PackageData.info, hget, Option.bind_some, vs.infos.get_of_mem hi]
    simp only [Option.bind_some, hinfo, Option.some.injEq, exists_eq_left',
      PackageData.installable_iff hproper, hcurrent]
    by_cases hinstalled : s.data.isInstalled r = true
    · simp [hinstalled]
    · simp [hinstalled, Option.map_eq_some_iff]

theorem MakesRounds.satisfiable_iff (h : MakesRounds p calls s steps s')
    (hdata : data.Further s.data) : s'.satisfiable = true ↔ s.satisfiable = true ∧
      ∀ step ∈ steps, Offered step.data (data.dependName step.entry.1) step.entry.2 := by
  induction h with
  | nil => simp
  | @cons s s' step steps hcall hresolve _ ih =>
    have hstep : data.Further step.data := load_further hdata hcall
    rw [ih (by rwa [DependState.data_takeOver]),
      takeOver_satisfiable_iff (s := { s with data := step.data }) hresolve, List.forall_mem_cons,
      hdata.dependName, and_assoc]

theorem Versions.Further.meets_iff {vs vs' : Versions} (h : vs.Further vs')
    (hloaded : ∀ v i, (v, i) ∈ vs.infos.entries → i.loaded.isSome) {v : String} :
    vs'.Meets m true v ↔ vs.Meets m true v := by
  have hsat : ∀ i i', (v, i) ∈ vs.infos.entries → (v, i') ∈ vs'.infos.entries →
      vs'.satisfiable v i' = vs.satisfiable v i := by
    intro i i' hi hi'
    obtain ⟨i'', hi'', hfurther⟩ := exists_of_rel_some (vs.infos.get_of_mem hi ▸ h.infos v)
    obtain rfl := Option.some.inj ((vs'.infos.get_of_mem hi').symm.trans hi'')
    obtain ⟨l, hl⟩ := Option.isSome_iff_exists.1 (hloaded v i hi)
    rw [Versions.satisfiable, Versions.satisfiable, h.current, hl, hfurther.loaded l hl]
  constructor
  · rintro ⟨i', hi', hvalid, hmust⟩
    obtain ⟨i, hi⟩ := (vs.infos.mem_keys v).1 (h.keys ▸ List.mem_map_of_mem hi')
    exact ⟨i, hi, hvalid, fun _ => hsat i i' hi hi' ▸ hmust rfl⟩
  · rintro ⟨i, hi, hvalid, hmust⟩
    obtain ⟨i', hi'⟩ := (vs'.infos.mem_keys v).1 (h.keys.symm ▸ List.mem_map_of_mem hi)
    exact ⟨i', hi', hvalid, fun _ => (hsat i i' hi hi').symm ▸ hmust rfl⟩

theorem offered_iff_met (h : atLookup.Further data')
    (hloaded : ∀ vs, atLookup.packages.get name = some vs →
      ∀ v i, (v, i) ∈ vs.infos.entries → i.loaded.isSome) :
    Offered atLookup name m ↔ data'.Met atLookup name m := by
  constructor
  · intro hoffered
    cases hoffered with
    | @package _ v _ vs hget hmeets =>
      obtain ⟨vs', hget', hvs⟩ := h.get hget
      exact .inl ⟨vs', v, hget', (hvs.meets_iff (hloaded vs hget)).2 hmeets⟩
    | @provider _ real _ hreal hoffered =>
      exact .inr ⟨real, (h.realName name).trans hreal, hoffered⟩
  · rintro (⟨vs', v, hget', hmeets⟩ | ⟨real, hreal, hoffered⟩)
    · obtain ⟨vs, hget, hvs⟩ := exists_of_rel_some' (hget' ▸ h.packages name)
      exact .package hget ((hvs.meets_iff (hloaded vs hget)).1 hmeets)
    · exact .provider ((h.realName name).symm.trans hreal) hoffered

end Mark

/-- For every universe without cycles in which no package is held, and every order of the calls:
the versions of the packages are loaded, and a version that is loaded is marked if and only if each
of its dependencies is met, by a version of the package that meets the constraint and is
installed or marked, or else by any version of a provider that is installed or had been
marked at the time of the lookup. -/
theorem dependsSatisfiable_iff (p : LoadParams) {data : PackageData} (hfresh : data.Fresh)
    (hacyclic : Acyclic (RequiredBy data)) (hfalls : Acyclic (FallsTo data))
    (hheld : ∀ r i, data.info r = some i → i.NotHeld) (names : List String) :
    ∃ calls data', names.foldlM (loadRecursivePackageDataVariables p calls) data = some data' ∧
      (∀ r, data.Proper r → r.name ∈ names →
        ∃ i l, data'.info r = some i ∧ i.loaded = some l) ∧
      ∃ t, Explains t p data data' ∧ ∀ r i l, data'.info r = some i → i.loaded = some l →
        (l.dependsSatisfiable = true ↔ ∀ step ∈ t.steps r,
          data'.Met step.data (data.dependName step.entry.1) step.entry.2) := by
  obtain ⟨calls, data', hcalls, hfurther, t, ht⟩ := exists_explained p hfresh hacyclic hfalls names
  refine ⟨calls, data', hcalls, fun r hr hname => names_loaded hcalls hr hname, t, ht,
    fun r i l hi hl => ?_⟩
  obtain ⟨calls', begun, ended, hby⟩ := ht.loadedBy r i l hi hl
  obtain ⟨i₀, hi₀, hifurther⟩ := hfurther.exists_info hi
  have hnot : i.NotHeld := by
    rw [hifurther.fields]
    exact hheld r i₀ hi₀
  have hmark : l.dependsSatisfiable = ended.satisfiable := by rw [hby.loaded, DependState.loaded]
  rw [hmark, hby.rounds.satisfiable_iff hby.further, and_iff_right (hby.satisfiable hnot)]
  refine forall₂_congr fun step hstep => offered_iff_met
    ((hby.rounds.further.2 step hstep).2.trans hby.further') fun vs hget v j hj => ?_
  obtain ⟨⟨before, hbefore, hcall⟩, -⟩ := hby.rounds.resolved hby.further step hstep
  have hload : before.Further step.data := load_further (.refl before) hcall
  have hproper : step.data.Proper ⟨data.dependName step.entry.1, v⟩ :=
    ⟨vs, hget, List.mem_map_of_mem hj⟩
  refine load_isSome hcall ((hload.proper _).1 hproper) ?_
  rw [PackageData.info, hget, Option.bind_some, vs.infos.get_of_mem hj]

/-! ## A dependency on another version than there is -/

def secondVersionNeeded : PackageData where
  packages := ((HashedMap.empty.set "webmon"
    (.single "1.0" { depends := some "iptables (>= 2.0)" })).set
      "iptables" (.single "1.0" {})).set
        "iptables-nft" (.single "1.0" { provides := some "iptables" })
  provides := HashedMap.empty.set "iptables" ⟨none, some "iptables-nft"⟩
  real_mem := by
    intro name p real hp hreal
    rw [HashedMap.get_set] at hp
    split_ifs at hp
    · obtain rfl := Option.some.inj hp
      obtain rfl := Option.some.inj hreal
      rw [HashedMap.get_set_self]
      rfl
    · cases hp

theorem PackageData.notHeld_of_entries {data : PackageData} (h : ∀ e ∈ data.packages.entries,
    ∀ f ∈ e.2.infos.entries, f.2.status.isNone) : ∀ r i, data.info r = some i → i.NotHeld := by
  intro r i hi status hstatus
  obtain ⟨vs, hvs, hi⟩ := Option.bind_eq_some_iff.1 hi
  obtain ⟨name, -, hentry⟩ := data.packages.exists_mem_of_get hvs
  obtain ⟨version, -, hversion⟩ := vs.infos.exists_mem_of_get hi
  have hnone := h _ hentry _ hversion
  rw [hstatus] at hnone
  cases hnone

end Satisfiable

section SecondVersion

local instance secondVersionKernel : Kernel := referenceKernel 64

theorem secondVersionNeeded_fresh : secondVersionNeeded.Fresh := by
  refine PackageData.fresh_of_entries ?_
  decide

theorem secondVersionNeeded_notHeld : ∀ r i, secondVersionNeeded.info r = some i → i.NotHeld := by
  refine PackageData.notHeld_of_entries ?_
  decide

theorem secondVersionNeeded_acyclic : Acyclic (RequiredBy secondVersionNeeded) := by
  refine acyclic_of_loads ⟨false, false, 0⟩ 20 ?_
  decide

theorem secondVersionNeeded_acyclic_fallsTo : Acyclic (FallsTo secondVersionNeeded) := by
  intro name hcycle
  obtain ⟨other, -, hfirst⟩ := TransGen.tail'_iff.1 hcycle
  obtain ⟨last, hlast, -⟩ := TransGen.head'_iff.1 hcycle
  have hname : name = "iptables-nft" := by
    obtain ⟨p, hp, hreal⟩ := Option.bind_eq_some_iff.1 hlast.1
    simp only [secondVersionNeeded, HashedMap.get_set, HashedMap.get_empty] at hp
    split_ifs at hp
    obtain rfl := Option.some.inj hp
    exact (Option.some.inj hreal).symm
  have hnone : secondVersionNeeded.realName "iptables-nft" = none := by decide
  rw [hname, FallsTo, hnone] at hfirst
  cases hfirst.1

/-- A version is marked for a provider that was marked before. -/
theorem marked_for_provider :
    ∃ calls data' t i l, ["iptables-nft", "webmon"].foldlM
        (loadRecursivePackageDataVariables ⟨false, false, 0⟩ calls) secondVersionNeeded =
          some data' ∧
      Explains t ⟨false, false, 0⟩ secondVersionNeeded data' ∧
      data'.info ⟨"webmon", "1.0"⟩ = some i ∧ i.loaded = some l ∧ l.dependsSatisfiable = true ∧
      ∀ step ∈ t.steps ⟨"webmon", "1.0"⟩,
        data'.Met step.data (secondVersionNeeded.dependName step.entry.1) step.entry.2 := by
  obtain ⟨calls, data', hcalls, hloaded, t, ht, hmark⟩ := dependsSatisfiable_iff ⟨false, false, 0⟩
    secondVersionNeeded_fresh secondVersionNeeded_acyclic secondVersionNeeded_acyclic_fallsTo
    secondVersionNeeded_notHeld ["iptables-nft", "webmon"]
  obtain ⟨i, l, hi, hl⟩ := hloaded ⟨"webmon", "1.0"⟩
    (PackageData.proper_of_mem_refs (by decide)) (by simp)
  have hrun : (["iptables-nft", "webmon"].foldlM (loadRecursivePackageDataVariables
      ⟨false, false, 0⟩ 20) secondVersionNeeded).bind (fun data' =>
        (data'.info ⟨"webmon", "1.0"⟩).bind fun i => i.loaded.map Loaded.dependsSatisfiable) =
          some true := by decide
  obtain ⟨data₂, hdata₂, hrest⟩ := Option.bind_eq_some_iff.1 hrun
  obtain rfl := names_unique hcalls hdata₂
  rw [hi, Option.bind_some, hl, Option.map_some, Option.some.injEq] at hrest
  exact ⟨calls, _, t, i, l, hcalls, ht, hi, hl, hrest, (hmark _ i l hi hl).1 hrest⟩

/-- The version is marked, but there is no version that meets its constraint, and nothing is
installed. -/
theorem first_version_of_provider :
    secondVersionNeeded.Fresh ∧ Acyclic (RequiredBy secondVersionNeeded) ∧
      Acyclic (FallsTo secondVersionNeeded) ∧
      (∀ r i, secondVersionNeeded.info r = some i → i.NotHeld) ∧
      ∃ data' i l, ["iptables-nft", "webmon"].foldlM
          (loadRecursivePackageDataVariables ⟨false, false, 0⟩ 20) secondVersionNeeded =
            some data' ∧
        data'.info ⟨"webmon", "1.0"⟩ = some i ∧ i.loaded = some l ∧ l.dependsSatisfiable = true ∧
        ¬∀ e ∈ dependList i.depends, ∃ x ∈ data'.refs,
          data'.isInstalled x = true ∨ e.2.valid x.version = true := by
  have hrun : (["iptables-nft", "webmon"].foldlM (loadRecursivePackageDataVariables
      ⟨false, false, 0⟩ 20) secondVersionNeeded).bind (fun data' =>
        (data'.info ⟨"webmon", "1.0"⟩).bind fun i => i.loaded.bind fun l =>
          some (l.dependsSatisfiable, decide (∀ e ∈ dependList i.depends, ∃ x ∈ data'.refs,
            data'.isInstalled x = true ∨ e.2.valid x.version = true))) = some (true, false) := by
    decide
  obtain ⟨data', hdata', hrest⟩ := Option.bind_eq_some_iff.1 hrun
  obtain ⟨i, hi, hrest⟩ := Option.bind_eq_some_iff.1 hrest
  obtain ⟨l, hl, hmark⟩ := Option.bind_eq_some_iff.1 hrest
  obtain ⟨hmarked, hunmet⟩ := Prod.mk.injEq _ _ _ _ ▸ Option.some.inj hmark
  exact ⟨secondVersionNeeded_fresh, secondVersionNeeded_acyclic,
    secondVersionNeeded_acyclic_fallsTo, secondVersionNeeded_notHeld,
    data', i, l, hdata', hi, hl, hmarked, of_decide_eq_false hunmet⟩

end SecondVersion

end Gpkg

end Gargoyle
