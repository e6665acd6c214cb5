import Gargoyle.Bandwidth.ReferenceKernel
import Gargoyle.Gpkg.AddPackage

/-!
# What another version of a package would break

`something_depends_on` is asked with a version before a package is replaced by that
version. Whether a dependency restricts versions at all is tested by eight comparisons of
its relation that are joined by "and", so that no dependency does, and the answer is
always no. Without a version, every dependency on the package counts.
-/

namespace Gargoyle

namespace Gpkg

open Bandwidth

section Protection

variable [Kernel]

/-! ## What depends on a package -/

def PackageInfo.dependMap (i : PackageInfo) : StringMap DependDef :=
  match i.loaded with
  | some l => l.allDepends
  | none => (dependList i.depends).foldl (fun m d => m.set d.1 d.2) .empty

/-- `something_depends_on_func`, for one package: its installed version depends on a name, and the
tested package does not depend on it in turn. -/
def Versions.dependsOn (vs : Versions) (key name : String) (tested : PackageInfo) : Bool :=
  (vs.current.bind vs.infos.get).any fun i =>
    i.depends.isSome && i.installDestination.any (· ≠ notInstalledString) &&
      (i.dependMap.get name).isSome &&
      !(tested.loaded.any fun l => (l.allDepends.get key).isSome)

/-! ## The test -/

def DependDef.restricts (m : DependDef) : Bool :=
  m.relation = ">>" ∧ m.relation = ">" ∧ m.relation = "<<" ∧ m.relation = "<" ∧
    m.relation = "<=" ∧ m.relation = ">=" ∧ m.relation = "=" ∧ m.relation = "=="

def DependDef.counts (m : DependDef) : Option String → Bool
  | none => true
  | some proposed =>
    if m.restricts then
      let cmp := compareVersions proposed (m.version.getD "")
      let valid : Bool := cmp = 0 ∧ m.relation ∈ ["=", "==", "<=", ">="]
      let valid := if cmp < 0 ∧ m.relation ∈ ["<", "<<", "<="] then true else valid
      let valid := if cmp > 0 ∧ m.relation ∈ [">", ">>", ">="] then true else valid
      !valid
    else false

/-- `something_depends_on_func`, for one package. A package on which the tested one
depends in turn does not count. -/
def Versions.dependsOnBut (vs : Versions) (key name : String) (proposed : Option String)
    (tested : PackageInfo) : Bool :=
  (vs.current.bind vs.infos.get).any fun i =>
    i.depends.isSome && i.installDestination.any (· ≠ notInstalledString) &&
      (i.dependMap.get name).any (fun m => m.counts proposed) &&
      !(tested.loaded.any fun l => (l.allDepends.get key).isSome)

/-- `something_depends_on`: the first package that is found. -/
def somethingDependsOnBut (data : PackageData) (calls : ℕ) (name : String)
    (proposed : Option String) : Option (Option String) :=
  (getPackageCurrentOrLatest data calls name).map fun found =>
    (found.ret.bind data.info).bind fun tested =>
      (data.packages.entries.find? fun e => e.2.dependsOnBut e.1 name proposed tested).map Prod.fst

/-! ## What the answer should be -/

def PackageData.tested (data : PackageData) (name : String) : Option PackageInfo :=
  ((getPackageCurrentOrLatest data 2 name).bind Lookup.ret).bind data.info

/-- An installed package, on which `name` does not depend in turn, depends on `name`,
and `m` is the restriction. -/
def PackageData.Needs (data : PackageData) (name : String) (m : DependDef) : Prop :=
  ∃ key vs i, (key, vs) ∈ data.packages.entries ∧ vs.current.bind vs.infos.get = some i ∧
    i.depends.isSome ∧ (∃ dest, i.installDestination = some dest ∧ dest ≠ notInstalledString) ∧
    i.dependMap.get name = some m ∧
    ∀ tested l, data.tested name = some tested → tested.loaded = some l → l.allDepends.get key = none

/-- The answer of `something_depends_on` protects the packages that depend on `name`. -/
def PackageData.Protects (data : PackageData) (calls : ℕ) (name : String) :
    Option String → Prop
  | none =>
    (∃ key, somethingDependsOnBut data calls name none = some (some key)) ↔
      ∃ m, data.Needs name m
  | some proposed =>
    (∃ m, data.Needs name m ∧ m.relation ∈ relations ∧ m.valid proposed = false) →
      ∃ key, somethingDependsOnBut data calls name (some proposed) = some (some key)

omit [Kernel] in
theorem DependDef.restricts_eq_false (m : DependDef) : m.restricts = false := by
  rw [restricts, decide_eq_false_iff_not]
  rintro ⟨h, h', -⟩
  exact absurd (h.symm.trans h') (by decide)

theorem DependDef.counts_some (m : DependDef) (proposed : String) :
    m.counts (some proposed) = false := by
  rw [counts, restricts_eq_false]
  rfl

theorem Versions.dependsOnBut_some (vs : Versions) (key name proposed : String)
    (tested : PackageInfo) : vs.dependsOnBut key name (some proposed) tested = false := by
  simp [dependsOnBut, DependDef.counts_some]

theorem Versions.dependsOnBut_none (vs : Versions) (key name : String) (tested : PackageInfo) :
    vs.dependsOnBut key name none tested = vs.dependsOn key name tested := by
  have hcounts : (fun m : DependDef => m.counts none) = fun _ => true := rfl
  rw [dependsOnBut, dependsOn, hcounts]
  simp only [Option.any_true]

/-! ## The answers -/

section Answers

variable (data : PackageData) (calls : ℕ) (name : String)

theorem somethingDependsOnBut_eq : somethingDependsOnBut data (calls + 2) name = fun proposed =>
    some ((data.tested name).bind fun tested =>
      (data.packages.entries.find? fun e => e.2.dependsOnBut e.1 name proposed tested).map
        Prod.fst) := by
  obtain ⟨found, hfound⟩ := Option.isSome_iff_exists.1 (currentOrLatest_returns data name false)
  have hmore := currentOrLatest_mono (Nat.le_add_left 2 calls) hfound
  funext proposed
  rw [somethingDependsOnBut, PackageData.tested, getPackageCurrentOrLatest,
    getPackageCurrentOrLatest, hfound, hmore]
  rfl

theorem somethingDependsOnBut_some (proposed : String) :
    somethingDependsOnBut data (calls + 2) name (some proposed) = some none := by
  rw [somethingDependsOnBut_eq]
  simp [Versions.dependsOnBut_some]

theorem dependsOnBut_none_iff {name : String} {key : String} {vs : Versions}
    {tested : PackageInfo} :
    vs.dependsOnBut key name none tested = true ↔
      ∃ m i, vs.current.bind vs.infos.get = some i ∧ i.depends.isSome ∧
        (∃ dest, i.installDestination = some dest ∧ dest ≠ notInstalledString) ∧
        i.dependMap.get name = some m ∧
        ∀ l, tested.loaded = some l → l.allDepends.get key = none := by
  rw [Versions.dependsOnBut_none, Versions.dependsOn, Option.any_eq_true]
  simp only [Bool.and_eq_true, Option.any_eq_true, decide_eq_true_eq, Bool.not_eq_true',
    Option.any_eq_false, Option.isSome_eq_false_iff, Option.isNone_iff_eq_none]
  constructor
  · rintro ⟨i, hi, ⟨⟨hdepends, hdest⟩, hm⟩, hturn⟩
    obtain ⟨m, hm⟩ := Option.isSome_iff_exists.1 hm
    exact ⟨m, i, hi, hdepends, hdest, hm, hturn⟩
  · rintro ⟨m, i, hi, hdepends, hdest, hm, hturn⟩
    exact ⟨i, hi, ⟨⟨hdepends, hdest⟩, Option.isSome_iff_exists.2 ⟨m, hm⟩⟩, hturn⟩

theorem exists_dependsOnBut_iff :
    (∃ key, somethingDependsOnBut data (calls + 2) name none = some (some key)) ↔
      (data.tested name).isSome ∧ ∃ m, data.Needs name m := by
  rw [somethingDependsOnBut_eq]
  simp only [Option.some.injEq, ← Option.isSome_iff_exists]
  cases htested : data.tested name with
  | none => simp
  | some tested =>
    rw [Option.bind_some, Option.isSome_map, List.find?_isSome]
    simp only [Option.isSome_some, true_and, dependsOnBut_none_iff]
    constructor
    · rintro ⟨⟨key, vs⟩, he, m, i, hi, hdepends, hdest, hm, hturn⟩
      refine ⟨m, key, vs, i, he, hi, hdepends, hdest, hm, fun _ l ht hl => ?_⟩
      obtain rfl := Option.some.inj (htested.symm.trans ht)
      exact hturn l hl
    · rintro ⟨m, key, vs, i, he, hi, hdepends, hdest, hm, hturn⟩
      exact ⟨(key, vs), he, m, i, hi, hdepends, hdest, hm, fun l hl => hturn tested l htested hl⟩

end Answers

/-! ## A version that is forbidden -/

def installedInfo (depends : Option String) : PackageInfo :=
  { status := some "install ok installed", depends := depends, installDestination := some "root" }

def installedWith (version : String) (depends : Option String) : Versions where
  infos := HashedMap.empty.set version (installedInfo depends)
  current := some version
  latest := version
  current_mem := by
    intro v hv
    obtain rfl := Option.some.inj hv
    exact HashedMap.mem_keys_set_self ..
  latest_mem := HashedMap.mem_keys_set_self ..

def secondNeeded : PackageData where
  packages := (HashedMap.empty.set "libubox" (installedWith "2.0" none)).set "luci"
    (installedWith "1.0" (some "libubox (>= 2.0)"))
  provides := .empty
  real_mem := fun _ _ _ h => nomatch h

theorem installedWith_info (version : String) (depends : Option String) :
    ((installedWith version depends).current.bind (installedWith version depends).infos.get) =
      some (installedInfo depends) := by
  rw [installedWith, Option.bind_some, HashedMap.get_set_self]

end Protection

section Forbidden

local instance forbiddenKernel : Kernel := referenceKernel 64

theorem secondNeeded_needs : secondNeeded.Needs "libubox" ⟨">=", some "2.0"⟩ := by
  refine ⟨"luci", installedWith "1.0" (some "libubox (>= 2.0)"),
    installedInfo (some "libubox (>= 2.0)"), ?_, installedWith_info .., rfl,
    ⟨"root", rfl, by decide⟩, by decide, fun tested l htested hl => ?_⟩
  · exact (HashedMap.mem_entries_set ..).2 (Or.inl rfl)
  · have hnone : ((secondNeeded.tested "libubox").bind PackageInfo.loaded).isNone = true := by
      decide
    rw [htested, Option.bind_some, hl] at hnone
    cases hnone

end Forbidden

end Gpkg

end Gargoyle
