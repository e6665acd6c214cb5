import Gargoyle.Gpkg.Lookup

/-!
# Adding package data

`add_package_data` puts what has been read of one version of a package among the versions of that
package. What is new goes over what was there, and the latest and the current version are looked up
again among all versions.
-/

namespace Gargoyle

open List

namespace Gpkg

open Bandwidth

variable [Kernel]

/-- `strstr`. -/
def contains (needle : String) (str : String) : Bool := decide (needle.toList <:+: str.toList)

/-- `NOT_INSTALLED_STRING`. -/
def notInstalledString : String := "@N"

/-- The status and the destination that `add_package_data` corrects. -/
def PackageInfo.corrected (i : PackageInfo) : PackageInfo :=
  let status := i.status.getD "unknown ok not-installed"
  { i with
    status := some status
    installDestination :=
      if contains "not-installed" status then i.installDestination.map fun _ => notInstalledString
      else i.installDestination }

def PackageInfo.over (new existing : PackageInfo) : PackageInfo where
  status := new.status.or existing.status
  depends := new.depends.or existing.depends
  provides := new.provides.or existing.provides
  installedSize := new.installedSize.or existing.installedSize
  installDestination :=
    if new.installDestination = some notInstalledString then existing.installDestination
    else new.installDestination.or existing.installDestination
  installFileLocation := new.installFileLocation.or existing.installFileLocation
  sourceId := new.sourceId.or existing.sourceId
  md5Sum := new.md5Sum.or existing.md5Sum
  sha256Sum := new.sha256Sum.or existing.sha256Sum
  loaded := new.loaded.or existing.loaded

def newest (version : String) (versions : List String) : String :=
  versions.foldl (fun latest v => if compareVersions v latest > 0 then v else latest) version

theorem newest_mem (version : String) (versions : List String) :
    newest version versions ∈ version :: versions := by
  induction versions generalizing version with
  | nil => exact mem_cons_self
  | cons v versions ih =>
    rw [newest, foldl_cons]
    have hmem := ih (if compareVersions v version > 0 then v else version)
    rw [newest] at hmem
    rcases List.mem_cons.1 hmem with h | h
    · rw [h]
      split_ifs
      · exact mem_cons_of_mem _ mem_cons_self
      · exact mem_cons_self
    · exact mem_cons_of_mem _ (mem_cons_of_mem _ h)

def placedVersion (infos : StringMap PackageInfo) : Option String :=
  ((infos.entries.filter fun e => e.2.installDestination.any (· ≠ notInstalledString)).getLast?).map
    Prod.fst

theorem placedVersion_mem {infos : StringMap PackageInfo} {v : String}
    (h : placedVersion infos = some v) : v ∈ infos.keys := by
  obtain ⟨e, he, rfl⟩ := Option.map_eq_some_iff.1 h
  exact mem_map_of_mem (List.mem_filter.1 (mem_of_getLast? he)).1

def Versions.refresh (infos : StringMap PackageInfo) (current : Option String)
    (hcurrent : ∀ v, current = some v → v ∈ infos.keys) (hne : infos.keys ≠ []) : Versions where
  infos := infos
  current := (placedVersion infos).or current
  latest := newest (infos.keys.head hne) infos.keys.tail
  current_mem := by
    intro v hv
    rcases Option.or_eq_some_iff.1 hv with h | ⟨-, h⟩
    · exact placedVersion_mem h
    · exact hcurrent v h
  latest_mem := by
    have hmem := newest_mem (infos.keys.head hne) infos.keys.tail
    rwa [cons_head_tail] at hmem

/-- `add_package_data`, among the versions of the package. -/
def Versions.add (vs : Versions) (version : String) (i : PackageInfo) : Versions :=
  match hget : vs.infos.get version with
  | some _ => .refresh (vs.infos.modify version i.over) vs.current
      (fun v hv => by
        rw [HashedMap.keys_modify]
        exact vs.current_mem v hv)
      (by
        rw [HashedMap.keys_modify]
        exact ne_nil_of_mem vs.latest_mem)
  | none => .refresh (vs.infos.set version i) vs.current
      (fun v hv => by
        obtain ⟨j, hj⟩ := (vs.infos.mem_keys v).1 (vs.current_mem v hv)
        refine ((vs.infos.set version i).mem_keys v).2 ⟨j, ?_⟩
        refine HashedMap.mem_insert_of_ne _ hj fun heq => ?_
        have hsome := vs.infos.get_of_mem hj
        rw [HashedMap.get_congr _ heq, hget] at hsome
        cases hsome)
      (ne_nil_of_mem (HashedMap.mem_keys_set_self ..))

def Versions.single (version : String) (i : PackageInfo) : Versions :=
  .refresh (HashedMap.empty.set version i) none (fun _ h => nomatch h)
    (ne_nil_of_mem (HashedMap.mem_keys_set_self ..))

def PackageData.addPackageData (data : PackageData) (i : PackageInfo) (name version : String) :
    PackageData where
  packages :=
    match data.packages.get name with
    | some vs => data.packages.modify name fun _ => vs.add version i.corrected
    | none => data.packages.set name (.single version i.corrected)
  provides := data.provides
  real_mem := by
    intro provided p real hp hreal
    have hsome := data.real_mem provided p real hp hreal
    cases data.packages.get name with
    | some vs => rwa [HashedMap.isSome_get_modify]
    | none =>
      simp only [HashedMap.get_set]
      split_ifs
      · rfl
      · exact hsome

end Gpkg

end Gargoyle
