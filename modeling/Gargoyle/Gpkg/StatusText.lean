import Gargoyle.Data.FgetsLines
import Gargoyle.Gpkg.Info

/-!
# The text of the status file

`load_package_data` reads a file line by line. A line with a colon is a variable, and a line
without one that begins with a blank goes on with the variable before it. A stanza is added to the
package data when the next one begins, and at the end. `save_package_data_as_status_file` prints
some variables of the installed versions as they are.

A load that uses a version whose memory has been freed, or a map that is not there, yields `none`.
The variables of a version are told apart by their names, and what is kept for the provided names
and as the latest version is left out, because it is not saved.
-/

namespace Gargoyle

namespace Gpkg

open Bandwidth FgetsLines
open Timerange (splitOnSeparators)

/-! ## Versions -/

structure LoadedInfo where
  vars : List Char → Option (List Char) := fun _ => none
  alternatives : Option (List (List Char)) := none

namespace LoadedInfo

/-- `set_string_map_element`. -/
def set (i : LoadedInfo) (key value : List Char) : LoadedInfo :=
  { i with vars := Function.update i.vars key (some value) }

def statusKey : List Char := "Status".toList

def destinationKey : List Char := "Install-Destination".toList

def notInstalled : List Char := "not-installed".toList

def isPlaced (i : LoadedInfo) : Bool :=
  (i.vars destinationKey).any (· ≠ notInstalledString.toList)

/-- The status and the destination that `add_package_data` corrects. -/
def corrected (i : LoadedInfo) : LoadedInfo :=
  let status := (i.vars statusKey).getD "unknown ok not-installed".toList
  let i := i.set statusKey status
  if notInstalled <:+: status ∧ (i.vars destinationKey).isSome then
    i.set destinationKey notInstalledString.toList
  else i

def writtenOver (new existing : LoadedInfo) : LoadedInfo where
  vars key :=
    if key = destinationKey ∧ new.vars key = some notInstalledString.toList then existing.vars key
    else (new.vars key).or (existing.vars key)
  alternatives := new.alternatives.or existing.alternatives

end LoadedInfo

structure LoadedVersions [Kernel] where
  infos : StringMap LoadedInfo
  current : Option String
  current_mem : ∀ v, current = some v → (infos.get v).isSome

variable [Kernel]

namespace LoadedVersions

def placed (infos : StringMap LoadedInfo) : Option String :=
  ((infos.entries.filter fun e => e.2.isPlaced).getLast?).map Prod.fst

theorem isSome_get_of_placed {infos : StringMap LoadedInfo} {v : String}
    (h : placed infos = some v) : (infos.get v).isSome := by
  obtain ⟨e, he, rfl⟩ := Option.map_eq_some_iff.1 h
  exact infos.get_isSome_of_mem_keys
    (List.mem_map_of_mem (List.mem_filter.1 (List.mem_of_getLast? he)).1)

def refresh (infos : StringMap LoadedInfo) (current : Option String)
    (hcurrent : ∀ v, current = some v → (infos.get v).isSome) : LoadedVersions where
  infos := infos
  current := (placed infos).or current
  current_mem v hv := by
    rcases Option.or_eq_some_iff.1 hv with h | ⟨-, h⟩
    · exact isSome_get_of_placed h
    · exact hcurrent v h

def written (infos : StringMap LoadedInfo) (version : String) (i : LoadedInfo) :
    StringMap LoadedInfo :=
  match infos.get version with
  | some _ => infos.modify version i.writtenOver
  | none => infos.set version i

theorem isSome_get_written {infos : StringMap LoadedInfo} {v : String}
    (h : (infos.get v).isSome) (version : String) (i : LoadedInfo) :
    ((written infos version i).get v).isSome := by
  rw [written]
  cases infos.get version with
  | some _ => rwa [HashedMap.isSome_get_modify]
  | none =>
    rw [HashedMap.get_set]
    split_ifs
    · rfl
    · exact h

/-- `add_package_data`, among the versions of the package. -/
def add (vs : LoadedVersions) (version : String) (i : LoadedInfo) : LoadedVersions :=
  refresh (written vs.infos version i) vs.current fun v hv =>
    isSome_get_written (vs.current_mem v hv) version i

theorem current_mem_none (infos : StringMap LoadedInfo) (v : String)
    (h : (none : Option String) = some v) : (infos.get v).isSome := by
  cases h

def single (version : String) (i : LoadedInfo) : LoadedVersions :=
  refresh (HashedMap.empty.set version i) none (current_mem_none _)

end LoadedVersions

abbrev LoadedPackages := StringMap LoadedVersions

/-- `add_package_data`. -/
def addLoaded (data : LoadedPackages) (i : LoadedInfo) (name version : String) : LoadedPackages :=
  match data.get name with
  | some vs => data.modify name fun _ => vs.add version i.corrected
  | none => data.set name (.single version i.corrected)

/-! ## Loading -/

structure FileLoad where
  includes : List Char → List Char → Bool
  destName : Option (List Char)
  pkgSrcId : Option (List Char)
  text : List Char

/-- `pkg_version`. After a stanza has ended, its memory is freed, but the pointer stays. -/
inductive VersionPointer
  | null
  | freed
  | text (version : List Char)

/-- The variables of `load_package_data`. -/
structure LoadState where
  data : LoadedPackages
  nextPkgData : Option LoadedInfo := none
  pkgName : Option (List Char) := none
  pkgVersion : VersionPointer := .null
  lastVariable : Option (List Char) := none
  loadedAtLeastOneVariable : Bool := false

def valueSeparators : List Char := [':', ' ', '\t']

def lineKey (line : List Char) : List Char := line.takeWhile (· ≠ ':')

def lineValue (line : List Char) : List Char :=
  ((line.dropWhile (· ≠ ':')).dropWhile (· ∈ valueSeparators)).takeWhile
    fun c => c ≠ '\r' ∧ c ≠ '\n'

def lineContinuation (line : List Char) : List Char :=
  (line.dropWhile (· ∈ [' ', '\t'])).takeWhile fun c => c ≠ '\r' ∧ c ≠ '\n'

namespace FileLoad

variable (f : FileLoad)

def initialInfo (name : List Char) : LoadedInfo :=
  let i : LoadedInfo := {}
  let i :=
    if f.includes name LoadedInfo.destinationKey then
      i.set LoadedInfo.destinationKey (f.destName.getD notInstalledString.toList)
    else i
  match f.pkgSrcId with
  | some id => if f.includes name "Source-ID".toList then i.set "Source-ID".toList id else i
  | none => i

def setVariable (name key value : List Char) (i : LoadedInfo) : LoadedInfo :=
  let i := i.set key value
  if key = LoadedInfo.statusKey ∧ f.includes name "User-Installed".toList then
    i.set "User-Installed".toList
      (if " user ".toList <:+: value then "true".toList else "false".toList)
  else i

end FileLoad

namespace LoadState

def flush (s : LoadState) : Option LoadedPackages :=
  match s.pkgName, s.nextPkgData, s.loadedAtLeastOneVariable with
  | some name, some i, true =>
    match s.pkgVersion with
    | .null => some s.data
    | .freed => none
    | .text version => some (addLoaded s.data i (String.ofList name) (String.ofList version))
  | _, _, _ => some s.data

/-- The version is freed; `none` if that has been done. -/
def freeVersion (s : LoadState) : Option VersionPointer :=
  match s.pkgVersion with
  | .null => some .null
  | .freed => none
  | .text _ => some .freed

def startStanza (f : FileLoad) (name : List Char) (s : LoadState) : Option LoadState :=
  s.flush.bind fun data => s.freeVersion.map fun version => {
    data := data
    nextPkgData := some (f.initialInfo name)
    pkgName := some name
    pkgVersion := version }

def readVariable (f : FileLoad) (key value : List Char) (s : LoadState) : Option LoadState :=
  let s := { s with lastVariable := none }
  if key = "Package".toList then s.startStanza f value
  else if key = "Version".toList then some { s with pkgVersion := .text value }
  else if key = "Alternatives".toList then
    s.nextPkgData.map fun i =>
      { s with
        nextPkgData := some
          { i with alternatives := some (splitOnSeparators value [',', ' '] (-1) false) } }
  else
    match s.pkgName with
    | none => some s
    | some name =>
      if f.includes name key then
        s.nextPkgData.map fun i =>
          { s with
            nextPkgData := some (f.setVariable name key value i)
            lastVariable := some key
            loadedAtLeastOneVariable := true }
      else some s

def readContinuation (line : List Char) (s : LoadState) : LoadState :=
  match s.lastVariable, s.nextPkgData with
  | some key, some i =>
    if line.head? = some ' ' ∨ line.head? = some '\t' then
      match i.vars key with
      | some old =>
        { s with nextPkgData := some (i.set key (old ++ '\n' :: lineContinuation line)) }
      | none => { s with lastVariable := none }
    else { s with lastVariable := none }
  | _, _ => { s with lastVariable := none }

def readLine (f : FileLoad) (s : LoadState) (line : List Char) : Option LoadState :=
  if ':' ∈ line then s.readVariable f (lineKey line) (lineValue line)
  else some (s.readContinuation line)

end LoadState

/-- The lines that `fgets` reads, as texts. The loop stops at an empty text. -/
def FileLoad.lines (f : FileLoad) : List (List Char) :=
  ((pieces 16383 f.text).map fun piece => piece.takeWhile (· ≠ '\x00')).takeWhile (· ≠ [])

/-- `load_package_data`, for one file. -/
def loadFile (data : LoadedPackages) (f : FileLoad) : Option LoadedPackages :=
  (f.lines.foldlM (LoadState.readLine f) { data := data }).bind LoadState.flush

/-- `load_package_data`, for one file after the other. -/
def loadFiles (data : LoadedPackages) (fs : List FileLoad) : Option LoadedPackages :=
  fs.foldlM loadFile data

/-! ## Saving -/

def savedKeys : List (List Char) :=
  ["Depends".toList, "Provides".toList, "Status".toList, "Architecture".toList,
    "Installed-Time".toList, "Link-Destination".toList]

/-- `fprintf` of a variable. -/
def savedLine (key value : List Char) : List Char := key ++ ':' :: ' ' :: (value ++ ['\n'])

def alternativesText (alts : List (List Char)) : List Char :=
  (joinStrs alts).getD "(null)".toList

def savedVariables (i : LoadedInfo) (keys : List (List Char)) : List Char :=
  keys.flatMap fun key =>
    match i.vars key with
    | some value => savedLine key value
    | none => []

def savedAlternatives (i : LoadedInfo) : List Char :=
  match i.alternatives with
  | some alts => savedLine "Alternatives".toList (alternativesText alts)
  | none => []

def savedStanza (name version : String) (i : LoadedInfo) : List Char :=
  savedLine "Package".toList name.toList ++ savedLine "Version".toList version.toList ++
    savedVariables i savedKeys ++ savedAlternatives i ++ ['\n']

/-- `save_pkg_status_func`. Nothing that is loaded has a variable `Version`. -/
def savePkgStatus (name : String) (vs : LoadedVersions) : List Char :=
  match vs.current with
  | none => []
  | some current =>
    match vs.infos.get current with
    | none => []
    | some i => savedStanza name current i

/-- `save_package_data_as_status_file`. -/
def savedText (data : LoadedPackages) : List Char :=
  data.entries.flatMap fun e => savePkgStatus e.1 e.2

end Gpkg

end Gargoyle
