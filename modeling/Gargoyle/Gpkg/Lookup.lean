import Gargoyle.Bandwidth.Defs
import Gargoyle.Timerange.Text

/-!
# The package data of `gpkg`

The data of all packages is a map of maps: a name has versions, a version has fields.
The fields that are computed from the dependencies are written together, when a
version has been loaded, and a version without them counts as not loaded.

The reserved keys (`@P`, `@C`, `@L`, `@CP`, `@PP`), which share the maps with the names
and the versions in the source, are fields here.
-/

namespace Gargoyle

namespace Gpkg

open Bandwidth Numerals
open Timerange (splitOnSeparators)

/-! ## Versions of packages -/

structure DependDef where
  relation : String
  version : Option String
  deriving DecidableEq

structure PackageRef where
  name : String
  version : String
  deriving DecidableEq

structure Loaded [Kernel] where
  requiredDepends : StringMap DependDef
  allDepends : StringMap DependDef
  requiredSize : Option ℕ
  willFit : Option Bool
  dependsSatisfiable : Bool
  /-- The versions that its dependencies were resolved to and that are not installed, with
  whether they had been loaded. The source does not keep them, and nothing reads them. -/
  resolved : List (PackageRef × Bool)

structure PackageInfo [Kernel] where
  status : Option String := none
  depends : Option String := none
  provides : Option String := none
  installedSize : Option String := none
  installDestination : Option String := none
  installFileLocation : Option String := none
  sourceId : Option String := none
  md5Sum : Option String := none
  sha256Sum : Option String := none
  loaded : Option Loaded := none

section

variable [Kernel]

structure Versions [Kernel] where
  infos : StringMap PackageInfo
  current : Option String
  latest : String
  current_mem : ∀ v, current = some v → v ∈ infos.keys
  latest_mem : latest ∈ infos.keys

structure Provided where
  current : Option String
  preferred : Option String

def Provided.realName (p : Provided) : Option String := p.current.or p.preferred

structure PackageData [Kernel] where
  packages : StringMap Versions
  provides : StringMap Provided
  real_mem : ∀ name p real, provides.get name = some p → p.realName = some real →
    (packages.get real).isSome

namespace PackageData

variable (data : PackageData)

def info (r : PackageRef) : Option PackageInfo :=
  (data.packages.get r.name).bind fun vs => vs.infos.get r.version

def realName (name : String) : Option String :=
  (data.provides.get name).bind Provided.realName

end PackageData

def Versions.modifyInfo (vs : Versions) (version : String) (f : PackageInfo → PackageInfo) :
    Versions where
  infos := vs.infos.modify version f
  current := vs.current
  latest := vs.latest
  current_mem := by
    intro v hv
    rw [HashedMap.keys_modify]
    exact vs.current_mem v hv
  latest_mem := by
    rw [HashedMap.keys_modify]
    exact vs.latest_mem

def PackageData.modifyInfo (data : PackageData) (r : PackageRef) (f : PackageInfo → PackageInfo) :
    PackageData where
  packages := data.packages.modify r.name fun vs => vs.modifyInfo r.version f
  provides := data.provides
  real_mem := by
    intro name p real hp hreal
    rw [HashedMap.isSome_get_modify]
    exact data.real_mem name p real hp hreal

def PackageData.setLoaded (data : PackageData) (r : PackageRef) (loaded : Loaded) : PackageData :=
  data.modifyInfo r fun i => { i with loaded := some loaded }

/-! ## Texts -/

/-- `strcmp`, up to the size of the result. -/
def strcmp (s t : List Char) : ℤ :=
  match s, t with
  | [], [] => 0
  | [], _ :: _ => -1
  | _ :: _, [] => 1
  | c :: s, d :: t => if c.toNat < d.toNat then -1 else if d.toNat < c.toNat then 1 else strcmp s t

/-- The characters at which `compare_versions` splits. -/
def versionSeparators : List Char :=
  ['.', '-', '_', ' ', '\t', '(', ')', '\x7b', '\x7d', '[', ']', '+', '=', ';', '?', ',', '|', '/',
    '\\', '*', '&', '@', '#', '!', '$', '%', '~', '<', '>']

/-- What `isspace` accepts. -/
def isSpace (c : Char) : Bool := c ∈ [' ', '\t', '\n', '\x0b', '\x0c', '\r']

/-- `sscanf` with `"%lu"` into a variable of `bits` bits; `none` if nothing is
converted. A sign is allowed, and what is too large becomes the largest number. -/
def scanUnsigned (bits : ℕ) (str : List Char) : Option ℕ :=
  let str := str.dropWhile isSpace
  let negative := str.head? = some '-'
  let str := if negative ∨ str.head? = some '+' then str.tail else str
  let digits := str.takeWhile Char.isDigit
  if digits = [] then none
  else
    let value := numeralValue 10 digits
    if 2 ^ bits ≤ value then some (2 ^ bits - 1)
    else if negative then some ((2 ^ bits - value) % 2 ^ bits)
    else some value

/-- The loop of `compare_versions` over the parts that both versions have. -/
def compareParts : List (List Char) → List (List Char) → ℤ → ℤ
  | part₁ :: parts₁, part₂ :: parts₂, _ =>
    let ret :=
      match scanUnsigned Kernel.ulongBits part₁, scanUnsigned Kernel.ulongBits part₂ with
      | some n₁, some n₂ => if n₁ > n₂ then 1 else if n₁ = n₂ then 0 else -1
      | _, _ => strcmp part₁ part₂
    if ret ≠ 0 then ret else compareParts parts₁ parts₂ ret
  | _, _, ret => ret

/-- `compare_versions`. The second of the two tests for the number of parts is the
first one again, so that a version with more parts is equal to the shorter one. -/
def compareVersions (v₁ v₂ : String) : ℤ :=
  let ret := strcmp v₁.toList v₂.toList
  if ret = 0 then ret
  else
    let parts₁ := splitOnSeparators v₁.toList versionSeparators (-1) false
    let parts₂ := splitOnSeparators v₂.toList versionSeparators (-1) false
    let ret := compareParts parts₁ parts₂ ret
    let ret := if ret = 0 ∧ parts₁.length < parts₂.length then -1 else ret
    if ret = 0 ∧ parts₂.length > parts₁.length then 1 else ret

/-! ## Dependencies -/

/-- `alloc_depend_def`. A text that is not a relation and a version in brackets
stands for all versions. -/
def allocDependDef : Option (List Char) → DependDef
  | none => ⟨"*", none⟩
  | some str =>
    let adj := str.tail
    if ')' ∉ adj then ⟨"*", none⟩
    else
      let adj := adj.takeWhile (· ≠ ')')
      let relation := adj.takeWhile fun c => c = '>' ∨ c = '<' ∨ c = '='
      let rest := adj.dropWhile fun c => c = '>' ∨ c = '<' ∨ c = '='
      let version := (rest.dropWhile fun c => c = ' ' ∨ c = '\t').takeWhile fun c =>
        c ≠ ' ' ∧ c ≠ '\t'
      if relation = [] ∨ version = [] then ⟨"*", none⟩
      else ⟨String.ofList relation, some (String.ofList version)⟩

def bracketed : List (List Char) → Option (List Char × List (List Char))
  | [] => none
  | piece :: pieces =>
    if piece.getLast? = some ')' then some (piece, pieces)
    else (bracketed pieces).map fun r => (piece ++ r.1, r.2)

/-- The loop of `load_recursive_package_data_variables` over the pieces of `Depends`: each
round takes a name, and a definition if the next piece opens a bracket. -/
def dependRounds : ℕ → List (List Char) → List (String × DependDef)
  | 0, _ => []
  | _ + 1, [] => []
  | rounds + 1, name :: pieces =>
    match if pieces.head?.bind List.head? = some '(' then bracketed pieces else none with
    | none => (String.ofList name, allocDependDef none) :: dependRounds rounds pieces
    | some (str, rest) =>
      (String.ofList name, allocDependDef (some str)) :: dependRounds rounds rest

/-- The characters at which `Depends` is split. -/
def packageSeparators : List Char := [' ', ',', ':', ';', '\'', '"', '\t', '\r', '\n']

def dependList (depends : Option String) : List (String × DependDef) :=
  match depends with
  | none => []
  | some deps =>
    let pieces := splitOnSeparators deps.toList packageSeparators (-1) false
    dependRounds pieces.length pieces

end

/-!
## Looking a package up

A name is looked up among the packages, and if there is none, or none with a version
that will do, under the real name of a package that provides it. The second way is a
call of the function itself, so that the lookups have a number of calls that they may
make, and yield `none` when it is used up.

A package has its latest version always, and the real names are the names of packages:
the lookup that asks for nothing else returns. The one that asks for a version that can
be installed goes on to the next name as long as it finds none.
-/

section

variable [Kernel]

structure Lookup where
  ret : Option PackageRef
  isCurrent : Bool
  matchingVersion : Option String

def Lookup.nothing : Lookup := ⟨none, false, none⟩

def Versions.found (vs : Versions) (name version : String) : Lookup :=
  ⟨some ⟨name, version⟩, vs.current = some version, some version⟩

/-- `internal_get_package_current_or_latest`, among the versions of the package. -/
def Versions.currentOrLatest (vs : Versions) (name : String) (preferLatest : Bool) : Lookup :=
  match vs.current with
  | some current => vs.found name (if preferLatest then vs.latest else current)
  | none => vs.found name vs.latest

@[simp] def internalGetPackageCurrentOrLatest (data : PackageData) :
    ℕ → String → Bool → Option Lookup
  | 0, _, _ => none
  | calls + 1, name, preferLatest =>
    match data.packages.get name with
    | some vs => some (vs.currentOrLatest name preferLatest)
    | none =>
      match data.realName name with
      | some real => internalGetPackageCurrentOrLatest data calls real preferLatest
      | none => some .nothing

/-- The relations that `alloc_depend_def` may leave and that restrict versions. -/
def relations : List String := [">>", ">", "<<", "<", "<=", ">=", "=", "=="]

def DependDef.allVersionsValid (m : DependDef) : Bool :=
  m.relation.toList.head? = some '*' ∨ m.relation ∉ relations

def DependDef.valid (m : DependDef) (version : String) : Bool :=
  if m.allVersionsValid then true
  else
    let cmp := compareVersions version (m.version.getD "")
    (cmp = 0 ∧ m.relation ∈ ["=", "==", "<=", ">="]) ∨ (cmp < 0 ∧ m.relation ∈ ["<", "<<", "<="]) ∨
      (cmp > 0 ∧ m.relation ∈ [">", ">>", ">="])

def Versions.satisfiable (vs : Versions) (version : String) (i : PackageInfo) : Bool :=
  vs.current = some version ∨ (i.loaded.map Loaded.dependsSatisfiable) = some true

def Versions.better (vs : Versions) (preferLatest : Bool) (test : String) :
    Option String → Option String
  | none => some test
  | some found =>
    if vs.current = some test ∧ preferLatest = false then some test
    else if compareVersions test found > 0 ∧ (preferLatest ∨ vs.current ≠ some found) then some test
    else some found

def Versions.foundVersion (vs : Versions) (preferLatest : Bool) (m : DependDef)
    (mustBeSatisfiable : Bool) : Option String :=
  vs.infos.entries.foldl (fun found e =>
    if m.valid e.1 ∧ (mustBeSatisfiable → vs.satisfiable e.1 e.2) then
      vs.better preferLatest e.1 found
    else found) none

@[simp] def internalGetPackageCurrentOrLatestMatching (data : PackageData) :
    ℕ → String → Bool → DependDef → Bool → Option Lookup
  | 0, _, _, _, _ => none
  | calls + 1, name, preferLatest, m, mustBeSatisfiable =>
    if m.allVersionsValid ∧ mustBeSatisfiable = false then
      internalGetPackageCurrentOrLatest data calls name preferLatest
    else
      match (data.packages.get name).bind fun vs =>
          (vs.foundVersion preferLatest m mustBeSatisfiable).map (vs.found name) with
      | some found => some found
      | none =>
        match data.realName name with
        | some real => internalGetPackageCurrentOrLatestMatching data calls real preferLatest
            ⟨"*", none⟩ mustBeSatisfiable
        | none => some .nothing

def getPackageCurrentOrLatest (data : PackageData) (calls : ℕ) (name : String) : Option Lookup :=
  internalGetPackageCurrentOrLatest data calls name false

def getPackageCurrentOrLatestMatching (data : PackageData) (calls : ℕ) (name : String)
    (m : DependDef) : Option Lookup :=
  internalGetPackageCurrentOrLatestMatching data calls name false m false

def getPackageCurrentOrLatestMatchingAndSatisfiable (data : PackageData) (calls : ℕ)
    (name : String) (m : DependDef) : Option Lookup :=
  internalGetPackageCurrentOrLatestMatching data calls name false m true

/-! ### More calls -/

section Calls

variable {data : PackageData} {name : String} {preferLatest mustBeSatisfiable : Bool}
  {m : DependDef} {r : Lookup}

theorem currentOrLatest_mono {calls calls' : ℕ} (hle : calls ≤ calls')
    (h : internalGetPackageCurrentOrLatest data calls name preferLatest = some r) :
    internalGetPackageCurrentOrLatest data calls' name preferLatest = some r := by
  induction calls generalizing calls' name with
  | zero => cases h
  | succ calls ih =>
    obtain ⟨calls', rfl⟩ : ∃ n, calls' = n + 1 := ⟨calls' - 1, by omega⟩
    rw [internalGetPackageCurrentOrLatest] at h ⊢
    cases hget : data.packages.get name with
    | some vs => simpa [hget] using h
    | none =>
      cases hreal : data.realName name with
      | none => simpa [hget, hreal] using h
      | some real =>
        simp only [hget, hreal] at h ⊢
        exact ih (by omega) h

theorem matching_mono {calls calls' : ℕ} (hle : calls ≤ calls')
    (h : internalGetPackageCurrentOrLatestMatching data calls name preferLatest m
      mustBeSatisfiable = some r) :
    internalGetPackageCurrentOrLatestMatching data calls' name preferLatest m
      mustBeSatisfiable = some r := by
  induction calls generalizing calls' name m with
  | zero => cases h
  | succ calls ih =>
    obtain ⟨calls', rfl⟩ : ∃ n, calls' = n + 1 := ⟨calls' - 1, by omega⟩
    rw [internalGetPackageCurrentOrLatestMatching] at h ⊢
    split_ifs at h ⊢ with hall
    · exact currentOrLatest_mono (by omega) h
    · cases hfound : (data.packages.get name).bind fun vs =>
          (vs.foundVersion preferLatest m mustBeSatisfiable).map (vs.found name) with
      | some found => simpa [hfound] using h
      | none =>
        cases hreal : data.realName name with
        | none => simpa [hfound, hreal] using h
        | some real =>
          simp only [hfound, hreal] at h ⊢
          exact ih (by omega) h

/-! ### The lookups that always return -/

theorem currentOrLatest_of_get {vs : Versions} (hget : data.packages.get name = some vs)
    (calls : ℕ) : internalGetPackageCurrentOrLatest data (calls + 1) name preferLatest =
      some (vs.currentOrLatest name preferLatest) := by
  rw [internalGetPackageCurrentOrLatest, hget]

theorem PackageData.get_of_realName {real : String} (h : data.realName name = some real) :
    ∃ vs, data.packages.get real = some vs := by
  obtain ⟨p, hp, hreal⟩ := Option.bind_eq_some_iff.1 h
  exact Option.isSome_iff_exists.1 (data.real_mem name p real hp hreal)

theorem currentOrLatest_returns (data : PackageData) (name : String) (preferLatest : Bool) :
    (internalGetPackageCurrentOrLatest data 2 name preferLatest).isSome := by
  rw [internalGetPackageCurrentOrLatest]
  cases hget : data.packages.get name with
  | some vs => rfl
  | none =>
    cases hreal : data.realName name with
    | none => rfl
    | some real =>
      obtain ⟨vs, hvs⟩ := data.get_of_realName hreal
      simp only
      rw [currentOrLatest_of_get hvs]
      rfl

theorem matching_returns (data : PackageData) (name : String) (m : DependDef) :
    (getPackageCurrentOrLatestMatching data 4 name m).isSome := by
  have hstar : ∀ real, (internalGetPackageCurrentOrLatestMatching data 3 real false ⟨"*", none⟩
      false).isSome := by
    intro real
    rw [internalGetPackageCurrentOrLatestMatching, if_pos ⟨by decide, rfl⟩]
    exact currentOrLatest_returns data real false
  rw [getPackageCurrentOrLatestMatching, internalGetPackageCurrentOrLatestMatching]
  split_ifs with hall
  · obtain ⟨r, hr⟩ := Option.isSome_iff_exists.1 (currentOrLatest_returns data name false)
    rw [currentOrLatest_mono (show 2 ≤ 3 by omega) hr]
    rfl
  · cases hfound : (data.packages.get name).bind fun vs =>
        (vs.foundVersion false m false).map (vs.found name) with
    | some found => rfl
    | none =>
      cases hreal : data.realName name with
      | none => rfl
      | some real => exact hstar real

end Calls

end

/-!
## Loading what follows from the dependencies

`load_recursive_package_data_variables` goes through the versions of a package that are
not loaded yet. For each dependency it calls itself, and then takes over what has been
found out about the package that the dependency is resolved to. The version is
marked as loaded at the end.

The function and the lookups have a number of nested calls that they may make, and
yield `none` when it is used up.
-/

variable [Kernel]

structure LoadParams where
  loadSize : Bool
  loadWillFit : Bool
  freeBytes : ℕ

/-- `load_size` with `load_will_fit`. -/
def LoadParams.size (p : LoadParams) : Bool := p.loadWillFit || p.loadSize

def PackageData.dependName (data : PackageData) (name : String) : String :=
  match data.packages.get name with
  | some _ => name
  | none => (data.realName name).getD name

structure DependState where
  data : PackageData
  requiredDepends : StringMap DependDef
  allDepends : StringMap DependDef
  requiredSize : ℕ
  satisfiable : Bool
  /-- See `Loaded.resolved`. -/
  resolved : List (PackageRef × Bool)

def mergeDepends (m : StringMap DependDef) (deps : Option (StringMap DependDef)) :
    StringMap DependDef :=
  match deps with
  | none => m
  | some deps => deps.entries.foldl (fun m e => m.set e.1 e.2) m

def DependState.takeOver (s : DependState) (loadSize : Bool) (name : String) (m : DependDef)
    (dep : Lookup) : DependState :=
  let allDepends := s.allDepends.set name m
  let requiredDepends := if dep.isCurrent then s.requiredDepends else s.requiredDepends.set name m
  match dep.ret.bind s.data.info with
  | none =>
    { s with
      requiredDepends := requiredDepends
      allDepends := allDepends
      satisfiable := dep.isCurrent }
  | some i =>
    let allDepends := mergeDepends allDepends (i.loaded.map Loaded.allDepends)
    if dep.isCurrent then { s with requiredDepends := requiredDepends, allDepends := allDepends }
    else
      { s with
        requiredDepends := mergeDepends requiredDepends (i.loaded.map Loaded.requiredDepends)
        allDepends := allDepends
        requiredSize :=
          if loadSize then (s.requiredSize + ((i.loaded.bind Loaded.requiredSize).getD 0)) % 2 ^ 64
          else s.requiredSize
        satisfiable := s.satisfiable && (i.loaded.map Loaded.dependsSatisfiable == some true)
        resolved := s.resolved ++ dep.ret.toList.map fun r => (r, i.loaded.isSome) }

def resolve (data : PackageData) (calls : ℕ) (name : String) (m : DependDef) : Option Lookup := do
  let dep ← getPackageCurrentOrLatestMatchingAndSatisfiable data calls name m
  if dep.ret.isNone then getPackageCurrentOrLatestMatching data calls name m else some dep

def loadDepend (load : PackageData → String → Option PackageData) (calls : ℕ) (loadSize : Bool)
    (s : DependState) (d : String × DependDef) : Option DependState := do
  let name := s.data.dependName d.1
  let data ← load s.data name
  let dep ← resolve data calls name d.2
  some ({ s with data := data }.takeOver loadSize name d.2 dep)

def ownSize (p : LoadParams) (isInstalled : Bool) (i : PackageInfo) : ℕ :=
  if isInstalled = false ∧ p.size then ((i.installedSize.bind fun s => scanUnsigned 64 s.toList).getD 0)
  else 0

def onHold (isInstalled someInstalled : Bool) (i : PackageInfo) : Bool :=
  match i.status with
  | none => false
  | some status => someInstalled && !isInstalled && decide (" hold ".toList <:+: status.toList)

def DependState.loaded (s : DependState) (p : LoadParams) : Loaded where
  requiredDepends := s.requiredDepends
  allDepends := s.allDepends
  requiredSize := if p.size then some s.requiredSize else none
  willFit := if p.loadWillFit then some (decide (s.requiredSize < p.freeBytes)) else none
  dependsSatisfiable := s.satisfiable
  resolved := s.resolved

def loadVersion (load : PackageData → String → Option PackageData) (calls : ℕ) (p : LoadParams)
    (name : String) (installed : Lookup) (data : PackageData) (version : String) :
    Option PackageData :=
  match data.info ⟨name, version⟩ with
  | none => some data
  | some i =>
    if i.loaded.isSome then some data
    else do
      let isInstalled := installed.isCurrent && (installed.matchingVersion == some version)
      let s ← (dependList i.depends).foldlM (loadDepend load calls p.size)
        ⟨data, .empty, .empty, ownSize p isInstalled i, !onHold isInstalled installed.isCurrent i,
          []⟩
      some (s.data.setLoaded ⟨name, version⟩ (s.loaded p))

def loadRecursivePackageDataVariables (p : LoadParams) :
    ℕ → PackageData → String → Option PackageData
  | 0, _, _ => none
  | calls + 1, data, name => do
    let installed ← getPackageCurrentOrLatest data calls name
    match data.packages.get name with
    | none => some data
    | some vs => vs.infos.keys.foldlM (loadVersion
        (loadRecursivePackageDataVariables p calls) calls p name installed) data

end Gpkg

end Gargoyle
