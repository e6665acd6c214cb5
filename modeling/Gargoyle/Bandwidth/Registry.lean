import Gargoyle.Bandwidth.TimeShift

/-!
# Loading and unloading rules

`nft_bandwidth_init` registers a rule under its id: the first counting rule of
an id gets fresh maps, and a second one of a compatible family shares them as
`other_info`. `nft_bandwidth_destroy` takes a rule out again. A check rule has a
master record of its own and is not registered.

The attributes of a rule are the fields of its master record; the subnets are
taken as they come out of `parse_ips_and_ranges`.
-/

namespace Gargoyle

namespace Bandwidth

variable [Kernel]

def IpMaps.initial (numIntervalsToSave : ℕ) : IpMaps :=
  { ipMap := HashedMap.empty
    ipHistoryMap := if numIntervalsToSave > 0 then some HashedMap.empty else none
    ipFamilyMap := HashedMap.empty
    cells := Arena.empty }

/-- `init`: the module has just been loaded. -/
def ModuleState.init (t : Tick) : ModuleState :=
  { infos := fun _ => none
    iams := fun _ => none
    nextIam := 0
    idMap := HashedMap.empty
    clock :=
      { localMinutesWest := ModuleState.minutesWest t
        localSecondsWest := 60 * ModuleState.minutesWest t
        lastLocalMwUpdate := t.now
        oldMinutesWest := t.tzMinuteswest
        backwardsCheck := 0 }
    setInProgress := false
    setId := ""
    outputIpList := none }

def familyConflict (family : NfProto) (iam : InfoAndMaps) : Bool :=
  (family ≠ .inet && (iam.infoFamily = .inet || iam.infoFamily = family)) ||
    (family = .inet && iam.infoFamily ≠ .inet) ||
    (family = .inet && iam.refCount > 1)

def substantiallyDifferent (info master : NftBandwidthInfo) : Bool :=
  info.type ≠ master.type || info.checkType ≠ master.checkType || info.cmp ≠ master.cmp ||
    info.resetIsConstantInterval ≠ master.resetIsConstantInterval ||
    info.resetInterval ≠ master.resetInterval || info.resetTime ≠ master.resetTime ||
    info.bandwidthCutoff ≠ master.bandwidthCutoff ||
    info.numIntervalsToSave ≠ master.numIntervalsToSave

namespace ModuleState

/-- The registration of a counting rule in `id_map`, with the pointer it is
given. A record that has been freed can not be compared with. -/
def register (m : ModuleState) (r : ℕ) (family : NfProto) (master : NftBandwidthInfo) :
    Option (ModuleState × ℕ) :=
  match m.idMap.get master.id with
  | some p =>
    match m.iams p with
    | some iam =>
      match m.infos iam.info with
      | some info =>
        if familyConflict family iam then none
        else if substantiallyDifferent info master then none
        else
          some ((m.setInfo r { master with combinedBw := info.combinedBw }).setIam p
            { iam with
              otherInfo := some r
              otherInfoFamily := some family
              refCount := iam.refCount + 1 }, p)
      | none => none
    | none => none
  | none =>
    let p := m.nextIam
    let registered := (m.setInfo r master).setIam p
      { info := r
        infoFamily := family
        otherInfo := none
        otherInfoFamily := none
        refCount := 1
        maps := IpMaps.initial master.numIntervalsToSave }
    some ({ registered with nextIam := p + 1, idMap := m.idMap.set master.id p }, p)

/-- The times of a record that has just been registered. `attrs` is the rule's
own record, which the checks for a time shift do not reach. -/
def startTimes (attrs master : NftBandwidthInfo) (clock : Clock) (t : Tick) :
    NftBandwidthInfo :=
  let now := t.now - 60 * clock.localMinutesWest
  if attrs.nextReset = 0 then
    let next := getNextResetTime attrs now now
    let started := { master with previousReset := now, nextReset := next }
    if attrs.lastBackupTime ≠ 0 ∧ attrs.type = .combined then
      let lastBackup := attrs.lastBackupTime - 60 * clock.localMinutesWest
      if getNextResetTime attrs lastBackup lastBackup ≠ next then
        { started with currentBandwidth := 0, lastBackupTime := 0 }
      else { started with lastBackupTime := 0 }
    else started
  else { master with previousReset := now }

/-- `nft_bandwidth_init` for the rule `r`; `none` is `-EINVAL`, which leaves the
module as it was. -/
def nftBandwidthInit (m : ModuleState) (r : ℕ) (family : NfProto) (attrs : NftBandwidthInfo)
    (t : Tick) : Option ModuleState :=
  let master := { attrs with iam := none, combinedBw := none }
  if attrs.cmp = .check then some (m.setInfo r master)
  else
    (m.register r family master).map fun registered =>
      let m' :=
        if attrs.resetInterval ≠ bandwidthNever then registered.1.checkForTimezoneShift t
        else registered.1
      match m'.infos r with
      | some info =>
        let started :=
          if attrs.resetInterval ≠ bandwidthNever then startTimes attrs info m'.clock t
          else info
        m'.setInfo r { started with iam := some registered.2 }
      | none => m'

/-- `iam->other_info` is made the record of the id, with what the record of the
rule `priv` had counted. -/
def promoteOther (m : ModuleState) (p : ℕ) (iam : InfoAndMaps) (other : ℕ)
    (priv : NftBandwidthInfo) : ModuleState :=
  let carried :=
    match m.infos other with
    | some info =>
      m.setInfo other
        { info with
          currentBandwidth := priv.currentBandwidth
          nextReset := priv.nextReset
          previousReset := priv.previousReset
          lastBackupTime := priv.lastBackupTime
          combinedBw := priv.combinedBw }
    | none => m
  carried.setIam p
    { iam with
      info := other
      infoFamily := iam.otherInfoFamily.getD iam.infoFamily
      otherInfo := none
      otherInfoFamily := none }

def freeInfo (m : ModuleState) (r : ℕ) : ModuleState :=
  { m with infos := fun r' => if r' = r then none else m.infos r' }

/-- Free an `info_and_maps`. -/
def freeIam (m : ModuleState) (p : ℕ) : ModuleState :=
  { m with iams := fun p' => if p' = p then none else m.iams p' }

/-- Take an id out of `id_map`, and free its maps unless the rule is a check
rule. -/
def unregister (m : ModuleState) (priv : NftBandwidthInfo) : ModuleState :=
  let removed := { m with idMap := m.idMap.remove priv.id }
  match m.idMap.get priv.id with
  | some p => if priv.cmp ≠ .check then removed.freeIam p else removed
  | none => removed

/-- `nft_bandwidth_destroy` for the rule `r`, which belongs to a table of the
given family. -/
def nftBandwidthDestroy (m : ModuleState) (r : ℕ) (family : NfProto) : ModuleState :=
  match m.infos r with
  | none => m
  | some priv =>
    let registered := m.idMap.get priv.id
    let m' :=
      match registered, registered.bind m.iams with
      | some p, some iam =>
        let iam' := { iam with refCount := iam.refCount - 1 }
        match iam.otherInfo with
        | some other =>
          if iam.infoFamily = family then m.promoteOther p iam' other priv
          else m.setIam p { iam' with otherInfo := none, otherInfoFamily := none }
        | none => (m.setIam p iam').unregister priv
      | _, _ => m.unregister priv
    m'.freeInfo r

end ModuleState

end Bandwidth

end Gargoyle
