import Gargoyle.Bandwidth.IpBlock

/-!
# Setting counters

`nft_bandwidth_set_ctl` and what it is made of. A request names an id and carries
blocks of addresses; the counters of the addresses are replaced by the ones in
the blocks. A history is not copied: `set_single_ip_data` starts a new one and
closes interval after interval until it has caught up with the clock.

The buffer is the one the request has been copied to. What lies past its end is
whatever is in the memory there. Indices into it are 32-bit words; the counts of
rounds are not wrapped.
-/

namespace Gargoyle

namespace Bandwidth

open ByteBuffer

structure SetHeader where
  totalIps : ℕ
  nextIpIndex : ℕ
  numIpsInBuffer : ℕ
  historyIncluded : Bool
  zeroUnsetIps : Bool
  lastBackup : ℤ
  id : String
deriving DecidableEq

def setHeaderLength : ℕ := 3 * 4 + 2 + 8 + bandwidthMaxIdLength

def parseSetHeader (b : ByteBuffer) : SetHeader where
  totalIps := readLE 4 b 0
  nextIpIndex := readLE 4 b 4
  numIpsInBuffer := readLE 4 b 8
  historyIncluded := b 12 ≠ 0
  zeroUnsetIps := b 13 ≠ 0
  lastBackup := toInt64 (readLE 8 b 14)
  id := readId b 22

variable [Kernel]

/-! ## One address -/

/-- The variables of the loop in `set_single_ip_data` that replays a history.
`history` is the entry of the address once it has been created. -/
structure ReplayState where
  unit : IdUnit
  bufferIndex : ℕ
  nextStart : ℤ
  nextEnd : ℤ
  nodeIndex : ℕ
  zeroCount : ℕ
  history : Option BwHistory

def IdUnit.setHistory (u : IdUnit) (ip : String) (h : BwHistory) (cells : Arena ℕ) : IdUnit :=
  { u with
    maps :=
      { u.maps with
        ipHistoryMap := u.maps.ipHistoryMap.map fun hm => hm.set ip h
        cells := cells } }

def BwHistory.restarted (h : BwHistory) : BwHistory :=
  { h with
    firstStart := 0
    firstEnd := 0
    lastEnd := 0
    numNodes := 1
    nonZeroNodes := 1
    currentIndex := 0 }

def ReplayState.fetch (b : ByteBuffer) (numHistoryNodes : ℕ) (s : ReplayState) :
    ℕ × ReplayState :=
  if s.nodeIndex < numHistoryNodes then
    let bw := readLE 8 b s.bufferIndex
    (bw,
      { s with
        bufferIndex := addUint32 s.bufferIndex 8
        zeroCount := if bw = 0 then s.zeroCount + 1 else 0 })
  else (0, { s with zeroCount := s.zeroCount + 1 })

def ReplayState.create (ip : String) (family bw : ℕ) (s : ReplayState) : ReplayState :=
  let u := (initializeMapEntriesForIp s.unit ip bw family).1
  { s with
    unit := u
    history := u.maps.ipHistoryMap.bind (·.get ip)
    nodeIndex := s.nodeIndex + 1 }

def ReplayState.close (ip : String) (bw : ℕ) (now : ℤ) (h : BwHistory) (s : ReplayState) :
    ReplayState :=
  let info := s.unit.info
  let updated := updateHistory s.unit.maps.cells h s.nextStart s.nextEnd info
  let cells := updated.1.store updated.2.1.current bw
  if s.zeroCount < h.maxNodes + 2 then
    { s with
      unit := s.unit.setHistory ip updated.2.1 cells
      history := some updated.2.1
      nextStart := s.nextEnd
      nextEnd := getNextResetTime info s.nextEnd s.nextEnd
      nodeIndex := s.nodeIndex + 1 }
  else
    let h' := updated.2.1.restarted
    { s with
      unit := s.unit.setHistory ip h' (cells.store h'.current 0)
      history := some h'
      nextStart := now
      nextEnd := getNextResetTime info now now
      nodeIndex := s.nodeIndex + 1 }

/-- The loop of `set_single_ip_data`. The first argument is the number of rounds
that are still allowed. -/
def replay (b : ByteBuffer) (ip : String) (family numHistoryNodes : ℕ) (now : ℤ) :
    ℕ → ReplayState → ReplayState
  | 0, s => s
  | n + 1, s =>
    if s.nextStart < now then
      let fetched := s.fetch b numHistoryNodes
      match s.history with
      | none =>
        replay b ip family numHistoryNodes now n (fetched.2.create ip family fetched.1)
      | some h =>
        if s.nodeIndex = 0 then
          replay b ip family numHistoryNodes now n (fetched.2.create ip family fetched.1)
        else if s.nextEnd < now then
          replay b ip family numHistoryNodes now n (fetched.2.close ip fetched.1 now h)
        else { fetched.2 with nodeIndex := s.nodeIndex + 1 }
    else s

def replayRounds (numHistoryNodes : ℕ) (info : NftBandwidthInfo) : ℕ :=
  numHistoryNodes + info.numIntervalsToSave + 5

/-- What `set_single_ip_data` does after the loop. -/
def finishReplay (ip : String) (words : In6Addr) (s : ReplayState) : IdUnit :=
  match s.history with
  | none => s.unit
  | some h =>
    let u := s.unit
    let info := { u.info with previousReset := s.nextStart, nextReset := s.nextEnd }
    { u with
      info :=
        if words = 0 then { info with currentBandwidth := h.node u.maps.cells h.currentIndex }
        else info
      maps := { u.maps with ipMap := u.maps.ipMap.set ip h.current } }

def setCounter (u : IdUnit) (ip : String) (words : In6Addr) (bw family : ℕ) : IdUnit :=
  let u' := (initializeMapEntriesForIp u ip bw family).1
  if words = 0 then { u' with info := { u'.info with currentBandwidth := bw } } else u'

/-- The address and the family of a block. The combined counter is the one of
`0.0.0.0` for both families. -/
def blockAddress (b : ByteBuffer) (index : ℕ) : String × ℕ :=
  let family := readLE 4 b index
  let ip := printIp family (readIp b (index + 4))
  if ip = "::" then (combinedIp, NfProto.ipv4.code) else (ip, family)

/-- `set_single_ip_data`, with the index behind the block. `west` is
`local_minutes_west`. -/
def setSingleIpData (historyIncluded : Bool) (west : ℤ) (b : ByteBuffer) (now : ℤ) (u : IdUnit)
    (index : ℕ) : IdUnit × ℕ :=
  let address := blockAddress b index
  let words := readIp b (index + 4)
  if historyIncluded then
    let numHistoryNodes := readLE 4 b (index + 20)
    if u.info.numIntervalsToSave > 0 ∧ u.maps.ipHistoryMap.isSome then
      let firstStart := toInt64 (readLE 8 b (index + 24))
      let nextStart := firstStart - 60 * west
      let s := replay b address.1 address.2 numHistoryNodes now
        (replayRounds numHistoryNodes u.info)
        { unit := u
          bufferIndex := addUint32 index (2 * 4 + 1 * 16 + 3 * 8)
          nextStart := nextStart
          nextEnd := getNextResetTime u.info nextStart nextStart
          nodeIndex := 0
          zeroCount := 0
          history := none }
      (finishReplay address.1 words s,
        addUint32 s.bufferIndex (8 * (numHistoryNodes - s.nodeIndex)))
    else
      let nodesBeforeLast := addUint32 numHistoryNodes (2 ^ 32 - 1)
      let last := addUint32 index (2 * 4 + 1 * 16 + 3 * 8 + nodesBeforeLast * 8)
      (setCounter u address.1 words (readLE 8 b last) address.2, addUint32 last 8)
  else (setCounter u address.1 words (readLE 8 b (index + 20)) address.2, addUint32 index 28)

/-! ## A request -/

/-- Take an address out of `ip_map` and `ip_family_map`; its counter is freed
unless it is a node of a history. -/
def clearIp (freeCounter : Bool) (maps : IpMaps) (e : String × Cell) : IpMaps :=
  { maps with
    ipMap := maps.ipMap.remove e.1
    ipFamilyMap := maps.ipFamilyMap.remove e.1
    cells := if freeCounter then maps.cells.free e.2.block else maps.cells }

/-- Take a history out of `ip_history_map` and free its nodes. -/
def clearHistory (maps : IpMaps) (e : String × BwHistory) : IpMaps :=
  { maps with
    ipHistoryMap := maps.ipHistoryMap.map fun hm => hm.remove e.1
    cells := maps.cells.free e.2.historyData }

def clearAllIps (u : IdUnit) : IdUnit :=
  if u.info.numIntervalsToSave > 0 then
    let cleared := u.maps.ipMap.entries.foldl (clearIp false) u.maps
    match u.maps.ipHistoryMap with
    | some histories => { u with maps := histories.entries.foldl clearHistory cleared }
    | none => { u with maps := cleared }
  else { u with maps := u.maps.ipMap.entries.foldl (clearIp true) u.maps }

/-- The first half of a request: `combined_bw` is detached, and all addresses
are cleared when that is asked for. -/
def prepareSet (header : SetHeader) (u : IdUnit) : IdUnit :=
  let u' := u.setCombinedBw none
  if header.zeroUnsetIps ∧ header.nextIpIndex = 0 then clearAllIps u' else u'

/-- The test of `last_backup`. -/
def backupRejected (header : SetHeader) (west : ℤ) (info : NftBandwidthInfo) : Bool :=
  let adjusted := header.lastBackup - 60 * west
  header.lastBackup > 0 && info.numIntervalsToSave = 0 &&
    (info.resetIsConstantInterval = false || info.resetTime ≠ 0) &&
    getNextResetTime info adjusted adjusted ≠ info.nextReset

def setBlocks (historyIncluded : Bool) (west : ℤ) (b : ByteBuffer) (now : ℤ) :
    ℕ → IdUnit → ℕ → IdUnit
  | 0, u, _ => u
  | n + 1, u, index =>
    let next := setSingleIpData historyIncluded west b now u index
    setBlocks historyIncluded west b now n next.1 next.2

def SetHeader.rounds (header : SetHeader) : ℕ :=
  addUint32 header.numIpsInBuffer header.nextIpIndex - header.nextIpIndex

/-- The second half of a request: the blocks are read, and `combined_bw` is
attached again. -/
def applySet (header : SetHeader) (west : ℤ) (b : ByteBuffer) (now : ℤ) (u : IdUnit) : IdUnit :=
  let u' := setBlocks header.historyIncluded west b now header.rounds u setHeaderLength
  u'.setCombinedBw (u'.maps.ipMap.get combinedIp)

namespace ModuleState

def setTarget (m : ModuleState) (header : SetHeader) : Option (ℕ × IdUnit) :=
  (m.idMap.get header.id).bind fun p =>
    (m.unit p).bind fun u =>
      if u.info.numIntervalsToSave > 0 ∧ u.maps.ipHistoryMap.isNone then none else some (p, u)

def nftBandwidthSetCtl (m : ModuleState) (b : ByteBuffer) (len : ℕ) (t : Tick) : ModuleState :=
  let m' := m.timeChecksCtl t
  let now := t.now - m'.clock.localSecondsWest
  let west := m'.clock.localMinutesWest
  let header := parseSetHeader b
  if len < setHeaderLength then m'
  else
    match m'.setTarget header with
    | none => { m' with setInProgress := false }
    | some (p, u) =>
      if backupRejected header west (prepareSet header u).info then
        { m'.onUnit p (prepareSet header) with setInProgress := false }
      else
        { m'.onUnit p (fun u => applySet header west b now (prepareSet header u)) with
          setInProgress := header.nextIpIndex + header.rounds ≠ header.totalIps }

end ModuleState

end Bandwidth

end Gargoyle
