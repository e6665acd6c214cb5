import Gargoyle.Bandwidth.History

/-!
# Counters of one id, and what an interval reset does to them

`initializeMapEntriesForIp` creates the entries of an address, and
`handleIntervalReset` closes the intervals that have ended. The functions that
the source applies to every element of a map (`do_reset`, `clear_ips`,
`set_bandwidth_to_zero`, `reset_histories`) are folds over the entries in
traversal order; the globals through which the source hands them their
arguments are parameters here.
-/

namespace Gargoyle

namespace Bandwidth

section

variable [Kernel]

def combinedIp : String := "0.0.0.0"

namespace IdUnit

/-- Set `combined_bw` in both master records. -/
def setCombinedBw (u : IdUnit) (c : Option Cell) : IdUnit :=
  { u with
    info := { u.info with combinedBw := c }
    otherInfo := u.otherInfo.map fun o => { o with combinedBw := c } }

def cellOf (u : IdUnit) (ip : String) : Option Cell := u.maps.ipMap.get ip

def counter (u : IdUnit) (ip : String) : Option ℕ := (u.cellOf ip).bind u.maps.cells.load

end IdUnit

/-- The cell `initialize_map_entries_for_ip` obtains for a counter, with the
history map it leaves behind: a cell of its own, or the current node of a new
history that takes the place of an old one. -/
def newCounter (u : IdUnit) (ip : String) : Cell × Option (StringMap BwHistory) × Arena ℕ :=
  match u.maps.ipHistoryMap with
  | some histories =>
    if u.info.numIntervalsToSave = 0 then
      let cells := u.maps.cells.alloc [Kernel.junk]
      (⟨cells.2, 0⟩, some histories, cells.1)
    else
      let new := initializeHistory u.maps.cells u.info.numIntervalsToSave
      let cells :=
        match histories.get ip with
        | some old => new.1.free old.historyData
        | none => new.1
      (new.2.current, some (histories.set ip new.2), cells)
  | none =>
    let cells := u.maps.cells.alloc [Kernel.junk]
    (⟨cells.2, 0⟩, none, cells.1)

/-- The maps `initialize_map_entries_for_ip` leaves behind. The counter an
address had before is freed, unless it is a node of a history. -/
def initializedMaps (u : IdUnit) (ip : String) (initialBandwidth family : ℕ) : IpMaps :=
  let new := newCounter u ip
  let written := new.2.2.store new.1 initialBandwidth
  { ipMap := u.maps.ipMap.set ip new.1
    ipHistoryMap := new.2.1
    ipFamilyMap := u.maps.ipFamilyMap.set ip family
    cells :=
      match u.maps.ipMap.get ip with
      | some oldBw => if u.info.numIntervalsToSave = 0 then written.free oldBw.block else written
      | none => written }

/-- `initialize_map_entries_for_ip`, with the cell it returns. -/
def initializeMapEntriesForIp (u : IdUnit) (ip : String) (initialBandwidth family : ℕ) :
    IdUnit × Cell :=
  let u' : IdUnit := { u with maps := initializedMaps u ip initialBandwidth family }
  let c := (newCounter u ip).1
  (if ip = combinedIp then u'.setCombinedBw (some c) else u', c)

theorem newEntry_maps (u : IdUnit) (ip : String) (bw family : ℕ) :
    (initializeMapEntriesForIp u ip bw family).1.maps = initializedMaps u ip bw family := by
  simp only [initializeMapEntriesForIp]
  split_ifs <;> rfl

/-- `set_bandwidth_to_zero` on every element of `ip_map`. -/
def zeroAllBandwidth (maps : IpMaps) : IpMaps :=
  { maps with cells := maps.cells.fill (maps.ipMap.entries.map Prod.snd) 0 }

/-- What `do_reset` works on: the counters and histories of an id, and the
addresses scheduled for deletion. -/
structure ResetState where
  ipMap : StringMap Cell
  histories : StringMap BwHistory
  cells : Arena ℕ
  deleteIps : StringMap Cell

/-- `do_reset` on one history. -/
def doReset (info : NftBandwidthInfo) (intervalStart intervalEnd : ℤ) (s : ResetState)
    (e : String × BwHistory) : ResetState :=
  let updated := updateHistory s.cells e.2 intervalStart intervalEnd info
  let histories := s.histories.set e.1 updated.2.1
  if updated.2.2 = false then
    { s with
      histories := histories
      cells := updated.1
      deleteIps := s.deleteIps.set e.1 updated.2.1.current }
  else
    { s with
      ipMap := s.ipMap.set e.1 updated.2.1.current
      histories := histories
      cells := updated.1 }

/-- `clear_ips` on one address scheduled for deletion. -/
def clearIps (maps : IpMaps) (histories : StringMap BwHistory) (e : String × Cell) :
    IpMaps × StringMap BwHistory :=
  let cells :=
    match histories.get e.1 with
    | some h => maps.cells.free h.historyData
    | none => maps.cells
  ({ maps with
      ipMap := maps.ipMap.remove e.1
      ipFamilyMap := maps.ipFamilyMap.remove e.1
      cells := cells }, histories.remove e.1)

/-- `reset_histories` on one history. -/
def resetHistories (s : IpMaps × StringMap BwHistory) (e : String × BwHistory) :
    IpMaps × StringMap BwHistory :=
  let h : BwHistory :=
    { e.2 with
      firstStart := 0
      firstEnd := 0
      lastEnd := 0
      numNodes := 1
      nonZeroNodes := 1
      currentIndex := 0 }
  ({ s.1 with
      ipMap := s.1.ipMap.set e.1 h.current
      cells := s.1.cells.store h.current 0 }, s.2.set e.1 h)

/-- One round of the loop of `handle_interval_reset`: close the running interval
of every history, and on the last round forget the addresses whose saved nodes
are all zero. -/
def closeInterval (u : IdUnit) (histories : StringMap BwHistory) (now : ℤ) : IdUnit :=
  let s := histories.entries.foldl (doReset u.info u.info.previousReset u.info.nextReset)
    ⟨u.maps.ipMap, histories, u.maps.cells, HashedMap.empty⟩
  let info :=
    { u.info with
      previousReset := u.info.nextReset
      nextReset := getNextResetTime u.info u.info.nextReset u.info.nextReset }
  let maps := { u.maps with ipMap := s.ipMap, cells := s.cells }
  let cleared :=
    if info.nextReset ≥ now then
      s.deleteIps.entries.foldl (fun t e => clearIps t.1 t.2 e) (maps, s.histories)
    else (maps, s.histories)
  { u with info := info, maps := { cleared.1 with ipHistoryMap := some cleared.2 } }

/-- The loop of `handle_interval_reset`. The first argument is the number of
rounds that are still allowed. -/
def closeIntervals (now : ℤ) : ℕ → IdUnit → IdUnit
  | 0, u => u
  | n + 1, u =>
    match u.maps.ipHistoryMap with
    | some histories =>
      if u.info.nextReset ≤ now then closeIntervals now n (closeInterval u histories now)
      else u
    | none => u

/-- The end of `handle_interval_reset` for saved intervals: when all of them
have been cycled past, every history is wiped. -/
def wipeHistories (u : IdUnit) (now : ℤ) : IdUnit :=
  match u.maps.ipHistoryMap with
  | some histories =>
    if u.info.nextReset ≤ now then
      let wiped := histories.entries.foldl resetHistories (u.maps, histories)
      { u with
        info :=
          { u.info with
            previousReset := now
            nextReset := getNextResetTime u.info now now }
        maps := { wiped.1 with ipHistoryMap := some wiped.2 } }
    else u
  | none => u

def nextResetUnsaved (info : NftBandwidthInfo) (now : ℤ) : ℤ :=
  if info.nextReset ≤ now then
    let next := getNextResetTime info info.previousReset info.previousReset
    if next ≤ now then getNextResetTime info now info.previousReset else next
  else info.nextReset

/-- The last statements of `handle_interval_reset`. -/
def finishReset (u : IdUnit) : IdUnit :=
  let u' := u.setCombinedBw (u.maps.ipMap.get combinedIp)
  { u' with info := { u'.info with currentBandwidth := 0 } }

def handleIntervalReset (now : ℤ) (u : IdUnit) : IdUnit :=
  if u.info.numIntervalsToSave = 0 then
    finishReset
      { u with
        info := { u.info with nextReset := nextResetUnsaved u.info now }
        maps := zeroAllBandwidth u.maps }
  else if u.maps.ipHistoryMap.isNone then u
  else finishReset (wipeHistories (closeIntervals now u.info.numIntervalsToSave u) now)

end

/-!
## Changes of the clock and of the time zone

Before a packet is counted and before a request is served the module compares
the clock with the last time it looked. When the minutes west of Greenwich have
changed, `check_for_timezone_shift` moves the stored times of every id; when the
clock has gone back, `check_for_backwards_time_shift` takes the newest intervals
out of every history. Both walk over `id_map` in traversal order.

When neither happens the checks only take note of the time, which is
`timeChecks_of_quiet`.
-/

variable [Kernel]

/-! ### The clock has gone back -/

/-- The loop of `adjust_ip_for_backwards_time_shift` that rebuilds a history from
the nodes before `now`. The state is the memory, the history under
construction, the index in the old history, the start of the next old interval
and `previous_reset`. -/
def rebuildHistory (info : NftBandwidthInfo) (old : BwHistory) (now : ℤ) :
    ℕ → Arena ℕ × BwHistory → ℕ → ℤ → ℤ → (Arena ℕ × BwHistory) × ℤ
  | 0, new, _, _, previousReset => (new, previousReset)
  | n + 1, new, nextOldIndex, oldNextStart, previousReset =>
    if oldNextStart < now then
      let oldNextEnd := getNextResetTime info oldNextStart oldNextStart
      if oldNextEnd < now then
        let updated := updateHistory new.1 new.2 oldNextStart oldNextEnd info
        let value := old.node updated.1 (nextOldIndex + 1)
        rebuildHistory info old now n
          (updated.1.store updated.2.1.current value, updated.2.1)
          (nextOldIndex + 1) oldNextEnd oldNextStart
      else rebuildHistory info old now n new nextOldIndex oldNextEnd oldNextStart
    else (new, previousReset)

/-- `adjust_ip_for_backwards_time_shift` on one history. `infoPreviousReset` is
the previous reset of the id before the walk, and the flag says whether the
counters have been zeroed in this walk. -/
def adjustIpForBackwardsTimeShift (now infoPreviousReset : ℤ) (s : IdUnit × Bool)
    (e : String × BwHistory) : IdUnit × Bool :=
  let u := s.1
  let old := e.2
  if old.numNodes = 1 then
    if infoPreviousReset > now ∧ s.2 = false then
      ({ u with
          info :=
            { u.info with
              nextReset := getNextResetTime u.info now now
              previousReset := now
              currentBandwidth := 0 }
          maps := zeroAllBandwidth u.maps }, true)
    else s
  else if old.lastEnd < now then s
  else
    let oldNextStart := if old.firstStart = 0 then infoPreviousReset else old.firstStart
    let new := initializeHistory u.maps.cells old.maxNodes
    let nextOldIndex :=
      if old.numNodes = old.maxNodes then (old.currentIndex + 1) % old.maxNodes else 0
    let firstValue := if oldNextStart < now then old.node new.1 nextOldIndex else 0
    let start := if oldNextStart < now then oldNextStart else now
    let rebuilt := rebuildHistory u.info old now ((now - oldNextStart).toNat + 1)
      (new.1.store new.2.current firstValue, new.2) nextOldIndex oldNextStart start
    let h : BwHistory := { rebuilt.1.2 with maxNodes := old.maxNodes }
    let u' : IdUnit :=
      { u with
        info :=
          { u.info with
            previousReset := rebuilt.2
            nextReset := getNextResetTime u.info rebuilt.2 rebuilt.2 }
        maps :=
          { u.maps with
            ipMap := u.maps.ipMap.set e.1 h.current
            ipHistoryMap := u.maps.ipHistoryMap.map fun hm => hm.set e.1 h
            cells := rebuilt.1.1.free old.historyData } }
    (if e.1 = combinedIp then u'.setCombinedBw (some h.current) else u', s.2)

/-- Whether the walks over `id_map` leave an id alone. -/
def exemptFromShift (info : NftBandwidthInfo) : Bool :=
  (info.resetIsConstantInterval = false && info.resetInterval = bandwidthNever) ||
    info.cmp = .check

def adjustIdForBackwardsTimeShift (now : ℤ) (u : IdUnit) : IdUnit :=
  if exemptFromShift u.info then u
  else
    match u.maps.ipHistoryMap with
    | some histories =>
      (histories.entries.foldl (adjustIpForBackwardsTimeShift now u.info.previousReset)
        (u, false)).1
    | none =>
      let next := getNextResetTime u.info now now
      if next < u.info.nextReset then
        { u with info := { u.info with previousReset := now, nextReset := next } }
      else u

/-! ### The time zone has changed -/

/-- `n` times `get_nominal_previous_reset_time`. -/
def nominalPreviousReset (info : NftBandwidthInfo) : ℕ → ℤ → ℤ
  | 0, t => t
  | n + 1, t => nominalPreviousReset info n (getNominalPreviousResetTime info t)

/-- `shift_timezone_of_ip` on one history. `timezoneAdj` is the shift in seconds
and `infoPreviousReset` the previous reset of the id before the walk. -/
def shiftTimezoneOfIp (now timezoneAdj infoPreviousReset : ℤ) (u : IdUnit)
    (e : String × BwHistory) : IdUnit :=
  let h := e.2
  let nextReset := getNextResetTime u.info now 0
  let previousReset := getNominalPreviousResetTime u.info nextReset
  let setHistory (h' : BwHistory) : IpMaps :=
    { u.maps with ipHistoryMap := u.maps.ipHistoryMap.map fun hm => hm.set e.1 h' }
  if u.info.resetIsConstantInterval then
    let info := { u.info with nextReset := nextReset, previousReset := previousReset }
    if h.numNodes > 1 then
      { u with
        info := info
        maps := setHistory
          { h with
            firstStart := h.firstStart + timezoneAdj
            firstEnd := h.firstEnd + timezoneAdj
            lastEnd := h.lastEnd + timezoneAdj } }
    else { u with info := info }
  else if h.numNodes > 1 then
    let firstEnd := nominalPreviousReset u.info (h.numNodes - 2) previousReset
    let firstStart := getNominalPreviousResetTime u.info firstEnd
    { u with
      info := { u.info with nextReset := nextReset, previousReset := previousReset }
      maps := setHistory
        { h with
          lastEnd := previousReset
          firstEnd := firstEnd
          firstStart := max firstStart (h.firstStart + timezoneAdj) } }
  else
    { u with
      info :=
        { u.info with
          nextReset := nextReset
          previousReset := max previousReset (infoPreviousReset + timezoneAdj) } }

/-- The loop of `shift_timezone_of_id` that brings the next reset up to `now`. -/
def catchUpReset (now : ℤ) : ℕ → NftBandwidthInfo → NftBandwidthInfo
  | 0, info => info
  | n + 1, info =>
    if info.nextReset < now then
      catchUpReset now n
        { info with
          previousReset := info.nextReset
          nextReset := getNextResetTime info info.nextReset info.nextReset }
    else info

/-- `shift_timezone_of_id` for an id without histories. -/
def shiftTimezoneUnsaved (now timezoneAdj : ℤ) (info : NftBandwidthInfo) : NftBandwidthInfo :=
  let previousReset := info.previousReset + timezoneAdj
  if previousReset > now then
    { info with nextReset := getNextResetTime info now now, previousReset := now }
  else
    let nextReset := getNextResetTime info now previousReset
    catchUpReset now ((now - nextReset).toNat + 1)
      { info with previousReset := previousReset, nextReset := nextReset }

def shiftTimezoneOfId (now timezoneAdj : ℤ) (u : IdUnit) : IdUnit :=
  if exemptFromShift u.info then u
  else
    match u.maps.ipHistoryMap with
    | some histories =>
      if histories.entries.length > 0 then
        histories.entries.foldl (shiftTimezoneOfIp now timezoneAdj u.info.previousReset) u
      else { u with info := shiftTimezoneUnsaved now timezoneAdj u.info }
    | none => { u with info := shiftTimezoneUnsaved now timezoneAdj u.info }

/-! ### The checks -/

namespace ModuleState

def applyToEveryId (m : ModuleState) (f : IdUnit → IdUnit) : ModuleState :=
  m.idMap.entries.foldl (fun m e => m.onUnit e.2 f) m

def minutesWest (t : Tick) : ℤ := if 60 * t.tzMinuteswest > t.now then 0 else t.tzMinuteswest

def checkForTimezoneShift (m : ModuleState) (t : Tick) : ModuleState :=
  if t.now = m.clock.lastLocalMwUpdate then m
  else
    let west := minutesWest t
    let m' : ModuleState :=
      { m with
        clock :=
          { m.clock with
            localMinutesWest := west
            localSecondsWest := 60 * west
            lastLocalMwUpdate := t.now } }
    if west = m.clock.oldMinutesWest then m'
    else
      let shifted := m'.applyToEveryId
        (shiftTimezoneOfId (t.now - 60 * west) ((m.clock.oldMinutesWest - west) * 60))
      { shifted with clock := { m'.clock with oldMinutesWest := west } }

def checkForBackwardsTimeShift (m : ModuleState) (now : ℤ) : ModuleState :=
  let adjusted :=
    if now < m.clock.backwardsCheck ∧ m.clock.backwardsCheck ≠ 0 then
      m.applyToEveryId (adjustIdForBackwardsTimeShift (now - m.clock.localSecondsWest))
    else m
  { adjusted with clock := { m.clock with backwardsCheck := now } }

def timeChecks (m : ModuleState) (t : Tick) : ModuleState :=
  if t.now = m.clock.lastLocalMwUpdate then m
  else (m.checkForTimezoneShift t).checkForBackwardsTimeShift t.now

def timeChecksCtl (m : ModuleState) (t : Tick) : ModuleState :=
  (m.checkForTimezoneShift t).checkForBackwardsTimeShift t.now

end ModuleState

namespace Clock

def Quiet (c : Clock) (t : Tick) : Prop :=
  ModuleState.minutesWest t = c.oldMinutesWest ∧ c.localMinutesWest = c.oldMinutesWest ∧
    c.localSecondsWest = 60 * c.localMinutesWest ∧ c.backwardsCheck ≤ t.now

instance (c : Clock) (t : Tick) : Decidable (c.Quiet t) := by
  unfold Quiet
  exact inferInstance

def tick (c : Clock) (t : Tick) : Clock :=
  if t.now = c.lastLocalMwUpdate then c
  else { c with lastLocalMwUpdate := t.now, backwardsCheck := t.now }

def tickCtl (c : Clock) (t : Tick) : Clock :=
  { c with lastLocalMwUpdate := t.now, backwardsCheck := t.now }

end Clock

namespace ModuleState

theorem checkForTimezoneShift_of_quiet (m : ModuleState) {t : Tick} (h : m.clock.Quiet t) :
    m.checkForTimezoneShift t =
      { m with clock := { m.clock with lastLocalMwUpdate := t.now } } := by
  obtain ⟨hwest, hlocal, hseconds, -⟩ := h
  unfold checkForTimezoneShift
  split_ifs with hnow
  · rw [hnow]
  · simp only [hwest, if_true]
    rw [hseconds, hlocal]

theorem checkForBackwardsTimeShift_of_le (m : ModuleState) {now : ℤ}
    (h : m.clock.backwardsCheck ≤ now) :
    m.checkForBackwardsTimeShift now =
      { m with clock := { m.clock with backwardsCheck := now } } := by
  unfold checkForBackwardsTimeShift
  rw [if_neg (by omega)]

theorem timeChecksCtl_of_quiet (m : ModuleState) {t : Tick} (h : m.clock.Quiet t) :
    m.timeChecksCtl t = { m with clock := m.clock.tickCtl t } := by
  unfold timeChecksCtl
  rw [checkForTimezoneShift_of_quiet m h]
  exact checkForBackwardsTimeShift_of_le _ h.2.2.2

theorem timeChecks_of_quiet (m : ModuleState) {t : Tick} (h : m.clock.Quiet t) :
    m.timeChecks t = { m with clock := m.clock.tick t } := by
  unfold timeChecks Clock.tick
  split_ifs
  · rfl
  · exact timeChecksCtl_of_quiet m h

end ModuleState

end Bandwidth

end Gargoyle
