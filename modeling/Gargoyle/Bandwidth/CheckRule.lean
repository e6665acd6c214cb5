import Gargoyle.Bandwidth.Charging
import Gargoyle.Bandwidth.SetRequest

/-!
# Check rules

A check rule evaluates a packet against the id it names without counting it.
With `is_check` set every addition writes back the value that was there, so the
evaluation leaves the module as the checks of the clock left it. There is one
exception: a combined counter that does not exist yet is created, and charged
with the packet, on behalf of the check.
-/

namespace Gargoyle

namespace Bandwidth

section

variable [Kernel]

namespace IpMaps

def counterOf (maps : IpMaps) (k : String) : Option ℕ := maps.ipMap.valueAt maps.cells k

def historyOf (maps : IpMaps) (k : String) : Option (BwHistory × List ℕ) :=
  (maps.ipHistoryMap.bind (·.get k)).map fun h =>
    ({ h with historyData := 0 }, h.chronological maps.cells)

end IpMaps

namespace ModuleState

/-- Nothing has been accounted: the addresses, the counters and the histories of
every id and the `current_bandwidth` of every rule are the same. -/
structure SameAccounts (m m' : ModuleState) : Prop where
  addresses : ∀ p, (m'.iams p).map (·.maps.ipMap.keys) = (m.iams p).map (·.maps.ipMap.keys)
  counters : ∀ p k, (m'.iams p).map (·.maps.counterOf k) = (m.iams p).map (·.maps.counterOf k)
  histories : ∀ p k, (m'.iams p).map (·.maps.historyOf k) = (m.iams p).map (·.maps.historyOf k)
  current : ∀ r, (m'.infos r).map (·.currentBandwidth) = (m.infos r).map (·.currentBandwidth)

theorem SameAccounts.refl (m : ModuleState) : SameAccounts m m :=
  ⟨fun _ => rfl, fun _ _ => rfl, fun _ _ => rfl, fun _ => rfl⟩

theorem setIam_self {m : ModuleState} {p : ℕ} {iam : InfoAndMaps} (h : m.iams p = some iam) :
    m.setIam p iam = m := by
  refine eq_of_registered ⟨rfl, rfl, rfl, rfl, rfl, rfl⟩ (fun _ => rfl) (fun q => ?_)
  simp only [setIam]
  split_ifs with hq
  · rw [hq, h]
  · rfl

theorem setInfo_self {m : ModuleState} {r : ℕ} {info : NftBandwidthInfo}
    (h : m.infos r = some info) : m.setInfo r info = m := by
  refine eq_of_registered ⟨rfl, rfl, rfl, rfl, rfl, rfl⟩ (fun q => ?_) (fun _ => rfl)
  simp only [setInfo]
  split_ifs with hq
  · rw [hq, h]
  · rfl

theorem addToCell_check (m : ModuleState) (p : ℕ) (c : Cell) (len : ℕ) :
    m.addToCell p c len true = m := by
  unfold addToCell
  cases hiam : m.iams p with
  | none => rfl
  | some iam =>
    cases hload : iam.maps.cells.load c with
    | none => simp only [hload]
    | some v =>
      simp only [hload, addUpToMax_true, Arena.store_of_load _ hload]
      exact setIam_self hiam

theorem modifyInfo_check (m : ModuleState) (h len : ℕ) :
    m.modifyInfo h (·.addToCurrent len true) = m := by
  unfold modifyInfo
  cases hinfo : m.infos h with
  | none => rfl
  | some info =>
    have hsame : info.addToCurrent len true = info := by
      simp [NftBandwidthInfo.addToCurrent, addUpToMax_true]
    simp only [hsame]
    exact setInfo_self hinfo

theorem chargeIp_check (m : ModuleState) (p : ℕ) (ip : String) (len family : ℕ) :
    (m.chargeIp p ip len true family).1 = m := by
  unfold chargeIp
  split
  · rfl
  · exact addToCell_check m p _ len

/-- A rule that only checks changes nothing. -/
theorem countPacket_check (m : ModuleState) (h : ℕ) {priv : NftBandwidthInfo}
    (hpriv : m.infos h = some priv) (hguard : priv.type ≠ .combined ∨ priv.combinedBw ≠ none)
    (ips : NftBandwidthInfo → String × String) (family len : ℕ) :
    (m.countPacket h ips family len true).1 = m := by
  unfold countPacket
  simp only [hpriv]
  by_cases htype : priv.type = .combined
  · obtain ⟨c, hc⟩ := Option.ne_none_iff_exists'.1 (hguard.resolve_left fun h => h htype)
    have hcharge : ∀ p, (m.chargeCombined h p len true).1 = m := by
      intro p
      simp only [chargeCombined, hpriv, Option.bind_some, hc]
      exact addToCell_check m p c len
    rw [if_pos htype]
    cases priv.iam with
    | none => exact modifyInfo_check m h len
    | some p =>
      simp only [hcharge p]
      exact modifyInfo_check m h len
  · rw [if_neg htype]
    cases priv.iam with
    | none => rfl
    | some p =>
      have hmonitor : m.chargeMonitor h p priv len true = m := by
        simp [chargeMonitor]
      simp only [hmonitor]
      split_ifs
      · exact chargeIp_check m p _ len family
      · exact chargeIp_check m p _ len family
      · rfl

theorem resetIfDue_of_not_due {m : ModuleState} {h : ℕ} {priv : NftBandwidthInfo}
    (hpriv : m.infos h = some priv) {now : ℤ} (hdue : ¬ priv.Due now) :
    m.resetIfDue h now = m := by
  simp only [resetIfDue, hpriv]
  exact if_neg hdue

theorem bandwidthEval_of_check {m : ModuleState} {r : ℕ} {rulePriv : NftBandwidthInfo}
    {iam : InfoAndMaps} {t : Tick} (hr : m.infos r = some rulePriv) (hcheck : rulePriv.cmp = .check)
    (hopen : ¬ (m.setInProgress = true ∧ rulePriv.id = m.setId))
    (hiam : ((m.timeChecks t).idMap.get rulePriv.id).bind (m.timeChecks t).iams = some iam)
    (pkt : Packet) :
    (m.bandwidthEval r t pkt).1 =
      ((m.timeChecks t).evaluate iam.info
        (fun priv => pkt.bwIps priv (rulePriv.checkType = .swap)) pkt.family pkt.len true
        (t.now - (m.timeChecks t).clock.localSecondsWest)).1 := by
  rw [bandwidthEval_eq, bandwidthMt, hr]
  simp only [if_neg hopen, if_pos hcheck, hiam]

theorem sameAccounts_withClock (m : ModuleState) (c : Clock) :
    m.SameAccounts { m with clock := c } :=
  ⟨fun _ => rfl, fun _ _ => rfl, fun _ _ => rfl, fun _ => rfl⟩

theorem countPacket_check_creates {m : ModuleState} {p : ℕ} {iam : InfoAndMaps} {u : IdUnit}
    (h : m.Serves p iam u) (hcoherent : u.Coherent) (htype : u.info.type = .combined)
    (hnull : u.info.combinedBw = none) (ips : NftBandwidthInfo → String × String)
    (family len : ℕ) :
    ((m.countPacket iam.info ips family len true).1.iams p).map (·.maps.counterOf combinedIp) =
      some (some len) := by
  have hrule : iam.ruleOf false = some iam.info := rfl
  have hrecord : u.record false = some u.info := rfl
  rw [h.countPacket_eq hrule ips family len true]
  simp only [write_iams, if_true, Option.map_some, Option.some.injEq]
  rw [IdUnit.countPacket_of_combined hrecord ips family len true htype]
  have hcharge : (u.chargeCombined u.info len true).1 =
      (initializeMapEntriesForIp u combinedIp len NfProto.ipv4.code).1 := by
    simp only [IdUnit.chargeCombined, hnull]
  rw [hcharge]
  exact (IdUnit.initialize_counter hcoherent combinedIp len _ combinedIp).trans (if_pos rfl)

section Check

variable {m : ModuleState} {r p : ℕ} {t : Tick} {rulePriv : NftBandwidthInfo} {iam : InfoAndMaps}
  {u : IdUnit}

/-- A check rule accounts nothing as long as the id it names does not have to
create its combined counter; when it does, the packet is counted. The state
before is the one the checks of the clock leave, which on a quiet clock is the
state before the call. -/
theorem check_accounts_nothing_iff (hr : m.infos r = some rulePriv)
    (hcheck : rulePriv.cmp = .check)
    (hopen : ¬ (m.setInProgress = true ∧ rulePriv.id = m.setId))
    (hid : (m.timeChecks t).idMap.get rulePriv.id = some p)
    (hserves : (m.timeChecks t).Serves p iam u)
    (hdue : ¬ u.info.Due (t.now - (m.timeChecks t).clock.localSecondsWest)) (pkt : Packet) :
    (¬ (u.info.type = .combined ∧ u.info.combinedBw = none) →
      (m.timeChecks t).SameAccounts (m.bandwidthEval r t pkt).1 ∧
        (m.clock.Quiet t → m.SameAccounts (m.bandwidthEval r t pkt).1)) ∧
    (u.info.type = .combined ∧ u.info.combinedBw = none → u.Coherent →
      u.counter combinedIp ≠ some pkt.len →
      ¬ (m.timeChecks t).SameAccounts (m.bandwidthEval r t pkt).1) := by
  have hiam : ((m.timeChecks t).idMap.get rulePriv.id).bind (m.timeChecks t).iams = some iam := by
    rw [hid]
    exact hserves.iam_eq
  rw [bandwidthEval_of_check hr hcheck hopen hiam pkt, evaluate,
    resetIfDue_of_not_due hserves.info_eq hdue]
  refine ⟨fun hguard => ?_, fun hguard hcoherent hcounter hsame => ?_⟩
  · have hguard' : u.info.type ≠ .combined ∨ u.info.combinedBw ≠ none := by
      by_contra hnot
      push Not at hnot
      exact hguard hnot
    simp only
    rw [countPacket_check _ _ hserves.info_eq hguard']
    refine ⟨SameAccounts.refl _, fun hquiet => ?_⟩
    rw [timeChecks_of_quiet m hquiet]
    exact sameAccounts_withClock m _
  · have hnew := countPacket_check_creates hserves hcoherent hguard.1 hguard.2
      (fun priv => pkt.bwIps priv (rulePriv.checkType = .swap)) pkt.family pkt.len
    have hold := hsame.counters p combinedIp
    rw [hnew, hserves.iam_eq, Option.map_some, hserves.maps_eq] at hold
    exact hcounter (Option.some.inj hold).symm

end Check

end ModuleState

end

section Quota

local instance checkKernel : Kernel := referenceKernel 32

def checkedState (type : BandwidthType) : ModuleState :=
  let counting := { sourceQuota with type := type }
  let checking := { sourceQuota with cmp := .check, checkType := .swap }
  let m := ModuleState.init ⟨1000, 0⟩
  let m₁ := (m.nftBandwidthInit 0 .ipv4 counting ⟨1000, 0⟩).getD m
  (m₁.nftBandwidthInit 1 .ipv4 checking ⟨1000, 0⟩).getD m₁

def checkedUnit (type : BandwidthType) : IdUnit :=
  { info := { sourceQuota with type := type, iam := some 0 }
    otherInfo := none
    maps := IpMaps.initial 0 }

theorem checkedState_serves (type : BandwidthType) :
    ((checkedState type).timeChecks ⟨1001, 0⟩).Serves 0
      ⟨0, .ipv4, none, none, 1, IpMaps.initial 0⟩ (checkedUnit type) where
  iam_eq := rfl
  info_eq := rfl
  other_eq := rfl
  maps_eq := rfl
  distinct := by simp
  back := by
    intro other info hinfo
    cases other with
    | false =>
      obtain rfl := Option.some.inj hinfo
      rfl
    | true => cases hinfo

theorem check_of_source_accounts_nothing :
    (checkedState .individualSrc).SameAccounts
      ((checkedState .individualSrc).bandwidthEval 1 ⟨1001, 0⟩
        (.ipv4 0x08080808 0x0501a8c0 1500)).1 := by
  have hboth := ModuleState.check_accounts_nothing_iff (m := checkedState .individualSrc)
    (r := 1) (p := 0) (t := ⟨1001, 0⟩) (u := checkedUnit .individualSrc) rfl rfl (by decide) rfl
    (checkedState_serves .individualSrc) (by decide) (.ipv4 0x08080808 0x0501a8c0 1500)
  exact (hboth.1 (by decide)).2 (by decide)

/-- The first packet that a combined id is checked with is counted. -/
theorem check_creates_combined_counter :
    (checkedState .combined).clock.Quiet ⟨1001, 0⟩ ∧
      ((checkedState .combined).iams 0).map (·.maps.counterOf combinedIp) = some none ∧
      (((checkedState .combined).bandwidthEval 1 ⟨1001, 0⟩
        (.ipv4 0x08080808 0x0501a8c0 1500)).1.iams 0).map (·.maps.counterOf combinedIp) =
        some (some 1500) ∧
      ¬ (checkedState .combined).SameAccounts
        ((checkedState .combined).bandwidthEval 1 ⟨1001, 0⟩
          (.ipv4 0x08080808 0x0501a8c0 1500)).1 := by
  refine ⟨by decide, by decide, by decide, fun hsame => ?_⟩
  exact absurd (hsame.counters 0 combinedIp) (by decide)

end Quota

/-!
## A set request that is turned down

A request for an id that is not there, or whose maps are not there, is turned
down before anything is done. The test of `last_backup` comes later: by then
`combined_bw` has been detached and, when the request asks for it, all addresses
have been cleared, and neither is undone. So such a request leaves the data of
the id alone exactly when there was nothing to detach and nothing to clear.
-/

section

variable [Kernel]

namespace ModuleState

structure SameData (m m' : ModuleState) : Prop extends SameAccounts m m' where
  families : ∀ p k, (m'.iams p).map (·.maps.ipFamilyMap.get k) =
    (m.iams p).map (·.maps.ipFamilyMap.get k)
  combined : ∀ r, (m'.infos r).map (·.combinedBw) = (m.infos r).map (·.combinedBw)

/-- The request is turned down: its id is unknown, its maps are missing, or its
`last_backup` belongs to another interval. -/
def TurnedDown (m : ModuleState) (b : ByteBuffer) : Prop :=
  ∀ p u, m.setTarget (parseSetHeader b) = some (p, u) →
    backupRejected (parseSetHeader b) m.clock.localMinutesWest u.info = true

def NothingToPrepare (m : ModuleState) (b : ByteBuffer) : Prop :=
  ∀ p u, m.setTarget (parseSetHeader b) = some (p, u) →
    u.info.combinedBw = none ∧ (∀ o, u.otherInfo = some o → o.combinedBw = none) ∧
      ((parseSetHeader b).zeroUnsetIps = true → (parseSetHeader b).nextIpIndex = 0 →
        u.maps.ipMap.keys = [])

theorem SameData.of_clock {m : ModuleState} {c : Clock} {inProgress : Bool} :
    SameData m { m with clock := c, setInProgress := inProgress } :=
  ⟨⟨fun _ => rfl, fun _ _ => rfl, fun _ _ => rfl, fun _ => rfl⟩, fun _ _ => rfl, fun _ => rfl⟩

theorem SameData.trans {m m' m'' : ModuleState} (h : SameData m m') (h' : SameData m' m'') :
    SameData m m'' :=
  ⟨⟨fun p => (h'.addresses p).trans (h.addresses p),
      fun p k => (h'.counters p k).trans (h.counters p k),
      fun p k => (h'.histories p k).trans (h.histories p k),
      fun r => (h'.current r).trans (h.current r)⟩,
    fun p k => (h'.families p k).trans (h.families p k),
    fun r => (h'.combined r).trans (h.combined r)⟩

theorem SameData.symm {m m' : ModuleState} (h : SameData m m') : SameData m' m :=
  ⟨⟨fun p => (h.addresses p).symm, fun p k => (h.counters p k).symm,
      fun p k => (h.histories p k).symm, fun r => (h.current r).symm⟩,
    fun p k => (h.families p k).symm, fun r => (h.combined r).symm⟩

end ModuleState

/-! ### Nothing to prepare -/

theorem IdUnit.setCombinedBw_none {u : IdUnit} (hinfo : u.info.combinedBw = none)
    (hother : ∀ o, u.otherInfo = some o → o.combinedBw = none) : u.setCombinedBw none = u := by
  have hself : ∀ info : NftBandwidthInfo, info.combinedBw = none →
      { info with combinedBw := none } = info := by
    intro info h
    rw [← h]
  obtain ⟨info, otherInfo, maps⟩ := u
  simp only [setCombinedBw, IdUnit.mk.injEq, and_true]
  refine ⟨hself info hinfo, ?_⟩
  cases otherInfo with
  | none => rfl
  | some o => exact congrArg some (hself o (hother o rfl))

theorem clearAllIps_of_empty {u : IdUnit} (hsave : u.info.numIntervalsToSave = 0)
    (h : u.maps.ipMap.keys = []) : clearAllIps u = u := by
  have hentries : u.maps.ipMap.entries = [] := List.map_eq_nil_iff.1 h
  rw [clearAllIps, if_neg (by omega), hentries]
  rfl

omit [Kernel] in
theorem unsaved_of_backupRejected {header : SetHeader} {west : ℤ} {info : NftBandwidthInfo}
    (h : backupRejected header west info = true) : info.numIntervalsToSave = 0 := by
  simp only [backupRejected, Bool.and_eq_true, decide_eq_true_eq] at h
  exact h.1.1.2

namespace ModuleState

variable {m : ModuleState} {b : ByteBuffer}

theorem nftBandwidthSetCtl_of_turnedDown {len : ℕ} {t : Tick}
    (hdown : (m.timeChecksCtl t).TurnedDown b) (hlen : ¬ len < setHeaderLength) :
    m.nftBandwidthSetCtl b len t =
      match (m.timeChecksCtl t).setTarget (parseSetHeader b) with
      | none => { m.timeChecksCtl t with setInProgress := false }
      | some s =>
        { (m.timeChecksCtl t).onUnit s.1 (prepareSet (parseSetHeader b)) with
          setInProgress := false } := by
  simp only [nftBandwidthSetCtl, if_neg hlen]
  cases htarget : (m.timeChecksCtl t).setTarget (parseSetHeader b) with
  | none => rfl
  | some s =>
    have hrejected := hdown s.1 s.2 htarget
    rw [← backupRejected_prepareSet] at hrejected
    simp only [if_pos hrejected]

theorem prepareSet_of_nothing {p : ℕ} {u : IdUnit} (hnothing : m.NothingToPrepare b)
    (htarget : m.setTarget (parseSetHeader b) = some (p, u))
    (hsave : u.info.numIntervalsToSave = 0) : prepareSet (parseSetHeader b) u = u := by
  obtain ⟨hinfo, hother, hempty⟩ := hnothing p u htarget
  simp only [prepareSet, IdUnit.setCombinedBw_none hinfo hother]
  split_ifs with hclear
  · exact clearAllIps_of_empty hsave (hempty hclear.1 hclear.2)
  · rfl

/-- A request that changes nothing had nothing to prepare. -/
theorem nothingToPrepare_of_sameData {p : ℕ} {u : IdUnit}
    (htarget : m.setTarget (parseSetHeader b) = some (p, u))
    (hsave : u.info.numIntervalsToSave = 0)
    (hsame : m.SameData (m.onUnit p (prepareSet (parseSetHeader b)))) :
    u.info.combinedBw = none ∧ (∀ o, u.otherInfo = some o → o.combinedBw = none) ∧
      ((parseSetHeader b).zeroUnsetIps = true → (parseSetHeader b).nextIpIndex = 0 →
        u.maps.ipMap.keys = []) := by
  obtain ⟨-, hunit⟩ := setTarget_eq_some htarget
  obtain ⟨iam, hiam, hinfo, hother, hmaps⟩ := unit_eq_some hunit
  have hwrite : m.onUnit p (prepareSet (parseSetHeader b)) =
      m.write p iam (prepareSet (parseSetHeader b) u) := by
    simp only [onUnit, hiam, hunit]
    rfl
  rw [hwrite] at hsame
  refine ⟨?_, fun o ho => ?_, fun hzero hfirst => ?_⟩
  · have hcombined := hsame.combined iam.info
    rw [write_infos, if_pos rfl, hinfo, prepareSet_info] at hcombined
    exact (Option.some.inj hcombined).symm
  · cases hr : iam.otherInfo with
    | none =>
      rw [hr, ho] at hother
      cases hother
    | some r =>
      rw [hr, Option.bind_some, ho] at hother
      have hcombined := hsame.combined r
      rw [write_infos, hother, Option.map_some] at hcombined
      split_ifs at hcombined with hcase hcase'
      · rw [prepareSet_info] at hcombined
        exact (Option.some.inj hcombined).symm
      · rw [prepareSet_otherInfo, ho] at hcombined
        exact (Option.some.inj hcombined).symm
      · refine absurd ⟨hr, ?_⟩ hcase'
        rw [prepareSet_otherInfo, ho]
        rfl
  · have haddresses := hsame.addresses p
    rw [write_iams, if_pos rfl, hiam] at haddresses
    have hkeys : (prepareSet (parseSetHeader b) u).maps.ipMap.keys = u.maps.ipMap.keys :=
      (Option.some.inj haddresses).trans (congrArg (fun maps : IpMaps => maps.ipMap.keys) hmaps)
    rw [← hkeys]
    have hcleared : (prepareSet (parseSetHeader b) u).maps.ipMap.entries = [] := by
      rw [prepareSet, if_pos ⟨hzero, hfirst⟩]
      exact clearAllIps_unsaved _ hsave
    exact List.map_eq_nil_iff.2 hcleared

/-- A request that is turned down leaves all data alone exactly when there was
nothing to detach and nothing to clear; it then leaves the whole module alone
but for `set_in_progress`. The state before is the one the checks of the clock
leave, which on a quiet clock is the state before the call. -/
theorem rejected_set_changes_nothing_iff (m : ModuleState) (b : ByteBuffer) (len : ℕ) (t : Tick)
    (hdown : (m.timeChecksCtl t).TurnedDown b) (hlen : setHeaderLength ≤ len) :
    ((m.timeChecksCtl t).SameData (m.nftBandwidthSetCtl b len t) ↔
        (m.timeChecksCtl t).NothingToPrepare b) ∧
      (m.clock.Quiet t →
        (m.SameData (m.nftBandwidthSetCtl b len t) ↔ m.NothingToPrepare b)) ∧
      ((m.timeChecksCtl t).NothingToPrepare b →
        m.nftBandwidthSetCtl b len t = { m.timeChecksCtl t with setInProgress := false }) := by
  have hset := nftBandwidthSetCtl_of_turnedDown hdown (not_lt.2 hlen)
  have hsame : (m.timeChecksCtl t).NothingToPrepare b →
      m.nftBandwidthSetCtl b len t = { m.timeChecksCtl t with setInProgress := false } := by
    intro hnothing
    rw [hset]
    cases htarget : (m.timeChecksCtl t).setTarget (parseSetHeader b) with
    | none => rfl
    | some s =>
      have hsave := unsaved_of_backupRejected (hdown s.1 s.2 htarget)
      have hfixed := prepareSet_of_nothing hnothing htarget hsave
      simp only [onUnit_of_fixed (setTarget_eq_some htarget).2 hfixed]
  have hiff : (m.timeChecksCtl t).SameData (m.nftBandwidthSetCtl b len t) ↔
      (m.timeChecksCtl t).NothingToPrepare b := by
    constructor
    · intro hdata p u htarget
      have hsave := unsaved_of_backupRejected (hdown p u htarget)
      rw [hset, htarget] at hdata
      exact nothingToPrepare_of_sameData htarget hsave
        ⟨⟨hdata.addresses, hdata.counters, hdata.histories, hdata.current⟩, hdata.families,
          hdata.combined⟩
    · intro hnothing
      rw [hsame hnothing]
      exact SameData.of_clock
  refine ⟨hiff, fun hquiet => ?_, hsame⟩
  have hclock := timeChecksCtl_of_quiet m hquiet
  have hnothing : (m.timeChecksCtl t).NothingToPrepare b ↔ m.NothingToPrepare b := by
    rw [hclock]
    exact Iff.rfl
  rw [← hnothing, ← hiff]
  have hdata : m.SameData (m.timeChecksCtl t) := by
    rw [hclock]
    exact SameData.of_clock
  exact ⟨fun h => hdata.symm.trans h, fun h => hdata.trans h⟩

end ModuleState

end

section Minute

local instance rejectedKernel : Kernel := referenceKernel 32

def combinedMinute : NftBandwidthInfo :=
  { sourceQuota with type := .combined, resetInterval := bandwidthMinute }

def minuteState : ModuleState :=
  ((ModuleState.init ⟨10, 0⟩).nftBandwidthInit 0 .ipv4 combinedMinute ⟨10, 0⟩).getD
    (ModuleState.init ⟨10, 0⟩)

def afterPacket (m : ModuleState) (now : ℤ) (len : BitVec 32) : ModuleState :=
  (m.bandwidthEval 0 ⟨now, 0⟩ (.ipv4 0x0501a8c0 0x08080808 len)).1

def backupRequest : ByteBuffer :=
  writeId (ByteBuffer.writeFields ByteBuffer.zeros 0
    [(4, 0), (4, 0), (4, 0), (1, 0), (1, 0), (8, 100)]) 22 "quota"

theorem turnedDown_of_target {m : ModuleState} {b : ByteBuffer}
    (h : (m.setTarget (parseSetHeader b)).map (fun s => backupRejected (parseSetHeader b)
      m.clock.localMinutesWest s.2.info) = some true) : m.TurnedDown b := by
  intro p u htarget
  rw [htarget] at h
  exact Option.some.inj h

/-- Before the first packet there is nothing to detach. -/
theorem rejected_before_first_packet :
    minuteState.SameData (minuteState.nftBandwidthSetCtl backupRequest 72 ⟨30, 0⟩) := by
  refine ((ModuleState.rejected_set_changes_nothing_iff minuteState backupRequest 72 ⟨30, 0⟩
    (turnedDown_of_target (by decide)) (by decide)).2.1 (by decide)).2 ?_
  intro p u htarget
  have hempty : (minuteState.setTarget (parseSetHeader backupRequest)).map
      (fun s => (s.2.info.combinedBw, s.2.otherInfo, s.2.maps.ipMap.keys)) =
        some (none, none, []) := by
    decide
  rw [htarget, Option.map_some, Option.some.injEq, Prod.mk.injEq, Prod.mk.injEq] at hempty
  obtain ⟨hinfo, hother, hkeys⟩ := hempty
  refine ⟨hinfo, fun o ho => ?_, fun _ _ => hkeys⟩
  rw [hother] at ho
  cases ho

/-- After a packet of 100 bytes the request detaches the combined counter, and
the next packet, of 50 bytes, starts a new one. -/
theorem rejected_set_loses_count :
    ((afterPacket minuteState 20 100).timeChecksCtl ⟨30, 0⟩).TurnedDown backupRequest ∧
      ((afterPacket minuteState 20 100).iams 0).map (·.maps.counterOf combinedIp) =
        some (some 100) ∧
      ((afterPacket (afterPacket minuteState 20 100) 40 50).iams 0).map
        (·.maps.counterOf combinedIp) = some (some 150) ∧
      ((afterPacket ((afterPacket minuteState 20 100).nftBandwidthSetCtl backupRequest 72
        ⟨30, 0⟩) 40 50).iams 0).map (·.maps.counterOf combinedIp) = some (some 50) ∧
      ¬ (afterPacket minuteState 20 100).SameData
        ((afterPacket minuteState 20 100).nftBandwidthSetCtl backupRequest 72 ⟨30, 0⟩) := by
  refine ⟨turnedDown_of_target (by decide), by decide, by decide, by decide, fun hsame => ?_⟩
  exact absurd (hsame.combined 0) (by decide)

end Minute

end Bandwidth

end Gargoyle
