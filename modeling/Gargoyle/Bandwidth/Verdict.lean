import Gargoyle.Bandwidth.GetCtl
import Gargoyle.Bandwidth.RuleRegistry

/-!
# The verdict of a rule with a cutoff

A rule with a cutoff matches if the counter that the packet was charged to is
beyond it. It also matches if `current_bandwidth` of its own record is, and this
number goes its own way: only a rule of the type COMBINED counts in it, an interval
reset clears it in one of the two records of an id, and a set request writes it. For
a rule that matches below its cutoff and counts by address it stays at zero, so that
the rule matches whatever has been counted.
-/

namespace Gargoyle

namespace Bandwidth

namespace NftBandwidthInfo

/-- What `match_found` asks of a value. -/
def Beyond (info : NftBandwidthInfo) (v : ℕ) : Prop :=
  match info.cmp with
  | .gt => v > info.bandwidthCutoff
  | .lt => v < info.bandwidthCutoff
  | .monitor => False
  | .check => False

theorem beyond_of_rule {info info' : NftBandwidthInfo} (h : info'.rule = info.rule) (v : ℕ) :
    info'.Beyond v ↔ info.Beyond v := by
  have hbeyond : info'.rule.Beyond v ↔ info.rule.Beyond v := by rw [h]
  exact hbeyond

/-- `current_bandwidth` when a packet has been counted. -/
def countedCurrent (info : NftBandwidthInfo) (len : ℕ) : ℕ :=
  if info.type = .combined then addUpToMax info.currentBandwidth len false
  else info.currentBandwidth

end NftBandwidthInfo

section

variable [Kernel]

/-! ## A clock that has gone back keeps the rules -/

theorem adjustIpForBackwardsTimeShift_sameRules (now previous : ℤ) (s : IdUnit × Bool)
    (e : String × BwHistory) :
    s.1.SameRules (adjustIpForBackwardsTimeShift now previous s e).1 := by
  by_cases hone : e.2.numNodes = 1
  · simp only [adjustIpForBackwardsTimeShift, if_pos hone]
    split
    · exact ⟨rfl, rfl⟩
    · exact IdUnit.SameRules.refl s.1
  · by_cases hend : e.2.lastEnd < now
    · simp only [adjustIpForBackwardsTimeShift, if_neg hone, if_pos hend]
      exact IdUnit.SameRules.refl s.1
    · simp only [adjustIpForBackwardsTimeShift, if_neg hone, if_neg hend]
      generalize rebuildHistory _ _ _ _ _ _ _ _ = rebuilt
      split
      · exact IdUnit.SameRules.trans ⟨rfl, rfl⟩
          (IdUnit.Agree.setCombinedBw NftBandwidthInfo.unaccounted_rule _ _)
      · exact ⟨rfl, rfl⟩

theorem adjustIdForBackwardsTimeShift_sameRules (now : ℤ) (u : IdUnit) :
    u.SameRules (adjustIdForBackwardsTimeShift now u) := by
  have hall : ∀ (previous : ℤ) (es : List (String × BwHistory)) (s : IdUnit × Bool),
      s.1.SameRules (es.foldl (adjustIpForBackwardsTimeShift now previous) s).1 := by
    intro previous es
    induction es with
    | nil => exact fun s => IdUnit.SameRules.refl s.1
    | cons e es ih =>
      exact fun s => (adjustIpForBackwardsTimeShift_sameRules now previous s e).trans (ih _)
  unfold adjustIdForBackwardsTimeShift
  split_ifs
  · exact IdUnit.SameRules.refl u
  · cases u.maps.ipHistoryMap with
    | none =>
      simp only
      split_ifs
      · exact ⟨rfl, rfl⟩
      · exact IdUnit.SameRules.refl u
    | some histories => exact hall _ _ (u, false)

namespace ModuleState

theorem keepsRules_checkForBackwardsTimeShift (m : ModuleState) (now : ℤ) :
    KeepsRules m (m.checkForBackwardsTimeShift now) := by
  simp only [checkForBackwardsTimeShift]
  split_ifs
  · have hadjust := keepsRules_applyToEveryId m
      (adjustIdForBackwardsTimeShift_sameRules (now - m.clock.localSecondsWest))
    exact ⟨⟨hadjust.idMap, hadjust.pointers⟩, hadjust.nextIam, hadjust.rules⟩
  · exact ⟨⟨rfl, fun _ => rfl⟩, rfl, fun _ => rfl⟩

theorem keepsRules_timeChecks (m : ModuleState) (t : Tick) : KeepsRules m (m.timeChecks t) := by
  unfold timeChecks
  split_ifs
  · exact KeepsRules.refl m
  · exact (keepsRules_checkForTimezoneShift m t).trans
      (keepsRules_checkForBackwardsTimeShift _ t.now)

end ModuleState

/-! ## The counter that is charged -/

namespace IdUnit

variable {u v : IdUnit} {other : Bool} {priv : NftBandwidthInfo} {x : ℕ}

def chargedCell (u : IdUnit) (priv : NftBandwidthInfo) (ips : String × String) : Option Cell :=
  if priv.type = .combined then priv.combinedBw else u.maps.ipMap.get (bwIp ips)

def countedValue (u : IdUnit) (priv : NftBandwidthInfo) (ips : String × String) (len : ℕ) : ℕ :=
  match u.chargedCell priv ips with
  | none => len
  | some c => addUpToMax ((u.maps.cells.load c).getD 0) len false

/-- The updated value of the counter that a packet has been charged to, which one
of `bws[0]` and `bws[1]` points to. -/
def chargedCounter (e : IdUnit × Option Cell × Option Cell) : Option ℕ :=
  (e.2.1.or e.2.2).bind e.1.maps.cells.load

theorem load_addToCell {c : Cell} {len : ℕ}
    (h : (u.addToCell c len false).maps.cells.load c = some x) :
    x = addUpToMax ((u.maps.cells.load c).getD 0) len false := by
  unfold addToCell at h
  cases hload : u.maps.cells.load c with
  | none =>
    rw [hload] at h
    exact absurd (hload.symm.trans h) (Option.some_ne_none x).symm
  | some y =>
    rw [hload] at h
    simp only at h
    rw [Arena.load_store_self _ _ hload] at h
    exact (Option.some.inj h).symm

theorem load_initializedMaps {ip : String} {bw family : ℕ}
    (h : (initializedMaps u ip bw family).cells.load (newCounter u ip).1 = some x) : x = bw := by
  have hstored : ∀ {cells : Arena ℕ},
      (cells.store (newCounter u ip).1 bw).load (newCounter u ip).1 = some x → x = bw := by
    intro cells hcells
    rw [Arena.load_store, if_pos rfl] at hcells
    obtain ⟨-, -, heq⟩ := Option.map_eq_some_iff.1 hcells
    exact heq.symm
  simp only [initializedMaps] at h
  split at h
  · split_ifs at h
    · rw [Arena.load_free] at h
      split_ifs at h
      exact hstored h
    · exact hstored h
  · exact hstored h

theorem current_newEntry (u : IdUnit) (ip : String) (bw family : ℕ) (other : Bool) :
    ((initializeMapEntriesForIp u ip bw family).1.record other).map (·.currentBandwidth) =
      (u.record other).map (·.currentBandwidth) := by
  simp only [initializeMapEntriesForIp]
  split_ifs
  · cases other with
    | false => rfl
    | true =>
      simp only [record, setCombinedBw, Option.map_map]
      rfl
  · cases other <;> rfl

theorem record_addToCell (u : IdUnit) (c : Cell) (len : ℕ) (isCheck : Bool) (other : Bool) :
    (u.addToCell c len isCheck).record other = u.record other := by
  unfold addToCell
  split
  · cases other <;> rfl
  · rfl

theorem current_modifyRecord (u : IdUnit) (len : ℕ) (other : Bool) :
    ((u.modifyRecord (·.addToCurrent len false) other).record other).map (·.currentBandwidth) =
      ((u.record other).map (·.currentBandwidth)).map fun x => addUpToMax x len false := by
  cases other with
  | false => rfl
  | true =>
    simp only [record, modifyRecord, Option.map_map]
    rfl

theorem cells_modifyRecord (u : IdUnit) (f : NftBandwidthInfo → NftBandwidthInfo) (other : Bool) :
    (u.modifyRecord f other).maps = u.maps := by
  cases other <;> rfl

/-- What is charged to all addresses together. -/
theorem countPacket_combined (hpriv : v.record other = some priv) (htype : priv.type = .combined)
    (ips : NftBandwidthInfo → String × String) (family len : ℕ)
    (hx : chargedCounter (v.countPacket other ips family len false) = some x) :
    x = v.countedValue priv (ips priv) len ∧
      ((v.countPacket other ips family len false).1.record other).map (·.currentBandwidth) =
        some (priv.countedCurrent len) := by
  have hcount : v.countPacket other ips family len false =
      ((v.chargeCombined priv len false).1.modifyRecord (·.addToCurrent len false) other,
        (v.chargeCombined priv len false).2, none) := by
    simp only [countPacket, hpriv, if_pos htype]
  rw [hcount, chargedCounter] at hx
  simp only [Option.or_none, cells_modifyRecord] at hx
  rw [hcount, current_modifyRecord, NftBandwidthInfo.countedCurrent, if_pos htype, countedValue,
    chargedCell, if_pos htype]
  unfold chargeCombined at hx ⊢
  cases hcombined : priv.combinedBw with
  | none =>
    rw [hcombined] at hx
    simp only [Option.bind_some, newEntry_maps] at hx
    refine ⟨load_initializedMaps hx, ?_⟩
    rw [current_newEntry, hpriv]
    rfl
  | some c =>
    rw [hcombined] at hx
    refine ⟨load_addToCell hx, ?_⟩
    rw [record_addToCell, hpriv]
    rfl

/-- What is charged to an address of its own. -/
theorem countPacket_individual (hpriv : v.record other = some priv)
    (htype : priv.type ≠ .combined) (hcmp : priv.cmp ≠ .monitor)
    (ips : NftBandwidthInfo → String × String) (family len : ℕ)
    (hx : chargedCounter (v.countPacket other ips family len false) = some x) :
    x = v.countedValue priv (ips priv) len ∧
      ((v.countPacket other ips family len false).1.record other).map (·.currentBandwidth) =
        some (priv.countedCurrent len) := by
  by_cases hip : bwIp (ips priv) = combinedIp
  · have hcount : v.countPacket other ips family len false =
        (v.chargeMonitor priv len false, none, none) := by
      simp [countPacket, hpriv, htype, hip]
    rw [hcount] at hx
    cases hx
  · have hcharge : ∃ bws : Option Cell × Option Cell,
        v.countPacket other ips family len false =
          ((v.chargeIp (bwIp (ips priv)) len false family).1, bws) ∧
        bws.1.or bws.2 = (v.chargeIp (bwIp (ips priv)) len false family).2 := by
      simp only [countPacket, hpriv, if_neg htype, chargeMonitor_of_ne v hcmp, if_pos hip]
      split_ifs
      · exact ⟨_, rfl, Option.none_or⟩
      · exact ⟨_, rfl, Option.or_none⟩
    obtain ⟨bws, hcount, hbws⟩ := hcharge
    rw [hcount, chargedCounter, hbws] at hx
    rw [hcount, NftBandwidthInfo.countedCurrent, if_neg htype, countedValue, chargedCell,
      if_neg htype]
    unfold chargeIp at hx ⊢
    cases hcell : v.maps.ipMap.get (bwIp (ips priv)) with
    | none =>
      rw [hcell] at hx
      simp only [Bool.false_eq_true, if_false, Option.bind_some, newEntry_maps] at hx ⊢
      refine ⟨load_initializedMaps hx, ?_⟩
      rw [current_newEntry, hpriv]
      rfl
    | some c =>
      rw [hcell] at hx
      refine ⟨load_addToCell hx, ?_⟩
      rw [record_addToCell, hpriv]
      rfl

theorem countPacket_bws (v : IdUnit) (other : Bool) (ips : NftBandwidthInfo → String × String)
    (family len : ℕ) (isCheck : Bool) :
    (v.countPacket other ips family len isCheck).2.1 = none ∨
      (v.countPacket other ips family len isCheck).2.2 = none := by
  unfold countPacket
  split
  · exact .inl rfl
  · simp only
    split_ifs
    · exact .inr rfl
    · exact .inl rfl
    · exact .inr rfl
    · exact .inl rfl

/-- If `current_bandwidth` is beyond the cutoff when the packet has been counted,
the counter is. -/
def CountersAgree (v : IdUnit) (other : Bool) (pkt : Packet) : Prop :=
  ∀ priv, v.record other = some priv → priv.Beyond (priv.countedCurrent pkt.len) →
    priv.Beyond (v.countedValue priv (pkt.bwIps priv false) pkt.len)

theorem countersAgree_iff (hpriv : v.record other = some priv) (pkt : Packet) :
    v.CountersAgree other pkt ↔ (priv.Beyond (priv.countedCurrent pkt.len) →
      priv.Beyond (v.countedValue priv (pkt.bwIps priv false) pkt.len)) := by
  constructor
  · exact fun hall => hall priv hpriv
  · intro hone priv' hpriv'
    obtain rfl : priv = priv' := Option.some.inj (hpriv.symm.trans hpriv')
    exact hone

/-- A rule that counts by address and whose `current_bandwidth` is zero follows its
counter if it matches above its cutoff. If it matches below a cutoff it does so as
long as the counter is below the cutoff, too. -/
theorem countersAgree_of_zero (hpriv : v.record other = some priv) (htype : priv.type ≠ .combined)
    (hzero : priv.currentBandwidth = 0) (pkt : Packet) :
    (priv.cmp = .gt → v.CountersAgree other pkt) ∧
      (priv.cmp = .lt → (v.CountersAgree other pkt ↔ (0 < priv.bandwidthCutoff →
        v.countedValue priv (pkt.bwIps priv false) pkt.len < priv.bandwidthCutoff))) := by
  rw [countersAgree_iff hpriv, NftBandwidthInfo.countedCurrent, if_neg htype, hzero]
  constructor
  · intro hgt hbeyond
    rw [NftBandwidthInfo.Beyond, hgt] at hbeyond
    exact absurd hbeyond (Nat.not_lt_zero _)
  · intro hlt
    unfold NftBandwidthInfo.Beyond
    rw [hlt]

end IdUnit

/-! ## The verdict -/

namespace ModuleState

open IdUnit (SameRules)

variable {m : ModuleState} {p r : ℕ} {iam : InfoAndMaps} {u : IdUnit} {other : Bool}
  {priv : NftBandwidthInfo} {x : ℕ}

theorem Serves.matchFound_iff (h : m.Serves p iam u) (hr : iam.ruleOf other = some r)
    (hpriv : u.record other = some priv) {bws : Option Cell × Option Cell}
    (hone : bws.1 = none ∨ bws.2 = none) (hx : (bws.1.or bws.2).bind u.maps.cells.load = some x) :
    m.matchFound r bws = true ↔ priv.Beyond x ∨ priv.Beyond priv.currentBandwidth := by
  have hvalue : ∀ c : Option Cell, m.bwsValue priv c = c.bind u.maps.cells.load := by
    intro c
    rw [bwsValue, h.back other priv hpriv, Option.bind_some, h.iam_eq, Option.bind_some, h.maps_eq]
  have hvalues : (m.bwsValue priv bws.1).toList ++ (m.bwsValue priv bws.2).toList ++
      [priv.currentBandwidth] = [x, priv.currentBandwidth] := by
    obtain ⟨c, c'⟩ := bws
    rw [hvalue, hvalue]
    rcases hone with rfl | rfl
    · rw [Option.none_or] at hx
      rw [hx]
      rfl
    · rw [Option.or_none] at hx
      rw [hx]
      rfl
  unfold matchFound
  rw [h.record_eq hr, hpriv]
  simp only [hvalues, NftBandwidthInfo.Beyond]
  cases priv.cmp <;> simp

/-- The rule `r` has a cutoff and charges a packet to a counter, which has come to
`x` then. The id of the rule is `u` when the clock has been checked, and its record
there is `priv`. While the id is being set no packet is counted. -/
structure Charges (m : ModuleState) (r : ℕ) (t : Tick) (pkt : Packet) (iam : InfoAndMaps)
    (u : IdUnit) (other : Bool) (priv : NftBandwidthInfo) (x : ℕ) : Prop where
  serves : ∃ p, (m.timeChecks t).Serves p iam u
  rule : iam.ruleOf other = some r
  record : u.record other = some priv
  cutoff : priv.cmp = .gt ∨ priv.cmp = .lt
  open_id : ¬ (m.setInProgress = true ∧ priv.id = m.setId)
  counter : IdUnit.chargedCounter (u.evaluate other (fun priv => pkt.bwIps priv false) pkt.family
    pkt.len false (t.now - (m.timeChecks t).clock.localSecondsWest)) = some x

/-- A rule with a cutoff decides by the counter that it charges exactly when the two
counters agree in the state in which the packet is counted, after an interval reset
that was due. -/
theorem Charges.verdict_iff {t : Tick} {pkt : Packet}
    (hcharges : m.Charges r t pkt iam u other priv x) :
    ((m.bandwidthEval r t pkt).2 = true ↔ priv.Beyond x) ↔
      (u.resetIfDue other (t.now - (m.timeChecks t).clock.localSecondsWest)).CountersAgree other
        pkt := by
  obtain ⟨⟨p, h⟩, hr, hpriv, hcmp, hopen, hx⟩ := hcharges
  have hlabel : (m.infos r).map (·.label) = some priv.label := by
    rw [← (keepsRules_timeChecks m t).rules r, h.record_eq hr, hpriv]
    rfl
  obtain ⟨rulePriv, hrule, hsame⟩ := Option.map_eq_some_iff.1 hlabel
  obtain ⟨hid, hrcmp⟩ := Prod.mk.inj hsame
  have hcheck : ¬ rulePriv.cmp = .check := by
    rw [hrcmp]
    rcases hcmp with h | h
    · rw [h]
      decide
    · rw [h]
      decide
  rw [bandwidthEval_eq, bandwidthMt, hrule]
  rw [← hid] at hopen
  simp only [if_neg hopen, if_neg hcheck]
  generalize m.timeChecks t = m' at *
  generalize t.now - m'.clock.localSecondsWest = now at *
  have hreset := SameRules.resetIfDue u other now
  obtain ⟨before, hbefore, hrule₁⟩ := IdUnit.Agree.exists_record' hreset hpriv
  have hcounted := IdUnit.Agree.countPacket NftBandwidthInfo.unaccounted_rule
    (u.resetIfDue other now) other (fun priv => pkt.bwIps priv false) pkt.family pkt.len false
  -- the record and the counter when the packet has been counted
  have hcmp' : before.cmp ≠ .monitor := by
    have hcmp₁ : before.cmp = priv.cmp := congrArg (fun info => info.cmp) hrule₁
    rw [hcmp₁]
    rcases hcmp with h | h
    · rw [h]
      decide
    · rw [h]
      decide
  have hvalues :
      x = (u.resetIfDue other now).countedValue before (pkt.bwIps before false) pkt.len ∧
      (((u.resetIfDue other now).countPacket other (fun priv => pkt.bwIps priv false) pkt.family
        pkt.len false).1.record other).map (·.currentBandwidth) =
          some (before.countedCurrent pkt.len) := by
    by_cases htype : before.type = .combined
    · exact IdUnit.countPacket_combined hbefore htype _ _ _ hx
    · exact IdUnit.countPacket_individual hbefore htype hcmp' _ _ _ hx
  obtain ⟨hvalue, hcurrent⟩ := hvalues
  obtain ⟨after, hafter, hcurrent⟩ := Option.map_eq_some_iff.1 hcurrent
  obtain ⟨old, hold, hrule₂⟩ := IdUnit.Agree.exists_record hcounted hafter
  obtain rfl : before = old := Option.some.inj (hbefore.symm.trans hold)
  have hserves := h.write hreset
  have hserves' := hserves.write hcounted
  have hbws := IdUnit.countPacket_bws (u.resetIfDue other now) other
    (fun priv => pkt.bwIps priv false) pkt.family pkt.len false
  have hmatch := hserves'.matchFound_iff hr hafter hbws hx
  rw [evaluate, h.resetIfDue_eq hr, hserves.countPacket_eq hr]
  have hagree : (u.resetIfDue other now).CountersAgree other pkt ↔
      (priv.Beyond after.currentBandwidth → priv.Beyond x) := by
    rw [IdUnit.countersAgree_iff hbefore, hcurrent, hvalue,
      ← NftBandwidthInfo.beyond_of_rule hrule₁, ← NftBandwidthInfo.beyond_of_rule hrule₁]
  rw [hmatch, hagree, NftBandwidthInfo.beyond_of_rule (hrule₂.trans hrule₁),
    NftBandwidthInfo.beyond_of_rule (hrule₂.trans hrule₁)]
  constructor
  · exact fun hiff hcurrent => hiff.1 (Or.inr hcurrent)
  · exact fun himp => ⟨fun hor => hor.elim id himp, Or.inl⟩

end ModuleState

/-! ## Runs of the module -/

inductive ModuleCall
  | rule (e : RuleEvent)
  | packet (r : ℕ) (t : Tick) (pkt : Packet)
  | get (user : ByteBuffer) (len : ℕ) (t : Tick)
  | set (b : ByteBuffer) (len : ℕ) (t : Tick)

namespace ModuleState

def call (m : ModuleState) : ModuleCall → ModuleState
  | .rule e => m.apply e
  | .packet r t pkt => (m.bandwidthEval r t pkt).1
  | .get user len t => (m.nftBandwidthGetCtl user len t).1
  | .set b len t => m.nftBandwidthSetCtl b len t

/-- Every packet of a run satisfies `P` in the state it is matched in. -/
def EveryPacket (P : ModuleState → ℕ → Tick → Packet → Prop) :
    ModuleState → List ModuleCall → Prop
  | _, [] => True
  | m, .packet r t pkt :: calls =>
    P m r t pkt ∧ EveryPacket P (m.call (.packet r t pkt)) calls
  | m, c :: calls => EveryPacket P (m.call c) calls

def VerdictFollows (m : ModuleState) (r : ℕ) (t : Tick) (pkt : Packet) : Prop :=
  ∀ iam u other priv x, m.Charges r t pkt iam u other priv x →
    ((m.bandwidthEval r t pkt).2 = true ↔ priv.Beyond x)

def AgreeAbout (m : ModuleState) (r : ℕ) (t : Tick) (pkt : Packet) : Prop :=
  ∀ iam u other priv x, m.Charges r t pkt iam u other priv x →
    (u.resetIfDue other (t.now - (m.timeChecks t).clock.localSecondsWest)).CountersAgree other pkt

theorem verdictFollows_iff_agree (m : ModuleState) (r : ℕ) (t : Tick) (pkt : Packet) :
    m.VerdictFollows r t pkt ↔ m.AgreeAbout r t pkt := by
  constructor
  · exact fun h iam u other priv x hcharges => hcharges.verdict_iff.1 (h _ _ _ _ _ hcharges)
  · exact fun h iam u other priv x hcharges => hcharges.verdict_iff.2 (h _ _ _ _ _ hcharges)

theorem everyPacket_congr {P Q : ModuleState → ℕ → Tick → Packet → Prop}
    (h : ∀ m r t pkt, P m r t pkt ↔ Q m r t pkt) (m : ModuleState) (calls : List ModuleCall) :
    m.EveryPacket P calls ↔ m.EveryPacket Q calls := by
  induction calls generalizing m with
  | nil => exact Iff.rfl
  | cons c calls ih =>
    cases c with
    | rule e => exact ih _
    | packet r t pkt => exact and_congr (h m r t pkt) (ih _)
    | get user len t => exact ih _
    | set b len t => exact ih _

/-- In a run of the module from any state every verdict is decided by the counter
that is charged, if and only if the two counters agree about every packet of the
run. -/
theorem verdicts_follow_counters_iff (m : ModuleState) (calls : List ModuleCall) :
    m.EveryPacket VerdictFollows calls ↔ m.EveryPacket AgreeAbout calls :=
  everyPacket_congr verdictFollows_iff_agree m calls

end ModuleState

end

section LowUsage

local instance verdictKernel : Kernel := referenceKernel 32

def lowUsage : NftBandwidthInfo := { sourceQuota with cmp := .lt, bandwidthCutoff := 1000 }

def lowUsageState : ModuleState :=
  (ModuleState.init ⟨1000, 0⟩).call (.rule (.load 0 .ipv4 lowUsage ⟨1000, 0⟩))

def lowUsageUnit : IdUnit :=
  { info := { lowUsage with iam := some 0 }
    otherInfo := none
    maps := IpMaps.initial 0 }

theorem lowUsageState_charges :
    lowUsageState.Charges 0 ⟨1002, 0⟩ (.ipv4 0x0501a8c0 0x08080808 1500)
      ⟨0, .ipv4, none, none, 1, IpMaps.initial 0⟩ lowUsageUnit false lowUsageUnit.info 1500 where
  serves := by
    refine ⟨0, ?_⟩
    rw [ModuleState.timeChecks_of_quiet lowUsageState (show lowUsageState.clock.Quiet ⟨1002, 0⟩ by decide)]
    refine ModuleState.Serves.withClock ?_ _
    refine ⟨rfl, rfl, rfl, rfl, by simp, ?_⟩
    intro other info hinfo
    cases other with
    | false =>
      obtain rfl := Option.some.inj hinfo
      rfl
    | true => cases hinfo
  rule := rfl
  record := rfl
  cutoff := Or.inr rfl
  open_id := by decide
  counter := by decide

/-- The first packet that is charged to its source has 1500 bytes, and the rule
matches. -/
theorem low_usage_matches_above :
    ¬ (ModuleState.init ⟨1000, 0⟩).EveryPacket ModuleState.VerdictFollows
      [.rule (.load 0 .ipv4 lowUsage ⟨1000, 0⟩),
        .packet 0 ⟨1002, 0⟩ (.ipv4 0x0501a8c0 0x08080808 1500)] := by
  rintro ⟨hfollows, -⟩
  have hmatches : (lowUsageState.bandwidthEval 0 ⟨1002, 0⟩
      (.ipv4 0x0501a8c0 0x08080808 1500)).2 = true := by decide
  have hbelow : 1500 < 1000 := (hfollows _ _ _ _ _ lowUsageState_charges).1 hmatches
  exact absurd hbelow (by decide)

end LowUsage

end Bandwidth

end Gargoyle
