import Gargoyle.Bandwidth.Match

/-!
# One id at a time

A packet only touches the id of the rule it is evaluated with: the two master
records, the maps and their cells. This file runs the match functions on that
part of the module alone, as functions on `IdUnit`, and shows that the module
does the same (`evaluate_eq_write`). Everything else in the module is left alone
by a write to one id (`Serves.write_other`).

The two rules of an id are told apart by a flag: `false` is the rule behind
`iam->info`, and `true` the one behind `iam->other_info`.
-/

namespace Gargoyle

namespace Bandwidth

def NftBandwidthInfo.rule (info : NftBandwidthInfo) : NftBandwidthInfo :=
  { info with
    currentBandwidth := 0
    nextReset := 0
    previousReset := 0
    lastBackupTime := 0
    combinedBw := none }

section Rule

variable {info info' : NftBandwidthInfo}

theorem getNextResetTime_rule (info : NftBandwidthInfo) (now previousReset : ℤ) :
    getNextResetTime info.rule now previousReset = getNextResetTime info now previousReset := rfl

theorem getNextResetTime_of_rule (hrule : info'.rule = info.rule) (now previousReset : ℤ) :
    getNextResetTime info' now previousReset = getNextResetTime info now previousReset := by
  rw [← getNextResetTime_rule, hrule, getNextResetTime_rule]

theorem NftBandwidthInfo.numIntervalsToSave_of_rule (hrule : info'.rule = info.rule) :
    info'.numIntervalsToSave = info.numIntervalsToSave := by
  have hnum : info'.rule.numIntervalsToSave = info.rule.numIntervalsToSave := by rw [hrule]
  exact hnum

end Rule

def NftBandwidthInfo.schedule (info : NftBandwidthInfo) : NftBandwidthInfo :=
  { info with
    currentBandwidth := 0
    combinedBw := none }

/-- `f` does not look at what counting a packet changes in a record. -/
def NftBandwidthInfo.Unaccounted {β : Type} (f : NftBandwidthInfo → β) : Prop :=
  ∀ (info : NftBandwidthInfo) c v, f { info with combinedBw := c, currentBandwidth := v } = f info

variable [Kernel]

namespace IdUnit

def record (u : IdUnit) : Bool → Option NftBandwidthInfo
  | false => some u.info
  | true => u.otherInfo

def modifyRecord (u : IdUnit) (f : NftBandwidthInfo → NftBandwidthInfo) : Bool → IdUnit
  | false => { u with info := f u.info }
  | true => { u with otherInfo := u.otherInfo.map f }

/-- `ModuleState.addToCell` on one id. -/
def addToCell (u : IdUnit) (c : Cell) (len : ℕ) (isCheck : Bool) : IdUnit :=
  match u.maps.cells.load c with
  | some v =>
    { u with
      maps := { u.maps with cells := u.maps.cells.store c (addUpToMax v len isCheck) } }
  | none => u

/-- `ModuleState.chargeCombined` on one id, for the record `priv`. -/
def chargeCombined (u : IdUnit) (priv : NftBandwidthInfo) (len : ℕ) (isCheck : Bool) :
    IdUnit × Option Cell :=
  match priv.combinedBw with
  | none =>
    let new := initializeMapEntriesForIp u combinedIp len NfProto.ipv4.code
    (new.1, some new.2)
  | some c => (u.addToCell c len isCheck, some c)

/-- `ModuleState.chargeIp` on one id. -/
def chargeIp (u : IdUnit) (ip : String) (len : ℕ) (isCheck : Bool) (family : ℕ) :
    IdUnit × Option Cell :=
  match u.maps.ipMap.get ip with
  | none =>
    if isCheck then (u, none)
    else
      let new := initializeMapEntriesForIp u ip len family
      (new.1, some new.2)
  | some c => (u.addToCell c len isCheck, some c)

/-- `ModuleState.chargeMonitor` on one id. -/
def chargeMonitor (u : IdUnit) (priv : NftBandwidthInfo) (len : ℕ) (isCheck : Bool) : IdUnit :=
  if isCheck = false ∧ priv.cmp = .monitor then (u.chargeCombined priv len isCheck).1 else u

/-- `ModuleState.resetIfDue` on one id. -/
def resetIfDue (u : IdUnit) (other : Bool) (now : ℤ) : IdUnit :=
  match u.record other with
  | none => u
  | some priv =>
    if priv.resetInterval ≠ bandwidthNever ∧ priv.nextReset < now then handleIntervalReset now u
    else u

/-- `ModuleState.countPacket` on one id. -/
def countPacket (u : IdUnit) (other : Bool) (ips : NftBandwidthInfo → String × String)
    (family len : ℕ) (isCheck : Bool) : IdUnit × Option Cell × Option Cell :=
  match u.record other with
  | none => (u, none, none)
  | some priv =>
    if priv.type = .combined then
      let charged := u.chargeCombined priv len isCheck
      (charged.1.modifyRecord (·.addToCurrent len isCheck) other, charged.2, none)
    else
      let u' := u.chargeMonitor priv len isCheck
      if bwIp (ips priv) ≠ combinedIp then
        let charged := u'.chargeIp (bwIp (ips priv)) len isCheck family
        if bwIpIndex (ips priv) then (charged.1, none, charged.2)
        else (charged.1, charged.2, none)
      else (u', none, none)

/-- `ModuleState.evaluate` on one id. -/
def evaluate (u : IdUnit) (other : Bool) (ips : NftBandwidthInfo → String × String)
    (family len : ℕ) (isCheck : Bool) (now : ℤ) : IdUnit × Option Cell × Option Cell :=
  (u.resetIfDue other now).countPacket other ips family len isCheck

section CountPacket

variable {u : IdUnit} {other : Bool} {priv : NftBandwidthInfo} (hpriv : u.record other = some priv)
  (ips : NftBandwidthInfo → String × String) (family len : ℕ) (isCheck : Bool)
include hpriv

theorem countPacket_of_combined (htype : priv.type = .combined) :
    (u.countPacket other ips family len isCheck).1 =
      (u.chargeCombined priv len isCheck).1.modifyRecord (·.addToCurrent len isCheck) other := by
  simp [countPacket, hpriv, htype]

theorem countPacket_of_noAddress (htype : priv.type ≠ .combined)
    (hip : bwIp (ips priv) = combinedIp) :
    (u.countPacket other ips family len isCheck).1 = u.chargeMonitor priv len isCheck := by
  simp [countPacket, hpriv, htype, hip]

theorem countPacket_of_address (htype : priv.type ≠ .combined)
    (hip : bwIp (ips priv) ≠ combinedIp) :
    (u.countPacket other ips family len isCheck).1 =
      ((u.chargeMonitor priv len isCheck).chargeIp (bwIp (ips priv)) len isCheck family).1 := by
  simp only [countPacket, hpriv, if_neg htype, if_pos hip]
  split_ifs <;> rfl

end CountPacket

theorem chargeMonitor_of_monitor (u : IdUnit) {priv : NftBandwidthInfo}
    (hcmp : priv.cmp = .monitor) (len : ℕ) :
    u.chargeMonitor priv len false = (u.chargeCombined priv len false).1 := by
  simp [chargeMonitor, hcmp]

theorem chargeMonitor_of_ne (u : IdUnit) {priv : NftBandwidthInfo} (hcmp : priv.cmp ≠ .monitor)
    (len : ℕ) (isCheck : Bool) : u.chargeMonitor priv len isCheck = u := by
  simp [chargeMonitor, hcmp]

/-- The records of the two ids agree on `f`. -/
def Agree {β : Type} (f : NftBandwidthInfo → β) (u u' : IdUnit) : Prop :=
  f u'.info = f u.info ∧ u'.otherInfo.map f = u.otherInfo.map f

def SameRules (u u' : IdUnit) : Prop := Agree NftBandwidthInfo.rule u u'

theorem SameRules.saves {u u' : IdUnit} (h : u.SameRules u') :
    u'.info.numIntervalsToSave = u.info.numIntervalsToSave :=
  NftBandwidthInfo.numIntervalsToSave_of_rule h.1

end IdUnit

/-! ## What counting leaves in the records -/

namespace IdUnit.Agree

variable {β : Type} {f : NftBandwidthInfo → β}

theorem refl (u : IdUnit) : Agree f u u := ⟨rfl, rfl⟩

theorem trans {u u' u'' : IdUnit} (h : Agree f u u') (h' : Agree f u' u'') : Agree f u u'' :=
  ⟨h'.1.trans h.1, h'.2.trans h.2⟩

theorem of_records {u u' : IdUnit} (hinfo : u'.info = u.info)
    (hother : u'.otherInfo = u.otherInfo) : Agree f u u' := by
  refine ⟨by rw [hinfo], by rw [hother]⟩

theorem isSome_eq {u u' : IdUnit} (h : Agree f u u') :
    u'.otherInfo.isSome = u.otherInfo.isSome := by
  simpa using congrArg Option.isSome h.2

theorem record {u u' : IdUnit} (h : Agree f u u') (other : Bool) :
    (u'.record other).map f = (u.record other).map f := by
  cases other with
  | false => exact congrArg some h.1
  | true => exact h.2

theorem exists_record {u u' : IdUnit} (h : Agree f u u') {other : Bool} {info : NftBandwidthInfo}
    (hinfo : u'.record other = some info) :
    ∃ old, u.record other = some old ∧ f info = f old := by
  have hrecord := h.record other
  rw [hinfo, Option.map_some] at hrecord
  obtain ⟨old, hold, heq⟩ := Option.map_eq_some_iff.1 hrecord.symm
  exact ⟨old, hold, heq.symm⟩

theorem exists_record' {u u' : IdUnit} (h : Agree f u u') {other : Bool} {info : NftBandwidthInfo}
    (hinfo : u.record other = some info) :
    ∃ new, u'.record other = some new ∧ f new = f info := by
  have hrecord := h.record other
  rw [hinfo, Option.map_some] at hrecord
  exact Option.map_eq_some_iff.1 hrecord

theorem modifyRecord (u : IdUnit) {g : NftBandwidthInfo → NftBandwidthInfo}
    (hg : ∀ info, f (g info) = f info) (other : Bool) : Agree f u (u.modifyRecord g other) := by
  cases other with
  | false => exact ⟨hg u.info, rfl⟩
  | true =>
    refine ⟨rfl, ?_⟩
    simp only [IdUnit.modifyRecord, Option.map_map]
    exact congrArg (fun g => Option.map g u.otherInfo) (funext hg)

theorem addToCell (u : IdUnit) (c : Cell) (len : ℕ) (isCheck : Bool) :
    Agree f u (u.addToCell c len isCheck) := by
  unfold IdUnit.addToCell
  split
  · exact of_records rfl rfl
  · exact refl u

section Counting

variable (hf : NftBandwidthInfo.Unaccounted f)
include hf

theorem setCombinedBw (u : IdUnit) (c : Option Cell) : Agree f u (u.setCombinedBw c) := by
  refine ⟨hf u.info c u.info.currentBandwidth, ?_⟩
  simp only [IdUnit.setCombinedBw, Option.map_map]
  exact congrArg (fun g => Option.map g u.otherInfo)
    (funext fun o => hf o c o.currentBandwidth)

theorem initializeMapEntriesForIp (u : IdUnit) (ip : String) (bw family : ℕ) :
    Agree f u (initializeMapEntriesForIp u ip bw family).1 := by
  simp only [Bandwidth.initializeMapEntriesForIp]
  have hmaps : Agree f u { u with maps := initializedMaps u ip bw family } := of_records rfl rfl
  split_ifs
  · exact hmaps.trans (setCombinedBw hf _ _)
  · exact hmaps

theorem chargeCombined (u : IdUnit) (priv : NftBandwidthInfo) (len : ℕ) (isCheck : Bool) :
    Agree f u (u.chargeCombined priv len isCheck).1 := by
  unfold IdUnit.chargeCombined
  split
  · exact initializeMapEntriesForIp hf u _ _ _
  · exact addToCell u _ _ _

theorem chargeIp (u : IdUnit) (ip : String) (len : ℕ) (isCheck : Bool) (family : ℕ) :
    Agree f u (u.chargeIp ip len isCheck family).1 := by
  unfold IdUnit.chargeIp
  split
  · split_ifs
    · exact refl u
    · exact initializeMapEntriesForIp hf u _ _ _
  · exact addToCell u _ _ _

theorem addToCurrent (u : IdUnit) (len : ℕ) (isCheck other : Bool) :
    Agree f u (u.modifyRecord (·.addToCurrent len isCheck) other) := by
  apply modifyRecord
  intro info
  exact hf info info.combinedBw _

theorem chargeMonitor (u : IdUnit) (priv : NftBandwidthInfo) (len : ℕ) (isCheck : Bool) :
    Agree f u (u.chargeMonitor priv len isCheck) := by
  unfold IdUnit.chargeMonitor
  split_ifs
  · exact chargeCombined hf u priv len isCheck
  · exact refl u

theorem countPacket (u : IdUnit) (other : Bool) (ips : NftBandwidthInfo → String × String)
    (family len : ℕ) (isCheck : Bool) :
    Agree f u (u.countPacket other ips family len isCheck).1 := by
  unfold IdUnit.countPacket
  cases u.record other with
  | none => exact refl u
  | some priv =>
    have hmonitor := chargeMonitor hf u priv len isCheck
    simp only
    split_ifs
    · exact (chargeCombined hf u priv len isCheck).trans (addToCurrent hf _ _ _ _)
    · exact hmonitor.trans (chargeIp hf _ _ _ _ _)
    · exact hmonitor.trans (chargeIp hf _ _ _ _ _)
    · exact hmonitor

end Counting

end IdUnit.Agree

/-! ## The rules of an id stay -/

omit [Kernel] in
theorem NftBandwidthInfo.unaccounted_rule : Unaccounted rule := fun _ _ _ => rfl

omit [Kernel] in
theorem NftBandwidthInfo.unaccounted_schedule : Unaccounted schedule := fun _ _ _ => rfl

namespace IdUnit.SameRules

theorem refl (u : IdUnit) : SameRules u u := Agree.refl u

theorem trans {u u' u'' : IdUnit} (h : SameRules u u') (h' : SameRules u' u'') :
    SameRules u u'' :=
  Agree.trans h h'

theorem closeInterval (u : IdUnit) (histories : StringMap BwHistory) (now : ℤ) :
    SameRules u (closeInterval u histories now) := ⟨rfl, rfl⟩

theorem closeIntervals (now : ℤ) (n : ℕ) (u : IdUnit) :
    SameRules u (closeIntervals now n u) := by
  induction n generalizing u with
  | zero => exact refl u
  | succ n ih =>
    unfold Bandwidth.closeIntervals
    split
    · split_ifs
      · exact (closeInterval u _ now).trans (ih _)
      · exact refl u
    · exact refl u

theorem wipeHistories (u : IdUnit) (now : ℤ) : SameRules u (wipeHistories u now) := by
  unfold Bandwidth.wipeHistories
  split
  · split_ifs
    · exact ⟨rfl, rfl⟩
    · exact refl u
  · exact refl u

theorem finishReset (u : IdUnit) : SameRules u (finishReset u) :=
  trans (Agree.setCombinedBw NftBandwidthInfo.unaccounted_rule u _) ⟨rfl, rfl⟩

theorem handleIntervalReset (now : ℤ) (u : IdUnit) :
    SameRules u (handleIntervalReset now u) := by
  unfold Bandwidth.handleIntervalReset
  split_ifs
  · exact trans ⟨rfl, rfl⟩ (finishReset _)
  · exact refl u
  · exact ((closeIntervals now _ u).trans (wipeHistories _ now)).trans (finishReset _)

theorem resetIfDue (u : IdUnit) (other : Bool) (now : ℤ) :
    SameRules u (u.resetIfDue other now) := by
  unfold IdUnit.resetIfDue
  split
  · exact refl u
  · split_ifs
    · exact handleIntervalReset now u
    · exact refl u

theorem evaluate (u : IdUnit) (other : Bool) (ips : NftBandwidthInfo → String × String)
    (family len : ℕ) (isCheck : Bool) (now : ℤ) :
    SameRules u (u.evaluate other ips family len isCheck now).1 :=
  (resetIfDue u other now).trans
    (Agree.countPacket NftBandwidthInfo.unaccounted_rule _ _ _ _ _ _)

end IdUnit.SameRules

/-! ## The module does what the id does -/

def InfoAndMaps.ruleOf (iam : InfoAndMaps) : Bool → Option ℕ
  | false => some iam.info
  | true => iam.otherInfo

namespace ModuleState

open IdUnit (Agree SameRules)

/-- Write the records and the maps of the id behind `p`. -/
def write (m : ModuleState) (p : ℕ) (iam : InfoAndMaps) (u : IdUnit) : ModuleState :=
  ((m.setOther iam.otherInfo u.otherInfo).setInfo iam.info u.info).setIam p
    { iam with maps := u.maps }

/-- The id behind `p` is `u`: both records and the maps are in place, the two
rules are different, and their records point back to `p`. -/
structure Serves (m : ModuleState) (p : ℕ) (iam : InfoAndMaps) (u : IdUnit) : Prop where
  iam_eq : m.iams p = some iam
  info_eq : m.infos iam.info = some u.info
  other_eq : iam.otherInfo.bind m.infos = u.otherInfo
  maps_eq : iam.maps = u.maps
  distinct : iam.otherInfo ≠ some iam.info
  back : ∀ other info, u.record other = some info → info.iam = some p

theorem setOther_infos (m : ModuleState) (r? : Option ℕ) (o? : Option NftBandwidthInfo) (r : ℕ) :
    (m.setOther r? o?).infos r =
      if r? = some r ∧ o?.isSome then o? else m.infos r := by
  cases r? with
  | none => simp [setOther]
  | some r' =>
    cases o? with
    | none => simp [setOther]
    | some o =>
      by_cases hr : r = r'
      · simp [setOther, setInfo, hr]
      · have hr' : ¬ r' = r := fun h => hr h.symm
        simp [setOther, setInfo, hr, hr']

theorem setOther_iams (m : ModuleState) (r? : Option ℕ) (o? : Option NftBandwidthInfo) :
    (m.setOther r? o?).iams = m.iams := by
  unfold setOther
  split <;> rfl

theorem write_infos (m : ModuleState) (p : ℕ) (iam : InfoAndMaps) (u : IdUnit) (r : ℕ) :
    (m.write p iam u).infos r =
      if r = iam.info then some u.info
      else if iam.otherInfo = some r ∧ u.otherInfo.isSome then u.otherInfo else m.infos r := by
  simp only [write, setIam, setInfo]
  split_ifs with h h'
  · rfl
  · rw [setOther_infos, if_pos h']
  · rw [setOther_infos, if_neg h']

theorem write_iams (m : ModuleState) (p : ℕ) (iam : InfoAndMaps) (u : IdUnit) (q : ℕ) :
    (m.write p iam u).iams q = if q = p then some { iam with maps := u.maps } else m.iams q := by
  simp only [write, setIam, setInfo, setOther_iams]

def Registered (m m' : ModuleState) : Prop :=
  m'.nextIam = m.nextIam ∧ m'.idMap = m.idMap ∧ m'.clock = m.clock ∧
    m'.setInProgress = m.setInProgress ∧ m'.setId = m.setId ∧ m'.outputIpList = m.outputIpList

theorem registered_write (m : ModuleState) (p : ℕ) (iam : InfoAndMaps) (u : IdUnit) :
    Registered m (m.write p iam u) := by
  unfold write setOther
  split
  · exact ⟨rfl, rfl, rfl, rfl, rfl, rfl⟩
  · exact ⟨rfl, rfl, rfl, rfl, rfl, rfl⟩

theorem eq_of_registered {m m' : ModuleState} (h : Registered m m')
    (hinfos : ∀ r, m'.infos r = m.infos r) (hiams : ∀ q, m'.iams q = m.iams q) : m' = m := by
  obtain ⟨infos, iams, nextIam, idMap, clock, progress, setId, list⟩ := m
  obtain ⟨infos', iams', nextIam', idMap', clock', progress', setId', list'⟩ := m'
  obtain ⟨h₁, h₂, h₃, h₄, h₅, h₆⟩ := h
  simp only at *
  obtain rfl : infos' = infos := funext hinfos
  obtain rfl : iams' = iams := funext hiams
  rw [h₁, h₂, h₃, h₄, h₅, h₆]

theorem write_write (m : ModuleState) (p : ℕ) (iam : InfoAndMaps) {u' u'' : IdUnit}
    (hsame : u'.SameRules u'') :
    (m.write p iam u').write p { iam with maps := u'.maps } u'' = m.write p iam u'' := by
  have hreg : Registered (m.write p iam u'')
      ((m.write p iam u').write p { iam with maps := u'.maps } u'') := by
    obtain ⟨h₁, h₂, h₃, h₄, h₅, h₆⟩ := registered_write m p iam u'
    obtain ⟨f₁, f₂, f₃, f₄, f₅, f₆⟩ := registered_write m p iam u''
    obtain ⟨g₁, g₂, g₃, g₄, g₅, g₆⟩ :=
      registered_write (m.write p iam u') p { iam with maps := u'.maps } u''
    exact ⟨(g₁.trans h₁).trans f₁.symm, (g₂.trans h₂).trans f₂.symm,
      (g₃.trans h₃).trans f₃.symm, (g₄.trans h₄).trans f₄.symm,
      (g₅.trans h₅).trans f₅.symm, (g₆.trans h₆).trans f₆.symm⟩
  apply eq_of_registered hreg
  · intro r
    simp only [write_infos, (Agree.isSome_eq hsame)]
    split_ifs <;> rfl
  · intro q
    simp only [write_iams]
    split_ifs <;> rfl

namespace Serves

variable {m : ModuleState} {p : ℕ} {iam : InfoAndMaps} {u u' : IdUnit}

theorem unit_eq (h : m.Serves p iam u) : m.unit p = some u := by
  simp [unit, h.iam_eq, h.info_eq, h.other_eq, h.maps_eq]

theorem record_eq (h : m.Serves p iam u) {other : Bool} {r : ℕ} (hr : iam.ruleOf other = some r) :
    m.infos r = u.record other := by
  cases other with
  | false =>
    obtain rfl := Option.some.inj hr
    exact h.info_eq
  | true =>
    have hother : iam.otherInfo = some r := hr
    have := h.other_eq
    rw [hother] at this
    exact this

theorem ruleOf_ne (h : m.Serves p iam u) {r : ℕ} (hr : iam.otherInfo = some r) :
    r ≠ iam.info := by
  rintro rfl
  exact h.distinct hr

theorem write (h : m.Serves p iam u) (hsame : u.SameRules u') :
    (m.write p iam u').Serves p { iam with maps := u'.maps } u' := by
  refine ⟨by simp [write_iams], by simp [write_infos], ?_, rfl, h.distinct, ?_⟩
  · cases hr : iam.otherInfo with
    | none =>
      have hnone : u.otherInfo = none := by simpa [hr] using h.other_eq.symm
      have hsome := (Agree.isSome_eq hsame)
      rw [hnone] at hsome
      have hnone' : u'.otherInfo = none := by simpa using hsome
      simp [hnone']
    | some r =>
      have hne := h.ruleOf_ne hr
      cases ho : u'.otherInfo with
      | some o => simp [write_infos, hne, hr, ho]
      | none =>
        have hother := h.other_eq
        have hsome := (Agree.isSome_eq hsame)
        rw [ho] at hsome
        have hnone : u.otherInfo = none := by simpa using hsome.symm
        simpa [write_infos, hne, hr, ho, hnone] using hother
  · intro other info hinfo
    obtain ⟨old, hold, hrule⟩ := Agree.exists_record hsame hinfo
    have hiam : info.rule.iam = old.rule.iam := by rw [hrule]
    exact hiam.trans (h.back other old hold)

theorem write_self (h : m.Serves p iam u) : m.write p iam u = m := by
  apply eq_of_registered (registered_write m p iam u)
  · intro r
    rw [write_infos]
    split_ifs with hr hr'
    · rw [hr, h.info_eq]
    · have := h.other_eq
      rw [hr'.1] at this
      exact this.symm
    · rfl
  · intro q
    rw [write_iams]
    split_ifs with hq
    · rw [hq, h.iam_eq, ← h.maps_eq]
    · rfl

theorem onUnit_eq (h : m.Serves p iam u) (f : IdUnit → IdUnit) :
    m.onUnit p f = m.write p iam (f u) := by
  simp [onUnit, h.iam_eq, h.unit_eq, ModuleState.write]

theorem write_of_records (h : m.Serves p iam u) (hinfo : u'.info = u.info)
    (hother : u'.otherInfo = u.otherInfo) :
    m.write p iam u' = m.setIam p { iam with maps := u'.maps } := by
  have hself := congrArg ModuleState.infos h.write_self
  refine eq_of_registered (registered_write m p iam u') (fun r => ?_) (fun q => ?_)
  · have hr := congrFun hself r
    rw [write_infos] at hr ⊢
    rw [hinfo, hother]
    exact hr
  · rw [write_iams]
    rfl

/-- Writing a changed unit is writing the rule that has changed. -/
theorem write_record (h : m.Serves p iam u) {other : Bool} {r : ℕ} {info : NftBandwidthInfo}
    (hr : iam.ruleOf other = some r) (hinfo : u.record other = some info)
    (f : NftBandwidthInfo → NftBandwidthInfo) :
    m.write p iam (u.modifyRecord f other) = m.setInfo r (f info) := by
  have hself := congrArg ModuleState.infos h.write_self
  have hmaps : (u.modifyRecord f other).maps = u.maps := by
    cases other <;> rfl
  refine eq_of_registered (registered_write m p iam _) (fun r' => ?_) (fun q => ?_)
  · have hr' := congrFun hself r'
    rw [write_infos] at hr' ⊢
    cases other with
    | false =>
      obtain rfl := Option.some.inj hr
      obtain rfl := Option.some.inj hinfo
      by_cases hcase : r' = iam.info
      · simp [IdUnit.modifyRecord, setInfo, hcase]
      · rw [if_neg hcase] at hr' ⊢
        simp only [setInfo, if_neg hcase]
        exact hr'
    | true =>
      have hother : iam.otherInfo = some r := hr
      have hsome : u.otherInfo = some info := hinfo
      have hne : iam.info ≠ r := fun heq => h.ruleOf_ne hother heq.symm
      simp only [IdUnit.modifyRecord, setInfo, hother, hsome, Option.map_some,
        Option.isSome_some, and_true, Option.some.injEq] at hr' ⊢
      by_cases hcase : r' = iam.info
      · rw [hcase] at hr' ⊢
        simpa [hne] using h.info_eq.symm
      · by_cases hcase' : r' = r
        · simp [hcase', hne.symm]
        · have hne' : ¬ r = r' := fun heq => hcase' heq.symm
          simp [hcase, hcase', hne']
  · rw [write_iams, hmaps, ← h.maps_eq]
    change _ = m.iams q
    split_ifs with hq
    · rw [hq, h.iam_eq]
    · rfl

theorem initEntry_eq (h : m.Serves p iam u) (ip : String) (bw family : ℕ) :
    m.initEntry p ip bw family =
      (m.write p iam (initializeMapEntriesForIp u ip bw family).1,
        some (initializeMapEntriesForIp u ip bw family).2) := by
  rw [initEntry, h.onUnit_eq, h.unit_eq]
  rfl

theorem addToCell_eq (h : m.Serves p iam u) (c : Cell) (len : ℕ) (isCheck : Bool) :
    m.addToCell p c len isCheck = m.write p iam (u.addToCell c len isCheck) := by
  simp only [addToCell, IdUnit.addToCell, h.iam_eq, h.maps_eq]
  cases u.maps.cells.load c with
  | none => exact h.write_self.symm
  | some v =>
    let stored : IdUnit :=
      { u with
        maps := { u.maps with cells := u.maps.cells.store c (addUpToMax v len isCheck) } }
    exact (show m.write p iam stored = _ from h.write_of_records rfl rfl).symm

theorem chargeCombined_eq (h : m.Serves p iam u) {other : Bool} {r : ℕ} {priv : NftBandwidthInfo}
    (hr : iam.ruleOf other = some r) (hpriv : u.record other = some priv) (len : ℕ)
    (isCheck : Bool) :
    m.chargeCombined r p len isCheck =
      (m.write p iam (u.chargeCombined priv len isCheck).1,
        (u.chargeCombined priv len isCheck).2) := by
  have hinfo : m.infos r = some priv := (h.record_eq hr).trans hpriv
  simp only [chargeCombined, IdUnit.chargeCombined, hinfo, Option.bind_some]
  cases priv.combinedBw with
  | none => exact h.initEntry_eq _ _ _
  | some c =>
    simp only
    rw [h.addToCell_eq]

theorem chargeIp_eq (h : m.Serves p iam u) (ip : String) (len : ℕ) (isCheck : Bool)
    (family : ℕ) :
    m.chargeIp p ip len isCheck family =
      (m.write p iam (u.chargeIp ip len isCheck family).1,
        (u.chargeIp ip len isCheck family).2) := by
  simp only [chargeIp, IdUnit.chargeIp, h.iam_eq, h.maps_eq, Option.bind_some]
  cases u.maps.ipMap.get ip with
  | none =>
    cases isCheck with
    | true => simp [h.write_self]
    | false => simpa using h.initEntry_eq ip len family
  | some c =>
    simp only
    rw [h.addToCell_eq]

theorem chargeMonitor_eq (h : m.Serves p iam u) {other : Bool} {r : ℕ} {priv : NftBandwidthInfo}
    (hr : iam.ruleOf other = some r) (hpriv : u.record other = some priv) (len : ℕ)
    (isCheck : Bool) :
    m.chargeMonitor r p priv len isCheck =
      m.write p iam (u.chargeMonitor priv len isCheck) := by
  unfold chargeMonitor IdUnit.chargeMonitor
  split_ifs
  · rw [h.chargeCombined_eq hr hpriv]
  · exact h.write_self.symm

theorem modifyInfo_eq (h : m.Serves p iam u) {other : Bool} {r : ℕ} {info : NftBandwidthInfo}
    (hr : iam.ruleOf other = some r) (hinfo : u.record other = some info)
    (f : NftBandwidthInfo → NftBandwidthInfo) :
    m.modifyInfo r f = m.write p iam (u.modifyRecord f other) := by
  rw [h.write_record hr hinfo, modifyInfo, h.record_eq hr, hinfo]

theorem resetIfDue_eq (h : m.Serves p iam u) {other : Bool} {r : ℕ}
    (hr : iam.ruleOf other = some r) (now : ℤ) :
    m.resetIfDue r now = m.write p iam (u.resetIfDue other now) := by
  have hinfo := h.record_eq hr
  unfold resetIfDue IdUnit.resetIfDue
  rw [hinfo]
  cases hpriv : u.record other with
  | none => exact h.write_self.symm
  | some priv =>
    simp only [h.back other priv hpriv]
    split_ifs
    · exact h.onUnit_eq _
    · exact h.write_self.symm

/-- A packet is counted in the unit of the rule. -/
theorem countPacket_eq (h : m.Serves p iam u) {other : Bool} {r : ℕ}
    (hr : iam.ruleOf other = some r) (ips : NftBandwidthInfo → String × String)
    (family len : ℕ) (isCheck : Bool) :
    m.countPacket r ips family len isCheck =
      (m.write p iam (u.countPacket other ips family len isCheck).1,
        (u.countPacket other ips family len isCheck).2) := by
  have hinfo := h.record_eq hr
  unfold countPacket IdUnit.countPacket
  rw [hinfo]
  cases hpriv : u.record other with
  | none => simp [h.write_self]
  | some priv =>
    simp only [h.back other priv hpriv]
    by_cases htype : priv.type = .combined
    · simp only [if_pos htype, h.chargeCombined_eq hr hpriv]
      have hsame : SameRules u (u.chargeCombined priv len isCheck).1 :=
        Agree.chargeCombined NftBandwidthInfo.unaccounted_rule u priv len isCheck
      obtain ⟨info, hrec, -⟩ := Agree.exists_record' hsame hpriv
      rw [(h.write hsame).modifyInfo_eq hr hrec, write_write m p iam
        (Agree.addToCurrent NftBandwidthInfo.unaccounted_rule _ len isCheck other)]
    · simp only [if_neg htype, h.chargeMonitor_eq hr hpriv]
      have hserves := h.write
        (Agree.chargeMonitor NftBandwidthInfo.unaccounted_rule u priv len isCheck)
      have hcharge := Agree.chargeIp NftBandwidthInfo.unaccounted_rule
        (u.chargeMonitor priv len isCheck) (bwIp (ips priv)) len isCheck family
      split_ifs
      · rw [hserves.chargeIp_eq, write_write m p iam hcharge]
      · rw [hserves.chargeIp_eq, write_write m p iam hcharge]
      · rfl

theorem evaluate_eq_write (h : m.Serves p iam u) {other : Bool} {r : ℕ}
    (hr : iam.ruleOf other = some r) (ips : NftBandwidthInfo → String × String)
    (family len : ℕ) (isCheck : Bool) (now : ℤ) :
    (m.evaluate r ips family len isCheck now).1 =
      m.write p iam (u.evaluate other ips family len isCheck now).1 := by
  have hsame := SameRules.resetIfDue u other now
  have hserves := h.write hsame
  rw [evaluate, h.resetIfDue_eq hr, hserves.countPacket_eq hr]
  exact write_write m p iam
    (Agree.countPacket NftBandwidthInfo.unaccounted_rule _ other ips family len isCheck)

/-- Writing one unit leaves the others. -/
theorem write_other (h : m.Serves p iam u) {q : ℕ} {iam' : InfoAndMaps} {w : IdUnit}
    (h' : m.Serves q iam' w) (hne : q ≠ p) (hsame : u.SameRules u') :
    (m.write p iam u').Serves q iam' w := by
  have hkeep : ∀ other r, iam'.ruleOf other = some r →
      (m.write p iam u').infos r = m.infos r := by
    intro other r hr
    have hforeign : ∀ other' info, m.infos r = some info → iam.ruleOf other' = some r → False := by
      intro other' info hinfo hr'
      have hq := h'.back other info ((h'.record_eq hr).symm.trans hinfo)
      have hp := h.back other' info ((h.record_eq hr').symm.trans hinfo)
      rw [hp] at hq
      exact hne (Option.some.inj hq).symm
    rw [write_infos]
    split_ifs with hcase hcase'
    · exact absurd h.info_eq fun hinfo => hforeign false u.info (hcase ▸ hinfo) (hcase ▸ rfl)
    · obtain ⟨o, ho⟩ := Option.isSome_iff_exists.1 hcase'.2
      have hsome : u.otherInfo.isSome := by rw [← (Agree.isSome_eq hsame), ho]; rfl
      obtain ⟨o', ho'⟩ := Option.isSome_iff_exists.1 hsome
      have hother : iam.ruleOf true = some r := hcase'.1
      have hinfo : m.infos r = some o' := (h.record_eq hother).trans ho'
      exact absurd hcase'.1 fun hr' => hforeign true o' hinfo hr'
    · rfl
  refine ⟨by rw [write_iams, if_neg hne, h'.iam_eq], ?_, ?_, h'.maps_eq, h'.distinct, h'.back⟩
  · rw [hkeep false iam'.info rfl, h'.info_eq]
  · rw [← h'.other_eq]
    cases hother : iam'.otherInfo with
    | none => rfl
    | some r => exact hkeep true r hother

theorem serves_write (h : m.Serves p iam u) (hsame : u.SameRules u') {q : ℕ} {iam' : InfoAndMaps}
    {w : IdUnit} (h' : m.Serves q iam' w) :
    ∃ iam'' w', (m.write p iam u').Serves q iam'' w' ∧
      ∀ other, iam''.ruleOf other = iam'.ruleOf other := by
  by_cases hq : q = p
  · subst hq
    obtain rfl : iam' = iam := Option.some.inj (h'.iam_eq.symm.trans h.iam_eq)
    exact ⟨_, u', h.write hsame, fun other => by cases other <;> rfl⟩
  · exact ⟨iam', w, h.write_other h' hq hsame, fun _ => rfl⟩

end Serves

end ModuleState

end Bandwidth

end Gargoyle
