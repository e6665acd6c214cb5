import Gargoyle.Bandwidth.Ledger
import Gargoyle.Bandwidth.LinkedRun

/-!
# Lazy interval resets

An interval is not closed when it ends but when the module next looks at the id.
As long as no more intervals have ended than are saved, it does not matter how
often the module has looked in between (`ledger_handleIntervalReset_twice`).
After a reset the next one lies ahead, except that a monthly rule has none past
the first month of 2038 (`lazy_resets_iff`).
-/

namespace Gargoyle

namespace Bandwidth

section

variable [Kernel]

namespace IdUnit

variable {u : IdUnit} {now : ℤ}

def OnRule (info : NftBandwidthInfo) (u : IdUnit) : Prop :=
  ∃ x y, u.info.nextReset = getNextResetTime info x y

/-- An id whose intervals are reset: its rule is one that has been sent to the
kernel, its next reset has been computed from the rule, and if it saves
intervals, then its maps fit together and the counts of its histories are
right. -/
structure Booked (u : IdUnit) : Prop where
  rule : StmtEvaluated u.info.rule
  resets : u.info.resetInterval ≠ bandwidthNever
  scheduled : u.OnRule u.info
  filed : 0 < u.info.numIntervalsToSave → u.Filed (u.info.numIntervalsToSave + 1)
  tallied : 0 < u.info.numIntervalsToSave → Rounds.All HistoryView.Tallied u.ledger

/-! ## Twice and once -/

theorem handleIntervalReset_of_filed (hsaves : 0 < u.info.numIntervalsToSave) {maxNodes : ℕ}
    (hfiled : u.Filed maxNodes) :
    handleIntervalReset now u =
      finishReset (wipeHistories (closeIntervals now u.info.numIntervalsToSave u) now) := by
  obtain ⟨histories, hmap, -⟩ := hfiled
  have hsome : u.maps.ipHistoryMap.isNone = false := by rw [hmap]; rfl
  rw [handleIntervalReset, if_neg hsaves.ne', hsome]
  rfl

theorem wipeHistories_of_lt (hahead : now < u.info.nextReset) : wipeHistories u now = u := by
  unfold wipeHistories
  split
  · exact if_neg (not_le.2 hahead)
  · rfl

theorem ledger_handleIntervalReset (hsaves : 0 < u.info.numIntervalsToSave) {maxNodes : ℕ}
    (hfiled : u.Filed maxNodes)
    (hdue : now < ((intervalRounds u.info.boundaryAfter).catchUp now u.info.numIntervalsToSave
      u.ledger).due) :
    (handleIntervalReset now u).Filed maxNodes ∧
      (handleIntervalReset now u).ledger =
        (intervalRounds u.info.boundaryAfter).catchUp now u.info.numIntervalsToSave u.ledger := by
  obtain ⟨hfiled', hledger⟩ :=
    @closeIntervals_ledger _ u now maxNodes hfiled u.info.numIntervalsToSave
  rw [handleIntervalReset_of_filed hsaves hfiled]
  rw [← hledger] at hdue ⊢
  generalize closeIntervals now u.info.numIntervalsToSave u = u' at *
  obtain ⟨histories, hmap, hkept⟩ := hfiled'
  rw [wipeHistories_of_lt hdue]
  exact ⟨⟨histories, hmap, hkept⟩, rfl⟩

/-- Two resets in order are one reset at the later time. -/
theorem ledger_handleIntervalReset_twice (h : u.Booked) (hsaves : 0 < u.info.numIntervalsToSave)
    {now₁ now₂ : ℤ} (hle : now₁ ≤ now₂)
    (hfew : ∃ b ≤ u.info.numIntervalsToSave,
      now₂ < u.info.boundaryAfter^[b] u.info.nextReset) :
    (handleIntervalReset now₂ (handleIntervalReset now₁ u)).ledger =
      (handleIntervalReset now₂ u).ledger := by
  have hclose : Rounds.All (fun v => ∀ a b,
      HistoryView.Settled ((intervalRounds u.info.boundaryAfter).close a b v)) u.ledger :=
    fun k v hv a b => (h.tallied hsaves k v hv).settled_close _ a b
  have hfew₂ : ∃ b ≤ u.info.numIntervalsToSave,
      now₂ < (intervalRounds u.info.boundaryAfter).next^[b] u.ledger.due := hfew
  have hfew₁ : ∃ b ≤ u.info.numIntervalsToSave,
      now₁ < (intervalRounds u.info.boundaryAfter).next^[b] u.ledger.due := by
    obtain ⟨b, hb, hlt⟩ := hfew₂
    exact ⟨b, hb, hle.trans_lt hlt⟩
  have htwice := (intervalRounds_lasting u.info.boundaryAfter).catchUp_catchUp hclose hle hfew₂
  have hdue₂ := Rounds.lt_due_catchUp hfew₂
  obtain ⟨hfiled, hfirst⟩ :=
    ledger_handleIntervalReset hsaves (h.filed hsaves) (Rounds.lt_due_catchUp hfew₁)
  obtain ⟨-, honce⟩ := ledger_handleIntervalReset hsaves (h.filed hsaves) hdue₂
  -- the rule is the same after the first reset
  have hrules := SameRules.handleIntervalReset now₁ u
  have hnext : (handleIntervalReset now₁ u).info.boundaryAfter = u.info.boundaryAfter :=
    funext fun x => NftBandwidthInfo.boundaryAfter_of_rule hrules.1 x
  have hsaves' : (handleIntervalReset now₁ u).info.numIntervalsToSave =
      u.info.numIntervalsToSave := hrules.saves
  have hsecond := @ledger_handleIntervalReset _ _ now₂ (hsaves'.symm ▸ hsaves) _ hfiled
  rw [hnext, hsaves', hfirst, htwice] at hsecond
  rw [(hsecond hdue₂).2, honce]

/-! ## The next reset -/

theorem OnRule.closeIntervals {info : NftBandwidthInfo} (h : u.OnRule info)
    (hrule : u.info.rule = info.rule) (now : ℤ) (n : ℕ) :
    (closeIntervals now n u).OnRule info := by
  induction n generalizing u with
  | zero => exact h
  | succ n ih =>
    unfold Bandwidth.closeIntervals
    split
    · split_ifs
      · refine ih ⟨u.info.nextReset, u.info.nextReset, ?_⟩ ?_
        · exact getNextResetTime_of_rule hrule _ _
        · exact hrule
      · exact h
    · exact h

theorem OnRule.handleIntervalReset (h : u.OnRule u.info) (now : ℤ) :
    (handleIntervalReset now u).OnRule u.info := by
  unfold Bandwidth.handleIntervalReset
  split_ifs
  · change ∃ x y, nextResetUnsaved u.info now = getNextResetTime u.info x y
    simp only [nextResetUnsaved]
    split_ifs
    · exact ⟨_, _, rfl⟩
    · exact ⟨_, _, rfl⟩
    · exact h
  · exact h
  · have hclosed := h.closeIntervals rfl now u.info.numIntervalsToSave
    have hrules := SameRules.closeIntervals now u.info.numIntervalsToSave u
    change (wipeHistories (Bandwidth.closeIntervals now u.info.numIntervalsToSave u) now).OnRule
      u.info
    generalize Bandwidth.closeIntervals now u.info.numIntervalsToSave u = u' at *
    unfold wipeHistories
    split
    · split_ifs
      · exact ⟨now, now, getNextResetTime_of_rule hrules.1 now now⟩
      · exact hclosed
    · exact hclosed

theorem lt_nextReset_wipeHistories {histories : StringMap BwHistory}
    (hmap : u.maps.ipHistoryMap = some histories) (hahead : now < getNextResetTime u.info now now) :
    now < (wipeHistories u now).info.nextReset := by
  simp only [wipeHistories, hmap]
  split_ifs with hdue
  · exact hahead
  · exact not_le.1 hdue

theorem lt_nextReset_handleIntervalReset (hahead : ∀ y, now < getNextResetTime u.info now y)
    {maxNodes : ℕ} (hfiled : 0 < u.info.numIntervalsToSave → u.Filed maxNodes) :
    now < (handleIntervalReset now u).info.nextReset := by
  rcases Nat.eq_zero_or_pos u.info.numIntervalsToSave with hzero | hsaves
  · have hunsaved : (handleIntervalReset now u).info.nextReset = nextResetUnsaved u.info now := by
      rw [handleIntervalReset, if_pos hzero]
      rfl
    rw [hunsaved, nextResetUnsaved]
    simp only
    split_ifs with hdue hlater
    · exact hahead _
    · exact not_le.1 hlater
    · exact not_le.1 hdue
  · rw [handleIntervalReset_of_filed hsaves (hfiled hsaves)]
    obtain ⟨⟨histories, hmap, -⟩, -⟩ := @closeIntervals_ledger _ u now maxNodes (hfiled hsaves)
      u.info.numIntervalsToSave
    have hrules := SameRules.closeIntervals now u.info.numIntervalsToSave u
    refine lt_nextReset_wipeHistories hmap ?_
    rw [getNextResetTime_of_rule hrules.1]
    exact hahead now

theorem Booked.lt_nextReset_iff (h : u.Booked) (hnow : 0 ≤ now) :
    now < (handleIntervalReset now u).info.nextReset ↔
      (u.info.resetInterval = bandwidthMonth → now < resetHorizon u.info) := by
  constructor
  · intro hlt hmonth
    obtain ⟨x, y, hnext⟩ := OnRule.handleIntervalReset h.scheduled now
    rw [hnext, ← getNextResetTime_rule] at hlt
    exact hlt.trans_le (getNextResetTime_le_horizon h.rule hmonth x y)
  · intro hmonth
    refine lt_nextReset_handleIntervalReset (fun y => ?_) h.filed
    rw [← getNextResetTime_rule]
    exact lt_getNextResetTime_of_horizon h.rule h.resets hnow hmonth y

/-- Resets are path independent as long as no more intervals end than are saved,
and after a reset the next one lies ahead, for every rule and every time but for
a monthly rule after its last reset. -/
theorem lazy_resets_iff (h : u.Booked) {now₁ now₂ : ℤ} (hnow : 0 ≤ now₁) (hle : now₁ ≤ now₂) :
    ((0 < u.info.numIntervalsToSave →
        (∃ b ≤ u.info.numIntervalsToSave,
          now₂ < u.info.boundaryAfter^[b] u.info.nextReset) →
        (handleIntervalReset now₂ (handleIntervalReset now₁ u)).ledger =
          (handleIntervalReset now₂ u).ledger) ∧
      now₂ < (handleIntervalReset now₂ u).info.nextReset) ↔
    (u.info.resetInterval = bandwidthMonth → now₂ < resetHorizon u.info) := by
  rw [h.lt_nextReset_iff (hnow.trans hle)]
  refine ⟨fun hboth => hboth.2, fun hmonth => ⟨fun hsaves hfew => ?_, hmonth⟩⟩
  exact ledger_handleIntervalReset_twice h hsaves hle hfew

/-! ## Runs of packets and resets -/

structure Accounted (u : IdUnit) : Prop where
  wired : u.Wired
  small : u.info.numIntervalsToSave + 1 < 2 ^ 32
  filed : u.Filed (u.info.numIntervalsToSave + 1)
  tallied : Rounds.All HistoryView.Tallied u.ledger

theorem all_ledger_iff {P : HistoryView → Prop} {histories : StringMap BwHistory}
    (hmap : u.maps.ipHistoryMap = some histories) :
    Rounds.All P u.ledger ↔ ∀ e ∈ histories.entries, P (e.2.view u.maps.cells) := by
  rw [ledger_eq hmap]
  constructor
  · intro h e he
    refine h e.1 _ ?_
    simp only [historyBook, histories.get_of_mem he, Option.map_some]
  · intro h k v hv
    obtain ⟨old, hget, rfl⟩ := Option.map_eq_some_iff.1 hv
    obtain ⟨k', -, hmem⟩ := histories.exists_mem_of_get hget
    exact h _ hmem

/-- Counting into a cell keeps the account. -/
theorem Accounted.addToCell (h : u.Accounted) {k : String} {c : Cell}
    (hk : u.maps.ipMap.get k = some c) (len : ℕ) (isCheck : Bool) :
    (u.addToCell c len isCheck).Accounted := by
  have hwired := h.wired.addToCell c len isCheck
  obtain ⟨histories, hmap, hkept⟩ := h.filed
  obtain ⟨histories', hmap', -, hpointed⟩ := h.wired.mapped
  obtain rfl : histories = histories' := Option.some.inj (hmap.symm.trans hmap')
  have htallied := (all_ledger_iff hmap).1 h.tallied
  -- the counter is the current node of the history of the address
  rw [hpointed k] at hk
  obtain ⟨charged, hcharged, rfl⟩ := Option.map_eq_some_iff.1 hk
  obtain ⟨k', -, hmem⟩ := histories.exists_mem_of_get hcharged
  unfold IdUnit.addToCell at hwired ⊢
  cases hload : u.maps.cells.load charged.current with
  | none => exact h
  | some v =>
    rw [hload] at hwired
    have hword := addUpToMax_lt (hkept.words _ v hload) len isCheck
    let cells := u.maps.cells.store charged.current (addUpToMax v len isCheck)
    have hmap' : (IdUnit.mk u.info u.otherInfo { u.maps with cells := cells }).maps.ipHistoryMap =
        some histories := hmap
    refine ⟨hwired, h.small, ⟨histories, hmap, hkept.store _ hword⟩, ?_⟩
    refine (all_ledger_iff hmap').2 fun e he => ?_
    by_cases hdata : e.2.historyData = charged.historyData
    · obtain rfl : e = (k', charged) := hkept.apart e he _ hmem hdata
      exact (htallied _ he).of_running rfl rfl
        ((hkept.rings _ he).1.chronological_store_current _)
    · have hblock : cells.blocks e.2.historyData = u.maps.cells.blocks e.2.historyData :=
        if_neg hdata
      have hview := BwHistory.view_congr hblock
      exact hview.symm ▸ htallied e he

/-- A new address keeps the account. -/
theorem Accounted.newEntry (h : u.Accounted) {ip : String} (hip : PrintedIp ip)
    (hplain : PlainIp ip) {bw : ℕ} (hbw : bw < 2 ^ 64) (family : ℕ) :
    (initializeMapEntriesForIp u ip bw family).1.Accounted := by
  have hsaves := h.wired.saves
  have hsmall := h.small
  have hwired := h.wired.newEntry hplain bw family
  obtain ⟨histories, hmap, hkept⟩ := h.filed
  have htallied := (all_ledger_iff hmap).1 h.tallied
  have hmaps := initializedMaps_saved hsaves hmap ip bw family
  have hmaps' := newEntry_maps u ip bw family
  have hinfo : (initializeMapEntriesForIp u ip bw family).1.info.numIntervalsToSave =
      u.info.numIntervalsToSave := (SameRules.newEntry u ip bw family).saves
  rw [hmaps] at hmaps'
  have hmap' := congrArg IpMaps.ipHistoryMap hmaps'
  refine ⟨hwired, hinfo.symm ▸ hsmall, ⟨_, hmap', ?_⟩, (all_ledger_iff hmap').2 fun e he => ?_⟩
  · rw [hmaps', hinfo]
    exact hkept.newHistory ip hip rfl hbw
  · rw [hmaps']
    rw [HashedMap.mem_entries_set] at he
    rcases he with rfl | ⟨hmem, hhash⟩
    · refine HistoryView.tallied_of_singleton (by change 2 ≤ _ + 1; omega) hsmall
        (Nat.zero_le 1) (BwHistory.length_chronological _ _)
    · have hother : e.2.historyData ≠ u.maps.cells.bound := (hkept.block_lt hmem).ne
      have hblock : ((makeRoom u histories ip).store
          (initializeHistory u.maps.cells u.info.numIntervalsToSave).2.current bw).blocks
          e.2.historyData = u.maps.cells.blocks e.2.historyData :=
        (if_neg hother).trans (makeRoom_blocks_other hkept ip hmem hhash)
      have hview := BwHistory.view_congr hblock
      exact hview.symm ▸ htallied e hmem

theorem Accounted.chargeCombined (h : u.Accounted) {other : Bool} {priv : NftBandwidthInfo}
    (hpriv : u.record other = some priv) {len : ℕ} (hlen : len < 2 ^ 64) (isCheck : Bool) :
    (u.chargeCombined priv len isCheck).1.Accounted := by
  have hcombined : priv.combinedBw = u.maps.ipMap.get combinedIp := by
    cases other with
    | false =>
      obtain rfl : u.info = priv := Option.some.inj hpriv
      exact h.wired.combined.info
    | true => exact h.wired.combined.other priv hpriv
  unfold IdUnit.chargeCombined
  cases hc : priv.combinedBw with
  | none => exact h.newEntry printedIp_combined (fun _ => rfl) hlen _
  | some c => exact h.addToCell (hcombined.symm.trans hc) len isCheck

theorem Accounted.chargeIp (h : u.Accounted) {ip : String} (hip : PrintedIp ip)
    (hplain : PlainIp ip) {len : ℕ} (hlen : len < 2 ^ 64) (isCheck : Bool) (family : ℕ) :
    (u.chargeIp ip len isCheck family).1.Accounted := by
  unfold IdUnit.chargeIp
  cases hc : u.maps.ipMap.get ip with
  | none =>
    simp only
    split_ifs
    · exact h
    · exact h.newEntry hip hplain hlen family
  | some c => exact h.addToCell hc len isCheck

theorem Accounted.addToCurrent (h : u.Accounted) (len : ℕ) (isCheck other : Bool) :
    (u.modifyRecord (·.addToCurrent len isCheck) other).Accounted := by
  have hwired := h.wired.addToCurrent len isCheck other
  cases other with
  | false => exact ⟨hwired, h.small, h.filed, h.tallied⟩
  | true => exact ⟨hwired, h.small, h.filed, h.tallied⟩

theorem Accounted.countPacket (h : u.Accounted) {other : Bool}
    {ips : NftBandwidthInfo → String × String} (hips : ∀ priv, PrintedIp (bwIp (ips priv)))
    (hplain : ∀ priv, u.record other = some priv → PlainIp (bwIp (ips priv))) (family : ℕ)
    {len : ℕ} (hlen : len < 2 ^ 64) (isCheck : Bool) :
    (u.countPacket other ips family len isCheck).1.Accounted := by
  unfold IdUnit.countPacket
  cases hpriv : u.record other with
  | none => exact h
  | some priv =>
    have hmonitor : (u.chargeMonitor priv len isCheck).Accounted := by
      unfold IdUnit.chargeMonitor
      split_ifs
      · exact h.chargeCombined hpriv hlen isCheck
      · exact h
    have hcharged := hmonitor.chargeIp (hips priv) (hplain priv hpriv) hlen isCheck family
    simp only
    split_ifs
    · exact (h.chargeCombined hpriv hlen isCheck).addToCurrent len isCheck other
    · exact hcharged
    · exact hcharged
    · exact hmonitor

theorem started_over_wipeHistories {maxNodes : ℕ} (hfiled : u.Filed maxNodes)
    (hdue : u.info.nextReset ≤ now) :
    (wipeHistories u now).Filed maxNodes ∧
      Rounds.All (fun v => v.maxNodes = maxNodes ∧ v.nonZeroNodes = 1 ∧ v.nodes.length = 1)
        (wipeHistories u now).ledger := by
  obtain ⟨histories, hmap, hkept⟩ := hfiled
  simp only [wipeHistories, hmap, if_pos hdue]
  have hwiped := @foldl_resetHistories _ maxNodes (fun _ => True)
    (fun h => h.numNodes = 1 ∧ h.nonZeroNodes = 1) histories.entries (u.maps, histories)
    (fun _ => ⟨rfl, rfl⟩) (Sweep.start hkept fun _ _ => trivial)
  obtain ⟨hkept', hnew⟩ := hwiped.finish
  refine ⟨⟨_, rfl, hkept'⟩, (all_ledger_iff rfl).2 fun e he => ?_⟩
  obtain ⟨hone, hcount⟩ := hnew e he
  obtain ⟨-, hmax⟩ := hkept'.rings e he
  exact ⟨hmax, hcount, (e.2.length_chronological _).trans hone⟩

theorem all_wipeHistories {P : HistoryView → Prop} {maxNodes : ℕ} (hfiled : u.Filed maxNodes)
    (hP : ∀ {v}, v.maxNodes = maxNodes → v.nonZeroNodes = 1 → v.nodes.length = 1 → P v)
    (hall : Rounds.All P u.ledger) :
    (wipeHistories u now).Filed maxNodes ∧ Rounds.All P (wipeHistories u now).ledger := by
  rcases le_or_gt u.info.nextReset now with hdue | hahead
  · obtain ⟨hfiled', hover⟩ := started_over_wipeHistories hfiled hdue
    exact ⟨hfiled', fun k v hv => hP (hover k v hv).1 (hover k v hv).2.1 (hover k v hv).2.2⟩
  · rw [wipeHistories_of_lt hahead]
    exact ⟨hfiled, hall⟩

theorem Accounted.handleIntervalReset (h : u.Accounted) (now : ℤ) :
    (handleIntervalReset now u).Accounted := by
  have hsaves := h.wired.saves
  have hnum := (SameRules.handleIntervalReset now u).saves
  have hwired := h.wired.handleIntervalReset now
  obtain ⟨hfiled, hledger⟩ :=
    @closeIntervals_ledger _ u now _ h.filed u.info.numIntervalsToSave
  have hclosed : Rounds.All HistoryView.Tallied
      (closeIntervals now u.info.numIntervalsToSave u).ledger := by
    rw [hledger]
    exact Rounds.all_catchUp (fun hv a b => hv.close _ a b) h.tallied _
  obtain ⟨hfiled', htallied⟩ := @all_wipeHistories _ _ now _ _ hfiled
    (fun hmax hcount hnodes => HistoryView.tallied_of_singleton (by omega)
      (hmax.trans_lt h.small) hcount.le hnodes) hclosed
  refine ⟨hwired, hnum.symm ▸ h.small, hnum.symm ▸ ?_, ?_⟩
  · rw [handleIntervalReset_of_filed hsaves h.filed]
    exact hfiled'
  · rw [handleIntervalReset_of_filed hsaves h.filed]
    exact htallied

theorem Accounted.handle (h : u.Accounted) {e : IdEvent}
    (hplain : ∀ ip ∈ u.addressesOf (.event e), PlainIp ip) : (u.handle e).Accounted := by
  cases e with
  | packet other isCheck swap pkt now =>
    have hreset : (u.resetIfDue other now).Accounted := by
      unfold IdUnit.resetIfDue
      split
      · exact h
      · split_ifs
        · exact h.handleIntervalReset now
        · exact h
    refine hreset.countPacket (fun priv => printedIp_bwIp pkt priv swap) (fun priv hpriv => ?_) _
      (pkt.len_lt.trans (by norm_num)) isCheck
    obtain ⟨old, hold, hrule⟩ := Agree.exists_record (SameRules.resetIfDue u other now) hpriv
    rw [bwIp_of_rule hrule]
    exact hplain _ (by simp [addressesOf, hold])
  | reset now => exact h.handleIntervalReset now

theorem Accounted.handleAll (h : u.Accounted) {es : List IdEvent}
    (hplain : u.PlainRun (es.map .event)) : (u.handleAll es).Accounted := by
  induction es generalizing u with
  | nil => exact h
  | cons e es ih => exact ih (h.handle hplain.1) hplain.2

theorem OnRule.handle (h : u.OnRule u.info) (e : IdEvent) :
    (u.handle e).OnRule (u.handle e).info := by
  have hrule := (SameRules.handle u e).1
  have hold : (u.handle e).OnRule u.info := by
    cases e with
    | packet other isCheck swap pkt now =>
      have hreset : (u.resetIfDue other now).OnRule u.info := by
        unfold IdUnit.resetIfDue
        split
        · exact h
        · split_ifs
          · exact h.handleIntervalReset now
          · exact h
      have hschedule := (Agree.countPacket NftBandwidthInfo.unaccounted_schedule
        (u.resetIfDue other now) other (fun priv => pkt.bwIps priv swap) pkt.family pkt.len
        isCheck).1
      obtain ⟨x, y, hnext⟩ := hreset
      exact ⟨x, y, (congrArg NftBandwidthInfo.nextReset hschedule).trans hnext⟩
    | reset now => exact h.handleIntervalReset now
  obtain ⟨x, y, hnext⟩ := hold
  exact ⟨x, y, hnext.trans (getNextResetTime_of_rule hrule x y).symm⟩

theorem OnRule.handleAll (h : u.OnRule u.info) (es : List IdEvent) :
    (u.handleAll es).OnRule (u.handleAll es).info := by
  induction es generalizing u with
  | nil => exact h
  | cons e es ih => exact ih (h.handle e)

structure Opened (u : IdUnit) : Prop where
  started : u.Started
  resets : u.info.resetInterval ≠ bandwidthNever
  small : u.info.numIntervalsToSave + 1 < 2 ^ 32
  combined : u.info.combinedBw = none
  other : ∀ o, u.otherInfo = some o → o.combinedBw = none

theorem Opened.booked (h : u.Opened) {es : List IdEvent} (hplain : u.PlainRun (es.map .event)) :
    (u.handleAll es).Booked := by
  have hstarted := h.started
  have haccounted : u.Accounted := by
    obtain ⟨histories, hmap, hkept, -⟩ := hstarted.archived.kept
    refine ⟨wired_of_initial hstarted.saves hstarted.maps h.combined h.other, h.small,
      ⟨histories, hmap, hkept⟩, ?_⟩
    intro k v hv
    rw [ledger, hstarted.maps, IpMaps.initial, if_pos hstarted.saves] at hv
    cases hv
  have hrun := haccounted.handleAll hplain
  have hrules := SameRules.handleAll u es
  have hinterval := congrArg NftBandwidthInfo.resetInterval hrules.1
  have hscheduled := OnRule.handleAll ⟨_, _, hstarted.next⟩ es
  exact ⟨hrules.1 ▸ hstarted.rule, fun hnever => h.resets (hinterval.symm.trans hnever), hscheduled,
    fun _ => hrun.filed, fun _ => hrun.tallied⟩

end IdUnit

end

section Examples

local instance lazyResetKernel : Kernel := referenceKernel 32

def sourceTwoMinutes : IdUnit where
  info :=
    { sourceQuota with
      resetInterval := bandwidthMinute
      numIntervalsToSave := 2
      previousReset := 960
      nextReset := 1020 }
  otherInfo := none
  maps := IpMaps.initial 2

theorem sourceTwoMinutes_opened : sourceTwoMinutes.Opened where
  started :=
    { rule := by constructor <;> decide
      saves := by decide
      maps := rfl
      next := by decide
      positive := by decide }
  resets := by decide
  small := by decide
  combined := rfl
  other := fun _ ho => by cases ho

/-- Two minutes after a packet from 192.168.1.5. -/
theorem sourceTwoMinutes_lazy :
    let u := sourceTwoMinutes.handleAll [.packet false false false (.ipv4 0x0501a8c0 0x08080808 1500) 1000]
    (handleIntervalReset 1081 (handleIntervalReset 1021 u)).ledger =
        (handleIntervalReset 1081 u).ledger ∧
      1081 < (handleIntervalReset 1081 u).info.nextReset := by
  intro u
  have hbooked : u.Booked := sourceTwoMinutes_opened.booked ⟨by decide, trivial⟩
  obtain ⟨hsame, hahead⟩ := (@IdUnit.lazy_resets_iff _ u hbooked 1021 1081 (by decide)
    (by decide)).2 fun hmonth => absurd hmonth (by decide)
  exact ⟨hsame (by decide) ⟨2, by decide, by decide⟩, hahead⟩

def lastMonth : IdUnit where
  info :=
    { sourceQuota with
      resetInterval := bandwidthMonth
      numIntervalsToSave := 1
      previousReset := 2143238400
      nextReset := 2145916800 }
  otherInfo := none
  maps := IpMaps.initial 1

/-- On the first of January 2038 the next reset is in the past. -/
theorem lastMonth_not_ahead :
    lastMonth.Opened ∧ ¬ 2145916800 < (handleIntervalReset 2145916800 lastMonth).info.nextReset := by
  refine ⟨⟨⟨?_, ?_, rfl, ?_, ?_⟩, ?_, ?_, rfl, ?_⟩, ?_⟩
  · constructor <;> decide
  · decide
  · decide
  · decide
  · decide
  · decide
  · intro o ho
    cases ho
  · decide

end Examples

end Bandwidth

end Gargoyle
