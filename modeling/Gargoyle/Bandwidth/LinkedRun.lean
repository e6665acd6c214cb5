import Gargoyle.Bandwidth.ArchiveRun
import Gargoyle.Bandwidth.Linked
import Gargoyle.Bandwidth.RuleRegistry

/-!
# Runs keep the maps of an id together

Packets, interval resets, changes of the clock and of the time zone and set
requests keep `IdUnit.Linked`, as long as no address other than `0.0.0.0` has the
hash of that text. On a machine with words of 32 bits there are such addresses.
-/

namespace Gargoyle

open List

namespace Bandwidth

open ByteBuffer

section

variable [Kernel]

namespace IdUnit

structure Wired (u : IdUnit) : Prop where
  saves : 0 < u.info.numIntervalsToSave
  mapped : u.Mapped
  combined : u.CombinedSet

theorem Wired.linked {u : IdUnit} (h : u.Wired) : u.Linked := h.mapped.linked h.combined

theorem mapped_of_empty {u : IdUnit} {histories : StringMap BwHistory}
    (hmap : u.maps.ipHistoryMap = some histories) (hips : u.maps.ipMap.entries = [])
    (hhistories : histories.entries = []) (hfamilies : u.maps.ipFamilyMap.entries = []) :
    u.Mapped := by
  have hkeys : histories.keys = [] := by rw [HashedMap.keys, hhistories, map_nil]
  refine ⟨histories, hmap, ⟨?_, ?_, ?_⟩, fun k => ?_⟩
  · rw [hkeys, HashedMap.keys, hips, map_nil]
  · rw [hkeys, HashedMap.keys, hfamilies, map_nil]
  · simp [hkeys]
  · simp [HashedMap.get, hips, hhistories, HashedMap.lookup]

/-! ## A packet is counted -/

section Packet

variable {u : IdUnit}

theorem hash_ne_combined {ip : String} (hip : PlainIp ip) (hne : ip ≠ combinedIp) :
    sdbmStringHash ip ≠ sdbmStringHash combinedIp :=
  fun hhash => hne (hip hhash)

theorem Mapped.newEntry (h : u.Mapped) (hsaves : 0 < u.info.numIntervalsToSave) {ip : String}
    (hip : PlainIp ip) (bw family : ℕ) :
    (initializeMapEntriesForIp u ip bw family).1.Mapped := by
  obtain ⟨histories, hmap, hsame, hpointed⟩ := h
  have hmaps := initializedMaps_saved hsaves hmap ip bw family
  have hentered : (IdUnit.mk u.info u.otherInfo (initializedMaps u ip bw family)).Mapped := by
    refine ⟨_, congrArg IpMaps.ipHistoryMap hmaps, ?_⟩
    rw [hmaps]
    exact ⟨hsame.set hip _ _ _, hpointed.set ip _⟩
  simp only [initializeMapEntriesForIp]
  split_ifs
  · exact hentered
  · exact hentered

theorem CombinedSet.newEntry (h : u.CombinedSet) {ip : String} (hip : PlainIp ip)
    (bw family : ℕ) : (initializeMapEntriesForIp u ip bw family).1.CombinedSet := by
  simp only [initializeMapEntriesForIp]
  split_ifs with hcombined
  · subst hcombined
    have hget : (initializedMaps u combinedIp bw family).ipMap.get combinedIp =
        some (newCounter u combinedIp).1 := HashedMap.get_set_self _ _ _
    have hset := combinedSet_setCombinedBw { u with maps := initializedMaps u combinedIp bw family }
    simp only [hget] at hset
    exact hset
  · have hget : (initializedMaps u ip bw family).ipMap.get combinedIp =
        u.maps.ipMap.get combinedIp :=
      HashedMap.get_set_of_ne _ _ (hash_ne_combined hip hcombined)
    exact ⟨h.info.trans hget.symm, fun o ho => (h.other o ho).trans hget.symm⟩

theorem Wired.newEntry (h : u.Wired) {ip : String} (hip : PlainIp ip) (bw family : ℕ) :
    (initializeMapEntriesForIp u ip bw family).1.Wired :=
  ⟨(SameRules.newEntry u ip bw family).saves.symm ▸ h.saves, h.mapped.newEntry h.saves hip bw family, h.combined.newEntry hip bw family⟩

theorem Wired.withCells (h : u.Wired) (cells : Arena ℕ) :
    Wired { u with maps := { u.maps with cells := cells } } :=
  ⟨h.saves, h.mapped, h.combined.info, h.combined.other⟩

theorem Wired.addToCell (h : u.Wired) (c : Cell) (len : ℕ) (isCheck : Bool) :
    (u.addToCell c len isCheck).Wired := by
  unfold IdUnit.addToCell
  split
  · exact h.withCells _
  · exact h

theorem Wired.chargeCombined (h : u.Wired) (priv : NftBandwidthInfo) (len : ℕ) (isCheck : Bool) :
    (u.chargeCombined priv len isCheck).1.Wired := by
  unfold IdUnit.chargeCombined
  split
  · exact h.newEntry (fun _ => rfl) _ _
  · exact h.addToCell _ _ _

theorem Wired.chargeIp (h : u.Wired) {ip : String} (hip : PlainIp ip) (len : ℕ) (isCheck : Bool)
    (family : ℕ) : (u.chargeIp ip len isCheck family).1.Wired := by
  unfold IdUnit.chargeIp
  split
  · split_ifs
    · exact h
    · exact h.newEntry hip _ _
  · exact h.addToCell _ _ _

theorem Wired.addToCurrent (h : u.Wired) (len : ℕ) (isCheck other : Bool) :
    (u.modifyRecord (·.addToCurrent len isCheck) other).Wired := by
  cases other with
  | false => exact ⟨h.saves, h.mapped, h.combined.info, h.combined.other⟩
  | true =>
    refine ⟨h.saves, h.mapped, h.combined.info, fun o ho => ?_⟩
    obtain ⟨o', ho', rfl⟩ := Option.map_eq_some_iff.1 ho
    exact h.combined.other o' ho'

theorem Wired.chargeMonitor (h : u.Wired) (priv : NftBandwidthInfo) (len : ℕ) (isCheck : Bool) :
    (u.chargeMonitor priv len isCheck).Wired := by
  unfold IdUnit.chargeMonitor
  split_ifs
  · exact h.chargeCombined priv len isCheck
  · exact h

theorem Wired.countPacket (h : u.Wired) {other : Bool} {ips : NftBandwidthInfo → String × String}
    (hips : ∀ priv, u.record other = some priv → PlainIp (bwIp (ips priv))) (family len : ℕ)
    (isCheck : Bool) : (u.countPacket other ips family len isCheck).1.Wired := by
  unfold IdUnit.countPacket
  cases hpriv : u.record other with
  | none => exact h
  | some priv =>
    have hmonitor := h.chargeMonitor priv len isCheck
    simp only
    split_ifs
    · exact (h.chargeCombined priv len isCheck).addToCurrent len isCheck other
    · exact hmonitor.chargeIp (hips priv hpriv) len isCheck family
    · exact hmonitor.chargeIp (hips priv hpriv) len isCheck family
    · exact hmonitor

theorem Wired.handleIntervalReset (h : u.Wired) (now : ℤ) :
    (handleIntervalReset now u).Wired := by
  obtain ⟨hmapped, hcombined⟩ := h.mapped.handleIntervalReset h.saves now
  exact ⟨(SameRules.handleIntervalReset now u).saves.symm ▸ h.saves, hmapped, hcombined⟩

theorem Wired.resetIfDue (h : u.Wired) (other : Bool) (now : ℤ) :
    (u.resetIfDue other now).Wired := by
  unfold IdUnit.resetIfDue
  split
  · exact h
  · split_ifs
    · exact h.handleIntervalReset now
    · exact h

end Packet

/-! ## The clock and the time zone -/

section Shift

variable {u : IdUnit}

theorem Wired.of_info (h : u.Wired) {info : NftBandwidthInfo}
    (hsaves : info.numIntervalsToSave = u.info.numIntervalsToSave)
    (hcombined : info.combinedBw = u.info.combinedBw) : Wired { u with info := info } :=
  ⟨hsaves.symm ▸ h.saves, h.mapped, hcombined.trans h.combined.info, h.combined.other⟩

def historyKeys (u : IdUnit) : List String := (u.maps.ipHistoryMap.map HashedMap.keys).getD []

theorem historyKeys_eq {histories : StringMap BwHistory}
    (hmap : u.maps.ipHistoryMap = some histories) : u.historyKeys = histories.keys := by
  rw [historyKeys, hmap]
  rfl

/-- A history may be replaced under its address. -/
theorem Wired.replaceHistory (h : u.Wired) {histories : StringMap BwHistory}
    (hmap : u.maps.ipHistoryMap = some histories) {k : String} (hk : k ∈ histories.keys)
    (new : BwHistory) (cells : Arena ℕ) {info : NftBandwidthInfo}
    (hsaves : info.numIntervalsToSave = u.info.numIntervalsToSave)
    (hcombined : info.combinedBw = u.info.combinedBw) :
    let u' : IdUnit :=
      { u with
        info := info
        maps :=
          { u.maps with
            ipMap := u.maps.ipMap.set k new.current
            ipHistoryMap := some (histories.set k new)
            cells := cells } }
    let u'' := if k = combinedIp then u'.setCombinedBw (some new.current) else u'
    u''.Wired ∧ u''.historyKeys = histories.keys := by
  intro u' u''
  obtain ⟨histories', hmap', hsame, hpointed⟩ := h.mapped
  obtain rfl : histories = histories' := Option.some.inj (hmap.symm.trans hmap')
  have hmapped : u'.Mapped :=
    ⟨_, rfl, (hsame.setIp hk _).setHistory hk _, hpointed.set k new⟩
  have hsaves' : 0 < info.numIntervalsToSave := hsaves.symm ▸ h.saves
  have hkeys : u'.historyKeys = histories.keys :=
    (historyKeys_eq rfl).trans (histories.keys_set_of_mem new hk)
  by_cases hself : k = combinedIp
  · have hu : u'' = u'.setCombinedBw (some new.current) := if_pos hself
    rw [hu]
    subst hself
    have hget : u'.maps.ipMap.get combinedIp = some new.current := HashedMap.get_set_self _ _ _
    have hset := combinedSet_setCombinedBw u'
    rw [hget] at hset
    exact ⟨⟨hsaves', hmapped, hset⟩, hkeys⟩
  · have hu : u'' = u' := if_neg hself
    rw [hu]
    have hget : u'.maps.ipMap.get combinedIp = u.maps.ipMap.get combinedIp :=
      HashedMap.get_set_of_ne _ _ (hash_ne_combined (hsame.plain k hk) hself)
    exact ⟨⟨hsaves', hmapped, (hcombined.trans h.combined.info).trans hget.symm,
      fun o ho => (h.combined.other o ho).trans hget.symm⟩, hkeys⟩

theorem Wired.adjustIp (h : u.Wired) (now infoPreviousReset : ℤ) (zeroed : Bool)
    {e : String × BwHistory} (he : e.1 ∈ u.historyKeys) :
    (adjustIpForBackwardsTimeShift now infoPreviousReset (u, zeroed) e).1.Wired ∧
      (adjustIpForBackwardsTimeShift now infoPreviousReset (u, zeroed) e).1.historyKeys =
        u.historyKeys := by
  obtain ⟨histories, hmap, -⟩ := h.mapped
  rw [historyKeys_eq hmap] at he ⊢
  by_cases hone : e.2.numNodes = 1
  · simp only [adjustIpForBackwardsTimeShift, if_pos hone]
    split_ifs
    · exact ⟨⟨h.saves, h.mapped, h.combined.info, h.combined.other⟩, historyKeys_eq hmap⟩
    · exact ⟨h, historyKeys_eq hmap⟩
  · by_cases hend : e.2.lastEnd < now
    · simp only [adjustIpForBackwardsTimeShift, if_neg hone, if_pos hend]
      exact ⟨h, historyKeys_eq hmap⟩
    · simp only [adjustIpForBackwardsTimeShift, if_neg hone, if_neg hend, hmap, Option.map_some]
      exact h.replaceHistory hmap he _ _ rfl rfl

theorem Wired.adjustId (h : u.Wired) (now : ℤ) : (adjustIdForBackwardsTimeShift now u).Wired := by
  have hall : ∀ (infoPreviousReset : ℤ) (es : List (String × BwHistory)) (s : IdUnit × Bool),
      s.1.Wired → (∀ e ∈ es, e.1 ∈ s.1.historyKeys) →
      (es.foldl (adjustIpForBackwardsTimeShift now infoPreviousReset) s).1.Wired := by
    intro infoPreviousReset es
    induction es with
    | nil => exact fun s hs _ => hs
    | cons e es ih =>
      intro s hs hes
      obtain ⟨hstep, hkeys⟩ := hs.adjustIp now infoPreviousReset s.2 (hes e mem_cons_self)
      refine ih _ hstep fun e' he' => ?_
      rw [hkeys]
      exact hes e' (mem_cons_of_mem e he')
  obtain ⟨histories, hmap, -⟩ := h.mapped
  unfold adjustIdForBackwardsTimeShift
  split_ifs
  · exact h
  · simp only [hmap]
    refine hall _ _ (u, false) h fun e he => ?_
    rw [historyKeys_eq hmap]
    exact mem_map_of_mem he

theorem Wired.redateHistory (h : u.Wired) {histories : StringMap BwHistory}
    (hmap : u.maps.ipHistoryMap = some histories) {k : String} {old new : BwHistory}
    (hold : (k, old) ∈ histories.entries) (hcurrent : new.current = old.current)
    {info : NftBandwidthInfo} (hsaves : info.numIntervalsToSave = u.info.numIntervalsToSave)
    (hcombined : info.combinedBw = u.info.combinedBw) :
    Wired
      { u with
        info := info
        maps := { u.maps with ipHistoryMap := some (histories.set k new) } } := by
  obtain ⟨histories', hmap', hsame, hpointed⟩ := h.mapped
  obtain rfl : histories = histories' := Option.some.inj (hmap.symm.trans hmap')
  have hk : k ∈ histories.keys := (histories.mem_keys k).2 ⟨old, hold⟩
  refine ⟨hsaves.symm ▸ h.saves, ⟨_, rfl, hsame.setHistory hk new, ?_⟩,
    hcombined.trans h.combined.info, h.combined.other⟩
  exact hpointed.setHistory (histories.get_of_mem hold) hcurrent

/-- The walk of `shift_timezone_of_id` over the histories. -/
structure Shifting (rest : List (String × BwHistory)) (u : IdUnit) : Prop where
  wired : u.Wired
  todo : ∀ histories, u.maps.ipHistoryMap = some histories → ∀ e ∈ rest, e ∈ histories.entries
  sorted : rest.Pairwise fun a b => sdbmStringHash a.1 < sdbmStringHash b.1

/-- One address of a shift of the time zone. -/
theorem Shifting.step {e : String × BwHistory} {rest : List (String × BwHistory)}
    (h : Shifting (e :: rest) u) (now timezoneAdj infoPreviousReset : ℤ) :
    Shifting rest (shiftTimezoneOfIp now timezoneAdj infoPreviousReset u e) := by
  obtain ⟨histories, hmap, -⟩ := h.wired.mapped
  obtain ⟨hhead, htail⟩ := List.pairwise_cons.1 h.sorted
  have he := h.todo histories hmap e mem_cons_self
  have hrest : ∀ e' ∈ rest, e' ∈ histories.entries :=
    fun e' he' => h.todo histories hmap e' (mem_cons_of_mem e he')
  have hsame : ∀ {u' : IdUnit}, u'.maps.ipHistoryMap = some histories →
      ∀ hs, u'.maps.ipHistoryMap = some hs → ∀ e' ∈ rest, e' ∈ hs.entries := by
    intro u' hmap' hs hhs
    obtain rfl : histories = hs := Option.some.inj (hmap'.symm.trans hhs)
    exact hrest
  have hset : ∀ {u' : IdUnit} {new : BwHistory},
      u'.maps.ipHistoryMap = some (histories.set e.1 new) →
      ∀ hs, u'.maps.ipHistoryMap = some hs → ∀ e' ∈ rest, e' ∈ hs.entries := by
    intro u' new hmap' hs hhs e' he'
    obtain rfl : histories.set e.1 new = hs := Option.some.inj (hmap'.symm.trans hhs)
    exact (HashedMap.mem_entries_set _ _ _ _).2 (Or.inr ⟨hrest e' he', (hhead e' he').ne'⟩)
  simp only [shiftTimezoneOfIp, hmap, Option.map_some]
  split_ifs
  · exact ⟨h.wired.redateHistory hmap he (by rfl) (by rfl) (by rfl), hset rfl, htail⟩
  · exact ⟨h.wired.of_info rfl rfl, hsame hmap, htail⟩
  · exact ⟨h.wired.redateHistory hmap he (by rfl) (by rfl) (by rfl), hset rfl, htail⟩
  · exact ⟨h.wired.of_info rfl rfl, hsame hmap, htail⟩

theorem Shifting.foldl {rest : List (String × BwHistory)} (h : Shifting rest u)
    (now timezoneAdj infoPreviousReset : ℤ) :
    (rest.foldl (shiftTimezoneOfIp now timezoneAdj infoPreviousReset) u).Wired := by
  induction rest generalizing u with
  | nil => exact h.wired
  | cons e rest ih => exact ih (h.step now timezoneAdj infoPreviousReset)

omit [Kernel] in
theorem catchUpReset_combinedBw (now : ℤ) (n : ℕ) (info : NftBandwidthInfo) :
    (catchUpReset now n info).combinedBw = info.combinedBw := by
  induction n generalizing info with
  | zero => rfl
  | succ n ih =>
    rw [catchUpReset]
    split_ifs
    · exact ih _
    · rfl

omit [Kernel] in
theorem shiftTimezoneUnsaved_combinedBw (now timezoneAdj : ℤ) (info : NftBandwidthInfo) :
    (shiftTimezoneUnsaved now timezoneAdj info).combinedBw = info.combinedBw := by
  simp only [shiftTimezoneUnsaved]
  split_ifs
  · rfl
  · exact catchUpReset_combinedBw _ _ _

theorem Wired.shiftTimezone (h : u.Wired) (now timezoneAdj : ℤ) :
    (shiftTimezoneOfId now timezoneAdj u).Wired := by
  obtain ⟨histories, hmap, -⟩ := h.mapped
  unfold shiftTimezoneOfId
  split_ifs
  · exact h
  · simp only [hmap]
    split_ifs
    · refine Shifting.foldl ⟨h, fun hs hhs e he => ?_, histories.sorted⟩ _ _ _
      obtain rfl : histories = hs := Option.some.inj (hmap.symm.trans hhs)
      exact he
    · have hrule := shiftTimezoneUnsaved_rule now timezoneAdj u.info
      have hsaves : (shiftTimezoneUnsaved now timezoneAdj u.info).rule.numIntervalsToSave =
          u.info.rule.numIntervalsToSave := by rw [hrule]
      exact h.of_info hsaves (shiftTimezoneUnsaved_combinedBw now timezoneAdj u.info)

end Shift

end IdUnit

/-! ## Set requests -/

section Set

variable {ipMap : StringMap Cell} {histories : StringMap BwHistory} {ip : String}

def PointedBut (ip : String) (ipMap : StringMap Cell) (histories : StringMap BwHistory) : Prop :=
  ∀ k, sdbmStringHash ip ≠ sdbmStringHash k →
    ipMap.get k = (histories.get k).map BwHistory.current

theorem PointedBut.setHistory (h : PointedBut ip ipMap histories) (new : BwHistory) :
    PointedBut ip ipMap (histories.set ip new) := by
  intro k hk
  rw [HashedMap.get_set_of_ne _ _ hk]
  exact h k hk

theorem PointedBut.setIp (h : PointedBut ip ipMap histories) (c : Cell) :
    PointedBut ip (ipMap.set ip c) histories := by
  intro k hk
  rw [HashedMap.get_set_of_ne _ _ hk]
  exact h k hk

theorem PointedBut.pointed (h : PointedBut ip ipMap histories) {new : BwHistory}
    (hnew : histories.get ip = some new) : Pointed (ipMap.set ip new.current) histories := by
  intro k
  rw [HashedMap.get_set]
  split_ifs with hhash
  · rw [← histories.get_congr hhash, hnew, Option.map_some]
  · exact h k hhash

structure Rewriting (ip : String) (s : ReplayState) : Prop where
  saves : 0 < s.unit.info.numIntervalsToSave
  maps : ∃ histories, s.unit.maps.ipHistoryMap = some histories ∧
    SameIps s.unit.maps.ipMap histories s.unit.maps.ipFamilyMap ∧
    PointedBut ip s.unit.maps.ipMap histories ∧
    (s.history = none → Pointed s.unit.maps.ipMap histories) ∧
    ∀ h, s.history = some h → histories.get ip = some h ∧ ip ∈ histories.keys

theorem Rewriting.of_fetch {s : ReplayState} (h : Rewriting ip s) (b : ByteBuffer) (n : ℕ) :
    Rewriting ip (s.fetch b n).2 := by
  unfold ReplayState.fetch
  split_ifs
  · exact ⟨h.saves, h.maps⟩
  · exact ⟨h.saves, h.maps⟩

theorem Rewriting.create {s : ReplayState} (h : Rewriting ip s) (hip : PlainIp ip)
    (family bw : ℕ) : Rewriting ip (s.create ip family bw) := by
  obtain ⟨histories, hmap, hsame, hbut, -, -⟩ := h.maps
  have hmaps := initializedMaps_saved h.saves hmap ip bw family
  have hcreated := newEntry_maps s.unit ip bw family
  refine ⟨(IdUnit.SameRules.newEntry s.unit ip bw family).saves.symm ▸ h.saves, ?_⟩
  simp only [ReplayState.create, hcreated, hmaps, Option.bind_some, HashedMap.get_set_self]
  refine ⟨_, rfl, hsame.set hip _ _ _, (hbut.setIp _).setHistory _, ?_, fun h' hh' => ?_⟩
  · simp
  · obtain rfl := Option.some.inj hh'
    exact ⟨HashedMap.get_set_self _ _ _, HashedMap.mem_keys_set_self _ _ _⟩

theorem Rewriting.close {s : ReplayState} (h : Rewriting ip s) {old : BwHistory}
    (hold : s.history = some old) (bw : ℕ) (now : ℤ) : Rewriting ip (s.close ip bw now old) := by
  obtain ⟨histories, hmap, hsame, hbut, -, hget⟩ := h.maps
  have hk := (hget old hold).2
  have hset : ∀ new : BwHistory, SameIps s.unit.maps.ipMap (histories.set ip new)
        s.unit.maps.ipFamilyMap ∧ PointedBut ip s.unit.maps.ipMap (histories.set ip new) ∧
      (some new = none → Pointed s.unit.maps.ipMap (histories.set ip new)) ∧
      ∀ h', some new = some h' →
        (histories.set ip new).get ip = some h' ∧ ip ∈ (histories.set ip new).keys := by
    intro new
    refine ⟨hsame.setHistory hk new, hbut.setHistory new, by simp, fun h' hh' => ?_⟩
    obtain rfl := Option.some.inj hh'
    exact ⟨HashedMap.get_set_self _ _ _, (histories.keys_set_of_mem new hk).symm ▸ hk⟩
  unfold ReplayState.close
  simp only [IdUnit.setHistory, hmap, Option.map_some]
  split_ifs
  · exact ⟨h.saves, _, rfl, hset _⟩
  · exact ⟨h.saves, _, rfl, hset _⟩

theorem Rewriting.replay {s : ReplayState} (h : Rewriting ip s) (hip : PlainIp ip)
    (b : ByteBuffer) (family n : ℕ) (now : ℤ) (rounds : ℕ) :
    Rewriting ip (replay b ip family n now rounds s) := by
  induction rounds generalizing s with
  | zero => exact h
  | succ rounds ih =>
    have hfetch := h.of_fetch b n
    rw [Bandwidth.replay]
    by_cases hbefore : s.nextStart < now
    · rw [if_pos hbefore]
      cases hhistory : s.history with
      | none => exact ih (hfetch.create hip family _)
      | some old =>
        have hold : (s.fetch b n).2.history = some old := by
          unfold ReplayState.fetch
          split_ifs
          · exact hhistory
          · exact hhistory
        simp only
        split_ifs
        · exact ih (hfetch.create hip family _)
        · exact ih (hfetch.close hold _ now)
        · exact ⟨hfetch.saves, hfetch.maps⟩
    · rw [if_neg hbefore]
      exact h

theorem Rewriting.finish {s : ReplayState} (h : Rewriting ip s) (words : In6Addr) :
    (finishReplay ip words s).Mapped := by
  obtain ⟨histories, hmap, hsame, hbut, hnone, hget⟩ := h.maps
  unfold finishReplay
  split
  · rename_i hhistory
    exact ⟨histories, hmap, hsame, hnone hhistory⟩
  · rename_i new hhistory
    obtain ⟨hnew, hk⟩ := hget new hhistory
    exact ⟨histories, hmap, hsame.setIp hk _, hbut.pointed hnew⟩

namespace IdUnit

variable {u : IdUnit}

theorem Mapped.setCounter (h : u.Mapped) (hsaves : 0 < u.info.numIntervalsToSave)
    (hip : PlainIp ip) (words : In6Addr) (bw family : ℕ) :
    (setCounter u ip words bw family).Mapped := by
  have hentry := h.newEntry hsaves hip bw family
  simp only [Bandwidth.setCounter]
  split_ifs
  · exact hentry
  · exact hentry

theorem Mapped.setSingleIpData (h : u.Mapped) (hsaves : 0 < u.info.numIntervalsToSave)
    (historyIncluded : Bool) (west : ℤ) (b : ByteBuffer) (now : ℤ) {index : ℕ}
    (hip : PlainIp (blockAddress b index).1) :
    (setSingleIpData historyIncluded west b now u index).1.Mapped := by
  simp only [Bandwidth.setSingleIpData]
  split_ifs
  · refine Rewriting.finish (Rewriting.replay ⟨hsaves, ?_⟩ hip _ _ _ _ _) _
    obtain ⟨histories, hmap, hsame, hpointed⟩ := h
    exact ⟨histories, hmap, hsame, fun k _ => hpointed k, fun _ => hpointed, by simp⟩
  · exact h.setCounter hsaves hip _ _ _
  · exact h.setCounter hsaves hip _ _ _

end IdUnit

def setAddresses (historyIncluded : Bool) (west : ℤ) (b : ByteBuffer) (now : ℤ) :
    ℕ → IdUnit → ℕ → List String
  | 0, _, _ => []
  | n + 1, u, index =>
    let next := setSingleIpData historyIncluded west b now u index
    (blockAddress b index).1 :: setAddresses historyIncluded west b now n next.1 next.2

namespace IdUnit

variable {u : IdUnit}

theorem Mapped.setBlocks (h : u.Mapped) (hsaves : 0 < u.info.numIntervalsToSave)
    {historyIncluded : Bool} {west : ℤ} {b : ByteBuffer} {now : ℤ} {n index : ℕ}
    (hips : ∀ ip ∈ setAddresses historyIncluded west b now n u index, PlainIp ip) :
    (setBlocks historyIncluded west b now n u index).Mapped := by
  induction n generalizing u index with
  | zero => exact h
  | succ n ih =>
    obtain ⟨hfirst, hrest⟩ := List.forall_mem_cons.1 hips
    have hrules := SameRules.setSingleIpData historyIncluded west b now u index
    exact ih (h.setSingleIpData hsaves historyIncluded west b now hfirst)
      (hrules.saves.symm ▸ hsaves) hrest

end IdUnit

theorem foldl_clearIp_families (freeCounter : Bool) (es : List (String × Cell)) (maps : IpMaps) :
    ((es.foldl (clearIp freeCounter) maps).ipFamilyMap).entries =
      maps.ipFamilyMap.entries.filter fun e =>
        ∀ e' ∈ es, sdbmStringHash e.1 ≠ sdbmStringHash e'.1 := by
  induction es generalizing maps with
  | nil => simp
  | cons e es ih =>
    rw [foldl_cons, ih]
    simp only [clearIp, HashedMap.remove, List.filter_filter, mem_cons, forall_eq_or_imp,
      Bool.decide_and]
    refine List.filter_congr fun e' _ => ?_
    rw [Bool.and_comm]

theorem foldl_clearHistory_families (es : List (String × BwHistory)) (maps : IpMaps) :
    (es.foldl clearHistory maps).ipFamilyMap = maps.ipFamilyMap := by
  induction es generalizing maps with
  | nil => rfl
  | cons e es ih => exact ih (clearHistory maps e)

namespace IdUnit

variable {u : IdUnit}

theorem Mapped.clearAllIps (h : u.Mapped) (hsaves : 0 < u.info.numIntervalsToSave) :
    (clearAllIps u).Mapped := by
  obtain ⟨histories, hmap, hsame, -⟩ := h
  obtain ⟨hips, ⟨rest, hrest, hempty⟩, -⟩ := clearAllIps_saved hsaves hmap
  refine mapped_of_empty hrest hips hempty ?_
  simp only [Bandwidth.clearAllIps, if_pos hsaves, hmap]
  rw [foldl_clearHistory_families, foldl_clearIp_families]
  refine List.filter_eq_nil_iff.2 fun e he hall => ?_
  have hkey : e.1 ∈ u.maps.ipMap.keys := by
    rw [hsame.ips, ← hsame.families]
    exact mem_map_of_mem he
  obtain ⟨c, hc⟩ := (u.maps.ipMap.mem_keys e.1).1 hkey
  exact of_decide_eq_true hall _ hc rfl

theorem Mapped.prepareSet (h : u.Mapped) (hsaves : 0 < u.info.numIntervalsToSave)
    (header : SetHeader) : (prepareSet header u).Mapped := by
  simp only [Bandwidth.prepareSet]
  split_ifs
  · exact Mapped.clearAllIps h hsaves
  · exact h

theorem Wired.applySet (h : u.Wired) {header : SetHeader} {west : ℤ} {b : ByteBuffer} {now : ℤ}
    (hips : ∀ ip ∈ setAddresses header.historyIncluded west b now header.rounds
      (prepareSet header u) setHeaderLength, PlainIp ip) :
    (applySet header west b now (prepareSet header u)).Wired := by
  have hprepared := SameRules.prepareSet header u
  have hrules := hprepared.trans (SameRules.applySet header west b now (Bandwidth.prepareSet header u))
  refine ⟨hrules.saves.symm ▸ h.saves, ?_, combinedSet_setCombinedBw _⟩
  exact (h.mapped.prepareSet h.saves header).setBlocks (hprepared.saves.symm ▸ h.saves) hips

end IdUnit

end Set

/-! ## Runs -/

inductive IdChange
  | event (e : IdEvent)
  | backwards (now : ℤ)
  | timezone (now timezoneAdj : ℤ)
  | set (header : SetHeader) (west : ℤ) (b : ByteBuffer) (now : ℤ)

namespace IdUnit

def change (u : IdUnit) : IdChange → IdUnit
  | .event e => u.handle e
  | .backwards now => adjustIdForBackwardsTimeShift now u
  | .timezone now timezoneAdj => shiftTimezoneOfId now timezoneAdj u
  | .set header west b now => applySet header west b now (prepareSet header u)

def addressesOf (u : IdUnit) : IdChange → List String
  | .event (.packet other _ swap pkt _) =>
    ((u.record other).map fun priv => bwIp (pkt.bwIps priv swap)).toList
  | .set header west b now =>
    setAddresses header.historyIncluded west b now header.rounds (prepareSet header u)
      setHeaderLength
  | _ => []

def changeAll (u : IdUnit) (es : List IdChange) : IdUnit := es.foldl change u

/-- No change of a run is for an address other than `0.0.0.0` with its hash. -/
def PlainRun : IdUnit → List IdChange → Prop
  | _, [] => True
  | u, e :: es => (∀ ip ∈ u.addressesOf e, PlainIp ip) ∧ PlainRun (u.change e) es

variable {u : IdUnit}

theorem bwIp_of_rule {priv priv' : NftBandwidthInfo} (hrule : priv'.rule = priv.rule)
    (pkt : Packet) (swap : Bool) : pkt.bwIps priv' swap = pkt.bwIps priv swap := by
  have heq : ∀ p : NftBandwidthInfo, pkt.bwIps p swap = pkt.bwIps p.rule swap := by
    intro p
    cases pkt <;> rfl
  rw [heq priv', hrule, ← heq priv]

theorem Wired.change (h : u.Wired) {e : IdChange} (hplain : ∀ ip ∈ u.addressesOf e, PlainIp ip) :
    (u.change e).Wired := by
  cases e with
  | event e =>
    cases e with
    | packet other isCheck swap pkt now =>
      refine (h.resetIfDue other now).countPacket (fun priv hpriv => ?_) _ _ _
      obtain ⟨old, hold, hrule⟩ :=
        Agree.exists_record (SameRules.resetIfDue u other now) hpriv
      rw [bwIp_of_rule hrule]
      exact hplain _ (by simp [addressesOf, hold])
    | reset now => exact h.handleIntervalReset now
  | backwards now => exact h.adjustId now
  | timezone now timezoneAdj => exact h.shiftTimezone now timezoneAdj
  | set header west b now => exact h.applySet hplain

theorem Wired.changeAll (h : u.Wired) {es : List IdChange} (hplain : u.PlainRun es) :
    (u.changeAll es).Wired := by
  induction es generalizing u with
  | nil => exact h
  | cons e es ih => exact ih (h.change hplain.1) hplain.2

theorem wired_of_initial (hsaves : 0 < u.info.numIntervalsToSave)
    (hmaps : u.maps = IpMaps.initial u.info.numIntervalsToSave) (hcombined : u.info.combinedBw = none)
    (hother : ∀ o, u.otherInfo = some o → o.combinedBw = none) : u.Wired := by
  have hinitial : IpMaps.initial u.info.numIntervalsToSave =
      ⟨HashedMap.empty, some HashedMap.empty, HashedMap.empty, Arena.empty⟩ := by
    rw [IpMaps.initial, if_pos hsaves]
  rw [hinitial] at hmaps
  refine ⟨hsaves, ?_, ⟨?_, fun o ho => ?_⟩⟩
  · have hmap : u.maps.ipHistoryMap = some HashedMap.empty := by rw [hmaps]
    refine mapped_of_empty hmap ?_ rfl ?_
    · rw [hmaps]
      rfl
    · rw [hmaps]
      rfl
  · rw [hcombined, hmaps]
    rfl
  · rw [hother o ho, hmaps]
    rfl

/-- The maps and the pointers of an id that saves intervals fit together in every
run that is not for an address with the hash of `0.0.0.0`. -/
theorem linked_of_plain_run (hsaves : 0 < u.info.numIntervalsToSave)
    (hmaps : u.maps = IpMaps.initial u.info.numIntervalsToSave) (hcombined : u.info.combinedBw = none)
    (hother : ∀ o, u.otherInfo = some o → o.combinedBw = none) {es : List IdChange}
    (hplain : u.PlainRun es) : (u.changeAll es).Linked :=
  ((wired_of_initial hsaves hmaps hcombined hother).changeAll hplain).linked

end IdUnit

end

section Minutes

local instance linkedKernel : Kernel := referenceKernel 32

def sourceMinutes : IdUnit where
  info :=
    { sourceQuota with
      resetInterval := bandwidthMinute
      numIntervalsToSave := 1
      previousReset := 960
      nextReset := 1020 }
  otherInfo := none
  maps := IpMaps.initial 1

/-- A packet from 192.168.1.5, the end of the minute, a clock that has gone back
and another time zone. -/
theorem sourceMinutes_linked :
    (sourceMinutes.changeAll
      [.event (.packet false false false (.ipv4 0x0501a8c0 0x08080808 1500) 1000),
        .event (.reset 1021), .backwards 990, .timezone 1050 3600]).Linked := by
  refine IdUnit.linked_of_plain_run (by decide) rfl rfl ?_ ?_
  · intro o ho
    cases ho
  · exact ⟨by decide, by decide, by decide, by decide, trivial⟩

def strangeAddress : In6Addr := ![0xb80d0120, 0x02000100, 0x04000300, 0x212aa9de]

/-- On a machine with words of 32 bits that address has the hash of `0.0.0.0`.
After a packet from it there is an entry for the combined counter, and
`combined_bw` is not set. -/
theorem strange_address_not_linked :
    Kernel.ulongBits = 32 ∧ Kernel.pI6c strangeAddress = "2001:db8:1:2:3:4:dea9:2a21" ∧
      ¬ (sourceMinutes.changeAll
        [.event (.packet false false false (.ipv6 strangeAddress 0 1500) 1000)]).Linked := by
  refine ⟨rfl, by decide, fun hlinked => ?_⟩
  exact absurd hlinked.combined (by decide)

end Minutes

end Bandwidth

end Gargoyle
