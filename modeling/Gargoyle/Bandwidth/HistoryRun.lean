import Gargoyle.Bandwidth.LazyReset

/-!
# The histories of an id in a run

Histories are started by `initialize_history`, counted in, closed by
`update_history` and `handle_interval_reset`, and started over when a gap is too
long. In every run they are rings (`rings_in_every_run`).

`non_zero_nodes` is the number of saved nodes that are not zero, except that the
two places that start a history over set it to one where nothing is saved
(`restart_miscounts`, `wipe_miscounts`). It is right in a run that comes to
neither of them.
-/

namespace Gargoyle

open List

namespace Bandwidth

open ByteBuffer

/-! ## The count of one history -/

namespace HistoryView

variable {v : HistoryView}

def Counted (v : HistoryView) : Prop := v.nonZeroNodes = nonZero v.nodes.dropLast

theorem Tallied.counted_close (h : v.Tallied) (hcounted : v.Counted) (next : ℤ → ℤ)
    (start stop : ℤ) : (v.close next start stop).Counted := by
  obtain ⟨saved, running, hnodes, hlen, hlow, hhigh⟩ := h.count
  have hclosed := closedCount_eq hnodes h.small hlen h.room hlow hhigh
  have hsaved : v.nonZeroNodes = nonZero saved := by
    rw [hcounted, hnodes, dropLast_concat]
  have hdrop : (v.close next start stop).nodes.dropLast =
      if v.nodes.length < v.maxNodes then v.nodes else v.nodes.tail := dropLast_concat
  have hcount : (v.close next start stop).nonZeroNodes = v.closedCount := rfl
  rw [Counted, hdrop, hcount]
  omega

/-- `P` holds of a history that has just begun, and stays true when its running
node changes and when its interval is closed. -/
structure Preserved (maxNodes : ℕ) (P : HistoryView → Prop) : Prop where
  begin : ∀ {v}, v.maxNodes = maxNodes → v.nonZeroNodes = 0 → v.nodes.length = 1 → P v
  write : ∀ {v} running, P v → P { v with nodes := v.nodes.dropLast ++ [running] }
  close : ∀ {v} next start stop, P v → P (v.close next start stop)

/-- `P` holds of a history that has been started over. -/
def Restartable (maxNodes : ℕ) (P : HistoryView → Prop) : Prop :=
  ∀ {v}, v.maxNodes = maxNodes → v.nonZeroNodes = 1 → v.nodes.length = 1 → P v

variable {maxNodes : ℕ}

theorem preserved_tallied (hroom : 2 ≤ maxNodes) (hsmall : maxNodes < 2 ^ 32) :
    Preserved maxNodes Tallied where
  begin := by
    intro v hmax hcount hnodes
    exact tallied_of_singleton (hmax ▸ hroom) (hmax ▸ hsmall) (hcount ▸ Nat.zero_le 1) hnodes
  write := fun _ h => h.of_running rfl rfl rfl
  close := fun next start stop h => h.close next start stop

theorem restartable_tallied (hroom : 2 ≤ maxNodes) (hsmall : maxNodes < 2 ^ 32) :
    Restartable maxNodes Tallied := by
  intro v hmax hcount hnodes
  exact tallied_of_singleton (hmax ▸ hroom) (hmax ▸ hsmall) hcount.le hnodes

theorem nonZero_of_length_one (hnodes : v.nodes.length = 1) : nonZero v.nodes.dropLast = 0 := by
  obtain ⟨running, hrunning⟩ := List.length_eq_one_iff.1 hnodes
  rw [hrunning]
  rfl

theorem preserved_counted (hroom : 2 ≤ maxNodes) (hsmall : maxNodes < 2 ^ 32) :
    Preserved maxNodes fun v => v.Tallied ∧ v.Counted where
  begin := by
    intro v hmax hcount hnodes
    exact ⟨(preserved_tallied hroom hsmall).begin hmax hcount hnodes,
      hcount.trans (nonZero_of_length_one hnodes).symm⟩
  write := by
    intro v running h
    refine ⟨(preserved_tallied hroom hsmall).write running h.1, ?_⟩
    rw [Counted, dropLast_concat]
    exact h.2
  close := fun next start stop h => ⟨h.1.close next start stop, h.1.counted_close h.2 next start stop⟩

theorem not_counted_of_restarted (hcount : v.nonZeroNodes = 1) (hnodes : v.nodes.length = 1) :
    ¬ v.Counted := by
  rw [Counted, hcount, nonZero_of_length_one hnodes]
  exact Nat.one_ne_zero

end HistoryView

theorem BwHistory.Ring.view_store_current {h : BwHistory} {cells : Arena ℕ} (hr : h.Ring cells)
    (bw : ℕ) : h.view (cells.store h.current bw) =
      { h.view cells with nodes := (h.view cells).nodes.dropLast ++ [bw] } := by
  simp only [BwHistory.view, hr.chronological_store_current]

section

variable [Kernel]

/-! ## The operations -/

abbrev Address := { ip : String // PrintedIp ip }

/-- What is done to the histories of an id: the entries of an address are made,
the running node of an address is given a value, an interval of an address is
closed, the intervals that have ended are closed, and the history of an address
is started over. -/
inductive HistoryOp
  | enter (ip : Address) (bw : UInt64) (family : ℕ)
  | write (ip : String) (bw : UInt64)
  | update (ip : String) (intervalStart intervalEnd : ℤ)
  | reset (now : ℤ)
  | restart (ip : String)

namespace IdUnit

def histories (u : IdUnit) : List (String × BwHistory) :=
  match u.maps.ipHistoryMap with
  | some histories => histories.entries
  | none => []

def historyEntry (u : IdUnit) (ip : String) : Option (String × BwHistory) :=
  u.histories.find? fun e => sdbmStringHash e.1 = sdbmStringHash ip

def writeNode (u : IdUnit) (ip : String) (bw : ℕ) : IdUnit :=
  match u.historyEntry ip with
  | some e => { u with maps := { u.maps with cells := u.maps.cells.store e.2.current bw } }
  | none => u

/-- `update_history` on the history of an address. -/
def updateEntry (u : IdUnit) (ip : String) (intervalStart intervalEnd : ℤ) : IdUnit :=
  match u.historyEntry ip with
  | some e =>
    let updated := updateHistory u.maps.cells e.2 intervalStart intervalEnd u.info
    u.setHistory e.1 updated.2.1 updated.1
  | none => u

/-- The history reset of `set_single_ip_data` on the history of an address. -/
def restartEntry (u : IdUnit) (ip : String) : IdUnit :=
  match u.historyEntry ip with
  | some e => u.setHistory e.1 e.2.restarted (u.maps.cells.store e.2.restarted.current 0)
  | none => u

end IdUnit

def HistoryOp.apply (u : IdUnit) : HistoryOp → IdUnit
  | .enter ip bw family => (initializeMapEntriesForIp u ip bw.toNat family).1
  | .write ip bw => u.writeNode ip bw.toNat
  | .update ip intervalStart intervalEnd => u.updateEntry ip intervalStart intervalEnd
  | .reset now => handleIntervalReset now u
  | .restart ip => u.restartEntry ip

def HistoryOp.Calm (u : IdUnit) : HistoryOp → Prop
  | .reset now =>
    u.histories = [] ∨ ∃ b ≤ u.info.numIntervalsToSave,
      now < u.info.boundaryAfter^[b] u.info.nextReset
  | .restart ip => u.historyEntry ip = none
  | _ => True

namespace IdUnit

def runHistory (u : IdUnit) (ops : List HistoryOp) : IdUnit := ops.foldl HistoryOp.apply u

theorem runHistory_append (u : IdUnit) (ops ops' : List HistoryOp) :
    u.runHistory (ops ++ ops') = (u.runHistory ops).runHistory ops' := foldl_append

def CalmRun : IdUnit → List HistoryOp → Prop
  | _, [] => True
  | u, op :: ops => op.Calm u ∧ (op.apply u).CalmRun ops

end IdUnit

/-! ## What an operation keeps -/

namespace IdUnit

/-- The histories of an id that saves `maxNodes - 1` intervals fit together, and
`P` holds of each of them. -/
structure Holds (maxNodes : ℕ) (P : HistoryView → Prop) (u : IdUnit) : Prop where
  saves : 0 < u.info.numIntervalsToSave
  max : u.info.numIntervalsToSave + 1 = maxNodes
  filed : u.Filed maxNodes
  all : ∀ e ∈ u.histories, P (e.2.view u.maps.cells)

variable {u : IdUnit} {maxNodes : ℕ} {P : HistoryView → Prop}

theorem histories_eq {histories : StringMap BwHistory}
    (hmap : u.maps.ipHistoryMap = some histories) : u.histories = histories.entries := by
  simp only [IdUnit.histories, hmap]

theorem all_ledger_iff_histories (hfiled : u.Filed maxNodes) :
    Rounds.All P u.ledger ↔ ∀ e ∈ u.histories, P (e.2.view u.maps.cells) := by
  obtain ⟨histories, hmap, -⟩ := hfiled
  rw [all_ledger_iff hmap, histories_eq hmap]

theorem mem_of_historyEntry {ip : String} {e : String × BwHistory}
    (h : u.historyEntry ip = some e) : e ∈ u.histories := mem_of_find?_eq_some h

theorem Holds.setHistory (h : u.Holds maxNodes P) {e : String × BwHistory} (he : e ∈ u.histories)
    {new : BwHistory} (hdata : new.historyData = e.2.historyData)
    (hmax : new.maxNodes = e.2.maxNodes) (hring : new.Ring u.maps.cells) {bw : ℕ}
    (hbw : bw < 2 ^ 64) (hP : P (new.view (u.maps.cells.store new.current bw))) :
    (u.setHistory e.1 new (u.maps.cells.store new.current bw)).Holds maxNodes P := by
  obtain ⟨histories, hmap, hkept⟩ := h.filed
  rw [histories_eq hmap] at he
  have hmap' : (u.setHistory e.1 new (u.maps.cells.store new.current bw)).maps.ipHistoryMap =
      some (histories.set e.1 new) := by
    simp [IdUnit.setHistory, hmap]
  refine ⟨h.saves, h.max, ⟨_, hmap', (hkept.setHistory he hdata hmax hring).store _ hbw⟩, ?_⟩
  rw [histories_eq hmap']
  intro e' he'
  rcases (HashedMap.mem_entries_set _ _ _ _).1 he' with rfl | ⟨hmem, hhash⟩
  · exact hP
  · have hne : e'.2.historyData ≠ new.historyData := by
      intro hblock
      exact hhash (by rw [hkept.apart e' hmem e he (hblock.trans hdata)])
    have hview : e'.2.view (u.maps.cells.store new.current bw) = e'.2.view u.maps.cells :=
      BwHistory.view_congr (if_neg hne)
    change P (e'.2.view (u.maps.cells.store new.current bw))
    rw [hview]
    exact h.all e' (histories_eq hmap ▸ hmem)

theorem Holds.ring (h : u.Holds maxNodes P) {e : String × BwHistory} (he : e ∈ u.histories) :
    e.2.Ring u.maps.cells ∧ e.2.maxNodes = maxNodes := by
  obtain ⟨histories, hmap, hkept⟩ := h.filed
  exact hkept.rings e (histories_eq hmap ▸ he)

theorem Holds.setHistory_self (h : u.Holds maxNodes P) {e : String × BwHistory}
    (he : e ∈ u.histories) (cells : Arena ℕ) :
    u.setHistory e.1 e.2 cells = { u with maps := { u.maps with cells := cells } } := by
  obtain ⟨histories, hmap, -⟩ := h.filed
  rw [histories_eq hmap] at he
  have hself : histories.set e.1 e.2 = histories := by
    refine HashedMap.ext_get (histories.keys_set_of_mem e.2 (mem_map_of_mem he)) fun k => ?_
    rw [HashedMap.get_set]
    split_ifs with hhash
    · rw [← histories.get_congr hhash, histories.get_of_mem he]
    · rfl
  simp [IdUnit.setHistory, hmap, hself]

theorem Holds.writeNode (hP : HistoryView.Preserved maxNodes P) (h : u.Holds maxNodes P)
    (ip : String) {bw : ℕ} (hbw : bw < 2 ^ 64) : (u.writeNode ip bw).Holds maxNodes P := by
  unfold IdUnit.writeNode
  cases hentry : u.historyEntry ip with
  | none => exact h
  | some e =>
    have he := mem_of_historyEntry hentry
    obtain ⟨hring, -⟩ := h.ring he
    have hview := hring.view_store_current bw
    have hset := h.setHistory he rfl rfl hring hbw (hview.symm ▸ hP.write bw (h.all e he))
    rw [h.setHistory_self he] at hset
    exact hset

theorem Holds.updateEntry (hP : HistoryView.Preserved maxNodes P) (h : u.Holds maxNodes P)
    (ip : String) (start stop : ℤ) : (u.updateEntry ip start stop).Holds maxNodes P := by
  unfold IdUnit.updateEntry
  cases hentry : u.historyEntry ip with
  | none => exact h
  | some e =>
    have he := mem_of_historyEntry hentry
    obtain ⟨hring, -⟩ := h.ring he
    have hview := updateHistory_view hring start stop u.info
    rw [updateHistory_cells] at hview
    have hclosed := hview.symm ▸ hP.close u.info.boundaryAfter start stop (h.all e he)
    exact @Holds.setHistory _ u maxNodes P h e he
      (updateHistory u.maps.cells e.2 start stop u.info).2.1 rfl rfl
      (updateHistory_ring_before hring start stop u.info) 0 (by norm_num) hclosed

theorem Holds.restartEntry (hP : HistoryView.Restartable maxNodes P) (h : u.Holds maxNodes P)
    (ip : String) : (u.restartEntry ip).Holds maxNodes P := by
  unfold IdUnit.restartEntry
  cases hentry : u.historyEntry ip with
  | none => exact h
  | some e =>
    have he := mem_of_historyEntry hentry
    obtain ⟨hring, hmax⟩ := h.ring he
    have hrestarted : e.2.restarted.Ring u.maps.cells :=
      ⟨le_rfl, hring.pos.trans hring.le, hring.pos.trans hring.le, fun _ => rfl, hring.block⟩
    have hview := hP (v := e.2.restarted.view (u.maps.cells.store e.2.restarted.current 0)) hmax
      rfl (BwHistory.length_chronological _ _)
    exact @Holds.setHistory _ u maxNodes P h e he e.2.restarted rfl rfl hrestarted 0 (by norm_num)
      hview

theorem Holds.enter (hP : HistoryView.Preserved maxNodes P) (h : u.Holds maxNodes P)
    {ip : String} (hip : PrintedIp ip) {bw : ℕ} (hbw : bw < 2 ^ 64) (family : ℕ) :
    (initializeMapEntriesForIp u ip bw family).1.Holds maxNodes P := by
  obtain ⟨histories, hmap, hkept⟩ := h.filed
  have hnum := (SameRules.newEntry u ip bw family).saves
  have hmaps := (newEntry_maps u ip bw family).trans
    (initializedMaps_saved h.saves hmap ip bw family)
  have hmap' := congrArg IpMaps.ipHistoryMap hmaps
  refine ⟨hnum.symm ▸ h.saves, hnum.symm ▸ h.max, ⟨_, hmap', ?_⟩, ?_⟩
  · rw [hmaps]
    exact hkept.newHistory ip hip h.max hbw
  · rw [histories_eq hmap', hmaps]
    intro e he
    rcases (HashedMap.mem_entries_set _ _ _ _).1 he with rfl | ⟨hmem, hhash⟩
    · exact hP.begin h.max rfl (BwHistory.length_chronological _ _)
    · have hother : e.2.historyData ≠ u.maps.cells.bound := (hkept.block_lt hmem).ne
      have hblock : ((makeRoom u histories ip).store
          (initializeHistory u.maps.cells u.info.numIntervalsToSave).2.current bw).blocks
          e.2.historyData = u.maps.cells.blocks e.2.historyData :=
        (if_neg hother).trans (makeRoom_blocks_other hkept ip hmem hhash)
      have hview := BwHistory.view_congr hblock
      exact hview.symm ▸ h.all e (histories_eq hmap ▸ hmem)

theorem Holds.closeIntervals
    (hclose : ∀ {v : HistoryView} next start stop, P v → P (v.close next start stop))
    (h : u.Holds maxNodes P) (now : ℤ) (n : ℕ) :
    (Bandwidth.closeIntervals now n u).Holds maxNodes P := by
  obtain ⟨hfiled, hledger⟩ := @closeIntervals_ledger _ u now _ h.filed n
  have hnum := (SameRules.closeIntervals now n u).saves
  have hbook : Rounds.All P u.ledger := (all_ledger_iff_histories h.filed).2 h.all
  have hall : Rounds.All P ((intervalRounds u.info.boundaryAfter).catchUp now n u.ledger) :=
    Rounds.all_catchUp (fun hv a b => hclose u.info.boundaryAfter a b hv) hbook n
  rw [← hledger] at hall
  exact ⟨hnum.symm ▸ h.saves, hnum.symm ▸ h.max, hfiled, (all_ledger_iff_histories hfiled).1 hall⟩

theorem Holds.wipeHistories (hP : HistoryView.Restartable maxNodes P) (h : u.Holds maxNodes P)
    (now : ℤ) : (Bandwidth.wipeHistories u now).Holds maxNodes P := by
  have hnum := (SameRules.wipeHistories u now).saves
  obtain ⟨hfiled, hall⟩ := @all_wipeHistories _ u now P _ h.filed hP
    ((all_ledger_iff_histories h.filed).2 h.all)
  exact ⟨hnum.symm ▸ h.saves, hnum.symm ▸ h.max, hfiled, (all_ledger_iff_histories hfiled).1 hall⟩

theorem Holds.finishReset (h : u.Holds maxNodes P) : (Bandwidth.finishReset u).Holds maxNodes P :=
  ⟨h.saves, h.max, h.filed, h.all⟩

theorem histories_wipeHistories_of_nil (hnone : u.histories = []) (now : ℤ) :
    (Bandwidth.wipeHistories u now).histories = [] := by
  cases hmap : u.maps.ipHistoryMap with
  | none => simp [IdUnit.histories, Bandwidth.wipeHistories, hmap]
  | some histories =>
    have hnil : histories.entries = [] := by
      simpa [IdUnit.histories, hmap] using hnone
    simp only [Bandwidth.wipeHistories, hmap]
    split_ifs
    · simp [IdUnit.histories, hnil]
    · exact hnone

/-- A reset after at most one interval keeps what a closed interval keeps. -/
theorem Holds.handleIntervalReset_calm (hP : HistoryView.Preserved maxNodes P)
    (h : u.Holds maxNodes P) {now : ℤ} (hcalm : (HistoryOp.reset now).Calm u) :
    (handleIntervalReset now u).Holds maxNodes P := by
  have hclosed := h.closeIntervals hP.close now u.info.numIntervalsToSave
  rw [handleIntervalReset_of_filed h.saves h.filed]
  refine Holds.finishReset ?_
  rcases hcalm with hnone | hahead
  · -- without histories nothing can be started over
    have hempty : u.Holds maxNodes fun _ => False :=
      ⟨h.saves, h.max, h.filed, by simp [hnone]⟩
    have hstill := hempty.closeIntervals (fun _ _ _ hv => hv) now u.info.numIntervalsToSave
    have hnil := histories_wipeHistories_of_nil (List.eq_nil_iff_forall_not_mem.2 hstill.all) now
    have hfiled := hstill.filed
    obtain ⟨hfiled', -⟩ := @all_wipeHistories _ _ now (fun _ => True) _ hfiled
      (fun _ _ _ => trivial) ((all_ledger_iff_histories hfiled).2 fun _ _ => trivial)
    have hnum := (SameRules.wipeHistories (Bandwidth.closeIntervals now u.info.numIntervalsToSave u)
      now).saves
    exact ⟨hnum.symm ▸ hclosed.saves, hnum.symm ▸ hclosed.max, hfiled', by simp [hnil]⟩
  · obtain ⟨-, hledger⟩ := @closeIntervals_ledger _ u now _ h.filed u.info.numIntervalsToSave
    have hdue := Rounds.lt_due_catchUp
      (show ∃ b ≤ u.info.numIntervalsToSave,
        now < (intervalRounds u.info.boundaryAfter).next^[b] u.ledger.due from hahead)
    rw [← hledger] at hdue
    rw [wipeHistories_of_lt hdue]
    exact hclosed

theorem Holds.handleIntervalReset (hP : HistoryView.Preserved maxNodes P)
    (hrestart : HistoryView.Restartable maxNodes P) (h : u.Holds maxNodes P) (now : ℤ) :
    (Bandwidth.handleIntervalReset now u).Holds maxNodes P := by
  rw [handleIntervalReset_of_filed h.saves h.filed]
  have hclosed := h.closeIntervals hP.close now u.info.numIntervalsToSave
  exact (hclosed.wipeHistories hrestart now).finishReset

/-- A history that `set_single_ip_data` starts over has a wrong count. -/
theorem Holds.restart_miscounts (h : u.Holds maxNodes P) {ip : String} {e : String × BwHistory}
    (hentry : u.historyEntry ip = some e) :
    ∃ e' ∈ (u.restartEntry ip).histories,
      ¬ (e'.2.view (u.restartEntry ip).maps.cells).Counted := by
  obtain ⟨histories, hmap, -⟩ := h.filed
  have hmap' : (u.restartEntry ip).maps.ipHistoryMap =
      some (histories.set e.1 e.2.restarted) := by
    simp [IdUnit.restartEntry, hentry, IdUnit.setHistory, hmap]
  refine ⟨(e.1, e.2.restarted), ?_, ?_⟩
  · rw [histories_eq hmap']
    exact (HashedMap.mem_entries_set _ _ _ _).2 (Or.inl rfl)
  · exact HistoryView.not_counted_of_restarted rfl (BwHistory.length_chronological _ _)

/-- When all saved intervals have been cycled past, every count is wrong that is
left. -/
theorem Holds.wipe_miscounts (h : u.Holds maxNodes P) {now : ℤ}
    (hwipe : ∀ b ≤ u.info.numIntervalsToSave, u.info.boundaryAfter^[b] u.info.nextReset ≤ now) :
    ∀ e ∈ (Bandwidth.handleIntervalReset now u).histories,
      ¬ (e.2.view (Bandwidth.handleIntervalReset now u).maps.cells).Counted := by
  obtain ⟨hfiled, hledger⟩ := @closeIntervals_ledger _ u now _ h.filed u.info.numIntervalsToSave
  have hdue : (Bandwidth.closeIntervals now u.info.numIntervalsToSave u).info.nextReset ≤ now := by
    by_contra hahead
    have hlt : now < ((intervalRounds u.info.boundaryAfter).catchUp now u.info.numIntervalsToSave
        u.ledger).due := hledger ▸ not_le.1 hahead
    obtain ⟨b, hb, hb'⟩ := Rounds.lt_due_catchUp_iff.1 hlt
    exact absurd hb' (not_lt.2 (hwipe b hb))
  obtain ⟨hfiled', hover⟩ := started_over_wipeHistories hfiled hdue
  rw [handleIntervalReset_of_filed h.saves h.filed]
  intro e he
  obtain ⟨-, hcount, hnodes⟩ := (all_ledger_iff_histories hfiled').1 hover e he
  exact HistoryView.not_counted_of_restarted hcount hnodes

theorem Holds.apply (hP : HistoryView.Preserved maxNodes P) (h : u.Holds maxNodes P)
    {op : HistoryOp} (hrestart : HistoryView.Restartable maxNodes P ∨ op.Calm u) :
    (op.apply u).Holds maxNodes P := by
  cases op with
  | enter ip bw family => exact h.enter hP ip.2 bw.toNat_lt family
  | write ip bw => exact h.writeNode hP ip bw.toNat_lt
  | update ip start stop => exact h.updateEntry hP ip start stop
  | reset now =>
    rcases hrestart with hrestart | hcalm
    · exact h.handleIntervalReset hP hrestart now
    · exact h.handleIntervalReset_calm hP hcalm
  | restart ip =>
    rcases hrestart with hrestart | hcalm
    · exact h.restartEntry hrestart ip
    · have hnone : u.historyEntry ip = none := hcalm
      simp only [HistoryOp.apply, IdUnit.restartEntry, hnone]
      exact h

/-! ## Runs -/

theorem Holds.runHistory (hP : HistoryView.Preserved maxNodes P) (h : u.Holds maxNodes P)
    {ops : List HistoryOp} (hrestart : HistoryView.Restartable maxNodes P ∨ u.CalmRun ops) :
    (u.runHistory ops).Holds maxNodes P := by
  induction ops generalizing u with
  | nil => exact h
  | cons op ops ih =>
    refine ih (h.apply hP (hrestart.imp_right And.left)) ?_
    exact hrestart.imp_right And.right

structure Unused (u : IdUnit) : Prop where
  saves : 0 < u.info.numIntervalsToSave
  small : u.info.numIntervalsToSave + 1 < 2 ^ 32
  maps : u.maps = IpMaps.initial u.info.numIntervalsToSave

theorem Unused.holds (h : u.Unused) (P : HistoryView → Prop) :
    u.Holds (u.info.numIntervalsToSave + 1) P := by
  have hmap : u.maps.ipHistoryMap = some HashedMap.empty := by
    rw [h.maps, IpMaps.initial, if_pos h.saves]
  refine ⟨h.saves, rfl, ⟨_, hmap, ?_⟩, by simp [histories_eq hmap]⟩
  rw [h.maps]
  exact kept_empty _

/-- In every run every history is a ring whose list `update_history` appends to,
and in a run in which none is started over its count is right. -/
theorem rings_in_every_run (h : u.Unused) (ops : List HistoryOp) :
    let v := u.runHistory ops
    ∀ e ∈ v.histories,
      e.2.Ring v.maps.cells ∧
      (∀ start stop,
        let updated := updateHistory v.maps.cells e.2 start stop v.info
        updated.2.1.chronological updated.1 =
          (if e.2.numNodes = e.2.maxNodes then (e.2.chronological v.maps.cells).tail
            else e.2.chronological v.maps.cells) ++ [0]) ∧
      (u.CalmRun ops →
        e.2.nonZeroNodes = HistoryView.nonZero (e.2.chronological v.maps.cells).dropLast) := by
  intro v e he
  have hroom : 2 ≤ u.info.numIntervalsToSave + 1 := by
    have := h.saves
    omega
  have hrings : v.Holds (u.info.numIntervalsToSave + 1) HistoryView.Tallied :=
    (h.holds _).runHistory (HistoryView.preserved_tallied hroom h.small)
      (Or.inl (HistoryView.restartable_tallied hroom h.small))
  obtain ⟨hring, -⟩ := hrings.ring he
  refine ⟨hring, fun start stop => ?_, fun hcalm => ?_⟩
  · have hle := hring.le
    have hlist := updateHistory_chronological hring start stop v.info
    simp only
    rw [hlist]
    split_ifs <;> first | rfl | omega
  · have hcounted := (h.holds _).runHistory (HistoryView.preserved_counted hroom h.small)
      (Or.inr hcalm)
    exact (hcounted.all e he).2

end IdUnit

/-! ## Replayed histories -/

section Replay

variable {u : IdUnit} {ip : String} {h : BwHistory} {s : ReplayState}

theorem IdUnit.historyEntry_of_get {histories : StringMap BwHistory}
    (hmap : u.maps.ipHistoryMap = some (histories.set ip h)) :
    u.historyEntry ip = some (ip, h) := by
  have hmem : (ip, h) ∈ (histories.set ip h).entries :=
    (HashedMap.mem_entries_set _ _ _ _).2 (Or.inl rfl)
  rw [historyEntry, histories_eq hmap]
  cases hfind : (histories.set ip h).entries.find? fun e =>
      sdbmStringHash e.1 = sdbmStringHash ip with
  | none =>
    have hnot := List.find?_eq_none.1 hfind _ hmem
    simp at hnot
  | some e =>
    have hhash : sdbmStringHash e.1 = sdbmStringHash ip := by simpa using find?_some hfind
    rw [HashedMap.eq_of_hash_eq sdbmStringHash (histories.set ip h).sorted
      (mem_of_find?_eq_some hfind) hmem hhash]

/-- What the loop of `set_single_ip_data` keeps: the history it works on is the
entry of its address. -/
structure ReplayState.Follows (ip : String) (s : ReplayState) : Prop where
  saves : 0 < s.unit.info.numIntervalsToSave
  map : s.unit.maps.ipHistoryMap.isSome
  entry : ∀ h, s.history = some h → ∃ histories : StringMap BwHistory,
    s.unit.maps.ipHistoryMap = some (histories.set ip h)

theorem ReplayState.Follows.create (hs : s.Follows ip) (family bw : ℕ) :
    (s.create ip family bw).Follows ip := by
  obtain ⟨histories, hmap⟩ := Option.isSome_iff_exists.1 hs.map
  have hnum := (IdUnit.SameRules.newEntry s.unit ip bw family).saves
  have hmaps := (newEntry_maps s.unit ip bw family).trans
    (initializedMaps_saved hs.saves hmap ip bw family)
  have hmap' := congrArg IpMaps.ipHistoryMap hmaps
  refine ⟨hnum.symm ▸ hs.saves, ?_, fun h hh => ⟨histories, ?_⟩⟩
  · simp only [ReplayState.create, hmap', Option.isSome_some]
  · simp only [ReplayState.create, hmap', Option.bind_some, HashedMap.get_set_self] at hh ⊢
    rw [Option.some.inj hh]

/-- A later round of the loop is `update_history`, the new node, and when there
are too many zeros the reset of the history. -/
theorem ReplayState.close_unit (hs : s.Follows ip) (hh : s.history = some h) (bw : UInt64)
    (now : ℤ) :
    (s.close ip bw.toNat now h).Follows ip ∧
      (s.close ip bw.toNat now h).unit =
        s.unit.runHistory ([HistoryOp.update ip s.nextStart s.nextEnd, .write ip bw] ++
          if s.zeroCount < h.maxNodes + 2 then [] else [.restart ip]) := by
  obtain ⟨histories, hmap⟩ := hs.entry h hh
  have hentry := IdUnit.historyEntry_of_get hmap
  -- the entry is the one of the closed history from the first step on
  generalize hupdated : updateHistory s.unit.maps.cells h s.nextStart s.nextEnd s.unit.info = updated
  have hset : ∀ (new : BwHistory) (cells : Arena ℕ),
      (s.unit.setHistory ip new cells).maps.ipHistoryMap = some (histories.set ip new) := by
    intro new cells
    simp only [IdUnit.setHistory, hmap, Option.map_some, HashedMap.set_set]
  have hreplaced : ∀ (new new' : BwHistory) (cells cells' : Arena ℕ),
      (s.unit.setHistory ip new cells).setHistory ip new' cells' =
        s.unit.setHistory ip new' cells' := by
    intro new new' cells cells'
    simp only [IdUnit.setHistory, hmap, Option.map_some, HashedMap.set_set]
  have hfirst : s.unit.updateEntry ip s.nextStart s.nextEnd =
      s.unit.setHistory ip updated.2.1 updated.1 := by
    simp only [IdUnit.updateEntry, hentry, hupdated]
  have hsecond : (s.unit.setHistory ip updated.2.1 updated.1).writeNode ip bw.toNat =
      s.unit.setHistory ip updated.2.1 (updated.1.store updated.2.1.current bw.toNat) := by
    simp only [IdUnit.writeNode, IdUnit.historyEntry_of_get (hset _ _)]
    rfl
  simp only [ReplayState.close, hupdated, IdUnit.runHistory]
  split_ifs
  · refine ⟨⟨hs.saves, by rw [hset]; rfl, fun h' hh' => ⟨histories, ?_⟩⟩, ?_⟩
    · rw [hset, Option.some.inj hh']
    · simp only [List.append_nil, foldl_cons, foldl_nil, HistoryOp.apply, hfirst, hsecond]
  · refine ⟨⟨hs.saves, by rw [hset]; rfl, fun h' hh' => ⟨histories, ?_⟩⟩, ?_⟩
    · rw [hset, Option.some.inj hh']
    · simp only [cons_append, nil_append, foldl_cons, foldl_nil,
        HistoryOp.apply, hfirst, hsecond, IdUnit.restartEntry,
        IdUnit.historyEntry_of_get (hset _ _), hreplaced]
      rfl

/-- The loop of `set_single_ip_data` does nothing else to the histories than the
operations of a run. -/
theorem replay_run (hip : PrintedIp ip) (hs : s.Follows ip) (b : ByteBuffer) (family n : ℕ)
    (now : ℤ) (rounds : ℕ) :
    ∃ ops, (replay b ip family n now rounds s).unit = s.unit.runHistory ops := by
  induction rounds generalizing s with
  | zero => exact ⟨[], rfl⟩
  | succ rounds ih =>
    -- a node that is fetched is a 64-bit word
    have hword : (s.fetch b n).1 < 2 ^ 64 := by
      unfold ReplayState.fetch
      split_ifs
      · exact (readLE_lt 8 b s.bufferIndex).trans_eq (by norm_num)
      · norm_num
    obtain ⟨bw, hbw⟩ : ∃ bw : UInt64, bw.toNat = (s.fetch b n).1 :=
      ⟨UInt64.ofNat (s.fetch b n).1, UInt64.toNat_ofNat_of_lt' hword⟩
    have hunit : (s.fetch b n).2.unit = s.unit ∧ (s.fetch b n).2.history = s.history := by
      unfold ReplayState.fetch
      split_ifs
      · exact ⟨rfl, rfl⟩
      · exact ⟨rfl, rfl⟩
    generalize hfetched : s.fetch b n = fetched at *
    obtain ⟨hunit, hhistory⟩ := hunit
    have hs' : fetched.2.Follows ip :=
      ⟨hunit.symm ▸ hs.saves, hunit.symm ▸ hs.map, hunit.symm ▸ hhistory.symm ▸ hs.entry⟩
    have hcreate : ∃ ops, (replay b ip family n now rounds
        (fetched.2.create ip family fetched.1)).unit = s.unit.runHistory ops := by
      obtain ⟨ops, hops⟩ := ih (hs'.create family fetched.1)
      refine ⟨.enter ⟨ip, hip⟩ bw family :: ops, hops.trans ?_⟩
      rw [ReplayState.create, hunit, ← hbw]
      rfl
    rw [replay, hfetched]
    by_cases hbefore : s.nextStart < now
    · rw [if_pos hbefore]
      cases hh : s.history with
      | none => exact hcreate
      | some h =>
        simp only
        split_ifs
        · exact hcreate
        · obtain ⟨hfollows, hclose⟩ :=
            ReplayState.close_unit hs' (hhistory.trans hh) bw now
          rw [hbw] at hfollows hclose
          rw [hunit] at hclose
          obtain ⟨ops, hops⟩ := ih hfollows
          exact ⟨_, hops.trans (by rw [hclose, ← IdUnit.runHistory_append])⟩
        · exact ⟨[], hunit⟩
    · rw [if_neg hbefore]
      exact ⟨[], rfl⟩

theorem finishReplay_histories (ip : String) (words : In6Addr) (s : ReplayState) :
    (finishReplay ip words s).histories = s.unit.histories ∧
      (finishReplay ip words s).maps.cells = s.unit.maps.cells := by
  unfold finishReplay
  cases s.history with
  | none => exact ⟨rfl, rfl⟩
  | some h => exact ⟨rfl, rfl⟩

/-- What `set_single_ip_data` leaves of the histories is what is left by a run. -/
theorem setSingleIpData_run (hsaves : 0 < u.info.numIntervalsToSave)
    (hmap : u.maps.ipHistoryMap.isSome) (west : ℤ) (b : ByteBuffer) (now : ℤ) (index : ℕ) :
    ∃ ops, (setSingleIpData true west b now u index).1.histories = (u.runHistory ops).histories ∧
      (setSingleIpData true west b now u index).1.maps.cells = (u.runHistory ops).maps.cells := by
  have hip : PrintedIp (blockAddress b index).1 := by
    have hprinted : ∀ family ip, PrintedIp (printIp family ip) := by
      intro family ip
      unfold printIp
      split_ifs
      · exact .inl ⟨_, rfl⟩
      · exact .inr ⟨_, rfl⟩
    simp only [blockAddress]
    split_ifs
    · exact printedIp_combined
    · exact hprinted _ _
  have hstart := @replay_run _ (blockAddress b index).1
    { unit := u
      bufferIndex := addUint32 index (2 * 4 + 1 * 16 + 3 * 8)
      nextStart := toInt64 (readLE 8 b (index + 24)) - 60 * west
      nextEnd := getNextResetTime u.info (toInt64 (readLE 8 b (index + 24)) - 60 * west)
        (toInt64 (readLE 8 b (index + 24)) - 60 * west)
      nodeIndex := 0
      zeroCount := 0
      history := none } hip ⟨hsaves, hmap, fun h hh => by cases hh⟩ b (blockAddress b index).2
    (readLE 4 b (index + 20)) now (replayRounds (readLE 4 b (index + 20)) u.info)
  obtain ⟨ops, hops⟩ := hstart
  refine ⟨ops, ?_⟩
  rw [← hops]
  simp only [setSingleIpData, if_true,
    if_pos (show u.info.numIntervalsToSave > 0 ∧ u.maps.ipHistoryMap.isSome from ⟨hsaves, hmap⟩)]
  exact finishReplay_histories _ _ _

/-- Every history is a ring after a block with a history has been set, whatever led to the state before
and whatever bytes the block has. -/
theorem rings_after_setSingleIpData (h : u.Unused) (ops : List HistoryOp) (west : ℤ)
    (b : ByteBuffer) (now : ℤ) (index : ℕ) :
    let v := (setSingleIpData true west b now (u.runHistory ops) index).1
    ∀ e ∈ v.histories, e.2.Ring v.maps.cells := by
  have hroom : 2 ≤ u.info.numIntervalsToSave + 1 := Nat.succ_le_succ h.saves
  have hrun : ∀ ops, (u.runHistory ops).Holds (u.info.numIntervalsToSave + 1)
      HistoryView.Tallied := fun ops =>
    (h.holds _).runHistory (HistoryView.preserved_tallied hroom h.small)
      (.inl (HistoryView.restartable_tallied hroom h.small))
  obtain ⟨histories, hmap, -⟩ := (hrun ops).filed
  obtain ⟨ops', hhistories, hcells⟩ :=
    setSingleIpData_run (hrun ops).saves (Option.isSome_of_eq_some hmap) west b now index
  rw [← IdUnit.runHistory_append] at hhistories hcells
  intro v e he
  rw [hcells]
  exact ((hrun (ops ++ ops')).ring (hhistories ▸ he)).1

end Replay

end

section Examples

local instance historyRunKernel : Kernel := lazyResetKernel

theorem sourceTwoMinutes_unused : sourceTwoMinutes.Unused := ⟨by decide, by decide, rfl⟩

def oneMinute : List HistoryOp :=
  [.enter ⟨"192.168.1.5", Or.inl ⟨0x0501a8c0, by decide⟩⟩ 1500 2, .reset 1021]

/-- The minute is counted as the one saved node that is not zero. -/
theorem oneMinute_counted :
    let v := sourceTwoMinutes.runHistory oneMinute
    ∀ e ∈ v.histories,
      e.2.nonZeroNodes = HistoryView.nonZero (e.2.chronological v.maps.cells).dropLast := by
  intro v e he
  obtain ⟨-, -, hcount⟩ := IdUnit.rings_in_every_run sourceTwoMinutes_unused oneMinute e he
  exact hcount ⟨trivial, Or.inr ⟨1, by decide, by decide⟩, trivial⟩

/-- The minute is followed by a block of zeros. -/
theorem rings_after_zeros :
    let v := (setSingleIpData true 0 (fun _ => 0) 5000 (sourceTwoMinutes.runHistory oneMinute) 0).1
    ∀ e ∈ v.histories, e.2.Ring v.maps.cells :=
  rings_after_setSingleIpData sourceTwoMinutes_unused oneMinute 0 (fun _ => 0) 5000 0

/-- An hour later all intervals have been cycled past. Nothing is saved any more,
and one node is said not to be zero. -/
theorem oneHour_miscounted :
    ¬ ∀ u : IdUnit, u.Unused → ∀ ops,
      let v := u.runHistory ops
      ∀ e ∈ v.histories,
        e.2.nonZeroNodes = HistoryView.nonZero (e.2.chronological v.maps.cells).dropLast := by
  intro hall
  have hcounts := hall sourceTwoMinutes sourceTwoMinutes_unused
    [.enter ⟨"192.168.1.5", Or.inl ⟨0x0501a8c0, by decide⟩⟩ 1500 2, .reset 4621]
  revert hcounts
  decide

end Examples

end Bandwidth

end Gargoyle
