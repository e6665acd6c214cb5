import Gargoyle.Bandwidth.Archive
import Gargoyle.Bandwidth.GetCtl
import Gargoyle.Bandwidth.SetCtl

/-!
# The loop that replays a history

`set_single_ip_data` does not copy a history. It follows the nodes of a block
from boundary to boundary, creating the entries of the address with the first
node and closing an interval for each further one, and goes on until the running
interval has been reached.

The loop is followed here for a block that ends in the running interval, with an
invariant of the nodes that have been replayed, the history and the id
(`ReplayInvariant`).
-/

namespace Gargoyle

open List

namespace Bandwidth

open ByteBuffer

section

variable [Kernel]

/-- What an invariant of the loop is asked for: the first node establishes it
when the entries of the address `k` are created, and every further node keeps it
when the interval before has been closed. -/
structure ReplayInvariant (u : IdUnit) (k : String) (first : ℤ)
    (I : List ℕ → BwHistory → IdUnit → Prop) : Prop where
  rule : ∀ {bws h v}, I bws h v → v.info.rule = u.info.rule
  maxNodes : ∀ {bws h v}, I bws h v → h.maxNodes = u.info.numIntervalsToSave + 1
  create : ∀ {bw}, bw < 2 ^ 64 → ∀ family, ∃ h,
    (initializeMapEntriesForIp u k bw family).1.maps.ipHistoryMap.bind (·.get k) = some h ∧
      I [bw] h (initializeMapEntriesForIp u k bw family).1
  close : ∀ {bws h v bw}, I bws h v → bws ≠ [] → bws.length ≤ u.info.numIntervalsToSave →
    bw < 2 ^ 64 →
    let h' := (updateHistory v.maps.cells h (u.info.boundaryAfter^[bws.length - 1] first)
      (u.info.boundaryAfter^[bws.length] first) v.info).2.1
    I (bws ++ [bw]) h' (v.setHistory k h' (v.maps.cells.store h'.current bw))

/-- The nodes `bws` have been replayed. -/
structure Replayed (u : IdUnit) (I : List ℕ → BwHistory → IdUnit → Prop) (start : ℕ) (first : ℤ)
    (bws : List ℕ) (s : ReplayState) : Prop where
  index : s.bufferIndex = start + 8 * bws.length
  nextStart : s.nextStart = u.info.boundaryAfter^[bws.length - 1] first
  nextEnd : s.nextEnd = u.info.boundaryAfter^[bws.length] first
  invariant : ∃ h, s.history = some h ∧ I bws h s.unit

/-- The loop has replayed the nodes `bws` and goes on. -/
structure Replaying (u : IdUnit) (I : List ℕ → BwHistory → IdUnit → Prop) (start : ℕ) (first : ℤ)
    (bws : List ℕ) (s : ReplayState) : Prop extends Replayed u I start first bws s where
  node : s.nodeIndex = bws.length
  zeros : s.zeroCount ≤ bws.length
  nonempty : bws ≠ []

section Rounds

variable {u : IdUnit} {k : String} {I : List ℕ → BwHistory → IdUnit → Prop} {start n : ℕ}
  {first now : ℤ} {bws : List ℕ} {bw : ℕ} {s : ReplayState} {b : ByteBuffer}

theorem ReplayState.fetch_of_lt (hn : s.nodeIndex < n) (hbw : readLE 8 b s.bufferIndex = bw) :
    s.fetch b n =
      (bw, { s with
        bufferIndex := addUint32 s.bufferIndex 8
        zeroCount := if bw = 0 then s.zeroCount + 1 else 0 }) := by
  simp only [ReplayState.fetch, if_pos hn, hbw]

theorem Replaying.create (hI : ReplayInvariant u k first I) (hbw : bw < 2 ^ 64) (family : ℕ)
    (hunit : s.unit = u) (hindex : s.bufferIndex = start + 8) (hstart : s.nextStart = first)
    (hend : s.nextEnd = u.info.boundaryAfter first) (hnode : s.nodeIndex = 0)
    (hzeros : s.zeroCount ≤ 1) : Replaying u I start first [bw] (s.create k family bw) := by
  obtain ⟨h, hget, hinvariant⟩ := hI.create hbw family
  refine ⟨⟨hindex, hstart, hend, h, ?_, ?_⟩, ?_, hzeros, by simp⟩
  · simp only [ReplayState.create, hunit]
    exact hget
  · simp only [ReplayState.create, hunit]
    exact hinvariant
  · simp [ReplayState.create, hnode]

theorem replay_of_none (hnone : s.history = none) (hbefore : s.nextStart < now)
    (hn : s.nodeIndex < n) (hread : readLE 8 b s.bufferIndex = bw) (family rounds : ℕ) :
    replay b k family n now (rounds + 1) s =
      replay b k family n now rounds
        (ReplayState.create k family bw
          { s with
            bufferIndex := addUint32 s.bufferIndex 8
            zeroCount := if bw = 0 then s.zeroCount + 1 else 0 }) := by
  simp only [replay, if_pos hbefore, ReplayState.fetch_of_lt hn hread, hnone]

theorem Replaying.close (hI : ReplayInvariant u k first I)
    (hs : Replaying u I start first bws s) (hroom : bws.length ≤ u.info.numIntervalsToSave)
    (hbw : bw < 2 ^ 64) {h : BwHistory} (hhistory : s.history = some h) {zeros : ℕ}
    (hzeros : zeros ≤ bws.length + 1) (hfits : start + 8 * (bws.length + 1) < 2 ^ 32) (now : ℤ) :
    Replaying u I start first (bws ++ [bw])
      (ReplayState.close k bw now h
        { s with bufferIndex := addUint32 s.bufferIndex 8, zeroCount := zeros }) := by
  obtain ⟨h₀, hhistory₀, hinvariant⟩ := hs.invariant
  obtain rfl : h = h₀ := Option.some.inj (hhistory.symm.trans hhistory₀)
  have hmax := hI.maxNodes hinvariant
  have hclosed := hI.close hinvariant hs.nonempty hroom hbw
  rw [← hs.nextStart, ← hs.nextEnd] at hclosed
  have hzeros' : zeros < h.maxNodes + 2 := by omega
  have hlen : (bws ++ [bw]).length = bws.length + 1 := by simp
  simp only [ReplayState.close, if_pos hzeros', updateHistory_cells, Arena.store_store]
  refine ⟨⟨?_, ?_, ?_, _, rfl, hclosed⟩, ?_, ?_, by simp⟩
  · rw [hlen, hs.index, addUint32, Nat.mod_eq_of_lt (by omega), Nat.mul_succ, Nat.add_assoc]
  · rw [hlen, Nat.add_sub_cancel]
    exact hs.nextEnd
  · rw [hlen, Function.iterate_succ_apply', ← hs.nextEnd]
    exact NftBandwidthInfo.boundaryAfter_of_rule (hI.rule hinvariant) s.nextEnd
  · rw [hlen, hs.node]
  · rw [hlen]
    exact hzeros

theorem Replaying.finish (hs : Replaying u I start first bws s) (family rounds : ℕ)
    (hbefore : s.nextStart < now) (hafter : now ≤ s.nextEnd) :
    Replayed u I start first bws (replay b k family bws.length now (rounds + 1) s) ∧
      (replay b k family bws.length now (rounds + 1) s).nodeIndex = bws.length + 1 := by
  obtain ⟨h, hhistory, hinvariant⟩ := hs.invariant
  have hnode : ¬ s.nodeIndex = 0 := by
    rw [hs.node, length_eq_zero_iff]
    exact hs.nonempty
  have hdone : ¬ s.nodeIndex < bws.length := by
    rw [hs.node]
    exact lt_irrefl _
  simp only [replay, if_pos hbefore, hhistory, if_neg hnode, if_neg (not_lt.2 hafter),
    ReplayState.fetch, if_neg hdone]
  exact ⟨⟨hs.index, hs.nextStart, hs.nextEnd, h, rfl, hinvariant⟩, by rw [hs.node]⟩

theorem Replaying.round (hI : ReplayInvariant u k first I)
    (hs : Replaying u I start first bws s) (hroom : bws.length ≤ u.info.numIntervalsToSave) (hbw : bw < 2 ^ 64)
    (hread : readLE 8 b (start + 8 * bws.length) = bw) (hn : bws.length < n) (family rounds : ℕ)
    (hbefore : s.nextStart < now) (hbefore' : s.nextEnd < now)
    (hfits : start + 8 * (bws.length + 1) < 2 ^ 32) :
    ∃ s', Replaying u I start first (bws ++ [bw]) s' ∧
      replay b k family n now (rounds + 1) s = replay b k family n now rounds s' := by
  obtain ⟨h, hhistory, hinvariant⟩ := hs.invariant
  have hnode : ¬ s.nodeIndex = 0 := by
    rw [hs.node, length_eq_zero_iff]
    exact hs.nonempty
  have hzeros : (if bw = 0 then s.zeroCount + 1 else 0) ≤ bws.length + 1 := by
    have := hs.zeros
    split_ifs <;> omega
  refine ⟨_, hs.close hI hroom hbw hhistory hzeros hfits now, ?_⟩
  have hfetch := ReplayState.fetch_of_lt (s := s) (b := b) (hs.node ▸ hn) (hs.index ▸ hread)
  simp only [replay, if_pos hbefore, hhistory, if_neg hnode, if_pos hbefore', hfetch]

/-- The loop replays the nodes, one after the other. -/
theorem Replaying.run (hI : ReplayInvariant u k first I) (hs : Replaying u I start first bws s)
    (rest : List ℕ) (hroom : (bws ++ rest).length ≤ u.info.numIntervalsToSave + 1)
    (hrest : ∀ bw ∈ rest, bw < 2 ^ 64)
    (hread : ∀ i (hi : i < (bws ++ rest).length), readLE 8 b (start + 8 * i) = (bws ++ rest)[i])
    (hbefore : ∀ i < (bws ++ rest).length, u.info.boundaryAfter^[i] first < now)
    (hafter : now ≤ u.info.boundaryAfter^[(bws ++ rest).length] first)
    (hfits : start + 8 * (bws ++ rest).length < 2 ^ 32) (family : ℕ) {rounds : ℕ}
    (hrounds : rest.length < rounds) :
    Replayed u I start first (bws ++ rest)
        (replay b k family (bws ++ rest).length now rounds s) ∧
      (replay b k family (bws ++ rest).length now rounds s).nodeIndex =
        (bws ++ rest).length + 1 := by
  induction rest generalizing bws s rounds with
  | nil =>
    simp only [List.append_nil] at *
    obtain ⟨rounds, rfl⟩ := Nat.exists_eq_add_of_le' hrounds
    have hlen : 0 < bws.length := List.length_pos_iff.2 hs.nonempty
    exact hs.finish family rounds (hs.nextStart ▸ hbefore _ (by omega)) (hs.nextEnd ▸ hafter)
  | cons bw rest ih =>
    obtain ⟨rounds, rfl⟩ := Nat.exists_eq_add_of_le' (Nat.zero_lt_of_lt hrounds)
    have hlen : 0 < bws.length := List.length_pos_iff.2 hs.nonempty
    have htotal : (bws ++ bw :: rest).length = bws.length + (rest.length + 1) := by simp
    have hnode : readLE 8 b (start + 8 * bws.length) = bw := by
      rw [hread bws.length (by omega)]
      simp
    obtain ⟨s', hs', hstep⟩ := hs.round (n := (bws ++ bw :: rest).length) hI (by omega)
      (hrest bw mem_cons_self) hnode (by omega) family rounds
      (hs.nextStart ▸ hbefore _ (by omega)) (hs.nextEnd ▸ hbefore _ (by omega)) (by omega)
    have happend : bws ++ bw :: rest = bws ++ [bw] ++ rest := by simp
    rw [hstep]
    simp only [happend] at *
    exact ih hs' hroom (fun w hw => hrest w (mem_cons_of_mem bw hw)) hread hbefore hafter
      hfits (by simpa using hrounds)

end Rounds

/-! ## A block -/

/-- What `set_single_ip_data` leaves, when the loop has left the history `h` and
the id `v`. -/
def replayEnd (v : IdUnit) (k : String) (h : BwHistory) (previous next : ℤ) (current : ℕ) :
    IdUnit :=
  { v with
    info :=
      { v.info with
        previousReset := previous
        nextReset := next
        currentBandwidth := current }
    maps := { v.maps with ipMap := v.maps.ipMap.set k h.current } }

section Block

variable {u : IdUnit} {I : List ℕ → BwHistory → IdUnit → Prop} {b : ByteBuffer}
  {index family : ℕ} {ip : In6Addr} {firstStart firstEnd lastEnd : ℕ} {bws : List ℕ}
  {west first now : ℤ}

theorem Replayed.finishReplay {s : ReplayState} {start : ℕ} (k : String)
    (hs : Replayed u I start first bws s) (words : In6Addr) :
    ∃ h v current, I bws h v ∧ Bandwidth.finishReplay k words s =
      replayEnd v k h (u.info.boundaryAfter^[bws.length - 1] first)
        (u.info.boundaryAfter^[bws.length] first) current := by
  obtain ⟨h, hhistory, hinvariant⟩ := hs.invariant
  rw [← hs.nextStart, ← hs.nextEnd]
  simp only [Bandwidth.finishReplay, hhistory]
  split_ifs
  · exact ⟨h, s.unit, _, hinvariant, rfl⟩
  · exact ⟨h, s.unit, s.unit.info.currentBandwidth, hinvariant, rfl⟩

def blockKey (family : ℕ) (ip : In6Addr) : String :=
  if printIp family ip = "::" then combinedIp else printIp family ip

/-- One address of a request is replayed up to now. -/
theorem setSingleIpData_replayed (hI : ReplayInvariant u (blockKey family ip) first I)
    (hsaves : 0 < u.info.numIntervalsToSave) (hmap : u.maps.ipHistoryMap.isSome)
    (hholds : Holds b index (historyFields family ip firstStart firstEnd lastEnd bws))
    (hfamily : family < 2 ^ 32) (hbws : ∀ bw ∈ bws, bw < 2 ^ 64) (hnonempty : bws ≠ [])
    (hroom : bws.length ≤ u.info.numIntervalsToSave + 1)
    (hstart : toInt64 (firstStart % 256 ^ 8) - 60 * west = first)
    (hbefore : ∀ i < bws.length, u.info.boundaryAfter^[i] first < now)
    (hafter : now ≤ u.info.boundaryAfter^[bws.length] first)
    (hfits : index + 48 + 8 * bws.length < 2 ^ 32) :
    (∃ h v current, I bws h v ∧ (setSingleIpData true west b now u index).1 =
      replayEnd v (blockKey family ip) h (u.info.boundaryAfter^[bws.length - 1] first)
        (u.info.boundaryAfter^[bws.length] first) current) ∧
      (setSingleIpData true west b now u index).2 =
        index + size (historyFields family ip firstStart firstEnd lastEnd bws) := by
  obtain ⟨hfam, hwords, hcount, htime, hnodes⟩ := historyFields_of_holds hholds
  have hlen : 0 < bws.length := List.length_pos_iff.2 hnonempty
  rw [Nat.mod_eq_of_lt (by omega)] at hfam
  rw [Nat.mod_eq_of_lt (by omega)] at hcount
  have haddress : (blockAddress b index).1 = blockKey family ip := by
    simp only [blockAddress, hfam, hwords, blockKey]
    split_ifs <;> rfl
  have hindex : addUint32 index (2 * 4 + 1 * 16 + 3 * 8) = index + 48 := by
    rw [addUint32, Nat.mod_eq_of_lt (by omega)]
  have hread : ∀ i (hi : i < bws.length), readLE 8 b (index + 48 + 8 * i) = bws[i] := by
    intro i hi
    have hnode := getElem_of_eq hnodes (i := i) (by simpa [readWords] using hi)
    simp only [readWords, getElem_map, getElem_range] at hnode
    rw [hnode, Nat.mod_eq_of_lt]
    exact lt_of_lt_of_eq (hbws _ (getElem_mem hi)) (by norm_num)
  simp only [setSingleIpData, haddress, hwords, hcount, htime, hstart, hindex, if_true,
    if_pos (show u.info.numIntervalsToSave > 0 ∧ u.maps.ipHistoryMap.isSome from ⟨hsaves, hmap⟩)]
  generalize (blockAddress b index).2 = family'
  cases bws with
  | nil => exact absurd rfl hnonempty
  | cons bw rest =>
    let s : ReplayState := ⟨u, index + 48, first, getNextResetTime u.info first first, 0, 0, none⟩
    have hround := replay_of_none (k := blockKey family ip) (s := s) rfl (hbefore 0 hlen) hlen
      (show readLE 8 b (index + 48) = bw from hread 0 hlen) family'
      ((bw :: rest).length + u.info.numIntervalsToSave + 4)
    have hzeros : (if bw = 0 then s.zeroCount + 1 else 0) ≤ 1 := by
      split_ifs
      · exact le_rfl
      · exact Nat.zero_le 1
    have hnext : addUint32 s.bufferIndex 8 = index + 48 + 8 :=
      Nat.mod_eq_of_lt (show index + 48 + 8 < 2 ^ 32 by omega)
    have hcreated : Replaying u I (index + 48) first [bw] _ :=
      Replaying.create hI (hbws bw mem_cons_self) family'
        (s := { s with
          bufferIndex := addUint32 s.bufferIndex 8
          zeroCount := if bw = 0 then s.zeroCount + 1 else 0 }) rfl hnext rfl rfl rfl hzeros
    obtain ⟨hreplayed, hnode⟩ := Replaying.run hI hcreated rest hroom
      (fun w hw => hbws w (mem_cons_of_mem bw hw)) hread hbefore hafter hfits family'
      (show rest.length < (bw :: rest).length + u.info.numIntervalsToSave + 4 by
        simp only [length_cons]; omega)
    rw [singleton_append] at hreplayed hnode
    rw [replayRounds, hround]
    refine ⟨hreplayed.finishReplay _ ip, ?_⟩
    rw [hnode, hreplayed.index, size_historyFields, addUint32, Nat.mod_eq_of_lt (by omega)]
    omega

end Block

end

/-!
## What a replayed history reports

What `set_single_ip_data` makes of a block with a history: the report of the
address becomes the one in the block, as long as the block ends in the running
interval, and the reports of all other addresses stay what they are.
-/

variable [Kernel]

/-! ### The other addresses -/

namespace IdUnit

variable {u u' u'' : IdUnit} {k : String}

theorem report_eq {histories : StringMap BwHistory} (hmap : u.maps.ipHistoryMap = some histories)
    (k : String) : u.report k = (histories.get k).map fun h => h.report u.maps.cells := by
  simp [report, hmap]

/-- The rule, its times and the reports of all addresses but `k` are the same. -/
structure Elsewhere (k : String) (u u' : IdUnit) : Prop where
  schedule : u'.info.schedule = u.info.schedule
  reports : ∀ k', sdbmStringHash k' ≠ sdbmStringHash k → u'.report k' = u.report k'

theorem Elsewhere.trans (h : Elsewhere k u u') (h' : Elsewhere k u' u'') : Elsewhere k u u'' :=
  ⟨h'.schedule.trans h.schedule, fun k' hk' => (h'.reports k' hk').trans (h.reports k' hk')⟩

theorem Elsewhere.rule (h : Elsewhere k u u') : u'.info.rule = u.info.rule := by
  have hrule : u'.info.schedule.rule = u.info.schedule.rule := by rw [h.schedule]
  exact hrule

theorem elsewhere_of_blocks {histories histories' : StringMap BwHistory}
    (hmap : u.maps.ipHistoryMap = some histories) (hmap' : u'.maps.ipHistoryMap = some histories')
    (hschedule : u'.info.schedule = u.info.schedule)
    (hget : ∀ k', sdbmStringHash k' ≠ sdbmStringHash k → histories'.get k' = histories.get k')
    (hblocks : ∀ e ∈ histories.entries, sdbmStringHash e.1 ≠ sdbmStringHash k →
      u'.maps.cells.blocks e.2.historyData = u.maps.cells.blocks e.2.historyData) :
    Elsewhere k u u' := by
  refine ⟨hschedule, fun k' hk' => ?_⟩
  rw [report_eq hmap, report_eq hmap', hget k' hk']
  cases hold : histories.get k' with
  | none => rfl
  | some h =>
    obtain ⟨k'', hk'', hmem⟩ := histories.exists_mem_of_get hold
    have hsame := hblocks _ hmem (hk''.trans_ne hk')
    simp only [Option.map_some, BwHistory.report, BwHistory.chronological_congr hsame]

/-- The address `k` has been given the history `h`, which reports `r`. -/
structure Entered (u : IdUnit) (k : String) (h : BwHistory) (r : HistoryReport) (u' : IdUnit) :
    Prop where
  elsewhere : Elsewhere k u u'
  keys : u'.maps.ipMap.keys = (u.maps.ipMap.set k ⟨0, 0⟩).keys
  kept : ∃ histories, u'.maps.ipHistoryMap = some histories ∧
    Kept (u.info.numIntervalsToSave + 1) u'.maps.ipMap histories u'.maps.cells ∧
    (k, h) ∈ histories.entries
  report : h.report u'.maps.cells = r

variable {histories : StringMap BwHistory} {h : BwHistory} {r : HistoryReport}

theorem Entered.setCombinedBw (h' : Entered u k h r u') (c : Option Cell) :
    Entered u k h r (u'.setCombinedBw c) :=
  ⟨⟨h'.elsewhere.schedule, h'.elsewhere.reports⟩, h'.keys, h'.kept, h'.report⟩

theorem report_initializeHistory {cells : Arena ℕ} {n : ℕ}
    (hring : (initializeHistory u.maps.cells n).2.Ring cells) (bw : ℕ) :
    (initializeHistory u.maps.cells n).2.report
      (cells.store (initializeHistory u.maps.cells n).2.current bw) = ⟨0, 0, 0, [bw]⟩ := by
  have hlist := hring.chronological_store_current bw
  have hempty : ((initializeHistory u.maps.cells n).2.chronological cells).dropLast = [] := by
    rw [← length_eq_zero_iff]
    simp [initializeHistory]
  rw [hempty, nil_append] at hlist
  unfold BwHistory.report
  rw [hlist]
  rfl

theorem entered_of_initialize (hsaves : 0 < u.info.numIntervalsToSave)
    (hmap : u.maps.ipHistoryMap = some histories)
    (hkept : Kept (u.info.numIntervalsToSave + 1) u.maps.ipMap histories u.maps.cells)
    (hk : PrintedIp k) {bw : ℕ} (hbw : bw < 2 ^ 64) (family : ℕ) :
    Entered u k (initializeHistory u.maps.cells u.info.numIntervalsToSave).2 ⟨0, 0, 0, [bw]⟩
      (initializeMapEntriesForIp u k bw family).1 := by
  have hmaps := initializedMaps_saved hsaves hmap k bw family
  have hblock : (initializeHistory u.maps.cells u.info.numIntervalsToSave).2.historyData =
      u.maps.cells.bound := rfl
  have hentered : Entered u k (initializeHistory u.maps.cells u.info.numIntervalsToSave).2
      ⟨0, 0, 0, [bw]⟩ { u with maps := initializedMaps u k bw family } := by
    rw [hmaps]
    refine ⟨elsewhere_of_blocks hmap rfl rfl (fun k' hk' => ?_) (fun e he hhash => ?_),
      HashedMap.keys_set_congr rfl k _ _,
      ⟨_, rfl, hkept.newHistory k hk rfl hbw, ?_⟩,
      report_initializeHistory (makeRoom_ring hkept k) bw⟩
    · exact histories.get_set_of_ne _ hk'.symm
    · have hne : e.2.historyData ≠ u.maps.cells.bound := (hkept.block_lt he).ne
      have hroom := makeRoom_blocks_other hkept k he hhash
      simp only [Arena.store, BwHistory.current, hblock, if_neg hne]
      exact hroom
    · exact (HashedMap.mem_entries_set _ _ _ _).2 (Or.inl rfl)
  unfold initializeMapEntriesForIp
  simp only
  split_ifs
  · exact hentered.setCombinedBw _
  · exact hentered

theorem Entered.setHistory (he : Entered u k h r u') (h' : BwHistory) {v : ℕ} (hv : v < 2 ^ 64)
    (hdata : h'.historyData = h.historyData) (hmax : h'.maxNodes = h.maxNodes)
    (hring : h'.Ring u'.maps.cells) :
    Entered u k h' (h'.report (u'.maps.cells.store h'.current v))
      (u'.setHistory k h' (u'.maps.cells.store h'.current v)) := by
  obtain ⟨histories, hmap, hkept, hmem⟩ := he.kept
  have hmap' : (u'.setHistory k h' (u'.maps.cells.store h'.current v)).maps.ipHistoryMap =
      some (histories.set k h') := by
    simp [IdUnit.setHistory, hmap]
  have helse : Elsewhere k u' (u'.setHistory k h' (u'.maps.cells.store h'.current v)) := by
    refine elsewhere_of_blocks hmap hmap' rfl (fun k' hk' => histories.get_set_of_ne _ hk'.symm)
      (fun e he' hhash => ?_)
    have hne : e.2.historyData ≠ h'.historyData := by
      intro hblock
      have heq := hkept.apart e he' _ hmem (hblock.trans hdata)
      exact hhash (by rw [heq])
    exact if_neg hne
  refine ⟨he.elsewhere.trans helse, he.keys, ⟨_, hmap', ?_, ?_⟩, rfl⟩
  · exact (hkept.setHistory hmem hdata hmax hring).store _ hv
  · exact (HashedMap.mem_entries_set _ _ _ _).2 (Or.inl rfl)

theorem Entered.ring (he : Entered u k h r u') : h.Ring u'.maps.cells ∧
    h.maxNodes = u.info.numIntervalsToSave + 1 := by
  obtain ⟨histories, -, hkept, hmem⟩ := he.kept
  exact hkept.rings _ hmem

end IdUnit

/-! ### The nodes of a block -/

/-- What a history reports when the nodes `bws` have been replayed from the
boundary `first` on. -/
def replayedReport (info : NftBandwidthInfo) (first : ℤ) (bws : List ℕ) : HistoryReport :=
  if bws.length ≤ 1 then ⟨0, 0, 0, bws⟩
  else ⟨first, info.boundaryAfter first, info.boundaryAfter^[bws.length - 1] first, bws⟩

omit [Kernel] in
/-- Closing an interval adds a node to the report. -/
theorem report_close {info : NftBandwidthInfo} {first : ℤ} {bws : List ℕ} {h : BwHistory}
    {cells : Arena ℕ} (info' : NftBandwidthInfo) (hring : h.Ring cells)
    (hreport : h.report cells = replayedReport info first bws) (hnonempty : bws ≠ [])
    (hroom : bws.length < h.maxNodes) (hpos : 0 < first) (bw : ℕ) :
    let h' := (updateHistory cells h (info.boundaryAfter^[bws.length - 1] first)
      (info.boundaryAfter^[bws.length] first) info').2.1
    h'.report (cells.store h'.current bw) = replayedReport info first (bws ++ [bw]) := by
  have hlen : 0 < bws.length := List.length_pos_iff.2 hnonempty
  have hbws : h.chronological cells = bws := by
    have hfield := congrArg HistoryReport.bws hreport
    rw [replayedReport] at hfield
    split_ifs at hfield <;> exact hfield
  have hnum : h.numNodes = bws.length := by rw [← hbws, h.length_chronological]
  have hlist : ∀ start stop, (updateHistory cells h start stop info').2.1.chronological
      (cells.store (updateHistory cells h start stop info').2.1.current bw) = bws ++ [bw] := by
    intro start stop
    rw [(updateHistory_ring_before hring start stop info').chronological_store_current,
      updateHistory_dropLast hring, if_pos (by omega), hbws]
  have hfirst : closedFirstInterval info' h (info.boundaryAfter^[bws.length - 1] first)
      (info.boundaryAfter^[bws.length] first) = (first, info.boundaryAfter first) := by
    have hstart : h.firstStart = (replayedReport info first bws).firstStart :=
      congrArg HistoryReport.firstStart hreport
    have hend : h.firstEnd = (replayedReport info first bws).firstEnd :=
      congrArg HistoryReport.firstEnd hreport
    simp only [closedFirstInterval, if_neg (show ¬ h.numNodes ≥ h.maxNodes by omega)]
    unfold replayedReport at hstart hend
    split_ifs at hstart hend with hone
    · obtain hone' : bws.length = 1 := by omega
      rw [if_pos hstart, hone']
      rfl
    · have hne : ¬ h.firstStart = 0 := by
        rw [show h.firstStart = first from hstart]
        omega
      rw [if_neg hne]
      exact Prod.ext hstart hend
  intro h'
  have hreport' : h'.report (cells.store h'.current bw) = ⟨first, info.boundaryAfter first,
      info.boundaryAfter^[bws.length] first, bws ++ [bw]⟩ := by
    unfold BwHistory.report
    rw [hlist]
    simp only [h', updateHistory, hfirst]
  rw [hreport', replayedReport, if_neg (by simp; omega)]
  simp

theorem replayInvariant_entered {u : IdUnit} {histories : StringMap BwHistory} {k : String}
    {first : ℤ} (hsaves : 0 < u.info.numIntervalsToSave)
    (hmap : u.maps.ipHistoryMap = some histories)
    (hkept : Kept (u.info.numIntervalsToSave + 1) u.maps.ipMap histories u.maps.cells)
    (hk : PrintedIp k) (hpos : 0 < first) :
    ReplayInvariant u k first fun bws h v => u.Entered k h (replayedReport u.info first bws) v where
  rule := fun h => h.elsewhere.rule
  maxNodes := fun h => h.ring.2
  create := by
    intro bw hbw family
    have hentered := IdUnit.entered_of_initialize hsaves hmap hkept hk hbw family
    obtain ⟨histories', hmap', hkept', hmem⟩ := hentered.kept
    refine ⟨_, ?_, hentered⟩
    rw [hmap', Option.bind_some]
    exact histories'.get_of_mem hmem
  close := by
    intro bws h v bw hentered hnonempty hroom hbw
    obtain ⟨hring, hmax⟩ := hentered.ring
    have hclosed := hentered.setHistory (updateHistory v.maps.cells h
      (u.info.boundaryAfter^[bws.length - 1] first) (u.info.boundaryAfter^[bws.length] first)
      v.info).2.1 hbw rfl rfl (updateHistory_ring_before hring _ _ v.info)
    rw [report_close v.info hring hentered.report hnonempty (by omega) hpos bw] at hclosed
    exact hclosed

/-- The address `k` has been given a history that reports `r`, and the running
interval of the rule is the one from `previous` to `next`. -/
structure IdUnit.Restored (u : IdUnit) (k : String) (r : HistoryReport) (previous next : ℤ)
    (u' : IdUnit) : Prop where
  rule : u'.info.rule = u.info.rule
  previousReset : u'.info.previousReset = previous
  nextReset : u'.info.nextReset = next
  keys : u'.maps.ipMap.keys = (u.maps.ipMap.set k ⟨0, 0⟩).keys
  kept : ∃ histories, u'.maps.ipHistoryMap = some histories ∧
    Kept (u.info.numIntervalsToSave + 1) u'.maps.ipMap histories u'.maps.cells
  report : u'.report k = some r
  elsewhere : ∀ k', sdbmStringHash k' ≠ sdbmStringHash k → u'.report k' = u.report k'

section Block

variable {u : IdUnit} {histories : StringMap BwHistory} {b : ByteBuffer} {index family : ℕ}
  {ip : In6Addr} {firstStart firstEnd lastEnd : ℕ} {bws : List ℕ} {west first now : ℤ}

theorem IdUnit.Entered.restored {v : IdUnit} {k : String} {h : BwHistory} {r : HistoryReport}
    (he : u.Entered k h r v) (previous next : ℤ) (current : ℕ) :
    u.Restored k r previous next (replayEnd v k h previous next current) := by
  obtain ⟨histories, hmap, hkept, hmem⟩ := he.kept
  have hk : k ∈ histories.keys := (histories.mem_keys k).2 ⟨h, hmem⟩
  have hreport : v.report k = some r := by
    rw [IdUnit.report_eq hmap, histories.get_of_mem hmem, ← he.report]
    rfl
  refine ⟨he.elsewhere.rule, rfl, rfl, ?_, ⟨histories, hmap, hkept.setIp hk _⟩, hreport,
    he.elsewhere.reports⟩
  rw [← he.keys]
  exact HashedMap.keys_set_of_mem _ _ (hkept.keys ▸ hk)

theorem setSingleIpData_restored (hsaves : 0 < u.info.numIntervalsToSave)
    (hmap : u.maps.ipHistoryMap = some histories)
    (hkept : Kept (u.info.numIntervalsToSave + 1) u.maps.ipMap histories u.maps.cells)
    (hholds : Holds b index (historyFields family ip firstStart firstEnd lastEnd bws))
    (hfamily : family < 2 ^ 32) (hip : PrintedIp (printIp family ip)) (hne : printIp family ip ≠ "::")
    (hbws : ∀ bw ∈ bws, bw < 2 ^ 64) (hnonempty : bws ≠ [])
    (hroom : bws.length ≤ u.info.numIntervalsToSave + 1)
    (hstart : toInt64 (firstStart % 256 ^ 8) - 60 * west = first) (hpos : 0 < first)
    (hbefore : ∀ i < bws.length, u.info.boundaryAfter^[i] first < now)
    (hafter : now ≤ u.info.boundaryAfter^[bws.length] first)
    (hfits : index + 48 + 8 * bws.length < 2 ^ 32) :
    u.Restored (printIp family ip) (replayedReport u.info first bws)
        (u.info.boundaryAfter^[bws.length - 1] first) (u.info.boundaryAfter^[bws.length] first)
        (setSingleIpData true west b now u index).1 ∧
      (setSingleIpData true west b now u index).2 =
        index + size (historyFields family ip firstStart firstEnd lastEnd bws) := by
  have hkey : blockKey family ip = printIp family ip := if_neg hne
  have hinvariant := replayInvariant_entered hsaves hmap hkept hip hpos
  rw [← hkey] at hinvariant ⊢
  obtain ⟨⟨h, v, current, hentered, hset⟩, hindex⟩ := setSingleIpData_replayed hinvariant hsaves
    (by rw [hmap]; rfl) hholds hfamily hbws hnonempty hroom hstart hbefore hafter hfits
  rw [hset]
  exact ⟨hentered.restored _ _ current, hindex⟩

end Block

end Bandwidth

end Gargoyle
