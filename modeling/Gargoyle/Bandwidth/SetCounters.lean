import Gargoyle.Bandwidth.ReplayLoop
import Gargoyle.Bandwidth.SetRequest

/-!
# The counters that a set request leaves

`IdUnit.counters` is the map from the addresses of an id to their counters. Each
block of a set request writes one counter and leaves the others alone
(`setSingleIpData_setTo`): a plain block the counter it holds, a block with a
history its last node. For an id that saves intervals the history has to end in
the running interval, because `set_single_ip_data` goes on to that interval.
-/

namespace Gargoyle

open List

namespace Bandwidth

open ByteBuffer

variable [Kernel]

namespace IdUnit

def counters (u : IdUnit) : StringMap ℕ :=
  ⟨u.maps.ipMap.entries.map fun e => (e.1, (u.maps.cells.load e.2).getD 0),
    List.pairwise_map.2 u.maps.ipMap.sorted⟩

/-- The maps of an id fit together, whatever `combined_bw` is. -/
structure Laid (u : IdUnit) : Prop where
  owned : u.maps.ipMap.Owned u.maps.cells
  saved : u.maps.ipHistoryMap = none ↔ u.info.numIntervalsToSave = 0
  linked : ∀ histories, u.maps.ipHistoryMap = some histories →
    ∀ k, u.maps.ipMap.get k = (histories.get k).map BwHistory.current

variable {u u' : IdUnit} {k : String} {bw : ℕ}

theorem Coherent.laid (h : u.Coherent) : u.Laid := ⟨h.owned, h.saved, h.linked⟩

theorem Laid.coherent (h : u.Laid) : (u.setCombinedBw none).Coherent where
  owned := h.owned
  saved := h.saved
  linked := h.linked
  combined := fun c hc => by cases hc
  agree := by
    intro o ho
    obtain ⟨o', -, rfl⟩ := Option.map_eq_some_iff.1 ho
    rfl

theorem counters_keys (u : IdUnit) : u.counters.keys = u.maps.ipMap.keys := by
  simp [counters, HashedMap.keys]

theorem Laid.counters_get (h : u.Laid) (k : String) : u.counters.get k = u.counter k := by
  have hmap : u.counters.get k =
      (u.maps.ipMap.get k).map fun c => (u.maps.cells.load c).getD 0 := by
    simp only [HashedMap.get, counters]
    induction u.maps.ipMap.entries with
    | nil => rfl
    | cons e es ih =>
      simp only [map_cons, HashedMap.lookup, ih]
      split_ifs <;> rfl
  rw [hmap, counter, cellOf]
  cases hget : u.maps.ipMap.get k with
  | none => rfl
  | some c =>
    obtain ⟨v, hv⟩ := h.owned.live k c hget
    simp [hv]

/-- The counter of the address `k` has been set to `bw`, and the others are what
they were. -/
structure SetTo (u : IdUnit) (k : String) (bw : ℕ) (u' : IdUnit) : Prop where
  laid : u'.Laid
  keys : u'.maps.ipMap.keys = (u.maps.ipMap.set k ⟨0, 0⟩).keys
  counter : ∀ k', u'.counter k' =
    if sdbmStringHash k = sdbmStringHash k' then some bw else u.counter k'
  next : u.info.numIntervalsToSave = 0 → u'.info.nextReset = u.info.nextReset

theorem SetTo.counters (hlaid : u.Laid) (h : u.SetTo k bw u') :
    u'.counters = u.counters.set k bw := by
  refine HashedMap.ext_get ?_ fun k' => ?_
  · rw [counters_keys, h.keys]
    exact HashedMap.keys_set_congr (counters_keys u).symm k _ _
  · rw [h.laid.counters_get, h.counter, HashedMap.get_set, hlaid.counters_get]

/-! ## A new entry -/

theorem setTo_newEntry (h : u.Laid) (ip : String) (bw family : ℕ) :
    u.SetTo ip bw (initializeMapEntriesForIp u ip bw family).1 := by
  have hmaps := newEntry_maps u ip bw family
  have hmaps' := newEntry_maps (u.setCombinedBw none) ip bw family
  have hcoherent := h.coherent.newEntry ip bw family fun _ => Or.inr rfl
  have hsaves := (SameRules.newEntry u ip bw family).saves
  refine ⟨⟨?_, ?_, ?_⟩, ?_, fun k' => ?_, fun _ => ?_⟩
  · rw [hmaps]
    exact hmaps' ▸ hcoherent.owned
  · rw [hmaps, hsaves]
    exact newCounter_saved h.coherent ip
  · rw [hmaps]
    exact newCounter_linked h.coherent ip
  · rw [hmaps]
    exact HashedMap.keys_set_congr rfl ip _ _
  · have hcounter := initialize_counter h.coherent ip bw family k'
    rw [counter, cellOf, hmaps'] at hcounter
    rw [counter, cellOf, hmaps]
    exact hcounter
  · simp only [initializeMapEntriesForIp]
    split_ifs <;> rfl

theorem setTo_setCounter (h : u.Laid) (ip : String) (words : In6Addr) (bw family : ℕ) :
    u.SetTo ip bw (setCounter u ip words bw family) := by
  have hnew := setTo_newEntry h ip bw family
  simp only [setCounter]
  split_ifs
  · exact ⟨⟨hnew.laid.owned, hnew.laid.saved, hnew.laid.linked⟩, hnew.keys, hnew.counter, hnew.next⟩
  · exact hnew

/-! ## A history is replayed -/

/-- The nodes `bws` have been replayed to the history `h` of the address `k`. Its
entry of `ip_map` is still the one for the first of them. -/
structure Refilled (u : IdUnit) (k : String) (bws : List ℕ) (h : BwHistory) (v : IdUnit) :
    Prop where
  rule : v.info.rule = u.info.rule
  maxNodes : h.maxNodes = u.info.numIntervalsToSave + 1
  histories : ∃ histories, v.maps.ipHistoryMap = some histories ∧ histories.get k = some h ∧
    ∀ k', sdbmStringHash k ≠ sdbmStringHash k' →
      v.maps.ipMap.get k' = (histories.get k').map BwHistory.current
  ring : h.Ring v.maps.cells
  value : v.maps.cells.load h.current = bws.getLast?
  owned : v.maps.ipMap.Owned v.maps.cells
  block : ∃ c, v.maps.ipMap.get k = some c ∧ c.block = h.historyData
  keys : v.maps.ipMap.keys = (u.maps.ipMap.set k ⟨0, 0⟩).keys
  counter : ∀ k', sdbmStringHash k ≠ sdbmStringHash k' → v.counter k' = u.counter k'

theorem Laid.makeRoom_ring (h : u.Laid) {histories : StringMap BwHistory}
    (hmap : u.maps.ipHistoryMap = some histories) (ip : String) :
    (initializeHistory u.maps.cells u.info.numIntervalsToSave).2.Ring
      (makeRoom u histories ip) := by
  have hring := initializeHistory_ring u.maps.cells u.info.numIntervalsToSave
  unfold makeRoom
  cases hold : histories.get ip with
  | none => exact hring
  | some old =>
    refine hring.of_blocks ?_
    have hlink := h.linked histories hmap ip
    rw [hold, Option.map_some] at hlink
    obtain ⟨v, hv⟩ := h.owned.live ip _ hlink
    have hne : u.maps.cells.bound ≠ old.historyData :=
      (u.maps.cells.block_lt_of_load hv).ne'
    exact if_neg hne

theorem refilled_newEntry (h : u.Laid) (hsaves : 0 < u.info.numIntervalsToSave) (k : String)
    (bw family : ℕ) :
    u.Refilled k [bw] (initializeHistory u.maps.cells u.info.numIntervalsToSave).2
      (initializeMapEntriesForIp u k bw family).1 := by
  have hset := setTo_newEntry h k bw family
  have hsome : u.maps.ipHistoryMap ≠ none := fun hnone => hsaves.ne' (h.saved.1 hnone)
  obtain ⟨histories, hmap⟩ := Option.ne_none_iff_exists'.1 hsome
  have hmaps := (newEntry_maps u k bw family).trans (initializedMaps_saved hsaves hmap k bw family)
  have hget : (initializeMapEntriesForIp u k bw family).1.maps.ipMap.get k =
      some (initializeHistory u.maps.cells u.info.numIntervalsToSave).2.current := by
    rw [hmaps]
    exact HashedMap.get_set_self _ _ _
  have hvalue : (initializeMapEntriesForIp u k bw family).1.counter k = some bw :=
    (hset.counter k).trans (if_pos rfl)
  rw [counter, cellOf, hget, Option.bind_some] at hvalue
  refine ⟨(SameRules.newEntry u k bw family).1, rfl, ⟨_, congrArg IpMaps.ipHistoryMap hmaps,
    HashedMap.get_set_self _ _ _, fun k' hk' => ?_⟩, ?_, hvalue, hset.laid.owned,
    ⟨_, hget, rfl⟩, hset.keys, fun k' hk' => ?_⟩
  · exact hset.laid.linked _ (congrArg IpMaps.ipHistoryMap hmaps) k'
  · rw [hmaps]
    exact (h.makeRoom_ring hmap k).store _ bw
  · rw [hset.counter, if_neg hk']

theorem Refilled.close {v : IdUnit} {h h' : BwHistory} {bws : List ℕ}
    (hr : u.Refilled k bws h v) (hdata : h'.historyData = h.historyData)
    (hmax : h'.maxNodes = h.maxNodes) (hring : h'.Ring v.maps.cells) (bw : ℕ) :
    u.Refilled k (bws ++ [bw]) h'
      (v.setHistory k h' (v.maps.cells.store h'.current bw)) := by
  obtain ⟨histories, hmap, -, hlinked⟩ := hr.histories
  obtain ⟨c, hget, hblock⟩ := hr.block
  have hload : ∃ w, v.maps.cells.load h'.current = some w := by
    obtain ⟨xs, hxs, hlen⟩ := hring.block
    have hlt : h'.currentIndex < xs.length := hring.index.trans_le hlen
    exact ⟨xs.get ⟨_, hlt⟩, by simp [Arena.load, BwHistory.current, hxs, hlt]⟩
  obtain ⟨w, hload⟩ := hload
  refine ⟨hr.rule, hmax.trans hr.maxNodes, ⟨histories.set k h', ?_, HashedMap.get_set_self _ _ _,
    fun k' hk' => ?_⟩, hring.store _ bw, ?_, hr.owned.store _ bw, ⟨c, hget, hblock.trans hdata.symm⟩,
    hr.keys, fun k' hk' => ?_⟩
  · simp [setHistory, hmap]
  · rw [HashedMap.get_set_of_ne _ _ hk']
    exact hlinked k' hk'
  · rw [getLast?_concat]
    exact Arena.load_store_self _ bw hload
  · rw [← hr.counter k' hk']
    change (v.maps.ipMap.get k').bind (v.maps.cells.store h'.current bw).load =
      (v.maps.ipMap.get k').bind v.maps.cells.load
    cases hget' : v.maps.ipMap.get k' with
    | none => rfl
    | some c' =>
      have hne : c' ≠ h'.current := by
        rintro rfl
        exact hk' (hr.owned.apart k k' c _ hget hget' (hblock.trans hdata.symm))
      exact Arena.load_store_of_ne _ bw hne

theorem replayInvariant_refilled (h : u.Laid) (hsaves : 0 < u.info.numIntervalsToSave)
    (k : String) (first : ℤ) : ReplayInvariant u k first (u.Refilled k) where
  rule := fun hr => hr.rule
  maxNodes := fun hr => hr.maxNodes
  create := by
    intro bw hbw family
    have hr := refilled_newEntry h hsaves k bw family
    obtain ⟨histories, hmap, hget, -⟩ := hr.histories
    exact ⟨_, by rw [hmap, Option.bind_some, hget], hr⟩
  close := by
    intro bws h v bw hr hnonempty hroom hbw
    refine hr.close ?_ ?_ ?_ bw
    · rfl
    · rfl
    · exact updateHistory_ring_before hr.ring _ _ v.info

/-- The counter of a refilled history is its last node. -/
theorem Refilled.setTo {v : IdUnit} {h : BwHistory} {bws : List ℕ} (hr : u.Refilled k bws h v)
    (hsaves : 0 < u.info.numIntervalsToSave) (hlast : bws.getLast? = some bw)
    (previous next : ℤ) (current : ℕ) :
    u.SetTo k bw (replayEnd v k h previous next current) := by
  obtain ⟨histories, hmap, hget, hlinked⟩ := hr.histories
  obtain ⟨c, hcell, hblock⟩ := hr.block
  have hvalue := hr.value.trans hlast
  have hnum := NftBandwidthInfo.numIntervalsToSave_of_rule hr.rule
  have hkeep : HashedMap.Owned.Keeps v.maps.ipMap v.maps.cells v.maps.cells k :=
    fun _ _ _ _ => rfl
  refine ⟨⟨?_, ?_, ?_⟩, ?_, fun k' => ?_, fun hzero => absurd hzero hsaves.ne'⟩
  · refine hr.owned.set hvalue (fun k' c' hk' hhash heq => hhash ?_) hkeep
    exact hr.owned.apart k' k c' c hk' hcell (heq.trans hblock.symm)
  · change v.maps.ipHistoryMap = none ↔ v.info.numIntervalsToSave = 0
    rw [hmap, hnum]
    exact ⟨fun hnone => (Option.some_ne_none _ hnone).elim, fun hzero => absurd hzero hsaves.ne'⟩
  · intro histories' hmap' k'
    obtain rfl : histories = histories' := Option.some.inj (hmap.symm.trans hmap')
    change (v.maps.ipMap.set k h.current).get k' = _
    rw [HashedMap.get_set]
    split_ifs with hhash
    · rw [← histories.get_congr hhash, hget, Option.map_some]
    · exact hlinked k' hhash
  · rw [← hr.keys]
    refine HashedMap.keys_set_of_mem _ _ ?_
    rw [hr.keys]
    exact HashedMap.mem_keys_set_self _ _ _
  · rw [counter_eq_valueAt]
    refine (HashedMap.Owned.valueAt_set hvalue hkeep k').trans ?_
    split_ifs with hhash
    · rfl
    · exact hr.counter k' hhash

end IdUnit

/-! ## A block -/

inductive IpBlock
  | counter (family : ℕ) (ip : In6Addr) (bw : ℕ)
  | history (family : ℕ) (ip : In6Addr) (firstStart firstEnd lastEnd : ℕ) (bws : List ℕ)

namespace IpBlock

def fields : IpBlock → List (ℕ × ℕ)
  | .counter family ip bw => plainFields family ip bw
  | .history family ip firstStart firstEnd lastEnd bws =>
    historyFields family ip firstStart firstEnd lastEnd bws

def key : IpBlock → String
  | .counter family ip _ => blockKey family ip
  | .history family ip _ _ _ _ => blockKey family ip

def value : IpBlock → ℕ
  | .counter _ _ bw => bw
  | .history _ _ _ _ _ bws => bws.getLastD 0

def hasHistory : IpBlock → Bool
  | .counter _ _ _ => false
  | .history _ _ _ _ _ _ => true

/-- The nodes of a history that begins at `first` are those of the intervals of a
rule up to the one that `now` is in, and the rule saves that many. -/
structure UpToNow (info : NftBandwidthInfo) (first now : ℤ) (nodes : ℕ) : Prop where
  room : nodes ≤ info.numIntervalsToSave + 1
  before : ∀ i < nodes, info.boundaryAfter^[i] first < now
  after : now ≤ info.boundaryAfter^[nodes] first

def Settles (info : NftBandwidthInfo) (west now : ℤ) : IpBlock → Prop
  | .counter family _ bw => family < 2 ^ 32 ∧ bw < 2 ^ 64
  | .history family _ firstStart _ _ bws =>
    family < 2 ^ 32 ∧ (∀ bw ∈ bws, bw < 2 ^ 64) ∧ bws ≠ [] ∧
      (0 < info.numIntervalsToSave →
        UpToNow info (toInt64 (firstStart % 256 ^ 8) - 60 * west) now bws.length)

end IpBlock

section Block

variable {u : IdUnit} {b : ByteBuffer} {index : ℕ} {west now : ℤ}

theorem blockAddress_of_holds {family : ℕ} {ip : In6Addr} (hfamily : family < 2 ^ 32)
    (hread : readLE 4 b index = family % 256 ^ 4) (hip : readIp b (index + 4) = ip) :
    (blockAddress b index).1 = blockKey family ip := by
  rw [Nat.mod_eq_of_lt (by omega)] at hread
  simp only [blockAddress, hread, hip, blockKey]
  split_ifs <;> rfl

omit [Kernel] in
theorem readLE_of_readWords {bws : List ℕ} {bw : ℕ}
    (hwords : readWords b (index + 48) bws.length = bws.map (· % 256 ^ 8))
    (hbws : ∀ bw ∈ bws, bw < 2 ^ 64) (hlast : bws.getLast? = some bw) :
    readLE 8 b (index + 48 + 8 * (bws.length - 1)) = bw := by
  have hmem := mem_of_getLast? hlast
  have hlt := hbws bw hmem
  have hlen : 0 < bws.length := length_pos_of_mem hmem
  have hread := congrArg (fun l => l[bws.length - 1]?) hwords
  rw [getLast?_eq_getElem?] at hlast
  simp only [readWords, getElem?_map, getElem?_range (Nat.sub_lt hlen Nat.one_pos),
    hlast, Option.map_some, Option.some.injEq] at hread
  rw [hread, Nat.mod_eq_of_lt (by omega)]

/-- A counter is set to the value of the request. -/
theorem setSingleIpData_setTo (h : u.Laid) {block : IpBlock}
    (hsettles : block.Settles u.info west now) (hholds : Holds b index block.fields)
    (hfits : index + size block.fields < 2 ^ 32) :
    u.SetTo block.key block.value
        (setSingleIpData block.hasHistory west b now u index).1 ∧
      (setSingleIpData block.hasHistory west b now u index).2 = index + size block.fields := by
  cases block with
  | counter family ip bw =>
    obtain ⟨hfamily, hbw⟩ := hsettles
    simp only [IpBlock.fields, plainFields, holds_append] at hholds
    obtain ⟨hip, hvalue⟩ := hholds
    obtain ⟨hread, hwords⟩ := readIp_of_holds hip
    have haddress := blockAddress_of_holds hfamily hread hwords
    have hfield : readLE 8 b (index + 20) = bw % 256 ^ 8 := hvalue.1
    have hbw' : readLE 8 b (index + 20) = bw := hfield.trans (Nat.mod_eq_of_lt (by omega))
    simp only [IpBlock.fields, size_plainFields] at hfits
    simp only [IpBlock.hasHistory, setSingleIpData, Bool.false_eq_true, if_false, haddress, hbw']
    refine ⟨IdUnit.setTo_setCounter h _ _ _ _, ?_⟩
    exact Nat.mod_eq_of_lt hfits
  | history family ip firstStart firstEnd lastEnd bws =>
    obtain ⟨hfamily, hbws, hnonempty, huptonow⟩ := hsettles
    have hlast : bws.getLast? = some (bws.getLastD 0) := by
      rw [getLastD_eq_getLast?, getLast?_eq_some_getLast hnonempty, Option.getD_some]
    simp only [IpBlock.fields, size_historyFields] at hfits
    rcases Nat.eq_zero_or_pos u.info.numIntervalsToSave with hzero | hsaves
    · -- only the last node is read
      obtain ⟨hread, hwords, hcount, -, hnodes⟩ := historyFields_of_holds hholds
      have haddress := blockAddress_of_holds hfamily hread hwords
      have hlen : 0 < bws.length := List.length_pos_iff.2 hnonempty
      rw [Nat.mod_eq_of_lt (by omega)] at hcount
      have hbefore : addUint32 bws.length (2 ^ 32 - 1) = bws.length - 1 := by
        rw [addUint32]
        omega
      have hindex : addUint32 index (2 * 4 + 1 * 16 + 3 * 8 + (bws.length - 1) * 8) =
          index + 48 + 8 * (bws.length - 1) := by
        rw [addUint32, Nat.mod_eq_of_lt (by omega)]
        omega
      have hvalue := readLE_of_readWords hnodes hbws hlast
      have hcase : ¬ (u.info.numIntervalsToSave > 0 ∧ u.maps.ipHistoryMap.isSome) :=
        fun hboth => hboth.1.ne' hzero
      simp only [IpBlock.hasHistory, setSingleIpData, if_true, if_neg hcase, hcount, hbefore,
        hindex, haddress, hvalue, IpBlock.fields, size_historyFields]
      refine ⟨IdUnit.setTo_setCounter h _ _ _ _, ?_⟩
      rw [addUint32, Nat.mod_eq_of_lt (by omega)]
      omega
    · obtain ⟨hroom, hbefore, hafter⟩ := huptonow hsaves
      have hsome : u.maps.ipHistoryMap.isSome := by
        rw [Option.isSome_iff_ne_none]
        exact fun hnone => hsaves.ne' (h.saved.1 hnone)
      obtain ⟨⟨h', v, current, hrefilled, hset⟩, hindex⟩ := setSingleIpData_replayed
        (IdUnit.replayInvariant_refilled h hsaves _ _) hsaves hsome hholds hfamily hbws hnonempty
        hroom rfl hbefore hafter (by omega)
      simp only [IpBlock.hasHistory]
      rw [hset]
      exact ⟨hrefilled.setTo hsaves hlast _ _ current, hindex⟩

end Block

/-! ## A request -/

def setCounters (blocks : List IpBlock) (counters : StringMap ℕ) : StringMap ℕ :=
  blocks.foldl (fun m block => m.set block.key block.value) counters

section Request

variable {u u' : IdUnit} {b : ByteBuffer} {west now : ℤ} {blocks : List IpBlock}

omit [Kernel] in
theorem IpBlock.Settles.of_rule {info info' : NftBandwidthInfo} (hrule : info'.rule = info.rule)
    {block : IpBlock} (h : block.Settles info west now) : block.Settles info' west now := by
  have hboundary : info'.boundaryAfter = info.boundaryAfter :=
    funext fun x => NftBandwidthInfo.boundaryAfter_of_rule hrule x
  have hnum := NftBandwidthInfo.numIntervalsToSave_of_rule hrule
  cases block with
  | counter family ip bw => exact h
  | history family ip firstStart firstEnd lastEnd bws =>
    obtain ⟨hfamily, hbws, hnonempty, huptonow⟩ := h
    refine ⟨hfamily, hbws, hnonempty, fun hsaves => ?_⟩
    obtain ⟨hroom, hbefore, hafter⟩ := huptonow (hnum ▸ hsaves)
    exact ⟨hnum.symm ▸ hroom, by rw [hboundary]; exact hbefore, by rw [hboundary]; exact hafter⟩

/-- The id has the given counters, and the next reset of `u` unless intervals are
saved. -/
structure IdUnit.Holding (u : IdUnit) (counters : StringMap ℕ) (u' : IdUnit) : Prop where
  laid : u'.Laid
  counters : u'.counters = counters
  next : u.info.numIntervalsToSave = 0 → u'.info.nextReset = u.info.nextReset

theorem setBlocks_holding (h : u.Laid) {historyIncluded : Bool}
    (hkind : ∀ block ∈ blocks, block.hasHistory = historyIncluded)
    (hsettles : ∀ block ∈ blocks, block.Settles u.info west now) {index : ℕ}
    (hholds : Holds b index (blocks.map IpBlock.fields).flatten)
    (hfits : index + size (blocks.map IpBlock.fields).flatten < 2 ^ 32) :
    u.Holding (setCounters blocks u.counters)
      (setBlocks historyIncluded west b now blocks.length u index) := by
  induction blocks generalizing u index with
  | nil => exact ⟨h, rfl, fun _ => rfl⟩
  | cons block blocks ih =>
    simp only [map_cons, flatten_cons, size_append] at hholds hfits
    rw [holds_append] at hholds
    obtain ⟨hset, hindex⟩ := setSingleIpData_setTo h (hsettles block mem_cons_self)
      hholds.1 (by omega)
    rw [hkind block mem_cons_self] at hset hindex
    have hrules := IdUnit.SameRules.setSingleIpData historyIncluded west b now u index
    have hrest := ih hset.laid (fun block' hblock' => hkind block' (mem_cons_of_mem _ hblock'))
      (fun block' hblock' => (hsettles block' (mem_cons_of_mem _ hblock')).of_rule hrules.1)
      (hindex ▸ hholds.2) (by omega)
    have hcounters := hrest.counters
    rw [hset.counters h] at hcounters
    refine ⟨hrest.laid, hcounters, fun hzero => ?_⟩
    exact (hrest.next (hrules.saves.trans hzero)).trans (hset.next hzero)

def SetHeader.startCounters (header : SetHeader) (counters : StringMap ℕ) : StringMap ℕ :=
  if header.zeroUnsetIps ∧ header.nextIpIndex = 0 then HashedMap.empty else counters

/-- Nothing is held after all addresses have been cleared. -/
theorem IdUnit.Laid.clearAllIps (h : u.Laid) :
    u.Holding HashedMap.empty (clearAllIps u) := by
  have hinfo : (Bandwidth.clearAllIps u).info = u.info := by
    unfold Bandwidth.clearAllIps
    split_ifs
    · split <;> rfl
    · rfl
  have hempty : ∀ {V : Type} {m : StringMap V}, m.entries = [] → ∀ k, m.get k = none := by
    intro V m hm k
    rw [HashedMap.get_eq_none_iff, hm]
    simp
  have hcounters : ∀ v : IdUnit, v.maps.ipMap.entries = [] → v.counters = HashedMap.empty := by
    intro v hv
    ext1
    simp [IdUnit.counters, hv]
  have howned : ∀ v : IdUnit, v.maps.ipMap.entries = [] → v.maps.ipMap.Owned v.maps.cells := by
    intro v hv
    refine ⟨fun k c hk => ?_, fun k k' c c' hk => ?_⟩
    · rw [hempty hv] at hk
      cases hk
    · rw [hempty hv] at hk
      cases hk
  rcases Nat.eq_zero_or_pos u.info.numIntervalsToSave with hzero | hsaves
  · have hips := clearAllIps_unsaved u hzero
    have hmap : (Bandwidth.clearAllIps u).maps.ipHistoryMap = none := by
      rw [Bandwidth.clearAllIps, if_neg (by omega)]
      exact (foldl_clearIp_ipHistoryMap true _ u.maps).trans (h.saved.2 hzero)
    refine ⟨⟨howned _ hips, ?_, fun histories hsome => ?_⟩, hcounters _ hips, fun _ => by rw [hinfo]⟩
    · rw [hmap, hinfo]
      simp [hzero]
    · rw [hmap] at hsome
      cases hsome
  · have hsome : u.maps.ipHistoryMap ≠ none := fun hnone => hsaves.ne' (h.saved.1 hnone)
    obtain ⟨histories, hmap⟩ := Option.ne_none_iff_exists'.1 hsome
    obtain ⟨hips, ⟨rest, hrest, hentries⟩, -⟩ := clearAllIps_saved hsaves hmap
    refine ⟨⟨howned _ hips, ?_, fun histories' hsome' k => ?_⟩, hcounters _ hips,
      fun _ => by rw [hinfo]⟩
    · rw [hrest, hinfo]
      simp [hsaves.ne']
    · obtain rfl : rest = histories' := Option.some.inj (hrest.symm.trans hsome')
      rw [hempty hips, hempty hentries]
      rfl

theorem IdUnit.Laid.prepareSet (h : u.Laid) (header : SetHeader) :
    u.Holding (header.startCounters u.counters) (Bandwidth.prepareSet header u) := by
  have hdetached : (u.setCombinedBw none).Laid := ⟨h.owned, h.saved, h.linked⟩
  simp only [Bandwidth.prepareSet, SetHeader.startCounters]
  split_ifs
  · have hcleared := hdetached.clearAllIps
    exact ⟨hcleared.laid, hcleared.counters, hcleared.next⟩
  · exact ⟨hdetached, rfl, fun _ => rfl⟩

theorem IdUnit.Laid.applySet (h : u.Laid) {header : SetHeader}
    (hrounds : header.rounds = blocks.length)
    (hkind : ∀ block ∈ blocks, block.hasHistory = header.historyIncluded)
    (hsettles : ∀ block ∈ blocks, block.Settles u.info west now)
    (hholds : Holds b setHeaderLength (blocks.map IpBlock.fields).flatten)
    (hfits : setHeaderLength + size (blocks.map IpBlock.fields).flatten < 2 ^ 32) :
    u.Holding (setCounters blocks (header.startCounters u.counters))
      (Bandwidth.applySet header west b now (Bandwidth.prepareSet header u)) := by
  have hprepared := h.prepareSet header
  have hrules := IdUnit.SameRules.prepareSet header u
  have hset := setBlocks_holding hprepared.laid hkind
    (fun block hblock => (hsettles block hblock).of_rule hrules.1) hholds hfits
  have hcounters := hset.counters
  rw [hprepared.counters] at hcounters
  simp only [Bandwidth.applySet, hrounds]
  refine ⟨⟨hset.laid.owned, hset.laid.saved, hset.laid.linked⟩, hcounters, fun hzero => ?_⟩
  exact (hset.next (hrules.saves.trans hzero)).trans (hprepared.next hzero)

end Request

end Bandwidth

end Gargoyle
