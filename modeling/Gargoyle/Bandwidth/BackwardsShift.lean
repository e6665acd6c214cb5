import Gargoyle.Bandwidth.HistoryRun

/-!
# A clock that has gone back

`adjust_ip_for_backwards_time_shift` rebuilds a history from its oldest node on,
up to the interval that the clock has gone back to. The index it walks with is
counted up and not taken modulo the size of the ring, so the walk leaves the
nodes of a ring whose oldest node is not the first one, when enough intervals
survive (`survivors_kept_iff`).
-/

namespace Gargoyle

open List

namespace Bandwidth

/-! ## Intervals by their starts -/

/-- How many intervals of a history begin before `now`. -/
def BwHistory.begunBefore (h : BwHistory) (info : NftBandwidthInfo) (now : ℤ) : ℕ :=
  (List.range h.numNodes).countP fun i => info.boundaryAfter^[i] h.firstStart < now

theorem lt_countP_range_iff {p : ℕ → Bool} {n : ℕ} (hp : ∀ i, i + 1 < n → p (i + 1) → p i) :
    ∀ i < n, p i = true ↔ i < (List.range n).countP p := by
  induction n with
  | zero => simp
  | succ n ih =>
    have hbelow := ih fun i hi => hp i (by omega)
    have hle : (List.range n).countP p ≤ n := by
      have hlength : (List.range n).countP p ≤ (List.range n).length := countP_le_length
      rwa [length_range] at hlength
    rw [range_succ, countP_append, countP_singleton]
    intro i hi
    by_cases hlast : p n = true
    · -- all numbers below have the property as well
      have hall : n ≤ (List.range n).countP p := by
        rcases Nat.eq_zero_or_pos n with hzero | hpos
        · omega
        · have hbefore := (hbelow (n - 1) (by omega)).1 (hp (n - 1) (by omega)
            (by rwa [Nat.sub_add_cancel hpos]))
          omega
      rw [if_pos hlast]
      refine ⟨fun _ => by omega, fun _ => ?_⟩
      rcases Nat.lt_or_ge i n with hlt | hge
      · exact (hbelow i hlt).2 (by omega)
      · obtain rfl : i = n := by omega
        exact hlast
    · rw [if_neg hlast, Nat.add_zero]
      rcases Nat.lt_or_ge i n with hlt | hge
      · exact hbelow i hlt
      · obtain rfl : i = n := by omega
        exact ⟨fun h => absurd h hlast, fun h => absurd h (not_lt.2 hle)⟩

section Dated

variable {h : BwHistory} {info : NftBandwidthInfo} {running now : ℤ}

theorem BwHistory.Dated.lt_begunBefore_iff (hd : h.Dated info running) (hmany : 1 < h.numNodes) :
    ∀ i < h.numNodes, info.boundaryAfter^[i] h.firstStart < now ↔ i < h.begunBefore info now := by
  rcases hd with ⟨hone, -⟩ | ⟨-, -, -, -, -, hincreasing⟩
  · omega
  · intro i hi
    rw [← decide_eq_true_iff (p := info.boundaryAfter^[i] h.firstStart < now)]
    refine lt_countP_range_iff (p := fun i => decide (info.boundaryAfter^[i] h.firstStart < now))
      (fun i hi hlt => ?_) i hi
    have hstep := hincreasing i (by omega)
    have hlater := of_decide_eq_true hlt
    exact decide_eq_true (hstep.trans hlater)

theorem BwHistory.Dated.begunBefore_lt (hd : h.Dated info running) (hmany : 1 < h.numNodes)
    (hnow : now ≤ h.lastEnd) : h.begunBefore info now < h.numNodes := by
  have hiff := @BwHistory.Dated.lt_begunBefore_iff _ _ _ now hd hmany (h.numNodes - 1) (by omega)
  rcases hd with ⟨hone, -⟩ | ⟨-, -, -, hend, hlast, -⟩
  · omega
  · rw [hlast, ← hend] at hiff
    have hnot := mt hiff.2 (not_lt.2 hnow)
    omega

theorem BwHistory.Dated.add_le_start (hd : h.Dated info running) (hmany : 1 < h.numNodes) :
    ∀ i < h.numNodes, h.firstStart + i ≤ info.boundaryAfter^[i] h.firstStart := by
  rcases hd with ⟨hone, -⟩ | ⟨-, -, -, -, -, hincreasing⟩
  · omega
  · intro i hi
    induction i with
    | zero => simp
    | succ i ih =>
      have hstep := hincreasing i (by omega)
      have hbefore := ih (by omega)
      push_cast
      omega

theorem BwHistory.Dated.firstStart_pos (hd : h.Dated info running) (hmany : 1 < h.numNodes) :
    0 < h.firstStart := by
  rcases hd with ⟨hone, -⟩ | ⟨-, hpos, -⟩
  · omega
  · exact hpos

/-- The walk from the first interval up to `now`. -/
structure WalksTo (info : NftBandwidthInfo) (start now : ℤ) (count : ℕ) : Prop where
  before : ∀ i < count, info.boundaryAfter^[i] start < now
  after : now ≤ info.boundaryAfter^[count] start
  rounds : count - 1 < (now - start).toNat + 1

theorem BwHistory.Dated.walksTo (hd : h.Dated info running) (hmany : 1 < h.numNodes)
    (hnow : now ≤ h.lastEnd) : WalksTo info h.firstStart now (h.begunBefore info now) := by
  have hfew := hd.begunBefore_lt hmany hnow
  have hiff := @BwHistory.Dated.lt_begunBefore_iff _ _ _ now hd hmany
  have hfuel := hd.add_le_start hmany (h.begunBefore info now - 1) (by omega)
  refine ⟨fun i hi => (hiff i (by omega)).2 hi, ?_, ?_⟩
  · exact not_lt.1 fun hlt => lt_irrefl _ ((hiff _ hfew).1 hlt)
  · rcases Nat.eq_zero_or_pos (h.begunBefore info now) with hzero | hcount
    · omega
    · have hlast := (hiff (h.begunBefore info now - 1) (by omega)).2 (by omega)
      omega

end Dated

/-! ## The nodes that are read -/

/-- The indices of the old ring that the loop of
`adjust_ip_for_backwards_time_shift` reads. -/
def rebuildReads (info : NftBandwidthInfo) (now : ℤ) : ℕ → ℕ → ℤ → List ℕ
  | 0, _, _ => []
  | n + 1, nextOldIndex, oldNextStart =>
    if oldNextStart < now then
      let oldNextEnd := getNextResetTime info oldNextStart oldNextStart
      if oldNextEnd < now then
        (nextOldIndex + 1) :: rebuildReads info now n (nextOldIndex + 1) oldNextEnd
      else rebuildReads info now n nextOldIndex oldNextEnd
    else []

/-- The indices of the old ring that `adjust_ip_for_backwards_time_shift` reads. -/
def adjustReads (info : NftBandwidthInfo) (now infoPreviousReset : ℤ) (old : BwHistory) : List ℕ :=
  let oldNextStart := if old.firstStart = 0 then infoPreviousReset else old.firstStart
  let nextOldIndex :=
    if old.numNodes = old.maxNodes then (old.currentIndex + 1) % old.maxNodes else 0
  if oldNextStart < now then
    nextOldIndex ::
      rebuildReads info now ((now - oldNextStart).toNat + 1) nextOldIndex oldNextStart
  else []

section Loop

variable {info : NftBandwidthInfo} {old : BwHistory} {now start : ℤ} {cells : Arena ℕ}
  {oldest count : ℕ}

/-- The nodes that the loop reads, one after the other. -/
theorem rebuildReads_eq (hwalk : WalksTo info start now count) {i m fuel : ℕ}
    (hi : i + 1 + m = count) (hfuel : m < fuel) :
    rebuildReads info now fuel (oldest + i) (info.boundaryAfter^[i] start) =
      List.range' (oldest + i + 1) m := by
  induction m generalizing i fuel with
  | zero =>
    obtain ⟨fuel, rfl⟩ := Nat.exists_eq_add_of_le' hfuel
    have hnext : getNextResetTime info (info.boundaryAfter^[i] start)
        (info.boundaryAfter^[i] start) = info.boundaryAfter^[count] start := by
      rw [← hi, Nat.add_zero, Function.iterate_succ_apply']
      rfl
    simp only [rebuildReads, if_pos (hwalk.before i (by omega)), hnext, if_neg (not_lt.2 hwalk.after)]
    cases fuel with
    | zero => rfl
    | succ fuel => simp only [rebuildReads, if_neg (not_lt.2 hwalk.after), range'_zero]
  | succ m ih =>
    obtain ⟨fuel, rfl⟩ := Nat.exists_eq_add_of_le' (Nat.zero_lt_of_lt hfuel)
    have hnext : getNextResetTime info (info.boundaryAfter^[i] start)
        (info.boundaryAfter^[i] start) = info.boundaryAfter^[i + 1] start := by
      rw [Function.iterate_succ_apply']
      rfl
    have hrest := @ih (i + 1) fuel (by omega) (by omega)
    simp only [rebuildReads, if_pos (hwalk.before i (by omega)), hnext,
      if_pos (hwalk.before (i + 1) (by omega)), range'_succ]
    rw [← Nat.add_assoc] at hrest
    rw [hrest]

/-- The new ring holds the nodes up to the one with the number `i`. -/
structure Rebuilding (old : BwHistory) (cells : Arena ℕ) (oldest i : ℕ)
    (new : Arena ℕ × BwHistory) : Prop where
  ring : new.2.Ring new.1
  max : new.2.maxNodes = old.maxNodes + 1
  block : new.1.blocks old.historyData = cells.blocks old.historyData
  apart : new.2.historyData ≠ old.historyData
  nodes : new.2.chronological new.1 =
    (List.range (i + 1)).map fun j => old.node cells (oldest + j)

theorem Rebuilding.numNodes {i : ℕ} {new : Arena ℕ × BwHistory}
    (h : Rebuilding old cells oldest i new) : new.2.numNodes = i + 1 := by
  have hlength := congrArg List.length h.nodes
  rwa [BwHistory.length_chronological, length_map, length_range] at hlength

theorem Rebuilding.push {i : ℕ} {new : Arena ℕ × BwHistory}
    (h : Rebuilding old cells oldest i new) (hroom : i < old.maxNodes) (intervalStart : ℤ)
    (intervalEnd : ℤ) (info : NftBandwidthInfo) :
    let updated := updateHistory new.1 new.2 intervalStart intervalEnd info
    Rebuilding old cells oldest (i + 1)
      (updated.1.store updated.2.1.current (old.node updated.1 (oldest + i + 1)),
        updated.2.1) := by
  intro updated
  have hnum := h.numNodes
  have hmax := h.max
  have hring : updated.2.1.Ring updated.1 := updateHistory_ring h.ring intervalStart intervalEnd info
  have hlist : updated.2.1.chronological updated.1 =
      (if new.2.numNodes < new.2.maxNodes then new.2.chronological new.1
        else (new.2.chronological new.1).tail) ++ [0] :=
    updateHistory_chronological h.ring intervalStart intervalEnd info
  have hblock : updated.1.blocks old.historyData = cells.blocks old.historyData := by
    refine Eq.trans ?_ h.block
    exact if_neg fun heq => h.apart heq.symm
  have hvalue : old.node updated.1 (oldest + i + 1) = old.node cells (oldest + i + 1) :=
    BwHistory.node_congr rfl hblock _
  rw [if_pos (by omega)] at hlist
  refine ⟨hring.store _ _, h.max, ?_, h.apart, ?_⟩
  · refine Eq.trans ?_ hblock
    exact if_neg fun heq => h.apart heq.symm
  · rw [hring.chronological_store_current, hlist, dropLast_concat, h.nodes, hvalue,
      range_succ (n := i + 1), map_append]
    rfl

/-- The loop copies all nodes that have begun before the new time. -/
theorem rebuildHistory_rebuilt (hwalk : WalksTo info start now count)
    (hcount : count ≤ old.maxNodes) {i m fuel : ℕ} (hi : i + 1 + m = count) (hfuel : m < fuel)
    {new : Arena ℕ × BwHistory} (hnew : Rebuilding old cells oldest i new) (previousReset : ℤ) :
    ∃ new', Rebuilding old cells oldest (count - 1) new' ∧
      rebuildHistory info old now fuel new (oldest + i) (info.boundaryAfter^[i] start)
        previousReset = (new', info.boundaryAfter^[count - 1] start) := by
  induction m generalizing i fuel new previousReset with
  | zero =>
    obtain ⟨fuel, rfl⟩ := Nat.exists_eq_add_of_le' hfuel
    obtain rfl : i = count - 1 := by omega
    have hnext : getNextResetTime info (info.boundaryAfter^[count - 1] start)
        (info.boundaryAfter^[count - 1] start) = info.boundaryAfter^[count] start := by
      obtain ⟨n, rfl⟩ := Nat.exists_eq_add_of_le' (show 1 ≤ count by omega)
      rw [Nat.add_sub_cancel, Function.iterate_succ_apply']
      rfl
    refine ⟨new, hnew, ?_⟩
    simp only [rebuildHistory, if_pos (hwalk.before (count - 1) (by omega)), hnext,
      if_neg (not_lt.2 hwalk.after)]
    cases fuel with
    | zero => rfl
    | succ fuel => simp only [rebuildHistory, if_neg (not_lt.2 hwalk.after)]
  | succ m ih =>
    obtain ⟨fuel, rfl⟩ := Nat.exists_eq_add_of_le' (Nat.zero_lt_of_lt hfuel)
    have hnext : getNextResetTime info (info.boundaryAfter^[i] start)
        (info.boundaryAfter^[i] start) = info.boundaryAfter^[i + 1] start := by
      rw [Function.iterate_succ_apply']
      rfl
    have hpushed := hnew.push (by omega) (info.boundaryAfter^[i] start)
      (info.boundaryAfter^[i + 1] start) info
    obtain ⟨new', hnew', hrest⟩ := @ih (i + 1) fuel (by omega) (by omega) _ hpushed
      (info.boundaryAfter^[i] start)
    refine ⟨new', hnew', ?_⟩
    rw [← hrest]
    simp only [rebuildHistory, if_pos (hwalk.before i (by omega)), hnext,
      if_pos (hwalk.before (i + 1) (by omega)), Nat.add_assoc]

end Loop

/-! ## A history -/

theorem BwHistory.chronological_of_room {h h' : BwHistory} (hdata : h'.historyData = h.historyData)
    (hnum : h'.numNodes = h.numNodes) (hroom : h.numNodes < h.maxNodes)
    (hroom' : h.numNodes < h'.maxNodes) (cells : Arena ℕ) :
    h'.chronological cells = h.chronological cells := by
  have hfirst : h.oldestIndex = 0 := by
    simp only [oldestIndex, if_neg hroom.ne]
    split_ifs <;> rfl
  have hfirst' : h'.oldestIndex = 0 := by
    simp only [oldestIndex, if_neg (hnum.trans_lt hroom').ne]
    split_ifs <;> rfl
  simp only [chronological, hnum, hfirst, hfirst', Nat.zero_add]
  refine map_congr_left fun i hi => ?_
  have hlt := List.mem_range.1 hi
  rw [Nat.mod_eq_of_lt (hlt.trans hroom), Nat.mod_eq_of_lt (hlt.trans hroom')]
  exact node_congr hdata rfl i

theorem BwHistory.take_chronological {h : BwHistory} {count : ℕ} (hcount : count ≤ h.numNodes)
    (hroom : h.oldestIndex + count ≤ h.maxNodes) (cells : Arena ℕ) :
    (h.chronological cells).take count =
      (List.range count).map fun j => h.node cells (h.oldestIndex + j) := by
  rw [chronological, ← map_take, take_range, Nat.min_eq_left hcount]
  refine map_congr_left fun j hj => ?_
  have hlt := List.mem_range.1 hj
  rw [Nat.mod_eq_of_lt (by omega)]

theorem BwHistory.Ring.nextOldIndex_eq {h : BwHistory} {cells : Arena ℕ} (hr : h.Ring cells) :
    (if h.numNodes = h.maxNodes then (h.currentIndex + 1) % h.maxNodes else 0) =
      h.oldestIndex := by
  have hindex := hr.index
  rw [hr.oldestIndex_eq]
  by_cases hfull : h.numNodes = h.maxNodes
  · rw [if_pos hfull, mod_of_lt_two_mul (by omega)]
    split_ifs <;> omega
  · rw [if_neg hfull, if_neg fun hboth => hfull hboth.1]

theorem chronological_replaced {old new : BwHistory} {cells : Arena ℕ}
    (hapart : new.historyData ≠ old.historyData) (hroom : new.numNodes < new.maxNodes)
    (hroom' : new.numNodes < old.maxNodes) :
    BwHistory.chronological { new with maxNodes := old.maxNodes } (cells.free old.historyData) =
      new.chronological cells := by
  have hblock : (cells.free old.historyData).blocks new.historyData =
      cells.blocks new.historyData := if_neg hapart
  rw [← BwHistory.chronological_congr hblock]
  exact @BwHistory.chronological_of_room new { new with maxNodes := old.maxNodes } rfl rfl hroom
    hroom' _

section History

variable [Kernel] {u : IdUnit} {e : String × BwHistory} {running now : ℤ}

/-- What a clock that has gone back to `now` should leave of the history of an
address: the nodes of the intervals that begin before `now`, or a zero. The last
of them is the running interval again. -/
structure SurvivorsKept (now infoPreviousReset : ℤ) (u : IdUnit) (e : String × BwHistory)
    (u' : IdUnit) : Prop where
  nodes : ∃ h, (u'.maps.ipHistoryMap.bind fun histories => histories.get e.1) = some h ∧
    h.chronological u'.maps.cells =
      if e.2.begunBefore u.info now = 0 then [0]
      else (e.2.chronological u.maps.cells).take (e.2.begunBefore u.info now)
  previousReset : u'.info.previousReset =
    if e.2.begunBefore u.info now = 0 then now
    else u.info.boundaryAfter^[e.2.begunBefore u.info now - 1] e.2.firstStart
  nextReset : u'.info.nextReset = u.info.boundaryAfter u'.info.previousReset
  reads : ∀ i ∈ adjustReads u.info now infoPreviousReset e.2, i < e.2.maxNodes

def rebuildStart (cells : Arena ℕ) (now : ℤ) (old : BwHistory) : Arena ℕ × BwHistory :=
  let new := initializeHistory cells old.maxNodes
  (new.1.store new.2.current
    (if old.firstStart < now then old.node new.1 old.oldestIndex else 0), new.2)

theorem adjustIpForBackwardsTimeShift_of_rebuilt (hmap : u.maps.ipHistoryMap.isSome)
    (hmany : 1 < e.2.numNodes) (hnow : now ≤ e.2.lastEnd) (hstart : e.2.firstStart ≠ 0)
    (hring : e.2.Ring u.maps.cells) (infoPreviousReset : ℤ) (zeroed : Bool)
    {rebuilt : (Arena ℕ × BwHistory) × ℤ}
    (hrebuilt : rebuildHistory u.info e.2 now ((now - e.2.firstStart).toNat + 1)
      (rebuildStart u.maps.cells now e.2) e.2.oldestIndex e.2.firstStart
      (if e.2.firstStart < now then e.2.firstStart else now) = rebuilt) :
    let u' := (adjustIpForBackwardsTimeShift now infoPreviousReset (u, zeroed) e).1
    (u'.maps.ipHistoryMap.bind fun histories => histories.get e.1) =
        some { rebuilt.1.2 with maxNodes := e.2.maxNodes } ∧
      u'.maps.cells = rebuilt.1.1.free e.2.historyData ∧
      u'.info.previousReset = rebuilt.2 ∧
      u'.info.nextReset = u.info.boundaryAfter rebuilt.2 := by
  obtain ⟨histories, hhistories⟩ := Option.isSome_iff_exists.1 hmap
  have hone : ¬ e.2.numNodes = 1 := by omega
  simp only [rebuildStart] at hrebuilt
  simp only [adjustIpForBackwardsTimeShift, if_neg hone, if_neg (not_lt.2 hnow), if_neg hstart,
    hring.nextOldIndex_eq, hrebuilt, hhistories]
  split_ifs
  · exact ⟨HashedMap.get_set_self _ _ _, rfl, rfl, rfl⟩
  · exact ⟨HashedMap.get_set_self _ _ _, rfl, rfl, rfl⟩

theorem chronological_initializeHistory (cells : Arena ℕ) (maxNodes value : ℕ) :
    (initializeHistory cells maxNodes).2.chronological
      ((initializeHistory cells maxNodes).1.store (initializeHistory cells maxNodes).2.current
        value) = [value] := by
  have hnil : ((initializeHistory cells maxNodes).2.chronological
      (initializeHistory cells maxNodes).1).dropLast = [] := by
    apply eq_nil_of_length_eq_zero
    rw [length_dropLast, BwHistory.length_chronological]
    rfl
  rw [(initializeHistory_ring cells maxNodes).chronological_store_current, hnil]
  rfl

theorem initializeHistory_apart {h : BwHistory} {cells : Arena ℕ} (hring : h.Ring cells)
    (maxNodes : ℕ) : (initializeHistory cells maxNodes).2.historyData ≠ h.historyData := by
  obtain ⟨xs, hxs, -⟩ := hring.block
  intro heq
  have hnone := cells.fresh h.historyData (heq ▸ le_rfl)
  rw [hxs] at hnone
  cases hnone

theorem rebuilding_start (hring : e.2.Ring u.maps.cells) (hfirst : e.2.firstStart < now) :
    Rebuilding e.2 u.maps.cells e.2.oldestIndex 0 (rebuildStart u.maps.cells now e.2) := by
  have hnew := initializeHistory_ring u.maps.cells e.2.maxNodes
  have hapart := initializeHistory_apart hring e.2.maxNodes
  have hblock : (initializeHistory u.maps.cells e.2.maxNodes).1.blocks e.2.historyData =
      u.maps.cells.blocks e.2.historyData := if_neg fun heq => hapart heq.symm
  simp only [rebuildStart, if_pos hfirst]
  refine ⟨hnew.store _ _, rfl, ?_, hapart, ?_⟩
  · refine Eq.trans ?_ hblock
    exact if_neg fun heq => hapart heq.symm
  · rw [chronological_initializeHistory, BwHistory.node_congr rfl hblock]
    rfl

/-- Nothing has begun before the new time. -/
theorem survivorsKept_of_none (hmap : u.maps.ipHistoryMap.isSome) (hring : e.2.Ring u.maps.cells)
    (hmany : 1 < e.2.numNodes) (hnow : now ≤ e.2.lastEnd) (hstart : 0 < e.2.firstStart)
    (hbefore : now ≤ e.2.firstStart) (hcount : e.2.begunBefore u.info now = 0)
    (infoPreviousReset : ℤ) (zeroed : Bool) :
    SurvivorsKept now infoPreviousReset u e
      (adjustIpForBackwardsTimeShift now infoPreviousReset (u, zeroed) e).1 := by
  have hnot := not_lt.2 hbefore
  have hrebuilt : rebuildHistory u.info e.2 now ((now - e.2.firstStart).toNat + 1)
      (rebuildStart u.maps.cells now e.2) e.2.oldestIndex e.2.firstStart
      (if e.2.firstStart < now then e.2.firstStart else now) =
        (rebuildStart u.maps.cells now e.2, now) := by
    simp only [rebuildHistory, if_neg hnot]
  obtain ⟨hget, hcells, hprevious, hnext⟩ := adjustIpForBackwardsTimeShift_of_rebuilt hmap hmany
    hnow hstart.ne' hring infoPreviousReset zeroed hrebuilt
  refine ⟨⟨_, hget, ?_⟩, ?_, hnext.trans (by rw [hprevious]), ?_⟩
  · have hle := hring.le
    have hnode : (rebuildStart u.maps.cells now e.2).2.chronological
        (rebuildStart u.maps.cells now e.2).1 = [0] := by
      simp only [rebuildStart, if_neg hnot]
      exact chronological_initializeHistory _ _ _
    rw [hcells, if_pos hcount]
    exact (chronological_replaced (initializeHistory_apart hring e.2.maxNodes)
      (show 1 < e.2.maxNodes + 1 by omega) (show 1 < e.2.maxNodes by omega)).trans hnode
  · rw [hprevious, if_pos hcount]
  · simp [adjustReads, if_neg hstart.ne', hnot]

theorem adjustReads_eq (hring : e.2.Ring u.maps.cells) (hstart : 0 < e.2.firstStart)
    {count : ℕ} (hcount : 0 < count) (hwalk : WalksTo u.info e.2.firstStart now count)
    {infoPreviousReset : ℤ} :
    adjustReads u.info now infoPreviousReset e.2 = List.range' e.2.oldestIndex count := by
  have hfirst : e.2.firstStart < now := hwalk.before 0 hcount
  have hrest : rebuildReads u.info now ((now - e.2.firstStart).toNat + 1) e.2.oldestIndex
      e.2.firstStart = List.range' (e.2.oldestIndex + 1) (count - 1) :=
    rebuildReads_eq (i := 0) hwalk (by omega) hwalk.rounds
  obtain ⟨n, rfl⟩ := Nat.exists_eq_add_of_le' hcount
  simp only [adjustReads, if_neg hstart.ne', hring.nextOldIndex_eq, if_pos hfirst, hrest,
    Nat.add_sub_cancel, range'_succ]

/-- Some nodes have begun before the new time, and they are kept. -/
theorem survivorsKept_of_some (hmap : u.maps.ipHistoryMap.isSome) (hring : e.2.Ring u.maps.cells)
    (hmany : 1 < e.2.numNodes) (hnow : now ≤ e.2.lastEnd) (hdated : e.2.Dated u.info running)
    (hcount : 0 < e.2.begunBefore u.info now)
    (hroom : e.2.oldestIndex + e.2.begunBefore u.info now ≤ e.2.maxNodes)
    (infoPreviousReset : ℤ) (zeroed : Bool) :
    SurvivorsKept now infoPreviousReset u e
      (adjustIpForBackwardsTimeShift now infoPreviousReset (u, zeroed) e).1 := by
  have hfew := hdated.begunBefore_lt hmany hnow
  have hwalk := hdated.walksTo hmany hnow
  have hstart := hdated.firstStart_pos hmany
  have hle := hring.le
  generalize hk : e.2.begunBefore u.info now = count at *
  obtain ⟨new, hnew, hrebuilt⟩ := rebuildHistory_rebuilt hwalk (by omega)
    (show 0 + 1 + (count - 1) = count by omega) hwalk.rounds
    (rebuilding_start hring (hwalk.before 0 hcount))
    (if e.2.firstStart < now then e.2.firstStart else now)
  obtain ⟨hget, hcells, hprevious, hnext⟩ := adjustIpForBackwardsTimeShift_of_rebuilt hmap hmany
    hnow hstart.ne' hring infoPreviousReset zeroed hrebuilt
  have hnum := hnew.numNodes
  have hmax := hnew.max
  refine ⟨⟨_, hget, ?_⟩, ?_, hnext.trans (by rw [hprevious]), ?_⟩
  · rw [hcells, hk, if_neg hcount.ne', chronological_replaced hnew.apart (by omega) (by omega),
      hnew.nodes, BwHistory.take_chronological hfew.le hroom, Nat.sub_add_cancel hcount]
  · rw [hprevious, hk, if_neg hcount.ne']
  · rw [adjustReads_eq hring hstart hcount hwalk]
    intro i hi
    obtain ⟨-, hlt⟩ := List.mem_range'_1.1 hi
    omega

/-- The history is what is left of the intervals before `now` exactly when the walk
from the oldest node on does not come to the end of the ring. -/
theorem survivors_kept_iff (hmap : u.maps.ipHistoryMap.isSome) (hring : e.2.Ring u.maps.cells)
    (hmany : 1 < e.2.numNodes) (hdated : e.2.Dated u.info running) (hnow : now ≤ e.2.lastEnd)
    (infoPreviousReset : ℤ) (zeroed : Bool) :
    SurvivorsKept now infoPreviousReset u e
        (adjustIpForBackwardsTimeShift now infoPreviousReset (u, zeroed) e).1 ↔
      e.2.oldestIndex + e.2.begunBefore u.info now ≤ e.2.maxNodes := by
  have hwalk := hdated.walksTo hmany hnow
  have hstart := hdated.firstStart_pos hmany
  have holdest : e.2.oldestIndex < e.2.maxNodes := by
    have hindex := hring.index
    rw [hring.oldestIndex_eq]
    split_ifs <;> omega
  rcases Nat.eq_zero_or_pos (e.2.begunBefore u.info now) with hzero | hcount
  · refine ⟨fun _ => by omega, fun _ => ?_⟩
    have hfirst := hwalk.after
    rw [hzero] at hfirst
    exact survivorsKept_of_none hmap hring hmany hnow hstart hfirst hzero infoPreviousReset zeroed
  · refine ⟨fun hkept => ?_, fun hroom => ?_⟩
    · -- otherwise the node behind the last one is read
      by_contra hover
      refine lt_irrefl e.2.maxNodes (hkept.reads e.2.maxNodes ?_)
      rw [adjustReads_eq hring hstart hcount hwalk, mem_range'_1]
      omega
    · exact survivorsKept_of_some hmap hring hmany hnow hdated hcount hroom infoPreviousReset zeroed

end History

section Examples

local instance backwardsShiftKernel : Kernel := lazyResetKernel

/-- `sourceTwoMinutes` after packets from 192.168.1.5, of as many bytes as the
seconds they come at. -/
def countedMinutes (times : List ℤ) : IdUnit :=
  sourceTwoMinutes.handleAll (times.map fun now =>
    .packet false false false (.ipv4 0x0501a8c0 0x08080808 (now.toNat % 2 ^ 32)) now)

def twoSaved (firstStart : ℤ) (currentIndex : ℕ) : String × BwHistory :=
  ("192.168.1.5",
    { firstStart := firstStart
      firstEnd := firstStart + 60
      lastEnd := firstStart + 120
      maxNodes := 3
      numNodes := 3
      nonZeroNodes := 2
      currentIndex := currentIndex
      historyData := 0 })

/-- The oldest node is the middle one, and both saved minutes survive. -/
theorem middle_oldest_survives :
    let u := countedMinutes [1000, 1025, 1085, 1145]
    u.histories = [twoSaved 1020 0] ∧
      SurvivorsKept 1130 0 u (twoSaved 1020 0)
        (adjustIpForBackwardsTimeShift 1130 0 (u, false) (twoSaved 1020 0)).1 := by
  intro u
  have hdated : (twoSaved 1020 0).2.Dated u.info 1140 := by
    refine .inr ⟨?_, ?_, ?_, ?_, ?_, ?_⟩
    all_goals decide
  have hring : (twoSaved 1020 0).2.Ring u.maps.cells := by
    refine ⟨by decide, by decide, by decide, by decide, [1145, 1025, 1085], ?_, by decide⟩
    decide
  refine ⟨by decide, ?_⟩
  have hmap : u.maps.ipHistoryMap.isSome := by decide
  have hroom : (twoSaved 1020 0).2.oldestIndex + (twoSaved 1020 0).2.begunBefore u.info 1130 ≤
      (twoSaved 1020 0).2.maxNodes := by
    decide
  exact (survivors_kept_iff hmap hring (by decide) hdated (by decide) 0 false).2 hroom

/-- A minute later the oldest node is the last one. Two minutes survive, and the
second of them is read from behind the ring. -/
theorem last_oldest_lost :
    ¬ ∀ (u : IdUnit) (e : String × BwHistory) (running now infoPreviousReset : ℤ) (zeroed : Bool),
      u.maps.ipHistoryMap.isSome → e.2.Ring u.maps.cells → 1 < e.2.numNodes →
      e.2.Dated u.info running → now ≤ e.2.lastEnd →
      SurvivorsKept now infoPreviousReset u e
        (adjustIpForBackwardsTimeShift now infoPreviousReset (u, zeroed) e).1 := by
  intro hall
  let u := countedMinutes [1000, 1025, 1085, 1145, 1205]
  have hdated : (twoSaved 1080 1).2.Dated u.info 1200 := by
    refine .inr ⟨?_, ?_, ?_, ?_, ?_, ?_⟩
    all_goals decide
  have hring : (twoSaved 1080 1).2.Ring u.maps.cells := by
    refine ⟨by decide, by decide, by decide, by decide, [1145, 1205, 1085], ?_, by decide⟩
    decide
  have hkept := hall u (twoSaved 1080 1) 1200 1190 0 false (by decide) hring (by decide)
    hdated (by decide)
  exact absurd (hkept.reads 3 (by decide)) (by decide)

end Examples

end Bandwidth

end Gargoyle
