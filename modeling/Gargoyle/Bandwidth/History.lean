import Gargoyle.Bandwidth.ResetTime

/-!
# Saved intervals

`initialize_history` and `update_history`: a history is a ring of counters, one
for each saved interval and one for the running interval. Closing an interval
moves the current index on and clears the node it arrives at, which overwrites
the oldest interval once the ring is full.

`chronological` lists the nodes from the oldest to the running one, in the way
`add_ip_block` walks the ring.
-/

namespace Gargoyle

open List

namespace Bandwidth

def BwHistory.node (h : BwHistory) (cells : Arena ℕ) (i : ℕ) : ℕ :=
  (cells.load ⟨h.historyData, i⟩).getD 0

/-- `initialize_history`. One node more than asked for is allocated, and that
last node is the one `memset` does not reach. -/
def initializeHistory [Kernel] (cells : Arena ℕ) (maxNodes : ℕ) : Arena ℕ × BwHistory :=
  let cells' := cells.alloc (List.replicate maxNodes 0 ++ [Kernel.junk])
  (cells'.1,
    { firstStart := 0
      firstEnd := 0
      lastEnd := 0
      maxNodes := maxNodes + 1
      numNodes := 1
      nonZeroNodes := 0
      currentIndex := 0
      historyData := cells'.2 })

def closedNonZeroNodes (cells : Arena ℕ) (h : BwHistory) : ℕ :=
  let dropped :=
    if h.numNodes = h.maxNodes ∧ h.node cells ((h.currentIndex + 1) % h.maxNodes) > 0
    then (h.nonZeroNodes + (2 ^ 32 - 1)) % 2 ^ 32
    else h.nonZeroNodes
  if h.node cells h.currentIndex > 0 then (dropped + 1) % 2 ^ 32 else dropped

def closedFirstInterval (info : NftBandwidthInfo) (h : BwHistory)
    (intervalStart intervalEnd : ℤ) : ℤ × ℤ :=
  let first := if h.firstStart = 0 then (intervalStart, intervalEnd) else (h.firstStart, h.firstEnd)
  if h.numNodes ≥ h.maxNodes then (first.2, getNextResetTime info first.2 first.2) else first

/-- `update_history`. The flag says whether a saved node is non-zero. -/
def updateHistory (cells : Arena ℕ) (h : BwHistory) (intervalStart intervalEnd : ℤ)
    (info : NftBandwidthInfo) : Arena ℕ × BwHistory × Bool :=
  let nonZeroNodes := closedNonZeroNodes cells h
  let first := closedFirstInterval info h intervalStart intervalEnd
  let h' : BwHistory :=
    { firstStart := first.1
      firstEnd := first.2
      lastEnd := intervalEnd
      maxNodes := h.maxNodes
      numNodes := if h.numNodes < h.maxNodes then h.numNodes + 1 else h.maxNodes
      nonZeroNodes := nonZeroNodes
      currentIndex := (h.currentIndex + 1) % h.maxNodes
      historyData := h.historyData }
  (cells.store h'.current 0, h', decide (nonZeroNodes > 0))

/-- The index of the oldest node, as `add_ip_block` computes it. -/
def BwHistory.oldestIndex (h : BwHistory) : ℕ :=
  let next := if h.numNodes = h.maxNodes then h.currentIndex + 1 else 0
  if next ≥ h.maxNodes then 0 else next

def BwHistory.chronological (h : BwHistory) (cells : Arena ℕ) : List ℕ :=
  (List.range h.numNodes).map fun i => h.node cells ((h.oldestIndex + i) % h.maxNodes)

/-!
## The ring of a history

`BwHistory.Ring` is what a history keeps true of its indices and of the block
its nodes are in. Under it the chronological list behaves like a list of bounded
length: closing an interval appends a zero and drops the oldest node of a full
ring, and counting changes the last node.
-/

structure BwHistory.Ring (h : BwHistory) (cells : Arena ℕ) : Prop where
  pos : 1 ≤ h.numNodes
  le : h.numNodes ≤ h.maxNodes
  index : h.currentIndex < h.maxNodes
  filling : h.numNodes < h.maxNodes → h.currentIndex + 1 = h.numNodes
  block : ∃ xs, cells.blocks h.historyData = some xs ∧ h.maxNodes ≤ xs.length

theorem mod_of_lt_two_mul {x m : ℕ} (h : x < 2 * m) : x % m = if x < m then x else x - m := by
  split_ifs with hlt
  · exact Nat.mod_eq_of_lt hlt
  · rw [Nat.mod_eq_sub_mod (not_lt.1 hlt)]
    exact Nat.mod_eq_of_lt (by omega)

namespace BwHistory

variable {h : BwHistory} {cells cells' : Arena ℕ}

theorem Ring.of_blocks (hr : h.Ring cells)
    (hblocks : cells'.blocks h.historyData = cells.blocks h.historyData) : h.Ring cells' :=
  ⟨hr.pos, hr.le, hr.index, hr.filling, hblocks ▸ hr.block⟩

theorem Ring.store (hr : h.Ring cells) (c : Cell) (v : ℕ) : h.Ring (cells.store c v) := by
  obtain ⟨xs, hxs, hlen⟩ := hr.block
  refine ⟨hr.pos, hr.le, hr.index, hr.filling, ?_⟩
  by_cases hc : h.historyData = c.block
  · exact ⟨xs.set c.index v, by simp [Arena.store, hxs, ← hc], by rwa [length_set]⟩
  · exact ⟨xs, by simp [Arena.store, hc, hxs], hlen⟩

theorem Ring.node_store (hr : h.Ring cells) {i : ℕ} (hi : i < h.maxNodes) (v j : ℕ) :
    h.node (cells.store ⟨h.historyData, i⟩ v) j = if j = i then v else h.node cells j := by
  obtain ⟨xs, hxs, hlen⟩ := hr.block
  have hload : cells.load ⟨h.historyData, i⟩ = some (xs.get ⟨i, by omega⟩) := by
    simp [Arena.load, hxs]
  unfold node
  rw [Arena.load_store]
  by_cases hj : j = i
  · simp [hj, hload]
  · simp [hj]

theorem node_congr {h' : BwHistory} (hdata : h'.historyData = h.historyData)
    (hblocks : cells'.blocks h.historyData = cells.blocks h.historyData) (i : ℕ) :
    h'.node cells' i = h.node cells i := by
  simp only [node, Arena.load, hdata, hblocks]

theorem chronological_congr (hblocks : cells'.blocks h.historyData = cells.blocks h.historyData) :
    h.chronological cells' = h.chronological cells := by
  unfold chronological
  exact map_congr_left fun i _ => node_congr rfl hblocks _

@[simp] theorem length_chronological (h : BwHistory) (cells : Arena ℕ) :
    (h.chronological cells).length = h.numNodes := by
  simp [chronological]

theorem getElem_chronological (h : BwHistory) (cells : Arena ℕ) {i : ℕ}
    (hi : i < (h.chronological cells).length) :
    (h.chronological cells)[i] = h.node cells ((h.oldestIndex + i) % h.maxNodes) := by
  simp [chronological]

theorem Ring.oldestIndex_eq (hr : h.Ring cells) :
    h.oldestIndex = if h.numNodes = h.maxNodes ∧ h.currentIndex + 1 < h.maxNodes
      then h.currentIndex + 1 else 0 := by
  have hindex := hr.index
  simp only [oldestIndex]
  split_ifs <;> omega

theorem Ring.current_eq (hr : h.Ring cells) :
    (h.oldestIndex + (h.numNodes - 1)) % h.maxNodes = h.currentIndex := by
  have hpos := hr.pos
  have hle := hr.le
  have hindex := hr.index
  have hfilling := hr.filling
  rw [hr.oldestIndex_eq]
  split_ifs with hfull
  · rw [mod_of_lt_two_mul (by omega)]
    split_ifs <;> omega
  · rw [Nat.mod_eq_of_lt (by omega)]
    omega

/-- The current node is the last in time. -/
theorem Ring.chronological_store_current (hr : h.Ring cells) (v : ℕ) :
    h.chronological (cells.store h.current v) = (h.chronological cells).dropLast ++ [v] := by
  have hpos := hr.pos
  have hle := hr.le
  have hindex := hr.index
  have hcurrent := hr.current_eq
  have hfilling := hr.filling
  have holdest := hr.oldestIndex_eq
  apply ext_getElem
  · simp
    omega
  · intro i hi hi'
    rw [length_chronological] at hi
    rw [getElem_chronological]
    have hstore := hr.node_store hindex v ((h.oldestIndex + i) % h.maxNodes)
    rw [current, hstore]
    by_cases hlast : i = h.numNodes - 1
    · subst hlast
      rw [if_pos hcurrent, getElem_append_right (by simp)]
      simp
    · have hne : (h.oldestIndex + i) % h.maxNodes ≠ h.currentIndex := by
        rw [mod_of_lt_two_mul (by split_ifs at holdest <;> omega)]
        split_ifs at holdest ⊢ <;> omega
      rw [if_neg hne, getElem_append_left (by simp; omega), getElem_dropLast,
        getElem_chronological]

end BwHistory

/-! ### Closing an interval -/

section Update

variable {h : BwHistory} {cells : Arena ℕ}

theorem updateHistory_cells (cells : Arena ℕ) (h : BwHistory) (start stop : ℤ)
    (info : NftBandwidthInfo) :
    (updateHistory cells h start stop info).1 =
      cells.store (updateHistory cells h start stop info).2.1.current 0 := rfl

theorem updateHistory_ring_before (hr : h.Ring cells) (start stop : ℤ)
    (info : NftBandwidthInfo) : (updateHistory cells h start stop info).2.1.Ring cells := by
  have hpos := hr.pos
  have hle := hr.le
  have hindex := hr.index
  have hfilling := hr.filling
  refine ⟨?_, ?_, ?_, ?_, hr.block⟩
  · simp only [updateHistory]
    split_ifs <;> omega
  · simp only [updateHistory]
    split_ifs <;> omega
  · exact Nat.mod_lt _ (by omega)
  · simp only [updateHistory]
    intro hlt
    split_ifs at hlt ⊢ with hroom
    · rw [Nat.mod_eq_of_lt (by omega)]
      omega
    · omega

theorem updateHistory_ring (hr : h.Ring cells) (start stop : ℤ) (info : NftBandwidthInfo) :
    (updateHistory cells h start stop info).2.1.Ring
      (updateHistory cells h start stop info).1 :=
  (updateHistory_ring_before hr start stop info).store _ _

/-- Closing an interval drops the oldest node of a full ring and no other. -/
theorem updateHistory_dropLast (hr : h.Ring cells) (start stop : ℤ) (info : NftBandwidthInfo) :
    ((updateHistory cells h start stop info).2.1.chronological cells).dropLast =
      if h.numNodes < h.maxNodes then h.chronological cells
      else (h.chronological cells).tail := by
  have hpos := hr.pos
  have hle := hr.le
  have hindex := hr.index
  have hfilling := hr.filling
  have holdest := hr.oldestIndex_eq
  have hnew := (updateHistory_ring_before hr start stop info).oldestIndex_eq
  have hnode : ∀ i, (updateHistory cells h start stop info).2.1.node cells i = h.node cells i :=
    fun i => BwHistory.node_congr rfl rfl i
  have hmax : (updateHistory cells h start stop info).2.1.maxNodes = h.maxNodes := rfl
  have hnum : (updateHistory cells h start stop info).2.1.numNodes =
      if h.numNodes < h.maxNodes then h.numNodes + 1 else h.maxNodes := rfl
  have hcur : (updateHistory cells h start stop info).2.1.currentIndex =
      (h.currentIndex + 1) % h.maxNodes := rfl
  rw [mod_of_lt_two_mul (by omega)] at hcur
  generalize (updateHistory cells h start stop info).2.1 = h' at *
  split_ifs with hroom
  · -- the ring is being filled, and its oldest node stays the first one
    rw [if_pos hroom] at hnum
    apply ext_getElem
    · simp [hnum]
    · intro i hi hi'
      rw [BwHistory.length_chronological] at hi'
      rw [getElem_dropLast, BwHistory.getElem_chronological, BwHistory.getElem_chronological,
        hnode, hmax]
      congr 2
      split_ifs at holdest hnew hcur <;> omega
  · -- the ring is full, and the node after the oldest one becomes the oldest
    rw [if_neg hroom] at hnum
    apply ext_getElem
    · simp [hnum]
      omega
    · intro i hi hi'
      rw [length_tail, BwHistory.length_chronological] at hi'
      rw [getElem_dropLast, getElem_tail, BwHistory.getElem_chronological,
        BwHistory.getElem_chronological, hnode, hmax]
      congr 1
      rw [mod_of_lt_two_mul (by split_ifs at hnew hcur <;> omega),
        mod_of_lt_two_mul (by split_ifs at holdest <;> omega)]
      split_ifs at holdest hnew hcur ⊢ <;> omega

theorem updateHistory_chronological (hr : h.Ring cells) (start stop : ℤ)
    (info : NftBandwidthInfo) :
    (updateHistory cells h start stop info).2.1.chronological
        (updateHistory cells h start stop info).1 =
      (if h.numNodes < h.maxNodes then h.chronological cells
        else (h.chronological cells).tail) ++ [0] := by
  rw [updateHistory_cells,
    (updateHistory_ring_before hr start stop info).chronological_store_current,
    updateHistory_dropLast hr]

end Update

end Bandwidth

end Gargoyle
