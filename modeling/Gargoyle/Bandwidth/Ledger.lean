import Gargoyle.Bandwidth.Archive
import Gargoyle.Data.Rounds

/-!
# The saved intervals of an id as a book

`BwHistory.view` is what is seen of a history: its times and its nodes from the
oldest to the running one. For an id whose histories are rings in blocks of their
own, a round of the loop of `handle_interval_reset` is a round of a book of
views (`closeInterval_ledger`), so that what `Rounds` says about catching up
holds of interval resets.
-/

namespace Gargoyle

open List

namespace Bandwidth

/-! ## What is seen of a history -/

structure HistoryView where
  firstStart : ℤ
  firstEnd : ℤ
  lastEnd : ℤ
  maxNodes : ℕ
  nonZeroNodes : ℕ
  nodes : List ℕ
deriving DecidableEq

def BwHistory.view (h : BwHistory) (cells : Arena ℕ) : HistoryView :=
  ⟨h.firstStart, h.firstEnd, h.lastEnd, h.maxNodes, h.nonZeroNodes, h.chronological cells⟩

namespace HistoryView

def closedCount (v : HistoryView) : ℕ :=
  let dropped :=
    if v.nodes.length = v.maxNodes ∧ v.nodes.headD 0 > 0
    then (v.nonZeroNodes + (2 ^ 32 - 1)) % 2 ^ 32
    else v.nonZeroNodes
  if v.nodes.getLastD 0 > 0 then (dropped + 1) % 2 ^ 32 else dropped

/-- The running interval is closed. `next` is the end of an interval that begins
at a given time. -/
def close (next : ℤ → ℤ) (start stop : ℤ) (v : HistoryView) : HistoryView :=
  let first := if v.firstStart = 0 then (start, stop) else (v.firstStart, v.firstEnd)
  let kept := if v.nodes.length ≥ v.maxNodes then (first.2, next first.2) else first
  { firstStart := kept.1
    firstEnd := kept.2
    lastEnd := stop
    maxNodes := v.maxNodes
    nonZeroNodes := v.closedCount
    nodes := (if v.nodes.length < v.maxNodes then v.nodes else v.nodes.tail) ++ [0] }

end HistoryView

section View

variable {h : BwHistory} {cells cells' : Arena ℕ}

theorem BwHistory.view_congr (hblocks : cells'.blocks h.historyData = cells.blocks h.historyData) :
    h.view cells' = h.view cells := by
  rw [view, view, chronological_congr hblocks]

theorem BwHistory.Ring.getLastD_chronological (hr : h.Ring cells) :
    (h.chronological cells).getLastD 0 = h.node cells h.currentIndex := by
  have hpos := hr.pos
  have hne : h.chronological cells ≠ [] :=
    ne_nil_of_length_pos (by rw [length_chronological]; omega)
  rw [getLastD_eq_getLast?, getLast?_eq_some_getLast hne, Option.getD_some,
    getLast_eq_getElem, getElem_chronological, length_chronological, hr.current_eq]

theorem BwHistory.Ring.headD_chronological (hr : h.Ring cells) (hfull : h.numNodes = h.maxNodes) :
    (h.chronological cells).headD 0 = h.node cells ((h.currentIndex + 1) % h.maxNodes) := by
  have hpos := hr.pos
  have hindex := hr.index
  have hlen : 0 < (h.chronological cells).length := by rw [length_chronological]; omega
  rw [headD_eq_head?_getD, head?_eq_getElem?, getElem?_eq_getElem hlen,
    Option.getD_some, getElem_chronological, hr.oldestIndex_eq, Nat.add_zero]
  congr 1
  rw [mod_of_lt_two_mul (by split_ifs <;> omega), mod_of_lt_two_mul (by omega)]
  split_ifs <;> omega

theorem closedNonZeroNodes_view (hr : h.Ring cells) :
    closedNonZeroNodes cells h = (h.view cells).closedCount := by
  simp only [closedNonZeroNodes, HistoryView.closedCount, BwHistory.view,
    BwHistory.length_chronological, hr.getLastD_chronological]
  by_cases hfull : h.numNodes = h.maxNodes
  · rw [hr.headD_chronological hfull]
  · simp only [hfull, false_and, if_false]

theorem updateHistory_view (hr : h.Ring cells) (start stop : ℤ) (info : NftBandwidthInfo) :
    (updateHistory cells h start stop info).2.1.view (updateHistory cells h start stop info).1 =
      (h.view cells).close info.boundaryAfter start stop := by
  have hnodes := updateHistory_chronological hr start stop info
  have hcount := closedNonZeroNodes_view hr
  simp only [BwHistory.view, HistoryView.close, hnodes, BwHistory.length_chronological] at hcount ⊢
  rw [← hcount]
  rfl

end View

/-! ## The count of non-zero nodes -/

namespace HistoryView

def nonZero (nodes : List ℕ) : ℕ := nodes.countP fun n => decide (0 < n)

theorem nonZero_append (nodes nodes' : List ℕ) :
    nonZero (nodes ++ nodes') = nonZero nodes + nonZero nodes' := countP_append

theorem nonZero_cons (n : ℕ) (nodes : List ℕ) :
    nonZero (n :: nodes) = nonZero nodes + if 0 < n then 1 else 0 := by
  simp [nonZero, countP_cons]

/-- The count is the number of saved nodes that are not zero, or one more: after
`reset_histories` it is one with nothing saved. -/
structure Tallied (v : HistoryView) : Prop where
  room : 2 ≤ v.maxNodes
  small : v.maxNodes < 2 ^ 32
  count : ∃ saved running, v.nodes = saved ++ [running] ∧ saved.length < v.maxNodes ∧
    nonZero saved ≤ v.nonZeroNodes ∧ v.nonZeroNodes ≤ nonZero saved + 1

variable {v : HistoryView}

/-- The count of nodes that are not zero, from the nodes that are saved. -/
theorem closedCount_eq {saved : List ℕ} {running : ℕ} (hnodes : v.nodes = saved ++ [running])
    (hsmall : v.maxNodes < 2 ^ 32) (hlen : saved.length < v.maxNodes)
    (hroom : 2 ≤ v.maxNodes) (hlow : nonZero saved ≤ v.nonZeroNodes)
    (hhigh : v.nonZeroNodes ≤ nonZero saved + 1) :
    v.closedCount + nonZero saved = v.nonZeroNodes +
      nonZero (if v.nodes.length < v.maxNodes then v.nodes else v.nodes.tail) := by
  have hcount : ∀ nodes, nonZero nodes ≤ nodes.length := fun _ => countP_le_length
  have hlast : v.nodes.getLastD 0 = running := by simp [hnodes]
  have hlength : v.nodes.length = saved.length + 1 := by simp [hnodes]
  have hrunning : nonZero [running] = if 0 < running then 1 else 0 := by
    rw [nonZero_cons]
    exact Nat.zero_add _
  simp only [closedCount, hlast]
  by_cases hfull : v.nodes.length = v.maxNodes
  · -- the oldest node is dropped
    obtain ⟨oldest, saved, rfl⟩ := exists_cons_of_length_pos (l := saved) (by omega)
    have hhead : v.nodes.headD 0 = oldest := by simp [hnodes]
    have htail : v.nodes.tail = saved ++ [running] := by simp [hnodes]
    have hcount' := hcount saved
    rw [length_cons] at hlen hlength
    rw [nonZero_cons] at hlow hhigh ⊢
    rw [@if_neg (v.nodes.length < v.maxNodes) _ (by omega), htail, nonZero_append, hrunning, hhead]
    simp only [hfull, true_and]
    split_ifs at hlow hhigh ⊢ <;> omega
  · have hroom' : v.nodes.length < v.maxNodes := by omega
    have hcount' := hcount saved
    rw [if_pos hroom', hnodes, nonZero_append, hrunning, ← hnodes]
    simp only [hfull, false_and, if_false]
    split_ifs <;> omega

theorem Tallied.close (h : v.Tallied) (next : ℤ → ℤ) (start stop : ℤ) :
    (v.close next start stop).Tallied := by
  obtain ⟨saved, running, hnodes, hlen, hlow, hhigh⟩ := h.count
  have hcount := closedCount_eq hnodes h.small hlen h.room hlow hhigh
  have hlength : v.nodes.length = saved.length + 1 := by simp [hnodes]
  have hroom := h.room
  refine ⟨h.room, h.small, _, 0, rfl, ?_, ?_, ?_⟩
  · change List.length (if _ then _ else _) < v.maxNodes
    split_ifs
    · assumption
    · rw [length_tail]
      omega
  · change _ ≤ v.closedCount
    omega
  · change v.closedCount ≤ _
    omega

theorem Tallied.of_running {v' : HistoryView} (h : v.Tallied) (hmax : v'.maxNodes = v.maxNodes)
    (hcount : v'.nonZeroNodes = v.nonZeroNodes) {running : ℕ}
    (hnodes : v'.nodes = v.nodes.dropLast ++ [running]) : v'.Tallied := by
  obtain ⟨saved, old, hold, hlen, hlow, hhigh⟩ := h.count
  rw [hold, dropLast_concat] at hnodes
  exact ⟨hmax ▸ h.room, hmax ▸ h.small, saved, running, hnodes, hmax ▸ hlen, hcount ▸ hlow,
    hcount ▸ hhigh⟩

theorem tallied_of_singleton (hroom : 2 ≤ v.maxNodes) (hsmall : v.maxNodes < 2 ^ 32)
    (hcount : v.nonZeroNodes ≤ 1) (hnodes : v.nodes.length = 1) : v.Tallied := by
  obtain ⟨running, hnodes⟩ := List.length_eq_one_iff.1 hnodes
  exact ⟨hroom, hsmall, [], running, hnodes, by rw [length_nil]; omega, Nat.zero_le _, hcount⟩

def Settled (v : HistoryView) : Prop :=
  v.Tallied ∧ (v.nonZeroNodes = 0 → v.nodes.getLastD 0 = 0)

theorem Tallied.settled_close (h : v.Tallied) (next : ℤ → ℤ) (start stop : ℤ) :
    (v.close next start stop).Settled :=
  ⟨h.close next start stop, fun _ => by simp [HistoryView.close]⟩

theorem Settled.closedCount_eq_zero (h : v.Settled) (hzero : v.nonZeroNodes = 0) :
    v.closedCount = 0 := by
  obtain ⟨saved, running, hnodes, hlen, hlow, hhigh⟩ := h.1.count
  have hcount := closedCount_eq hnodes h.1.small hlen h.1.room hlow hhigh
  have hrunning : running = 0 := by
    have hlast := h.2 hzero
    simpa [hnodes] using hlast
  have hall : nonZero v.nodes = nonZero saved := by
    rw [hnodes, hrunning, nonZero_append]
    rfl
  have htail : nonZero v.nodes.tail ≤ nonZero v.nodes :=
    (tail_sublist v.nodes).countP_le
  split_ifs at hcount <;> omega

end HistoryView

/-- The intervals of a rule whose boundaries follow each other by `next`. -/
def intervalRounds (next : ℤ → ℤ) : Rounds HistoryView ℤ where
  next := next
  close := HistoryView.close next
  alive := fun v => decide (v.nonZeroNodes > 0)

theorem intervalRounds_lasting (next : ℤ → ℤ) :
    (intervalRounds next).Lasting HistoryView.Settled where
  close := fun h start stop => h.1.settled_close next start stop
  dead := by
    intro v h hdead start stop
    have hzero : v.nonZeroNodes = 0 := by simpa [intervalRounds] using hdead
    simp [intervalRounds, HistoryView.close, h.closedCount_eq_zero hzero]

/-! ## One round of the loop -/

variable [Kernel]

section DoReset

variable {info : NftBandwidthInfo} {start stop : ℤ} {s : ResetState} {e : String × BwHistory}

/-- What `do_reset` works on for one address and one block. -/
def ResetState.place (s : ResetState) (k : String) (b : ℕ) :
    Option BwHistory × Option (List ℕ) × Option Cell :=
  (s.histories.get k, s.cells.blocks b, s.deleteIps.get k)

theorem doReset_place_other {k : String} {b : ℕ} (hk : sdbmStringHash e.1 ≠ sdbmStringHash k)
    (hb : e.2.historyData ≠ b) : (doReset info start stop s e).place k b = s.place k b := by
  have hblock : (updateHistory s.cells e.2 start stop info).1.blocks b = s.cells.blocks b :=
    if_neg fun h => hb h.symm
  simp only [doReset, ResetState.place]
  split_ifs
  · rw [HashedMap.get_set_of_ne _ _ hk, HashedMap.get_set_of_ne _ _ hk, hblock]
  · rw [HashedMap.get_set_of_ne _ _ hk, hblock]

theorem foldl_doReset_place_other {es : List (String × BwHistory)} {k : String} {b : ℕ}
    (h : ∀ e ∈ es, sdbmStringHash e.1 ≠ sdbmStringHash k ∧ e.2.historyData ≠ b) :
    (es.foldl (doReset info start stop) s).place k b = s.place k b := by
  induction es generalizing s with
  | nil => rfl
  | cons e es ih =>
    obtain ⟨hk, hb⟩ := h e mem_cons_self
    rw [foldl_cons, ih fun e' he' => h e' (mem_cons_of_mem e he')]
    exact doReset_place_other hk hb

structure ClosedAt (info : NftBandwidthInfo) (start stop : ℤ) (v : HistoryView)
    (e : String × BwHistory) (s : ResetState) : Prop where
  closed : ∃ h, s.histories.get e.1 = some h ∧ h.historyData = e.2.historyData ∧
    h.view s.cells = v.close info.boundaryAfter start stop
  deleted : s.deleteIps.get e.1 = none ↔ 0 < (v.close info.boundaryAfter start stop).nonZeroNodes

theorem ClosedAt.of_place {v : HistoryView} {s' : ResetState}
    (h : ClosedAt info start stop v e s)
    (hplace : s'.place e.1 e.2.historyData = s.place e.1 e.2.historyData) :
    ClosedAt info start stop v e s' := by
  obtain ⟨new, hget, hdata, hview⟩ := h.closed
  have hget' : s'.histories.get e.1 = s.histories.get e.1 := congrArg Prod.fst hplace
  have hblock : s'.cells.blocks e.2.historyData = s.cells.blocks e.2.historyData :=
    congrArg (fun p => p.2.1) hplace
  have hdelete : s'.deleteIps.get e.1 = s.deleteIps.get e.1 := congrArg (fun p => p.2.2) hplace
  refine ⟨⟨new, hget'.trans hget, hdata, ?_⟩, hdelete ▸ h.deleted⟩
  rw [BwHistory.view_congr (hdata.symm ▸ hblock), hview]

theorem closedAt_doReset (hr : e.2.Ring s.cells) (hdelete : s.deleteIps.get e.1 = none) :
    ClosedAt info start stop (e.2.view s.cells) e (doReset info start stop s e) := by
  have hview := updateHistory_view hr start stop info
  have hcount : (updateHistory s.cells e.2 start stop info).2.2 =
      decide (((e.2.view s.cells).close info.boundaryAfter start stop).nonZeroNodes > 0) := by
    rw [← hview]
    rfl
  simp only [doReset, hcount]
  split_ifs with hzero
  · refine ⟨⟨_, HashedMap.get_set_self _ _ _, rfl, hview⟩, ?_⟩
    simpa using hzero
  · refine ⟨⟨_, HashedMap.get_set_self _ _ _, rfl, hview⟩, ?_⟩
    simpa [hdelete, Nat.pos_iff_ne_zero] using hzero

theorem closedAt_foldl_doReset {maxNodes : ℕ} {ipMap : StringMap Cell}
    {histories : StringMap BwHistory} {cells : Arena ℕ}
    (hkept : Kept maxNodes ipMap histories cells) (he : e ∈ histories.entries) :
    ClosedAt info start stop (e.2.view cells) e
      (histories.entries.foldl (doReset info start stop)
        ⟨ipMap, histories, cells, HashedMap.empty⟩) := by
  obtain ⟨before, after, hsplit⟩ := append_of_mem he
  have hsorted := histories.sorted
  have hapart := hkept.apart
  rw [hsplit] at hsorted
  obtain ⟨-, hsorted', hcross⟩ := List.pairwise_append.1 hsorted
  have hother : ∀ e' ∈ histories.entries, sdbmStringHash e'.1 ≠ sdbmStringHash e.1 →
      sdbmStringHash e'.1 ≠ sdbmStringHash e.1 ∧ e'.2.historyData ≠ e.2.historyData := by
    intro e' he' hhash
    refine ⟨hhash, fun hdata => hhash ?_⟩
    rw [hapart e' he' e he hdata]
  have hbefore : ∀ e' ∈ before, sdbmStringHash e'.1 ≠ sdbmStringHash e.1 ∧
      e'.2.historyData ≠ e.2.historyData := by
    intro e' he'
    exact hother e' (by simp [hsplit, he']) (hcross e' he' e mem_cons_self).ne
  have hafter : ∀ e' ∈ after, sdbmStringHash e'.1 ≠ sdbmStringHash e.1 ∧
      e'.2.historyData ≠ e.2.historyData := by
    intro e' he'
    exact hother e' (by simp [hsplit, he']) ((List.pairwise_cons.1 hsorted').1 e' he').ne'
  rw [hsplit, foldl_append, foldl_cons]
  have hplace := @foldl_doReset_place_other _ info start stop
    ⟨ipMap, histories, cells, HashedMap.empty⟩ _ _ _ hbefore
  generalize before.foldl (doReset info start stop)
    ⟨ipMap, histories, cells, HashedMap.empty⟩ = s at hplace ⊢
  have hblock : s.cells.blocks e.2.historyData = cells.blocks e.2.historyData :=
    congrArg (fun p => p.2.1) hplace
  have hdelete : s.deleteIps.get e.1 = none := congrArg (fun p => p.2.2) hplace
  have hclosed := @closedAt_doReset _ info start stop s e
    ((hkept.rings e he).1.of_blocks hblock) hdelete
  rw [BwHistory.view_congr hblock] at hclosed
  exact hclosed.of_place (foldl_doReset_place_other hafter)

end DoReset

section ClearIps

variable {es : List (String × Cell)} {t : IpMaps × StringMap BwHistory}

theorem foldl_clearIps_get (k : String) :
    (es.foldl (fun t e => clearIps t.1 t.2 e) t).2.get k =
      if ∀ e ∈ es, sdbmStringHash e.1 ≠ sdbmStringHash k then t.2.get k else none := by
  induction es generalizing t with
  | nil => simp
  | cons e es ih =>
    rw [foldl_cons, ih]
    simp only [clearIps, HashedMap.get_remove, forall_mem_cons]
    by_cases hhash : sdbmStringHash e.1 = sdbmStringHash k
    · simp [hhash]
    · rw [if_neg hhash]
      exact if_congr ⟨fun h => ⟨hhash, h⟩, fun h => h.2⟩ rfl rfl

theorem foldl_clearIps_keys :
    (es.foldl (fun t e => clearIps t.1 t.2 e) t).2.keys =
      t.2.keys.filter fun k => decide (∀ e ∈ es, sdbmStringHash e.1 ≠ sdbmStringHash k) := by
  induction es generalizing t with
  | nil => simp
  | cons e es ih =>
    rw [foldl_cons, ih]
    simp only [clearIps, HashedMap.keys_remove, List.filter_filter]
    refine List.filter_congr fun k _ => ?_
    simp only [forall_mem_cons, ← Bool.decide_and, ne_comm, and_comm]

theorem foldl_clearIps_blocks {maxNodes : ℕ}
    (hsorted : es.Pairwise fun a b => sdbmStringHash a.1 < sdbmStringHash b.1)
    (hkeys : ∀ e ∈ es, e.1 ∈ t.2.keys) (hkept : Kept maxNodes t.1.ipMap t.2 t.1.cells)
    {e : String × BwHistory} (he : e ∈ t.2.entries)
    (hother : ∀ e' ∈ es, sdbmStringHash e'.1 ≠ sdbmStringHash e.1) :
    (es.foldl (fun t e => clearIps t.1 t.2 e) t).1.cells.blocks e.2.historyData =
      t.1.cells.blocks e.2.historyData := by
  induction es generalizing t with
  | nil => rfl
  | cons e' es ih =>
    obtain ⟨hhead, htail⟩ := List.pairwise_cons.1 hsorted
    obtain ⟨old, hold⟩ := (t.2.mem_keys e'.1).1 (hkeys e' mem_cons_self)
    have hget : t.2.get e'.1 = some old := t.2.get_of_mem hold
    have hne := hother e' mem_cons_self
    have hdata : e.2.historyData ≠ old.historyData := by
      intro hdata
      exact hne (by rw [hkept.apart e he _ hold hdata])
    have hblock : (clearIps t.1 t.2 e').1.cells.blocks e.2.historyData =
        t.1.cells.blocks e.2.historyData := by
      simp [clearIps, hget, Arena.free, hdata]
    rw [foldl_cons, ih htail, hblock]
    · intro e'' he''
      have hmem := hkeys e'' (mem_cons_of_mem e' he'')
      have hne' : sdbmStringHash e''.1 ≠ sdbmStringHash e'.1 := (hhead e'' he'').ne'
      simp only [clearIps, HashedMap.keys_remove, mem_filter]
      exact ⟨hmem, by simpa using hne'⟩
    · simp only [clearIps, hget]
      exact hkept.remove hold
    · exact (t.2.mem_entries_remove e'.1 e).2 ⟨he, fun h => hne h.symm⟩
    · exact fun e'' he'' => hother e'' (mem_cons_of_mem e' he'')

end ClearIps

def historyBook (ipMap : StringMap Cell) (histories : StringMap BwHistory) (cells : Arena ℕ)
    (previous due : ℤ) : Book String HistoryView ℤ where
  keys := ipMap.keys
  entry := fun k => (histories.get k).map fun h => h.view cells
  previous := previous
  due := due

section Round

variable {info : NftBandwidthInfo} {start stop : ℤ} {maxNodes : ℕ} {ipMap : StringMap Cell}
  {histories : StringMap BwHistory} {cells : Arena ℕ}

theorem foldl_doReset_keys {es : List (String × BwHistory)} {s : ResetState}
    (hkeys : ∀ e ∈ es, e.1 ∈ s.histories.keys) :
    (es.foldl (doReset info start stop) s).histories.keys = s.histories.keys := by
  induction es generalizing s with
  | nil => rfl
  | cons e es ih =>
    have hset : (doReset info start stop s e).histories.keys = s.histories.keys := by
      simp only [doReset]
      split_ifs
      · exact s.histories.keys_set_of_mem _ (hkeys e mem_cons_self)
      · exact s.histories.keys_set_of_mem _ (hkeys e mem_cons_self)
    rw [foldl_cons, ih, hset]
    intro e' he'
    rw [hset]
    exact hkeys e' (mem_cons_of_mem e he')

/-- The loop of a reset closes the interval in the book of every address. -/
theorem historyBook_doReset (hkept : Kept maxNodes ipMap histories cells) :
    let s := histories.entries.foldl (doReset info start stop)
      ⟨ipMap, histories, cells, HashedMap.empty⟩
    Kept maxNodes s.ipMap s.histories s.cells ∧ (∀ k ∈ s.deleteIps.keys, k ∈ s.histories.keys) ∧
      (∀ e ∈ s.histories.entries, s.deleteIps.get e.1 = none ↔ 0 < e.2.nonZeroNodes) ∧
      historyBook s.ipMap s.histories s.cells stop (info.boundaryAfter stop) =
        (intervalRounds info.boundaryAfter).advance
          (historyBook ipMap histories cells start stop) := by
  have hempty : ∀ k ∈ (HashedMap.empty : StringMap Cell).keys, k ∈ histories.keys := by
    simp [HashedMap.keys]
  obtain ⟨hswept, hdelete⟩ := @foldl_doReset _ info maxNodes (fun _ => True) (fun _ => True)
    start stop histories.entries ⟨ipMap, histories, cells, HashedMap.empty⟩
    (fun _ _ _ => trivial) (Sweep.start hkept fun _ _ => trivial) hempty
  have hclosed := fun e he => @closedAt_foldl_doReset _ info start stop e _ _ _ _ hkept he
  have hkeys := @foldl_doReset_keys _ info start stop histories.entries
    ⟨ipMap, histories, cells, HashedMap.empty⟩ fun e he => mem_map_of_mem he
  simp only at hswept hdelete hkeys ⊢
  generalize histories.entries.foldl (doReset info start stop)
    ⟨ipMap, histories, cells, HashedMap.empty⟩ = s at hswept hdelete hclosed hkeys ⊢
  obtain ⟨hkept', -⟩ := hswept.finish
  -- an address has a history afterwards if it had one before
  have hold : ∀ e ∈ s.histories.entries, ∃ old, (e.1, old) ∈ histories.entries := by
    intro e he
    refine (histories.mem_keys e.1).1 ?_
    rw [← hkeys]
    exact (s.histories.mem_keys e.1).2 ⟨e.2, he⟩
  refine ⟨hkept', hdelete, fun e he => ?_, ?_⟩
  · obtain ⟨old, hmem⟩ := hold e he
    obtain ⟨⟨new, hget, -, hview⟩, hdeleted⟩ := hclosed _ hmem
    obtain rfl : e.2 = new := Option.some.inj ((s.histories.get_of_mem he).symm.trans hget)
    rw [hdeleted, ← hview]
    rfl
  · ext1
    · exact (hkept'.keys.trans hkeys).trans hkept.keys.symm
    · funext k
      simp only [historyBook, Rounds.advance, intervalRounds]
      cases hget : histories.get k with
      | none =>
        have hnone : s.histories.get k = none := by
          rw [HashedMap.get_eq_none_iff_keys, hkeys, ← HashedMap.get_eq_none_iff_keys]
          exact hget
        rw [hnone]
        rfl
      | some old =>
        obtain ⟨k', hhash, hmem⟩ := histories.exists_mem_of_get hget
        obtain ⟨⟨new, hnew, -, hview⟩, -⟩ := hclosed _ hmem
        rw [← s.histories.get_congr hhash, hnew]
        exact congrArg some hview
    · rfl
    · rfl

/-- Only addresses whose book is empty are cleared. -/
theorem historyBook_clearIps {deleteIps : StringMap Cell} {t : IpMaps × StringMap BwHistory}
    (hkept : Kept maxNodes t.1.ipMap t.2 t.1.cells) (hkeys : ∀ k ∈ deleteIps.keys, k ∈ t.2.keys)
    (hdead : ∀ e ∈ t.2.entries, deleteIps.get e.1 = none ↔ 0 < e.2.nonZeroNodes)
    (next : ℤ → ℤ) :
    let t' := deleteIps.entries.foldl (fun t e => clearIps t.1 t.2 e) t
    Kept maxNodes t'.1.ipMap t'.2 t'.1.cells ∧
      historyBook t'.1.ipMap t'.2 t'.1.cells start stop =
        (intervalRounds next).sweep (historyBook t.1.ipMap t.2 t.1.cells start stop) := by
  have hkeys' : ∀ e ∈ deleteIps.entries, e.1 ∈ t.2.keys :=
    fun e he => hkeys e.1 (mem_map_of_mem he)
  obtain ⟨hkept', -⟩ := @foldl_clearIps _ maxNodes (fun _ => True) _ t deleteIps.sorted hkeys' hkept
    fun _ _ => trivial
  have hget := fun k => @foldl_clearIps_get _ deleteIps.entries t k
  have hfiltered := @foldl_clearIps_keys _ deleteIps.entries t
  have hblocks := fun e he => @foldl_clearIps_blocks _ _ t maxNodes deleteIps.sorted hkeys' hkept e he
  simp only at hkept' ⊢
  generalize deleteIps.entries.foldl (fun t e => clearIps t.1 t.2 e) t = t' at *
  refine ⟨hkept', ?_⟩
  ext1
  · simp only [historyBook, Rounds.sweep, hkept'.keys, hkept.keys, hfiltered, intervalRounds]
    refine List.filter_congr fun k hk => ?_
    obtain ⟨h, hmem⟩ := (t.2.mem_keys k).1 hk
    have hiff := hdead _ hmem
    rw [HashedMap.get_eq_none_iff] at hiff
    rw [t.2.get_of_mem hmem]
    simpa [BwHistory.view] using hiff
  · funext k
    simp only [historyBook, Rounds.sweep, hget, intervalRounds]
    cases hk : t.2.get k with
    | none => simp
    | some h =>
      obtain ⟨k', hhash, hmem⟩ := t.2.exists_mem_of_get hk
      have hiff := hdead _ hmem
      rw [HashedMap.get_eq_none_iff] at hiff
      rw [← hhash]
      by_cases hdata : 0 < h.nonZeroNodes
      · have hother := hiff.2 hdata
        rw [if_pos hother]
        have hview : h.view t'.1.cells = h.view t.1.cells :=
          BwHistory.view_congr (hblocks _ hmem hother)
        have halive : (h.view t.1.cells).nonZeroNodes > 0 := hdata
        simp [Option.filter, hview, halive]
      · rw [if_neg fun h => hdata (hiff.1 h)]
        simp [Option.filter, BwHistory.view, hdata]
  · rfl
  · rfl

end Round

/-! ## The loop -/

namespace IdUnit

def ledger (u : IdUnit) : Book String HistoryView ℤ where
  keys := u.maps.ipMap.keys
  entry := fun k => (u.maps.ipHistoryMap.bind fun histories => histories.get k).map fun h =>
    h.view u.maps.cells
  previous := u.info.previousReset
  due := u.info.nextReset

/-- The maps of an id with histories of `maxNodes` nodes fit together. -/
def Filed (maxNodes : ℕ) (u : IdUnit) : Prop :=
  ∃ histories, u.maps.ipHistoryMap = some histories ∧
    Kept maxNodes u.maps.ipMap histories u.maps.cells

variable {u : IdUnit} {now : ℤ} {maxNodes : ℕ} {histories : StringMap BwHistory}

theorem ledger_eq (hmap : u.maps.ipHistoryMap = some histories) :
    u.ledger = historyBook u.maps.ipMap histories u.maps.cells u.info.previousReset
      u.info.nextReset := by
  simp only [ledger, hmap, historyBook, Option.bind_some]

/-- Closing an interval is one round in the ledger. -/
theorem closeInterval_ledger (hmap : u.maps.ipHistoryMap = some histories)
    (hkept : Kept maxNodes u.maps.ipMap histories u.maps.cells) :
    (closeInterval u histories now).Filed maxNodes ∧
      (closeInterval u histories now).ledger =
        (intervalRounds u.info.boundaryAfter).round now u.ledger := by
  obtain ⟨hkept', hkeys, hdead, hbook⟩ := @historyBook_doReset _ u.info u.info.previousReset
    u.info.nextReset _ _ _ _ hkept
  rw [← ledger_eq hmap] at hbook
  have hround : (intervalRounds u.info.boundaryAfter).round now u.ledger =
      if now ≤ u.info.boundaryAfter u.info.nextReset then
        (intervalRounds u.info.boundaryAfter).sweep
          ((intervalRounds u.info.boundaryAfter).advance u.ledger)
      else (intervalRounds u.info.boundaryAfter).advance u.ledger := rfl
  rw [hround, ← hbook]
  simp only [closeInterval]
  generalize histories.entries.foldl (doReset u.info u.info.previousReset u.info.nextReset)
    ⟨u.maps.ipMap, histories, u.maps.cells, HashedMap.empty⟩ = s at hkept' hkeys hdead ⊢
  by_cases hlast : now ≤ u.info.boundaryAfter u.info.nextReset
  · have hlast' : getNextResetTime u.info u.info.nextReset u.info.nextReset ≥ now := hlast
    obtain ⟨hkept'', hbook'⟩ := @historyBook_clearIps _ u.info.nextReset
      (u.info.boundaryAfter u.info.nextReset) maxNodes s.deleteIps
      ({ u.maps with ipMap := s.ipMap, cells := s.cells }, s.histories) hkept' hkeys hdead
      u.info.boundaryAfter
    simp only [if_pos hlast, if_pos hlast']
    exact ⟨⟨_, rfl, hkept''⟩, (ledger_eq rfl).trans hbook'⟩
  · have hlast' : ¬ getNextResetTime u.info u.info.nextReset u.info.nextReset ≥ now := hlast
    simp only [if_neg hlast, if_neg hlast']
    exact ⟨⟨_, rfl, hkept'⟩, ledger_eq rfl⟩

theorem closeIntervals_ledger (h : u.Filed maxNodes) (n : ℕ) :
    (closeIntervals now n u).Filed maxNodes ∧
      (closeIntervals now n u).ledger =
        (intervalRounds u.info.boundaryAfter).catchUp now n u.ledger := by
  induction n generalizing u with
  | zero => exact ⟨h, rfl⟩
  | succ n ih =>
    obtain ⟨histories, hmap, hkept⟩ := h
    obtain ⟨hfiled, hledger⟩ := @closeInterval_ledger _ u now _ _ hmap hkept
    have hnext : (Bandwidth.closeInterval u histories now).info.boundaryAfter =
        u.info.boundaryAfter :=
      funext fun x => NftBandwidthInfo.boundaryAfter_of_rule
        (SameRules.closeInterval u histories now).1 x
    obtain ⟨hfiled', hledger'⟩ := ih hfiled
    rw [hnext, hledger] at hledger'
    have hdue : (u.ledger).due = u.info.nextReset := rfl
    rw [Bandwidth.closeIntervals, hmap, Rounds.catchUp, hdue]
    simp only
    split_ifs
    · exact ⟨hfiled', hledger'⟩
    · exact ⟨⟨histories, hmap, hkept⟩, rfl⟩

end IdUnit

end Bandwidth

end Gargoyle
