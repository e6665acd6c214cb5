import Gargoyle.Bandwidth.Charging
import Gargoyle.Bandwidth.CheckedReset
import Gargoyle.Bandwidth.ReplayLoop
import Gargoyle.Bandwidth.SetRequest

/-!
# The bytes that a set request is read from

`nft_bandwidth_set_ctl` checks that a request has a head, and nothing else: the
number of blocks and the numbers of their nodes are taken from the request, and
the blocks are read wherever the cursor goes. The end of the loop is a sum of
type `uint32_t`.

A block for an id that saves intervals is read node by node, but only up to the
node at which the replay ends: it has reached the clock, or met too many zeros in
a row (`Replays`). On its way the replay asks `get_next_reset_time` where the next
interval ends, from the start that the block gives on. A start that is not
answered (`Answered`) holds the replay up for ever, or sends it to times that are
no boundaries.
-/

namespace Gargoyle

open List

namespace Bandwidth

open ByteBuffer

section Set

variable [Kernel]

/-! ## What is read and asked -/

/-- `get_next_reset_time` comes to its end for the interval that begins at `start`, and nothing
wraps. -/
def Answered (info : NftBandwidthInfo) (start : ℤ) : Prop :=
  -2 ^ 63 ≤ start ∧ start < 2 ^ 63 ∧
    ∃ rounds, getNextResetTimeChecked rounds info start start = some (info.boundaryAfter start)

inductive SetAccess
  | read (offset : ℕ)
  | nextReset (info : NftBandwidthInfo) (start : ℤ)

def SetAccess.Allowed (len : ℕ) : SetAccess → Prop
  | read offset => offset < len
  | nextReset info start => Answered info start

def readRange (offset w : ℕ) : List SetAccess := (List.range' offset w).map .read

omit [Kernel] in
theorem readRange_allowed_iff {off len w : ℕ} (hw : 0 < w) :
    (∀ a ∈ readRange off w, a.Allowed len) ↔ off + w ≤ len := by
  rw [readRange, List.forall_mem_map]
  constructor
  · intro h
    have hlast : off + w - 1 < len := h (off + w - 1) (List.mem_range'_1.2 (by omega))
    omega
  · intro h i hi
    have hlt := (List.mem_range'_1.1 hi).2
    exact show i < len by omega

omit [Kernel] in
theorem answered_of_rule {info info' : NftBandwidthInfo} (hrule : info'.rule = info.rule)
    (start : ℤ) : Answered info' start ↔ Answered info start := by
  have hchecked : ∀ rounds, getNextResetTimeChecked rounds info' start start =
      getNextResetTimeChecked rounds info start start := by
    intro rounds
    change getNextResetTimeChecked rounds info'.rule start start =
      getNextResetTimeChecked rounds info.rule start start
    rw [hrule]
  simp only [Answered, hchecked, NftBandwidthInfo.boundaryAfter_of_rule hrule]

/-! ## The nodes that are replayed -/

def nodeCursor (index j : ℕ) : ℕ := addUint32 index (48 + 8 * j)

def nodeWord (b : ByteBuffer) (index n j : ℕ) : ℕ :=
  if j < n then readLE 8 b (nodeCursor index j) else 0

def zeroRun (b : ByteBuffer) (index n : ℕ) : ℕ → ℕ
  | 0 => 0
  | j + 1 => if nodeWord b index n j = 0 then zeroRun b index n j + 1 else 0

def blockStart (west : ℤ) (b : ByteBuffer) (index : ℕ) : ℤ :=
  toInt64 (readLE 8 b (index + 24)) - 60 * west

def GoesOn (info : NftBandwidthInfo) (west : ℤ) (b : ByteBuffer) (now : ℤ) (index i : ℕ) :
    Prop :=
  info.boundaryAfter^[i] (blockStart west b index) < now ∧
    zeroRun b index (readLE 4 b (index + 20)) (i + 1) < info.numIntervalsToSave + 3

def Replays (info : NftBandwidthInfo) (west : ℤ) (b : ByteBuffer) (now : ℤ) (index j : ℕ) :
    Prop :=
  blockStart west b index < now ∧ ∀ i, 0 < i → i < j → GoesOn info west b now index i

/-- What comes with the node `j`: it lies in the buffer, and the interval after it is answered. -/
def NodeInside (info : NftBandwidthInfo) (west : ℤ) (b : ByteBuffer) (now : ℤ) (len index j : ℕ) :
    Prop :=
  let numHistoryNodes := readLE 4 b (index + 20)
  (j < numHistoryNodes → nodeCursor index j + 8 ≤ len) ∧
    (0 < j → info.boundaryAfter^[j] (blockStart west b index) < now →
      if zeroRun b index numHistoryNodes (j + 1) < info.numIntervalsToSave + 3 then
        Answered info (info.boundaryAfter^[j] (blockStart west b index))
      else Answered info now)

/-- One round of the loop of `set_single_ip_data`, and whether it goes on. -/
def ReplayState.round (b : ByteBuffer) (ip : String) (family numHistoryNodes : ℕ) (now : ℤ)
    (s : ReplayState) : ReplayState × Bool :=
  let fetched := s.fetch b numHistoryNodes
  match s.history with
  | none => (fetched.2.create ip family fetched.1, true)
  | some h =>
    if s.nodeIndex = 0 then (fetched.2.create ip family fetched.1, true)
    else if s.nextEnd < now then (fetched.2.close ip fetched.1 now h, true)
    else ({ fetched.2 with nodeIndex := s.nodeIndex + 1 }, false)

def ReplayState.accesses (b : ByteBuffer) (ip : String) (family numHistoryNodes : ℕ) (now : ℤ)
    (s : ReplayState) : List SetAccess :=
  (if s.nodeIndex < numHistoryNodes then readRange s.bufferIndex 8 else []) ++
    if s.history.isSome ∧ s.nodeIndex ≠ 0 ∧ s.nextEnd < now then
      [.nextReset s.unit.info (s.round b ip family numHistoryNodes now).1.nextStart]
    else []

/-- What the loop of `set_single_ip_data` reads and asks. -/
def replayAccesses (b : ByteBuffer) (ip : String) (family numHistoryNodes : ℕ) (now : ℤ) :
    ℕ → ReplayState → List SetAccess
  | 0, _ => []
  | n + 1, s =>
    if s.nextStart < now then
      let next := s.round b ip family numHistoryNodes now
      s.accesses b ip family numHistoryNodes now ++
        if next.2 then replayAccesses b ip family numHistoryNodes now n next.1 else []
    else []

/-- The loop has come to round `j` for the block at `index`. -/
structure AtRound (info : NftBandwidthInfo) (west : ℤ) (b : ByteBuffer) (index j : ℕ)
    (s : ReplayState) : Prop where
  node : s.nodeIndex = j
  cursor : s.bufferIndex = nodeCursor index (min j (readLE 4 b (index + 20)))
  nextStart : s.nextStart = info.boundaryAfter^[j - 1] (blockStart west b index)
  nextEnd : s.nextEnd = info.boundaryAfter^[max j 1] (blockStart west b index)
  zeros : s.zeroCount = zeroRun b index (readLE 4 b (index + 20)) j
  fewZeros : 1 < j → s.zeroCount < info.numIntervalsToSave + 3
  history : 0 < j → ∃ h, s.history = some h ∧ h.maxNodes = info.numIntervalsToSave + 1
  first : j = 0 → s.history = none
  rule : s.unit.info.rule = info.rule
  map : s.unit.maps.ipHistoryMap.isSome
  saves : 0 < info.numIntervalsToSave

section Rounds

variable {info : NftBandwidthInfo} {west now : ℤ} {b : ByteBuffer} {index j n : ℕ}
  {s : ReplayState} {ip : String} {family : ℕ}

theorem replay_succ (rounds : ℕ) :
    replay b ip family n now (rounds + 1) s =
      if s.nextStart < now then
        if (s.round b ip family n now).2 then
          replay b ip family n now rounds (s.round b ip family n now).1
        else (s.round b ip family n now).1
      else s := by
  by_cases hstart : s.nextStart < now
  · cases hhistory : s.history with
    | none => simp only [replay, ReplayState.round, if_pos hstart, hhistory, if_true]
    | some h =>
      simp only [replay, ReplayState.round, if_pos hstart, hhistory]
      by_cases hnode : s.nodeIndex = 0
      · simp only [if_pos hnode, if_true]
      · by_cases hnext : s.nextEnd < now
        · simp only [if_neg hnode, if_pos hnext, if_true]
        · simp [hnode, hnext]
  · rw [replay, if_neg hstart, if_neg hstart]

omit [Kernel] in
theorem nodeCursor_succ : addUint32 (nodeCursor index j) 8 = nodeCursor index (j + 1) := by
  unfold nodeCursor addUint32
  omega

theorem AtRound.fetch (hs : AtRound info west b index j s) (hn : readLE 4 b (index + 20) = n) :
    s.fetch b n = (nodeWord b index n j, { s with
      bufferIndex := nodeCursor index (min (j + 1) n)
      zeroCount := zeroRun b index n (j + 1) }) := by
  have hcursor := hs.cursor
  have hzeros := hs.zeros
  rw [hn] at hcursor hzeros
  unfold ReplayState.fetch
  rw [hs.node]
  by_cases hj : j < n
  · rw [min_eq_left hj.le] at hcursor
    rw [if_pos hj, hcursor, nodeCursor_succ, min_eq_left hj, zeroRun, hzeros]
    simp only [nodeWord, if_pos hj]
  · have hle := Nat.not_lt.1 hj
    rw [min_eq_right hle] at hcursor
    rw [if_neg hj, min_eq_right (Nat.le_succ_of_le hle), zeroRun, hzeros, ← hcursor]
    simp only [nodeWord, if_neg hj, if_true]

/-- Before the first node the history is created. -/
theorem AtRound.create (hs : AtRound info west b index 0 s) (hn : readLE 4 b (index + 20) = n)
    (bw : ℕ) :
    AtRound info west b index 1
      (ReplayState.create ip family bw { s with
        bufferIndex := nodeCursor index (min 1 n)
        zeroCount := zeroRun b index n 1 }) := by
  obtain ⟨histories, hmap⟩ := Option.isSome_iff_exists.1 hs.map
  have hrule := IdUnit.SameRules.newEntry s.unit ip bw family
  have hsaves : 0 < s.unit.info.numIntervalsToSave := by
    rw [NftBandwidthInfo.numIntervalsToSave_of_rule hs.rule]
    exact hs.saves
  have hcreated : (initializeMapEntriesForIp s.unit ip bw family).1.maps.ipHistoryMap =
      some (histories.set ip
        (initializeHistory s.unit.maps.cells s.unit.info.numIntervalsToSave).2) := by
    rw [newEntry_maps]
    simp [initializedMaps, newCounter, hmap, hsaves.ne']
  refine ⟨?_, ?_, ?_, ?_, ?_, ?_, ?_, ?_, ?_, ?_, hs.saves⟩
  · simp [ReplayState.create, hs.node]
  · rw [hn]
    rfl
  · exact hs.nextStart
  · exact hs.nextEnd
  · rw [hn]
    rfl
  · simp
  · intro _
    refine ⟨(initializeHistory s.unit.maps.cells s.unit.info.numIntervalsToSave).2, ?_, ?_⟩
    · simp only [ReplayState.create, hcreated, Option.bind_some, HashedMap.get_set_self]
    · rw [← NftBandwidthInfo.numIntervalsToSave_of_rule hs.rule]
      rfl
  · simp
  · exact hrule.1.trans hs.rule
  · simp [ReplayState.create, hcreated]

variable (ip) in
theorem AtRound.close (hs : AtRound info west b index j s) (hj : 0 < j)
    (hn : readLE 4 b (index + 20) = n) {h : BwHistory}
    (hmax : h.maxNodes = info.numIntervalsToSave + 1)
    (hfew : zeroRun b index n (j + 1) < info.numIntervalsToSave + 3) (bw : ℕ) (now : ℤ) :
    AtRound info west b index (j + 1)
      (ReplayState.close ip bw now h { s with
        bufferIndex := nodeCursor index (min (j + 1) n)
        zeroCount := zeroRun b index n (j + 1) }) := by
  have hnext : s.nextEnd = info.boundaryAfter^[j] (blockStart west b index) := by
    rw [hs.nextEnd, max_eq_left (show 1 ≤ j from hj)]
  have hzeros : zeroRun b index n (j + 1) < h.maxNodes + 2 := by omega
  simp only [ReplayState.close, if_pos hzeros]
  refine ⟨?_, ?_, ?_, ?_, ?_, fun _ => hfew, fun _ => ⟨_, rfl, hmax⟩, ?_, hs.rule, ?_, hs.saves⟩
  · exact congrArg Nat.succ hs.node
  · rw [hn]
  · exact hnext
  · rw [max_eq_left (Nat.le_add_left 1 j), Function.iterate_succ_apply', ← hnext]
    exact NftBandwidthInfo.boundaryAfter_of_rule hs.rule s.nextEnd
  · rw [hn]
  · simp
  · simpa [IdUnit.setHistory] using hs.map

theorem nextStart_close {h : BwHistory} (hmax : h.maxNodes = info.numIntervalsToSave + 1)
    (hmany : ¬ s.zeroCount < info.numIntervalsToSave + 3) (bw : ℕ) (now : ℤ) :
    (s.close ip bw now h).nextStart = now := by
  have hzeros : ¬ s.zeroCount < h.maxNodes + 2 := by omega
  simp only [ReplayState.close, if_neg hzeros]

variable (ip family) in
theorem AtRound.round (hs : AtRound info west b index j s) (hn : readLE 4 b (index + 20) = n)
    (hgoes : 0 < j → GoesOn info west b now index j) :
    (s.round b ip family n now).2 = true ∧
      AtRound info west b index (j + 1) (s.round b ip family n now).1 := by
  unfold ReplayState.round
  rw [hs.fetch hn]
  rcases Nat.eq_zero_or_pos j with rfl | hj
  · rw [hs.first rfl]
    exact ⟨rfl, hs.create hn _⟩
  · obtain ⟨h, hhistory, hmax⟩ := hs.history hj
    obtain ⟨hpast, hfew⟩ := hgoes hj
    have hnext : s.nextEnd < now := by
      rw [hs.nextEnd, max_eq_left (show 1 ≤ j from hj)]
      exact hpast
    rw [hn] at hfew
    rw [hhistory]
    simp only [hs.node, if_neg hj.ne', if_pos hnext, true_and]
    have hclosed := hs.close ip hj hn hmax hfew (nodeWord b index n j) now
    simp only [hs.node] at hclosed
    exact hclosed

variable (ip family) in
theorem AtRound.round_last (hs : AtRound info west b index j s)
    (hn : readLE 4 b (index + 20) = n) (hj : 0 < j)
    (hends : ¬ GoesOn info west b now index j) :
    (s.round b ip family n now).2 = false ∨
      ¬ (s.round b ip family n now).1.nextStart < now := by
  unfold ReplayState.round
  rw [hs.fetch hn]
  obtain ⟨h, hhistory, hmax⟩ := hs.history hj
  rw [hhistory]
  simp only [hs.node, if_neg hj.ne']
  by_cases hnext : s.nextEnd < now
  · right
    rw [if_pos hnext]
    have hpast : info.boundaryAfter^[j] (blockStart west b index) < now := by
      rw [← max_eq_left (show 1 ≤ j from hj), ← hs.nextEnd]
      exact hnext
    have hmany : ¬ zeroRun b index n (j + 1) < info.numIntervalsToSave + 3 := by
      intro hfew
      exact hends ⟨hpast, hn ▸ hfew⟩
    exact (nextStart_close hmax hmany _ now).not_lt
  · left
    rw [if_neg hnext]

/-- The loop comes to node `k` from round `j` on. -/
def ReplaysFrom (info : NftBandwidthInfo) (west : ℤ) (b : ByteBuffer) (now : ℤ)
    (index j k : ℕ) : Prop :=
  info.boundaryAfter^[j - 1] (blockStart west b index) < now ∧
    ∀ i, j ≤ i → 0 < i → i < k → GoesOn info west b now index i

omit [Kernel] in
theorem replaysFrom_succ {k : ℕ} (hgoes : 0 < j → GoesOn info west b now index j)
    (hstart : info.boundaryAfter^[j - 1] (blockStart west b index) < now) :
    ReplaysFrom info west b now index j k ↔ ReplaysFrom info west b now index (j + 1) k := by
  have hnext : info.boundaryAfter^[j] (blockStart west b index) < now := by
    rcases Nat.eq_zero_or_pos j with rfl | hj
    · exact hstart
    · exact (hgoes hj).1
  unfold ReplaysFrom
  rw [Nat.add_sub_cancel, and_iff_right hstart, and_iff_right hnext]
  constructor
  · intro h i hi hpos hik
    exact h i (Nat.le_of_succ_le hi) hpos hik
  · intro h i hi hpos hik
    rcases Nat.eq_or_lt_of_le hi with rfl | hlt
    · exact hgoes hpos
    · exact h i hlt hpos hik

theorem replayAccesses_of_not (hstart : ¬ s.nextStart < now) (rounds : ℕ) :
    replayAccesses b ip family n now rounds s = [] := by
  cases rounds with
  | zero => rfl
  | succ rounds => rw [replayAccesses, if_neg hstart]

omit [Kernel] in
theorem sub_le_zeroRun : j - n ≤ zeroRun b index n j := by
  induction j with
  | zero => simp
  | succ j ih =>
    unfold zeroRun
    by_cases hj : j < n
    · omega
    · rw [nodeWord, if_neg hj, if_pos rfl]
      omega

theorem AtRound.nextStart_round (hs : AtRound info west b index j s)
    (hn : readLE 4 b (index + 20) = n) (hj : 0 < j)
    (hpast : info.boundaryAfter^[j] (blockStart west b index) < now) :
    (s.round b ip family n now).1.nextStart =
      if zeroRun b index n (j + 1) < info.numIntervalsToSave + 3 then
        info.boundaryAfter^[j] (blockStart west b index)
      else now := by
  split_ifs with hfew
  · have hgoes : 0 < j → GoesOn info west b now index j := fun _ => ⟨hpast, hn ▸ hfew⟩
    have hnext := (hs.round ip family hn hgoes).2.nextStart
    rw [Nat.add_sub_cancel] at hnext
    exact hnext
  · obtain ⟨h, hhistory, hmax⟩ := hs.history hj
    have hnext : s.nextEnd < now := by
      rw [hs.nextEnd, max_eq_left (show 1 ≤ j from hj)]
      exact hpast
    unfold ReplayState.round
    rw [hs.fetch hn, hhistory]
    simp only [hs.node, if_neg hj.ne', if_pos hnext]
    exact nextStart_close hmax hfew _ now

/-- One round stays inside exactly if its node does. -/
theorem AtRound.accesses_allowed_iff {len : ℕ} (hs : AtRound info west b index j s)
    (hn : readLE 4 b (index + 20) = n) :
    (∀ a ∈ s.accesses b ip family n now, a.Allowed len) ↔
      NodeInside info west b now len index j := by
  have hcursor := hs.cursor
  rw [hn] at hcursor
  have hread : (∀ a ∈ (if s.nodeIndex < n then readRange s.bufferIndex 8 else []),
      a.Allowed len) ↔ (j < n → nodeCursor index j + 8 ≤ len) := by
    rw [hs.node]
    split_ifs with hj
    · rw [hcursor, min_eq_left hj.le, readRange_allowed_iff (by decide), imp_iff_right hj]
    · simp [hj]
  unfold ReplayState.accesses NodeInside
  dsimp only
  rw [forall_mem_append, hread, hn]
  refine and_congr_right fun _ => ?_
  rcases Nat.eq_zero_or_pos j with rfl | hj
  · have hnone : ¬ (s.history.isSome ∧ s.nodeIndex ≠ 0 ∧ s.nextEnd < now) :=
      fun h => h.2.1 hs.node
    rw [if_neg hnone]
    exact iff_of_true (fun a ha => nomatch ha) fun h => absurd h (lt_irrefl 0)
  · obtain ⟨h, hhistory, -⟩ := hs.history hj
    have hnext : s.nextEnd = info.boundaryAfter^[j] (blockStart west b index) := by
      rw [hs.nextEnd, max_eq_left (show 1 ≤ j from hj)]
    rw [imp_iff_right hj]
    by_cases hpast : info.boundaryAfter^[j] (blockStart west b index) < now
    · rw [imp_iff_right hpast, if_pos ⟨by rw [hhistory]; rfl, by rw [hs.node]; exact hj.ne',
        by rw [hnext]; exact hpast⟩, forall_mem_singleton, hs.nextStart_round hn hj hpast]
      change Answered s.unit.info _ ↔ _
      rw [answered_of_rule hs.rule]
      split_ifs
      · exact Iff.rfl
      · exact Iff.rfl
    · rw [if_neg fun h => hpast (hnext ▸ h.2.2)]
      simp [hpast]

theorem AtRound.rounds_left (hs : AtRound info west b index j s) (hn : readLE 4 b (index + 20) = n) :
    j < n + info.numIntervalsToSave + 3 := by
  by_contra hnot
  have hfew := hs.fewZeros (by omega)
  have hzeros := hs.zeros
  rw [hn] at hzeros
  have hmany := @sub_le_zeroRun b index j n
  omega

/-- The loop stays inside exactly if each of its rounds does. -/
theorem AtRound.replay_allowed_iff {len : ℕ} (hs : AtRound info west b index j s)
    (hn : readLE 4 b (index + 20) = n) {rounds : ℕ}
    (hrounds : n + info.numIntervalsToSave + 3 ≤ j + rounds) :
    (∀ a ∈ replayAccesses b ip family n now rounds s, a.Allowed len) ↔
      ∀ k, j ≤ k → ReplaysFrom info west b now index j k →
        NodeInside info west b now len index k := by
  induction rounds generalizing j s with
  | zero =>
    have hleft := hs.rounds_left hn
    omega
  | succ rounds ih =>
    by_cases hstart : s.nextStart < now
    · have hbegins := hs.nextStart ▸ hstart
      have hsplit : (∀ k, j ≤ k → ReplaysFrom info west b now index j k →
          NodeInside info west b now len index k) ↔
          NodeInside info west b now len index j ∧
            ∀ k, j + 1 ≤ k → ReplaysFrom info west b now index j k →
              NodeInside info west b now len index k := by
        constructor
        · intro h
          refine ⟨h j le_rfl ⟨hbegins, ?_⟩, fun k hk => h k (Nat.le_of_succ_le hk)⟩
          intro i hi _ hij
          omega
        · rintro ⟨hhead, hrest⟩ k hk hfrom
          rcases Nat.eq_or_lt_of_le hk with rfl | hlt
          · exact hhead
          · exact hrest k hlt hfrom
      rw [replayAccesses, if_pos hstart]
      dsimp only
      rw [forall_mem_append, hs.accesses_allowed_iff hn, hsplit]
      refine and_congr_right fun _ => ?_
      by_cases hgoes : 0 < j → GoesOn info west b now index j
      · obtain ⟨hon, hnext⟩ := hs.round ip family hn hgoes
        rw [if_pos hon, ih hnext (by omega)]
        simp only [replaysFrom_succ hgoes hbegins]
      · obtain ⟨hj, hends⟩ := Classical.not_imp.1 hgoes
        have hdone : (if (s.round b ip family n now).2 then
            replayAccesses b ip family n now rounds (s.round b ip family n now).1 else []) = [] := by
          rcases hs.round_last ip family hn hj hends with hoff | hpast
          · rw [if_neg (by rw [hoff]; decide)]
          · rw [replayAccesses_of_not hpast, ite_self]
        rw [hdone]
        simp only [not_mem_nil, false_implies, implies_true, true_iff]
        intro k hk hfrom
        exact absurd (hfrom.2 j le_rfl hj hk) hends
    · rw [replayAccesses_of_not hstart]
      simp only [not_mem_nil, false_implies, implies_true, true_iff]
      intro k _ hfrom
      exact absurd (hs.nextStart ▸ hfrom.1) hstart

/-- More rounds make no difference. -/
theorem AtRound.replay_ended (hs : AtRound info west b index j s)
    (hn : readLE 4 b (index + 20) = n) {rounds : ℕ}
    (hrounds : n + info.numIntervalsToSave + 3 ≤ j + rounds) (extra : ℕ) :
    replay b ip family n now (rounds + extra) s = replay b ip family n now rounds s := by
  have hstop : ∀ {v : ReplayState} (r : ℕ), ¬ v.nextStart < now →
      replay b ip family n now r v = v := by
    intro v r hv
    cases r with
    | zero => rfl
    | succ r => rw [replay_succ, if_neg hv]
  induction rounds generalizing j s with
  | zero =>
    have hleft := hs.rounds_left hn
    omega
  | succ rounds ih =>
    rw [Nat.succ_add, replay_succ, replay_succ]
    by_cases hstart : s.nextStart < now
    · rw [if_pos hstart, if_pos hstart]
      by_cases hgoes : 0 < j → GoesOn info west b now index j
      · obtain ⟨hon, hnext⟩ := hs.round ip family hn hgoes
        rw [if_pos hon, if_pos hon, ih hnext (by omega)]
      · obtain ⟨hj, hends⟩ := Classical.not_imp.1 hgoes
        rcases hs.round_last ip family hn hj hends with hoff | hpast
        · rw [hoff]
          rfl
        · rw [hstop _ hpast, hstop _ hpast]
    · rw [if_neg hstart, if_neg hstart]

theorem round_cursor (h : s.bufferIndex = nodeCursor index (min s.nodeIndex n)) :
    (s.round b ip family n now).1.bufferIndex =
      nodeCursor index (min (s.round b ip family n now).1.nodeIndex n) := by
  have hfetch : (s.fetch b n).2.bufferIndex = nodeCursor index (min (s.nodeIndex + 1) n) ∧
      (s.fetch b n).2.nodeIndex = s.nodeIndex := by
    unfold ReplayState.fetch
    split_ifs with hj
    · refine ⟨?_, rfl⟩
      rw [h, min_eq_left hj.le, nodeCursor_succ, min_eq_left hj]
    · have hle := Nat.not_lt.1 hj
      refine ⟨?_, rfl⟩
      rw [min_eq_right (Nat.le_succ_of_le hle), h, min_eq_right hle]
  obtain ⟨hcursor, hnode⟩ := hfetch
  unfold ReplayState.round ReplayState.create ReplayState.close
  cases s.history with
  | none => simp only [hnode, hcursor]
  | some h =>
    dsimp only
    split_ifs <;> simp only [hnode, hcursor]

theorem replay_cursor (h : s.bufferIndex = nodeCursor index (min s.nodeIndex n)) (rounds : ℕ) :
    (replay b ip family n now rounds s).bufferIndex =
      nodeCursor index (min (replay b ip family n now rounds s).nodeIndex n) := by
  induction rounds generalizing s with
  | zero => exact h
  | succ rounds ih =>
    rw [replay_succ]
    split_ifs
    · exact ih (round_cursor h)
    · exact round_cursor h
    · exact h

end Rounds

/-! ## A block -/

/-- Where `set_single_ip_data` begins to replay a block. -/
def IdUnit.replayStart (u : IdUnit) (west : ℤ) (b : ByteBuffer) (index : ℕ) : ReplayState where
  unit := u
  bufferIndex := nodeCursor index 0
  nextStart := blockStart west b index
  nextEnd := u.info.boundaryAfter (blockStart west b index)
  nodeIndex := 0
  zeroCount := 0
  history := none

/-- What `set_single_ip_data` reads and asks. -/
def blockAccesses (historyIncluded : Bool) (west : ℤ) (b : ByteBuffer) (now : ℤ) (u : IdUnit)
    (index : ℕ) : List SetAccess :=
  let address := blockAddress b index
  readRange index 20 ++
    if historyIncluded then
      let numHistoryNodes := readLE 4 b (index + 20)
      readRange (index + 20) 4 ++
        if u.info.numIntervalsToSave > 0 ∧ u.maps.ipHistoryMap.isSome then
          readRange (index + 24) 8 ++ .nextReset u.info (blockStart west b index) ::
            replayAccesses b address.1 address.2 numHistoryNodes now
              (replayRounds numHistoryNodes u.info) (u.replayStart west b index)
        else
          let nodesBeforeLast := addUint32 numHistoryNodes (2 ^ 32 - 1)
          readRange (addUint32 index (2 * 4 + 1 * 16 + 3 * 8 + nodesBeforeLast * 8)) 8
    else readRange (index + 20) 8

/-- What is read of a block lies in the buffer: the words before the nodes and the
nodes that are replayed, or the head of the block and its last node, or its
counter. Each start that the replay comes to is answered. -/
def BlockInside (historyIncluded : Bool) (info : NftBandwidthInfo) (west : ℤ) (b : ByteBuffer)
    (now : ℤ) (len index : ℕ) : Prop :=
  let numHistoryNodes := readLE 4 b (index + 20)
  if historyIncluded then
    if 0 < info.numIntervalsToSave then
      index + 32 ≤ len ∧ Answered info (blockStart west b index) ∧
        ∀ j, Replays info west b now index j → NodeInside info west b now len index j
    else index + 24 ≤ len ∧ addUint32 index (40 + 8 * numHistoryNodes) + 8 ≤ len
  else index + 28 ≤ len

def nextBlock (historyIncluded : Bool) (b : ByteBuffer) (index : ℕ) : ℕ :=
  if historyIncluded then nodeCursor index (readLE 4 b (index + 20)) else addUint32 index 28

section Block

variable {historyIncluded : Bool} {west now : ℤ} {b : ByteBuffer} {u : IdUnit} {index len : ℕ}

theorem IdUnit.atRound_replayStart (hsaves : 0 < u.info.numIntervalsToSave)
    (hmap : u.maps.ipHistoryMap.isSome) (west : ℤ) (b : ByteBuffer) (index : ℕ) :
    AtRound u.info west b index 0 (u.replayStart west b index) where
  node := rfl
  cursor := congrArg (nodeCursor index) (Nat.zero_min _).symm
  nextStart := by
    rw [Nat.zero_sub, Function.iterate_zero_apply]
    rfl
  nextEnd := by
    rw [Nat.zero_max, Function.iterate_one]
    rfl
  zeros := rfl
  fewZeros := fun h => absurd h (by decide)
  history := fun h => absurd h (by decide)
  first := fun _ => rfl
  rule := rfl
  map := hmap
  saves := hsaves

omit [Kernel] in
theorem replaysFrom_zero {info : NftBandwidthInfo} {j : ℕ} :
    ReplaysFrom info west b now index 0 j ↔ Replays info west b now index j := by
  unfold ReplaysFrom Replays
  rw [Nat.zero_sub, Function.iterate_zero_apply]
  exact and_congr_right fun _ => ⟨fun h i => h i (Nat.zero_le i), fun h i _ => h i⟩

/-- One address of a request stays inside. -/
theorem block_allowed_iff (hmap : 0 < u.info.numIntervalsToSave → u.maps.ipHistoryMap.isSome) :
    (∀ a ∈ blockAccesses historyIncluded west b now u index, a.Allowed len) ↔
      BlockInside historyIncluded u.info west b now len index := by
  unfold blockAccesses BlockInside
  dsimp only
  rw [forall_mem_append, readRange_allowed_iff (by decide)]
  cases historyIncluded with
  | false =>
    simp only [Bool.false_eq_true, if_false]
    rw [readRange_allowed_iff (by decide)]
    omega
  | true =>
    simp only [if_true]
    rw [forall_mem_append, readRange_allowed_iff (by decide)]
    by_cases hsaves : 0 < u.info.numIntervalsToSave
    · have hstart := u.atRound_replayStart hsaves (hmap hsaves) west b index
      rw [if_pos ⟨hsaves, hmap hsaves⟩, if_pos hsaves, forall_mem_append, forall_mem_cons,
        readRange_allowed_iff (by decide),
        hstart.replay_allowed_iff rfl (by unfold replayRounds; omega)]
      simp only [replaysFrom_zero, Nat.zero_le, true_imp_iff]
      constructor
      · rintro ⟨-, -, hhead, hanswered, hnodes⟩
        exact ⟨by omega, hanswered, hnodes⟩
      · rintro ⟨hhead, hanswered, hnodes⟩
        exact ⟨by omega, by omega, by omega, hanswered, hnodes⟩
    · have hlast : addUint32 index (2 * 4 + 1 * 16 + 3 * 8 +
          addUint32 (readLE 4 b (index + 20)) (2 ^ 32 - 1) * 8) =
          addUint32 index (40 + 8 * readLE 4 b (index + 20)) := by
        have hlt := readLE_lt 4 b (index + 20)
        unfold addUint32
        omega
      rw [if_neg fun h => hsaves h.1, if_neg hsaves, hlast, readRange_allowed_iff (by decide)]
      omega

theorem setSingleIpData_cursor :
    (setSingleIpData historyIncluded west b now u index).2 =
      nextBlock historyIncluded b index := by
  unfold setSingleIpData nextBlock
  dsimp only
  split_ifs with hhistory hsaves
  · have hstart : (u.replayStart west b index).bufferIndex =
        nodeCursor index (min (u.replayStart west b index).nodeIndex
          (readLE 4 b (index + 20))) := congrArg (nodeCursor index) (Nat.zero_min _).symm
    have hcursor := @replay_cursor _ now b index _ _ (blockAddress b index).1
      (blockAddress b index).2 hstart (replayRounds (readLE 4 b (index + 20)) u.info)
    change addUint32 (replay b _ _ _ now _ (u.replayStart west b index)).bufferIndex
      (8 * (_ - (replay b _ _ _ now _ (u.replayStart west b index)).nodeIndex)) = _
    rw [hcursor]
    unfold nodeCursor addUint32
    omega
  · unfold nodeCursor addUint32
    have hlt := readLE_lt 4 b (index + 20)
    omega
  · rfl

theorem isSome_newEntry (u : IdUnit) (ip : String) (bw family : ℕ) :
    (initializeMapEntriesForIp u ip bw family).1.maps.ipHistoryMap.isSome =
      u.maps.ipHistoryMap.isSome := by
  rw [newEntry_maps]
  unfold initializedMaps newCounter
  cases hmap : u.maps.ipHistoryMap with
  | none => rfl
  | some histories =>
    dsimp only
    split_ifs <;> rfl

theorem isSome_round {s : ReplayState} {ip : String} {family n : ℕ} :
    (s.round b ip family n now).1.unit.maps.ipHistoryMap.isSome =
      s.unit.maps.ipHistoryMap.isSome := by
  have hfetch : (s.fetch b n).2.unit = s.unit := by
    unfold ReplayState.fetch
    split_ifs <;> rfl
  have hcreate : ∀ bw, ((s.fetch b n).2.create ip family bw).unit.maps.ipHistoryMap.isSome =
      s.unit.maps.ipHistoryMap.isSome := by
    intro bw
    simp only [ReplayState.create, hfetch, isSome_newEntry]
  unfold ReplayState.round
  cases s.history with
  | none => exact hcreate _
  | some h =>
    dsimp only
    split_ifs
    · exact hcreate _
    · unfold ReplayState.close
      simp only [hfetch]
      split_ifs <;> simp [IdUnit.setHistory]
    · simp only [hfetch]

theorem isSome_setSingleIpData :
    (setSingleIpData historyIncluded west b now u index).1.maps.ipHistoryMap.isSome =
      u.maps.ipHistoryMap.isSome := by
  have hreplay : ∀ {ip : String} {family n : ℕ} (rounds : ℕ) (s : ReplayState),
      (replay b ip family n now rounds s).unit.maps.ipHistoryMap.isSome =
        s.unit.maps.ipHistoryMap.isSome := by
    intro ip family n rounds
    induction rounds with
    | zero => exact fun s => rfl
    | succ rounds ih =>
      intro s
      rw [replay_succ]
      split_ifs
      · rw [ih, isSome_round]
      · exact isSome_round
      · rfl
  have hfinish : ∀ (ip : String) (words : In6Addr) (s : ReplayState),
      (finishReplay ip words s).maps.ipHistoryMap = s.unit.maps.ipHistoryMap := by
    intro ip words s
    unfold finishReplay
    cases s.history with
    | none => rfl
    | some h => rfl
  have hcounter : ∀ (ip : String) (words : In6Addr) (bw family : ℕ),
      (setCounter u ip words bw family).maps.ipHistoryMap.isSome =
        u.maps.ipHistoryMap.isSome := by
    intro ip words bw family
    unfold setCounter
    dsimp only
    split_ifs <;> exact isSome_newEntry _ _ _ _
  unfold setSingleIpData
  dsimp only
  split_ifs with hhistory hsaves
  · rw [hfinish, hreplay]
  · exact hcounter _ _ _ _
  · exact hcounter _ _ _ _

end Block

/-! ## A request -/

def BlocksInside (historyIncluded : Bool) (info : NftBandwidthInfo) (west : ℤ) (b : ByteBuffer)
    (now : ℤ) (len : ℕ) : ℕ → ℕ → Prop
  | 0, _ => True
  | n + 1, index =>
    BlockInside historyIncluded info west b now len index ∧
      BlocksInside historyIncluded info west b now len n (nextBlock historyIncluded b index)

def blocksAccesses (historyIncluded : Bool) (west : ℤ) (b : ByteBuffer) (now : ℤ) :
    ℕ → IdUnit → ℕ → List SetAccess
  | 0, _, _ => []
  | n + 1, u, index =>
    let next := setSingleIpData historyIncluded west b now u index
    blockAccesses historyIncluded west b now u index ++
      blocksAccesses historyIncluded west b now n next.1 next.2

/-- What the test of `last_backup` asks. -/
def backupAccesses (header : SetHeader) (west : ℤ) (info : NftBandwidthInfo) : List SetAccess :=
  if header.lastBackup > 0 ∧ info.numIntervalsToSave = 0 ∧
      (info.resetIsConstantInterval = false ∨ info.resetTime ≠ 0) then
    [.nextReset info (header.lastBackup - 60 * west)]
  else []

def ModuleState.setAccepted (m : ModuleState) (b : ByteBuffer) (t : Tick) : Option IdUnit :=
  let m' := m.timeChecksCtl t
  let header := parseSetHeader b
  (m'.setTarget header).bind fun target =>
    if backupRejected header m'.clock.localMinutesWest (prepareSet header target.2).info then none
    else some (prepareSet header target.2)

/-- What `nft_bandwidth_set_ctl` reads and asks. -/
def ModuleState.setAccesses (m : ModuleState) (b : ByteBuffer) (len : ℕ) (t : Tick) :
    List SetAccess :=
  let m' := m.timeChecksCtl t
  let now := t.now - m'.clock.localSecondsWest
  let west := m'.clock.localMinutesWest
  let header := parseSetHeader b
  if len < setHeaderLength then []
  else
    readRange 0 setHeaderLength ++
      ((m'.setTarget header).elim [] fun target =>
        backupAccesses header west (prepareSet header target.2).info) ++
      (m.setAccepted b t).elim [] fun u =>
        blocksAccesses header.historyIncluded west b now header.rounds u setHeaderLength

def ModuleState.RequestInside (m : ModuleState) (b : ByteBuffer) (len : ℕ) (t : Tick) : Prop :=
  let m' := m.timeChecksCtl t
  let now := t.now - m'.clock.localSecondsWest
  let west := m'.clock.localMinutesWest
  let header := parseSetHeader b
  (∀ target, m'.setTarget header = some target → header.lastBackup > 0 →
      target.2.info.numIntervalsToSave = 0 →
      (target.2.info.resetIsConstantInterval = false ∨ target.2.info.resetTime ≠ 0) →
        Answered target.2.info (header.lastBackup - 60 * west)) ∧
    ∀ u, m.setAccepted b t = some u →
      header.numIpsInBuffer + header.nextIpIndex < 2 ^ 32 ∧
        BlocksInside header.historyIncluded u.info west b now len header.numIpsInBuffer
          setHeaderLength

omit [Kernel] in
theorem blockInside_of_rule {info info' : NftBandwidthInfo} (hrule : info'.rule = info.rule)
    {historyIncluded : Bool} {west now : ℤ} {b : ByteBuffer} {len index : ℕ} :
    BlockInside historyIncluded info' west b now len index ↔
      BlockInside historyIncluded info west b now len index := by
  have hboundary : info'.boundaryAfter = info.boundaryAfter :=
    funext fun x => NftBandwidthInfo.boundaryAfter_of_rule hrule x
  have hanswered : Answered info' = Answered info :=
    funext fun x => propext (answered_of_rule hrule x)
  unfold BlockInside Replays NodeInside GoesOn
  rw [hboundary, hanswered, NftBandwidthInfo.numIntervalsToSave_of_rule hrule]

theorem blocks_allowed_iff {historyIncluded : Bool} {west now : ℤ} {b : ByteBuffer}
    {len n index : ℕ} {u : IdUnit} {info : NftBandwidthInfo} (hrule : u.info.rule = info.rule)
    (hmap : 0 < u.info.numIntervalsToSave → u.maps.ipHistoryMap.isSome) :
    (∀ a ∈ blocksAccesses historyIncluded west b now n u index, a.Allowed len) ↔
      BlocksInside historyIncluded info west b now len n index := by
  induction n generalizing u index with
  | zero => simp [blocksAccesses, BlocksInside]
  | succ n ih =>
    have hnext := IdUnit.SameRules.setSingleIpData historyIncluded west b now u index
    rw [blocksAccesses, BlocksInside, forall_mem_append, block_allowed_iff hmap,
      blockInside_of_rule hrule, setSingleIpData_cursor, ih (hnext.1.trans hrule)]
    rw [hnext.saves, isSome_setSingleIpData]
    exact hmap

theorem backup_allowed_iff {len : ℕ} {header : SetHeader} {west : ℤ} {u : IdUnit} :
    (∀ a ∈ backupAccesses header west (prepareSet header u).info, a.Allowed len) ↔
      (header.lastBackup > 0 → u.info.numIntervalsToSave = 0 →
        (u.info.resetIsConstantInterval = false ∨ u.info.resetTime ≠ 0) →
          Answered u.info (header.lastBackup - 60 * west)) := by
  have hrule : (prepareSet header u).info.rule = u.info.rule :=
    (IdUnit.SameRules.prepareSet header u).1
  rw [backupAccesses, ← answered_of_rule hrule, prepareSet_info]
  dsimp only
  split_ifs with hasked
  · rw [forall_mem_singleton]
    exact ⟨fun h _ _ _ => h, fun h => h hasked.1 hasked.2.1 hasked.2.2⟩
  · exact iff_of_true (fun a ha => nomatch ha) fun h h' h'' => absurd ⟨h, h', h''⟩ hasked

theorem isSome_prepareSet (header : SetHeader) (u : IdUnit) :
    (prepareSet header u).maps.ipHistoryMap.isSome = u.maps.ipHistoryMap.isSome := by
  have hhistories : ∀ (es : List (String × BwHistory)) (maps : IpMaps),
      (es.foldl clearHistory maps).ipHistoryMap.isSome = maps.ipHistoryMap.isSome := by
    intro es
    induction es with
    | nil => exact fun maps => rfl
    | cons e es ih =>
      intro maps
      rw [foldl_cons, ih]
      simp [clearHistory]
  have hclear : ∀ v : IdUnit,
      (clearAllIps v).maps.ipHistoryMap.isSome = v.maps.ipHistoryMap.isSome := by
    intro v
    unfold clearAllIps
    split_ifs
    · cases hmap : v.maps.ipHistoryMap with
      | none =>
        dsimp only
        rw [foldl_clearIp_ipHistoryMap, hmap]
      | some histories =>
        dsimp only
        rw [hhistories, foldl_clearIp_ipHistoryMap, hmap]
    · rw [foldl_clearIp_ipHistoryMap]
  unfold prepareSet
  dsimp only
  split_ifs
  · exact hclear _
  · rfl

theorem ModuleState.isSome_of_setAccepted {m : ModuleState} {b : ByteBuffer} {t : Tick}
    {u : IdUnit} (h : m.setAccepted b t = some u) (hsaves : 0 < u.info.numIntervalsToSave) :
    u.maps.ipHistoryMap.isSome := by
  unfold ModuleState.setAccepted at h
  obtain ⟨⟨p, v⟩, htarget, haccepted⟩ := Option.bind_eq_some_iff.1 h
  dsimp only at haccepted
  split_ifs at haccepted with hrejected
  obtain rfl := Option.some.inj haccepted
  rw [(IdUnit.SameRules.prepareSet (parseSetHeader b) v).saves] at hsaves
  rw [isSome_prepareSet]
  simp only [ModuleState.setTarget, Option.bind_eq_some_iff] at htarget
  obtain ⟨q, -, w, -, hif⟩ := htarget
  split_ifs at hif with hmaps
  obtain ⟨-, rfl⟩ := Prod.mk.inj (Option.some.inj hif)
  cases hmap : w.maps.ipHistoryMap with
  | none => exact absurd ⟨hsaves, by rw [hmap]; rfl⟩ hmaps
  | some histories => rfl

omit [Kernel] in
theorem SetHeader.rounds_eq_iff {header : SetHeader} (hnum : header.numIpsInBuffer < 2 ^ 32)
    (hnext : header.nextIpIndex < 2 ^ 32) :
    header.rounds = header.numIpsInBuffer ↔
      header.numIpsInBuffer + header.nextIpIndex < 2 ^ 32 := by
  unfold SetHeader.rounds addUint32
  omega

end Set

section Quota

local instance setKernel : Kernel := referenceKernel 32

def emptyRequest : ByteBuffer :=
  writeId (writeFields zeros 0 [(4, 1), (4, 0), (4, 1)]) 22 sourceQuota.id

/-- A rule that counts by the minute and saves two intervals. -/
def replayedQuota : NftBandwidthInfo :=
  { sourceQuota with
    resetInterval := bandwidthMinute
    numIntervalsToSave := 2 }

def replayedState : ModuleState :=
  ((ModuleState.init ⟨1000, 0⟩).nftBandwidthInit 0 .ipv4 replayedQuota ⟨1000, 0⟩).getD
    (ModuleState.init ⟨1000, 0⟩)

/-- The history of one address, with two nodes. -/
def replayedRequest : ByteBuffer :=
  writeFields (writeId (writeFields zeros 0 [(4, 1), (4, 0), (4, 1), (1, 1)]) 22 sourceQuota.id) 72
    (historyFields 2 ![0x0501a8c0, 0, 0, 0] 900 960 960 [7, 5])

end Quota

end Bandwidth

end Gargoyle
