import Gargoyle.Bandwidth.PacketRun

/-!
# The histories of an id that saves intervals

`IdUnit.Archived` is what packets and interval resets keep true of an id that
saves intervals. Its addresses are printed addresses and each of them has a
history; the histories are rings in blocks of their own; and their times are
boundaries: the first interval begins at `first_start`, every interval ends where
the next one begins, and the running interval begins at `previous_reset`.
-/

namespace Gargoyle

open List

namespace Bandwidth

/-- The end of an interval that begins at `x`. -/
def NftBandwidthInfo.boundaryAfter (info : NftBandwidthInfo) (x : ℤ) : ℤ :=
  getNextResetTime info x x

/-- The times of a history whose running interval begins at `running`: none have
been set, or they are boundaries up to `running`. -/
def BwHistory.Dated (info : NftBandwidthInfo) (running : ℤ) (h : BwHistory) : Prop :=
  (h.numNodes = 1 ∧ h.firstStart = 0 ∧ h.firstEnd = 0 ∧ h.lastEnd = 0) ∨
    (1 < h.numNodes ∧ 0 < h.firstStart ∧ h.firstEnd = info.boundaryAfter h.firstStart ∧
      h.lastEnd = running ∧ info.boundaryAfter^[h.numNodes - 1] h.firstStart = running ∧
      ∀ i < h.numNodes - 1,
        info.boundaryAfter^[i] h.firstStart < info.boundaryAfter^[i + 1] h.firstStart)

section Dated

variable {info : NftBandwidthInfo} {running : ℤ} {h : BwHistory} {cells : Arena ℕ}

theorem NftBandwidthInfo.boundaryAfter_of_rule {info' : NftBandwidthInfo}
    (hrule : info'.rule = info.rule) (x : ℤ) : info'.boundaryAfter x = info.boundaryAfter x :=
  getNextResetTime_of_rule hrule x x

theorem BwHistory.Dated.of_rule {info' : NftBandwidthInfo} (hrule : info'.rule = info.rule)
    (hd : h.Dated info running) : h.Dated info' running := by
  have heq : info'.boundaryAfter = info.boundaryAfter :=
    funext fun x => NftBandwidthInfo.boundaryAfter_of_rule hrule x
  unfold Dated at *
  rw [heq]
  exact hd

/-- A dated history is dated again when the interval that runs has ended. -/
theorem BwHistory.Dated.update (hd : h.Dated info running) (hr : h.Ring cells)
    (hmax : 2 ≤ h.maxNodes) (hpos : 0 < running) (hlt : running < info.boundaryAfter running) :
    (updateHistory cells h running (info.boundaryAfter running) info).2.1.Dated info
      (info.boundaryAfter running) := by
  have hle := hr.le
  have hnum : (updateHistory cells h running (info.boundaryAfter running) info).2.1.numNodes =
      if h.numNodes < h.maxNodes then h.numNodes + 1 else h.maxNodes := rfl
  have hstart' : (updateHistory cells h running (info.boundaryAfter running) info).2.1.firstStart =
      (closedFirstInterval info h running (info.boundaryAfter running)).1 := rfl
  have hend' : (updateHistory cells h running (info.boundaryAfter running) info).2.1.firstEnd =
      (closedFirstInterval info h running (info.boundaryAfter running)).2 := rfl
  have hlast' : (updateHistory cells h running (info.boundaryAfter running) info).2.1.lastEnd =
      info.boundaryAfter running := rfl
  simp only [closedFirstInterval, ge_iff_le] at hstart' hend'
  generalize (updateHistory cells h running (info.boundaryAfter running) info).2.1 = h' at *
  right
  rcases hd with ⟨hone, hstart, -, -⟩ | ⟨hmany, hstart, hend, -, hlast, hincreasing⟩
  · have hroom : h.numNodes < h.maxNodes := by omega
    rw [if_pos hstart, if_neg (not_le.2 hroom)] at hstart' hend'
    rw [if_pos hroom, hone] at hnum
    rw [hstart', hend', hnum]
    refine ⟨by omega, hpos, rfl, hlast', rfl, fun i hi => ?_⟩
    obtain rfl : i = 0 := by omega
    exact hlt
  · have hnext : info.boundaryAfter^[h.numNodes] h.firstStart = info.boundaryAfter running := by
      obtain ⟨n, hn⟩ := Nat.exists_eq_add_of_le' hr.pos
      rw [hn, Nat.add_sub_cancel] at hlast
      rw [hn, Function.iterate_succ_apply', hlast]
    have hincreasing' : ∀ i < h.numNodes,
        info.boundaryAfter^[i] h.firstStart < info.boundaryAfter^[i + 1] h.firstStart := by
      intro i hi
      rcases Nat.lt_or_ge i (h.numNodes - 1) with hlt' | hge
      · exact hincreasing i hlt'
      · obtain rfl : i = h.numNodes - 1 := by omega
        rw [Nat.sub_add_cancel hr.pos, hnext, hlast]
        exact hlt
    rw [if_neg hstart.ne'] at hstart' hend'
    by_cases hroom : h.numNodes < h.maxNodes
    · rw [if_neg (not_le.2 hroom)] at hstart' hend'
      rw [if_pos hroom] at hnum
      rw [hstart', hend', hnum, Nat.add_sub_cancel]
      exact ⟨by omega, hstart, hend, hlast', hnext, hincreasing'⟩
    · -- the first interval is dropped, and its end begins the new first one
      rw [if_pos (not_lt.1 hroom)] at hstart' hend'
      rw [if_neg hroom] at hnum
      have hfull : h.maxNodes = h.numNodes := by omega
      rw [hstart', hend', hnum, hfull]
      simp only [hend]
      refine ⟨hmany, hstart.trans (hincreasing 0 (by omega)), rfl, hlast', ?_, fun i hi => ?_⟩
      · rw [← Function.iterate_succ_apply, ← hnext]
        congr 1
        omega
      · rw [← Function.iterate_succ_apply, ← Function.iterate_succ_apply]
        exact hincreasing' (i + 1) (by omega)

end Dated

variable [Kernel]

def PrintedIp (k : String) : Prop := (∃ a, k = Kernel.pI4 a) ∨ ∃ a, k = Kernel.pI6c a

theorem printedIp_combined : PrintedIp combinedIp := Or.inl ⟨0, Kernel.pI4_zero.symm⟩

structure Kept (maxNodes : ℕ) (ipMap : StringMap Cell) (histories : StringMap BwHistory)
    (cells : Arena ℕ) : Prop where
  keys : ipMap.keys = histories.keys
  printed : ∀ k ∈ histories.keys, PrintedIp k
  rings : ∀ e ∈ histories.entries, e.2.Ring cells ∧ e.2.maxNodes = maxNodes
  apart : ∀ e ∈ histories.entries, ∀ e' ∈ histories.entries,
    e.2.historyData = e'.2.historyData → e = e'
  words : ∀ c v, cells.load c = some v → v < 2 ^ 64

namespace Kept

variable {maxNodes : ℕ} {ipMap : StringMap Cell} {histories : StringMap BwHistory}
  {cells : Arena ℕ}

theorem store (h : Kept maxNodes ipMap histories cells) (c : Cell) {v : ℕ} (hv : v < 2 ^ 64) :
    Kept maxNodes ipMap histories (cells.store c v) where
  keys := h.keys
  printed := h.printed
  rings := fun e he => ⟨(h.rings e he).1.store c v, (h.rings e he).2⟩
  apart := h.apart
  words := by
    intro c' v' hload
    rw [Arena.load_store] at hload
    split_ifs at hload
    · obtain ⟨w, -, rfl⟩ := Option.map_eq_some_iff.1 hload
      exact hv
    · exact h.words c' v' hload

theorem setIp (h : Kept maxNodes ipMap histories cells) {k : String} (hk : k ∈ histories.keys)
    (c : Cell) : Kept maxNodes (ipMap.set k c) histories cells :=
  ⟨(ipMap.keys_set_of_mem c (h.keys ▸ hk)).trans h.keys, h.printed, h.rings, h.apart, h.words⟩

/-- A history may be replaced by one in the same block. -/
theorem setHistory (h : Kept maxNodes ipMap histories cells) {k : String} {old new : BwHistory}
    (hold : (k, old) ∈ histories.entries) (hdata : new.historyData = old.historyData)
    (hmax : new.maxNodes = old.maxNodes) (hring : new.Ring cells) :
    Kept maxNodes ipMap (histories.set k new) cells := by
  have hk : k ∈ histories.keys := (histories.mem_keys k).2 ⟨old, hold⟩
  have hkeys : (histories.set k new).keys = histories.keys := histories.keys_set_of_mem new hk
  have hothers : ∀ e ∈ histories.entries, sdbmStringHash e.1 ≠ sdbmStringHash k →
      e.2.historyData ≠ new.historyData := by
    intro e he hhash hblock
    have heq := h.apart e he _ hold (hblock.trans hdata)
    exact hhash (by rw [heq])
  refine ⟨h.keys.trans hkeys.symm, fun k' hk' => h.printed k' (hkeys ▸ hk'), fun e he => ?_,
    fun e he e' he' hblock => ?_, h.words⟩
  · rw [HashedMap.mem_entries_set] at he
    rcases he with rfl | ⟨hmem, -⟩
    · exact ⟨hring, hmax.trans (h.rings _ hold).2⟩
    · exact h.rings e hmem
  · rw [HashedMap.mem_entries_set] at he he'
    rcases he with rfl | ⟨hmem, hhash⟩
    · rcases he' with rfl | ⟨hmem', hhash'⟩
      · rfl
      · exact absurd hblock.symm (hothers e' hmem' hhash')
    · rcases he' with rfl | ⟨hmem', hhash'⟩
      · exact absurd hblock (hothers e hmem hhash)
      · exact h.apart e hmem e' hmem' hblock

theorem remove (h : Kept maxNodes ipMap histories cells) {k : String} {old : BwHistory}
    (hold : (k, old) ∈ histories.entries) :
    Kept maxNodes (ipMap.remove k) (histories.remove k) (cells.free old.historyData) := by
  refine ⟨HashedMap.keys_remove_congr h.keys k, fun k' hk' => ?_, fun e he => ?_,
    fun e he e' he' hblock => ?_, fun c v hload => ?_⟩
  · rw [HashedMap.keys_remove] at hk'
    exact h.printed k' (List.mem_filter.1 hk').1
  · obtain ⟨hmem, hhash⟩ := (histories.mem_entries_remove k e).1 he
    have hne : e.2.historyData ≠ old.historyData := by
      intro hblock
      have heq := h.apart e hmem _ hold hblock
      exact hhash (by rw [heq])
    refine ⟨(h.rings e hmem).1.of_blocks ?_, (h.rings e hmem).2⟩
    simp [Arena.free, hne]
  · exact h.apart e ((histories.mem_entries_remove k e).1 he).1 e'
      ((histories.mem_entries_remove k e').1 he').1 hblock
  · rw [Arena.load_free] at hload
    split_ifs at hload
    exact h.words c v hload

theorem block_lt (h : Kept maxNodes ipMap histories cells) {e : String × BwHistory}
    (he : e ∈ histories.entries) : e.2.historyData < cells.bound := by
  by_contra hge
  obtain ⟨xs, hxs, -⟩ := (h.rings e he).1.block
  rw [cells.fresh _ (not_lt.1 hge)] at hxs
  cases hxs

/-- A new address may be entered with a ring in a block of its own. -/
theorem enter (h : Kept maxNodes ipMap histories cells) {k : String} (hk : PrintedIp k)
    (c : Cell) {new : BwHistory} {cells' : Arena ℕ} (hring : new.Ring cells')
    (hmax : new.maxNodes = maxNodes)
    (hothers : ∀ e ∈ histories.entries, sdbmStringHash e.1 ≠ sdbmStringHash k →
      e.2.historyData ≠ new.historyData ∧
        cells'.blocks e.2.historyData = cells.blocks e.2.historyData)
    (hwords : ∀ c v, cells'.load c = some v → v < 2 ^ 64) :
    Kept maxNodes (ipMap.set k c) (histories.set k new) cells' := by
  refine ⟨HashedMap.keys_set_congr h.keys k c new, fun k' hk' => ?_, fun e he => ?_,
    fun e he e' he' hblock => ?_, hwords⟩
  · rcases histories.eq_or_mem_keys_of_set hk' with rfl | hmem
    · exact hk
    · exact h.printed k' hmem
  · rw [HashedMap.mem_entries_set] at he
    rcases he with rfl | ⟨hmem, hhash⟩
    · exact ⟨hring, hmax⟩
    · exact ⟨(h.rings e hmem).1.of_blocks (hothers e hmem hhash).2, (h.rings e hmem).2⟩
  · rw [HashedMap.mem_entries_set] at he he'
    rcases he with rfl | ⟨hmem, hhash⟩
    · rcases he' with rfl | ⟨hmem', hhash'⟩
      · rfl
      · exact absurd hblock.symm (hothers e' hmem' hhash').1
    · rcases he' with rfl | ⟨hmem', hhash'⟩
      · exact absurd hblock (hothers e hmem hhash).1
      · exact h.apart e hmem e' hmem' hblock

end Kept

theorem kept_empty (maxNodes : ℕ) :
    Kept maxNodes HashedMap.empty HashedMap.empty Arena.empty := by
  refine ⟨rfl, ?_, ?_, ?_, ?_⟩
  · intro k hk
    exact absurd hk not_mem_nil
  · intro e he
    exact absurd he not_mem_nil
  · intro e he
    exact absurd he not_mem_nil
  · intro c v hload
    cases hload

/-! ## A new history -/

def freshNodes (n : ℕ) : List ℕ := List.replicate n 0 ++ [Kernel.junk]

theorem initializeHistory_ring (cells : Arena ℕ) (n : ℕ) :
    (initializeHistory cells n).2.Ring (initializeHistory cells n).1 := by
  refine ⟨le_rfl, Nat.le_add_left 1 n, Nat.succ_pos n, fun _ => rfl, freshNodes n, ?_, ?_⟩
  · simp [initializeHistory, Arena.alloc, freshNodes]
  · simp [initializeHistory, freshNodes]

def makeRoom (u : IdUnit) (histories : StringMap BwHistory) (ip : String) : Arena ℕ :=
  match histories.get ip with
  | some old =>
    (initializeHistory u.maps.cells u.info.numIntervalsToSave).1.free old.historyData
  | none => (initializeHistory u.maps.cells u.info.numIntervalsToSave).1

theorem initializedMaps_saved {u : IdUnit} {histories : StringMap BwHistory}
    (hsaves : 0 < u.info.numIntervalsToSave) (hmap : u.maps.ipHistoryMap = some histories)
    (ip : String) (bw family : ℕ) :
    initializedMaps u ip bw family =
      { ipMap := u.maps.ipMap.set ip
          (initializeHistory u.maps.cells u.info.numIntervalsToSave).2.current
        ipHistoryMap := some (histories.set ip
          (initializeHistory u.maps.cells u.info.numIntervalsToSave).2)
        ipFamilyMap := u.maps.ipFamilyMap.set ip family
        cells := (makeRoom u histories ip).store
          (initializeHistory u.maps.cells u.info.numIntervalsToSave).2.current bw } := by
  have hnew : newCounter u ip =
      ((initializeHistory u.maps.cells u.info.numIntervalsToSave).2.current,
        some (histories.set ip (initializeHistory u.maps.cells u.info.numIntervalsToSave).2),
        makeRoom u histories ip) := by
    cases hget : histories.get ip with
    | none => simp only [newCounter, hmap, if_neg hsaves.ne', makeRoom, hget]
    | some old => simp only [newCounter, hmap, if_neg hsaves.ne', makeRoom, hget]
  simp only [initializedMaps, hnew]
  cases u.maps.ipMap.get ip with
  | none => rfl
  | some c => simp only [if_neg hsaves.ne']

section MakeRoom

variable {u : IdUnit} {histories : StringMap BwHistory} {maxNodes : ℕ}
  (hkept : Kept maxNodes u.maps.ipMap histories u.maps.cells) (ip : String)
include hkept

theorem makeRoom_blocks_new : (makeRoom u histories ip).blocks u.maps.cells.bound =
    some (freshNodes u.info.numIntervalsToSave) := by
  have halloc : (initializeHistory u.maps.cells u.info.numIntervalsToSave).1.blocks
      u.maps.cells.bound = some (freshNodes u.info.numIntervalsToSave) := by
    simp [initializeHistory, Arena.alloc, freshNodes]
  unfold makeRoom
  cases hold : histories.get ip with
  | none => exact halloc
  | some old =>
    obtain ⟨k, -, hmem⟩ := histories.exists_mem_of_get hold
    have hne : u.maps.cells.bound ≠ old.historyData := (hkept.block_lt hmem).ne'
    simp only [Arena.free, if_neg hne]
    exact halloc

theorem makeRoom_blocks_other {e : String × BwHistory} (he : e ∈ histories.entries)
    (hhash : sdbmStringHash e.1 ≠ sdbmStringHash ip) :
    (makeRoom u histories ip).blocks e.2.historyData = u.maps.cells.blocks e.2.historyData := by
  have halloc : (initializeHistory u.maps.cells u.info.numIntervalsToSave).1.blocks
      e.2.historyData = u.maps.cells.blocks e.2.historyData := by
    simp [initializeHistory, Arena.alloc, (hkept.block_lt he).ne]
  unfold makeRoom
  cases hold : histories.get ip with
  | none => exact halloc
  | some old =>
    obtain ⟨k, hk, hmem⟩ := histories.exists_mem_of_get hold
    have hne : e.2.historyData ≠ old.historyData := by
      intro hblock
      have heq := hkept.apart e he _ hmem hblock
      exact hhash (by rw [heq]; exact hk)
    simp only [Arena.free, if_neg hne]
    exact halloc

theorem makeRoom_words {c : Cell} {v : ℕ} (hload : (makeRoom u histories ip).load c = some v) :
    v < 2 ^ 64 := by
  have halloc : ∀ {v}, (initializeHistory u.maps.cells u.info.numIntervalsToSave).1.load c =
      some v → v < 2 ^ 64 := by
    intro v hv
    simp only [initializeHistory, Arena.load_alloc] at hv
    split_ifs at hv
    · have hmem := mem_of_getElem? hv
      rw [mem_append, mem_replicate, mem_singleton] at hmem
      rcases hmem with ⟨-, rfl⟩ | rfl
      · norm_num
      · exact Kernel.junk_lt
    · exact hkept.words c v hv
  unfold makeRoom at hload
  cases hold : histories.get ip with
  | none =>
    rw [hold] at hload
    exact halloc hload
  | some old =>
    rw [hold] at hload
    simp only [Arena.load_free] at hload
    split_ifs at hload
    exact halloc hload

theorem makeRoom_ring : (initializeHistory u.maps.cells u.info.numIntervalsToSave).2.Ring
    (makeRoom u histories ip) :=
  (initializeHistory_ring u.maps.cells u.info.numIntervalsToSave).of_blocks
    ((makeRoom_blocks_new hkept ip).trans (by simp [initializeHistory, Arena.alloc, freshNodes]))

theorem Kept.newHistory (hip : PrintedIp ip) (hmax : u.info.numIntervalsToSave + 1 = maxNodes)
    {bw : ℕ} (hbw : bw < 2 ^ 64) :
    Kept maxNodes
      (u.maps.ipMap.set ip (initializeHistory u.maps.cells u.info.numIntervalsToSave).2.current)
      (histories.set ip (initializeHistory u.maps.cells u.info.numIntervalsToSave).2)
      ((makeRoom u histories ip).store
        (initializeHistory u.maps.cells u.info.numIntervalsToSave).2.current bw) := by
  have hentered := hkept.enter hip
    (initializeHistory u.maps.cells u.info.numIntervalsToSave).2.current
    (makeRoom_ring hkept ip) hmax
    (fun e he hhash => ⟨(hkept.block_lt he).ne, makeRoom_blocks_other hkept ip he hhash⟩)
    (fun c v hload => makeRoom_words hkept ip hload)
  exact hentered.store _ hbw

end MakeRoom

namespace IdUnit

structure Archived (u : IdUnit) : Prop where
  saves : 0 < u.info.numIntervalsToSave
  next : u.info.nextReset = u.info.boundaryAfter u.info.previousReset
  positive : 0 < u.info.previousReset
  kept : ∃ histories, u.maps.ipHistoryMap = some histories ∧
    Kept (u.info.numIntervalsToSave + 1) u.maps.ipMap histories u.maps.cells ∧
    ∀ e ∈ histories.entries, e.2.Dated u.info u.info.previousReset

variable {u : IdUnit}

theorem Archived.setCombinedBw (h : u.Archived) (c : Option Cell) :
    (u.setCombinedBw c).Archived := ⟨h.saves, h.next, h.positive, h.kept⟩

theorem Archived.newEntry (h : u.Archived) {ip : String} (hip : PrintedIp ip) {bw : ℕ}
    (hbw : bw < 2 ^ 64) (family : ℕ) : (initializeMapEntriesForIp u ip bw family).1.Archived := by
  obtain ⟨histories, hmap, hkept, hdated⟩ := h.kept
  have hmaps := initializedMaps_saved h.saves hmap ip bw family
  have hentered : IdUnit.Archived { u with maps := initializedMaps u ip bw family } := by
    refine ⟨h.saves, h.next, h.positive, _, congrArg IpMaps.ipHistoryMap hmaps, ?_, fun e he => ?_⟩
    · rw [hmaps]
      exact hkept.newHistory ip hip rfl hbw
    · rw [HashedMap.mem_entries_set] at he
      rcases he with rfl | ⟨hmem, -⟩
      · exact .inl ⟨rfl, rfl, rfl, rfl⟩
      · exact hdated e hmem
  unfold initializeMapEntriesForIp
  simp only
  split_ifs
  · exact hentered.setCombinedBw _
  · exact hentered

omit [Kernel] in
theorem addUpToMax_lt {v : ℕ} (hv : v < 2 ^ 64) (len : ℕ) (isCheck : Bool) :
    addUpToMax v len isCheck < 2 ^ 64 := by
  unfold addUpToMax
  split_ifs
  · exact Nat.mod_lt _ (by norm_num)
  · exact hv
  · decide

theorem Archived.addToCell (h : u.Archived) (c : Cell) (len : ℕ) (isCheck : Bool) :
    (u.addToCell c len isCheck).Archived := by
  obtain ⟨histories, hmap, hkept, hdated⟩ := h.kept
  unfold IdUnit.addToCell
  cases hload : u.maps.cells.load c with
  | none => exact h
  | some v =>
    exact ⟨h.saves, h.next, h.positive, histories, hmap,
      hkept.store c (addUpToMax_lt (hkept.words c v hload) len isCheck), hdated⟩

end IdUnit

/-! ## Walking over the histories -/

/-- The histories while they are replaced one after the other: the ones in
`rest` are still to come and satisfy `P`, and all others satisfy `Q`. -/
structure Sweep (maxNodes : ℕ) (P Q : BwHistory → Prop) (rest : List (String × BwHistory))
    (ipMap : StringMap Cell) (histories : StringMap BwHistory) (cells : Arena ℕ) : Prop where
  kept : Kept maxNodes ipMap histories cells
  todo : ∀ e ∈ rest, e ∈ histories.entries ∧ P e.2
  done : ∀ e ∈ histories.entries, e ∈ rest ∨ Q e.2
  sorted : rest.Pairwise fun a b => sdbmStringHash a.1 < sdbmStringHash b.1

namespace Sweep

variable {maxNodes : ℕ} {P Q : BwHistory → Prop} {rest : List (String × BwHistory)}
  {ipMap : StringMap Cell} {histories : StringMap BwHistory} {cells : Arena ℕ}
  {e : String × BwHistory}

theorem start (hkept : Kept maxNodes ipMap histories cells)
    (hP : ∀ e ∈ histories.entries, P e.2) :
    Sweep maxNodes P Q histories.entries ipMap histories cells :=
  ⟨hkept, fun e he => ⟨he, hP e he⟩, fun _ he => Or.inl he, histories.sorted⟩

theorem finish (h : Sweep maxNodes P Q [] ipMap histories cells) :
    Kept maxNodes ipMap histories cells ∧ ∀ e ∈ histories.entries, Q e.2 :=
  ⟨h.kept, fun e he => (h.done e he).resolve_left not_mem_nil⟩

theorem store (h : Sweep maxNodes P Q rest ipMap histories cells) (c : Cell) {v : ℕ}
    (hv : v < 2 ^ 64) : Sweep maxNodes P Q rest ipMap histories (cells.store c v) :=
  ⟨h.kept.store c hv, h.todo, h.done, h.sorted⟩

theorem setIp (h : Sweep maxNodes P Q rest ipMap histories cells) {k : String}
    (hk : k ∈ histories.keys) (c : Cell) :
    Sweep maxNodes P Q rest (ipMap.set k c) histories cells :=
  ⟨h.kept.setIp hk c, h.todo, h.done, h.sorted⟩

theorem step (h : Sweep maxNodes P Q (e :: rest) ipMap histories cells) (new : BwHistory)
    (hdata : new.historyData = e.2.historyData) (hmax : new.maxNodes = e.2.maxNodes)
    (hring : new.Ring cells) (hQ : Q new) :
    Sweep maxNodes P Q rest ipMap (histories.set e.1 new) cells := by
  obtain ⟨hmem, -⟩ := h.todo e mem_cons_self
  obtain ⟨hhead, htail⟩ := List.pairwise_cons.1 h.sorted
  refine ⟨h.kept.setHistory hmem hdata hmax hring, fun e' he' => ?_, fun e' he' => ?_, htail⟩
  · obtain ⟨hmem', hP'⟩ := h.todo e' (mem_cons_of_mem e he')
    exact ⟨(HashedMap.mem_entries_set _ _ _ _).2 (Or.inr ⟨hmem', (hhead e' he').ne'⟩), hP'⟩
  · rw [HashedMap.mem_entries_set] at he'
    rcases he' with rfl | ⟨hmem', hhash⟩
    · exact .inr hQ
    · rcases h.done e' hmem' with hin | hdone
      · rcases List.mem_cons.1 hin with rfl | hrest
        · exact absurd rfl hhash
        · exact .inl hrest
      · exact .inr hdone

theorem key_mem (h : Sweep maxNodes P Q (e :: rest) ipMap histories cells) :
    e.1 ∈ histories.keys :=
  (histories.mem_keys e.1).2 ⟨e.2, (h.todo e mem_cons_self).1⟩

end Sweep

/-! ## An interval ends -/

section Reset

variable {info : NftBandwidthInfo}

/-- What closing does to each history carries over to the loop over all of them. -/
theorem foldl_doReset {maxNodes : ℕ} {P Q : BwHistory → Prop} {start stop : ℤ}
    {rest : List (String × BwHistory)} {s : ResetState}
    (hupdate : ∀ {cells h}, P h → h.Ring cells → h.maxNodes = maxNodes →
      Q (updateHistory cells h start stop info).2.1)
    (h : Sweep maxNodes P Q rest s.ipMap s.histories s.cells)
    (hdelete : ∀ k ∈ s.deleteIps.keys, k ∈ s.histories.keys) :
    let s' := rest.foldl (doReset info start stop) s
    Sweep maxNodes P Q [] s'.ipMap s'.histories s'.cells ∧
      ∀ k ∈ s'.deleteIps.keys, k ∈ s'.histories.keys := by
  induction rest generalizing s with
  | nil => exact ⟨h, hdelete⟩
  | cons e rest ih =>
    obtain ⟨hmem, hP⟩ := h.todo e mem_cons_self
    obtain ⟨hring, hmax⟩ := h.kept.rings e hmem
    have hkey := h.key_mem
    have hring' := updateHistory_ring_before hring start stop info
    have hstep := (h.step (updateHistory s.cells e.2 start stop info).2.1
      rfl rfl hring' (hupdate hP hring hmax)).store
      (updateHistory s.cells e.2 start stop info).2.1.current (show 0 < 2 ^ 64 by norm_num)
    have hkeys := s.histories.keys_set_of_mem
      (updateHistory s.cells e.2 start stop info).2.1 hkey
    rw [foldl_cons]
    apply ih
    · simp only [doReset]
      split_ifs
      · exact hstep
      · exact hstep.setIp (hkeys ▸ hkey) _
    · simp only [doReset]
      split_ifs
      · intro k hk
        rw [hkeys]
        rcases s.deleteIps.eq_or_mem_keys_of_set hk with rfl | hold
        · exact hkey
        · exact hdelete k hold
      · intro k hk
        rw [hkeys]
        exact hdelete k hk

theorem foldl_clearIps {maxNodes : ℕ} {Q : BwHistory → Prop} {es : List (String × Cell)}
    {t : IpMaps × StringMap BwHistory}
    (hsorted : es.Pairwise fun a b => sdbmStringHash a.1 < sdbmStringHash b.1)
    (hkeys : ∀ e ∈ es, e.1 ∈ t.2.keys) (hkept : Kept maxNodes t.1.ipMap t.2 t.1.cells)
    (hQ : ∀ e ∈ t.2.entries, Q e.2) :
    let t' := es.foldl (fun t e => clearIps t.1 t.2 e) t
    Kept maxNodes t'.1.ipMap t'.2 t'.1.cells ∧ ∀ e ∈ t'.2.entries, Q e.2 := by
  induction es generalizing t with
  | nil => exact ⟨hkept, hQ⟩
  | cons e es ih =>
    obtain ⟨hhead, htail⟩ := List.pairwise_cons.1 hsorted
    obtain ⟨old, hold⟩ := (t.2.mem_keys e.1).1 (hkeys e mem_cons_self)
    have hget : t.2.get e.1 = some old := t.2.get_of_mem hold
    rw [foldl_cons]
    apply ih htail
    · intro e' he'
      have hmem := hkeys e' (mem_cons_of_mem e he')
      have hne : sdbmStringHash e'.1 ≠ sdbmStringHash e.1 := (hhead e' he').ne'
      simp only [clearIps, HashedMap.keys_remove, mem_filter]
      exact ⟨hmem, by simpa using hne⟩
    · simp only [clearIps, hget]
      exact hkept.remove hold
    · intro e' he'
      exact hQ e' ((t.2.mem_entries_remove e.1 e').1 he').1

theorem foldl_resetHistories {maxNodes : ℕ} {P Q : BwHistory → Prop}
    {rest : List (String × BwHistory)} {t : IpMaps × StringMap BwHistory}
    (hQ : ∀ h : BwHistory, Q { h with
      firstStart := 0, firstEnd := 0, lastEnd := 0, numNodes := 1, nonZeroNodes := 1,
      currentIndex := 0 })
    (h : Sweep maxNodes P Q rest t.1.ipMap t.2 t.1.cells) :
    let t' := rest.foldl resetHistories t
    Sweep maxNodes P Q [] t'.1.ipMap t'.2 t'.1.cells := by
  induction rest generalizing t with
  | nil => exact h
  | cons e rest ih =>
    obtain ⟨hmem, -⟩ := h.todo e mem_cons_self
    obtain ⟨hring, -⟩ := h.kept.rings e hmem
    have hkey := h.key_mem
    let wiped : BwHistory :=
      { e.2 with
        firstStart := 0
        firstEnd := 0
        lastEnd := 0
        numNodes := 1
        nonZeroNodes := 1
        currentIndex := 0 }
    have hwiped : wiped.Ring t.1.cells :=
      ⟨le_rfl, hring.pos.trans hring.le, hring.pos.trans hring.le, fun _ => rfl, hring.block⟩
    have hstep := (h.step wiped rfl rfl hwiped (hQ e.2)).store wiped.current
      (show 0 < 2 ^ 64 by norm_num)
    rw [foldl_cons]
    apply ih
    exact hstep.setIp ((t.2.keys_set_of_mem wiped hkey).symm ▸ hkey) _

end Reset

namespace IdUnit

variable {u : IdUnit} {now : ℤ}

/-- The boundaries up to `now` lie apart. -/
def BoundariesAhead (u : IdUnit) (now : ℤ) : Prop :=
  ∀ x, 0 < x → x ≤ now → x < u.info.boundaryAfter x

theorem archived_of_maps {u' : IdUnit} {histories : StringMap BwHistory}
    (hsaves : 0 < u.info.numIntervalsToSave) (hrule : u'.info.rule = u.info.rule)
    (hnext : u'.info.nextReset = u.info.boundaryAfter u'.info.previousReset)
    (hpos : 0 < u'.info.previousReset) (hmap : u'.maps.ipHistoryMap = some histories)
    (hkept : Kept (u.info.numIntervalsToSave + 1) u'.maps.ipMap histories u'.maps.cells)
    (hdated : ∀ e ∈ histories.entries, e.2.Dated u.info u'.info.previousReset) :
    u'.Archived := by
  have hnum := NftBandwidthInfo.numIntervalsToSave_of_rule hrule
  refine ⟨hnum.symm ▸ hsaves, ?_, hpos, histories, hmap, hnum.symm ▸ hkept, fun e he => ?_⟩
  · rw [hnext, NftBandwidthInfo.boundaryAfter_of_rule hrule]
  · exact (hdated e he).of_rule hrule

/-- Closing an interval keeps the archive. -/
theorem Archived.closeInterval (h : u.Archived) (hahead : u.BoundariesAhead now)
    (hdue : u.info.nextReset ≤ now) (hprevious : u.info.previousReset ≤ now)
    {histories : StringMap BwHistory} (hmap : u.maps.ipHistoryMap = some histories) :
    (Bandwidth.closeInterval u histories now).Archived ∧
      (Bandwidth.closeInterval u histories now).info.previousReset ≤ now ∧
      (Bandwidth.closeInterval u histories now).info.rule = u.info.rule := by
  obtain ⟨histories', hmap', hkept, hdated⟩ := h.kept
  obtain rfl : histories = histories' := Option.some.inj (hmap.symm.trans hmap')
  have hlt := hahead _ h.positive hprevious
  have hsaves := h.saves
  have hempty : ∀ k ∈ (HashedMap.empty : StringMap Cell).keys, k ∈ histories.keys := by
    simp [HashedMap.keys]
  obtain ⟨hswept, hdelete⟩ := foldl_doReset
    (s := ⟨u.maps.ipMap, histories, u.maps.cells, HashedMap.empty⟩)
    (fun hd hring hmax => hd.update hring (by omega) h.positive hlt)
    (Sweep.start hkept hdated) hempty
  rw [← h.next] at hlt hswept hdelete
  obtain ⟨hkept', hdated'⟩ := hswept.finish
  unfold Bandwidth.closeInterval
  generalize histories.entries.foldl (doReset u.info u.info.previousReset u.info.nextReset)
    ⟨u.maps.ipMap, histories, u.maps.cells, HashedMap.empty⟩ = s at hkept' hdated' hdelete ⊢
  refine ⟨?_, hdue, rfl⟩
  by_cases hlast : getNextResetTime u.info u.info.nextReset u.info.nextReset ≥ now
  · obtain ⟨hkept'', hdated''⟩ := foldl_clearIps
      (t := ({ u.maps with ipMap := s.ipMap, cells := s.cells }, s.histories))
      (HashedMap.sorted _) (fun e he => hdelete e.1 (mem_map_of_mem he)) hkept' hdated'
    simp only [if_pos hlast]
    exact archived_of_maps h.saves rfl rfl (h.positive.trans hlt) rfl hkept'' hdated''
  · simp only [if_neg hlast]
    exact archived_of_maps h.saves rfl rfl (h.positive.trans hlt) rfl hkept' hdated'

theorem Archived.closeIntervals (h : u.Archived) (hahead : u.BoundariesAhead now)
    (hprevious : u.info.previousReset ≤ now) (n : ℕ) :
    (Bandwidth.closeIntervals now n u).Archived ∧
      (Bandwidth.closeIntervals now n u).info.previousReset ≤ now ∧
      (Bandwidth.closeIntervals now n u).info.rule = u.info.rule := by
  induction n generalizing u with
  | zero => exact ⟨h, hprevious, rfl⟩
  | succ n ih =>
    obtain ⟨histories, hmap, -, -⟩ := h.kept
    simp only [Bandwidth.closeIntervals, hmap]
    split_ifs with hdue
    · obtain ⟨harchived, hprevious', hrule⟩ := h.closeInterval hahead hdue hprevious hmap
      obtain ⟨hrest, hrest', hrule'⟩ := ih harchived hahead hprevious'
      exact ⟨hrest, hrest', hrule'.trans hrule⟩
    · exact ⟨h, hprevious, rfl⟩

theorem Archived.wipeHistories (h : u.Archived) (hnow : 0 < now)
    (hprevious : u.info.previousReset ≤ now) :
    (Bandwidth.wipeHistories u now).Archived ∧
      (Bandwidth.wipeHistories u now).info.previousReset ≤ now := by
  obtain ⟨histories, hmap, hkept, hdated⟩ := h.kept
  simp only [Bandwidth.wipeHistories, hmap]
  by_cases hdue : u.info.nextReset ≤ now
  · have hsweep : Sweep (u.info.numIntervalsToSave + 1) (BwHistory.Dated u.info u.info.previousReset)
        (BwHistory.Dated u.info now) histories.entries u.maps.ipMap histories u.maps.cells :=
      Sweep.start hkept hdated
    obtain ⟨hkept', hdated'⟩ := (foldl_resetHistories (t := (u.maps, histories))
      (fun _ => Or.inl ⟨rfl, rfl, rfl, rfl⟩) hsweep).finish
    simp only [if_pos hdue]
    exact ⟨archived_of_maps h.saves rfl rfl hnow rfl hkept' hdated', le_rfl⟩
  · simp only [if_neg hdue]
    exact ⟨h, hprevious⟩

theorem Archived.handleIntervalReset (h : u.Archived) (hahead : u.BoundariesAhead now)
    (hnow : 0 < now) (hprevious : u.info.previousReset ≤ now) :
    (Bandwidth.handleIntervalReset now u).Archived ∧
      (Bandwidth.handleIntervalReset now u).info.previousReset ≤ now := by
  obtain ⟨histories, hmap, -, -⟩ := h.kept
  have hsome : u.maps.ipHistoryMap.isNone = false := by rw [hmap]; rfl
  simp only [Bandwidth.handleIntervalReset, if_neg h.saves.ne', hsome, Bool.false_eq_true, if_false]
  obtain ⟨hclosed, hclosed', -⟩ := h.closeIntervals hahead hprevious u.info.numIntervalsToSave
  obtain ⟨hwiped, hwiped'⟩ := hclosed.wipeHistories hnow hclosed'
  obtain ⟨histories', hmap', hkept', hdated'⟩ := hwiped.kept
  exact ⟨archived_of_maps hwiped.saves rfl hwiped.next hwiped.positive hmap' hkept' hdated',
    hwiped'⟩

theorem Archived.resetIfDue (h : u.Archived) (hahead : u.BoundariesAhead now) (hnow : 0 < now)
    (hprevious : u.info.previousReset ≤ now) (other : Bool) :
    (u.resetIfDue other now).Archived ∧ (u.resetIfDue other now).info.previousReset ≤ now := by
  unfold IdUnit.resetIfDue
  split
  · exact ⟨h, hprevious⟩
  · split_ifs
    · exact h.handleIntervalReset hahead hnow hprevious
    · exact ⟨h, hprevious⟩

end IdUnit

end Bandwidth

end Gargoyle
