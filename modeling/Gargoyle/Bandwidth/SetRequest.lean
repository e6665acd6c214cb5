import Gargoyle.Bandwidth.PacketRun
import Gargoyle.Bandwidth.SetCtl

/-!
# The parts of a set request

Which id a set request works on, and what its first half does: `combined_bw` is
detached, and nothing is left of the addresses when they are to be cleared. No
part of a request changes the rules of its id.
-/

namespace Gargoyle

namespace Bandwidth

open ByteBuffer

variable [Kernel]

namespace ModuleState

/-! ## The id of a request -/

section Target

variable {m : ModuleState} {header : SetHeader} {p : ℕ} {u : IdUnit}

theorem setTarget_eq_some (h : m.setTarget header = some (p, u)) :
    m.idMap.get header.id = some p ∧ m.unit p = some u := by
  simp only [setTarget, Option.bind_eq_some_iff] at h
  obtain ⟨q, hq, w, hw, hif⟩ := h
  split_ifs at hif
  obtain ⟨rfl, rfl⟩ := Prod.mk.inj (Option.some.inj hif)
  exact ⟨hq, hw⟩

theorem unit_eq_some (h : m.unit p = some u) :
    ∃ iam, m.iams p = some iam ∧ m.infos iam.info = some u.info ∧
      iam.otherInfo.bind m.infos = u.otherInfo ∧ iam.maps = u.maps := by
  simp only [unit, Option.bind_eq_some_iff, Option.map_eq_some_iff] at h
  obtain ⟨iam, hiam, info, hinfo, rfl⟩ := h
  exact ⟨iam, hiam, hinfo, rfl, rfl⟩

theorem onUnit_of_fixed (h : m.unit p = some u) {f : IdUnit → IdUnit} (hf : f u = u) :
    m.onUnit p f = m := by
  obtain ⟨iam, hiam, hinfo, hother, hmaps⟩ := unit_eq_some h
  have hwrite : m.onUnit p f = m.write p iam u := by
    simp only [onUnit, hiam, h, hf]
    rfl
  rw [hwrite]
  refine eq_of_registered (registered_write m p iam u) (fun r => ?_) (fun q => ?_)
  · rw [write_infos]
    split_ifs with hr hr'
    · rw [hr, hinfo]
    · rw [hr'.1, Option.bind_some] at hother
      exact hother.symm
    · rfl
  · rw [write_iams]
    split_ifs with hq
    · rw [hq, hiam, ← hmaps]
    · rfl

end Target

end ModuleState

/-! ## What the first half of a request does -/

theorem prepareSet_info (header : SetHeader) (u : IdUnit) :
    (prepareSet header u).info = { u.info with combinedBw := none } := by
  have hclear : (clearAllIps (u.setCombinedBw none)).info = (u.setCombinedBw none).info := by
    unfold clearAllIps
    split_ifs
    · split <;> rfl
    · rfl
  simp only [prepareSet]
  split_ifs
  · exact hclear
  · rfl

theorem prepareSet_otherInfo (header : SetHeader) (u : IdUnit) :
    (prepareSet header u).otherInfo = u.otherInfo.map fun o => { o with combinedBw := none } := by
  have hclear : (clearAllIps (u.setCombinedBw none)).otherInfo =
      (u.setCombinedBw none).otherInfo := by
    unfold clearAllIps
    split_ifs
    · split <;> rfl
    · rfl
  simp only [prepareSet]
  split_ifs
  · exact hclear
  · rfl

theorem backupRejected_prepareSet (header : SetHeader) (west : ℤ) (u : IdUnit) :
    backupRejected header west (prepareSet header u).info =
      backupRejected header west u.info := by
  rw [prepareSet_info]
  rfl

theorem foldl_clearIp_entries (freeCounter : Bool) (es : List (String × Cell)) (maps : IpMaps) :
    ((es.foldl (clearIp freeCounter) maps).ipMap).entries =
      maps.ipMap.entries.filter fun e =>
        ∀ e' ∈ es, sdbmStringHash e.1 ≠ sdbmStringHash e'.1 := by
  induction es generalizing maps with
  | nil => simp
  | cons e es ih =>
    rw [List.foldl_cons, ih]
    simp only [clearIp, HashedMap.remove, List.filter_filter, List.mem_cons, forall_eq_or_imp,
      Bool.decide_and]
    refine List.filter_congr fun e' _ => ?_
    rw [Bool.and_comm]

theorem clearAllIps_unsaved (u : IdUnit) (h : u.info.numIntervalsToSave = 0) :
    (clearAllIps u).maps.ipMap.entries = [] := by
  rw [clearAllIps, if_neg (by omega)]
  simp only [foldl_clearIp_entries]
  refine List.filter_eq_nil_iff.2 fun e he hall => ?_
  exact of_decide_eq_true hall e he rfl

theorem foldl_clearIp_ipHistoryMap (freeCounter : Bool) (es : List (String × Cell))
    (maps : IpMaps) :
    (es.foldl (clearIp freeCounter) maps).ipHistoryMap = maps.ipHistoryMap := by
  induction es generalizing maps with
  | nil => rfl
  | cons e es ih => exact ih (clearIp freeCounter maps e)

theorem foldl_clearIp_cells (es : List (String × Cell)) (maps : IpMaps) :
    (es.foldl (clearIp false) maps).cells = maps.cells := by
  induction es generalizing maps with
  | nil => rfl
  | cons e es ih => exact ih (clearIp false maps e)

theorem foldl_clearHistory_entries (es : List (String × BwHistory)) {maps : IpMaps}
    {histories : StringMap BwHistory} (hmap : maps.ipHistoryMap = some histories) :
    ∃ rest, (es.foldl clearHistory maps).ipHistoryMap = some rest ∧
      rest.entries = histories.entries.filter (fun e =>
        ∀ e' ∈ es, sdbmStringHash e.1 ≠ sdbmStringHash e'.1) := by
  induction es generalizing maps histories with
  | nil => exact ⟨histories, hmap, by simp⟩
  | cons e es ih =>
    have hstep : (clearHistory maps e).ipHistoryMap = some (histories.remove e.1) := by
      simp [clearHistory, hmap]
    obtain ⟨rest, hrest, hentries⟩ := ih hstep
    refine ⟨rest, hrest, hentries.trans ?_⟩
    simp only [HashedMap.remove, List.filter_filter, List.mem_cons, forall_eq_or_imp,
      Bool.decide_and]
    refine List.filter_congr fun e' _ => ?_
    rw [Bool.and_comm]

theorem foldl_clearHistory_kept (es : List (String × BwHistory)) (maps : IpMaps) :
    (es.foldl clearHistory maps).ipMap = maps.ipMap ∧
      ∀ c v, (es.foldl clearHistory maps).cells.load c = some v →
        maps.cells.load c = some v := by
  induction es generalizing maps with
  | nil => exact ⟨rfl, fun _ _ h => h⟩
  | cons e es ih =>
    obtain ⟨hmap, hload⟩ := ih (clearHistory maps e)
    refine ⟨hmap, fun c v h => ?_⟩
    have hfreed := hload c v h
    simp only [clearHistory, Arena.load_free] at hfreed
    split_ifs at hfreed
    exact hfreed

theorem clearAllIps_saved {u : IdUnit} {histories : StringMap BwHistory}
    (hsaves : 0 < u.info.numIntervalsToSave) (hmap : u.maps.ipHistoryMap = some histories) :
    (clearAllIps u).maps.ipMap.entries = [] ∧
      (∃ rest, (clearAllIps u).maps.ipHistoryMap = some rest ∧ rest.entries = []) ∧
      ∀ c v, (clearAllIps u).maps.cells.load c = some v → u.maps.cells.load c = some v := by
  have hnone : ∀ {V : Type} (es : List (String × V)), es.filter (fun e =>
      decide (∀ e' ∈ es, sdbmStringHash e.1 ≠ sdbmStringHash e'.1)) = [] := by
    intro V es
    exact List.filter_eq_nil_iff.2 fun e he hall => of_decide_eq_true hall e he rfl
  have hkept := foldl_clearIp_ipHistoryMap false u.maps.ipMap.entries u.maps
  have hcells := foldl_clearIp_cells u.maps.ipMap.entries u.maps
  obtain ⟨rest, hrest, hentries⟩ :=
    foldl_clearHistory_entries histories.entries (hkept.trans hmap)
  obtain ⟨hip, hload⟩ := foldl_clearHistory_kept histories.entries
    (u.maps.ipMap.entries.foldl (clearIp false) u.maps)
  simp only [clearAllIps, if_pos hsaves, hmap]
  refine ⟨?_, ⟨rest, hrest, hentries.trans (hnone _)⟩, fun c v h => hcells ▸ hload c v h⟩
  rw [hip, foldl_clearIp_entries]
  exact hnone _

omit [Kernel] in
theorem parseSetHeader_congr {b b' : ByteBuffer} (h : ∀ i < setHeaderLength, b' i = b i) :
    parseSetHeader b' = parseSetHeader b := by
  have hlength : setHeaderLength = 72 := rfl
  have hword : ∀ w off, off + w ≤ 72 → readLE w b' off = readLE w b off := by
    intro w off hw
    exact readLE_congr w off fun i _ hi => h i (by omega)
  have hid : readId b' 22 = readId b 22 := by
    unfold readId
    rw [readChars_congr fun i _ hi => h i (by simp only [bandwidthMaxIdLength] at hi; omega)]
  simp only [parseSetHeader, hword 4 0 (by omega), hword 4 4 (by omega), hword 4 8 (by omega),
    hword 8 14 (by omega), h 12 (by omega), h 13 (by omega), hid]

/-! ## The rules of the id stay -/

namespace IdUnit.SameRules

open NftBandwidthInfo (unaccounted_rule)

theorem newEntry (u : IdUnit) (ip : String) (bw family : ℕ) :
    SameRules u (initializeMapEntriesForIp u ip bw family).1 :=
  Agree.initializeMapEntriesForIp unaccounted_rule u ip bw family

theorem setCombinedBw (u : IdUnit) (c : Option Cell) : SameRules u (u.setCombinedBw c) :=
  Agree.setCombinedBw unaccounted_rule u c

theorem prepareSet (header : SetHeader) (u : IdUnit) : SameRules u (prepareSet header u) := by
  refine (setCombinedBw u none).trans ⟨?_, ?_⟩
  · rw [prepareSet_info]
    rfl
  · rw [prepareSet_otherInfo]
    rfl

theorem close (ip : String) (bw : ℕ) (now : ℤ) (h : BwHistory) (s : ReplayState) :
    SameRules s.unit (s.close ip bw now h).unit := by
  simp only [ReplayState.close]
  split_ifs
  · exact Agree.of_records rfl rfl
  · exact Agree.of_records rfl rfl

theorem fetch (b : ByteBuffer) (n : ℕ) (s : ReplayState) :
    SameRules s.unit (s.fetch b n).2.unit := by
  unfold ReplayState.fetch
  split_ifs
  · exact refl s.unit
  · exact refl s.unit

theorem replay (b : ByteBuffer) (ip : String) (family n : ℕ) (now : ℤ) (rounds : ℕ)
    (s : ReplayState) : SameRules s.unit (replay b ip family n now rounds s).unit := by
  induction rounds generalizing s with
  | zero => exact refl s.unit
  | succ rounds ih =>
    have hfetch := fetch b n s
    have hcreate : SameRules s.unit
        (Bandwidth.replay b ip family n now rounds
          ((s.fetch b n).2.create ip family (s.fetch b n).1)).unit :=
      (hfetch.trans (newEntry _ _ _ _)).trans (ih _)
    rw [Bandwidth.replay]
    by_cases hbefore : s.nextStart < now
    · rw [if_pos hbefore]
      cases s.history with
      | none => exact hcreate
      | some h =>
        simp only
        split_ifs
        · exact hcreate
        · exact (hfetch.trans (close _ _ _ _ _)).trans (ih _)
        · exact hfetch
    · rw [if_neg hbefore]
      exact refl s.unit

theorem finishReplay (ip : String) (words : In6Addr) (s : ReplayState) :
    SameRules s.unit (finishReplay ip words s) := by
  unfold Bandwidth.finishReplay
  split
  · exact refl s.unit
  · simp only
    split_ifs
    · exact ⟨rfl, rfl⟩
    · exact ⟨rfl, rfl⟩

theorem setCounter (u : IdUnit) (ip : String) (words : In6Addr) (bw family : ℕ) :
    SameRules u (setCounter u ip words bw family) := by
  simp only [Bandwidth.setCounter]
  split_ifs
  · exact (newEntry u ip bw family).trans ⟨rfl, rfl⟩
  · exact newEntry u ip bw family

theorem setSingleIpData (historyIncluded : Bool) (west : ℤ) (b : ByteBuffer) (now : ℤ)
    (u : IdUnit) (index : ℕ) :
    SameRules u (setSingleIpData historyIncluded west b now u index).1 := by
  simp only [Bandwidth.setSingleIpData]
  split_ifs
  · exact (replay b _ _ _ now _ ⟨u, _, _, _, _, _, _⟩).trans (finishReplay _ _ _)
  · exact setCounter _ _ _ _ _
  · exact setCounter _ _ _ _ _

theorem setBlocks (historyIncluded : Bool) (west : ℤ) (b : ByteBuffer) (now : ℤ) (n : ℕ)
    (u : IdUnit) (index : ℕ) :
    SameRules u (setBlocks historyIncluded west b now n u index) := by
  induction n generalizing u index with
  | zero => exact refl u
  | succ n ih => exact (setSingleIpData historyIncluded west b now u index).trans (ih _ _)

theorem applySet (header : SetHeader) (west : ℤ) (b : ByteBuffer) (now : ℤ) (u : IdUnit) :
    SameRules u (applySet header west b now u) :=
  (setBlocks _ _ _ _ _ _ _).trans (setCombinedBw _ _)

end IdUnit.SameRules

/-! ## A request that is accepted -/

theorem ModuleState.Serves.setCtl {m : ModuleState} {p : ℕ} {iam : InfoAndMaps} {u : IdUnit}
    (h : m.Serves p iam u) {b : ByteBuffer} {len : ℕ} {t : Tick} (hquiet : m.clock.Quiet t)
    (hlen : setHeaderLength ≤ len) (hid : m.idMap.get (parseSetHeader b).id = some p)
    (hmaps : ¬ (u.info.numIntervalsToSave > 0 ∧ u.maps.ipHistoryMap.isNone))
    (haccepted : backupRejected (parseSetHeader b) m.clock.localMinutesWest u.info = false) :
    m.nftBandwidthSetCtl b len t =
      { ({ m with clock := m.clock.tickCtl t } : ModuleState).write p iam
          (applySet (parseSetHeader b) m.clock.localMinutesWest b
            (t.now - m.clock.localSecondsWest) (prepareSet (parseSetHeader b) u)) with
        setInProgress := (parseSetHeader b).nextIpIndex + (parseSetHeader b).rounds ≠
          (parseSetHeader b).totalIps } := by
  have hserves := h.withClock (m.clock.tickCtl t)
  have htarget : ({ m with clock := m.clock.tickCtl t } : ModuleState).setTarget
      (parseSetHeader b) = some (p, u) := by
    simp only [setTarget, hid, Option.bind_some, hserves.unit_eq, if_neg hmaps]
  have hrejected : backupRejected (parseSetHeader b) m.clock.localMinutesWest
      (prepareSet (parseSetHeader b) u).info = false := by
    rw [backupRejected_prepareSet]
    exact haccepted
  simp only [nftBandwidthSetCtl, timeChecksCtl_of_quiet m hquiet, if_neg (not_lt.2 hlen), htarget]
  rw [if_neg (by rw [← Bool.not_eq_false]; exact not_not.2 hrejected), hserves.onUnit_eq]
  rfl

end Bandwidth

end Gargoyle
