import Gargoyle.Bandwidth.ArchiveRun
import Gargoyle.Bandwidth.ReferenceKernel
import Gargoyle.Bandwidth.ReplayLoop
import Gargoyle.Bandwidth.SetRequest

/-!
# A dump of an id

The blocks of all addresses of an id, one after the other, as `add_ip_block`
writes them. An id that saves intervals has a history for each of its addresses,
so that the length `add_ip_block` checks is the length it writes.
-/

namespace Gargoyle

open List

namespace Bandwidth

open ByteBuffer

section

variable [Kernel]

theorem parseIp_of_printed {k : String} (h : PrintedIp k) :
    ∃ family ip, parseIp k = some (family, ip) ∧ printIp family ip = k ∧ family < 2 ^ 32 := by
  rcases h with ⟨a, rfl⟩ | ⟨a, rfl⟩
  · refine ⟨NfProto.ipv4.code, ![a, 0, 0, 0], ?_, ?_, by decide⟩
    · simp only [parseIp, Kernel.in4Pton_pI4]
    · simp [printIp]
  · refine ⟨NfProto.ipv6.code, a, ?_, ?_, by decide⟩
    · simp only [parseIp, Kernel.in4Pton_pI6c, Kernel.in6Pton_pI6c, Option.map_some]
    · simp [printIp, NfProto.code]

namespace IdUnit

variable {u : IdUnit} {k : String} {west : ℤ}

def blockOf (u : IdUnit) (west : ℤ) (k : String) : List (ℕ × ℕ) :=
  match parseIp k with
  | some (family, ip) => (ipBlock u west true family ip).2
  | none => []

def blocksOf (u : IdUnit) (west : ℤ) (ks : List String) : List (ℕ × ℕ) :=
  ks.flatMap (u.blockOf west)

def Reports (u : IdUnit) (k : String) : Prop :=
  0 < u.info.numIntervalsToSave ∧ PrintedIp k ∧ (u.report k).isSome

theorem Archived.reports (h : u.Archived) (hk : k ∈ u.maps.ipMap.keys) : u.Reports k := by
  obtain ⟨histories, hmap, hkept, -⟩ := h.kept
  rw [hkept.keys] at hk
  refine ⟨h.saves, hkept.printed k hk, ?_⟩
  rw [report, hmap, Option.bind_some, Option.isSome_map]
  exact histories.get_isSome_of_mem_keys hk

theorem ipBlock_of_report (west : ℤ) {family : ℕ} {ip : In6Addr} {r : HistoryReport}
    (hsaves : 0 < u.info.numIntervalsToSave) (hreport : u.report (printIp family ip) = some r) :
    ipBlock u west true family ip =
      (48 + 8 * r.bws.length,
        historyFields family ip (sentTime west u.info.previousReset r.firstStart)
          (sentTime west u.info.previousReset r.firstEnd)
          (sentTime west u.info.previousReset r.lastEnd) r.bws) := by
  simp only [ipBlock, if_true, if_pos hsaves, hreport]

/-- A reply with room for all addresses has them all. -/
theorem addIpBlocks_of_fits (west : ℤ) {ks : List String} (hreports : ∀ k ∈ ks, u.Reports k)
    {len : ℕ} (hlen : len < 2 ^ 32) (s : ReplyState) (hfits : s.index + size (u.blocksOf west ks) ≤ len) :
    addIpBlocks u west true len ks s =
      { s with
        buffer := writeFields s.buffer s.index (u.blocksOf west ks)
        index := s.index + size (u.blocksOf west ks)
        numIps := s.numIps + ks.length } := by
  induction ks generalizing s with
  | nil => rfl
  | cons k ks ih =>
    obtain ⟨hsaves, hprinted, hreport⟩ := hreports k mem_cons_self
    obtain ⟨family, ip, hparse, hprint, -⟩ := parseIp_of_printed hprinted
    obtain ⟨r, hr⟩ := Option.isSome_iff_exists.1 hreport
    have hblock := ipBlock_of_report west hsaves (hprint.symm ▸ hr)
    have hsize : size (ipBlock u west true family ip).2 = (ipBlock u west true family ip).1 := by
      rw [hblock, size_historyFields]
    have hof : u.blockOf west k = (ipBlock u west true family ip).2 := by
      simp only [blockOf, hparse]
    simp only [blocksOf, flatMap_cons, size_append, hof] at hfits ⊢
    have hadd : addIpBlock u west true len family ip s.buffer s.index =
        some (writeFields s.buffer s.index (ipBlock u west true family ip).2,
          s.index + size (ipBlock u west true family ip).2) := by
      simp only [addIpBlock, addUint32, ← hsize]
      rw [Nat.mod_eq_of_lt (by omega), if_neg (by omega)]
    simp only [addIpBlocks, hparse, hadd]
    rw [ih (fun k' hk' => hreports k' (mem_cons_of_mem k hk'))]
    · simp only [blocksOf, writeFields_append, length_cons, Nat.add_assoc, Nat.add_comm 1]
    · simp only [blocksOf]
      omega

theorem blockOf_congr {u' : IdUnit} (hreports : u.Reports k)
    (hsaves : u'.info.numIntervalsToSave = u.info.numIntervalsToSave)
    (hprevious : u'.info.previousReset = u.info.previousReset)
    (hreport : u'.report k = u.report k) : u'.blockOf west k = u.blockOf west k := by
  obtain ⟨hpos, hprinted, hsome⟩ := hreports
  obtain ⟨family, ip, hparse, hprint, -⟩ := parseIp_of_printed hprinted
  obtain ⟨r, hr⟩ := Option.isSome_iff_exists.1 hsome
  have hr' : u'.report (printIp family ip) = some r := by rw [hprint, hreport, hr]
  simp only [blockOf, hparse]
  rw [ipBlock_of_report west hpos (hprint.symm ▸ hr),
    ipBlock_of_report west (hsaves ▸ hpos) hr', hprevious]

theorem addIpBlocks_congr {u' : IdUnit} {ks : List String} (hreports : ∀ k ∈ ks, u.Reports k)
    (hsaves : u'.info.numIntervalsToSave = u.info.numIntervalsToSave)
    (hprevious : u'.info.previousReset = u.info.previousReset)
    (hreport : ∀ k ∈ ks, u'.report k = u.report k) {len : ℕ} (hlen : len < 2 ^ 32)
    (s : ReplyState) (hfits : s.index + size (u.blocksOf west ks) ≤ len) :
    addIpBlocks u' west true len ks s = addIpBlocks u west true len ks s := by
  have hblocks : u'.blocksOf west ks = u.blocksOf west ks :=
    flatMap_congr fun k hk => blockOf_congr (hreports k hk) hsaves hprevious (hreport k hk)
  have hreports' : ∀ k ∈ ks, u'.Reports k := by
    intro k hk
    obtain ⟨hpos, hprinted, hsome⟩ := hreports k hk
    exact ⟨hsaves.symm ▸ hpos, hprinted, hreport k hk ▸ hsome⟩
  rw [addIpBlocks_of_fits west hreports hlen s hfits,
    addIpBlocks_of_fits west hreports' hlen s (hblocks.symm ▸ hfits), hblocks]

end IdUnit

end

/-!
## A dump is restored

The blocks of an id that saves intervals, sent back inside the same interval,
restore what they report: a history of an archived id runs from boundary to
boundary up to the running interval, so that replaying it ends where it was.

The exception is the address `::`. `set_single_ip_data` takes it for the
combined counter, as it does for `0.0.0.0`.
-/

section

variable [Kernel]

/-! ### One address -/

def HistoryReport.first (previousReset : ℤ) (r : HistoryReport) : ℤ :=
  if r.firstStart > 0 then r.firstStart else previousReset

section Dated

variable {info : NftBandwidthInfo} {running now : ℤ} {h : BwHistory} {cells : Arena ℕ}

omit [Kernel] in
theorem iterate_le_of_increasing {g : ℤ → ℤ} {x : ℤ} {n : ℕ}
    (hlt : ∀ i < n, g^[i] x < g^[i + 1] x) {i : ℕ} (hi : i ≤ n) : g^[i] x ≤ g^[n] x := by
  induction n with
  | zero =>
    obtain rfl : i = 0 := by omega
    exact le_rfl
  | succ n ih =>
    rcases Nat.lt_or_ge i (n + 1) with hlt' | hge
    · exact (ih (fun j hj => hlt j (by omega)) (by omega)).trans (hlt n (by omega)).le
    · obtain rfl : i = n + 1 := by omega
      exact le_rfl

/-- The report runs from boundary to boundary up to the interval that begins at
`running`, and its values are words. -/
structure HistoryReport.Replayable (info : NftBandwidthInfo) (running : ℤ) (r : HistoryReport) :
    Prop where
  replayed : replayedReport info (r.first running) r.bws = r
  positive : 0 < r.first running
  last : info.boundaryAfter^[r.bws.length - 1] (r.first running) = running
  upto : ∀ i < r.bws.length, info.boundaryAfter^[i] (r.first running) ≤ running
  nonempty : r.bws ≠ []
  room : r.bws.length ≤ info.numIntervalsToSave + 1
  words : ∀ bw ∈ r.bws, bw < 2 ^ 64

omit [Kernel] in
theorem replayedReport_of_rule {info' : NftBandwidthInfo} (hrule : info'.rule = info.rule)
    (first : ℤ) (bws : List ℕ) :
    replayedReport info' first bws = replayedReport info first bws := by
  have hboundary : info'.boundaryAfter = info.boundaryAfter :=
    funext fun x => NftBandwidthInfo.boundaryAfter_of_rule hrule x
  unfold replayedReport
  rw [hboundary]

omit [Kernel] in
/-- What is reported of a dated history can be replayed. -/
theorem BwHistory.Dated.replayable (hd : h.Dated info running) (hr : h.Ring cells)
    (hpos : 0 < running) (hmax : h.maxNodes = info.numIntervalsToSave + 1)
    (hwords : ∀ bw ∈ h.chronological cells, bw < 2 ^ 64) :
    (h.report cells).Replayable info running := by
  have hlen : (h.report cells).bws.length = h.numNodes := h.length_chronological cells
  have hone := hr.pos
  have hle := hr.le
  have hnonempty : (h.report cells).bws ≠ [] := by
    rw [← length_pos_iff, hlen]
    exact hone
  rcases hd with ⟨hone, hstart, hend, hlast⟩ | ⟨hmany, hstart, hend, hlast, hrunning, hlt⟩
  · have hfirst : (h.report cells).first running = running := by
      simp [HistoryReport.first, BwHistory.report, hstart]
    refine ⟨?_, ?_, ?_, ?_, hnonempty, by omega, hwords⟩
    · rw [replayedReport, if_pos (by omega)]
      simp only [BwHistory.report, hstart, hend, hlast]
    · rw [hfirst]
      exact hpos
    · rw [hfirst, hlen, hone]
      rfl
    · intro i hi
      obtain rfl : i = 0 := by omega
      exact hfirst.le
  · have hfirst : (h.report cells).first running = h.firstStart := by
      simp [HistoryReport.first, BwHistory.report, hstart]
    refine ⟨?_, ?_, ?_, ?_, hnonempty, by omega, hwords⟩
    · rw [replayedReport, if_neg (by omega), hlen, hfirst, hrunning]
      simp only [BwHistory.report, hend, hlast]
    · rw [hfirst]
      exact hstart
    · rw [hfirst, hlen]
      exact hrunning
    · intro i hi
      rw [hfirst]
      exact hrunning ▸ iterate_le_of_increasing hlt (by omega)

end Dated

theorem Kept.node_lt {maxNodes : ℕ} {ipMap : StringMap Cell} {histories : StringMap BwHistory}
    {cells : Arena ℕ} (hkept : Kept maxNodes ipMap histories cells) (h : BwHistory) {bw : ℕ}
    (hbw : bw ∈ h.chronological cells) : bw < 2 ^ 64 := by
  simp only [BwHistory.chronological, mem_map] at hbw
  obtain ⟨i, -, rfl⟩ := hbw
  unfold BwHistory.node
  cases hload : cells.load ⟨h.historyData, (h.oldestIndex + i) % h.maxNodes⟩ with
  | none => norm_num
  | some w => exact hkept.words _ w hload

namespace IdUnit

variable {u v : IdUnit} {k : String} {b : ByteBuffer} {index : ℕ} {west now : ℤ}

structure Inside (u : IdUnit) (west now : ℤ) : Prop where
  archived : u.Archived
  after : u.info.previousReset < now
  before : now < u.info.nextReset
  zone : -2 ^ 31 ≤ west
  clock : now + 60 * west < 2 ^ 63

theorem Archived.exists_report (h : u.Archived) (hk : k ∈ u.maps.ipMap.keys) :
    ∃ r, u.report k = some r ∧ r.Replayable u.info u.info.previousReset := by
  obtain ⟨histories, hmap, hkept, hdated⟩ := h.kept
  obtain ⟨h₀, hmem⟩ := (histories.mem_keys k).1 (hkept.keys ▸ hk)
  obtain ⟨hring, hmax⟩ := hkept.rings _ hmem
  refine ⟨h₀.report u.maps.cells, ?_, ?_⟩
  · rw [report_eq hmap, histories.get_of_mem hmem, Option.map_some]
  · exact (hdated _ hmem).replayable hring h.positive hmax fun bw hbw => hkept.node_lt h₀ hbw

theorem Inside.sentTime (h : u.Inside west now) {r : HistoryReport}
    (hr : r.Replayable u.info u.info.previousReset) :
    toInt64 (Bandwidth.sentTime west u.info.previousReset r.firstStart % 256 ^ 8) - 60 * west =
      r.first u.info.previousReset := by
  have hzone := h.zone
  have hclock := h.clock
  have hafter := h.after
  have hpos := hr.positive
  have hle : r.first u.info.previousReset ≤ u.info.previousReset :=
    hr.upto 0 (List.length_pos_iff.2 hr.nonempty)
  have hsent : Bandwidth.sentTime west u.info.previousReset r.firstStart =
      toUint64 (r.first u.info.previousReset + 60 * west) := rfl
  rw [hsent, Nat.mod_eq_of_lt (toUint64_lt _), toInt64_toUint64 (by omega) (by omega)]
  omega

/-- One address of a reply is restored, with its history. -/
theorem Inside.setSingleIpData (h : u.Inside west now) (hk : k ∈ u.maps.ipMap.keys)
    (hne : k ≠ "::") (hrule : v.info.rule = u.info.rule) {histories : StringMap BwHistory}
    (hmap : v.maps.ipHistoryMap = some histories)
    (hkept : Kept (v.info.numIntervalsToSave + 1) v.maps.ipMap histories v.maps.cells)
    (hholds : Holds b index (u.blockOf west k))
    (hfits : index + size (u.blockOf west k) < 2 ^ 32) :
    ∃ r, u.report k = some r ∧
      v.Restored k r u.info.previousReset u.info.nextReset
        (Bandwidth.setSingleIpData true west b now v index).1 ∧
      (Bandwidth.setSingleIpData true west b now v index).2 =
        index + size (u.blockOf west k) := by
  obtain ⟨hsaves, hprinted, -⟩ := h.archived.reports hk
  obtain ⟨r, hreport, hr⟩ := h.archived.exists_report hk
  obtain ⟨family, ip, hparse, rfl, hfamily⟩ := parseIp_of_printed hprinted
  have hlen : 0 < r.bws.length := List.length_pos_iff.2 hr.nonempty
  have hnext : u.info.boundaryAfter^[r.bws.length] (r.first u.info.previousReset) =
      u.info.nextReset := by
    rw [h.archived.next, ← Nat.sub_add_cancel hlen, Function.iterate_succ_apply', hr.last]
  have hblock : u.blockOf west (printIp family ip) = historyFields family ip
      (Bandwidth.sentTime west u.info.previousReset r.firstStart)
      (Bandwidth.sentTime west u.info.previousReset r.firstEnd)
      (Bandwidth.sentTime west u.info.previousReset r.lastEnd) r.bws := by
    simp only [blockOf, hparse]
    rw [ipBlock_of_report west hsaves hreport]
  have hvsaves : v.info.numIntervalsToSave = u.info.numIntervalsToSave := by
    have hfield : v.info.rule.numIntervalsToSave = u.info.rule.numIntervalsToSave := by rw [hrule]
    exact hfield
  have hboundary : v.info.boundaryAfter = u.info.boundaryAfter :=
    funext fun x => NftBandwidthInfo.boundaryAfter_of_rule hrule x
  have hbefore : ∀ i < r.bws.length,
      v.info.boundaryAfter^[i] (r.first u.info.previousReset) < now := by
    intro i hi
    rw [hboundary]
    exact (hr.upto i hi).trans_lt h.after
  have hafter : now ≤ v.info.boundaryAfter^[r.bws.length] (r.first u.info.previousReset) := by
    rw [hboundary, hnext]
    exact h.before.le
  rw [hblock] at hholds hfits ⊢
  rw [size_historyFields] at hfits
  have hrestored := setSingleIpData_restored (hvsaves ▸ hsaves) hmap hkept hholds hfamily hprinted
    hne hr.words hr.nonempty (hvsaves ▸ hr.room) (h.sentTime hr) hr.positive hbefore hafter
    (by omega)
  rw [hboundary, hnext, hr.last, replayedReport_of_rule hrule, hr.replayed] at hrestored
  exact ⟨r, hreport, hrestored⟩

/-! ### All addresses -/

/-- The rule and the running interval of `v` are those of `u`, and its maps fit
together. -/
structure Rebuilding (u v : IdUnit) : Prop where
  rule : v.info.rule = u.info.rule
  previousReset : v.info.previousReset = u.info.previousReset
  nextReset : v.info.nextReset = u.info.nextReset
  kept : ∃ histories, v.maps.ipHistoryMap = some histories ∧
    Kept (v.info.numIntervalsToSave + 1) v.maps.ipMap histories v.maps.cells

/-- All addresses of a reply are restored, one after the other. -/
theorem Inside.setBlocks (h : u.Inside west now) {ks : List String}
    (hks : ∀ k ∈ ks, k ∈ u.maps.ipMap.keys ∧ k ≠ "::") (hv : u.Rebuilding v)
    (hsorted : (v.maps.ipMap.keys ++ ks).Pairwise fun a b => sdbmStringHash a < sdbmStringHash b)
    (hholds : Holds b index (u.blocksOf west ks))
    (hfits : index + size (u.blocksOf west ks) < 2 ^ 32) :
    let v' := Bandwidth.setBlocks true west b now ks.length v index
    u.Rebuilding v' ∧ v'.maps.ipMap.keys = v.maps.ipMap.keys ++ ks ∧
      (∀ k ∈ ks, v'.report k = u.report k) ∧
      ∀ k', (∀ k ∈ ks, sdbmStringHash k' ≠ sdbmStringHash k) → v'.report k' = v.report k' := by
  induction ks generalizing v index with
  | nil =>
    refine ⟨hv, ?_, ?_, ?_⟩
    · rw [List.append_nil]
      rfl
    · intro k hk
      cases hk
    · intro k' _
      rfl
  | cons k ks ih =>
    obtain ⟨hk, hne⟩ := hks k mem_cons_self
    obtain ⟨histories, hmap, hkept⟩ := hv.kept
    obtain ⟨hdone, htodo, hcross⟩ := List.pairwise_append.1 hsorted
    obtain ⟨hhead, htail⟩ := List.pairwise_cons.1 htodo
    simp only [blocksOf, flatMap_cons] at hholds hfits
    rw [holds_append] at hholds
    rw [size_append] at hfits
    obtain ⟨r, hreport, hrestored, hindex⟩ :=
      h.setSingleIpData hk hne hv.rule hmap hkept hholds.1 (by omega)
    have hkeys := v.maps.ipMap.keys_set_of_lt (⟨0, 0⟩ : Cell)
      fun k' hk' => hcross k' hk' k mem_cons_self
    obtain ⟨histories', hmap', hkept'⟩ := hrestored.kept
    have hsaves : (Bandwidth.setSingleIpData true west b now v index).1.info.numIntervalsToSave =
        v.info.numIntervalsToSave := by
      have hfield := congrArg NftBandwidthInfo.numIntervalsToSave hrestored.rule
      exact hfield
    have hv' : u.Rebuilding (Bandwidth.setSingleIpData true west b now v index).1 :=
      ⟨hrestored.rule.trans hv.rule, hrestored.previousReset, hrestored.nextReset, histories',
        hmap', hsaves.symm ▸ hkept'⟩
    have hkeys' := hrestored.keys.trans hkeys
    obtain ⟨hrebuilt, hrest, hreports, helse⟩ := ih (fun k' hk' => hks k' (mem_cons_of_mem k hk'))
      hv' (by rw [hkeys', append_assoc]; exact hsorted) (hindex ▸ hholds.2)
      (by rw [hindex]; simp only [blocksOf]; omega)
    refine ⟨hrebuilt, ?_, fun k' hk' => ?_, fun k' hk' => ?_⟩
    · exact hrest.trans (by rw [hkeys', append_assoc]; rfl)
    · rcases List.mem_cons.1 hk' with rfl | hmem
      · rw [hreport, ← hrestored.report]
        exact helse k' fun k'' hk'' => (hhead k'' hk'').ne
      · exact hreports k' hmem
    · rw [← hrestored.elsewhere k' (hk' k mem_cons_self)]
      exact helse k' fun k'' hk'' => hk' k'' (mem_cons_of_mem k hk'')

/-- Preparing empties the maps. -/
theorem Archived.prepareSet (h : u.Archived) (header : SetHeader)
    (hzero : header.zeroUnsetIps = true) (hfirst : header.nextIpIndex = 0) :
    u.Rebuilding (Bandwidth.prepareSet header u) ∧
      (Bandwidth.prepareSet header u).maps.ipMap.keys = [] := by
  obtain ⟨histories, hmap, hkept, -⟩ := h.kept
  have hprepare : Bandwidth.prepareSet header u = clearAllIps (u.setCombinedBw none) := by
    simp only [Bandwidth.prepareSet, hzero, hfirst, and_self, if_true]
  have hinfo := prepareSet_info header u
  have hsaves : (u.setCombinedBw none).info.numIntervalsToSave > 0 := h.saves
  obtain ⟨hips, ⟨rest, hrest, hentries⟩, hload⟩ := clearAllIps_saved hsaves hmap
  have hkeys : (clearAllIps (u.setCombinedBw none)).maps.ipMap.keys = [] :=
    congrArg (List.map Prod.fst) hips
  rw [hprepare] at hinfo ⊢
  refine ⟨⟨?_, ?_, ?_, rest, hrest, ?_⟩, hkeys⟩
  · rw [hinfo]
    rfl
  · rw [hinfo]
  · rw [hinfo]
  · refine ⟨?_, ?_, ?_, ?_, ?_⟩
    · rw [hkeys, HashedMap.keys, hentries]
      rfl
    · intro k hk
      rw [HashedMap.keys, hentries] at hk
      cases hk
    · intro e he
      rw [hentries] at he
      cases he
    · intro e he
      rw [hentries] at he
      cases he
    · intro c w hw
      exact hkept.words c w (hload c w hw)

end IdUnit

/-! ### The request -/

def dumpAll (u : IdUnit) (west : ℤ) (len : ℕ) (b : ByteBuffer) : ReplyState :=
  addIpBlocks u west true len u.maps.ipMap.keys ⟨b, setHeaderLength, 0, .none⟩

def restoreHeader (u : IdUnit) (id : String) : SetHeader where
  totalIps := u.maps.ipMap.keys.length
  nextIpIndex := 0
  numIpsInBuffer := u.maps.ipMap.keys.length
  historyIncluded := true
  zeroUnsetIps := true
  lastBackup := 0
  id := id

namespace ModuleState

variable {m : ModuleState} {p : ℕ} {iam : InfoAndMaps} {u : IdUnit} {t : Tick}
  {b : ByteBuffer} {len : ℕ}

/-- A dump of the id `u` behind `p`, sent back to the module: the id has the same
addresses, each of them reports the same, a new dump is the same, and the running
interval goes on. -/
def Restores (m : ModuleState) (p : ℕ) (u : IdUnit) (b : ByteBuffer) (len : ℕ) (t : Tick) :
    Prop :=
  ∃ u', (m.nftBandwidthSetCtl (dumpAll u m.clock.localMinutesWest len b).buffer len t).unit p =
      some u' ∧
    u'.maps.ipMap.keys = u.maps.ipMap.keys ∧
    (∀ k ∈ u.maps.ipMap.keys, u'.report k = u.report k) ∧
    dumpAll u' m.clock.localMinutesWest len b = dumpAll u m.clock.localMinutesWest len b ∧
    u'.info.previousReset = u.info.previousReset ∧ u'.info.nextReset = u.info.nextReset

/-- A reply that is sent back restores the unit. -/
theorem Serves.restore (h : m.Serves p iam u) (hquiet : m.clock.Quiet t) {id : String}
    (hid : m.idMap.get id = some p)
    (hinside : u.Inside m.clock.localMinutesWest (t.now - m.clock.localSecondsWest))
    (hzero : "::" ∉ u.maps.ipMap.keys) (hheader : parseSetHeader b = restoreHeader u id)
    (hfits : setHeaderLength + size (u.blocksOf m.clock.localMinutesWest u.maps.ipMap.keys) ≤ len)
    (hlen : len < 2 ^ 32) : m.Restores p u b len t := by
  unfold Restores
  have harchived := hinside.archived
  have hdump := IdUnit.addIpBlocks_of_fits m.clock.localMinutesWest
    (fun k hk => harchived.reports hk) hlen ⟨b, setHeaderLength, 0, .none⟩ hfits
  have hbuffer : (dumpAll u m.clock.localMinutesWest len b).buffer =
      writeFields b setHeaderLength
        (u.blocksOf m.clock.localMinutesWest u.maps.ipMap.keys) :=
    congrArg ReplyState.buffer hdump
  have hparse : parseSetHeader (dumpAll u m.clock.localMinutesWest len b).buffer =
      restoreHeader u id := by
    rw [hbuffer, ← hheader]
    exact parseSetHeader_congr fun i hi => writeFields_outside _ _ _ _ (Or.inl hi)
  have hholds := holds_writeFields b setHeaderLength
    (u.blocksOf m.clock.localMinutesWest u.maps.ipMap.keys)
  rw [← hbuffer] at hholds
  generalize (dumpAll u m.clock.localMinutesWest len b).buffer = buffer at hparse hholds ⊢
  have hcount : u.maps.ipMap.keys.length < 2 ^ 32 := by
    have hread := readLE_lt 4 b 0
    have htotal := congrArg SetHeader.totalIps hheader
    have htotal' : readLE 4 b 0 = u.maps.ipMap.keys.length := htotal
    omega
  have hrounds : (restoreHeader u id).rounds = u.maps.ipMap.keys.length := by
    simp only [SetHeader.rounds, restoreHeader, addUint32, Nat.add_zero, Nat.sub_zero]
    exact Nat.mod_eq_of_lt hcount
  obtain ⟨histories, hmap, -, -⟩ := harchived.kept
  have hset := h.setCtl (b := buffer) hquiet ((Nat.le_add_right _ _).trans hfits)
    (by rw [hparse]; exact hid) (by simp [hmap]) (by rw [hparse]; rfl)
  obtain ⟨hprepared, hempty⟩ := harchived.prepareSet (restoreHeader u id) rfl rfl
  obtain ⟨hrebuilt, hkeys, hreports, -⟩ := hinside.setBlocks
    (fun k hk => ⟨hk, fun heq => hzero (heq ▸ hk)⟩) hprepared
    (by rw [hempty]; exact u.maps.ipMap.keys_sorted) hholds (by omega)
  rw [hempty, nil_append] at hkeys
  have hsame := IdUnit.SameRules.trans (IdUnit.SameRules.prepareSet (restoreHeader u id) u)
    (IdUnit.SameRules.applySet (restoreHeader u id) m.clock.localMinutesWest buffer
      (t.now - m.clock.localSecondsWest) _)
  have hunit := ((h.withClock (m.clock.tickCtl t)).write hsame).unit_eq
  have hsaves := congrArg NftBandwidthInfo.numIntervalsToSave hsame.1
  rw [hset, hparse]
  simp only [applySet, hrounds] at hunit hsaves ⊢
  refine ⟨_, hunit, hkeys, hreports, ?_, hrebuilt.previousReset, hrebuilt.nextReset⟩
  refine (congrArg (fun ks => addIpBlocks _ _ true len ks _) hkeys).trans ?_
  exact IdUnit.addIpBlocks_congr (fun k hk => harchived.reports hk) hsaves hrebuilt.previousReset
    hreports hlen _ hfits

/-- A dump of an id that packets and interval resets have led to is restored, when
it is sent back inside the same interval and has no block for `::`. -/
theorem dump_restored {es : List IdEvent} (hstart : u.Started)
    (hordered : es.Pairwise fun e e' => e.now ≤ e'.now)
    (hfrom : ∀ e ∈ es, u.info.previousReset ≤ e.now)
    (hupto : ∀ e ∈ es, e.now ≤ t.now - m.clock.localSecondsWest)
    (h : m.Serves p iam (u.handleAll es)) (id : String) (hid : m.idMap.get id = some p)
    (hquiet : m.clock.Quiet t)
    (hafter : (u.handleAll es).info.previousReset < t.now - m.clock.localSecondsWest)
    (hbefore : t.now - m.clock.localSecondsWest < (u.handleAll es).info.nextReset)
    (hzone : -2 ^ 31 ≤ m.clock.localMinutesWest) (hclock : t.now < 2 ^ 63)
    (hzero : "::" ∉ (u.handleAll es).maps.ipMap.keys)
    (hheader : parseSetHeader b = restoreHeader (u.handleAll es) id)
    (hfits : setHeaderLength + size ((u.handleAll es).blocksOf m.clock.localMinutesWest
      (u.handleAll es).maps.ipMap.keys) ≤ len)
    (hlen : len < 2 ^ 32) :
    (dumpAll (u.handleAll es) m.clock.localMinutesWest len b).error = .none ∧
      m.Restores p (u.handleAll es) b len t := by
  have hpos : 0 < t.now - m.clock.localSecondsWest := by
    cases es with
    | nil => exact hstart.positive.trans hafter
    | cons e es =>
      have hfirst := hfrom e mem_cons_self
      exact hstart.positive.trans_le (hfirst.trans (hupto e mem_cons_self))
  have harchived := hstart.archived.handleAll es hordered hfrom hupto
    (hstart.boundariesAhead es hbefore hpos)
  have hseconds : m.clock.localSecondsWest = 60 * m.clock.localMinutesWest := hquiet.2.2.1
  have hinside : (u.handleAll es).Inside m.clock.localMinutesWest
      (t.now - m.clock.localSecondsWest) :=
    ⟨harchived, hafter, hbefore, hzone, by omega⟩
  refine ⟨?_, h.restore hquiet hid hinside hzero hheader hfits hlen⟩
  have hdump := IdUnit.addIpBlocks_of_fits m.clock.localMinutesWest
    (fun k hk => harchived.reports hk) hlen ⟨b, setHeaderLength, 0, .none⟩ hfits
  exact congrArg ReplyState.error hdump

end ModuleState

end

section Minute

local instance dumpKernel : Kernel := referenceKernel 32

def savingRule (type : BandwidthType) : NftBandwidthInfo :=
  { id := "quota"
    type := type
    checkType := .noswap
    localSubnet := 0x0001a8c0
    localSubnetMask := 0x00ffffff
    localSubnet6 := ![0x000080fe, 0, 0, 0]
    localSubnet6Mask := ![0x0000ffff, 0, 0, 0]
    cmp := .gt
    resetIsConstantInterval := false
    resetInterval := bandwidthMinute
    resetTime := 0
    bandwidthCutoff := 1000000
    currentBandwidth := 0
    nextReset := 60
    previousReset := 10
    lastBackupTime := 0
    numIntervalsToSave := 2
    iam := some 0
    combinedBw := none }

def savingUnit (type : BandwidthType) : IdUnit :=
  ⟨savingRule type, none, IpMaps.initial 2⟩

theorem savingUnit_started (type : BandwidthType) : (savingUnit type).Started := by
  refine ⟨⟨?_, ?_, ?_, ?_, ?_, ?_, ?_, ?_, ?_, rfl⟩, ?_, rfl, ?_, ?_⟩
  all_goals cases type <;> decide

def moduleOf (u : IdUnit) : ModuleState :=
  { infos := fun r => if r = 0 then some u.info else none
    iams := fun q => if q = 0 then some ⟨0, .inet, none, none, 1, u.maps⟩ else none
    nextIam := 1
    idMap := HashedMap.empty.set "quota" 0
    clock := ⟨0, 0, 0, 0, 0⟩
    setInProgress := false
    setId := ""
    outputIpList := none }

theorem moduleOf_serves {u : IdUnit} (hother : u.otherInfo = none) (hiam : u.info.iam = some 0) :
    (moduleOf u).Serves 0 ⟨0, .inet, none, none, 1, u.maps⟩ u := by
  refine ⟨rfl, rfl, hother.symm, rfl, by simp, fun other info hinfo => ?_⟩
  cases other with
  | false =>
    obtain rfl := Option.some.inj hinfo
    exact hiam
  | true =>
    rw [IdUnit.record, hother] at hinfo
    cases hinfo

/-- The head of a request that restores `n` addresses. -/
def restoreRequest (n : ℕ) : ByteBuffer :=
  writeId (writeFields zeros 0 [(4, n), (4, 0), (4, n), (1, 1), (1, 1), (8, 0)]) 22 "quota"

def twoMinutes : List IdEvent :=
  [.packet false false false (.ipv4 0x0501a8c0 0x08080808 100) 20,
    .packet false false false (.ipv4 0x0501a8c0 0x08080808 30) 70,
    .packet false false false (.ipv4 0x0601a8c0 0x08080808 7) 80]

theorem twoMinutes_restored :
    ((savingUnit .individualSrc).handleAll twoMinutes).report "192.168.1.5" =
        some ⟨10, 60, 60, [100, 30]⟩ ∧
      ((savingUnit .individualSrc).handleAll twoMinutes).report "192.168.1.6" =
        some ⟨0, 0, 0, [7]⟩ ∧
      (dumpAll ((savingUnit .individualSrc).handleAll twoMinutes) 0 1000 (restoreRequest 2)).error =
        .none ∧
      (moduleOf ((savingUnit .individualSrc).handleAll twoMinutes)).Restores 0
        ((savingUnit .individualSrc).handleAll twoMinutes) (restoreRequest 2) 1000 ⟨90, 0⟩ :=
  ⟨by decide, by decide, ModuleState.dump_restored (savingUnit_started .individualSrc)
    (by decide) (by decide) (by decide) (moduleOf_serves rfl rfl) "quota" rfl
    ⟨rfl, rfl, rfl, by decide⟩ (by decide) (by decide) (by decide) (by decide) (by decide)
    (by decide) (by decide) (by decide)⟩

def afterTransit : IdUnit :=
  (savingUnit .individualLocal).handleAll
    [.packet false false false
      (.ipv6 ![0xb80d0120, 0, 0, 0x01000000] ![0xb80d0120, 0, 0, 0x02000000] 100) 20]

/-- The packet is counted for `::`, and its counter comes back as the combined
one. -/
theorem unspecified_not_restored :
    (savingUnit .individualLocal).Started ∧
      (moduleOf afterTransit).Serves 0 ⟨0, .inet, none, none, 1, afterTransit.maps⟩ afterTransit ∧
      (moduleOf afterTransit).clock.Quiet ⟨30, 0⟩ ∧
      afterTransit.info.previousReset < 30 ∧ 30 < afterTransit.info.nextReset ∧
      parseSetHeader (restoreRequest 1) = restoreHeader afterTransit "quota" ∧
      setHeaderLength + size (afterTransit.blocksOf 0 afterTransit.maps.ipMap.keys) ≤ 1000 ∧
      afterTransit.maps.ipMap.keys = ["::"] ∧
      afterTransit.report "::" = some ⟨0, 0, 0, [100]⟩ ∧
      (((moduleOf afterTransit).nftBandwidthSetCtl
        (dumpAll afterTransit 0 1000 (restoreRequest 1)).buffer 1000 ⟨30, 0⟩).unit 0).map
          (fun u' => (u'.maps.ipMap.keys, u'.report "0.0.0.0")) =
        some (["0.0.0.0"], some ⟨0, 0, 0, [100]⟩) ∧
      ¬ (moduleOf afterTransit).Restores 0 afterTransit (restoreRequest 1) 1000 ⟨30, 0⟩ := by
  refine ⟨savingUnit_started _, moduleOf_serves rfl rfl, ⟨rfl, rfl, rfl, by decide⟩, by decide,
    by decide, by decide, by decide, by decide, by decide, by decide, ?_⟩
  rintro ⟨u', hunit, hkeys, -⟩
  have hafter : (((moduleOf afterTransit).nftBandwidthSetCtl
      (dumpAll afterTransit 0 1000 (restoreRequest 1)).buffer 1000 ⟨30, 0⟩).unit 0).map
        (fun u' => u'.maps.ipMap.keys) = some ["0.0.0.0"] := by
    decide
  have hunit' : ((moduleOf afterTransit).nftBandwidthSetCtl
      (dumpAll afterTransit 0 1000 (restoreRequest 1)).buffer 1000 ⟨30, 0⟩).unit 0 = some u' :=
    hunit
  rw [hunit', Option.map_some, hkeys] at hafter
  exact absurd hafter (by decide)

end Minute

end Bandwidth

end Gargoyle
