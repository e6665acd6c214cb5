import Gargoyle.Bandwidth.SetCounters
import Gargoyle.Bandwidth.SharedId
import Gargoyle.Bwctl.SetData

/-!
# A set in several requests

While `set_bandwidth_data` sends the data of an id, packets are evaluated between
its requests. The match functions mean to ignore packets of the id that is being
set, but `set_id`, which they compare with, is never written. As long as the
packets belong to other ids, the id has the counters of the data when the last
request has been served (`set_isolated`).
-/

namespace Gargoyle

open List

namespace Bwctl

open Bandwidth ByteBuffer

/-- What happens while an id is being set: a request is served, or a packet is
evaluated with the rule `r`. -/
inductive SetEvent
  | chunk (b : ByteBuffer) (t : Tick)
  | packet (r : ℕ) (t : Tick) (pkt : Packet)

namespace SetEvent

def tick : SetEvent → Tick
  | .chunk _ t => t
  | .packet _ t _ => t

def request : SetEvent → Option ByteBuffer
  | .chunk b _ => some b
  | .packet _ _ _ => none

end SetEvent

/-! ## The data as blocks -/

def IpBw.ipBlock (d : IpBw) : IpBlock := .counter d.family.toNat d.ip d.bw.toNat

/-- The block of a history that is sent at the time `now`. -/
def IpBwHistory.ipBlock (minutesWest : ℤ → ℤ) (now : ℤ) (d : IpBwHistory) : IpBlock :=
  .history d.family.toNat d.ip (sentHistoryTime minutesWest now d.firstStart)
    (sentHistoryTime minutesWest now d.firstEnd) (sentHistoryTime minutesWest now d.lastEnd)
    (d.historyBws.map BitVec.toNat)

/-- The blocks of the data; `clock i` is the time when block `i` is made. -/
def SetData.ipBlocks (minutesWest : ℤ → ℤ) (clock : ℕ → ℤ) : SetData → List IpBlock
  | .counters data => data.map IpBw.ipBlock
  | .histories data => data.zipIdx.map fun e => e.1.ipBlock minutesWest (clock e.2)

theorem SetData.map_fields_ipBlocks (minutesWest : ℤ → ℤ) (clock : ℕ → ℤ) (data : SetData) :
    (data.ipBlocks minutesWest clock).map IpBlock.fields = data.blocks minutesWest clock := by
  cases data with
  | counters data =>
    rw [ipBlocks, map_map]
    rfl
  | histories data =>
    rw [ipBlocks, map_map]
    rfl

theorem SetData.hasHistory_of_mem {minutesWest : ℤ → ℤ} {clock : ℕ → ℤ} {data : SetData}
    {block : IpBlock} (h : block ∈ data.ipBlocks minutesWest clock) :
    block.hasHistory = data.setHistory := by
  cases data with
  | counters data =>
    obtain ⟨d, -, rfl⟩ := List.mem_map.1 h
    rfl
  | histories data =>
    obtain ⟨d, -, rfl⟩ := List.mem_map.1 h
    rfl

/-! ## The clock -/

/-- The clock `c` has been looked at, at the time `t`, and has become `c'`. -/
structure Ticked (c : Clock) (t : Tick) (c' : Clock) : Prop where
  old : c'.oldMinutesWest = c.oldMinutesWest
  west : c'.localMinutesWest = c.localMinutesWest
  seconds : c'.localSecondsWest = c.localSecondsWest
  check : c'.backwardsCheck = c.backwardsCheck ∨ c'.backwardsCheck = t.now

theorem ticked_refl (c : Clock) (t : Tick) : Ticked c t c := ⟨rfl, rfl, rfl, Or.inl rfl⟩

theorem ticked_tick (c : Clock) (t : Tick) : Ticked c t (c.tick t) := by
  unfold Clock.tick
  split_ifs
  · exact ticked_refl c t
  · exact ⟨rfl, rfl, rfl, Or.inr rfl⟩

theorem ticked_tickCtl (c : Clock) (t : Tick) : Ticked c t (c.tickCtl t) :=
  ⟨rfl, rfl, rfl, Or.inr rfl⟩

theorem Ticked.steady {c c' : Clock} {t : Tick} {ts : List Tick} (h : Ticked c t c')
    (hsteady : c.Steady (t :: ts)) : c'.Steady ts := by
  obtain ⟨hhead, htail⟩ := List.pairwise_cons.1 hsteady.ordered
  refine ⟨?_, ?_, fun t' ht' => ?_, fun t' ht' => ?_, htail⟩
  · rw [h.west, h.old, hsteady.zone]
  · rw [h.seconds, h.west, hsteady.seconds]
  · rw [h.old]
    exact hsteady.west t' (mem_cons_of_mem t ht')
  · rcases h.check with hcheck | hcheck
    · rw [hcheck]
      exact hsteady.ahead t' (mem_cons_of_mem t ht')
    · rw [hcheck]
      exact hhead t' ht'

section

variable [Kernel]

/-! ## Steps -/

def step (m : ModuleState) : SetEvent → ModuleState
  | .chunk b t => m.nftBandwidthSetCtl b bandwidthQueryLength t
  | .packet r t pkt => (m.bandwidthEval r t pkt).1

def run (m : ModuleState) (es : List SetEvent) : ModuleState := es.foldl step m

/-- A packet that is evaluated with the rule `r` is for another id than the one
behind `p`. -/
def OtherId (m : ModuleState) (p r : ℕ) : Prop :=
  ∀ priv, m.infos r = some priv →
    (priv.cmp = .check → ∀ q, m.idMap.get priv.id = some q →
      q ≠ p ∧ ∃ iam w, m.Serves q iam w) ∧
    (priv.cmp ≠ .check → ∃ q iam w other, q ≠ p ∧ m.Serves q iam w ∧
      iam.ruleOf other = some r)

section Step

variable {m : ModuleState} {p : ℕ} {iam : InfoAndMaps} {u u' : IdUnit}

theorem serves_of_same {m' : ModuleState} (h : m.Serves p iam u) (hinfos : m'.infos = m.infos)
    (hiams : m'.iams = m.iams) : m'.Serves p iam u :=
  ⟨hiams ▸ h.iam_eq, hinfos ▸ h.info_eq, hinfos ▸ h.other_eq, h.maps_eq, h.distinct, h.back⟩

theorem OtherId.of_same {r : ℕ} {m' : ModuleState} (h : OtherId m p r)
    (hinfos : m'.infos = m.infos) (hiams : m'.iams = m.iams) (hids : m'.idMap = m.idMap) :
    OtherId m' p r := by
  intro priv hpriv
  obtain ⟨hcheck, hcount⟩ := h priv (hinfos ▸ hpriv)
  refine ⟨fun hcmp q hq => ?_, fun hcmp => ?_⟩
  · obtain ⟨hne, iam, w, hserves⟩ := hcheck hcmp q (hids ▸ hq)
    exact ⟨hne, iam, w, serves_of_same hserves hinfos hiams⟩
  · obtain ⟨q, iam, w, other, hne, hserves, hrule⟩ := hcount hcmp
    exact ⟨q, iam, w, other, hne, serves_of_same hserves hinfos hiams, hrule⟩

theorem rule_of_write (h : m.Serves p iam u) (hsame : u.SameRules u') {r : ℕ}
    {priv' : NftBandwidthInfo} (hpriv : (m.write p iam u').infos r = some priv') :
    ∃ priv, m.infos r = some priv ∧ priv'.rule = priv.rule := by
  rw [ModuleState.write_infos] at hpriv
  split_ifs at hpriv with hinfo hother
  · obtain rfl := Option.some.inj hpriv
    exact ⟨u.info, hinfo ▸ h.info_eq, hsame.1⟩
  · obtain ⟨o, ho, hrule⟩ := IdUnit.Agree.exists_record hsame
      (show u'.record true = some priv' from hpriv)
    exact ⟨o, (h.record_eq (show iam.ruleOf true = some r from hother.1)).trans ho, hrule⟩
  · exact ⟨priv', hpriv, rfl⟩

theorem OtherId.write {r q : ℕ} (h : OtherId m q r) (hserves : m.Serves p iam u)
    (hsame : u.SameRules u') : OtherId (m.write p iam u') q r := by
  intro priv' hpriv'
  obtain ⟨priv, hpriv, hrule⟩ := rule_of_write hserves hsame hpriv'
  have hcmp : priv'.cmp = priv.cmp := by
    have hfield : priv'.rule.cmp = priv.rule.cmp := by rw [hrule]
    exact hfield
  have hid : priv'.id = priv.id := by
    have hfield : priv'.rule.id = priv.rule.id := by rw [hrule]
    exact hfield
  have hids : (m.write p iam u').idMap = m.idMap :=
    (ModuleState.registered_write m p iam u').2.1
  obtain ⟨hcheck, hcount⟩ := h priv hpriv
  rw [hcmp, hid, hids]
  refine ⟨fun hc q' hq' => ?_, fun hc => ?_⟩
  · obtain ⟨hne, iam', w, hw⟩ := hcheck hc q' hq'
    obtain ⟨iam'', w', hw', -⟩ := hserves.serves_write hsame hw
    exact ⟨hne, iam'', w', hw'⟩
  · obtain ⟨q', iam', w, other, hne, hw, hr⟩ := hcount hc
    obtain ⟨iam'', w', hw', hrules⟩ := hserves.serves_write hsame hw
    exact ⟨q', iam'', w', other, hne, hw', (hrules other).trans hr⟩

structure GoesOn (p : ℕ) (m : ModuleState) (t : Tick) (m' : ModuleState) : Prop where
  ids : m'.idMap = m.idMap
  clock : Ticked m.clock t m'.clock
  others : ∀ r, OtherId m p r → OtherId m' p r

theorem goesOn_of_write {t : Tick} {c : Clock} (hclock : Ticked m.clock t c) {q : ℕ}
    {iam' : InfoAndMaps} {w w' : IdUnit} (h : m.Serves q iam' w) (hsame : w.SameRules w')
    {m' : ModuleState}
    (hinfos : m'.infos = (({ m with clock := c } : ModuleState).write q iam' w').infos)
    (hiams : m'.iams = (({ m with clock := c } : ModuleState).write q iam' w').iams)
    (hids : m'.idMap = (({ m with clock := c } : ModuleState).write q iam' w').idMap)
    (hc : m'.clock = (({ m with clock := c } : ModuleState).write q iam' w').clock) :
    GoesOn p m t m' := by
  obtain ⟨-, hreg, hreg', -⟩ :=
    ModuleState.registered_write ({ m with clock := c } : ModuleState) q iam' w'
  refine ⟨hids.trans hreg, (hc.trans hreg') ▸ hclock, fun r hr => ?_⟩
  have hticked : OtherId ({ m with clock := c } : ModuleState) p r := hr.of_same rfl rfl rfl
  exact (hticked.write (h.withClock c) hsame).of_same hinfos hiams hids

/-- A packet of another id leaves the unit. -/
theorem packet_step (h : m.Serves p iam u) {r : ℕ} {t : Tick} (hquiet : m.clock.Quiet t)
    (hother : OtherId m p r) (pkt : Packet) :
    (step m (.packet r t pkt)).Serves p iam u ∧ GoesOn p m t (step m (.packet r t pkt)) := by
  -- the rule is evaluated for an id `q`
  have hevaluated : ∀ {q iam' w other r'}, q ≠ p → m.Serves q iam' w →
      iam'.ruleOf other = some r' → ∀ ips family len isCheck now,
      (({ m with clock := m.clock.tick t } : ModuleState).evaluate r' ips family len isCheck
        now).1.Serves p iam u ∧
      GoesOn p m t (({ m with clock := m.clock.tick t } : ModuleState).evaluate r' ips family len
        isCheck now).1 := by
    intro q iam' w other r' hne hw hr' ips family len isCheck now
    have hsame := IdUnit.SameRules.evaluate w other ips family len isCheck now
    have hw' := hw.withClock (m.clock.tick t)
    rw [hw'.evaluate_eq_write hr']
    exact ⟨hw'.write_other (h.withClock _) hne.symm hsame,
      goesOn_of_write (ticked_tick m.clock t) hw hsame rfl rfl rfl rfl⟩
  have hticked : (({ m with clock := m.clock.tick t } : ModuleState)).Serves p iam u ∧
      GoesOn p m t { m with clock := m.clock.tick t } :=
    ⟨h.withClock _, rfl, ticked_tick m.clock t, fun r hr => hr.of_same rfl rfl rfl⟩
  have hunchanged : m.Serves p iam u ∧ GoesOn p m t m :=
    ⟨h, rfl, ticked_refl m.clock t, fun r hr => hr⟩
  simp only [step]
  rw [ModuleState.bandwidthEval_eq, ModuleState.bandwidthMt]
  cases hpriv : m.infos r with
  | none => exact hunchanged
  | some priv =>
    obtain ⟨hcheck, hcount⟩ := hother priv hpriv
    simp only [ModuleState.timeChecks_of_quiet m hquiet]
    split_ifs with hguard hcmp
    · exact hunchanged
    · cases hiam : (m.idMap.get priv.id).bind m.iams with
      | none => exact hticked
      | some iam' =>
        obtain ⟨q, hq, hiam'⟩ := Option.bind_eq_some_iff.1 hiam
        obtain ⟨hne, iam'', w, hw⟩ := hcheck hcmp q hq
        obtain rfl : iam'' = iam' := Option.some.inj (hw.iam_eq.symm.trans hiam')
        exact hevaluated hne hw (show iam''.ruleOf false = some iam''.info from rfl) _ _ _ _ _
    · obtain ⟨q, iam', w, other, hne, hw, hr⟩ := hcount hcmp
      exact hevaluated hne hw hr _ _ _ _ _

theorem chunk_step (h : m.Serves p iam u) (hlaid : u.Laid) {b : ByteBuffer} {t : Tick}
    (hquiet : m.clock.Quiet t) (hid : m.idMap.get (parseSetHeader b).id = some p)
    (haccepted : backupRejected (parseSetHeader b) m.clock.localMinutesWest u.info = false) :
    ∃ iam', (step m (.chunk b t)).Serves p iam'
        (applySet (parseSetHeader b) m.clock.localMinutesWest b
          (t.now - m.clock.localSecondsWest) (prepareSet (parseSetHeader b) u)) ∧
      GoesOn p m t (step m (.chunk b t)) := by
  have hsame := (IdUnit.SameRules.prepareSet (parseSetHeader b) u).trans
    (IdUnit.SameRules.applySet (parseSetHeader b) m.clock.localMinutesWest b
      (t.now - m.clock.localSecondsWest) _)
  have hmaps : ¬ (u.info.numIntervalsToSave > 0 ∧ u.maps.ipHistoryMap.isNone) := by
    rintro ⟨hsaves, hnone⟩
    exact hsaves.ne' (hlaid.saved.1 (Option.isNone_iff_eq_none.1 hnone))
  have hset := h.setCtl hquiet (show setHeaderLength ≤ bandwidthQueryLength by decide) hid hmaps
    haccepted
  simp only [step]
  rw [hset]
  refine ⟨_, serves_of_same ((h.withClock (m.clock.tickCtl t)).write hsame) rfl rfl, ?_⟩
  exact goesOn_of_write (ticked_tickCtl m.clock t) h hsame rfl rfl rfl rfl

end Step

/-! ## Runs -/

/-- No packet of a run changes the id behind `p`. -/
def Unaffected (p : ℕ) (m : ModuleState) (es : List SetEvent) : Prop :=
  ∀ before r t pkt after, es = before ++ SetEvent.packet r t pkt :: after →
    (run m (before ++ [.packet r t pkt])).unit p = (run m before).unit p

section Run

variable {m : ModuleState} {p : ℕ} {iam : InfoAndMaps} {u u' : IdUnit} {e : SetEvent}
  {es : List SetEvent}

theorem unaffected_cons
    (hstep : ∀ r t pkt, e = .packet r t pkt → (step m e).unit p = m.unit p)
    (hrest : Unaffected p (step m e) es) : Unaffected p m (e :: es) := by
  intro before r t pkt after hsplit
  cases before with
  | nil =>
    obtain ⟨rfl, -⟩ := List.cons.inj hsplit
    exact hstep r t pkt rfl
  | cons e' before =>
    obtain ⟨rfl, hsplit'⟩ := List.cons.inj hsplit
    exact hrest before r t pkt after hsplit'

theorem OtherId.tail {m' : ModuleState} {t : Tick} (h : ∀ r t pkt, .packet r t pkt ∈ e :: es →
      OtherId m p r) (hgoes : GoesOn p m t m') :
    ∀ r t pkt, .packet r t pkt ∈ es → OtherId m' p r :=
  fun r t pkt hmem => hgoes.others r (h r t pkt (mem_cons_of_mem e hmem))

theorem run_of_packets (h : m.Serves p iam u) (hes : es.filterMap SetEvent.request = [])
    (hsteady : m.clock.Steady (es.map SetEvent.tick))
    (hother : ∀ r t pkt, .packet r t pkt ∈ es → OtherId m p r) :
    Unaffected p m es ∧ (run m es).Serves p iam u := by
  induction es generalizing m with
  | nil => exact ⟨fun before _ _ _ _ hsplit => by simp at hsplit, h⟩
  | cons e es ih =>
    cases e with
    | chunk b t => simp [SetEvent.request] at hes
    | packet r t pkt =>
      have hquiet : m.clock.Quiet t := hsteady.quiet
      obtain ⟨hserves, hgoes⟩ := packet_step h hquiet (hother r t pkt mem_cons_self) pkt
      obtain ⟨hrest, hrun⟩ := ih hserves hes (hgoes.clock.steady hsteady)
        (OtherId.tail hother hgoes)
      refine ⟨unaffected_cons (fun _ _ _ _ => ?_) hrest, hrun⟩
      rw [hserves.unit_eq, h.unit_eq]

theorem backupRejected_of_holding {counters : StringMap ℕ} (h : u.Holding counters u')
    (hsame : u.SameRules u') (header : SetHeader) (west : ℤ) :
    backupRejected header west u'.info = backupRejected header west u.info := by
  have hsaves := hsame.saves
  have hconstant : u'.info.rule.resetIsConstantInterval = u.info.rule.resetIsConstantInterval := by
    rw [hsame.1]
  have hconstant' : u'.info.resetIsConstantInterval = u.info.resetIsConstantInterval := hconstant
  have htime : u'.info.rule.resetTime = u.info.rule.resetTime := by rw [hsame.1]
  have htime' : u'.info.resetTime = u.info.resetTime := htime
  simp only [backupRejected, hsaves, hconstant', htime', getNextResetTime_of_rule hsame.1]
  by_cases hzero : u.info.numIntervalsToSave = 0
  · rw [h.next hzero]
  · simp [hzero]

def SetArguments.startCounters (args : SetArguments) (next : ℕ) (counters : StringMap ℕ) :
    StringMap ℕ :=
  if args.zeroUnset ∧ next = 0 then HashedMap.empty else counters

variable {args : SetArguments} {total next : ℕ} {blocks : List IpBlock}

theorem startCounters_setCounters (args : SetArguments) (next : ℕ) (blocks : List IpBlock)
    (counters : StringMap ℕ) :
    args.startCounters (next + blocks.length)
        (setCounters blocks (args.startCounters next counters)) =
      setCounters blocks (args.startCounters next counters) := by
  unfold SetArguments.startCounters
  split_ifs with hfirst hnext hnext
  · obtain rfl : blocks = [] := List.length_eq_zero_iff.1 (by omega)
    rfl
  · exact absurd ⟨hfirst.1, by omega⟩ hnext
  · rfl
  · rfl

/-- A request sets its addresses. -/
theorem request_step (h : m.Serves p iam u) (hlaid : u.Laid) {b : ByteBuffer} {t : Tick}
    (hquiet : m.clock.Quiet t) (hid : m.idMap.get (sentId args.id) = some p)
    (hcarries : args.Carries total next (blocks.map IpBlock.fields) b)
    (hcount : next + blocks.length < 2 ^ 32)
    (hkind : ∀ block ∈ blocks, block.hasHistory = args.data.setHistory)
    (haccepted : ∀ header : SetHeader, header.lastBackup = toInt64 (toUint64 args.lastBackup) →
      backupRejected header m.clock.localMinutesWest u.info = false)
    (hsettles : ∀ block ∈ blocks,
      block.Settles u.info m.clock.localMinutesWest (t.now - m.clock.localSecondsWest)) :
    ∃ iam' u', (step m (.chunk b t)).Serves p iam' u' ∧ GoesOn p m t (step m (.chunk b t)) ∧
      u.SameRules u' ∧
      u.Holding (setCounters blocks (args.startCounters next u.counters)) u' := by
  have hheader := hcarries.header
  rw [length_map] at hheader
  have hlength : bandwidthQueryLength = 16384 := rfl
  have hfits := hcarries.fits
  have hrounds : (parseSetHeader b).rounds = blocks.length := by
    rw [hheader]
    simp only [SetHeader.rounds, addUint32]
    omega
  have hhistory : (parseSetHeader b).historyIncluded = args.data.setHistory := by rw [hheader]
  have hstart : (parseSetHeader b).startCounters u.counters =
      args.startCounters next u.counters := by
    rw [hheader]
    rfl
  obtain ⟨iam', hserves, hgoes⟩ := chunk_step h hlaid hquiet (by rw [hheader]; exact hid)
    (haccepted _ (by rw [hheader]))
  have hset := hlaid.applySet hrounds (hhistory.symm ▸ hkind) hsettles hcarries.holds (by omega)
  rw [hstart] at hset
  exact ⟨iam', _, hserves, hgoes, (IdUnit.SameRules.prepareSet _ u).trans
    (IdUnit.SameRules.applySet _ _ b _ _), hset⟩

/-- The requests of a set and packets for other ids. -/
theorem run_of_sends {bs : List ByteBuffer} (htotal : total < 2 ^ 32) (h : m.Serves p iam u)
    (hlaid : u.Laid) (hid : m.idMap.get (sentId args.id) = some p)
    {sent : List (List (ℕ × ℕ))} (hsends : args.Sends total next sent bs)
    (hsent : blocks.map IpBlock.fields = sent) (hcount : next + blocks.length = total)
    (hes : es.filterMap SetEvent.request = bs)
    (hkind : ∀ block ∈ blocks, block.hasHistory = args.data.setHistory)
    (hsteady : m.clock.Steady (es.map SetEvent.tick))
    (hother : ∀ r t pkt, .packet r t pkt ∈ es → OtherId m p r)
    (haccepted : ∀ header : SetHeader, header.lastBackup = toInt64 (toUint64 args.lastBackup) →
      backupRejected header m.clock.localMinutesWest u.info = false)
    (hsettles : ∀ b t, .chunk b t ∈ es → ∀ block ∈ blocks,
      block.Settles u.info m.clock.localMinutesWest (t.now - m.clock.localSecondsWest)) :
    Unaffected p m es ∧ ∃ iam' u', (run m es).Serves p iam' u' ∧
      u'.counters = setCounters blocks (args.startCounters next u.counters) := by
  induction es generalizing m iam u next blocks sent bs with
  | nil =>
    obtain rfl : bs = [] := hes.symm
    cases hsends
  | cons e es ih =>
    cases e with
    | packet r t pkt =>
      have hquiet : m.clock.Quiet t := hsteady.quiet
      obtain ⟨hserves, hgoes⟩ := packet_step h hquiet (hother r t pkt mem_cons_self) pkt
      obtain ⟨hrest, hrun⟩ := ih hserves hlaid (hgoes.ids.symm ▸ hid) hsends hsent hcount
        hes hkind (hgoes.clock.steady hsteady)
        (OtherId.tail hother hgoes) (hgoes.clock.west.symm ▸ haccepted)
        (by
          rw [hgoes.clock.west, hgoes.clock.seconds]
          exact fun b t' hmem => hsettles b t' (mem_cons_of_mem _ hmem))
      refine ⟨unaffected_cons (fun _ _ _ _ => ?_) hrest, hrun⟩
      rw [hserves.unit_eq, h.unit_eq]
    | chunk b t =>
      have hquiet : m.clock.Quiet t := hsteady.quiet
      have hbs : b :: es.filterMap SetEvent.request = bs := hes
      cases hsends with
      | last hcarries =>
        obtain ⟨rfl, hrest⟩ := List.cons.inj hbs
        subst hsent
        obtain ⟨iam', u', hserves, hgoes, -, hholding⟩ := request_step h hlaid hquiet hid
          hcarries (hcount ▸ htotal) hkind haccepted (hsettles b t mem_cons_self)
        obtain ⟨hafter, hrun⟩ := run_of_packets hserves hrest (hgoes.clock.steady hsteady)
          (OtherId.tail hother hgoes)
        exact ⟨unaffected_cons (fun _ _ _ hpacket => by cases hpacket) hafter, iam', u', hrun,
          hholding.counters⟩
      | more hcarries hsends' =>
        obtain ⟨rfl, hrest⟩ := List.cons.inj hbs
        obtain ⟨now, later, rfl, rfl, rfl⟩ := List.map_eq_append_iff.1 hsent
        rw [length_append] at hcount
        rw [length_map] at hsends'
        obtain ⟨iam', u', hserves, hgoes, hsame, hholding⟩ := request_step h hlaid hquiet hid
          hcarries (by omega) (fun block hblock => hkind block (mem_append_left _ hblock))
          haccepted
          (fun block hblock => hsettles b t mem_cons_self block
            (mem_append_left _ hblock))
        obtain ⟨hafter, iam'', u'', hrun, hcounters⟩ := ih hserves hholding.laid
          (hgoes.ids.symm ▸ hid) hsends' rfl (by omega) hrest
          (fun block hblock => hkind block (mem_append_right _ hblock))
          (hgoes.clock.steady hsteady) (OtherId.tail hother hgoes)
          (fun header hheader => by
            rw [hgoes.clock.west, backupRejected_of_holding hholding hsame]
            exact haccepted header hheader)
          (fun b' t' hmem block hblock => by
            rw [hgoes.clock.west, hgoes.clock.seconds]
            exact (hsettles b' t' (mem_cons_of_mem _ hmem) block
              (mem_append_right _ hblock)).of_rule hsame.1)
        refine ⟨unaffected_cons (fun _ _ _ hpacket => by cases hpacket) hafter, iam'', u'', hrun,
          ?_⟩
        rw [hcounters, hholding.counters, startCounters_setCounters, setCounters,
          setCounters, setCounters, foldl_append]

/-- In every run in which the requests of a set are served and all packets belong
to other ids, no packet changes the id, and in the end it has the counters of the
data. -/
theorem set_isolated (h : m.Serves p iam u) (hlaid : u.Laid)
    (hid : m.idMap.get (sentId args.id) = some p) (minutesWest : ℤ → ℤ) (clock : ℕ → ℤ)
    (htotal : (args.data.ipBlocks minutesWest clock).length < 2 ^ 32)
    (hfits : ∀ block ∈ args.data.ipBlocks minutesWest clock,
      setHeaderLength + size block.fields ≤ bandwidthQueryLength)
    (hset : setBandwidthData minutesWest clock args = some (es.filterMap SetEvent.request))
    (hsteady : m.clock.Steady (es.map SetEvent.tick))
    (hother : ∀ r t pkt, .packet r t pkt ∈ es → OtherId m p r)
    (haccepted : ∀ header : SetHeader, header.lastBackup = toInt64 (toUint64 args.lastBackup) →
      backupRejected header m.clock.localMinutesWest u.info = false)
    (hsettles : ∀ b t, .chunk b t ∈ es → ∀ block ∈ args.data.ipBlocks minutesWest clock,
      block.Settles u.info m.clock.localMinutesWest (t.now - m.clock.localSecondsWest)) :
    Unaffected p m es ∧ ∃ u', (run m es).unit p = some u' ∧
      u'.counters = setCounters (args.data.ipBlocks minutesWest clock)
        (args.startCounters 0 u.counters) := by
  have hblocks := args.data.map_fields_ipBlocks minutesWest clock
  have hlength : (args.data.blocks minutesWest clock).length =
      (args.data.ipBlocks minutesWest clock).length := by
    rw [← hblocks, length_map]
  have hcount : args.totalIps = (args.data.blocks minutesWest clock).length := by
    rw [hlength]
    rw [← Nat.mod_eq_of_lt htotal]
    unfold SetArguments.totalIps SetData.ipBlocks
    cases args.data with
    | counters data => simp
    | histories data => simp
  have hsends := requests_sends args (hcount.trans hlength ▸ htotal)
    (by rw [Nat.zero_add, hcount])
    (by
      intro block hblock
      rw [← hblocks] at hblock
      obtain ⟨block, hmem, rfl⟩ := List.mem_map.1 hblock
      exact hfits block hmem)
    (show (args.data.blocks minutesWest clock).length < args.totalIps + 1 by omega)
  obtain ⟨bs, hbs, hsends⟩ := hsends
  rw [setBandwidthData, hcount, take_length, ← hcount, hbs] at hset
  obtain ⟨hunaffected, iam', u', hserves, hcounters⟩ := run_of_sends
    (hcount.trans hlength ▸ htotal) h hlaid hid hsends hblocks
    (by rw [Nat.zero_add, hcount, hlength]) (Option.some.inj hset).symm
    (fun block hblock => SetData.hasHistory_of_mem hblock) hsteady hother haccepted hsettles
  exact ⟨hunaffected, u', hserves.unit_eq, hcounters⟩

end Run

end

/-! ## Two hosts in two requests -/

section TwoHosts

local instance setRunKernel : Kernel := referenceKernel 32

theorem writeLE_zero {b : ByteBuffer} {off : ℕ} (h : ∀ i, off ≤ i → b i = 0) (w : ℕ) :
    writeLE w b off 0 = b := by
  induction w generalizing off with
  | zero => rfl
  | succ w ih =>
    have hbyte : b.writeByte off (UInt8.ofNat 0) = b := by
      funext i
      by_cases hi : i = off
      · simp [writeByte, hi, h off le_rfl]
      · exact writeByte_of_ne b _ hi
    rw [writeLE, hbyte]
    exact ih fun i hi => h i (by omega)

theorem writeFields_zeros {b : ByteBuffer} {off : ℕ} (h : ∀ i, off ≤ i → b i = 0) (n : ℕ) :
    writeFields b off (List.replicate n (8, 0)) = b := by
  induction n generalizing off with
  | zero => rfl
  | succ n ih =>
    rw [replicate_succ, writeFields, writeLE_zero h]
    exact ih fun i hi => h i (by omega)

def idleIntervals : ℕ := 1014

def idleHistory (host : BitVec 32) : IpBwHistory where
  family := 2
  ip := ![host, 0, 0, 0]
  resetInterval := 0
  resetTime := 0
  isConstantInterval := false
  firstStart := 0
  firstEnd := 0
  lastEnd := 0
  historyBws := List.replicate idleIntervals 0

/-- The counters of `192.168.1.5` and `192.168.1.6` are set to zero. -/
def twoHosts : SetArguments where
  id := "quota"
  zeroUnset := true
  lastBackup := 0
  data := .histories [idleHistory 0x0501a8c0, idleHistory 0x0601a8c0]

def hostRequest (host : BitVec 32) (next : ℕ) : ByteBuffer :=
  writeFields (writeId (writeFields zeros setHeaderLength
    (ipFields 2 ![host, 0, 0, 0] ++ [(4, idleIntervals), (8, 0), (8, 0), (8, 0)])) 22 "quota") 0
    (twoHosts.head 2 next 1)

theorem writeFields_idleHistory (host : BitVec 32) :
    writeFields zeros setHeaderLength ((idleHistory host).block (fun _ => 0) 0) =
      writeFields zeros setHeaderLength
        (ipFields 2 ![host, 0, 0, 0] ++ [(4, idleIntervals), (8, 0), (8, 0), (8, 0)]) := by
  have hblock : (idleHistory host).block (fun _ => 0) 0 =
      (ipFields 2 ![host, 0, 0, 0] ++ [(4, idleIntervals), (8, 0), (8, 0), (8, 0)]) ++
        List.replicate idleIntervals (8, 0) := by
    simp only [IpBwHistory.block, idleHistory, historyFields, map_replicate,
      length_replicate]
    rfl
  rw [hblock, writeFields_append]
  exact writeFields_zeros (fun i hi => writeFields_outside _ _ _ _ (Or.inr hi)) idleIntervals

theorem size_idleHistory (host : BitVec 32) :
    size ((idleHistory host).block (fun _ => 0) 0) = 8160 := by
  rw [IpBwHistory.block, size_historyFields, length_map, idleHistory, length_replicate]
  rfl

theorem request_idleHistory (host : BitVec 32) (next : ℕ) {rest : List (List (ℕ × ℕ))}
    (hrest : ∀ block ∈ rest, size block = 8160) :
    twoHosts.request 2 next ((idleHistory host).block (fun _ => 0) 0 :: rest) =
      (hostRequest host next, 1) := by
  have hfirst : setIpBlock ((idleHistory host).block (fun _ => 0) 0) zeros setHeaderLength =
      some (writeFields zeros setHeaderLength ((idleHistory host).block (fun _ => 0) 0), 8232) := by
    rw [setIpBlock, size_idleHistory]
    rfl
  have hfull : ∀ b num, fillRequest rest b 8232 num = (b, num) := by
    intro b num
    cases rest with
    | nil => rfl
    | cons block rest =>
      rw [fillRequest, setIpBlock, hrest block mem_cons_self]
      rfl
  rw [SetArguments.request, fillRequest, hfirst]
  simp only [hfull, writeFields_idleHistory]
  rfl

theorem setBandwidthData_twoHosts :
    setBandwidthData (fun _ => 0) (fun _ => 0) twoHosts =
      some [hostRequest 0x0501a8c0 0, hostRequest 0x0601a8c0 1] := by
  have hblocks : (twoHosts.data.blocks (fun _ => 0) (fun _ => 0)).take 2 =
      [(idleHistory 0x0501a8c0).block (fun _ => 0) 0,
        (idleHistory 0x0601a8c0).block (fun _ => 0) 0] := rfl
  have hfirst : twoHosts.request 2 0 [(idleHistory 0x0501a8c0).block (fun _ => 0) 0,
      (idleHistory 0x0601a8c0).block (fun _ => 0) 0] = (hostRequest 0x0501a8c0 0, 1) := by
    refine request_idleHistory _ 0 fun block hblock => ?_
    rw [List.mem_singleton.1 hblock, size_idleHistory]
  have hsecond : twoHosts.request 2 1 [(idleHistory 0x0601a8c0).block (fun _ => 0) 0] =
      (hostRequest 0x0601a8c0 1, 1) :=
    request_idleHistory _ 1 fun block hblock => absurd hblock not_mem_nil
  change twoHosts.requests 2 3 0 ((twoHosts.data.blocks (fun _ => 0) (fun _ => 0)).take 2) = _
  rw [hblocks]
  simp only [SetArguments.requests, hfirst, Nat.zero_add, ge_iff_le, Nat.reduceLeDiff, if_false,
    drop_succ_cons, drop_zero, hsecond]
  rfl

/-- The module with a rule for the id `quota`, and one for another id. -/
def twoQuotas : ModuleState :=
  let m := ModuleState.init ⟨10, 0⟩
  let m₁ := (m.nftBandwidthInit 0 .ipv4 minuteRule ⟨10, 0⟩).getD m
  (m₁.nftBandwidthInit 1 .ipv4 { minuteRule with id := "other" } ⟨10, 0⟩).getD m₁

/-- A packet of `192.168.1.5` between the two requests. -/
def packetBetween (r : ℕ) : List SetEvent :=
  [.chunk (hostRequest 0x0501a8c0 0) ⟨20, 0⟩,
    .packet r ⟨25, 0⟩ (.ipv4 0x0501a8c0 0x08080808 100),
    .chunk (hostRequest 0x0601a8c0 1) ⟨30, 0⟩]

/-- The id of the rule `r`. -/
def quotaUnit (r : ℕ) (id : String) : IdUnit :=
  { info := { minuteRecord with id := id, iam := some r }
    otherInfo := none
    maps := IpMaps.initial 0 }

theorem twoQuotas_serves :
    twoQuotas.Serves 0 ⟨0, .ipv4, none, none, 1, IpMaps.initial 0⟩ (quotaUnit 0 "quota") ∧
      twoQuotas.Serves 1 ⟨1, .ipv4, none, none, 1, IpMaps.initial 0⟩ (quotaUnit 1 "other") := by
  have hback : ∀ r id other info, (quotaUnit r id).record other = some info →
      info.iam = some r := by
    intro r id other info hinfo
    cases other with
    | false =>
      obtain rfl := Option.some.inj hinfo
      rfl
    | true => cases hinfo
  exact ⟨⟨rfl, rfl, rfl, rfl, by simp, hback 0 "quota"⟩,
    ⟨rfl, rfl, rfl, rfl, by simp, hback 1 "other"⟩⟩

theorem quotaUnit_laid (r : ℕ) (id : String) : (quotaUnit r id).Laid := by
  have hsound : (quotaUnit r id).Sound :=
    IdUnit.Sound.of_initial rfl rfl rfl fun o ho => by cases ho
  exact hsound.coherent.laid

theorem value_idleHistory (host : BitVec 32) :
    ((idleHistory host).ipBlock (fun _ => 0) 0).value = 0 := by
  rw [IpBwHistory.ipBlock, IpBlock.value, idleHistory, map_replicate,
    getLastD_eq_getLast?, getLast?_replicate]
  rfl

theorem settles_idleHistory (host : BitVec 32) {info : NftBandwidthInfo}
    (hsaves : info.numIntervalsToSave = 0) (west now : ℤ) :
    ((idleHistory host).ipBlock (fun _ => 0) 0).Settles info west now := by
  refine ⟨BitVec.isLt _, fun bw hbw => ?_, ?_, fun hpos => absurd hsaves hpos.ne'⟩
  · obtain ⟨x, -, rfl⟩ := List.mem_map.1 hbw
    exact x.isLt
  · rw [idleHistory, map_replicate]
    exact cons_ne_nil _ _

theorem mem_twoHosts {block : IpBlock}
    (h : block ∈ twoHosts.data.ipBlocks (fun _ => 0) (fun _ => 0)) :
    ∃ host, block = (idleHistory host).ipBlock (fun _ => 0) 0 := by
  have hblocks : twoHosts.data.ipBlocks (fun _ => 0) (fun _ => 0) =
      [(idleHistory 0x0501a8c0).ipBlock (fun _ => 0) 0,
        (idleHistory 0x0601a8c0).ipBlock (fun _ => 0) 0] := rfl
  rw [hblocks, mem_cons, mem_singleton] at h
  rcases h with rfl | rfl
  · exact ⟨_, rfl⟩
  · exact ⟨_, rfl⟩

/-- A packet of the other id does not disturb the set. -/
theorem other_quota_isolated :
    Unaffected 0 twoQuotas (packetBetween 1) ∧
      ∃ u', (run twoQuotas (packetBetween 1)).unit 0 = some u' ∧
        u'.counters = setCounters (twoHosts.data.ipBlocks (fun _ => 0) (fun _ => 0))
          (twoHosts.startCounters 0 (quotaUnit 0 "quota").counters) := by
  obtain ⟨hserves, hother⟩ := twoQuotas_serves
  refine set_isolated hserves (quotaUnit_laid 0 "quota") (by decide) (fun _ => 0) (fun _ => 0)
    (by decide) ?_ setBandwidthData_twoHosts ⟨rfl, rfl, by decide, by decide, by decide⟩ ?_ ?_ ?_
  · intro block hblock
    obtain ⟨host, rfl⟩ := mem_twoHosts hblock
    have hsize := size_idleHistory host
    change setHeaderLength + size ((idleHistory host).block (fun _ => 0) 0) ≤ bandwidthQueryLength
    rw [hsize]
    decide
  · intro r t pkt hmem priv hpriv
    simp only [packetBetween, mem_cons, reduceCtorEq, SetEvent.packet.injEq, false_or,
      not_mem_nil, or_false] at hmem
    obtain ⟨rfl, -, -⟩ := hmem
    obtain rfl := Option.some.inj hpriv
    refine ⟨fun hcmp => absurd hcmp (by decide), fun _ => ?_⟩
    exact ⟨1, _, _, false, by decide, hother, rfl⟩
  · intro header hheader
    have hzero : header.lastBackup = 0 :=
      hheader.trans (toInt64_toUint64 (by decide) (by decide))
    simp [backupRejected, hzero]
  · intro b t hmem block hblock
    obtain ⟨host, rfl⟩ := mem_twoHosts hblock
    exact settles_idleHistory host rfl _ _

/-- A packet of the id itself is counted on top of the data. -/
theorem own_quota_not_isolated :
    setBandwidthData (fun _ => 0) (fun _ => 0) twoHosts =
        some ((packetBetween 0).filterMap SetEvent.request) ∧
      ((run twoQuotas ((packetBetween 0).take 1)).unit 0).map (·.counters.get "192.168.1.5") =
        some (some 0) ∧
      ((run twoQuotas ((packetBetween 0).take 2)).unit 0).map (·.counters.get "192.168.1.5") =
        some (some 100) ∧
      ((run twoQuotas (packetBetween 0)).unit 0).map (·.counters.get "192.168.1.5") =
        some (some 100) ∧
      (setCounters (twoHosts.data.ipBlocks (fun _ => 0) (fun _ => 0))
        (twoHosts.startCounters 0 (quotaUnit 0 "quota").counters)).get "192.168.1.5" = some 0 ∧
      ¬ Unaffected 0 twoQuotas (packetBetween 0) := by
  have hbefore : ((run twoQuotas ((packetBetween 0).take 1)).unit 0).map
      (·.counters.get "192.168.1.5") = some (some 0) := by
    decide
  have hafter : ((run twoQuotas ((packetBetween 0).take 2)).unit 0).map
      (·.counters.get "192.168.1.5") = some (some 100) := by
    decide
  have hdata : setCounters (twoHosts.data.ipBlocks (fun _ => 0) (fun _ => 0))
      (twoHosts.startCounters 0 (quotaUnit 0 "quota").counters) =
        (HashedMap.empty.set "192.168.1.5" 0).set "192.168.1.6" 0 := by
    change (HashedMap.empty.set _ ((idleHistory 0x0501a8c0).ipBlock (fun _ => 0) 0).value).set _
      ((idleHistory 0x0601a8c0).ipBlock (fun _ => 0) 0).value = _
    rw [value_idleHistory, value_idleHistory]
    rfl
  refine ⟨setBandwidthData_twoHosts, hbefore, hafter, by decide, ?_, fun hunaffected => ?_⟩
  · rw [hdata]
    decide
  · have hsame := hunaffected ((packetBetween 0).take 1) 0 ⟨25, 0⟩
      (.ipv4 0x0501a8c0 0x08080808 100) ((packetBetween 0).drop 2) rfl
    rw [← hsame] at hbefore
    exact absurd (hbefore.symm.trans hafter) (by decide)

end TwoHosts

end Bwctl

end Gargoyle
