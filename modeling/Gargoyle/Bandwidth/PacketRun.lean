import Gargoyle.Bandwidth.Counters

/-!
# Runs of packets through the rules of one id

An `Arrival` is a packet that is evaluated with one of the two rules of an id.
While the clock is steady a run of arrivals only moves the clock and the id, and
the id is what the run leaves of it on its own (`Serves.evaluateAll`).
-/

namespace Gargoyle

open List

namespace Bandwidth

namespace Clock

structure Steady (c : Clock) (ts : List Tick) : Prop where
  zone : c.localMinutesWest = c.oldMinutesWest
  seconds : c.localSecondsWest = 60 * c.localMinutesWest
  west : ∀ t ∈ ts, ModuleState.minutesWest t = c.oldMinutesWest
  ahead : ∀ t ∈ ts, c.backwardsCheck ≤ t.now
  ordered : ts.Pairwise fun t t' => t.now ≤ t'.now

variable {c : Clock} {t : Tick} {ts : List Tick}

theorem Steady.quiet (h : c.Steady (t :: ts)) : c.Quiet t :=
  ⟨h.west t mem_cons_self, h.zone, h.seconds, h.ahead t mem_cons_self⟩

theorem tick_oldMinutesWest (c : Clock) (t : Tick) :
    (c.tick t).oldMinutesWest = c.oldMinutesWest := by
  unfold tick
  split_ifs <;> rfl

theorem tick_localSecondsWest (c : Clock) (t : Tick) :
    (c.tick t).localSecondsWest = c.localSecondsWest := by
  unfold tick
  split_ifs <;> rfl

theorem Steady.tail (h : c.Steady (t :: ts)) : (c.tick t).Steady ts := by
  obtain ⟨hhead, htail⟩ := List.pairwise_cons.1 h.ordered
  have hzone : (c.tick t).localMinutesWest = c.localMinutesWest := by
    unfold tick
    split_ifs <;> rfl
  refine ⟨?_, ?_, ?_, ?_, htail⟩
  · rw [hzone, tick_oldMinutesWest, h.zone]
  · rw [hzone, tick_localSecondsWest, h.seconds]
  · intro t' ht'
    rw [tick_oldMinutesWest]
    exact h.west t' (mem_cons_of_mem _ ht')
  · intro t' ht'
    unfold tick
    split_ifs
    · exact h.ahead t' (mem_cons_of_mem _ ht')
    · exact hhead t' ht'

end Clock

structure Arrival where
  other : Bool
  tick : Tick
  packet : Packet

variable [Kernel]

def IdUnit.evaluatePacket (u : IdUnit) (other : Bool) (pkt : Packet) (now : ℤ) : IdUnit :=
  (u.evaluate other (fun priv => pkt.bwIps priv false) pkt.family pkt.len false now).1

/-- A run of arrivals on one id, with the local time `secondsWest` behind. -/
def IdUnit.evaluateAll (u : IdUnit) (secondsWest : ℤ) (es : List Arrival) : IdUnit :=
  es.foldl (fun u e => u.evaluatePacket e.other e.packet (e.tick.now - secondsWest)) u

namespace IdUnit

def Counting (u : IdUnit) : Prop := ∀ other info, u.record other = some info → info.cmp ≠ .check

theorem Counting.of_sameRules {u u' : IdUnit} (h : u.Counting) (hsame : u.SameRules u') :
    u'.Counting := by
  intro other info hinfo
  obtain ⟨old, hold, hrule⟩ := Agree.exists_record hsame hinfo
  have hcmp : info.rule.cmp = old.rule.cmp := by rw [hrule]
  exact fun hcheck => h other old hold (hcmp.symm.trans hcheck)

end IdUnit

namespace ModuleState

/-- A run of arrivals; `rule` gives the numbers of the two rules. -/
def evaluateAll (m : ModuleState) (rule : Bool → ℕ) (es : List Arrival) : ModuleState :=
  es.foldl (fun m e => (m.bandwidthEval (rule e.other) e.tick e.packet).1) m

namespace Serves

variable {m : ModuleState} {p : ℕ} {iam : InfoAndMaps} {u : IdUnit}

theorem withClock (h : m.Serves p iam u) (c : Clock) :
    ({ m with clock := c } : ModuleState).Serves p iam u :=
  ⟨h.iam_eq, h.info_eq, h.other_eq, h.maps_eq, h.distinct, h.back⟩

theorem bandwidthEval_eq_write (h : m.Serves p iam u) (hidle : m.setInProgress = false)
    (hcount : u.Counting) {other : Bool} {r : ℕ} (hr : iam.ruleOf other = some r)
    (hlive : (u.record other).isSome) {t : Tick} (hquiet : m.clock.Quiet t) (pkt : Packet) :
    (m.bandwidthEval r t pkt).1 =
      ({ m with clock := m.clock.tick t } : ModuleState).write p iam
        (u.evaluatePacket other pkt (t.now - m.clock.localSecondsWest)) := by
  obtain ⟨priv, hpriv⟩ := Option.isSome_iff_exists.1 hlive
  have hinfo : m.infos r = some priv := (h.record_eq hr).trans hpriv
  have hcmp := hcount other priv hpriv
  rw [bandwidthEval_eq, bandwidthMt, hinfo]
  have hopen : ¬ (m.setInProgress = true ∧ priv.id = m.setId) := by simp [hidle]
  simp only [if_neg hopen, if_neg hcmp, timeChecks_of_quiet m hquiet,
    Clock.tick_localSecondsWest]
  exact (h.withClock _).evaluate_eq_write hr _ _ _ _ _

/-- A run of packets is counted in one unit. -/
theorem evaluateAll (h : m.Serves p iam u) (hidle : m.setInProgress = false)
    (hcount : u.Counting) (rule : Bool → ℕ) (es : List Arrival)
    (hrule : ∀ e ∈ es, iam.ruleOf e.other = some (rule e.other) ∧ (u.record e.other).isSome)
    (hclock : m.clock.Steady (es.map Arrival.tick)) :
    ∃ iam', (m.evaluateAll rule es).Serves p iam'
      (u.evaluateAll m.clock.localSecondsWest es) := by
  induction es generalizing m iam u with
  | nil => exact ⟨iam, h⟩
  | cons e es ih =>
    obtain ⟨hr, hlive⟩ := hrule e mem_cons_self
    have hstep := h.bandwidthEval_eq_write hidle hcount hr hlive hclock.quiet e.packet
    have hsame : u.SameRules
        (u.evaluatePacket e.other e.packet (e.tick.now - m.clock.localSecondsWest)) :=
      IdUnit.SameRules.evaluate _ _ _ _ _ _ _
    have hserves := (h.withClock (m.clock.tick e.tick)).write hsame
    have hreg := registered_write { m with clock := m.clock.tick e.tick } p iam
      (u.evaluatePacket e.other e.packet (e.tick.now - m.clock.localSecondsWest))
    rw [← hstep] at hserves hreg
    obtain ⟨-, -, hreg_clock, hreg_set, -, -⟩ := hreg
    have hrest := ih hserves (hreg_set.trans hidle) (hcount.of_sameRules hsame) (fun e' he' => ?_)
      (by rw [hreg_clock]; exact hclock.tail)
    · obtain ⟨iam', hiam'⟩ := hrest
      refine ⟨iam', ?_⟩
      rw [hreg_clock, Clock.tick_localSecondsWest] at hiam'
      exact hiam'
    · obtain ⟨hr', hlive'⟩ := hrule e' (mem_cons_of_mem _ he')
      refine ⟨hr', ?_⟩
      have hsome := congrArg Option.isSome (IdUnit.Agree.record hsame e'.other)
      rw [Option.isSome_map, Option.isSome_map] at hsome
      exact hsome.trans hlive'

end Serves

end ModuleState

/-! ## Runs without a reset -/

omit [Kernel] in
def NftBandwidthInfo.Due (info : NftBandwidthInfo) (now : ℤ) : Prop :=
  info.resetInterval ≠ bandwidthNever ∧ info.nextReset < now

omit [Kernel] in
instance (info : NftBandwidthInfo) (now : ℤ) : Decidable (info.Due now) :=
  inferInstanceAs (Decidable (_ ∧ _))

def IdUnit.textsOf (u : IdUnit) (e : Arrival) : List String :=
  match u.record e.other with
  | some priv => charges priv (e.packet.bwIps priv false)
  | none => []

theorem charges_rule (priv : NftBandwidthInfo) (pkt : Packet) :
    charges priv (pkt.bwIps priv false) = charges priv.rule (pkt.bwIps priv.rule false) := by
  cases pkt <;> rfl

theorem bwIps_rule (priv : NftBandwidthInfo) (pkt : Packet) :
    pkt.bwIps priv false = pkt.bwIps priv.rule false := by
  cases pkt <;> rfl

namespace IdUnit

theorem textsOf_of_sameRules {u u' : IdUnit} (h : u.SameRules u') (e : Arrival) :
    u'.textsOf e = u.textsOf e := by
  have hrecord := Agree.record h e.other
  unfold textsOf
  cases hold : u.record e.other with
  | none =>
    have hnew : u'.record e.other = none := by simpa [hold] using hrecord
    rw [hnew]
  | some old =>
    obtain ⟨new, hnew, hrule⟩ := Agree.exists_record' h hold
    simp only [hnew]
    rw [charges_rule new, charges_rule old, hrule]

theorem resetIfDue_of_not_due {u : IdUnit} {other : Bool} {priv : NftBandwidthInfo}
    (hpriv : u.record other = some priv) {now : ℤ} (hdue : ¬ priv.Due now) :
    u.resetIfDue other now = u := by
  simp only [resetIfDue, hpriv]
  exact if_neg hdue

def Counts (u : IdUnit) (secondsWest : ℤ) (e : Arrival) : Prop :=
  ∃ priv, u.record e.other = some priv ∧ ¬ priv.Due (e.tick.now - secondsWest) ∧
    ApartFromCombined (e.packet.bwIps priv false)

theorem Counts.of_schedule {u u' : IdUnit} {secondsWest : ℤ} {e : Arrival}
    (h : u.Counts secondsWest e) (hsame : Agree NftBandwidthInfo.schedule u u') :
    u'.Counts secondsWest e := by
  obtain ⟨priv, hpriv, hdue, hapart⟩ := h
  obtain ⟨new, hnew, hschedule⟩ := Agree.exists_record' hsame hpriv
  refine ⟨new, hnew, ?_, ?_⟩
  · have hinterval : new.schedule.resetInterval = priv.schedule.resetInterval := by rw [hschedule]
    have hnext : new.schedule.nextReset = priv.schedule.nextReset := by rw [hschedule]
    rintro ⟨hnever, hlt⟩
    exact hdue ⟨fun h => hnever (hinterval.trans h), lt_of_eq_of_lt hnext.symm hlt⟩
  · have hrule : new.schedule.rule = priv.schedule.rule := by rw [hschedule]
    have hrule' : new.rule = priv.rule := hrule
    rw [bwIps_rule, hrule', ← bwIps_rule]
    exact hapart

theorem Agree.rule_of_schedule {u u' : IdUnit} (h : Agree NftBandwidthInfo.schedule u u') :
    SameRules u u' := by
  have hinfo : u'.info.schedule.rule = u.info.schedule.rule := by rw [h.1]
  refine ⟨hinfo, ?_⟩
  have hmap := congrArg (Option.map NftBandwidthInfo.rule) h.2
  rw [Option.map_map, Option.map_map] at hmap
  exact hmap

theorem Sound.evaluatePacket {u : IdUnit} (h : u.Sound) {secondsWest : ℤ} {e : Arrival}
    (he : u.Counts secondsWest e) :
    let u' := u.evaluatePacket e.other e.packet (e.tick.now - secondsWest)
    u'.Sound ∧ Agree NftBandwidthInfo.schedule u u' ∧
      ∀ k, u'.reported k =
        min bandwidthRecordMax (u.reported k + bytesTo (u.textsOf e) e.packet.len k) := by
  obtain ⟨priv, hpriv, hdue, hapart⟩ := he
  have htexts : u.textsOf e = charges priv (e.packet.bwIps priv false) := by
    simp only [textsOf, hpriv]
  have hcount : u.evaluatePacket e.other e.packet (e.tick.now - secondsWest) =
      (u.countPacket e.other (fun priv => e.packet.bwIps priv false) e.packet.family
        e.packet.len false).1 := by
    rw [IdUnit.evaluatePacket, evaluate, resetIfDue_of_not_due hpriv hdue]
  obtain ⟨hsound, hreported⟩ := h.countPacket hpriv (fun priv => e.packet.bwIps priv false) hapart
    e.packet.family e.packet.len_lt
  simp only
  rw [hcount, htexts]
  exact ⟨hsound, Agree.countPacket NftBandwidthInfo.unaccounted_schedule _ _ _ _ _ _, hreported⟩

theorem Sound.evaluateAll {u : IdUnit} (h : u.Sound) (secondsWest : ℤ) (es : List Arrival)
    (hes : ∀ e ∈ es, u.Counts secondsWest e) :
    (u.evaluateAll secondsWest es).Sound ∧
      ∀ k, (u.evaluateAll secondsWest es).reported k =
        min bandwidthRecordMax
          (u.reported k + (es.map fun e => bytesTo (u.textsOf e) e.packet.len k).sum) := by
  induction es generalizing u with
  | nil =>
    refine ⟨h, fun k => ?_⟩
    rw [map_nil, sum_nil, Nat.add_zero, Nat.min_eq_right (reported_le h.bounded k)]
    rfl
  | cons e es ih =>
    obtain ⟨hsound, hschedule, hreported⟩ := h.evaluatePacket (hes e mem_cons_self)
    obtain ⟨hrest, hrest_reported⟩ := ih hsound fun e' he' =>
      (hes e' (mem_cons_of_mem _ he')).of_schedule hschedule
    refine ⟨hrest, fun k => ?_⟩
    have htexts : ∀ e', IdUnit.textsOf _ e' = u.textsOf e' :=
      textsOf_of_sameRules hschedule.rule_of_schedule
    have hcons := hrest_reported k
    simp only [htexts] at hcons
    rw [map_cons, sum_cons, ← min_add_min, ← hreported k]
    exact hcons

end IdUnit

end Bandwidth

end Gargoyle
