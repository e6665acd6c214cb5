import Gargoyle.Bandwidth.Charging

/-!
# An id with two rules

`bandwidth_mt4` and `bandwidth_mt6` decide from the `next_reset` of the rule they
evaluate whether an interval is over, but `handle_interval_reset` moves only the
`next_reset` of `iam->info` on. Once the first interval is over, every packet
through the other rule resets the counters again.

`InStep` says that this does not happen in a run: whenever the rule of a packet
finds its interval over, so does `iam->info`. For such a run the counters are
reset at most once in every interval, and a counter is the sum of what has been
charged to it since the last reset.
-/

namespace Gargoyle

open List

namespace Bandwidth

section

variable [Kernel]

/-! ## The reset of an id without histories -/

theorem handleIntervalReset_unsaved {u : IdUnit} (h : u.info.numIntervalsToSave = 0) (now : ℤ) :
    handleIntervalReset now u =
      finishReset
        { u with
          info := { u.info with nextReset := nextResetUnsaved u.info now }
          maps := zeroAllBandwidth u.maps } := by
  rw [handleIntervalReset, if_pos h]

theorem zeroAll_counter {u : IdUnit} (h : u.Coherent) (now : ℤ)
    (hn : u.info.numIntervalsToSave = 0) (k : String) :
    (handleIntervalReset now u).counter k = (u.counter k).map fun _ => 0 := by
  rw [handleIntervalReset_unsaved hn]
  exact h.owned.valueAt_fill 0 k

theorem IdUnit.Sound.handleIntervalReset_unsaved {u : IdUnit} (h : u.Sound) (now : ℤ)
    (hn : u.info.numIntervalsToSave = 0) :
    (handleIntervalReset now u).Sound ∧ ∀ k, (handleIntervalReset now u).reported k = 0 := by
  have hzero : ∀ k, (handleIntervalReset now u).reported k = 0 := by
    intro k
    rw [IdUnit.reported, zeroAll_counter h.coherent now hn]
    cases u.counter k with
    | none => rfl
    | some v => rfl
  refine ⟨⟨?_, ?_, ?_⟩, hzero⟩
  · rw [Bandwidth.handleIntervalReset_unsaved hn]
    refine ⟨h.coherent.owned.fill _ _, h.coherent.saved, h.coherent.linked, ?_, ?_⟩
    · intro c hc
      exact hc
    · intro o ho
      obtain ⟨o', -, rfl⟩ := Option.map_eq_some_iff.1 ho
      rfl
  · apply IdUnit.Bounded.of_reported
    intro k
    rw [hzero k]
    exact Nat.zero_le _
  · rw [Bandwidth.handleIntervalReset_unsaved hn]
    rfl

namespace IdUnit

def Resets (u : IdUnit) (secondsWest : ℤ) (e : Arrival) : Prop :=
  ∃ priv, u.record e.other = some priv ∧ priv.Due (e.tick.now - secondsWest)

instance (u : IdUnit) (secondsWest : ℤ) (e : Arrival) : Decidable (u.Resets secondsWest e) :=
  match h : u.record e.other with
  | some priv =>
    decidable_of_iff (priv.Due (e.tick.now - secondsWest))
      ⟨fun hdue => ⟨priv, h, hdue⟩, fun ⟨_, hpriv, hdue⟩ =>
        Option.some.inj (h.symm.trans hpriv) ▸ hdue⟩
  | none => isFalse fun ⟨_, hpriv, _⟩ => nomatch h.symm.trans hpriv

def next (u : IdUnit) (secondsWest : ℤ) (e : Arrival) : IdUnit :=
  u.evaluatePacket e.other e.packet (e.tick.now - secondsWest)

theorem evaluateAll_cons (u : IdUnit) (secondsWest : ℤ) (e : Arrival) (es : List Arrival) :
    u.evaluateAll secondsWest (e :: es) = (u.next secondsWest e).evaluateAll secondsWest es := rfl

theorem evaluateAll_append (u : IdUnit) (secondsWest : ℤ) (es es' : List Arrival) :
    u.evaluateAll secondsWest (es ++ es') =
      (u.evaluateAll secondsWest es).evaluateAll secondsWest es' :=
  foldl_append

def NoReset (u : IdUnit) (secondsWest : ℤ) : List Arrival → Prop
  | [] => True
  | e :: es => ¬ u.Resets secondsWest e ∧ (u.next secondsWest e).NoReset secondsWest es

/-- Whenever an arrival of the run finds the interval of its rule over, the
interval of `iam->info` is over as well. -/
def InStep (u : IdUnit) (secondsWest : ℤ) : List Arrival → Prop
  | [] => True
  | e :: es =>
    (u.Resets secondsWest e → u.info.nextReset ≤ e.tick.now - secondsWest) ∧
      (u.next secondsWest e).InStep secondsWest es

instance decidableInStep (u : IdUnit) (secondsWest : ℤ) (es : List Arrival) :
    Decidable (u.InStep secondsWest es) :=
  match es with
  | [] => inferInstanceAs (Decidable True)
  | e :: es =>
    have := decidableInStep (u.next secondsWest e) secondsWest es
    inferInstanceAs (Decidable (_ ∧ _))

/-- An id without histories whose next reset is one that `get_next_reset_time`
has given. -/
structure Scheduled (u : IdUnit) : Prop where
  sound : u.Sound
  unsaved : u.info.numIntervalsToSave = 0
  evaluated : StmtEvaluated u.info.rule
  resets : u.info.resetInterval ≠ bandwidthNever
  ahead : getNextResetTime u.info u.info.previousReset u.info.previousReset ≤ u.info.nextReset

/-- What is asked of an arrival: its rule is there, no other address it is
charged to is taken for `0.0.0.0`, and its time is one that the tables of
`get_next_reset_time` reach. -/
structure Regular (u : IdUnit) (secondsWest : ℤ) (e : Arrival) : Prop where
  live : (u.record e.other).isSome
  apart : ∀ priv, u.record e.other = some priv → ApartFromCombined (e.packet.bwIps priv false)
  inRange : InResetRange u.info (e.tick.now - secondsWest)

theorem Regular.of_sameRules {u u' : IdUnit} {secondsWest : ℤ} {e : Arrival}
    (h : u.Regular secondsWest e) (hsame : u.SameRules u') : u'.Regular secondsWest e := by
  refine ⟨?_, ?_, ?_⟩
  · have hsome := congrArg Option.isSome (Agree.record hsame e.other)
    rw [Option.isSome_map, Option.isSome_map] at hsome
    exact hsome.trans h.live
  · intro priv hpriv
    obtain ⟨old, hold, hrule⟩ := Agree.exists_record hsame hpriv
    rw [bwIps_rule, hrule, ← bwIps_rule]
    exact h.apart old hold
  · have hinterval : u'.info.rule.resetInterval = u.info.rule.resetInterval := by rw [hsame.1]
    exact ⟨h.inRange.1, fun hmonth => h.inRange.2 (hinterval.symm.trans hmonth)⟩

section Step

variable {u : IdUnit} {secondsWest : ℤ} {e : Arrival}

theorem Scheduled.nextResetUnsaved (h : u.Scheduled) {now : ℤ} (hover : u.info.nextReset ≤ now) :
    nextResetUnsaved u.info now = getNextResetTime u.info now u.info.previousReset := by
  have hfirst := h.ahead.trans hover
  rw [Bandwidth.nextResetUnsaved, if_pos hover, if_pos hfirst]

theorem Scheduled.lt_getNextResetTime (h : u.Scheduled) {now : ℤ} (hnow : InResetRange u.info now)
    (previousReset : ℤ) : now < getNextResetTime u.info now previousReset := by
  rw [← getNextResetTime_rule]
  exact Bandwidth.lt_getNextResetTime h.evaluated h.resets hnow previousReset

theorem next_of_not_resets (hpriv : ¬ u.Resets secondsWest e) :
    u.next secondsWest e =
      (u.countPacket e.other (fun priv => e.packet.bwIps priv false) e.packet.family
        e.packet.len false).1 := by
  have hreset : u.resetIfDue e.other (e.tick.now - secondsWest) = u := by
    cases hrecord : u.record e.other with
    | none => simp [resetIfDue, hrecord]
    | some priv => exact resetIfDue_of_not_due hrecord fun hdue => hpriv ⟨priv, hrecord, hdue⟩
  rw [next, IdUnit.evaluatePacket, evaluate, hreset]

theorem next_of_resets (hresets : u.Resets secondsWest e) :
    u.next secondsWest e =
      ((handleIntervalReset (e.tick.now - secondsWest) u).countPacket e.other
        (fun priv => e.packet.bwIps priv false) e.packet.family e.packet.len false).1 := by
  obtain ⟨priv, hpriv, hdue⟩ := hresets
  have hreset : u.resetIfDue e.other (e.tick.now - secondsWest) =
      handleIntervalReset (e.tick.now - secondsWest) u := by
    simp only [resetIfDue, hpriv]
    exact if_pos hdue
  rw [next, IdUnit.evaluatePacket, evaluate, hreset]

theorem Sound.countArrival (h : u.Sound) (he : u.Regular secondsWest e) :
    let u' := (u.countPacket e.other (fun priv => e.packet.bwIps priv false) e.packet.family
      e.packet.len false).1
    u'.Sound ∧ Agree NftBandwidthInfo.schedule u u' ∧
      ∀ k, u'.reported k =
        min bandwidthRecordMax (u.reported k + bytesTo (u.textsOf e) e.packet.len k) := by
  obtain ⟨priv, hpriv⟩ := Option.isSome_iff_exists.1 he.live
  have htexts : u.textsOf e = charges priv (e.packet.bwIps priv false) := by
    simp only [textsOf, hpriv]
  obtain ⟨hsound, hreported⟩ := h.countPacket hpriv (fun priv => e.packet.bwIps priv false)
    (he.apart priv hpriv) e.packet.family e.packet.len_lt
  simp only
  rw [htexts]
  exact ⟨hsound, Agree.countPacket NftBandwidthInfo.unaccounted_schedule _ _ _ _ _ _, hreported⟩

theorem Scheduled.of_schedule {u' : IdUnit} (h : u.Scheduled) (hsound : u'.Sound)
    (hsame : Agree NftBandwidthInfo.schedule u u') : u'.Scheduled := by
  have hrule : u'.info.schedule.rule = u.info.schedule.rule := by rw [hsame.1]
  have hunsaved : u'.info.schedule.numIntervalsToSave = u.info.schedule.numIntervalsToSave := by
    rw [hsame.1]
  have hinterval : u'.info.schedule.resetInterval = u.info.schedule.resetInterval := by
    rw [hsame.1]
  refine ⟨hsound, hunsaved.trans h.unsaved, ?_, fun hn => h.resets (hinterval.symm.trans hn), ?_⟩
  · have hevaluated := h.evaluated
    change StmtEvaluated u.info.schedule.rule at hevaluated
    rw [← hrule] at hevaluated
    exact hevaluated
  · have hahead := h.ahead
    change getNextResetTime u.info.schedule u.info.schedule.previousReset
      u.info.schedule.previousReset ≤ u.info.schedule.nextReset at hahead
    rw [← hsame.1] at hahead
    exact hahead

theorem Agree.times_eq {u u' : IdUnit} (h : Agree NftBandwidthInfo.schedule u u') :
    u'.info.nextReset = u.info.nextReset ∧ u'.info.previousReset = u.info.previousReset := by
  have hnext : u'.info.schedule.nextReset = u.info.schedule.nextReset := by rw [h.1]
  have hprevious : u'.info.schedule.previousReset = u.info.schedule.previousReset := by rw [h.1]
  exact ⟨hnext, hprevious⟩

/-- A reset keeps the schedule of the rules of an id. -/
theorem Scheduled.reset (h : u.Scheduled) {now : ℤ} (hover : u.info.nextReset ≤ now)
    (hnow : InResetRange u.info now) :
    (handleIntervalReset now u).Scheduled ∧
      (handleIntervalReset now u).info.previousReset = u.info.previousReset ∧
      (handleIntervalReset now u).info.nextReset =
        getNextResetTime u.info now u.info.previousReset := by
  have hnext := h.nextResetUnsaved hover
  have hlt := h.lt_getNextResetTime hnow u.info.previousReset
  have hreset := Bandwidth.handleIntervalReset_unsaved h.unsaved now
  have htime : (handleIntervalReset now u).info.nextReset =
      getNextResetTime u.info now u.info.previousReset := by
    rw [hreset]
    exact hnext
  have hprevious : (handleIntervalReset now u).info.previousReset = u.info.previousReset := by
    rw [hreset]
    rfl
  have hrule : (handleIntervalReset now u).info.rule = u.info.rule :=
    (SameRules.handleIntervalReset now u).1
  refine ⟨⟨(h.sound.handleIntervalReset_unsaved now h.unsaved).1, ?_, ?_, ?_, ?_⟩, hprevious,
    htime⟩
  · rw [hreset]
    exact h.unsaved
  · rw [hrule]
    exact h.evaluated
  · rw [hreset]
    exact h.resets
  · rw [htime, hprevious, getNextResetTime_of_rule hrule]
    exact (h.ahead.trans hover).trans hlt.le

structure Stepped (u : IdUnit) (secondsWest : ℤ) (e : Arrival) (u' : IdUnit) : Prop where
  scheduled : u'.Scheduled
  same : u.SameRules u'
  previous : u'.info.previousReset = u.info.previousReset
  later : u.info.nextReset ≤ u'.info.nextReset
  counted : ¬ u.Resets secondsWest e → ∀ k, u'.reported k =
    min bandwidthRecordMax (u.reported k + bytesTo (u.textsOf e) e.packet.len k)
  restarted : u.Resets secondsWest e →
    u'.info.nextReset =
        getNextResetTime u.info (e.tick.now - secondsWest) u.info.previousReset ∧
      ∀ k, u'.reported k = min bandwidthRecordMax (bytesTo (u.textsOf e) e.packet.len k)

theorem Scheduled.next (h : u.Scheduled) (he : u.Regular secondsWest e)
    (hstep : u.Resets secondsWest e → u.info.nextReset ≤ e.tick.now - secondsWest) :
    Stepped u secondsWest e (u.next secondsWest e) := by
  by_cases hresets : u.Resets secondsWest e
  · have hover := hstep hresets
    obtain ⟨hscheduled, hprevious, hnext⟩ := h.reset hover he.inRange
    have hsame := SameRules.handleIntervalReset (e.tick.now - secondsWest) u
    have hzero := (h.sound.handleIntervalReset_unsaved (e.tick.now - secondsWest) h.unsaved).2
    have hlt := h.lt_getNextResetTime he.inRange u.info.previousReset
    obtain ⟨hsound, hagree, hreported⟩ := hscheduled.sound.countArrival (he.of_sameRules hsame)
    rw [← next_of_resets hresets] at hsound hagree hreported
    obtain ⟨hnext', hprevious'⟩ := hagree.times_eq
    refine ⟨hscheduled.of_schedule hsound hagree, hsame.trans hagree.rule_of_schedule,
      hprevious'.trans hprevious, ?_, fun hnot => absurd hresets hnot, fun _ => ⟨?_, ?_⟩⟩
    · rw [hnext'.trans hnext]
      exact hover.trans hlt.le
    · exact hnext'.trans hnext
    · intro k
      rw [hreported k, hzero k, Nat.zero_add, textsOf_of_sameRules hsame]
  · obtain ⟨hsound, hagree, hreported⟩ := h.sound.countArrival he
    rw [← next_of_not_resets hresets] at hsound hagree hreported
    obtain ⟨hnext, hprevious⟩ := hagree.times_eq
    exact ⟨h.of_schedule hsound hagree, hagree.rule_of_schedule, hprevious, hnext.ge,
      fun _ => hreported, fun hyes => absurd hyes hresets⟩

end Step

/-! ## Runs that keep in step -/

section Run

variable {u : IdUnit} {secondsWest : ℤ}

theorem InStep.left {es es' : List Arrival} (h : u.InStep secondsWest (es ++ es')) :
    u.InStep secondsWest es := by
  induction es generalizing u with
  | nil => trivial
  | cons e es ih => exact ⟨h.1, ih h.2⟩

theorem InStep.right {es es' : List Arrival} (h : u.InStep secondsWest (es ++ es')) :
    (u.evaluateAll secondsWest es).InStep secondsWest es' := by
  induction es generalizing u with
  | nil => exact h
  | cons e es ih => exact ih h.2

theorem Scheduled.evaluateAll (h : u.Scheduled) {es : List Arrival}
    (hes : ∀ e ∈ es, u.Regular secondsWest e) (hstep : u.InStep secondsWest es) :
    (u.evaluateAll secondsWest es).Scheduled ∧
      u.SameRules (u.evaluateAll secondsWest es) ∧
      (u.evaluateAll secondsWest es).info.previousReset = u.info.previousReset ∧
      u.info.nextReset ≤ (u.evaluateAll secondsWest es).info.nextReset := by
  induction es generalizing u with
  | nil => exact ⟨h, SameRules.refl u, rfl, le_rfl⟩
  | cons e es ih =>
    have hfirst := h.next (hes e mem_cons_self) hstep.1
    obtain ⟨hscheduled, hsame, hprevious, hlater⟩ := ih hfirst.scheduled
      (fun e' he' => (hes e' (mem_cons_of_mem _ he')).of_sameRules hfirst.same) hstep.2
    exact ⟨hscheduled, hfirst.same.trans hsame, hprevious.trans hfirst.previous,
      hfirst.later.trans hlater⟩

theorem Scheduled.reported_of_noReset (h : u.Scheduled) {es : List Arrival}
    (hes : ∀ e ∈ es, u.Regular secondsWest e) (hnone : u.NoReset secondsWest es) (k : String) :
    (u.evaluateAll secondsWest es).reported k =
      min bandwidthRecordMax
        (u.reported k + (es.map fun e => bytesTo (u.textsOf e) e.packet.len k).sum) := by
  induction es generalizing u with
  | nil =>
    rw [map_nil, sum_nil, Nat.add_zero,
      Nat.min_eq_right (reported_le h.sound.bounded k)]
    rfl
  | cons e es ih =>
    have hfirst := h.next (hes e mem_cons_self) fun hr => absurd hr hnone.1
    have hrest := ih hfirst.scheduled
      (fun e' he' => (hes e' (mem_cons_of_mem _ he')).of_sameRules hfirst.same) hnone.2
    rw [evaluateAll_cons, hrest, hfirst.counted hnone.1 k, min_add_min]
    simp only [textsOf_of_sameRules hfirst.same, map_cons, sum_cons]

theorem Scheduled.reported_since_reset (h : u.Scheduled) {e : Arrival} {es : List Arrival}
    (hes : ∀ e' ∈ e :: es, u.Regular secondsWest e') (hresets : u.Resets secondsWest e)
    (hstep : u.info.nextReset ≤ e.tick.now - secondsWest)
    (hnone : (u.next secondsWest e).NoReset secondsWest es) (k : String) :
    (u.evaluateAll secondsWest (e :: es)).reported k =
      min bandwidthRecordMax
        ((e :: es).map fun e' => bytesTo (u.textsOf e') e'.packet.len k).sum := by
  have hfirst := h.next (hes e mem_cons_self) fun _ => hstep
  have hrest := hfirst.scheduled.reported_of_noReset
    (fun e' he' => (hes e' (mem_cons_of_mem _ he')).of_sameRules hfirst.same) hnone k
  rw [evaluateAll_cons, hrest, (hfirst.restarted hresets).2 k]
  simp only [textsOf_of_sameRules hfirst.same, map_cons, sum_cons]
  have hmin := min_add_min bandwidthRecordMax 0 (bytesTo (u.textsOf e) e.packet.len k)
    (es.map fun e' => bytesTo (u.textsOf e') e'.packet.len k).sum
  rw [Nat.zero_add, Nat.zero_add] at hmin
  exact hmin

theorem Scheduled.boundary_between_resets (h : u.Scheduled) {e e' : Arrival} {es : List Arrival}
    (hes : ∀ x ∈ e :: es ++ [e'], u.Regular secondsWest x)
    (hstep : u.InStep secondsWest (e :: es ++ [e'])) (hresets : u.Resets secondsWest e)
    (hresets' : (u.evaluateAll secondsWest (e :: es)).Resets secondsWest e') :
    e.tick.now - secondsWest <
        getNextResetTime u.info (e.tick.now - secondsWest) u.info.previousReset ∧
      getNextResetTime u.info (e.tick.now - secondsWest) u.info.previousReset ≤
        e'.tick.now - secondsWest := by
  have hfirst := h.next (hes e (by simp)) hstep.1
  refine ⟨h.lt_getNextResetTime (hes e (by simp)).inRange _, ?_⟩
  have hrest := hfirst.scheduled.evaluateAll
    (fun x hx => (hes x (by simp [hx])).of_sameRules hfirst.same) (InStep.left hstep.2)
  have hlast := InStep.right hstep.2
  rw [← (hfirst.restarted hresets).1]
  exact hrest.2.2.2.trans (hlast.1 hresets')

end Run

end IdUnit

section Module

variable {m : ModuleState} {p : ℕ} {iam : InfoAndMaps} {u : IdUnit}

/-- Packets through the two rules of an id, in a run that keeps in step. At any
time the counter of a text is what has been charged to it since the last reset,
or since the start; no reset comes before the first boundary; and between two
resets lies a boundary of `get_next_reset_time`. -/
theorem zeroed_once_per_boundary (h : m.Serves p iam u) (hcount : u.Counting)
    (hidle : m.setInProgress = false) (hscheduled : u.Scheduled) (rule : Bool → ℕ)
    (hrule : iam.info = rule false ∧ iam.otherInfo = some (rule true)) (es : List Arrival)
    (hclock : m.clock.Steady (es.map Arrival.tick))
    (hes : ∀ e ∈ es, u.Regular m.clock.localSecondsWest e)
    (hstep : u.InStep m.clock.localSecondsWest es) :
    (m.evaluateAll rule es).unit p = some (u.evaluateAll m.clock.localSecondsWest es) ∧
    (u.NoReset m.clock.localSecondsWest es →
      ∀ k, (u.evaluateAll m.clock.localSecondsWest es).reported k =
        min bandwidthRecordMax
          (u.reported k + (es.map fun e => bytesTo (u.textsOf e) e.packet.len k).sum)) ∧
    (∀ es₁ e es₂, es = es₁ ++ e :: es₂ →
      (u.evaluateAll m.clock.localSecondsWest es₁).Resets m.clock.localSecondsWest e →
      ((u.evaluateAll m.clock.localSecondsWest es₁).next m.clock.localSecondsWest e).NoReset
        m.clock.localSecondsWest es₂ →
      ∀ k, (u.evaluateAll m.clock.localSecondsWest es).reported k =
        min bandwidthRecordMax
          ((e :: es₂).map fun e' => bytesTo (u.textsOf e') e'.packet.len k).sum) ∧
    (∀ es₁ e es₂, es = es₁ ++ e :: es₂ →
      (u.evaluateAll m.clock.localSecondsWest es₁).Resets m.clock.localSecondsWest e →
      u.info.nextReset ≤ e.tick.now - m.clock.localSecondsWest) ∧
    ∀ es₁ e es₂ e' es₃, es = es₁ ++ (e :: es₂ ++ e' :: es₃) →
      (u.evaluateAll m.clock.localSecondsWest es₁).Resets m.clock.localSecondsWest e →
      (u.evaluateAll m.clock.localSecondsWest (es₁ ++ e :: es₂)).Resets
        m.clock.localSecondsWest e' →
      let boundary := getNextResetTime u.info (e.tick.now - m.clock.localSecondsWest)
        u.info.previousReset
      e.tick.now - m.clock.localSecondsWest < boundary ∧
        boundary ≤ e'.tick.now - m.clock.localSecondsWest := by
  have hrules : ∀ e ∈ es, iam.ruleOf e.other = some (rule e.other) ∧
      (u.record e.other).isSome := by
    intro e he
    refine ⟨?_, (hes e he).live⟩
    cases e.other with
    | false => exact congrArg some hrule.1
    | true => exact hrule.2
  obtain ⟨iam', hserves⟩ := h.evaluateAll hidle hcount rule es hrules hclock
  refine ⟨hserves.unit_eq, fun hnone k => hscheduled.reported_of_noReset hes hnone k, ?_, ?_, ?_⟩
  · rintro es₁ e es₂ rfl hresets hnone k
    obtain ⟨hmid, hsame, -, -⟩ := hscheduled.evaluateAll
      (fun x hx => hes x (mem_append_left _ hx)) hstep.left
    have hover := (IdUnit.InStep.right hstep).1 hresets
    have hlast := hmid.reported_since_reset
      (fun x hx => (hes x (mem_append_right _ hx)).of_sameRules hsame) hresets hover hnone k
    rw [IdUnit.evaluateAll_append, hlast]
    simp only [IdUnit.textsOf_of_sameRules hsame]
  · rintro es₁ e es₂ rfl hresets
    obtain ⟨-, -, -, hlater⟩ := hscheduled.evaluateAll
      (fun x hx => hes x (mem_append_left _ hx)) hstep.left
    exact hlater.trans ((IdUnit.InStep.right hstep).1 hresets)
  · rintro es₁ e es₂ e' es₃ rfl hresets hresets'
    obtain ⟨hmid, hsame, hprevious, -⟩ := hscheduled.evaluateAll
      (fun x hx => hes x (mem_append_left _ hx)) hstep.left
    have hright := IdUnit.InStep.right hstep
    have hsplit : e :: es₂ ++ e' :: es₃ = (e :: es₂ ++ [e']) ++ es₃ := by simp
    rw [hsplit] at hright
    rw [IdUnit.evaluateAll_append] at hresets'
    have hpair := hmid.boundary_between_resets
      (fun x hx => (hes x (mem_append_right _ (by
        rw [hsplit]
        exact mem_append_left _ hx))).of_sameRules hsame)
      (IdUnit.InStep.left hright) hresets hresets'
    rw [hprevious, ← getNextResetTime_rule, hsame.1, getNextResetTime_rule] at hpair
    exact hpair

end Module

end

section TwoFamilies

local instance sharedKernel : Kernel := referenceKernel 32

def minuteRule : NftBandwidthInfo := { sourceQuota with resetInterval := bandwidthMinute }

def sharedState : ModuleState :=
  let m := ModuleState.init ⟨10, 0⟩
  let m₁ := (m.nftBandwidthInit 0 .ipv4 minuteRule ⟨10, 0⟩).getD m
  (m₁.nftBandwidthInit 1 .ipv6 minuteRule ⟨10, 0⟩).getD m₁

def minuteRecord : NftBandwidthInfo :=
  { minuteRule with previousReset := 10, nextReset := 60, iam := some 0 }

def sharedUnit : IdUnit :=
  { info := minuteRecord
    otherInfo := some minuteRecord
    maps := IpMaps.initial 0 }

def sharedRule (other : Bool) : ℕ := if other then 1 else 0

/-- A packet of the host `192.168.1.5`. -/
def arrival4 (now : ℤ) (len : BitVec 32) : Arrival :=
  ⟨false, ⟨now, 0⟩, .ipv4 0x0501a8c0 0x08080808 len⟩

/-- A packet of the host `2001:1db8:1:1:a:b:c:d`. -/
def arrival6 (now : ℤ) (len : BitVec 32) : Arrival :=
  ⟨true, ⟨now, 0⟩, .ipv6 localHost6 remoteHost6 len⟩

theorem sharedState_serves :
    sharedState.Serves 0 ⟨0, .ipv4, some 1, some .ipv6, 2, IpMaps.initial 0⟩ sharedUnit where
  iam_eq := rfl
  info_eq := rfl
  other_eq := rfl
  maps_eq := rfl
  distinct := by simp
  back := by
    intro other info hinfo
    cases other with
    | false =>
      obtain rfl := Option.some.inj hinfo
      rfl
    | true =>
      obtain rfl := Option.some.inj hinfo
      rfl

theorem sharedUnit_scheduled : sharedUnit.Scheduled where
  sound := IdUnit.Sound.of_initial rfl rfl rfl (fun o ho => by
    obtain rfl := Option.some.inj ho
    rfl)
  unsaved := rfl
  evaluated := by constructor <;> decide
  resets := by decide
  ahead := by decide

theorem sharedUnit_counting : sharedUnit.Counting := by
  intro other info hinfo
  cases other with
  | false =>
    obtain rfl := Option.some.inj hinfo
    decide
  | true =>
    obtain rfl := Option.some.inj hinfo
    decide

theorem arrival4_regular {now : ℤ} (hnow : 0 ≤ now) (len : BitVec 32) :
    sharedUnit.Regular 0 (arrival4 now len) where
  live := rfl
  apart := by
    intro priv hpriv
    obtain rfl := Option.some.inj hpriv
    change ApartFromCombined (bwIps4 minuteRecord 0x0501a8c0 0x08080808 false)
    exact fun hhash => absurd hhash (by decide)
  inRange := ⟨by simpa [arrival4] using hnow, fun hmonth => absurd hmonth (by decide)⟩

theorem arrival6_regular {now : ℤ} (hnow : 0 ≤ now) (len : BitVec 32) :
    sharedUnit.Regular 0 (arrival6 now len) where
  live := rfl
  apart := by
    intro priv hpriv
    obtain rfl := Option.some.inj hpriv
    change ApartFromCombined (bwIps6 minuteRecord localHost6 remoteHost6 false)
    exact fun hhash => absurd hhash (by decide)
  inRange := ⟨by simpa [arrival6] using hnow, fun hmonth => absurd hmonth (by decide)⟩

/-- Packets of both families in the first minute, and one that ends it. -/
theorem shared_minute_in_step :
    ∃ u', (sharedState.evaluateAll sharedRule [arrival4 30 100, arrival6 40 200,
        arrival4 61 300]).unit 0 = some u' ∧
      ∀ k, u'.reported k = min bandwidthRecordMax
        ([arrival4 61 300].map fun e => bytesTo (sharedUnit.textsOf e) e.packet.len k).sum := by
  obtain ⟨hunit, -, hreported, -, -⟩ := zeroed_once_per_boundary sharedState_serves
    sharedUnit_counting rfl sharedUnit_scheduled sharedRule ⟨rfl, rfl⟩
    [arrival4 30 100, arrival6 40 200, arrival4 61 300]
    ⟨rfl, rfl, by decide, by decide, by decide⟩
    (by
      intro e he
      simp only [mem_cons, not_mem_nil, or_false] at he
      rcases he with rfl | rfl | rfl
      · exact arrival4_regular (by decide) _
      · exact arrival6_regular (by decide) _
      · exact arrival4_regular (by decide) _)
    (by decide)
  exact ⟨_, hunit, hreported [arrival4 30 100, arrival6 40 200] (arrival4 61 300) [] rfl
    (by decide) trivial⟩

/-- After the first minute every packet through the second rule resets the
counters: of 1500 bytes sent within a minute only the last 500 are left. -/
theorem shared_minute_lost :
    sharedState.unit 0 = some sharedUnit ∧
      getNextResetTime sharedUnit.info 61 sharedUnit.info.previousReset = 120 ∧
      getNextResetTime sharedUnit.info 65 sharedUnit.info.previousReset = 120 ∧
      sharedUnit.Resets 0 (arrival4 61 100) ∧
      (sharedUnit.evaluateAll 0 [arrival4 61 100]).Resets 0 (arrival6 65 1000) ∧
      (sharedUnit.evaluateAll 0 [arrival4 61 100, arrival6 65 1000]).Resets 0 (arrival6 70 500) ∧
      ((sharedState.evaluateAll sharedRule
        [arrival4 61 100, arrival6 65 1000, arrival6 70 500]).unit 0).map
          (·.reported (Kernel.pI6c localHost6)) = some 500 :=
  ⟨rfl, by decide, by decide, by decide, by decide, by decide, by decide⟩

end TwoFamilies

end Bandwidth

end Gargoyle
