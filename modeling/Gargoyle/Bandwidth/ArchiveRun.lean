import Gargoyle.Bandwidth.Archive
import Gargoyle.Bandwidth.Registry

/-!
# Runs of an id that saves intervals

Packets, checks and interval resets keep `IdUnit.Archived`, as long as the
boundaries they go by lie apart. For an id that starts as `nft_bandwidth_init`
leaves it they do, up to the end of the running interval
(`Started.boundariesAhead`).
-/

namespace Gargoyle

namespace Bandwidth

variable [Kernel]

namespace IdUnit

variable {u : IdUnit} {now : ℤ}

/-! ## A packet is counted -/

theorem Archived.chargeCombined (h : u.Archived) (priv : NftBandwidthInfo) {len : ℕ}
    (hlen : len < 2 ^ 64) (isCheck : Bool) : (u.chargeCombined priv len isCheck).1.Archived := by
  unfold IdUnit.chargeCombined
  split
  · exact h.newEntry printedIp_combined hlen _
  · exact h.addToCell _ _ _

theorem Archived.chargeIp (h : u.Archived) {ip : String} (hip : PrintedIp ip) {len : ℕ}
    (hlen : len < 2 ^ 64) (isCheck : Bool) (family : ℕ) :
    (u.chargeIp ip len isCheck family).1.Archived := by
  unfold IdUnit.chargeIp
  split
  · split_ifs
    · exact h
    · exact h.newEntry hip hlen _
  · exact h.addToCell _ _ _

theorem Archived.modifyRecord (h : u.Archived) (len : ℕ) (isCheck other : Bool) :
    (u.modifyRecord (·.addToCurrent len isCheck) other).Archived := by
  obtain ⟨histories, hmap, hkept, hdated⟩ := h.kept
  cases other with
  | false => exact archived_of_maps h.saves rfl h.next h.positive hmap hkept hdated
  | true => exact archived_of_maps h.saves rfl h.next h.positive hmap hkept hdated

theorem Archived.countPacket (h : u.Archived) (other : Bool)
    {ips : NftBandwidthInfo → String × String} (hips : ∀ priv, PrintedIp (bwIp (ips priv)))
    (family : ℕ) {len : ℕ} (hlen : len < 2 ^ 64) (isCheck : Bool) :
    (u.countPacket other ips family len isCheck).1.Archived := by
  have hmonitor : ∀ priv, (u.chargeMonitor priv len isCheck).Archived := by
    intro priv
    unfold IdUnit.chargeMonitor
    split_ifs
    · exact h.chargeCombined priv hlen isCheck
    · exact h
  unfold IdUnit.countPacket
  cases u.record other with
  | none => exact h
  | some priv =>
    simp only
    split_ifs
    · exact (h.chargeCombined priv hlen isCheck).modifyRecord len isCheck other
    · exact (hmonitor priv).chargeIp (hips priv) hlen isCheck family
    · exact (hmonitor priv).chargeIp (hips priv) hlen isCheck family
    · exact hmonitor priv

end IdUnit

/-- Each address that is counted under is printed from an address. -/
theorem printedIp_bwIp (pkt : Packet) (priv : NftBandwidthInfo) (swap : Bool) :
    PrintedIp (bwIp (pkt.bwIps priv swap)) := by
  have hboth : PrintedIp (pkt.bwIps priv swap).1 ∧ PrintedIp (pkt.bwIps priv swap).2 := by
    have hif : ∀ (c : Prop) [Decidable c] a,
        PrintedIp (if c then combinedIp else Kernel.pI6c a) := by
      intro c _ a
      split_ifs
      · exact printedIp_combined
      · exact .inr ⟨a, rfl⟩
    cases pkt with
    | ipv4 src dst len =>
      simp only [Packet.bwIps, bwIps4]
      cases priv.type with
      | combined => exact ⟨printedIp_combined, printedIp_combined⟩
      | individualSrc => exact ⟨Or.inl ⟨_, rfl⟩, printedIp_combined⟩
      | individualDst => exact ⟨Or.inl ⟨_, rfl⟩, printedIp_combined⟩
      | individualLocal => exact ⟨Or.inl ⟨_, rfl⟩, Or.inl ⟨_, rfl⟩⟩
      | individualRemote => exact ⟨Or.inl ⟨_, rfl⟩, Or.inl ⟨_, rfl⟩⟩
    | ipv6 src dst len =>
      simp only [Packet.bwIps, bwIps6]
      cases priv.type with
      | combined => exact ⟨printedIp_combined, printedIp_combined⟩
      | individualSrc => exact ⟨Or.inr ⟨_, rfl⟩, printedIp_combined⟩
      | individualDst => exact ⟨Or.inr ⟨_, rfl⟩, printedIp_combined⟩
      | individualLocal => exact ⟨Or.inr ⟨_, rfl⟩, Or.inr ⟨_, rfl⟩⟩
      | individualRemote => exact ⟨hif _ _, hif _ _⟩
  unfold bwIp
  split_ifs
  · exact hboth.2
  · exact hboth.1

/-! ## Runs -/

inductive IdEvent
  | packet (other isCheck swap : Bool) (pkt : Packet) (now : ℤ)
  | reset (now : ℤ)

def IdEvent.now : IdEvent → ℤ
  | .packet _ _ _ _ now => now
  | .reset now => now

namespace IdUnit

def handle (u : IdUnit) : IdEvent → IdUnit
  | .packet other isCheck swap pkt now =>
    (u.evaluate other (fun priv => pkt.bwIps priv swap) pkt.family pkt.len isCheck now).1
  | .reset now => handleIntervalReset now u

def handleAll (u : IdUnit) (es : List IdEvent) : IdUnit := es.foldl handle u

variable {u : IdUnit} {now : ℤ}

theorem SameRules.handle (u : IdUnit) (e : IdEvent) : u.SameRules (u.handle e) := by
  cases e with
  | packet other isCheck swap pkt now => exact SameRules.evaluate u _ _ _ _ _ _
  | reset now => exact SameRules.handleIntervalReset now u

theorem SameRules.handleAll (u : IdUnit) (es : List IdEvent) : u.SameRules (u.handleAll es) := by
  induction es generalizing u with
  | nil => exact SameRules.refl u
  | cons e es ih => exact (SameRules.handle u e).trans (ih (u.handle e))

theorem BoundariesAhead.of_sameRules {u' : IdUnit} (h : u.BoundariesAhead now)
    (hsame : u.SameRules u') : u'.BoundariesAhead now := by
  intro x hpos hle
  rw [NftBandwidthInfo.boundaryAfter_of_rule hsame.1]
  exact h x hpos hle

theorem Archived.handle (h : u.Archived) {e : IdEvent} (hahead : u.BoundariesAhead e.now)
    (hprevious : u.info.previousReset ≤ e.now) :
    (u.handle e).Archived ∧ (u.handle e).info.previousReset ≤ e.now := by
  have hpos := h.positive.trans_le hprevious
  cases e with
  | packet other isCheck swap pkt now =>
    obtain ⟨hreset, hreset'⟩ := h.resetIfDue hahead hpos hprevious other
    have hschedule := (Agree.countPacket NftBandwidthInfo.unaccounted_schedule
      (u.resetIfDue other now) other (fun priv => pkt.bwIps priv swap) pkt.family pkt.len
      isCheck).1
    have hsame := congrArg NftBandwidthInfo.previousReset hschedule
    refine ⟨hreset.countPacket other (fun priv => printedIp_bwIp pkt priv swap) pkt.family
      (pkt.len_lt.trans (by norm_num)) isCheck, ?_⟩
    exact le_of_eq_of_le hsame hreset'
  | reset now => exact h.handleIntervalReset hahead hpos hprevious

theorem Archived.handleAll (h : u.Archived) (es : List IdEvent)
    (hordered : es.Pairwise fun e e' => e.now ≤ e'.now)
    (hstart : ∀ e ∈ es, u.info.previousReset ≤ e.now) (hend : ∀ e ∈ es, e.now ≤ now)
    (hahead : u.BoundariesAhead now) : (u.handleAll es).Archived := by
  induction es generalizing u with
  | nil => exact h
  | cons e es ih =>
    obtain ⟨hhead, htail⟩ := List.pairwise_cons.1 hordered
    have hle := hend e List.mem_cons_self
    obtain ⟨hstep, hstep'⟩ := h.handle (e := e) (fun x hpos hx => hahead x hpos (hx.trans hle))
      (hstart e List.mem_cons_self)
    exact ih hstep htail (fun e' he' => hstep'.trans (hhead e' he'))
      (fun e' he' => hend e' (List.mem_cons_of_mem e he'))
      (hahead.of_sameRules (SameRules.handle u e))

/-! ## From the start of a rule -/

/-- An id that has just been registered, with the times `nft_bandwidth_init`
sets: its first interval has begun at `previous_reset`. -/
structure Started (u : IdUnit) : Prop where
  rule : StmtEvaluated u.info.rule
  saves : 0 < u.info.numIntervalsToSave
  maps : u.maps = IpMaps.initial u.info.numIntervalsToSave
  next : u.info.nextReset = u.info.boundaryAfter u.info.previousReset
  positive : 0 < u.info.previousReset

theorem Started.archived (h : u.Started) : u.Archived := by
  refine ⟨h.saves, h.next, h.positive, HashedMap.empty, ?_, ?_, ?_⟩
  · rw [h.maps, IpMaps.initial, if_pos h.saves]
  · rw [h.maps]
    exact kept_empty _
  · intro e he
    exact absurd he List.not_mem_nil

def OnSchedule (u : IdUnit) : Prop :=
  0 < u.info.numIntervalsToSave ∧ u.info.nextReset = u.info.boundaryAfter u.info.previousReset

theorem OnSchedule.of_schedule {u' : IdUnit} (h : u.OnSchedule)
    (hsame : u'.info.schedule = u.info.schedule) : u'.OnSchedule := by
  have hrule : u'.info.schedule.rule = u.info.schedule.rule := by rw [hsame]
  have hsaves : u'.info.schedule.numIntervalsToSave = u.info.schedule.numIntervalsToSave := by
    rw [hsame]
  have hnext : u'.info.schedule.nextReset = u.info.schedule.nextReset := by rw [hsame]
  have hprevious : u'.info.schedule.previousReset = u.info.schedule.previousReset := by rw [hsame]
  refine ⟨lt_of_lt_of_eq h.1 hsaves.symm, ?_⟩
  calc u'.info.nextReset = u.info.nextReset := hnext
    _ = u.info.boundaryAfter u.info.previousReset := h.2
    _ = u'.info.boundaryAfter u.info.previousReset :=
        (NftBandwidthInfo.boundaryAfter_of_rule hrule _).symm
    _ = u'.info.boundaryAfter u'.info.previousReset := congrArg _ hprevious.symm

theorem OnSchedule.closeIntervals (h : u.OnSchedule) (now : ℤ) (n : ℕ) :
    (Bandwidth.closeIntervals now n u).OnSchedule := by
  induction n generalizing u with
  | zero => exact h
  | succ n ih =>
    unfold Bandwidth.closeIntervals
    split
    · split_ifs
      · refine ih ⟨h.1, ?_⟩
        exact (NftBandwidthInfo.boundaryAfter_of_rule
          (SameRules.closeInterval u _ now).1 u.info.nextReset).symm
      · exact h
    · exact h

theorem OnSchedule.handleIntervalReset (h : u.OnSchedule) (now : ℤ) :
    (Bandwidth.handleIntervalReset now u).OnSchedule := by
  unfold Bandwidth.handleIntervalReset
  rw [if_neg h.1.ne']
  have hclosed := h.closeIntervals now u.info.numIntervalsToSave
  have hrules := SameRules.wipeHistories (Bandwidth.closeIntervals now u.info.numIntervalsToSave u)
    now
  split_ifs
  · exact h
  · have hwiped : (Bandwidth.wipeHistories
        (Bandwidth.closeIntervals now u.info.numIntervalsToSave u) now).OnSchedule := by
      unfold Bandwidth.wipeHistories at hrules ⊢
      split
      · split_ifs with hdue
        · exact ⟨hclosed.1, (NftBandwidthInfo.boundaryAfter_of_rule rfl now).symm⟩
        · exact hclosed
      · exact hclosed
    exact hwiped.of_schedule rfl

theorem OnSchedule.handle (h : u.OnSchedule) (e : IdEvent) : (u.handle e).OnSchedule := by
  cases e with
  | packet other isCheck swap pkt now =>
    have hreset : (u.resetIfDue other now).OnSchedule := by
      unfold IdUnit.resetIfDue
      split
      · exact h
      · split_ifs
        · exact h.handleIntervalReset now
        · exact h
    exact hreset.of_schedule
      (Agree.countPacket NftBandwidthInfo.unaccounted_schedule _ _ _ _ _ _).1
  | reset now => exact h.handleIntervalReset now

theorem OnSchedule.handleAll (h : u.OnSchedule) (es : List IdEvent) :
    (u.handleAll es).OnSchedule := by
  induction es generalizing u with
  | nil => exact h
  | cons e es ih => exact ih (h.handle e)

theorem Started.boundariesAhead (h : u.Started) (es : List IdEvent)
    (hnext : now < (u.handleAll es).info.nextReset) (hpos : 0 < now) :
    u.BoundariesAhead now := by
  have hscheduled := (OnSchedule.handleAll ⟨h.saves, h.next⟩ es).2
  rw [NftBandwidthInfo.boundaryAfter_of_rule (SameRules.handleAll u es).1] at hscheduled
  generalize (u.handleAll es).info.previousReset = x at hscheduled
  rw [hscheduled] at hnext
  intro y hy hle
  change y < getNextResetTime u.info.rule y y
  change now < getNextResetTime u.info.rule x x at hnext
  apply lt_getNextResetTime_of_horizon h.rule
  · intro hnever
    rw [getNextResetTime_of_never h.rule hnever] at hnext
    omega
  · exact hy.le
  · intro hmonth
    exact (hle.trans_lt hnext).trans_le (getNextResetTime_le_horizon h.rule hmonth x x)

end IdUnit

end Bandwidth

end Gargoyle
