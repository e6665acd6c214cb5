import Gargoyle.Qos.Monitor
import Mathlib.Tactic.Positivity

/-!
# The limits of the link stay in their range

The limit that the controller proposes, and the two that it saves, are between 15% and 100% of the
link in every run in which the ping limit is positive whenever the limit is moved and no product
overflows. The limit last sent to the kernel is in that range too, outside the measurement, as long
as the list of the classes does not change during a measurement (`limits_of_orderly`). When it does,
the machine starts over with the link still unloaded (`changed_in_measurement`).
-/

namespace Gargoyle

namespace Qos

theorem le_truncate {n : ℤ} {q : ℚ} (hn : 0 ≤ n) (h : n ≤ q) : n ≤ truncate q := by
  have hq : 0 ≤ q := le_trans (by exact_mod_cast hn) h
  rw [truncate, if_pos hq]
  exact Int.le_floor.mpr h

theorem truncate_le {n : ℤ} {q : ℚ} (h : q ≤ n) : truncate q ≤ n := by
  rw [truncate]
  split_ifs with hq
  · exact_mod_cast (Int.floor_le q).trans h
  · exact Int.ceil_le.mpr h

theorem truncate_intCast {n : ℤ} (hn : 0 ≤ n) : truncate (n : ℚ) = n :=
  le_antisymm (truncate_le le_rfl) (le_truncate hn le_rfl)

theorem Processor.toInt_of_fits {cpu : Processor} {q : ℚ} (h : FitsInt (truncate q)) :
    cpu.toInt (some q) = truncate q :=
  if_pos h

theorem Processor.toInt_intCast {cpu : Processor} {n : ℤ} (hn : 0 ≤ n) (hlt : n < 2 ^ 31) :
    cpu.toInt (some (n : ℚ)) = n := by
  have hfits : FitsInt (truncate (n : ℚ)) := by
    rw [truncate_intCast hn]
    exact ⟨by omega, hlt⟩
  rw [toInt_of_fits hfits, truncate_intCast hn]

namespace Config

variable {cfg : Config}

theorem DBW_UL_pos : 0 < cfg.DBW_UL := by
  have h := cfg.le_bandwidth
  rw [DBW_UL]
  omega

theorem toInt_ninety (cpu : Processor) :
    cpu.toInt (some (cfg.DBW_UL * (9 / 10))) = cfg.bandwidth * 900 := by
  have h := cfg.le_bandwidth
  have hlt := cfg.bandwidth_lt
  have heq : (cfg.DBW_UL : ℚ) * (9 / 10) = ((cfg.bandwidth * 900 : ℤ) : ℚ) := by
    rw [DBW_UL]
    push_cast
    ring
  rw [heq, Processor.toInt_intCast (by omega) (by omega)]

theorem floor_eq : (cfg.DBW_UL : ℚ) * (15 / 100) = ((cfg.bandwidth * 150 : ℤ) : ℚ) := by
  rw [DBW_UL]
  push_cast
  ring

theorem toInt_floor (cpu : Processor) :
    cpu.toInt (some (cfg.DBW_UL * (15 / 100))) = cfg.bandwidth * 150 := by
  have h := cfg.le_bandwidth
  have hlt := cfg.bandwidth_lt
  rw [floor_eq, Processor.toInt_intCast (by omega) (by omega)]

def InRange (cfg : Config) (limit : ℤ) : Prop :=
  15 * cfg.DBW_UL ≤ 100 * limit ∧ limit ≤ cfg.DBW_UL

instance (cfg : Config) (limit : ℤ) : Decidable (cfg.InRange limit) :=
  inferInstanceAs (Decidable (_ ∧ _))

theorem inRange_ninety : cfg.InRange (cfg.bandwidth * 900) := by
  have h := cfg.le_bandwidth
  constructor <;> rw [DBW_UL] <;> omega

theorem inRange_full : cfg.InRange cfg.DBW_UL := by
  have hpos := cfg.DBW_UL_pos
  exact ⟨by omega, le_rfl⟩

theorem inRange_floor : cfg.InRange (cfg.bandwidth * 150) := by
  have h := cfg.le_bandwidth
  constructor <;> rw [DBW_UL] <;> omega

end Config

theorem Config.InRange.nonneg {cfg : Config} {limit : ℤ} (h : cfg.InRange limit) : 0 ≤ limit := by
  have hpos := cfg.DBW_UL_pos
  have hle := h.1
  omega

namespace State

structure LimitsInRange (cfg : Config) (s : State) : Prop where
  proposed : cfg.InRange s.newDbwUl
  savedActive : cfg.InRange s.savedActiveLimit
  savedRealtime : cfg.InRange s.savedRealtimeLimit

structure SameLimits (s s' : State) : Prop where
  qstate : s'.qstate = s.qstate
  dbwUl : s'.dbwUl = s.dbwUl
  newDbwUl : s'.newDbwUl = s.newDbwUl
  savedActiveLimit : s'.savedActiveLimit = s.savedActiveLimit
  savedRealtimeLimit : s'.savedRealtimeLimit = s.savedRealtimeLimit

namespace SameLimits

variable {s s' s'' : State} {cfg : Config}

theorem refl (s : State) : SameLimits s s := ⟨rfl, rfl, rfl, rfl, rfl⟩

theorem trans (h : SameLimits s s') (h' : SameLimits s' s'') : SameLimits s s'' where
  qstate := h'.qstate.trans h.qstate
  dbwUl := h'.dbwUl.trans h.dbwUl
  newDbwUl := h'.newDbwUl.trans h.newDbwUl
  savedActiveLimit := h'.savedActiveLimit.trans h.savedActiveLimit
  savedRealtimeLimit := h'.savedRealtimeLimit.trans h.savedRealtimeLimit

theorem limitsInRange (h : SameLimits s s') (hs : s.LimitsInRange cfg) : s'.LimitsInRange cfg where
  proposed := by rw [h.newDbwUl]; exact hs.proposed
  savedActive := by rw [h.savedActiveLimit]; exact hs.savedActive
  savedRealtime := by rw [h.savedRealtimeLimit]; exact hs.savedRealtime

end SameLimits

variable {cpu : Processor} {cfg : Config} {s : State} {t : Tick}

theorem prPack_same (cfg : Config) (s : State) (reply : Reply) :
    SameLimits s (s.prPack cfg reply) := by
  rw [prPack]
  split_ifs <;> exact ⟨rfl, rfl, rfl, rfl, rfl⟩

theorem foldl_prPack_same (cfg : Config) (replies : List Reply) (s : State) :
    SameLimits s (replies.foldl (prPack cfg) s) := by
  induction replies generalizing s with
  | nil => exact .refl s
  | cons reply replies ih =>
    rw [List.foldl_cons]
    exact (prPack_same cfg s reply).trans (ih _)

theorem ping_same (cfg : Config) (s : State) (replies : List Reply) :
    SameLimits s (s.ping cfg replies) := by
  rw [ping]
  refine SameLimits.trans ?_ (foldl_prPack_same cfg replies _)
  split_ifs <;> exact ⟨rfl, rfl, rfl, rfl, rfl⟩

theorem filter_same (cfg : Config) (s : State) : SameLimits s (s.filter cfg) := by
  rw [filter]
  split_ifs <;> exact ⟨rfl, rfl, rfl, rfl, rfl⟩

theorem tcClassModify_eq (s : State) (rate : ℤ) : s.tcClassModify rate = { s with dbwUl := rate } := by
  rw [tcClassModify]
  split_ifs with h
  · rw [← h]
  · rfl

theorem applyLimit_eq (s : State) : s.applyLimit = { s with dbwUl := s.newDbwUl } :=
  tcClassModify_eq s s.newDbwUl

theorem foldl_prPack_resetbw (cfg : Config) (replies : List Reply) (s : State) :
    (replies.foldl (prPack cfg) s).resetbw = s.resetbw := by
  induction replies generalizing s with
  | nil => rfl
  | cons reply replies ih =>
    rw [List.foldl_cons, ih, prPack]
    split_ifs <;> rfl

theorem ping_resetbw (cfg : Config) (s : State) (replies : List Reply) :
    (s.ping cfg replies).resetbw = s.resetbw := by
  rw [ping, foldl_prPack_resetbw]
  split_ifs <;> rfl

structure Safe (cfg : Config) (s : State) : Prop where
  limits : s.LimitsInRange cfg ∨ s.resetbw = true ∧ s.qstate = .chk
  sent : s.qstate ≠ .init → cfg.InRange s.dbwUl

/-- The limit is left as it is, or it is moved with a positive ping limit and a product that an `int`
can hold. -/
def Adjustable (cfg : Config) (s : State) : Prop :=
  s.err < 0 ∧ (s.dbwFil : ℚ) < s.dbwUl * (85 / 100) ∨
    0 < s.plimit ∧ ∀ q ∈ s.scaled cfg, FitsInt (truncate q)

/-- The `switch` enters the code that moves the limit. -/
def Controls (cfg : Config) (s : State) : Prop :=
  s.qstate = .active ∨ s.qstate = .realtime ∨ s.qstate = .idle ∧ ¬s.StaysIdle cfg

structure OrderlyPass (cpu : Processor) (cfg : Config) (s : State) (t : Tick) : Prop where
  measured : s.qstate = .init → ¬s.ClassesChanged t.classes
  adjusted : ¬s.ClassesChanged t.classes → (s.switchState cpu cfg t).Controls cfg →
    ((s.switchState cpu cfg t).enterControl cfg).Adjustable cfg

def OrderlyRun (cpu : Processor) (cfg : Config) : State → List Tick → Prop
  | _, [] => True
  | s, t :: ts => s.OrderlyPass cpu cfg t ∧ OrderlyRun cpu cfg (s.pass cpu cfg t) ts

structure Steady (cfg : Config) (s : State) : Prop where
  limits : s.LimitsInRange cfg
  sent : s.qstate ≠ .init → cfg.InRange s.dbwUl

namespace Steady

theorem safe (h : s.Steady cfg) : s.Safe cfg := ⟨.inl h.limits, h.sent⟩

theorem check (h : s.Steady cfg) (hq : s.qstate = .chk) : (s.check cfg).Steady cfg := by
  have hsent : cfg.InRange s.dbwUl := h.sent (by simp [hq])
  obtain ⟨⟨hnew, hactive, hrealtime⟩, -⟩ := h
  rw [State.check]
  split_ifs
  · rw [applyLimit_eq]
    exact ⟨⟨hnew, hactive, hrealtime⟩, fun _ => hnew⟩
  · rw [tcClassModify_eq]
    exact ⟨⟨hnew, hactive, hrealtime⟩, fun hinit => absurd rfl hinit⟩
  · exact ⟨⟨hnew, hactive, hrealtime⟩, fun _ => hsent⟩

theorem measure (h : s.Steady cfg) (hq : s.qstate = .init) : (s.measure cpu cfg).Steady cfg := by
  obtain ⟨⟨hnew, hactive, hrealtime⟩, -⟩ := h
  rw [State.measure]
  simp only [applyLimit_eq]
  split_ifs
  · exact ⟨⟨hnew, hactive, hrealtime⟩, fun _ => hnew⟩
  · exact ⟨⟨hnew, hactive, hrealtime⟩, fun hinit => absurd hq hinit⟩
  · exact ⟨⟨hnew, hactive, hrealtime⟩, fun _ => hnew⟩
  · exact ⟨⟨hnew, hactive, hrealtime⟩, fun hinit => absurd hq hinit⟩

theorem saveLimit (h : s.Steady cfg) : s.saveLimit.Steady cfg := by
  obtain ⟨⟨hnew, hactive, hrealtime⟩, hsent⟩ := h
  rw [State.saveLimit]
  split_ifs
  · exact ⟨⟨hnew, hnew, hnew⟩, hsent⟩
  · exact ⟨⟨hnew, hactive, hnew⟩, hsent⟩
  · exact ⟨⟨hnew, hnew, hrealtime⟩, hsent⟩
  · exact ⟨⟨hnew, hactive, hrealtime⟩, hsent⟩

theorem selectMode (h : s.Steady cfg) : (s.selectMode cfg).Steady cfg := by
  obtain ⟨⟨hnew, hactive, hrealtime⟩, hsent⟩ := h
  rw [State.selectMode]
  simp only [applyLimit_eq]
  split_ifs
  · exact ⟨⟨hactive, hactive, hrealtime⟩, fun _ => hactive⟩
  · exact ⟨⟨hnew, hactive, hrealtime⟩, hsent⟩
  · exact ⟨⟨hrealtime, hactive, hrealtime⟩, fun _ => hrealtime⟩
  · exact ⟨⟨hnew, hactive, hrealtime⟩, hsent⟩

theorem becomeIdle (h : s.Steady cfg) (hq : s.qstate ≠ .init) : (s.becomeIdle cfg).Steady cfg := by
  obtain ⟨⟨hnew, hactive, hrealtime⟩, hsent⟩ := h
  rw [State.becomeIdle]
  split_ifs
  · exact ⟨⟨hnew, hactive, hrealtime⟩, fun _ => hsent hq⟩
  · exact ⟨⟨hnew, hactive, hrealtime⟩, hsent⟩

theorem sendLimit (h : s.Steady cfg) {limit : ℤ} (hlimit : cfg.InRange limit) :
    { s with newDbwUl := limit }.sendLimit.Steady cfg := by
  obtain ⟨⟨-, hactive, hrealtime⟩, -⟩ := h
  rw [State.sendLimit]
  simp only [applyLimit_eq]
  split_ifs
  · exact ⟨⟨hlimit, hactive, hrealtime⟩, fun _ => hlimit⟩
  · exact ⟨⟨hlimit, hactive, hrealtime⟩, fun _ => hlimit⟩

end Steady

theorem scaled_eq (h : 0 < s.plimit) :
    s.scaled cfg =
      some ((s.newDbwUl : ℚ) * (1 - s.err * (cfg.period / (250000 * s.plimit)))) := by
  have hne : (s.plimit : ℚ) ≠ 0 := by exact_mod_cast h.ne'
  rw [scaled, if_neg h.ne']
  congr 2
  field_simp
  ring

theorem gain_nonneg (cfg : Config) (h : 0 < s.plimit) :
    (0 : ℚ) ≤ cfg.period / (250000 * s.plimit) := by
  have hle := cfg.le_period
  have hperiod : (0 : ℚ) ≤ cfg.period := by exact_mod_cast (by omega : 0 ≤ cfg.period)
  have hplimit : (0 : ℚ) < s.plimit := by exact_mod_cast h
  positivity

theorem le_toInt_scaled (h : 0 < s.plimit) (hfits : ∀ q ∈ s.scaled cfg, FitsInt (truncate q))
    (hnew : 0 ≤ s.newDbwUl) (herr : s.err < 0) : s.newDbwUl ≤ cpu.toInt (s.scaled cfg) := by
  have hgain := gain_nonneg cfg h
  have herr' : (s.err : ℚ) ≤ 0 := by exact_mod_cast herr.le
  have hnew' : (0 : ℚ) ≤ s.newDbwUl := by exact_mod_cast hnew
  rw [scaled_eq h] at hfits ⊢
  rw [Processor.toInt_of_fits (hfits _ rfl)]
  refine le_truncate hnew ?_
  have hmul : (s.err : ℚ) * (cfg.period / (250000 * s.plimit)) ≤ 0 :=
    mul_nonpos_of_nonpos_of_nonneg herr' hgain
  exact le_mul_of_one_le_right hnew' (by linarith)

theorem toInt_scaled_le (h : 0 < s.plimit) (hfits : ∀ q ∈ s.scaled cfg, FitsInt (truncate q))
    (hnew : 0 ≤ s.newDbwUl) (herr : ¬s.err < 0) : cpu.toInt (s.scaled cfg) ≤ s.newDbwUl := by
  have hgain := gain_nonneg cfg h
  have herr' : (0 : ℚ) ≤ s.err := by exact_mod_cast not_lt.mp herr
  have hnew' : (0 : ℚ) ≤ s.newDbwUl := by exact_mod_cast hnew
  rw [scaled_eq h] at hfits ⊢
  rw [Processor.toInt_of_fits (hfits _ rfl)]
  refine truncate_le ?_
  have hmul : (0 : ℚ) ≤ s.err * (cfg.period / (250000 * s.plimit)) := mul_nonneg herr' hgain
  exact mul_le_of_le_one_right hnew' (by linarith)

theorem Steady.adjust (h : s.Steady cfg) (hadj : s.Adjustable cfg) : (s.adjust cpu cfg).Steady cfg := by
  obtain ⟨hlow, hhigh⟩ := h.limits.proposed
  have hnew := h.limits.proposed.nonneg
  rw [State.adjust]
  dsimp only
  split_ifs with herr hload habove hbelow
  · exact h
  · exact h.sendLimit Config.inRange_full
  · obtain hskip | ⟨hpos, hfits⟩ := hadj
    · exact absurd hskip.2 hload
    · have hle : s.newDbwUl ≤ cpu.toInt (s.scaled cfg) := le_toInt_scaled hpos hfits hnew herr
      exact h.sendLimit ⟨by omega, not_lt.mp habove⟩
  · rw [Config.toInt_floor]
    exact h.sendLimit Config.inRange_floor
  · obtain hskip | ⟨hpos, hfits⟩ := hadj
    · exact absurd hskip.1 herr
    · have hle : cpu.toInt (s.scaled cfg) ≤ s.newDbwUl := toInt_scaled_le hpos hfits hnew herr
      have hfloor : cfg.InRange (cfg.bandwidth * 150) := Config.inRange_floor
      have hfloor := hfloor.1
      rw [Config.floor_eq, Int.cast_lt] at hbelow
      exact h.sendLimit ⟨by omega, by omega⟩

theorem selectMode_qstate (cfg : Config) (s : State) : (s.selectMode cfg).qstate ≠ .init := by
  rw [State.selectMode]
  simp only [applyLimit_eq]
  split_ifs with hmode hactive hrealtime
  · simp
  · simp_all
  · simp
  · simp_all

theorem Steady.enterControl (h : s.Steady cfg) : (s.enterControl cfg).Steady cfg := by
  have hping : { s with pingon := true }.Steady cfg := ⟨⟨h.1.1, h.1.2, h.1.3⟩, h.2⟩
  exact hping.saveLimit.selectMode.becomeIdle (selectMode_qstate cfg _)

theorem Steady.machine (h : s.Steady cfg)
    (hadj : s.Controls cfg → (s.enterControl cfg).Adjustable cfg) :
    (s.machine cpu cfg).Steady cfg := by
  rw [State.machine]
  split
  case h_1 hq => exact h.check hq
  case h_2 hq => exact h.measure hq
  case h_3 hq =>
    have hoff : { s with pingon := false }.Steady cfg := ⟨⟨h.1.1, h.1.2, h.1.3⟩, h.2⟩
    dsimp only
    split_ifs with hidle
    · exact hoff
    · exact hoff.enterControl.adjust (hadj (.inr (.inr ⟨hq, hidle⟩)))
  case h_4 hq => exact h.enterControl.adjust (hadj (.inl hq))
  case h_5 hq => exact h.enterControl.adjust (hadj (.inr (.inl hq)))
  case h_6 => exact h

theorem SameLimits.steady {s' : State} (h : SameLimits s s') (hs : s.Steady cfg) : s'.Steady cfg where
  limits := h.limitsInRange hs.limits
  sent hq := by
    rw [h.dbwUl]
    exact hs.sent (h.qstate ▸ hq)

theorem listing_same (cfg : Config) (s : State) (t : Tick) :
    SameLimits s (((s.ping cfg t.replies).classList t.classes).resetsig t.signalBefore) :=
  (ping_same cfg s t.replies).trans ⟨rfl, rfl, rfl, rfl, rfl⟩

theorem Safe.reset (h : s.Safe cfg) : (s.reset cpu cfg).Steady cfg := by
  have hninety : cfg.InRange (cpu.toInt (some (cfg.DBW_UL * (9 / 10)))) := by
    rw [Config.toInt_ninety]
    exact Config.inRange_ninety
  rw [State.reset]
  split_ifs with hreset
  · exact ⟨⟨hninety, hninety, hninety⟩, h.sent⟩
  · exact ⟨h.limits.resolve_right fun hpending => hreset hpending.1, h.sent⟩

theorem SameLimits.safe {s' : State} (h : SameLimits s s') (hreset : s.resetbw = true → s'.resetbw = true)
    (hs : s.Safe cfg) : s'.Safe cfg where
  limits := by
    obtain hlimits | ⟨hpending, hchk⟩ := hs.limits
    · exact .inl (h.limitsInRange hlimits)
    · exact .inr ⟨hreset hpending, h.qstate.trans hchk⟩
  sent hq := by
    rw [h.dbwUl]
    exact hs.sent (h.qstate ▸ hq)

theorem Safe.switchState (h : s.Safe cfg) : (s.switchState cpu cfg t).Steady cfg := by
  have hlisting : (((s.ping cfg t.replies).classList t.classes).resetsig t.signalBefore).Safe cfg := by
    refine (listing_same cfg s t).safe (fun hpending => ?_) h
    simp [State.resetsig, State.classList, ping_resetbw, hpending]
  rw [State.switchState]
  refine (filter_same cfg _).steady (Safe.reset ?_)
  split_ifs
  · exact ⟨hlisting.limits.imp (fun hl => ⟨hl.1, hl.2, hl.3⟩) id, hlisting.sent⟩
  · exact ⟨hlisting.limits.imp (fun hl => ⟨hl.1, hl.2, hl.3⟩) id, hlisting.sent⟩

theorem Safe.pass_of_unchanged (h : s.Safe cfg) (hclasses : ¬s.ClassesChanged t.classes)
    (horderly : s.OrderlyPass cpu cfg t) : (s.pass cpu cfg t).Steady cfg := by
  rw [State.pass, if_neg hclasses]
  have hmachine : ((s.switchState cpu cfg t).machine cpu cfg).Steady cfg :=
    h.switchState.machine (horderly.adjusted hclasses)
  exact ⟨⟨hmachine.1.1, hmachine.1.2, hmachine.1.3⟩, hmachine.2⟩

theorem Safe.pass (h : s.Safe cfg) (horderly : s.OrderlyPass cpu cfg t) :
    (s.pass cpu cfg t).Safe cfg := by
  by_cases hclasses : s.ClassesChanged t.classes
  · have hsame := listing_same cfg s t
    have hinit : s.qstate ≠ .init := fun hq => horderly.measured hq hclasses
    rw [State.pass, if_pos hclasses]
    refine ⟨?_, fun _ => ?_⟩
    · obtain hlimits | ⟨hpending, -⟩ := h.limits
      · obtain ⟨hnew, hactive, hrealtime⟩ := hsame.limitsInRange hlimits
        exact .inl ⟨hnew, hactive, hrealtime⟩
      · refine .inr ⟨?_, rfl⟩
        simp [State.resetsig, State.startOver, State.classList, ping_resetbw, hpending]
    · exact hsame.dbwUl ▸ h.sent hinit
  · exact (h.pass_of_unchanged hclasses horderly).safe

theorem Safe.pass_limits (h : s.Safe cfg) (horderly : s.OrderlyPass cpu cfg t)
    (hlimits : s.LimitsInRange cfg) : (s.pass cpu cfg t).LimitsInRange cfg := by
  by_cases hclasses : s.ClassesChanged t.classes
  · rw [State.pass, if_pos hclasses]
    obtain ⟨hnew, hactive, hrealtime⟩ := (listing_same cfg s t).limitsInRange hlimits
    exact ⟨hnew, hactive, hrealtime⟩
  · exact (h.pass_of_unchanged hclasses horderly).limits

theorem safe_initial (cpu : Processor) (cfg : Config) (classcnt : ℕ) :
    (initial cpu cfg classcnt).Safe cfg := by
  have hninety : cfg.InRange (cpu.toInt (some (cfg.DBW_UL * (9 / 10)))) := by
    rw [Config.toInt_ninety]
    exact Config.inRange_ninety
  rw [initial]
  simp only [applyLimit_eq]
  split_ifs
  all_goals first
    | exact ⟨.inl ⟨hninety, hninety, hninety⟩, fun _ => hninety⟩
    | exact ⟨.inr ⟨rfl, rfl⟩, fun _ => Config.inRange_full⟩

instance (cfg : Config) (s : State) : Decidable (s.Adjustable cfg) :=
  inferInstanceAs (Decidable (_ ∨ _ ∧ _))

instance (cfg : Config) (s : State) : Decidable (s.Controls cfg) :=
  inferInstanceAs (Decidable (_ ∨ _ ∨ _ ∧ _))

instance (cpu : Processor) (cfg : Config) (s : State) (t : Tick) :
    Decidable (s.OrderlyPass cpu cfg t) :=
  decidable_of_iff
    ((s.qstate = .init → ¬s.ClassesChanged t.classes) ∧
      (¬s.ClassesChanged t.classes → (s.switchState cpu cfg t).Controls cfg →
        ((s.switchState cpu cfg t).enterControl cfg).Adjustable cfg))
    ⟨fun h => ⟨h.1, h.2⟩, fun h => ⟨h.1, h.2⟩⟩

instance decidableOrderlyRun (cpu : Processor) (cfg : Config) :
    (s : State) → (ts : List Tick) → Decidable (OrderlyRun cpu cfg s ts)
  | _, [] => isTrue trivial
  | s, t :: ts =>
    have := decidableOrderlyRun cpu cfg (s.pass cpu cfg t) ts
    inferInstanceAs (Decidable (_ ∧ _))

theorem Safe.run (h : s.Safe cfg) (ticks : List Tick) (horderly : OrderlyRun cpu cfg s ticks) :
    (s.run cpu cfg ticks).Safe cfg := by
  induction ticks generalizing s with
  | nil => exact h
  | cons t ts ih =>
    rw [State.run, List.foldl_cons]
    exact ih (h.pass horderly.1) horderly.2

theorem Safe.run_limits (h : s.Safe cfg) (hlimits : s.LimitsInRange cfg) (ticks : List Tick)
    (horderly : OrderlyRun cpu cfg s ticks) : (s.run cpu cfg ticks).LimitsInRange cfg := by
  induction ticks generalizing s with
  | nil => exact hlimits
  | cons t ts ih =>
    rw [State.run, List.foldl_cons]
    exact ih (h.pass horderly.1) (h.pass_limits horderly.1 hlimits) horderly.2

theorem orderlyRun_append {s : State} {before after : List Tick} :
    OrderlyRun cpu cfg s (before ++ after) ↔
      OrderlyRun cpu cfg s before ∧ OrderlyRun cpu cfg (s.run cpu cfg before) after := by
  induction before generalizing s with
  | nil => simp [OrderlyRun, State.run]
  | cons t ts ih => simp [OrderlyRun, State.run, ih, and_assoc]

theorem run_append (s : State) (before after : List Tick) :
    s.run cpu cfg (before ++ after) = (s.run cpu cfg before).run cpu cfg after :=
  List.foldl_append

theorem limitsInRange_initial (cpu : Processor) (classcnt : ℕ)
    (h : cfg.skipInitialMeasurement = true) : (initial cpu cfg classcnt).LimitsInRange cfg := by
  have hchk : (initial cpu cfg classcnt).qstate = .idle := by
    simp [initial, applyLimit_eq, setLimits, h]
  refine (safe_initial cpu cfg classcnt).limits.resolve_right fun hpending => ?_
  rw [hchk] at hpending
  exact absurd hpending.2 (by decide)

/-- In an orderly run the three limits are in range from the moment they are set on, and the limit
last sent to the kernel is in range outside the measurement, and when the program ends. -/
theorem limits_of_orderly (cpu : Processor) (cfg : Config) (classcnt : ℕ) (before after : List Tick)
    (horderly : OrderlyRun cpu cfg (initial cpu cfg classcnt) (before ++ after)) :
    let s := (initial cpu cfg classcnt).run cpu cfg (before ++ after)
    (cfg.skipInitialMeasurement = true ∨
        ((initial cpu cfg classcnt).run cpu cfg before).resetbw = false → s.LimitsInRange cfg) ∧
      (s.qstate ≠ .init → cfg.InRange s.dbwUl) ∧ cfg.InRange (s.finish cfg).dbwUl := by
  have hinitial := safe_initial cpu cfg classcnt
  obtain ⟨hbefore, hafter⟩ := orderlyRun_append.mp horderly
  have hmiddle := hinitial.run before hbefore
  refine ⟨fun hset => ?_, (hinitial.run _ horderly).sent, ?_⟩
  · rw [run_append]
    refine hmiddle.run_limits ?_ after hafter
    obtain hskip | hreset := hset
    · exact hinitial.run_limits (limitsInRange_initial cpu classcnt hskip) before hbefore
    · refine hmiddle.limits.resolve_right fun hpending => ?_
      simp [hreset] at hpending
  · rw [finish, tcClassModify_eq]
    exact Config.inRange_full

def smallLink (limit : Option ℤ) : Config where
  period := 800
  bandwidth := 1000
  limit := limit
  addEntitlement := false
  skipInitialMeasurement := false
  customTriptime := -1
  le_period := by decide
  period_le := by decide
  le_bandwidth := by decide
  bandwidth_lt := by decide

def saturating : Processor where
  outside _ := 2 ^ 31 - 1

def quietTick (seqs : List ℕ) (classcnt : ℕ) (dbwFil : ℤ) : Tick where
  replies := seqs.map fun seq => ⟨seq, 40⟩
  classes := { errorflg := false, classcnt := classcnt, rtdca := 0, dbwFil := dbwFil }
  signalBefore := false
  signalAfter := false

/-- With a ping limit of 50 ms the machine is idle after two replies, and then controls a link in
use. -/
theorem limits_of_loaded_link :
    let ticks := [quietTick [] 5 0, quietTick [1, 1] 5 0, quietTick [2] 5 950000,
      quietTick [3] 5 950000]
    (smallLink (some 50)).InRange
      ((initial saturating (smallLink (some 50)) 5).run saturating (smallLink (some 50)) ticks).dbwUl :=
  (limits_of_orderly saturating (smallLink (some 50)) 5 []
    [quietTick [] 5 0, quietTick [1, 1] 5 0, quietTick [2] 5 950000, quietTick [3] 5 950000]
    (by decide +kernel)).2.1 (by decide +kernel)

/-- A class is added during the measurement: the machine starts over, and the link stays at the 1000
bps of the measurement. -/
theorem changed_in_measurement :
    let s := (initial saturating (smallLink none) 5).run saturating (smallLink none)
      [quietTick [] 5 0, quietTick [1, 1] 5 0, quietTick [2] 6 0]
    s.qstate = .chk ∧ s.dbwUl = 1000 ∧ ¬(smallLink none).InRange s.dbwUl := by
  decide

end State

end Qos

end Gargoyle
