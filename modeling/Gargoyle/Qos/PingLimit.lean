import Gargoyle.Qos.LinkLimit

/-!
# The ping limit over a run

A measurement of the round trip makes a new ping limit, with `-a` out of the one before. Nothing else
changes the ping limit, so that after a run it is known from the measurements that have ended in it
(`pinglimit_run`).
-/

namespace Gargoyle

namespace Qos

def clampLimit (limit : ℤ) : ℤ :=
  let limit := if limit < 10000 then 10000 else limit
  if limit > 800000 then 800000 else limit

namespace State

section Measurements

variable (cpu : Processor) (cfg : Config)

def Completes (s : State) (t : Tick) : Prop :=
  ¬s.ClassesChanged t.classes ∧ (s.switchState cpu cfg t).qstate = .init ∧
    (s.switchState cpu cfg t).nreceived > (15000 : ℤ).tdiv cfg.period + 1

instance (s : State) (t : Tick) : Decidable (s.Completes cpu cfg t) :=
  inferInstanceAs (Decidable (_ ∧ _ ∧ _))

def measurements : State → List Tick → List ℤ
  | _, [] => []
  | s, t :: ticks =>
    let s' := s.pass cpu cfg t
    if s.Completes cpu cfg t then s'.filTriptime :: measurements s' ticks
    else measurements s' ticks

def nextLimit (limit filTriptime : ℤ) : ℤ :=
  clampLimit (if cfg.addEntitlement then cpu.toInt (some (limit + filTriptime * (11 / 10)))
    else cpu.toInt (some (filTriptime * 2)))

variable {cpu cfg} {s : State} {t : Tick}

theorem ping_pinglimit (s : State) (replies : List Reply) :
    (s.ping cfg replies).pinglimit = s.pinglimit := by
  have hfold : ∀ s : State, (replies.foldl (prPack cfg) s).pinglimit = s.pinglimit := by
    induction replies with
    | nil => exact fun _ => rfl
    | cons reply replies ih =>
      intro s
      rw [List.foldl_cons, ih, prPack]
      split_ifs <;> rfl
  rw [ping, hfold]
  split_ifs <;> rfl

theorem reset_pinglimit (s : State) : (s.reset cpu cfg).pinglimit = s.pinglimit := by
  rw [reset]
  split_ifs <;> rfl

theorem filter_pinglimit (s : State) : (s.filter cfg).pinglimit = s.pinglimit := by
  rw [filter]
  split_ifs <;> rfl

theorem switchState_pinglimit : (s.switchState cpu cfg t).pinglimit = s.pinglimit := by
  rw [switchState, filter_pinglimit, reset_pinglimit]
  refine Eq.trans ?_ (@ping_pinglimit cfg s t.replies)
  split_ifs <;> rfl

theorem saveLimit_pinglimit (s : State) : s.saveLimit.pinglimit = s.pinglimit := by
  rw [saveLimit]
  split_ifs <;> rfl

theorem selectMode_pinglimit (s : State) : (s.selectMode cfg).pinglimit = s.pinglimit := by
  simp only [selectMode, applyLimit_eq]
  split_ifs <;> rfl

theorem becomeIdle_pinglimit (s : State) : (s.becomeIdle cfg).pinglimit = s.pinglimit := by
  rw [becomeIdle]
  split_ifs <;> rfl

theorem sendLimit_pinglimit (s : State) : s.sendLimit.pinglimit = s.pinglimit := by
  simp only [sendLimit, applyLimit_eq]
  split_ifs <;> rfl

theorem adjust_pinglimit (s : State) : (s.adjust cpu cfg).pinglimit = s.pinglimit := by
  simp only [adjust]
  split_ifs
  · rfl
  all_goals exact sendLimit_pinglimit _

theorem control_pinglimit (s : State) : (s.control cpu cfg).pinglimit = s.pinglimit := by
  rw [control, adjust_pinglimit, enterControl, becomeIdle_pinglimit, selectMode_pinglimit,
    saveLimit_pinglimit]

theorem measure_pinglimit (s : State) : (s.measure cpu cfg).pinglimit =
    if s.nreceived > (15000 : ℤ).tdiv cfg.period + 1 then
      nextLimit cpu cfg s.pinglimit (s.measure cpu cfg).filTriptime else s.pinglimit := by
  by_cases hearly : s.nreceived < (10000 : ℤ).tdiv cfg.period + 1
  all_goals by_cases hlate : s.nreceived > (15000 : ℤ).tdiv cfg.period + 1
  all_goals simp only [measure, applyLimit_eq, hearly, hlate, if_true, if_false]
  · rfl
  · rfl

/-- The limit changes only at the end of the start. -/
theorem machine_pinglimit (s : State) : (s.machine cpu cfg).pinglimit =
    if s.qstate = .init ∧ s.nreceived > (15000 : ℤ).tdiv cfg.period + 1 then
      nextLimit cpu cfg s.pinglimit (s.machine cpu cfg).filTriptime else s.pinglimit := by
  have hnot : s.qstate ≠ .init →
      ¬(s.qstate = .init ∧ s.nreceived > (15000 : ℤ).tdiv cfg.period + 1) :=
    fun hq h => hq h.1
  rw [machine]
  split
  case h_1 hq =>
    rw [if_neg (hnot (by simp [hq]))]
    simp only [check, applyLimit_eq, tcClassModify_eq]
    split_ifs <;> rfl
  case h_2 hq =>
    rw [measure_pinglimit]
    simp only [hq, true_and]
  case h_3 hq =>
    rw [if_neg (hnot (by simp [hq]))]
    dsimp only
    split_ifs
    · rfl
    · exact control_pinglimit _
  case h_4 hq =>
    rw [if_neg (hnot (by simp [hq]))]
    exact control_pinglimit s
  case h_5 hq =>
    rw [if_neg (hnot (by simp [hq]))]
    exact control_pinglimit s
  case h_6 hq =>
    rw [if_neg (hnot (by simp [hq]))]

theorem pass_pinglimit (s : State) (t : Tick) : (s.pass cpu cfg t).pinglimit =
    if s.Completes cpu cfg t then nextLimit cpu cfg s.pinglimit (s.pass cpu cfg t).filTriptime
    else s.pinglimit := by
  by_cases hclasses : s.ClassesChanged t.classes
  · rw [if_neg fun h => h.1 hclasses, pass, if_pos hclasses]
    exact ping_pinglimit s t.replies
  · have hmachine := @machine_pinglimit cpu cfg (s.switchState cpu cfg t)
    rw [switchState_pinglimit] at hmachine
    rw [pass, if_neg hclasses]
    simp only [Completes, hclasses, not_false_iff, true_and]
    exact hmachine

/-- The ping limit is the one at the start, moved by the round trip of one measurement after the other:
whatever else happens in a run does not change it, and each measurement starts from the limit that the
one before has left. -/
theorem pinglimit_run (s : State) (ticks : List Tick) : (s.run cpu cfg ticks).pinglimit =
    (s.measurements cpu cfg ticks).foldl (nextLimit cpu cfg) s.pinglimit := by
  induction ticks generalizing s with
  | nil => rfl
  | cons t ticks ih =>
    rw [run, List.foldl_cons, ← run, ih, measurements, pass_pinglimit]
    by_cases hcompletes : s.Completes cpu cfg t
    · simp only [if_pos hcompletes, List.foldl_cons]
    · simp only [if_neg hcompletes]

end Measurements

end State

end Qos

end Gargoyle
