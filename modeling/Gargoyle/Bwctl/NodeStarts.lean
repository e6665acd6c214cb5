import Gargoyle.Bwctl.IntervalStarts
import Gargoyle.Data.WhileLoop

/-!
# Going on from one interval to the next

`get_next_node_start_time` with any C library. Where `mktime` does not move
forward, the loop moves on by itself, for each of the named intervals but the one
of a rule that never resets: for such a rule the loop stands still. Nor does it
watch over the search for a Sunday, which goes on for as long as the library
shows no Sunday, or over a time that the library cannot show.

Times are integers here, as if `time_t` had no end.
-/

namespace Gargoyle

namespace Bwctl

open Bandwidth

/-- `struct tm`, with the flag for daylight saving time. -/
structure LibTm extends Tm where
  isdst : ℤ

/-- `localtime`, which yields a null pointer for a time with a year that does not fit, and
`mktime`. -/
structure TimeLibrary where
  localtime : ℤ → Option LibTm
  mktime : LibTm → ℤ

namespace TimeLibrary

def nextDay (lib : TimeLibrary) (tm : LibTm) : Option LibTm :=
  lib.localtime (lib.mktime { tm with mday := tm.mday + 1 })

def firstDayAfter (lib : TimeLibrary) (next : ℤ) : Option LibTm :=
  (lib.localtime next).bind fun curr =>
    lib.nextDay { curr with isdst := -1, sec := 0, min := 0, hour := 0 }

/-- The next boundary by the calendar. The search for a Sunday may take `n`
rounds, and a null pointer is not followed. -/
def calendarStep (lib : TimeLibrary) (n : ℕ) (resetInterval next : ℤ) : Option ℤ :=
  (lib.localtime next).bind fun tm =>
    let curr : LibTm := { tm with isdst := -1 }
    if resetInterval = bandwidthMinute then
      some (lib.mktime { curr with sec := 0, min := curr.min + 1 })
    else if resetInterval = bandwidthHour then
      some (lib.mktime { curr with sec := 0, min := 0, hour := curr.hour + 1 })
    else if resetInterval = bandwidthDay then
      some (lib.mktime { curr with sec := 0, min := 0, hour := 0, mday := curr.mday + 1 })
    else if resetInterval = bandwidthWeek then
      (lib.firstDayAfter next).bind fun first =>
        (whileLoop (fun tm : LibTm => tm.wday ≠ 0) lib.nextDay n first).map lib.mktime
    else if resetInterval = bandwidthMonth then
      some (lib.mktime { curr with sec := 0, min := 0, hour := 0, mday := 1, mon := curr.mon + 1 })
    else some next

def forceForward (resetInterval prev next : ℤ) : ℤ :=
  if next ≤ prev then
    if resetInterval = bandwidthMinute then prev + 60
    else if resetInterval = bandwidthHour then prev + 3600
    else if resetInterval = bandwidthDay ∨ resetInterval = bandwidthWeek ∨
        resetInterval = bandwidthMonth then prev + 86400
    else next
  else next

/-- `get_next_node_start_time`, with `n` rounds for each of its loops. -/
def getNextNodeStartTime (lib : TimeLibrary) (n : ℕ) (current resetInterval resetTime : ℤ)
    (isConstantInterval : Bool) : Option ℤ :=
  if isConstantInterval then some (current + resetInterval)
  else
    (whileLoop (fun next => next + resetTime ≤ current)
      (fun prev => (lib.calendarStep n resetInterval prev).map (forceForward resetInterval prev)) n
      current).map (· + resetTime)

/-- `get_interval_starts_for_history`, with `n` rounds for each of the loops of
`get_next_node_start_time`. -/
def getIntervalStartsForHistory (lib : TimeLibrary) (n : ℕ) (h : IpBwHistory) :
    Option (List ℤ) :=
  let nodeStart := fun t => lib.getNextNodeStartTime n t h.resetInterval h.resetTime
    h.isConstantInterval
  if h.historyBws.length > 0 then
    (nodeStart h.firstStart).bind fun nextEnd =>
      intervalStarts nodeStart h.historyBws.length h.firstStart nextEnd
  else some []

/-- The days behind `t` can be shown up to a Sunday. -/
def FindsSunday (lib : TimeLibrary) (t : ℤ) : Prop :=
  ∃ i tm, (Option.bind · lib.nextDay)^[i] (lib.firstDayAfter t) = some tm ∧ tm.wday = 0

def fixed (west : ℤ) : TimeLibrary where
  localtime := fun t => some { Bwctl.localtime west t with isdst := 0 }
  mktime := fun tm => Bwctl.mktime west tm.toTm

end TimeLibrary

def Reported (resetInterval : ℤ) : Bool → Prop
  | true => 0 < resetInterval
  | false => Calendrical resetInterval ∨ resetInterval = bandwidthNever

namespace TimeLibrary

variable {lib : TimeLibrary} {resetInterval resetTime : ℤ} {isConstantInterval : Bool}

/-! ## One interval -/

theorem lt_forceForward (hkind : Calendrical resetInterval) (prev next : ℤ) :
    prev < forceForward resetInterval prev next := by
  unfold forceForward
  split_ifs with hle hminute hhour hother
  · omega
  · omega
  · omega
  · exfalso
    cases hkind with
    | minute => exact hminute rfl
    | hour => exact hhour rfl
    | day => exact hother (Or.inl rfl)
    | week => exact hother (Or.inr (.inl rfl))
    | month => exact hother (Or.inr (.inr rfl))
  · omega

theorem calendarStep_mono {n m : ℕ} (hle : n ≤ m) {prev next : ℤ}
    (h : lib.calendarStep n resetInterval prev = some next) :
    lib.calendarStep m resetInterval prev = some next := by
  obtain ⟨tm, htm, h⟩ := Option.bind_eq_some_iff.1 h
  refine Option.bind_eq_some_iff.2 ⟨tm, htm, ?_⟩
  dsimp only at h ⊢
  split_ifs at h ⊢
  · exact h
  · exact h
  · exact h
  · obtain ⟨first, hfirst, h⟩ := Option.bind_eq_some_iff.1 h
    obtain ⟨day, hday, rfl⟩ := Option.map_eq_some_iff.1 h
    exact Option.bind_eq_some_iff.2 ⟨first, hfirst,
      Option.map_eq_some_iff.2 ⟨day, whileLoop_mono (fun ht => ht) hle hday, rfl⟩⟩
  · exact h
  · exact h

theorem getNextNodeStartTime_mono {n m : ℕ} (hle : n ≤ m) {current t : ℤ}
    (h : lib.getNextNodeStartTime n current resetInterval resetTime isConstantInterval = some t) :
    lib.getNextNodeStartTime m current resetInterval resetTime isConstantInterval = some t := by
  unfold getNextNodeStartTime at h ⊢
  split_ifs at h ⊢
  · exact h
  · obtain ⟨x, hx, rfl⟩ := Option.map_eq_some_iff.1 h
    refine Option.map_eq_some_iff.2 ⟨x, whileLoop_mono ?_ hle hx, rfl⟩
    intro prev next hnext
    obtain ⟨y, hy, rfl⟩ := Option.map_eq_some_iff.1 hnext
    exact Option.map_eq_some_iff.2 ⟨y, calendarStep_mono hle hy, rfl⟩

theorem findsSunday_iff (t : ℤ) : lib.FindsSunday t ↔
    ∃ first, lib.firstDayAfter t = some first ∧ ∃ n tm,
      whileLoop (fun tm : LibTm => tm.wday ≠ 0) lib.nextDay n first = some tm := by
  unfold FindsSunday
  cases lib.firstDayAfter t with
  | none => simp [Function.iterate_fixed (f := (Option.bind · lib.nextDay)) (x := none) rfl]
  | some first =>
    simp only [Option.some.injEq, exists_eq_left', whileLoop_ends_iff, not_not]

theorem exists_calendarStep_iff (t : ℤ) (hkind : Calendrical resetInterval) :
    (∃ n x, lib.calendarStep n resetInterval t = some x) ↔
      (lib.localtime t).isSome ∧ (resetInterval = bandwidthWeek → lib.FindsSunday t) := by
  unfold calendarStep
  cases hlocal : lib.localtime t with
  | none => simp
  | some tm =>
    simp only [Option.bind_some, Option.isSome_some, true_and]
    cases hkind with
    | minute => simp [bandwidthMinute, bandwidthWeek]
    | hour => simp [bandwidthMinute, bandwidthHour, bandwidthWeek]
    | day => simp [bandwidthMinute, bandwidthHour, bandwidthDay, bandwidthWeek]
    | week =>
      simp only [bandwidthMinute, bandwidthHour, bandwidthDay, bandwidthWeek, forall_const]
      rw [findsSunday_iff]
      simp [Option.bind_eq_some_iff]
      grind
    | month =>
      simp [bandwidthMinute, bandwidthHour, bandwidthDay, bandwidthMonth, bandwidthWeek]

def Progresses (lib : TimeLibrary) (resetInterval resetTime : ℤ) (isConstantInterval : Bool) :
    Prop :=
  isConstantInterval = true ∨ 0 < resetTime ∨
    resetInterval ≠ bandwidthNever ∧ (∀ t, (lib.localtime t).isSome) ∧
      (resetInterval = bandwidthWeek → ∀ t, lib.FindsSunday t)

theorem Progresses.exists_next (h : lib.Progresses resetInterval resetTime isConstantInterval)
    (hreported : Reported resetInterval isConstantInterval) (h0 : 0 ≤ resetTime) (current : ℤ) :
    ∃ n t, lib.getNextNodeStartTime n current resetInterval resetTime isConstantInterval = some t ∧
      current < t := by
  cases isConstantInterval with
  | true =>
    have hpos : 0 < resetInterval := hreported
    exact ⟨0, current + resetInterval, if_pos rfl, by omega⟩
  | false =>
    simp only [getNextNodeStartTime, Bool.false_eq_true, if_false]
    rcases h0.lt_or_eq with hpos | hzero
    · refine ⟨1, current + resetTime, ?_, by omega⟩
      rw [whileLoop_of_not (by omega)]
      rfl
    · obtain ⟨hnever, hlocal, hsunday⟩ :=
        (h.resolve_left Bool.false_ne_true).resolve_left (by omega)
      have hkind : Calendrical resetInterval := hreported.resolve_right hnever
      obtain ⟨n, x, hx⟩ := (exists_calendarStep_iff current hkind).2
        ⟨hlocal current, fun hweek => hsunday hweek current⟩
      have hforward := lt_forceForward hkind current x
      refine ⟨n + 2, forceForward resetInterval current x, ?_, hforward⟩
      rw [whileLoop_of_guard (by omega), calendarStep_mono (by omega) hx, Option.map_some,
        Option.bind_some, whileLoop_of_not (by omega), Option.map_some, ← hzero, add_zero]

/-- Outside of the conditions the search stands still somewhere. -/
theorem exists_stuck (h : ¬ lib.Progresses resetInterval resetTime isConstantInterval)
    (hreported : Reported resetInterval isConstantInterval) (h0 : 0 ≤ resetTime) :
    ∃ current, ∀ n,
      lib.getNextNodeStartTime n current resetInterval resetTime isConstantInterval = none := by
  unfold Progresses at h
  rw [not_or, not_or, Bool.not_eq_true] at h
  obtain ⟨rfl, htime, hcases⟩ := h
  have hzero : resetTime = 0 := by omega
  by_cases hnever : resetInterval = bandwidthNever
  · by_cases hlocal : (lib.localtime 0).isSome
    · obtain ⟨tm, htm⟩ := Option.isSome_iff_exists.1 hlocal
      refine ⟨0, fun n => ?_⟩
      have hstays : (lib.calendarStep 0 bandwidthNever 0) = some 0 := by
        rw [calendarStep, htm]
        rfl
      rw [getNextNodeStartTime, if_neg Bool.false_ne_true, whileLoop_of_stuck (by omega),
        Option.map_none]
      rw [hnever, calendarStep_mono (Nat.zero_le n) hstays]
      rfl
    · refine ⟨0, fun n => ?_⟩
      have hnone : lib.calendarStep n resetInterval 0 = none := by
        rw [calendarStep, Option.not_isSome_iff_eq_none.1 hlocal, Option.bind_none]
      rw [getNextNodeStartTime, if_neg Bool.false_ne_true]
      cases n with
      | zero => rfl
      | succ n => rw [whileLoop_of_guard (by omega), hnone]; rfl
  · have hkind : Calendrical resetInterval := hreported.resolve_right hnever
    obtain ⟨t, ht⟩ : ∃ t, ¬∃ n x, lib.calendarStep n resetInterval t = some x := by
      by_contra hall
      push Not at hall
      refine hcases ⟨hnever, fun t => ?_, fun hweek t => ?_⟩
      · exact ((exists_calendarStep_iff t hkind).1 (hall t)).1
      · exact ((exists_calendarStep_iff t hkind).1 (hall t)).2 hweek
    refine ⟨t, fun n => ?_⟩
    have hnone : lib.calendarStep n resetInterval t = none :=
      Option.eq_none_iff_forall_ne_some.2 fun x hx => ht ⟨n, x, hx⟩
    rw [getNextNodeStartTime, if_neg Bool.false_ne_true]
    cases n with
    | zero => rfl
    | succ n => rw [whileLoop_of_guard (by omega), hnone]; rfl

/-! ## All intervals of a history -/

theorem exists_intervalStarts {nodeStart : ℕ → ℤ → Option ℤ}
    (hmono : ∀ {n m t t'}, n ≤ m → nodeStart n t = some t' → nodeStart m t = some t')
    (hnext : ∀ t, ∃ n t', nodeStart n t = some t' ∧ t < t') (nodes : ℕ) {start stop : ℤ}
    (hlt : start < stop) :
    ∃ n starts, (∀ m, n ≤ m → intervalStarts (nodeStart m) nodes start stop = some starts) ∧
      starts.length = nodes ∧ starts.Pairwise (· < ·) ∧ ∀ t ∈ starts, start ≤ t := by
  induction nodes generalizing start stop with
  | zero => exact ⟨0, [], fun _ _ => rfl, rfl, List.Pairwise.nil, fun _ ht => nomatch ht⟩
  | succ nodes ih =>
    obtain ⟨n₁, stop', hstop, hlt'⟩ := hnext stop
    obtain ⟨n₂, starts, hstarts, hlength, hsorted, hle⟩ := ih hlt'
    refine ⟨max n₁ n₂, start :: starts, fun m hm => ?_, by rw [List.length_cons, hlength], ?_, ?_⟩
    · rw [intervalStarts, hmono (le_trans (le_max_left _ _) hm) hstop, Option.bind_some,
        hstarts m (le_trans (le_max_right _ _) hm)]
      rfl
    · exact List.pairwise_cons.2 ⟨fun t ht => hlt.trans_le (hle t ht), hsorted⟩
    · intro t ht
      rcases List.mem_cons.1 ht with rfl | ht
      · exact le_rfl
      · exact hlt.le.trans (hle t ht)

/-- The next interval is always found, and with it all intervals of every history,
exactly under the conditions. -/
theorem node_starts_progress_iff (lib : TimeLibrary)
    (hreported : Reported resetInterval isConstantInterval) (h0 : 0 ≤ resetTime) :
    ((∀ current, ∃ n t,
        lib.getNextNodeStartTime n current resetInterval resetTime isConstantInterval = some t ∧
          current < t) ∧
      ∀ h : IpBwHistory, h.resetInterval = resetInterval → h.resetTime = resetTime →
        h.isConstantInterval = isConstantInterval →
          ∃ n starts, lib.getIntervalStartsForHistory n h = some starts ∧
            starts.length = h.historyBws.length ∧ starts.Pairwise (· < ·)) ↔
      isConstantInterval = true ∨ 0 < resetTime ∨
        resetInterval ≠ bandwidthNever ∧ (∀ t, (lib.localtime t).isSome) ∧
          (resetInterval = bandwidthWeek → ∀ t, lib.FindsSunday t) := by
  constructor
  · rintro ⟨hnext, -⟩
    by_contra hnot
    obtain ⟨current, hstuck⟩ := exists_stuck hnot hreported h0
    obtain ⟨n, t, ht, -⟩ := hnext current
    rw [hstuck n] at ht
    cases ht
  · intro hprogress
    have hnext := Progresses.exists_next hprogress hreported h0
    refine ⟨hnext, ?_⟩
    rintro h rfl rfl rfl
    by_cases hnodes : h.historyBws.length > 0
    · obtain ⟨n₁, stop, hstop, hlt⟩ := hnext h.firstStart
      obtain ⟨n₂, starts, hstarts, hlength, hsorted, -⟩ := @exists_intervalStarts
        (fun n t => lib.getNextNodeStartTime n t h.resetInterval h.resetTime h.isConstantInterval)
        (fun hle ht => getNextNodeStartTime_mono hle ht) hnext h.historyBws.length _ _ hlt
      refine ⟨max n₁ n₂, starts, ?_, hlength, hsorted⟩
      have hfirst := getNextNodeStartTime_mono (le_max_left n₁ n₂) hstop
      simp only [getIntervalStartsForHistory, if_pos hnodes, hfirst, Option.bind_some]
      exact hstarts _ (le_max_right _ _)
    · refine ⟨0, [], by rw [getIntervalStartsForHistory, if_neg hnodes], ?_, List.Pairwise.nil⟩
      rw [List.length_nil]
      omega

/-! ## A zone with a fixed offset -/

section Fixed

variable {west : ℤ}

theorem nextDay_fixed (day : ℤ) :
    ((fixed west).localtime (day * 86400 + 60 * west)).bind (fixed west).nextDay =
      (fixed west).localtime ((day + 1) * 86400 + 60 * west) :=
  congrArg (fixed west).localtime (mktime_nextDay day)

theorem iterate_nextDay_fixed (i : ℕ) (day : ℤ) :
    (Option.bind · (fixed west).nextDay)^[i]
        ((fixed west).localtime (day * 86400 + 60 * west)) =
      (fixed west).localtime ((day + i) * 86400 + 60 * west) := by
  induction i generalizing day with
  | zero => simp
  | succ i ih =>
    rw [Function.iterate_succ_apply, nextDay_fixed, ih]
    congr 1
    push_cast
    ring

theorem findsSunday_fixed (west t : ℤ) : (fixed west).FindsSunday t := by
  have hfirst : (fixed west).firstDayAfter t =
      (fixed west).localtime (((t - 60 * west) / 86400 + 1) * 86400 + 60 * west) := by
    have htime := @mktime_localtime west t 1 0 0 0
    simp only [zero_mul, add_zero] at htime
    exact congrArg (fixed west).localtime htime
  generalize hday : (t - 60 * west) / 86400 + 1 = day at hfirst
  refine ⟨(-(day + 4) % 7).toNat,
    { Bwctl.localtime west ((day + -(day + 4) % 7) * 86400 + 60 * west) with isdst := 0 }, ?_, ?_⟩
  · rw [hfirst, iterate_nextDay_fixed, Int.toNat_of_nonneg (by omega)]
    rfl
  · have hwday : ∀ x, (Bwctl.localtime west x).wday = ((x - 60 * west) / 86400 + 4) % 7 :=
      fun _ => rfl
    dsimp only
    rw [hwday]
    omega

end Fixed

/-- A rule that counts by week, in Greenwich. -/
theorem weekly_node_starts_progress :
    (∀ current, ∃ n t,
        (fixed 0).getNextNodeStartTime n current bandwidthWeek 0 false = some t ∧ current < t) ∧
      ∀ h : IpBwHistory, h.resetInterval = bandwidthWeek → h.resetTime = 0 →
        h.isConstantInterval = false →
          ∃ n starts, (fixed 0).getIntervalStartsForHistory n h = some starts ∧
            starts.length = h.historyBws.length ∧ starts.Pairwise (· < ·) := by
  have hreported : Reported bandwidthWeek false := Or.inl Calendrical.week
  exact (node_starts_progress_iff (fixed 0) hreported le_rfl).2
    (Or.inr (.inr ⟨by decide, fun _ => rfl, fun _ => findsSunday_fixed 0⟩))

/-- For a rule that never resets no number of rounds is enough. -/
theorem never_stands_still :
    Reported bandwidthNever false ∧
      ∀ n, (fixed 0).getNextNodeStartTime n 1000 bandwidthNever 0 false = none := by
  refine ⟨Or.inr rfl, fun n => ?_⟩
  rw [getNextNodeStartTime, if_neg Bool.false_ne_true, whileLoop_of_stuck (by norm_num),
    Option.map_none]
  rfl

end TimeLibrary

end Bwctl

end Gargoyle
