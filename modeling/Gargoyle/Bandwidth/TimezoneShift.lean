import Gargoyle.Bandwidth.HistoryRun
import Gargoyle.Bandwidth.NextReset

/-!
# A new time zone for a constant interval

When the time zone changes, local time is relabelled, and so should be the times
of an id whose intervals have a constant length. The times of its histories are.
Its resets are not: with histories `shift_timezone_of_ip` begins a new interval
now, and without them the next reset is counted from a reset time that has not
been moved (`timezone_relabels_iff`).
-/

namespace Gargoyle

open List

namespace Bandwidth

/-! ## Counting intervals -/

/-- `t` is the first of the times `start`, `start + interval`, ... that lies after
`now`. -/
def FirstAfter (interval start now t : ℤ) : Prop :=
  IsLeast {x | now < x ∧ start ≤ x ∧ x ≡ start [ZMOD interval]} t

/-- `t` lies in the interval that begins `now` and is a whole number of intervals away from
`phase`. -/
structure FirstInPhase (interval phase now t : ℤ) : Prop where
  after : now < t
  near : t ≤ now + interval
  phase_eq : t ≡ phase [ZMOD interval]

section Advance

variable {interval start now : ℤ}

theorem firstAfter_advance (hpos : 0 < interval) (start now : ℤ) :
    FirstAfter interval start now (advance interval now start) := by
  rcases lt_or_ge now start with hlater | hle
  · rw [advance_of_lt interval hlater]
    exact ⟨⟨hlater, le_rfl, Int.ModEq.rfl⟩, fun x hx => hx.2.1⟩
  · have hnear : start ≤ now + interval := by omega
    have hleast := (isLeast_advance_iff hpos (Int.ModEq.refl start)).2 hnear
    have hafter := hleast.1.1
    exact ⟨⟨hafter, by omega, hleast.1.2⟩, fun x hx => hleast.2 ⟨hx.1, hx.2.2⟩⟩

theorem advance_eq_iff (hpos : 0 < interval) {t : ℤ} :
    advance interval now start = t ↔ FirstAfter interval start now t := by
  constructor
  · rintro rfl
    exact firstAfter_advance hpos start now
  · intro hfirst
    exact (firstAfter_advance hpos start now).unique hfirst

theorem advancePast_add (interval now adj : ℤ) (n : ℕ) (t : ℤ) :
    advancePast interval (now + adj) n (t + adj) = advancePast interval now n t + adj := by
  induction n generalizing t with
  | zero => rfl
  | succ n ih =>
    rw [advancePast, advancePast, add_right_comm, ih]
    split_ifs
    · rfl
    · omega
    · omega
    · rfl

theorem advance_add (interval now adj start : ℤ) :
    advance interval (now + adj) (start + adj) = advance interval now start + adj := by
  rw [advance, add_sub_add_right_eq_sub, advancePast_add, advance]

theorem firstAfter_iff_firstInPhase {phase t : ℤ} (hpos : 0 < interval) (hstart : start ≤ now)
    (hphase : start ≡ phase [ZMOD interval]) :
    FirstAfter interval start now t ↔ FirstInPhase interval phase now t := by
  constructor
  · rintro ⟨⟨hafter, -, hmod⟩, hleast⟩
    refine ⟨hafter, ?_, hmod.trans hphase⟩
    by_contra hfar
    have hbefore : t - interval ∈ {x | now < x ∧ start ≤ x ∧ x ≡ start [ZMOD interval]} :=
      ⟨by omega, by omega, Int.sub_modulus_modEq_iff.2 hmod⟩
    have := hleast hbefore
    omega
  · rintro ⟨hafter, hnear, hmod⟩
    refine ⟨⟨hafter, by omega, hmod.trans hphase.symm⟩, fun x hx => ?_⟩
    by_contra hlt
    obtain ⟨k, hk⟩ := ((hmod.trans hphase.symm).trans hx.2.2.symm).symm.dvd
    have hk' : 0 < k := by
      by_contra hneg
      have := mul_nonpos_of_nonneg_of_nonpos hpos.le (not_lt.1 hneg)
      omega
    have hone : interval ≤ interval * k := le_mul_of_one_le_right hpos.le hk'
    have := hx.1
    omega

theorem divS64_eq_ediv (hpos : 0 < interval) (hbound : interval < 2 ^ 31) {x : ℤ} (hx : 0 ≤ x) :
    divS64 x interval = x / interval := by
  rw [divS64, bmod_eq_self hpos.le hbound, Int.tdiv_eq_ediv_of_nonneg hx]

theorem add_wholeIntervals (hpos : 0 < interval) (hbound : interval < 2 ^ 31) (hle : start ≤ now) :
    start + divS64 (now - start) interval * interval ≤ now ∧
      start + divS64 (now - start) interval * interval ≡ start [ZMOD interval] := by
  rw [divS64_eq_ediv hpos hbound (by omega)]
  refine ⟨?_, Int.add_mul_modulus_modEq_iff.2 Int.ModEq.rfl⟩
  have := Int.ediv_mul_le (now - start) hpos.ne'
  omega

end Advance

def phaseStart (info : NftBandwidthInfo) (now : ℤ) : ℤ :=
  if info.resetTime > now then
    info.resetTime - (divS64 (info.resetTime - now) info.resetInterval + 1) * info.resetInterval
  else info.resetTime + divS64 (now - info.resetTime) info.resetInterval * info.resetInterval

theorem phaseStart_spec {info : NftBandwidthInfo} (hpos : 0 < info.resetInterval)
    (hbound : info.resetInterval < 2 ^ 31) (now : ℤ) :
    phaseStart info now ≤ now ∧
      phaseStart info now ≡ info.resetTime [ZMOD info.resetInterval] := by
  unfold phaseStart
  split_ifs with hlater
  · rw [divS64_eq_ediv hpos hbound (by omega)]
    have hlt := Int.lt_ediv_add_one_mul_self (info.resetTime - now) hpos
    refine ⟨by omega, ?_⟩
    exact Int.add_mul_modulus_modEq_iff.1 (by rw [sub_add_cancel])
  · exact add_wholeIntervals hpos hbound (by omega)

/-- The next reset of an id without histories does not mind that local time is
moved by `adj`: it is an interval from now, when nothing is left of the previous
reset; it is the first one in phase with the previous reset; or it is also after the
move the first one in phase with the reset time. Intervals from `2 ^ 31` on are
divided by their lowest 32 bits, and counting begins where this leads. -/
def Undisturbed (info : NftBandwidthInfo) (now adj : ℤ) : Prop :=
  if info.previousReset + adj ≤ 0 then info.nextReset = now + info.resetInterval
  else if info.resetTime = 0 then
    if info.resetInterval < 2 ^ 31 then
      FirstInPhase info.resetInterval info.previousReset now info.nextReset
    else
      FirstAfter info.resetInterval
        (info.previousReset +
          divS64 (now - info.previousReset) info.resetInterval * info.resetInterval)
        now info.nextReset
  else if info.resetInterval < 2 ^ 31 then
    FirstInPhase info.resetInterval info.resetTime (now + adj) (info.nextReset + adj)
  else
    FirstAfter info.resetInterval (phaseStart info (now + adj)) (now + adj) (info.nextReset + adj)

section Unsaved

variable {info : NftBandwidthInfo} {now adj : ℤ}

theorem getNextResetTime_of_constant (hinfo : Constant info) (now previousReset : ℤ) :
    getNextResetTime info now previousReset = nextConstantReset info now previousReset := by
  rw [getNextResetTime, if_neg (by simp [hinfo.constant])]

/-- When the next reset moves with the local time. -/
theorem nextConstantReset_moved_iff (hinfo : Constant info) (hprevious : info.previousReset ≤ now) :
    nextConstantReset info (now + adj) (info.previousReset + adj) = info.nextReset + adj ↔
      Undisturbed info now adj := by
  have hpos := hinfo.interval_pos
  have htime := hinfo.time_nonneg
  unfold nextConstantReset Undisturbed
  by_cases hstart : info.previousReset + adj ≤ 0
  · rw [if_neg (by omega), if_neg (by omega), if_pos hstart]
    omega
  · rw [if_neg hstart]
    by_cases hphase : info.resetTime = 0
    · rw [if_neg (by omega), if_pos (by omega), if_pos (by omega), if_pos hphase,
        add_sub_add_right_eq_sub]
      simp only
      rw [add_right_comm, advance_add, add_left_inj, advance_eq_iff hpos]
      split_ifs with hbound
      · obtain ⟨hle, hmod⟩ := add_wholeIntervals hpos hbound hprevious
        exact firstAfter_iff_firstInPhase hpos hle hmod
      · rfl
    · have hcounted : (if info.resetInterval < 2 ^ 31 then
          FirstInPhase info.resetInterval info.resetTime (now + adj) (info.nextReset + adj)
          else FirstAfter info.resetInterval (phaseStart info (now + adj)) (now + adj)
            (info.nextReset + adj)) ↔
          FirstAfter info.resetInterval (phaseStart info (now + adj)) (now + adj)
            (info.nextReset + adj) := by
        split_ifs with hbound
        · obtain ⟨hle, hmod⟩ := phaseStart_spec hpos hbound (now + adj)
          exact (firstAfter_iff_firstInPhase hpos hle hmod).symm
        · rfl
      rw [if_pos ⟨by omega, by omega, by omega⟩, if_neg hphase, hcounted, phaseStart]
      split_ifs
      · exact advance_eq_iff hpos
      · exact advance_eq_iff hpos

theorem shiftTimezoneUnsaved_eq (hinfo : Constant info) (hprevious : info.previousReset ≤ now) :
    shiftTimezoneUnsaved (now + adj) adj info =
      { info with
        previousReset := info.previousReset + adj
        nextReset := nextConstantReset info (now + adj) (info.previousReset + adj) } := by
  have hahead : now + adj < nextConstantReset info (now + adj) (info.previousReset + adj) :=
    lt_nextConstantReset hinfo.interval_pos _ _
  have hbefore : ¬ info.previousReset + adj > now + adj := by omega
  simp only [shiftTimezoneUnsaved, if_neg hbefore, getNextResetTime_of_constant hinfo]
  rw [catchUpReset, if_neg (by simpa using hahead.le)]

end Unsaved

/-! ## The histories of an id -/

section

variable [Kernel]

def BwHistory.moved (adj : ℤ) (h : BwHistory) : BwHistory :=
  { h with
    firstStart := h.firstStart + adj
    firstEnd := h.firstEnd + adj
    lastEnd := h.lastEnd + adj }

def IdUnit.historyOf (u : IdUnit) (ip : String) : Option BwHistory :=
  u.maps.ipHistoryMap.bind fun histories => histories.get ip

section Saved

variable {u : IdUnit} {now adj : ℤ} {e : String × BwHistory}

theorem shiftTimezoneOfIp_constant (hinfo : Constant u.info) (now adj previous : ℤ)
    (e : String × BwHistory) :
    shiftTimezoneOfIp now adj previous u e =
      { u with
        info := { u.info with nextReset := now + u.info.resetInterval, previousReset := now }
        maps :=
          if 1 < e.2.numNodes then
            { u.maps with
              ipHistoryMap := u.maps.ipHistoryMap.map fun hm => hm.set e.1 (e.2.moved adj) }
          else u.maps } := by
  have hnext : getNextResetTime u.info now 0 = now + u.info.resetInterval := by
    rw [getNextResetTime_of_constant hinfo, nextConstantReset, if_neg (by omega), if_neg (by omega)]
  have hprevious : getNominalPreviousResetTime u.info (now + u.info.resetInterval) = now := by
    rw [getNominalPreviousResetTime, if_neg (by simp [hinfo.constant]), add_sub_cancel_right]
  simp only [shiftTimezoneOfIp, hnext, hprevious, if_pos hinfo.constant]
  split_ifs
  · rfl
  · rfl

theorem historyOf_shiftTimezoneOfIp (hinfo : Constant u.info) (hhistory : u.maps.ipHistoryMap.isSome)
    (previous : ℤ) (ip : String) :
    (shiftTimezoneOfIp now adj previous u e).historyOf ip =
      if 1 < e.2.numNodes ∧ sdbmStringHash e.1 = sdbmStringHash ip then some (e.2.moved adj)
      else u.historyOf ip := by
  obtain ⟨histories, hhistories⟩ := Option.isSome_iff_exists.1 hhistory
  rw [shiftTimezoneOfIp_constant hinfo]
  simp only [IdUnit.historyOf]
  by_cases hmany : 1 < e.2.numNodes
  · simp only [hmany, hhistories, Option.map_some, if_true, true_and]
    exact HashedMap.get_set _ _ _ _
  · simp only [hmany, false_and, if_false]

/-- `u'` has the intervals of `u`, and histories. -/
structure SameIntervals (u u' : IdUnit) : Prop where
  constant : Constant u'.info
  interval : u'.info.resetInterval = u.info.resetInterval
  saved : u'.maps.ipHistoryMap.isSome

theorem SameIntervals.step {u' : IdUnit} (h : SameIntervals u u') (now adj previous : ℤ)
    (e : String × BwHistory) :
    SameIntervals u (shiftTimezoneOfIp now adj previous u' e) := by
  rw [shiftTimezoneOfIp_constant h.constant]
  refine ⟨⟨h.constant.constant, h.constant.interval_pos, h.constant.time_nonneg⟩, h.interval, ?_⟩
  simp only
  split_ifs
  · rw [Option.isSome_map]
    exact h.saved
  · exact h.saved

theorem sameIntervals_foldl {u' : IdUnit} (h : SameIntervals u u') (now adj previous : ℤ)
    (es : List (String × BwHistory)) :
    SameIntervals u (es.foldl (shiftTimezoneOfIp now adj previous) u') := by
  induction es generalizing u' with
  | nil => exact h
  | cons e es ih => exact ih (h.step now adj previous e)

theorem foldl_shiftTimezoneOfIp_resets {u' : IdUnit} (h : SameIntervals u u') (adj previous : ℤ)
    {es : List (String × BwHistory)} (hes : es ≠ []) :
    let shifted := es.foldl (shiftTimezoneOfIp now adj previous) u'
    shifted.info.previousReset = now ∧
      shifted.info.nextReset = now + u.info.resetInterval := by
  obtain ⟨es, e, rfl⟩ := eq_nil_or_concat es |>.resolve_left hes
  have hlast := sameIntervals_foldl h now adj previous es
  rw [concat_eq_append, foldl_append, foldl_cons, foldl_nil,
    shiftTimezoneOfIp_constant hlast.constant, ← hlast.interval]
  exact ⟨rfl, rfl⟩

theorem historyOf_foldl_of_ne {u' : IdUnit} (h : SameIntervals u u') (adj previous : ℤ)
    {es : List (String × BwHistory)} {ip : String}
    (hne : ∀ e ∈ es, sdbmStringHash e.1 ≠ sdbmStringHash ip) :
    (es.foldl (shiftTimezoneOfIp now adj previous) u').historyOf ip = u'.historyOf ip := by
  induction es generalizing u' with
  | nil => rfl
  | cons e es ih =>
    rw [foldl_cons, ih (h.step now adj previous e)
        fun e' he' => hne e' (mem_cons_of_mem e he'),
      historyOf_shiftTimezoneOfIp h.constant h.saved,
      if_neg fun hboth => hne e mem_cons_self hboth.2]

theorem historyOf_foldl_of_mem {u' : IdUnit} (h : SameIntervals u u') (adj previous : ℤ)
    {es : List (String × BwHistory)}
    (hsorted : es.Pairwise fun a b => sdbmStringHash a.1 < sdbmStringHash b.1) (he : e ∈ es)
    (hmany : 1 < e.2.numNodes) :
    (es.foldl (shiftTimezoneOfIp now adj previous) u').historyOf e.1 = some (e.2.moved adj) := by
  induction es generalizing u' with
  | nil => cases he
  | cons e' es ih =>
    obtain ⟨hhead, htail⟩ := List.pairwise_cons.1 hsorted
    have hstep := h.step now adj previous e'
    rw [foldl_cons]
    rcases List.mem_cons.1 he with rfl | he
    · rw [historyOf_foldl_of_ne hstep adj previous fun e' he' => (hhead e' he').ne',
        historyOf_shiftTimezoneOfIp h.constant h.saved, if_pos ⟨hmany, rfl⟩]
    · exact ih hstep htail he

end Saved

/-! ## An id -/

structure IdUnit.Relabeled (adj : ℤ) (u u' : IdUnit) : Prop where
  previousReset : u'.info.previousReset = u.info.previousReset + adj
  nextReset : u'.info.nextReset = u.info.nextReset + adj
  histories : ∀ ip h, u.historyOf ip = some h → 1 < h.numNodes →
    u'.historyOf ip = some (h.moved adj)

def IdUnit.HasHistory (u : IdUnit) : Prop := ∃ ip, (u.historyOf ip).isSome

def IdUnit.RelabeledWhen (u : IdUnit) (now adj : ℤ) : Prop :=
  (u.HasHistory → u.info.previousReset = now ∧ u.info.nextReset = now + u.info.resetInterval) ∧
    (¬ u.HasHistory → Undisturbed u.info now adj)

theorem IdUnit.hasHistory_iff {u : IdUnit} {histories : StringMap BwHistory}
    (hhistories : u.maps.ipHistoryMap = some histories) : u.HasHistory ↔ histories.entries ≠ [] := by
  constructor
  · rintro ⟨ip, hsome⟩ hnil
    obtain ⟨h, hhistory⟩ := Option.isSome_iff_exists.1 hsome
    rw [historyOf, hhistories, Option.bind_some] at hhistory
    obtain ⟨k, -, hmem⟩ := histories.exists_mem_of_get hhistory
    rw [hnil] at hmem
    cases hmem
  · intro hne
    obtain ⟨e, he⟩ := exists_mem_of_ne_nil _ hne
    refine ⟨e.1, ?_⟩
    rw [historyOf, hhistories, Option.bind_some, histories.get_of_mem he]
    rfl

section Unit

variable {u : IdUnit} {now adj : ℤ}

/-- With histories, the id must have begun its interval now. -/
theorem relabeled_iff_of_history (hinfo : Constant u.info) {histories : StringMap BwHistory}
    (hhistories : u.maps.ipHistoryMap = some histories) (hne : histories.entries ≠ []) :
    u.Relabeled adj
        (histories.entries.foldl (shiftTimezoneOfIp (now + adj) adj u.info.previousReset) u) ↔
      u.info.previousReset = now ∧ u.info.nextReset = now + u.info.resetInterval := by
  have hsame : SameIntervals u u := ⟨hinfo, rfl, Option.isSome_of_eq_some hhistories⟩
  have hresets := @foldl_shiftTimezoneOfIp_resets _ u (now + adj) u hsame adj u.info.previousReset _
    hne
  simp only at hresets
  constructor
  · intro h
    have hprevious := h.previousReset.symm.trans hresets.1
    have hnext := h.nextReset.symm.trans hresets.2
    omega
  · rintro ⟨hprevious, hnext⟩
    refine ⟨by rw [hresets.1]; omega, by rw [hresets.2]; omega, fun ip h hhistory hmany => ?_⟩
    rw [IdUnit.historyOf, hhistories, Option.bind_some] at hhistory
    obtain ⟨k, hk, hmem⟩ := histories.exists_mem_of_get hhistory
    have hmoved := @historyOf_foldl_of_mem _ u (now + adj) (k, h) u hsame adj u.info.previousReset _
      histories.sorted hmem hmany
    rw [← hmoved]
    have hkeyed : ∀ w : IdUnit, w.historyOf ip = w.historyOf k := by
      intro w
      unfold IdUnit.historyOf
      cases w.maps.ipHistoryMap with
      | none => rfl
      | some hm => exact hm.get_congr hk.symm
    exact hkeyed _

theorem relabeled_iff_of_not_history (hinfo : Constant u.info) (hhistory : ¬ u.HasHistory)
    (hprevious : u.info.previousReset ≤ now) :
    u.Relabeled adj { u with info := shiftTimezoneUnsaved (now + adj) adj u.info } ↔
      Undisturbed u.info now adj := by
  rw [← nextConstantReset_moved_iff hinfo hprevious, shiftTimezoneUnsaved_eq hinfo hprevious]
  constructor
  · exact fun h => h.nextReset
  · intro hnext
    exact ⟨rfl, hnext, fun ip h hsome => absurd ⟨ip, Option.isSome_of_eq_some hsome⟩ hhistory⟩

/-- When a shift of the time zone relabels an id. -/
theorem relabeled_iff (hinfo : Constant u.info) (hcmp : u.info.cmp ≠ .check)
    (hprevious : u.info.previousReset ≤ now) :
    u.Relabeled adj (shiftTimezoneOfId (now + adj) adj u) ↔ u.RelabeledWhen now adj := by
  have hexempt : ¬ exemptFromShift u.info := by simp [exemptFromShift, hinfo.constant, hcmp]
  have hunsaved : ¬ u.HasHistory →
      (u.Relabeled adj { u with info := shiftTimezoneUnsaved (now + adj) adj u.info } ↔
        u.RelabeledWhen now adj) := by
    intro hno
    rw [relabeled_iff_of_not_history hinfo hno hprevious]
    exact ⟨fun h => ⟨fun hyes => absurd hyes hno, fun _ => h⟩, fun h => h.2 hno⟩
  rw [shiftTimezoneOfId, if_neg hexempt]
  cases hhistories : u.maps.ipHistoryMap with
  | none =>
    refine hunsaved ?_
    rintro ⟨ip, hsome⟩
    rw [IdUnit.historyOf, hhistories] at hsome
    cases hsome
  | some histories =>
    have hhas := IdUnit.hasHistory_iff hhistories
    simp only
    split_ifs with hlength
    · have hne : histories.entries ≠ [] := List.length_pos_iff.1 hlength
      rw [relabeled_iff_of_history hinfo hhistories hne]
      exact ⟨fun h => ⟨fun _ => h, fun hno => absurd (hhas.2 hne) hno⟩, fun h => h.1 (hhas.2 hne)⟩
    · exact hunsaved fun hyes => hlength (List.length_pos_iff.2 (hhas.1 hyes))

end Unit

/-! ## All ids -/

namespace ModuleState

/-- Every entry of `id_map` has its rules and its maps, and no other entry has
them. -/
structure AllServed (m : ModuleState) : Prop where
  serves : ∀ e ∈ m.idMap.entries, ∃ iam u, m.Serves e.2 iam u
  apart : m.idMap.entries.Pairwise fun e e' => e.2 ≠ e'.2

section EveryId

variable {m : ModuleState} {f : IdUnit → IdUnit} {p : ℕ} {iam : InfoAndMaps} {u : IdUnit}
  {es : List (String × ℕ)}

theorem foldl_onUnit_of_ne (hf : ∀ u : IdUnit, u.SameRules (f u))
    (hserves : ∀ e ∈ es, ∃ iam u, m.Serves e.2 iam u) (hne : ∀ e ∈ es, p ≠ e.2)
    (h : m.Serves p iam u) : (es.foldl (fun m e => m.onUnit e.2 f) m).Serves p iam u := by
  induction es generalizing m with
  | nil => exact h
  | cons e es ih =>
    obtain ⟨iam', w, hw⟩ := hserves e mem_cons_self
    rw [foldl_cons, hw.onUnit_eq]
    refine ih (fun e' he' => ?_) (fun e' he' => hne e' (mem_cons_of_mem e he'))
      (hw.write_other h (hne e mem_cons_self) (hf w))
    obtain ⟨iam'', w'', hw''⟩ := hserves e' (mem_cons_of_mem e he')
    obtain ⟨iam₂, w₂, hw₂, -⟩ := hw.serves_write (hf w) hw''
    exact ⟨iam₂, w₂, hw₂⟩

theorem foldl_onUnit_of_mem (hf : ∀ u : IdUnit, u.SameRules (f u))
    (hserves : ∀ e ∈ es, ∃ iam u, m.Serves e.2 iam u)
    (hapart : es.Pairwise fun e e' => e.2 ≠ e'.2) {e : String × ℕ} (he : e ∈ es)
    (h : m.Serves e.2 iam u) :
    ∃ iam', (es.foldl (fun m e => m.onUnit e.2 f) m).Serves e.2 iam' (f u) := by
  induction es generalizing m with
  | nil => cases he
  | cons e' es ih =>
    obtain ⟨hhead, htail⟩ := List.pairwise_cons.1 hapart
    obtain ⟨iam', w, hw⟩ := hserves e' mem_cons_self
    have hstill : ∀ e ∈ es, ∃ iam u, (m.write e'.2 iam' (f w)).Serves e.2 iam u := by
      intro e he
      obtain ⟨iam'', w'', hw''⟩ := hserves e (mem_cons_of_mem e' he)
      obtain ⟨iam₂, w₂, hw₂, -⟩ := hw.serves_write (hf w) hw''
      exact ⟨iam₂, w₂, hw₂⟩
    rw [foldl_cons, hw.onUnit_eq]
    rcases List.mem_cons.1 he with rfl | he
    · obtain rfl : u = w := Option.some.inj (h.unit_eq.symm.trans hw.unit_eq)
      exact ⟨_, foldl_onUnit_of_ne hf hstill hhead (hw.write (hf u))⟩
    · exact ih hstill htail he (hw.write_other h (hhead e he).symm (hf w))

end EveryId

def timezoneAdj (m : ModuleState) (t : Tick) : ℤ := 60 * (m.clock.oldMinutesWest - minutesWest t)

def oldLocalTime (m : ModuleState) (t : Tick) : ℤ := t.now - 60 * m.clock.oldMinutesWest

end ModuleState

end

section Examples

local instance timezoneKernel : Kernel := referenceKernel 32

def hourRule : NftBandwidthInfo :=
  { sourceQuota with
    resetIsConstantInterval := true
    resetInterval := 3600
    numIntervalsToSave := 2 }

def hourState : ModuleState :=
  ((ModuleState.init ⟨7200, 0⟩).nftBandwidthInit 0 .ipv4 hourRule ⟨7200, 0⟩).getD
    (ModuleState.init ⟨7200, 0⟩)

def hourUnit : IdUnit where
  info := { hourRule with previousReset := 7200, nextReset := 10800, iam := some 0 }
  otherInfo := none
  maps := IpMaps.initial 2

theorem hourState_serves :
    hourState.Serves 0 ⟨0, .ipv4, none, none, 1, IpMaps.initial 2⟩ hourUnit where
  iam_eq := rfl
  info_eq := rfl
  other_eq := rfl
  maps_eq := rfl
  distinct := by simp
  back := by
    intro other info hinfo
    cases other with
    | false =>
      obtain rfl := Option.some.inj hinfo
      rfl
    | true => cases hinfo

theorem hourUnit_constant : Constant hourUnit.info := by constructor <;> decide

theorem allServed_of_hour {m : ModuleState} (hids : m.idMap.entries = [("quota", 0)])
    {iam : InfoAndMaps} {u : IdUnit} (h : m.Serves 0 iam u) : m.AllServed := by
  refine ⟨fun e he => ?_, by rw [hids]; exact pairwise_singleton _ _⟩
  rw [hids, mem_singleton] at he
  exact he ▸ ⟨iam, u, h⟩

def countedHourState : ModuleState :=
  hourState.evaluateAll (fun _ => 0) [⟨false, ⟨8000, 0⟩, .ipv4 0x0501a8c0 0x08080808 1500⟩]

end Examples

end Bandwidth

end Gargoyle
