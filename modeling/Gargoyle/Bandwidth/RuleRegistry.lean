import Gargoyle.Bandwidth.CheckRule

/-!
# The registry of counting ids

`id_map` and the pointers kept in every `info_and_maps` are the registry.
Counting, resetting and shifting times do not touch it (`SameRegistry`), so a
rule that is loaded changes it only where `register` does, and a rule that is
unloaded only where `nft_bandwidth_destroy` does.

A check rule is not registered, but when it is unloaded its id is looked up all
the same: `check_rule_leaves_registry_iff` compares a run with the one from which
the check rule is left out.
-/

namespace Gargoyle

open Option (bind_some map_some)

namespace Bandwidth

section

variable [Kernel]

/-- The pointers, families and count of an `info_and_maps`. -/
structure Pointers where
  info : ℕ
  infoFamily : NfProto
  otherInfo : Option ℕ
  otherInfoFamily : Option NfProto
  refCount : ℤ
deriving DecidableEq

/-- What an `info_and_maps` is without its maps. -/
def InfoAndMaps.pointers (iam : InfoAndMaps) : Pointers :=
  ⟨iam.info, iam.infoFamily, iam.otherInfo, iam.otherInfoFamily, iam.refCount⟩

def NftBandwidthInfo.label (info : NftBandwidthInfo) : String × BandwidthCmp := (info.id, info.cmp)

omit [Kernel] in
theorem NftBandwidthInfo.label_of_rule {info info' : NftBandwidthInfo}
    (h : info'.rule = info.rule) : info'.label = info.label := by
  have hlabel : info'.rule.label = info.rule.label := congrArg label h
  exact hlabel

namespace ModuleState

structure SameRegistry (m m' : ModuleState) : Prop where
  idMap : m'.idMap = m.idMap
  pointers : ∀ p, (m'.iams p).map InfoAndMaps.pointers = (m.iams p).map InfoAndMaps.pointers

structure KeepsRules (m m' : ModuleState) : Prop extends SameRegistry m m' where
  nextIam : m'.nextIam = m.nextIam
  rules : ∀ r, (m'.infos r).map (·.label) = (m.infos r).map (·.label)

theorem KeepsRules.refl (m : ModuleState) : KeepsRules m m :=
  ⟨⟨rfl, fun _ => rfl⟩, rfl, fun _ => rfl⟩

theorem KeepsRules.trans {m m' m'' : ModuleState} (h : KeepsRules m m') (h' : KeepsRules m' m'') :
    KeepsRules m m'' :=
  ⟨⟨h'.idMap.trans h.idMap, fun p => (h'.pointers p).trans (h.pointers p)⟩,
    h'.nextIam.trans h.nextIam, fun r => (h'.rules r).trans (h.rules r)⟩

/-- What changes a unit keeps the rules. -/
theorem keepsRules_onUnit (m : ModuleState) (p : ℕ) {f : IdUnit → IdUnit}
    (hf : ∀ u : IdUnit, u.SameRules (f u)) : KeepsRules m (m.onUnit p f) := by
  cases hiam : m.iams p with
  | none =>
    simp only [onUnit, hiam]
    exact KeepsRules.refl m
  | some iam =>
    cases hunit : m.unit p with
    | none =>
      simp only [onUnit, hiam, hunit]
      exact KeepsRules.refl m
    | some u =>
      have hwrite : m.onUnit p f = m.write p iam (f u) := by
        simp only [onUnit, hiam, hunit]
        rfl
      have hview : m.infos iam.info = some u.info ∧ iam.otherInfo.bind m.infos = u.otherInfo := by
        simp only [unit, hiam, bind_some, Option.map_eq_some_iff] at hunit
        obtain ⟨info, hinfo, rfl⟩ := hunit
        exact ⟨hinfo, rfl⟩
      obtain ⟨hnext, hmap, -, -, -, -⟩ := registered_write m p iam (f u)
      rw [hwrite]
      refine ⟨⟨hmap, fun q => ?_⟩, hnext, fun r => ?_⟩
      · rw [write_iams]
        split_ifs with hq
        · rw [hq, hiam]
          rfl
        · rfl
      · rw [write_infos]
        split_ifs with hr hr'
        · rw [hr, hview.1, map_some, map_some,
            NftBandwidthInfo.label_of_rule (hf u).1]
        · have hother := hview.2
          rw [hr'.1, bind_some] at hother
          have hlabel := congrArg (Option.map NftBandwidthInfo.label) (hf u).2
          rw [Option.map_map, Option.map_map] at hlabel
          rw [hother]
          exact hlabel
        · rfl

theorem keepsRules_applyToEveryId (m : ModuleState) {f : IdUnit → IdUnit}
    (hf : ∀ u : IdUnit, u.SameRules (f u)) : KeepsRules m (m.applyToEveryId f) := by
  unfold applyToEveryId
  generalize m.idMap.entries = es
  induction es generalizing m with
  | nil => exact KeepsRules.refl m
  | cons e es ih => exact (keepsRules_onUnit m e.2 hf).trans (ih _)

end ModuleState

/-! ## A change of the time zone keeps the rules -/

omit [Kernel] in
theorem catchUpReset_rule (now : ℤ) (n : ℕ) (info : NftBandwidthInfo) :
    (catchUpReset now n info).rule = info.rule := by
  induction n generalizing info with
  | zero => rfl
  | succ n ih =>
    unfold catchUpReset
    split_ifs
    · rw [ih]
      rfl
    · rfl

omit [Kernel] in
theorem shiftTimezoneUnsaved_rule (now adj : ℤ) (info : NftBandwidthInfo) :
    (shiftTimezoneUnsaved now adj info).rule = info.rule := by
  simp only [shiftTimezoneUnsaved]
  split_ifs
  · rfl
  · rw [catchUpReset_rule]
    rfl

theorem shiftTimezoneOfIp_sameRules (now adj previous : ℤ) (u : IdUnit) (e : String × BwHistory) :
    u.SameRules (shiftTimezoneOfIp now adj previous u e) := by
  simp only [shiftTimezoneOfIp]
  split_ifs <;> exact ⟨rfl, rfl⟩

theorem shiftTimezoneOfIps_sameRules (now adj previous : ℤ) (es : List (String × BwHistory))
    (u : IdUnit) : u.SameRules (es.foldl (shiftTimezoneOfIp now adj previous) u) := by
  induction es generalizing u with
  | nil => exact IdUnit.SameRules.refl u
  | cons e es ih => exact (shiftTimezoneOfIp_sameRules now adj previous u e).trans (ih _)

theorem shiftTimezoneOfId_sameRules (now adj : ℤ) (u : IdUnit) :
    u.SameRules (shiftTimezoneOfId now adj u) := by
  have hunsaved : u.SameRules { u with info := shiftTimezoneUnsaved now adj u.info } :=
    ⟨shiftTimezoneUnsaved_rule now adj u.info, rfl⟩
  unfold shiftTimezoneOfId
  split_ifs
  · exact IdUnit.SameRules.refl u
  · cases u.maps.ipHistoryMap with
    | none => exact hunsaved
    | some histories =>
      simp only
      split_ifs
      · exact shiftTimezoneOfIps_sameRules now adj _ _ u
      · exact hunsaved

namespace ModuleState

theorem keepsRules_checkForTimezoneShift (m : ModuleState) (t : Tick) :
    KeepsRules m (m.checkForTimezoneShift t) := by
  simp only [checkForTimezoneShift]
  split_ifs
  · exact KeepsRules.refl m
  · exact ⟨⟨rfl, fun _ => rfl⟩, rfl, fun _ => rfl⟩
  · have hshift := keepsRules_applyToEveryId
      { m with
        clock :=
          { m.clock with
            localMinutesWest := minutesWest t
            localSecondsWest := 60 * minutesWest t
            lastLocalMwUpdate := t.now } }
      (shiftTimezoneOfId_sameRules (t.now - 60 * minutesWest t)
        ((m.clock.oldMinutesWest - minutesWest t) * 60))
    exact ⟨⟨hshift.idMap, hshift.pointers⟩, hshift.nextIam, hshift.rules⟩

end ModuleState

inductive RuleEvent
  | load (r : ℕ) (family : NfProto) (attrs : NftBandwidthInfo) (t : Tick)
  | unload (r : ℕ) (family : NfProto)

def RuleEvent.rule : RuleEvent → ℕ
  | .load r _ _ _ => r
  | .unload r _ => r

namespace ModuleState

def apply (m : ModuleState) : RuleEvent → ModuleState
  | .load r family attrs t => (m.nftBandwidthInit r family attrs t).getD m
  | .unload r family => m.nftBandwidthDestroy r family

def applyAll (m : ModuleState) (es : List RuleEvent) : ModuleState := es.foldl apply m

/-! ## A rule that no id points to -/

/-- No `info_and_maps` points to the record of the rule `c`. -/
def Unreferenced (m : ModuleState) (c : ℕ) : Prop :=
  ∀ p iam, m.iams p = some iam → iam.info ≠ c ∧ iam.otherInfo ≠ some c

/-- The state with the record of the rule `c` replaced. -/
def withInfo (m : ModuleState) (c : ℕ) (x : Option NftBandwidthInfo) : ModuleState :=
  { m with infos := fun r => if r = c then x else m.infos r }

section Unreferenced

variable {m : ModuleState} {c : ℕ} (x : Option NftBandwidthInfo)

theorem Unreferenced.of_sameRegistry {m' : ModuleState} (h : m.Unreferenced c)
    (hsame : SameRegistry m m') : m'.Unreferenced c := by
  intro p iam hiam
  have hpointers := hsame.pointers p
  rw [hiam, map_some] at hpointers
  obtain ⟨old, hold, heq⟩ := Option.map_eq_some_iff.1 hpointers.symm
  have hinfo : iam.info = old.info := (congrArg Pointers.info heq).symm
  have hother : iam.otherInfo = old.otherInfo := (congrArg Pointers.otherInfo heq).symm
  rw [hinfo, hother]
  exact h p old hold

theorem Unreferenced.setInfo (h : m.Unreferenced c) (r : ℕ) (info : NftBandwidthInfo) :
    (m.setInfo r info).Unreferenced c := h

theorem Unreferenced.setIam (h : m.Unreferenced c) (p : ℕ) {iam : InfoAndMaps}
    (hiam : iam.info ≠ c ∧ iam.otherInfo ≠ some c) : (m.setIam p iam).Unreferenced c := by
  intro q iam' hiam'
  simp only [ModuleState.setIam] at hiam'
  split_ifs at hiam' with hq
  · obtain rfl := Option.some.inj hiam'
    exact hiam
  · exact h q iam' hiam'

theorem infos_withInfo (m : ModuleState) {r : ℕ} (hr : r ≠ c) :
    (m.withInfo c x).infos r = m.infos r := if_neg hr

theorem withInfo_setInfo (m : ModuleState) {r : ℕ} (hr : r ≠ c) (info : NftBandwidthInfo) :
    (m.withInfo c x).setInfo r info = (m.setInfo r info).withInfo c x := by
  refine eq_of_registered ⟨rfl, rfl, rfl, rfl, rfl, rfl⟩ (fun r' => ?_) (fun _ => rfl)
  simp only [setInfo, withInfo]
  by_cases hr' : r' = r
  · simp [hr', hr]
  · simp [hr']

theorem withInfo_freeInfo (m : ModuleState) {r : ℕ} (hr : r ≠ c) :
    (m.withInfo c x).freeInfo r = (m.freeInfo r).withInfo c x := by
  refine eq_of_registered ⟨rfl, rfl, rfl, rfl, rfl, rfl⟩ (fun r' => ?_) (fun _ => rfl)
  simp only [freeInfo, withInfo]
  by_cases hr' : r' = r
  · simp [hr', hr]
  · simp [hr']

theorem unit_withInfo (h : m.Unreferenced c) (p : ℕ) : (m.withInfo c x).unit p = m.unit p := by
  have hiams : (m.withInfo c x).iams p = m.iams p := rfl
  unfold unit
  rw [hiams]
  cases hiam : m.iams p with
  | none => rfl
  | some iam =>
    obtain ⟨hinfo, hother⟩ := h p iam hiam
    simp only [bind_some, infos_withInfo x m hinfo]
    cases ho : iam.otherInfo with
    | none => rfl
    | some o =>
      have hne : o ≠ c := fun heq => hother (ho.trans (congrArg some heq))
      simp only [bind_some, infos_withInfo x m hne]

theorem setOther_withInfo (m : ModuleState) {r? : Option ℕ} (hr : r? ≠ some c)
    (o? : Option NftBandwidthInfo) :
    (m.withInfo c x).setOther r? o? = (m.setOther r? o?).withInfo c x := by
  cases r? with
  | none => rfl
  | some r =>
    have hne : r ≠ c := fun h => hr (congrArg some h)
    cases o? with
    | none => rfl
    | some o => exact withInfo_setInfo x m hne o

theorem onUnit_withInfo (h : m.Unreferenced c) (p : ℕ) (f : IdUnit → IdUnit) :
    (m.withInfo c x).onUnit p f = (m.onUnit p f).withInfo c x := by
  have hiams : (m.withInfo c x).iams p = m.iams p := rfl
  unfold onUnit
  rw [unit_withInfo x h, hiams]
  cases hiam : m.iams p with
  | none => rfl
  | some iam =>
    obtain ⟨hinfo, hother⟩ := h p iam hiam
    cases m.unit p with
    | none => rfl
    | some u =>
      simp only
      rw [setOther_withInfo x m hother, withInfo_setInfo x _ hinfo]
      rfl

theorem applyToEveryId_withInfo (h : m.Unreferenced c) {f : IdUnit → IdUnit}
    (hf : ∀ u : IdUnit, u.SameRules (f u)) :
    (m.withInfo c x).applyToEveryId f = (m.applyToEveryId f).withInfo c x := by
  have hmap : (m.withInfo c x).idMap = m.idMap := rfl
  unfold applyToEveryId
  rw [hmap]
  generalize m.idMap.entries = es
  induction es generalizing m with
  | nil => rfl
  | cons e es ih =>
    rw [List.foldl_cons, List.foldl_cons, onUnit_withInfo x h]
    exact ih (h.of_sameRegistry (keepsRules_onUnit m e.2 hf).toSameRegistry) rfl

theorem checkForTimezoneShift_withInfo (h : m.Unreferenced c) (t : Tick) :
    (m.withInfo c x).checkForTimezoneShift t = (m.checkForTimezoneShift t).withInfo c x := by
  have hclock : (m.withInfo c x).clock = m.clock := rfl
  simp only [checkForTimezoneShift, hclock]
  split_ifs
  · rfl
  · rfl
  · have hshift := applyToEveryId_withInfo (c := c) x
      (show Unreferenced { m with
        clock :=
          { m.clock with
            localMinutesWest := minutesWest t
            localSecondsWest := 60 * minutesWest t
            lastLocalMwUpdate := t.now } } c from h)
      (shiftTimezoneOfId_sameRules (t.now - 60 * minutesWest t)
        ((m.clock.oldMinutesWest - minutesWest t) * 60))
    exact congrArg (fun shifted : ModuleState =>
      ({ shifted with
        clock :=
          { localMinutesWest := minutesWest t
            localSecondsWest := 60 * minutesWest t
            lastLocalMwUpdate := t.now
            oldMinutesWest := minutesWest t
            backwardsCheck := m.clock.backwardsCheck } } : ModuleState)) hshift

theorem register_withInfo (h : m.Unreferenced c) {r : ℕ} (hr : r ≠ c) (family : NfProto)
    (master : NftBandwidthInfo) :
    (m.withInfo c x).register r family master =
      (m.register r family master).map fun s => (s.1.withInfo c x, s.2) := by
  have hmap : (m.withInfo c x).idMap = m.idMap := rfl
  have hiams : (m.withInfo c x).iams = m.iams := rfl
  simp only [register, hmap, hiams]
  cases m.idMap.get master.id with
  | none =>
    simp only [map_some]
    rw [withInfo_setInfo x m hr]
    rfl
  | some p =>
    cases hiam : m.iams p with
    | none => simp only [hiam, Option.map_none]
    | some iam =>
      simp only [hiam, infos_withInfo x m (h p iam hiam).1]
      cases m.infos iam.info with
      | none => rfl
      | some info =>
        simp only
        split_ifs
        · rfl
        · rfl
        · rw [withInfo_setInfo x m hr]
          rfl

theorem Unreferenced.register (h : m.Unreferenced c) {r : ℕ} (hr : r ≠ c) {family : NfProto}
    {master : NftBandwidthInfo} {s : ModuleState × ℕ}
    (hs : m.register r family master = some s) : s.1.Unreferenced c := by
  simp only [ModuleState.register] at hs
  cases hget : m.idMap.get master.id with
  | none =>
    simp only [hget, Option.some.injEq] at hs
    rw [← hs]
    exact (h.setInfo r master).setIam m.nextIam ⟨hr, by simp⟩
  | some p =>
    cases hiam : m.iams p with
    | none => simp [hget, hiam] at hs
    | some iam =>
      cases hinfo : m.infos iam.info with
      | none => simp [hget, hiam, hinfo] at hs
      | some info =>
        simp only [hget, hiam, hinfo] at hs
        split_ifs at hs
        rw [← Option.some.inj hs]
        exact (h.setInfo r _).setIam p ⟨(h p iam hiam).1, by simpa using hr⟩

/-- Loading does not depend on a rule that nothing refers to. -/
theorem nftBandwidthInit_withInfo (h : m.Unreferenced c) {r : ℕ} (hr : r ≠ c) (family : NfProto)
    (attrs : NftBandwidthInfo) (t : Tick) :
    (m.withInfo c x).nftBandwidthInit r family attrs t =
      (m.nftBandwidthInit r family attrs t).map (·.withInfo c x) := by
  simp only [nftBandwidthInit]
  split_ifs with hcheck hinterval
  · rw [withInfo_setInfo x m hr]
    rfl
  · rw [register_withInfo x h hr, Option.map_map, Option.map_map]
    refine Option.map_congr fun s hs => ?_
    have hun := h.register hr hs
    have hun' := hun.of_sameRegistry (keepsRules_checkForTimezoneShift s.1 t).toSameRegistry
    simp only [Function.comp_apply, checkForTimezoneShift_withInfo x hun,
      infos_withInfo x (s.1.checkForTimezoneShift t) hr]
    cases (s.1.checkForTimezoneShift t).infos r with
    | none => rfl
    | some info =>
      simp only
      rw [withInfo_setInfo x _ hr]
      rfl
  · rw [register_withInfo x h hr, Option.map_map, Option.map_map]
    refine Option.map_congr fun s _ => ?_
    simp only [Function.comp_apply, infos_withInfo x s.1 hr]
    cases s.1.infos r with
    | none => rfl
    | some info =>
      simp only
      rw [withInfo_setInfo x _ hr]

theorem Unreferenced.load (h : m.Unreferenced c) {r : ℕ} (hr : r ≠ c) {family : NfProto}
    {attrs : NftBandwidthInfo} {t : Tick} {m' : ModuleState}
    (hm' : m.nftBandwidthInit r family attrs t = some m') : m'.Unreferenced c := by
  simp only [nftBandwidthInit] at hm'
  split_ifs at hm' with hcheck hinterval
  · rw [← Option.some.inj hm']
    exact h.setInfo r _
  · obtain ⟨s, hs, rfl⟩ := Option.map_eq_some_iff.1 hm'
    have hun := (h.register hr hs).of_sameRegistry
      (keepsRules_checkForTimezoneShift s.1 t).toSameRegistry
    cases (s.1.checkForTimezoneShift t).infos r with
    | none => exact hun
    | some info => exact hun.setInfo r _
  · obtain ⟨s, hs, rfl⟩ := Option.map_eq_some_iff.1 hm'
    cases s.1.infos r with
    | none => exact h.register hr hs
    | some info => exact (h.register hr hs).setInfo r _

theorem setIam_withInfo (m : ModuleState) (p : ℕ) (iam : InfoAndMaps) :
    (m.withInfo c x).setIam p iam = (m.setIam p iam).withInfo c x := rfl

theorem promoteOther_withInfo (m : ModuleState) (p : ℕ) (iam : InfoAndMaps) {other : ℕ}
    (hother : other ≠ c) (priv : NftBandwidthInfo) :
    (m.withInfo c x).promoteOther p iam other priv =
      (m.promoteOther p iam other priv).withInfo c x := by
  simp only [promoteOther, infos_withInfo x m hother]
  cases m.infos other with
  | none => rfl
  | some info =>
    simp only
    rw [withInfo_setInfo x m hother]
    rfl

theorem unregister_withInfo (m : ModuleState) (priv : NftBandwidthInfo) :
    (m.withInfo c x).unregister priv = (m.unregister priv).withInfo c x := by
  have hmap : (m.withInfo c x).idMap = m.idMap := rfl
  simp only [unregister, hmap]
  cases m.idMap.get priv.id with
  | none => rfl
  | some p =>
    simp only
    split_ifs
    · rfl
    · rfl

/-- Unloading does not depend on a rule that nothing refers to. -/
theorem nftBandwidthDestroy_withInfo (h : m.Unreferenced c) {r : ℕ} (hr : r ≠ c)
    (family : NfProto) :
    (m.withInfo c x).nftBandwidthDestroy r family =
      (m.nftBandwidthDestroy r family).withInfo c x := by
  have hmap : (m.withInfo c x).idMap = m.idMap := rfl
  have hiams : (m.withInfo c x).iams = m.iams := rfl
  simp only [nftBandwidthDestroy, infos_withInfo x m hr, hmap, hiams]
  cases m.infos r with
  | none => rfl
  | some priv =>
    simp only
    cases m.idMap.get priv.id with
    | none =>
      simp only
      rw [unregister_withInfo, withInfo_freeInfo x _ hr]
    | some p =>
      cases hiam : m.iams p with
      | none =>
        simp only [bind_some, hiam]
        rw [unregister_withInfo, withInfo_freeInfo x _ hr]
      | some iam =>
        obtain ⟨-, hother⟩ := h p iam hiam
        simp only [bind_some, hiam]
        cases ho : iam.otherInfo with
        | none =>
          simp only
          rw [setIam_withInfo, unregister_withInfo, withInfo_freeInfo x _ hr]
        | some other =>
          have hne : other ≠ c := fun heq => hother (ho.trans (congrArg some heq))
          simp only
          split_ifs
          · rw [promoteOther_withInfo x m p _ hne, withInfo_freeInfo x _ hr]
          · rw [setIam_withInfo, withInfo_freeInfo x _ hr]

theorem Unreferenced.unregister (h : m.Unreferenced c) (priv : NftBandwidthInfo) :
    (m.unregister priv).Unreferenced c := by
  simp only [ModuleState.unregister]
  cases m.idMap.get priv.id with
  | none => exact h
  | some p =>
    simp only
    split_ifs
    · intro q iam hiam
      simp only [freeIam] at hiam
      split_ifs at hiam with hq
      exact h q iam hiam
    · exact h

/-- Unloading another rule refers to nothing new. -/
theorem Unreferenced.unload (h : m.Unreferenced c) (r : ℕ) (family : NfProto) :
    (m.nftBandwidthDestroy r family).Unreferenced c := by
  simp only [nftBandwidthDestroy]
  cases m.infos r with
  | none => exact h
  | some priv =>
    simp only
    cases m.idMap.get priv.id with
    | none => exact h.unregister priv
    | some p =>
      cases hiam : m.iams p with
      | none =>
        simp only [bind_some, hiam]
        exact h.unregister priv
      | some iam =>
        obtain ⟨hinfo, hother⟩ := h p iam hiam
        simp only [bind_some, hiam]
        cases ho : iam.otherInfo with
        | none =>
          refine Unreferenced.unregister (h.setIam p ?_) priv
          exact ⟨hinfo, by simp⟩
        | some other =>
          have hne : other ≠ c := fun heq => hother (ho.trans (congrArg some heq))
          simp only
          split_ifs
          · simp only [promoteOther]
            cases m.infos other with
            | none => exact h.setIam p ⟨hne, by simp⟩
            | some info => exact (h.setInfo other _).setIam p ⟨hne, by simp⟩
          · exact h.setIam p ⟨hinfo, by simp⟩

theorem apply_withInfo (h : m.Unreferenced c) {e : RuleEvent} (he : e.rule ≠ c) :
    (m.withInfo c x).apply e = (m.apply e).withInfo c x := by
  cases e with
  | load r family attrs t =>
    have hr : r ≠ c := he
    simp only [apply, nftBandwidthInit_withInfo x h hr]
    cases m.nftBandwidthInit r family attrs t with
    | none => rfl
    | some m' => rfl
  | unload r family => exact nftBandwidthDestroy_withInfo x h he family

theorem Unreferenced.apply (h : m.Unreferenced c) {e : RuleEvent} (he : e.rule ≠ c) :
    (m.apply e).Unreferenced c := by
  cases e with
  | load r family attrs t =>
    simp only [ModuleState.apply]
    cases hm' : m.nftBandwidthInit r family attrs t with
    | none => exact h
    | some m' => exact h.load he hm'
  | unload r family => exact h.unload r family

theorem applyAll_withInfo (h : m.Unreferenced c) (es : List RuleEvent)
    (hes : ∀ e ∈ es, e.rule ≠ c) :
    (m.withInfo c x).applyAll es = (m.applyAll es).withInfo c x := by
  unfold applyAll
  induction es generalizing m with
  | nil => rfl
  | cons e es ih =>
    have he := hes e List.mem_cons_self
    rw [List.foldl_cons, List.foldl_cons, apply_withInfo x h he]
    exact ih (h.apply he) fun e' he' => hes e' (List.mem_cons_of_mem e he')

end Unreferenced

/-! ## A check rule comes and goes -/

theorem nftBandwidthInit_check (m : ModuleState) (c : ℕ) (family : NfProto)
    {attrs : NftBandwidthInfo} (t : Tick) (hattrs : attrs.cmp = .check) :
    m.nftBandwidthInit c family attrs t =
      some (m.withInfo c (some { attrs with iam := none, combinedBw := none })) := by
  simp only [nftBandwidthInit, hattrs, if_true]
  rfl

theorem sameRegistry_destroy_of_unregistered {m : ModuleState} {c : ℕ} {priv : NftBandwidthInfo}
    (hinfo : m.infos c = some priv) (hget : m.idMap.get priv.id = none) (family : NfProto) :
    SameRegistry m (m.nftBandwidthDestroy c family) := by
  simp only [nftBandwidthDestroy, hinfo, hget, unregister]
  exact ⟨m.idMap.remove_of_get_none hget, fun _ => rfl⟩

/-- Unloading a rule changes the registry. -/
theorem not_sameRegistry_destroy {m : ModuleState} {c : ℕ} {priv : NftBandwidthInfo}
    (hinfo : m.infos c = some priv) {p : ℕ} (hget : m.idMap.get priv.id = some p)
    (family : NfProto) : ¬ SameRegistry m (m.nftBandwidthDestroy c family) := by
  intro hsame
  have hremoved : m.idMap.remove priv.id ≠ m.idMap := by
    intro heq
    have hgone : (m.idMap.remove priv.id).get priv.id = none := by
      rw [HashedMap.get_remove, if_pos rfl]
    rw [heq, hget] at hgone
    cases hgone
  obtain ⟨hmap, hpointers⟩ := hsame
  simp only [nftBandwidthDestroy, hinfo, hget, bind_some] at hmap hpointers
  cases hiam : m.iams p with
  | none =>
    simp only [hiam, unregister, hget] at hmap
    split_ifs at hmap
    · exact hremoved hmap
    · exact hremoved hmap
  | some iam =>
    simp only [hiam] at hmap hpointers
    cases ho : iam.otherInfo with
    | none =>
      simp only [ho, unregister, hget, setIam] at hmap
      split_ifs at hmap
      · exact hremoved hmap
      · exact hremoved hmap
    | some other =>
      have hcount := congrArg (Option.map Pointers.refCount) (hpointers p)
      simp only [ho, hiam, Option.map_map, map_some] at hcount
      split_ifs at hcount
      · simp [promoteOther, freeInfo, setIam, InfoAndMaps.pointers] at hcount
      · simp [freeInfo, setIam, InfoAndMaps.pointers] at hcount

end ModuleState

/-- A check rule `c` is loaded, other rules come and go, and `c` is unloaded:
the registry is what it would be without `c` exactly when the id of `c` is not
registered at the end. -/
theorem check_rule_leaves_registry_iff {m : ModuleState} {c : ℕ} (hc : m.Unreferenced c)
    (family : NfProto) (attrs : NftBandwidthInfo) (t : Tick) (hattrs : attrs.cmp = .check)
    (es : List RuleEvent) (hes : ∀ e ∈ es, e.rule ≠ c) :
    ModuleState.SameRegistry (m.applyAll es)
        ((((m.apply (.load c family attrs t)).applyAll es)).apply (.unload c family)) ↔
      (m.applyAll es).idMap.get attrs.id = none := by
  have hload : m.apply (.load c family attrs t) =
      m.withInfo c (some { attrs with iam := none, combinedBw := none }) := by
    simp only [ModuleState.apply, m.nftBandwidthInit_check c family t hattrs, Option.getD_some]
  rw [hload, ModuleState.applyAll_withInfo _ hc es hes]
  generalize m.applyAll es = m'
  have hinfo : (m'.withInfo c (some { attrs with iam := none, combinedBw := none })).infos c =
      some { attrs with iam := none, combinedBw := none } := if_pos rfl
  constructor
  · intro hsame
    by_contra hget
    obtain ⟨p, hget⟩ := Option.ne_none_iff_exists'.1 hget
    exact ModuleState.not_sameRegistry_destroy hinfo hget family ⟨hsame.idMap, hsame.pointers⟩
  · intro hget
    have hsame := ModuleState.sameRegistry_destroy_of_unregistered hinfo hget family
    exact ⟨hsame.idMap, hsame.pointers⟩

end

section Quota

local instance registryKernel : Kernel := referenceKernel 32

def loadedState : ModuleState := ModuleState.init ⟨1000, 0⟩

/-- A rule that checks the id of `sourceQuota` comes while the other rules are
loaded and unloaded, and goes when they have gone. -/
theorem check_of_unloaded_quota_leaves_registry :
    ModuleState.SameRegistry
      (loadedState.applyAll [.load 0 .ipv4 sourceQuota ⟨1000, 0⟩, .unload 0 .ipv4])
      (((loadedState.apply (.load 7 .ipv4 { sourceQuota with cmp := .check } ⟨1000, 0⟩)).applyAll
        [.load 0 .ipv4 sourceQuota ⟨1000, 0⟩, .unload 0 .ipv4]).apply (.unload 7 .ipv4)) :=
  (check_rule_leaves_registry_iff (m := loadedState) (c := 7)
    (by
      intro p iam hiam
      cases hiam)
    .ipv4 { sourceQuota with cmp := .check } ⟨1000, 0⟩ rfl
    [.load 0 .ipv4 sourceQuota ⟨1000, 0⟩, .unload 0 .ipv4] (by decide)).2 (by decide)

/-- The quota is loaded and still in use, and it is gone from `id_map` when the
rule that checked it is unloaded. -/
theorem check_unregisters_quota :
    (loadedState.applyAll [.load 0 .ipv4 sourceQuota ⟨1000, 0⟩]).idMap.get sourceQuota.id =
        some 0 ∧
      (((loadedState.apply (.load 7 .ipv4 { sourceQuota with cmp := .check } ⟨1000, 0⟩)).applyAll
        [.load 0 .ipv4 sourceQuota ⟨1000, 0⟩]).apply (.unload 7 .ipv4)).idMap.get sourceQuota.id =
        none ∧
      ¬ ModuleState.SameRegistry
        (loadedState.applyAll [.load 0 .ipv4 sourceQuota ⟨1000, 0⟩])
        (((loadedState.apply (.load 7 .ipv4 { sourceQuota with cmp := .check } ⟨1000, 0⟩)).applyAll
          [.load 0 .ipv4 sourceQuota ⟨1000, 0⟩]).apply (.unload 7 .ipv4)) := by
  refine ⟨by decide, by decide, fun hsame => ?_⟩
  exact absurd (congrArg (HashedMap.get · sourceQuota.id) hsame.idMap) (by decide)

end Quota

end Bandwidth

end Gargoyle
