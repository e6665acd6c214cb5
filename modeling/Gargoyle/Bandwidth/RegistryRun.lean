import Mathlib.Data.Set.Card
import Gargoyle.Bandwidth.RuleRegistry

/-!
# Runs of loading and unloading counting rules

`RegistryCorrect` is what the registry is for: an id is present as long as a
rule has it, its two pointers are live rules of that id, and its count is the
number of these rules. `RegistryOk` is the invariant behind it, which also knows
the families.

`nft_bandwidth_destroy` recognises `iam->info` by its family, and
`nft_bandwidth_init` compares with the family of `iam->info` alone. `Orderly`
leaves out the steps at which this is not enough: unloading the second of two
`INET` rules, and loading a third rule for an id.
-/

namespace Gargoyle

namespace Bandwidth

section

variable [Kernel]

namespace ModuleState

def idOf (m : ModuleState) (r : ℕ) : Option String := (m.infos r).map (·.id)

structure RegistryCorrect (m : ModuleState) : Prop where
  present : ∀ id, id ∈ m.idMap.keys ↔ ∃ r, m.idOf r = some id
  live : ∀ id p, (id, p) ∈ m.idMap.entries → ∃ iam, m.iams p = some iam ∧
    m.idOf iam.info = some id ∧
    (∀ o, iam.otherInfo = some o → m.idOf o = some id ∧ o ≠ iam.info) ∧
    iam.refCount = {r | m.idOf r = some id}.ncard

/-- The rule `r` behind `iam->info` is unloaded while another rule of its id is
loaded: the other rule takes its place, with what `r` had counted. -/
def CarriesOver (m m' : ModuleState) (r : ℕ) : Prop :=
  ∀ id p iam o, (id, p) ∈ m.idMap.entries → m.iams p = some iam → iam.info = r →
    o ≠ r → m.idOf o = some id →
    ∃ priv info', m.infos r = some priv ∧ m'.infos o = some info' ∧
      (m'.iams p).map (·.info) = some o ∧
      info'.currentBandwidth = priv.currentBandwidth ∧ info'.nextReset = priv.nextReset ∧
      info'.previousReset = priv.previousReset ∧ info'.combinedBw = priv.combinedBw

structure Owns (fam : ℕ → NfProto) (m : ModuleState) (id : String) (q : Pointers) : Prop where
  info : m.idOf q.info = some id
  infoFamily : q.infoFamily = fam q.info
  other : ∀ o, q.otherInfo = some o → m.idOf o = some id ∧ o ≠ q.info ∧
    q.otherInfoFamily = some (fam o) ∧ (fam o = fam q.info → fam q.info = .inet)
  refCount : q.refCount = 1 + q.otherInfo.toList.length

structure RegistryOk (fam : ℕ → NfProto) (m : ModuleState) : Prop where
  counting : ∀ r info, m.infos r = some info → info.cmp ≠ .check
  owns : ∀ e ∈ m.idMap.entries, ∃ iam, m.iams e.2 = some iam ∧ Owns fam m e.1 iam.pointers
  owned : ∀ r id, m.idOf r = some id → ∃ p iam, (id, p) ∈ m.idMap.entries ∧
    m.iams p = some iam ∧ (iam.info = r ∨ iam.otherInfo = some r)
  fresh : ∀ e ∈ m.idMap.entries, e.2 < m.nextIam
  apart : ∀ e ∈ m.idMap.entries, ∀ e' ∈ m.idMap.entries, e.2 = e'.2 → e = e'

/-- A call the module accepts, of a counting rule of the family `fam`. -/
def Accepts (fam : ℕ → NfProto) (m : ModuleState) : RuleEvent → Prop
  | .load r family attrs t =>
    family = fam r ∧ attrs.cmp ≠ .check ∧ m.infos r = none ∧
      (m.nftBandwidthInit r family attrs t).isSome
  | .unload r family => family = fam r ∧ (m.infos r).isSome

/-- The id of a new rule has at most one rule, and no other id of its hash; of
two `INET` rules the one behind `iam->info` is unloaded. -/
def Orderly (m : ModuleState) : RuleEvent → Prop
  | .load _ _ attrs _ =>
    (∀ p iam, m.idMap.get attrs.id = some p → m.iams p = some iam → iam.otherInfo = none) ∧
      ∀ r id, m.idOf r = some id → sdbmStringHash id = sdbmStringHash attrs.id → id = attrs.id
  | .unload r family =>
    family = .inet → ∀ id p iam, m.idOf r = some id → m.idMap.get id = some p →
      m.iams p = some iam → iam.otherInfo ≠ none → iam.info = r

/-- Every call of the sequence satisfies `P` in the state it is made in. -/
def AllSteps (P : ModuleState → RuleEvent → Prop) : ModuleState → List RuleEvent → Prop
  | _, [] => True
  | m, e :: es => P m e ∧ AllSteps P (m.apply e) es

/-! ## The invariant says what is wanted -/

section Invariant

variable {fam : ℕ → NfProto} {m : ModuleState}

theorem Owns.mono {m' : ModuleState} {id : String} {q : Pointers} (h : Owns fam m id q)
    (hids : ∀ r, m.idOf r = some id → m'.idOf r = some id) : Owns fam m' id q where
  info := hids _ h.info
  infoFamily := h.infoFamily
  other := fun o ho => ⟨hids o (h.other o ho).1, (h.other o ho).2⟩
  refCount := h.refCount

theorem registryOk_init (t : Tick) : RegistryOk fam (ModuleState.init t) where
  counting := by
    intro r info h
    cases h
  owns := by
    intro e he
    cases he
  owned := by
    intro r id h
    cases h
  fresh := by
    intro e he
    cases he
  apart := by
    intro e he
    cases he

theorem RegistryOk.rules_of_id (h : RegistryOk fam m) {id : String} {p : ℕ}
    (hmem : (id, p) ∈ m.idMap.entries) {iam : InfoAndMaps} (hiam : m.iams p = some iam) {r : ℕ}
    (hr : m.idOf r = some id) : iam.info = r ∨ iam.otherInfo = some r := by
  obtain ⟨p', iam', hmem', hiam', hpoints⟩ := h.owned r id hr
  have hentry := HashedMap.eq_of_hash_eq sdbmStringHash m.idMap.sorted hmem hmem' rfl
  obtain rfl : p = p' := congrArg Prod.snd hentry
  obtain rfl : iam = iam' := Option.some.inj (hiam.symm.trans hiam')
  exact hpoints

/-- The count of an id is the number of its rules. -/
theorem Owns.refCount_eq {id : String} {iam : InfoAndMaps} (h : Owns fam m id iam.pointers)
    (hrules : ∀ r, m.idOf r = some id → iam.info = r ∨ iam.otherInfo = some r) :
    iam.refCount = {r | m.idOf r = some id}.ncard := by
  have hcount := h.refCount
  have hinfo := h.info
  have hother := h.other
  simp only [InfoAndMaps.pointers] at hcount hinfo hother
  cases ho : iam.otherInfo with
  | none =>
    have hset : {r | m.idOf r = some id} = {iam.info} := by
      ext r
      constructor
      · intro hr
        rcases hrules r hr with hr' | hr'
        · exact hr'.symm
        · rw [ho] at hr'
          cases hr'
      · rintro rfl
        exact hinfo
    rw [hcount, hset, ho, Set.ncard_singleton]
    rfl
  | some o =>
    obtain ⟨hid, hne, -, -⟩ := hother o ho
    have hset : {r | m.idOf r = some id} = {iam.info, o} := by
      ext r
      constructor
      · intro hr
        rcases hrules r hr with hr' | hr'
        · exact .inl hr'.symm
        · exact .inr (Option.some.inj (ho.symm.trans hr')).symm
      · rintro (rfl | rfl)
        · exact hinfo
        · exact hid
    rw [hcount, hset, ho, Set.ncard_pair hne.symm]
    rfl

theorem RegistryOk.correct (h : RegistryOk fam m) : RegistryCorrect m where
  present := by
    intro id
    constructor
    · intro hid
      obtain ⟨e, he, rfl⟩ := List.mem_map.1 hid
      obtain ⟨iam, -, howns⟩ := h.owns e he
      exact ⟨iam.info, howns.info⟩
    · rintro ⟨r, hr⟩
      obtain ⟨p, -, hmem, -⟩ := h.owned r id hr
      exact List.mem_map.2 ⟨(id, p), hmem, rfl⟩
  live := by
    intro id p hmem
    obtain ⟨iam, hiam, howns⟩ := h.owns (id, p) hmem
    refine ⟨iam, hiam, howns.info, fun o ho => ?_, ?_⟩
    · obtain ⟨hid, hne, -, -⟩ := howns.other o ho
      exact ⟨hid, hne⟩
    · exact howns.refCount_eq fun r hr => h.rules_of_id hmem hiam hr

/-! ## What a step does to the registry -/

/-- What keeps the rules keeps the registry. -/
theorem RegistryOk.of_keepsRules {m' : ModuleState} (h : RegistryOk fam m)
    (hsame : KeepsRules m m') : RegistryOk fam m' := by
  have hids : ∀ r, m'.idOf r = m.idOf r := by
    intro r
    have hlabel := congrArg (Option.map Prod.fst) (hsame.rules r)
    rw [Option.map_map, Option.map_map] at hlabel
    exact hlabel
  have hpointers : ∀ p iam, m.iams p = some iam → ∃ iam', m'.iams p = some iam' ∧
      iam'.pointers = iam.pointers := by
    intro p iam hiam
    have hp := hsame.pointers p
    rw [hiam] at hp
    exact Option.map_eq_some_iff.1 hp
  refine ⟨fun r info hinfo => ?_, fun e he => ?_, fun r id hr => ?_, ?_, ?_⟩
  · have hcmp := congrArg (Option.map Prod.snd) (hsame.rules r)
    rw [Option.map_map, Option.map_map, hinfo] at hcmp
    obtain ⟨old, hold, heq⟩ := Option.map_eq_some_iff.1 hcmp.symm
    have hcounting := h.counting r old hold
    rwa [show old.cmp = info.cmp from heq] at hcounting
  · rw [hsame.idMap] at he
    obtain ⟨iam, hiam, howns⟩ := h.owns e he
    obtain ⟨iam', hiam', heq⟩ := hpointers e.2 iam hiam
    refine ⟨iam', hiam', ?_⟩
    rw [heq]
    exact howns.mono fun r hr => (hids r).trans hr
  · rw [hids] at hr
    obtain ⟨p, iam, hmem, hiam, hpoints⟩ := h.owned r id hr
    obtain ⟨iam', hiam', heq⟩ := hpointers p iam hiam
    refine ⟨p, iam', hsame.idMap ▸ hmem, hiam', ?_⟩
    have hinfo : iam'.info = iam.info := congrArg Pointers.info heq
    have hother : iam'.otherInfo = iam.otherInfo := congrArg Pointers.otherInfo heq
    rwa [hinfo, hother]
  · rw [hsame.idMap, hsame.nextIam]
    exact h.fresh
  · rw [hsame.idMap]
    exact h.apart

theorem keepsRules_of_load {r : ℕ} {family : NfProto} {attrs : NftBandwidthInfo} {t : Tick}
    {m' : ModuleState} (hattrs : attrs.cmp ≠ .check)
    (hm' : m.nftBandwidthInit r family attrs t = some m') :
    ∃ s, m.register r family { attrs with iam := none, combinedBw := none } = some s ∧
      KeepsRules s.1 m' := by
  have hset : ∀ (m₁ : ModuleState) {info info' : NftBandwidthInfo}, m₁.infos r = some info →
      info'.label = info.label → KeepsRules m₁ (m₁.setInfo r info') := by
    intro m₁ info info' hinfo hlabel
    refine ⟨⟨rfl, fun _ => rfl⟩, rfl, fun r' => ?_⟩
    simp only [setInfo]
    split_ifs with hr'
    · rw [hr', hinfo, Option.map_some, Option.map_some, hlabel]
    · rfl
  simp only [nftBandwidthInit, hattrs, if_false, Option.map_eq_some_iff] at hm'
  obtain ⟨s, hs, rfl⟩ := hm'
  refine ⟨s, hs, ?_⟩
  split_ifs with hinterval
  · have hshift := keepsRules_checkForTimezoneShift s.1 t
    cases hinfo : (s.1.checkForTimezoneShift t).infos r with
    | none => exact hshift
    | some info =>
      refine hshift.trans (hset _ hinfo ?_)
      simp only [startTimes]
      split_ifs <;> rfl
  · cases hinfo : s.1.infos r with
    | none => exact KeepsRules.refl _
    | some info => exact hset _ hinfo rfl

theorem idOf_setInfo (m : ModuleState) (r r' : ℕ) (info : NftBandwidthInfo) :
    (m.setInfo r info).idOf r' = if r' = r then some info.id else m.idOf r' := by
  simp only [idOf, setInfo]
  split_ifs
  · rfl
  · rfl

theorem idOf_freeInfo (m : ModuleState) (r r' : ℕ) :
    (m.freeInfo r).idOf r' = if r' = r then none else m.idOf r' := by
  simp only [idOf, freeInfo]
  split_ifs
  · rfl
  · rfl

theorem ne_of_idOf {r r' : ℕ} {id : String} (hr : m.infos r = none) (h : m.idOf r' = some id) :
    r' ≠ r := by
  rintro rfl
  rw [idOf, hr] at h
  cases h

/-- A rule with a new id is entered. -/
theorem RegistryOk.enter (h : RegistryOk fam m) {r : ℕ} (hr : m.infos r = none)
    (master : NftBandwidthInfo) (hcmp : master.cmp ≠ .check)
    (hget : m.idMap.get master.id = none) (maps : IpMaps) {m' : ModuleState}
    (hinfos : m'.infos = (m.setInfo r master).infos)
    (hiams : m'.iams = (m.setIam m.nextIam ⟨r, fam r, none, none, 1, maps⟩).iams)
    (hnext : m'.nextIam = m.nextIam + 1)
    (hmap : m'.idMap = m.idMap.set master.id m.nextIam) : RegistryOk fam m' := by
  have hids : ∀ r', m'.idOf r' = if r' = r then some master.id else m.idOf r' := by
    intro r'
    rw [← idOf_setInfo, idOf, idOf, hinfos]
  have hkept : ∀ r' id, m.idOf r' = some id → m'.idOf r' = some id := by
    intro r' id hr'
    rw [hids, if_neg (ne_of_idOf hr hr'), hr']
  have hold : ∀ p, p < m.nextIam → m'.iams p = m.iams p := by
    intro p hp
    rw [hiams]
    exact if_neg hp.ne
  have hunique := (m.idMap.get_eq_none_iff master.id).1 hget
  have hnew : m'.iams m.nextIam = some ⟨r, fam r, none, none, 1, maps⟩ := by
    rw [hiams]
    exact if_pos rfl
  refine ⟨fun r' info hinfo => ?_, fun e he => ?_, fun r' id hr' => ?_, fun e he => ?_,
    fun e he e' he' heq => ?_⟩
  · rw [hinfos] at hinfo
    simp only [setInfo] at hinfo
    split_ifs at hinfo
    · obtain rfl := Option.some.inj hinfo
      exact hcmp
    · exact h.counting r' info hinfo
  · rw [hmap, HashedMap.mem_entries_set] at he
    rcases he with rfl | ⟨hmem, -⟩
    · refine ⟨_, hnew, ?_, rfl, ?_, rfl⟩
      · exact (hids r).trans (if_pos rfl)
      · intro o ho
        cases ho
    · obtain ⟨iam, hiam, howns⟩ := h.owns e hmem
      exact ⟨iam, (hold _ (h.fresh e hmem)).trans hiam, howns.mono fun r' => hkept r' e.1⟩
  · rw [hmap]
    rw [hids] at hr'
    split_ifs at hr' with heq
    · obtain rfl := Option.some.inj hr'
      exact ⟨m.nextIam, _, (HashedMap.mem_entries_set _ _ _ _).2 (Or.inl rfl), hnew,
        Or.inl heq.symm⟩
    · obtain ⟨p, iam, hmem, hiam, hpoints⟩ := h.owned r' id hr'
      exact ⟨p, iam, (HashedMap.mem_entries_set _ _ _ _).2 (Or.inr ⟨hmem, hunique _ hmem⟩),
        (hold p (h.fresh _ hmem)).trans hiam, hpoints⟩
  · rw [hmap, HashedMap.mem_entries_set] at he
    rw [hnext]
    rcases he with rfl | ⟨hmem, -⟩
    · exact Nat.lt_succ_self _
    · exact (h.fresh e hmem).trans (Nat.lt_succ_self _)
  · rw [hmap, HashedMap.mem_entries_set] at he he'
    rcases he with rfl | ⟨hmem, -⟩
    · rcases he' with rfl | ⟨hmem', -⟩
      · rfl
      · exact absurd heq.symm (h.fresh e' hmem').ne
    · rcases he' with rfl | ⟨hmem', -⟩
      · exact absurd heq (h.fresh e hmem).ne
      · exact h.apart e hmem e' hmem' heq

/-- The record of an id may change if its rules stay. -/
theorem RegistryOk.update (h : RegistryOk fam m) {id : String} {p : ℕ}
    (hmem : (id, p) ∈ m.idMap.entries) {iam' : InfoAndMaps} {m' : ModuleState}
    (hnext : m'.nextIam = m.nextIam) (hmap : m'.idMap = m.idMap)
    (hiams : m'.iams = (m.setIam p iam').iams)
    (hcounting : ∀ r info, m'.infos r = some info → info.cmp ≠ .check)
    (hids : ∀ r id', id' ≠ id → (m'.idOf r = some id' ↔ m.idOf r = some id'))
    (howns : Owns fam m' id iam'.pointers)
    (howned : ∀ r, m'.idOf r = some id → iam'.info = r ∨ iam'.otherInfo = some r) :
    RegistryOk fam m' := by
  have hnew : m'.iams p = some iam' := by
    rw [hiams]
    exact if_pos rfl
  have hold : ∀ e ∈ m.idMap.entries, e ≠ (id, p) → e.1 ≠ id ∧ m'.iams e.2 = m.iams e.2 := by
    intro e he hne
    constructor
    · intro heq
      exact hne (HashedMap.eq_of_hash_eq sdbmStringHash m.idMap.sorted he hmem
        (congrArg sdbmStringHash heq))
    · rw [hiams]
      exact if_neg fun heq => hne (h.apart e he _ hmem heq)
  refine ⟨hcounting, fun e he => ?_, fun r id' hr => ?_, ?_, ?_⟩
  · rw [hmap] at he
    by_cases heq : e = (id, p)
    · rw [heq]
      exact ⟨iam', hnew, howns⟩
    · obtain ⟨hid, hiam'⟩ := hold e he heq
      obtain ⟨iam, hiam, howns'⟩ := h.owns e he
      exact ⟨iam, hiam'.trans hiam, howns'.mono fun r hr => (hids r e.1 hid).2 hr⟩
  · by_cases hid : id' = id
    · subst hid
      exact ⟨p, iam', hmap ▸ hmem, hnew, howned r hr⟩
    · obtain ⟨p', iam, hmem', hiam, hpoints⟩ := h.owned r id' ((hids r id' hid).1 hr)
      have hne : ((id', p') : String × ℕ) ≠ (id, p) := fun heq => hid (congrArg Prod.fst heq)
      exact ⟨p', iam, hmap ▸ hmem', (hold _ hmem' hne).2.trans hiam, hpoints⟩
  · rw [hmap, hnext]
    exact h.fresh
  · rw [hmap]
    exact h.apart

/-- The last rule of an id leaves. -/
theorem RegistryOk.leave (h : RegistryOk fam m) {id : String} {p : ℕ}
    (hmem : (id, p) ∈ m.idMap.entries) {r : ℕ} {m' : ModuleState}
    (honly : ∀ r', m.idOf r' = some id → r' = r) (hr : m.idOf r = some id)
    (hinfos : m'.infos = (m.freeInfo r).infos) (hnext : m'.nextIam = m.nextIam)
    (hmap : m'.idMap = m.idMap.remove id) (hiams : ∀ q, q ≠ p → m'.iams q = m.iams q) :
    RegistryOk fam m' := by
  have hids : ∀ r', m'.idOf r' = if r' = r then none else m.idOf r' := by
    intro r'
    rw [← idOf_freeInfo, idOf, idOf, hinfos]
  have hkept : ∀ r' id', id' ≠ id → m.idOf r' = some id' → m'.idOf r' = some id' := by
    intro r' id' hne hr'
    rw [hids, if_neg, hr']
    rintro rfl
    exact hne (Option.some.inj (hr'.symm.trans hr))
  have hentry : ∀ e, e ∈ m'.idMap.entries ↔ e ∈ m.idMap.entries ∧ e ≠ (id, p) := by
    intro e
    rw [hmap, HashedMap.mem_entries_remove]
    refine and_congr_right fun he => not_congr ⟨fun heq => ?_, fun heq => by rw [heq]⟩
    exact HashedMap.eq_of_hash_eq sdbmStringHash m.idMap.sorted he hmem heq
  have hold : ∀ e ∈ m.idMap.entries, e ≠ (id, p) → e.1 ≠ id ∧ m'.iams e.2 = m.iams e.2 := by
    intro e he hne
    constructor
    · intro heq
      exact hne (HashedMap.eq_of_hash_eq sdbmStringHash m.idMap.sorted he hmem
        (congrArg sdbmStringHash heq))
    · exact hiams _ fun heq => hne (h.apart e he _ hmem heq)
  refine ⟨fun r' info hinfo => ?_, fun e he => ?_, fun r' id' hr' => ?_, fun e he => ?_,
    fun e he e' he' => ?_⟩
  · rw [hinfos] at hinfo
    simp only [freeInfo] at hinfo
    split_ifs at hinfo
    exact h.counting r' info hinfo
  · obtain ⟨hmem', hne⟩ := (hentry e).1 he
    obtain ⟨hid, hiam'⟩ := hold e hmem' hne
    obtain ⟨iam, hiam, howns⟩ := h.owns e hmem'
    exact ⟨iam, hiam'.trans hiam, howns.mono fun r' => hkept r' e.1 hid⟩
  · rw [hids] at hr'
    split_ifs at hr' with heq
    obtain ⟨p', iam, hmem', hiam, hpoints⟩ := h.owned r' id' hr'
    have hne : ((id', p') : String × ℕ) ≠ (id, p) := by
      intro hentry'
      obtain rfl : id' = id := congrArg Prod.fst hentry'
      exact heq (honly r' hr')
    exact ⟨p', iam, (hentry _).2 ⟨hmem', hne⟩, (hold _ hmem' hne).2.trans hiam, hpoints⟩
  · rw [hnext]
    exact h.fresh e ((hentry e).1 he).1
  · exact h.apart e ((hentry e).1 he).1 e' ((hentry e').1 he').1

/-- A rule joins the one that has its id. -/
theorem RegistryOk.join (h : RegistryOk fam m) {r : ℕ} (hr : m.infos r = none)
    (master : NftBandwidthInfo) (hcmp : master.cmp ≠ .check) {p : ℕ}
    (hmem : (master.id, p) ∈ m.idMap.entries) {iam : InfoAndMaps} (hiam : m.iams p = some iam)
    (hnone : iam.otherInfo = none) (hfamily : fam r = iam.infoFamily → iam.infoFamily = .inet) :
    RegistryOk fam ((m.setInfo r master).setIam p
      { iam with
        otherInfo := some r
        otherInfoFamily := some (fam r)
        refCount := iam.refCount + 1 }) := by
  obtain ⟨iam', hiam', howns⟩ := h.owns _ hmem
  obtain rfl : iam = iam' := Option.some.inj (hiam.symm.trans hiam')
  have hids : ∀ r', (m.setInfo r master).idOf r' =
      if r' = r then some master.id else m.idOf r' := fun r' => idOf_setInfo m r r' master
  have hkept : ∀ r' id, m.idOf r' = some id → (m.setInfo r master).idOf r' = some id := by
    intro r' id hr'
    rw [hids, if_neg (ne_of_idOf hr hr'), hr']
  have hinfoFamily : iam.infoFamily = fam iam.info := howns.infoFamily
  refine h.update hmem rfl rfl rfl (fun r' info hinfo => ?_) (fun r' id hid => ?_) ?_
    fun r' hr' => ?_
  · simp only [setIam, setInfo] at hinfo
    split_ifs at hinfo
    · obtain rfl := Option.some.inj hinfo
      exact hcmp
    · exact h.counting r' info hinfo
  · change (m.setInfo r master).idOf r' = some id ↔ m.idOf r' = some id
    rw [hids]
    split_ifs with heq
    · rw [heq, idOf, hr]
      simpa using hid.symm
    · rfl
  · refine ⟨hkept _ _ howns.info, howns.infoFamily, fun o ho => ?_, ?_⟩
    · obtain rfl := Option.some.inj ho
      refine ⟨(hids r).trans (if_pos rfl), (ne_of_idOf hr howns.info).symm, rfl, fun heq => ?_⟩
      change fam r = fam iam.info at heq
      change fam iam.info = .inet
      rw [← hinfoFamily] at heq ⊢
      exact hfamily heq
    · have hcount : iam.refCount = 1 + iam.otherInfo.toList.length := howns.refCount
      change iam.refCount + 1 = 1 + 1
      rw [hcount, hnone]
      rfl
  · change (m.setInfo r master).idOf r' = some master.id at hr'
    rw [hids] at hr'
    split_ifs at hr' with heq
    · exact .inr (congrArg some heq.symm)
    · rcases h.rules_of_id hmem hiam hr' with hpoints | hpoints
      · exact .inl hpoints
      · rw [hnone] at hpoints
        cases hpoints

/-- One of two rules leaves, and the id stays with the other one. -/
theorem RegistryOk.part (h : RegistryOk fam m) {id : String} {p : ℕ}
    (hmem : (id, p) ∈ m.idMap.entries) {r stays : ℕ} (hr : m.idOf r = some id)
    (hstays : m.idOf stays = some id) (hne : stays ≠ r)
    (hrules : ∀ r', m.idOf r' = some id → r' = r ∨ r' = stays) {m' : ModuleState}
    {iam' : InfoAndMaps}
    (hiam' : iam'.pointers = ⟨stays, fam stays, none, none, 1⟩)
    (hnext : m'.nextIam = m.nextIam) (hmap : m'.idMap = m.idMap)
    (hiams : m'.iams = (m.setIam p iam').iams)
    (hlabels : ∀ r', (m'.infos r').map (·.label) = if r' = r then none else
      (m.infos r').map (·.label)) : RegistryOk fam m' := by
  have hids : ∀ r', m'.idOf r' = if r' = r then none else m.idOf r' := by
    intro r'
    have hlabel := congrArg (Option.map Prod.fst) (hlabels r')
    rw [Option.map_map, apply_ite (Option.map Prod.fst), Option.map_map] at hlabel
    exact hlabel
  refine h.update hmem hnext hmap hiams (fun r' info hinfo => ?_) (fun r' id' hid => ?_) ?_
    fun r' hr' => ?_
  · have hlabel := hlabels r'
    rw [hinfo, Option.map_some] at hlabel
    split_ifs at hlabel
    obtain ⟨old, hold, heq⟩ := Option.map_eq_some_iff.1 hlabel.symm
    have hcounting := h.counting r' old hold
    rwa [show old.cmp = info.cmp from congrArg Prod.snd heq] at hcounting
  · rw [hids]
    split_ifs with heq
    · rw [heq, hr]
      simpa using hid.symm
    · rfl
  · rw [hiam']
    refine ⟨?_, rfl, fun o ho => ?_, rfl⟩
    · rw [hids, if_neg hne, hstays]
    · cases ho
  · rw [hids] at hr'
    split_ifs at hr' with heq
    have hinfo : iam'.info = stays := congrArg Pointers.info hiam'
    rcases hrules r' hr' with hr' | hr'
    · exact absurd hr' heq
    · exact .inl (hinfo.trans hr'.symm)

/-! ## The steps keep the invariant -/

omit [Kernel] in
theorem family_of_not_conflict [Kernel] {family : NfProto} {iam : InfoAndMaps}
    (h : ¬ familyConflict family iam = true) (heq : family = iam.infoFamily) :
    iam.infoFamily = .inet := by
  subst heq
  by_contra hne
  exact h (by simp [familyConflict, hne])

/-- Loading a rule keeps the registry. -/
theorem RegistryOk.load (h : RegistryOk fam m) {r : ℕ} {family : NfProto}
    {attrs : NftBandwidthInfo} {t : Tick} (haccepts : Accepts fam m (.load r family attrs t))
    (horderly : Orderly m (.load r family attrs t)) :
    RegistryOk fam (m.apply (.load r family attrs t)) := by
  obtain ⟨rfl, hcmp, hr, hsome⟩ := haccepts
  obtain ⟨m', hm'⟩ := Option.isSome_iff_exists.1 hsome
  obtain ⟨s, hs, hkeeps⟩ := keepsRules_of_load hcmp hm'
  have happly : m.apply (.load r (fam r) attrs t) = m' := by
    simp only [apply, hm', Option.getD_some]
  rw [happly]
  refine RegistryOk.of_keepsRules ?_ hkeeps
  simp only [register] at hs
  cases hget : m.idMap.get attrs.id with
  | none =>
    simp only [hget, Option.some.injEq] at hs
    subst hs
    exact h.enter hr { attrs with iam := none, combinedBw := none } hcmp hget _
      rfl rfl rfl rfl
  | some p =>
    obtain ⟨id, hhash, hmem⟩ := m.idMap.exists_mem_of_get hget
    obtain ⟨iam, hiam, howns⟩ := h.owns _ hmem
    obtain rfl : id = attrs.id := horderly.2 _ _ howns.info hhash
    have hnone := horderly.1 p iam hget hiam
    cases hinfo : m.infos iam.info with
    | none =>
      simp only [hget, hiam, hinfo] at hs
      cases hs
    | some info =>
      simp only [hget, hiam, hinfo] at hs
      split_ifs at hs with hconflict hdifferent
      obtain rfl := Option.some.inj hs
      have hfamily := fun heq => family_of_not_conflict hconflict heq
      exact h.join hr { attrs with iam := none, combinedBw := info.combinedBw } hcmp hmem hiam
        hnone hfamily

theorem RegistryOk.entry (h : RegistryOk fam m) {r : ℕ} {priv : NftBandwidthInfo}
    (hpriv : m.infos r = some priv) :
    ∃ p iam, (priv.id, p) ∈ m.idMap.entries ∧ m.idMap.get priv.id = some p ∧
      m.iams p = some iam ∧ Owns fam m priv.id iam.pointers ∧
      (iam.info = r ∨ iam.otherInfo = some r) := by
  have hr : m.idOf r = some priv.id := by
    rw [idOf, hpriv]
    rfl
  obtain ⟨p, iam, hmem, hiam, hpoints⟩ := h.owned r priv.id hr
  obtain ⟨iam', hiam', howns⟩ := h.owns _ hmem
  obtain rfl : iam = iam' := Option.some.inj (hiam.symm.trans hiam')
  exact ⟨p, iam, hmem, m.idMap.get_of_mem hmem, hiam, howns, hpoints⟩

theorem Owns.info_iff {id : String} {iam : InfoAndMaps} {r : ℕ}
    (h : Owns fam m id iam.pointers)
    (hpoints : iam.info = r ∨ iam.otherInfo = some r) (hinet : fam r = .inet → iam.info = r) :
    iam.infoFamily = fam r ↔ iam.info = r := by
  have hfamily : iam.infoFamily = fam iam.info := h.infoFamily
  constructor
  · intro heq
    rcases hpoints with hinfo | hother
    · exact hinfo
    · obtain ⟨-, -, -, hsame⟩ := h.other r hother
      have hshared : fam r = fam iam.info := by rw [← hfamily, heq]
      exact hinet (hshared.trans (hsame hshared))
  · rintro rfl
    exact hfamily

/-- Unloading a rule keeps the registry. -/
theorem RegistryOk.unload (h : RegistryOk fam m) {r : ℕ} {family : NfProto}
    (haccepts : Accepts fam m (.unload r family)) (horderly : Orderly m (.unload r family)) :
    RegistryOk fam (m.apply (.unload r family)) := by
  obtain ⟨rfl, hlive⟩ := haccepts
  obtain ⟨priv, hpriv⟩ := Option.isSome_iff_exists.1 hlive
  obtain ⟨p, iam, hmem, hget, hiam, howns, hpoints⟩ := h.entry hpriv
  have hr : m.idOf r = some priv.id := by
    rw [idOf, hpriv]
    rfl
  have hcmp := h.counting r priv hpriv
  have hcount : iam.refCount = 1 + iam.otherInfo.toList.length := howns.refCount
  simp only [apply, nftBandwidthDestroy, hpriv, hget, Option.bind_some, hiam]
  cases ho : iam.otherInfo with
  | none =>
    have honly : ∀ r', m.idOf r' = some priv.id → r' = iam.info := by
      intro r' hr'
      rcases h.rules_of_id hmem hiam hr' with hinfo | hother
      · exact hinfo.symm
      · rw [ho] at hother
        cases hother
    simp only [unregister, setIam, hget, if_pos hcmp]
    refine h.leave hmem (fun r' hr' => (honly r' hr').trans (honly r hr).symm) hr rfl rfl rfl ?_
    intro q hq
    simp only [freeInfo, freeIam, if_neg hq]
  | some o =>
    obtain ⟨hid, hne, hotherFamily, -⟩ := howns.other o ho
    change iam.otherInfoFamily = some (fam o) at hotherFamily
    change o ≠ iam.info at hne
    rw [ho] at hpoints hcount
    have hone : iam.refCount - 1 = 1 := by
      rw [hcount]
      rfl
    have hpair : ∀ r', m.idOf r' = some priv.id → r' = iam.info ∨ r' = o := by
      intro r' hr'
      rcases h.rules_of_id hmem hiam hr' with hinfo | hother
      · exact .inl hinfo.symm
      · exact .inr (Option.some.inj (hother.symm.trans ho))
    have hprimary := howns.info_iff (hpoints.imp_right fun heq => ho.trans heq)
      fun hinet => horderly hinet _ p iam hr hget hiam (by simp [ho])
    simp only
    split_ifs with hfamily
    · obtain rfl := hprimary.1 hfamily
      obtain ⟨info, hinfo, -⟩ := Option.map_eq_some_iff.1 hid
      simp only [promoteOther, hinfo]
      refine h.part hmem hr hid hne hpair ?_ rfl rfl rfl fun r' => ?_
      · simp only [InfoAndMaps.pointers, hone, hotherFamily, Option.getD_some]
      · simp only [freeInfo, setIam, setInfo]
        split_ifs with hr' ho'
        · rfl
        · rw [ho', hinfo]
          rfl
        · rfl
    · obtain rfl : o = r := by
        rcases hpoints with hinfo | hother
        · exact absurd (hprimary.2 hinfo) hfamily
        · exact Option.some.inj hother
      have hinfoFamily : iam.infoFamily = fam iam.info := howns.infoFamily
      refine h.part hmem hr howns.info hne.symm (fun r' hr' => (hpair r' hr').symm) ?_ rfl rfl rfl
        fun r' => ?_
      · simp only [InfoAndMaps.pointers, hone, hinfoFamily]
      · simp only [freeInfo, setIam]
        split_ifs
        · rfl
        · rfl

theorem RegistryOk.apply (h : RegistryOk fam m) {e : RuleEvent} (haccepts : Accepts fam m e)
    (horderly : Orderly m e) : RegistryOk fam (m.apply e) := by
  cases e with
  | load r family attrs t => exact h.load haccepts horderly
  | unload r family => exact h.unload haccepts horderly

theorem RegistryOk.applyAll (h : RegistryOk fam m) (es : List RuleEvent)
    (haccepts : AllSteps (Accepts fam) m es) (horderly : AllSteps Orderly m es) :
    RegistryOk fam (m.applyAll es) := by
  induction es generalizing m with
  | nil => exact h
  | cons e es ih => exact ih (h.apply haccepts.1 horderly.1) haccepts.2 horderly.2

/-- What is counted is carried over to the rule that stays. -/
theorem RegistryOk.carriesOver (h : RegistryOk fam m) {r : ℕ} {family : NfProto}
    (haccepts : Accepts fam m (.unload r family)) :
    CarriesOver m (m.apply (.unload r family)) r := by
  rintro id p iam o hmem hiam rfl hne hid
  obtain ⟨rfl, hlive⟩ := haccepts
  obtain ⟨priv, hpriv⟩ := Option.isSome_iff_exists.1 hlive
  obtain ⟨iam', hiam', howns⟩ := h.owns _ hmem
  obtain rfl : iam = iam' := Option.some.inj (hiam.symm.trans hiam')
  have hprivId : priv.id = id := by
    have hinfo := howns.info
    rw [idOf, show m.infos iam.pointers.info = some priv from hpriv] at hinfo
    exact Option.some.inj hinfo
  have hget : m.idMap.get priv.id = some p := hprivId ▸ m.idMap.get_of_mem hmem
  have ho : iam.otherInfo = some o :=
    (h.rules_of_id hmem hiam hid).resolve_left hne.symm
  have hfamily : iam.infoFamily = fam iam.info := howns.infoFamily
  obtain ⟨info, hinfo, -⟩ := Option.map_eq_some_iff.1 hid
  simp only [ModuleState.apply, nftBandwidthDestroy, hpriv, hget, Option.bind_some, hiam, ho,
    if_pos hfamily, promoteOther, hinfo]
  refine ⟨priv,
    { info with
      currentBandwidth := priv.currentBandwidth
      nextReset := priv.nextReset
      previousReset := priv.previousReset
      lastBackupTime := priv.lastBackupTime
      combinedBw := priv.combinedBw }, rfl, ?_, ?_, rfl, rfl, rfl, rfl⟩
  · simp only [freeInfo, setIam, setInfo, if_neg hne, if_true]
  · simp only [freeInfo, setIam, if_true, Option.map_some]

end Invariant

end ModuleState

/-- After every sequence of orderly steps the registry agrees with the rules
that are loaded, and a rule that is then unloaded hands over what it had
counted. -/
theorem registry_of_orderly_run (fam : ℕ → NfProto) (t : Tick) (es : List RuleEvent)
    (haccepts : ModuleState.AllSteps (ModuleState.Accepts fam) (ModuleState.init t) es)
    (horderly : ModuleState.AllSteps ModuleState.Orderly (ModuleState.init t) es) :
    ((ModuleState.init t).applyAll es).RegistryCorrect ∧
      ∀ r family, ((ModuleState.init t).applyAll es).Accepts fam (.unload r family) →
        ((ModuleState.init t).applyAll es).CarriesOver
          (((ModuleState.init t).applyAll es).apply (.unload r family)) r := by
  have hok := (ModuleState.registryOk_init t).applyAll es haccepts horderly
  exact ⟨hok.correct, fun r family hunload => hok.carriesOver hunload⟩

end

section Quota

local instance runKernel : Kernel := referenceKernel 32

def familyRun : List RuleEvent :=
  [.load 0 .ipv4 sourceQuota ⟨1000, 0⟩, .load 1 .ipv6 sourceQuota ⟨1000, 0⟩, .unload 0 .ipv4]

/-- The family of the first rule is `IPv4` and that of the others is `IPv6`. -/
def familyOf (r : ℕ) : NfProto := if r = 0 then .ipv4 else .ipv6

theorem registry_after_familyRun :
    (loadedState.applyAll familyRun).RegistryCorrect := by
  refine (registry_of_orderly_run familyOf ⟨1000, 0⟩ familyRun ?_ ?_).1
  · exact ⟨⟨rfl, by decide, rfl, by decide⟩, ⟨rfl, by decide, rfl, by decide⟩, ⟨rfl, by decide⟩,
      trivial⟩
  · refine ⟨⟨?_, ?_⟩, ⟨?_, ?_⟩, ?_, trivial⟩
    · intro p iam hget
      cases hget
    · intro r id hr
      cases hr
    · intro p iam hget hiam
      obtain rfl : 0 = p := Option.some.inj hget
      exact congrArg InfoAndMaps.otherInfo (Option.some.inj hiam).symm
    · intro r id hr _
      cases r with
      | zero => exact (Option.some.inj hr).symm
      | succ r => cases hr
    · intro hinet
      cases hinet

/-- Two `INET` quotas for the same id, and the second is unloaded. -/
def inetRun : List RuleEvent :=
  [.load 0 .inet sourceQuota ⟨1000, 0⟩, .load 1 .inet sourceQuota ⟨1000, 0⟩, .unload 1 .inet]

/-- The id then points to the record that has been freed. -/
theorem inet_rule_freed :
    ModuleState.AllSteps (ModuleState.Accepts fun _ => .inet) loadedState inetRun ∧
      ((loadedState.applyAll inetRun).iams 0).map (·.info) = some 1 ∧
      (loadedState.applyAll inetRun).idOf 1 = none ∧
      (loadedState.applyAll inetRun).idOf 0 = some sourceQuota.id ∧
      ¬ (loadedState.applyAll inetRun).RegistryCorrect := by
  refine ⟨?_, by decide, by decide, by decide, fun hcorrect => ?_⟩
  · exact ⟨⟨rfl, by decide, rfl, by decide⟩, ⟨rfl, by decide, rfl, by decide⟩, ⟨rfl, by decide⟩,
      trivial⟩
  · obtain ⟨iam, hiam, hinfo, -⟩ := hcorrect.live sourceQuota.id 0 (by decide)
    have hfreed : ((loadedState.applyAll inetRun).iams 0).map (·.info) = some 1 := by decide
    rw [hiam, Option.map_some, Option.some.injEq] at hfreed
    rw [hfreed] at hinfo
    exact absurd hinfo (by decide)

end Quota

end Bandwidth

end Gargoyle
