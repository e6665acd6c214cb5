import Gargoyle.Gpkg.LoadReturns

/-!
# The size that a package requires

`Required-Size` is the size of a version and the required sizes of the versions that its
dependencies are resolved to. So a version that is required along two ways is counted
twice, and one that is resolved to before it has been loaded is not counted at all. The
versions that are counted are the visits of a walk through the dependencies
(`Visits`), and the stored size is the real one exactly when the walk has visited
every version once, as far as its size is concerned.
-/

namespace Gargoyle

open List

namespace Gpkg

open Bandwidth Relation

section Sizes

variable [Kernel]

def PackageData.Proper (data : PackageData) (r : PackageRef) : Prop :=
  ∃ vs, data.packages.get r.name = some vs ∧ r.version ∈ vs.infos.keys

def PackageData.isInstalled (data : PackageData) (r : PackageRef) : Bool :=
  (data.packages.get r.name).any fun vs => vs.current = some r.version

/-- The number in the field `Installed-Size`. -/
def PackageData.installedSize (data : PackageData) (r : PackageRef) : ℕ :=
  ((data.info r).bind fun i => i.installedSize.bind fun s => scanUnsigned 64 s.toList).getD 0

def counted (resolved : List (PackageRef × Bool)) : List PackageRef :=
  (resolved.filter Prod.snd).map Prod.fst

inductive Visits (data : PackageData) : List PackageRef → List PackageRef → Prop
  | nil : Visits data [] []
  | cons {r : PackageRef} {rs vs ws : List PackageRef} {i : PackageInfo} {l : Loaded} :
      data.info r = some i → i.loaded = some l → Visits data (counted l.resolved) vs →
      Visits data rs ws → Visits data (r :: rs) (r :: (vs ++ ws))

def PackageData.sizes (data : PackageData) (rs : List PackageRef) : ℕ :=
  (rs.map data.installedSize).sum

structure Sized (p : LoadParams) (data : PackageData) (r : PackageRef) (l : Loaded) : Prop where
  visits : ∃ vs, Visits data (counted l.resolved) vs ∧
    l.requiredSize = some (((if data.isInstalled r then 0 else data.installedSize r) +
      data.sizes vs) % 2 ^ 64)
  willFit : ∀ n, l.requiredSize = some n →
    l.willFit = if p.loadWillFit then some (decide (n < p.freeBytes)) else none
  resolved : ∀ e ∈ l.resolved, data.Proper e.1 ∧ data.isInstalled e.1 = false

def AllSized (p : LoadParams) (data : PackageData) : Prop :=
  ∀ r i l, data.Proper r → data.info r = some i → i.loaded = some l → Sized p data r l

/-! ## Visits -/

section Visits

variable {data data' : PackageData} {as bs vs ws : List PackageRef} {r : PackageRef}

theorem Visits.append (h : Visits data as vs) (h' : Visits data bs ws) :
    Visits data (as ++ bs) (vs ++ ws) := by
  induction h with
  | nil => exact h'
  | cons hi hl hvisits _ _ ih =>
    rw [cons_append, cons_append, append_assoc]
    exact .cons hi hl hvisits ih

theorem PackageData.Further.visits (h : data.Further data') (hvisits : Visits data as vs) :
    Visits data' as vs := by
  induction hvisits with
  | nil => exact .nil
  | cons hi hl _ _ ih ih' =>
    obtain ⟨i', hi', hfurther⟩ := h.info_some hi
    exact .cons hi' (hfurther.loaded _ hl) ih ih'

theorem PackageData.Further.isInstalled (h : data.Further data') (r : PackageRef) :
    data'.isInstalled r = data.isInstalled r := by
  rw [PackageData.isInstalled, PackageData.isInstalled]
  cases hget : data.packages.get r.name with
  | none => rw [h.get_none hget]
  | some vs =>
    obtain ⟨vs', hget', hvs⟩ := h.get hget
    rw [hget', Option.any_some, Option.any_some, hvs.current]

theorem PackageData.Further.installedSize (h : data.Further data') (r : PackageRef) :
    data'.installedSize r = data.installedSize r := by
  rw [PackageData.installedSize, PackageData.installedSize]
  cases hi : data.info r with
  | none =>
    have hi' : data'.info r = none := eq_none_of_rel (hi ▸ h.info r)
    rw [hi']
  | some i =>
    obtain ⟨i', hi', hfurther⟩ := h.info_some hi
    rw [hi', Option.bind_some, Option.bind_some, hfurther.fields]

theorem PackageData.Further.sizes (h : data.Further data') (rs : List PackageRef) :
    data'.sizes rs = data.sizes rs := by
  rw [PackageData.sizes, PackageData.sizes, funext h.installedSize]

theorem PackageData.Further.proper (h : data.Further data') (r : PackageRef) :
    data'.Proper r ↔ data.Proper r := by
  unfold PackageData.Proper
  cases hget : data.packages.get r.name with
  | none => simp [h.get_none hget]
  | some vs =>
    obtain ⟨vs', hget', hvs⟩ := h.get hget
    simp [hget', hvs.keys]

theorem PackageData.Further.sized (h : data.Further data') {p : LoadParams} {l : Loaded}
    (hsized : Sized p data r l) : Sized p data' r l := by
  obtain ⟨vs, hvisits, hsize⟩ := hsized.visits
  refine ⟨⟨vs, h.visits hvisits, ?_⟩, hsized.willFit, fun e he => ?_⟩
  · rw [h.isInstalled, h.installedSize, h.sizes, hsize]
  · rw [h.proper, h.isInstalled]
    exact hsized.resolved e he

end Visits

/-! ## What the lookups find -/

section Found

variable {data : PackageData} {name : String} {dep : Lookup}

def Lookup.Proper (data : PackageData) (dep : Lookup) : Prop :=
  ∀ r, dep.ret = some r → data.Proper r ∧ dep.isCurrent = data.isInstalled r

theorem Versions.found_proper {vs : Versions} (hget : data.packages.get name = some vs)
    {version : String} (hversion : version ∈ vs.infos.keys) :
    (vs.found name version).Proper data := by
  intro r hr
  obtain rfl := Option.some.inj hr
  refine ⟨⟨vs, hget, hversion⟩, ?_⟩
  rw [PackageData.isInstalled, hget]
  rfl

theorem Lookup.nothing_proper : Lookup.nothing.Proper data := fun _ h => nomatch h

/-- What is looked up is in the data. -/
theorem currentOrLatest_proper {calls : ℕ} {preferLatest : Bool}
    (h : internalGetPackageCurrentOrLatest data calls name preferLatest = some dep) :
    dep.Proper data := by
  induction calls generalizing name with
  | zero => cases h
  | succ calls ih =>
    rw [internalGetPackageCurrentOrLatest] at h
    cases hget : data.packages.get name with
    | some vs =>
      simp only [hget] at h
      obtain rfl := Option.some.inj h
      unfold Versions.currentOrLatest
      cases hcurrent : vs.current with
      | none => exact vs.found_proper hget vs.latest_mem
      | some current =>
        refine vs.found_proper hget ?_
        split_ifs
        · exact vs.latest_mem
        · exact vs.current_mem current hcurrent
    | none =>
      cases hreal : data.realName name with
      | none =>
        simp only [hget, hreal] at h
        obtain rfl := Option.some.inj h
        exact Lookup.nothing_proper
      | some real =>
        simp only [hget, hreal] at h
        exact ih h

/-- A version that is found is one of the package. -/
theorem Versions.foundVersion_mem {vs : Versions} {preferLatest mustBeSatisfiable : Bool}
    {m : DependDef} {version : String}
    (h : vs.foundVersion preferLatest m mustBeSatisfiable = some version) :
    version ∈ vs.infos.keys := by
  have hfold : ∀ (es : List (String × PackageInfo)) (found : Option String),
      (∀ v, found = some v → v ∈ vs.infos.keys) → (∀ e ∈ es, e.1 ∈ vs.infos.keys) →
      ∀ v, es.foldl (fun found e =>
        if m.valid e.1 ∧ (mustBeSatisfiable → vs.satisfiable e.1 e.2) then
          vs.better preferLatest e.1 found
        else found) found = some v → v ∈ vs.infos.keys := by
    intro es
    induction es with
    | nil => exact fun found hfound _ => hfound
    | cons e es ih =>
      intro found hfound hes v hv
      rw [foldl_cons] at hv
      refine ih _ (fun w hw => ?_) (fun e' he' => hes e' (mem_cons_of_mem _ he')) v hv
      have he := hes e mem_cons_self
      split_ifs at hw
      · cases found with
        | none =>
          obtain rfl := Option.some.inj hw
          exact he
        | some found =>
          rw [Versions.better] at hw
          split_ifs at hw
          · exact Option.some.inj hw ▸ he
          · exact Option.some.inj hw ▸ he
          · exact hfound w hw
      · exact hfound w hw
  exact hfold vs.infos.entries none (fun v hv => absurd hv (Option.some_ne_none v).symm)
    (fun e he => mem_map_of_mem he) version h

/-- What is looked up by a constraint is in the data. -/
theorem matching_proper {calls : ℕ} {preferLatest mustBeSatisfiable : Bool} {m : DependDef}
    (h : internalGetPackageCurrentOrLatestMatching data calls name preferLatest m
      mustBeSatisfiable = some dep) : dep.Proper data := by
  induction calls generalizing name m with
  | zero => cases h
  | succ calls ih =>
    rw [internalGetPackageCurrentOrLatestMatching] at h
    split_ifs at h with hall
    · exact currentOrLatest_proper h
    · cases hfound : (data.packages.get name).bind fun vs =>
          (vs.foundVersion preferLatest m mustBeSatisfiable).map (vs.found name) with
      | some found =>
        simp only [hfound] at h
        obtain rfl := Option.some.inj h
        obtain ⟨vs, hget, hmap⟩ := Option.bind_eq_some_iff.1 hfound
        obtain ⟨version, hversion, rfl⟩ := Option.map_eq_some_iff.1 hmap
        exact vs.found_proper hget (vs.foundVersion_mem hversion)
      | none =>
        cases hreal : data.realName name with
        | none =>
          simp only [hfound, hreal] at h
          obtain rfl := Option.some.inj h
          exact Lookup.nothing_proper
        | some real =>
          simp only [hfound, hreal] at h
          exact ih h

theorem resolve_proper {calls : ℕ} {m : DependDef} (h : resolve data calls name m = some dep) :
    dep.Proper data := by
  obtain ⟨dep', hdep', hrest⟩ := Option.bind_eq_some_iff.1 h
  split_ifs at hrest
  · exact matching_proper hrest
  · obtain rfl := Option.some.inj hrest
    exact matching_proper hdep'

theorem isInstalled_of_lookup {calls : ℕ} {vs : Versions} (hget : data.packages.get name = some vs)
    (h : getPackageCurrentOrLatest data calls name = some dep) (version : String) :
    (dep.isCurrent && (dep.matchingVersion == some version)) =
      data.isInstalled ⟨name, version⟩ := by
  cases calls with
  | zero => cases h
  | succ calls =>
    rw [getPackageCurrentOrLatest, currentOrLatest_of_get hget] at h
    obtain rfl := Option.some.inj h
    rw [PackageData.isInstalled, hget, Option.any_some, Versions.currentOrLatest]
    cases hcurrent : vs.current with
    | none => simp [Versions.found, hcurrent]
    | some current =>
      by_cases hversion : current = version
      · simp [Versions.found, hcurrent, hversion]
      · simp [Versions.found, hcurrent, hversion]

end Found

/-! ## A version on its way is not loaded -/

section Frame

variable {data₀ data data' : PackageData} {p : LoadParams} {calls : ℕ} {name : String}
  {r : PackageRef}

theorem PackageData.info_setLoaded_of_ne (data : PackageData) {name version : String}
    {loaded : Loaded} (h : sdbmStringHash name ≠ sdbmStringHash r.name) :
    (data.setLoaded ⟨name, version⟩ loaded).info r = data.info r := by
  rw [PackageData.info_setLoaded, if_neg fun heq => h heq.1.symm]

/-- Loading changes only what is required. -/
theorem load_info_eq (hdata : data₀.Further data)
    (h : loadRecursivePackageDataVariables p calls data name = some data')
    (hnot : ∀ b, ReflTransGen (RequiredBy data₀) b name →
      sdbmStringHash b ≠ sdbmStringHash r.name) : data'.info r = data.info r := by
  induction calls generalizing data name data' with
  | zero => cases h
  | succ calls ih =>
    obtain ⟨installed, -, hrest⟩ := Option.bind_eq_some_iff.1 h
    cases hget : data.packages.get name with
    | none =>
      simp only [hget] at hrest
      obtain rfl := Option.some.inj hrest
      rfl
    | some vs =>
      simp only [hget] at hrest
      refine (List.foldlM_option_invariant
        (P := fun d => data₀.Further d ∧ d.info r = data.info r) ?_ ⟨hdata, rfl⟩ hrest).2
      rintro d version - d' ⟨hd, hinfo⟩ hv
      refine ⟨loadVersion_further (fun _ _ _ => load_further) hd hv, ?_⟩
      rcases loadVersion_eq_some hv with ⟨rfl, -⟩ | ⟨i, s, hi, hnone, hs, rfl⟩
      · exact hinfo
      · rw [PackageData.info_setLoaded_of_ne _ (hnot name .refl)]
        obtain ⟨i₀, hi₀, hnot₀, hdepends⟩ := hd.loaded_eq_none hi hnone
        refine (List.foldlM_option_invariant
          (P := fun t => data₀.Further t.data ∧ t.data.info r = data.info r) ?_
          ⟨hd, hinfo⟩ hs).2
        rintro t e he t' ⟨ht, hinfo'⟩ hstep
        obtain ⟨dep, hcall, -⟩ := loadDepend_eq_some hstep
        refine ⟨load_further ht hcall, (ih ht hcall fun b hb => ?_).trans hinfo'⟩
        rw [ht.dependName] at hb
        exact hnot b (hb.tail ⟨version, i₀, hi₀, hnot₀, e, hdepends ▸ he, rfl⟩)

theorem hash_ne_of_requiredBy (hacyclic : Acyclic (RequiredBy data₀)) {b : String}
    (hb : RequiredBy data₀ b name) {x : String} (hx : ReflTransGen (RequiredBy data₀) x b) :
    sdbmStringHash x ≠ sdbmStringHash name := by
  intro heq
  obtain ⟨v, i, hi, hnot, d, hd, rfl⟩ := hb
  have hinfo : data₀.info ⟨x, v⟩ = data₀.info ⟨name, v⟩ := data₀.info_congr heq rfl
  have hself : RequiredBy data₀ (data₀.dependName d.1) x :=
    ⟨v, i, hinfo.trans hi, hnot, d, hd, rfl⟩
  exact hacyclic _ (TransGen.tail' hx hself)

end Frame

/-! ## The loops -/

section Loops

variable {data₀ data data' : PackageData} {p : LoadParams} {calls : ℕ} {name : String}
  {r : PackageRef}

structure DependState.Sums (p : LoadParams) (own : ℕ) (s : DependState) : Prop where
  allSized : AllSized p s.data
  visits : ∃ vs, Visits s.data (counted s.resolved) vs ∧
    s.requiredSize = (own + s.data.sizes vs) % 2 ^ 64
  resolved : ∀ e ∈ s.resolved, s.data.Proper e.1 ∧ s.data.isInstalled e.1 = false

theorem DependState.Sums.of_further {own : ℕ} {s : DependState} (h : s.Sums p own)
    (hfurther : s.data.Further data') (hsized : AllSized p data') :
    ({ s with data := data' } : DependState).Sums p own := by
  obtain ⟨vs, hvisits, hsize⟩ := h.visits
  refine ⟨hsized, ⟨vs, hfurther.visits hvisits, ?_⟩, fun e he => ?_⟩
  · rw [hfurther.sizes, hsize]
  · rw [hfurther.proper, hfurther.isInstalled]
    exact h.resolved e he

omit [Kernel] in
theorem counted_append (rs : List (PackageRef × Bool)) (r : PackageRef) (isLoaded : Bool) :
    counted (rs ++ [(r, isLoaded)]) = counted rs ++ if isLoaded then [r] else [] := by
  cases isLoaded <;> simp [counted]

/-- Taking a dependency over keeps the sum. -/
theorem DependState.Sums.takeOver {own : ℕ} {s : DependState} (h : s.Sums p own)
    {dep : Lookup} (hdep : dep.Proper s.data) (m : DependDef) :
    (s.takeOver true name m dep).Sums p own := by
  rw [DependState.takeOver]
  cases hret : dep.ret with
  | none => exact ⟨h.allSized, h.visits, h.resolved⟩
  | some r =>
    obtain ⟨hproper, hcurrent⟩ := hdep r hret
    rw [Option.bind_some]
    cases hi : s.data.info r with
    | none => exact ⟨h.allSized, h.visits, h.resolved⟩
    | some i =>
      simp only
      split_ifs with hinstalled
      · exact ⟨h.allSized, h.visits, h.resolved⟩
      · have hnot : s.data.isInstalled r = false := by
          rw [← hcurrent]
          exact Bool.not_eq_true _ ▸ hinstalled
        obtain ⟨vs, hvisits, hsize⟩ := h.visits
        refine ⟨h.allSized, ?_, fun e he => ?_⟩
        · simp only [Option.toList_some, map_cons, map_nil, counted_append]
          cases hl : i.loaded with
          | none =>
            refine ⟨vs, ?_, ?_⟩
            · simpa using hvisits
            · simp [hsize]
          | some l =>
            obtain ⟨ws, hws, hsize'⟩ := (h.allSized r i l hproper hi hl).visits
            refine ⟨vs ++ (r :: (ws ++ [])), hvisits.append (.cons hi hl hws .nil), ?_⟩
            simp only [hnot, Bool.false_eq_true, if_false] at hsize'
            simp only [Option.bind_some, hsize', Option.getD_some, hsize, PackageData.sizes,
              List.append_nil, map_append, map_cons, sum_append,
              sum_cons, ← Nat.add_mod]
            rw [Nat.add_assoc]
        · rcases List.mem_append.1 he with he | he
          · exact h.resolved e he
          · obtain rfl : e = (r, i.loaded.isSome) := by simpa using he
            exact ⟨hproper, hnot⟩

theorem PackageData.version_eq (hproper : data.Proper r) {r' : PackageRef}
    (hproper' : data.Proper r') (hname : sdbmStringHash r'.name = sdbmStringHash r.name)
    (hversion : sdbmStringHash r'.version = sdbmStringHash r.version) :
    r'.version = r.version := by
  obtain ⟨vs, hget, hmem⟩ := hproper
  obtain ⟨vs', hget', hmem'⟩ := hproper'
  rw [HashedMap.get_congr _ hname, hget] at hget'
  obtain rfl := Option.some.inj hget'
  obtain ⟨i, hi⟩ := (vs.infos.mem_keys _).1 hmem
  obtain ⟨i', hi'⟩ := (vs.infos.mem_keys _).1 hmem'
  exact congrArg Prod.fst (HashedMap.eq_of_hash_eq _ vs.infos.sorted hi' hi hversion)

theorem AllSized.setLoaded (h : AllSized p data) (hproper : data.Proper r) {i : PackageInfo}
    (hi : data.info r = some i) (hnot : i.loaded = none) {loaded : Loaded}
    (hsized : Sized p data r loaded) : AllSized p (data.setLoaded r loaded) := by
  have hfurther : data.Further (data.setLoaded r loaded) :=
    (PackageData.Further.refl data).setLoaded hi hnot loaded
  intro r' i' l hproper' hi' hl
  rw [hfurther.proper] at hproper'
  rw [PackageData.info_setLoaded] at hi'
  split_ifs at hi' with hhash
  · -- another name with the same hash stands for the same version
    have hversion := PackageData.version_eq hproper hproper' hhash.1 hhash.2
    have hinstalled : data.isInstalled r' = data.isInstalled r := by
      rw [PackageData.isInstalled, PackageData.isInstalled, HashedMap.get_congr _ hhash.1, hversion]
    have hsize : data.installedSize r' = data.installedSize r := by
      rw [PackageData.installedSize, PackageData.installedSize,
        data.info_congr hhash.1 hhash.2]
    obtain ⟨i'', -, rfl⟩ := Option.map_eq_some_iff.1 hi'
    obtain rfl := Option.some.inj hl
    refine hfurther.sized ⟨?_, hsized.willFit, hsized.resolved⟩
    rw [hinstalled, hsize]
    exact hsized.visits
  · exact hfurther.sized (h r' i' l hproper' hi' hl)

omit [Kernel] in
theorem scanUnsigned_lt {bits n : ℕ} {str : List Char} (h : scanUnsigned bits str = some n) :
    n < 2 ^ bits := by
  have hpos : 0 < 2 ^ bits := Nat.two_pow_pos bits
  unfold scanUnsigned at h
  simp only at h
  split_ifs at h
  all_goals
    obtain rfl := Option.some.inj h
    omega

theorem PackageData.installedSize_lt (data : PackageData) (r : PackageRef) :
    data.installedSize r < 2 ^ 64 := by
  rw [PackageData.installedSize]
  cases h : (data.info r).bind fun i => i.installedSize.bind fun s => scanUnsigned 64 s.toList with
  | none => exact Nat.two_pow_pos 64
  | some n =>
    obtain ⟨i, -, hi⟩ := Option.bind_eq_some_iff.1 h
    obtain ⟨s, -, hs⟩ := Option.bind_eq_some_iff.1 hi
    exact scanUnsigned_lt hs

theorem ownSize_eq (hsize : p.size = true) {i : PackageInfo} (hi : data.info r = some i) :
    ownSize p (data.isInstalled r) i =
      if data.isInstalled r then 0 else data.installedSize r := by
  rw [ownSize, PackageData.installedSize, hi, hsize, Option.bind_some]
  cases data.isInstalled r <;> rfl

structure DependState.OnWay (p : LoadParams) (data₀ data : PackageData) (r : PackageRef)
    (i : PackageInfo) (s : DependState) : Prop where
  further₀ : data₀.Further s.data
  further : data.Further s.data
  info : s.data.info r = some i
  sums : s.Sums p (if data.isInstalled r then 0 else data.installedSize r)

theorem loadDepend_onWay (hacyclic : Acyclic (RequiredBy data₀))
    (ih : ∀ {data name data'}, data₀.Further data → AllSized p data →
      loadRecursivePackageDataVariables p calls data name = some data' → AllSized p data')
    {i : PackageInfo} {s s' : DependState} (hs : s.OnWay p data₀ data r i)
    {d : String × DependDef} (hd : RequiredBy data₀ (data₀.dependName d.1) r.name)
    (h : loadDepend (loadRecursivePackageDataVariables p calls) calls true s d = some s') :
    s'.OnWay p data₀ data r i := by
  obtain ⟨dep, hcall, hresolve, hend⟩ := loadDepend_eq_some h
  have hfurther : s.data.Further s'.data := load_further (.refl _) hcall
  refine ⟨load_further hs.further₀ hcall, load_further hs.further hcall, ?_, ?_⟩
  · rw [hs.further₀.dependName] at hcall
    rw [load_info_eq hs.further₀ hcall fun b hb => hash_ne_of_requiredBy hacyclic hd hb, hs.info]
  · rw [hend]
    have hsized : AllSized p s'.data := ih hs.further₀ hs.sums.allSized hcall
    exact (hs.sums.of_further hfurther hsized).takeOver (resolve_proper hresolve) d.2

theorem DependState.OnWay.sized (hsize : p.size = true) {i : PackageInfo} {s : DependState}
    (hs : s.OnWay p data₀ data r i) : Sized p s.data r (s.loaded p) := by
  refine ⟨?_, ?_, hs.sums.resolved⟩
  · obtain ⟨vs, hvisits, hrequired⟩ := hs.sums.visits
    refine ⟨vs, hvisits, ?_⟩
    rw [hs.further.isInstalled, hs.further.installedSize, ← hrequired, DependState.loaded, hsize]
    rfl
  · intro n hn
    rw [DependState.loaded, hsize] at hn
    rw [DependState.loaded, ← Option.some.inj hn]

/-- A version is loaded with its size. -/
theorem loadVersion_allSized (hacyclic : Acyclic (RequiredBy data₀)) (hsize : p.size = true)
    (ih : ∀ {data name data'}, data₀.Further data → AllSized p data →
      loadRecursivePackageDataVariables p calls data name = some data' → AllSized p data')
    {installed : Lookup} {version : String} (hdata : data₀.Further data)
    (hsized : AllSized p data) (hproper : data.Proper ⟨name, version⟩)
    (hinstalled : (installed.isCurrent && (installed.matchingVersion == some version)) =
      data.isInstalled ⟨name, version⟩)
    (h : loadVersion (loadRecursivePackageDataVariables p calls) calls p name installed data
      version = some data') : AllSized p data' := by
  rcases loadVersion_eq_some h with ⟨rfl, -⟩ | ⟨i, s, hi, hnot, hs, rfl⟩
  · exact hsized
  · obtain ⟨i₀, hi₀, hnot₀, hdepends⟩ := hdata.loaded_eq_none hi hnot
    simp only [hinstalled, hsize, ownSize_eq hsize hi] at hs
    have hway : s.OnWay p data₀ data ⟨name, version⟩ i := by
      refine List.foldlM_option_invariant (fun t d hd t' ht hstep => ?_) ?_ hs
      · exact loadDepend_onWay hacyclic ih ht
          ⟨version, i₀, hi₀, hnot₀, d, hdepends ▸ hd, rfl⟩ hstep
      · refine ⟨hdata, .refl data, hi, hsized, ⟨[], .nil, (Nat.mod_eq_of_lt ?_).symm⟩,
          fun e he => nomatch he⟩
        have hlt := data.installedSize_lt ⟨name, version⟩
        split_ifs
        · exact Nat.two_pow_pos 64
        · exact hlt
    exact hway.sums.allSized.setLoaded ((hway.further.proper _).2 hproper) hway.info hnot
      (hway.sized hsize)

theorem load_allSized (hacyclic : Acyclic (RequiredBy data₀)) (hsize : p.size = true)
    (hdata : data₀.Further data) (hsized : AllSized p data)
    (h : loadRecursivePackageDataVariables p calls data name = some data') :
    AllSized p data' := by
  induction calls generalizing data name data' with
  | zero => cases h
  | succ calls ih =>
    obtain ⟨installed, hlookup, hrest⟩ := Option.bind_eq_some_iff.1 h
    cases hget : data.packages.get name with
    | none =>
      simp only [hget] at hrest
      obtain rfl := Option.some.inj hrest
      exact hsized
    | some vs =>
      simp only [hget] at hrest
      refine (List.foldlM_option_invariant (P := fun d => data₀.Further d ∧ data.Further d ∧
        AllSized p d) ?_ ⟨hdata, .refl data, hsized⟩ hrest).2.2
      rintro d version hversion d' ⟨hd, hfurther, hdsized⟩ hv
      refine ⟨loadVersion_further (fun _ _ _ => load_further) hd hv,
        loadVersion_further (fun _ _ _ => load_further) hfurther hv, ?_⟩
      refine loadVersion_allSized hacyclic hsize ih hd hdsized ?_ ?_ hv
      · exact (hfurther.proper _).2 ⟨vs, hget, hversion⟩
      · rw [isInstalled_of_lookup hget hlookup, hfurther.isInstalled]

theorem load_isSome (h : loadRecursivePackageDataVariables p calls data name = some data')
    {version : String} (hproper : data.Proper ⟨name, version⟩) {i : PackageInfo}
    (hi : data'.info ⟨name, version⟩ = some i) : i.loaded.isSome := by
  cases calls with
  | zero => cases h
  | succ calls =>
    obtain ⟨installed, -, hrest⟩ := Option.bind_eq_some_iff.1 h
    obtain ⟨vs, hget, hmem⟩ := hproper
    simp only at hget hmem
    simp only [hget] at hrest
    refine List.foldlM_option_mem (Q := fun version (d : PackageData) =>
      ∀ i, d.info ⟨name, version⟩ = some i → i.loaded.isSome) ?_ ?_ hrest version hmem i hi
    · intro d v d' hv i' hi'
      rcases loadVersion_eq_some hv with ⟨rfl, hsome⟩ | ⟨i, s, -, -, -, rfl⟩
      · exact hsome i' hi'
      · rw [PackageData.info_setLoaded, if_pos ⟨rfl, rfl⟩] at hi'
        obtain ⟨i'', -, rfl⟩ := Option.map_eq_some_iff.1 hi'
        rfl
    · intro d v' d' v hv hsome
      exact (loadVersion_further (fun _ _ _ => load_further) (.refl d) hv).loaded_isSome hsome

end Loops

end Sizes

end Gpkg

end Gargoyle
