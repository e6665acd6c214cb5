import Gargoyle.Gpkg.RequiredSize
import Mathlib.Algebra.BigOperators.Ring.Finset

/-!
# The real cost of an installation

What a version requires is itself and, again and again, what the dependencies were
resolved to. The real cost counts every version of these once. The stored size counts
it for each visit of the walk, modulo `2 ^ 64`: the two agree exactly when the visits
beyond the first one add nothing.

A version is known by its place in the maps, since names with the same hash stand for the
same package.
-/

namespace Gargoyle

open List

namespace Gpkg

open Bandwidth Relation

section Cost

variable [Kernel]

def PackageRef.SamePlace (r r' : PackageRef) : Prop :=
  sdbmStringHash r.name = sdbmStringHash r'.name ∧
    sdbmStringHash r.version = sdbmStringHash r'.version
  deriving Decidable

def PackageData.refs (data : PackageData) : List PackageRef :=
  data.packages.entries.flatMap fun e => e.2.infos.keys.map fun v => ⟨e.1, v⟩

def PackageData.resolvedOf (data : PackageData) (r : PackageRef) : List PackageRef :=
  ((data.info r).bind PackageInfo.loaded).elim [] fun l => l.resolved.map Prod.fst

def Requires (data : PackageData) (r x : PackageRef) : Prop := x ∈ data.resolvedOf r

def Reaches (data : PackageData) (r x : PackageRef) : Prop :=
  ∃ y, ReflTransGen (Requires data) r y ∧ x.SamePlace y

def PackageData.cost (data : PackageData) (s : Finset PackageRef) : ℕ :=
  ∑ x ∈ s, data.installedSize x

/-- The stored size is the given one, and `Will-Fit` is answered for it. -/
def Loaded.Costs (p : LoadParams) (l : Loaded) (n : ℕ) : Prop :=
  l.requiredSize = some n ∧
    (p.loadWillFit = true → l.willFit = some (decide (n < p.freeBytes)))

section Places

variable {data data' : PackageData} {r r' : PackageRef}

theorem PackageData.proper_of_mem_refs (h : r ∈ data.refs) : data.Proper r := by
  obtain ⟨e, he, hr⟩ := List.mem_flatMap.1 h
  obtain ⟨v, hv, rfl⟩ := List.mem_map.1 hr
  exact ⟨e.2, data.packages.get_of_mem he, hv⟩

theorem PackageData.exists_mem_refs (h : data.Proper r) : ∃ x ∈ data.refs, x.SamePlace r := by
  obtain ⟨vs, hget, hmem⟩ := h
  obtain ⟨name, hname, hentry⟩ := data.packages.exists_mem_of_get hget
  exact ⟨⟨name, r.version⟩, List.mem_flatMap.2 ⟨_, hentry, List.mem_map.2 ⟨_, hmem, rfl⟩⟩,
    hname, rfl⟩

theorem PackageData.eq_of_samePlace (h : r ∈ data.refs) (h' : r' ∈ data.refs)
    (hplace : r.SamePlace r') : r = r' := by
  have hversion : r.version = r'.version :=
    PackageData.version_eq (proper_of_mem_refs h') (proper_of_mem_refs h) hplace.1 hplace.2
  obtain ⟨e, he, hr⟩ := List.mem_flatMap.1 h
  obtain ⟨v, hv, rfl⟩ := List.mem_map.1 hr
  obtain ⟨e', he', hr'⟩ := List.mem_flatMap.1 h'
  obtain ⟨v', hv', rfl⟩ := List.mem_map.1 hr'
  obtain rfl := HashedMap.eq_of_hash_eq _ data.packages.sorted he he' hplace.1
  rw [PackageRef.mk.injEq]
  exact ⟨rfl, hversion⟩

theorem PackageRef.SamePlace.symm (h : r.SamePlace r') : r'.SamePlace r := ⟨h.1.symm, h.2.symm⟩

theorem PackageRef.SamePlace.trans {r'' : PackageRef} (h : r.SamePlace r')
    (h' : r'.SamePlace r'') : r.SamePlace r'' := ⟨h.1.trans h'.1, h.2.trans h'.2⟩

theorem PackageRef.SamePlace.installedSize (h : r.SamePlace r') :
    data.installedSize r = data.installedSize r' := by
  rw [PackageData.installedSize, PackageData.installedSize, data.info_congr h.1 h.2]

theorem PackageRef.SamePlace.isInstalled (h : r.SamePlace r') (hr : data.Proper r)
    (hr' : data.Proper r') : data.isInstalled r = data.isInstalled r' := by
  rw [PackageData.isInstalled, PackageData.isInstalled, HashedMap.get_congr _ h.1,
    PackageData.version_eq hr' hr h.1 h.2]

end Places

/-! ## Visits are required versions -/

section Walk

variable {data data' : PackageData} {p : LoadParams} {r x : PackageRef}

theorem requires_iff : Requires data r x ↔
    ∃ i l, data.info r = some i ∧ i.loaded = some l ∧ ∃ e ∈ l.resolved, e.1 = x := by
  rw [Requires, PackageData.resolvedOf]
  cases hi : data.info r with
  | none => simp
  | some i =>
    cases hl : i.loaded with
    | none => simp [hl]
    | some l => simp [hl]

theorem Visits.reaches {as vs : List PackageRef} (h : Visits data as vs) :
    ∀ v ∈ vs, ∃ a ∈ as, ReflTransGen (Requires data) a v := by
  induction h with
  | nil => exact fun v hv => nomatch hv
  | @cons r rs vs ws i l hi hl _ _ ih ih' =>
    intro v hv
    rcases List.mem_cons.1 hv with rfl | hv
    · exact ⟨v, mem_cons_self, .refl⟩
    · rcases List.mem_append.1 hv with hv | hv
      · obtain ⟨a, ha, hpath⟩ := ih v hv
        obtain ⟨e, he, rfl⟩ := List.mem_map.1 ha
        exact ⟨r, mem_cons_self,
          .head (requires_iff.2 ⟨i, l, hi, hl, e, (List.mem_filter.1 he).1, rfl⟩) hpath⟩
      · obtain ⟨a, ha, hpath⟩ := ih' v hv
        exact ⟨a, mem_cons_of_mem _ ha, hpath⟩

theorem AllSized.requires (hsized : AllSized p data) (hr : data.Proper r)
    (hnot : data.isInstalled r = false) (h : ReflTransGen (Requires data) r x) :
    data.Proper x ∧ data.isInstalled x = false := by
  induction h with
  | refl => exact ⟨hr, hnot⟩
  | tail _ hstep ih =>
    obtain ⟨i, l, hi, hl, e, he, rfl⟩ := requires_iff.1 hstep
    exact (hsized _ i l ih.1 hi hl).resolved e he

end Walk

/-! ## The cost -/

section Count

variable {data data' : PackageData} {p : LoadParams} {r : PackageRef} {s : Finset PackageRef}

theorem PackageData.sizes_eq_sum {vs : List PackageRef}
    (hs : ∀ x ∈ s, ∀ y ∈ s, x.SamePlace y → x = y)
    (hvs : ∀ v ∈ vs, ∃ x ∈ s, x.SamePlace v) :
    data.sizes vs = ∑ x ∈ s, vs.countP (x.SamePlace ·) * data.installedSize x := by
  induction vs with
  | nil => simp [PackageData.sizes]
  | cons v vs ih =>
    obtain ⟨hv, hvs⟩ := List.forall_mem_cons.1 hvs
    obtain ⟨x, hx, hplace⟩ := hv
    have hcount : ∀ y ∈ s, (v :: vs).countP (y.SamePlace ·) * data.installedSize y =
        vs.countP (y.SamePlace ·) * data.installedSize y +
          if x = y then data.installedSize y else 0 := by
      intro y hy
      rw [countP_cons, Nat.add_mul]
      congr 1
      by_cases hxy : x = y
      · simp [← hxy, hplace]
      · have hnot : ¬ y.SamePlace v := fun h => hxy (hs x hx y hy (hplace.trans h.symm))
        simp [hxy, hnot]
    rw [Finset.sum_congr rfl hcount, Finset.sum_add_distrib, Finset.sum_ite_eq, if_pos hx,
      ← ih hvs, hplace.installedSize, PackageData.sizes, PackageData.sizes, map_cons,
      sum_cons, Nat.add_comm]

def NothingTwice (data : PackageData) (s : Finset PackageRef) (vs : List PackageRef) : Prop :=
  (2 ^ 64 : ℤ) ∣ ∑ x ∈ s, ((vs.countP (x.SamePlace ·) : ℤ) - 1) * data.installedSize x

theorem sum_mod_eq_iff {vs : List PackageRef}
    (hs : ∀ x ∈ s, ∀ y ∈ s, x.SamePlace y → x = y) (hvs : ∀ v ∈ vs, ∃ x ∈ s, x.SamePlace v) :
    data.sizes vs % 2 ^ 64 = data.cost s ↔ data.cost s < 2 ^ 64 ∧ NothingTwice data s vs := by
  have hdiff : ∑ x ∈ s, ((vs.countP (x.SamePlace ·) : ℤ) - 1) * data.installedSize x =
      (data.sizes vs : ℤ) - data.cost s := by
    rw [PackageData.sizes_eq_sum hs hvs, PackageData.cost]
    push_cast
    rw [← Finset.sum_sub_distrib]
    refine Finset.sum_congr rfl fun x _ => ?_
    rw [sub_mul, one_mul]
  rw [NothingTwice, hdiff]
  omega

theorem exists_reaches (data data' : PackageData) (r : PackageRef) :
    ∃ s : Finset PackageRef, ∀ x, x ∈ s ↔ x ∈ data.refs ∧ Reaches data' r x := by
  classical
  refine ⟨data.refs.toFinset.filter (Reaches data' r), fun x => ?_⟩
  rw [Finset.mem_filter, mem_toFinset]

/-- The stored size, by the versions that were not installed. -/
theorem Sized.costs_iff (hfurther : data.Further data') (hsized : AllSized p data')
    (hr : data.Proper r) (hnot : data.isInstalled r = false) {i : PackageInfo} {l : Loaded}
    (hi : data'.info r = some i) (hl : i.loaded = some l) {s : Finset PackageRef}
    (hs : ∀ x, x ∈ s ↔ x ∈ data.refs ∧ Reaches data' r x) :
    ∃ vs, Visits data' [r] vs ∧
      (l.Costs p (data.cost s) ↔ data.cost s < 2 ^ 64 ∧ NothingTwice data s vs) := by
  have hr' : data'.Proper r := (hfurther.proper r).2 hr
  have hnot' : data'.isInstalled r = false := (hfurther.isInstalled r).trans hnot
  have hrsized : Sized p data' r l := hsized r i l hr' hi hl
  obtain ⟨ws, hws, hsize⟩ := hrsized.visits
  have hvisits : Visits data' [r] (r :: (ws ++ [])) := .cons hi hl hws .nil
  have hsum : l.requiredSize = some (data.sizes (r :: (ws ++ [])) % 2 ^ 64) := by
    rw [hsize, hnot', hfurther.installedSize, hfurther.sizes, PackageData.sizes,
      PackageData.sizes, List.append_nil, map_cons, sum_cons]
    rfl
  refine ⟨_, hvisits, ?_⟩
  have hplaces : ∀ v ∈ r :: (ws ++ []), ∃ x ∈ s, x.SamePlace v := by
    intro v hv
    obtain ⟨a, ha, hpath⟩ := hvisits.reaches v hv
    obtain rfl := List.mem_singleton.1 ha
    obtain ⟨x, hx, hplace⟩ := data.exists_mem_refs
      ((hfurther.proper v).1 (hsized.requires hr' hnot' hpath).1)
    exact ⟨x, (hs x).2 ⟨hx, v, hpath, hplace⟩, hplace⟩
  have hdistinct : ∀ x ∈ s, ∀ y ∈ s, x.SamePlace y → x = y := fun x hx y hy =>
    data.eq_of_samePlace ((hs x).1 hx).1 ((hs y).1 hy).1
  rw [← sum_mod_eq_iff hdistinct hplaces, Loaded.Costs, hsum, Option.some_inj]
  refine ⟨fun h => h.1, fun h => ⟨h, fun hfit => ?_⟩⟩
  rw [hrsized.willFit _ hsum, if_pos hfit, h]

end Count

/-! ## Calls for some packages -/

section Names

variable {data : PackageData} {p : LoadParams}

def PackageData.Fresh (data : PackageData) : Prop :=
  ∀ r i, data.info r = some i → i.loaded = none

theorem PackageData.fresh_of_entries (h : ∀ e ∈ data.packages.entries,
    ∀ f ∈ e.2.infos.entries, f.2.loaded.isNone) : data.Fresh := by
  intro r i hi
  obtain ⟨vs, hvs, hi⟩ := Option.bind_eq_some_iff.1 hi
  obtain ⟨name, -, hentry⟩ := data.packages.exists_mem_of_get hvs
  obtain ⟨version, -, hversion⟩ := vs.infos.exists_mem_of_get hi
  exact Option.isNone_iff_eq_none.1 (h _ hentry _ hversion)

theorem names_allSized {data' : PackageData} {calls : ℕ} {names : List String}
    (hsize : p.size = true) (hfresh : data.Fresh) (hacyclic : Acyclic (RequiredBy data))
    (h : names.foldlM (loadRecursivePackageDataVariables p calls) data = some data') :
    data.Further data' ∧ AllSized p data' := by
  refine List.foldlM_option_invariant (P := fun d => data.Further d ∧ AllSized p d) ?_ ?_ h
  · rintro d name - d' ⟨hd, hsized⟩ hcall
    exact ⟨load_further hd hcall, load_allSized hacyclic hsize hd hsized hcall⟩
  · refine ⟨.refl data, fun r i l _ hi hl => ?_⟩
    rw [hfresh r i hi] at hl
    cases hl

theorem names_loaded {data' : PackageData} {calls : ℕ} {names : List String}
    (h : names.foldlM (loadRecursivePackageDataVariables p calls) data = some data')
    {r : PackageRef} (hr : data.Proper r) (hname : r.name ∈ names) :
    ∃ i l, data'.info r = some i ∧ i.loaded = some l := by
  have hfurther : data.Further data' :=
    List.foldlM_option_invariant (fun d name _ d' hd hcall => load_further hd hcall) (.refl data) h
  have hloaded : r.name = r.name → data'.Proper r → ∀ i, data'.info r = some i →
      i.loaded.isSome := by
    refine List.foldlM_option_mem (Q := fun name (d : PackageData) => r.name = name →
      d.Proper r → ∀ i, d.info r = some i → i.loaded.isSome) ?_ ?_ h r.name hname
    · rintro d name d' hcall rfl hproper i hi
      have hd : d.Further d' := load_further (.refl d) hcall
      exact load_isSome hcall ((hd.proper r).1 hproper) hi
    · intro d other d' name hcall hkept hr' hproper
      have hd : d.Further d' := load_further (.refl d) hcall
      exact hd.loaded_isSome (hkept hr' ((hd.proper r).1 hproper))
  obtain ⟨vs, hget, hmem⟩ := (hfurther.proper r).2 hr
  obtain ⟨i, hi⟩ := Option.isSome_iff_exists.1 (vs.infos.get_isSome_of_mem_keys hmem)
  have hinfo : data'.info r = some i := by rw [PackageData.info, hget, Option.bind_some, hi]
  obtain ⟨l, hl⟩ := Option.isSome_iff_exists.1 (hloaded rfl ⟨vs, hget, hmem⟩ i hinfo)
  exact ⟨i, l, hinfo, hl⟩

theorem names_return (p : LoadParams) (hacyclic : Acyclic (RequiredBy data))
    (hfalls : Acyclic (FallsTo data)) (names : List String) :
    ∃ calls data',
      names.foldlM (loadRecursivePackageDataVariables p calls) data = some data' := by
  obtain ⟨t, ht, hrequired⟩ := finite_requiredBy data
  obtain ⟨u, hu, hleads⟩ := finite_fallsTo data
  have hwf : WellFounded (RequiredBy data) := hacyclic.wellFounded ht hrequired
  have hwf' : WellFounded (FallsTo data) := hfalls.wellFounded hu hleads
  obtain ⟨calls, data', hcalls, -⟩ := List.exists_foldlM_option (P := data.Further)
    (f := loadRecursivePackageDataVariables p) (l := names)
    (fun m n hle d name d' => load_mono hle)
    (fun d name _ hd => by
      obtain ⟨calls, d', hcall⟩ := load_returns p hwf' (hwf.apply name) d hd
      exact ⟨calls, d', hcall, load_further hd hcall⟩) (.refl data)
  exact ⟨calls, data', hcalls⟩

/-- Calls that return leave the same data, however many they may make. -/
theorem names_unique {p : LoadParams} {calls calls' : ℕ} {names : List String}
    {data₁ data₂ : PackageData}
    (h₁ : names.foldlM (loadRecursivePackageDataVariables p calls) data = some data₁)
    (h₂ : names.foldlM (loadRecursivePackageDataVariables p calls') data = some data₂) :
    data₁ = data₂ := by
  have hmono : ∀ {m d}, m ≤ max calls calls' →
      names.foldlM (loadRecursivePackageDataVariables p m) data = some d →
        names.foldlM (loadRecursivePackageDataVariables p (max calls calls')) data = some d :=
    fun hle h => List.foldlM_option_mono (fun _ _ _ hcall => load_mono hle hcall) h
  exact Option.some.inj ((hmono (le_max_left _ _) h₁).symm.trans (hmono (le_max_right _ _) h₂))

/-- For every universe without cycles and every order of the calls: the stored size of a version
that is not installed is the real cost of its installation exactly when this is less than
`2 ^ 64` and no visit beyond the first one adds anything to it. -/
theorem requiredSize_real_iff (p : LoadParams) (hsize : p.size = true) {data : PackageData}
    (hfresh : data.Fresh) (hacyclic : Acyclic (RequiredBy data)) (hfalls : Acyclic (FallsTo data))
    (names : List String) :
    ∃ calls data', names.foldlM (loadRecursivePackageDataVariables p calls) data = some data' ∧
      ∀ r, data.Proper r → r.name ∈ names → data.isInstalled r = false →
        ∃ i l s vs, data'.info r = some i ∧ i.loaded = some l ∧
          (∀ x, x ∈ s ↔ x ∈ data.refs ∧ Reaches data' r x) ∧
          (∀ x ∈ s, data.isInstalled x = false) ∧ Visits data' [r] vs ∧
          (l.Costs p (data.cost s) ↔ data.cost s < 2 ^ 64 ∧ NothingTwice data s vs) := by
  obtain ⟨calls, data', hcalls⟩ := names_return p hacyclic hfalls names
  obtain ⟨hfurther, hsized⟩ := names_allSized hsize hfresh hacyclic hcalls
  refine ⟨calls, data', hcalls, fun r hr hname hnot => ?_⟩
  obtain ⟨i, l, hi, hl⟩ := names_loaded hcalls hr hname
  obtain ⟨s, hs⟩ := exists_reaches data data' r
  obtain ⟨vs, hvisits, hiff⟩ := Sized.costs_iff hfurther hsized hr hnot hi hl hs
  refine ⟨i, l, s, vs, hi, hl, hs, fun x hx => ?_, hvisits, hiff⟩
  obtain ⟨hmem, y, hpath, hplace⟩ := (hs x).1 hx
  obtain ⟨hy, hynot⟩ := hsized.requires ((hfurther.proper r).2 hr)
    ((hfurther.isInstalled r).trans hnot) hpath
  rw [hplace.isInstalled (PackageData.proper_of_mem_refs hmem) ((hfurther.proper y).1 hy),
    ← hfurther.isInstalled y, hynot]

end Names

/-! ## A package that is required along two ways -/

def ofSizeOne (depends : Option String) : Versions where
  infos := HashedMap.empty.set "1.0" { depends := depends, installedSize := some "1" }
  current := none
  latest := "1.0"
  current_mem := fun _ h => nomatch h
  latest_mem := HashedMap.mem_keys_set_self ..

def diamond : PackageData where
  packages := (((HashedMap.empty.set "luci" (ofSizeOne (some "uhttpd, rpcd"))).set "uhttpd"
    (ofSizeOne (some "libubox"))).set "rpcd" (ofSizeOne (some "libubox"))).set "libubox"
      (ofSizeOne none)
  provides := .empty
  real_mem := fun _ _ _ h => nomatch h

end Cost

section Diamond

local instance diamondKernel : Kernel := referenceKernel 64

theorem diamond_fresh : diamond.Fresh := by
  refine PackageData.fresh_of_entries ?_
  decide

theorem diamond_acyclic : Acyclic (RequiredBy diamond) := by
  refine acyclic_of_loads ⟨true, false, 0⟩ 20 ?_
  decide

theorem diamond_acyclic_fallsTo : Acyclic (FallsTo diamond) := by
  intro name hcycle
  obtain ⟨other, -, hfalls⟩ := TransGen.tail'_iff.1 hcycle
  cases hfalls.1

def uhttpdLoaded : PackageData :=
  (loadRecursivePackageDataVariables ⟨true, true, 3⟩ 20 diamond "uhttpd").getD diamond

theorem uhttpdLoaded_eq : ["uhttpd"].foldlM (loadRecursivePackageDataVariables ⟨true, true, 3⟩ 20)
    diamond = some uhttpdLoaded := by
  have hsome : (loadRecursivePackageDataVariables ⟨true, true, 3⟩ 20 diamond "uhttpd").isSome := by
    decide
  obtain ⟨d, hd⟩ := Option.isSome_iff_exists.1 hsome
  refine Option.bind_eq_some_iff.2 ⟨d, hd, ?_⟩
  rw [uhttpdLoaded, hd, Option.getD_some]

theorem uhttpdLoaded_reaches {x : PackageRef} (hx : x ∈ diamond.refs) :
    Reaches uhttpdLoaded ⟨"uhttpd", "1.0"⟩ x ↔ x = ⟨"uhttpd", "1.0"⟩ ∨ x = ⟨"libubox", "1.0"⟩ := by
  have huhttpd : uhttpdLoaded.resolvedOf ⟨"uhttpd", "1.0"⟩ = [⟨"libubox", "1.0"⟩] := by
    decide
  have hlibubox : uhttpdLoaded.resolvedOf ⟨"libubox", "1.0"⟩ = [] := by decide
  have hplaces : ∀ z ∈ diamond.refs, ∀ y ∈ [(⟨"uhttpd", "1.0"⟩ : PackageRef), ⟨"libubox", "1.0"⟩],
      z.SamePlace y → z = y := by decide
  have hreached : ∀ y, ReflTransGen (Requires uhttpdLoaded) ⟨"uhttpd", "1.0"⟩ y →
      y ∈ [(⟨"uhttpd", "1.0"⟩ : PackageRef), ⟨"libubox", "1.0"⟩] := by
    intro y hpath
    induction hpath with
    | refl => exact mem_cons_self
    | tail _ hstep ih =>
      unfold Requires at hstep
      rcases mem_pair.1 ih with rfl | rfl
      · rw [huhttpd] at hstep
        exact mem_cons_of_mem _ hstep
      · rw [hlibubox] at hstep
        cases hstep
  constructor
  · rintro ⟨y, hpath, hplace⟩
    have hy := hreached y hpath
    rw [hplaces x hx y hy hplace]
    exact mem_pair.1 hy
  · rintro (rfl | rfl)
    · exact ⟨_, .refl, rfl, rfl⟩
    · refine ⟨_, .single ?_, rfl, rfl⟩
      rw [Requires, huhttpd]
      exact mem_cons_self

/-- The size of a package and of one that it requires. -/
theorem uhttpd_costs :
    ∃ calls i l s vs, ["uhttpd"].foldlM
        (loadRecursivePackageDataVariables ⟨true, true, 3⟩ calls) diamond = some uhttpdLoaded ∧
      uhttpdLoaded.info ⟨"uhttpd", "1.0"⟩ = some i ∧ i.loaded = some l ∧
      (∀ x, x ∈ s ↔ x ∈ diamond.refs ∧ Reaches uhttpdLoaded ⟨"uhttpd", "1.0"⟩ x) ∧
      diamond.cost s = 2 ∧ l.Costs ⟨true, true, 3⟩ 2 ∧
      Visits uhttpdLoaded [⟨"uhttpd", "1.0"⟩] vs ∧ NothingTwice diamond s vs := by
  obtain ⟨calls, data', hcalls, hall⟩ := requiredSize_real_iff ⟨true, true, 3⟩ rfl diamond_fresh
    diamond_acyclic diamond_acyclic_fallsTo ["uhttpd"]
  obtain ⟨i, l, s, vs, hi, hl, hs, -, hvisits, hiff⟩ := hall ⟨"uhttpd", "1.0"⟩
    (PackageData.proper_of_mem_refs (by decide)) mem_cons_self (by decide)
  obtain rfl := names_unique hcalls uhttpdLoaded_eq
  have hset : s = {⟨"uhttpd", "1.0"⟩, ⟨"libubox", "1.0"⟩} := by
    ext x
    rw [hs, Finset.mem_insert, Finset.mem_singleton]
    refine ⟨fun hx => (uhttpdLoaded_reaches hx.1).1 hx.2, fun hx => ?_⟩
    have hmem : x ∈ diamond.refs := by
      rcases hx with rfl | rfl <;> decide
    exact ⟨hmem, (uhttpdLoaded_reaches hmem).2 hx⟩
  have hcost : diamond.cost s = 2 := by
    rw [hset]
    decide
  have hstored : ((uhttpdLoaded.info ⟨"uhttpd", "1.0"⟩).bind PackageInfo.loaded).map
      (fun l => (l.requiredSize, l.willFit)) = some (some 2, some true) := by decide
  rw [hi, Option.bind_some, hl, Option.map_some, Option.some.injEq, Prod.mk.injEq] at hstored
  have hcosts : l.Costs ⟨true, true, 3⟩ 2 := ⟨hstored.1, fun _ => hstored.2⟩
  exact ⟨calls, i, l, s, vs, hcalls, hi, hl, hs, hcost, hcosts, hvisits,
    (hiff.1 (hcost ▸ hcosts)).2⟩

def diamondLoaded : PackageData :=
  (loadRecursivePackageDataVariables ⟨true, false, 0⟩ 20 diamond "luci").getD diamond

theorem diamondLoaded_reaches {x : PackageRef} (hx : x ∈ diamond.refs) :
    ReflTransGen (Requires diamondLoaded) ⟨"luci", "1.0"⟩ x := by
  have hrefs : ∀ y ∈ diamond.refs, y = ⟨"luci", "1.0"⟩ ∨ Requires diamondLoaded ⟨"luci", "1.0"⟩ y ∨
      Requires diamondLoaded ⟨"rpcd", "1.0"⟩ y := by
    unfold Requires
    decide
  have hrpcd : Requires diamondLoaded ⟨"luci", "1.0"⟩ ⟨"rpcd", "1.0"⟩ := by
    unfold Requires
    decide
  rcases hrefs x hx with rfl | hfirst | hsecond
  · exact .refl
  · exact .single hfirst
  · exact .head hrpcd (.single hsecond)

/-- The package at the bottom is counted twice. -/
theorem diamond_counted_twice :
    diamond.Fresh ∧ Acyclic (RequiredBy diamond) ∧ Acyclic (FallsTo diamond) ∧
      diamond.isInstalled ⟨"luci", "1.0"⟩ = false ∧
      ∃ data' i l s, loadRecursivePackageDataVariables ⟨true, false, 0⟩ 20 diamond "luci" =
          some data' ∧
        data'.info ⟨"luci", "1.0"⟩ = some i ∧ i.loaded = some l ∧
        (∀ x, x ∈ s ↔ x ∈ diamond.refs ∧ Reaches data' ⟨"luci", "1.0"⟩ x) ∧
        l.requiredSize = some 5 ∧ diamond.cost s = 4 := by
  have hsome : (loadRecursivePackageDataVariables ⟨true, false, 0⟩ 20 diamond "luci").isSome := by
    decide
  obtain ⟨data', hdata'⟩ := Option.isSome_iff_exists.1 hsome
  have heq : diamondLoaded = data' := by rw [diamondLoaded, hdata', Option.getD_some]
  have hsize : ((diamondLoaded.info ⟨"luci", "1.0"⟩).bind PackageInfo.loaded).bind
      Loaded.requiredSize = some 5 := by decide
  obtain ⟨l, hloaded, hl⟩ := Option.bind_eq_some_iff.1 hsize
  obtain ⟨i, hi, hil⟩ := Option.bind_eq_some_iff.1 hloaded
  refine ⟨diamond_fresh, diamond_acyclic, diamond_acyclic_fallsTo, by decide,
    data', i, l, diamond.refs.toFinset, hdata', heq ▸ hi, hil, fun x => ?_, hl, by decide⟩
  rw [mem_toFinset]
  refine ⟨fun hx => ⟨hx, x, heq ▸ diamondLoaded_reaches hx, rfl, rfl⟩, fun hx => hx.1⟩

end Diamond

/-!
## From what a version has been loaded

The fields of a version are written after a round for each of its dependencies. A round makes a
call for the package that the dependency names, and then looks a version up in the data that the
call leaves. What the version gets is told by its rounds, and these are found again for every
version that is loaded (`Explains`): later calls leave the fields as they are.

A version that is looked up may not be loaded at that time. If it is, its own rounds were made
before (`LoadTrace.time`).
-/

section LoadedFrom

variable [Kernel]

/-! ### Rounds -/

structure DependStep [Kernel] where
  entry : String × DependDef
  data : PackageData
  found : Lookup

inductive MakesRounds (p : LoadParams) (calls : ℕ) :
    DependState → List DependStep → DependState → Prop
  | nil {s : DependState} : MakesRounds p calls s [] s
  | cons {s s' : DependState} {step : DependStep} {steps : List DependStep} :
      loadRecursivePackageDataVariables p calls s.data (s.data.dependName step.entry.1) =
        some step.data →
      resolve step.data calls (s.data.dependName step.entry.1) step.entry.2 = some step.found →
      MakesRounds p calls ({ s with data := step.data }.takeOver p.size
        (s.data.dependName step.entry.1) step.entry.2 step.found) steps s' →
      MakesRounds p calls s (step :: steps) s'

def PackageInfo.NotHeld (i : PackageInfo) : Prop :=
  ∀ status, i.status = some status → ¬" hold ".toList <:+: status.toList

structure LoadedBy (p : LoadParams) (data data' : PackageData) (i : PackageInfo) (l : Loaded)
    (calls : ℕ) (begun ended : DependState) (steps : List DependStep) : Prop where
  further : data.Further begun.data
  further' : ended.data.Further data'
  entries : steps.map DependStep.entry = dependList i.depends
  allDepends : begun.allDepends = .empty
  satisfiable : i.NotHeld → begun.satisfiable = true
  rounds : MakesRounds p calls begun steps ended
  loaded : l = ended.loaded p

structure LoadTrace [Kernel] where
  steps : PackageRef → List DependStep
  time : PackageRef → ℕ

def DependStep.chosen (step : DependStep) (x : PackageRef) (l : Loaded) : Prop :=
  step.found.ret = some x ∧ ∃ i, step.data.info x = some i ∧ i.loaded = some l

structure Explains (t : LoadTrace) (p : LoadParams) (data data' : PackageData) : Prop where
  loadedBy : ∀ r i l, data'.info r = some i → i.loaded = some l →
    ∃ calls begun ended, LoadedBy p data data' i l calls begun ended (t.steps r)
  earlier : ∀ r i l, data'.info r = some i → i.loaded = some l → ∀ step ∈ t.steps r,
    ∀ x lx, step.chosen x lx → t.time x < t.time r

section Rounds

variable {p : LoadParams} {calls : ℕ} {s s' : DependState} {steps : List DependStep}
  {step : DependStep}

theorem makesRounds_of_foldlM {ds : List (String × DependDef)}
    (h : ds.foldlM (loadDepend (loadRecursivePackageDataVariables p calls) calls p.size) s =
      some s') :
    ∃ steps, steps.map DependStep.entry = ds ∧ MakesRounds p calls s steps s' := by
  induction ds generalizing s with
  | nil =>
    obtain rfl := Option.some.inj h
    exact ⟨[], rfl, .nil⟩
  | cons d ds ih =>
    obtain ⟨t, ht, hrest⟩ := List.foldlM_option_cons.1 h
    obtain ⟨dep, hcall, hresolve, hend⟩ := loadDepend_eq_some ht
    obtain ⟨steps, hentries, hrounds⟩ := ih hrest
    refine ⟨⟨d, t.data, dep⟩ :: steps, by rw [map_cons, hentries], .cons hcall hresolve ?_⟩
    rwa [← hend]

theorem MakesRounds.further (h : MakesRounds p calls s steps s') :
    s.data.Further s'.data ∧ ∀ step ∈ steps,
      s.data.Further step.data ∧ step.data.Further s'.data := by
  induction h with
  | nil => exact ⟨.refl _, fun step hstep => nomatch hstep⟩
  | @cons s s' step steps hcall _ _ ih =>
    obtain ⟨hfurther, hsteps⟩ := ih
    rw [DependState.data_takeOver] at hfurther hsteps
    have hfirst : s.data.Further step.data := load_further (.refl _) hcall
    refine ⟨hfirst.trans hfurther, List.forall_mem_cons.2 ⟨⟨hfirst, hfurther⟩, ?_⟩⟩
    exact fun step' hstep' => ⟨hfirst.trans (hsteps step' hstep').1, (hsteps step' hstep').2⟩

theorem MakesRounds.resolved (h : MakesRounds p calls s steps s') {data : PackageData}
    (hdata : data.Further s.data) : ∀ step ∈ steps,
      (∃ before, data.Further before ∧ loadRecursivePackageDataVariables p calls before
        (data.dependName step.entry.1) = some step.data) ∧
      resolve step.data calls (data.dependName step.entry.1) step.entry.2 = some step.found := by
  induction h with
  | nil => exact fun step hstep => nomatch hstep
  | @cons s s' step steps hcall hresolve _ ih =>
    rw [hdata.dependName] at hcall hresolve
    refine List.forall_mem_cons.2 ⟨⟨⟨s.data, hdata, hcall⟩, hresolve⟩, ih ?_⟩
    rw [DependState.data_takeOver]
    exact load_further hdata hcall

end Rounds

/-! ### What the calls leave -/

section Trace

variable {data₀ data data' : PackageData} {p : LoadParams} {calls : ℕ} {name : String}
  {t : LoadTrace} {r : PackageRef}

theorem LoadedBy.mono {i : PackageInfo} {l : Loaded} {begun ended : DependState}
    {steps : List DependStep} (h : LoadedBy p data₀ data i l calls begun ended steps)
    (hfurther : data.Further data') :
    LoadedBy p data₀ data' i l calls begun ended steps :=
  { h with further' := h.further'.trans hfurther }

theorem Explains.of_fresh (hfresh : data.Fresh) :
    Explains ⟨fun _ => [], fun _ => 0⟩ p data data where
  loadedBy r i l hi hl := by
    rw [hfresh r i hi] at hl
    cases hl
  earlier r i l hi hl := by
    rw [hfresh r i hi] at hl
    cases hl

theorem DependStep.not_samePlace {step : DependStep} {x : PackageRef} {lx : Loaded}
    (hchosen : step.chosen x lx) (hfurther : step.data.Further data) {i : PackageInfo}
    (hi : data.info r = some i) (hnot : i.loaded = none) : ¬x.SamePlace r := by
  rintro ⟨hname, hversion⟩
  obtain ⟨-, j, hj, hlj⟩ := hchosen
  obtain ⟨j', hj', hjfurther⟩ := hfurther.info_some hj
  rw [data.info_congr hname hversion, hi] at hj'
  obtain rfl := Option.some.inj hj'
  rw [hjfurther.loaded lx hlj] at hnot
  cases hnot

/-- A trace explains one more version. -/
theorem Explains.setLoaded (h : Explains t p data₀ data) {i : PackageInfo} {l : Loaded}
    {begun ended : DependState} {steps : List DependStep} (hi : data.info r = some i)
    (hnot : i.loaded = none) (hended : ended.data = data)
    (hby : LoadedBy p data₀ data i l calls begun ended steps) :
    ∃ t, Explains t p data₀ (data.setLoaded r l) := by
  have hfurther : data.Further (data.setLoaded r l) :=
    (PackageData.Further.refl data).setLoaded hi hnot l
  obtain ⟨n, hn⟩ : ∃ n, ∀ step ∈ steps, ∀ x, step.found.ret = some x → t.time x < n := by
    obtain ⟨n, hn⟩ := (steps.filterMap fun step => step.found.ret.map t.time).toFinset.bddAbove
    refine ⟨n + 1, fun step hstep x hx => Nat.lt_succ_of_le (hn ?_)⟩
    rw [Finset.mem_coe, mem_toFinset, mem_filterMap]
    exact ⟨step, hstep, by rw [hx, Option.map_some]⟩
  refine ⟨⟨fun x => if x.SamePlace r then steps else t.steps x,
    fun x => if x.SamePlace r then n else t.time x⟩, fun r' i' l' hi' hl' => ?_,
    fun r' i' l' hi' hl' => ?_⟩
  all_goals
    rw [PackageData.info_setLoaded] at hi'
    by_cases hplace : r'.SamePlace r
  · rw [if_pos ⟨hplace.1, hplace.2⟩, data.info_congr hplace.1 hplace.2, hi] at hi'
    obtain rfl := Option.some.inj hi'
    obtain rfl := Option.some.inj hl'
    simp only [if_pos hplace]
    exact ⟨calls, begun, ended, { hby.mono hfurther with }⟩
  · rw [if_neg fun hhash => hplace ⟨hhash.1, hhash.2⟩] at hi'
    obtain ⟨calls', begun', ended', hby'⟩ := h.loadedBy r' i' l' hi' hl'
    simp only [if_neg hplace]
    exact ⟨calls', begun', ended', hby'.mono hfurther⟩
  · simp only [if_pos hplace]
    intro step hstep x lx hx
    have hlast := (hby.rounds.further.2 step hstep).2
    rw [hended] at hlast
    rw [if_neg (DependStep.not_samePlace hx hlast hi hnot)]
    exact hn step hstep x hx.1
  · rw [if_neg fun hhash => hplace ⟨hhash.1, hhash.2⟩] at hi'
    obtain ⟨calls', begun', ended', hby'⟩ := h.loadedBy r' i' l' hi' hl'
    simp only [if_neg hplace]
    intro step hstep x lx hx
    have hlast := (hby'.rounds.further.2 step hstep).2.trans hby'.further'
    rw [if_neg (DependStep.not_samePlace hx hlast hi hnot)]
    exact h.earlier r' i' l' hi' hl' step hstep x lx hx

structure DependState.Explained (p : LoadParams) (data₀ data : PackageData) (r : PackageRef)
    (i : PackageInfo) (s : DependState) : Prop where
  further₀ : data₀.Further s.data
  further : data.Further s.data
  info : s.data.info r = some i
  explains : ∃ t, Explains t p data₀ s.data

theorem loadDepend_explained (hacyclic : Acyclic (RequiredBy data₀))
    (ih : ∀ {data name data'}, data₀.Further data → (∃ t, Explains t p data₀ data) →
      loadRecursivePackageDataVariables p calls data name = some data' →
        ∃ t, Explains t p data₀ data')
    {i : PackageInfo} {s s' : DependState} (hs : s.Explained p data₀ data r i)
    {d : String × DependDef} (hd : RequiredBy data₀ (data₀.dependName d.1) r.name) {size : Bool}
    (h : loadDepend (loadRecursivePackageDataVariables p calls) calls size s d = some s') :
    s'.Explained p data₀ data r i := by
  obtain ⟨dep, hcall, -, -⟩ := loadDepend_eq_some h
  refine ⟨load_further hs.further₀ hcall, load_further hs.further hcall, ?_,
    ih hs.further₀ hs.explains hcall⟩
  rw [hs.further₀.dependName] at hcall
  rw [load_info_eq hs.further₀ hcall fun b hb => hash_ne_of_requiredBy hacyclic hd hb, hs.info]

theorem onHold_of_notHeld {i : PackageInfo} (hnot : i.NotHeld) (isInstalled someInstalled : Bool) :
    onHold isInstalled someInstalled i = false := by
  rw [onHold]
  cases hstatus : i.status with
  | none => rfl
  | some status =>
    simp only
    rw [decide_eq_false (hnot status hstatus), Bool.and_false]

theorem loadVersion_explained (hacyclic : Acyclic (RequiredBy data₀))
    (ih : ∀ {data name data'}, data₀.Further data → (∃ t, Explains t p data₀ data) →
      loadRecursivePackageDataVariables p calls data name = some data' →
        ∃ t, Explains t p data₀ data')
    {installed : Lookup} {version : String} (hdata : data₀.Further data)
    (hexplains : ∃ t, Explains t p data₀ data)
    (h : loadVersion (loadRecursivePackageDataVariables p calls) calls p name installed data
      version = some data') : ∃ t, Explains t p data₀ data' := by
  rcases loadVersion_eq_some h with ⟨rfl, -⟩ | ⟨i, s, hi, hnot, hs, rfl⟩
  · exact hexplains
  · obtain ⟨i₀, hi₀, hnot₀, hdepends⟩ := hdata.loaded_eq_none hi hnot
    obtain ⟨steps, hentries, hrounds⟩ := makesRounds_of_foldlM hs
    have hend : s.Explained p data₀ data ⟨name, version⟩ i := by
      refine List.foldlM_option_invariant (fun t d hd t' ht hstep => ?_)
        ⟨hdata, .refl data, hi, hexplains⟩ hs
      exact loadDepend_explained hacyclic ih ht ⟨version, i₀, hi₀, hnot₀, d, hdepends ▸ hd, rfl⟩
        hstep
    obtain ⟨t, ht⟩ := hend.explains
    refine ht.setLoaded hend.info hnot rfl ⟨hdata, .refl _, hentries, rfl, fun hheld => ?_,
      hrounds, rfl⟩
    simp [onHold_of_notHeld hheld]

theorem load_explained (hacyclic : Acyclic (RequiredBy data₀)) (hdata : data₀.Further data)
    (hexplains : ∃ t, Explains t p data₀ data)
    (h : loadRecursivePackageDataVariables p calls data name = some data') :
    ∃ t, Explains t p data₀ data' := by
  induction calls generalizing data name data' with
  | zero => cases h
  | succ calls ih =>
    obtain ⟨installed, -, hrest⟩ := Option.bind_eq_some_iff.1 h
    cases hget : data.packages.get name with
    | none =>
      simp only [hget] at hrest
      obtain rfl := Option.some.inj hrest
      exact hexplains
    | some vs =>
      simp only [hget] at hrest
      refine (List.foldlM_option_invariant
        (P := fun d => data₀.Further d ∧ ∃ t, Explains t p data₀ d) ?_ ⟨hdata, hexplains⟩
        hrest).2
      rintro d version - d' ⟨hd, hdexplains⟩ hv
      exact ⟨loadVersion_further (fun _ _ _ => load_further) hd hv,
        loadVersion_explained hacyclic ih hd hdexplains hv⟩

theorem names_explained {names : List String} (hfresh : data.Fresh)
    (hacyclic : Acyclic (RequiredBy data))
    (h : names.foldlM (loadRecursivePackageDataVariables p calls) data = some data') :
    data.Further data' ∧ ∃ t, Explains t p data data' := by
  refine List.foldlM_option_invariant (P := fun d => data.Further d ∧ ∃ t, Explains t p data d) ?_
    ⟨.refl data, _, .of_fresh hfresh⟩ h
  rintro d name - d' ⟨hd, hexplains⟩ hcall
  exact ⟨load_further hd hcall, load_explained hacyclic hd hexplains hcall⟩

end Trace

theorem exists_explained (p : LoadParams) {data : PackageData} (hfresh : data.Fresh)
    (hacyclic : Acyclic (RequiredBy data)) (hfalls : Acyclic (FallsTo data))
    (names : List String) :
    ∃ calls data', names.foldlM (loadRecursivePackageDataVariables p calls) data = some data' ∧
      data.Further data' ∧ ∃ t, Explains t p data data' := by
  obtain ⟨calls, data', hcalls⟩ := names_return p hacyclic hfalls names
  exact ⟨calls, data', hcalls, names_explained hfresh hacyclic hcalls⟩

end LoadedFrom

end Gpkg

end Gargoyle
