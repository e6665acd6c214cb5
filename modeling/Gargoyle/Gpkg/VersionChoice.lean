import Gargoyle.Gpkg.VersionOrder

/-!
# The choice of a version

Among the versions that meet a constraint the lookup prefers the installed one, and
otherwise keeps the first one than which no later one is greater. Where no version meets
it, the lookup goes on under the name of a package that provides the name, with the
constraint dropped, and may come back to where it began.

The maps yield their versions in the order of the hashes. Here they may yield them in any
order.
-/

namespace Gargoyle

open List

namespace Gpkg

open Bandwidth

section Choice

variable [Kernel]

/-! ## Any order -/

structure MapOrder [Kernel] where
  yield : List (String × PackageInfo) → List (String × PackageInfo)
  perm : ∀ es, (yield es).Perm es

def MapOrder.byHash : MapOrder := ⟨id, fun _ => .refl _⟩

def Versions.foundVersionIn (o : MapOrder) (vs : Versions) (preferLatest : Bool) (m : DependDef)
    (mustBeSatisfiable : Bool) : Option String :=
  (o.yield vs.infos.entries).foldl (fun found e =>
    if m.valid e.1 ∧ (mustBeSatisfiable → vs.satisfiable e.1 e.2) then
      vs.better preferLatest e.1 found
    else found) none

/-- `internal_get_package_current_or_latest_matching`, where the maps yield their versions
in some order. -/
def matchingIn (o : MapOrder) (data : PackageData) :
    ℕ → String → Bool → DependDef → Bool → Option Lookup
  | 0, _, _, _, _ => none
  | calls + 1, name, preferLatest, m, mustBeSatisfiable =>
    if m.allVersionsValid ∧ mustBeSatisfiable = false then
      internalGetPackageCurrentOrLatest data calls name preferLatest
    else
      match (data.packages.get name).bind fun vs =>
          (vs.foundVersionIn o preferLatest m mustBeSatisfiable).map (vs.found name) with
      | some found => some found
      | none =>
        match data.realName name with
        | some real => matchingIn o data calls real preferLatest ⟨"*", none⟩ mustBeSatisfiable
        | none => some .nothing

/-- The latest version of a package is marked by `add_package_data`, in the order in which
the map yields the versions. -/
def PackageData.MarkedBy (data : PackageData) (o : MapOrder) : Prop :=
  ∀ name vs, data.packages.get name = some vs → ∃ version versions,
    (o.yield vs.infos.entries).map Prod.fst = version :: versions ∧
      vs.latest = newest version versions

theorem refresh_marked {infos : StringMap PackageInfo} {current : Option String}
    (hcurrent : ∀ v, current = some v → v ∈ infos.keys) (hne : infos.keys ≠ []) :
    ∃ version versions, infos.keys = version :: versions ∧
      (Versions.refresh infos current hcurrent hne).latest = newest version versions :=
  ⟨infos.keys.head hne, infos.keys.tail, (cons_head_tail hne).symm, rfl⟩

/-! ## What is asked for -/

def Versions.Meets (vs : Versions) (m : DependDef) (mustBeSatisfiable : Bool) (v : String) : Prop :=
  ∃ i, (v, i) ∈ vs.infos.entries ∧ m.valid v = true ∧
    (mustBeSatisfiable = true → vs.satisfiable v i = true)

structure Versions.Best (vs : Versions) (m : DependDef) (mustBeSatisfiable : Bool)
    (v : String) : Prop where
  meets : vs.Meets m mustBeSatisfiable v
  installed : ∀ c, vs.current = some c → vs.Meets m mustBeSatisfiable c → v = c
  greatest : (∀ c, vs.current = some c → ¬vs.Meets m mustBeSatisfiable c) →
    ∀ w, vs.Meets m mustBeSatisfiable w → ¬0 < compareVersions w v

def ChoosesBest (o : MapOrder) (data : PackageData) (name : String) (m : DependDef)
    (mustBeSatisfiable : Bool) : Prop :=
  ∀ vs, data.packages.get name = some vs → (∃ v, vs.Meets m mustBeSatisfiable v) →
    ∃ v, vs.Best m mustBeSatisfiable v ∧ ∀ calls,
      matchingIn o data (calls + 2) name false m mustBeSatisfiable = some (vs.found name v)

def ObeysConstraint (o : MapOrder) (data : PackageData) (name : String) (m : DependDef)
    (mustBeSatisfiable : Bool) : Prop :=
  ∀ calls found r, matchingIn o data calls name false m mustBeSatisfiable = some found →
    found.ret = some r → sdbmStringHash r.name = sdbmStringHash name → m.valid r.version = true

/-- The lookup for any version goes on from the name `a` to the name `b`. -/
def GoesOn (data : PackageData) (mustBeSatisfiable : Bool) (a b : String) : Prop :=
  data.realName a = some b ∧
    ∀ vs, data.packages.get a = some vs → ∀ v, ¬vs.Meets ⟨"*", none⟩ mustBeSatisfiable v

def LeadsBack (data : PackageData) (name : String) (m : DependDef) (mustBeSatisfiable : Bool) :
    Prop :=
  ∃ vs real back, data.packages.get name = some vs ∧ (∀ v, ¬vs.Meets m mustBeSatisfiable v) ∧
    (∃ v, vs.Meets ⟨"*", none⟩ mustBeSatisfiable v) ∧ data.realName name = some real ∧
    Relation.ReflTransGen (GoesOn data mustBeSatisfiable) real back ∧
    sdbmStringHash back = sdbmStringHash name

/-! ## The loops -/

def AboveTrans (S : Set String) : Prop :=
  ∀ a ∈ S, ∀ b ∈ S, ∀ c ∈ S, 0 < compareVersions a b → 0 < compareVersions b c →
    0 < compareVersions a c

/-- No version is above the newest one. -/
theorem newest_maximal {version : String} {versions : List String}
    (htrans : AboveTrans {v | v ∈ version :: versions}) :
    ∀ w ∈ version :: versions, ¬0 < compareVersions w (newest version versions) := by
  induction versions using List.reverseRecOn with
  | nil =>
    intro w hw
    rw [List.mem_singleton.1 hw, newest, foldl_nil, compareVersions_self]
    exact lt_irrefl 0
  | append_singleton versions e ih =>
    have hsub : ∀ w ∈ version :: versions, w ∈ version :: (versions ++ [e]) := by
      simp only [mem_cons, mem_append]
      tauto
    have hold := ih fun a ha b hb c hc => htrans a (hsub a ha) b (hsub b hb) c (hsub c hc)
    have hmem := hsub _ (newest_mem version versions)
    have he : e ∈ version :: (versions ++ [e]) := by simp
    have hsplit : ∀ w ∈ version :: (versions ++ [e]), w ∈ version :: versions ∨ w = e := by
      simp only [mem_cons, mem_append, not_mem_nil, or_false]
      tauto
    have hlast : newest version (versions ++ [e]) =
        if 0 < compareVersions e (newest version versions) then e
        else newest version versions := by
      rw [newest, newest, foldl_append, foldl_cons, foldl_nil]
    rw [hlast]
    intro w hw habove
    split_ifs at habove with hgreater
    · rcases hsplit w hw with hw' | rfl
      · exact hold w hw' (htrans w hw e he _ hmem habove hgreater)
      · rw [compareVersions_self] at habove
        exact lt_irrefl 0 habove
    · rcases hsplit w hw with hw' | rfl
      · exact hold w hw' habove
      · exact hgreater habove

/-- The fold keeps the best version so far. -/
theorem foldl_better (vs : Versions) (version : String) (versions : List String) :
    ∃ f, (version :: versions).foldl (fun found test => vs.better false test found) none = some f ∧
      f ∈ version :: versions ∧ (∀ c, vs.current = some c → c ∈ version :: versions → f = c) ∧
      (AboveTrans {v | v ∈ version :: versions} →
        (∀ c, vs.current = some c → c ∉ version :: versions) →
          ∀ w ∈ version :: versions, ¬0 < compareVersions w f) := by
  induction versions using List.reverseRecOn with
  | nil =>
    refine ⟨version, rfl, mem_singleton_self version, fun c _ hc => ?_, fun _ _ w hw => ?_⟩
    · exact (List.mem_singleton.1 hc).symm
    · rw [List.mem_singleton.1 hw, compareVersions_self]
      exact lt_irrefl 0
  | append_singleton versions e ih =>
    have hsub : ∀ w ∈ version :: versions, w ∈ version :: (versions ++ [e]) := by
      simp only [mem_cons, mem_append]
      tauto
    have hsplit : ∀ w ∈ version :: (versions ++ [e]), w ∈ version :: versions ∨ w = e := by
      simp only [mem_cons, mem_append, not_mem_nil, or_false]
      tauto
    have he : e ∈ version :: (versions ++ [e]) := by simp
    have htrans' : AboveTrans {v | v ∈ version :: (versions ++ [e])} →
        AboveTrans {v | v ∈ version :: versions} := fun h a ha b hb c hc =>
      h a (hsub a ha) b (hsub b hb) c (hsub c hc)
    obtain ⟨f, hf, hmem, hcurrent, hgreatest⟩ := ih
    rw [← cons_append, foldl_append, hf, foldl_cons, foldl_nil,
      Versions.better, cons_append]
    by_cases hinstalled : vs.current = some e
    · rw [if_pos ⟨hinstalled, rfl⟩]
      refine ⟨e, rfl, he, fun c hc _ => ?_, fun _ hnone => absurd he (hnone e hinstalled)⟩
      exact Option.some.inj (hinstalled.symm.trans hc)
    · rw [if_neg fun h => hinstalled h.1]
      have hother : ∀ c, vs.current = some c → c ∈ version :: (versions ++ [e]) → f = c := by
        intro c hc hc'
        rcases hsplit c hc' with hc' | rfl
        · exact hcurrent c hc hc'
        · exact absurd hc hinstalled
      by_cases hgreater : 0 < compareVersions e f ∧ vs.current ≠ some f
      · rw [if_pos ⟨hgreater.1, Or.inr hgreater.2⟩]
        refine ⟨e, rfl, he, fun c hc hc' => ?_, fun htrans hnone w hw habove => ?_⟩
        · exact absurd (hother c hc hc' ▸ hc) hgreater.2
        · rcases hsplit w hw with hw' | rfl
          · exact hgreatest (htrans' htrans) (fun c hc hc' => hnone c hc (hsub c hc')) w hw'
              (htrans w hw e he f (hsub f hmem) habove hgreater.1)
          · rw [compareVersions_self] at habove
            exact lt_irrefl 0 habove
      · rw [if_neg fun h => hgreater ⟨h.1, h.2.resolve_left (by decide)⟩]
        refine ⟨f, rfl, hsub f hmem, hother, fun htrans hnone w hw habove => ?_⟩
        rcases hsplit w hw with hw' | rfl
        · exact hgreatest (htrans' htrans) (fun c hc hc' => hnone c hc (hsub c hc')) w hw' habove
        · exact hgreater ⟨habove, fun hf => hnone f hf (hsub f hmem)⟩

/-! ## The lookup in one package -/

theorem aboveTrans_of_not_tangled {S : Set String}
    (hhash : ∀ a ∈ S, ∀ b ∈ S, sdbmStringHash a = sdbmStringHash b → a = b)
    (htangled : ∀ a ∈ S, ∀ b ∈ S, ∀ c ∈ S, sdbmStringHash a ≠ sdbmStringHash b →
      sdbmStringHash b ≠ sdbmStringHash c → sdbmStringHash a ≠ sdbmStringHash c →
        ¬VersionsTangled a b c) : AboveTrans S := by
  have hnot : ∀ a ∈ S, ∀ b ∈ S, ∀ c ∈ S, ¬VersionsTangled a b c := by
    intro a ha b hb c hc h
    obtain ⟨hba, hbc, hca⟩ := h.circle
    refine htangled a ha b hb c hc (fun heq => ?_) (fun heq => ?_) (fun heq => ?_) h
    · obtain rfl := hhash a ha b hb heq
      exact lt_asymm hbc (compareVersions_neg_of_pos hca)
    · obtain rfl := hhash b hb c hc heq
      exact hbc.ne' (compareVersions_self b)
    · obtain rfl := hhash a ha c hc heq
      exact hca.ne' (compareVersions_self a)
  exact fun a ha b hb c hc => above_trans (hnot a ha b hb c hc) (hnot b hb c hc a ha)
    (hnot c hc a ha b hb)

section Package

variable {o : MapOrder} {vs : Versions} {m : DependDef} {mustBeSatisfiable : Bool}

def Versions.candidates (o : MapOrder) (vs : Versions) (m : DependDef)
    (mustBeSatisfiable : Bool) : List String :=
  ((o.yield vs.infos.entries).filter fun e =>
    m.valid e.1 ∧ (mustBeSatisfiable → vs.satisfiable e.1 e.2)).map Prod.fst

theorem mem_candidates {v : String} :
    v ∈ vs.candidates o m mustBeSatisfiable ↔ vs.Meets m mustBeSatisfiable v := by
  simp only [Versions.candidates, mem_map, mem_filter, (o.perm _).mem_iff,
    decide_eq_true_eq, Versions.Meets]
  constructor
  · rintro ⟨⟨v, i⟩, ⟨hmem, hvalid, hsat⟩, rfl⟩
    exact ⟨i, hmem, hvalid, hsat⟩
  · rintro ⟨i, hmem, hvalid, hsat⟩
    exact ⟨(v, i), ⟨hmem, hvalid, hsat⟩, rfl⟩

theorem foundVersionIn_eq :
    vs.foundVersionIn o false m mustBeSatisfiable =
      (vs.candidates o m mustBeSatisfiable).foldl (fun found test => vs.better false test found)
        none := by
  rw [Versions.candidates, foldl_map, foldl_filter, Versions.foundVersionIn]
  simp only [decide_eq_true_eq]

theorem foundVersionIn_of_none (h : ∀ v, ¬vs.Meets m mustBeSatisfiable v) :
    vs.foundVersionIn o false m mustBeSatisfiable = none := by
  rw [foundVersionIn_eq, List.eq_nil_iff_forall_not_mem.2 fun v hv => h v (mem_candidates.1 hv)]
  rfl

theorem foundVersionIn_spec (h : ∃ v, vs.Meets m mustBeSatisfiable v) :
    ∃ v, vs.foundVersionIn o false m mustBeSatisfiable = some v ∧
      vs.Meets m mustBeSatisfiable v ∧
      (AboveTrans {v | v ∈ vs.infos.keys} → vs.Best m mustBeSatisfiable v) := by
  obtain ⟨w, hw⟩ := h
  obtain ⟨version, versions, hlist⟩ := exists_cons_of_ne_nil
    (ne_nil_of_mem (mem_candidates (o := o).2 hw))
  have hmem : ∀ v, v ∈ version :: versions ↔ vs.Meets m mustBeSatisfiable v := fun v => by
    rw [← hlist, mem_candidates]
  obtain ⟨f, hf, hmeets, hcurrent, hgreatest⟩ := foldl_better vs version versions
  rw [hmem] at hmeets
  refine ⟨f, by rw [foundVersionIn_eq, hlist, hf], hmeets, fun htrans => ⟨hmeets, ?_, ?_⟩⟩
  · exact fun c hc hc' => hcurrent c hc ((hmem c).2 hc')
  · intro hnone v hv
    have hkeys : ∀ v ∈ version :: versions, v ∈ vs.infos.keys := fun v hv => by
      obtain ⟨i, hi, -⟩ := (hmem v).1 hv
      exact (vs.infos.mem_keys v).2 ⟨i, hi⟩
    exact hgreatest (fun a ha b hb c hc => htrans a (hkeys a ha) b (hkeys b hb) c (hkeys c hc))
      (fun c hc hc' => hnone c hc ((hmem c).1 hc')) v ((hmem v).2 hv)

theorem aboveTrans_keys {S : Set String} (hkeys : ∀ v ∈ vs.infos.keys, v ∈ S)
    (htangled : ∀ a ∈ S, ∀ b ∈ S, ∀ c ∈ S, sdbmStringHash a ≠ sdbmStringHash b →
      sdbmStringHash b ≠ sdbmStringHash c → sdbmStringHash a ≠ sdbmStringHash c →
        ¬VersionsTangled a b c) : AboveTrans {v | v ∈ vs.infos.keys} := by
  refine aboveTrans_of_not_tangled (fun a ha b hb heq => ?_) fun a ha b hb c hc =>
    htangled a (hkeys a ha) b (hkeys b hb) c (hkeys c hc)
  obtain ⟨i, hi⟩ := (vs.infos.mem_keys a).1 ha
  obtain ⟨j, hj⟩ := (vs.infos.mem_keys b).1 hb
  exact congrArg Prod.fst (HashedMap.eq_of_hash_eq _ vs.infos.sorted hi hj heq)

/-- Without a constraint the current or the latest version is best. -/
theorem currentOrLatest_best (name : String) {version : String} {versions : List String}
    (hall : m.allVersionsValid = true)
    (hlist : (o.yield vs.infos.entries).map Prod.fst = version :: versions)
    (hlatest : vs.latest = newest version versions)
    (htrans : AboveTrans {v | v ∈ vs.infos.keys}) :
    ∃ v, vs.Best m false v ∧ vs.currentOrLatest name false = vs.found name v := by
  have hmeets : ∀ v, vs.Meets m false v ↔ v ∈ vs.infos.keys := by
    intro v
    rw [HashedMap.mem_keys]
    constructor
    · rintro ⟨i, hi, -⟩
      exact ⟨i, hi⟩
    · rintro ⟨i, hi⟩
      exact ⟨i, hi, by rw [DependDef.valid, if_pos hall],
        fun h => absurd h Bool.false_ne_true⟩
  have hkeys : ∀ v, v ∈ version :: versions ↔ v ∈ vs.infos.keys := by
    intro v
    rw [← hlist]
    exact ((o.perm vs.infos.entries).map Prod.fst).mem_iff
  cases hcurrent : vs.current with
  | some c =>
    have hc := (hmeets c).2 (vs.current_mem c hcurrent)
    refine ⟨c, ⟨hc, fun d hd _ => ?_, fun hnone => absurd hc (hnone c hcurrent)⟩, ?_⟩
    · exact Option.some.inj (hcurrent.symm.trans hd)
    · rw [Versions.currentOrLatest, hcurrent]
      rfl
  | none =>
    refine ⟨vs.latest, ⟨(hmeets _).2 vs.latest_mem, fun c hc => ?_, fun _ w hw => ?_⟩, ?_⟩
    · rw [hcurrent] at hc
      cases hc
    · rw [hlatest]
      refine newest_maximal (fun a ha b hb c hc => ?_) w ((hkeys w).2 ((hmeets w).1 hw))
      exact htrans a ((hkeys a).1 ha) b ((hkeys b).1 hb) c ((hkeys c).1 hc)
    · rw [Versions.currentOrLatest, hcurrent]

end Package

section Lookups

variable {o : MapOrder} {data : PackageData} {name : String} {m : DependDef}
  {mustBeSatisfiable : Bool}

theorem choosesBest_of_not_tangled {S : Set String} (hmarked : data.MarkedBy o)
    (hS : ∀ vs, data.packages.get name = some vs → ∀ v ∈ vs.infos.keys, v ∈ S)
    (htangled : ∀ a ∈ S, ∀ b ∈ S, ∀ c ∈ S, sdbmStringHash a ≠ sdbmStringHash b →
      sdbmStringHash b ≠ sdbmStringHash c → sdbmStringHash a ≠ sdbmStringHash c →
        ¬VersionsTangled a b c) : ChoosesBest o data name m mustBeSatisfiable := by
  intro vs hvs hmeets
  have htrans := aboveTrans_keys (hS vs hvs) htangled
  by_cases hall : m.allVersionsValid ∧ mustBeSatisfiable = false
  · obtain ⟨hall, rfl⟩ := hall
    obtain ⟨version, versions, hlist, hlatest⟩ := hmarked name vs hvs
    obtain ⟨v, hbest, hv⟩ := currentOrLatest_best name hall hlist hlatest htrans
    refine ⟨v, hbest, fun calls => ?_⟩
    rw [matchingIn, if_pos ⟨hall, rfl⟩, currentOrLatest_of_get hvs, hv]
  · obtain ⟨v, hv, -, hbest⟩ := foundVersionIn_spec (o := o) hmeets
    refine ⟨v, hbest htrans, fun calls => ?_⟩
    rw [matchingIn, if_neg hall, hvs, Option.bind_some, hv]
    rfl

def MapOrder.beginsWith (a b : String) : MapOrder where
  yield es := es.filter (·.1 = a) ++
    ((es.filter (¬·.1 = a)).filter (·.1 = b) ++ (es.filter (¬·.1 = a)).filter (¬·.1 = b))
  perm es := by
    have hrest := filter_append_perm (fun e : String × PackageInfo => decide (e.1 = b))
      (es.filter (¬·.1 = a))
    have hall := filter_append_perm (fun e : String × PackageInfo => decide (e.1 = a)) es
    simp only [← decide_not] at hrest hall
    exact (hrest.append_left _).trans hall

def threeVersions (a b c : String) : Versions where
  infos := ((HashedMap.empty.set a {}).set b {}).set c {}
  current := none
  latest := c
  current_mem := fun _ h => nomatch h
  latest_mem := HashedMap.mem_keys_set_self ..

def threeVersionsOnly (a b c : String) : PackageData where
  packages := HashedMap.empty.set "gargoyle" (threeVersions a b c)
  provides := .empty
  real_mem := fun _ _ _ h => nomatch h

theorem get_threeVersionsOnly {a b c name : String} {vs : Versions}
    (h : (threeVersionsOnly a b c).packages.get name = some vs) : vs = threeVersions a b c := by
  simp only [threeVersionsOnly, HashedMap.get_set, HashedMap.get_empty] at h
  split_ifs at h
  exact (Option.some.inj h).symm

section Three

variable {a b c : String} (hab : sdbmStringHash a ≠ sdbmStringHash b)
  (hbc : sdbmStringHash b ≠ sdbmStringHash c) (hac : sdbmStringHash a ≠ sdbmStringHash c)

include hab hbc hac in
theorem threeVersions_perm :
    (threeVersions a b c).infos.entries.Perm [(a, {}), (b, {}), (c, {})] := by
  have hne : a ≠ b ∧ b ≠ c ∧ a ≠ c :=
    ⟨fun h => hab (h ▸ rfl), fun h => hbc (h ▸ rfl), fun h => hac (h ▸ rfl)⟩
  refine (perm_ext_iff_of_nodup ?_ ?_).2 fun e => ?_
  · exact (HashedMap.nodup_keys (threeVersions a b c).infos).of_map
  · simp [hne.1, hne.2.1, hne.2.2]
  · simp only [threeVersions, HashedMap.mem_entries_set, HashedMap.entries_empty,
      not_mem_nil, false_and, or_false, mem_cons]
    constructor
    · rintro (rfl | ⟨rfl | ⟨rfl, -⟩, -⟩)
      · exact .inr (.inr rfl)
      · exact .inr (.inl rfl)
      · exact .inl rfl
    · rintro (rfl | rfl | rfl)
      · exact .inr ⟨Or.inr ⟨rfl, hab⟩, hac⟩
      · exact .inr ⟨Or.inl rfl, hbc⟩
      · exact .inl rfl

include hab hbc hac in
theorem threeVersions_yield :
    ((MapOrder.beginsWith a b).yield (threeVersions a b c).infos.entries).map Prod.fst =
      [a, b, c] := by
  have hne : a ≠ b ∧ b ≠ c ∧ a ≠ c :=
    ⟨fun h => hab (h ▸ rfl), fun h => hbc (h ▸ rfl), fun h => hac (h ▸ rfl)⟩
  have hperm := threeVersions_perm hab hbc hac
  have hfirst : ((threeVersions a b c).infos.entries.filter (·.1 = a)) = [(a, {})] := by
    refine List.perm_singleton.1 ((hperm.filter _).trans (.of_eq ?_))
    simp [hne.1.symm, hne.2.2.symm]
  have hnext : (((threeVersions a b c).infos.entries.filter (¬·.1 = a)).filter (·.1 = b)) =
      [(b, {})] := by
    refine List.perm_singleton.1 (((hperm.filter _).filter _).trans (.of_eq ?_))
    simp [hne.1.symm, hne.2.1.symm, hne.2.2.symm]
  have hlast : (((threeVersions a b c).infos.entries.filter (¬·.1 = a)).filter (¬·.1 = b)) =
      [(c, {})] := by
    refine List.perm_singleton.1 (((hperm.filter _).filter _).trans (.of_eq ?_))
    simp [hne.1.symm, hne.2.1.symm, hne.2.2.symm]
  simp only [MapOrder.beginsWith, hfirst, hnext, hlast]
  rfl

end Three

theorem not_tangled_of_choosesBest {a b c : String} (hab : sdbmStringHash a ≠ sdbmStringHash b)
    (hbc : sdbmStringHash b ≠ sdbmStringHash c) (hac : sdbmStringHash a ≠ sdbmStringHash c)
    (h : (threeVersionsOnly a b c).MarkedBy (.beginsWith a b) →
      ChoosesBest (.beginsWith a b) (threeVersionsOnly a b c) "gargoyle" ⟨"*", none⟩ false) :
    ¬VersionsTangled a b c := by
  intro htangled
  obtain ⟨hba, hbc', hca⟩ := htangled.circle
  have hyield := threeVersions_yield hab hbc hac
  have hget : (threeVersionsOnly a b c).packages.get "gargoyle" = some (threeVersions a b c) := by
    simp only [threeVersionsOnly, HashedMap.get_set_self]
  have hmarked : (threeVersionsOnly a b c).MarkedBy (.beginsWith a b) := by
    intro name vs hget'
    obtain rfl := get_threeVersionsOnly hget'
    refine ⟨a, [b, c], hyield, ?_⟩
    simp only [newest, foldl_cons, foldl_nil, gt_iff_lt, if_neg hba, if_pos hca]
    rfl
  have hmem := threeVersions_perm hab hbc hac
  have hmeets : ∀ v, (v, {}) ∈ (threeVersions a b c).infos.entries →
      (threeVersions a b c).Meets ⟨"*", none⟩ false v := fun v hv =>
    ⟨{}, hv, by rw [DependDef.valid, if_pos (by decide)], fun h => absurd h Bool.false_ne_true⟩
  have hb := hmeets b (hmem.mem_iff.2 (by simp))
  obtain ⟨v, hbest, hlookup⟩ := h hmarked _ hget ⟨b, hb⟩
  have hfound := hlookup 0
  rw [matchingIn, if_pos ⟨by decide, rfl⟩, currentOrLatest_of_get hget] at hfound
  have hv : some (PackageRef.mk "gargoyle" c) = some ⟨"gargoyle", v⟩ :=
    congrArg Lookup.ret (Option.some.inj hfound)
  obtain rfl : c = v := congrArg PackageRef.version (Option.some.inj hv)
  exact hbest.greatest (fun c hcurrent => absurd hcurrent (Option.some_ne_none c).symm) b hb hbc'

/-! ## The fallback -/

theorem meets_star {vs : Versions} {v : String} :
    vs.Meets ⟨"*", none⟩ false v ↔ v ∈ vs.infos.keys := by
  rw [HashedMap.mem_keys]
  constructor
  · rintro ⟨i, hi, -⟩
    exact ⟨i, hi⟩
  · rintro ⟨i, hi⟩
    exact ⟨i, hi, by rw [DependDef.valid, if_pos (by decide)], fun h => absurd h Bool.false_ne_true⟩

theorem get_none_of_goesOn {a b : String} (h : GoesOn data false a b) :
    data.packages.get a = none := by
  cases hget : data.packages.get a with
  | none => rfl
  | some vs => exact absurd (meets_star.2 vs.latest_mem) (h.2 vs hget vs.latest)

theorem matchingIn_of_none {calls : ℕ} (hall : ¬(m.allVersionsValid ∧ mustBeSatisfiable = false))
    (hnone : ∀ vs, data.packages.get name = some vs → ∀ v, ¬vs.Meets m mustBeSatisfiable v) :
    matchingIn o data (calls + 1) name false m mustBeSatisfiable =
      match data.realName name with
      | some real => matchingIn o data calls real false ⟨"*", none⟩ mustBeSatisfiable
      | none => some .nothing := by
  have hfound : ((data.packages.get name).bind fun vs =>
      (vs.foundVersionIn o false m mustBeSatisfiable).map (vs.found name)) = none := by
    cases hget : data.packages.get name with
    | none => rfl
    | some vs =>
      rw [Option.bind_some, foundVersionIn_of_none (hnone vs hget)]
      rfl
  rw [matchingIn, if_neg hall, hfound]

theorem exists_currentOrLatest (vs : Versions) (name : String) :
    ∃ v ∈ vs.infos.keys, vs.currentOrLatest name false = vs.found name v := by
  rw [Versions.currentOrLatest]
  cases hcurrent : vs.current with
  | some c => exact ⟨c, vs.current_mem c hcurrent, rfl⟩
  | none => exact ⟨vs.latest, vs.latest_mem, rfl⟩

theorem goesOn_of_currentOrLatest {calls : ℕ} {found : Lookup} {r : PackageRef}
    (h : internalGetPackageCurrentOrLatest data calls name false = some found)
    (hr : found.ret = some r) :
    Relation.ReflTransGen (GoesOn data false) name r.name ∧
      ∃ vs, data.packages.get r.name = some vs ∧ vs.Meets ⟨"*", none⟩ false r.version := by
  induction calls generalizing name with
  | zero => cases h
  | succ calls ih =>
    rw [internalGetPackageCurrentOrLatest] at h
    cases hget : data.packages.get name with
    | some vs =>
      obtain ⟨v, hv, heq⟩ := exists_currentOrLatest vs name
      simp only [hget, heq, Option.some.injEq] at h
      rw [← h] at hr
      obtain rfl := Option.some.inj hr
      exact ⟨.refl, vs, hget, meets_star.2 hv⟩
    | none =>
      cases hreal : data.realName name with
      | none =>
        simp only [hget, hreal, Option.some.injEq] at h
        rw [← h] at hr
        cases hr
      | some real =>
        simp only [hget, hreal] at h
        obtain ⟨hchain, hvs⟩ := ih h
        refine ⟨.head ⟨hreal, fun vs hvs => ?_⟩ hchain, hvs⟩
        rw [hget] at hvs
        cases hvs

/-- A lookup goes from name to name until a version is found. -/
theorem goesOn_of_matchingIn {calls : ℕ} {found : Lookup} {r : PackageRef}
    (h : matchingIn o data calls name false ⟨"*", none⟩ mustBeSatisfiable = some found)
    (hr : found.ret = some r) :
    Relation.ReflTransGen (GoesOn data mustBeSatisfiable) name r.name ∧
      ∃ vs, data.packages.get r.name = some vs ∧
        vs.Meets ⟨"*", none⟩ mustBeSatisfiable r.version := by
  induction calls generalizing name with
  | zero => cases h
  | succ calls ih =>
    cases mustBeSatisfiable with
    | false =>
      rw [matchingIn, if_pos ⟨by decide, rfl⟩] at h
      exact goesOn_of_currentOrLatest h hr
    | true =>
      by_cases hmeets : ∃ vs, data.packages.get name = some vs ∧ ∃ v, vs.Meets ⟨"*", none⟩ true v
      · obtain ⟨vs, hget, hmeets⟩ := hmeets
        obtain ⟨v, hv, hmeets, -⟩ := foundVersionIn_spec (o := o) hmeets
        rw [matchingIn, if_neg (by simp), hget, Option.bind_some, hv] at h
        obtain rfl := Option.some.inj h
        obtain rfl := Option.some.inj hr
        exact ⟨.refl, vs, hget, hmeets⟩
      · simp only [not_exists, not_and] at hmeets
        rw [matchingIn_of_none (by simp) hmeets] at h
        cases hreal : data.realName name with
        | none =>
          simp only [hreal, Option.some.injEq] at h
          rw [← h] at hr
          cases hr
        | some real =>
          simp only [hreal] at h
          obtain ⟨hchain, hvs⟩ := ih h
          exact ⟨.head ⟨hreal, hmeets⟩ hchain, hvs⟩

/-- Where the names lead, the lookup arrives. -/
theorem matchingIn_of_goesOn {back : String} {vs : Versions}
    (h : Relation.ReflTransGen (GoesOn data mustBeSatisfiable) name back)
    (hget : data.packages.get back = some vs)
    (hmeets : ∃ v, vs.Meets ⟨"*", none⟩ mustBeSatisfiable v) :
    ∃ calls v, matchingIn o data calls name false ⟨"*", none⟩ mustBeSatisfiable =
      some (vs.found back v) ∧ vs.Meets ⟨"*", none⟩ mustBeSatisfiable v := by
  induction h using Relation.ReflTransGen.head_induction_on with
  | refl =>
    cases mustBeSatisfiable with
    | false =>
      obtain ⟨v, hv, heq⟩ := exists_currentOrLatest vs back
      refine ⟨2, v, ?_, meets_star.2 hv⟩
      rw [matchingIn, if_pos ⟨by decide, rfl⟩, currentOrLatest_of_get hget, heq]
    | true =>
      obtain ⟨v, hv, hmeets, -⟩ := foundVersionIn_spec (o := o) hmeets
      refine ⟨1, v, ?_, hmeets⟩
      rw [matchingIn, if_neg (by simp), hget, Option.bind_some, hv]
      rfl
  | head hstep _ ih =>
    obtain ⟨calls, v, hcalls, hv⟩ := ih
    refine ⟨calls + 1, v, ?_, hv⟩
    cases mustBeSatisfiable with
    | false =>
      cases calls with
      | zero => cases hcalls
      | succ calls =>
        rw [matchingIn, if_pos ⟨by decide, rfl⟩] at hcalls ⊢
        rw [internalGetPackageCurrentOrLatest, get_none_of_goesOn hstep, hstep.1]
        exact hcalls
    | true =>
      rw [matchingIn_of_none (by simp) hstep.2, hstep.1]
      exact hcalls

/-- A constraint is obeyed unless the lookup leads back. -/
theorem obeysConstraint_iff :
    ObeysConstraint o data name m mustBeSatisfiable ↔ ¬LeadsBack data name m mustBeSatisfiable := by
  constructor
  · rintro hobeys ⟨vs, real, back, hget, hnone, ⟨w, hw⟩, hreal, hchain, hhash⟩
    have hback : data.packages.get back = some vs := by rw [data.packages.get_congr hhash, hget]
    have hall : ¬(m.allVersionsValid ∧ mustBeSatisfiable = false) := by
      rintro ⟨hall, rfl⟩
      obtain ⟨i, hi, -⟩ := hw
      exact hnone w ⟨i, hi, by rw [DependDef.valid, if_pos hall],
        fun h => absurd h Bool.false_ne_true⟩
    obtain ⟨calls, v, hcalls, i, hi, -, hsat⟩ := matchingIn_of_goesOn (o := o) hchain hback ⟨w, hw⟩
    refine hnone v ⟨i, hi, hobeys (calls + 1) (vs.found back v) ⟨back, v⟩ ?_ rfl hhash, hsat⟩
    rw [matchingIn_of_none hall, hreal]
    · exact hcalls
    · intro vs' hvs'
      obtain rfl := Option.some.inj (hget.symm.trans hvs')
      exact hnone
  · intro hnot calls found r hfound hr hhash
    cases calls with
    | zero => cases hfound
    | succ calls =>
      by_cases hall : m.allVersionsValid ∧ mustBeSatisfiable = false
      · rw [DependDef.valid, if_pos hall.1]
      · by_cases hmeets : ∃ vs, data.packages.get name = some vs ∧
            ∃ v, vs.Meets m mustBeSatisfiable v
        · obtain ⟨vs, hget, hmeets⟩ := hmeets
          obtain ⟨v, hv, ⟨i, -, hvalid, -⟩, -⟩ := foundVersionIn_spec (o := o) hmeets
          rw [matchingIn, if_neg hall, hget, Option.bind_some, hv] at hfound
          obtain rfl := Option.some.inj hfound
          obtain rfl := Option.some.inj hr
          exact hvalid
        · simp only [not_exists, not_and] at hmeets
          rw [matchingIn_of_none hall hmeets] at hfound
          cases hreal : data.realName name with
          | none =>
            simp only [hreal, Option.some.injEq] at hfound
            rw [← hfound] at hr
            cases hr
          | some real =>
            simp only [hreal] at hfound
            obtain ⟨hchain, vs, hvs, hv⟩ := goesOn_of_matchingIn hfound hr
            rw [data.packages.get_congr hhash] at hvs
            exact absurd ⟨vs, real, r.name, hvs, hmeets vs hvs, ⟨_, hv⟩, hreal, hchain, hhash⟩
              hnot

/-- For every set of versions: the lookup chooses best in every universe that has these
versions, and in every order in which the maps yield them, if and only if no three of them
that a map tells apart are tangled. And in every universe: it obeys the constraint if and
only if the names of the packages that provide each other do not lead back. -/
theorem matching_respects_constraint_iff :
    (∀ S : Set String,
      (∀ (o : MapOrder) (data : PackageData) (name : String) (m : DependDef)
        (mustBeSatisfiable : Bool), data.MarkedBy o →
          (∀ vs, data.packages.get name = some vs → ∀ v ∈ vs.infos.keys, v ∈ S) →
            ChoosesBest o data name m mustBeSatisfiable) ↔
        ∀ a ∈ S, ∀ b ∈ S, ∀ c ∈ S, sdbmStringHash a ≠ sdbmStringHash b →
          sdbmStringHash b ≠ sdbmStringHash c → sdbmStringHash a ≠ sdbmStringHash c →
            ¬VersionsTangled a b c) ∧
      ∀ (o : MapOrder) (data : PackageData) (name : String) (m : DependDef)
        (mustBeSatisfiable : Bool), ObeysConstraint o data name m mustBeSatisfiable ↔
          ¬LeadsBack data name m mustBeSatisfiable := by
  refine ⟨fun S => ⟨fun h a ha b hb c hc hab hbc hac => ?_, fun htangled => ?_⟩,
    fun o data name m mustBeSatisfiable => obeysConstraint_iff⟩
  · refine not_tangled_of_choosesBest hab hbc hac fun hmarked =>
      h _ _ _ _ _ hmarked fun vs hvs v hv => ?_
    obtain rfl := get_threeVersionsOnly hvs
    rcases HashedMap.eq_or_mem_keys_of_set _ hv with rfl | hv
    · exact hc
    · rcases HashedMap.eq_or_mem_keys_of_set _ hv with rfl | hv
      · exact hb
      · rcases HashedMap.eq_or_mem_keys_of_set _ hv with rfl | hv
        · exact ha
        · cases hv
  · exact fun o data name m mustBeSatisfiable hmarked hS =>
      choosesBest_of_not_tangled hmarked hS htangled

end Lookups

/-! ## A package that provides its own name -/

def ownProvider : PackageData where
  packages := HashedMap.empty.set "dnsmasq" (.single "1.0" { provides := some "dnsmasq" })
  provides := HashedMap.empty.set "dnsmasq" ⟨none, some "dnsmasq"⟩
  real_mem := by
    intro name p real hp hreal
    rw [HashedMap.get_set] at hp
    split_ifs at hp
    · obtain rfl := Option.some.inj hp
      obtain rfl := Option.some.inj hreal
      rw [HashedMap.get_set_self]
      rfl
    · cases hp

end Choice

section Own

local instance ownKernel : Kernel := referenceKernel 64

/-- The first version of it is taken where the second one is asked for. -/
theorem first_version_for_second :
    ¬∀ (o : MapOrder) (data : PackageData) (name : String) (m : DependDef)
      (mustBeSatisfiable : Bool), data.MarkedBy o →
        ChoosesBest o data name m mustBeSatisfiable ∧
          ObeysConstraint o data name m mustBeSatisfiable := by
  intro h
  have hmarked : ownProvider.MarkedBy .byHash := by
    intro name vs hvs
    simp only [ownProvider, HashedMap.get_set, HashedMap.get_empty] at hvs
    split_ifs at hvs
    obtain rfl := Option.some.inj hvs
    exact refresh_marked _ _
  have hret : (matchingIn .byHash ownProvider 3 "dnsmasq" false ⟨">=", some "2.0"⟩ false).bind
      Lookup.ret = some ⟨"dnsmasq", "1.0"⟩ := by decide
  obtain ⟨found, hfound, hr⟩ := Option.bind_eq_some_iff.1 hret
  have hvalid := (h .byHash ownProvider "dnsmasq" ⟨">=", some "2.0"⟩ false hmarked).2 3 found _
    hfound hr rfl
  exact absurd hvalid (by decide)

end Own

end Gpkg

end Gargoyle
