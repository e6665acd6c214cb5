import Gargoyle.Gpkg.AddPackage
import Gargoyle.Gpkg.RealCost

/-!
# The constraints in the closure of the dependencies

`All-Depends` is written entry by entry: a dependency with its own constraint, and then all
that the chosen version has in its own map, over what is there. So the constraint that stays for a
name is the last one on a walk through the dependencies, each followed by the walk from the version
that was chosen for it (`Mentions`). Versions that were not loaded when they were chosen
bring nothing.
-/

namespace Gargoyle

open List

namespace Gpkg

open Bandwidth Relation

section AllDepends

variable [Kernel]

def DependStep.mention (data : PackageData) (step : DependStep) : String × DependDef :=
  (data.dependName step.entry.1, step.entry.2)

inductive Mentions (data : PackageData) (t : LoadTrace) :
    List DependStep → List (String × DependDef) → Prop
  | nil : Mentions data t [] []
  | loaded {step : DependStep} {steps : List DependStep} {x : PackageRef} {lx : Loaded}
      {ms ns : List (String × DependDef)} : step.chosen x lx → Mentions data t (t.steps x) ms →
      Mentions data t steps ns → Mentions data t (step :: steps) (step.mention data :: (ms ++ ns))
  | other {step : DependStep} {steps : List DependStep} {ns : List (String × DependDef)} :
      (∀ x lx, ¬step.chosen x lx) → Mentions data t steps ns →
      Mentions data t (step :: steps) (step.mention data :: ns)

def lastMention (name : String) (ms : List (String × DependDef)) : Option DependDef :=
  HashedMap.lookup sdbmStringHash name ms.reverse

def Chooses (t : LoadTrace) (data' : PackageData) (r x : PackageRef) : Prop :=
  (∃ i l, data'.info r = some i ∧ i.loaded = some l) ∧
    ∃ step ∈ t.steps r, step.found.ret = some x

def ChoosesLoaded (t : LoadTrace) (r x : PackageRef) : Prop :=
  ∃ step ∈ t.steps r, ∃ lx, step.chosen x lx

/-- The field `Depends` of a version names a package. -/
def PackageData.Names (data : PackageData) (r : PackageRef) (name : String) : Prop :=
  ∃ i, data.info r = some i ∧ ∃ e ∈ dependList i.depends,
    sdbmStringHash (data.dependName e.1) = sdbmStringHash name

def DependDef.AtLeastAsStrict (m m' : DependDef) : Prop :=
  ∀ v, m.valid v = true → m'.valid v = true

structure KeepsConstraints (t : LoadTrace) (data data' : PackageData) (r : PackageRef)
    (l : Loaded) : Prop where
  keys : ∀ name, (l.allDepends.get name).isSome ↔
    ∃ x, ReflTransGen (Chooses t data') r x ∧ data.Names x name
  strict : ∀ name m, l.allDepends.get name = some m → ∀ i, data.info r = some i →
    ∀ e ∈ dependList i.depends,
      sdbmStringHash (data.dependName e.1) = sdbmStringHash name → m.AtLeastAsStrict e.2

def ReachedLoaded (t : LoadTrace) (data data' : PackageData) (r : PackageRef) : Prop :=
  ∀ x, ReflTransGen (Chooses t data') r x → ∀ name, data.Names x name →
    ∃ y, ReflTransGen (ChoosesLoaded t) r y ∧ data.Names y name

def LastIsStrict (data : PackageData) (r : PackageRef) (ms : List (String × DependDef)) : Prop :=
  ∀ i, data.info r = some i → ∀ e ∈ dependList i.depends, ∀ m,
    lastMention (data.dependName e.1) ms = some m → m.AtLeastAsStrict e.2

/-! ## The rounds -/

section Mentioned

variable {p : LoadParams} {calls : ℕ} {s s' : DependState} {steps : List DependStep}
  {data data' : PackageData} {t : LoadTrace} {r x : PackageRef} {i : PackageInfo} {l : Loaded}
  {ms : List (String × DependDef)} {name : String} {m : DependDef}

theorem get_mergeDepends (m : StringMap DependDef) (deps : StringMap DependDef) (name : String) :
    (mergeDepends m (some deps)).get name = (deps.get name).or (m.get name) :=
  HashedMap.get_foldl_entries deps m name

theorem get_set_or (deps : StringMap DependDef) (name' : String) : (deps.set name m).get name' =
    (if sdbmStringHash name = sdbmStringHash name' then some m else none).or (deps.get name') := by
  rw [HashedMap.get_set]
  split_ifs <;> rfl

theorem lastMention_cons (e : String × DependDef) (ms : List (String × DependDef)) :
    lastMention name (e :: ms) = (lastMention name ms).or
      (if sdbmStringHash e.1 = sdbmStringHash name then some e.2 else none) := by
  rw [lastMention, reverse_cons, HashedMap.lookup_append]
  rfl

theorem lastMention_append (ms ns : List (String × DependDef)) :
    lastMention name (ms ++ ns) = (lastMention name ns).or (lastMention name ms) := by
  rw [lastMention, reverse_append, HashedMap.lookup_append]
  rfl

theorem lastMention_isSome_iff :
    (lastMention name ms).isSome ↔ ∃ e ∈ ms, sdbmStringHash e.1 = sdbmStringHash name := by
  induction ms with
  | nil => simp [lastMention, HashedMap.lookup]
  | cons e ms ih =>
    rw [lastMention_cons, Option.isSome_or, Bool.or_eq_true, ih]
    by_cases he : sdbmStringHash e.1 = sdbmStringHash name
    · simp [he]
    · simp [he]

theorem get_takeOver_of_chosen {size : Bool} {step : DependStep} {lx : Loaded}
    (h : step.chosen x lx) (hdata : s.data = step.data) (name' : String) :
    (s.takeOver size name m step.found).allDepends.get name' =
      (lx.allDepends.get name').or ((s.allDepends.set name m).get name') := by
  obtain ⟨hret, j, hj, hl⟩ := h
  rw [DependState.takeOver, hret, hdata]
  simp only [Option.bind_some, hj, hl, Option.map_some]
  split_ifs <;> exact get_mergeDepends _ _ name'

theorem allDepends_takeOver_of_other {size : Bool} {step : DependStep}
    (h : ∀ x lx, ¬step.chosen x lx) (hdata : s.data = step.data) :
    (s.takeOver size name m step.found).allDepends = s.allDepends.set name m := by
  rw [DependState.takeOver]
  cases hret : step.found.ret with
  | none => rfl
  | some x =>
    rw [Option.bind_some, hdata]
    cases hj : step.data.info x with
    | none => rfl
    | some j =>
      have hl : j.loaded = none := by
        cases hl : j.loaded with
        | none => rfl
        | some lx => exact absurd ⟨hret, j, hj, hl⟩ (h x lx)
      simp only [hl, Option.map_none, mergeDepends]
      split_ifs <;> rfl

theorem MakesRounds.exists_mentions (h : MakesRounds p calls s steps s')
    (hdata : data.Further s.data)
    (hchosen : ∀ step ∈ steps, ∀ x lx, step.chosen x lx →
      ∃ ms, Mentions data t (t.steps x) ms ∧ ∀ name, lx.allDepends.get name = lastMention name ms) :
    ∃ ms, Mentions data t steps ms ∧
      ∀ name, s'.allDepends.get name = (lastMention name ms).or (s.allDepends.get name) := by
  induction h with
  | nil => exact ⟨[], .nil, fun name => rfl⟩
  | @cons s s' step steps hcall _ _ ih =>
    obtain ⟨hfirst, hrest⟩ := List.forall_mem_cons.1 hchosen
    have hstep : data.Further step.data := load_further hdata hcall
    obtain ⟨ns, hns, hget⟩ := ih (by rwa [DependState.data_takeOver]) hrest
    by_cases hother : ∀ x lx, ¬step.chosen x lx
    · refine ⟨_, .other hother hns, fun name => ?_⟩
      rw [hget, allDepends_takeOver_of_other hother rfl, lastMention_cons, hdata.dependName,
        get_set_or, Option.or_assoc, DependStep.mention]
    · simp only [not_forall, not_not] at hother
      obtain ⟨x, lx, hx⟩ := hother
      obtain ⟨ms, hms, hlx⟩ := hfirst x lx hx
      refine ⟨_, .loaded hx hms hns, fun name => ?_⟩
      rw [hget, get_takeOver_of_chosen hx rfl, hlx, lastMention_cons, lastMention_append,
        hdata.dependName, get_set_or, Option.or_assoc, Option.or_assoc, DependStep.mention]

theorem Explains.loaded_of_chosen (h : Explains t p data data') (hi : data'.info r = some i)
    (hl : i.loaded = some l) {step : DependStep} (hstep : step ∈ t.steps r) {lx : Loaded}
    (hx : step.chosen x lx) : ∃ j, data'.info x = some j ∧ j.loaded = some lx := by
  obtain ⟨calls, begun, ended, hby⟩ := h.loadedBy r i l hi hl
  obtain ⟨-, j, hj, hlj⟩ := hx
  obtain ⟨j', hj', hfurther⟩ :=
    ((hby.rounds.further.2 step hstep).2.trans hby.further').info_some hj
  exact ⟨j', hj', hfurther.loaded lx hlj⟩

theorem Explains.exists_mentions (h : Explains t p data data') (hi : data'.info r = some i)
    (hl : i.loaded = some l) : ∃ ms, Mentions data t (t.steps r) ms ∧
      ∀ name, l.allDepends.get name = lastMention name ms := by
  induction htime : t.time r using Nat.strong_induction_on generalizing r i l with
  | h n ih =>
    obtain ⟨calls, begun, ended, hby⟩ := h.loadedBy r i l hi hl
    obtain ⟨ms, hms, hget⟩ := hby.rounds.exists_mentions hby.further fun step hstep x lx hx => by
      obtain ⟨j, hj, hlj⟩ := h.loaded_of_chosen hi hl hstep hx
      exact ih _ (htime ▸ h.earlier r i l hi hl step hstep x lx hx) hj hlj rfl
    refine ⟨ms, hms, fun name => ?_⟩
    rw [hby.loaded, DependState.loaded]
    simp only [hget, hby.allDepends, HashedMap.get_empty, Option.or_none]

/-! ## Who mentions what -/

theorem DependStep.chosen_unique {step : DependStep} {x' : PackageRef} {lx lx' : Loaded}
    (h : step.chosen x lx) (h' : step.chosen x' lx') : x' = x := by
  have heq := h'.1.symm.trans h.1
  exact Option.some.inj heq

theorem Mentions.of_step (h : Mentions data t steps ms) : ∀ step ∈ steps,
    step.mention data ∈ ms ∧ ∀ x lx, step.chosen x lx →
      ∃ ms', Mentions data t (t.steps x) ms' ∧ ∀ e ∈ ms', e ∈ ms := by
  induction h with
  | nil => exact fun step hstep => nomatch hstep
  | @loaded step steps x lx ms ns hx hms _ _ ih =>
    refine List.forall_mem_cons.2
      ⟨⟨mem_cons_self, fun x' lx' hx' => ?_⟩, fun step' hstep' => ?_⟩
    · obtain rfl := DependStep.chosen_unique hx hx'
      exact ⟨ms, hms, fun e he => mem_cons_of_mem _ (mem_append_left _ he)⟩
    · obtain ⟨hmention, hchosen⟩ := ih step' hstep'
      refine ⟨mem_cons_of_mem _ (mem_append_right _ hmention), fun x' lx' hx' => ?_⟩
      obtain ⟨ms', hms', hsub⟩ := hchosen x' lx' hx'
      exact ⟨ms', hms', fun e he =>
        mem_cons_of_mem _ (mem_append_right _ (hsub e he))⟩
  | @other step steps ns hother _ ih =>
    refine List.forall_mem_cons.2
      ⟨⟨mem_cons_self, fun x' lx' hx' => absurd hx' (hother x' lx')⟩, fun step' hstep' => ?_⟩
    obtain ⟨hmention, hchosen⟩ := ih step' hstep'
    refine ⟨mem_cons_of_mem _ hmention, fun x' lx' hx' => ?_⟩
    obtain ⟨ms', hms', hsub⟩ := hchosen x' lx' hx'
    exact ⟨ms', hms', fun e he => mem_cons_of_mem _ (hsub e he)⟩

theorem Mentions.exists_step (h : Mentions data t steps ms) : ∀ e ∈ ms,
    ∃ step ∈ steps, e = step.mention data ∨ ∃ x lx, step.chosen x lx ∧
      ∃ y, ReflTransGen (ChoosesLoaded t) x y ∧ ∃ step' ∈ t.steps y, e = step'.mention data := by
  induction h with
  | nil => exact fun e he => nomatch he
  | @loaded step steps x lx ms ns hx hms _ ih ih' =>
    intro e he
    rcases List.mem_cons.1 he with rfl | he
    · exact ⟨step, mem_cons_self, Or.inl rfl⟩
    · rcases List.mem_append.1 he with he | he
      · refine ⟨step, mem_cons_self, Or.inr ⟨x, lx, hx, ?_⟩⟩
        obtain ⟨step', hstep', rfl | ⟨x', lx', hx', y, hpath, hy⟩⟩ := ih e he
        · exact ⟨x, .refl, step', hstep', rfl⟩
        · exact ⟨y, .head ⟨step', hstep', lx', hx'⟩ hpath, hy⟩
      · obtain ⟨step', hstep', hmention⟩ := ih' e he
        exact ⟨step', mem_cons_of_mem _ hstep', hmention⟩
  | @other step steps ns hother _ ih =>
    intro e he
    rcases List.mem_cons.1 he with rfl | he
    · exact ⟨step, mem_cons_self, Or.inl rfl⟩
    · obtain ⟨step', hstep', hmention⟩ := ih e he
      exact ⟨step', mem_cons_of_mem _ hstep', hmention⟩

theorem mem_mentions_iff (h : Mentions data t (t.steps r) ms) {e : String × DependDef} :
    e ∈ ms ↔ ∃ y, ReflTransGen (ChoosesLoaded t) r y ∧
      ∃ step ∈ t.steps y, e = step.mention data := by
  constructor
  · intro he
    obtain ⟨step, hstep, rfl | ⟨x, lx, hx, y, hpath, hy⟩⟩ := h.exists_step e he
    · exact ⟨r, .refl, step, hstep, rfl⟩
    · exact ⟨y, .head ⟨step, hstep, lx, hx⟩ hpath, hy⟩
  · rintro ⟨y, hpath, step, hstep, rfl⟩
    induction hpath using ReflTransGen.head_induction_on generalizing ms with
    | refl => exact (h.of_step step hstep).1
    | head hchooses _ ih =>
      obtain ⟨first, hfirst, lx, hx⟩ := hchooses
      obtain ⟨ms', hms', hsub⟩ := (h.of_step first hfirst).2 _ lx hx
      exact hsub _ (ih hms')

theorem Explains.loaded_of_path (h : Explains t p data data') (hi : data'.info r = some i)
    (hl : i.loaded = some l) (hpath : ReflTransGen (ChoosesLoaded t) r x) :
    ReflTransGen (Chooses t data') r x ∧ ∃ j lx, data'.info x = some j ∧ j.loaded = some lx := by
  induction hpath with
  | refl => exact ⟨.refl, i, l, hi, hl⟩
  | tail _ hchooses ih =>
    obtain ⟨hpath, j, lx, hj, hlx⟩ := ih
    obtain ⟨step, hstep, ly, hy⟩ := hchooses
    obtain ⟨k, hk, hlk⟩ := h.loaded_of_chosen hj hlx hstep hy
    exact ⟨hpath.tail ⟨⟨j, lx, hj, hlx⟩, step, hstep, hy.1⟩, k, ly, hk, hlk⟩

theorem Explains.names_iff (h : Explains t p data data') (hfurther : data.Further data')
    (hi : data'.info r = some i) (hl : i.loaded = some l) : data.Names r name ↔
      ∃ step ∈ t.steps r, sdbmStringHash (step.mention data).1 = sdbmStringHash name := by
  obtain ⟨calls, begun, ended, hby⟩ := h.loadedBy r i l hi hl
  obtain ⟨i₀, hi₀, hifurther⟩ := hfurther.exists_info hi
  have hdepends : dependList i₀.depends = (t.steps r).map DependStep.entry := by
    rw [hby.entries, hifurther.fields]
  simp only [PackageData.Names, hi₀, Option.some.injEq, exists_eq_left', hdepends, mem_map,
    exists_exists_and_eq_and, DependStep.mention]

theorem Explains.allDepends_isSome_iff (h : Explains t p data data')
    (hfurther : data.Further data') (hi : data'.info r = some i) (hl : i.loaded = some l) :
    (l.allDepends.get name).isSome ↔
      ∃ y, ReflTransGen (ChoosesLoaded t) r y ∧ data.Names y name := by
  obtain ⟨ms, hms, hget⟩ := h.exists_mentions hi hl
  rw [hget, lastMention_isSome_iff]
  constructor
  · rintro ⟨e, he, hname⟩
    obtain ⟨y, hpath, step, hstep, rfl⟩ := (mem_mentions_iff hms).1 he
    obtain ⟨-, j, lj, hj, hlj⟩ := h.loaded_of_path hi hl hpath
    exact ⟨y, hpath, (h.names_iff hfurther hj hlj).2 ⟨step, hstep, hname⟩⟩
  · rintro ⟨y, hpath, hnames⟩
    obtain ⟨-, j, lj, hj, hlj⟩ := h.loaded_of_path hi hl hpath
    obtain ⟨step, hstep, hname⟩ := (h.names_iff hfurther hj hlj).1 hnames
    exact ⟨_, (mem_mentions_iff hms).2 ⟨y, hpath, step, hstep, rfl⟩, hname⟩

end Mentioned

/-- For every universe without cycles and every order of the calls: the versions of the packages are
loaded, and the closure of a version that is loaded has the names that its choices lead to, each
with a constraint that is at least as strict as its own ones, if and only if these names are
also reached through versions that were loaded when they were chosen, and the last constraint
that is mentioned for the name of an own one is at least as strict. -/
theorem allDepends_keeps_iff (p : LoadParams) {data : PackageData} (hfresh : data.Fresh)
    (hacyclic : Acyclic (RequiredBy data)) (hfalls : Acyclic (FallsTo data))
    (names : List String) :
    ∃ calls data', names.foldlM (loadRecursivePackageDataVariables p calls) data = some data' ∧
      (∀ r, data.Proper r → r.name ∈ names →
        ∃ i l, data'.info r = some i ∧ i.loaded = some l) ∧
      ∃ t, Explains t p data data' ∧ ∀ r i l, data'.info r = some i → i.loaded = some l →
        ∃ ms, Mentions data t (t.steps r) ms ∧ (KeepsConstraints t data data' r l ↔
          ReachedLoaded t data data' r ∧ LastIsStrict data r ms) := by
  obtain ⟨calls, data', hcalls, hfurther, t, ht⟩ := exists_explained p hfresh hacyclic hfalls names
  refine ⟨calls, data', hcalls, fun r hr hname => names_loaded hcalls hr hname, t, ht,
    fun r i l hi hl => ?_⟩
  obtain ⟨ms, hms, hget⟩ := ht.exists_mentions hi hl
  refine ⟨ms, hms, fun hkeeps => ⟨fun x hpath name hnames => ?_, fun j hj e he m hm => ?_⟩,
    fun ⟨hreached, hstrict⟩ => ⟨fun name => ?_, fun name m hm j hj e he hname => ?_⟩⟩
  · exact (ht.allDepends_isSome_iff hfurther hi hl).1 ((hkeeps.keys name).2 ⟨x, hpath, hnames⟩)
  · exact hkeeps.strict _ m (by rw [hget, hm]) j hj e he rfl
  · rw [ht.allDepends_isSome_iff hfurther hi hl]
    constructor
    · rintro ⟨y, hpath, hnames⟩
      exact ⟨y, (ht.loaded_of_path hi hl hpath).1, hnames⟩
    · rintro ⟨x, hpath, hnames⟩
      exact hreached x hpath name hnames
  · refine hstrict j hj e he m ?_
    rw [← hget, l.allDepends.get_congr hname, hm]

/-! ## A dependency on a plain name -/

def plainAfterStrict : PackageData where
  packages := ((HashedMap.empty.set "luci"
    (.single "1.0" { depends := some "libubox (>= 2.0), uhttpd" })).set
      "uhttpd" (.single "1.0" { depends := some "libubox" })).set "libubox" (.single "2.0" {})
  provides := .empty
  real_mem := fun _ _ _ h => nomatch h

def onePlain : PackageData where
  packages := (HashedMap.empty.set "uhttpd" (.single "1.0" { depends := some "libubox" })).set
    "libubox" (.single "2.0" {})
  provides := .empty
  real_mem := fun _ _ _ h => nomatch h

end AllDepends

section Plain

local instance plainKernel : Kernel := referenceKernel 64

theorem plainAfterStrict_fresh : plainAfterStrict.Fresh := by
  refine PackageData.fresh_of_entries ?_
  decide

theorem plainAfterStrict_acyclic : Acyclic (RequiredBy plainAfterStrict) := by
  refine acyclic_of_loads ⟨false, false, 0⟩ 20 ?_
  decide

theorem plainAfterStrict_acyclic_fallsTo : Acyclic (FallsTo plainAfterStrict) := by
  intro name hcycle
  obtain ⟨other, -, hfalls⟩ := TransGen.tail'_iff.1 hcycle
  cases hfalls.1

theorem onePlain_fresh : onePlain.Fresh := by
  refine PackageData.fresh_of_entries ?_
  decide

theorem onePlain_acyclic : Acyclic (RequiredBy onePlain) := by
  refine acyclic_of_loads ⟨false, false, 0⟩ 20 ?_
  decide

theorem onePlain_acyclic_fallsTo : Acyclic (FallsTo onePlain) := by
  intro name hcycle
  obtain ⟨other, -, hfalls⟩ := TransGen.tail'_iff.1 hcycle
  cases hfalls.1

theorem onePlain_depends {r : PackageRef} {i : PackageInfo} (hi : onePlain.info r = some i) :
    i.depends = none ∨ i.depends = some "libubox" := by
  obtain ⟨vs, hvs, hi⟩ := Option.bind_eq_some_iff.1 hi
  obtain ⟨name, -, hentry⟩ := onePlain.packages.exists_mem_of_get hvs
  obtain ⟨version, -, hversion⟩ := vs.infos.exists_mem_of_get hi
  have hall : ∀ e ∈ onePlain.packages.entries, ∀ f ∈ e.2.infos.entries,
      f.2.depends = none ∨ f.2.depends = some "libubox" := by decide
  exact hall _ hentry _ hversion

/-- The closure of a package with one dependency has its constraint. -/
theorem onePlain_keeps :
    ∃ calls data' t i l, ["uhttpd"].foldlM
        (loadRecursivePackageDataVariables ⟨false, false, 0⟩ calls) onePlain = some data' ∧
      Explains t ⟨false, false, 0⟩ onePlain data' ∧
      data'.info ⟨"uhttpd", "1.0"⟩ = some i ∧ i.loaded = some l ∧
      KeepsConstraints t onePlain data' ⟨"uhttpd", "1.0"⟩ l := by
  obtain ⟨calls, data', hcalls, hloaded, t, ht, hkeeps⟩ := allDepends_keeps_iff ⟨false, false, 0⟩
    onePlain_fresh onePlain_acyclic onePlain_acyclic_fallsTo ["uhttpd"]
  obtain ⟨i, l, hi, hl⟩ := hloaded ⟨"uhttpd", "1.0"⟩
    (PackageData.proper_of_mem_refs (by decide)) mem_cons_self
  obtain ⟨ms, -, hiff⟩ := hkeeps _ i l hi hl
  refine ⟨calls, data', t, i, l, hcalls, ht, hi, hl, hiff.2 ⟨fun x _ name hnames => ?_,
    fun j hj e he m _ v _ => ?_⟩⟩
  · -- only the package itself names another one
    obtain ⟨j, hj, e, he, hname⟩ := hnames
    have hfield : (onePlain.info ⟨"uhttpd", "1.0"⟩).map PackageInfo.depends =
        some (some "libubox") := by decide
    obtain ⟨own, hown, hdepends⟩ := Option.map_eq_some_iff.1 hfield
    refine ⟨_, .refl, own, hown, e, ?_, hname⟩
    rcases onePlain_depends hj with hnone | hsome
    · rw [hnone] at he
      cases he
    · rwa [hdepends, ← hsome]
  · have hall : ∀ d ∈ dependList (some "libubox"), d.2 = ⟨"*", none⟩ := by decide
    rcases onePlain_depends hj with hnone | hsome
    · rw [hnone] at he
      cases he
    · rw [hsome] at he
      rw [hall e he]
      rfl

/-- The closure accepts the first version of the package. -/
theorem plain_over_strict :
    plainAfterStrict.Fresh ∧ Acyclic (RequiredBy plainAfterStrict) ∧
      Acyclic (FallsTo plainAfterStrict) ∧
      ∃ data' i l, loadRecursivePackageDataVariables ⟨false, false, 0⟩ 20 plainAfterStrict "luci" =
          some data' ∧
        data'.info ⟨"luci", "1.0"⟩ = some i ∧ i.loaded = some l ∧
        ∀ t, ¬KeepsConstraints t plainAfterStrict data' ⟨"luci", "1.0"⟩ l := by
  have hrun : (loadRecursivePackageDataVariables ⟨false, false, 0⟩ 20 plainAfterStrict "luci").bind
      (fun data' => (data'.info ⟨"luci", "1.0"⟩).bind fun i => i.loaded.bind fun l =>
        l.allDepends.get "libubox") = some ⟨"*", none⟩ := by
    decide
  obtain ⟨data', hdata', hrest⟩ := Option.bind_eq_some_iff.1 hrun
  obtain ⟨i, hi, hrest⟩ := Option.bind_eq_some_iff.1 hrest
  obtain ⟨l, hl, hget⟩ := Option.bind_eq_some_iff.1 hrest
  refine ⟨plainAfterStrict_fresh, plainAfterStrict_acyclic, plainAfterStrict_acyclic_fallsTo,
    data', i, l, hdata', hi, hl, fun t hkeeps => ?_⟩
  have hfield : (plainAfterStrict.info ⟨"luci", "1.0"⟩).map PackageInfo.depends =
      some (some "libubox (>= 2.0), uhttpd") := by decide
  obtain ⟨i₀, hi₀, hdepends⟩ := Option.map_eq_some_iff.1 hfield
  have hmem : ("libubox", (⟨">=", some "2.0"⟩ : DependDef)) ∈ dependList i₀.depends := by
    rw [hdepends]
    decide
  have hstrict := hkeeps.strict "libubox" ⟨"*", none⟩ hget i₀ hi₀ _ hmem (by decide)
  exact absurd (hstrict "1.0" (by decide)) (by decide)

end Plain

end Gpkg

end Gargoyle
