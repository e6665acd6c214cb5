import Gargoyle.Web.UciLookup

/-!
# Runs of operations on the configuration

A container goes through operations as an ordered map does. The one operation that looks for keys,
`removeAllSectionsOfType`, is an exception if it finds a section of another package that has the
name of a section of its own package, which is of another type.
-/

namespace Gargoyle

namespace Web

open OrderedMap

inductive Op
  | createListOption (pkg section_ option : Name) (destroyExistingNonlist : Option Bool)
  | set (k : Key) (value : Value) (preserveExistingListValues : Bool)
  | setLines (pkg section_ option : Name) (value : List Char)
  | remove (k : Key)
  | removeSection (pkg section_ : Name)
  | removeAllSectionsOfType (pkg : Name) (type : List Char)
  | clone

namespace Op

def apply (c : UciContainer) : Op → UciContainer
  | createListOption pkg section_ option destroy =>
    c.createListOption pkg.chars section_.chars option.chars destroy
  | set k value preserve => c.set k.pkg.chars k.section_.chars k.optionText value preserve
  | setLines pkg section_ option value => c.setLines pkg.chars section_.chars option.chars value
  | remove k => (c.remove k.pkg.chars k.section_.chars k.optionText).1
  | removeSection pkg section_ => c.removeSection pkg.chars section_.chars
  | removeAllSectionsOfType pkg type => c.removeAllSectionsOfType pkg.chars type
  | clone => c.clone

def applyMap (m : UciMap) : Op → UciMap
  | createListOption pkg section_ option destroy =>
    m.upsert ⟨pkg, section_, some option⟩ (Setting.createList destroy)
  | set k value preserve => m.upsert k (Setting.set value preserve)
  | setLines pkg section_ option value => UciMap.setLines m pkg section_ option value
  | remove k => m.erase k
  | removeSection pkg section_ => UciMap.eraseSection m pkg section_
  | removeAllSectionsOfType pkg type => UciMap.eraseSectionsOfType m pkg type
  | clone => m

def concerns (m : UciMap) : Op → Key → Bool
  | createListOption pkg section_ _ _, k => UciMap.inSection pkg section_ k
  | set k' _ _, k => UciMap.inSection k'.pkg k'.section_ k
  | setLines pkg section_ _ _, k => UciMap.inSection pkg section_ k
  | remove k', k => UciMap.inSection k'.pkg k'.section_ k
  | removeSection pkg section_, k => UciMap.inSection pkg section_ k
  | removeAllSectionsOfType pkg type, k => k.pkg = pkg ∧ k.section_ ∈ m.sectionsOfType pkg type
  | clone, _ => false

def Apart (m : UciMap) : Op → Prop
  | removeAllSectionsOfType pkg type => m.FoundHaveType pkg type
  | _ => True

theorem apply_container {m : UciMap} {op : Op} (h : op.Apart m) :
    op.apply m.container = (op.applyMap m).container := by
  cases op with
  | createListOption pkg section_ option destroy =>
    exact m.createListOption_container pkg section_ option destroy
  | set k value preserve => exact m.set_container k value preserve
  | setLines pkg section_ option value => exact m.setLines_container pkg section_ option value
  | remove k => exact congrArg Prod.fst (m.remove_container k)
  | removeSection pkg section_ => exact m.removeSection_container pkg section_
  | removeAllSectionsOfType pkg type =>
    exact (m.removeAllSectionsOfType_container_iff pkg type).2 h
  | clone => exact m.clone_container

/-- An operation leaves the keys that it does not concern. -/
theorem filter_applyMap (m : UciMap) (op : Op) :
    OrderedMap.filter (fun k => !op.concerns m k) (op.applyMap m) =
      OrderedMap.filter (fun k => !op.concerns m k) m := by
  cases op with
  | createListOption pkg section_ option destroy =>
    exact filter_upsert (by simp [concerns, UciMap.inSection]) _ m
  | set k value preserve => exact filter_upsert (by simp [concerns, UciMap.inSection]) _ m
  | setLines pkg section_ option value =>
    have hkey : (!UciMap.inSection pkg section_ ⟨pkg, section_, some option⟩) = false := by
      simp [UciMap.inSection]
    let p := fun k => !UciMap.inSection pkg section_ k
    exact (filter_foldl_upsert (p := p) hkey _ _ _).trans
      ((filter_upsert (p := p) hkey _ _).trans (filter_upsert (p := p) hkey _ m))
  | remove k =>
    rw [applyMap, erase]
    refine filter_filter_of_imp fun k' _ h => ?_
    rw [concerns, Bool.not_eq_true'] at h
    rw [decide_eq_true_eq]
    rintro rfl
    simp [UciMap.inSection] at h
  | removeSection pkg section_ => exact filter_filter_of_imp fun k _ h => h
  | removeAllSectionsOfType pkg type =>
    rw [applyMap, UciMap.eraseSectionsOfType, UciMap.foldl_eraseSection]
    exact filter_filter_of_imp fun k _ h => h
  | clone => rfl

end Op

/-! ## Runs -/

def run (ops : List Op) : UciContainer := ops.foldl Op.apply UciContainer.empty

def runMap (ops : List Op) : UciMap := ops.foldl Op.applyMap OrderedMap.empty

def RunApart : List Op → UciMap → Prop
  | [], _ => True
  | op :: ops, m => op.Apart m ∧ RunApart ops (op.applyMap m)

instance (m : UciMap) (op : Op) : Decidable (op.Apart m) :=
  match op with
  | .createListOption .. | .set .. | .setLines .. | .remove .. | .removeSection .. | .clone =>
    isTrue trivial
  | .removeAllSectionsOfType pkg type =>
    inferInstanceAs (Decidable (∀ k ∈ m.keys, k.pkg = pkg → k.section_ ∈ m.foundSections pkg type →
      k.section_ ∈ m.sectionsOfType pkg type))

instance decidableRunApart : (ops : List Op) → (m : UciMap) → Decidable (RunApart ops m)
  | [], _ => isTrue trivial
  | op :: ops, m =>
    have := decidableRunApart ops (op.applyMap m)
    inferInstanceAs (Decidable (op.Apart m ∧ RunApart ops (op.applyMap m)))

structure Agrees (c : UciContainer) (m : UciMap) : Prop where
  get : ∀ k : Key, c.get k.pkg.chars k.section_.chars k.optionText =
    ((m.lookup k).map Setting.value).getD (.str [])
  keys : c.keys = m.keys.map Key.text
  nodup : c.keys.Nodup
  clone : c.clone = c
  sections : ∀ pkg, c.getAllSections pkg.chars = (m.sections pkg).map Name.chars ↔
    m.PackageApart pkg
  sectionsOfType : ∀ pkg type,
    c.getAllSectionsOfType pkg.chars type = (m.sectionsOfType pkg type).map Name.chars ↔
      m.TypeApart pkg type
  options : ∀ pkg section_ includeLists,
    c.getAllOptionsInSection pkg.chars section_.chars includeLists =
        (m.options pkg section_ includeLists).map Name.chars ↔
      m.SectionApart pkg section_ includeLists

theorem agrees_container (m : UciMap) : Agrees m.container m where
  get k := m.get_container k
  keys := m.keys_container
  nodup := by
    rw [UciMap.keys_container]
    exact m.nodup_keys.map Key.embedding.injective
  clone := m.clone_container
  sections pkg := m.getAllSections_container_iff pkg
  sectionsOfType pkg type := m.getAllSectionsOfType_container_iff pkg type
  options pkg section_ includeLists :=
    m.getAllOptionsInSection_container_iff pkg section_ includeLists

theorem foldl_apply_container {ops : List Op} {m : UciMap} (h : RunApart ops m) :
    ops.foldl Op.apply m.container = UciMap.container (ops.foldl Op.applyMap m) := by
  induction ops generalizing m with
  | nil => rfl
  | cons op ops ih =>
    obtain ⟨hop, hops⟩ := h
    rw [List.foldl_cons, Op.apply_container hop, ih hops, List.foldl_cons]

def Op.Direct : Op → Prop
  | removeAllSectionsOfType .. => False
  | _ => True

theorem runApart_of_direct {ops : List Op} (h : ∀ op ∈ ops, op.Direct) (m : UciMap) :
    RunApart ops m := by
  induction ops generalizing m with
  | nil => trivial
  | cons op ops ih =>
    obtain ⟨hop, hops⟩ := List.forall_mem_cons.1 h
    refine ⟨?_, ih hops _⟩
    cases op with
    | removeAllSectionsOfType pkg type => exact hop.elim
    | _ => trivial

theorem run_eq_container {ops : List Op} (h : ∀ op ∈ ops, op.Direct) :
    run ops = UciMap.container (runMap ops) :=
  foldl_apply_container (runApart_of_direct h OrderedMap.empty)

/-- A container is an ordered map after every run in which no section is taken for another one; the
lookups are right exactly if no other key matches; and the next operation leaves other sections as
they are. -/
theorem run_agrees {ops : List Op} (h : RunApart ops OrderedMap.empty) :
    Agrees (run ops) (runMap ops) ∧
      ∀ op, OrderedMap.filter (fun k => !op.concerns (runMap ops) k) (runMap (ops ++ [op])) =
        OrderedMap.filter (fun k => !op.concerns (runMap ops) k) (runMap ops) := by
  refine ⟨?_, fun op => ?_⟩
  · have hrun : run ops = UciMap.container (runMap ops) := foldl_apply_container h
    rw [hrun]
    exact agrees_container _
  · have hlast : runMap (ops ++ [op]) = op.applyMap (runMap ops) := by simp [runMap]
    rw [hlast]
    exact op.filter_applyMap (runMap ops)

section Example

theorem names_of_all {t : List Char} (h : t ≠ [] ∧ t.all isNameChar = true) :
    t ≠ [] ∧ ∀ c ∈ t, isNameChar c = true :=
  ⟨h.1, List.all_eq_true.1 h.2⟩

def name (s : String) (h : s.toList ≠ [] ∧ ∀ c ∈ s.toList, isNameChar c = true) : Name :=
  ⟨s.toList, h.1, h.2⟩

def qos : Name := name "qos" (names_of_all (by decide))

def qosGargoyle : Name := name "qos_gargoyle" (names_of_all (by decide))

def upload : Name := name "upload" (names_of_all (by decide))

/-- A section `upload` in two packages, with a type of its own in each of them. -/
def twoUploads : List Op :=
  [.set ⟨qos, upload, none⟩ (.str "class".toList) false,
    .set ⟨qosGargoyle, upload, none⟩ (.str "direction".toList) false]

/-- The sections of the package with the longer name are removed as they should be. -/
theorem longer_name_agrees :
    Agrees (run (twoUploads ++ [Op.removeAllSectionsOfType qosGargoyle "direction".toList]))
      (runMap (twoUploads ++ [Op.removeAllSectionsOfType qosGargoyle "direction".toList])) ∧
    (run (twoUploads ++ [Op.removeAllSectionsOfType qosGargoyle "direction".toList])).keys =
      ["qos.upload".toList] :=
  ⟨(run_agrees (by decide)).1, by decide⟩

/-- The package with the shorter name seems to have the section of the other one too, and loses its
own, of another type, when the sections of that type are removed. -/
theorem shorter_name_mixed_up :
    (run twoUploads).getAllSections "qos".toList = ["upload".toList, "upload".toList] ∧
    (run twoUploads).getAllSectionsOfType "qos".toList "direction".toList = ["upload".toList] ∧
    (run (twoUploads ++ [Op.removeAllSectionsOfType qos "direction".toList])).keys =
      ["qos_gargoyle.upload".toList] := by
  decide

end Example

end Web

end Gargoyle
