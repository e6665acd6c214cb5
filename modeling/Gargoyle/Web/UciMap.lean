import Gargoyle.Data.OrderedMap
import Mathlib.Data.List.Infix

/-!
# The configuration in the web interface

A `UCIContainer` has the configuration of a page: a list of keys, so that sections stay in the order
in which they were set, and two tables by keys. A key is the name of a package and of a section, and
of an option unless it is the key of the section itself, with points between them.

Some functions look for keys with patterns. `match` with a text takes the text for a pattern, which
may be found anywhere in a key, and in which a point stands for any character.

An array belongs to one container: no caller puts an array back that it has got from one.
-/

namespace Gargoyle

open Function (update Injective update_apply update_eq_self_iff)

namespace Web

inductive Value
  | str (s : List Char)
  | arr (vs : List Value)

mutual

def Value.text : Value → List Char
  | .str s => s
  | .arr vs => Value.joined vs

def Value.joined : List Value → List Char
  | [] => []
  | [v] => v.text
  | v :: w :: vs => v.text ++ ',' :: Value.joined (w :: vs)

end

/-- The values that `set` pushes on a list. -/
def Value.items : Value → List Value
  | .str s => [.str s]
  | .arr vs => vs

/-- `UCIContainer`. -/
structure UciContainer where
  keys : List (List Char)
  values : List Char → Option Value
  listOptions : List Char → Bool

namespace UciContainer

def empty : UciContainer := ⟨[], fun _ => none, fun _ => false⟩

def keyText (pkg section_ option : List Char) : List Char :=
  if option = [] then pkg ++ '.' :: section_ else pkg ++ '.' :: (section_ ++ '.' :: option)

variable (c : UciContainer) (pkg section_ option : List Char)

/-- `createListOption`. What stays of a value that was no list depends on whether
`destroyExistingNonlist` is given at all, not on what it is. -/
def createListOption (destroyExistingNonlist : Option Bool) : UciContainer :=
  let destroyExistingNonlist := destroyExistingNonlist.isNone
  let listKey := pkg ++ '.' :: (section_ ++ '.' :: option)
  if c.listOptions listKey then c
  else
    let listOptions := update c.listOptions listKey true
    match c.values listKey with
    | some old =>
      let value := if destroyExistingNonlist then .arr [] else .arr [old]
      ⟨c.keys, update c.values listKey (some value), listOptions⟩
    | none =>
      ⟨c.keys ++ [listKey], update c.values listKey (some (.arr [])), listOptions⟩

def set (value : Value) (preserveExistingListValues : Bool) : UciContainer :=
  let nextKey := keyText pkg section_ option
  match c.values nextKey with
  | some old =>
    if c.listOptions nextKey then
      let kept := if preserveExistingListValues then old.items else []
      { c with values := update c.values nextKey (some (.arr (kept ++ value.items))) }
    else { c with values := update c.values nextKey (some value) }
  | none =>
    let value := if c.listOptions nextKey then .arr value.items else value
    { c with
      keys := c.keys ++ [nextKey]
      values := update c.values nextKey (some value) }

def get : Value := (c.values (keyText pkg section_ option)).getD (.str [])

/-- `split(/\r\n|\r|\n/)`. -/
def splitLines : List Char → List (List Char)
  | [] => [[]]
  | '\r' :: '\n' :: cs => [] :: splitLines cs
  | ch :: cs =>
    if ch = '\r' ∨ ch = '\n' then [] :: splitLines cs
    else (splitLines cs).modifyHead (ch :: ·)

def setLines (value : List Char) : UciContainer :=
  let c := c.createListOption pkg section_ option (some true)
  let lines := splitLines value
  let c := c.set pkg section_ option (.arr ((lines.take 1).map .str)) false
  (lines.drop 1).foldl (fun c line => c.set pkg section_ option (.str line) true) c

/-! ## Looking for keys -/

/-- The section of a key of the form `/^[^\.]+\.([^\.]+)$/`. -/
def sectionOfKey (key : List Char) : Option (List Char) :=
  match key.splitOn '.' with
  | [p, s] => if p ≠ [] ∧ s ≠ [] then some s else none
  | _ => none

/-- The option of a key of the form `/^[^\.]+\.[^\.]+\.([^\.]+)$/`. -/
def optionOfKey (key : List Char) : Option (List Char) :=
  match key.splitOn '.' with
  | [p, s, o] => if p ≠ [] ∧ s ≠ [] ∧ o ≠ [] then some o else none
  | _ => none

/-- `key.match(pkg)`, for a name without signs of patterns. -/
def matchesPackage (key : List Char) : Bool := decide (pkg <:+: key)

/-- `key.match(pkg + "." + section)`, where the point stands for a character of the line. -/
def matchesSection (key : List Char) : Bool :=
  key.tails.any fun tail =>
    pkg.isPrefixOf tail &&
      match tail.drop pkg.length with
      | ch :: rest => decide (ch ∉ ['\n', '\r', '\u2028', '\u2029']) && section_.isPrefixOf rest
      | [] => false

def getAllOptionsInSection (includeLists : Bool) : List (List Char) :=
  c.keys.filterMap fun key =>
    if matchesSection pkg section_ key ∧ (includeLists ∨ c.listOptions key = false) then
      optionOfKey key
    else none

/-- `values[key] == type`, where an array is compared as a text. -/
def hasType (type key : List Char) : Bool := (c.values key).map Value.text = some type

def getAllSectionsOfType (type : List Char) : List (List Char) :=
  c.keys.filterMap fun key =>
    if matchesPackage pkg key ∧ c.hasType type key then sectionOfKey key else none

def getAllSections : List (List Char) :=
  c.keys.filterMap fun key => if matchesPackage pkg key then sectionOfKey key else none

/-! ## Removing and copying -/

/-- `remove`, with the value that it returns. -/
def remove : UciContainer × Value :=
  let removeKey := keyText pkg section_ option
  let listOptions := update c.listOptions removeKey false
  match c.values removeKey with
  | some value =>
    (⟨c.keys.filter (· ≠ removeKey), update c.values removeKey none, listOptions⟩, value)
  | none => ({ c with listOptions := listOptions }, .str [])

def removeSection : UciContainer :=
  let removeKeys := c.keys.filterMap fun key =>
    if pkg ++ '.' :: (section_ ++ ['.']) <:+: key then (key.splitOn '.')[2]? else none
  let sectionDefined := keyText pkg section_ [] ∈ c.keys
  let c := removeKeys.foldl (fun c option => (c.remove pkg section_ option).1) c
  if sectionDefined then (c.remove pkg section_ []).1 else c

def removeAllSectionsOfType (type : List Char) : UciContainer :=
  (c.getAllSectionsOfType pkg type).foldl (fun c section_ => c.removeSection pkg section_) c

/-- A round of the loop of `clone`. -/
def cloneKey (copy : UciContainer) (key : List Char) : UciContainer :=
  let copy :=
    if c.listOptions key then { copy with listOptions := update copy.listOptions key true }
    else copy
  match key.splitOn '.', c.values key with
  | [p, s, o], some value => copy.set p s o value true
  | [p, s], some value => copy.set p s [] value true
  | _, _ => copy

def clone : UciContainer := c.keys.foldl c.cloneKey empty

end UciContainer

/-!
## The configuration as an ordered map

A configuration is an ordered map. Its keys are names: of a package, of a section, and of an
option or of none. Its values are plain values and lists.

Every operation of a container is one of the map, but for the functions that look for keys with
patterns: these may find the keys of other packages and of other sections too, whose names have the
ones looked for in them.
-/

/-! ### The map -/

def isNameChar (c : Char) : Bool := c.isAlphanum || c = '_' || c = '-'

structure Name where
  chars : List Char
  ne_nil : chars ≠ []
  nameChars : ∀ c ∈ chars, isNameChar c = true
  deriving DecidableEq

structure Key where
  pkg : Name
  section_ : Name
  option : Option Name
  deriving DecidableEq

def Key.parts (k : Key) : List (List Char) :=
  k.pkg.chars :: k.section_.chars :: (k.option.map Name.chars).toList

def Key.text (k : Key) : List Char := ['.'].intercalate k.parts

def Key.optionText (k : Key) : List Char := (k.option.map Name.chars).getD []

inductive Setting
  | plain (value : Value)
  | list (vs : List Value)

def Setting.value : Setting → Value
  | .plain value => value
  | .list vs => .arr vs

def Setting.isList : Setting → Bool
  | .plain _ => false
  | .list _ => true

abbrev UciMap := OrderedMap Key Setting

def Setting.set (value : Value) (preserve : Bool) : Option Setting → Setting
  | some (.list vs) => .list ((if preserve then vs else []) ++ value.items)
  | some (.plain _) => .plain value
  | none => .plain value

def Setting.createList (destroy : Option Bool) : Option Setting → Setting
  | some (.list vs) => .list vs
  | some (.plain old) => .list (if destroy.isNone then [] else [old])
  | none => .list []

namespace UciMap

variable (m : UciMap)

def inSection (pkg section_ : Name) (k : Key) : Bool := k.pkg = pkg ∧ k.section_ = section_

def sections (pkg : Name) : List Name :=
  m.keys.filterMap fun k => if k.pkg = pkg ∧ k.option = none then some k.section_ else none

def hasType (type : List Char) (k : Key) : Bool :=
  (m.lookup k).map (fun e => e.value.text) = some type

def sectionsOfType (pkg : Name) (type : List Char) : List Name :=
  m.keys.filterMap fun k =>
    if k.pkg = pkg ∧ k.option = none ∧ m.hasType type k then some k.section_ else none

def options (pkg section_ : Name) (includeLists : Bool) : List Name :=
  m.keys.filterMap fun k =>
    if inSection pkg section_ k ∧ (includeLists ∨ (m.lookup k).map Setting.isList = some false) then
      k.option
    else none

end UciMap

/-! ### Keys as texts -/

section Text

theorem dot_notMem (n : Name) : '.' ∉ n.chars := fun h => by
  have := n.nameChars '.' h
  revert this
  decide

theorem Name.chars_injective : Injective Name.chars := by
  rintro ⟨s, hs, hs'⟩ ⟨t, ht, ht'⟩ rfl
  rfl

theorem Key.parts_ne_nil (k : Key) : k.parts ≠ [] := List.cons_ne_nil _ _

theorem Key.dot_notMem_parts (k : Key) : ∀ p ∈ k.parts, '.' ∉ p := by
  intro p hp
  rw [Key.parts, List.mem_cons, List.mem_cons] at hp
  rcases hp with rfl | rfl | hp
  · exact dot_notMem k.pkg
  · exact dot_notMem k.section_
  · rw [Option.mem_toList, Option.map_eq_some_iff] at hp
    obtain ⟨n, -, rfl⟩ := hp
    exact dot_notMem n

theorem Key.splitOn_text (k : Key) : k.text.splitOn '.' = k.parts :=
  List.splitOn_intercalate '.' k.dot_notMem_parts k.parts_ne_nil

theorem Key.parts_injective : Injective Key.parts := by
  rintro ⟨p, s, o⟩ ⟨p', s', o'⟩ h
  simp only [Key.parts, List.cons.injEq] at h
  obtain ⟨hp, hs, ho⟩ := h
  obtain rfl := Name.chars_injective hp
  obtain rfl := Name.chars_injective hs
  cases o with
  | none =>
    cases o' with
    | none => rfl
    | some o' => simp at ho
  | some o =>
    cases o' with
    | none => simp at ho
    | some o' =>
      have hchars : o.chars = o'.chars := by simpa using ho
      rw [Name.chars_injective hchars]

def Key.embedding : Key ↪ List Char where
  toFun := Key.text
  inj' k k' h := Key.parts_injective (by rw [← k.splitOn_text, ← k'.splitOn_text, h])

theorem Key.text_inj {k k' : Key} : k.text = k'.text ↔ k = k' := Key.embedding.injective.eq_iff

@[simp] theorem Key.embedding_apply (k : Key) : Key.embedding k = k.text := rfl

theorem Key.text_eq_keyText (k : Key) :
    k.text = UciContainer.keyText k.pkg.chars k.section_.chars k.optionText := by
  obtain ⟨p, s, o⟩ := k
  cases o with
  | none => simp [Key.text, Key.parts, Key.optionText, UciContainer.keyText, List.intercalate]
  | some o =>
    simp [Key.text, Key.parts, Key.optionText, UciContainer.keyText, List.intercalate, o.ne_nil]

end Text

/-! ### Containers of settings -/

open OrderedMap

namespace UciContainer

def ofSettings (m : OrderedMap (List Char) Setting) : UciContainer where
  keys := m.keys
  values k := (m.lookup k).map Setting.value
  listOptions k := ((m.lookup k).map Setting.isList).getD false

theorem ext' {c c' : UciContainer} (hkeys : c.keys = c'.keys) (hvalues : c.values = c'.values)
    (hlists : c.listOptions = c'.listOptions) : c = c' := by
  cases c
  cases c'
  congr

theorem ofSettings_upsert (m : OrderedMap (List Char) Setting) (k : List Char)
    (g : Option Setting → Setting) :
    ofSettings (m.upsert k g) =
      ⟨if m.lookup k = none then m.keys ++ [k] else m.keys,
        update (ofSettings m).values k (some (g (m.lookup k)).value),
        update (ofSettings m).listOptions k (g (m.lookup k)).isList⟩ := by
  refine ext' ?_ ?_ ?_
  · change (m.upsert k g).keys = _
    rw [keys_upsert]
    simp only [lookup_eq_none_iff]
    split_ifs <;> rfl
  · funext t
    simp only [ofSettings, lookup_upsert, update_apply]
    split_ifs <;> rfl
  · funext t
    simp only [ofSettings, lookup_upsert, update_apply]
    split_ifs <;> rfl

theorem ofSettings_erase (m : OrderedMap (List Char) Setting) (k : List Char) :
    ofSettings (m.erase k) =
      ⟨m.keys.filter (· ≠ k), update (ofSettings m).values k none,
        update (ofSettings m).listOptions k false⟩ := by
  refine ext' ?_ ?_ ?_
  · exact keys_filter ..
  · funext t
    simp only [ofSettings, erase, lookup_filter, update_apply]
    by_cases ht : t = k <;> simp [ht]
  · funext t
    simp only [ofSettings, erase, lookup_filter, update_apply]
    by_cases ht : t = k <;> simp [ht]

variable (m : OrderedMap (List Char) Setting) (pkg section_ option : List Char)

theorem update_listOptions_self (k : List Char) :
    update (ofSettings m).listOptions k (((m.lookup k).map Setting.isList).getD false) =
      (ofSettings m).listOptions :=
  Function.update_eq_self k (ofSettings m).listOptions

theorem set_ofSettings (value : Value) (preserve : Bool) :
    (ofSettings m).set pkg section_ option value preserve =
      ofSettings (m.upsert (keyText pkg section_ option) (Setting.set value preserve)) := by
  rw [ofSettings_upsert, UciContainer.set]
  generalize keyText pkg section_ option = k
  have hself := update_listOptions_self m k
  cases hk : m.lookup k with
  | none =>
    rw [hk] at hself
    simp only [ofSettings, hk, Option.map_none, Option.getD_none] at hself ⊢
    rw [Setting.set, Setting.isList, hself]
    rfl
  | some e =>
    rw [hk] at hself
    cases e with
    | plain old =>
      simp only [ofSettings, hk, Option.map_some, Option.getD_some] at hself ⊢
      exact ext' rfl rfl hself.symm
    | list vs =>
      simp only [ofSettings, hk, Option.map_some, Option.getD_some] at hself ⊢
      exact ext' rfl rfl hself.symm

theorem createListOption_ofSettings (destroy : Option Bool) :
    (ofSettings m).createListOption pkg section_ option destroy =
      ofSettings (m.upsert (pkg ++ '.' :: (section_ ++ '.' :: option))
        (Setting.createList destroy)) := by
  rw [ofSettings_upsert, UciContainer.createListOption]
  generalize pkg ++ '.' :: (section_ ++ '.' :: option) = k
  cases hk : m.lookup k with
  | none =>
    simp only [ofSettings, hk]
    rfl
  | some e =>
    cases e with
    | plain old =>
      simp only [ofSettings, hk]
      cases destroy <;> rfl
    | list vs =>
      have hvalues : (ofSettings m).values k = some (.arr vs) := by simp [ofSettings, hk]; rfl
      have hlists : (ofSettings m).listOptions k = true := by simp [ofSettings, hk]; rfl
      rw [if_pos hlists, Setting.createList]
      refine ext' rfl ?_ ?_
      · exact (Function.update_eq_self_iff.2 hvalues.symm).symm
      · exact (Function.update_eq_self_iff.2 hlists.symm).symm

theorem get_ofSettings :
    (ofSettings m).get pkg section_ option =
      ((m.lookup (keyText pkg section_ option)).map Setting.value).getD (.str []) := rfl

theorem remove_ofSettings :
    (ofSettings m).remove pkg section_ option =
      (ofSettings (m.erase (keyText pkg section_ option)),
        ((m.lookup (keyText pkg section_ option)).map Setting.value).getD (.str [])) := by
  rw [ofSettings_erase, UciContainer.remove]
  generalize keyText pkg section_ option = k
  cases hk : m.lookup k with
  | none =>
    have hnot : k ∉ m.keys := lookup_eq_none_iff.1 hk
    have hvalues : (ofSettings m).values k = none := by simp [ofSettings, hk]
    simp only [hvalues, Option.map_none, Option.getD_none]
    refine Prod.ext (ext' ?_ ?_ rfl) rfl
    · refine (List.filter_eq_self.2 fun t ht => ?_).symm
      simpa using ne_of_mem_of_not_mem ht hnot
    · exact (Function.update_eq_self_iff.2 hvalues.symm).symm
  | some e =>
    simp only [ofSettings, hk, Option.map_some, Option.getD_some]

end UciContainer

/-! ### Containers of configurations -/

namespace UciMap

variable (m : UciMap) (k : Key)

def container : UciContainer := UciContainer.ofSettings (m.mapKeys Key.embedding)

theorem keys_container : m.container.keys = m.keys.map Key.text := keys_mapKeys Key.embedding m

theorem values_container : m.container.values k.text = (m.lookup k).map Setting.value :=
  congrArg (Option.map Setting.value) (lookup_mapKeys Key.embedding m k)

theorem listOptions_container :
    m.container.listOptions k.text = ((m.lookup k).map Setting.isList).getD false :=
  congrArg (fun e => (Option.map Setting.isList e).getD false) (lookup_mapKeys Key.embedding m k)

theorem container_upsert (g : Option Setting → Setting) :
    container (m.upsert k g) =
      ⟨if m.lookup k = none then m.container.keys ++ [k.text] else m.container.keys,
        update m.container.values k.text (some (g (m.lookup k)).value),
        update m.container.listOptions k.text (g (m.lookup k)).isList⟩ := by
  have hlookup := lookup_mapKeys Key.embedding m k
  rw [container, mapKeys_upsert, UciContainer.ofSettings_upsert, hlookup]
  rfl

theorem hasType_container (type : List Char) :
    m.container.hasType type k.text = m.hasType type k := by
  rw [UciContainer.hasType, values_container, Option.map_map]
  rfl

theorem get_container :
    m.container.get k.pkg.chars k.section_.chars k.optionText =
      ((m.lookup k).map Setting.value).getD (.str []) := by
  rw [container, UciContainer.get_ofSettings, ← Key.text_eq_keyText]
  exact congrArg (fun e => (Option.map Setting.value e).getD (.str []))
    (lookup_mapKeys Key.embedding m k)

theorem set_container (value : Value) (preserve : Bool) :
    m.container.set k.pkg.chars k.section_.chars k.optionText value preserve =
      container (m.upsert k (Setting.set value preserve)) := by
  rw [container, UciContainer.set_ofSettings, ← Key.text_eq_keyText, container, mapKeys_upsert]
  rfl

theorem createListOption_container (pkg section_ option : Name) (destroy : Option Bool) :
    m.container.createListOption pkg.chars section_.chars option.chars destroy =
      container (m.upsert ⟨pkg, section_, some option⟩ (Setting.createList destroy)) := by
  rw [container, UciContainer.createListOption_ofSettings, container, mapKeys_upsert]
  congr 2
  simp [Key.text, Key.parts, List.intercalate]

theorem remove_container :
    m.container.remove k.pkg.chars k.section_.chars k.optionText =
      (container (m.erase k), ((m.lookup k).map Setting.value).getD (.str [])) := by
  have herase : (m.mapKeys Key.embedding).erase k.text = (m.erase k).mapKeys Key.embedding :=
    mapKeys_filter Key.embedding fun k' _ => by simp [Key.text_inj]
  rw [container, UciContainer.remove_ofSettings, ← Key.text_eq_keyText, herase]
  refine Prod.ext rfl ?_
  exact congrArg (fun e => (Option.map Setting.value e).getD (.str []))
    (lookup_mapKeys Key.embedding m k)

def setLines (pkg section_ option : Name) (value : List Char) : UciMap :=
  let k : Key := ⟨pkg, section_, some option⟩
  let lines := UciContainer.splitLines value
  (lines.drop 1).foldl (fun m line => m.upsert k (Setting.set (.str line) true))
    ((m.upsert k (Setting.createList (some true))).upsert k
      (Setting.set (.arr ((lines.take 1).map .str)) false))

theorem setLines_container (pkg section_ option : Name) (value : List Char) :
    m.container.setLines pkg.chars section_.chars option.chars value =
      container (m.setLines pkg section_ option value) := by
  have hset := fun (m : UciMap) => m.set_container ⟨pkg, section_, some option⟩
  simp only [Key.optionText, Option.map_some, Option.getD_some] at hset
  rw [UciContainer.setLines, createListOption_container, hset, setLines]
  generalize (UciContainer.splitLines value).drop 1 = lines
  generalize (m.upsert _ _).upsert _ _ = m
  induction lines generalizing m with
  | nil => rfl
  | cons line lines ih => rw [List.foldl_cons, List.foldl_cons, hset, ih]

end UciMap

end Web

end Gargoyle
