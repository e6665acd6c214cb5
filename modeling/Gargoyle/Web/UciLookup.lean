import Gargoyle.Web.UciMap

/-!
# Looking for keys, and removing sections

The functions that look for keys find what belongs to the names that are asked for, and nothing
else if no other key matches the pattern. A section is removed as it should be, and a copy
is equal to the container.
-/

namespace Gargoyle

namespace Web

open OrderedMap

/-! ## Patterns -/

section FilterMap

variable {α β : Type*} {F G : α → Option β}

theorem length_filterMap_le {l : List α} (h : ∀ a ∈ l, G a = none ∨ F a = G a) :
    (l.filterMap G).length ≤ (l.filterMap F).length := by
  induction l with
  | nil => exact Nat.le_refl _
  | cons a l ih =>
    obtain ⟨ha, hl⟩ := List.forall_mem_cons.1 h
    have ih := ih hl
    cases hF : F a with
    | none =>
      have hG : G a = none := ha.elim id fun heq => heq ▸ hF
      rwa [List.filterMap_cons_none hF, List.filterMap_cons_none hG]
    | some b =>
      rw [List.filterMap_cons_some hF, List.length_cons]
      cases hG : G a with
      | none =>
        rw [List.filterMap_cons_none hG]
        omega
      | some b' =>
        rw [List.filterMap_cons_some hG, List.length_cons]
        omega

theorem filterMap_eq_iff {l : List α} (h : ∀ a ∈ l, G a = none ∨ F a = G a) :
    l.filterMap F = l.filterMap G ↔ ∀ a ∈ l, F a = G a := by
  refine ⟨fun heq => ?_, List.filterMap_congr⟩
  induction l with
  | nil => simp
  | cons a l ih =>
    obtain ⟨ha, hl⟩ := List.forall_mem_cons.1 h
    have hle := length_filterMap_le hl
    rw [List.forall_mem_cons]
    cases hF : F a with
    | none =>
      have hG : G a = none := ha.elim id fun heq => heq ▸ hF
      rw [List.filterMap_cons_none hF, List.filterMap_cons_none hG] at heq
      exact ⟨hG.symm, ih hl heq⟩
    | some b =>
      cases hG : G a with
      | none =>
        rw [List.filterMap_cons_some hF, List.filterMap_cons_none hG] at heq
        have hlength := congrArg List.length heq
        rw [List.length_cons] at hlength
        omega
      | some b' =>
        rw [List.filterMap_cons_some hF, List.filterMap_cons_some hG, List.cons.injEq] at heq
        exact ⟨congrArg some heq.1, ih hl heq.2⟩

theorem filterMap_ite_eq_iff {P Q : α → Prop} [DecidablePred P] [DecidablePred Q] {l : List α}
    (h : ∀ a ∈ l, Q a → P a) :
    l.filterMap (fun a => if P a then F a else none) =
        l.filterMap (fun a => if Q a then F a else none) ↔
      ∀ a ∈ l, F a ≠ none → P a → Q a := by
  rw [filterMap_eq_iff]
  · refine forall₂_congr fun a ha => ?_
    have hQP := h a ha
    by_cases hQ : Q a
    · simp [hQ, hQP hQ]
    · by_cases hP : P a <;> simp [hQ, hP]
  · intro a ha
    by_cases hQ : Q a
    · exact .inr (by rw [if_pos hQ, if_pos (h a ha hQ)])
    · exact .inl (if_neg hQ)

end FilterMap

namespace Key

variable (k : Key)

theorem sectionOfKey_text :
    UciContainer.sectionOfKey k.text = if k.option = none then some k.section_.chars else none := by
  obtain ⟨p, s, o⟩ := k
  rw [UciContainer.sectionOfKey, splitOn_text]
  cases o with
  | none => simp [parts, p.ne_nil, s.ne_nil]
  | some o => simp [parts]

theorem optionOfKey_text : UciContainer.optionOfKey k.text = k.option.map Name.chars := by
  obtain ⟨p, s, o⟩ := k
  rw [UciContainer.optionOfKey, splitOn_text]
  cases o with
  | none => simp [parts]
  | some o => simp [parts, p.ne_nil, s.ne_nil, o.ne_nil]

theorem option_eq_getElem? : (k.text.splitOn '.')[2]? = k.option.map Name.chars := by
  obtain ⟨p, s, o⟩ := k
  rw [splitOn_text]
  cases o <;> rfl

theorem text_of_option_none (h : k.option = none) :
    k.text = k.pkg.chars ++ '.' :: k.section_.chars := by
  simp [text, parts, h, List.intercalate]

theorem text_of_option_some {o : Name} (h : k.option = some o) :
    k.text = k.pkg.chars ++ '.' :: (k.section_.chars ++ '.' :: o.chars) := by
  simp [text, parts, h, List.intercalate]

theorem infix_pkg : k.pkg.chars <:+: k.text := by
  refine List.IsPrefix.isInfix ?_
  cases ho : k.option with
  | none =>
    rw [text_of_option_none k ho]
    exact List.prefix_append ..
  | some o =>
    rw [text_of_option_some k ho]
    exact List.prefix_append ..

theorem matchesSection_self :
    UciContainer.matchesSection k.pkg.chars k.section_.chars k.text = true := by
  obtain ⟨rest, hrest⟩ : ∃ rest, k.text = k.pkg.chars ++ '.' :: (k.section_.chars ++ rest) := by
    cases ho : k.option with
    | none => exact ⟨[], by rw [text_of_option_none k ho, List.append_nil]⟩
    | some o => exact ⟨_, text_of_option_some k ho⟩
  rw [UciContainer.matchesSection, List.any_eq_true]
  refine ⟨k.text, (List.mem_tails _ _).2 List.suffix_rfl, ?_⟩
  rw [hrest, List.drop_left]
  simp

end Key

/-! ## The functions that look for keys -/

namespace UciMap

variable (m : UciMap) (pkg section_ : Name)

def PackageApart : Prop :=
  ∀ k ∈ m.keys, k.option = none → pkg.chars <:+: k.text → k.pkg = pkg

def TypeApart (type : List Char) : Prop :=
  ∀ k ∈ m.keys, k.option = none → pkg.chars <:+: k.text → m.hasType type k = true → k.pkg = pkg

def SectionApart (includeLists : Bool) : Prop :=
  ∀ k ∈ m.keys, k.option ≠ none →
    UciContainer.matchesSection pkg.chars section_.chars k.text = true →
    (includeLists = true ∨ (m.lookup k).map Setting.isList = some false) →
    inSection pkg section_ k = true

theorem inSection_iff {pkg section_ : Name} {k : Key} :
    inSection pkg section_ k = true ↔ k.pkg = pkg ∧ k.section_ = section_ := by
  rw [inSection, decide_eq_true_eq]

theorem eq_of_inSection {pkg section_ : Name} {k : Key} (h : inSection pkg section_ k = true)
    {o : Option Name} (ho : k.option = o) : k = ⟨pkg, section_, o⟩ := by
  obtain ⟨rfl, rfl⟩ := inSection_iff.1 h
  rw [← ho]

theorem getAllSections_container_iff :
    m.container.getAllSections pkg.chars = (m.sections pkg).map Name.chars ↔
      m.PackageApart pkg := by
  have hexact : (m.sections pkg).map Name.chars = m.keys.filterMap fun k =>
      if k.pkg = pkg then UciContainer.sectionOfKey k.text else none := by
    rw [sections, List.map_filterMap]
    refine List.filterMap_congr fun k _ => ?_
    rw [Key.sectionOfKey_text]
    by_cases hpkg : k.pkg = pkg <;> by_cases hoption : k.option = none <;> simp [hpkg, hoption]
  have hfound : m.container.getAllSections pkg.chars = m.keys.filterMap fun k =>
      if pkg.chars <:+: k.text then UciContainer.sectionOfKey k.text else none := by
    rw [UciContainer.getAllSections, keys_container, List.filterMap_map]
    refine List.filterMap_congr fun k _ => ?_
    simp [UciContainer.matchesPackage]
  rw [hfound, hexact, filterMap_ite_eq_iff]
  · refine forall₂_congr fun k _ => ?_
    rw [Key.sectionOfKey_text]
    by_cases hoption : k.option = none <;> simp [hoption]
  · rintro k _ rfl
    exact k.infix_pkg

/-- When the sections of a type are all found. -/
theorem getAllSectionsOfType_container_iff (type : List Char) :
    m.container.getAllSectionsOfType pkg.chars type = (m.sectionsOfType pkg type).map Name.chars ↔
      m.TypeApart pkg type := by
  have hexact : (m.sectionsOfType pkg type).map Name.chars = m.keys.filterMap fun k =>
      if k.pkg = pkg ∧ m.hasType type k then UciContainer.sectionOfKey k.text else none := by
    rw [sectionsOfType, List.map_filterMap]
    refine List.filterMap_congr fun k _ => ?_
    rw [Key.sectionOfKey_text]
    by_cases hpkg : k.pkg = pkg <;> by_cases hoption : k.option = none <;>
      by_cases htype : m.hasType type k <;> simp [hpkg, hoption, htype]
  have hfound : m.container.getAllSectionsOfType pkg.chars type = m.keys.filterMap fun k =>
      if pkg.chars <:+: k.text ∧ m.hasType type k then UciContainer.sectionOfKey k.text
      else none := by
    rw [UciContainer.getAllSectionsOfType, keys_container, List.filterMap_map]
    refine List.filterMap_congr fun k _ => ?_
    simp [UciContainer.matchesPackage, hasType_container]
  rw [hfound, hexact, filterMap_ite_eq_iff]
  · refine forall₂_congr fun k _ => ?_
    rw [Key.sectionOfKey_text]
    by_cases hoption : k.option = none
    · simp only [hoption, if_true, ne_eq, reduceCtorEq, not_false_eq_true, forall_const]
      exact ⟨fun h hfound htype => (h ⟨hfound, htype⟩).1, fun h ⟨hfound, htype⟩ =>
        ⟨h hfound htype, htype⟩⟩
    · simp [hoption]
  · rintro k _ ⟨rfl, htype⟩
    exact ⟨k.infix_pkg, htype⟩

/-- When the options of a section are all found. -/
theorem getAllOptionsInSection_container_iff (includeLists : Bool) :
    m.container.getAllOptionsInSection pkg.chars section_.chars includeLists =
        (m.options pkg section_ includeLists).map Name.chars ↔
      m.SectionApart pkg section_ includeLists := by
  have hlists : ∀ k ∈ m.keys, (m.container.listOptions k.text = false ↔
      (m.lookup k).map Setting.isList = some false) := by
    intro k hk
    obtain ⟨e, he⟩ := mem_keys_iff.1 hk
    rw [listOptions_container, he]
    simp
  have hexact : (m.options pkg section_ includeLists).map Name.chars = m.keys.filterMap fun k =>
      if inSection pkg section_ k = true ∧
        (includeLists = true ∨ (m.lookup k).map Setting.isList = some false)
      then UciContainer.optionOfKey k.text else none := by
    rw [options, List.map_filterMap]
    refine List.filterMap_congr fun k _ => ?_
    rw [Key.optionOfKey_text]
    split_ifs <;> rfl
  have hfound : m.container.getAllOptionsInSection pkg.chars section_.chars includeLists =
      m.keys.filterMap fun k =>
        if UciContainer.matchesSection pkg.chars section_.chars k.text = true ∧
          (includeLists = true ∨ (m.lookup k).map Setting.isList = some false)
        then UciContainer.optionOfKey k.text else none := by
    rw [UciContainer.getAllOptionsInSection, keys_container, List.filterMap_map]
    refine List.filterMap_congr fun k hk => ?_
    simp only [Function.comp_apply, hlists k hk]
  rw [hfound, hexact, filterMap_ite_eq_iff]
  · refine forall₂_congr fun k _ => ?_
    rw [Key.optionOfKey_text, ne_eq, Option.map_eq_none_iff]
    exact forall_congr' fun _ => ⟨fun h hmatch hlist => (h ⟨hmatch, hlist⟩).1,
      fun h hboth => ⟨h hboth.1 hboth.2, hboth.2⟩⟩
  · rintro k _ ⟨hin, hlist⟩
    obtain ⟨rfl, rfl⟩ := inSection_iff.1 hin
    exact ⟨k.matchesSection_self, hlist⟩

/-! ## Removing sections -/

def eraseSection : UciMap := m.filter fun k => !inSection pkg section_ k

theorem foldl_remove (os : List Name) :
    (os.map Name.chars).foldl
        (fun c o => (UciContainer.remove c pkg.chars section_.chars o).1) m.container =
      container ((os.map fun o => ⟨pkg, section_, some o⟩).foldl (fun m k => m.erase k) m) := by
  induction os generalizing m with
  | nil => rfl
  | cons o os ih =>
    have hremove := m.remove_container ⟨pkg, section_, some o⟩
    simp only [Key.optionText, Option.map_some, Option.getD_some] at hremove
    rw [List.map_cons, List.foldl_cons, hremove, ih]
    rfl

def foundOptions : List Name :=
  m.keys.filterMap fun k =>
    if pkg.chars ++ '.' :: (section_.chars ++ ['.']) <:+: k.text then k.option else none

theorem mem_foundOptions {k : Key} (hk : k ∈ m.keys) (hin : inSection pkg section_ k = true)
    {o : Name} (ho : k.option = some o) : o ∈ m.foundOptions pkg section_ := by
  obtain ⟨rfl, rfl⟩ := inSection_iff.1 hin
  refine List.mem_filterMap.2 ⟨k, hk, ?_⟩
  have hfound : k.pkg.chars ++ '.' :: (k.section_.chars ++ ['.']) <:+: k.text := by
    rw [k.text_of_option_some ho]
    exact List.IsPrefix.isInfix ⟨o.chars, by simp⟩
  rw [if_pos hfound, ho]

/-- Removing a section removes its keys and no others. -/
theorem removeSection_container :
    m.container.removeSection pkg.chars section_.chars =
      container (m.eraseSection pkg section_) := by
  have hkeys : (m.container.keys.filterMap fun key =>
      if pkg.chars ++ '.' :: (section_.chars ++ ['.']) <:+: key then (key.splitOn '.')[2]?
      else none) = (m.foundOptions pkg section_).map Name.chars := by
    rw [keys_container, List.filterMap_map, foundOptions, List.map_filterMap]
    refine List.filterMap_congr fun k _ => ?_
    simp only [Function.comp_apply, Key.option_eq_getElem?]
    split_ifs <;> rfl
  have hdefined : UciContainer.keyText pkg.chars section_.chars [] ∈ m.container.keys ↔
      ⟨pkg, section_, none⟩ ∈ m.keys := by
    rw [keys_container, show UciContainer.keyText pkg.chars section_.chars [] =
      Key.text ⟨pkg, section_, none⟩ from (Key.text_eq_keyText ⟨pkg, section_, none⟩).symm]
    exact ⟨fun h => by
      obtain ⟨k, hk, htext⟩ := List.mem_map.1 h
      exact Key.text_inj.1 htext ▸ hk, List.mem_map_of_mem⟩
  have hremove := fun m => remove_container m ⟨pkg, section_, none⟩
  simp only [Key.optionText, Option.map_none, Option.getD_none] at hremove
  rw [UciContainer.removeSection, hkeys, foldl_remove, foldl_erase]
  simp only [hdefined, hremove]
  rw [← apply_ite container, eraseSection]
  congr 1
  have hgone : ∀ k ∈ m.keys,
      (decide (k ∉ (m.foundOptions pkg section_).map fun o => (⟨pkg, section_, some o⟩ : Key)) &&
        decide (k ≠ ⟨pkg, section_, none⟩)) = !inSection pkg section_ k := by
    intro k hk
    rw [Bool.eq_iff_iff, Bool.and_eq_true, decide_eq_true_eq, decide_eq_true_eq,
      Bool.not_eq_true']
    constructor
    · rintro ⟨hfound, hnone⟩
      by_contra hin
      rw [Bool.not_eq_false] at hin
      cases ho : k.option with
      | none => exact hnone (eq_of_inSection hin ho)
      | some o =>
        exact hfound (List.mem_map.2
          ⟨o, m.mem_foundOptions pkg section_ hk hin ho, (eq_of_inSection hin ho).symm⟩)
    · intro hout
      refine ⟨fun h => ?_, ?_⟩
      · obtain ⟨o, -, rfl⟩ := List.mem_map.1 h
        simp [inSection] at hout
      · rintro rfl
        simp [inSection] at hout
  split_ifs with h
  · rw [erase, filter_filter]
    exact filter_congr fun k hk => by rw [← hgone k hk, Bool.and_comm]
  · refine filter_congr fun k hk => ?_
    rw [← hgone k hk, decide_eq_true (ne_of_mem_of_not_mem hk h), Bool.and_true]

def eraseSectionsOfType (type : List Char) : UciMap :=
  (m.sectionsOfType pkg type).foldl (fun m section_ => m.eraseSection pkg section_) m

theorem foldl_removeSection (sections : List Name) :
    (sections.map Name.chars).foldl (fun c section_ => c.removeSection pkg.chars section_)
        m.container =
      container (sections.foldl (fun m section_ => m.eraseSection pkg section_) m) := by
  induction sections generalizing m with
  | nil => rfl
  | cons section_ sections ih =>
    rw [List.map_cons, List.foldl_cons, removeSection_container, ih]
    rfl

theorem foldl_eraseSection (sections : List Name) :
    sections.foldl (fun m section_ => m.eraseSection pkg section_) m =
      m.filter fun k => !(k.pkg = pkg ∧ k.section_ ∈ sections) := by
  induction sections generalizing m with
  | nil => exact (filter_eq_self fun k _ => by simp).symm
  | cons section_ sections ih =>
    rw [List.foldl_cons, ih, eraseSection, filter_filter]
    refine filter_congr fun k _ => ?_
    by_cases hpkg : k.pkg = pkg <;> by_cases hsection : k.section_ = section_ <;>
      simp [inSection, hpkg, hsection]

/-- The sections that `getAllSectionsOfType` finds, with those of other packages. -/
def foundSections (type : List Char) : List Name :=
  m.keys.filterMap fun k =>
    if k.option = none ∧ pkg.chars <:+: k.text ∧ m.hasType type k then some k.section_ else none

theorem getAllSectionsOfType_container (type : List Char) :
    m.container.getAllSectionsOfType pkg.chars type =
      (m.foundSections pkg type).map Name.chars := by
  rw [UciContainer.getAllSectionsOfType, keys_container, List.filterMap_map, foundSections,
    List.map_filterMap]
  refine List.filterMap_congr fun k _ => ?_
  simp only [Function.comp_apply, Key.sectionOfKey_text, hasType_container,
    UciContainer.matchesPackage, decide_eq_true_eq]
  by_cases hoption : k.option = none <;> by_cases hfound : pkg.chars <:+: k.text <;>
    by_cases htype : m.hasType type k <;> simp [hoption, hfound, htype]

theorem removeAllSectionsOfType_container (type : List Char) :
    m.container.removeAllSectionsOfType pkg.chars type =
      container (m.filter fun k => !(k.pkg = pkg ∧ k.section_ ∈ m.foundSections pkg type)) := by
  rw [UciContainer.removeAllSectionsOfType, getAllSectionsOfType_container, foldl_removeSection,
    foldl_eraseSection]

def FoundHaveType (type : List Char) : Prop :=
  ∀ k ∈ m.keys, k.pkg = pkg → k.section_ ∈ m.foundSections pkg type →
    k.section_ ∈ m.sectionsOfType pkg type

theorem sectionsOfType_subset (type : List Char) :
    m.sectionsOfType pkg type ⊆ m.foundSections pkg type := by
  intro s hs
  obtain ⟨k, hk, heq⟩ := List.mem_filterMap.1 hs
  split_ifs at heq with h
  obtain ⟨rfl, hoption, htype⟩ := h
  refine List.mem_filterMap.2 ⟨k, hk, ?_⟩
  rw [if_pos ⟨hoption, k.infix_pkg, htype⟩, heq]

theorem removeAllSectionsOfType_container_iff (type : List Char) :
    m.container.removeAllSectionsOfType pkg.chars type =
        container (m.eraseSectionsOfType pkg type) ↔ m.FoundHaveType pkg type := by
  rw [removeAllSectionsOfType_container, eraseSectionsOfType, foldl_eraseSection]
  constructor
  · intro h k hk hpkg hfound
    have hkeys := congrArg UciContainer.keys h
    rw [keys_container, keys_container, keys_filter, keys_filter] at hkeys
    have hmem := congrArg (k.text ∈ ·) hkeys
    simpa [Key.text_inj, hk, hpkg, hfound] using hmem
  · intro h
    congr 1
    refine filter_congr fun k hk => ?_
    by_cases hpkg : k.pkg = pkg
    · have hiff : k.section_ ∈ m.foundSections pkg type ↔ k.section_ ∈ m.sectionsOfType pkg type :=
        ⟨h k hk hpkg, fun hs => m.sectionsOfType_subset pkg type hs⟩
      simp [hpkg, hiff]
    · simp [hpkg]

/-! ## Copying -/

theorem cloneKey_eq {k : Key} {e : Setting} (h : m.lookup k = some e) (copy : UciContainer) :
    m.container.cloneKey copy k.text =
      UciContainer.set
        (if e.isList then { copy with listOptions := Function.update copy.listOptions k.text true }
          else copy)
        k.pkg.chars k.section_.chars k.optionText e.value true := by
  have hlist : m.container.listOptions k.text = e.isList := by rw [listOptions_container, h]; rfl
  have hvalue : m.container.values k.text = some e.value := by rw [values_container, h]; rfl
  rw [UciContainer.cloneKey, hlist, hvalue, Key.splitOn_text]
  obtain ⟨p, s, o⟩ := k
  cases o <;> rfl

theorem set_new {k : Key} (h : m.lookup k = none) (e : Setting) :
    UciContainer.set
        (if e.isList then
          { m.container with listOptions := Function.update m.container.listOptions k.text true }
        else m.container)
        k.pkg.chars k.section_.chars k.optionText e.value true =
      container (m.upsert k fun _ => e) := by
  have hvalues : m.container.values k.text = none := by rw [values_container, h]; rfl
  have hlists : m.container.listOptions k.text = false := by rw [listOptions_container, h]; rfl
  rw [container_upsert, h, if_pos rfl, UciContainer.set, ← Key.text_eq_keyText]
  cases e with
  | plain value =>
    simp only [Setting.isList, Bool.false_eq_true, if_false, hvalues, hlists]
    exact UciContainer.ext' rfl rfl (Function.update_eq_self_iff.2 hlists.symm).symm
  | list vs =>
    simp only [Setting.isList, if_true, hvalues, Function.update_self]
    rfl

theorem foldl_cloneKey {es : List (Key × Setting)} (hnodup : (es.map Prod.fst).Nodup)
    (h : ∀ e ∈ es, m.lookup e.1 = some e.2) :
    (es.map fun e => e.1.text).foldl m.container.cloneKey UciContainer.empty =
      container ⟨es, hnodup⟩ := by
  induction es using List.reverseRecOn with
  | nil => rfl
  | append_singleton es e ih =>
    have hes : (es.map Prod.fst).Nodup := ((List.sublist_append_left es [e]).map _).nodup hnodup
    have hnot : e.1 ∉ es.map Prod.fst := by
      rw [List.map_append, List.nodup_append] at hnodup
      exact fun hmem => hnodup.2.2 _ hmem e.1 (by simp) rfl
    have hnew : lookup (⟨es, hes⟩ : UciMap) e.1 = none := lookup_eq_none_iff.2 hnot
    rw [List.map_append, List.foldl_append,
      ih hes fun e' he' => h e' (List.mem_append_left _ he')]
    rw [List.map_singleton, List.foldl_cons, List.foldl_nil, cloneKey_eq m (h e (by simp)),
      set_new _ hnew]
    congr 1
    exact OrderedMap.ext (upsertEntry_of_notMem hnot _)

theorem clone_container : m.container.clone = m.container := by
  rw [UciContainer.clone, keys_container, keys, List.map_map]
  exact m.foldl_cloneKey m.nodup fun e he => mem_entries_iff.1 he

end UciMap

end Web

end Gargoyle
