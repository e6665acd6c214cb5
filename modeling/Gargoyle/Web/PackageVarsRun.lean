import Gargoyle.Data.ScriptTokens
import Gargoyle.Web.UciRun

/-!
# The configuration that a page begins with

The header of a page has a script in it that makes `uciOriginal`, a container, and sets in it the
sections and options of the packages that the page asks for. `define_package_vars` prints the
script: names stand in single quotes, as they are, and values in double quotes, with backslashes
before backslashes and quotes. A list is made first, and its values are pushed on it.

The browser reads all of the script before it runs the first statement. A value with an end of line
in it makes the script one that cannot be read, and there is no `uciOriginal` then.
-/

namespace Gargoyle

open Option (bind_some map_some getD_some bind_eq_bind)

open List

namespace Web

open OrderedMap ScriptTokens

/-! ## The packages -/

inductive OptionValue
  | string (s : List Char)
  | list (ss : List (List Char))

structure SectionType where
  chars : List Char
  plain : ∀ c ∈ chars, c ≠ '\\' ∧ c ≠ '"' ∧ isLineEnd c = false

structure UciOption where
  name : Name
  value : OptionValue

structure UciSection where
  name : Name
  type : SectionType
  options : List UciOption
  nodup : (options.map UciOption.name).Nodup

structure UciPackage where
  sections : List UciSection
  nodup : (sections.map UciSection.name).Nodup

def OptionValue.texts : OptionValue → List (List Char)
  | string s => [s]
  | list ss => ss

/-- The value as `get` returns it. -/
def OptionValue.value : OptionValue → Value
  | string s => .str s
  | list ss => .arr (ss.map .str)

/-! ## Printing -/

def getOptionValueString : OptionValue → List Char
  | .string s => escape s
  | .list ss => escape ([' '].intercalate ss)

def declareLine : List Char := "\tvar uciOriginal = new UCIContainer();\n".toList

def namesText (pkg section_ option : List Char) : List Char :=
  pkg ++ ("', '".toList ++ (section_ ++ ("', '".toList ++ (option ++ ['\'', ',', ' ']))))

def setLine (pkg section_ option value : List Char) : List Char :=
  "\tuciOriginal.set('".toList ++
    (namesText pkg section_ option ++ ('"' :: (value ++ "\");\n".toList)))

def appendLine (pkg section_ option value : List Char) : List Char :=
  "\tuciOriginal.set('".toList ++
    (namesText pkg section_ option ++ ('"' :: (value ++ "\", true);\n".toList)))

def createListLine (pkg section_ option : List Char) : List Char :=
  "\tuciOriginal.createListOption('".toList ++ (namesText pkg section_ option ++ "true);\n".toList)

section Lines

variable (pkg section_ option value : List Char)

theorem namesText_eq :
    namesText pkg section_ option =
      pkg ++ ("', '".toList ++ (section_ ++ ("', '".toList ++ (option ++ ['\'', ',', ' '])))) :=
  rfl

theorem setLine_eq :
    setLine pkg section_ option value = "\tuciOriginal.set('".toList ++
      (namesText pkg section_ option ++ ('"' :: (value ++ "\");\n".toList))) :=
  rfl

theorem appendLine_eq :
    appendLine pkg section_ option value = "\tuciOriginal.set('".toList ++
      (namesText pkg section_ option ++ ('"' :: (value ++ "\", true);\n".toList))) :=
  rfl

theorem createListLine_eq :
    createListLine pkg section_ option = "\tuciOriginal.createListOption('".toList ++
      (namesText pkg section_ option ++ "true);\n".toList) :=
  rfl

end Lines

def optionLines (pkg section_ : Name) (o : UciOption) : List Char :=
  match o.value with
  | .string _ => setLine pkg.chars section_.chars o.name.chars (getOptionValueString o.value)
  | .list ss => createListLine pkg.chars section_.chars o.name.chars ++
      ss.flatMap fun s => appendLine pkg.chars section_.chars o.name.chars (escape s)

def sectionLines (pkg : Name) (s : UciSection) : List Char :=
  setLine pkg.chars s.name.chars [] s.type.chars ++ s.options.flatMap (optionLines pkg s.name)

/-- `define_package_vars`. A package that cannot be loaded is left out. -/
def definePackageVars (load : Name → Option UciPackage) : (loaded : Bool) → List Name → List Char
  | _, [] => []
  | loaded, name :: names =>
    match load name with
    | some p => (if loaded then [] else declareLine) ++
        (p.sections.flatMap (sectionLines name) ++ definePackageVars load true names)
    | none => definePackageVars load loaded names

/-! ## Running -/

@[simp] def arguments : List Token → Option (List Token)
  | [argument, .sign ')'] => some [argument]
  | argument :: .sign ',' :: ts => (argument :: ·) <$> arguments ts
  | _ => none

@[simp] def UciContainer.call (c : UciContainer) (method : List Char) :
    List Token → Option UciContainer
  | [.text pkg, .text section_, .text option, .text value] =>
    if method = "set".toList then some (c.set pkg section_ option (.str value) false) else none
  | [.text pkg, .text section_, .text option, .text value, .word preserve] =>
    if method = "set".toList ∧ preserve = "true".toList then
      some (c.set pkg section_ option (.str value) true)
    else none
  | [.text pkg, .text section_, .text option, .word destroy] =>
    if method = "createListOption".toList ∧ destroy = "true".toList then
      some (c.createListOption pkg section_ option (some true))
    else none
  | _ => none

@[simp] def execStatement (uciOriginal : Option UciContainer) :
    List Token → Option (Option UciContainer)
  | [.word declarator, .word variable_, .sign '=', .word operator, .word constructor_, .sign '(',
      .sign ')'] =>
      if declarator = "var".toList ∧ variable_ = "uciOriginal".toList ∧ operator = "new".toList ∧
          constructor_ = "UCIContainer".toList then
        some (some .empty)
      else none
  | .word object :: .sign '.' :: .word method :: .sign '(' :: ts =>
    if object = "uciOriginal".toList then do
      some (some (← (← uciOriginal).call method (← arguments ts)))
    else none
  | _ => none

def evaluate (script : List Char) : Option (Option UciContainer) := do
  let ts ← tokens script
  ((ts.splitOn (.sign ';')).filter (· ≠ [])).foldlM execStatement none

/-!
## The page sees the configuration as it is stored

The printed script is a list of statements, one for each line, if no value has an end of line in it,
and cannot be read else. The statements set every section and every option of the packages once, so
that `uciOriginal` has just their values.
-/

/-! ### Reading lines -/

section Lines

def Reads (text : List Char) (legal : Bool) (statements : List (List Token)) : Prop :=
  ∀ ts, (⟨ts, .between⟩ : Reader).read text =
    if legal then some ⟨ts ++ statements.flatMap (· ++ [Token.sign ';']), .between⟩ else none

theorem Reads.nil : Reads [] true [] := fun ts => by simp [Reader.read_nil]

theorem Reads.append {s t : List Char} {a b : Bool} {x y : List (List Token)} (hs : Reads s a x)
    (ht : Reads t b y) : Reads (s ++ t) (a && b) (x ++ y) := by
  intro ts
  rw [Reader.read_append, hs]
  cases a with
  | false => rfl
  | true =>
    rw [if_pos rfl, bind_some, ht, flatMap_append, append_assoc]
    rfl

theorem Reads.flatMap {α : Type*} {f : α → List Char} {p : α → Bool}
    {g : α → List (List Token)} {l : List α} (h : ∀ a ∈ l, Reads (f a) (p a) (g a)) :
    Reads (l.flatMap f) (l.all p) (l.flatMap g) := by
  induction l with
  | nil => exact Reads.nil
  | cons a l ih =>
    obtain ⟨ha, hl⟩ := List.forall_mem_cons.1 h
    exact ha.append (ih hl)

def namesTokens (k : Key) : List Token :=
  [.text k.pkg.chars, .sign ',', .text k.section_.chars, .sign ',', .text k.optionText, .sign ',']

def setStatement (k : Key) (value : List Char) : List Token :=
  [Token.word "uciOriginal".toList, .sign '.', .word "set".toList, .sign '('] ++
    (namesTokens k ++ [Token.text value, .sign ')'])

def appendStatement (k : Key) (value : List Char) : List Token :=
  [Token.word "uciOriginal".toList, .sign '.', .word "set".toList, .sign '('] ++
    (namesTokens k ++ [Token.text value, .sign ',', .word "true".toList, .sign ')'])

def createListStatement (k : Key) : List Token :=
  [Token.word "uciOriginal".toList, .sign '.', .word "createListOption".toList, .sign '('] ++
    (namesTokens k ++ [Token.word "true".toList, .sign ')'])

variable {ts : List Token}

theorem plain_of_isNameChar_quoted {c : Char} (h : isNameChar c = true) :
    c ≠ '\'' ∧ c ≠ '\\' ∧ isLineEnd c = false := by
  have hne : ∀ d, isNameChar d = false → c ≠ d := fun d hd hcd =>
    Bool.false_ne_true ((hd.symm.trans (congrArg isNameChar hcd.symm)).trans h)
  exact ⟨hne _ (by decide), hne _ (by decide), by
    simp [isLineEnd, hne '\n' (by decide), hne '\r' (by decide)]⟩

theorem read_name {t rest : List Char} (ht : ∀ c ∈ t, isNameChar c = true) :
    (⟨ts, .quoted '\'' []⟩ : Reader).read (t ++ '\'' :: ',' :: ' ' :: rest) =
      (⟨ts ++ [Token.text t, .sign ','], .between⟩ : Reader).read rest := by
  rw [Reader.read_append, Reader.read_plain fun c hc => plain_of_isNameChar_quoted (ht c hc),
    bind_some, nil_append]
  have hend : ∀ r : Reader, r = ⟨ts, .quoted '\'' t⟩ → r.read ['\'', ',', ' '] =
      some ⟨ts ++ [Token.text t] ++ [Token.sign ','], .between⟩ := by
    rintro _ rfl
    rfl
  have hsplit : '\'' :: ',' :: ' ' :: rest = ['\'', ',', ' '] ++ rest := rfl
  rw [hsplit, Reader.read_append, hend _ rfl, bind_some, append_assoc]
  rfl

theorem optionText_nameChars (k : Key) : ∀ c ∈ k.optionText, isNameChar c = true := by
  rw [Key.optionText]
  cases k.option with
  | none => exact fun c hc => absurd hc not_mem_nil
  | some o => exact o.nameChars

theorem read_names (k : Key) (rest : List Char) :
    (⟨ts, .quoted '\'' []⟩ : Reader).read
        (namesText k.pkg.chars k.section_.chars k.optionText ++ rest) =
      (⟨ts ++ namesTokens k, .between⟩ : Reader).read rest := by
  have hquote : ∀ (ts : List Token) (t : List Char),
      (⟨ts, .between⟩ : Reader).read ('\'' :: t) = (⟨ts, .quoted '\'' []⟩ : Reader).read t :=
    fun _ _ => rfl
  have hsep : "', '".toList = ['\'', ',', ' ', '\''] := rfl
  rw [namesText_eq, hsep]
  simp only [append_assoc, cons_append, nil_append]
  rw [read_name k.pkg.nameChars, hquote, read_name k.section_.nameChars, hquote,
    read_name (optionText_nameChars k)]
  simp [namesTokens]

def OneLine (t : List Char) : Bool := !t.any isLineEnd

theorem read_value (value rest : List Char) :
    (⟨ts, .between⟩ : Reader).read ('"' :: (escape value ++ '"' :: rest)) =
      if OneLine value then (⟨ts ++ [Token.text value], .between⟩ : Reader).read rest
      else none := by
  have hquote : ∀ t : List Char,
      (⟨ts, .between⟩ : Reader).read ('"' :: t) = (⟨ts, .quoted '"' []⟩ : Reader).read t :=
    fun _ => rfl
  have hend : ∀ t : List Char, (⟨ts, .quoted '"' value⟩ : Reader).read ('"' :: t) =
      (⟨ts ++ [Token.text value], .between⟩ : Reader).read t := fun _ => rfl
  rw [hquote, Reader.read_append, read_escape, OneLine]
  cases value.any isLineEnd with
  | false => exact hend rest
  | true => rfl

theorem read_setCall : (⟨ts, .between⟩ : Reader).read "\tuciOriginal.set('".toList =
    some ⟨ts ++ [Token.word "uciOriginal".toList] ++ [Token.sign '.'] ++
      [Token.word "set".toList] ++ [Token.sign '('], .quoted '\'' []⟩ := by
  have hcall : "\tuciOriginal.set('".toList =
      '\t' :: ("uciOriginal".toList ++ '.' :: ("set".toList ++ ['(', '\''])) := by simp
  rw [hcall, Reader.read_blank (by decide),
    Reader.read_word (by simp) (by simp [isWordChar]) (by decide), Reader.read_sign (by decide),
    Reader.read_word (by simp) (by simp [isWordChar]) (by decide), Reader.read_sign (by decide),
    Reader.read_quote, Reader.read_nil]

theorem read_lineEnd : (⟨ts, .between⟩ : Reader).read [')', ';', '\n'] =
    some ⟨ts ++ [Token.sign ')'] ++ [Token.sign ';'], .between⟩ := by
  rw [Reader.read_sign (by decide), Reader.read_sign (by decide), Reader.read_blank (by decide),
    Reader.read_nil]

theorem read_true : (⟨ts, .between⟩ : Reader).read ("true".toList ++ [')', ';', '\n']) =
    some ⟨ts ++ [Token.word "true".toList] ++ [Token.sign ')'] ++ [Token.sign ';'], .between⟩ := by
  rw [Reader.read_word (by simp) (by simp [isWordChar]) (by decide), read_lineEnd]

theorem reads_setLine (k : Key) (value : List Char) :
    Reads (setLine k.pkg.chars k.section_.chars k.optionText (escape value)) (OneLine value)
      [setStatement k value] := by
  intro ts
  have hlast : "\");\n".toList = ['"', ')', ';', '\n'] := by simp
  rw [setLine_eq, Reader.read_append, read_setCall, bind_some, read_names, hlast, read_value,
    read_lineEnd]
  simp [setStatement]

theorem reads_appendLine (k : Key) (value : List Char) :
    Reads (appendLine k.pkg.chars k.section_.chars k.optionText (escape value)) (OneLine value)
      [appendStatement k value] := by
  intro ts
  have hend : ", true);\n".toList = ',' :: ' ' :: ("true".toList ++ [')', ';', '\n']) := by simp
  have hlast : "\", true);\n".toList = '"' :: ", true);\n".toList := by simp
  rw [appendLine_eq, Reader.read_append, read_setCall, bind_some, read_names, hlast,
    read_value, hend, Reader.read_sign (by decide), Reader.read_blank (by decide), read_true]
  simp [appendStatement]

theorem reads_createListLine (k : Key) :
    Reads (createListLine k.pkg.chars k.section_.chars k.optionText) true
      [createListStatement k] := by
  intro ts
  have hcall : "\tuciOriginal.createListOption('".toList =
      '\t' :: ("uciOriginal".toList ++ '.' :: ("createListOption".toList ++ ['(', '\''])) := by
    simp
  have hread : (⟨ts, .between⟩ : Reader).read "\tuciOriginal.createListOption('".toList =
      some ⟨ts ++ [Token.word "uciOriginal".toList] ++ [Token.sign '.'] ++
        [Token.word "createListOption".toList] ++ [Token.sign '('], .quoted '\'' []⟩ := by
    rw [hcall, Reader.read_blank (by decide),
      Reader.read_word (by simp) (by simp [isWordChar]) (by decide), Reader.read_sign (by decide),
      Reader.read_word (by simp) (by simp [isWordChar]) (by decide), Reader.read_sign (by decide),
      Reader.read_quote, Reader.read_nil]
  have hend : "true);\n".toList = "true".toList ++ [')', ';', '\n'] := by simp
  rw [createListLine_eq, Reader.read_append, hread, bind_some, read_names, hend, read_true,
    if_pos rfl]
  simp [createListStatement]

def declareStatement : List Token :=
  [.word "var".toList, .word "uciOriginal".toList, .sign '=', .word "new".toList,
    .word "UCIContainer".toList, .sign '(', .sign ')']

theorem reads_declareLine : Reads declareLine true [declareStatement] := by
  intro ts
  have hline : declareLine = '\t' :: ("var".toList ++ ' ' :: ("uciOriginal".toList ++ ' ' :: '=' ::
      ' ' :: ("new".toList ++ ' ' :: ("UCIContainer".toList ++ ['(', ')', ';', '\n'])))) := by
    unfold declareLine
    simp only [String.reduceToList, cons_append, nil_append]
  have hword : ∀ {ts : List Token} {w rest : List Char}, w ≠ [] → w.all isWordChar = true →
      (⟨ts, .between⟩ : Reader).read (w ++ ' ' :: rest) =
        (⟨ts ++ [Token.word w], .between⟩ : Reader).read rest := fun hne hw => by
    rw [Reader.read_word hne hw (by decide), Reader.read_blank (by decide)]
  rw [hline, Reader.read_blank (by decide), hword (by simp) (by simp [isWordChar]),
    hword (by simp) (by simp [isWordChar]), Reader.read_sign (by decide),
    Reader.read_blank (by decide), hword (by simp) (by simp [isWordChar]),
    Reader.read_word (by simp) (by simp [isWordChar]) (by decide), Reader.read_sign (by decide),
    read_lineEnd, if_pos rfl]
  simp [declareStatement]

end Lines

/-! ### Running statements -/

section Statements

/-- A script that is read is evaluated statement by statement. -/
theorem evaluate_of_reads {script : List Char} {legal : Bool} {statements : List (List Token)}
    (h : Reads script legal statements) (hsign : ∀ st ∈ statements, Token.sign ';' ∉ st)
    (hne : ∀ st ∈ statements, st ≠ []) :
    evaluate script = if legal then statements.foldlM execStatement none else none := by
  have hsplit : (statements.flatMap (· ++ [Token.sign ';'])).splitOn (.sign ';') =
      statements ++ [[]] := by
    clear h hne
    induction statements with
    | nil => rfl
    | cons st statements ih =>
      obtain ⟨hst, hrest⟩ := List.forall_mem_cons.1 hsign
      rw [flatMap_cons, append_assoc, singleton_append,
        splitOn_append_cons_self_of_not_mem hst, ih hrest, cons_append]
  have htokens : tokens script =
      if legal then some (statements.flatMap (· ++ [Token.sign ';'])) else none := by
    rw [tokens, h []]
    cases legal <;> rfl
  rw [evaluate, htokens]
  cases legal with
  | false => rfl
  | true =>
    rw [if_pos rfl, if_pos rfl, bind_eq_bind, bind_some, hsplit, filter_append,
      List.filter_eq_self.2 fun st hst => decide_eq_true (hne st hst)]
    simp

variable (c : UciContainer) (k : Key) (value : List Char)

theorem exec_setStatement :
    execStatement (some c) (setStatement k value) =
      some (some ((Op.set k (.str value) false).apply c)) := by
  simp [execStatement, setStatement, namesTokens, arguments, UciContainer.call, Op.apply]

theorem exec_appendStatement :
    execStatement (some c) (appendStatement k value) =
      some (some ((Op.set k (.str value) true).apply c)) := by
  simp [execStatement, appendStatement, namesTokens, arguments, UciContainer.call, Op.apply]

theorem exec_createListStatement (pkg section_ option : Name) :
    execStatement (some c) (createListStatement ⟨pkg, section_, some option⟩) =
      some (some ((Op.createListOption pkg section_ option (some true)).apply c)) := by
  simp [execStatement, createListStatement, namesTokens, arguments, UciContainer.call, Op.apply,
    Key.optionText]

theorem exec_declareStatement (uciOriginal : Option UciContainer) :
    execStatement uciOriginal declareStatement = some (some .empty) := by
  simp [execStatement, declareStatement]

end Statements

/-! ### The values that are set -/

section Entries

def sectionEntries (pkg : Name) (s : UciSection) : List (Key × OptionValue) :=
  (⟨pkg, s.name, none⟩, .string s.type.chars) ::
    s.options.map fun o => (⟨pkg, s.name, some o.name⟩, o.value)

def packageEntries (pkg : Name) (p : UciPackage) : List (Key × OptionValue) :=
  p.sections.flatMap (sectionEntries pkg)

def entries (load : Name → Option UciPackage) (names : List Name) : List (Key × OptionValue) :=
  names.flatMap fun name => ((load name).map (packageEntries name)).getD []

def entryLines (e : Key × OptionValue) : List Char :=
  match e.2 with
  | .string s => setLine e.1.pkg.chars e.1.section_.chars e.1.optionText (escape s)
  | .list ss => createListLine e.1.pkg.chars e.1.section_.chars e.1.optionText ++
      ss.flatMap fun s => appendLine e.1.pkg.chars e.1.section_.chars e.1.optionText (escape s)

theorem optionLines_eq (pkg section_ : Name) (o : UciOption) :
    optionLines pkg section_ o = entryLines (⟨pkg, section_, some o.name⟩, o.value) := by
  rw [optionLines, entryLines]
  cases o.value <;> rfl

theorem sectionLines_eq (pkg : Name) (s : UciSection) :
    sectionLines pkg s = (sectionEntries pkg s).flatMap entryLines := by
  have htype : escape s.type.chars = s.type.chars :=
    escape_of_plain fun c hc => ⟨(s.type.plain c hc).1, (s.type.plain c hc).2.1⟩
  have hoptions : s.options.flatMap (optionLines pkg s.name) =
      (s.options.map fun o => ((⟨pkg, s.name, some o.name⟩ : Key), o.value)).flatMap
        entryLines := by
    rw [flatMap_map]
    exact congrArg (List.flatMap · s.options) (funext (optionLines_eq pkg s.name))
  rw [sectionLines, sectionEntries, flatMap_cons, hoptions]
  conv_lhs => rw [← htype]
  rfl

theorem packageLines_eq (pkg : Name) (p : UciPackage) :
    p.sections.flatMap (sectionLines pkg) = (packageEntries pkg p).flatMap entryLines := by
  rw [packageEntries, flatMap_assoc]
  exact congrArg (List.flatMap · p.sections) (funext (sectionLines_eq pkg))

theorem definePackageVars_eq (load : Name → Option UciPackage) (loaded : Bool) (names : List Name) :
    definePackageVars load loaded names =
      (if loaded ∨ ∀ name ∈ names, load name = none then [] else declareLine) ++
        (entries load names).flatMap entryLines := by
  induction names generalizing loaded with
  | nil => simp [definePackageVars, entries]
  | cons name names ih =>
    rw [definePackageVars, entries, flatMap_cons, flatMap_append, ← entries]
    cases hload : load name with
    | none =>
      simp only [ih, Option.map_none, Option.getD_none, flatMap_nil, nil_append,
        forall_mem_cons, hload, true_and]
    | some p =>
      simp only [packageLines_eq, ih, map_some, getD_some, forall_mem_cons,
        hload]
      simp

/-- Each key is set once. -/
theorem nodup_entries (load : Name → Option UciPackage) {names : List Name} (h : names.Nodup) :
    ((entries load names).map Prod.fst).Nodup := by
  have hpkg : ∀ name, ∀ k ∈ (((load name).map (packageEntries name)).getD []).map Prod.fst,
      k.pkg = name := by
    intro name k hk
    cases hload : load name with
    | none => simp [hload] at hk
    | some p =>
      simp only [hload, map_some, getD_some, packageEntries, sectionEntries,
        map_flatMap, mem_flatMap, map_cons, map_map, mem_cons,
        mem_map] at hk
      obtain ⟨s, -, rfl | ⟨o, -, rfl⟩⟩ := hk
      · rfl
      · rfl
  rw [entries, map_flatMap, nodup_flatMap]
  refine ⟨fun name _ => ?_, h.imp fun hne k hk hk' => hne ((hpkg _ k hk).symm.trans (hpkg _ k hk'))⟩
  cases load name with
  | none => exact nodup_nil
  | some p =>
    have hsection : ∀ s, ∀ k ∈ (sectionEntries name s).map Prod.fst, k.section_ = s.name := by
      intro s k hk
      simp only [sectionEntries, map_cons, map_map, mem_cons, mem_map] at hk
      obtain rfl | ⟨o, -, rfl⟩ := hk
      · rfl
      · rfl
    rw [map_some, getD_some, packageEntries, map_flatMap, nodup_flatMap]
    refine ⟨fun s _ => ?_, (List.pairwise_map.1 p.nodup).imp fun hne k hk hk' =>
      hne ((hsection _ k hk).symm.trans (hsection _ k hk'))⟩
    rw [sectionEntries, map_cons, nodup_cons]
    refine ⟨by simp, ?_⟩
    rw [map_map]
    have hkeys : (Prod.fst ∘ fun o : UciOption => ((⟨name, s.name, some o.name⟩ : Key), o.value)) =
        (fun o => (⟨name, s.name, some o⟩ : Key)) ∘ UciOption.name := rfl
    rw [hkeys, ← map_map]
    refine s.nodup.map fun o o' ho => ?_
    simpa using ho

end Entries

/-! ### What the page sees -/

section Run

def entryStatements (e : Key × OptionValue) : List (List Token) :=
  match e.2 with
  | .string s => [setStatement e.1 s]
  | .list ss => createListStatement e.1 :: ss.map (appendStatement e.1)

theorem reads_entryLines (e : Key × OptionValue) :
    Reads (entryLines e) (e.2.texts.all OneLine) (entryStatements e) := by
  rw [entryLines, entryStatements]
  cases e.2 with
  | string s =>
    have hone : (OptionValue.string s).texts.all OneLine = OneLine s := by
      simp [OptionValue.texts]
    rw [hone]
    exact reads_setLine e.1 s
  | list ss =>
    have hlines := Reads.flatMap fun s (_ : s ∈ ss) => reads_appendLine e.1 s
    rw [← map_eq_flatMap] at hlines
    exact (reads_createListLine e.1).append hlines

def entryOps (e : Key × OptionValue) : List Op :=
  match e.1.option, e.2 with
  | _, .string s => [.set e.1 (.str s) false]
  | some o, .list ss => .createListOption e.1.pkg e.1.section_ o (some true) ::
      ss.map fun s => .set e.1 (.str s) true
  | none, .list _ => []

def ListsAreOptions (e : Key × OptionValue) : Prop := ∀ ss, e.2 = .list ss → e.1.option ≠ none

theorem listsAreOptions_of_mem {load : Name → Option UciPackage} {names : List Name} :
    ∀ e ∈ entries load names, ListsAreOptions e := by
  intro e he
  obtain ⟨name, -, he⟩ := List.mem_flatMap.1 he
  cases hload : load name with
  | none => simp [hload] at he
  | some p =>
    simp only [hload, map_some, getD_some, packageEntries, sectionEntries,
      mem_flatMap, mem_cons, mem_map] at he
    obtain ⟨s, -, rfl | ⟨o, -, rfl⟩⟩ := he
    · exact fun ss h => OptionValue.noConfusion h
    · exact fun ss _ => Option.some_ne_none _

variable {c : UciContainer} {e : Key × OptionValue}

theorem foldlM_appendStatement (k : Key) (ss : List (List Char)) :
    (ss.map (appendStatement k)).foldlM execStatement (some c) =
      some (some ((ss.map fun s => Op.set k (.str s) true).foldl Op.apply c)) := by
  induction ss generalizing c with
  | nil => rfl
  | cons s ss ih =>
    rw [map_cons, foldlM_cons, exec_appendStatement, bind_eq_bind,
      bind_some, ih]
    rfl

theorem foldlM_entryStatements (h : ListsAreOptions e) :
    (entryStatements e).foldlM execStatement (some c) =
      some (some ((entryOps e).foldl Op.apply c)) := by
  obtain ⟨⟨pkg, section_, option⟩, v⟩ := e
  cases v with
  | string s => exact congrArg (· >>= some) (exec_setStatement c _ s)
  | list ss =>
    cases option with
    | none => exact absurd rfl (h ss rfl)
    | some o =>
      rw [entryStatements, foldlM_cons, exec_createListStatement, bind_eq_bind,
        bind_some, foldlM_appendStatement]
      rfl

theorem foldlM_statements {es : List (Key × OptionValue)} (h : ∀ e ∈ es, ListsAreOptions e) :
    (es.flatMap entryStatements).foldlM execStatement (some c) =
      some (some ((es.flatMap entryOps).foldl Op.apply c)) := by
  induction es generalizing c with
  | nil => rfl
  | cons e es ih =>
    obtain ⟨he, hes⟩ := List.forall_mem_cons.1 h
    rw [flatMap_cons, foldlM_append, foldlM_entryStatements he, bind_eq_bind,
      bind_some, ih hes, flatMap_cons, foldl_append]

theorem direct_entryOps (e : Key × OptionValue) : ∀ op ∈ entryOps e, op.Direct := by
  obtain ⟨⟨pkg, section_, option⟩, v⟩ := e
  intro op hop
  cases v with
  | string s =>
    rw [List.mem_singleton.1 hop]
    trivial
  | list ss =>
    cases option with
    | none => cases hop
    | some o =>
      rcases List.mem_cons.1 hop with rfl | hop
      · trivial
      · obtain ⟨s, -, rfl⟩ := List.mem_map.1 hop
        trivial

variable {m : UciMap}

theorem lookup_foldl_append (k : Key) {vs : List Value} (ss : List (List Char))
    (h : m.lookup k = some (.list vs)) :
    OrderedMap.lookup ((ss.map fun s => Op.set k (.str s) true).foldl Op.applyMap m) k =
      some (.list (vs ++ ss.map .str)) := by
  induction ss generalizing m vs with
  | nil => simpa using h
  | cons s ss ih =>
    rw [map_cons, foldl_cons, @ih _ (vs ++ [.str s])]
    · simp
    · rw [Op.applyMap, lookup_upsert, if_pos rfl, h]
      rfl

theorem lookup_entryOps_self (he : ListsAreOptions e) (h : m.lookup e.1 = none) :
    (OrderedMap.lookup ((entryOps e).foldl Op.applyMap m) e.1).map Setting.value =
      some e.2.value := by
  obtain ⟨⟨pkg, section_, option⟩, v⟩ := e
  cases v with
  | string s =>
    rw [entryOps, foldl_cons, foldl_nil, Op.applyMap, lookup_upsert, if_pos rfl, h]
    rfl
  | list ss =>
    cases option with
    | none => exact absurd rfl (he ss rfl)
    | some o =>
      have hnew : OrderedMap.lookup (Op.applyMap m
          (.createListOption pkg section_ o (some true))) ⟨pkg, section_, some o⟩ =
            some (.list []) := by
        rw [Op.applyMap, lookup_upsert, if_pos rfl, h]
        rfl
      rw [entryOps, foldl_cons, lookup_foldl_append _ ss hnew]
      rfl

theorem lookup_entryOps_of_ne {k : Key} (h : k ≠ e.1) :
    OrderedMap.lookup ((entryOps e).foldl Op.applyMap m) k = m.lookup k := by
  obtain ⟨⟨pkg, section_, option⟩, v⟩ := e
  have hset : ∀ (ss : List (List Char)) (m : UciMap),
      OrderedMap.lookup ((ss.map fun s => Op.set ⟨pkg, section_, option⟩ (.str s) true).foldl
        Op.applyMap m) k = m.lookup k := by
    intro ss
    induction ss with
    | nil => exact fun _ => rfl
    | cons s ss ih =>
      intro m
      rw [map_cons, foldl_cons, ih, Op.applyMap, lookup_upsert, if_neg h]
  cases v with
  | string s =>
    rw [entryOps, foldl_cons, foldl_nil, Op.applyMap, lookup_upsert, if_neg h]
  | list ss =>
    cases option with
    | none => rfl
    | some o => rw [entryOps, foldl_cons, hset, Op.applyMap, lookup_upsert, if_neg h]

/-- Each entry can be looked up after all have been set. -/
theorem lookup_foldl_entryOps {es : List (Key × OptionValue)} (hes : ∀ e ∈ es, ListsAreOptions e)
    (hnodup : (es.map Prod.fst).Nodup) (hnew : ∀ e ∈ es, m.lookup e.1 = none) :
    ∀ e ∈ es, (OrderedMap.lookup ((es.flatMap entryOps).foldl Op.applyMap m) e.1).map
      Setting.value = some e.2.value := by
  have hframe : ∀ (es : List (Key × OptionValue)) (m : UciMap) (k : Key), k ∉ es.map Prod.fst →
      OrderedMap.lookup ((es.flatMap entryOps).foldl Op.applyMap m) k = m.lookup k := by
    intro es
    induction es with
    | nil => exact fun _ _ _ => rfl
    | cons e es ih =>
      intro m k hk
      rw [map_cons, mem_cons, not_or] at hk
      rw [flatMap_cons, foldl_append, ih _ _ hk.2, lookup_entryOps_of_ne hk.1]
  induction es generalizing m with
  | nil => exact fun e he => absurd he not_mem_nil
  | cons e es ih =>
    obtain ⟨he, hes⟩ := List.forall_mem_cons.1 hes
    obtain ⟨hm, hnew⟩ := List.forall_mem_cons.1 hnew
    rw [map_cons, nodup_cons] at hnodup
    rw [flatMap_cons, foldl_append]
    refine List.forall_mem_cons.2 ⟨?_, ih hes hnodup.2 fun e' he' => ?_⟩
    · rw [hframe es _ _ hnodup.1]
      exact lookup_entryOps_self he hm
    · have hne : e'.1 ≠ e.1 := fun h => hnodup.1 (h ▸ mem_map_of_mem he')
      rw [lookup_entryOps_of_ne hne, hnew e' he']

variable {load : Name → Option UciPackage} {names : List Name}

theorem mem_entries_iff {e : Key × OptionValue} :
    e ∈ entries load names ↔ ∃ name ∈ names, ∃ p, load name = some p ∧ ∃ s ∈ p.sections,
      e = (⟨name, s.name, none⟩, .string s.type.chars) ∨
        ∃ o ∈ s.options, e = (⟨name, s.name, some o.name⟩, o.value) := by
  rw [entries, mem_flatMap]
  refine exists_congr fun name => and_congr_right fun _ => ?_
  cases load name with
  | none => simp
  | some p => simp [packageEntries, sectionEntries, eq_comm]

def AllOneLine (load : Name → Option UciPackage) (names : List Name) : Prop :=
  ∀ name ∈ names, ∀ p, load name = some p → ∀ s ∈ p.sections, ∀ o ∈ s.options,
    ∀ t ∈ o.value.texts, OneLine t = true

theorem allOneLine_iff :
    (entries load names).all (fun e => e.2.texts.all OneLine) = true ↔ AllOneLine load names := by
  rw [all_eq_true]
  constructor
  · intro h name hname p hp s hs o ho
    exact List.all_eq_true.1 (h (⟨name, s.name, some o.name⟩, o.value)
      (mem_entries_iff.2 ⟨name, hname, p, hp, s, hs, Or.inr ⟨o, ho, rfl⟩⟩))
  · intro h e he
    obtain ⟨name, hname, p, hp, s, hs, rfl | ⟨o, ho, rfl⟩⟩ := mem_entries_iff.1 he
    · have htype : s.type.chars.any isLineEnd = false :=
        List.any_eq_false.2 fun c hc => Bool.not_eq_true _ ▸ (s.type.plain c hc).2.2
      simp [OptionValue.texts, OneLine, htype]
    · exact List.all_eq_true.2 (h name hname p hp s hs o ho)

def scriptStatements (load : Name → Option UciPackage) (names : List Name) : List (List Token) :=
  (if ∀ name ∈ names, load name = none then [] else [declareStatement]) ++
    (entries load names).flatMap entryStatements

theorem sign_notMem_entryStatements (e : Key × OptionValue) :
    ∀ st ∈ entryStatements e, Token.sign ';' ∉ st ∧ st ≠ [] := by
  obtain ⟨k, v⟩ := e
  cases v with
  | string s => simp [entryStatements, setStatement, namesTokens]
  | list ss => simp [entryStatements, createListStatement, appendStatement, namesTokens]

/-- The script is evaluated exactly if its texts are single lines. -/
theorem evaluate_definePackageVars :
    evaluate (definePackageVars load false names) =
      if (entries load names).all (fun e => e.2.texts.all OneLine) then
        (scriptStatements load names).foldlM execStatement none
      else none := by
  have hdeclare : Reads (if ∀ name ∈ names, load name = none then [] else declareLine) true
      (if ∀ name ∈ names, load name = none then [] else [declareStatement]) := by
    split_ifs
    · exact Reads.nil
    · exact reads_declareLine
  have hreads : Reads (definePackageVars load false names)
      ((entries load names).all fun e => e.2.texts.all OneLine) (scriptStatements load names) := by
    rw [definePackageVars_eq]
    simpa [scriptStatements] using
      hdeclare.append (Reads.flatMap fun e (_ : e ∈ entries load names) => reads_entryLines e)
  have hstatements : ∀ st ∈ scriptStatements load names, Token.sign ';' ∉ st ∧ st ≠ [] := by
    intro st hst
    rw [scriptStatements, mem_append] at hst
    rcases hst with hst | hst
    · split_ifs at hst
      · cases hst
      · rw [List.mem_singleton.1 hst]
        simp [declareStatement]
    · obtain ⟨e, -, hst⟩ := List.mem_flatMap.1 hst
      exact sign_notMem_entryStatements e st hst
  exact evaluate_of_reads hreads (fun st hst => (hstatements st hst).1)
    fun st hst => (hstatements st hst).2

def SeesStored (uciOriginal : Option UciContainer) (load : Name → Option UciPackage)
    (names : List Name) : Prop :=
  ∀ name ∈ names, ∀ p, load name = some p → ∀ s ∈ p.sections, ∀ o ∈ s.options,
    ∃ c, uciOriginal = some c ∧ c.get name.chars s.name.chars o.name.chars = o.value.value

/-- The page sees the configuration as it is stored exactly if no value has an end of line in
it. -/
theorem page_sees_stored_iff (hnames : names.Nodup) :
    (∃ uciOriginal, evaluate (definePackageVars load false names) = some uciOriginal ∧
        SeesStored uciOriginal load names) ↔
      AllOneLine load names := by
  rw [evaluate_definePackageVars, ← allOneLine_iff]
  constructor
  · rintro ⟨uciOriginal, hsome, -⟩
    by_contra hlegal
    rw [if_neg hlegal] at hsome
    cases hsome
  · intro hlegal
    rw [if_pos hlegal, scriptStatements]
    by_cases hnone : ∀ name ∈ names, load name = none
    · have hentries : entries load names = [] := List.eq_nil_iff_forall_not_mem.2 fun e he => by
        obtain ⟨name, hname, p, hp, -⟩ := mem_entries_iff.1 he
        rw [hnone name hname] at hp
        cases hp
      refine ⟨none, by rw [if_pos hnone, hentries]; rfl, fun name hname p hp => ?_⟩
      rw [hnone name hname] at hp
      cases hp
    · rw [if_neg hnone, foldlM_append, foldlM_cons, exec_declareStatement]
      refine ⟨_, foldlM_statements listsAreOptions_of_mem, fun name hname p hp s hs o ho => ?_⟩
      refine ⟨_, rfl, ?_⟩
      have hdirect : ∀ op ∈ (entries load names).flatMap entryOps, op.Direct := by
        intro op hop
        obtain ⟨e, -, hop⟩ := List.mem_flatMap.1 hop
        exact direct_entryOps e op hop
      have hlookup := lookup_foldl_entryOps (m := OrderedMap.empty) listsAreOptions_of_mem
        (nodup_entries load hnames) (fun e _ => lookup_empty e.1) _
        (mem_entries_iff.2 ⟨name, hname, p, hp, s, hs, Or.inr ⟨o, ho, rfl⟩⟩)
      have hget := (runMap ((entries load names).flatMap entryOps)).get_container
        ⟨name, s.name, some o.name⟩
      rw [← run_eq_container hdirect] at hget
      refine hget.trans ?_
      rw [runMap, hlookup]
      rfl

end Run

section Example

def system : Name := name "system" (names_of_all (by decide))

def notes : Name := name "notes" (names_of_all (by decide))

def server : Name := name "server" (names_of_all (by decide))

def notesSection (description : List Char) (servers : List (List Char)) : UciSection where
  name := upload
  type := ⟨"system".toList, by simp [isLineEnd]⟩
  options := [⟨notes, .string description⟩, ⟨server, .list servers⟩]
  nodup := (by decide : [notes, server].Nodup)

def loadNotes (description : List Char) (servers : List (List Char)) (pkg : Name) :
    Option UciPackage :=
  if pkg = system then some ⟨[notesSection description servers], nodup_singleton _⟩ else none

/-- Quotes and backslashes are as they were. -/
theorem quotes_seen :
    ∃ uciOriginal,
      evaluate (definePackageVars (loadNotes "a \"b\" \\".toList ["\\n".toList, "'".toList]) false
        [system]) = some uciOriginal ∧
      SeesStored uciOriginal (loadNotes "a \"b\" \\".toList ["\\n".toList, "'".toList])
        [system] :=
  (page_sees_stored_iff (nodup_singleton _)).2 (allOneLine_iff.1 (by decide))

/-- With a description of two lines there is no configuration at all. -/
theorem two_lines_not_read :
    ¬ ∃ uciOriginal,
      evaluate (definePackageVars (loadNotes "a\nb".toList []) false [system]) =
          some uciOriginal ∧
        SeesStored uciOriginal (loadNotes "a\nb".toList []) [system] := by
  have hnone : (evaluate (definePackageVars (loadNotes "a\nb".toList []) false [system])).isNone :=
    by decide +kernel
  rintro ⟨uciOriginal, hsome, -⟩
  rw [hsome] at hnone
  cases hnone

end Example

end Web

end Gargoyle
