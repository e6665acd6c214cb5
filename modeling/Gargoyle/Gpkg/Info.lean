import Gargoyle.Bandwidth.ReferenceKernel
import Gargoyle.Data.JsonText
import Gargoyle.Gpkg.Escape
import Gargoyle.Gpkg.AddPackage

/-!
# Printed package data

`do_print_info` prints a selection of the package data. In the format JSON the packages, their
versions and their variables are printed in three loops, and a comma goes before each version
and each variable that is not at the index zero. Versions that are not in the destination asked
for and variables that are not there are left out, and keep their index.

Texts are lists of characters, without the zero that ends them. The keys `@C` and `@L`, which
are removed from the versions of a package before these are printed, are not among them here.
-/

namespace Gargoyle

open List

namespace Gpkg

open Bandwidth JsonText Numerals

/-! ## The data that is printed -/

/-- What is printed in the place of `NOT_INSTALLED_STRING`. -/
def notInstalledText : List Char := "Not Installed".toList

/-- A variable of a version. Its name says of which type it is: `Required-Size` is a number,
`Required-Depends` and `All-Depends` are maps, `Alternatives` is a list, and the others are
texts. -/
inductive VarDef [Kernel]
  | text (value : List Char)
  | requiredSize (value : ℕ)
  | depends (value : StringMap DependDef)
  | alternatives (value : List (List Char))

abbrev PrintedData [Kernel] := StringMap (StringMap (StringMap VarDef))

/-- What is asked for. The order in which `qsort` leaves the versions is not fixed by the
comparison of versions, which is no order. -/
structure InfoParams [Kernel] where
  /-- Which packages match; all of them, if there is neither a list nor an expression. -/
  isMatching : String → Bool
  packageVariables : Option (StringMap Unit)
  onlyDest : Option (List Char)
  sortVersions : List (String × StringMap VarDef) → List (String × StringMap VarDef)
  sort_perm : ∀ vs, (sortVersions vs).Perm vs

section Info

variable [Kernel]

/-! ## What is printed -/

def tabs (n : ℕ) : List Char := List.replicate n '\t'

def quoted (t : List Char) : List Char := '"' :: (t ++ ['"'])

/-- What `escape_package_variable` leaves in a buffer of 4096 characters. -/
def escapedText (varName : List Char) : Option (List Char) → List Char
  | none => []
  | some text => escaped .json varName text 4096

/-- `join_strs` with a comma and a blank. -/
def joinStrs (parts : List (List Char)) : Option (List Char) :=
  if parts = [] then none else some ([',', ' '].intercalate parts)

def dependText (depName : String) (depDef : DependDef) : List Char :=
  depName.toList ++
    if depDef.relation.toList.head? ≠ some '*' then
      ' ' :: '(' :: (depDef.relation.toList ++ ' ' :: ((depDef.version.getD "").toList ++ [')']))
    else []

def dependsLoop : ℕ → List (String × DependDef) → List Char
  | _, [] => []
  | depIndex, dep :: deps =>
    (if 0 < depIndex then [',', '\n'] else []) ++ tabs 4 ++ quoted (dependText dep.1 dep.2) ++
      dependsLoop (depIndex + 1) deps

def varText (varName : String) : VarDef → List Char
  | .requiredSize size => Nat.toDigits 10 size
  | .depends deps => '[' :: '\n' :: (dependsLoop 0 deps.entries ++ '\n' :: (tabs 3 ++ [']']))
  | .text value =>
    quoted
      (if varName = "Install-Destination" ∧ value = notInstalledString.toList then
        notInstalledText
      else escapedText varName.toList (some value))
  | .alternatives alts => quoted (escapedText varName.toList (joinStrs alts))

def varsLoop (pkgInfo : StringMap VarDef) : ℕ → List String → List Char
  | _, [] => []
  | varIndex, varName :: varNames =>
    (match pkgInfo.get varName with
      | none => []
      | some varDef =>
        (if 0 < varIndex then [',', '\n'] else []) ++
          (tabs 3 ++ memberText varName.toList (varText varName varDef))) ++
      varsLoop pkgInfo (varIndex + 1) varNames

structure Printer where
  text : List Char := []
  printedPackageStart : Bool := false
  printedAPackage : Bool := false

/-- `printf`. -/
def Printer.print (s : Printer) (t : List Char) : Printer := { s with text := s.text ++ t }

section Printing

variable (p : InfoParams) (data : PrintedData)

def InfoParams.varsToPrint (pkgInfo : StringMap VarDef) : List String :=
  match p.packageVariables with
  | some packageVariables => packageVariables.keys
  | none => pkgInfo.keys

def InfoParams.isPrinted (pkgInfo : StringMap VarDef) : Bool :=
  match p.onlyDest with
  | none => true
  | some onlyDest =>
    match pkgInfo.get "Install-Destination" with
    | some (.text destination) => onlyDest = destination
    | _ => false

def versionText (pkgInfo : StringMap VarDef) : List Char :=
  '\x7b' :: '\n' :: (varsLoop pkgInfo 0 (p.varsToPrint pkgInfo) ++ '\n' :: (tabs 2 ++ ['\x7d']))

def packageStart (packageIndex : ℕ) (packageName : String) (s : Printer) : List Char :=
  (if 0 < packageIndex ∧ s.printedAPackage = true then [',', '\n'] else []) ++
    (tabs 1 ++ memberText packageName.toList ['\x7b', '\n'])

def startPackage (packageIndex : ℕ) (packageName : String) (s : Printer) : Printer :=
  if s.printedPackageStart = false then
    ⟨s.text ++ packageStart packageIndex packageName s, true, true⟩
  else s

def versionItem (e : String × StringMap VarDef) : List Char :=
  tabs 2 ++ memberText (escapedText "Version".toList (some e.1.toList)) (versionText p e.2)

def versionRound (packageIndex : ℕ) (packageName : String) (versionIndex : ℕ)
    (e : String × StringMap VarDef) (s : Printer) : Printer :=
  if p.isPrinted e.2 then
    (startPackage packageIndex packageName s).print
      ((if 0 < versionIndex then [',', '\n'] else []) ++ versionItem p e)
  else s

def versionsLoop (packageIndex : ℕ) (packageName : String) :
    ℕ → List (String × StringMap VarDef) → Printer → Printer
  | _, [], s => s
  | versionIndex, e :: es, s =>
    versionsLoop packageIndex packageName (versionIndex + 1) es
      (versionRound p packageIndex packageName versionIndex e s)

def packageRound (packageIndex : ℕ) (packageName : String) (s : Printer) : Printer :=
  if packageName ≠ "@P" then
    match data.get packageName with
    | none => s
    | some allVersions =>
      let s := versionsLoop p packageIndex packageName 0 (p.sortVersions allVersions.entries)
        { s with printedPackageStart := false }
      if s.printedPackageStart then s.print ('\n' :: (tabs 1 ++ ['\x7d'])) else s
  else s

def packagesLoop : ℕ → List String → Printer → Printer
  | _, [], s => s
  | packageIndex, packageName :: packageNames, s =>
    packagesLoop (packageIndex + 1) packageNames (packageRound p data packageIndex packageName s)

/-- The names of the packages that match, in the order of `strcmp`. -/
def sortedPackages : List String :=
  (data.keys.filter p.isMatching).mergeSort fun a b => strcmp a.toList b.toList ≤ 0

/-- `do_print_info` in the format JSON. -/
def doPrintInfo : List Char :=
  (packagesLoop p data 0 (sortedPackages p data) ⟨['\x7b', '\n'], false, false⟩).text ++
    ['\n', '\x7d', '\n']

end Printing

/-! ## What the text is to stand for -/

def storedText (text : List Char) : List Char :=
  (copied text 4096).map fun c => if c = '\r' then '\n' else c

def OnlyBreaks (text : List Char) : Prop :=
  ∀ c ∈ copied text 4096, c = '\n' ∨ c = '\r' ∨ 0x20 ≤ c.toNat

section Expected

variable (p : InfoParams) (data : PrintedData) (marker : List Char)

/-- The value of a variable, where `@N` as a destination stands for `marker`. -/
def varJson (varName : String) : VarDef → Json
  | .requiredSize size => .num (Nat.toDigits 10 size)
  | .depends deps => .arr (deps.entries.map fun dep => .str (dependText dep.1 dep.2))
  | .text value =>
    .str
      (if varName = "Install-Destination" ∧ value = notInstalledString.toList then marker
      else storedText value)
  | .alternatives alts => .str (storedText ((joinStrs alts).getD []))

def printedVars (pkgInfo : StringMap VarDef) : List (String × VarDef) :=
  (p.varsToPrint pkgInfo).filterMap fun varName =>
    (pkgInfo.get varName).map fun varDef => (varName, varDef)

def versionJson (pkgInfo : StringMap VarDef) : Json :=
  .obj ((printedVars p pkgInfo).map fun v => (v.1.toList, varJson marker v.1 v.2))

def InfoParams.printed (e : String × StringMap VarDef) : Option (String × StringMap VarDef) :=
  if p.isPrinted e.2 then some e else none

def printedPackage (packageName : String) :
    Option (String × List (String × StringMap VarDef)) :=
  if packageName ≠ "@P" then
    (data.get packageName).bind fun allVersions =>
      if (p.sortVersions allVersions.entries).filterMap p.printed = [] then none
      else some (packageName, p.sortVersions allVersions.entries)
  else none

def printedPackages : List (String × List (String × StringMap VarDef)) :=
  (sortedPackages p data).filterMap (printedPackage p data)

def infoJson : Json :=
  .obj ((printedPackages p data).map fun k => (k.1.toList,
    .obj ((k.2.filterMap p.printed).map fun e =>
      (storedText e.1.toList, versionJson p marker e.2))))

/-! ## When it does -/

def VarReadable (varName : String) : VarDef → Prop
  | .requiredSize _ => True
  | .depends deps => ∀ dep ∈ deps.entries, Plain (dependText dep.1 dep.2)
  | .text value =>
    if varName = "Install-Destination" ∧ value = notInstalledString.toList then
      marker = notInstalledText
    else OnlyBreaks value
  | .alternatives alts => OnlyBreaks ((joinStrs alts).getD [])

structure VersionReadable (e : String × StringMap VarDef) : Prop where
  version : OnlyBreaks e.1.toList
  first : ∀ varName, (p.varsToPrint e.2).head? = some varName → e.2.get varName = none →
    printedVars p e.2 = []
  vars : ∀ v ∈ printedVars p e.2, Plain v.1.toList ∧ VarReadable marker v.1 v.2

structure PackageReadable (k : String × List (String × StringMap VarDef)) : Prop where
  name : Plain k.1.toList
  first : ∀ e, k.2.head? = some e → p.isPrinted e.2 = true
  versions : ∀ e ∈ k.2, p.isPrinted e.2 = true → VersionReadable p marker e

/-! ## The buffers -/

def varEscapes (varName : String) : VarDef → List (String × Option (List Char))
  | .text value => [(varName, some value)]
  | .alternatives alts => [(varName, joinStrs alts)]
  | _ => []

/-- What `escape_package_variable` is called for, with the names of the variables. -/
def infoEscapes : List (String × Option (List Char)) :=
  (printedPackages p data).flatMap fun k => (k.2.filterMap p.printed).flatMap fun e =>
    ("Version", some e.1.toList) ::
      (printedVars p e.2).flatMap fun v => varEscapes v.1 v.2

def InBuffers : Prop :=
  ∀ e ∈ infoEscapes p data, ∀ w ∈ escapePackageVariable .json e.1.toList e.2 4096,
    (w.1 : ℤ) < 4096

def Fits : Prop :=
  ∀ e ∈ infoEscapes p data, ∀ text, e.2 = some text →
    (((copied text 4096).map (width .json e.1.toList)).sum : ℤ) ≤ 4096 - 1

end Expected

/-! ## Single texts -/

section Texts

omit [Kernel]

theorem encodesIff_escapeChar (varName : List Char) (c : Char) :
    EncodesIff (escapeChar .json varName c) (if c = '\r' then '\n' else c)
      (c = '\n' ∨ c = '\r' ∨ 0x20 ≤ c.toNat) := by
  rw [escapeChar, if_pos (Or.inl rfl)]
  by_cases hspecial : c = '\\' ∨ c = '"' ∨ c = '\n' ∨ c = '\r'
  · rw [if_pos hspecial]
    have hescape : escapeOf (if c = '\r' ∨ c = '\n' then 'n' else c) =
        some (if c = '\r' then '\n' else c) := by
      rcases hspecial with rfl | rfl | rfl | rfl <;> decide
    have hok : c = '\n' ∨ c = '\r' ∨ 0x20 ≤ c.toNat := by
      rcases hspecial with rfl | rfl | rfl | rfl <;> decide
    have h := encodesIff_escape hescape
    exact ⟨fun _ => h.reads trivial, fun s t rest hread => ⟨hok, (h.only s t rest hread).2⟩⟩
  · rw [if_neg hspecial]
    simp only [not_or] at hspecial
    obtain ⟨hslash, hquote, hn, hr⟩ := hspecial
    rw [if_neg hr]
    have h := encodesIff_char hquote hslash
    simpa only [hn, hr, false_or] using h

theorem spellsIff_escaped (varName text : List Char) :
    SpellsIff (escaped .json varName text 4096) (storedText text) (OnlyBreaks text) :=
  spellsIff_flatMap (encodesIff_escapeChar varName) (copied text 4096)

theorem spellsIff_escapedText (varName : List Char) (text : Option (List Char)) :
    SpellsIff (escapedText varName text) (storedText (text.getD []))
      (OnlyBreaks (text.getD [])) := by
  cases text with
  | none => exact spellsIff_escaped varName []
  | some text => exact spellsIff_escaped varName text

theorem plain_notInstalledText : Plain notInstalledText := forall_mem_of_all (by decide)

theorem isBlank_of_mem_tabs {n : ℕ} : ∀ c ∈ tabs n, isBlank c = true := by
  intro c hc
  rw [eq_of_mem_replicate hc]
  rfl

theorem dependsLoop_eq (depIndex : ℕ) (deps : List (String × DependDef)) :
    dependsLoop depIndex deps = commaItems depIndex (deps.map fun dep =>
      some (tabs 4 ++ quoted (dependText dep.1 dep.2))) := by
  induction deps generalizing depIndex with
  | nil => rfl
  | cons dep deps ih =>
    rw [dependsLoop, ih, map_cons, commaItems]
    simp only [append_assoc]

theorem dependsLoop_zero (deps : List (String × DependDef)) :
    dependsLoop 0 deps = [',', '\n'].intercalate (deps.map fun dep =>
      tabs 4 ++ quoted (dependText dep.1 dep.2)) := by
  have hitems :
      (deps.map fun dep => some (tabs 4 ++ quoted (dependText dep.1 dep.2))).filterMap id =
        deps.map fun dep => tabs 4 ++ quoted (dependText dep.1 dep.2) := by
    rw [filterMap_map]
    exact congrFun filterMap_eq_map deps
  rw [dependsLoop_eq, commaItems_zero, hitems, if_neg]
  rintro ⟨hhead, -⟩
  rw [head?_map] at hhead
  obtain ⟨dep, -, hdep⟩ := Option.map_eq_some_iff.1 hhead
  cases hdep

end Texts

theorem printsIff_varText (marker : List Char) (varName : String) (varDef : VarDef) :
    PrintsIff (varText varName varDef) (varJson marker varName varDef)
      (VarReadable marker varName varDef) := by
  cases varDef with
  | requiredSize size => exact printsIff_num size
  | depends deps =>
    have hdeps := printsIff_arr deps.entries
      (fun dep _ => printsIff_str (spellsIff_self (dependText dep.1 dep.2)))
      (isBlank_of_mem_tabs (n := 4)) (isBlank_of_mem_tabs (n := 3))
    rw [varText, dependsLoop_zero]
    exact hdeps
  | alternatives alts =>
    exact printsIff_str (spellsIff_escapedText varName.toList (joinStrs alts))
  | text value =>
    refine printsIff_str ?_
    simp only [VarReadable]
    split_ifs
    · exact .of_reads plain_notInstalledText.reads
    · exact spellsIff_escaped varName.toList value

/-! ## Versions -/

section Versions

variable (p : InfoParams) (marker : List Char)

def named (pkgInfo : StringMap VarDef) (varName : String) : Option (String × VarDef) :=
  (pkgInfo.get varName).map fun varDef => (varName, varDef)

theorem varsLoop_eq (pkgInfo : StringMap VarDef) (varIndex : ℕ) (varNames : List String) :
    varsLoop pkgInfo varIndex varNames = commaItems varIndex (varNames.map fun varName =>
      (named pkgInfo varName).map fun v => tabs 3 ++ memberText v.1.toList (varText v.1 v.2)) := by
  induction varNames generalizing varIndex with
  | nil => rfl
  | cons varName varNames ih =>
    rw [varsLoop, ih, map_cons, named]
    cases pkgInfo.get varName with
    | none => rfl
    | some varDef => rfl

theorem printsIff_versionText (pkgInfo : StringMap VarDef) :
    PrintsIff (versionText p pkgInfo) (versionJson p marker pkgInfo)
      ((∀ varName, (p.varsToPrint pkgInfo).head? = some varName → pkgInfo.get varName = none →
        printedVars p pkgInfo = []) ∧
        ∀ v ∈ printedVars p pkgInfo, Plain v.1.toList ∧ VarReadable marker v.1 v.2) := by
  have hobj := printsIff_commaObj (p.varsToPrint pkgInfo) (f := named pkgInfo)
    (fun v _ => spellsIff_self v.1.toList) (fun v _ => printsIff_varText marker v.1 v.2)
    (isBlank_of_mem_tabs (n := 3)) (isBlank_of_mem_tabs (n := 2))
  rw [versionText, varsLoop_eq]
  refine hobj.iff ?_
  simp only [named, Option.map_eq_none_iff]
  rfl

def versionItems (es : List (String × StringMap VarDef)) : List (Option (List Char)) :=
  es.map fun e => (p.printed e).map (versionItem p)

omit [Kernel] in
theorem startPackage_of_started {packageIndex : ℕ} {packageName : String} {s : Printer}
    (hs : s.printedPackageStart = true) : startPackage packageIndex packageName s = s := by
  rw [startPackage, if_neg]
  rw [hs]
  exact Bool.false_ne_true.symm

omit [Kernel] in
theorem startPackage_started (packageIndex : ℕ) (packageName : String) (s : Printer) :
    (startPackage packageIndex packageName s).printedPackageStart = true := by
  rw [startPackage]
  split_ifs with hs
  · rfl
  · exact eq_true_of_ne_false hs

theorem versionsLoop_started {packageIndex : ℕ} {packageName : String} {s : Printer}
    (hs : s.printedPackageStart = true) (versionIndex : ℕ)
    (es : List (String × StringMap VarDef)) :
    versionsLoop p packageIndex packageName versionIndex es s =
      s.print (commaItems versionIndex (versionItems p es)) := by
  induction es generalizing versionIndex s with
  | nil => simp [versionsLoop, versionItems, commaItems, Printer.print]
  | cons e es ih =>
    rw [versionsLoop, versionRound, versionItems, map_cons, InfoParams.printed,
      startPackage_of_started hs]
    by_cases hprinted : p.isPrinted e.2 = true
    · rw [if_pos hprinted, if_pos hprinted, ih (s := s.print _) hs]
      simp only [Printer.print, Option.map_some, commaItems, append_assoc]
      rfl
    · rw [if_neg hprinted, if_neg hprinted, ih hs]
      rfl

theorem versionsLoop_fresh (packageIndex : ℕ) (packageName : String) (s : Printer)
    (versionIndex : ℕ) (es : List (String × StringMap VarDef)) :
    versionsLoop p packageIndex packageName versionIndex es s =
      if es.filterMap p.printed = [] then s
      else (startPackage packageIndex packageName s).print
        (commaItems versionIndex (versionItems p es)) := by
  induction es generalizing versionIndex with
  | nil => rfl
  | cons e es ih =>
    rw [versionsLoop, versionRound, versionItems, map_cons, filterMap_cons,
      InfoParams.printed]
    by_cases hprinted : p.isPrinted e.2 = true
    · have hstart := startPackage_started packageIndex packageName s
      rw [if_pos hprinted, if_pos hprinted, if_neg (cons_ne_nil _ _),
        versionsLoop_started p (s := (startPackage packageIndex packageName s).print _) hstart]
      simp only [Printer.print, Option.map_some, commaItems, append_assoc]
      rfl
    · rw [if_neg hprinted, if_neg hprinted, ih]
      rfl

def packageText (es : List (String × StringMap VarDef)) : List Char :=
  '\x7b' :: '\n' :: (commaItems 0 (versionItems p es) ++ '\n' :: (tabs 1 ++ ['\x7d']))

theorem printsIff_packageText (es : List (String × StringMap VarDef)) :
    PrintsIff (packageText p es)
      (.obj ((es.filterMap p.printed).map fun e =>
        (storedText e.1.toList, versionJson p marker e.2)))
      ((∀ e, es.head? = some e → p.printed e = none → es.filterMap p.printed = []) ∧
        ∀ e ∈ es.filterMap p.printed, OnlyBreaks e.1.toList ∧
          (∀ varName, (p.varsToPrint e.2).head? = some varName → e.2.get varName = none →
            printedVars p e.2 = []) ∧
          ∀ v ∈ printedVars p e.2, Plain v.1.toList ∧ VarReadable marker v.1 v.2) :=
  printsIff_commaObj es (fun e _ => spellsIff_escapedText "Version".toList (some e.1.toList))
    (fun e _ => printsIff_versionText p marker e.2) (isBlank_of_mem_tabs (n := 2))
    (isBlank_of_mem_tabs (n := 1))

end Versions

/-! ## Packages -/

section Packages

variable {p : InfoParams} {data : PrintedData}

theorem printed_eq_none_iff {e : String × StringMap VarDef} :
    p.printed e = none ↔ ¬p.isPrinted e.2 = true := by
  rw [InfoParams.printed]
  by_cases hprinted : p.isPrinted e.2 = true
  · rw [if_pos hprinted]
    exact iff_of_false (Option.some_ne_none e) (not_not_intro hprinted)
  · rw [if_neg hprinted]
    exact iff_of_true rfl hprinted

theorem mem_filterMap_printed {e : String × StringMap VarDef}
    {es : List (String × StringMap VarDef)} :
    e ∈ es.filterMap p.printed ↔ e ∈ es ∧ p.isPrinted e.2 = true := by
  rw [mem_filterMap]
  constructor
  · rintro ⟨a, ha, hprinted⟩
    rw [InfoParams.printed] at hprinted
    split_ifs at hprinted with hdest
    · obtain rfl := Option.some.inj hprinted
      exact ⟨ha, hdest⟩
  · rintro ⟨he, hprinted⟩
    exact ⟨e, he, if_pos hprinted⟩

theorem exists_printed_of_mem {k : String × List (String × StringMap VarDef)}
    (hk : k ∈ printedPackages p data) : k.2.filterMap p.printed ≠ [] := by
  obtain ⟨name, -, hname⟩ := List.mem_filterMap.1 hk
  rw [printedPackage] at hname
  split_ifs at hname
  · obtain ⟨allVersions, -, hversions⟩ := Option.bind_eq_some_iff.1 hname
    split_ifs at hversions with hnone
    · obtain rfl := Option.some.inj hversions
      exact hnone

variable (p data)

def packageItem (k : String × List (String × StringMap VarDef)) : List Char :=
  tabs 1 ++ memberText k.1.toList (packageText p k.2)

theorem packageRound_of_none {packageName : String} (h : printedPackage p data packageName = none)
    (packageIndex : ℕ) (s : Printer) :
    (packageRound p data packageIndex packageName s).text = s.text ∧
      (packageRound p data packageIndex packageName s).printedAPackage = s.printedAPackage := by
  rw [packageRound]
  rw [printedPackage] at h
  split_ifs at h ⊢
  · cases hget : data.get packageName with
    | none => exact ⟨rfl, rfl⟩
    | some allVersions =>
      rw [hget, Option.bind_some] at h
      split_ifs at h with hnone
      · simp only [versionsLoop_fresh, if_pos hnone]
        exact ⟨rfl, rfl⟩
  · exact ⟨rfl, rfl⟩

theorem packageRound_of_some {packageName : String}
    {k : String × List (String × StringMap VarDef)}
    (h : printedPackage p data packageName = some k) (packageIndex : ℕ) (s : Printer) :
    (packageRound p data packageIndex packageName s).text =
        s.text ++ ((if 0 < packageIndex ∧ s.printedAPackage = true then [',', '\n'] else []) ++
          packageItem p k) ∧
      (packageRound p data packageIndex packageName s).printedAPackage = true := by
  rw [printedPackage] at h
  split_ifs at h with hname
  · obtain ⟨allVersions, hget, hversions⟩ := Option.bind_eq_some_iff.1 h
    split_ifs at hversions with hnone
    · obtain rfl := Option.some.inj hversions
      have hround : packageRound p data packageIndex packageName s =
          ⟨s.text ++ packageStart packageIndex packageName s ++
            commaItems 0 (versionItems p (p.sortVersions allVersions.entries)) ++
              '\n' :: (tabs 1 ++ ['\x7d']), true, true⟩ := by
        rw [packageRound, if_pos hname, hget]
        simp only [versionsLoop_fresh, if_neg hnone]
        rfl
      rw [hround]
      refine ⟨?_, rfl⟩
      simp only [packageStart, packageItem, packageText, memberText, append_assoc,
        cons_append, nil_append]

/-- The loop prints the packages that are left. -/
theorem packagesLoop_text (packageNames : List String) (packageIndex : ℕ) (s : Printer)
    (hs : s.printedAPackage = true → 0 < packageIndex) :
    (packagesLoop p data packageIndex packageNames s).text =
      s.text ++
        if s.printedAPackage = true then
          ((packageNames.filterMap (printedPackage p data)).map (packageItem p)).flatMap
            ([',', '\n'] ++ ·)
        else [',', '\n'].intercalate
          ((packageNames.filterMap (printedPackage p data)).map (packageItem p)) := by
  induction packageNames generalizing packageIndex s with
  | nil => simp [packagesLoop]
  | cons packageName packageNames ih =>
    rw [packagesLoop]
    cases hprinted : printedPackage p data packageName with
    | none =>
      obtain ⟨htext, hflag⟩ := packageRound_of_none p data hprinted packageIndex s
      rw [ih _ _ fun _ => Nat.succ_pos packageIndex, htext, hflag, filterMap_cons,
        hprinted]
    | some k =>
      obtain ⟨htext, hflag⟩ := packageRound_of_some p data hprinted packageIndex s
      rw [ih _ _ fun _ => Nat.succ_pos packageIndex, htext, hflag, filterMap_cons,
        hprinted, if_pos rfl, map_cons]
      by_cases hflag : s.printedAPackage = true
      · rw [if_pos ⟨hs hflag, hflag⟩, if_pos hflag, flatMap_cons]
        simp only [append_assoc]
      · rw [if_neg (mt And.right hflag), if_neg hflag, intercalate_cons]
        simp only [append_assoc, nil_append]

def infoText : List Char :=
  '\x7b' :: '\n' :: ([',', '\n'].intercalate ((printedPackages p data).map (packageItem p)) ++
    '\n' :: ([] ++ ['\x7d']))

theorem doPrintInfo_eq : doPrintInfo p data = infoText p data ++ ['\n'] := by
  have hloop := packagesLoop_text p data (sortedPackages p data) 0 ⟨['\x7b', '\n'], false, false⟩
    (fun h => absurd h Bool.false_ne_true)
  rw [doPrintInfo, hloop, infoText, printedPackages]
  simp

theorem packageReadable_iff (marker : List Char) {k : String × List (String × StringMap VarDef)}
    (hk : k ∈ printedPackages p data) :
    (Plain k.1.toList ∧
      (∀ e, k.2.head? = some e → p.printed e = none → k.2.filterMap p.printed = []) ∧
        ∀ e ∈ k.2.filterMap p.printed, OnlyBreaks e.1.toList ∧
          (∀ varName, (p.varsToPrint e.2).head? = some varName → e.2.get varName = none →
            printedVars p e.2 = []) ∧
          ∀ v ∈ printedVars p e.2, Plain v.1.toList ∧ VarReadable marker v.1 v.2) ↔
      PackageReadable p marker k := by
  constructor
  · rintro ⟨hname, hfirst, hversions⟩
    refine ⟨hname, fun e he => ?_, fun e he hprinted => ?_⟩
    · by_contra hprinted
      exact exists_printed_of_mem hk (hfirst e he (printed_eq_none_iff.2 hprinted))
    · obtain ⟨hversion, hvar, hvars⟩ := hversions e (mem_filterMap_printed.2 ⟨he, hprinted⟩)
      exact ⟨hversion, hvar, hvars⟩
  · intro h
    refine ⟨h.name, fun e he hnone => absurd (h.first e he) (printed_eq_none_iff.1 hnone), ?_⟩
    intro e he
    obtain ⟨hmem, hprinted⟩ := mem_filterMap_printed.1 he
    have hread := h.versions e hmem hprinted
    exact ⟨hread.version, hread.first, hread.vars⟩

theorem printsIff_infoText (marker : List Char) :
    PrintsIff (infoText p data) (infoJson p data marker)
      (∀ k ∈ printedPackages p data, PackageReadable p marker k) := by
  have hobj := printsIff_obj (printedPackages p data)
    (fun k _ => spellsIff_self k.1.toList) (fun k _ => printsIff_packageText p marker k.2)
    (isBlank_of_mem_tabs (n := 1)) (fun c (hc : c ∈ []) => absurd hc not_mem_nil)
  exact hobj.iff (forall₂_congr fun k hk => packageReadable_iff p data marker hk)

theorem inBuffers_iff : InBuffers p data ↔ Fits p data :=
  forall₂_congr fun e _ =>
    escapePackageVariable_below_iff .json e.1.toList e.2 (by decide)

def linkless : PrintedData :=
  HashedMap.empty.set "gargoyle"
    (HashedMap.empty.set "1.0" (HashedMap.empty.set "Status" (.text "install ok".toList)))

def linkAndStatus : InfoParams where
  isMatching _ := true
  packageVariables := some ((HashedMap.empty.set "Link-Destination" ()).set "Status" ())
  onlyDest := none
  sortVersions := id
  sort_perm _ := .refl _

end Packages

end Info

section Linkless

local instance infoKernel : Kernel := referenceKernel 64

theorem linkless_text : doPrintInfo linkAndStatus linkless =
    '\x7b' :: '\n' :: (tabs 1 ++ memberText "gargoyle".toList
      ('\x7b' :: '\n' :: (tabs 2 ++ memberText "1.0".toList
        ('\x7b' :: '\n' :: ',' :: ('\n' :: (tabs 3 ++ memberText "Status".toList
          (quoted "install ok".toList ++ '\n' :: (tabs 2 ++ '\x7d' :: '\n' :: (tabs 1 ++
            ['\x7d', '\n', '\x7d', '\n']))))))))) := by
  decide +kernel

end Linkless

end Gpkg

end Gargoyle
