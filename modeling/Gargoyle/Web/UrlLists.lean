import Gargoyle.Firewall.Options

/-!
# Lists of addresses on the web

The form for restrictions has a table of addresses on the web. `setUciFromDocument` writes
the addresses of one type into one option, in quotes and with commas; the firewall takes the option
apart with `parse_quoted_list`, and the form with patterns of its own.

The form writes no backslash in front of a quote, since an address with quotes is refused. To the
firewall a backslash at the end of an address stands in front of a quote all the same.
-/

namespace Gargoyle

open List

namespace Web

open Firewall

/-! ## The table -/

def validateUrl (url : List Char) : ℕ :=
  if (url.any fun c => ['\n', '\r', '"', '\''].contains c) ∨ url.length = 0 then 1 else 0

inductive SpanNode
  | text (data : List Char)
  | br
  deriving DecidableEq

/-- `data` of a node. -/
def SpanNode.data : SpanNode → Option (List Char)
  | .text data => some data
  | .br => none

/-- The first loop of `createUrlSpan`. -/
def splitUrl (urlStr : List Char) : List (List Char) :=
  if urlStr = [] then []
  else
    let next := urlStr.take 30
    let rest := urlStr.drop 30
    (if rest.length > 0 then next ++ ['-'] else next) :: splitUrl rest
termination_by urlStr.length
decreasing_by
  have := length_pos_of_ne_nil ‹urlStr ≠ []›
  rw [length_drop]
  omega

def createUrlSpan (urlStr : List Char) : List SpanNode :=
  ((splitUrl urlStr).map SpanNode.text).intersperse .br

/-- The loop of `parseUrlSpan`. -/
def parseChildren : ℕ → List SpanNode → Option (List Char)
  | _, [] => some []
  | i, child :: children =>
    if i % 2 = 0 then do
      let nextStr ← child.data
      let nextStr := if children.length > 0 then nextStr.dropLast else nextStr
      (nextStr ++ ·) <$> parseChildren (i + 1) children
    else parseChildren (i + 1) children

def parseUrlSpan (urlSpan : List SpanNode) : Option (List Char) := parseChildren 0 urlSpan

structure UrlRow where
  part : List Char
  expr : List Char
  span : List SpanNode

def urlCells : UrlVar → List Char × List Char
  | .contains => ("full".toList, "contains".toList)
  | .regex => ("full".toList, "regex".toList)
  | .exact => ("full".toList, "exact".toList)
  | .domainContains => ("domain".toList, "contains".toList)
  | .domainRegex => ("domain".toList, "regex".toList)
  | .domainExact => ("domain".toList, "exact".toList)

/-- The row that `addUrlToTable` adds. -/
def urlRow (var : UrlVar) (url : List Char) : UrlRow :=
  ⟨(urlCells var).1, (urlCells var).2, createUrlSpan url⟩

/-! ## The writer -/

/-- `urlId` of a row. -/
def UrlRow.urlId (row : UrlRow) : List Char :=
  (if "domain".toList <:+: row.part then "url_domain_".toList else "url_".toList) ++ row.expr

def quoted (urlStr : List Char) : List Char := '"' :: (urlStr ++ ['"'])

/-- A round of the loop over the rows, which builds `urlDefStrings`. -/
def addUrlDef (defs : List Char → Option (List Char)) (row : UrlRow) :
    Option (List Char → Option (List Char)) := do
  let urlStr ← parseUrlSpan row.span
  some fun id =>
    if id = row.urlId then
      some (match defs id with
        | some text => text ++ ',' :: quoted urlStr
        | none => quoted urlStr)
    else defs id

/-- `urlDefStrings` after the loop. -/
def urlDefStrings (rows : List UrlRow) : Option (List Char → Option (List Char)) :=
  rows.foldlM addUrlDef fun _ => none

def urlIds : List (List Char) :=
  ["url_", "url_domain_"].flatMap fun part =>
    ["exact", "contains", "regex"].map fun expr => part.toList ++ expr.toList

/-- The options for addresses that `setUciFromDocument` sets. -/
def setUrlOptions (except : Bool) (rows : List UrlRow) : Option (List (List Char × List Char)) := do
  let defs ← urlDefStrings rows
  let urlPrefix := if except then "not_".toList else []
  some (urlIds.filterMap fun id => (defs id).map fun text => (urlPrefix ++ id, text))

/-! ## The reader of the form -/

/-- `[\t, ]`. -/
def isSeparator (c : Char) : Bool := c ∈ ['\t', ',', ' ']

/-- `[\t ]`. -/
def isBlank (c : Char) : Bool := c ∈ ['\t', ' ']

/-- `replace(/^[\t ]*\"/, "")`. -/
def dropFirstQuote (str : List Char) : List Char :=
  match str.dropWhile isBlank with
  | '"' :: rest => rest
  | _ => str

/-- `replace(/\"[\t ]*$/, "")`. -/
def dropLastQuote (str : List Char) : List Char :=
  match (str.reverse.dropWhile isBlank) with
  | '"' :: rest => rest.reverse
  | _ => str

/-- `match(/\".*\"/)`: two quotes on one line. -/
def hasQuotes (str : List Char) : Bool :=
  str.tails.any fun tail =>
    match tail with
    | '"' :: rest => '"' ∈ rest.takeWhile (· ∉ ['\n', '\r', '\u2028', '\u2029'])
    | _ => false

/-- `split(/\"[\t, ]*\"/)`, where `piece` is the text since the last separator. -/
def splitQuotes (piece : List Char) (str : List Char) : List (List Char) :=
  match str with
  | [] => [piece]
  | c :: cs =>
    if c = '"' ∧ (cs.dropWhile isSeparator).head? = some '"' then
      piece :: splitQuotes [] (cs.dropWhile isSeparator).tail
    else splitQuotes (piece ++ [c]) cs
termination_by str.length
decreasing_by
  · have := (dropWhile_suffix isSeparator (l := cs)).length_le
    rw [length_tail, length_cons]
    omega
  · simp

/-- The addresses of an option in `setDocumentFromUci`. -/
def readUrls (defStr : List Char) : List (List Char) :=
  let defStr := dropLastQuote (dropFirstQuote defStr)
  if hasQuotes defStr then splitQuotes [] defStr else [defStr]

/-! ## The table comes back -/

/-- A URL is read back from its element. -/
theorem parseChildren_span (u : List Char) (i : ℕ) :
    parseChildren (2 * i) (createUrlSpan u) = some u := by
  unfold createUrlSpan
  induction u using splitUrl.induct generalizing i with
  | case1 =>
    rw [splitUrl, if_pos rfl]
    rfl
  | case2 u hne rest ih =>
    have heven : 2 * i % 2 = 0 := by omega
    have hodd : (2 * i + 1) % 2 ≠ 0 := by omega
    rw [splitUrl, if_neg hne, map_cons]
    by_cases hrest : u.drop 30 = []
    · have htake : u.take 30 = u := by
        rw [drop_eq_nil_iff] at hrest
        exact take_of_length_le hrest
      rw [hrest, splitUrl, if_pos rfl, htake]
      simp [parseChildren, SpanNode.data, heven]
    · have hpos : 0 < (u.drop 30).length := length_pos_of_ne_nil hrest
      have ih := ih (i + 1)
      obtain ⟨v, vs, hsplit⟩ : ∃ v vs, splitUrl (u.drop 30) = v :: vs := by
        rw [splitUrl, if_neg hrest]
        exact ⟨_, _, rfl⟩
      simp only [rest, hsplit, map_cons] at ih ⊢
      rw [intersperse_cons_cons, parseChildren, if_pos heven, if_pos hpos, parseChildren,
        if_neg hodd, show 2 * i + 1 + 1 = 2 * (i + 1) by omega, ih]
      simp [SpanNode.data]

theorem parseUrlSpan_createUrlSpan (u : List Char) : parseUrlSpan (createUrlSpan u) = some u :=
  parseChildren_span u 0

/-! ## The text of an option -/

def optionText (us : List (List Char)) : List Char := [','].intercalate (us.map quoted)

theorem optionText_append_singleton {us : List (List Char)} (hne : us ≠ []) (u : List Char) :
    optionText (us ++ [u]) = optionText us ++ ',' :: quoted u := by
  induction us with
  | nil => exact absurd rfl hne
  | cons v us ih =>
    cases us with
    | nil => simp [optionText, List.intercalate]
    | cons w us =>
      have ih := ih (by simp)
      simp only [optionText, cons_append, map_cons, Timerange.intercalate_cons_cons,
        append_assoc] at ih ⊢
      rw [ih]

def urlId (var : UrlVar) : List Char := (urlRow var []).urlId

theorem urlId_injective : Function.Injective urlId := by
  intro var var' h
  cases var <;> cases var' <;> first | rfl | exact absurd h (by decide)

def urlsOf (var : UrlVar) (entries : List (UrlVar × List Char)) : List (List Char) :=
  (entries.filter (·.1 = var)).map Prod.snd

theorem addUrlDef_urlRow (defs : List Char → Option (List Char)) (var : UrlVar)
    (url : List Char) :
    addUrlDef defs (urlRow var url) = some fun id =>
      if id = urlId var then
        some (match defs id with
          | some text => text ++ ',' :: quoted url
          | none => quoted url)
      else defs id := by
  simp only [addUrlDef, urlRow, parseUrlSpan_createUrlSpan, Option.bind_eq_bind, Option.bind_some]
  rfl

theorem urlDefStrings_table (entries : List (UrlVar × List Char)) :
    ∃ defs, urlDefStrings (entries.map fun e => urlRow e.1 e.2) = some defs ∧
      ∀ var, defs (urlId var) =
        if urlsOf var entries = [] then none else some (optionText (urlsOf var entries)) := by
  induction entries using List.reverseRecOn with
  | nil => exact ⟨_, rfl, fun var => rfl⟩
  | append_singleton entries e ih =>
    obtain ⟨defs, hdefs, htext⟩ := ih
    rw [urlDefStrings, map_append, foldlM_append, ← urlDefStrings, hdefs]
    refine ⟨_, (by simp only [map_cons, map_nil, foldlM_cons, foldlM_nil,
      addUrlDef_urlRow, Option.bind_eq_bind, Option.bind_some, Option.pure_def]; rfl),
      fun var => ?_⟩
    by_cases hvar : e.1 = var
    · have hurls : urlsOf var (entries ++ [e]) = urlsOf var entries ++ [e.2] := by
        simp [urlsOf, hvar]
      rw [hvar, if_pos rfl, htext, hurls]
      by_cases hnil : urlsOf var entries = []
      · simp [hnil, optionText, List.intercalate]
      · rw [if_neg hnil, if_neg (by simp), optionText_append_singleton hnil]
    · have hurls : urlsOf var (entries ++ [e]) = urlsOf var entries := by
        simp [urlsOf, hvar]
      rw [if_neg fun h => hvar (urlId_injective h).symm, htext, hurls]

theorem mem_urlIds (var : UrlVar) : urlId var ∈ urlIds := by
  cases var <;> decide

theorem mem_setUrlOptions (except : Bool) {entries : List (UrlVar × List Char)} {var : UrlVar}
    (h : urlsOf var entries ≠ []) :
    ∃ options, setUrlOptions except (entries.map fun e => urlRow e.1 e.2) = some options ∧
      ((if except then "not_".toList else []) ++ urlId var, optionText (urlsOf var entries)) ∈
        options := by
  obtain ⟨defs, hdefs, htext⟩ := urlDefStrings_table entries
  refine ⟨_, by rw [setUrlOptions, hdefs]; rfl, ?_⟩
  refine List.mem_filterMap.2 ⟨urlId var, mem_urlIds var, ?_⟩
  rw [htext, if_neg h, Option.map_some]

/-! ## The reader of the form -/

section Reader

variable {us : List (List Char)}

def Unquoted (us : List (List Char)) : Prop := ∀ u ∈ us, '"' ∉ u

theorem optionText_cons_cons (u v : List Char) (us : List (List Char)) :
    optionText (u :: v :: us) = '"' :: (u ++ '"' :: ',' :: optionText (v :: us)) := by
  simp [optionText, quoted]

theorem optionText_singleton (u : List Char) : optionText [u] = quoted u := by
  simp [optionText, List.intercalate]

def inner : List (List Char) → List Char
  | [] => []
  | [u] => u
  | u :: v :: us => u ++ '"' :: ',' :: '"' :: inner (v :: us)

theorem optionText_eq_inner (u : List Char) (us : List (List Char)) :
    optionText (u :: us) = '"' :: (inner (u :: us) ++ ['"']) := by
  induction us generalizing u with
  | nil => simp [optionText_singleton, quoted, inner]
  | cons v us ih => rw [optionText_cons_cons, ih]; simp [inner]

theorem dropFirstQuote_cons (t : List Char) : dropFirstQuote ('"' :: t) = t := by
  simp [dropFirstQuote, isBlank]

theorem dropLastQuote_concat (t : List Char) : dropLastQuote (t ++ ['"']) = t := by
  simp [dropLastQuote, isBlank]

theorem splitQuotes_append {u : List Char} (hu : '"' ∉ u) (piece rest : List Char) :
    splitQuotes piece (u ++ rest) = splitQuotes (piece ++ u) rest := by
  induction u generalizing piece with
  | nil => simp
  | cons c u ih =>
    rw [mem_cons, not_or] at hu
    rw [cons_append, splitQuotes, if_neg fun h => hu.1 h.1.symm, ih hu.2]
    simp

theorem splitQuotes_inner (h : Unquoted us) (hne : us ≠ []) : splitQuotes [] (inner us) = us := by
  induction us with
  | nil => exact absurd rfl hne
  | cons u us ih =>
    obtain ⟨hu, hus⟩ := List.forall_mem_cons.1 h
    cases us with
    | nil =>
      have happend := splitQuotes_append hu [] []
      rw [List.append_nil, nil_append] at happend
      rw [inner, happend, splitQuotes]
    | cons v us =>
      rw [inner, splitQuotes_append hu, splitQuotes, if_pos (by simp [isSeparator])]
      simp only [nil_append]
      have hrest : (List.dropWhile isSeparator (',' :: '"' :: inner (v :: us))).tail =
          inner (v :: us) := by simp [isSeparator]
      rw [hrest, ih hus (by simp)]

theorem hasQuotes_of_notMem {t : List Char} (h : '"' ∉ t) : hasQuotes t = false := by
  rw [hasQuotes, any_eq_false]
  intro tail htail
  split
  · next rest => exact absurd (((mem_tails _ _).1 htail).subset mem_cons_self) h
  · exact Bool.false_ne_true

theorem hasQuotes_inner (u v : List Char) (us : List (List Char)) :
    hasQuotes (inner (u :: v :: us)) = true := by
  rw [hasQuotes, any_eq_true]
  refine ⟨'"' :: ',' :: '"' :: inner (v :: us), ?_, ?_⟩
  · exact (mem_tails _ _).2 ⟨u, rfl⟩
  · simp

theorem readUrls_optionText (h : Unquoted us) (hne : us ≠ []) : readUrls (optionText us) = us := by
  cases us with
  | nil => exact absurd rfl hne
  | cons u us =>
    simp only [readUrls, optionText_eq_inner, dropFirstQuote_cons, dropLastQuote_concat]
    cases us with
    | nil =>
      obtain ⟨hu, -⟩ := List.forall_mem_cons.1 h
      rw [inner, hasQuotes_of_notMem hu, if_neg Bool.false_ne_true]
    | cons v us => rw [hasQuotes_inner, if_pos rfl, splitQuotes_inner h hne]

end Reader

/-! ## The firewall -/

section Firewall

variable {us : List (List Char)}

def endEscapes (u : List Char) : ℕ := (u.reverse.takeWhile (· = '\\')).length

def escapedBehind (previousIsQuoted : Bool) (u : List Char) : Bool :=
  u.foldl (fun previousIsQuoted c => c = '\\' ∧ previousIsQuoted = false) previousIsQuoted

theorem endEscapes_append_singleton (u : List Char) (c : Char) :
    endEscapes (u ++ [c]) = if c = '\\' then endEscapes u + 1 else 0 := by
  rw [endEscapes, reverse_append, reverse_singleton, singleton_append,
    takeWhile_cons]
  by_cases hc : c = '\\'
  · rw [if_pos (by simpa using hc), if_pos hc, length_cons, endEscapes]
  · rw [if_neg (by simpa using hc), if_neg hc, length_nil]

theorem escapedBehind_append_singleton (prev : Bool) (u : List Char) (c : Char) :
    escapedBehind prev (u ++ [c]) = decide (c = '\\' ∧ escapedBehind prev u = false) := by
  simp [escapedBehind]

theorem escapedBehind_eq_false_iff (u : List Char) :
    escapedBehind false u = false ↔ Even (endEscapes u) := by
  induction u using List.reverseRecOn with
  | nil => simp [escapedBehind, endEscapes]
  | append_singleton u c ih =>
    rw [escapedBehind_append_singleton, endEscapes_append_singleton, decide_eq_false_iff_not]
    split_ifs with hc
    · rw [Nat.even_add_one, ← ih, and_iff_right hc]
    · simp [hc]

theorem quotedPieces_append {u : List Char} (hu : '"' ∉ u) (piece : List Char) (prev : Bool)
    (rest : List Char) :
    quotedPieces '"' '\\' (some piece) prev (u ++ rest) =
      quotedPieces '"' '\\' (some (piece ++ u)) (escapedBehind prev u) rest := by
  induction u generalizing piece prev with
  | nil => simp [escapedBehind]
  | cons c u ih =>
    rw [mem_cons, not_or] at hu
    rw [cons_append, quotedPieces, if_neg fun h => hu.1 h.1.symm, Option.map_some, ih hu.2]
    simp [escapedBehind]

theorem quotedPieces_comma (t : List Char) :
    quotedPieces '"' '\\' none false (',' :: t) = quotedPieces '"' '\\' none false t := by
  simp [quotedPieces]

theorem quotedPieces_open (t : List Char) :
    quotedPieces '"' '\\' none false ('"' :: t) = quotedPieces '"' '\\' (some []) false t := by
  simp [quotedPieces]

theorem quotedPieces_close (piece t : List Char) :
    quotedPieces '"' '\\' (some piece) false ('"' :: t) =
      piece :: quotedPieces '"' '\\' none false t := by
  simp [quotedPieces]

theorem quotedPieces_escaped (piece t : List Char) :
    quotedPieces '"' '\\' (some piece) true ('"' :: t) =
      quotedPieces '"' '\\' (some (piece ++ ['"'])) false t := by
  simp [quotedPieces]

theorem quotedPieces_quoted {u : List Char} (hu : '"' ∉ u) (t : List Char) :
    quotedPieces '"' '\\' none false ('"' :: (u ++ '"' :: t)) =
      if Even (endEscapes u) then u :: quotedPieces '"' '\\' none false t
      else quotedPieces '"' '\\' (some (u ++ ['"'])) false t := by
  rw [quotedPieces_open, quotedPieces_append hu, nil_append]
  split_ifs with heven
  · rw [(escapedBehind_eq_false_iff u).2 heven, quotedPieces_close]
  · rw [← escapedBehind_eq_false_iff, Bool.not_eq_false] at heven
    rw [heven, quotedPieces_escaped]

/-- When the URLs of an option are read back. -/
theorem quotedPieces_optionText_iff (h : Unquoted us) :
    quotedPieces '"' '\\' none false (optionText us) = us ↔
      ∀ u ∈ us, Even (endEscapes u) := by
  induction us with
  | nil => simp [optionText, quotedPieces, List.intercalate]
  | cons u us ih =>
    obtain ⟨hu, hus⟩ := List.forall_mem_cons.1 h
    cases us with
    | nil =>
      rw [optionText_singleton, quoted, quotedPieces_quoted hu]
      split_ifs with heven
      · simp [quotedPieces, heven]
      · simpa [quotedPieces] using heven
    | cons v us =>
      rw [optionText_cons_cons, quotedPieces_quoted hu, forall_mem_cons, ← ih hus]
      split_ifs with heven
      · rw [quotedPieces_comma]
        simp [heven]
      · -- the piece goes on up to the quote in front of the next address
        have hnext : quotedPieces '"' '\\' (some (u ++ ['"'])) false
            (',' :: optionText (v :: us)) = (u ++ ['"', ',']) ::
              quotedPieces '"' '\\' none false (inner (v :: us) ++ ['"']) := by
          rw [optionText_eq_inner]
          simp [quotedPieces]
        rw [hnext]
        simp [heven]

theorem parseQuotedList_optionText_iff (h : Unquoted us) (hne : us ≠ []) :
    parseQuotedList (optionText us) '"' '\\' = us.map String.ofList ↔
      ∀ u ∈ us, Even (endEscapes u) := by
  rw [← quotedPieces_optionText_iff h, parseQuotedList]
  have hinj : Function.Injective (List.map String.ofList) :=
    List.map_injective_iff.2 fun s t hst => String.ofList_injective hst
  split
  · next hnil =>
      rw [hnil]
      constructor
      · intro hone
        obtain ⟨u, rfl⟩ : ∃ u, us = [u] := by
          apply List.length_eq_one_iff.1
          simpa using (congrArg List.length hone).symm
        rw [optionText_singleton, map_singleton, singleton_inj] at hone
        have hlength := congrArg List.length (String.ofList_injective hone)
        simp only [quoted, length_cons, length_append, length_nil] at hlength
        omega
      · intro hnil'
        exact absurd hnil'.symm hne
  · next pieces hpieces =>
      exact hinj.eq_iff

end Firewall

/-! ## From the form to the rule -/

theorem unquoted_of_valid {url : List Char} (h : validateUrl url = 0) : '"' ∉ url := by
  rw [validateUrl, ite_eq_right_iff] at h
  intro hmem
  exact one_ne_zero (h (Or.inl (List.any_eq_true.2 ⟨'"', hmem, by decide⟩)))

/-- The addresses of one type in the table of the form are an option that the form reads as these
addresses, and the firewall does too exactly if none of them ends with an odd number of
backslashes. -/
theorem urlLists_survive_iff {entries : List (UrlVar × List Char)}
    (hvalid : ∀ e ∈ entries, validateUrl e.2 = 0) {var : UrlVar} (hne : urlsOf var entries ≠ [])
    (except : Bool) :
    ∃ options text, setUrlOptions except (entries.map fun e => urlRow e.1 e.2) = some options ∧
      ((if except then "not_".toList else []) ++ urlId var, text) ∈ options ∧
      ((parseQuotedList text '"' '\\' = (urlsOf var entries).map String.ofList ∧
          readUrls text = urlsOf var entries) ↔
        ∀ u ∈ urlsOf var entries, Even (endEscapes u)) := by
  have hunquoted : Unquoted (urlsOf var entries) := by
    intro u hu
    obtain ⟨e, he, rfl⟩ := List.mem_map.1 hu
    exact unquoted_of_valid (hvalid e (List.mem_filter.1 he).1)
  obtain ⟨options, hset, hmem⟩ := mem_setUrlOptions except hne
  refine ⟨options, _, hset, hmem, ?_⟩
  rw [and_iff_left (readUrls_optionText hunquoted hne)]
  exact parseQuotedList_optionText_iff hunquoted hne

/-- The expression `a\.b` and another address come through. -/
theorem escaped_point_survives :
    ∃ options text, setUrlOptions true ([(.domainRegex, "a\\.b".toList),
        (.domainRegex, "c, d".toList)].map fun e => urlRow e.1 e.2) = some options ∧
      ("not_".toList ++ urlId .domainRegex, text) ∈ options ∧
      parseQuotedList text '"' '\\' = ["a\\.b", "c, d"] ∧
      readUrls text = ["a\\.b".toList, "c, d".toList] := by
  have hvalid : ∀ e ∈ [(UrlVar.domainRegex, "a\\.b".toList), (.domainRegex, "c, d".toList)],
      validateUrl e.2 = 0 := by decide
  obtain ⟨options, text, hset, hmem, hiff⟩ :=
    urlLists_survive_iff hvalid (by decide : urlsOf .domainRegex _ ≠ []) true
  obtain ⟨hparse, hread⟩ := hiff.2 (by decide)
  exact ⟨options, text, hset, hmem, hparse, hread⟩

/-- Of `a\` and `b` the firewall makes one address. -/
theorem last_backslash_lost :
    validateUrl "a\\".toList = 0 ∧ validateUrl "b".toList = 0 ∧
      setUrlOptions false ([(.contains, "a\\".toList), (.contains, "b".toList)].map
        fun e => urlRow e.1 e.2) = some [("url_contains".toList, "\"a\\\",\"b\"".toList)] ∧
      parseQuotedList "\"a\\\",\"b\"".toList '"' '\\' = ["a\\\","] := by
  decide +kernel

end Web

end Gargoyle
