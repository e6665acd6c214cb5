import Gargoyle.Data.CText
import Gargoyle.EricsTools.SplitOnSeparators

/-!
# The addresses that tell the own address

`get_local_ip` looks its address up at the configured URLs, one after the other, and then at those that
the program brings along. A list is rotated with each look, so that the next one begins behind it. The
lists of the program end with an empty text and `NULL`; the configured list is made by
`split_on_separators` and ends with `NULL`.

A list is an array of pointers to blocks of memory. A function is `none`, or `fault`, where it reads or
writes outside of a block or follows `NULL`.
-/

namespace Gargoyle

open List

namespace Ddns

namespace LookupUrls

open CText EricsTools MemoryBlock Runs

/-- `MAX_LOOKUP_URL_LENGTH`. -/
def maxLookupUrlLength : ℕ := 65

abbrev Urls := MemoryBlock CharPointer

def urlAt (urls : Urls) (i : ℕ) : Option (List UInt8) :=
  (urls.read i).bind fun pointer => pointer.bind text

/-- `strcpy(urls[i], s)`. -/
def copyTo (urls : Urls) (i : ℕ) (s : List UInt8) : Option Urls :=
  (urls.read i).bind fun pointer => pointer.bind fun block =>
    (block.strcpy 0 s).bind fun block => urls.write i (some block)

/-- The loop of `get_next_url_and_rotate`, with so many elements from the next one to the end of the
array. -/
def rotateLoop : ℕ → ℕ → Urls → Option (ℕ × Urls)
  | 0, _, _ => none
  | left + 1, urlIndex, urls =>
    (urls.read (urlIndex + 1)).bind fun pointer => pointer.bind fun block =>
      (block.read 0).bind fun c =>
        if c ≠ 0 then
          (urlAt urls (urlIndex + 1)).bind fun s =>
            (copyTo urls urlIndex s).bind fun urls => rotateLoop left (urlIndex + 1) urls
        else some (urlIndex, urls)

/-- `get_next_url_and_rotate`, with the index of the URL that is returned. -/
def getNextUrlAndRotate (urls : Urls) : Option (ℕ × Urls) :=
  (urlAt urls 0).bind fun first =>
    ((alloc maxLookupUrlLength).strcpy 0 first).bind fun next =>
      (rotateLoop (urls.length - 1) 0 urls).bind fun rotated =>
        next.text.bind fun next =>
          (copyTo rotated.2 rotated.1 next).map fun urls => (rotated.1, urls)

/-- How a run ends. It is `unfinished` if the loop has not ended after so many rounds. -/
inductive Run (α : Type*)
  | fault
  | unfinished
  | done (result : α)

structure Looked (Ip : Type*) where
  ip : Option Ip
  urls : Urls
  looks : ℕ
  tried : List (List UInt8)

section Model

variable {Ip : Type*} (results : ℕ → Option Ip)

/-- The loop over the URLs. `results` has the result of each look. -/
def lookupLoop (firstUrl : List UInt8) : ℕ → Bool → ℕ → Urls → ℕ → List (List UInt8) → Run (Looked Ip)
  | 0, _, _, _, _, _ => .unfinished
  | rounds + 1, isFirstLookup, nextUrl, urls, looks, tried =>
    match urlAt urls nextUrl with
    | none => .fault
    | some url =>
      if firstUrl ≠ url ∨ isFirstLookup = true then
        match results looks with
        | some ip => .done ⟨some ip, urls, looks + 1, tried ++ [url]⟩
        | none =>
          match getNextUrlAndRotate urls with
          | none => .fault
          | some (nextUrl, urls) =>
            lookupLoop firstUrl rounds false nextUrl urls (looks + 1) (tried ++ [url])
      else .done ⟨none, urls, looks, tried⟩

def lookupList (rounds looks : ℕ) (urls : Urls) : Run (Looked Ip) :=
  match getNextUrlAndRotate urls with
  | none => .fault
  | some (nextUrl, urls) =>
    match (urlAt urls nextUrl).bind fun url =>
      ((alloc maxLookupUrlLength).strcpy 0 url).bind text with
    | none => .fault
    | some firstUrl => lookupLoop results firstUrl rounds true nextUrl urls looks []

/-- What is left by a call of `get_local_ip`: the address, the two lists, and the URLs that were looked
up. -/
structure LocalIp (Ip : Type*) where
  ip : Option Ip
  urls : Option Urls
  defaults : Urls
  tried : List (List UInt8)
  defaultTried : List (List UInt8)

/-- `get_local_ip` for `INTERNET`. The list of the program is the one for the kind of the address. -/
def getLocalIp (rounds : ℕ) (urls : Option Urls) (defaults : Urls) : Run (LocalIp Ip) :=
  let configured : Run (Option Ip × Option Urls × ℕ × List (List UInt8)) :=
    match urls with
    | none => .done (none, none, 0, [])
    | some urls =>
      match lookupList results rounds 0 urls with
      | .fault => .fault
      | .unfinished => .unfinished
      | .done looked => .done (looked.ip, some looked.urls, looked.looks, looked.tried)
  match configured with
  | .fault => .fault
  | .unfinished => .unfinished
  | .done (some ip, urls, _, tried) => .done ⟨some ip, urls, defaults, tried, []⟩
  | .done (none, urls, looks, tried) =>
    match lookupList results rounds looks defaults with
    | .fault => .fault
    | .unfinished => .unfinished
    | .done looked => .done ⟨looked.ip, urls, looked.urls, tried, looked.tried⟩

end Model

/-- `initialize_default_ip_lookup_urls`: a block of the same size for each URL and for the empty text
behind them, and `NULL`. -/
def initializeDefaultIpLookupUrls (data : List (List UInt8)) : Option Urls :=
  let blocks : Option (List (MemoryBlock UInt8)) :=
    (data ++ [[]]).mapM fun url => (alloc maxLookupUrlLength).strcpy 0 url
  blocks.map fun blocks => blocks.map (fun block => some (some block)) ++ [some none]

/-- The separators of `load_service_configurations`: tab and blank. -/
def whitespaceSeparators : List UInt8 := [9, 32]

/-- The list that `load_service_configurations` makes of the option `ip_url`. -/
def loadIpUrl (value : List UInt8) : Option Urls :=
  (splitOnSeparators whitespaceSeparators (some value) (-1) 0).map Prod.snd

def configuredUrls (value : List UInt8) : List (List UInt8) := runs (· ∈ whitespaceSeparators) value

/-- The texts of a list up to `NULL`. -/
def textsOf : Urls → Option (List (List UInt8))
  | some (some block) :: urls => block.text.bind fun url => (textsOf urls).map (url :: ·)
  | some none :: _ => some []
  | _ => none

/-- Some calls of `get_local_ip`, one after the other. Each has results of its own. -/
def Calls {Ip : Type*} : List (ℕ → Option Ip) → Urls → Urls → List (LocalIp Ip) → Prop
  | [], _, _, found => found = []
  | results :: calls, urls, defaults, found =>
    ∃ rounds first rest urls', getLocalIp results rounds (some urls) defaults = .done first ∧
      first.urls = some urls' ∧ found = first :: rest ∧ Calls calls urls' first.defaults rest

/-- What some calls should do for an option: they end without a fault, the list of the program is only
used when all configured URLs have been tried, and the list still has the same URLs after each call. -/
def Meets {Ip : Type*} (value : List UInt8) (data : List (List UInt8))
    (calls : List (ℕ → Option Ip)) : Prop :=
  ∃ urls defaults found, loadIpUrl value = some urls ∧
    initializeDefaultIpLookupUrls data = some defaults ∧ Calls calls urls defaults found ∧
    ∀ call ∈ found,
      (call.defaultTried ≠ [] → ∀ url ∈ configuredUrls value, url ∈ call.tried) ∧
        ∃ urls' texts, call.urls = some urls' ∧ textsOf urls' = some texts ∧
          texts.Perm (configuredUrls value)

section Configured

/-- The elements of a list behind a place: URLs that are not empty, and `NULL`. -/
def EndsWithNull (urls : Urls) (i : ℕ) (n : ℕ) : Prop :=
  (∀ j, i < j → j < n → ∃ c s, c ≠ 0 ∧ urls.read j = some (some (stringOf (c :: s)))) ∧
    urls.read n = some none

theorem EndsWithNull.copyTo {urls urls' : Urls} {i n : ℕ} (h : EndsWithNull urls i n) (hi : i < n)
    {s : List UInt8} (hcopy : copyTo urls i s = some urls') : EndsWithNull urls' i n := by
  have hsame : ∀ j, j ≠ i → urls'.read j = urls.read j := by
    intro j hj
    rw [LookupUrls.copyTo, Option.bind_eq_some_iff] at hcopy
    obtain ⟨pointer, -, hcopy⟩ := hcopy
    rw [Option.bind_eq_some_iff] at hcopy
    obtain ⟨block, -, hcopy⟩ := hcopy
    rw [Option.bind_eq_some_iff] at hcopy
    obtain ⟨block', -, hcopy⟩ := hcopy
    exact read_of_write hcopy hj
  constructor
  · intro j hij hjn
    rw [hsame j (by omega)]
    exact h.1 j hij hjn
  · rw [hsame n (by omega)]
    exact h.2

theorem rotateLoop_eq_none {left i n : ℕ} {urls : Urls} (h : EndsWithNull urls i n) (hi : i < n) :
    rotateLoop left i urls = none := by
  induction left generalizing i urls with
  | zero => rfl
  | succ left ih =>
    rw [rotateLoop]
    rcases Nat.lt_or_ge (i + 1) n with hlt | hge
    · obtain ⟨c, s, hc, hread⟩ := h.1 (i + 1) (Nat.lt_succ_self i) hlt
      have hfirst : (stringOf (c :: s)).read 0 = some c := rfl
      rw [hread, Option.bind_some, Option.bind_some, hfirst, Option.bind_some, if_pos hc]
      cases urlAt urls (i + 1) with
      | none => rfl
      | some url =>
        rw [Option.bind_some]
        cases hcopy : copyTo urls i url with
        | none => rfl
        | some urls' =>
          have hrest := h.copyTo hi hcopy
          rw [Option.bind_some]
          exact ih ⟨fun j hj => hrest.1 j (by omega), hrest.2⟩ hlt
    · obtain rfl : n = i + 1 := by omega
      rw [h.2]
      rfl

/-- The configured list has no empty text in front of `NULL`. -/
theorem endsWithNull_of_loadIpUrl {value : List UInt8} {urls : Urls} (hzero : 0 ∉ value)
    (h : loadIpUrl value = some urls) : EndsWithNull urls 0 (configuredUrls value).length := by
  have hsep : whitespaceSeparators ≠ [] := by decide
  obtain ⟨split, hsplit, hholds⟩ := splitOnSeparators_neg hsep value (by decide : (-1 : ℤ) < 0) 0
  rw [loadIpUrl, hsplit, Option.map_some, Option.some.injEq] at h
  subst h
  have hpieces : ∀ piece ∈ configuredUrls value, piece ≠ [] ∧ 0 ∉ piece :=
    fun piece hmem => ⟨(mem_runs hmem).1, fun hin => hzero ((mem_runs hmem).2 hin)⟩
  rw [← configuredUrls] at hholds
  generalize configuredUrls value = pieces at hholds hpieces
  constructor
  · intro j _ hj
    obtain ⟨c, s, hcons⟩ := exists_cons_of_ne_nil (hpieces _ (getElem_mem hj)).1
    have hc : c ≠ 0 := by
      rintro rfl
      exact (hpieces _ (getElem_mem hj)).2 (hcons ▸ mem_cons_self)
    have hcut : slots pieces = (pieces.take j).map (some ∘ stringOf) ++
        some (stringOf pieces[j]) :: ((pieces.drop (j + 1)).map (some ∘ stringOf) ++ [none]) := by
      conv_lhs => rw [slots, ← take_append_drop j pieces, drop_eq_getElem_cons hj]
      rw [map_append, append_assoc]
      rfl
    rw [hcut] at hholds
    have hread := hholds.read_append_cons
    rw [length_map, length_take_of_le hj.le, hcons] at hread
    exact ⟨c, s, hc, hread⟩
  · rw [slots] at hholds
    have hread := hholds.read_append_cons
    rwa [length_map] at hread

theorem getNextUrlAndRotate_eq_none {n : ℕ} {urls : Urls} (h : EndsWithNull urls 0 n) (hn : 0 < n) :
    getNextUrlAndRotate urls = none := by
  rw [getNextUrlAndRotate]
  cases urlAt urls 0 with
  | none => rfl
  | some first =>
    rw [Option.bind_some]
    cases (alloc maxLookupUrlLength).strcpy 0 first with
    | none => rfl
    | some next =>
      rw [Option.bind_some, rotateLoop_eq_none h hn]
      rfl

theorem getLocalIp_eq_fault {Ip : Type*} {n : ℕ} {urls : Urls} (h : EndsWithNull urls 0 n)
    (hn : 0 < n) (results : ℕ → Option Ip) (rounds : ℕ) (defaults : Urls) :
    getLocalIp results rounds (some urls) defaults = .fault := by
  rw [getLocalIp]
  simp only [lookupList, getNextUrlAndRotate_eq_none h hn]

theorem not_calls {Ip : Type*} {value : List UInt8} (hzero : 0 ∉ value)
    (hurls : configuredUrls value ≠ []) {urls : Urls} (hload : loadIpUrl value = some urls)
    (defaults : Urls) (results : ℕ → Option Ip) (calls : List (ℕ → Option Ip))
    (found : List (LocalIp Ip)) : ¬Calls (results :: calls) urls defaults found := by
  rintro ⟨rounds, first, rest, urls', hfirst, -⟩
  have hnull := endsWithNull_of_loadIpUrl hzero hload
  rw [getLocalIp_eq_fault hnull (List.length_pos_iff.2 hurls)] at hfirst
  cases hfirst

/-- No call for an option with a URL ends as it should, whatever is looked up. -/
theorem not_meets {Ip : Type*} (value : List UInt8) (hzero : 0 ∉ value)
    (hurls : configuredUrls value ≠ []) (data : List (List UInt8)) (results : ℕ → Option Ip)
    (calls : List (ℕ → Option Ip)) : ¬Meets value data (results :: calls) := by
  rintro ⟨urls, defaults, found, hload, -, hcalls, -⟩
  exact not_calls hzero hurls hload defaults results calls found hcalls

/-- One URL, which is looked up with success. -/
theorem not_meets_one :
    0 ∉ bytes "http://a" ∧ configuredUrls (bytes "http://a") ≠ [] ∧
      ¬Meets (bytes "http://a") [bytes "http://b"] [fun _ => some (bytes "1.2.3.4")] := by
  have hzero : 0 ∉ bytes "http://a" := by decide
  have hurls : configuredUrls (bytes "http://a") ≠ [] := by decide
  exact ⟨hzero, hurls, not_meets (bytes "http://a") hzero hurls _ _ []⟩

/-- The program follows `NULL` with a single URL. -/
theorem single_url_faults :
    ¬ ∀ (value : List UInt8) (data : List (List UInt8)) (calls : List (ℕ → Option (List UInt8))),
      0 ∉ value → configuredUrls value ≠ [] → Meets value data calls := by
  intro h
  have hzero : 0 ∉ bytes "http://a" := by decide
  have hurls : configuredUrls (bytes "http://a") ≠ [] := by decide
  obtain ⟨urls, defaults, found, hload, -, hcalls, -⟩ :=
    h (bytes "http://a") [] [fun _ => none] hzero hurls
  exact not_calls hzero hurls hload defaults _ [] found hcalls

end Configured

end LookupUrls

end Ddns

end Gargoyle
