import Gargoyle.Data.CText
import Gargoyle.Data.Replace
import Gargoyle.Data.Signed

/-!
# Web addresses

`parse_url` takes an address apart: the protocol, the user and the password with their codes read
back, the host and the port, and the path. A code is a `%` with two hexadecimal digits. A function
returns `none` where the program goes on with a variable that it has not set, or behind the end of a
text: that is where two digits do not follow a `%`.
-/

namespace Gargoyle

open List

namespace Ewget

open CText Replace

def hexValue (x : UInt8) : Option UInt8 :=
  if 48 ≤ x ∧ x ≤ 57 then some (x - 48)
  else if 97 ≤ x ∧ x ≤ 102 then some (x - 87)
  else if 65 ≤ x ∧ x ≤ 70 then some (x - 55)
  else none

def hexByte (a b : UInt8) : Option UInt8 :=
  match hexValue a, hexValue b with
  | some x, some y => some (16 * x + y)
  | _, _ => none

/-- `%`. -/
def percent : UInt8 := 37

def charText (x : UInt8) : List UInt8 := if x = 0 then [] else [x]

/-- The loop of `http_unescape`: it goes through the text with the codes, and replaces each of them
in the text that is to be returned, but for the one of `%`. -/
def unescapeLoop : List UInt8 → List UInt8 → Option (List UInt8)
  | [], unescaped => some unescaped
  | x :: a :: b :: s, unescaped =>
    if x = percent then
      match hexByte a b with
      | some y =>
        unescapeLoop s
          (if y = percent then unescaped else replaceAll [x, a, b] (charText y) unescaped)
      | none => none
    else unescapeLoop (a :: b :: s) unescaped
  | x :: s, unescaped => if x = percent then none else unescapeLoop s unescaped

def httpUnescape (escaped : List UInt8) : Option (List UInt8) :=
  (unescapeLoop escaped escaped).map (replaceAll (bytes "%25") [percent])

/-- A digit of `%X`. -/
def hexDigitUpper (n : ℕ) : UInt8 := (if n < 10 then 48 + n else 55 + n).toUInt8

/-- The text that `%X` makes of a number below 256. -/
def hexUpper (n : ℕ) : List UInt8 :=
  if n < 16 then [hexDigitUpper n] else [hexDigitUpper (n / 16), hexDigitUpper (n % 16)]

def escapeCharsToHex (s charsToEscape : List UInt8) : List UInt8 :=
  s.flatMap fun x => if x ∈ charsToEscape then percent :: hexUpper x.toNat else [x]

inductive Protocol
  | unknown
  | http
  | https
deriving DecidableEq

structure UrlRequest where
  protocol : Protocol
  user : Option (List UInt8)
  password : Option (List UInt8)
  hostname : Option (List UInt8)
  port : ℤ
  path : Option (List UInt8)
  userAgent : List UInt8
  family : ℤ
deriving DecidableEq

/-- `escape_chars` of `parse_url`. -/
def escapeChars : List UInt8 := bytes "\n\r\t\"\\ []<>{}|^~`:,"

/-- `escape_charsv6` of `parse_url`. -/
def escapeCharsV6 : List UInt8 := bytes "\n\r\t\"\\ <>{}|^~`,"

def splitProtocol (url : List UInt8) : Option (Protocol × ℤ × List UInt8) :=
  let lower := url.map tolower
  if strstr (bytes "http://") lower = some 0 then some (.http, 80, url.drop 7)
  else if strstr (bytes "https://") lower = some 0 then some (.https, 443, url.drop 8)
  else if strstr (bytes "://") lower = none then some (.http, 80, url)
  else none

def pathBegin (remainder : List UInt8) : ℕ := (strchr 47 remainder).getD remainder.length

def splitCredentials (remainder : List UInt8) :
    Option (Option (List UInt8) × Option (List UInt8) × List UInt8) :=
  match strchr 64 remainder with
  | none => some (none, none, remainder)
  | some userPassEnd =>
    if userPassEnd < pathBegin remainder then
      let userEnd :=
        match strchr 58 remainder with
        | some i => if i < userPassEnd then i else userPassEnd
        | none => userPassEnd
      let rest := remainder.drop (userPassEnd + 1)
      match httpUnescape (remainder.take userEnd) with
      | none => none
      | some user =>
        if userEnd ≠ userPassEnd then
          match httpUnescape ((remainder.drop (userEnd + 1)).take (userPassEnd - userEnd - 1)) with
          | some password => some (some user, some password, rest)
          | none => none
        else some (some user, none, rest)
    else some (none, none, remainder)

def portBegin (remainder : List UInt8) (pathBegin portoffset : ℕ) (found : Option ℕ) : Option ℕ :=
  if portoffset < pathBegin then
    match strchr 58 (remainder.drop portoffset) with
    | none => found
    | some chridx =>
      if portoffset + chridx < pathBegin then
        portBegin remainder pathBegin (portoffset + chridx + 1) (some (portoffset + chridx))
      else found
  else found
termination_by pathBegin - portoffset

def hostname (rawHost : List UInt8) : List UInt8 :=
  escapeCharsToHex (replaceAll [93] [] (replaceAll [91] [] rawHost)) escapeCharsV6

def readPort (text : List UInt8) (port : ℤ) : ℤ :=
  if text.length ≤ 5 then
    match Signed.scanSigned 32 (text.map fun x => Char.ofNat x.toNat) with
    | some read => if read ≤ 65535 then read else port
    | none => port
  else port

def parseUrl (url userAgent : Option (List UInt8)) (family : ℤ) : Option UrlRequest :=
  let newUrl : UrlRequest :=
    { protocol := .unknown, user := none, password := none, hostname := none, port := -1
      path := none, userAgent := userAgent.getD (bytes "ewget 1.0"), family := family }
  match url.map splitProtocol with
  | none => some newUrl
  | some none => some newUrl
  | some (some (protocol, port, remainder)) =>
    match splitCredentials remainder with
    | none => none
    | some (user, password, remainder) =>
      let path := escapeCharsToHex (remainder.drop (pathBegin remainder)) escapeChars
      let portoffset :=
        match strchr 93 remainder with
        | some i => i + 1
        | none => 0
      let newUrl := { newUrl with
        protocol := protocol
        user := user
        password := password
        path := some (if path.head? = some 47 then path else [47]) }
      match portBegin remainder (pathBegin remainder) portoffset none with
      | some i => some { newUrl with
          hostname := some (hostname (remainder.take i))
          port := readPort ((remainder.drop (i + 1)).take (pathBegin remainder - i - 1)) port }
      | none => some { newUrl with
          hostname := some (hostname (remainder.take (pathBegin remainder)))
          port := port }

/-! ## Reading codes back -/

/-- An escaping whose codes are `%` and two digits. -/
structure HexEscaping where
  escaping : Escaping UInt8
  marker_eq : escaping.marker = percent
  zero_notMem : 0 ∉ escaping.coded
  digits : ∀ c ∈ escaping.coded, ∃ a b, escaping.code c = [percent, a, b] ∧ hexByte a b = some c
  code_percent : escaping.code percent = bytes "%25"

theorem unescapeLoop_cons {x : UInt8} (hx : x ≠ percent) (s unescaped : List UInt8) :
    unescapeLoop (x :: s) unescaped = unescapeLoop s unescaped := by
  rcases s with _ | ⟨a, _ | ⟨b, s⟩⟩
  · simp [unescapeLoop, hx]
  · simp [unescapeLoop, hx]
  · rw [unescapeLoop, if_neg hx]

theorem unescapeLoop_code {a b y : UInt8} (h : hexByte a b = some y) (s unescaped : List UInt8) :
    unescapeLoop (percent :: a :: b :: s) unescaped = unescapeLoop s
      (if y = percent then unescaped else replaceAll [percent, a, b] (charText y) unescaped) := by
  rw [unescapeLoop, if_pos rfl, h]

/-- What has been escaped is unescaped, one code after the other. -/
theorem unescapeLoop_escape (e : HexEscaping) (text s : List UInt8) {done : List UInt8}
    (hdone : percent ∉ done) :
    ∃ done', percent ∉ done' ∧ (∀ a ∈ done, a ∈ done') ∧
      (∀ a ∈ s, a ∈ e.escaping.coded → a ≠ percent → a ∈ done') ∧
      unescapeLoop (e.escaping.escape s) (e.escaping.escapeExcept done text) =
        some (e.escaping.escapeExcept done' text) := by
  induction s generalizing done with
  | nil => exact ⟨done, hdone, fun a ha => ha, fun a ha => by simp at ha, rfl⟩
  | cons c s ih =>
    rw [Escaping.escape, flatMap_cons, ← Escaping.escape]
    by_cases hc : c ∈ e.escaping.coded
    · obtain ⟨a, b, hcode, hbyte⟩ := e.digits c hc
      rw [if_pos hc, hcode]
      simp only [cons_append, nil_append]
      rw [unescapeLoop_code hbyte]
      by_cases hpercent : c = percent
      · rw [if_pos hpercent]
        obtain ⟨done', hmarker, hold, hnew, heq⟩ := ih hdone
        refine ⟨done', hmarker, hold, fun x hx hcoded hne => ?_, heq⟩
        obtain rfl | hx := List.mem_cons.1 hx
        · exact absurd hpercent hne
        · exact hnew x hx hcoded hne
      · have hzero : c ≠ 0 := fun h => e.zero_notMem (h ▸ hc)
        have hmarker : e.escaping.marker ∉ done := by
          rw [e.marker_eq]
          exact hdone
        have hcons : percent ∉ c :: done := by
          simp only [mem_cons, not_or]
          exact ⟨Ne.symm hpercent, hdone⟩
        rw [if_neg hpercent, charText, if_neg hzero, ← hcode,
          Escaping.replaceAll_code hc hmarker]
        obtain ⟨done', hmarker', hold, hnew, heq⟩ := ih hcons
        refine ⟨done', hmarker', fun x hx => hold x (mem_cons_of_mem c hx),
          fun x hx hcoded hne => ?_, heq⟩
        obtain rfl | hx := List.mem_cons.1 hx
        · exact hold x mem_cons_self
        · exact hnew x hx hcoded hne
    · have hpercent : c ≠ percent := by
        rintro rfl
        exact hc (e.marker_eq ▸ e.escaping.marker_mem)
      rw [if_neg hc, singleton_append, unescapeLoop_cons hpercent]
      obtain ⟨done', hmarker, hold, hnew, heq⟩ := ih hdone
      refine ⟨done', hmarker, hold, fun x hx hcoded hne => ?_, heq⟩
      obtain rfl | hx := List.mem_cons.1 hx
      · exact absurd hcoded hc
      · exact hnew x hx hcoded hne

theorem httpUnescape_escape (e : HexEscaping) (text : List UInt8) :
    httpUnescape (e.escaping.escape text) = some text := by
  obtain ⟨done, hmarker, -, hall, heq⟩ :=
    unescapeLoop_escape e text text not_mem_nil
  rw [Escaping.escapeExcept_nil] at heq
  rw [httpUnescape, heq, Option.map_some, ← e.code_percent, ← e.marker_eq,
    Escaping.replaceAll_code_marker (e.marker_eq ▸ hmarker) (e.marker_eq ▸ hall)]

/-! ## Finding the parts -/

theorem strchr_append_cons {c : UInt8} {x : List UInt8} (hx : c ∉ x) (y : List UInt8) :
    strchr c (x ++ c :: y) = some x.length := by
  induction x with
  | nil => simp [strchr, findIdx?_cons]
  | cons a x ih =>
    rw [mem_cons, not_or] at hx
    have hne : a ≠ c := Ne.symm hx.1
    have htail := ih hx.2
    simp only [strchr] at htail ⊢
    simp [findIdx?_cons, hne, htail]

theorem strchr_of_notMem {c : UInt8} {x : List UInt8} (hx : c ∉ x) : strchr c x = none := by
  rw [strchr, findIdx?_eq_none_iff]
  intro a ha
  rw [decide_eq_false_iff_not]
  rintro rfl
  exact hx ha

theorem le_of_strchr {c : UInt8} {x y : List UInt8} {i : ℕ} (hx : c ∉ x)
    (h : strchr c (x ++ y) = some i) : x.length ≤ i := by
  induction x generalizing i with
  | nil => exact Nat.zero_le i
  | cons a x ih =>
    rw [mem_cons, not_or] at hx
    have hne : a ≠ c := Ne.symm hx.1
    rw [cons_append, strchr, findIdx?_cons, decide_eq_false hne, if_neg (by simp),
      Option.map_eq_some_iff] at h
    obtain ⟨j, hj, rfl⟩ := h
    exact Nat.succ_le_succ (ih hx.2 hj)

theorem lt_pathBegin {x : List UInt8} {c : UInt8} (hx : 47 ∉ x) (hc : c ≠ 47) (tail : List UInt8) :
    x.length < pathBegin (x ++ c :: tail) := by
  have hcons : (47 : UInt8) ∉ x ++ [c] := by simp [hx, hc.symm]
  rw [pathBegin, append_cons]
  cases hfound : strchr 47 (x ++ [c] ++ tail) with
  | none => simp
  | some i =>
    have hle := le_of_strchr hcons hfound
    rw [length_append, length_singleton] at hle
    exact hle

theorem strstr_of_prefix {pat s : List UInt8} (h : pat <+: s) : strstr pat s = some 0 := by
  cases s with
  | nil => simp [strstr, List.prefix_nil.1 h]
  | cons a s => rw [strstr, if_pos (List.isPrefixOf_iff_prefix.2 h)]

theorem escapeCharsToHex_of_forall {s chars : List UInt8} (h : ∀ x ∈ s, x ∉ chars) :
    escapeCharsToHex s chars = s := by
  have hsame : ∀ x ∈ s, (if x ∈ chars then percent :: hexUpper x.toNat else [x]) = [x] :=
    fun x hx => if_neg (h x hx)
  rw [escapeCharsToHex, flatMap_congr hsame, flatMap_singleton']

theorem hostname_of_plain {host : List UInt8} (hopen : 91 ∉ host) (hclose : 93 ∉ host)
    (h : ∀ x ∈ host, x ∉ escapeCharsV6) : hostname host = host := by
  have hnone : ∀ c : UInt8, c ∉ host → replaceAll [c] [] host = host := by
    intro c hc
    rw [replaceAll_singleton]
    have hsame : ∀ x ∈ host, (if x = c then [] else [x]) = [x] := by
      intro x hx
      rw [if_neg]
      rintro rfl
      exact hc hx
    rw [flatMap_congr hsame, flatMap_singleton']
  rw [hostname, hnone 91 hopen, hnone 93 hclose, escapeCharsToHex_of_forall h]

end Ewget

end Gargoyle
