import Gargoyle.EricsTools.DynamicReplace
import Gargoyle.Ewget.UrlGrammar

/-!
# The memory of `parse_url`

`parse_url` copies each part of an address into memory of the size of the part, and a port into six
bytes. The functions of this file are those of `Ewget.Url` with the memory that they write to; they are
`none` where something is written outside of it. On a text without a zero they return the same, so
that an address is taken apart in the memory that there is.
-/

namespace Gargoyle

open Option (bind_some map_some)

open List

namespace Ewget

open CText EricsTools MemoryBlock Replace

def copyText (size : ℕ) (s : List UInt8) : Option (List UInt8) :=
  (((alloc size).writeAll 0 s).bind fun block => block.write s.length 0).bind text

/-- The loop of `http_unescape` with `old[4]` and `new[2]`. -/
@[simp] def unescapeLoopBuffers : List UInt8 → List UInt8 → Option (List UInt8)
  | [], unescaped => some unescaped
  | x :: a :: b :: s, unescaped =>
    if x = percent then
      (copyText 4 [x, a, b]).bind fun old =>
        match hexByte a b with
        | some y =>
          if y = percent then unescapeLoopBuffers s unescaped
          else (copyText 2 (charText y)).bind fun new =>
            ((dynamicReplace unescaped old new).bind text).bind fun unescaped =>
              unescapeLoopBuffers s unescaped
        | none => none
    else unescapeLoopBuffers (a :: b :: s) unescaped
  | x :: s, unescaped => if x = percent then none else unescapeLoopBuffers s unescaped

/-- `http_unescape`. -/
def httpUnescapeBuffers (escaped : List UInt8) : Option (List UInt8) :=
  (unescapeLoopBuffers escaped escaped).bind fun unescaped =>
    (copyText 4 (bytes "%25")).bind fun old =>
      (copyText 2 [percent]).bind fun new => (dynamicReplace unescaped old new).bind text

/-- `escape_chars_to_hex` with `buf[5]`. -/
@[simp] def escapeBuffers (charsToEscape : List UInt8) : List UInt8 → Option (List UInt8)
  | [] => some []
  | x :: s =>
    (if x ∈ charsToEscape then copyText 5 (percent :: hexUpper x.toNat) else some [x]).bind
      fun piece => (escapeBuffers charsToEscape s).map (piece ++ ·)

def splitCredentialsBuffers (remainder : List UInt8) :
    Option (Option (List UInt8) × Option (List UInt8) × List UInt8) :=
  match strchr 64 remainder with
  | none => some (none, none, remainder)
  | some userPassEnd =>
    if userPassEnd < pathBegin remainder then
      let userEnd :=
        match strchr 58 remainder with
        | some i => if i < userPassEnd then i else userPassEnd
        | none => userPassEnd
      let passLength := userPassEnd - userEnd - 1
      let rest := remainder.drop (userPassEnd + 1)
      ((copyText (userEnd + 1) (remainder.take userEnd)).bind httpUnescapeBuffers).bind fun user =>
        if userEnd ≠ userPassEnd then
          ((copyText (passLength + 1) ((remainder.drop (userEnd + 1)).take passLength)).bind
            httpUnescapeBuffers).map fun password => (some user, some password, rest)
        else some (some user, none, rest)
    else some (none, none, remainder)

/-- The host, which is copied into `raw_host`. -/
def hostnameBuffers (size : ℕ) (rawHost : List UInt8) : Option (List UInt8) :=
  (copyText size rawHost).bind fun rawHost =>
    ((dynamicReplace rawHost [91] []).bind text).bind fun rawHost =>
      ((dynamicReplace rawHost [93] []).bind text).bind fun rawHost =>
        escapeBuffers escapeCharsV6 rawHost

/-- The port, which is copied into `port_str[6]` if it is short. -/
def readPortBuffers (portText : List UInt8) (port : ℤ) : Option ℤ :=
  if portText.length ≤ 5 then (copyText 6 portText).map fun portStr => readPort portStr port
  else some port

/-- `parse_url`. -/
def parseUrlBuffers (url userAgent : Option (List UInt8)) (family : ℤ) : Option UrlRequest :=
  let newUrl : UrlRequest :=
    { protocol := .unknown, user := none, password := none, hostname := none, port := -1
      path := none, userAgent := userAgent.getD (bytes "ewget 1.0"), family := family }
  match url.map splitProtocol with
  | none => some newUrl
  | some none => some newUrl
  | some (some (protocol, port, remainder)) =>
    match splitCredentialsBuffers remainder with
    | none => none
    | some (user, password, remainder) =>
      let portoffset :=
        match strchr 93 remainder with
        | some i => i + 1
        | none => 0
      let found : Option (List UInt8 × ℤ) :=
        match portBegin remainder (pathBegin remainder) portoffset none with
        | some i =>
          (hostnameBuffers (i + 1) (remainder.take i)).bind fun host =>
            (readPortBuffers ((remainder.drop (i + 1)).take (pathBegin remainder - i - 1))
              port).map fun port => (host, port)
        | none =>
          (hostnameBuffers (pathBegin remainder + 1)
            (remainder.take (pathBegin remainder))).map fun host => (host, port)
      found.bind fun found =>
        (escapeBuffers escapeChars (remainder.drop (pathBegin remainder))).bind fun path =>
          (if path.head? = some 47 then some path else copyText 2 [47]).map fun path =>
            { newUrl with
              protocol := protocol
              user := user
              password := password
              hostname := some found.1
              port := found.2
              path := some path }

section Copies

theorem copyText_eq {size : ℕ} {s : List UInt8} (hsize : s.length < size) (hzero : 0 ∉ s) :
    copyText size s = some s := by
  have hcopy := @writeAll_filled _ size [] s (by rw [length_nil]; omega)
  rw [length_nil, nil_append] at hcopy
  rw [copyText, ← filled_nil, hcopy, bind_some, write_filled hsize, bind_some,
    @text_filled size s [] hzero]

theorem charText_spec (y : UInt8) : (charText y).length < 2 ∧ 0 ∉ charText y := by
  rw [charText]
  split_ifs with hy
  · exact ⟨by decide, not_mem_nil⟩
  · exact ⟨by rw [length_singleton]; omega, by rw [mem_singleton]; exact Ne.symm hy⟩

theorem code_spec (x : UInt8) :
    (percent :: hexUpper x.toNat).length < 5 ∧ 0 ∉ percent :: hexUpper x.toNat :=
  byte_of_forall_lt (p := fun x =>
    (percent :: hexUpper x.toNat).length < 5 ∧ 0 ∉ percent :: hexUpper x.toNat)
    (by decide +kernel) x

theorem zero_notMem_replaceAll {old new s : List UInt8} (hs : 0 ∉ s) (hnew : 0 ∉ new) :
    0 ∉ replaceAll old new s :=
  fun hmem => (mem_replaceAll hmem).elim hnew hs

theorem unescapeLoopBuffers_cons {x : UInt8} (hx : x ≠ percent) (s unescaped : List UInt8) :
    unescapeLoopBuffers (x :: s) unescaped = unescapeLoopBuffers s unescaped := by
  rcases s with _ | ⟨a, _ | ⟨b, s⟩⟩
  · simp [unescapeLoopBuffers, hx]
  · simp [unescapeLoopBuffers, hx]
  · rw [unescapeLoopBuffers, if_neg hx]

/-- With its buffers the loop does the same. -/
theorem unescapeLoopBuffers_eq {s unescaped : List UInt8} (hs : 0 ∉ s) (hzero : 0 ∉ unescaped) :
    unescapeLoopBuffers s unescaped = unescapeLoop s unescaped ∧
      ∀ t ∈ unescapeLoop s unescaped, 0 ∉ t := by
  fun_induction unescapeLoop s unescaped with
  | case1 unescaped =>
    refine ⟨by rw [unescapeLoopBuffers], ?_⟩
    intro t ht
    rwa [Option.mem_some_iff.1 ht] at hzero
  | case2 a b s unescaped y hy ih =>
    obtain ⟨hchars, hnull⟩ := charText_spec y
    have hrest : 0 ∉ s := fun h => hs (by simp [h])
    have hcode : (0 : UInt8) ∉ [percent, a, b] := fun h => hs (by
      have hsub : [percent, a, b] ⊆ percent :: a :: b :: s := by simp
      exact hsub h)
    have hnext : 0 ∉ (if y = percent then unescaped
        else replaceAll [percent, a, b] (charText y) unescaped) := by
      split_ifs
      · exact hzero
      · exact zero_notMem_replaceAll hzero hnull
    obtain ⟨hloop, hnone⟩ := ih hrest hnext
    refine ⟨?_, hnone⟩
    rw [unescapeLoopBuffers, if_pos rfl, copyText_eq (by simp : [percent, a, b].length < 4) hcode,
      bind_some, ← hloop]
    simp only [hy]
    by_cases hpercent : y = percent
    · rw [if_pos hpercent, if_pos hpercent]
    · rw [if_neg hpercent, if_neg hpercent, copyText_eq hchars hnull, bind_some,
        dynamicReplace_text (cons_ne_nil _ _) hzero hnull, bind_some]
  | case3 a b s unescaped hnone =>
    have hcode : (0 : UInt8) ∉ [percent, a, b] := fun h => hs (by
      have hsub : [percent, a, b] ⊆ percent :: a :: b :: s := by simp
      exact hsub h)
    refine ⟨?_, fun t ht => by cases ht⟩
    rw [unescapeLoopBuffers, if_pos rfl, copyText_eq (by simp : [percent, a, b].length < 4) hcode,
      bind_some]
    simp only [hnone]
  | case4 x a b s unescaped hx ih =>
    rw [unescapeLoopBuffers_cons hx]
    exact ih (fun h => hs (mem_cons_of_mem x h)) hzero
  | case5 s unescaped hshort =>
    refine ⟨?_, fun t ht => by cases ht⟩
    rcases s with _ | ⟨a, _ | ⟨b, s⟩⟩
    · rfl
    · rfl
    · exact absurd rfl (hshort a b s)
  | case6 x s unescaped hshort hx ih =>
    rw [unescapeLoopBuffers_cons hx]
    exact ih (fun h => hs (mem_cons_of_mem x h)) hzero

theorem httpUnescapeBuffers_eq {s : List UInt8} (hs : 0 ∉ s) :
    httpUnescapeBuffers s = httpUnescape s := by
  obtain ⟨hloop, hnone⟩ := unescapeLoopBuffers_eq hs hs
  rw [httpUnescapeBuffers, httpUnescape, hloop]
  cases hunescaped : unescapeLoop s s with
  | none => rfl
  | some t =>
    have hzero := hnone t hunescaped
    rw [bind_some, copyText_eq (by decide) (by decide), bind_some,
      copyText_eq (by decide) (by decide), bind_some,
      dynamicReplace_text (by decide) hzero (by decide), map_some]

theorem escapeBuffers_eq (charsToEscape s : List UInt8) :
    escapeBuffers charsToEscape s = some (escapeCharsToHex s charsToEscape) := by
  induction s with
  | nil => rfl
  | cons x s ih =>
    obtain ⟨hshort, hzero⟩ := code_spec x
    have hcons : escapeCharsToHex (x :: s) charsToEscape =
        (if x ∈ charsToEscape then percent :: hexUpper x.toNat else [x]) ++
          escapeCharsToHex s charsToEscape := flatMap_cons
    rw [escapeBuffers, ih, copyText_eq hshort hzero, hcons]
    split_ifs <;> rfl

theorem hostnameBuffers_eq {size : ℕ} {rawHost : List UInt8} (hsize : rawHost.length < size)
    (hzero : 0 ∉ rawHost) : hostnameBuffers size rawHost = some (hostname rawHost) := by
  have hclose : 0 ∉ replaceAll [91] [] rawHost := zero_notMem_replaceAll hzero not_mem_nil
  rw [hostnameBuffers, copyText_eq hsize hzero, bind_some,
    dynamicReplace_text (cons_ne_nil _ _) hzero not_mem_nil, bind_some,
    dynamicReplace_text (cons_ne_nil _ _) hclose not_mem_nil, bind_some,
    escapeBuffers_eq, hostname]

theorem readPortBuffers_eq {portText : List UInt8} (hzero : 0 ∉ portText) (port : ℤ) :
    readPortBuffers portText port = some (readPort portText port) := by
  rw [readPortBuffers]
  split_ifs with hshort
  · rw [copyText_eq (by omega) hzero, map_some]
  · rw [readPort, if_neg hshort]

theorem zero_notMem_piece {s : List UInt8} (h : 0 ∉ s) (i j : ℕ) : 0 ∉ (s.drop i).take j :=
  fun hmem => h (mem_of_mem_drop (mem_of_mem_take hmem))

/-- A user and a password in front of the host. -/
theorem splitCredentials_found {remainder : List UInt8} {userPassEnd : ℕ}
    (hat : strchr 64 remainder = some userPassEnd) (hlt : userPassEnd < pathBegin remainder) :
    ∃ userEnd,
      splitCredentials remainder = ((httpUnescape (remainder.take userEnd)).bind fun user =>
        if userEnd ≠ userPassEnd then
          (httpUnescape ((remainder.drop (userEnd + 1)).take (userPassEnd - userEnd - 1))).map
            fun password => (some user, some password, remainder.drop (userPassEnd + 1))
        else some (some user, none, remainder.drop (userPassEnd + 1))) ∧
      splitCredentialsBuffers remainder =
        (((copyText (userEnd + 1) (remainder.take userEnd)).bind httpUnescapeBuffers).bind
          fun user =>
            if userEnd ≠ userPassEnd then
              ((copyText (userPassEnd - userEnd - 1 + 1)
                ((remainder.drop (userEnd + 1)).take (userPassEnd - userEnd - 1))).bind
                  httpUnescapeBuffers).map
                fun password => (some user, some password, remainder.drop (userPassEnd + 1))
            else some (some user, none, remainder.drop (userPassEnd + 1))) := by
  cases hcolon : strchr 58 remainder with
  | none =>
    refine ⟨userPassEnd, ?_, ?_⟩
    · simp only [splitCredentials, hat, hlt, if_true, hcolon]
      cases httpUnescape (remainder.take userPassEnd) with
      | none => rfl
      | some user => simp only [bind_some, ne_eq, not_true_eq_false, if_false]
    · simp only [splitCredentialsBuffers, hat, hlt, if_true, hcolon]
  | some i =>
    by_cases hi : i < userPassEnd
    · refine ⟨i, ?_, ?_⟩
      · simp only [splitCredentials, hat, hlt, if_true, hcolon, hi]
        cases httpUnescape (remainder.take i) with
        | none => rfl
        | some user =>
          simp only [bind_some, ne_eq, hi.ne, not_false_eq_true, if_true]
          cases httpUnescape ((remainder.drop (i + 1)).take (userPassEnd - i - 1)) <;> rfl
      · simp only [splitCredentialsBuffers, hat, hlt, if_true, hcolon, hi]
    · refine ⟨userPassEnd, ?_, ?_⟩
      · simp only [splitCredentials, hat, hlt, if_true, hcolon, hi, if_false]
        cases httpUnescape (remainder.take userPassEnd) with
        | none => rfl
        | some user => simp only [bind_some, ne_eq, not_true_eq_false, if_false]
      · simp only [splitCredentialsBuffers, hat, hlt, if_true, hcolon, hi, if_false]

theorem splitCredentialsBuffers_eq {remainder : List UInt8} (hzero : 0 ∉ remainder) :
    splitCredentialsBuffers remainder = splitCredentials remainder := by
  cases hat : strchr 64 remainder with
  | none => simp only [splitCredentialsBuffers, splitCredentials, hat]
  | some userPassEnd =>
    by_cases hlt : userPassEnd < pathBegin remainder
    · obtain ⟨userEnd, htext, hbuffers⟩ := splitCredentials_found hat hlt
      have huser : 0 ∉ remainder.take userEnd := fun h => hzero (mem_of_mem_take h)
      have hpassword := zero_notMem_piece hzero (userEnd + 1) (userPassEnd - userEnd - 1)
      rw [htext, hbuffers,
        copyText_eq (Nat.lt_succ_of_le (length_take_le _ _)) huser, bind_some,
        httpUnescapeBuffers_eq huser,
        copyText_eq (Nat.lt_succ_of_le (length_take_le _ _)) hpassword, bind_some,
        httpUnescapeBuffers_eq hpassword]
    · simp only [splitCredentialsBuffers, splitCredentials, hat, hlt, if_false]

theorem suffix_of_splitCredentials {remainder rest : List UInt8} {user password : Option (List UInt8)}
    (h : splitCredentials remainder = some (user, password, rest)) : rest <:+ remainder := by
  cases hat : strchr 64 remainder with
  | none =>
    simp only [splitCredentials, hat, Option.some.injEq, Prod.mk.injEq] at h
    rw [← h.2.2]
  | some userPassEnd =>
    by_cases hlt : userPassEnd < pathBegin remainder
    · obtain ⟨userEnd, htext, -⟩ := splitCredentials_found hat hlt
      rw [htext, Option.bind_eq_some_iff] at h
      obtain ⟨user', -, h⟩ := h
      have hdrop : rest = remainder.drop (userPassEnd + 1) := by
        split_ifs at h
        · obtain ⟨password', -, h⟩ := Option.map_eq_some_iff.1 h
          simp only [Prod.mk.injEq] at h
          exact h.2.2.symm
        · simp only [Option.some.injEq, Prod.mk.injEq] at h
          exact h.2.2.symm
      rw [hdrop]
      exact drop_suffix _ _
    · simp only [splitCredentials, hat, hlt, if_false, Option.some.injEq, Prod.mk.injEq] at h
      rw [← h.2.2]

theorem suffix_of_splitProtocol {url remainder : List UInt8} {protocol : Protocol} {port : ℤ}
    (h : splitProtocol url = some (protocol, port, remainder)) : remainder <:+ url := by
  rw [splitProtocol] at h
  split_ifs at h
  all_goals
    simp only [Option.some.injEq, Prod.mk.injEq] at h
    rw [← h.2.2]
  · exact drop_suffix _ _
  · exact drop_suffix _ _

theorem pathBuffers_eq (s : List UInt8) :
    ((if (escapeCharsToHex s escapeChars).head? = some 47 then
      some (escapeCharsToHex s escapeChars) else copyText 2 [47])) =
      some (if (escapeCharsToHex s escapeChars).head? = some 47 then
        escapeCharsToHex s escapeChars else [47]) := by
  rw [copyText_eq (by decide) (by decide)]
  split_ifs <;> rfl

/-- With its buffers `parse_url` does the same. -/
theorem parseUrlBuffers_eq {url : List UInt8} (hzero : 0 ∉ url) (userAgent : Option (List UInt8))
    (family : ℤ) :
    parseUrlBuffers (some url) userAgent family = parseUrl (some url) userAgent family := by
  rw [parseUrlBuffers, parseUrl, map_some]
  cases hprotocol : splitProtocol url with
  | none => rfl
  | some found =>
    obtain ⟨protocol, port, remainder⟩ := found
    have hremainder : 0 ∉ remainder :=
      fun h => hzero ((suffix_of_splitProtocol hprotocol).subset h)
    simp only [splitCredentialsBuffers_eq hremainder]
    cases hcredentials : splitCredentials remainder with
    | none => rfl
    | some found =>
      obtain ⟨user, password, rest⟩ := found
      have hrest : 0 ∉ rest :=
        fun h => hremainder ((suffix_of_splitCredentials hcredentials).subset h)
      have hhost : ∀ i, hostnameBuffers (i + 1) (rest.take i) = some (hostname (rest.take i)) :=
        fun i => hostnameBuffers_eq (Nat.lt_succ_of_le (length_take_le _ _))
          fun h => hrest (mem_of_mem_take h)
      have hport : ∀ i j, readPortBuffers ((rest.drop i).take j) port =
          some (readPort ((rest.drop i).take j) port) :=
        fun i j => readPortBuffers_eq (zero_notMem_piece hrest i j) port
      simp only [hhost, hport, escapeBuffers_eq, bind_some, map_some,
        pathBuffers_eq]
      cases strchr 93 rest with
      | none => cases portBegin rest (pathBegin rest) 0 none <;> rfl
      | some i => cases portBegin rest (pathBegin rest) (i + 1) none <;> rfl

end Copies

section Grammar

theorem zero_notMem_text (a : Address) : 0 ∉ a.text := by
  have hscheme : (0 : UInt8) ∉ a.scheme := by
    intro hmem
    have hlower := mem_map_of_mem (f := tolower) hmem
    rw [a.scheme_eq] at hlower
    revert hlower
    cases a.secure <;> decide
  have hcredentials : (0 : UInt8) ∉ a.credentialsText := by
    rw [Address.credentialsText]
    cases a.credentials with
    | none => exact not_mem_nil
    | some c =>
      obtain ⟨user, password⟩ := c
      have huser := user.notMem (Or.inl rfl)
      cases password with
      | none => simp [huser]
      | some password => simp [huser, password.notMem (Or.inl rfl)]
  have hhost : (0 : UInt8) ∉ a.host := fun hmem => (a.host_plain 0 hmem).1 rfl
  have hhostText : (0 : UInt8) ∉ a.hostText := by
    rw [Address.hostText]
    split_ifs
    · simp [hhost]
    · exact hhost
  have hport : (0 : UInt8) ∉ a.portText := by
    intro hmem
    rcases mem_portText a hmem with h | h
    · revert h
      decide
    · revert h
      decide
  rw [Address.text, Address.serverText]
  simp only [mem_append, not_or]
  exact ⟨hscheme, hcredentials, ⟨hhostText, hport⟩, a.path_plain⟩

/-- An address of the grammar is taken apart as it should be, unless a closing bracket of the path is
behind a host without brackets and its port, or a blank of the path is not printed, or the code of the
zero is in the user or the password. -/
theorem parseUrlBuffers_address_iff (a : Address) (userAgent : Option (List UInt8)) (family : ℤ) :
    parseUrlBuffers (some a.text) userAgent family = some (a.request userAgent family) ↔
      a.PartsFound := by
  rw [parseUrlBuffers_eq (zero_notMem_text a), parseUrl_text, Option.some.injEq,
    found_eq_request_iff]

theorem bracketAddress_host : ∀ x ∈ bytes "host",
    x ≠ 0 ∧ x ∉ escapeCharsV6 ∧ x ∉ bytes "/@[]" ∧ (false = false → x ≠ 58) :=
  Numerals.forall_mem_of_all (by decide)

theorem bracketAddress_port : ∀ digits ∈ some (bytes "8080"), digits ≠ [] ∧ digits.length ≤ 5 ∧
    (∀ x ∈ digits, 48 ≤ x ∧ x ≤ 57) ∧ portValue digits ≤ 65535 := by
  intro digits hdigits
  rw [← Option.mem_some_iff.1 hdigits]
  exact ⟨by decide, by decide, Numerals.forall_mem_of_all (by decide), by decide⟩

theorem bracketAddress_scheme :
    (bytes "http://").map tolower = if false then bytes "https://" else bytes "http://" := by decide

theorem bracketAddress_start : bytes "/a]b" ≠ [] → (bytes "/a]b").head? = some 47 := by decide

theorem bracketAddress_zero : 0 ∉ bytes "/a]b" := by decide

/-- `http://host:8080/a]b`. -/
def bracketAddress : Address where
  secure := false
  scheme := bytes "http://"
  scheme_eq := bracketAddress_scheme
  credentials := none
  bracketed := false
  host := bytes "host"
  host_plain := bracketAddress_host
  port := some (bytes "8080")
  port_digits := bracketAddress_port
  path := bytes "/a]b"
  path_start := bracketAddress_start
  path_plain := bracketAddress_zero

/-- The port is not found where the path has a closing bracket. -/
theorem port_missed_before_bracket :
    ¬ ∀ (a : Address) (userAgent : Option (List UInt8)) (family : ℤ),
      parseUrlBuffers (some a.text) userAgent family = some (a.request userAgent family) := by
  intro h
  have hright := h bracketAddress none 0
  rw [parseUrlBuffers_eq (zero_notMem_text bracketAddress), parseUrl_text, Option.some.injEq,
    found_eq_request_iff] at hright
  have hbracket : (93 : UInt8) ∈ bytes "/a]b" := by decide
  exact hright.1 rfl rfl hbracket

end Grammar

end Ewget

end Gargoyle
