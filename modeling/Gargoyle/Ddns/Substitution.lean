import Gargoyle.Data.CText
import Gargoyle.Data.HashedMap
import Gargoyle.Data.Replace

/-!
# The address of an update

The template of a provider names variables, as `[[USERNAME]]`. Their values come from the
configuration of the service, from the defaults of the provider, and from commands that compute
further ones. `do_url_substitution` collects them in a map, and then replaces the variables in the
template one after the other, in the order of the map, with special characters in their values
written as codes unless the provider says otherwise.
-/

namespace Gargoyle

namespace Ddns

open CText Replace

/-- `escape_chars` of `http_req_escape`. -/
def escapeChars : List UInt8 := bytes "%#\t <>{}|\\^~[]`;/?:@=&$"

/-- A digit of `%x`. -/
def hexDigitLower (n : ℕ) : UInt8 := (if n < 10 then 48 + n else 87 + n).toUInt8

/-- The code of a character: `%%%.2x`. -/
def hexCode (c : UInt8) : List UInt8 :=
  [37, hexDigitLower (c.toNat / 16), hexDigitLower (c.toNat % 16)]

def httpReqEscape (unescaped : List UInt8) : List UInt8 :=
  escapeChars.foldl (fun escaped c => replaceAll [c] (hexCode c) escaped) unescaped

def replacePattern (var : List UInt8) : List UInt8 := (bytes "[[" ++ var ++ bytes "]]").map toupper

section Maps

variable {hash : List UInt8 → ℕ}

def replacement (vars : HashedMap hash (List UInt8))
    (escapedVariables : Option (HashedMap hash (List UInt8))) (var : List UInt8) : List UInt8 :=
  match vars.get var with
  | none => []
  | some def_ =>
    match escapedVariables with
    | none => def_
    | some escaped =>
      match escaped.get var with
      | none => def_
      | some _ => httpReqEscape def_

/-- The loop of `do_line_substitution`, over the names of the variables in some order. -/
def substituteVariables (vars : HashedMap hash (List UInt8))
    (escapedVariables : Option (HashedMap hash (List UInt8))) (names : List (List UInt8))
    (line : List UInt8) : List UInt8 :=
  names.foldl
    (fun replaced var =>
      replaceAll (replacePattern var) (replacement vars escapedVariables var) replaced)
    line

def doLineSubstitution (line : List UInt8) (vars : HashedMap hash (List UInt8))
    (escapedVariables : Option (HashedMap hash (List UInt8))) : List UInt8 :=
  substituteVariables vars escapedVariables vars.keys line

variable (hash) in
/-- `ddns_service_provider`, without what the answer is read with. -/
structure UrlProvider where
  urlTemplate : List UInt8
  requiredVariables : List (List UInt8)
  optionalVariables : List (List UInt8)
  optionalVariableDefaults : List (List UInt8)
  metaVariables : List (List UInt8)
  metaVariableDefs : HashedMap hash (List UInt8)
  metaVariablesToCache : HashedMap hash (List UInt8)
  unescapedVariables : HashedMap hash (List UInt8)

variable (hash) in
structure UrlConfig where
  variableDefinitions : HashedMap hash (List UInt8)
  cachedMetaVariables : HashedMap hash (List UInt8)

variable (hash) in
/-- `all_variables` and `escaped_variables`. -/
structure Variables where
  all : HashedMap hash (List UInt8)
  escaped : HashedMap hash (List UInt8)

namespace Variables

def define (v : Variables hash) (name : List UInt8) : Option (List UInt8) → Variables hash
  | some value => { v with all := v.all.set name value }
  | none => v

def markEscaped (v : Variables hash) (provider : UrlProvider hash) (name : List UInt8) :
    Variables hash :=
  match provider.unescapedVariables.get name with
  | none => { v with escaped := v.escaped.set name (bytes "d") }
  | some _ => v

variable (provider : UrlProvider hash) (config : UrlConfig hash)

def loadRequired (v : Variables hash) : Variables hash :=
  provider.requiredVariables.foldl
    (fun v name => (v.define name (config.variableDefinitions.get name)).markEscaped provider name) v

def loadOptional (v : Variables hash) : Variables hash :=
  provider.optionalVariables.zipIdx.foldl
    (fun v p =>
      (v.define p.1 ((config.variableDefinitions.get p.1).or
        provider.optionalVariableDefaults[p.2]?)).markEscaped provider p.1) v

def loadMeta (shell : List UInt8 → Option (List UInt8))
    (s : Variables hash × HashedMap hash (List UInt8)) (name : List UInt8) :
    Variables hash × HashedMap hash (List UInt8) :=
  let computed :=
    match s.2.get name with
    | some value => some value
    | none =>
      match provider.metaVariableDefs.get name with
      | some def_ => shell (doLineSubstitution def_ s.1.all none)
      | none => none
  let cached :=
    match computed with
    | some value =>
      if (provider.metaVariablesToCache.get name).isSome ∧ s.2.get name = none then
        s.2.set name value
      else s.2
    | none => s.2
  ((s.1.define name (some (computed.getD []))).markEscaped provider name, cached)

def load (shell : List UInt8 → Option (List UInt8)) (currentIp : List UInt8) :
    Variables hash × HashedMap hash (List UInt8) :=
  let v := loadRequired provider config ⟨HashedMap.empty, HashedMap.empty⟩
  let v := loadOptional provider config v
  let v := v.define (bytes "IP") (some currentIp)
  provider.metaVariables.foldl (loadMeta provider shell) (v, config.cachedMetaVariables)

end Variables

/-- `do_url_substitution`, with the variables that are cached from then on. The first line that a
command writes is given by `shell`. -/
def doUrlSubstitution (shell : List UInt8 → Option (List UInt8)) (provider : UrlProvider hash)
    (config : UrlConfig hash) (currentIp : List UInt8) :
    List UInt8 × HashedMap hash (List UInt8) :=
  let loaded := Variables.load provider config shell currentIp
  (doLineSubstitution provider.urlTemplate loaded.1.all (some loaded.1.escaped), loaded.2)

end Maps

end Ddns

end Gargoyle
