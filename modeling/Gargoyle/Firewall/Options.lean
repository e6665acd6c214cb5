import Gargoyle.Data.FlagBits
import Gargoyle.Timerange.Text
import Mathlib.Data.List.Infix

/-!
# The rules of the packet filter

A rule has tests, which are read from left to right, and a statement. The rules of a chain are
tried in order: a statement that changes the mark of the connection goes on with the next rule, and
a target ends the chain.

What the tests of the packet filter say about a packet is given by `Nft`. The mark of the connection
is not a part of the packet, since the rules change it between the tests.
-/

namespace Gargoyle

namespace Firewall

open FlagBits

inductive Target
  | accept
  | drop
  | reject
  deriving DecidableEq

inductive Side
  | source
  | destination
  deriving DecidableEq

inductive AddrKind
  | ip
  | ip6
  | ether
  deriving DecidableEq

inductive UrlTest
  | contains
  | containsRegex
  | matchesExactly
  deriving DecidableEq

inductive TimeTest
  | weeklyRanges (ranges : String)
  | hoursWeekdays (hours weekdays : String)
  | hours (hours : String)
  | weekdays (weekdays : String)
  deriving DecidableEq

inductive Prim
  | nfproto (family : String)
  | l4proto (protos : List String)
  | timerange (time : TimeTest)
  | length (min max : String)
  | weburl (domainOnly : Bool) (test : UrlTest) (text : String)
  | mark (text : String)
  | ctMark (text : String)
  | addr (side : Side) (kind : AddrKind) (text : String)
  | port (side : Side) (text : String)
  /-- `ct mark & 0xFF000000 == value`. -/
  | topByte (value : BitVec 32)
  deriving DecidableEq

/-- A test, or its negation with `!=`. -/
structure Test where
  negated : Bool
  prim : Prim
  deriving DecidableEq

inductive Statement
  /-- `ct mark set ct mark & mask | value`. -/
  | setMark (mask value : BitVec 32)
  | verdict (target : Target) (options : String)
  deriving DecidableEq

structure Rule where
  tests : List Test
  statement : Statement
  deriving DecidableEq

structure Nft (Packet : Type*) where
  nfproto : Packet → String
  l4proto : Packet → String
  timerange : TimeTest → Packet → Bool
  length : String → String → Packet → Bool
  weburl : Bool → UrlTest → String → Packet → Bool
  mark : String → Packet → Bool
  ctMark : String → BitVec 32 → Bool
  addr : Side → AddrKind → String → Packet → Bool
  port : Side → String → Packet → Bool

namespace Nft

variable {Packet : Type*} (nft : Nft Packet) (p : Packet)

def request : Bool := nft.weburl false .contains "http" p

/-- What a test asks for holds for a packet of a connection with the mark `μ`. -/
def holds (μ : BitVec 32) : Prim → Bool
  | .nfproto family => nft.nfproto p = family
  | .l4proto protos => nft.l4proto p ∈ protos
  | .timerange time => nft.timerange time p
  | .length min max => nft.length min max p
  | .weburl domainOnly test text => nft.weburl domainOnly test text p
  | .mark text => nft.mark text p
  | .ctMark text => nft.ctMark text μ
  | .addr side kind text => nft.addr side kind text p
  | .port side text => nft.port side text p
  | .topByte value => μ &&& 0xFF000000#32 = value

def passes (μ : BitVec 32) (t : Test) : Bool :=
  match t.prim with
  | .weburl .. => if t.negated then nft.request p && !nft.holds p μ t.prim else nft.holds p μ t.prim
  | prim => nft.holds p μ prim ^^ t.negated

def applies (μ : BitVec 32) (tests : List Test) : Bool := tests.all (nft.passes p μ)

def run (rules : List Rule) (μ : BitVec 32) : BitVec 32 × Option Target :=
  match rules with
  | [] => (μ, none)
  | r :: rules =>
    if nft.applies p μ r.tests then
      match r.statement with
      | .setMark mask value => run rules (μ &&& mask ||| value)
      | .verdict target _ => (μ, some target)
    else run rules μ

def runPackets (rules : List Rule) : List Packet → BitVec 32 → List (Option Target)
  | [], _ => []
  | p :: ps, μ => (nft.run p rules μ).2 :: runPackets rules ps (nft.run p rules μ).1

end Nft

/-!
## The options of a rule

The options of a section become the definition of a rule. The lists of marks, of addresses, of ports
and of addresses on the web are taken apart, and the addresses are sorted by their kind; what is
no address of any kind is left out.

Whether a text is an address is decided by the C library (`AddressText`). The options `layer7`
and `ipp2p`, which no rule uses, are left out.
-/

open Numerals
open Timerange (splitOnSeparators trimFlankingWhitespace toLowercase isSpace)

/-! ### Definitions -/

inductive UrlVar
  | contains
  | regex
  | exact
  | domainContains
  | domainRegex
  | domainExact
  deriving DecidableEq

/-- `url_match_vars`. -/
def urlVars : List UrlVar :=
  [.contains, .regex, .exact, .domainContains, .domainRegex, .domainExact]

structure AddrDef where
  ip : Option String
  ip6 : Option String
  mac : Option String
  deriving DecidableEq

structure RuleDef where
  proto : Option String := none
  family : Option String := none
  minPktSize : Option String := none
  maxPktSize : Option String := none
  activeHours : Option String := none
  activeWeekdays : Option String := none
  activeWeeklyRanges : Option String := none
  url : UrlVar → List String := fun _ => []
  notUrl : UrlVar → List String := fun _ => []
  mark : Option (List String) := none
  notMark : Option (List String) := none
  connmark : Option (List String) := none
  notConnmark : Option (List String) := none
  localAddr : Option AddrDef := none
  notLocalAddr : Option AddrDef := none
  remoteAddr : Option AddrDef := none
  notRemoteAddr : Option AddrDef := none
  localPort : Option (List String) := none
  notLocalPort : Option (List String) := none
  remotePort : Option (List String) := none
  notRemotePort : Option (List String) := none

/-! ### Lists -/

/-- What the C library says about the texts of addresses: `inet_pton` for both families, and
`sscanf` with six pairs of digits. -/
structure AddressText where
  isInet : List Char → Bool
  isInet6 : List Char → Bool
  isMac : List Char → Bool

/-- A piece of the list, which is a text of its own in the memory, with the number of that
text. -/
structure AddrPart where
  ptr : ℕ
  text : List Char
  deriving DecidableEq

/-- The texts that `parse_ips_and_macs` has found, by their kinds. -/
structure AddrLists where
  ip : List AddrPart
  ip6 : List AddrPart
  mac : List AddrPart

/-- A round of the loop of `parse_ips_and_macs`. There is no result when a null pointer is
followed, since the ends of a range are trimmed before it is known that there are two. -/
def parseAddr (t : AddressText) (lists : AddrLists) (part : AddrPart) : Option AddrLists :=
  -- only a text with colons is trimmed before it is tested
  let next := if ':' ∈ part.text then trimFlankingWhitespace part.text else part.text
  let pushed : AddrPart := ⟨part.ptr, trimFlankingWhitespace next⟩
  let lists :=
    if ':' ∈ part.text ∧ t.isMac next then { lists with mac := lists.mac ++ [pushed] } else lists
  if '-' ∈ next then
    match splitOnSeparators next ['-'] 2 true with
    | [first, last] =>
      let first := trimFlankingWhitespace first
      let last := trimFlankingWhitespace last
      if t.isInet6 first ∧ t.isInet6 last then some { lists with ip6 := lists.ip6 ++ [pushed] }
      else if t.isInet first ∧ t.isInet last then some { lists with ip := lists.ip ++ [pushed] }
      else some lists
    | _ => none
  else if t.isInet6 next then some { lists with ip6 := lists.ip6 ++ [pushed] }
  else if t.isInet next then some { lists with ip := lists.ip ++ [pushed] }
  else some lists

def joinAddrs (texts : List (List Char)) : Option String :=
  match texts with
  | [] => none
  | [text] => some (String.ofList text)
  | texts => some (String.ofList (['\x7b'] ++ [','].intercalate texts ++ ['\x7d']))

/-- The use and the `free` of a text. Both are undefined for one that has been freed. -/
def freePart (part : AddrPart) (freed : List ℕ) : Option (List ℕ) :=
  if part.ptr ∈ freed then none else some (part.ptr :: freed)

/-- `join_strs`, which frees the pieces from the last to the first, and the braces around
several, with the texts that have been freed. -/
def joinAndFree (parts : List AddrPart) (freed : List ℕ) : Option (Option String × List ℕ) :=
  (parts.foldrM freePart freed).map fun freed => (joinAddrs (parts.map AddrPart.text), freed)

/-- `parse_ips_and_macs`, or nothing when what it does is undefined. -/
def parseIpsAndMacs (t : AddressText) (addrStr : List Char) : Option (Option AddrDef) :=
  let parts := (splitOnSeparators addrStr [','] (-1) false).zipIdx.map fun p => ⟨p.2, p.1⟩
  (parts.foldlM (parseAddr t) ⟨[], [], []⟩).bind fun lists =>
    (joinAndFree lists.ip []).bind fun ip =>
      (joinAndFree lists.ip6 ip.2).bind fun ip6 =>
        (joinAndFree lists.mac ip6.2).map fun mac =>
          if lists.ip.length + lists.ip6.length + lists.mac.length = 0 then none
          else some ⟨ip.1, ip6.1, mac.1⟩

/-- The loop of `parse_quoted_list`: what stands between quotes that are not escaped. `piece` is the
text since the last opening quote. -/
@[simp] def quotedPieces (quote escape : Char) : Option (List Char) → Bool → List Char → List (List Char)
  | _, _, [] => []
  | piece, previousIsQuoted, c :: cs =>
    let quoted := c = escape ∧ previousIsQuoted = false
    if c = quote ∧ previousIsQuoted = false then
      match piece with
      | none => quotedPieces quote escape (some []) quoted cs
      | some text => text :: quotedPieces quote escape none quoted cs
    else quotedPieces quote escape (piece.map (· ++ [c])) quoted cs

/-- `parse_quoted_list`, where an uneven quote is dropped. -/
def parseQuotedList (listStr : List Char) (quote escape : Char) : List String :=
  match quotedPieces quote escape none false listStr with
  | [] => [String.ofList listStr]
  | pieces => pieces.map String.ofList

end Firewall

end Gargoyle
