import Gargoyle.Data.Wire
import Gargoyle.TreeMap.StringMap

/-!
# Web addresses of encrypted requests

`nft_weburl` blocks requests by their address and `nft_webmon` records the
addresses that are visited. Of an encrypted request both see only the name of
the server, in the first message of the connection. The two modules walk through
that message with the same code. Texts are lists of characters without the zero
that ends them.
-/

namespace Gargoyle

namespace Weburl

open ByteBuffer TreeMap Bandwidth

/-- `isupper` of the kernel, whose table is the one of Latin-1. -/
def isupper (c : Char) : Bool :=
  (65 ≤ c.toNat && c.toNat ≤ 90) || (192 ≤ c.toNat && c.toNat ≤ 222 && c.toNat != 215)

/-- `tolower` of the kernel. -/
def tolower (c : Char) : Char := if isupper c then Char.ofNat (c.toNat + 32) else c

/-! ## The server name -/

/-- The loop over the extensions, from the offset of one to the limit. It ends
with the extension of type 0, which has the name behind a list length and a
type. -/
def extensionLoop (packetData : ByteBuffer) (packetLimit packetPtr : ℕ) : List Char :=
  if packetPtr < packetLimit then
    let extType := readBE 2 packetData packetPtr
    let extLen := readBE 2 packetData (packetPtr + 2)
    if extType = 0 then
      let snilen := readBE 2 packetData (packetPtr + 7)
      if packetPtr + 9 + snilen < packetLimit ∧ snilen > 0 then
        let copied := if snilen < 625 then snilen else 624
        (readChars packetData (packetPtr + 9) copied).map tolower
      else []
    else extensionLoop packetData packetLimit (packetPtr + 4 + extLen)
  else []
  termination_by packetLimit - packetPtr

/-- The part of a first message that `https_match` and `extract_url_https`
share: the name of the server, or nothing when they return before the loop. -/
def clientHelloHost (packetData : ByteBuffer) (packetLength : ℕ) : Option (List Char) :=
  if packetLength < 43 then none
  else
    let conttype := packetData 0
    let hndshktype := packetData 5
    let sidlen := (packetData 43).toNat
    if conttype ≠ 22 then none
    else if hndshktype ≠ 1 then none
    else
      let cipherSuites := 1 + 43 + sidlen
      let cslen := readBE 2 packetData cipherSuites
      let compression := cipherSuites + 2 + cslen
      let cmplen := (packetData compression).toNat
      let extensions := compression + 1 + cmplen
      let maxextlen := readBE 2 packetData extensions
      let packetPtr := extensions + 2
      let packetLimit :=
        if packetPtr + maxextlen < packetLength then packetPtr + maxextlen else packetLength
      some (extensionLoop packetData packetLimit packetPtr)

/-- `extract_url_https` of `nft_webmon`, with the text left in `domain`. -/
def extractUrlHttps (packetData : ByteBuffer) (packetLength : ℕ) : List Char :=
  (clientHelloHost packetData packetLength).getD []

/-! ## The rules -/

inductive MatchType
  | containsType | regexType | exactType
  deriving DecidableEq

inductive MatchPart
  | allPart | domainPart | pathPart
  deriving DecidableEq

/-- `nft_weburl_info`. -/
structure WeburlInfo where
  testStr : List Char
  matchType : MatchType
  matchPart : MatchPart
  invert : Bool

/-- The functions of `regexp.c`, with its compiled expressions. -/
structure RegexpLib (R : Type*) where
  regcomp : List Char → Option R
  regexec : R → List Char → Bool

section Rules

variable [Kernel] {R : Type*}

/-- `do_match_test`, with `compiled_map`. `strstr` finds a text in another. -/
def doMatchTest (lib : RegexpLib R) (compiledMap : Option (StringMap R)) (matchType : MatchType)
    (reference query : List Char) : Bool × Option (StringMap R) :=
  match matchType with
  | .containsType => (decide (reference <:+: query), compiledMap)
  | .regexType =>
    let compiled := compiledMap.getD (StringMap.initializeStringMap false)
    match compiled.getStringMapElement (String.ofList reference) with
    | some r => (lib.regexec r query, some compiled)
    | none =>
      match lib.regcomp reference with
      | none => (false, some compiled)
      | some r =>
        (lib.regexec r query,
          some (compiled.setStringMapElement (String.ofList reference) r).1)
  | .exactType =>
    (decide (reference <:+: query) && query.length == reference.length, compiledMap)

def firstMatch (lib : RegexpLib R) (priv : WeburlInfo) :
    List (List Char) → Option (StringMap R) → Bool × Option (StringMap R)
  | [], compiledMap => (false, compiledMap)
  | query :: queries, compiledMap =>
    let tested := doMatchTest lib compiledMap priv.matchType priv.testStr query
    if tested.1 then tested else firstMatch lib priv queries tested.2

/-- The names that are tested for a server, with and without a leading `www.`. -/
def hostNames (host : List Char) : List (List Char) :=
  if "www.".toList <+: host then [host, host.drop 4] else [host]

/-- The texts that `https_match` tests. There is no path in a first message. -/
def httpsQueries (matchPart : MatchPart) (host : List Char) : List (List Char) :=
  match matchPart with
  | .domainPart => hostNames host
  | .pathPart => []
  | .allPart => (hostNames host).flatMap fun name => ["https://".toList ++ name, name]

/-- The end of `https_match`, once the name of the server is known. -/
def matchHost (lib : RegexpLib R) (compiledMap : Option (StringMap R)) (priv : WeburlInfo)
    (host : List Char) : Bool × Option (StringMap R) :=
  let tested := firstMatch lib priv (httpsQueries priv.matchPart host) compiledMap
  (tested.1 ^^ priv.invert, tested.2)

/-- `https_match`, with `compiled_map`. -/
def httpsMatch (lib : RegexpLib R) (compiledMap : Option (StringMap R)) (priv : WeburlInfo)
    (packetData : ByteBuffer) (packetLength : ℕ) : Bool × Option (StringMap R) :=
  match clientHelloHost packetData packetLength with
  | none => (false, compiledMap)
  | some host => matchHost lib compiledMap priv host

end Rules

/-! ## The text of a request

`http_match` of `nft_weburl` and `extract_url` of `nft_webmon` take the path and
the host out of the text of a request. The packet is followed by other bytes of the
memory, `size` of which can be read from its beginning on, and the functions return
`none` when a byte behind these is read: the text is searched with `strstr`, which
wants a zero byte at its end, and some of the loops read a byte before they look at
the limit. A search that finds nothing leaves a null pointer, from which the
address of the packet is subtracted; the address is a parameter. -/

def chr (c : Char) : UInt8 := UInt8.ofNat c.toNat

/-- `islower` of the kernel, whose table is the one of Latin-1. -/
def islower (x : UInt8) : Bool :=
  (97 ≤ x.toNat && x.toNat ≤ 122) || (223 ≤ x.toNat && x.toNat != 247)

/-- `toupper` of the kernel. -/
def toupper (x : UInt8) : UInt8 := if islower x then x - 32 else x

/-- Whether `strnicmp` finds no difference to a text without zero bytes, over its
length. -/
def strnicmp (b : ByteBuffer) (size : ℕ) : List UInt8 → ℕ → Option Bool
  | [], _ => some true
  | c :: cs, off =>
    (readByte b size off).bind fun x =>
      if toupper x ≠ toupper c then some false else strnicmp b size cs (off + 1)

/-- `strnistr` for the text `c :: cs`, in `slen` bytes from `off` on. -/
def strnistr (b : ByteBuffer) (size : ℕ) (c : UInt8) (cs : List UInt8) : ℕ → ℕ → Option (Option ℕ)
  | 0, _ => some none
  | slen + 1, off =>
    (readByte b size off).bind fun sc =>
      if sc = 0 then some none
      else if toupper sc ≠ toupper c then strnistr b size c cs slen (off + 1)
      else if cs.length > slen then some none
      else
        (strnicmp b size cs (off + 1)).bind fun same =>
          if same then some (some off) else strnistr b size c cs slen (off + 1)

def isWebRequest (b : ByteBuffer) (len : ℕ) : Bool :=
  strnicmp b len ("GET ".toList.map chr) 0 = some true ||
    strnicmp b len ("POST ".toList.map chr) 0 = some true ||
    strnicmp b len ("HEAD ".toList.map chr) 0 = some true

/-- `strstr(packet_data + off, " ")` of the kernel. It takes the length of the text
first, up to a zero byte, and then looks for the blank. -/
def strstrBlank (b : ByteBuffer) (size off : ℕ) : Option (Option ℕ) :=
  (scan (fun x => x = 0) b size off).map fun fin => scanFrom (fun x => x = 32) b (fin - off) off

/-- The difference of a pointer and the address of the packet, as an `int`. -/
def pointerIndex (base : ℕ) : Option ℕ → ℤ
  | some i => i
  | none => (-(base : ℤ)).bmod (2 ^ 32)

def cString (xs : List UInt8) : List UInt8 := xs.takeWhile fun x => x ≠ 0

/-- The copy of at most 624 bytes that `memcpy` makes. A negative length is a very
large one. -/
def copyText (b : ByteBuffer) (size start : ℕ) (length : ℤ) : Option (List UInt8) :=
  let copied := if length < 625 then length else 624
  if copied < 0 then none else readBytes b size start copied.toNat

/-- The path of a request, with `path_end_index`, when its first blank is at
`first`. -/
def pathFrom (b : ByteBuffer) (size base : ℕ) (first : ℤ) : Option (ℤ × List UInt8) :=
  if first < 0 then none
  else
    (scan (fun x => x ≠ 32) b size first.toNat).bind fun start =>
      (strstrBlank b size start).bind fun fin =>
        let pathEnd := pointerIndex base fin
        if pathEnd > 0 then
          (copyText b size start (pathEnd - start)).map fun path => (pathEnd, cString path)
        else some (pathEnd, [])

/-- The loop for the end of the header, over `n` bytes from `off` on, with the
two bytes before. -/
def headerLoop (b : ByteBuffer) : ℕ → UInt8 → UInt8 → ℕ → ℕ
  | 0, _, _, off => off
  | n + 1, x, y, off =>
    let next := b off
    if next = 10 ∧ (y = 10 ∨ (x = 10 ∧ y = 13)) then off else headerLoop b n y next (off + 1)

def lastHeaderIndex (b : ByteBuffer) (len : ℕ) : ℕ := headerLoop b (len - 2) (b 0) (b 1) 2

def isHostEnd (x : UInt8) : Bool := x = 10 || x = 13 || x = 32 || x = 58

/-- The host of a request. `skip` is the loop over the blanks before it. -/
def hostWith (skip : ℕ → ℕ → Option ℕ) (b : ByteBuffer) (size len : ℕ) : Option (List UInt8) :=
  let last := lastHeaderIndex b len
  (strnistr b size (chr 'H') ("ost:".toList.map chr) last 0).bind fun found =>
    match found with
    | none => some []
    | some i =>
      (skip last (i + 5)).bind fun p =>
        (scanTo isHostEnd b size (last - p) p).bind fun r =>
          (copyText b size p (r - p)).map cString

/-- The blanks as `http_match` moves over them. -/
def skipBlanks (b : ByteBuffer) (size _last off : ℕ) : Option ℕ :=
  scan (fun x => x ≠ 32) b size off

/-- The blanks as `extract_url` moves over them. -/
def skipBlanksTo (b : ByteBuffer) (size last off : ℕ) : Option ℕ :=
  scanTo (fun x => x ≠ 32) b size (last - off) off

/-- The path and the host that `http_match` tests. -/
def httpAddress (b : ByteBuffer) (size len base : ℕ) : Option (List Char × List Char) :=
  (strstrBlank b size 0).bind fun first =>
    (pathFrom b size base (pointerIndex base first)).bind fun path =>
      (hostWith (skipBlanks b size) b size len).map fun host => (text path.2, text host)

/-- `extract_url` of `nft_webmon`, with `domain` and `path`. -/
def extractUrl (b : ByteBuffer) (size len base : ℕ) : Option (List Char × List Char) :=
  (strnistr b size 32 [] len 0).bind fun first =>
    match first with
    | none => some ([], [])
    | some i =>
      (strnistr b size 32 [] ((((len : ℤ) - (i + 2)) % 2 ^ 64).toNat) i).bind fun second =>
        if second.isNone then some ([], [])
        else
          (pathFrom b size base i).bind fun path =>
            if path.1 > 0 then
              (hostWith (skipBlanksTo b size) b size len).map fun host =>
                ((text host).map tolower, text path.2)
            else some ([], [])

/-! ## The test of a rule -/

/-- The texts that `http_match` tests. -/
def httpQueries (matchPart : MatchPart) (host path : List Char) : List (List Char) :=
  match matchPart with
  | .domainPart => hostNames host
  | .pathPart => if path.head? = some '/' then [path, path.drop 1] else [path]
  | .allPart =>
    (hostNames host).flatMap fun name =>
      ["http://".toList, []].flatMap fun scheme =>
        if path = ['/'] then [scheme ++ name, scheme ++ name ++ path]
        else [scheme ++ name ++ path]

variable [Kernel] {R : Type*}

/-- `http_match`, with `compiled_map`. -/
def httpMatch (lib : RegexpLib R) (compiledMap : Option (StringMap R)) (priv : WeburlInfo)
    (b : ByteBuffer) (size len base : ℕ) : Option (Bool × Option (StringMap R)) :=
  (httpAddress b size len base).map fun address =>
    let tested := firstMatch lib priv (httpQueries priv.matchPart address.2 address.1) compiledMap
    (tested.1 ^^ priv.invert, tested.2)

end Weburl

end Gargoyle
