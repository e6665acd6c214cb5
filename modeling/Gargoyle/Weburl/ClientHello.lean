import Gargoyle.Weburl.Bounds

/-!
# The server name of a first message

A well-formed first message of a TLS connection is put together from its parts,
each behind its length. The extensions stand at its end in any order, and the
one with the server name is the only one of type 0. The loop over the extensions
finds it wherever it stands; but the name is taken only when it ends before the
last byte of the extensions, so that the name of a last extension is missed.
-/

namespace Gargoyle

open List

namespace Weburl

open ByteBuffer TreeMap
open Bandwidth (Kernel referenceKernel)

structure Extension where
  extType : ℕ
  body : List UInt8
  extType_pos : 0 < extType
  extType_lt : extType < 256 ^ 2
  body_lt : body.length < 256 ^ 2

def Extension.bytes (e : Extension) : List UInt8 := beBytes 2 e.extType ++ vector 2 e.body

def extensionBytes (es : List Extension) : List UInt8 := es.flatMap Extension.bytes

def serverNameBytes (host : List UInt8) : List UInt8 :=
  beBytes 2 0 ++ vector 2 (vector 2 (beBytes 1 0 ++ vector 2 host))

structure ClientHello where
  recordVersion : List UInt8
  version : List UInt8
  random : List UInt8
  sessionId : List UInt8
  cipherSuites : List UInt8
  compressionMethods : List UInt8
  before : List Extension
  host : List UInt8
  after : List Extension
  recordVersion_length : recordVersion.length = 2
  version_length : version.length = 2
  random_length : random.length = 32
  sessionId_length : sessionId.length ≤ 32
  cipherSuites_length : 2 ≤ cipherSuites.length ∧ cipherSuites.length % 2 = 0
  compressionMethods_length :
    1 ≤ compressionMethods.length ∧ compressionMethods.length < 256
  host_length : 1 ≤ host.length ∧ host.length ≤ 624
  host_nonzero : (0 : UInt8) ∉ host
  fits : 44 + sessionId.length + cipherSuites.length + compressionMethods.length +
    (extensionBytes before ++ serverNameBytes host ++ extensionBytes after).length < 256 ^ 2

namespace ClientHello

variable (hello : ClientHello)

def extensions : List UInt8 :=
  extensionBytes hello.before ++ serverNameBytes hello.host ++ extensionBytes hello.after

def extensionBlock : List UInt8 := vector 2 hello.extensions

def body : List UInt8 :=
  hello.version ++ hello.random ++ vector 1 hello.sessionId ++ vector 2 hello.cipherSuites ++
    vector 1 hello.compressionMethods ++ hello.extensionBlock

def bytes : List UInt8 :=
  beBytes 1 22 ++ hello.recordVersion ++ vector 2 (beBytes 1 1 ++ vector 3 hello.body)

def lowerHost : List Char := (text hello.host).map tolower

end ClientHello

/-! ## The loop over the extensions -/

theorem length_bytes (e : Extension) : e.bytes.length = 4 + e.body.length := by
  rw [Extension.bytes, length_append, length_beBytes, length_vector]
  omega

theorem length_serverNameBytes (host : List UInt8) :
    (serverNameBytes host).length = 9 + host.length := by
  simp only [serverNameBytes, length_append, length_beBytes, length_vector]
  omega

theorem extensionBytes_eq_nil {es : List Extension} : extensionBytes es = [] ↔ es = [] := by
  cases es with
  | nil => simp [extensionBytes]
  | cons e es =>
    have hlen := length_bytes e
    have hne : e.bytes ≠ [] := ne_nil_of_length_pos (by omega)
    simp [extensionBytes, hne]

section

variable {packetData : ByteBuffer} {packetLimit packetPtr : ℕ}

theorem extensionLoop_skip {e : Extension} {rest : List UInt8}
    (hstored : Stores packetData packetPtr (e.bytes ++ rest))
    (hlimit : packetPtr + (e.bytes ++ rest).length = packetLimit) :
    extensionLoop packetData packetLimit packetPtr =
      extensionLoop packetData packetLimit (packetPtr + e.bytes.length) := by
  obtain ⟨htype, hbody⟩ := stores_append.1 (stores_append.1 hstored).1
  have hlen := length_bytes e
  have hread : readBE 2 packetData packetPtr = e.extType := readBE_of_stores htype e.extType_lt
  have hextLen : readBE 2 packetData (packetPtr + 2) = e.body.length := by
    rw [length_beBytes] at hbody
    exact readBE_of_stores_vector hbody e.body_lt
  have hin : packetPtr < packetLimit := by
    rw [length_append] at hlimit
    omega
  conv_lhs => rw [extensionLoop]
  rw [if_pos hin, hread, if_neg e.extType_pos.ne', hextLen, hlen, ← Nat.add_assoc]

/-- The name of the server is found in its extension. -/
theorem extensionLoop_serverName {host rest : List UInt8} (hpos : 1 ≤ host.length)
    (hle : host.length ≤ 624) (hzero : (0 : UInt8) ∉ host)
    (hstored : Stores packetData packetPtr (serverNameBytes host ++ rest))
    (hlimit : packetPtr + (serverNameBytes host ++ rest).length = packetLimit) :
    extensionLoop packetData packetLimit packetPtr =
      if rest = [] then [] else (text host).map tolower := by
  have hname := (stores_append.1 hstored).1
  have hlen := length_serverNameBytes host
  rw [length_append] at hlimit
  simp only [serverNameBytes, vector, stores_append, length_beBytes] at hname
  obtain ⟨htype, -, -, -, hhostLen, hhost⟩ := hname
  have hread : readBE 2 packetData packetPtr = 0 := readBE_of_stores htype (by norm_num)
  have hsnilen : readBE 2 packetData (packetPtr + 7) = host.length :=
    readBE_of_stores hhostLen (by omega)
  have hcopied : (if host.length < 625 then host.length else 624) = host.length :=
    if_pos (by omega)
  have hchars : readChars packetData (packetPtr + 9) host.length = text host :=
    readChars_of_stores hhost hzero
  have hin : packetPtr < packetLimit := by omega
  rw [extensionLoop, if_pos hin, hread, if_pos rfl, hsnilen]
  dsimp only
  rw [hcopied, hchars]
  rcases eq_nil_or_concat rest with rfl | ⟨rest, x, rfl⟩
  · rw [length_nil] at hlimit
    rw [if_neg (by omega), if_pos rfl]
  · rw [concat_eq_append, length_append, length_singleton] at hlimit
    rw [if_pos (by omega), if_neg (by simp)]

theorem extensionLoop_before {before : List Extension} {rest : List UInt8}
    (hstored : Stores packetData packetPtr (extensionBytes before ++ rest))
    (hlimit : packetPtr + (extensionBytes before ++ rest).length = packetLimit) :
    extensionLoop packetData packetLimit packetPtr =
      extensionLoop packetData packetLimit (packetPtr + (extensionBytes before).length) := by
  induction before generalizing packetPtr with
  | nil => rfl
  | cons e before ih =>
    have hcons : extensionBytes (e :: before) = e.bytes ++ extensionBytes before :=
      flatMap_cons
    rw [hcons, append_assoc] at hstored hlimit
    have hrest := (stores_append.1 hstored).2
    have hlimit' : packetPtr + e.bytes.length + (extensionBytes before ++ rest).length =
        packetLimit := by
      rw [← hlimit, @List.length_append _ e.bytes, Nat.add_assoc]
    rw [extensionLoop_skip hstored hlimit, ih hrest hlimit', hcons, length_append,
      ← Nat.add_assoc]

/-! ## The name that is found -/

namespace ClientHello

variable (hello : ClientHello) {packetLength : ℕ}

theorem length_extensions_le : 44 + hello.sessionId.length + hello.cipherSuites.length +
    hello.compressionMethods.length + hello.extensions.length < 256 ^ 2 :=
  hello.fits

theorem length_bytes_eq : hello.bytes.length = 49 + hello.sessionId.length +
    hello.cipherSuites.length + hello.compressionMethods.length + hello.extensions.length := by
  simp only [bytes, body, extensionBlock, length_append, length_beBytes, length_vector,
    hello.recordVersion_length, hello.version_length, hello.random_length]
  omega

def extensionsStart : ℕ :=
  49 + hello.sessionId.length + hello.cipherSuites.length + hello.compressionMethods.length

/-- In a hello that is stored, the loop runs over its extensions. -/
theorem clientHelloHost_eq (hstored : Stores packetData 0 hello.bytes)
    (hlength : hello.bytes.length ≤ packetLength) :
    Stores packetData hello.extensionsStart hello.extensions ∧
      clientHelloHost packetData packetLength = some (extensionLoop packetData
        (hello.extensionsStart + hello.extensions.length) hello.extensionsStart) := by
  have hfits := hello.length_extensions_le
  have hbytes := hello.length_bytes_eq
  have hsid := hello.sessionId_length
  have hcmp := hello.compressionMethods_length
  simp only [bytes, body, extensionBlock, vector, stores_append, length_beBytes,
    length_append, hello.recordVersion_length, hello.version_length,
    hello.random_length] at hstored
  obtain ⟨⟨hconttype, -⟩, -, hhndshktype, -, ⟨⟨⟨⟨⟨-, -⟩, hsidlen, -⟩, hcslen, -⟩, hcmplen, -⟩,
    hmaxextlen, hextensions⟩⟩ := hstored
  have h0 : packetData 0 = 22 := hconttype.1
  have h5 : packetData 5 = 1 := hhndshktype.1
  have h43 : (packetData 43).toNat = hello.sessionId.length := by
    rw [← readBE_one]
    exact readBE_of_stores hsidlen (by omega)
  have hcs : readBE 2 packetData (1 + 43 + hello.sessionId.length) =
      hello.cipherSuites.length := by
    convert readBE_of_stores hcslen (by omega) using 2
    omega
  have hcmp : (packetData (1 + 43 + hello.sessionId.length + 2 +
      hello.cipherSuites.length)).toNat = hello.compressionMethods.length := by
    rw [← readBE_one]
    convert readBE_of_stores hcmplen (by omega) using 2
    omega
  have hmax : readBE 2 packetData (1 + 43 + hello.sessionId.length + 2 +
      hello.cipherSuites.length + 1 + hello.compressionMethods.length) =
        hello.extensions.length := by
    convert readBE_of_stores hmaxextlen (by omega) using 2
    omega
  have hstart : 1 + 43 + hello.sessionId.length + 2 + hello.cipherSuites.length + 1 +
      hello.compressionMethods.length + 2 = hello.extensionsStart := by
    rw [extensionsStart]
    omega
  refine ⟨?_, ?_⟩
  · convert hextensions using 1
    rw [← hstart]
    omega
  · rw [clientHelloHost, if_neg (by omega)]
    dsimp only
    rw [h0, h5, if_neg (by decide), if_neg (by decide), h43, hcs, hcmp, hmax, hstart]
    congr 2
    rw [extensionsStart]
    split_ifs <;> omega

theorem clientHelloHost_bytes (hstored : Stores packetData 0 hello.bytes)
    (hlength : hello.bytes.length ≤ packetLength) :
    clientHelloHost packetData packetLength =
      some (if hello.after = [] then [] else hello.lowerHost) := by
  obtain ⟨hextensions, hloop⟩ := hello.clientHelloHost_eq hstored hlength
  rw [extensions, append_assoc] at hextensions
  have hlimit : hello.extensionsStart + (extensionBytes hello.before ++
      (serverNameBytes hello.host ++ extensionBytes hello.after)).length =
        hello.extensionsStart + hello.extensions.length := by
    rw [extensions, append_assoc]
  have hlimit' : hello.extensionsStart + (extensionBytes hello.before).length +
      (serverNameBytes hello.host ++ extensionBytes hello.after).length =
        hello.extensionsStart + hello.extensions.length := by
    rw [← hlimit, @List.length_append _ (extensionBytes hello.before), Nat.add_assoc]
  rw [hloop, extensionLoop_before hextensions hlimit,
    extensionLoop_serverName hello.host_length.1 hello.host_length.2 hello.host_nonzero
      (stores_append.1 hextensions).2 hlimit']
  simp only [extensionBytes_eq_nil, lowerHost]

theorem lowerHost_ne_nil : hello.lowerHost ≠ [] := by
  have hpos := hello.host_length.1
  simp only [lowerHost, text, ne_eq, map_eq_nil_iff]
  exact ne_nil_of_length_pos hpos

/-- Both modules see the host name in lower case, and the rules are tested on it,
exactly when the server name is not the last extension. -/
theorem host_seen_iff [Kernel] (hstored : Stores packetData 0 hello.bytes)
    (hlength : hello.bytes.length ≤ packetLength) :
    (clientHelloHost packetData packetLength = some hello.lowerHost ∧
      extractUrlHttps packetData packetLength = hello.lowerHost ∧
      ∀ (R : Type) (lib : RegexpLib R) (compiledMap : Option (StringMap R)) (priv : WeburlInfo),
        httpsMatch lib compiledMap priv packetData packetLength =
          matchHost lib compiledMap priv hello.lowerHost) ↔ hello.after ≠ [] := by
  have hhost := hello.clientHelloHost_bytes hstored hlength
  constructor
  · rintro ⟨hfound, -, -⟩ hlast
    rw [hhost, if_pos hlast, Option.some.injEq] at hfound
    exact hello.lowerHost_ne_nil hfound.symm
  · intro hmore
    rw [if_neg hmore] at hhost
    refine ⟨hhost, ?_, fun R lib compiledMap priv => ?_⟩
    · rw [extractUrlHttps, hhost, Option.getD_some]
    · rw [httpsMatch, hhost]

/-- A first message for the host `Ads.com`, with the given extensions behind the
server name. -/
def forAds (after : List Extension) (hafter : (extensionBytes after).length < 65000) :
    ClientHello where
  recordVersion := [3, 1]
  version := [3, 3]
  random := List.replicate 32 7
  sessionId := []
  cipherSuites := [19, 1]
  compressionMethods := [0]
  before := [⟨10, [0, 2, 0, 29], by decide, by decide, by decide⟩]
  host := [65, 100, 115, 46, 99, 111, 109]
  after := after
  recordVersion_length := rfl
  version_length := rfl
  random_length := rfl
  sessionId_length := by decide
  cipherSuites_length := by decide
  compressionMethods_length := by decide
  host_length := by decide
  host_nonzero := by decide
  fits := by
    simp [extensionBytes, length_bytes, length_serverNameBytes] at hafter ⊢
    omega

section Ads

local instance adsKernel : Kernel := referenceKernel 64

/-- With another extension behind it the name is seen. -/
theorem ads_seen :
    let hello := forAds [⟨23, [], by decide, by decide, by decide⟩] (by decide)
    hello.lowerHost = "ads.com".toList ∧
      clientHelloHost (ofBytes hello.bytes) hello.bytes.length = some hello.lowerHost ∧
      extractUrlHttps (ofBytes hello.bytes) hello.bytes.length = hello.lowerHost := by
  intro hello
  obtain ⟨hfound, hdomain, -⟩ :=
    (hello.host_seen_iff (stores_ofBytes hello.bytes) le_rfl).2 (cons_ne_nil _ _)
  exact ⟨by decide, hfound, hdomain⟩

/-- As the last extension it is not, and the rule that blocks the host does not
match. -/
theorem last_name_missed :
    let hello := forAds [] (by decide)
    let priv : WeburlInfo := ⟨"ads.com".toList, .exactType, .domainPart, false⟩
    hello.lowerHost = "ads.com".toList ∧
      Stores (ofBytes hello.bytes) 0 hello.bytes ∧
      extractUrlHttps (ofBytes hello.bytes) hello.bytes.length = [] ∧
      ∀ (R : Type) (lib : RegexpLib R) (compiledMap : Option (StringMap R)),
        (httpsMatch lib compiledMap priv (ofBytes hello.bytes) hello.bytes.length).1 = false ∧
          (matchHost lib compiledMap priv hello.lowerHost).1 = true := by
  intro hello priv
  have hstored := stores_ofBytes hello.bytes
  have hlower : hello.lowerHost = "ads.com".toList := by decide
  have hhost := hello.clientHelloHost_bytes hstored le_rfl
  rw [if_pos (show hello.after = [] from rfl)] at hhost
  refine ⟨hlower, hstored, ?_, fun R lib compiledMap => ⟨?_, ?_⟩⟩
  · rw [extractUrlHttps, hhost, Option.getD_some]
  · rw [httpsMatch, hhost]
    rfl
  · rw [hlower]
    rfl

end Ads

end ClientHello

end

/-!
## Rules for domains

A rule for domains is tested on the host of a plain request, and on the server name
of an encrypted one. `https_match` turns the name into lower case before, and
`http_match` takes it as it is. The two agree on every rule exactly for the names
without capital letters.
-/

/-! ### Lower case -/

theorem toNat_tolower {c : Char} (h : isupper c = true) : (tolower c).toNat = c.toNat + 32 := by
  have hvalid : (c.toNat + 32).isValidChar := by
    simp only [isupper, Bool.or_eq_true, Bool.and_eq_true, decide_eq_true_eq] at h
    exact .inl (by omega)
  rw [tolower, if_pos h, Char.ofNat, dif_pos hvalid]
  rfl

theorem isupper_tolower (c : Char) : isupper (tolower c) = false := by
  by_cases h : isupper c = true
  · have hc := h
    simp only [isupper, Bool.or_eq_true, Bool.and_eq_true, decide_eq_true_eq, bne_iff_ne] at hc
    simp only [isupper, toNat_tolower h, Bool.or_eq_false_iff, Bool.and_eq_false_iff,
      decide_eq_false_iff_not]
    omega
  · rw [tolower, if_neg h]
    exact Bool.eq_false_iff.2 h

theorem tolower_of_not_isupper {c : Char} (h : isupper c = false) : tolower c = c :=
  if_neg (by simp [h])

theorem notMem_lower {c : Char} (h : isupper c = true) (host : List Char) :
    c ∉ host.map tolower := by
  intro hmem
  obtain ⟨d, -, rfl⟩ := List.mem_map.1 hmem
  rw [isupper_tolower] at h
  cases h

/-! ### The verdicts -/

section Verdicts

variable [Kernel] {b b' : ByteBuffer} {size len len' base : ℕ} {path host : List Char}

omit [Kernel] in
theorem mem_hostNames (host : List Char) : host ∈ hostNames host := by
  unfold hostNames
  split_ifs <;> exact mem_cons_self

omit [Kernel] in
theorem mem_of_mem_hostNames {name : List Char} {c : Char} (hname : name ∈ hostNames host)
    (hc : c ∈ name) : c ∈ host := by
  unfold hostNames at hname
  split_ifs at hname
  · rcases List.mem_pair.1 hname with rfl | rfl
    · exact hc
    · exact mem_of_mem_drop hc
  · obtain rfl := List.mem_singleton.1 hname
    exact hc

def letterRule (c : Char) : WeburlInfo := ⟨[c], .containsType, .domainPart, false⟩

theorem firstMatch_letterRule {R : Type*} {lib : RegexpLib R} {c : Char}
    {queries : List (List Char)} {compiledMap : Option (StringMap R)} :
    (firstMatch lib (letterRule c) queries compiledMap).1 = decide (∃ q ∈ queries, c ∈ q) := by
  induction queries with
  | nil => simp [firstMatch]
  | cons q queries ih =>
    simp only [firstMatch, doMatchTest, letterRule, singleton_infix_iff]
    by_cases hmem : c ∈ q
    · simp [hmem]
    · simpa [hmem, letterRule] using ih

/-- For a name without capital letters the two functions agree on every rule for
domains, and only for such a name. -/
theorem domain_verdicts_agree_iff (hhttp : httpAddress b size len base = some (path, host))
    (hhttps : serverName b' len' = some (some host)) :
    (∀ (R : Type) (lib : RegexpLib R) (compiledMap : Option (StringMap R)) (priv : WeburlInfo),
      priv.matchPart = .domainPart →
        (httpMatch lib compiledMap priv b size len base).map Prod.fst =
          some (httpsMatch lib compiledMap priv b' len').1) ↔
      ∀ c ∈ host, isupper c = false := by
  have hname : clientHelloHost b' len' = some (host.map tolower) :=
    clientHelloHost_of_serverName hhttps
  constructor
  · intro hagree c hc
    by_contra hupper
    rw [Bool.not_eq_false] at hupper
    have hrule := hagree Unit ⟨fun _ => none, fun _ _ => false⟩ none (letterRule c) rfl
    rw [httpMatch, hhttp, httpsMatch, hname] at hrule
    simp only [Option.map_some, matchHost, firstMatch_letterRule, Option.some.injEq,
      Bool.xor_left_inj, decide_eq_decide] at hrule
    obtain ⟨q, hq, hmem⟩ := hrule.1 ⟨host, mem_hostNames host, hc⟩
    exact notMem_lower hupper host (mem_of_mem_hostNames hq hmem)
  · intro hlower R lib compiledMap priv hpart
    have hmap : host.map tolower = host := by
      rw [map_congr_left fun c hc => tolower_of_not_isupper (hlower c hc), map_id']
    rw [httpMatch, hhttp, httpsMatch, hname, hmap]
    simp only [Option.map_some, matchHost, hpart, httpQueries, httpsQueries]

end Verdicts

section Ads

local instance domainKernel : Kernel := referenceKernel 64

/-- A first message for the host `host`, with another extension behind the name. -/
def helloFor (host : List UInt8) (hhost : 1 ≤ host.length ∧ host.length ≤ 624)
    (hzero : (0 : UInt8) ∉ host) : ClientHello :=
  { ClientHello.forAds [⟨23, [], by decide, by decide, by decide⟩] (by decide) with
    host := host
    host_length := hhost
    host_nonzero := hzero
    fits := by
      simp only [ClientHello.forAds, extensionBytes, flatMap_cons, flatMap_nil,
        length_append, length_bytes, length_serverNameBytes, length_cons,
        length_nil]
      omega }

/-- The two functions agree on `ads.com`. -/
theorem lower_case_agrees :
    let request := packetOf "GET / HTTP/1.1\r\nHost: ads.com\r\n\r\n"
    let memory := request ++ [0]
    let hello := (helloFor (packetOf "ads.com") (by decide) (by decide)).bytes
    ∀ (R : Type) (lib : RegexpLib R) (compiledMap : Option (StringMap R)) (priv : WeburlInfo),
      priv.matchPart = .domainPart →
        (httpMatch lib compiledMap priv (ofBytes memory) memory.length request.length 0).map
          Prod.fst = some (httpsMatch lib compiledMap priv (ofBytes hello) hello.length).1 := by
  intro request memory hello
  exact (@domain_verdicts_agree_iff _ (ofBytes memory) (ofBytes hello) memory.length
    request.length hello.length 0 "/".toList "ads.com".toList (by decide)
    (by decide)).2 (Numerals.forall_mem_of_all (by decide))

/-- They do not on `Ads.com`, with the rule for exactly `Ads.com`. -/
theorem capital_differs :
    let request := packetOf "GET / HTTP/1.1\r\nHost: Ads.com\r\n\r\n"
    let memory := request ++ [0]
    let hello := (helloFor (packetOf "Ads.com") (by decide) (by decide)).bytes
    let priv : WeburlInfo := ⟨"Ads.com".toList, .exactType, .domainPart, false⟩
    let lib : RegexpLib Unit := ⟨fun _ => none, fun _ _ => false⟩
    httpAddress (ofBytes memory) memory.length request.length 0 =
        some ("/".toList, "Ads.com".toList) ∧
      serverName (ofBytes hello) hello.length = some (some "Ads.com".toList) ∧
      (httpMatch lib none priv (ofBytes memory) memory.length request.length 0).map Prod.fst =
        some true ∧
      (httpsMatch lib none priv (ofBytes hello) hello.length).1 = false := by
  intro request memory hello priv lib
  have hhttp : httpAddress (ofBytes memory) memory.length request.length 0 =
      some ("/".toList, "Ads.com".toList) := by decide
  have hhttps : serverName (ofBytes hello) hello.length = some (some "Ads.com".toList) := by
    decide
  refine ⟨hhttp, hhttps, ?_, ?_⟩
  · rw [httpMatch, hhttp]
    rfl
  · rw [httpsMatch, clientHelloHost_of_serverName hhttps]
    rfl

end Ads

end Weburl

end Gargoyle
