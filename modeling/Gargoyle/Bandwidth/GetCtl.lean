import Gargoyle.Bandwidth.IpBlock

/-!
# Reading counters

`nft_bandwidth_get_ctl` and what it is made of. The first request for an id makes
a list of its addresses, and every reply carries the blocks of as many addresses
of the list as fit in the buffer, from the index the request asks for. The list
is kept between requests, and the counters are read when their block is made.

The buffer of a reply is the one of the request; only its first `len` bytes are
copied back. A counter that has been freed is read as zero.
-/

namespace Gargoyle

namespace Bandwidth

open ByteBuffer

inductive GetError
  | none
  | noId
  | bufferTooShort
  | noHistory
  | unknown
deriving DecidableEq

def GetError.code : GetError → ℕ
  | .none => 0
  | .noId => 1
  | .bufferTooShort => 2
  | .noHistory => 3
  | .unknown => 4

structure GetRequest where
  family : ℕ
  ip : In6Addr
  nextIpIndex : ℕ
  returnHistory : Bool
  id : String

/-- `__UINT32_MAX__`. -/
def uint32Max : ℕ := 2 ^ 32 - 1

def getRequestLength : ℕ := bandwidthMaxIdLength + 25

def parseGetRequest (b : ByteBuffer) : GetRequest :=
  let family := readLE 4 b 0
  let ip := readIp b 4
  { family := family
    ip := if family = NfProto.ipv4.code then ![ip 0, 0, 0, 0] else ip
    nextIpIndex := readLE 4 b 20
    returnHistory := b 24 ≠ 0
    id := readId b 25 }

structure HistoryReport where
  firstStart : ℤ
  firstEnd : ℤ
  lastEnd : ℤ
  bws : List ℕ
deriving DecidableEq

def BwHistory.report (h : BwHistory) (cells : Arena ℕ) : HistoryReport :=
  ⟨h.firstStart, h.firstEnd, h.lastEnd, h.chronological cells⟩

def sentTime (west previousReset x : ℤ) : ℕ :=
  toUint64 ((if x > 0 then x else previousReset) + 60 * west)

variable [Kernel]

def IdUnit.report (u : IdUnit) (ip : String) : Option HistoryReport :=
  (u.maps.ipHistoryMap.bind fun histories => histories.get ip).map fun h => h.report u.maps.cells

/-- The block `add_ip_block` makes for an address, with the length it checks the
buffer for. Without a history the block in the format for histories is longer
than this length, by its one node. -/
def ipBlock (u : IdUnit) (west : ℤ) (fullHistory : Bool) (family : ℕ) (ip : In6Addr) :
    ℕ × List (ℕ × ℕ) :=
  let ipstr := printIp family ip
  let bw := (u.counter ipstr).getD 0
  let previousReset := u.info.previousReset
  if fullHistory then
    let history := if u.info.numIntervalsToSave > 0 then u.report ipstr else none
    match history with
    | none =>
      let lastReset := toUint64 (previousReset + 60 * west)
      (48, historyFields family ip lastReset lastReset lastReset [bw])
    | some r =>
      (48 + 8 * r.bws.length,
        historyFields family ip (sentTime west previousReset r.firstStart)
          (sentTime west previousReset r.firstEnd) (sentTime west previousReset r.lastEnd) r.bws)
  else (28, plainFields family ip bw)

/-- `add_ip_block`, with the index behind the block; `none` is
`ERROR_BUFFER_TOO_SHORT`. -/
def addIpBlock (u : IdUnit) (west : ℤ) (fullHistory : Bool) (len family : ℕ) (ip : In6Addr)
    (b : ByteBuffer) (index : ℕ) : Option (ByteBuffer × ℕ) :=
  let block := ipBlock u west fullHistory family ip
  if addUint32 index block.1 > len then none
  else some (writeFields b index block.2, addUint32 index (size block.2))

def parseIp (k : String) : Option (ℕ × In6Addr) :=
  match Kernel.in4Pton k with
  | some a => some (NfProto.ipv4.code, ![a, 0, 0, 0])
  | none => (Kernel.in6Pton k).map fun a => (NfProto.ipv6.code, a)

structure ReplyState where
  buffer : ByteBuffer
  index : ℕ
  numIps : ℕ
  error : GetError

def addIpBlocks (u : IdUnit) (west : ℤ) (fullHistory : Bool) (len : ℕ) :
    List String → ReplyState → ReplyState
  | [], s => s
  | k :: ks, s =>
    match parseIp k with
    | none => { s with error := .unknown }
    | some (family, ip) =>
      match addIpBlock u west fullHistory len family ip s.buffer s.index with
      | none => { s with error := .bufferTooShort }
      | some (b, index) =>
        addIpBlocks u west fullHistory len ks
          { s with buffer := b, index := index, numIps := s.numIps + 1 }

def getHeaderLength : ℕ := 30

def getHeader (error : GetError) (totalIps startIndex numIps : ℕ) (info : NftBandwidthInfo) :
    List (ℕ × ℕ) :=
  [(1, error.code), (4, totalIps), (4, startIndex), (4, numIps),
    (8, toUint64 info.resetInterval), (8, toUint64 info.resetTime),
    (1, info.resetIsConstantInterval.toNat)]

def copyToUser (user b : ByteBuffer) (len : ℕ) : ByteBuffer :=
  fun i => if i < len then b i else user i

def singleReply (u : IdUnit) (west : ℤ) (query : GetRequest) (len : ℕ) (b : ByteBuffer) :
    ByteBuffer :=
  match addIpBlock u west query.returnHistory len query.family query.ip b getHeaderLength with
  | some (b', _) => writeFields b' 0 (getHeader .none 1 0 1 u.info)
  | none => writeFields b 0 (getHeader .bufferTooShort 0 0 0 u.info)

def listReply (u : IdUnit) (west : ℤ) (query : GetRequest) (len : ℕ) (list : List String)
    (b : ByteBuffer) : ByteBuffer × Option (List String) :=
  let s := addIpBlocks u west query.returnHistory len (list.drop query.nextIpIndex)
    ⟨b, getHeaderLength, 0, .none⟩
  let error := if s.error = .bufferTooShort ∧ s.numIps > 0 then GetError.none else s.error
  (writeFields s.buffer 0 (getHeader error list.length query.nextIpIndex s.numIps u.info),
    if query.nextIpIndex + s.numIps = list.length then none else some list)

def newList (u : IdUnit) (query : GetRequest) : List String :=
  if u.info.type = .combined ∨ query.nextIpIndex = uint32Max then [combinedIp]
  else u.maps.ipMap.keys

def GetRequest.First (query : GetRequest) : Prop :=
  (query.nextIpIndex = 0 ∨ query.nextIpIndex = uint32Max) ∧ query.ip = 0

instance (query : GetRequest) : Decidable query.First :=
  inferInstanceAs (Decidable ((_ ∨ _) ∧ _))

namespace ModuleState

/-- `handle_get_failure`: only the error code is copied back. -/
def getFailure (user : ByteBuffer) (error : GetError) : ByteBuffer :=
  user.writeByte 0 (UInt8.ofNat error.code)

def getTarget (m : ModuleState) (query : GetRequest) : Option (ℕ × IdUnit) :=
  (m.idMap.get query.id).bind fun p =>
    (m.unit p).bind fun u =>
      if u.info.numIntervalsToSave > 0 ∧ u.maps.ipHistoryMap.isNone then none else some (p, u)

def resetBeforeGet (m : ModuleState) (p : ℕ) (now : ℤ) : ModuleState :=
  m.onUnit p fun u =>
    if u.info.resetInterval ≠ bandwidthNever ∧ u.info.nextReset < now then handleIntervalReset now u
    else u

/-- The reply for the id behind `p`, once the list is there. -/
def answer (m : ModuleState) (p : ℕ) (query : GetRequest) (user : ByteBuffer) (len : ℕ)
    (now : ℤ) : ModuleState × ByteBuffer :=
  let m' := m.resetBeforeGet p now
  match m'.unit p with
  | none => (m', user)
  | some u =>
    if query.ip ≠ 0 then
      (m', copyToUser user (singleReply u m.clock.localMinutesWest query len user) len)
    else
      let reply := listReply u m.clock.localMinutesWest query len (m.outputIpList.getD []) user
      ({ m' with outputIpList := reply.2 }, copyToUser user reply.1 len)

/-- `nft_bandwidth_get_ctl`, with the buffer it leaves to the caller. -/
def nftBandwidthGetCtl (m : ModuleState) (user : ByteBuffer) (len : ℕ) (t : Tick) :
    ModuleState × ByteBuffer :=
  let m' := m.timeChecksCtl t
  let now := t.now - m'.clock.localSecondsWest
  let query := parseGetRequest user
  if len < getRequestLength then (m', getFailure user .bufferTooShort)
  else
    match m'.getTarget query with
    | none => (m', getFailure user .noId)
    | some (p, u) =>
      if query.First then
        { m' with outputIpList := some (newList u query) }.answer p { query with nextIpIndex := 0 }
          user len now
      else if query.nextIpIndex > 0 ∧
          (m'.outputIpList.isNone ∨ query.nextIpIndex > (m'.outputIpList.getD []).length) then
        (m', getFailure user .unknown)
      else m'.answer p query user len now

end ModuleState

end Bandwidth

end Gargoyle
