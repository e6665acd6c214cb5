import Gargoyle.Bandwidth.Page
import Gargoyle.Bandwidth.SharedId
import Gargoyle.Bwctl.SetData

/-!
# Reading all counters of an id

`get_bandwidth_data` of `libnftbwctl` for all addresses. The library asks for one
page after the other until it has as many addresses as the module says there are,
and the module keeps the list of the addresses from the first request on. Whatever
happens between two requests, the library ends up with every address of the list,
in the order of the list (`paging_complete`).

Every block is decoded to what `add_ip_block` has reported when its page was made,
and the times of a history are corrected for daylight saving time. A block without
a history that is written beyond the end of the buffer is left out.
-/

namespace Gargoyle

open List

namespace Bwctl

open Bandwidth ByteBuffer

/-- An entry of `*data`, which is of the kind that `get_history` says. -/
inductive IpEntry
  | bw (d : IpBw)
  | history (d : IpBwHistory)

def IpEntry.address : IpEntry → BitVec 32 × In6Addr
  | .bw d => (d.family, d.ip)
  | .history d => (d.family, d.ip)

/-- `parse_returned_ip_data`, with the index behind the block. -/
def parseReturnedIpData (minutesWest : ℤ → ℤ) (now : ℤ) (getHistory : Bool) (reset : ResetFields)
    (b : ByteBuffer) (index : ℕ) : IpEntry × ℕ :=
  if getHistory then
    let parsed := parseReturnedHistory minutesWest now reset b index
    (.history parsed.1, parsed.2)
  else
    let parsed := parseReturnedIp b index
    (.bw parsed.1, parsed.2)

/-- The loop over the blocks of a reply; `clock i` is the time when entry `i` is
parsed. -/
def parseEntries (minutesWest : ℤ → ℤ) (clock : ℕ → ℤ) (getHistory : Bool) (reset : ResetFields)
    (b : ByteBuffer) : ℕ → ℕ → ℕ → List IpEntry
  | 0, _, _ => []
  | n + 1, dataIndex, index =>
    let parsed := parseReturnedIpData minutesWest (clock dataIndex) getHistory reset b index
    parsed.1 :: parseEntries minutesWest clock getHistory reset b n (dataIndex + 1) parsed.2

/-- The family `AF_INET`. -/
def afInet : ℕ := 2

/-- A request for all addresses from the index `requestIndex` on. -/
def getRequest (id : String) (getHistory : Bool) (requestIndex : ℕ) : ByteBuffer :=
  writeId (writeFields zeros 0
    (ipFields afInet 0 ++ [(4, requestIndex), (1, getHistory.toNat)])) 25 id

structure GetReply where
  error : UInt8
  totalIps : ℕ
  responseIps : ℕ
  reset : ResetFields

/-- What `get_bandwidth_data` reads of the head of a reply. -/
def parseGetReply (b : ByteBuffer) : GetReply where
  error := b 0
  totalIps := readLE 4 b 1
  responseIps := readLE 4 b 9
  reset :=
    { resetInterval := toInt64 (readLE 8 b 13)
      resetTime := toInt64 (readLE 8 b 21)
      isConstantInterval := b 29 ≠ 0 }

/-! ## The loop -/

inductive Interlude
  | packet (r : ℕ) (t : Tick) (pkt : Packet)
  | set (b : ByteBuffer) (len : ℕ) (t : Tick)
  | rule (e : RuleEvent)

structure Visit where
  before : List Interlude
  time : Tick

section

variable [Kernel]

/-- The variables of the loop, with the module. Before the first reply `num_ips`
is not set. -/
structure GetLoop where
  module : ModuleState
  round : ℕ
  done : Bool
  error : UInt8
  nextRequestIndex : ℕ
  numIps : Option ℕ
  data : List IpEntry

def GetLoop.start (m : ModuleState) : GetLoop := ⟨m, 0, false, 0, 0, none, []⟩

/-- A call of `get_bandwidth_data` for all addresses: its arguments, the zone and
the clock of the C library, and the requests it comes to make. -/
structure GetCall where
  id : String
  getHistory : Bool
  minutesWest : ℤ → ℤ
  clock : ℕ → ℤ
  visits : ℕ → Visit

def happens (m : ModuleState) : Interlude → ModuleState
  | .packet r t pkt => (m.bandwidthEval r t pkt).1
  | .set b len t => m.nftBandwidthSetCtl b len t
  | .rule e => m.apply e

namespace GetCall

variable (call : GetCall)

def asked (s : GetLoop) : ModuleState := (call.visits s.round).before.foldl happens s.module

def served (s : GetLoop) : ModuleState × ByteBuffer :=
  (call.asked s).nftBandwidthGetCtl (getRequest call.id call.getHistory s.nextRequestIndex)
    bandwidthQueryLength (call.visits s.round).time

def round (s : GetLoop) : GetLoop :=
  if s.done then s
  else
    let m := (call.served s).1
    let b := (call.served s).2
    let reply := parseGetReply b
    if reply.error ≠ 0 then
      { s with module := m, round := s.round + 1, error := reply.error, done := true }
    else
      let next := addUint32 s.nextRequestIndex reply.responseIps
      { module := m
        round := s.round + 1
        done := ¬ next < reply.totalIps
        error := reply.error
        nextRequestIndex := next
        numIps := s.numIps.or (some reply.totalIps)
        data := s.data ++ parseEntries call.minutesWest call.clock call.getHistory reply.reset b
          reply.responseIps s.data.length 30 }

/-- The loop after `n` rounds. -/
def rounds (m : ModuleState) (n : ℕ) : GetLoop := call.round^[n] (GetLoop.start m)

end GetCall

/-! ## What is decoded -/

/-- The reset fields of a reply for an id with the record `info`. -/
def returnedReset (info : NftBandwidthInfo) : ResetFields where
  resetInterval := toInt64 (toUint64 info.resetInterval)
  resetTime := toInt64 (toUint64 info.resetTime)
  isConstantInterval := info.resetIsConstantInterval

/-- The entry for a block that is parsed at the time `now`. -/
def returnedEntry (minutesWest : ℤ → ℤ) (now : ℤ) (reset : ResetFields) : IpBlock → IpEntry
  | .counter family ip bw => .bw ⟨BitVec.ofNat 32 family, ip, BitVec.ofNat 64 bw⟩
  | .history family ip firstStart firstEnd lastEnd bws =>
    .history
      { family := BitVec.ofNat 32 family
        ip := ip
        resetInterval := reset.resetInterval
        resetTime := reset.resetTime
        isConstantInterval := reset.isConstantInterval
        firstStart := returnedTime minutesWest now (toInt64 firstStart)
        firstEnd := returnedTime minutesWest now (toInt64 firstEnd)
        lastEnd := returnedTime minutesWest now (toInt64 lastEnd)
        historyBws := bws.map (BitVec.ofNat 64) }

/-- The entries of a page, whose first block begins at `start`. A block that does not
end in the buffer has its address. -/
def PageDecoded (call : GetCall) (u : IdUnit) (west : ℤ) :
    ℕ → ℕ → List (ℕ × In6Addr) → List IpEntry → Prop
  | _, _, [], es => es = []
  | start, dataIndex, address :: addresses, es =>
    let block := reportedBlock u west call.getHistory address.1 address.2
    ∃ e es', es = e :: es' ∧ e.address = (BitVec.ofNat 32 address.1, address.2) ∧
      (start + size block.fields ≤ bandwidthQueryLength →
        e = returnedEntry call.minutesWest (call.clock dataIndex) (returnedReset u.info) block) ∧
      PageDecoded call u west (start + size block.fields) (dataIndex + 1) addresses es'

section Decode

variable {b : ByteBuffer} {index : ℕ} {reset : ResetFields} {minutesWest : ℤ → ℤ} {now : ℤ}

omit [Kernel] in
theorem ofNat_word (w : ℕ) (n : ℕ) (hw : 256 ^ n = 2 ^ w) (x : ℕ) :
    BitVec.ofNat w (x % 256 ^ n) = BitVec.ofNat w x := by
  apply BitVec.eq_of_toNat_eq
  rw [BitVec.toNat_ofNat, BitVec.toNat_ofNat, hw, Nat.mod_mod]

omit [Kernel] in
theorem toInt64_word (x : ℕ) : toInt64 (x % 256 ^ 8) = toInt64 x := by
  unfold toInt64
  have hpow : (256 ^ 8 : ℕ) = 2 ^ 64 := by norm_num
  rw [hpow, Int.natCast_emod]
  exact Int.emod_bmod _ _

omit [Kernel] in
/-- One address is read from a reply that holds it. -/
theorem parseReturnedIpData_of_holds {block : IpBlock} {getHistory : Bool}
    (hkind : block.hasHistory = getHistory) (h : Holds b index block.fields)
    (hfits : index + size block.fields < 2 ^ 32) :
    parseReturnedIpData minutesWest now getHistory reset b index =
      (returnedEntry minutesWest now reset block, index + size block.fields) := by
  subst hkind
  cases block with
  | counter family ip bw =>
    simp only [IpBlock.fields, plainFields, holds_append] at h
    obtain ⟨hip, hvalue⟩ := h
    obtain ⟨hfamily, hip⟩ := readIp_of_holds hip
    have hbw : readLE 8 b (index + 20) = bw % 256 ^ 8 := hvalue.1
    simp only [IpBlock.fields, size_plainFields] at hfits ⊢
    simp only [parseReturnedIpData, IpBlock.hasHistory, Bool.false_eq_true, if_false,
      parseReturnedIp, returnedEntry, hfamily, hip, hbw, ofNat_word 32 4 (by norm_num),
      ofNat_word 64 8 (by norm_num), addUint32, Nat.mod_eq_of_lt hfits]
  | history family ip firstStart firstEnd lastEnd bws =>
    simp only [IpBlock.fields, size_historyFields] at hfits ⊢
    simp only [IpBlock.fields, historyFields, append_assoc, holds_append] at h
    obtain ⟨hip, ⟨hcount, hfirst, hend, hlast, -⟩, hnodes⟩ := h
    obtain ⟨hfamily, hip⟩ := readIp_of_holds hip
    have hcount' : readLE 4 b (index + 20) = bws.length :=
      hcount.trans (Nat.mod_eq_of_lt (show bws.length < 256 ^ 4 by omega))
    have hfirst' : readLE 8 b (index + 24) = firstStart % 256 ^ 8 := hfirst
    have hend' : readLE 8 b (index + 32) = firstEnd % 256 ^ 8 := hend
    have hlast' : readLE 8 b (index + 40) = lastEnd % 256 ^ 8 := hlast
    have hwords : readWords b (index + 48) bws.length = bws.map (· % 256 ^ 8) :=
      readWords_of_holds hnodes
    have hbws : (bws.map (· % 256 ^ 8)).map (BitVec.ofNat 64) = bws.map (BitVec.ofNat 64) := by
      rw [map_map]
      exact map_congr_left fun bw _ => ofNat_word 64 8 (by norm_num) bw
    simp only [parseReturnedIpData, IpBlock.hasHistory, if_true, parseReturnedHistory,
      returnedEntry, hfamily, hip, hcount', hfirst', hend', hlast', hwords, hbws, toInt64_word,
      ofNat_word 32 4 (by norm_num), addUint32]
    rw [Nat.mod_eq_of_lt (by omega)]

omit [Kernel] in
theorem parseReturnedIpData_of_within {len family : ℕ} {ip : In6Addr}
    {firstStart firstEnd lastEnd bw : ℕ}
    (h : HoldsWithin len b index (historyFields family ip firstStart firstEnd lastEnd [bw]))
    (hhead : index + 48 ≤ len) (hlen : len ≤ 2 ^ 30) :
    (parseReturnedIpData minutesWest now true reset b index).1.address =
        (BitVec.ofNat 32 family, ip) ∧
      (parseReturnedIpData minutesWest now true reset b index).2 = index + 56 := by
  rw [historyFields, holdsWithin_append] at h
  have hholds := h.1.holds hhead
  rw [holds_append] at hholds
  obtain ⟨hip, hcount, -⟩ := hholds
  obtain ⟨hfamily, hip⟩ := readIp_of_holds hip
  have hcount' : readLE 4 b (index + 20) = 1 := hcount
  simp only [parseReturnedIpData, if_true, parseReturnedHistory, IpEntry.address, hfamily, hip,
    hcount', ofNat_word 32 4 (by norm_num), addUint32, true_and]
  exact Nat.mod_eq_of_lt (by omega)

theorem PageDecoded.length {call : GetCall} {u : IdUnit} {west : ℤ} {start dataIndex : ℕ}
    {addresses : List (ℕ × In6Addr)} {es : List IpEntry}
    (h : PageDecoded call u west start dataIndex addresses es) : es.length = addresses.length := by
  induction addresses generalizing start dataIndex es with
  | nil => exact congrArg List.length h
  | cons address addresses ih =>
    obtain ⟨e, es', rfl, -, -, hrest⟩ := h
    exact congrArg (· + 1) (ih hrest)

omit [Kernel] in
theorem address_returnedEntry (block : IpBlock) :
    (returnedEntry minutesWest now reset block).address =
      (BitVec.ofNat 32 block.address.1, block.address.2) := by
  cases block with
  | counter family ip bw => rfl
  | history family ip firstStart firstEnd lastEnd bws => rfl

omit [Kernel] in
theorem parseReturnedIpData_block {block : IpBlock} {getHistory : Bool} {len checked : ℕ}
    (hkind : block.hasHistory = getHistory) (h : HoldsWithin len b index block.fields)
    (hlength : checked = size block.fields ∨ checked = 48 ∧ size block.fields = 56)
    (hfits : index + checked ≤ len) (hlen : len ≤ 2 ^ 30) :
    (parseReturnedIpData minutesWest now getHistory reset b index).1.address =
        (BitVec.ofNat 32 block.address.1, block.address.2) ∧
      (index + size block.fields ≤ len →
        (parseReturnedIpData minutesWest now getHistory reset b index).1 =
          returnedEntry minutesWest now reset block) ∧
      (parseReturnedIpData minutesWest now getHistory reset b index).2 =
        index + size block.fields := by
  by_cases hwhole : index + size block.fields ≤ len
  · rw [parseReturnedIpData_of_holds hkind (h.holds hwhole) (by omega)]
    exact ⟨address_returnedEntry block, fun _ => rfl, rfl⟩
  · obtain ⟨rfl, hsize⟩ := hlength.resolve_left fun heq => hwhole (heq ▸ hfits)
    subst hkind
    cases block with
    | counter family ip bw => cases hsize
    | history family ip firstStart firstEnd lastEnd bws =>
      rw [IpBlock.fields, size_historyFields] at hsize
      obtain ⟨bw, rfl⟩ : ∃ bw, bws = [bw] := List.length_eq_one_iff.1 (by omega)
      obtain ⟨haddress, hnext⟩ := parseReturnedIpData_of_within h hfits hlen
      exact ⟨haddress, fun hin => absurd hin hwhole, hnext⟩

theorem parseEntries_page (call : GetCall) {u : IdUnit} {west : ℤ} (hsmall : u.Small)
    {addresses : List (ℕ × In6Addr)} {start : ℕ} (dataIndex : ℕ)
    (hroom : Room u west call.getHistory bandwidthQueryLength start addresses)
    (hwithin : HoldsWithin bandwidthQueryLength b start
      (pageFields u west call.getHistory addresses)) :
    PageDecoded call u west start dataIndex addresses
      (parseEntries call.minutesWest call.clock call.getHistory (returnedReset u.info) b
        addresses.length dataIndex start) := by
  induction addresses generalizing start dataIndex with
  | nil => rfl
  | cons address addresses ih =>
    obtain ⟨hfits, hroom⟩ := hroom
    rw [pageFields, flatMap_cons, holdsWithin_append] at hwithin
    obtain ⟨hblock, hrest⟩ := hwithin
    obtain ⟨-, hkind, haddress, -, hlength⟩ :=
      @ipBlock_cases _ u west call.getHistory address.1 address.2 hsmall
    obtain ⟨hparsed, hdecoded, hnext⟩ := @parseReturnedIpData_block b start
      (returnedReset u.info) call.minutesWest (call.clock dataIndex) _ _ _ _ hkind hblock hlength
      hfits (by decide)
    simp only [PageDecoded, length_cons, parseEntries, hnext]
    refine ⟨_, _, rfl, ?_, hdecoded, ih (dataIndex + 1) hroom hrest⟩
    rw [hparsed, haddress]

end Decode

/-! ## Rounds -/

omit [Kernel] in
/-- The module reads the request as it was written. -/
theorem parseGetRequest_getRequest (id : String) (getHistory : Bool) {next : ℕ}
    (hnext : next < 2 ^ 32) :
    parseGetRequest (getRequest id getHistory next) =
      { family := afInet
        ip := 0
        nextIpIndex := next
        returnHistory := getHistory
        id := sentId id } := by
  have hholds : Holds (getRequest id getHistory next) 0
      (ipFields afInet 0 ++ [(4, next), (1, getHistory.toNat)]) := by
    refine (holds_writeFields zeros 0 _).congr fun i _ hi => ?_
    exact writeId_outside _ _ _ _ (Or.inl hi)
  rw [holds_append] at hholds
  obtain ⟨hip, hindex, hhistory, -⟩ := hholds
  obtain ⟨hfamily, hip⟩ := readIp_of_holds hip
  have hindex' : readLE 4 (getRequest id getHistory next) 20 = next :=
    hindex.trans (Nat.mod_eq_of_lt (show next < 256 ^ 4 by omega))
  have hflag : decide (getRequest id getHistory next 24 ≠ 0) = getHistory := decide_flag hhistory
  have hid : readId (getRequest id getHistory next) 25 = sentId id := readId_writeId _ _ _
  rw [Nat.zero_add] at hip
  simp only [parseGetRequest, hfamily, hip, hindex', hflag, hid]
  congr 1
  split_ifs
  · funext w
    fin_cases w <;> rfl
  · rfl

inductive Paged (call : GetCall) : GetLoop → List String → List IpEntry → Prop
  | done {s : GetLoop} : Paged call s [] []
  | page {s : GetLoop} {ks ks' : List String} {addresses : List (ℕ × In6Addr)}
      {es es' : List IpEntry} {u : IdUnit} {west : ℤ} :
      (call.asked s).answering (sentId call.id) (call.visits s.round).time = some (u, west) →
      Parsed ks addresses →
      PageDecoded call u west getHeaderLength s.data.length addresses es →
      Paged call (call.round s) ks' es' → Paged call s (ks ++ ks') (es ++ es')

def GetCall.list (call : GetCall) (s : GetLoop) : Option (List String) :=
  (call.asked s).listFor
    { family := afInet
      ip := 0
      nextIpIndex := s.nextRequestIndex
      returnHistory := call.getHistory
      id := sentId call.id } (call.visits s.round).time

structure Waiting (call : GetCall) (list : List String) (s : GetLoop) : Prop where
  running : s.done = false
  unfinished : s.nextRequestIndex = 0 ∨ s.nextRequestIndex < list.length
  list_eq : ∀ list', call.list s = some list' → list' = list
  numIps : s.numIps = none ∨ s.numIps = some list.length
  count : s.data.length = s.nextRequestIndex

def SmallAt (call : GetCall) (s : GetLoop) : Prop :=
  ∀ u west, (call.asked s).answering (sentId call.id) (call.visits s.round).time = some (u, west) →
    u.Small

section Round

variable {call : GetCall} {list : List String} {s : GetLoop}

theorem outputIpList_asked (call : GetCall) (s : GetLoop) :
    (call.asked s).outputIpList = s.module.outputIpList := by
  unfold GetCall.asked
  generalize s.module = m
  induction (call.visits s.round).before generalizing m with
  | nil => rfl
  | cons e es ih =>
    rw [foldl_cons, ih]
    cases e with
    | packet r t pkt => exact m.outputIpList_bandwidthEval r t pkt
    | set b len t => exact m.outputIpList_nftBandwidthSetCtl b len t
    | rule e => exact m.outputIpList_apply e

theorem parseGetReply_of_page {u : IdUnit} {west : ℤ} {getHistory : Bool} {len next n : ℕ}
    {b : ByteBuffer} (h : IsPage u west getHistory len list next n b)
    (hlength : list.length < 2 ^ 32) :
    parseGetReply b = ⟨0, list.length, n, returnedReset u.info⟩ := by
  obtain ⟨herror, htotal, -, hnum, hinterval, htime, hconstant, -⟩ := h.head
  have hcount := h.count
  rw [length_drop] at hcount
  have herror' : b 0 = 0 := UInt8.toNat_inj.1 (by simpa [readLE, GetError.code] using herror)
  have htotal' : readLE 4 b 1 = list.length :=
    htotal.trans (Nat.mod_eq_of_lt (show list.length < 256 ^ 4 by omega))
  have hnum' : readLE 4 b 9 = n := hnum.trans (Nat.mod_eq_of_lt (show n < 256 ^ 4 by omega))
  have hinterval' : readLE 8 b 13 = toUint64 u.info.resetInterval :=
    hinterval.trans (Nat.mod_eq_of_lt (toUint64_lt _))
  have htime' : readLE 8 b 21 = toUint64 u.info.resetTime :=
    htime.trans (Nat.mod_eq_of_lt (toUint64_lt _))
  have hconstant' : decide (b 29 ≠ 0) = u.info.resetIsConstantInterval := decide_flag hconstant
  simp only [parseGetReply, returnedReset, herror', htotal', hnum', hinterval', htime', hconstant']

/-- One round ends with an error, or it brings a page. -/
theorem Waiting.round (h : Waiting call list s) (hlength : list.length < uint32Max)
    (hsmall : SmallAt call s) :
    ((call.round s).done = true ∧ (call.round s).error ≠ 0) ∨
      ∃ n u west addresses es, call.list s = some list ∧
        (call.asked s).answering (sentId call.id) (call.visits s.round).time = some (u, west) ∧
        Parsed ((list.drop s.nextRequestIndex).take n) addresses ∧
        PageDecoded call u west getHeaderLength s.data.length addresses es ∧
        n ≤ (list.drop s.nextRequestIndex).length ∧
        (call.round s).data = s.data ++ es ∧ (call.round s).numIps = some list.length ∧
        (call.round s).error = 0 ∧ (call.round s).nextRequestIndex = s.nextRequestIndex + n ∧
        ((call.round s).done = true ∧ s.nextRequestIndex + n = list.length ∨
          0 < n ∧ Waiting call list (call.round s)) := by
  have hmax : uint32Max = 2 ^ 32 - 1 := rfl
  have hnext : s.nextRequestIndex < uint32Max := by
    rcases h.unfinished with hzero | hlt
    · omega
    · omega
  have hrequest := parseGetRequest_getRequest call.id call.getHistory
    (show s.nextRequestIndex < 2 ^ 32 by omega)
  have hpage := @ModuleState.getCtl_page _ (call.asked s)
    (getRequest call.id call.getHistory s.nextRequestIndex) bandwidthQueryLength
    (call.visits s.round).time (by rw [hrequest]) (by rw [hrequest]; exact hnext.ne) (by decide)
    (by decide) (by rw [hrequest]; exact hsmall)
  rw [hrequest] at hpage
  simp only at hpage
  rcases hpage with herror | ⟨list', u, west, n, hlist, hanswering, hpage, hrest⟩
  · left
    have hround : call.round s = { s with
        module := (call.served s).1
        round := s.round + 1
        error := (call.served s).2 0
        done := true } := by
      rw [GetCall.round, h.running]
      exact if_pos herror
    rw [hround]
    exact ⟨rfl, herror⟩
  · right
    obtain rfl : list' = list := h.list_eq list' hlist
    have hreply := parseGetReply_of_page hpage (show list'.length < 2 ^ 32 by omega)
    obtain ⟨addresses, hparsed, hroom, hwithin⟩ := hpage.addresses
    have hcount := hpage.count
    have hlen : addresses.length = n := by
      rw [← hparsed.length_eq, length_take, Nat.min_eq_left hcount]
    have hdecoded := parseEntries_page call (hsmall u west hanswering) s.data.length hroom hwithin
    rw [hlen] at hdecoded
    rw [length_drop] at hcount
    have hsum : addUint32 s.nextRequestIndex n = s.nextRequestIndex + n :=
      Nat.mod_eq_of_lt (by rcases h.unfinished with hzero | hlt <;> omega)
    have hnum : s.numIps.or (some list'.length) = some list'.length := by
      rcases h.numIps with hnone | hsome
      · rw [hnone, Option.none_or]
      · rw [hsome, Option.some_or]
    have hround : call.round s =
        { module := (call.served s).1
          round := s.round + 1
          done := decide ¬ s.nextRequestIndex + n < list'.length
          error := 0
          nextRequestIndex := s.nextRequestIndex + n
          numIps := some list'.length
          data := s.data ++ parseEntries call.minutesWest call.clock call.getHistory
            (returnedReset u.info) (call.served s).2 n s.data.length 30 } := by
      have hreply' : parseGetReply (call.served s).2 = ⟨0, list'.length, n, returnedReset u.info⟩ :=
        hreply
      rw [GetCall.round, h.running]
      simp only [Bool.false_eq_true, if_false, hreply', ne_eq, not_true, hsum, hnum]
    have hle : s.nextRequestIndex + n ≤ list'.length := by
      rcases h.unfinished with hzero | hlt <;> omega
    by_cases hdone : s.nextRequestIndex + n = list'.length
    · rw [hround]
      refine ⟨n, u, west, addresses, _, hlist, hanswering, hparsed, hdecoded, hpage.count, rfl, rfl, rfl,
        rfl, Or.inl ⟨?_, hdone⟩⟩
      simp [hdone]
    · have hpos : 0 < n := by
        refine Nat.pos_of_ne_zero fun hzero => ?_
        have hnil := congrArg List.length (hpage.progress hzero)
        rw [length_drop, length_nil] at hnil
        omega
      have hwaiting : Waiting call list' (call.round s) := by
        refine ⟨?_, Or.inr ?_, fun list'' hlist'' => ?_, Or.inr ?_, ?_⟩
        · simpa [hround] using lt_of_le_of_ne hle hdone
        · simpa [hround] using lt_of_le_of_ne hle hdone
        · -- the request is not the first one, and the list is where the last reply left it
          rw [GetCall.list, ModuleState.listFor, if_neg, outputIpList_asked] at hlist''
          · have hkept : (call.round s).module.outputIpList = some list' := by
              rw [hround]
              exact hrest.trans (if_neg hdone)
            exact Option.some.inj (hlist''.symm.trans hkept)
          · rintro ⟨hzero | hmax', -⟩
            · simp only [hround] at hzero
              omega
            · simp only [hround] at hmax'
              omega
        · rw [hround]
        · have hentries := hdecoded.length.trans hlen
          rw [hround, length_append]
          exact congrArg₂ (· + ·) h.count hentries
      refine ⟨n, u, west, addresses, _, hlist, hanswering, hparsed, hdecoded, hpage.count, ?_, ?_, ?_, ?_,
        Or.inr ⟨hpos, hwaiting⟩⟩
      · exact congrArg GetLoop.data hround
      · exact congrArg GetLoop.numIps hround
      · exact congrArg GetLoop.error hround
      · exact congrArg GetLoop.nextRequestIndex hround

/-- The rounds of a call get the whole list, or an error. -/
theorem Waiting.rounds (hlength : list.length < uint32Max) (h : Waiting call list s)
    (hsmall : ∀ n, SmallAt call (call.round^[n] s)) :
    ∃ n, (call.round^[n] s).done = true ∧
      ((call.round^[n] s).error = 0 → call.list s = some list ∧
        ∃ es, (call.round^[n] s).data = s.data ++ es ∧
        (call.round^[n] s).numIps = some list.length ∧
        Paged call s (list.drop s.nextRequestIndex) es) := by
  induction hrest : list.length - s.nextRequestIndex using Nat.strong_induction_on
    generalizing s with
  | _ k ih =>
    rcases h.round hlength (hsmall 0) with ⟨hdone, herror⟩ |
      ⟨n, u, west, addresses, es, hlist, hanswering, hparsed, hdecoded, hcount, hdata, hnum,
        herror, hnext, ⟨hdone, hend⟩ | ⟨hpos, hwaiting⟩⟩
    · exact ⟨1, hdone, fun hzero => absurd hzero herror⟩
    · have htake : (list.drop s.nextRequestIndex).take n = list.drop s.nextRequestIndex := by
        rw [take_of_length_le]
        rw [length_drop]
        omega
      rw [htake] at hparsed
      refine ⟨1, hdone, fun _ => ⟨hlist, es, hdata, hnum, ?_⟩⟩
      have hpaged := Paged.page hanswering hparsed hdecoded Paged.done
      rwa [List.append_nil, List.append_nil] at hpaged
    · rw [length_drop] at hcount
      obtain ⟨rounds, hdone, hresult⟩ := ih (list.length - (call.round s).nextRequestIndex)
        (by omega) hwaiting (fun n => hsmall (n + 1)) rfl
      refine ⟨rounds + 1, hdone, fun hzero => ?_⟩
      obtain ⟨-, es', hdata', hnum', hpaged⟩ := hresult hzero
      refine ⟨hlist, es ++ es', ?_, hnum', ?_⟩
      · rw [Function.iterate_succ_apply, hdata', hdata, append_assoc]
      · have hsplit := Paged.page hanswering hparsed hdecoded hpaged
        rwa [hnext, ← drop_drop, take_append_drop] at hsplit

/-- The entry is for the address that the text `k` stands for. -/
def EntryFor (k : String) (e : IpEntry) : Prop :=
  ∃ address, parseIp k = some address ∧ e.address = (BitVec.ofNat 32 address.1, address.2)

theorem PageDecoded.entryFor {u : IdUnit} {west : ℤ} {ks : List String}
    {addresses : List (ℕ × In6Addr)} {es : List IpEntry} {start dataIndex : ℕ}
    (hparsed : Parsed ks addresses) (h : PageDecoded call u west start dataIndex addresses es) :
    List.Forall₂ EntryFor ks es := by
  induction addresses generalizing ks es start dataIndex with
  | nil =>
    cases hparsed
    cases h
    exact List.Forall₂.nil
  | cons address addresses ih =>
    cases hparsed with
    | cons hparse hrest =>
      obtain ⟨e, es', rfl, haddress, -, hdecoded⟩ := h
      exact List.Forall₂.cons ⟨address, hparse, haddress⟩ (ih hrest hdecoded)

theorem Paged.entryFor {es : List IpEntry} (h : Paged call s list es) :
    List.Forall₂ EntryFor list es := by
  induction h with
  | done => exact List.Forall₂.nil
  | page _ hparsed hdecoded _ ih => exact rel_append (hdecoded.entryFor hparsed) ih

/-- The loop comes to its end, whatever happens between the requests. If there is
no error, it has an entry for each address that the id had at the first request,
or the one for the combined counter, in the order of the list. -/
theorem paging_complete (call : GetCall) (m : ModuleState)
    (hsmall : ∀ n, SmallAt call (call.rounds m n))
    (hlength : ∀ list, call.list (GetLoop.start m) = some list → list.length < uint32Max) :
    ∃ n, (call.rounds m n).done = true ∧
      ((call.rounds m n).error = 0 →
        ∃ p u list, ((call.asked (GetLoop.start m)).timeChecksCtl
            (call.visits 0).time).unit p = some u ∧
          ((call.asked (GetLoop.start m)).timeChecksCtl (call.visits 0).time).idMap.get
            (sentId call.id) = some p ∧
          list = (if u.info.type = .combined then [combinedIp] else u.maps.ipMap.keys) ∧
          list.Nodup ∧ (call.rounds m n).numIps = some list.length ∧
          List.Forall₂ EntryFor list (call.rounds m n).data ∧
          Paged call (GetLoop.start m) list (call.rounds m n).data) := by
  have hwaiting : ∀ list, (∀ list', call.list (GetLoop.start m) = some list' → list' = list) →
      Waiting call list (GetLoop.start m) :=
    fun list hlist => ⟨rfl, Or.inl rfl, hlist, Or.inl rfl, rfl⟩
  cases hlist : call.list (GetLoop.start m) with
  | none =>
    obtain ⟨n, hdone, hresult⟩ := (hwaiting [] fun list' hlist' => by
      rw [hlist] at hlist'
      cases hlist').rounds (by decide) hsmall
    refine ⟨n, hdone, fun hzero => ?_⟩
    have hsome := (hresult hzero).1
    rw [hlist] at hsome
    cases hsome
  | some list =>
    obtain ⟨n, hdone, hresult⟩ := (hwaiting list fun list' hlist' => by
      rw [hlist] at hlist'
      exact (Option.some.inj hlist').symm).rounds (hlength list hlist) hsmall
    refine ⟨n, hdone, fun hzero => ?_⟩
    obtain ⟨-, es, hdata, hnum, hpaged⟩ := hresult hzero
    obtain rfl : es = (call.rounds m n).data := hdata.symm
    rw [GetCall.list, ModuleState.listFor, if_pos ⟨Or.inl rfl, rfl⟩] at hlist
    obtain ⟨⟨p, u⟩, htarget, hnew⟩ := Option.map_eq_some_iff.1 hlist
    obtain ⟨p', hp, htarget'⟩ := Option.bind_eq_some_iff.1 htarget
    obtain ⟨u', hu, hsome⟩ := Option.bind_eq_some_iff.1 htarget'
    split_ifs at hsome
    obtain ⟨rfl, rfl⟩ := Prod.mk.inj (Option.some.inj hsome)
    have hlist' : list =
        (if u'.info.type = .combined then [combinedIp] else u'.maps.ipMap.keys) := by
      have hindex : (GetLoop.start m).nextRequestIndex ≠ uint32Max := by
        change (0 : ℕ) ≠ uint32Max
        decide
      rw [← hnew, newList]
      simp only [hindex, or_false]
    refine ⟨p', u', list, hu, hp, hlist', ?_, hnum, hpaged.entryFor, hpaged⟩
    rw [hlist']
    split_ifs
    · exact nodup_singleton _
    · exact u'.maps.ipMap.nodup_keys

theorem rounds_of_done {m : ModuleState} (h : (call.rounds m 1).done = true) (n : ℕ) :
    call.rounds m (n + 1) = call.rounds m 1 := by
  have hfixed : call.round (call.rounds m 1) = call.rounds m 1 := if_pos h
  exact Function.iterate_fixed hfixed n

theorem smallAt_of_unsaved (h : (((call.asked s).answering (sentId call.id)
      (call.visits s.round).time).all fun a => a.1.maps.ipHistoryMap.isNone) = true) :
    SmallAt call s := by
  intro u west hanswering k r hreport
  rw [hanswering, Option.all_some, Option.isNone_iff_eq_none] at h
  rw [IdUnit.report, h] at hreport
  cases hreport

end Round

end

/-! ## Two calls -/

section Calls

local instance getDataKernel : Kernel := referenceKernel 32

/-- The module with a rule that counts sources, after a packet of `192.168.1.5`. -/
def countedState : ModuleState := sharedState.evaluateAll sharedRule [arrival4 20 100]

/-- A call at the second 30; before each of its requests a packet of another host
is counted. The C library has the zone `summerFromMillion` and the time 2000000. -/
def quotaCall (getHistory : Bool) : GetCall where
  id := "quota"
  getHistory := getHistory
  minutesWest := summerFromMillion
  clock := fun _ => 2000000
  visits := fun _ => ⟨[.packet 0 ⟨25, 0⟩ (.ipv4 0x0601a8c0 0x08080808 7)], ⟨30, 0⟩⟩

theorem quotaCall_small (n : ℕ) :
    SmallAt (quotaCall false) ((quotaCall false).rounds countedState n) := by
  cases n with
  | zero => exact smallAt_of_unsaved (by decide)
  | succ n =>
    rw [rounds_of_done (by decide)]
    exact smallAt_of_unsaved (by decide)

/-- Both hosts are in the list of a call without history. -/
theorem quotaCall_complete :
    ∃ n, ((quotaCall false).rounds countedState n).done = true ∧
      (((quotaCall false).rounds countedState n).error = 0 →
        ∃ p u list, (((quotaCall false).asked (GetLoop.start countedState)).timeChecksCtl
            ((quotaCall false).visits 0).time).unit p = some u ∧
          (((quotaCall false).asked (GetLoop.start countedState)).timeChecksCtl
            ((quotaCall false).visits 0).time).idMap.get (sentId (quotaCall false).id) = some p ∧
          list = (if u.info.type = .combined then [combinedIp] else u.maps.ipMap.keys) ∧
          list.Nodup ∧
          ((quotaCall false).rounds countedState n).numIps = some list.length ∧
          List.Forall₂ EntryFor list ((quotaCall false).rounds countedState n).data ∧
          Paged (quotaCall false) (GetLoop.start countedState) list
            ((quotaCall false).rounds countedState n).data) := by
  refine paging_complete (quotaCall false) countedState quotaCall_small fun list hlist => ?_
  have hcount : ((quotaCall false).list (GetLoop.start countedState)).map List.length =
      some 2 := by
    decide
  rw [hlist, Option.map_some] at hcount
  rw [Option.some.inj hcount]
  decide

/-- A request that sets the counter of `192.168.1.5` for a rule that counts all
bytes. -/
def hostOfCombined : ByteBuffer :=
  writeFields (writeId (writeFields zeros setHeaderLength
    (plainFields 2 ![0x0501a8c0, 0, 0, 0] 100)) 22 "quota") 0
    [(4, 1), (4, 0), (4, 1), (1, 0), (1, 1), (8, 0)]

def combinedWithHost : ModuleState := minuteState.nftBandwidthSetCtl hostOfCombined 100 ⟨20, 0⟩

def plainCall : GetCall := { quotaCall false with visits := fun _ => ⟨[], ⟨30, 0⟩⟩ }

def IpEntry.firstStart : IpEntry → Option ℤ
  | .bw _ => none
  | .history d => some d.firstStart

/-- A rule that counts all bytes has an address in its map, and the call returns
the combined counter alone. A time that is sent as 10 is returned an hour later,
because the clocks have been changed since. -/
theorem combined_hides_host_and_dst_moves_times :
    (combinedWithHost.unit 0).map (fun u => u.maps.ipMap.keys) = some ["192.168.1.5"] ∧
      (plainCall.rounds combinedWithHost 1).done = true ∧
      (plainCall.rounds combinedWithHost 1).error = 0 ∧
      (plainCall.rounds combinedWithHost 1).data.map IpEntry.address = [(2, 0)] ∧
      ¬ (∃ e ∈ (plainCall.rounds combinedWithHost 1).data, EntryFor "192.168.1.5" e) ∧
      (((quotaCall true).asked (GetLoop.start countedState)).answering "quota" ⟨30, 0⟩).map
        (fun a => (ipBlock a.1 a.2 true 2 ![0x0501a8c0, 0, 0, 0]).2.take 7) =
          some (ipFields 2 ![0x0501a8c0, 0, 0, 0] ++ [(4, 1), (8, 10)]) ∧
      ((quotaCall true).rounds countedState 1).data.map IpEntry.firstStart =
        [some (10 + 3600), some (10 + 3600)] := by
  refine ⟨by decide, by decide, by decide, by decide, ?_, by decide, by decide +kernel⟩
  rintro ⟨e, he, address, hparse, haddress⟩
  have haddresses : (plainCall.rounds combinedWithHost 1).data.map IpEntry.address = [(2, 0)] := by
    decide
  have hmem : e.address ∈ [((2 : BitVec 32), (0 : In6Addr))] :=
    haddresses ▸ mem_map_of_mem he
  have hip : address.2 = 0 := by
    rw [haddress] at hmem
    exact (Prod.mk.inj (List.mem_singleton.1 hmem)).2
  have hparsed : (parseIp "192.168.1.5").map Prod.snd = some ![0x0501a8c0, 0, 0, 0] := by decide
  rw [hparse, Option.map_some, hip] at hparsed
  exact absurd hparsed (by decide)

end Calls

end Bwctl

end Gargoyle
