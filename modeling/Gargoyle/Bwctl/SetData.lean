import Gargoyle.Bandwidth.SetRequest

/-!
# Sending counters to the module

`set_bandwidth_data` of `libnftbwctl`: the data of an id is sent in requests of a
fixed length, each with as many blocks as fit behind the head. A block that does
not fit an empty request is never sent, and the loop then goes on for ever; if
all blocks fit, the requests carry them one after the other (`Sends`).

The minutes west that the C library reports for a time are a parameter.
-/

namespace Gargoyle

open List

namespace Bwctl

open Bandwidth ByteBuffer

structure IpBw where
  family : BitVec 32
  ip : In6Addr
  bw : BitVec 64

/-- `ip_bw_history`. The number of nodes is the length of `history_bws`. -/
structure IpBwHistory where
  family : BitVec 32
  ip : In6Addr
  resetInterval : ℤ
  resetTime : ℤ
  isConstantInterval : Bool
  firstStart : ℤ
  firstEnd : ℤ
  lastEnd : ℤ
  historyBws : List (BitVec 64)

/-- The data of a set, which are of the kind that `set_history` says. -/
inductive SetData
  | counters (data : List IpBw)
  | histories (data : List IpBwHistory)

/-- The arguments of `set_bandwidth_data`. -/
structure SetArguments where
  id : String
  zeroUnset : Bool
  lastBackup : ℤ
  data : SetData

def IpBw.block (d : IpBw) : List (ℕ × ℕ) := plainFields d.family.toNat d.ip d.bw.toNat

/-- A time of a history as it is sent at the time `now`. The minutes are added
to the seconds as they are. -/
def sentHistoryTime (minutesWest : ℤ → ℤ) (now x : ℤ) : ℕ :=
  toUint64 (x + (minutesWest x - minutesWest now))

/-- The block of a history that is sent at the time `now`. -/
def IpBwHistory.block (minutesWest : ℤ → ℤ) (now : ℤ) (d : IpBwHistory) : List (ℕ × ℕ) :=
  historyFields d.family.toNat d.ip (sentHistoryTime minutesWest now d.firstStart)
    (sentHistoryTime minutesWest now d.firstEnd) (sentHistoryTime minutesWest now d.lastEnd)
    (d.historyBws.map BitVec.toNat)

/-- The blocks of the data; `clock i` is the time when block `i` is made. -/
def SetData.blocks (minutesWest : ℤ → ℤ) (clock : ℕ → ℤ) : SetData → List (List (ℕ × ℕ))
  | .counters data => data.map IpBw.block
  | .histories data => data.zipIdx.map fun e => e.1.block minutesWest (clock e.2)

def SetData.setHistory : SetData → Bool
  | .counters _ => false
  | .histories _ => true

/-- `set_ip_block`; `none` says that the buffer is full. -/
def setIpBlock (block : List (ℕ × ℕ)) (b : ByteBuffer) (index : ℕ) : Option (ByteBuffer × ℕ) :=
  if addUint32 index (size block) > bandwidthQueryLength then none
  else some (writeFields b index block, addUint32 index (size block))

def fillRequest : List (List (ℕ × ℕ)) → ByteBuffer → ℕ → ℕ → ByteBuffer × ℕ
  | [], b, _, num => (b, num)
  | block :: blocks, b, index, num =>
    match setIpBlock block b index with
    | none => (b, num)
    | some (b', index') => fillRequest blocks b' index' (num + 1)

def SetArguments.head (args : SetArguments) (total next num : ℕ) : List (ℕ × ℕ) :=
  [(4, total), (4, next), (4, num), (1, args.data.setHistory.toNat), (1, args.zeroUnset.toNat),
    (8, toUint64 args.lastBackup)]

/-- The id as `strncpy` copies it to the head of a request. -/
def SetArguments.copiedId (args : SetArguments) : String :=
  String.ofList (args.id.toList.take (bandwidthMaxIdLength - 1))

/-- The request for the data from the index `next` on, of which `blocks` are left
to be sent, with the number of blocks in it. -/
def SetArguments.request (args : SetArguments) (total next : ℕ) (blocks : List (List (ℕ × ℕ))) :
    ByteBuffer × ℕ :=
  let filled := fillRequest blocks zeros setHeaderLength 0
  (writeFields (writeId filled.1 22 args.copiedId) 0 (args.head total next filled.2), filled.2)

/-- The loop of `set_bandwidth_data`, with the requests that are made. The first
argument is the number of rounds that are looked at; `none` says that more are
made. -/
def SetArguments.requests (args : SetArguments) (total : ℕ) :
    ℕ → ℕ → List (List (ℕ × ℕ)) → Option (List ByteBuffer)
  | 0, _, _ => none
  | rounds + 1, next, blocks =>
    let request := args.request total next blocks
    if next + request.2 ≥ total then some [request.1]
    else
      (args.requests total rounds (next + request.2) (blocks.drop request.2)).map
        fun requests => request.1 :: requests

def SetArguments.totalIps (args : SetArguments) : ℕ :=
  match args.data with
  | .counters data => data.length % 2 ^ 32
  | .histories data => data.length % 2 ^ 32

/-- `set_bandwidth_data`, with the requests it makes. -/
def setBandwidthData (minutesWest : ℤ → ℤ) (clock : ℕ → ℤ) (args : SetArguments) :
    Option (List ByteBuffer) :=
  args.requests args.totalIps (args.totalIps + 1) 0
    ((args.data.blocks minutesWest clock).take args.totalIps)

/-! ## What is sent -/

/-- A request with the given blocks, which begin at the index `next`. -/
structure SetArguments.Carries (args : SetArguments) (total next : ℕ)
    (blocks : List (List (ℕ × ℕ))) (b : ByteBuffer) : Prop where
  header : parseSetHeader b =
    { totalIps := total
      nextIpIndex := next
      numIpsInBuffer := blocks.length
      historyIncluded := args.data.setHistory
      zeroUnsetIps := args.zeroUnset
      lastBackup := toInt64 (toUint64 args.lastBackup)
      id := sentId args.id }
  holds : Holds b setHeaderLength blocks.flatten
  fits : setHeaderLength + size blocks.flatten ≤ bandwidthQueryLength

inductive SetArguments.Sends (args : SetArguments) (total : ℕ) :
    ℕ → List (List (ℕ × ℕ)) → List ByteBuffer → Prop
  | last {next : ℕ} {blocks : List (List (ℕ × ℕ))} {b : ByteBuffer} :
      args.Carries total next blocks b → next + blocks.length = total →
      args.Sends total next blocks [b]
  | more {next : ℕ} {blocks rest : List (List (ℕ × ℕ))} {b : ByteBuffer} {bs : List ByteBuffer} :
      args.Carries total next blocks b → args.Sends total (next + blocks.length) rest bs →
      args.Sends total next (blocks ++ rest) (b :: bs)

/-- A request is filled with as many addresses as fit. -/
theorem fillRequest_spec {blocks : List (List (ℕ × ℕ))} (b : ByteBuffer) (index num : ℕ)
    (hindex : index ≤ bandwidthQueryLength)
    (hblocks : ∀ block ∈ blocks, size block ≤ bandwidthQueryLength) :
    ∃ n ≤ blocks.length, fillRequest blocks b index num =
        (writeFields b index (blocks.take n).flatten, num + n) ∧
      index + size (blocks.take n).flatten ≤ bandwidthQueryLength ∧
      ∀ block, blocks[n]? = some block →
        bandwidthQueryLength < index + size (blocks.take n).flatten + size block := by
  have hlength : bandwidthQueryLength = 16384 := rfl
  induction blocks generalizing b index num with
  | nil => exact ⟨0, le_rfl, rfl, hindex, by simp⟩
  | cons block blocks ih =>
    have hsize := hblocks block mem_cons_self
    have hsum : addUint32 index (size block) = index + size block :=
      Nat.mod_eq_of_lt (by omega)
    by_cases hfull : index + size block > bandwidthQueryLength
    · refine ⟨0, Nat.zero_le _, ?_, by simpa [size] using hindex, ?_⟩
      · simp [fillRequest, setIpBlock, hsum, hfull, writeFields]
      · intro block' hblock'
        obtain rfl : block = block' := by simpa using hblock'
        simpa [size] using hfull
    · obtain ⟨n, hn, hfill, hfits, hnext⟩ := ih (writeFields b index block)
        (index + size block) (num + 1) (not_lt.1 hfull)
        fun block' hmem => hblocks block' (mem_cons_of_mem block hmem)
      refine ⟨n + 1, Nat.succ_le_succ hn, ?_, ?_, ?_⟩
      · simp only [fillRequest, setIpBlock, hsum, if_neg hfull, hfill, take_succ_cons,
          flatten_cons, writeFields_append]
        congr 1
        omega
      · simp only [take_succ_cons, flatten_cons, size_append]
        omega
      · intro block' hblock'
        have hlt := hnext block' (by simpa using hblock')
        simp only [take_succ_cons, flatten_cons, size_append]
        omega

section Requests

variable (args : SetArguments) {total next : ℕ} {blocks : List (List (ℕ × ℕ))}

theorem sentId_copiedId : sentId args.copiedId = sentId args.id := by
  rw [sentId, sentId, SetArguments.copiedId, String.toList_ofList, sentChars_take]

theorem parseSetHeader_of_holds {b : ByteBuffer} {num : ℕ} (h : Holds b 0 (args.head total next num))
    (htotal : total < 2 ^ 32) (hnext : next < 2 ^ 32) (hnum : num < 2 ^ 32)
    (hid : readId b 22 = sentId args.id) :
    parseSetHeader b =
      { totalIps := total
        nextIpIndex := next
        numIpsInBuffer := num
        historyIncluded := args.data.setHistory
        zeroUnsetIps := args.zeroUnset
        lastBackup := toInt64 (toUint64 args.lastBackup)
        id := sentId args.id } := by
  obtain ⟨h₀, h₄, h₈, h₁₂, h₁₃, h₁₄, -⟩ := h
  simp only [Nat.zero_add, Nat.reduceAdd] at h₀ h₄ h₈ h₁₂ h₁₃ h₁₄
  rw [Nat.mod_eq_of_lt (by omega)] at h₀ h₄ h₈
  rw [Nat.mod_eq_of_lt (toUint64_lt _)] at h₁₄
  simp only [parseSetHeader, h₀, h₄, h₈, h₁₄, hid, decide_flag h₁₂, decide_flag h₁₃]

/-- A request carries the next addresses. -/
theorem request_carries (htotal : total < 2 ^ 32) (hnext : next + blocks.length ≤ total)
    (hblocks : ∀ block ∈ blocks, setHeaderLength + size block ≤ bandwidthQueryLength) :
    ∃ n ≤ blocks.length, (args.request total next blocks).2 = n ∧ (blocks ≠ [] → 0 < n) ∧
      args.Carries total next (blocks.take n) (args.request total next blocks).1 := by
  have hheader : setHeaderLength = 72 := rfl
  have hsizes : ∀ block ∈ blocks, size block ≤ bandwidthQueryLength :=
    fun block hblock => (Nat.le_add_left _ _).trans (hblocks block hblock)
  obtain ⟨n, hn, hfill, hfits, hfull⟩ := fillRequest_spec zeros setHeaderLength 0 (by decide) hsizes
  rw [Nat.zero_add] at hfill
  have hid : args.copiedId.toList.length ≤ 49 := by
    rw [SetArguments.copiedId, String.toList_ofList]
    exact length_take_le _ _
  have hsize : size (args.head total next n) = 22 := rfl
  have hrequest : args.request total next blocks =
      (writeFields (writeId (writeFields zeros setHeaderLength (blocks.take n).flatten) 22
        args.copiedId) 0 (args.head total next n), n) := by
    simp only [SetArguments.request, hfill]
  rw [hrequest]
  refine ⟨n, hn, rfl, fun hnonempty => ?_, ?_, ?_, hfits⟩
  · by_contra hzero
    obtain rfl : n = 0 := by omega
    obtain ⟨block, rest, rfl⟩ := exists_cons_of_ne_nil hnonempty
    have hlt := hfull block rfl
    have hle := hblocks block mem_cons_self
    simp only [take_zero, flatten_nil, size] at hlt
    omega
  · have hlen : (blocks.take n).length = n := length_take_of_le hn
    rw [hlen]
    refine parseSetHeader_of_holds args (holds_writeFields _ 0 _) htotal (by omega) (by omega) ?_
    rw [← sentId_copiedId, ← readId_writeId]
    unfold readId
    rw [readChars_congr fun i hi _ => writeFields_outside _ _ _ _ (Or.inr (by omega))]
  · refine (holds_writeFields zeros setHeaderLength (blocks.take n).flatten).congr ?_
    intro i hi _
    exact (writeFields_outside _ _ _ _ (Or.inr (by omega))).trans
      (writeId_outside _ _ _ _ (Or.inr (by omega)))

/-- The requests send all addresses, in order. -/
theorem requests_sends {rounds : ℕ} (htotal : total < 2 ^ 32)
    (hnext : next + blocks.length = total)
    (hblocks : ∀ block ∈ blocks, setHeaderLength + size block ≤ bandwidthQueryLength)
    (hrounds : blocks.length < rounds) :
    ∃ bs, args.requests total rounds next blocks = some bs ∧ args.Sends total next blocks bs := by
  induction rounds generalizing next blocks with
  | zero => omega
  | succ rounds ih =>
    obtain ⟨n, hn, hcount, hpos, hcarries⟩ :=
      request_carries args htotal hnext.le hblocks
    simp only [SetArguments.requests, hcount]
    by_cases hdone : next + n ≥ total
    · obtain rfl : n = blocks.length := by omega
      rw [take_length] at hcarries
      exact ⟨_, if_pos hdone, SetArguments.Sends.last hcarries hnext⟩
    · have hnonempty : blocks ≠ [] := by
        rintro rfl
        simp only [length_nil] at hnext hn
        omega
      have hpos := hpos hnonempty
      obtain ⟨bs, hbs, hsends⟩ := ih
        (show next + n + (blocks.drop n).length = total by rw [length_drop]; omega)
        (fun block hblock => hblocks block (mem_of_mem_drop hblock))
        (by rw [length_drop]; omega)
      refine ⟨(args.request total next blocks).1 :: bs, ?_, ?_⟩
      · rw [if_neg hdone, hbs]
        rfl
      · have hlen : (blocks.take n).length = n := length_take_of_le hn
        rw [← take_append_drop n blocks]
        refine SetArguments.Sends.more ?_ (hlen.symm ▸ hsends)
        rw [take_append_drop]
        exact hcarries

theorem requests_of_too_long {block : List (ℕ × ℕ)}
    (hlong : bandwidthQueryLength < setHeaderLength + size block)
    (hwrap : setHeaderLength + size block < 2 ^ 32) (hnext : next < total) (rounds : ℕ) :
    args.requests total rounds next (block :: blocks) = none := by
  have hfull : setIpBlock block zeros setHeaderLength = none := by
    rw [setIpBlock, if_pos]
    rw [addUint32, Nat.mod_eq_of_lt hwrap]
    exact hlong
  have hempty : (args.request total next (block :: blocks)).2 = 0 := by
    rw [SetArguments.request, fillRequest, hfull]
  induction rounds with
  | zero => rfl
  | succ rounds ih =>
    simp only [SetArguments.requests, hempty, Nat.add_zero, drop_zero, ih, Option.map_none]
    rw [if_neg (by omega)]

end Requests

/-! ## Every record once -/

def SetData.count : SetData → ℕ
  | .counters data => data.length
  | .histories data => data.length

def SetData.FitsRequest : SetData → Prop
  | .counters _ => True
  | .histories data => ∀ d ∈ data, d.historyBws.length ≤ 2033

/-- The loop of `set_bandwidth_data` ends, its requests carry every record once
and in order, and with the last one the number of records is reached, which the
module takes for the end of the set. -/
def SetArguments.Delivers (args : SetArguments) (minutesWest : ℤ → ℤ) (clock : ℕ → ℤ) : Prop :=
  ∃ rounds requests,
    args.requests args.totalIps rounds 0
        ((args.data.blocks minutesWest clock).take args.totalIps) = some requests ∧
      args.Sends args.data.count 0 (args.data.blocks minutesWest clock) requests ∧
      ∀ b, requests.getLast? = some b →
        (parseSetHeader b).nextIpIndex + (parseSetHeader b).numIpsInBuffer =
          (parseSetHeader b).totalIps

section Delivery

variable {args : SetArguments} {minutesWest : ℤ → ℤ} {clock : ℕ → ℤ} {total next : ℕ}
  {blocks : List (List (ℕ × ℕ))} {bs : List ByteBuffer}

theorem SetArguments.Sends.ne_nil (h : args.Sends total next blocks bs) : bs ≠ [] := by
  cases h <;> exact cons_ne_nil _ _

theorem SetArguments.Sends.fits (h : args.Sends total next blocks bs) :
    ∀ block ∈ blocks, setHeaderLength + size block ≤ bandwidthQueryLength := by
  have hpart : ∀ {blocks : List (List (ℕ × ℕ))} {block}, block ∈ blocks →
      size block ≤ size blocks.flatten := by
    intro blocks block hmem
    obtain ⟨front, back, rfl⟩ := append_of_mem hmem
    rw [flatten_append, flatten_cons, size_append, size_append]
    omega
  induction h with
  | last hcarries _ =>
    intro block hmem
    exact (Nat.add_le_add_left (hpart hmem) _).trans hcarries.fits
  | more hcarries _ ih =>
    intro block hmem
    rcases List.mem_append.1 hmem with hmem | hmem
    · exact (Nat.add_le_add_left (hpart hmem) _).trans hcarries.fits
    · exact ih block hmem

theorem SetArguments.Sends.total_lt (h : args.Sends total next blocks bs) : total < 2 ^ 32 := by
  have hheader : ∀ {next : ℕ} {blocks : List (List (ℕ × ℕ))} {b : ByteBuffer},
      args.Carries total next blocks b → total < 2 ^ 32 := by
    intro next blocks b hcarries
    have htotal : readLE 4 b 0 = total := congrArg SetHeader.totalIps hcarries.header
    rw [← htotal]
    exact (readLE_lt 4 b 0).trans_eq (by norm_num)
  cases h with
  | last hcarries _ => exact hheader hcarries
  | more hcarries _ => exact hheader hcarries

theorem SetArguments.Sends.getLast (h : args.Sends total next blocks bs) {b : ByteBuffer}
    (hb : bs.getLast? = some b) :
    (parseSetHeader b).nextIpIndex + (parseSetHeader b).numIpsInBuffer =
      (parseSetHeader b).totalIps := by
  induction h with
  | last hcarries hend =>
    rw [getLast?_singleton] at hb
    obtain rfl := Option.some.inj hb
    rw [hcarries.header]
    exact hend
  | more _ hrest ih =>
    refine ih ?_
    rwa [getLast?_cons_of_ne_nil hrest.ne_nil] at hb

theorem length_blocks (data : SetData) :
    (data.blocks minutesWest clock).length = data.count := by
  cases data <;> simp [SetData.blocks, SetData.count]

theorem totalIps_eq (args : SetArguments) : args.totalIps = args.data.count % 2 ^ 32 := by
  rw [SetArguments.totalIps]
  cases args.data <;> rfl

theorem blocks_fit_iff (data : SetData) :
    (∀ block ∈ data.blocks minutesWest clock,
        setHeaderLength + size block ≤ bandwidthQueryLength) ↔ data.FitsRequest := by
  have hlengths : setHeaderLength = 72 ∧ bandwidthQueryLength = 16384 := ⟨rfl, rfl⟩
  cases data with
  | counters data =>
    refine iff_of_true ?_ trivial
    intro block hblock
    obtain ⟨d, -, rfl⟩ := List.mem_map.1 hblock
    rw [IpBw.block, size_plainFields]
    omega
  | histories data =>
    have hsize : ∀ d : IpBwHistory, ∀ now, setHeaderLength + size (d.block minutesWest now) ≤
        bandwidthQueryLength ↔ d.historyBws.length ≤ 2033 := by
      intro d now
      rw [IpBwHistory.block, size_historyFields, length_map]
      omega
    simp only [SetData.blocks, forall_mem_map, hsize, SetData.FitsRequest]
    constructor
    · intro hall d hd
      obtain ⟨i, hi⟩ := List.mem_iff_getElem?.1 hd
      exact hall (d, i) (List.mk_mem_zipIdx_iff_getElem?.2 hi)
    · exact fun hall e he => hall e.1 (fst_mem_of_mem_zipIdx he)

/-- The records are delivered exactly if their number is a 32-bit word and each of
them fits an empty request. -/
theorem delivers_iff (args : SetArguments) (minutesWest : ℤ → ℤ) (clock : ℕ → ℤ) :
    args.Delivers minutesWest clock ↔ args.data.count < 2 ^ 32 ∧ args.data.FitsRequest := by
  constructor
  · rintro ⟨rounds, requests, -, hsends, -⟩
    exact ⟨hsends.total_lt, (blocks_fit_iff _).1 hsends.fits⟩
  · rintro ⟨hcount, hfits⟩
    have hlength := @length_blocks minutesWest clock args.data
    have htotal : args.totalIps = args.data.count := by
      rw [totalIps_eq, Nat.mod_eq_of_lt hcount]
    obtain ⟨bs, hbs, hsends⟩ := requests_sends args hcount
      (show 0 + (args.data.blocks minutesWest clock).length = args.data.count by omega)
      ((blocks_fit_iff _).2 hfits) (Nat.lt_succ_self _)
    refine ⟨(args.data.blocks minutesWest clock).length + 1, bs, ?_, hsends,
      fun b => hsends.getLast⟩
    rw [htotal, take_of_length_le hlength.le]
    exact hbs

/-- A history of `2034` nodes. -/
def longRecord : IpBwHistory :=
  { family := 2, ip := 0, resetInterval := bandwidthDay, resetTime := 0,
    isConstantInterval := false, firstStart := 0, firstEnd := 0, lastEnd := 0,
    historyBws := List.replicate 2034 0 }

def longHistory : SetArguments where
  id := "quota"
  zeroUnset := false
  lastBackup := 0
  data := .histories [longRecord]

theorem size_longRecord : size (longRecord.block (fun _ => 0) 0) = 16320 := by
  rw [IpBwHistory.block, size_historyFields, length_map, longRecord, length_replicate]

/-- It is too long for a request, and the loop does not end. -/
theorem longHistory_not_delivered :
    (∀ rounds, longHistory.requests longHistory.totalIps rounds 0
        ((longHistory.data.blocks (fun _ => 0) (fun _ => 0)).take longHistory.totalIps) = none) ∧
      ¬ longHistory.Delivers (fun _ => 0) (fun _ => 0) := by
  have hnone : ∀ rounds, longHistory.requests longHistory.totalIps rounds 0
      ((longHistory.data.blocks (fun _ => 0) (fun _ => 0)).take longHistory.totalIps) = none := by
    intro rounds
    have hlong : bandwidthQueryLength < setHeaderLength + size (longRecord.block (fun _ => 0) 0) ∧
        setHeaderLength + size (longRecord.block (fun _ => 0) 0) < 2 ^ 32 := by
      rw [size_longRecord]
      decide
    exact requests_of_too_long longHistory hlong.1 hlong.2 (by decide) rounds
  refine ⟨hnone, ?_⟩
  rintro ⟨rounds, requests, hrequests, -⟩
  rw [hnone rounds] at hrequests
  cases hrequests

end Delivery

/-!
## Data returned by the module

`parse_returned_ip_data` of `libnftbwctl`, which decodes one block of a reply.
The module knows a single offset from UTC and dates a whole history by it; the
library moves the times of a history to where they were when daylight saving
time was different, and `set_ip_block` is meant to move them back. It adds
minutes where seconds are due, and it adds them a second time, so that the times
only come back as they were if there was nothing to correct.
-/

structure ResetFields where
  resetInterval : ℤ
  resetTime : ℤ
  isConstantInterval : Bool
deriving DecidableEq

/-- A time of a history as the library keeps it, for the value the module has
reported and the time `now`. -/
def returnedTime (minutesWest : ℤ → ℤ) (now x : ℤ) : ℤ :=
  x + 60 * (minutesWest x - minutesWest now)

/-- `parse_returned_ip_data` for a counter, with the index behind the block. -/
def parseReturnedIp (b : ByteBuffer) (index : ℕ) : IpBw × ℕ :=
  ({ family := BitVec.ofNat 32 (readLE 4 b index)
     ip := readIp b (index + 4)
     bw := BitVec.ofNat 64 (readLE 8 b (index + 20)) },
    addUint32 index 28)

/-- `parse_returned_ip_data` for a history, with the index behind the block. -/
def parseReturnedHistory (minutesWest : ℤ → ℤ) (now : ℤ) (reset : ResetFields) (b : ByteBuffer)
    (index : ℕ) : IpBwHistory × ℕ :=
  let numNodes := readLE 4 b (index + 20)
  let time := fun off => returnedTime minutesWest now (toInt64 (readLE 8 b (index + off)))
  ({ family := BitVec.ofNat 32 (readLE 4 b index)
     ip := readIp b (index + 4)
     resetInterval := reset.resetInterval
     resetTime := reset.resetTime
     isConstantInterval := reset.isConstantInterval
     firstStart := time 24
     firstEnd := time 32
     lastEnd := time 40
     historyBws := (readWords b (index + 48) numNodes).map (BitVec.ofNat 64) },
    addUint32 index (48 + 8 * numNodes))

/-! ### The times of a history that is sent back -/

theorem toUint64_toInt64 {n : ℕ} (h : n < 2 ^ 64) : toUint64 (toInt64 n) = n := by
  have hbmod : ((n : ℤ).bmod (2 ^ 64)) % 2 ^ 64 = (n : ℤ) % 2 ^ 64 := Int.bmod_emod
  unfold toUint64 toInt64
  rw [hbmod]
  omega

theorem toUint64_add_eq_iff {x d : ℤ} (hlow : -2 ^ 64 < d) (hhigh : d < 2 ^ 64) :
    toUint64 (x + d) = toUint64 x ↔ d = 0 := by
  unfold toUint64
  omega

section SentBack

variable {minutesWest : ℤ → ℤ} {now : ℤ}

theorem sentHistoryTime_returnedTime {x : ℤ}
    (hsame : minutesWest (returnedTime minutesWest now x) = minutesWest x) :
    sentHistoryTime minutesWest now (returnedTime minutesWest now x) =
      toUint64 (x + 61 * (minutesWest x - minutesWest now)) := by
  unfold sentHistoryTime
  rw [hsame, returnedTime]
  congr 1
  ring

theorem readLE_firstStart_setIpBlock {d : IpBwHistory} {b b' : ByteBuffer} {index index' : ℕ}
    (h : setIpBlock (d.block minutesWest now) b index = some (b', index')) :
    readLE 8 b' (index + 24) = sentHistoryTime minutesWest now d.firstStart := by
  unfold setIpBlock at h
  split_ifs at h
  obtain ⟨rfl, -⟩ := Prod.mk.inj (Option.some.inj h)
  obtain ⟨-, -, -, hfirst, -⟩ := historyFields_of_holds (holds_writeFields b index _)
  rw [IpBwHistory.block, hfirst]
  exact Nat.mod_eq_of_lt (toUint64_lt _)

/-- The first time of a history that is sent back as it was returned is the one
that the module had reported exactly when the offset from UTC is the one at the
present time. -/
theorem first_start_sent_back_iff
    (hint : ∀ t, -2 ^ 31 ≤ minutesWest t ∧ minutesWest t < 2 ^ 31) {reset : ResetFields}
    {b b' b'' : ByteBuffer} {index start next : ℕ}
    (hsame : minutesWest (parseReturnedHistory minutesWest now reset b index).1.firstStart =
      minutesWest (toInt64 (readLE 8 b (index + 24))))
    (hsent : setIpBlock
      ((parseReturnedHistory minutesWest now reset b index).1.block minutesWest now) b' start =
        some (b'', next)) :
    readLE 8 b'' (start + 24) = readLE 8 b (index + 24) ↔
      minutesWest (toInt64 (readLE 8 b (index + 24))) = minutesWest now := by
  have hword : readLE 8 b (index + 24) < 2 ^ 64 :=
    (readLE_lt 8 b (index + 24)).trans_eq (by norm_num)
  have hx := hint (toInt64 (readLE 8 b (index + 24)))
  have hnow := hint now
  rw [readLE_firstStart_setIpBlock hsent]
  simp only [parseReturnedHistory] at hsame ⊢
  have hback := toUint64_toInt64 hword
  generalize readLE 8 b (index + 24) = reported at *
  rw [sentHistoryTime_returnedTime hsame]
  nth_rewrite 3 [← hback]
  rw [toUint64_add_eq_iff (by omega) (by omega)]
  omega

end SentBack

/-! ### Summer and winter -/

def summerFromMillion (t : ℤ) : ℤ := if t < 1000000 then 60 else 0

/-- The block of a history with the first time `x`. -/
def blockFrom (x : ℤ) : ByteBuffer :=
  writeFields zeros 0 (historyFields NfProto.ipv4.code 0 (toUint64 x) (toUint64 x) (toUint64 x) [1])

def historyFrom (x : ℤ) : IpBwHistory :=
  (parseReturnedHistory summerFromMillion 2000000 ⟨bandwidthDay, 0, false⟩ (blockFrom x) 0).1

theorem readLE_blockFrom (x : ℤ) : readLE 8 (blockFrom x) 24 = toUint64 x := by
  obtain ⟨-, -, -, hfirst, -⟩ := historyFields_of_holds (holds_writeFields zeros 0 _)
  exact hfirst.trans (Nat.mod_eq_of_lt (toUint64_lt x))

theorem setIpBlock_historyFrom (x : ℤ) :
    setIpBlock ((historyFrom x).block summerFromMillion 2000000) zeros 0 =
      some (writeFields zeros 0 ((historyFrom x).block summerFromMillion 2000000), 56) := by
  obtain ⟨-, -, hcount, -⟩ := historyFields_of_holds (holds_writeFields zeros 0 _)
  have hnodes : (historyFrom x).historyBws.length = 1 := by
    simp only [historyFrom, parseReturnedHistory, readWords, length_map, length_range]
    exact hcount
  have hsize : size ((historyFrom x).block summerFromMillion 2000000) = 56 := by
    rw [IpBwHistory.block, size_historyFields, length_map, hnodes]
  unfold setIpBlock
  rw [hsize]
  rfl

theorem historyFrom_firstStart {x : ℤ} (hlow : -2 ^ 63 ≤ x) (hhigh : x < 2 ^ 63) :
    (historyFrom x).firstStart = returnedTime summerFromMillion 2000000 x := by
  simp only [historyFrom, parseReturnedHistory, Nat.zero_add, readLE_blockFrom,
    toInt64_toUint64 hlow hhigh]

/-- A history that began after the clocks were changed is sent back unmoved. -/
theorem first_start_sent_back_in_summer :
    ∃ b next, setIpBlock ((historyFrom 1500000).block summerFromMillion 2000000) zeros 0 =
        some (b, next) ∧
      readLE 8 b (0 + 24) = readLE 8 (blockFrom 1500000) (0 + 24) := by
  have hint : ∀ t, -2 ^ 31 ≤ summerFromMillion t ∧ summerFromMillion t < 2 ^ 31 := by
    intro t
    unfold summerFromMillion
    split_ifs <;> norm_num
  have hreported : toInt64 (readLE 8 (blockFrom 1500000) (0 + 24)) = 1500000 := by
    rw [Nat.zero_add, readLE_blockFrom]
    rfl
  refine ⟨_, _, setIpBlock_historyFrom 1500000,
    (first_start_sent_back_iff hint ?_ (setIpBlock_historyFrom 1500000)).2 ?_⟩
  · rw [hreported]
    exact congrArg summerFromMillion (historyFrom_firstStart (by norm_num) (by norm_num))
  · rw [hreported]
    rfl

/-- A history that began before the clocks were changed comes back later than it
was, although the offset at its beginning and at the corrected time is the same. -/
theorem first_start_moved_by_dst :
    readLE 8 (blockFrom 100000) 24 = 100000 ∧
      summerFromMillion (historyFrom 100000).firstStart = summerFromMillion 100000 ∧
      ∃ b next, setIpBlock ((historyFrom 100000).block summerFromMillion 2000000) zeros 0 =
          some (b, next) ∧ readLE 8 b (0 + 24) = 100000 + 3660 := by
  have hfirst := historyFrom_firstStart (x := 100000) (by norm_num) (by norm_num)
  refine ⟨readLE_blockFrom 100000, ?_, _, _, setIpBlock_historyFrom 100000, ?_⟩
  · rw [hfirst]
    rfl
  · rw [readLE_firstStart_setIpBlock (setIpBlock_historyFrom 100000), hfirst]
    rfl

end Bwctl

end Gargoyle
