import Gargoyle.Bandwidth.TimeShift

/-!
# Counting a packet

`bandwidth_mt4` and `bandwidth_mt6` are two copies of one function. They differ
in how the two address texts of a packet are formed (`bwIps4`, `bwIps6`) and in
the family of a new entry; everything else is `bandwidthMt`, which takes these
as parameters. Of the two texts the first one that is not `0.0.0.0` is charged.

A rule that counts works on its own master record; a check rule works on the
record its id is registered with.
-/

namespace Gargoyle

namespace Bandwidth

variable [Kernel]

/-- `get_bw_record_max`, the largest value of a counter. -/
def bandwidthRecordMax : ℕ := 2 ^ 62 + (2 ^ 62 - 1)

/-- `ADD_UP_TO_MAX` in 64-bit arithmetic. -/
def addUpToMax (original add : ℕ) (isCheck : Bool) : ℕ :=
  if (bandwidthRecordMax + 2 ^ 64 - original) % 2 ^ 64 > add ∧ isCheck = false then
    (original + add) % 2 ^ 64
  else if isCheck then original else bandwidthRecordMax

/-- `current_bandwidth` after a packet. -/
def NftBandwidthInfo.addToCurrent (info : NftBandwidthInfo) (len : ℕ) (isCheck : Bool) :
    NftBandwidthInfo :=
  { info with currentBandwidth := addUpToMax info.currentBandwidth len isCheck }

def inSubnet6 (mask subnet a : In6Addr) : Bool :=
  decide (∀ x : Fin 16, s6Addr a x &&& s6Addr mask x = s6Addr subnet x)

/-- The two texts `bandwidth_mt4` chooses from. -/
def bwIps4 (priv : NftBandwidthInfo) (src dst : BitVec 32) (swap : Bool) : String × String :=
  match priv.type with
  | .combined => (combinedIp, combinedIp)
  | .individualSrc => (Kernel.pI4 (if swap then dst else src), combinedIp)
  | .individualDst => (Kernel.pI4 (if swap then src else dst), combinedIp)
  | .individualLocal =>
    (Kernel.pI4 (if priv.localSubnetMask &&& src = priv.localSubnet then src else 0),
      Kernel.pI4 (if priv.localSubnetMask &&& dst = priv.localSubnet then dst else 0))
  | .individualRemote =>
    (Kernel.pI4 (if priv.localSubnetMask &&& src ≠ priv.localSubnet then src else 0),
      Kernel.pI4 (if priv.localSubnetMask &&& dst ≠ priv.localSubnet then dst else 0))

/-- The two texts `bandwidth_mt6` chooses from. The local branch prints the zero
address for an end that is not local, the remote branch writes `0.0.0.0` for an
end that is not remote. -/
def bwIps6 (priv : NftBandwidthInfo) (src dst : In6Addr) (swap : Bool) : String × String :=
  let isLocal := inSubnet6 priv.localSubnet6Mask priv.localSubnet6
  match priv.type with
  | .combined => (combinedIp, combinedIp)
  | .individualSrc => (Kernel.pI6c (if swap then dst else src), combinedIp)
  | .individualDst => (Kernel.pI6c (if swap then src else dst), combinedIp)
  | .individualLocal =>
    (Kernel.pI6c (if isLocal src then src else 0),
      Kernel.pI6c (if isLocal dst then dst else 0))
  | .individualRemote =>
    (if isLocal src then combinedIp else Kernel.pI6c src,
      if isLocal dst then combinedIp else Kernel.pI6c dst)

def bwIpIndex (ips : String × String) : Bool := ips.1 = combinedIp

/-- `bw_ip`, the text at `bw_ip_index`. -/
def bwIp (ips : String × String) : String := if bwIpIndex ips then ips.2 else ips.1

namespace ModuleState

def modifyInfo (m : ModuleState) (r : ℕ) (f : NftBandwidthInfo → NftBandwidthInfo) :
    ModuleState :=
  match m.infos r with
  | some info => m.setInfo r (f info)
  | none => m

/-- `initialize_map_entries_for_ip` on the id behind `p`. -/
def initEntry (m : ModuleState) (p : ℕ) (ip : String) (bw family : ℕ) :
    ModuleState × Option Cell :=
  (m.onUnit p fun u => (initializeMapEntriesForIp u ip bw family).1,
    (m.unit p).map fun u => (initializeMapEntriesForIp u ip bw family).2)

/-- `*c = ADD_UP_TO_MAX(*c, len, is_check)` for a counter of the id behind `p`. -/
def addToCell (m : ModuleState) (p : ℕ) (c : Cell) (len : ℕ) (isCheck : Bool) : ModuleState :=
  match m.iams p with
  | some iam =>
    match iam.maps.cells.load c with
    | some v =>
      m.setIam p
        { iam with
          maps :=
            { iam.maps with cells := iam.maps.cells.store c (addUpToMax v len isCheck) } }
    | none => m
  | none => m

/-- Charge the combined counter through `combined_bw`, creating its entry when
the pointer is not set. -/
def chargeCombined (m : ModuleState) (h p len : ℕ) (isCheck : Bool) :
    ModuleState × Option Cell :=
  match (m.infos h).bind (·.combinedBw) with
  | none => m.initEntry p combinedIp len NfProto.ipv4.code
  | some c => (m.addToCell p c len isCheck, some c)

def chargeIp (m : ModuleState) (p : ℕ) (ip : String) (len : ℕ) (isCheck : Bool) (family : ℕ) :
    ModuleState × Option Cell :=
  match (m.iams p).bind fun iam => iam.maps.ipMap.get ip with
  | none => if isCheck then (m, none) else m.initEntry p ip len family
  | some c => (m.addToCell p c len isCheck, some c)

def chargeMonitor (m : ModuleState) (h p : ℕ) (priv : NftBandwidthInfo) (len : ℕ)
    (isCheck : Bool) : ModuleState :=
  if isCheck = false ∧ priv.cmp = .monitor then (m.chargeCombined h p len isCheck).1 else m

def resetIfDue (m : ModuleState) (h : ℕ) (now : ℤ) : ModuleState :=
  match m.infos h with
  | none => m
  | some priv =>
    if priv.resetInterval ≠ bandwidthNever ∧ priv.nextReset < now then
      match priv.iam with
      | some p => m.onUnit p (handleIntervalReset now)
      | none =>
        m.setInfo h
          { priv with
            currentBandwidth := 0
            nextReset := getNextResetTime priv now priv.previousReset }
    else m

/-- Charge a packet to the record `h`. The cells are `bws[0]` and `bws[1]`. -/
def countPacket (m : ModuleState) (h : ℕ) (ips : NftBandwidthInfo → String × String)
    (family len : ℕ) (isCheck : Bool) : ModuleState × Option Cell × Option Cell :=
  match m.infos h with
  | none => (m, none, none)
  | some priv =>
    if priv.type = .combined then
      let charged :=
        match priv.iam with
        | some p => m.chargeCombined h p len isCheck
        | none => (m, none)
      (charged.1.modifyInfo h (·.addToCurrent len isCheck), charged.2, none)
    else
      match priv.iam with
      | some p =>
        let m' := m.chargeMonitor h p priv len isCheck
        if bwIp (ips priv) ≠ combinedIp then
          let charged := m'.chargeIp p (bwIp (ips priv)) len isCheck family
          if bwIpIndex (ips priv) then (charged.1, none, charged.2)
          else (charged.1, charged.2, none)
        else (m', none, none)
      | none => (m, none, none)

/-- The counter behind one of the `bws` pointers. -/
def bwsValue (m : ModuleState) (priv : NftBandwidthInfo) (c : Option Cell) : Option ℕ :=
  priv.iam.bind fun p => (m.iams p).bind fun iam => c.bind iam.maps.cells.load

def matchFound (m : ModuleState) (h : ℕ) (bws : Option Cell × Option Cell) : Bool :=
  match m.infos h with
  | none => false
  | some priv =>
    let values := (m.bwsValue priv bws.1).toList ++ (m.bwsValue priv bws.2).toList ++
      [priv.currentBandwidth]
    match priv.cmp with
    | .gt => values.any fun v => decide (v > priv.bandwidthCutoff)
    | .lt => values.any fun v => decide (v < priv.bandwidthCutoff)
    | .monitor => false
    | .check => false

/-- What is done under the lock, for the record `h`. -/
def evaluate (m : ModuleState) (h : ℕ) (ips : NftBandwidthInfo → String × String)
    (family len : ℕ) (isCheck : Bool) (now : ℤ) : ModuleState × Bool :=
  let counted := (m.resetIfDue h now).countPacket h ips family len isCheck
  (counted.1, counted.1.matchFound h counted.2)

/-- The common text of `bandwidth_mt4` and `bandwidth_mt6`. -/
def bandwidthMt (m : ModuleState) (r : ℕ) (ips : NftBandwidthInfo → Bool → String × String)
    (family len : ℕ) (t : Tick) : ModuleState × Bool :=
  match m.infos r with
  | none => (m, false)
  | some rulePriv =>
    if m.setInProgress = true ∧ rulePriv.id = m.setId then (m, false)
    else
      let m' := m.timeChecks t
      let now := t.now - m'.clock.localSecondsWest
      if rulePriv.cmp = .check then
        match (m'.idMap.get rulePriv.id).bind m'.iams with
        | none => (m', false)
        | some iam =>
          m'.evaluate iam.info (fun priv => ips priv (rulePriv.checkType = .swap)) family len
            true now
      else m'.evaluate r (fun priv => ips priv false) family len false now

def bandwidthMt4 (m : ModuleState) (r : ℕ) (src dst : BitVec 32) (len : ℕ) (t : Tick) :
    ModuleState × Bool :=
  m.bandwidthMt r (fun priv swap => bwIps4 priv src dst swap) NfProto.ipv4.code len t

def bandwidthMt6 (m : ModuleState) (r : ℕ) (src dst : In6Addr) (len : ℕ) (t : Tick) :
    ModuleState × Bool :=
  m.bandwidthMt r (fun priv swap => bwIps6 priv src dst swap) NfProto.ipv6.code len t

end ModuleState

/-- A packet as the match functions see it, with `skb->len`. -/
inductive Packet
  | ipv4 (src dst : BitVec 32) (len : BitVec 32)
  | ipv6 (src dst : In6Addr) (len : BitVec 32)

namespace Packet

/-- `skb->len`. -/
def len : Packet → ℕ
  | .ipv4 _ _ len => len.toNat
  | .ipv6 _ _ len => len.toNat

def family : Packet → ℕ
  | .ipv4 _ _ _ => NfProto.ipv4.code
  | .ipv6 _ _ _ => NfProto.ipv6.code

def bwIps (priv : NftBandwidthInfo) (swap : Bool) : Packet → String × String
  | .ipv4 src dst _ => bwIps4 priv src dst swap
  | .ipv6 src dst _ => bwIps6 priv src dst swap

omit [Kernel] in
theorem len_lt (pkt : Packet) : pkt.len < 2 ^ 32 := by
  cases pkt with
  | ipv4 src dst len => exact len.isLt
  | ipv6 src dst len => exact len.isLt

end Packet

/-- `nft_bandwidth_eval`: the match function of the packet's family. -/
def ModuleState.bandwidthEval (m : ModuleState) (r : ℕ) (t : Tick) :
    Packet → ModuleState × Bool
  | .ipv4 src dst len => m.bandwidthMt4 r src dst len.toNat t
  | .ipv6 src dst len => m.bandwidthMt6 r src dst len.toNat t

theorem ModuleState.bandwidthEval_eq (m : ModuleState) (r : ℕ) (t : Tick) (pkt : Packet) :
    m.bandwidthEval r t pkt =
      m.bandwidthMt r (fun priv swap => pkt.bwIps priv swap) pkt.family pkt.len t := by
  cases pkt with
  | ipv4 src dst len => rfl
  | ipv6 src dst len => rfl

end Bandwidth

end Gargoyle
