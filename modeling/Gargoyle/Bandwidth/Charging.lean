import Gargoyle.Bandwidth.PacketRun
import Gargoyle.Bandwidth.ReferenceKernel
import Gargoyle.Bandwidth.Registry

/-!
# Which address a packet is charged to

The type of a rule says which ends of a packet it counts. In `bandwidth_mt4` the
text `0.0.0.0` stands for an end that is not counted, so the address `0.0.0.0`
itself is never charged: `chargedAddress` is the first end of the right kind that
is not zero. `counters_after_packets` adds up the counters of a run of IPv4
packets accordingly.

`bandwidth_mt6` keeps `0.0.0.0` as the text of an end that is not counted but
prints the zero address as `::`. The two functions charge the same end of a
packet unless the type is `INDIVIDUAL_LOCAL` and the source is not local.
-/

namespace Gargoyle

open List

namespace Bandwidth

/-- A packet that is given to `bandwidth_mt4`. -/
structure Arrival4 where
  tick : Tick
  src : BitVec 32
  dst : BitVec 32
  len : BitVec 32

def Arrival4.toArrival (x : Arrival4) : Arrival := ⟨false, x.tick, .ipv4 x.src x.dst x.len⟩

def isLocal4 (info : NftBandwidthInfo) (a : BitVec 32) : Bool :=
  info.localSubnetMask &&& a = info.localSubnet

def candidates4 (info : NftBandwidthInfo) (src dst : BitVec 32) : List (BitVec 32) :=
  match info.type with
  | .combined => []
  | .individualSrc => [src]
  | .individualDst => [dst]
  | .individualLocal => [src, dst].filter fun a => isLocal4 info a
  | .individualRemote => [src, dst].filter fun a => !isLocal4 info a

def nominalAddress (info : NftBandwidthInfo) (src dst : BitVec 32) : Option (BitVec 32) :=
  (candidates4 info src dst).head?

def chargedAddress (info : NftBandwidthInfo) (src dst : BitVec 32) : Option (BitVec 32) :=
  (candidates4 info src dst).find? fun a => a ≠ 0

def chargesCombined (info : NftBandwidthInfo) : Bool :=
  info.type = .combined || info.cmp = .monitor

section

variable [Kernel]

/-- A run of packets through `bandwidth_mt4`. -/
def ModuleState.runMt4 (m : ModuleState) (r : ℕ) (xs : List Arrival4) : ModuleState :=
  xs.foldl (fun m x => (m.bandwidthMt4 r x.src x.dst x.len.toNat x.tick).1) m

theorem ModuleState.runMt4_eq_evaluateAll (m : ModuleState) (r : ℕ) (xs : List Arrival4) :
    m.runMt4 r xs = m.evaluateAll (fun _ => r) (xs.map Arrival4.toArrival) := by
  rw [runMt4, evaluateAll, foldl_map]
  rfl

theorem pI4_injective {a b : BitVec 32} (h : Kernel.pI4 a = Kernel.pI4 b) : a = b := by
  have hread := congrArg Kernel.in4Pton h
  rw [Kernel.in4Pton_pI4, Kernel.in4Pton_pI4] at hread
  exact Option.some.inj hread

theorem pI4_eq_combinedIp_iff (a : BitVec 32) : Kernel.pI4 a = combinedIp ↔ a = 0 := by
  constructor
  · intro h
    exact pI4_injective (h.trans Kernel.pI4_zero.symm)
  · rintro rfl
    exact Kernel.pI4_zero

theorem bwIp_pI4 (a b : BitVec 32) :
    bwIp (Kernel.pI4 a, Kernel.pI4 b) = if a = 0 then Kernel.pI4 b else Kernel.pI4 a := by
  simp only [bwIp, bwIpIndex, pI4_eq_combinedIp_iff, decide_eq_true_eq]

/-- The text of an address, with `0.0.0.0` for no address. -/
def addressText (a : Option (BitVec 32)) : String :=
  match a with
  | some a => Kernel.pI4 a
  | none => combinedIp

theorem bwIp_single (a : BitVec 32) :
    bwIp (Kernel.pI4 a, combinedIp) = addressText ([a].find? fun a => a ≠ 0) := by
  have hzero : combinedIp = Kernel.pI4 0#32 := Kernel.pI4_zero.symm
  rw [hzero, bwIp_pI4]
  by_cases ha : a = 0#32
  · simp [ha, addressText, hzero]
  · simp [ha, addressText]

theorem bwIp_of_kept (keep : BitVec 32 → Bool) (src dst : BitVec 32) :
    bwIp (Kernel.pI4 (if keep src then src else 0), Kernel.pI4 (if keep dst then dst else 0)) =
      addressText (([src, dst].filter keep).find? fun a => a ≠ 0) := by
  have hzero : combinedIp = Kernel.pI4 0#32 := Kernel.pI4_zero.symm
  rw [bwIp_pI4]
  by_cases hs : keep src <;> by_cases hd : keep dst <;>
    by_cases hs0 : src = 0#32 <;> by_cases hd0 : dst = 0#32 <;>
    simp_all [addressText]

theorem bwIp_bwIps4 (info : NftBandwidthInfo) (src dst : BitVec 32) :
    bwIp (bwIps4 info src dst false) = addressText (chargedAddress info src dst) := by
  unfold bwIps4 chargedAddress candidates4
  cases info.type with
  | combined => rfl
  | individualSrc => exact bwIp_single src
  | individualDst => exact bwIp_single dst
  | individualLocal =>
    rw [← bwIp_of_kept]
    simp only [isLocal4, decide_eq_true_eq]
  | individualRemote =>
    rw [← bwIp_of_kept]
    simp only [isLocal4, Bool.not_eq_true', decide_eq_false_iff_not, ne_eq]

omit [Kernel] in
theorem chargedAddress_ne_zero {info : NftBandwidthInfo} {src dst a : BitVec 32}
    (h : chargedAddress info src dst = some a) : a ≠ 0 := by
  simpa using find?_some h

omit [Kernel] in
theorem chargedAddress_of_combined {info : NftBandwidthInfo} (h : info.type = .combined)
    (src dst : BitVec 32) : chargedAddress info src dst = none := by
  simp [chargedAddress, candidates4, h]

theorem charges_bwIps4 (info : NftBandwidthInfo) (src dst : BitVec 32) :
    charges info (bwIps4 info src dst false) =
      (if chargesCombined info then [combinedIp] else []) ++
        ((chargedAddress info src dst).map Kernel.pI4).toList := by
  unfold charges chargesCombined
  rw [bwIp_bwIps4]
  by_cases htype : info.type = .combined
  · simp [htype, chargedAddress_of_combined htype]
  · cases hcharged : chargedAddress info src dst with
    | none => simp [htype, addressText]
    | some a =>
      have hne : Kernel.pI4 a ≠ combinedIp := fun h =>
        chargedAddress_ne_zero hcharged ((pI4_eq_combinedIp_iff a).1 h)
      simp [htype, addressText, hne]

/-! ## The counters of a run of IPv4 packets -/

def ChargedText (info : NftBandwidthInfo) (xs : List Arrival4) (y : String) : Prop :=
  (chargesCombined info = true ∧ y = combinedIp) ∨
    ∃ x ∈ xs, ∃ a, chargedAddress info x.src x.dst = some a ∧ y = Kernel.pI4 a

/-- No other text that the run is charged to has the hash of `k`. -/
def ToldApart (info : NftBandwidthInfo) (xs : List Arrival4) (k : String) : Prop :=
  ∀ y, ChargedText info xs y → sdbmStringHash y = sdbmStringHash k → y = k

/-- The counters of all addresses are what the charged packets add up to, when
`charged` tells which address a packet is charged to. -/
def AddsUp (charged : BitVec 32 → BitVec 32 → Option (BitVec 32)) (xs : List Arrival4)
    (u u' : IdUnit) (a : BitVec 32) : Prop :=
  u'.reported (Kernel.pI4 a) =
    min bandwidthRecordMax (u.reported (Kernel.pI4 a) +
      (xs.map fun x => if charged x.src x.dst = some a then x.len.toNat else 0).sum)

theorem bytesTo_addressTexts (o : Option (BitVec 32)) (len : ℕ) {k : String}
    (happart : ∀ a, o = some a → sdbmStringHash (Kernel.pI4 a) = sdbmStringHash k →
      Kernel.pI4 a = k) :
    bytesTo ((o.map Kernel.pI4).toList) len k = if o.map Kernel.pI4 = some k then len else 0 := by
  cases o with
  | none => simp
  | some a =>
    rw [Option.map_some, Option.toList_some, bytesTo_singleton]
    by_cases hk : sdbmStringHash (Kernel.pI4 a) = sdbmStringHash k
    · simp [happart a rfl hk]
    · have hne : ¬ Kernel.pI4 a = k := fun h => hk (by rw [h])
      simp [hk, hne]

theorem bytesTo_combinedTexts (info : NftBandwidthInfo) (len : ℕ) {k : String}
    (happart : chargesCombined info = true → sdbmStringHash combinedIp = sdbmStringHash k →
      combinedIp = k) :
    bytesTo (if chargesCombined info then [combinedIp] else []) len k =
      if chargesCombined info = true ∧ combinedIp = k then len else 0 := by
  by_cases hc : chargesCombined info = true
  · rw [if_pos hc, bytesTo_singleton]
    by_cases hk : sdbmStringHash combinedIp = sdbmStringHash k
    · rw [if_pos hk, if_pos ⟨hc, happart hc hk⟩]
    · rw [if_neg hk, if_neg fun h => hk (by rw [h.2])]
  · rw [if_neg hc, if_neg fun h => hc h.1, bytesTo_nil]

theorem bytesTo_charges {info : NftBandwidthInfo} {xs : List Arrival4} {k : String}
    (hk : ToldApart info xs k) {x : Arrival4} (hx : x ∈ xs) :
    bytesTo (charges info (bwIps4 info x.src x.dst false)) x.len.toNat k =
      (if chargesCombined info = true ∧ combinedIp = k then x.len.toNat else 0) +
        if (chargedAddress info x.src x.dst).map Kernel.pI4 = some k then x.len.toNat else 0 := by
  rw [charges_bwIps4, bytesTo_append, bytesTo_combinedTexts, bytesTo_addressTexts]
  · intro a ha
    exact hk _ (Or.inr ⟨x, hx, a, ha, rfl⟩)
  · intro hc
    exact hk _ (Or.inl ⟨hc, rfl⟩)

theorem ToldApart.apartFromCombined {info : NftBandwidthInfo} {xs : List Arrival4}
    (h : ToldApart info xs combinedIp) {x : Arrival4} (hx : x ∈ xs) :
    ApartFromCombined (bwIps4 info x.src x.dst false) := by
  unfold ApartFromCombined
  rw [bwIp_bwIps4]
  cases hcharged : chargedAddress info x.src x.dst with
  | none => exact fun _ => rfl
  | some a => exact h _ (Or.inr ⟨x, hx, a, hcharged, rfl⟩)

section Run

variable {m : ModuleState} {p r : ℕ} {iam : InfoAndMaps} {u : IdUnit}

/-- What is reported after a run is what the packets of the run add up to. -/
theorem runMt4_reported (h : m.Serves p iam u) (hrule : iam.info = r)
    (hidle : m.setInProgress = false) (hsound : u.Sound) (hcount : u.Counting)
    (xs : List Arrival4) (hclock : m.clock.Steady (xs.map Arrival4.tick))
    (hdue : ∀ x ∈ xs, ¬ u.info.Due (x.tick.now - m.clock.localSecondsWest))
    (hcombined : ToldApart u.info xs combinedIp) :
    ∃ u', (m.runMt4 r xs).unit p = some u' ∧
      ∀ k, ToldApart u.info xs k →
        u'.reported k = min bandwidthRecordMax (u.reported k +
          (xs.map fun x =>
            (if chargesCombined u.info = true ∧ combinedIp = k then x.len.toNat else 0) +
              if (chargedAddress u.info x.src x.dst).map Kernel.pI4 = some k
              then x.len.toNat else 0).sum) := by
  have hticks : (xs.map Arrival4.toArrival).map Arrival.tick = xs.map Arrival4.tick := by
    rw [map_map]
    rfl
  have hrules : ∀ e ∈ xs.map Arrival4.toArrival, iam.ruleOf e.other = some r ∧
      (u.record e.other).isSome := by
    intro e he
    obtain ⟨x, -, rfl⟩ := List.mem_map.1 he
    exact ⟨congrArg some hrule, rfl⟩
  obtain ⟨iam', hserves⟩ := h.evaluateAll hidle hcount (fun _ => r) (xs.map Arrival4.toArrival) hrules
    (by rw [hticks]; exact hclock)
  have hcounts : ∀ e ∈ xs.map Arrival4.toArrival, u.Counts m.clock.localSecondsWest e := by
    intro e he
    obtain ⟨x, hx, rfl⟩ := List.mem_map.1 he
    exact ⟨u.info, rfl, hdue x hx, hcombined.apartFromCombined hx⟩
  obtain ⟨-, hreported⟩ := hsound.evaluateAll m.clock.localSecondsWest _ hcounts
  refine ⟨_, by rw [ModuleState.runMt4_eq_evaluateAll]; exact hserves.unit_eq, fun k hk => ?_⟩
  rw [hreported k, map_map]
  congr 2
  exact congrArg List.sum (map_congr_left fun x hx => bytesTo_charges hk hx)

/-- The counters after a run of IPv4 packets through the only rule of an id: the
counter of an address has grown by the packets charged to it, the combined
counter by all packets when the rule keeps one, and every other counter is what
it was. -/
theorem counters_after_packets (h : m.Serves p iam u) (hrule : iam.info = r)
    (honly : iam.otherInfo = none) (hidle : m.setInProgress = false) (hsound : u.Sound)
    (hcmp : u.info.cmp ≠ .check) (xs : List Arrival4)
    (hclock : m.clock.Steady (xs.map Arrival4.tick))
    (hdue : ∀ x ∈ xs, ¬ u.info.Due (x.tick.now - m.clock.localSecondsWest))
    (hcombined : ToldApart u.info xs combinedIp) :
    ∃ u', (m.runMt4 r xs).unit p = some u' ∧
      (∀ a, a ≠ 0 → ToldApart u.info xs (Kernel.pI4 a) →
        AddsUp (chargedAddress u.info) xs u u' a) ∧
      (u'.reported combinedIp = min bandwidthRecordMax (u.reported combinedIp +
        (xs.map fun x => if chargesCombined u.info then x.len.toNat else 0).sum)) ∧
      ∀ k, (∀ y, ChargedText u.info xs y → sdbmStringHash y ≠ sdbmStringHash k) →
        u'.reported k = u.reported k := by
  have hcount : u.Counting := by
    intro other info hinfo
    cases other with
    | false =>
      obtain rfl := Option.some.inj hinfo
      exact hcmp
    | true =>
      have hother := h.other_eq
      rw [honly] at hother
      have hnone : u.record true = none := hother.symm
      rw [hnone] at hinfo
      cases hinfo
  obtain ⟨u', hunit, hreported⟩ := runMt4_reported h hrule hidle hsound hcount xs hclock hdue
    hcombined
  refine ⟨u', hunit, fun a ha hk => ?_, ?_, fun k hk => ?_⟩
  · have hne : combinedIp ≠ Kernel.pI4 a := fun heq => ha ((pI4_eq_combinedIp_iff a).1 heq.symm)
    rw [AddsUp, hreported _ hk]
    congr 2
    refine congrArg List.sum (map_congr_left fun x _ => ?_)
    rw [if_neg fun hc => hne hc.2, Nat.zero_add]
    cases hcharged : chargedAddress u.info x.src x.dst with
    | none => simp
    | some b =>
      by_cases hab : b = a
      · simp [hab]
      · have hne' : Kernel.pI4 b ≠ Kernel.pI4 a := fun heq => hab (pI4_injective heq)
        simp [hab, hne']
  · rw [hreported _ hcombined]
    congr 2
    refine congrArg List.sum (map_congr_left fun x _ => ?_)
    have hne : (chargedAddress u.info x.src x.dst).map Kernel.pI4 ≠ some combinedIp := by
      intro heq
      obtain ⟨a, ha, htext⟩ := Option.map_eq_some_iff.1 heq
      exact chargedAddress_ne_zero ha ((pI4_eq_combinedIp_iff a).1 htext)
    rw [if_neg hne, Nat.add_zero]
    simp only [and_true]
  · have hzero : ∀ x ∈ xs,
        ((if chargesCombined u.info = true ∧ combinedIp = k then x.len.toNat else 0) +
          if (chargedAddress u.info x.src x.dst).map Kernel.pI4 = some k
          then x.len.toNat else 0) = 0 := by
      intro x hx
      have hnot : ¬ (chargesCombined u.info = true ∧ combinedIp = k) := fun hc =>
        hk combinedIp (Or.inl ⟨hc.1, rfl⟩) (by rw [hc.2])
      have hnot' : (chargedAddress u.info x.src x.dst).map Kernel.pI4 ≠ some k := by
        intro heq
        obtain ⟨a, ha, htext⟩ := Option.map_eq_some_iff.1 heq
        exact hk _ (Or.inr ⟨x, hx, a, ha, rfl⟩) (by rw [htext])
      rw [if_neg hnot, if_neg hnot']
    rw [hreported k fun y hy hhash => absurd hhash (hk y hy), map_congr_left hzero,
      sum_map_zero, Nat.add_zero, Nat.min_eq_right (IdUnit.reported_le hsound.bounded k)]

end Run

end

section Dhcp

local instance dhcpKernel : Kernel := referenceKernel 32

def sourceQuota : NftBandwidthInfo where
  id := "quota"
  type := .individualSrc
  checkType := .noswap
  localSubnet := 0
  localSubnetMask := 0
  localSubnet6 := 0
  localSubnet6Mask := 0
  cmp := .gt
  resetIsConstantInterval := false
  resetInterval := bandwidthNever
  resetTime := 0
  bandwidthCutoff := 1000000
  currentBandwidth := 0
  nextReset := 0
  previousReset := 0
  lastBackupTime := 0
  numIntervalsToSave := 0
  iam := none
  combinedBw := none

def quotaState : ModuleState :=
  ((ModuleState.init ⟨1000, 0⟩).nftBandwidthInit 0 .ipv4 sourceQuota ⟨1000, 0⟩).getD
    (ModuleState.init ⟨1000, 0⟩)

def quotaUnit : IdUnit :=
  { info := { sourceQuota with iam := some 0 }
    otherInfo := none
    maps := IpMaps.initial 0 }

/-- A host without an address looks for a server: `0.0.0.0` to
`255.255.255.255`. -/
def dhcpDiscover : Arrival4 := ⟨⟨1001, 0⟩, 0, 0xffffffff, 328⟩

/-- A packet of the host `192.168.1.5`. -/
def hostPacket : Arrival4 := ⟨⟨1002, 0⟩, 0x0501a8c0, 0x08080808, 1500⟩

theorem quotaState_serves :
    quotaState.Serves 0 ⟨0, .ipv4, none, none, 1, IpMaps.initial 0⟩ quotaUnit where
  iam_eq := rfl
  info_eq := rfl
  other_eq := rfl
  maps_eq := rfl
  distinct := by simp
  back := by
    intro other info hinfo
    cases other with
    | false =>
      obtain rfl := Option.some.inj hinfo
      rfl
    | true => cases hinfo

theorem quotaUnit_sound : quotaUnit.Sound :=
  IdUnit.Sound.of_initial rfl rfl rfl (fun o ho => by cases ho)

theorem quota_toldApart : ToldApart quotaUnit.info [dhcpDiscover, hostPacket] combinedIp := by
  rintro y (⟨hc, -⟩ | ⟨x, hx, a, ha, rfl⟩) hhash
  · exact absurd hc (by decide)
  · simp only [mem_cons, not_mem_nil, or_false] at hx
    rcases hx with rfl | rfl
    · exact absurd ha (by simp [chargedAddress, candidates4, dhcpDiscover, quotaUnit, sourceQuota])
    · have haddr : chargedAddress quotaUnit.info hostPacket.src hostPacket.dst =
          some 0x0501a8c0#32 := by decide
      obtain rfl := Option.some.inj (haddr.symm.trans ha)
      exact absurd hhash (by decide)

theorem counters_after_dhcp_and_host :
    ∃ u', (quotaState.runMt4 0 [dhcpDiscover, hostPacket]).unit 0 = some u' ∧
      (∀ a, a ≠ 0 → ToldApart quotaUnit.info [dhcpDiscover, hostPacket] (Kernel.pI4 a) →
        AddsUp (chargedAddress quotaUnit.info) [dhcpDiscover, hostPacket] quotaUnit u' a) := by
  obtain ⟨u', hunit, hadds, -, -⟩ := counters_after_packets quotaState_serves rfl rfl rfl
    quotaUnit_sound (by decide) [dhcpDiscover, hostPacket]
    ⟨rfl, rfl, by decide, by decide, by decide⟩ (by decide) quota_toldApart
  exact ⟨u', hunit, hadds⟩

/-- The source `0.0.0.0` is not charged. -/
theorem zero_source_not_charged :
    ∃ u u', quotaState.unit 0 = some u ∧ u.Bounded ∧
      (quotaState.runMt4 0 [dhcpDiscover]).unit 0 = some u' ∧
      ¬ AddsUp (nominalAddress u.info) [dhcpDiscover] u u' 0 := by
  refine ⟨quotaUnit, _, rfl, quotaUnit_sound.bounded, rfl, ?_⟩
  unfold AddsUp
  decide

end Dhcp

/-! ## The two families -/

inductive PacketEnd
  | src
  | dst
deriving DecidableEq

def PacketEnd.text {α : Type} (print : α → String) (src dst : α) : PacketEnd → String
  | .src => print src
  | .dst => print dst

section Families

variable [Kernel]

def isLocal6 (info : NftBandwidthInfo) (a : In6Addr) : Bool :=
  inSubnet6 info.localSubnet6Mask info.localSubnet6 a

/-- The text of the individual counter that a packet is charged to: `bw_ip`,
unless that is `0.0.0.0`. -/
def individualCharge (info : NftBandwidthInfo) (ips : String × String) : Option String :=
  if info.type = .combined ∨ bwIp ips = combinedIp then none else some (bwIp ips)

def SameEndCharged (info : NftBandwidthInfo) (src dst : BitVec 32) (src6 dst6 : In6Addr) : Prop :=
  ∃ e : Option PacketEnd,
    individualCharge info (bwIps4 info src dst false) =
        e.map (PacketEnd.text Kernel.pI4 src dst) ∧
      individualCharge info (bwIps6 info src6 dst6 false) =
        e.map (PacketEnd.text Kernel.pI6c src6 dst6)

theorem pI6c_injective {a b : In6Addr} (h : Kernel.pI6c a = Kernel.pI6c b) : a = b := by
  have hread := congrArg Kernel.in6Pton h
  rw [Kernel.in6Pton_pI6c, Kernel.in6Pton_pI6c] at hread
  exact Option.some.inj hread

theorem pI6c_ne_combinedIp (a : In6Addr) : Kernel.pI6c a ≠ combinedIp := by
  intro h
  have hread := congrArg Kernel.in4Pton (h.trans Kernel.pI4_zero.symm)
  rw [Kernel.in4Pton_pI6c, Kernel.in4Pton_pI4] at hread
  cases hread

theorem bwIp_pI6c (a : In6Addr) (other : String) :
    bwIp (Kernel.pI6c a, other) = Kernel.pI6c a := by
  simp [bwIp, bwIpIndex, pI6c_ne_combinedIp a]

omit [Kernel] in
theorem bwIp_combinedIp (other : String) : bwIp (combinedIp, other) = other := by
  simp [bwIp, bwIpIndex]

theorem individualCharge_pI4 {info : NftBandwidthInfo} (htype : info.type ≠ .combined)
    (src dst : BitVec 32) :
    individualCharge info (bwIps4 info src dst false) =
      (chargedAddress info src dst).map Kernel.pI4 := by
  rw [individualCharge, bwIp_bwIps4]
  cases hcharged : chargedAddress info src dst with
  | none => simp [addressText]
  | some a =>
    have hne : Kernel.pI4 a ≠ combinedIp := fun h =>
      chargedAddress_ne_zero hcharged ((pI4_eq_combinedIp_iff a).1 h)
    simp [addressText, htype, hne]

omit [Kernel] in
theorem chargedAddress_eq_nominalAddress (info : NftBandwidthInfo) {src dst : BitVec 32}
    (hs : src ≠ 0) (hd : dst ≠ 0) : chargedAddress info src dst = nominalAddress info src dst := by
  have hmem : ∀ a ∈ candidates4 info src dst, a ≠ 0 := by
    intro a ha
    have hends : a = src ∨ a = dst := by
      unfold candidates4 at ha
      cases htype : info.type <;> simp only [htype] at ha
      · cases ha
      · exact .inl (List.mem_singleton.1 ha)
      · exact .inr (List.mem_singleton.1 ha)
      · simpa using (List.mem_filter.1 ha).1
      · simpa using (List.mem_filter.1 ha).1
    rcases hends with rfl | rfl
    · exact hs
    · exact hd
  unfold chargedAddress nominalAddress
  cases hc : candidates4 info src dst with
  | nil => rfl
  | cons a as =>
    rw [hc] at hmem
    exact find?_cons_of_pos (decide_eq_true (hmem a mem_cons_self))

theorem individualCharge_pI6c {info : NftBandwidthInfo} (htype : info.type ≠ .combined)
    (a : In6Addr) (other : String) :
    individualCharge info (Kernel.pI6c a, other) = some (Kernel.pI6c a) := by
  simp [individualCharge, bwIp_pI6c, htype, pI6c_ne_combinedIp a]

theorem individualCharge_combinedIp {info : NftBandwidthInfo} (htype : info.type ≠ .combined)
    (b : Bool) (a : In6Addr) :
    individualCharge info (combinedIp, if b then combinedIp else Kernel.pI6c a) =
      if b then none else some (Kernel.pI6c a) := by
  cases b with
  | false => simp [individualCharge, bwIp_combinedIp, htype, pI6c_ne_combinedIp a]
  | true => simp [individualCharge, bwIp_combinedIp]

/-- `bandwidth_mt6` charges the end that `bandwidth_mt4` charges, except that it
charges the zero address when a rule for local addresses sees a source that is
not local. -/
theorem same_end_charged_iff (info : NftBandwidthInfo) {src dst : BitVec 32}
    {src6 dst6 : In6Addr} (hs : src ≠ 0) (hd : dst ≠ 0) (hs6 : src6 ≠ 0) (hd6 : dst6 ≠ 0)
    (hsrc : isLocal4 info src = isLocal6 info src6)
    (hdst : isLocal4 info dst = isLocal6 info dst6) :
    SameEndCharged info src dst src6 dst6 ↔
      ¬ (info.type = .individualLocal ∧ isLocal6 info src6 = false) := by
  have h4 : info.type ≠ .combined →
      individualCharge info (bwIps4 info src dst false) =
        (nominalAddress info src dst).map Kernel.pI4 := by
    intro hne
    rw [individualCharge_pI4 hne, chargedAddress_eq_nominalAddress info hs hd]
  cases htype : info.type with
  | combined =>
    refine ⟨fun _ => by simp, fun _ => ⟨none, ?_, ?_⟩⟩
    · simp [individualCharge, htype]
    · simp [individualCharge, htype]
  | individualSrc =>
    have hne : info.type ≠ .combined := by simp [htype]
    refine ⟨fun _ => by simp, fun _ => ⟨some .src, ?_, ?_⟩⟩
    · simp [h4 hne, nominalAddress, candidates4, htype, PacketEnd.text]
    · simp only [bwIps6, htype, Bool.false_eq_true, if_false]
      exact individualCharge_pI6c hne src6 _
  | individualDst =>
    have hne : info.type ≠ .combined := by simp [htype]
    refine ⟨fun _ => by simp, fun _ => ⟨some .dst, ?_, ?_⟩⟩
    · simp [h4 hne, nominalAddress, candidates4, htype, PacketEnd.text]
    · simp only [bwIps6, htype, Bool.false_eq_true, if_false]
      exact individualCharge_pI6c hne dst6 _
  | individualLocal =>
    have hne : info.type ≠ .combined := by simp [htype]
    have h6 : individualCharge info (bwIps6 info src6 dst6 false) =
        some (Kernel.pI6c (if isLocal6 info src6 then src6 else 0)) := by
      simp only [bwIps6, htype]
      exact individualCharge_pI6c hne _ _
    cases hlocal : isLocal6 info src6 with
    | true =>
      refine ⟨fun _ => by simp, fun _ => ⟨some .src, ?_, ?_⟩⟩
      · simp [h4 hne, nominalAddress, candidates4, htype, hsrc, hlocal, PacketEnd.text]
      · rw [h6, hlocal]
        rfl
    | false =>
      -- the text of the zero address is that of neither end
      refine ⟨fun ⟨e, _, he⟩ => ?_, fun h => absurd ⟨rfl, rfl⟩ h⟩
      rw [h6, hlocal] at he
      cases e with
      | none => cases he
      | some e =>
        have htext := Option.some.inj he
        cases e with
        | src => exact absurd (pI6c_injective htext).symm hs6
        | dst => exact absurd (pI6c_injective htext).symm hd6
  | individualRemote =>
    have hne : info.type ≠ .combined := by simp [htype]
    have h6 : bwIps6 info src6 dst6 false =
        (if isLocal6 info src6 then combinedIp else Kernel.pI6c src6,
          if isLocal6 info dst6 then combinedIp else Kernel.pI6c dst6) := by
      simp only [bwIps6, htype]
      rfl
    refine ⟨fun _ => by simp, fun _ => ?_⟩
    refine ⟨if isLocal6 info src6 then (if isLocal6 info dst6 then none else some .dst)
      else some .src, ?_, ?_⟩
    · rw [h4 hne]
      cases hlocal : isLocal6 info src6 <;> cases hlocal' : isLocal6 info dst6 <;>
        simp [nominalAddress, candidates4, htype, hsrc, hdst, hlocal, hlocal', PacketEnd.text]
    · rw [h6]
      cases hlocal : isLocal6 info src6 with
      | false => exact individualCharge_pI6c hne src6 _
      | true =>
        simp only [if_true]
        rw [individualCharge_combinedIp hne]
        cases isLocal6 info dst6 with
        | false => rfl
        | true => rfl

end Families

section LocalRule

local instance localKernel : Kernel := referenceKernel 32

/-- A rule that counts the hosts of `192.168.1.0/24` and of
`2001:1db8:1:1::/64`. -/
def localHosts : NftBandwidthInfo :=
  { sourceQuota with
    type := .individualLocal
    localSubnet := 0x0001a8c0
    localSubnetMask := 0x00ffffff
    localSubnet6 := ![0xb81d0120, 0x01000100, 0, 0]
    localSubnet6Mask := ![0xffffffff, 0xffffffff, 0, 0] }

/-- `2001:1db8:1:1:a:b:c:d`, a local host. -/
def localHost6 : In6Addr := ![0xb81d0120, 0x01000100, 0x0b000a00, 0x0d000c00]

/-- `2001:4860:4860:1:2:3:4:8888`, a host elsewhere. -/
def remoteHost6 : In6Addr := ![0x60480120, 0x01006048, 0x03000200, 0x88880400]

theorem same_end_charged_outgoing :
    isLocal6 localHosts localHost6 = true ∧
      SameEndCharged localHosts 0x0501a8c0 0x08080808 localHost6 remoteHost6 :=
  ⟨by decide, (same_end_charged_iff localHosts (by decide) (by decide) (by decide) (by decide)
    (by decide) (by decide)).2 (by decide)⟩

/-- An incoming packet is charged to the local destination by `bandwidth_mt4`, and
to the zero address by `bandwidth_mt6`. -/
theorem local_destination_charged_to_zero :
    remoteHost6 ≠ 0 ∧ localHost6 ≠ 0 ∧
      isLocal4 localHosts 0x08080808 = isLocal6 localHosts remoteHost6 ∧
      isLocal4 localHosts 0x0501a8c0 = isLocal6 localHosts localHost6 ∧
      individualCharge localHosts (bwIps4 localHosts 0x08080808 0x0501a8c0 false) =
        some "192.168.1.5" ∧
      individualCharge localHosts (bwIps6 localHosts remoteHost6 localHost6 false) =
        some "::" ∧
      ¬ SameEndCharged localHosts 0x08080808 0x0501a8c0 remoteHost6 localHost6 := by
  refine ⟨by decide, by decide, by decide, by decide, by decide, by decide, ?_⟩
  rintro ⟨_ | e, -, h6⟩
  · exact absurd h6 (by decide)
  · cases e with
    | src => exact absurd h6 (by decide)
    | dst => exact absurd h6 (by decide)

end LocalRule

end Bandwidth

end Gargoyle
