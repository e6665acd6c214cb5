import Mathlib.Data.BitVec
import Mathlib.Data.Fintype.Pi
import Gargoyle.Data.CellMap

/-!
# The data model of the bandwidth module

The records of `nft_bandwidth.c`. A rule is known by a number, and that number
also names the master record which `nft_bandwidth_init` allocates for it
(`non_const_self`). The counters of one id live in an arena of their own:
`ip_map` and `combined_bw` hold addresses of cells in it, and a saved history
keeps the number of the block that holds its nodes.

Allocations are taken to succeed. Times are seconds, counters are 64-bit words
and are kept as natural numbers.
-/

namespace Gargoyle

namespace Bandwidth

instance neZeroFour : NeZero 4 := ⟨by decide⟩

/-- `struct in6_addr`, by its four 32-bit words. -/
abbrev In6Addr := Fin 4 → BitVec 32

/-- The byte `s6_addr[x]` of an address. -/
def s6Addr (a : In6Addr) (x : Fin 16) : BitVec 8 :=
  (a ⟨x / 4, by omega⟩).extractLsb' (8 * (x % 4)) 8

/-- What the module takes from the kernel it is compiled for: the width of
`unsigned long`, the bytes an allocation happens to contain, and the routines
that print addresses (`%pI4`, `%pI6c`) and read them back. -/
class Kernel where
  ulongBits : ℕ
  junk : ℕ
  pI4 : BitVec 32 → String
  pI6c : In6Addr → String
  in4Pton : String → Option (BitVec 32)
  in6Pton : String → Option In6Addr
  junk_lt : junk < 2 ^ 64
  pI4_zero : pI4 0 = "0.0.0.0"
  pI6c_zero : pI6c 0 = "::"
  in4Pton_pI4 : ∀ a, in4Pton (pI4 a) = some a
  in4Pton_pI6c : ∀ a, in4Pton (pI6c a) = none
  in6Pton_pI6c : ∀ a, in6Pton (pI6c a) = some a

/-- `sdbm_string_hash`, in `unsigned long` arithmetic. -/
def sdbmStringHash [Kernel] (key : String) : ℕ :=
  key.toList.foldl
    (fun h c => (c.toNat + h * 2 ^ 6 + h * 2 ^ 16 - h) % 2 ^ Kernel.ulongBits) 0

/-- `string_map`: the tree is ordered by the hash of the key. -/
abbrev StringMap [Kernel] (V : Type) := HashedMap sdbmStringHash V

inductive NfProto
  | inet
  | ipv4
  | ipv6
deriving DecidableEq

def NfProto.code : NfProto → ℕ
  | .inet => 1
  | .ipv4 => 2
  | .ipv6 => 10

inductive BandwidthType
  | combined
  | individualSrc
  | individualDst
  | individualLocal
  | individualRemote
deriving DecidableEq

inductive BandwidthCmp
  | monitor
  | lt
  | gt
  | check
deriving DecidableEq

inductive BandwidthCheckType
  | noswap
  | swap
deriving DecidableEq

def bandwidthMinute : ℤ := 80
def bandwidthHour : ℤ := 81
def bandwidthDay : ℤ := 82
def bandwidthWeek : ℤ := 83
def bandwidthMonth : ℤ := 84
def bandwidthNever : ℤ := 85

/-- `struct nft_bandwidth_info`. The hash of the id is not stored, and the
pointers to the record itself and to its reference count are left out. -/
structure NftBandwidthInfo where
  id : String
  type : BandwidthType
  checkType : BandwidthCheckType
  localSubnet : BitVec 32
  localSubnetMask : BitVec 32
  localSubnet6 : In6Addr
  localSubnet6Mask : In6Addr
  cmp : BandwidthCmp
  resetIsConstantInterval : Bool
  resetInterval : ℤ
  resetTime : ℤ
  bandwidthCutoff : ℕ
  currentBandwidth : ℕ
  nextReset : ℤ
  previousReset : ℤ
  lastBackupTime : ℤ
  numIntervalsToSave : ℕ
  iam : Option ℕ
  combinedBw : Option Cell
deriving DecidableEq

/-- `bw_history`: a ring of `maxNodes` counters, of which `numNodes` are in
use and the one at `currentIndex` is being counted in. -/
structure BwHistory where
  firstStart : ℤ
  firstEnd : ℤ
  lastEnd : ℤ
  maxNodes : ℕ
  numNodes : ℕ
  nonZeroNodes : ℕ
  currentIndex : ℕ
  historyData : ℕ
deriving DecidableEq

/-- The cell that a history counts in, `history_data + current_index`. -/
def BwHistory.current (h : BwHistory) : Cell := ⟨h.historyData, h.currentIndex⟩

structure IpMaps [Kernel] where
  ipMap : StringMap Cell
  ipHistoryMap : Option (StringMap BwHistory)
  ipFamilyMap : StringMap ℕ
  cells : Arena ℕ

/-- `info_and_maps`. The pointers to the master records are the numbers of
their rules. -/
structure InfoAndMaps [Kernel] where
  info : ℕ
  infoFamily : NfProto
  otherInfo : Option ℕ
  otherInfoFamily : Option NfProto
  refCount : ℤ
  maps : IpMaps

structure Clock where
  localMinutesWest : ℤ
  localSecondsWest : ℤ
  lastLocalMwUpdate : ℤ
  oldMinutesWest : ℤ
  backwardsCheck : ℤ
deriving DecidableEq

/-- What an entry point reads from the system: the wall clock and the minutes
west of Greenwich in `sys_tz`. -/
structure Tick where
  now : ℤ
  tzMinuteswest : ℤ
deriving DecidableEq

/-- The globals of the module, with the master records of the rules that are
loaded and the live `info_and_maps`. -/
structure ModuleState [Kernel] where
  infos : ℕ → Option NftBandwidthInfo
  iams : ℕ → Option InfoAndMaps
  nextIam : ℕ
  idMap : StringMap ℕ
  clock : Clock
  setInProgress : Bool
  setId : String
  outputIpList : Option (List String)

/-- What the functions that are handed an `iam` see of one id: the two master
records and the maps. -/
structure IdUnit [Kernel] where
  info : NftBandwidthInfo
  otherInfo : Option NftBandwidthInfo
  maps : IpMaps

namespace ModuleState

variable [Kernel]

def setInfo (m : ModuleState) (r : ℕ) (info : NftBandwidthInfo) : ModuleState :=
  { m with infos := fun r' => if r' = r then some info else m.infos r' }

/-- Overwrite an `info_and_maps`. -/
def setIam (m : ModuleState) (p : ℕ) (iam : InfoAndMaps) : ModuleState :=
  { m with iams := fun p' => if p' = p then some iam else m.iams p' }

def setOther (m : ModuleState) : Option ℕ → Option NftBandwidthInfo → ModuleState
  | some r, some info => m.setInfo r info
  | _, _ => m

/-- The view of the id behind the pointer `p`. -/
def unit (m : ModuleState) (p : ℕ) : Option IdUnit :=
  (m.iams p).bind fun iam =>
    (m.infos iam.info).map fun info => ⟨info, iam.otherInfo.bind m.infos, iam.maps⟩

/-- Run a function on the id behind the pointer `p` and write the records and
the maps back. -/
def onUnit (m : ModuleState) (p : ℕ) (f : IdUnit → IdUnit) : ModuleState :=
  match m.iams p, m.unit p with
  | some iam, some u =>
    let u' := f u
    ((m.setOther iam.otherInfo u'.otherInfo).setInfo iam.info u'.info).setIam p
      { iam with maps := u'.maps }
  | _, _ => m

end ModuleState

end Bandwidth

end Gargoyle
