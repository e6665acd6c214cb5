import Gargoyle.Data.ByteStream
import Gargoyle.Bwctl.SetData

/-!
# Backup files of histories

`save_history_to_file` writes the histories of one id to a file and
`load_history_from_file` reads them back, on a little-endian machine. What the
histories share stands once at the head of the file. The nodes of a history are
written with 32 bits if all of them are below `INT32_MAX`, and with 64 bits if
not.

For a history without nodes zeros are written in place of its times. All else
comes back as it was.
-/

namespace Gargoyle

open List

namespace Bwctl

open Bandwidth ByteStream

/-! ## Writing -/

/-- `bw_bits`, as the loop over the nodes of a history finds it. -/
def bwBits (bws : List (BitVec 64)) : ℕ :=
  bws.foldl (fun bits bw => if bits = 32 ∧ bw.toNat < 2 ^ 31 - 1 then 32 else 64) 32

def addressBytes (ip : In6Addr) : List UInt8 :=
  (List.ofFn ip).flatMap fun word => bytesLE 4 word.toNat

def IpBwHistory.fileBytes (d : IpBwHistory) : List UInt8 :=
  bytesLE 4 d.family.toNat ++ addressBytes d.ip ++ bytesLE 4 d.historyBws.length ++
    if d.historyBws.length = 0 then
      bytesLE 8 0 ++ bytesLE 8 0 ++ bytesLE 8 0 ++ bytesLE 1 32
    else
      bytesLE 8 (toUint64 d.firstStart) ++ bytesLE 8 (toUint64 d.firstEnd) ++
        bytesLE 8 (toUint64 d.lastEnd) ++ bytesLE 1 (bwBits d.historyBws) ++
        d.historyBws.flatMap fun bw =>
          if bwBits d.historyBws = 32 then bytesLE 4 bw.toNat else bytesLE 8 bw.toNat

def saveHistoryToFile (data : List IpBwHistory) : List UInt8 :=
  bytesLE 4 data.length ++
    (match data with
    | [] => []
    | first :: _ =>
      bytesLE 8 (toUint64 first.resetInterval) ++ bytesLE 8 (toUint64 first.resetTime) ++
        bytesLE 1 first.isConstantInterval.toNat) ++
    data.flatMap IpBwHistory.fileBytes

/-! ## Reading -/

def takeAddress : StreamReader In6Addr := fun xs => do
  let (w₀, xs) ← takeLE 4 xs
  let (w₁, xs) ← takeLE 4 xs
  let (w₂, xs) ← takeLE 4 xs
  let (w₃, xs) ← takeLE 4 xs
  some (![BitVec.ofNat 32 w₀, BitVec.ofNat 32 w₁, BitVec.ofNat 32 w₂, BitVec.ofNat 32 w₃], xs)

def takeHistory (resetInterval resetTime isConstantInterval : ℕ) : StreamReader IpBwHistory :=
  fun xs => do
    let (family, xs) ← takeLE 4 xs
    let (ip, xs) ← takeAddress xs
    let (numNodes, xs) ← takeLE 4 xs
    let (firstStart, xs) ← takeLE 8 xs
    let (firstEnd, xs) ← takeLE 8 xs
    let (lastEnd, xs) ← takeLE 8 xs
    let (bwBits, xs) ← takeLE 1 xs
    let (bws, xs) ← takeMany (takeLE (if bwBits = 32 then 4 else 8)) numNodes xs
    some ({ family := BitVec.ofNat 32 family
            ip := ip
            resetInterval := toInt64 resetInterval
            resetTime := toInt64 resetTime
            isConstantInterval := isConstantInterval ≠ 0
            firstStart := toInt64 firstStart
            firstEnd := toInt64 firstEnd
            lastEnd := toInt64 lastEnd
            historyBws := bws.map (BitVec.ofNat 64) }, xs)

/-- `load_history_from_file`; `none` says that the file ends too early. -/
def loadHistoryFromFile (file : List UInt8) : Option (List IpBwHistory) := do
  let (numIps, xs) ← takeLE 4 file
  if numIps > 0 then
    let (resetInterval, xs) ← takeLE 8 xs
    let (resetTime, xs) ← takeLE 8 xs
    let (isConstantInterval, xs) ← takeLE 1 xs
    let (data, _) ← takeMany (takeHistory resetInterval resetTime isConstantInterval) numIps xs
    some data
  else some []

/-! ## What comes back -/

structure IpBwHistory.Typed (d : IpBwHistory) : Prop where
  nodes : d.historyBws.length < 2 ^ 32
  times : ∀ t ∈ [d.resetInterval, d.resetTime, d.firstStart, d.firstEnd, d.lastEnd],
    -2 ^ 63 ≤ t ∧ t < 2 ^ 63

def IpBwHistory.backedUp (d : IpBwHistory) : IpBwHistory :=
  if d.historyBws.length = 0 then { d with firstStart := 0, firstEnd := 0, lastEnd := 0 } else d

theorem bwBits_cases (bws : List (BitVec 64)) :
    bwBits bws = 32 ∧ (∀ bw ∈ bws, bw.toNat < 2 ^ 31 - 1) ∨ bwBits bws = 64 := by
  have hwide : ∀ bws : List (BitVec 64),
      bws.foldl (fun bits bw => if bits = 32 ∧ bw.toNat < 2 ^ 31 - 1 then 32 else 64) 64 = 64 := by
    intro bws
    induction bws with
    | nil => rfl
    | cons bw bws ih => simpa using ih
  induction bws with
  | nil => exact .inl ⟨rfl, fun _ hbw => nomatch hbw⟩
  | cons bw bws ih =>
    by_cases hsmall : bw.toNat < 2 ^ 31 - 1
    · have hstep : bwBits (bw :: bws) = bwBits bws := by
        rw [bwBits, foldl_cons, if_pos ⟨rfl, hsmall⟩]
        rfl
      rw [hstep]
      rcases ih with ⟨hbits, hall⟩ | hbits
      · exact .inl ⟨hbits, List.forall_mem_cons.2 ⟨hsmall, hall⟩⟩
      · exact .inr hbits
    · refine .inr ?_
      rw [bwBits, foldl_cons, if_neg fun h => hsmall h.2]
      exact hwide bws

theorem takeAddress_addressBytes (ip : In6Addr) (xs : List UInt8) :
    takeAddress (addressBytes ip ++ xs) = some (ip, xs) := by
  have hword : ∀ (w : BitVec 32) (ys : List UInt8),
      takeLE 4 (bytesLE 4 w.toNat ++ ys) = some (w.toNat, ys) :=
    fun w ys => takeLE_of_lt (w.isLt.trans_eq (by norm_num)) ys
  have hbytes : addressBytes ip ++ xs = bytesLE 4 (ip 0).toNat ++ (bytesLE 4 (ip 1).toNat ++
      (bytesLE 4 (ip 2).toNat ++ (bytesLE 4 (ip 3).toNat ++ xs))) := by
    simp [addressBytes, ofFn_succ]
  simp only [takeAddress, hbytes, hword, Option.bind_eq_bind, Option.bind_some,
    BitVec.ofNat_toNat, BitVec.setWidth_eq]
  congr 2
  funext i
  fin_cases i <;> rfl

theorem takeMany_bws (bws : List (BitVec 64)) (xs : List UInt8) :
    takeMany (takeLE (if bwBits bws = 32 then 4 else 8)) bws.length
        ((bws.flatMap fun bw =>
          if bwBits bws = 32 then bytesLE 4 bw.toNat else bytesLE 8 bw.toNat) ++ xs) =
      some (bws.map BitVec.toNat, xs) := by
  refine takeMany_flatMap (fun bw hbw ys => ?_) xs
  rcases bwBits_cases bws with ⟨hbits, hall⟩ | hbits
  · rw [hbits, if_pos rfl, if_pos rfl]
    have hlt := hall bw hbw
    exact takeLE_of_lt (by omega) ys
  · rw [hbits, if_neg (by decide), if_neg (by decide)]
    exact takeLE_of_lt (bw.isLt.trans_eq (by norm_num)) ys

/-- A history is read from its bytes. -/
theorem takeHistory_fileBytes {d : IpBwHistory} (hd : d.Typed) (xs : List UInt8) :
    takeHistory (toUint64 d.resetInterval) (toUint64 d.resetTime) d.isConstantInterval.toNat
        (d.fileBytes ++ xs) = some (d.backedUp, xs) := by
  have hnum : ∀ ys, takeLE 4 (bytesLE 4 d.historyBws.length ++ ys) =
      some (d.historyBws.length, ys) :=
    fun ys => takeLE_of_lt (hd.nodes.trans_eq (by norm_num)) ys
  have hfamily : ∀ ys, takeLE 4 (bytesLE 4 d.family.toNat ++ ys) = some (d.family.toNat, ys) :=
    fun ys => takeLE_of_lt (d.family.isLt.trans_eq (by norm_num)) ys
  have htime : ∀ t ys, takeLE 8 (bytesLE 8 (toUint64 t) ++ ys) = some (toUint64 t, ys) :=
    fun t ys => takeLE_of_lt (toUint64_lt t) ys
  have hzero : ∀ ys, takeLE 8 (bytesLE 8 0 ++ ys) = some (0, ys) :=
    fun ys => takeLE_of_lt (by norm_num) ys
  have hbits : ∀ ys, takeLE 1 (bytesLE 1 (bwBits d.historyBws) ++ ys) =
      some (bwBits d.historyBws, ys) := by
    refine fun ys => takeLE_of_lt ?_ ys
    rcases bwBits_cases d.historyBws with ⟨hbits, -⟩ | hbits <;> rw [hbits] <;> norm_num
  have hsigned : ∀ t ∈ [d.resetInterval, d.resetTime, d.firstStart, d.firstEnd, d.lastEnd],
      toInt64 (toUint64 t) = t :=
    fun t ht => toInt64_toUint64 (hd.times t ht).1 (hd.times t ht).2
  simp only [forall_mem_cons] at hsigned
  obtain ⟨hinterval, hreset, hstart, hend, hlast, -⟩ := hsigned
  have hconst : decide (d.isConstantInterval.toNat ≠ 0) = d.isConstantInterval := by
    cases d.isConstantInterval <;> rfl
  by_cases hnodes : d.historyBws.length = 0
  · have hnil : d.historyBws = [] := eq_nil_of_length_eq_zero hnodes
    have hdummy : ∀ ys, takeLE 1 (bytesLE 1 32 ++ ys) = some (32, ys) :=
      fun ys => takeLE_of_lt (by norm_num) ys
    simp only [IpBwHistory.fileBytes, IpBwHistory.backedUp, if_pos hnodes, takeHistory,
      append_assoc, hfamily, takeAddress_addressBytes, hnum, hzero, hdummy,
      Option.bind_eq_bind, Option.bind_some, hinterval, hreset, hconst, BitVec.ofNat_toNat,
      BitVec.setWidth_eq]
    rw [hnodes, takeMany, Option.bind_some, map_nil, hnil]
    rfl
  · simp only [IpBwHistory.fileBytes, IpBwHistory.backedUp, if_neg hnodes, takeHistory,
      append_assoc, hfamily, takeAddress_addressBytes, hnum, htime, hbits, takeMany_bws,
      Option.bind_eq_bind, Option.bind_some, hinterval, hreset, hstart, hend, hlast, hconst,
      BitVec.ofNat_toNat, BitVec.setWidth_eq, map_map]
    rw [map_congr_left (g := id) fun bw _ => by simp, map_id]

/-- Histories that share what stands at the head of the file come back, but for
the times of histories without nodes. -/
theorem loadHistory_saveHistory {data : List IpBwHistory} (hlength : data.length < 2 ^ 32)
    (htyped : ∀ d ∈ data, d.Typed)
    (hshared : ∀ d ∈ data, ∀ d' ∈ data, d.resetInterval = d'.resetInterval ∧
      d.resetTime = d'.resetTime ∧ d.isConstantInterval = d'.isConstantInterval) :
    loadHistoryFromFile (saveHistoryToFile data) = some (data.map IpBwHistory.backedUp) := by
  have hcount : ∀ ys, takeLE 4 (bytesLE 4 data.length ++ ys) = some (data.length, ys) :=
    fun ys => takeLE_of_lt (hlength.trans_eq (by norm_num)) ys
  cases data with
  | nil => rfl
  | cons first rest =>
    have htime : ∀ t ys, takeLE 8 (bytesLE 8 (toUint64 t) ++ ys) = some (toUint64 t, ys) :=
      fun t ys => takeLE_of_lt (toUint64_lt t) ys
    have hconst : ∀ ys, takeLE 1 (bytesLE 1 first.isConstantInterval.toNat ++ ys) =
        some (first.isConstantInterval.toNat, ys) := by
      refine fun ys => takeLE_of_lt ?_ ys
      cases first.isConstantInterval <;> norm_num
    have hmany : takeMany (takeHistory (toUint64 first.resetInterval) (toUint64 first.resetTime)
        first.isConstantInterval.toNat) (first :: rest).length
        ((first :: rest).flatMap IpBwHistory.fileBytes ++ []) =
          some ((first :: rest).map IpBwHistory.backedUp, []) := by
      refine takeMany_flatMap (fun d hd xs => ?_) []
      obtain ⟨hinterval, hreset, hflag⟩ := hshared first mem_cons_self d hd
      rw [hinterval, hreset, hflag]
      exact takeHistory_fileBytes (htyped d hd) xs
    rw [List.append_nil] at hmany
    simp only [saveHistoryToFile, loadHistoryFromFile, append_assoc, hcount, htime, hconst,
      hmany, Option.bind_eq_bind, Option.bind_some]
    rw [if_pos (by rw [length_cons]; omega)]

def dailyHistory (host : BitVec 32) (bws : List (BitVec 64)) : IpBwHistory :=
  { family := 2, ip := ![host, 0, 0, 0], resetInterval := bandwidthDay, resetTime := 0,
    isConstantInterval := false, firstStart := 1704067200, firstEnd := 1704153600,
    lastEnd := 1704153600, historyBws := bws }

theorem typed_dailyHistory (host : BitVec 32) {bws : List (BitVec 64)}
    (h : bws.length < 2 ^ 32) : (dailyHistory host bws).Typed := by
  refine ⟨h, ?_⟩
  intro t ht
  simp only [dailyHistory, bandwidthDay, mem_cons, not_mem_nil, or_false] at ht
  omega

/-- Two hosts, one of which has sent more than 32 bits can count. -/
theorem two_histories_come_back :
    loadHistoryFromFile (saveHistoryToFile
        [dailyHistory 0x0501a8c0 [17, 0xfedcba9876543210], dailyHistory 0x0601a8c0 []]) =
      some ([dailyHistory 0x0501a8c0 [17, 0xfedcba9876543210], dailyHistory 0x0601a8c0 []].map
        IpBwHistory.backedUp) := by
  refine loadHistory_saveHistory (by decide) ?_ ?_
  · simp only [forall_mem_cons]
    exact ⟨typed_dailyHistory _ (by decide), typed_dailyHistory _ (by decide),
      fun _ hd => nomatch hd⟩
  · intro d hd d' hd'
    simp only [mem_cons, not_mem_nil, or_false] at hd hd'
    rcases hd with rfl | rfl <;> rcases hd' with rfl | rfl <;> exact ⟨rfl, rfl, rfl⟩

/-- A history without nodes loses its times. -/
theorem times_of_empty_history_lost :
    (dailyHistory 0x0601a8c0 []).Typed ∧
      loadHistoryFromFile (saveHistoryToFile [dailyHistory 0x0601a8c0 []]) ≠
        some [dailyHistory 0x0601a8c0 []] := by
  refine ⟨typed_dailyHistory _ (by decide), fun heq => ?_⟩
  have hstarts : (loadHistoryFromFile (saveHistoryToFile [dailyHistory 0x0601a8c0 []])).map
      (fun ds => ds.map IpBwHistory.firstStart) = some [0] := by
    decide
  rw [heq] at hstarts
  exact absurd hstarts (by decide)

end Bwctl

end Gargoyle
