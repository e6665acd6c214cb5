import Gargoyle.Bandwidth.Page

/-!
# The bytes that a reply writes

`add_ip_block` checks the length of a block before it writes any of it, and then
writes field by field at a cursor of type `uint32_t`. The length that is checked
for an address without a history is that of the block without its node, so that
eight bytes are not accounted for. The sum of the cursor and the length is not
checked for overflow.

The blocks of a reply lie in the buffer unless one of them is in one of these two
cases (`Overruns`).
-/

namespace Gargoyle

open List

namespace Bandwidth

open ByteBuffer

/-- The offsets that are written when fields are stored at a cursor of type
`uint32_t`. -/
def fieldOffsets : ℕ → List (ℕ × ℕ) → List ℕ
  | _, [] => []
  | index, f :: fs => List.range' index f.1 ++ fieldOffsets (addUint32 index f.1) fs

theorem mem_fieldOffsets {fs : List (ℕ × ℕ)} {index i : ℕ} (hwide : index + size fs < 2 ^ 32) :
    i ∈ fieldOffsets index fs ↔ index ≤ i ∧ i < index + size fs := by
  induction fs generalizing index with
  | nil =>
    simp only [fieldOffsets, not_mem_nil, size, false_iff]
    omega
  | cons f fs ih =>
    simp only [size] at hwide ⊢
    have hnext : addUint32 index f.1 = index + f.1 := Nat.mod_eq_of_lt (by omega)
    rw [fieldOffsets, hnext, mem_append, mem_range'_1, ih (by omega)]
    omega

theorem exists_le_fieldOffsets {fs : List (ℕ × ℕ)} {index : ℕ} (hindex : index < 2 ^ 32)
    (hwide : 2 ^ 32 ≤ index + size fs) : ∃ i ∈ fieldOffsets index fs, 2 ^ 32 - 1 ≤ i := by
  induction fs generalizing index with
  | nil =>
    simp only [size] at hwide
    omega
  | cons f fs ih =>
    simp only [size] at hwide
    simp only [fieldOffsets, mem_append]
    rcases Nat.lt_or_ge (index + f.1) (2 ^ 32) with hlt | hge
    · have hnext : addUint32 index f.1 = index + f.1 := Nat.mod_eq_of_lt hlt
      obtain ⟨i, hi, hle⟩ := @ih (addUint32 index f.1) (by omega) (by omega)
      exact ⟨i, Or.inr hi, hle⟩
    · exact ⟨2 ^ 32 - 1, Or.inl (List.mem_range'_1.2 (by omega)), le_rfl⟩

theorem fieldOffsets_inside_iff {fs : List (ℕ × ℕ)} {index len : ℕ} (hindex : index < 2 ^ 32)
    (hlen : len < 2 ^ 32) (hsome : 0 < size fs) :
    (∀ i ∈ fieldOffsets index fs, i < len) ↔ index + size fs ≤ len := by
  rcases Nat.lt_or_ge (index + size fs) (2 ^ 32) with hlt | hge
  · simp only [mem_fieldOffsets hlt]
    constructor
    · intro h
      have hlast := h (index + size fs - 1) (by omega)
      omega
    · intro h i hi
      omega
  · obtain ⟨i, hi, hle⟩ := exists_le_fieldOffsets hindex hge
    constructor
    · intro h
      have hlast := h i hi
      omega
    · intro h
      omega

section Reply

variable [Kernel]

/-! ## The block of an address -/

/-- The history that `add_ip_block` finds for an address. -/
def IdUnit.sentHistory (u : IdUnit) (family : ℕ) (ip : In6Addr) : Option HistoryReport :=
  if u.info.numIntervalsToSave > 0 then u.report (printIp family ip) else none

def IdUnit.LastValueOnly (u : IdUnit) (fullHistory : Bool) (family : ℕ) (ip : In6Addr) : Prop :=
  fullHistory = true ∧ u.sentHistory family ip = none

def IdUnit.checkedLength (u : IdUnit) (fullHistory : Bool) (family : ℕ) (ip : In6Addr) : ℕ :=
  if fullHistory then 48 + 8 * ((u.sentHistory family ip).elim 0 fun r => r.bws.length) else 28

def IdUnit.writtenLength (u : IdUnit) (fullHistory : Bool) (family : ℕ) (ip : In6Addr) : ℕ :=
  if fullHistory then 48 + 8 * ((u.sentHistory family ip).elim 1 fun r => r.bws.length) else 28

/-- The block of an address passes the check and does not fit: it is eight bytes
longer than the room that is left, or its end is past the range of the cursor. -/
def IdUnit.Overruns (u : IdUnit) (fullHistory : Bool) (len family : ℕ) (ip : In6Addr)
    (index : ℕ) : Prop :=
  if index + u.checkedLength fullHistory family ip < 2 ^ 32 then
    u.LastValueOnly fullHistory family ip ∧ index + 48 ≤ len ∧ len < index + 56
  else addUint32 index (u.checkedLength fullHistory family ip) ≤ len

/-- The offsets that `add_ip_block` writes. -/
def blockOffsets (u : IdUnit) (west : ℤ) (fullHistory : Bool) (len family : ℕ) (ip : In6Addr)
    (index : ℕ) : List ℕ :=
  let block := ipBlock u west fullHistory family ip
  if addUint32 index block.1 > len then [] else fieldOffsets index block.2

section Block

variable {u : IdUnit} {west : ℤ} {fullHistory : Bool} {len family : ℕ} {ip : In6Addr} {index : ℕ}

theorem ipBlock_lengths :
    (ipBlock u west fullHistory family ip).1 = u.checkedLength fullHistory family ip ∧
      size (ipBlock u west fullHistory family ip).2 = u.writtenLength fullHistory family ip := by
  cases fullHistory with
  | false => exact ⟨rfl, rfl⟩
  | true =>
    simp only [ipBlock, IdUnit.checkedLength, IdUnit.writtenLength, if_true]
    rw [← IdUnit.sentHistory]
    cases u.sentHistory family ip with
    | none => exact ⟨rfl, rfl⟩
    | some r => exact ⟨rfl, size_historyFields _ _ _ _ _ _⟩

theorem checkedLength_or :
    (u.LastValueOnly fullHistory family ip ∧ u.checkedLength fullHistory family ip = 48 ∧
        u.writtenLength fullHistory family ip = 56) ∨
      ¬ u.LastValueOnly fullHistory family ip ∧
        u.writtenLength fullHistory family ip = u.checkedLength fullHistory family ip := by
  unfold IdUnit.LastValueOnly IdUnit.checkedLength IdUnit.writtenLength
  cases fullHistory with
  | false => exact .inr ⟨fun h => Bool.noConfusion h.1, rfl⟩
  | true =>
    simp only [if_true, true_and]
    cases u.sentHistory family ip with
    | none => exact .inl ⟨rfl, rfl, rfl⟩
    | some r => exact .inr ⟨by simp, rfl⟩

theorem checkedLength_pos : 28 ≤ u.checkedLength fullHistory family ip := by
  unfold IdUnit.checkedLength
  split_ifs <;> omega

/-- One address stays inside unless it overruns. -/
theorem blockOffsets_inside_iff (hindex : index < 2 ^ 32) (hlen : len < 2 ^ 32) :
    (∀ i ∈ blockOffsets u west fullHistory len family ip index, i < len) ↔
      ¬ u.Overruns fullHistory len family ip index := by
  obtain ⟨hchecked, hwritten⟩ := @ipBlock_lengths _ u west fullHistory family ip
  have hpos := @checkedLength_pos _ u fullHistory family ip
  have hsize := @checkedLength_or _ u fullHistory family ip
  unfold blockOffsets IdUnit.Overruns
  simp only [hchecked]
  have hinside := @fieldOffsets_inside_iff (ipBlock u west fullHistory family ip).2 _ _
    hindex hlen (by omega)
  rw [hwritten] at hinside
  rcases Nat.lt_or_ge (index + u.checkedLength fullHistory family ip) (2 ^ 32) with hlt | hge
  · have hsum : addUint32 index (u.checkedLength fullHistory family ip) =
        index + u.checkedLength fullHistory family ip := Nat.mod_eq_of_lt hlt
    rw [if_pos hlt, hsum]
    rcases hsize with ⟨hlast, hchecked, hsize⟩ | ⟨hlast, hsize⟩
    · simp only [hlast, true_and]
      split_ifs with hfull
      · simp only [not_mem_nil, false_implies, implies_true, true_iff]
        omega
      · rw [hinside]
        omega
    · simp only [hlast, false_and, not_false_eq_true, iff_true]
      split_ifs with hfull
      · simp
      · rw [hinside]
        omega
  · rw [if_neg (Nat.not_lt.2 hge)]
    split_ifs with hfull
    · simp only [not_mem_nil, false_implies, implies_true, true_iff]
      omega
    · rw [hinside]
      omega

theorem end_le_of_not_overruns
    (hover : ¬ u.Overruns fullHistory len family ip index)
    (hfits : ¬ addUint32 index (u.checkedLength fullHistory family ip) > len) :
    index + u.checkedLength fullHistory family ip ≤ len ∧
      index + u.writtenLength fullHistory family ip ≤ len := by
  have hsize := @checkedLength_or _ u fullHistory family ip
  unfold IdUnit.Overruns at hover
  split_ifs at hover with hlt
  · have hsum : addUint32 index (u.checkedLength fullHistory family ip) =
        index + u.checkedLength fullHistory family ip := Nat.mod_eq_of_lt hlt
    rcases hsize with ⟨hlast, hchecked, hsize⟩ | ⟨hlast, hsize⟩
    · simp only [hlast, true_and] at hover
      omega
    · omega
  · exact absurd (Nat.not_lt.1 hfits) hover

theorem no_room_of_full (hlen : len < 2 ^ 32)
    (hfull : addUint32 index (u.checkedLength fullHistory family ip) > len) :
    ¬ index + u.checkedLength fullHistory family ip ≤ len := by
  intro hroom
  unfold addUint32 at hfull
  rw [Nat.mod_eq_of_lt (by omega)] at hfull
  omega

end Block

/-! ## The blocks of a list -/

def blocksOffsets (u : IdUnit) (west : ℤ) (fullHistory : Bool) (len : ℕ) :
    List String → ℕ → List ℕ
  | [], _ => []
  | k :: ks, index =>
    match parseIp k with
    | none => []
    | some (family, ip) =>
      let block := ipBlock u west fullHistory family ip
      blockOffsets u west fullHistory len family ip index ++
        if addUint32 index block.1 > len then []
        else blocksOffsets u west fullHistory len ks (addUint32 index (size block.2))

def IdUnit.NoneOverruns (u : IdUnit) (fullHistory : Bool) (len : ℕ) : List String → ℕ → Prop
  | [], _ => True
  | k :: ks, index =>
    match parseIp k with
    | none => True
    | some (family, ip) =>
      ¬ u.Overruns fullHistory len family ip index ∧
        (index + u.checkedLength fullHistory family ip ≤ len →
          u.NoneOverruns fullHistory len ks (index + u.writtenLength fullHistory family ip))

theorem blocksOffsets_inside_iff {u : IdUnit} {west : ℤ} {fullHistory : Bool} {len : ℕ}
    (hlen : len < 2 ^ 32) {ks : List String} {index : ℕ} (hindex : index < 2 ^ 32) :
    (∀ i ∈ blocksOffsets u west fullHistory len ks index, i < len) ↔
      u.NoneOverruns fullHistory len ks index := by
  induction ks generalizing index with
  | nil => simp [blocksOffsets, IdUnit.NoneOverruns]
  | cons k ks ih =>
    unfold blocksOffsets IdUnit.NoneOverruns
    cases hparse : parseIp k with
    | none => simp
    | some address =>
      obtain ⟨family, ip⟩ := address
      obtain ⟨hchecked, hwritten⟩ := @ipBlock_lengths _ u west fullHistory family ip
      dsimp only
      rw [forall_mem_append, blockOffsets_inside_iff hindex hlen, hchecked, hwritten]
      refine and_congr_right fun hover => ?_
      split_ifs with hfull
      · simp [no_room_of_full hlen hfull]
      · obtain ⟨hroom, hend⟩ := end_le_of_not_overruns hover hfull
        have hnext : addUint32 index (u.writtenLength fullHistory family ip) =
            index + u.writtenLength fullHistory family ip := Nat.mod_eq_of_lt (by omega)
        rw [hnext, ih (by omega), imp_iff_right hroom]

/-! ## The reply -/

def ModuleState.replyTo (m : ModuleState) (user : ByteBuffer) (len : ℕ) (t : Tick) :
    Option (IdUnit × GetRequest × List String) :=
  let m' := m.timeChecksCtl t
  let now := t.now - m'.clock.localSecondsWest
  let query := parseGetRequest user
  if len < getRequestLength then none
  else
    (m'.getTarget query).bind fun target =>
      ((m'.resetBeforeGet target.1 now).unit target.1).bind fun u =>
        if query.First then some (u, { query with nextIpIndex := 0 }, newList target.2 query)
        else if query.nextIpIndex > 0 ∧
            (m'.outputIpList.isNone ∨ query.nextIpIndex > (m'.outputIpList.getD []).length) then
          none
        else some (u, query, m'.outputIpList.getD [])

def replyBlockOffsets (u : IdUnit) (west : ℤ) (query : GetRequest) (list : List String)
    (len : ℕ) : List ℕ :=
  if query.ip ≠ 0 then
    blockOffsets u west query.returnHistory len query.family query.ip getHeaderLength
  else blocksOffsets u west query.returnHistory len (list.drop query.nextIpIndex) getHeaderLength

/-- The offsets that `nft_bandwidth_get_ctl` writes to the buffer it allocates,
behind the request that is copied there. -/
def ModuleState.replyOffsets (m : ModuleState) (user : ByteBuffer) (len : ℕ) (t : Tick) :
    List ℕ :=
  match m.replyTo user len t with
  | none => []
  | some (u, query, list) =>
    List.range getHeaderLength ++
      replyBlockOffsets u (m.timeChecksCtl t).clock.localMinutesWest query list len

def ModuleState.NoneOverruns (m : ModuleState) (user : ByteBuffer) (len : ℕ) (t : Tick) : Prop :=
  ∀ u query list, m.replyTo user len t = some (u, query, list) →
    if query.ip ≠ 0 then
      ¬ u.Overruns query.returnHistory len query.family query.ip getHeaderLength
    else u.NoneOverruns query.returnHistory len (list.drop query.nextIpIndex) getHeaderLength

/-- A reply stays inside its buffer unless an address overruns it. -/
theorem replyOffsets_inside_iff (m : ModuleState) (user : ByteBuffer) {len : ℕ} (t : Tick)
    (hrequest : getRequestLength ≤ len) (hlen : len < 2 ^ 32) :
    (∀ i ∈ m.replyOffsets user len t, i < len) ↔ m.NoneOverruns user len t := by
  unfold ModuleState.replyOffsets ModuleState.NoneOverruns
  cases hreply : m.replyTo user len t with
  | none => simp
  | some made =>
    obtain ⟨u, query, list⟩ := made
    have hheader : ∀ i ∈ List.range getHeaderLength, i < len := by
      intro i hi
      exact lt_of_lt_of_le (List.mem_range.1 hi) (le_trans (by decide) hrequest)
    have hstart : getHeaderLength < 2 ^ 32 := by decide
    have hblocks : (∀ i ∈ replyBlockOffsets u (m.timeChecksCtl t).clock.localMinutesWest query
        list len, i < len) ↔
        if query.ip ≠ 0 then
          ¬ u.Overruns query.returnHistory len query.family query.ip getHeaderLength
        else
          u.NoneOverruns query.returnHistory len (list.drop query.nextIpIndex)
            getHeaderLength := by
      unfold replyBlockOffsets
      by_cases hip : query.ip ≠ 0
      · rw [if_pos hip, if_pos hip]
        exact blockOffsets_inside_iff hstart hlen
      · rw [if_neg hip, if_neg hip]
        exact blocksOffsets_inside_iff hlen hstart
    dsimp only
    rw [forall_mem_append, hblocks, and_iff_right hheader]
    constructor
    · intro h u' query' list' hsame
      obtain ⟨rfl, hrest⟩ := Prod.mk.inj (Option.some.inj hsame)
      obtain ⟨rfl, rfl⟩ := Prod.mk.inj hrest
      exact h
    · intro h
      exact h u query list rfl

/-- A block lies in the buffer exactly when it does not overrun it, and a reply when
none of its blocks does. -/
theorem repliesInside_iff :
    (∀ (u : IdUnit) (west : ℤ) (fullHistory : Bool) (family : ℕ) (ip : In6Addr)
      (b : ByteBuffer) (index len : ℕ), index < 2 ^ 32 → len < 2 ^ 32 →
        (((∀ i ∈ blockOffsets u west fullHistory len family ip index, i < len) ↔
          ¬ u.Overruns fullHistory len family ip index) ∧
        (addIpBlock u west fullHistory len family ip b index = none →
          blockOffsets u west fullHistory len family ip index = []))) ∧
      ∀ (m : ModuleState) (user : ByteBuffer) (len : ℕ) (t : Tick),
        getRequestLength ≤ len → len < 2 ^ 31 →
          ((∀ i ∈ m.replyOffsets user len t, i < len) ↔ m.NoneOverruns user len t) := by
  refine ⟨fun u west fullHistory family ip b index len hindex hlen => ⟨?_, ?_⟩, ?_⟩
  · exact blockOffsets_inside_iff hindex hlen
  · intro hnone
    unfold addIpBlock at hnone
    unfold blockOffsets
    dsimp only at hnone ⊢
    split_ifs at hnone ⊢
    rfl
  · intro m user len t hrequest hlen
    exact replyOffsets_inside_iff m user t hrequest (lt_trans hlen (by decide))

end Reply

section Quota

local instance replyKernel : Kernel := referenceKernel 32

/-- A request for the history of `192.168.1.5`. -/
def historyRequest : ByteBuffer :=
  writeId (writeFields zeros 0
    (ipFields NfProto.ipv4.code ![0x0501a8c0, 0, 0, 0] ++ [(4, 0), (1, 1)])) 25
    sourceQuota.id

/-- The reply with the single node of the history fits into 100 bytes. -/
theorem history_reply_inside :
    (∀ i ∈ quotaState.replyOffsets historyRequest 100 ⟨1001, 0⟩, i < 100) ∧
      quotaState.NoneOverruns historyRequest 100 ⟨1001, 0⟩ := by
  have hinside : ∀ i ∈ quotaState.replyOffsets historyRequest 100 ⟨1001, 0⟩, i < 100 := by decide
  exact ⟨hinside, (repliesInside_iff.2 quotaState historyRequest 100 ⟨1001, 0⟩ (by decide)
    (by decide)).1 hinside⟩

/-- The single node of the block is written behind a buffer of 80 bytes. -/
theorem node_behind_buffer :
    (∃ i ∈ blockOffsets quotaUnit 0 true 80 NfProto.ipv4.code ![0x0501a8c0, 0, 0, 0] 30,
      ¬ i < 80) ∧
      ∃ i ∈ quotaState.replyOffsets historyRequest 80 ⟨1001, 0⟩, ¬ i < 80 := by
  decide

end Quota

end Bandwidth

end Gargoyle
