import Gargoyle.Bandwidth.OneId

/-!
# The counters of an id

`IdUnit.Coherent` is what the module keeps true of the maps of an id: the cells
of `ip_map` are live and apart, an address with a history counts in the current
node of that history, and `combined_bw`, when it is set, is the cell of
`0.0.0.0`. Under it an address has a counter of its own, and charging an address
adds to that counter and to no other.

Addresses are told apart by the hash of their text, as in `string_map`.
-/

namespace Gargoyle

namespace Bandwidth

variable [Kernel]

namespace IdUnit

structure Coherent (u : IdUnit) : Prop where
  owned : u.maps.ipMap.Owned u.maps.cells
  saved : u.maps.ipHistoryMap = none ↔ u.info.numIntervalsToSave = 0
  linked : ∀ histories, u.maps.ipHistoryMap = some histories →
    ∀ k, u.maps.ipMap.get k = (histories.get k).map BwHistory.current
  combined : ∀ c, u.info.combinedBw = some c → u.maps.ipMap.get combinedIp = some c
  agree : ∀ o, u.otherInfo = some o → o.combinedBw = u.info.combinedBw

def Bounded (u : IdUnit) : Prop := ∀ k v, u.counter k = some v → v ≤ bandwidthRecordMax

def reported (u : IdUnit) (ip : String) : ℕ := (u.counter ip).getD 0

theorem counter_eq_valueAt (u : IdUnit) (k : String) :
    u.counter k = u.maps.ipMap.valueAt u.maps.cells k := rfl

theorem reported_le {u : IdUnit} (h : u.Bounded) (k : String) :
    u.reported k ≤ bandwidthRecordMax := by
  unfold reported
  cases hk : u.counter k with
  | none => exact Nat.zero_le _
  | some v => exact h k v hk

end IdUnit

/-! ## A new counter -/

theorem junkCells_load (a : Arena ℕ) : (a.alloc [Kernel.junk]).1.load ⟨a.bound, 0⟩ =
    some Kernel.junk := by
  simp [Arena.load_alloc]

theorem initializeHistory_load (a : Arena ℕ) (n : ℕ) :
    ∃ v, (initializeHistory a n).1.load (initializeHistory a n).2.current = some v := by
  cases n with
  | zero => exact ⟨Kernel.junk, by simp [initializeHistory, BwHistory.current, Arena.load_alloc]⟩
  | succ n =>
    refine ⟨0, ?_⟩
    simp [initializeHistory, BwHistory.current, Arena.load_alloc, List.replicate_succ]

/-- A new counter lies in a new block. -/
theorem newCounter_spec {u : IdUnit} (h : u.Coherent) (ip : String) :
    (newCounter u ip).1.block = u.maps.cells.bound ∧
      (∃ v, (newCounter u ip).2.2.load (newCounter u ip).1 = some v) ∧
      HashedMap.Owned.Keeps u.maps.ipMap u.maps.cells (newCounter u ip).2.2 ip := by
  have hbound : ∀ k c, u.maps.ipMap.get k = some c → c.block < u.maps.cells.bound := by
    intro k c hk
    obtain ⟨v, hv⟩ := h.owned.live k c hk
    exact u.maps.cells.block_lt_of_load hv
  unfold newCounter
  cases hhist : u.maps.ipHistoryMap with
  | none =>
    exact ⟨rfl, ⟨_, junkCells_load _⟩, fun k c hk _ => Arena.load_alloc_of_lt _ _ (hbound k c hk)⟩
  | some histories =>
    have hnz : u.info.numIntervalsToSave ≠ 0 := by
      intro hz
      rw [h.saved.2 hz] at hhist
      cases hhist
    simp only [if_neg hnz]
    obtain ⟨v, hv⟩ := initializeHistory_load u.maps.cells u.info.numIntervalsToSave
    have hlink := h.linked histories hhist ip
    cases hold : histories.get ip with
    | none =>
      refine ⟨rfl, ⟨v, hv⟩, fun k c hk _ => ?_⟩
      exact Arena.load_alloc_of_lt _ _ (hbound k c hk)
    | some old =>
      -- the block of the old history is the one the address had counted in
      rw [hold, Option.map_some] at hlink
      have hlt : old.historyData < u.maps.cells.bound := hbound ip old.current hlink
      have hne : (initializeHistory u.maps.cells u.info.numIntervalsToSave).2.current.block ≠
          old.historyData := (Nat.ne_of_lt hlt).symm
      refine ⟨rfl, ⟨v, ?_⟩, fun k c hk hhash => ?_⟩
      · rw [Arena.load_free, if_neg hne]
        exact hv
      · have hapart : c.block ≠ old.historyData := fun hblock =>
          hhash (h.owned.apart k ip c old.current hk hlink hblock)
        rw [Arena.load_free, if_neg hapart]
        exact Arena.load_alloc_of_lt _ _ (hbound k c hk)

/-- A new counter holds the number that it is entered with. -/
theorem initializedMaps_load {u : IdUnit} (h : u.Coherent) (ip : String) (bw family : ℕ) :
    (initializedMaps u ip bw family).cells.load (newCounter u ip).1 = some bw ∧
      HashedMap.Owned.Keeps u.maps.ipMap u.maps.cells (initializedMaps u ip bw family).cells ip := by
  obtain ⟨hblock, ⟨v, hv⟩, hkeep⟩ := newCounter_spec h ip
  have hbound : ∀ k c, u.maps.ipMap.get k = some c → c.block ≠ (newCounter u ip).1.block := by
    intro k c hk
    obtain ⟨w, hw⟩ := h.owned.live k c hk
    rw [hblock]
    exact Nat.ne_of_lt (u.maps.cells.block_lt_of_load hw)
  have hwritten : ((newCounter u ip).2.2.store (newCounter u ip).1 bw).load (newCounter u ip).1 =
      some bw := Arena.load_store_self _ bw hv
  have hothers : HashedMap.Owned.Keeps u.maps.ipMap u.maps.cells
      ((newCounter u ip).2.2.store (newCounter u ip).1 bw) ip := by
    intro k c hk hhash
    have hne : c ≠ (newCounter u ip).1 := fun heq => hbound k c hk (congrArg Cell.block heq)
    rw [Arena.load_store_of_ne _ bw hne]
    exact hkeep k c hk hhash
  unfold initializedMaps
  cases hold : u.maps.ipMap.get ip with
  | none => exact ⟨hwritten, hothers⟩
  | some old =>
    simp only
    split_ifs
    · refine ⟨?_, fun k c hk hhash => ?_⟩
      · rw [Arena.load_free, if_neg (hbound ip old hold).symm]
        exact hwritten
      · have hapart : c.block ≠ old.block := fun heq =>
          hhash (h.owned.apart k ip c old hk hold heq)
        rw [Arena.load_free, if_neg hapart]
        exact hothers k c hk hhash
    · exact ⟨hwritten, hothers⟩

namespace IdUnit

theorem initialize_counter {u : IdUnit} (h : u.Coherent) (ip : String) (bw family : ℕ)
    (k : String) :
    (initializeMapEntriesForIp u ip bw family).1.counter k =
      if sdbmStringHash ip = sdbmStringHash k then some bw else u.counter k := by
  obtain ⟨hload, hkeep⟩ := initializedMaps_load h ip bw family
  have hmaps : (initializeMapEntriesForIp u ip bw family).1.maps =
      initializedMaps u ip bw family := newEntry_maps u ip bw family
  rw [counter_eq_valueAt, hmaps]
  exact HashedMap.Owned.valueAt_set hload hkeep k

theorem newCounter_saved {u : IdUnit} (h : u.Coherent) (ip : String) :
    (newCounter u ip).2.1 = none ↔ u.info.numIntervalsToSave = 0 := by
  rw [← h.saved]
  unfold newCounter
  cases hhist : u.maps.ipHistoryMap with
  | none => simp
  | some histories =>
    simp only
    split_ifs <;> simp

theorem newCounter_linked {u : IdUnit} (h : u.Coherent) (ip : String)
    (histories : StringMap BwHistory) (hnew : (newCounter u ip).2.1 = some histories)
    (k : String) :
    (u.maps.ipMap.set ip (newCounter u ip).1).get k =
      (histories.get k).map BwHistory.current := by
  have hnz : u.info.numIntervalsToSave ≠ 0 := by
    intro hz
    rw [(newCounter_saved h ip).2 hz] at hnew
    cases hnew
  unfold newCounter at hnew ⊢
  cases hhist : u.maps.ipHistoryMap with
  | none => simp [hhist] at hnew
  | some old =>
    simp only [hhist, if_neg hnz, Option.some.injEq] at hnew ⊢
    subst hnew
    rw [HashedMap.get_set, HashedMap.get_set]
    split_ifs
    · rfl
    · exact h.linked old hhist k

/-- Entering an address keeps the maps coherent. -/
theorem Coherent.newEntry {u : IdUnit} (h : u.Coherent) (ip : String) (bw family : ℕ)
    (hcombined : sdbmStringHash ip = sdbmStringHash combinedIp →
      ip = combinedIp ∨ u.info.combinedBw = none) :
    (initializeMapEntriesForIp u ip bw family).1.Coherent := by
  obtain ⟨hload, hkeep⟩ := initializedMaps_load h ip bw family
  obtain ⟨hblock, -, -⟩ := newCounter_spec h ip
  have howned : (initializedMaps u ip bw family).ipMap.Owned
      (initializedMaps u ip bw family).cells := by
    refine h.owned.set hload (fun k c hk _ => ?_) hkeep
    obtain ⟨w, hw⟩ := h.owned.live k c hk
    rw [hblock]
    exact Nat.ne_of_lt (u.maps.cells.block_lt_of_load hw)
  unfold initializeMapEntriesForIp
  simp only
  split_ifs with hip
  · refine ⟨howned, newCounter_saved h ip, newCounter_linked h ip, ?_, ?_⟩
    · intro c hc
      rw [← hc, ← hip]
      exact HashedMap.get_set_self _ _ _
    · intro o ho
      simp only [setCombinedBw, Option.map_eq_some_iff] at ho ⊢
      obtain ⟨o', -, rfl⟩ := ho
      rfl
  · refine ⟨howned, newCounter_saved h ip, newCounter_linked h ip, ?_, h.agree⟩
    intro c hc
    have hne : sdbmStringHash ip ≠ sdbmStringHash combinedIp := by
      intro hhash
      rcases hcombined hhash with heq | hnone
      · exact hip heq
      · have hc' : u.info.combinedBw = some c := hc
        rw [hnone] at hc'
        cases hc'
    change (u.maps.ipMap.set ip (newCounter u ip).1).get combinedIp = some c
    rw [HashedMap.get_set_of_ne _ _ hne]
    exact h.combined c hc

end IdUnit

/-! ## Adding to a counter -/

omit [Kernel] in
theorem min_add_min (M a b c : ℕ) : min M (min M (a + b) + c) = min M (a + (b + c)) := by
  omega

omit [Kernel] in
theorem addUpToMax_true (v len : ℕ) : addUpToMax v len true = v := by
  simp [addUpToMax]

omit [Kernel] in
theorem addUpToMax_false {v len : ℕ} (hv : v ≤ bandwidthRecordMax) (hlen : len < 2 ^ 32) :
    addUpToMax v len false = min bandwidthRecordMax (v + len) := by
  have hmax : bandwidthRecordMax = 2 ^ 63 - 1 := by decide
  simp only [addUpToMax, and_true, Bool.false_eq_true, if_false]
  split_ifs <;> omega

namespace IdUnit

theorem addToCell_counter {u : IdUnit} (h : u.Coherent) {ip : String} {c : Cell}
    (hip : u.maps.ipMap.get ip = some c) (len : ℕ) (isCheck : Bool) (k : String) :
    (u.addToCell c len isCheck).counter k =
      if sdbmStringHash ip = sdbmStringHash k
      then (u.counter k).map fun v => addUpToMax v len isCheck
      else u.counter k := by
  obtain ⟨v, hv⟩ := h.owned.live ip c hip
  have hstored : (u.addToCell c len isCheck).counter k =
      u.maps.ipMap.valueAt (u.maps.cells.store c (addUpToMax v len isCheck)) k := by
    simp only [addToCell, hv]
    rfl
  rw [hstored, h.owned.valueAt_store hip]
  split_ifs with hk
  · have hcounter : u.counter k = some v := by
      rw [counter, cellOf, ← u.maps.ipMap.get_congr hk, hip]
      exact hv
    rw [hcounter, Option.map_some]
  · rfl

theorem Coherent.addToCell {u : IdUnit} (h : u.Coherent) (c : Cell) (len : ℕ) (isCheck : Bool) :
    (u.addToCell c len isCheck).Coherent := by
  unfold IdUnit.addToCell
  split
  · exact ⟨h.owned.store _ _, h.saved, h.linked, h.combined, h.agree⟩
  · exact h

/-- The counters after a charge to the text `ip`. -/
def Charged (u u' : IdUnit) (ip : String) (len : ℕ) : Prop :=
  ∀ k, u'.reported k =
    min bandwidthRecordMax (u.reported k +
      if sdbmStringHash ip = sdbmStringHash k then len else 0)

theorem Charged.of_cases {u u' : IdUnit} {ip : String} {len : ℕ} (hb : u.Bounded)
    (hself : ∀ k, sdbmStringHash ip = sdbmStringHash k →
      u'.reported k = min bandwidthRecordMax (u.reported k + len))
    (hothers : ∀ k, sdbmStringHash ip ≠ sdbmStringHash k → u'.reported k = u.reported k) :
    Charged u u' ip len := by
  intro k
  by_cases hk : sdbmStringHash ip = sdbmStringHash k
  · rw [if_pos hk, hself k hk]
  · rw [if_neg hk, hothers k hk, Nat.add_zero, Nat.min_eq_right (reported_le hb k)]

theorem Bounded.of_reported {u : IdUnit} (h : ∀ k, u.reported k ≤ bandwidthRecordMax) :
    u.Bounded := by
  intro k v hk
  have := h k
  rwa [reported, hk, Option.getD_some] at this

theorem Charged.bounded {u u' : IdUnit} {ip : String} {len : ℕ} (h : Charged u u' ip len) :
    u'.Bounded := by
  apply Bounded.of_reported
  intro k
  rw [h k]
  exact Nat.min_le_left _ _

theorem addToCell_charged {u : IdUnit} (h : u.Coherent) (hb : u.Bounded) {ip : String} {c : Cell}
    (hip : u.maps.ipMap.get ip = some c) {len : ℕ} (hlen : len < 2 ^ 32) :
    Charged u (u.addToCell c len false) ip len := by
  apply Charged.of_cases hb
  · intro k hk
    obtain ⟨v, hv⟩ := h.owned.live ip c hip
    have hcounter : u.counter k = some v := by
      rw [counter, cellOf, ← u.maps.ipMap.get_congr hk, hip]
      exact hv
    rw [reported, addToCell_counter h hip, if_pos hk, reported, hcounter, Option.map_some,
      Option.getD_some, Option.getD_some, addUpToMax_false (hb k v hcounter) hlen]
  · intro k hk
    rw [reported, addToCell_counter h hip, if_neg hk, reported]

theorem initialize_charged {u : IdUnit} (h : u.Coherent) (hb : u.Bounded) {ip : String}
    (hip : u.maps.ipMap.get ip = none) {len : ℕ} (hlen : len < 2 ^ 32) (family : ℕ) :
    Charged u (initializeMapEntriesForIp u ip len family).1 ip len := by
  apply Charged.of_cases hb
  · intro k hk
    have hnone : u.reported k = 0 := by
      rw [reported, counter, cellOf, ← u.maps.ipMap.get_congr hk, hip]
      rfl
    have hmax : bandwidthRecordMax = 2 ^ 63 - 1 := by decide
    rw [reported, initialize_counter h, if_pos hk, hnone, Option.getD_some, hmax]
    omega
  · intro k hk
    rw [reported, initialize_counter h, if_neg hk, reported]

theorem chargeIp_charged {u : IdUnit} (h : u.Coherent) (hb : u.Bounded) (ip : String) {len : ℕ}
    (hlen : len < 2 ^ 32) (family : ℕ) :
    Charged u (u.chargeIp ip len false family).1 ip len := by
  unfold chargeIp
  cases hip : u.maps.ipMap.get ip with
  | none => exact initialize_charged h hb hip hlen family
  | some c => exact addToCell_charged h hb hip hlen

theorem Coherent.chargeIp {u : IdUnit} (h : u.Coherent) (ip : String) (len : ℕ) (isCheck : Bool)
    (family : ℕ) : (u.chargeIp ip len isCheck family).1.Coherent := by
  unfold IdUnit.chargeIp
  cases hip : u.maps.ipMap.get ip with
  | none =>
    cases isCheck with
    | true => exact h
    | false =>
      refine h.newEntry ip len family fun hhash => Or.inr ?_
      cases hbw : u.info.combinedBw with
      | none => rfl
      | some c =>
        have hget := h.combined c hbw
        rw [← u.maps.ipMap.get_congr hhash, hip] at hget
        cases hget
  | some c => exact h.addToCell c len isCheck

/-- `combined_bw` is set as soon as there is an entry for `0.0.0.0`. -/
def Designated (u : IdUnit) : Prop := u.info.combinedBw = u.maps.ipMap.get combinedIp

theorem chargeCombined_charged {u : IdUnit} (h : u.Coherent) (hb : u.Bounded)
    (hdes : u.Designated) {priv : NftBandwidthInfo} (hpriv : priv.combinedBw = u.info.combinedBw)
    {len : ℕ} (hlen : len < 2 ^ 32) :
    Charged u (u.chargeCombined priv len false).1 combinedIp len := by
  unfold chargeCombined
  cases hbw : priv.combinedBw with
  | none =>
    have hnone : u.maps.ipMap.get combinedIp = none := by rw [← hdes, ← hpriv, hbw]
    exact initialize_charged h hb hnone hlen _
  | some c =>
    have hget : u.maps.ipMap.get combinedIp = some c := by rw [← hdes, ← hpriv, hbw]
    exact addToCell_charged h hb hget hlen

theorem Coherent.chargeCombined {u : IdUnit} (h : u.Coherent) (priv : NftBandwidthInfo) (len : ℕ)
    (isCheck : Bool) : (u.chargeCombined priv len isCheck).1.Coherent := by
  unfold IdUnit.chargeCombined
  split
  · exact h.newEntry combinedIp len _ fun _ => Or.inl rfl
  · exact h.addToCell _ _ _

theorem Coherent.modifyRecord {u : IdUnit} (h : u.Coherent)
    {f : NftBandwidthInfo → NftBandwidthInfo} (other : Bool)
    (hf : ∀ info, (f info).combinedBw = info.combinedBw ∧
      (f info).numIntervalsToSave = info.numIntervalsToSave) :
    (u.modifyRecord f other).Coherent := by
  cases other with
  | false =>
    obtain ⟨hbw, hn⟩ := hf u.info
    refine ⟨h.owned, ?_, h.linked, ?_, ?_⟩
    · exact h.saved.trans (by rw [← hn]; rfl)
    · intro c hc
      exact h.combined c (hbw.symm.trans hc)
    · intro o ho
      exact (h.agree o ho).trans hbw.symm
  | true =>
    refine ⟨h.owned, h.saved, h.linked, h.combined, ?_⟩
    intro o ho
    obtain ⟨o', ho', rfl⟩ := Option.map_eq_some_iff.1 ho
    exact (hf o').1.trans (h.agree o' ho')

theorem Designated.addToCell {u : IdUnit} (h : u.Designated) (c : Cell) (len : ℕ)
    (isCheck : Bool) : (u.addToCell c len isCheck).Designated := by
  unfold IdUnit.addToCell
  split
  · exact h
  · exact h

theorem Designated.newEntry {u : IdUnit} (h : u.Designated) {ip : String} (bw family : ℕ)
    (hip : sdbmStringHash ip = sdbmStringHash combinedIp → ip = combinedIp) :
    (initializeMapEntriesForIp u ip bw family).1.Designated := by
  unfold initializeMapEntriesForIp Designated
  simp only
  split_ifs with hcase
  · subst hcase
    exact (HashedMap.get_set_self _ _ _).symm
  · exact h.trans (HashedMap.get_set_of_ne _ _ fun hhash => hcase (hip hhash)).symm

theorem Designated.chargeCombined {u : IdUnit} (h : u.Designated) (priv : NftBandwidthInfo)
    (len : ℕ) (isCheck : Bool) : (u.chargeCombined priv len isCheck).1.Designated := by
  unfold IdUnit.chargeCombined
  split
  · exact h.newEntry _ _ fun _ => rfl
  · exact h.addToCell _ _ _

theorem Designated.chargeIp {u : IdUnit} (h : u.Designated) {ip : String} (len : ℕ)
    (isCheck : Bool) (family : ℕ)
    (hip : sdbmStringHash ip = sdbmStringHash combinedIp → ip = combinedIp) :
    (u.chargeIp ip len isCheck family).1.Designated := by
  unfold IdUnit.chargeIp
  split
  · split_ifs
    · exact h
    · exact h.newEntry _ _ hip
  · exact h.addToCell _ _ _

theorem Designated.modifyRecord {u : IdUnit} (h : u.Designated)
    {f : NftBandwidthInfo → NftBandwidthInfo} (other : Bool)
    (hf : ∀ info, (f info).combinedBw = info.combinedBw) :
    (u.modifyRecord f other).Designated := by
  cases other with
  | false => exact (hf u.info).trans h
  | true => exact h

theorem reported_modifyRecord (u : IdUnit) (f : NftBandwidthInfo → NftBandwidthInfo)
    (other : Bool) (k : String) : (u.modifyRecord f other).reported k = u.reported k := by
  cases other <;> rfl

end IdUnit

/-! ## What a packet is charged to -/

def charges (priv : NftBandwidthInfo) (ips : String × String) : List String :=
  if priv.type = .combined then [combinedIp]
  else
    (if priv.cmp = .monitor then [combinedIp] else []) ++
      (if bwIp ips = combinedIp then [] else [bwIp ips])

/-- The bytes added to the counter of `k` when `len` bytes are charged to each of
the texts. -/
def bytesTo (texts : List String) (len : ℕ) (k : String) : ℕ :=
  (texts.map fun x => if sdbmStringHash x = sdbmStringHash k then len else 0).sum

@[simp] theorem bytesTo_nil (len : ℕ) (k : String) : bytesTo [] len k = 0 := rfl

theorem bytesTo_singleton (x : String) (len : ℕ) (k : String) :
    bytesTo [x] len k = if sdbmStringHash x = sdbmStringHash k then len else 0 := by
  rw [bytesTo, List.map_singleton, List.sum_singleton]

theorem bytesTo_append (xs ys : List String) (len : ℕ) (k : String) :
    bytesTo (xs ++ ys) len k = bytesTo xs len k + bytesTo ys len k := by
  simp [bytesTo]

/-- No other text that the packet is charged to is taken for `0.0.0.0`. -/
def ApartFromCombined (ips : String × String) : Prop :=
  sdbmStringHash (bwIp ips) = sdbmStringHash combinedIp → bwIp ips = combinedIp

structure IdUnit.Sound (u : IdUnit) : Prop where
  coherent : u.Coherent
  bounded : u.Bounded
  designated : u.Designated

namespace IdUnit.Sound

theorem of_initial {u : IdUnit} (howned : u.maps.ipMap = HashedMap.empty)
    (hsaved : u.maps.ipHistoryMap =
      if u.info.numIntervalsToSave > 0 then some HashedMap.empty else none)
    (hinfo : u.info.combinedBw = none) (hother : ∀ o, u.otherInfo = some o → o.combinedBw = none) :
    u.Sound := by
  have hcounter : ∀ k, u.counter k = none := by
    intro k
    simp [counter, cellOf, howned]
  refine ⟨⟨?_, ?_, ?_, ?_, ?_⟩, ?_, ?_⟩
  · rw [howned]
    exact HashedMap.owned_empty _
  · rw [hsaved]
    split_ifs with hn
    · simp
      omega
    · simp
      omega
  · intro histories hsome k
    rw [hsaved] at hsome
    split_ifs at hsome
    obtain rfl := Option.some.inj hsome
    simp [howned]
  · intro c hc
    rw [hinfo] at hc
    cases hc
  · intro o ho
    rw [hother o ho, hinfo]
  · intro k v hv
    rw [hcounter k] at hv
    cases hv
  · rw [Designated, hinfo, howned, HashedMap.get_empty]

theorem record_combinedBw {u : IdUnit} (h : u.Sound) {other : Bool} {priv : NftBandwidthInfo}
    (hpriv : u.record other = some priv) : priv.combinedBw = u.info.combinedBw := by
  cases other with
  | false =>
    obtain rfl := Option.some.inj hpriv
    rfl
  | true => exact h.coherent.agree priv hpriv

theorem chargeCombined {u : IdUnit} (h : u.Sound) {other : Bool} {priv : NftBandwidthInfo}
    (hpriv : u.record other = some priv) {len : ℕ} (hlen : len < 2 ^ 32) :
    (u.chargeCombined priv len false).1.Sound := by
  have hcharged := chargeCombined_charged h.coherent h.bounded h.designated
    (h.record_combinedBw hpriv) hlen
  exact ⟨h.coherent.chargeCombined priv len false, hcharged.bounded,
    h.designated.chargeCombined priv len false⟩

theorem chargeIp {u : IdUnit} (h : u.Sound) {ip : String} {len : ℕ} (hlen : len < 2 ^ 32)
    (family : ℕ) (hip : sdbmStringHash ip = sdbmStringHash combinedIp → ip = combinedIp) :
    (u.chargeIp ip len false family).1.Sound := by
  have hcharged := chargeIp_charged h.coherent h.bounded ip hlen family
  exact ⟨h.coherent.chargeIp ip len false family, hcharged.bounded,
    h.designated.chargeIp len false family hip⟩

theorem addToCurrent {u : IdUnit} (h : u.Sound) (len : ℕ) (isCheck other : Bool) :
    (u.modifyRecord (·.addToCurrent len isCheck) other).Sound := by
  refine ⟨h.coherent.modifyRecord other fun info => ⟨rfl, rfl⟩, ?_,
    h.designated.modifyRecord other fun info => rfl⟩
  apply Bounded.of_reported
  intro k
  rw [reported_modifyRecord]
  exact reported_le h.bounded k

theorem chargeMonitor {u : IdUnit} (h : u.Sound) {other : Bool} {priv : NftBandwidthInfo}
    (hpriv : u.record other = some priv) {len : ℕ} (hlen : len < 2 ^ 32) :
    (u.chargeMonitor priv len false).Sound ∧
      ∀ k, (u.chargeMonitor priv len false).reported k =
        min bandwidthRecordMax
          (u.reported k + bytesTo (if priv.cmp = .monitor then [combinedIp] else []) len k) := by
  by_cases hcmp : priv.cmp = .monitor
  · rw [chargeMonitor_of_monitor u hcmp, if_pos hcmp]
    refine ⟨h.chargeCombined hpriv hlen, fun k => ?_⟩
    rw [bytesTo_singleton]
    exact chargeCombined_charged h.coherent h.bounded h.designated
      (h.record_combinedBw hpriv) hlen k
  · rw [chargeMonitor_of_ne u hcmp, if_neg hcmp]
    refine ⟨h, fun k => ?_⟩
    rw [bytesTo_nil, Nat.add_zero, Nat.min_eq_right (reported_le h.bounded k)]

theorem countPacket {u : IdUnit} (h : u.Sound) {other : Bool} {priv : NftBandwidthInfo}
    (hpriv : u.record other = some priv) (ips : NftBandwidthInfo → String × String)
    (hips : ApartFromCombined (ips priv)) (family : ℕ) {len : ℕ} (hlen : len < 2 ^ 32) :
    (u.countPacket other ips family len false).1.Sound ∧
      ∀ k, (u.countPacket other ips family len false).1.reported k =
        min bandwidthRecordMax (u.reported k + bytesTo (charges priv (ips priv)) len k) := by
  by_cases htype : priv.type = .combined
  · rw [countPacket_of_combined hpriv ips family len false htype, charges, if_pos htype]
    refine ⟨(h.chargeCombined hpriv hlen).addToCurrent len false other, fun k => ?_⟩
    rw [reported_modifyRecord, bytesTo_singleton]
    exact chargeCombined_charged h.coherent h.bounded h.designated
      (h.record_combinedBw hpriv) hlen k
  · obtain ⟨hmonitor, hmonitored⟩ := h.chargeMonitor hpriv hlen
    rw [charges, if_neg htype]
    by_cases hip : bwIp (ips priv) = combinedIp
    · rw [countPacket_of_noAddress hpriv ips family len false htype hip, if_pos hip,
        List.append_nil]
      exact ⟨hmonitor, hmonitored⟩
    · rw [countPacket_of_address hpriv ips family len false htype hip, if_neg hip]
      refine ⟨hmonitor.chargeIp hlen family hips, fun k => ?_⟩
      rw [chargeIp_charged hmonitor.coherent hmonitor.bounded _ hlen family k, hmonitored k,
        min_add_min, bytesTo_append, bytesTo_singleton]

end IdUnit.Sound

end Bandwidth

end Gargoyle
