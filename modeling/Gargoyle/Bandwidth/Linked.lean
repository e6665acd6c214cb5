import Gargoyle.Bandwidth.SetRequest

/-!
# The maps of an id that saves intervals

`ip_map`, `ip_history_map` and `ip_family_map` have the same addresses, an
address in `ip_map` points to the node its history counts in, and `combined_bw`
is the pointer of `0.0.0.0`. This is `IdUnit.Linked`.

Every function that moves a history on stores the new pointer, but in the rounds
of an interval reset some pointers are left behind: those of histories without
data. They are taken out in the last round, or set by the wipe that follows.
`combined_bw` is only kept up with `0.0.0.0`, by its text, while the maps go by
its hash: another address with that hash breaks the relation.
-/

namespace Gargoyle

open List

namespace Bandwidth

variable [Kernel]

/-- No address but `0.0.0.0` itself goes under the key of the combined counter. -/
def PlainIp (k : String) : Prop :=
  sdbmStringHash k = sdbmStringHash combinedIp → k = combinedIp

instance (k : String) : Decidable (PlainIp k) := inferInstanceAs (Decidable (_ → _))

structure SameIps (ipMap : StringMap Cell) (histories : StringMap BwHistory)
    (families : StringMap ℕ) : Prop where
  ips : ipMap.keys = histories.keys
  families : families.keys = histories.keys
  plain : ∀ k ∈ histories.keys, PlainIp k

def Pointed (ipMap : StringMap Cell) (histories : StringMap BwHistory) : Prop :=
  ∀ k, ipMap.get k = (histories.get k).map BwHistory.current

section Maps

variable {ipMap : StringMap Cell} {histories : StringMap BwHistory} {families : StringMap ℕ}

theorem SameIps.set (h : SameIps ipMap histories families) {k : String} (hk : PlainIp k)
    (c : Cell) (new : BwHistory) (family : ℕ) :
    SameIps (ipMap.set k c) (histories.set k new) (families.set k family) := by
  refine ⟨HashedMap.keys_set_congr h.ips k c new, HashedMap.keys_set_congr h.families k family new,
    fun k' hk' => ?_⟩
  rcases histories.eq_or_mem_keys_of_set hk' with rfl | hmem
  · exact hk
  · exact h.plain k' hmem

theorem SameIps.setIp (h : SameIps ipMap histories families) {k : String}
    (hk : k ∈ histories.keys) (c : Cell) : SameIps (ipMap.set k c) histories families :=
  ⟨(ipMap.keys_set_of_mem c (h.ips ▸ hk)).trans h.ips, h.families, h.plain⟩

theorem SameIps.setHistory (h : SameIps ipMap histories families) {k : String}
    (hk : k ∈ histories.keys) (new : BwHistory) :
    SameIps ipMap (histories.set k new) families := by
  have hkeys := histories.keys_set_of_mem new hk
  exact ⟨h.ips.trans hkeys.symm, h.families.trans hkeys.symm, hkeys.symm ▸ h.plain⟩

theorem SameIps.remove (h : SameIps ipMap histories families) (k : String) :
    SameIps (ipMap.remove k) (histories.remove k) (families.remove k) := by
  refine ⟨HashedMap.keys_remove_congr h.ips k, HashedMap.keys_remove_congr h.families k,
    fun k' hk' => ?_⟩
  rw [HashedMap.keys_remove] at hk'
  exact h.plain k' (List.mem_filter.1 hk').1

theorem Pointed.set (h : Pointed ipMap histories) (k : String) (new : BwHistory) :
    Pointed (ipMap.set k new.current) (histories.set k new) := by
  intro k'
  rw [HashedMap.get_set, HashedMap.get_set]
  split_ifs
  · rfl
  · exact h k'

theorem Pointed.setHistory (h : Pointed ipMap histories) {k : String} {old new : BwHistory}
    (hold : histories.get k = some old) (hcurrent : new.current = old.current) :
    Pointed ipMap (histories.set k new) := by
  intro k'
  rw [HashedMap.get_set]
  split_ifs with hhash
  · rw [h k', ← histories.get_congr hhash, hold, Option.map_some, Option.map_some, hcurrent]
  · exact h k'

end Maps

namespace IdUnit

def Joined (u : IdUnit) : Prop :=
  ∃ histories, u.maps.ipHistoryMap = some histories ∧
    SameIps u.maps.ipMap histories u.maps.ipFamilyMap

def Mapped (u : IdUnit) : Prop :=
  ∃ histories, u.maps.ipHistoryMap = some histories ∧
    SameIps u.maps.ipMap histories u.maps.ipFamilyMap ∧ Pointed u.maps.ipMap histories

structure Linked (u : IdUnit) : Prop where
  maps : ∃ histories, u.maps.ipHistoryMap = some histories ∧
    u.maps.ipMap.keys = histories.keys ∧ u.maps.ipFamilyMap.keys = histories.keys ∧
    ∀ ip, u.maps.ipMap.get ip = (histories.get ip).map BwHistory.current
  combined : u.info.combinedBw = u.maps.ipMap.get combinedIp
  other : ∀ o, u.otherInfo = some o → o.combinedBw = u.maps.ipMap.get combinedIp

/-- `combined_bw` of both records is the pointer of `0.0.0.0`. -/
structure CombinedSet (u : IdUnit) : Prop where
  info : u.info.combinedBw = u.maps.ipMap.get combinedIp
  other : ∀ o, u.otherInfo = some o → o.combinedBw = u.maps.ipMap.get combinedIp

theorem Mapped.linked {u : IdUnit} (h : u.Mapped) (hcombined : u.CombinedSet) : u.Linked := by
  obtain ⟨histories, hmap, hsame, hpointed⟩ := h
  exact ⟨⟨histories, hmap, hsame.ips, hsame.families, hpointed⟩, hcombined.info, hcombined.other⟩

theorem combinedSet_setCombinedBw (u : IdUnit) :
    (u.setCombinedBw (u.maps.ipMap.get combinedIp)).CombinedSet := by
  refine ⟨rfl, fun o ho => ?_⟩
  obtain ⟨o', -, rfl⟩ := Option.map_eq_some_iff.1 ho
  rfl

end IdUnit

/-! ## Interval resets -/

theorem or_todo_tail {V : Type} {A : Prop} {k : String} {e : String × V} {rest : List (String × V)}
    (h : A ∨ ∃ e' ∈ e :: rest, sdbmStringHash e'.1 = sdbmStringHash k)
    (hne : sdbmStringHash e.1 ≠ sdbmStringHash k) :
    A ∨ ∃ e' ∈ rest, sdbmStringHash e'.1 = sdbmStringHash k := by
  rcases h with hA | ⟨e', he', heq⟩
  · exact .inl hA
  · rcases List.mem_cons.1 he' with rfl | hrest
    · exact absurd heq hne
    · exact .inr ⟨e', hrest, heq⟩

theorem of_or_todo_nil {V : Type} {A : Prop} {k : String}
    (h : A ∨ ∃ e ∈ ([] : List (String × V)), sdbmStringHash e.1 = sdbmStringHash k) : A := by
  rcases h with hA | ⟨e, he, -⟩
  · exact hA
  · cases he

/-- The maps while `do_reset` walks over the histories: an address that does not
point to its history is scheduled for deletion or still to come. -/
structure Resetting (families : StringMap ℕ) (rest : List (String × BwHistory))
    (s : ResetState) : Prop where
  same : SameIps s.ipMap s.histories families
  todo : ∀ e ∈ rest, e.1 ∈ s.histories.keys
  pointed : ∀ k, (s.ipMap.get k = (s.histories.get k).map BwHistory.current ∨
    (s.deleteIps.get k).isSome) ∨ ∃ e ∈ rest, sdbmStringHash e.1 = sdbmStringHash k

theorem Resetting.step {families : StringMap ℕ} {e : String × BwHistory}
    {rest : List (String × BwHistory)} {s : ResetState} (h : Resetting families (e :: rest) s)
    (info : NftBandwidthInfo) (intervalStart intervalEnd : ℤ) :
    Resetting families rest (doReset info intervalStart intervalEnd s e) := by
  have hkey := h.todo e mem_cons_self
  have htodo : ∀ (new : BwHistory), ∀ e' ∈ rest, e'.1 ∈ (s.histories.set e.1 new).keys := by
    intro new e' he'
    rw [s.histories.keys_set_of_mem new hkey]
    exact h.todo e' (mem_cons_of_mem e he')
  simp only [doReset]
  split_ifs
  · refine ⟨h.same.setHistory hkey _, htodo _, fun k => ?_⟩
    by_cases hhash : sdbmStringHash e.1 = sdbmStringHash k
    · simp [HashedMap.get_set, hhash]
    · rw [HashedMap.get_set_of_ne _ _ hhash, HashedMap.get_set_of_ne _ _ hhash]
      exact or_todo_tail (h.pointed k) hhash
  · refine ⟨(h.same.setIp hkey _).setHistory hkey _, htodo _, fun k => ?_⟩
    by_cases hhash : sdbmStringHash e.1 = sdbmStringHash k
    · simp [HashedMap.get_set, hhash]
    · rw [HashedMap.get_set_of_ne _ _ hhash, HashedMap.get_set_of_ne _ _ hhash]
      exact or_todo_tail (h.pointed k) hhash

theorem Resetting.foldl {families : StringMap ℕ} {rest : List (String × BwHistory)}
    {s : ResetState} (h : Resetting families rest s) (info : NftBandwidthInfo)
    (intervalStart intervalEnd : ℤ) :
    Resetting families [] (rest.foldl (doReset info intervalStart intervalEnd) s) := by
  induction rest generalizing s with
  | nil => exact h
  | cons e rest ih => exact ih (h.step info intervalStart intervalEnd)

theorem foldl_clearIps_pointed {es : List (String × Cell)} {t : IpMaps × StringMap BwHistory}
    (hsame : SameIps t.1.ipMap t.2 t.1.ipFamilyMap)
    (hpointed : ∀ k, t.1.ipMap.get k = (t.2.get k).map BwHistory.current ∨
      ∃ e ∈ es, sdbmStringHash e.1 = sdbmStringHash k) :
    let t' := es.foldl (fun t e => clearIps t.1 t.2 e) t
    SameIps t'.1.ipMap t'.2 t'.1.ipFamilyMap ∧ Pointed t'.1.ipMap t'.2 := by
  induction es generalizing t with
  | nil => exact ⟨hsame, fun k => of_or_todo_nil (hpointed k)⟩
  | cons e es ih =>
    rw [foldl_cons]
    refine ih (hsame.remove e.1) fun k => ?_
    simp only [clearIps, HashedMap.get_remove]
    split_ifs with hhash
    · exact .inl rfl
    · exact or_todo_tail (hpointed k) hhash

theorem foldl_resetHistories_pointed {rest : List (String × BwHistory)}
    {t : IpMaps × StringMap BwHistory} (hsame : SameIps t.1.ipMap t.2 t.1.ipFamilyMap)
    (htodo : ∀ e ∈ rest, e.1 ∈ t.2.keys)
    (hpointed : ∀ k, t.1.ipMap.get k = (t.2.get k).map BwHistory.current ∨
      ∃ e ∈ rest, sdbmStringHash e.1 = sdbmStringHash k) :
    let t' := rest.foldl resetHistories t
    SameIps t'.1.ipMap t'.2 t'.1.ipFamilyMap ∧ Pointed t'.1.ipMap t'.2 := by
  induction rest generalizing t with
  | nil => exact ⟨hsame, fun k => of_or_todo_nil (hpointed k)⟩
  | cons e rest ih =>
    have hkey := htodo e mem_cons_self
    rw [foldl_cons]
    refine ih ((hsame.setIp hkey _).setHistory hkey _) (fun e' he' => ?_) fun k => ?_
    · simp only [resetHistories]
      rw [t.2.keys_set_of_mem _ hkey]
      exact htodo e' (mem_cons_of_mem e he')
    · simp only [resetHistories, HashedMap.get_set]
      split_ifs with hhash
      · exact .inl rfl
      · exact or_todo_tail (hpointed k) hhash

theorem pointed_or_todo {ipMap : StringMap Cell} {histories : StringMap BwHistory}
    (hips : ipMap.keys = histories.keys) (k : String) :
    ipMap.get k = (histories.get k).map BwHistory.current ∨
      ∃ e ∈ histories.entries, sdbmStringHash e.1 = sdbmStringHash k := by
  cases hget : histories.get k with
  | none =>
    left
    have hsome := HashedMap.get_isSome_congr hips k
    rw [hget, Option.isSome_none, Option.isSome_eq_false_iff, Option.isNone_iff_eq_none] at hsome
    exact hsome
  | some h =>
    obtain ⟨k', hk', hmem⟩ := histories.exists_mem_of_get hget
    exact .inr ⟨(k', h), hmem, hk'⟩

namespace IdUnit

variable {u : IdUnit} {now : ℤ}

theorem Mapped.joined (h : u.Mapped) : u.Joined := by
  obtain ⟨histories, hmap, hsame, -⟩ := h
  exact ⟨histories, hmap, hsame⟩

/-- Closing an interval leaves the same addresses in all maps. -/
theorem Joined.closeInterval {histories : StringMap BwHistory}
    (hsame : SameIps u.maps.ipMap histories u.maps.ipFamilyMap) (now : ℤ) :
    (closeInterval u histories now).Joined ∧
      ((closeInterval u histories now).info.nextReset ≥ now →
        (closeInterval u histories now).Mapped) := by
  have hstart : Resetting u.maps.ipFamilyMap histories.entries
      ⟨u.maps.ipMap, histories, u.maps.cells, HashedMap.empty⟩ := by
    refine ⟨hsame, fun e he => mem_map_of_mem he, fun k => ?_⟩
    rcases pointed_or_todo hsame.ips k with hpoint | htodo
    · exact .inl (.inl hpoint)
    · exact .inr htodo
  have hend := hstart.foldl u.info u.info.previousReset u.info.nextReset
  unfold Bandwidth.closeInterval
  generalize histories.entries.foldl (doReset u.info u.info.previousReset u.info.nextReset)
    ⟨u.maps.ipMap, histories, u.maps.cells, HashedMap.empty⟩ = s at hend ⊢
  by_cases hlast : getNextResetTime u.info u.info.nextReset u.info.nextReset ≥ now
  · have hscheduled : ∀ k, s.ipMap.get k = (s.histories.get k).map BwHistory.current ∨
        ∃ e ∈ s.deleteIps.entries, sdbmStringHash e.1 = sdbmStringHash k := by
      intro k
      rcases of_or_todo_nil (hend.pointed k) with hpoint | hdelete
      · exact .inl hpoint
      · obtain ⟨c, hc⟩ := Option.isSome_iff_exists.1 hdelete
        obtain ⟨k', hk', hmem⟩ := s.deleteIps.exists_mem_of_get hc
        exact .inr ⟨(k', c), hmem, hk'⟩
    obtain ⟨hsame', hpointed'⟩ := @foldl_clearIps_pointed _ s.deleteIps.entries
      ({ u.maps with ipMap := s.ipMap, cells := s.cells }, s.histories) hend.same hscheduled
    simp only [if_pos hlast]
    exact ⟨⟨_, rfl, hsame'⟩, fun _ => ⟨_, rfl, hsame', hpointed'⟩⟩
  · simp only [if_neg hlast]
    exact ⟨⟨_, rfl, hend.same⟩, fun hge => absurd hge hlast⟩

theorem Joined.closeIntervals (hjoined : u.Joined) (hmapped : now < u.info.nextReset → u.Mapped)
    (n : ℕ) :
    (closeIntervals now n u).Joined ∧
      (now < (closeIntervals now n u).info.nextReset → (closeIntervals now n u).Mapped) := by
  induction n generalizing u with
  | zero => exact ⟨hjoined, hmapped⟩
  | succ n ih =>
    obtain ⟨histories, hmap, hsame⟩ := hjoined
    simp only [Bandwidth.closeIntervals, hmap]
    split_ifs with hdue
    · obtain ⟨hjoined', hmapped'⟩ := Joined.closeInterval hsame now
      exact ih hjoined' fun hlt => hmapped' hlt.le
    · exact ⟨⟨histories, hmap, hsame⟩, hmapped⟩

theorem Joined.wipeHistories (hjoined : u.Joined) (hmapped : now < u.info.nextReset → u.Mapped) :
    (wipeHistories u now).Mapped := by
  obtain ⟨histories, hmap, hsame⟩ := hjoined
  simp only [Bandwidth.wipeHistories, hmap]
  split_ifs with hdue
  · obtain ⟨hsame', hpointed'⟩ := @foldl_resetHistories_pointed _ histories.entries
      (u.maps, histories) hsame (fun e he => mem_map_of_mem he) (pointed_or_todo hsame.ips)
    exact ⟨_, rfl, hsame', hpointed'⟩
  · exact hmapped (not_le.1 hdue)

theorem Mapped.handleIntervalReset (h : u.Mapped) (hsaves : 0 < u.info.numIntervalsToSave)
    (now : ℤ) :
    (handleIntervalReset now u).Mapped ∧ (handleIntervalReset now u).CombinedSet := by
  obtain ⟨hjoined, hmapped⟩ := h.joined.closeIntervals (fun _ => h) u.info.numIntervalsToSave
  have hwiped := hjoined.wipeHistories hmapped
  have hsome : u.maps.ipHistoryMap.isNone = false := by
    obtain ⟨histories, hmap, -⟩ := h
    rw [hmap]
    rfl
  rw [Bandwidth.handleIntervalReset, if_neg hsaves.ne', if_neg (by simp [hsome])]
  have hset := combinedSet_setCombinedBw
    (Bandwidth.wipeHistories (Bandwidth.closeIntervals now u.info.numIntervalsToSave u) now)
  exact ⟨hwiped, hset.info, hset.other⟩

end IdUnit

end Bandwidth

end Gargoyle
