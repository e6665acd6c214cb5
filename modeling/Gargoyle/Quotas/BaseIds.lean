import Gargoyle.Data.HashedMap
import Gargoyle.Data.Replace
import Gargoyle.Data.Signed
import Gargoyle.Data.WhileLoop
import Gargoyle.Timerange.Text

/-!
# Base ids of quotas

`restore_quotas` gives an id to each quota that has none, from the first address
of the quota. While the id is taken, a postfix is put behind the address. The
postfix is made from a counter that stays at zero, so that there is only one of
them: a third quota for an address is asked for an id for ever.
-/

namespace Gargoyle

namespace Quotas

open Replace Signed Timerange

/-- `sdbm_string_hash`, for an `unsigned long` of `bits` bits. -/
def sdbmStringHash (bits : ℕ) (key : List Char) : ℕ :=
  key.foldl (fun h c => (c.toNat + h * 2 ^ 6 + h * 2 ^ 16 - h) % 2 ^ bits) 0

abbrev BaseIds (bits : ℕ) := HashedMap (sdbmStringHash bits) Char

def firstIp (ip : List Char) : Option (List Char) :=
  (splitOnSeparators ip [',', ' ', '\t'] (-1) false).head?.map (replaceAll ['/'] ['_'])

def nextPostfix (nextPostfixCount : ℕ) : List Char :=
  if nextPostfixCount > 25 then ['_', Char.ofNat ((65 + nextPostfixCount) % 256)]
  else '_' :: 'Z' :: printSigned ((nextPostfixCount : ℤ) - 25)

structure IdSearch where
  quotaBaseId : List Char
  nextPostfixCount : ℕ

def IdSearch.next (first : List Char) (s : IdSearch) : Option IdSearch :=
  some { s with quotaBaseId := first ++ nextPostfix s.nextPostfixCount }

variable {bits : ℕ}

def IdSearch.Taken (defined : BaseIds bits) (s : IdSearch) : Prop :=
  defined.get s.quotaBaseId ≠ none

instance (defined : BaseIds bits) : DecidablePred (IdSearch.Taken defined) :=
  fun _ => inferInstanceAs (Decidable (_ ≠ none))

/-- The loop for the id of a quota, in at most `rounds` rounds. -/
def searchId (rounds : ℕ) (defined : BaseIds bits) (first : List Char) : Option IdSearch :=
  whileLoop (IdSearch.Taken defined) (IdSearch.next first) rounds ⟨first, 0⟩

def defineId (rounds : ℕ) (defined : BaseIds bits) (ip : List Char) :
    Option (List Char × BaseIds bits) :=
  (firstIp ip).bind fun first =>
    (searchId rounds defined first).map fun s => (s.quotaBaseId, defined.set s.quotaBaseId 'D')

def defineIds (rounds : ℕ) : BaseIds bits → List (List Char) → Option (List (List Char))
  | _, [] => some []
  | defined, ip :: ips =>
    (defineId rounds defined ip).bind fun r => (defineIds rounds r.2 ips).map (r.1 :: ·)

def definedBaseIds (bits : ℕ) (ids : List (List Char)) : BaseIds bits :=
  ids.foldl (fun m id => m.set id 'D') HashedMap.empty

/-! ## The loop -/

def onlyPostfix : List Char := ['_', 'Z', '-', '2', '5']

theorem next_eq (first id : List Char) :
    IdSearch.next first ⟨id, 0⟩ = some ⟨first ++ onlyPostfix, 0⟩ := by
  have hpostfix : nextPostfix 0 = onlyPostfix := by decide
  rw [IdSearch.next, hpostfix]

def Free (bits : ℕ) (before : List (List Char)) (id : List Char) : Prop :=
  ∀ x ∈ before, sdbmStringHash bits x ≠ sdbmStringHash bits id

instance (before : List (List Char)) (id : List Char) : Decidable (Free bits before id) :=
  inferInstanceAs (Decidable (∀ x ∈ before, _))

variable {before ids ips : List (List Char)} {ip first id : List Char}

theorem Free.notMem (h : Free bits before id) : id ∉ before := fun hmem => h id hmem rfl

theorem free_append : Free bits (before ++ ids) id ↔ Free bits before id ∧ Free bits ids id :=
  List.forall_mem_append

theorem definedBaseIds_append_singleton (before : List (List Char)) (id : List Char) :
    definedBaseIds bits (before ++ [id]) = (definedBaseIds bits before).set id 'D' := by
  rw [definedBaseIds, List.foldl_append]
  rfl

theorem get_definedBaseIds (before : List (List Char)) (id : List Char) :
    (definedBaseIds bits before).get id = none ↔ Free bits before id := by
  induction before using List.reverseRecOn with
  | nil => exact ⟨fun _ _ hx => absurd hx List.not_mem_nil, fun _ => rfl⟩
  | append_singleton before x ih =>
    rw [definedBaseIds_append_singleton, HashedMap.get_set, free_append]
    by_cases hhash : sdbmStringHash bits x = sdbmStringHash bits id
    · simp [hhash, Free]
    · simp [hhash, ih, Free]

theorem taken_iff (before : List (List Char)) (id : List Char) (n : ℕ) :
    IdSearch.Taken (definedBaseIds bits before) ⟨id, n⟩ ↔ ¬ Free bits before id :=
  not_congr (get_definedBaseIds before id)

def newId (bits : ℕ) (before : List (List Char)) (first : List Char) : List Char :=
  if Free bits before first then first else first ++ onlyPostfix

theorem searchId_add_two (n : ℕ) (before : List (List Char)) (first : List Char) :
    searchId (n + 2) (definedBaseIds bits before) first =
      if Free bits before (newId bits before first) then some ⟨newId bits before first, 0⟩
      else none := by
  unfold searchId newId
  by_cases hfree : Free bits before first
  · simp only [hfree, if_true]
    exact whileLoop_of_not (mt (taken_iff ..).1 (not_not.2 hfree)) _
  · rw [if_neg hfree, whileLoop_of_guard ((taken_iff ..).2 hfree), next_eq,
      Option.bind_some]
    split_ifs with hpostfix
    · exact whileLoop_of_not (mt (taken_iff ..).1 (not_not.2 hpostfix)) _
    · exact whileLoop_of_stuck ((taken_iff ..).2 hpostfix) (next_eq first _) _

/-! ## A whole configuration -/

def CanDefine (bits : ℕ) (before : List (List Char)) (ip : List Char) : Prop :=
  ∃ first, firstIp ip = some first ∧
    (Free bits before first ∨ Free bits before (first ++ onlyPostfix))

def EachCanDefine (bits : ℕ) : List (List Char) → List (List Char) → Prop
  | _, [] => True
  | before, ip :: ips => CanDefine bits before ip ∧
      ∀ first, firstIp ip = some first → EachCanDefine bits (before ++ [newId bits before first]) ips

theorem free_newId_iff : Free bits before (newId bits before first) ↔
    Free bits before first ∨ Free bits before (first ++ onlyPostfix) := by
  unfold newId
  split_ifs with hfree
  · exact ⟨Or.inl, fun _ => hfree⟩
  · exact ⟨Or.inr, fun h => h.resolve_left hfree⟩

theorem defineId_add_two (n : ℕ) (hfirst : firstIp ip = some first) :
    defineId (n + 2) (definedBaseIds bits before) ip =
      if Free bits before (newId bits before first) then
        some (newId bits before first, definedBaseIds bits (before ++ [newId bits before first]))
      else none := by
  rw [defineId, hfirst, Option.bind_some, searchId_add_two, definedBaseIds_append_singleton]
  split_ifs <;> rfl

theorem defineIds_mono {n m : ℕ} (hle : n ≤ m) {defined : BaseIds bits}
    (h : defineIds n defined ips = some ids) : defineIds m defined ips = some ids := by
  induction ips generalizing defined ids with
  | nil => exact h
  | cons ip ips ih =>
    rw [defineIds, Option.bind_eq_some_iff] at h
    obtain ⟨r, hr, hrest⟩ := h
    obtain ⟨first, hfirst, hsearch⟩ := Option.bind_eq_some_iff.1 hr
    obtain ⟨s, hs, rfl⟩ := Option.map_eq_some_iff.1 hsearch
    obtain ⟨rest, hlater, rfl⟩ := Option.map_eq_some_iff.1 hrest
    have hmore : searchId m defined first = some s := whileLoop_mono (fun h => h) hle hs
    rw [defineIds, defineId, hfirst, Option.bind_some, hmore, Option.map_some, Option.bind_some,
      ih hlater, Option.map_some]

theorem defineIds_fresh {n : ℕ}
    (h : defineIds (n + 2) (definedBaseIds bits before) ips = some ids) :
    EachCanDefine bits before ips ∧ (∀ id ∈ ids, id ∉ before) ∧ ids.Nodup := by
  induction ips generalizing before ids with
  | nil =>
    obtain rfl := Option.some.inj h
    exact ⟨trivial, by simp, List.nodup_nil⟩
  | cons ip ips ih =>
    rw [defineIds, Option.bind_eq_some_iff] at h
    obtain ⟨r, hr, hrest⟩ := h
    obtain ⟨first, hfirst, -⟩ := Option.bind_eq_some_iff.1 hr
    rw [defineId_add_two n hfirst] at hr
    split_ifs at hr with hfree
    obtain rfl := Option.some.inj hr
    obtain ⟨rest, hids, rfl⟩ := Option.map_eq_some_iff.1 hrest
    obtain ⟨hlater, hnew, hnodup⟩ := ih hids
    refine ⟨⟨⟨first, hfirst, free_newId_iff.1 hfree⟩, fun first' hfirst' => ?_⟩, ?_, ?_⟩
    · obtain rfl : first = first' := Option.some.inj (hfirst.symm.trans hfirst')
      exact hlater
    · refine List.forall_mem_cons.2 ⟨hfree.notMem, fun id hid hmem => ?_⟩
      exact hnew id hid (List.mem_append_left _ hmem)
    · refine List.nodup_cons.2 ⟨fun hmem => ?_, hnodup⟩
      exact hnew _ hmem (List.mem_append_right _ (List.mem_singleton.2 rfl))

theorem defineIds_of_eachCanDefine (h : EachCanDefine bits before ips) :
    ∃ ids, defineIds 2 (definedBaseIds bits before) ips = some ids := by
  induction ips generalizing before with
  | nil => exact ⟨[], rfl⟩
  | cons ip ips ih =>
    obtain ⟨⟨first, hfirst, hfree⟩, hlater⟩ := h
    obtain ⟨ids, hids⟩ := ih (hlater first hfirst)
    refine ⟨newId bits before first :: ids, ?_⟩
    rw [defineIds, defineId_add_two 0 hfirst, if_pos (free_newId_iff.2 hfree), Option.bind_some,
      hids, Option.map_some]

/-- The quotas get ids that are different from each other and from all ids before exactly if each
quota finds its address, or its address with the one postfix, free when it is its turn. -/
theorem quotaBaseIds_fresh_iff (bits : ℕ) (before ips : List (List Char)) :
    (∃ rounds ids, defineIds rounds (definedBaseIds bits before) ips = some ids ∧
      (∀ id ∈ ids, id ∉ before) ∧ ids.Nodup) ↔ EachCanDefine bits before ips := by
  constructor
  · rintro ⟨rounds, ids, hids, -⟩
    exact (defineIds_fresh (defineIds_mono (Nat.le_add_right rounds 2) hids)).1
  · intro h
    obtain ⟨ids, hids⟩ := defineIds_of_eachCanDefine h
    exact ⟨2, ids, hids, (defineIds_fresh hids).2⟩

theorem not_eachCanDefine_replicate (hips : ips = List.replicate 3 ip) :
    ¬ EachCanDefine bits before ips := by
  subst hips
  rintro ⟨⟨first, hfirst, -⟩, hsecond⟩
  obtain ⟨⟨_, heq, hfree⟩, hthird⟩ := hsecond first hfirst
  obtain rfl := Option.some.inj (hfirst.symm.trans heq)
  obtain ⟨⟨_, heq', hfree'⟩, -⟩ := hthird first hfirst
  obtain rfl := Option.some.inj (hfirst.symm.trans heq')
  have hself : ∀ {l : List (List Char)} {id : List Char}, id ∈ l → ¬ Free bits l id :=
    fun hmem h => h.notMem hmem
  by_cases hnew : Free bits before first
  · -- the first quota has the address, and so the second one has the postfix
    have hone : newId bits before first = first := if_pos hnew
    have htwo : newId bits (before ++ [first]) first = first ++ onlyPostfix :=
      if_neg (hself (by simp))
    rw [hone, htwo] at hfree'
    rcases hfree' with h | h <;> exact hself (by simp) h
  · have hone : newId bits before first = first ++ onlyPostfix := if_neg hnew
    rw [hone] at hfree
    rcases hfree with h | h
    · exact hnew (free_append.1 h).1
    · exact hself (by simp) h

/-- Three quotas of one host do not get their ids. -/
theorem third_quota_without_id :
    firstIp "192.168.1.5".toList = some "192.168.1.5".toList ∧
      ¬ ∃ rounds ids, defineIds rounds (definedBaseIds 32 [])
        (List.replicate 3 "192.168.1.5".toList) = some ids ∧
        (∀ id ∈ ids, id ∉ ([] : List (List Char))) ∧ ids.Nodup := by
  refine ⟨by decide, ?_⟩
  rintro ⟨rounds, ids, hids, -⟩
  exact not_eachCanDefine_replicate rfl
    (defineIds_fresh (defineIds_mono (Nat.le_add_right rounds 2) hids)).1

end Quotas

end Gargoyle
