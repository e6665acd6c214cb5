import Gargoyle.Ddns.Daemon
import Gargoyle.EricsTools.QueueRun

/-!
# No service is lost between the queues

Each configured service is in one of the two queues of the daemon, once, before and after every step,
as long as no request names a service that waits in the queue of requests already. A request that
does makes the daemon follow a null pointer, or end (`run_balanced_iff`).
-/

namespace Gargoyle

open List

namespace Ddns

open Bandwidth EricsTools

/-! ## Queues as lists -/

section Lists

variable {V : Type} {es : List (PriorityQueueNode V)} {e : PriorityQueueNode V}

theorem perm_without (hnodup : (es.map PriorityQueueNode.id).Nodup) (he : e ∈ es) :
    (es.map PriorityQueueNode.id).Perm
      (e.id :: (StableQueue.without es e.id).map PriorityQueueNode.id) := by
  have hfilter : (StableQueue.without es e.id).map PriorityQueueNode.id =
      (es.map PriorityQueueNode.id).erase e.id := by
    rw [hnodup.erase_eq_filter, filter_map, StableQueue.without]
    congr 1
    refine List.filter_congr fun a _ => ?_
    simp [bne]
    rfl
  rw [hfilter]
  exact perm_cons_erase (mem_map_of_mem he)

theorem find_of_mem (hnodup : (es.map PriorityQueueNode.id).Nodup) (he : e ∈ es) :
    StableQueue.find es e.id = some e := by
  cases hfind : StableQueue.find es e.id with
  | none =>
    rw [StableQueue.find, find?_eq_none] at hfind
    exact absurd (by simp) (hfind e he)
  | some e' =>
    have hmem := mem_of_find?_eq_some hfind
    have hid : e'.id = e.id := by simpa using find?_some hfind
    rw [inj_on_of_nodup_map hnodup hmem he hid]

theorem next_mem (h : StableQueue.next es = some e) : e ∈ es := argmin_mem h

theorem next_eq_none_iff : StableQueue.next es = none ↔ es = [] := argmin_eq_none

end Lists

section Queues

variable [Kernel]

theorem removePriorityQueueElementWithId_congr {V : Type} (pq : PriorityQueue V) {id id' : String}
    (h : sdbmStringHash id = sdbmStringHash id') :
    pq.removePriorityQueueElementWithId id = pq.removePriorityQueueElementWithId id' := by
  have hids : pq.ids.removeStringMapElement id = pq.ids.removeStringMapElement id' := by
    simp only [TreeMap.StringMap.removeStringMapElement, h]
  rw [PriorityQueue.removePriorityQueueElementWithId,
    PriorityQueue.removePriorityQueueElementWithId, PriorityQueue.removePriorityQueueNodeWithId,
    PriorityQueue.removePriorityQueueNodeWithId, hids]

theorem getNode_eq_none_iff {V : Type} {pq : PriorityQueue V} {es : List (PriorityQueueNode V)}
    (h : Represents pq es) (id : String) :
    pq.getPriorityQueueNodeWithId id = some none ↔
      ∀ e ∈ es, sdbmStringHash e.id ≠ sdbmStringHash id := by
  obtain ⟨gs, rfl, hslots⟩ := h
  constructor
  · intro hget e he hhash
    obtain ⟨g, hg, rfl⟩ := List.mem_map.1 he
    obtain ⟨l, -, hfound⟩ := hslots.holds.found g hg
    have hfound' : pq.ids.getStringMapElement id = some ⟨l, g.lnode⟩ := by
      rw [← hfound, TreeMap.StringMap.getStringMapElement, TreeMap.StringMap.getStringMapElement,
        hhash]
    rw [PriorityQueue.getPriorityQueueNodeWithId, hfound'] at hget
    simp [hslots.holds.value g hg] at hget
  · intro hall
    have habsent := hslots.holds.absent id fun g hg => hall g.elem (mem_map_of_mem hg)
    rw [PriorityQueue.getPriorityQueueNodeWithId, habsent]

namespace Daemon

namespace Configs

variable {configs : Configs} {a b : String}

theorem eq_of_hash_eq (ha : a ∈ configs.services.keys) (hb : b ∈ configs.services.keys)
    (h : sdbmStringHash a = sdbmStringHash b) : a = b := by
  obtain ⟨v, hv⟩ := (configs.services.mem_keys a).1 ha
  obtain ⟨w, hw⟩ := (configs.services.mem_keys b).1 hb
  exact congrArg Prod.fst (HashedMap.eq_of_hash_eq sdbmStringHash configs.services.sorted hv hw h)

theorem name_of_get (configs : Configs) {service : Service sdbmStringHash}
    (ha : a ∈ configs.services.keys) (hget : configs.services.get a = some service) :
    service.name = a := by
  obtain ⟨key, hhash, hmem⟩ := configs.services.exists_mem_of_get hget
  have hkey : key ∈ configs.services.keys := (configs.services.mem_keys key).2 ⟨_, hmem⟩
  rw [eq_of_hash_eq ha hkey hhash.symm]
  exact configs.name_eq (key, service) hmem

theorem map_name (configs : Configs) :
    configs.services.entries.map (fun e => e.2.name) = configs.services.keys :=
  map_congr_left configs.name_eq

end Configs

variable {configs : Configs} {s : State} {uq rq : List (PriorityQueueNode UpdateNode)}

structure Balanced (configs : Configs) (s : State) (uq rq : List (PriorityQueueNode UpdateNode)) :
    Prop where
  update : Represents s.updateQueue uq
  request : Represents s.requestQueue rq
  perm : ((uq ++ rq).map PriorityQueueNode.id).Perm configs.services.keys
  named : ∀ e ∈ uq ++ rq, e.value.serviceName = e.id

def State.Requested (s : State) (name : String) : Prop :=
  s.requestQueue.getPriorityQueueNodeWithId name ≠ some none

instance (s : State) (name : String) : Decidable (s.Requested name) :=
  inferInstanceAs (Decidable (¬_))

/-- The request fits its message and names no service that is asked for already. A request for all
services names each of them, and one for a service that is not configured names none. -/
def Grantable (configs : Configs) (s : State) (request : Request) : Prop :=
  fitsLine request.name = true ∧
    if request.name = updateAllRequestStr then ∀ name ∈ configs.services.keys, ¬s.Requested name
    else (configs.services.get request.name).isSome → ¬s.Requested request.name

instance (configs : Configs) (s : State) (request : Request) :
    Decidable (Grantable configs s request) :=
  inferInstanceAs (Decidable (_ ∧ if request.name = updateAllRequestStr then
    ∀ name ∈ configs.services.keys, ¬s.Requested name else _ → _))

/-- The response to the request that is next fits its message. -/
def Answerable (s : State) : Prop :=
  ∀ e ∈ s.requestQueue.peekPriorityQueue.join, fitsLine e.value.serviceName = true

instance (s : State) : Decidable (Answerable s) :=
  inferInstanceAs (Decidable (∀ e ∈ s.requestQueue.peekPriorityQueue.join, _))

def GrantableAll (configs : Configs) : State → List Request → ℕ → Prop
  | _, [], _ => True
  | s, r :: rs, messageCount => Grantable configs s r ∧
      ∀ s', s.handle configs r messageCount = some s' →
        GrantableAll configs s' rs (messageCount + 1)

/-- Decides `GrantableAll` by handling the requests. -/
def decidableGrantableAll (configs : Configs) : (s : State) → (requests : List Request) →
    (messageCount : ℕ) → Decidable (GrantableAll configs s requests messageCount)
  | _, [], _ => .isTrue trivial
  | s, r :: rs, messageCount =>
    have : ∀ s', Decidable (GrantableAll configs s' rs (messageCount + 1)) :=
      fun s' => decidableGrantableAll configs s' rs (messageCount + 1)
    inferInstanceAs (Decidable (Grantable configs s r ∧ ∀ s' ∈ s.handle configs r messageCount,
      GrantableAll configs s' rs (messageCount + 1)))

instance (configs : Configs) (s : State) (requests : List Request) (messageCount : ℕ) :
    Decidable (GrantableAll configs s requests messageCount) :=
  decidableGrantableAll configs s requests messageCount

namespace Balanced

theorem nodup (h : Balanced configs s uq rq) : ((uq ++ rq).map PriorityQueueNode.id).Nodup :=
  h.perm.nodup_iff.2 configs.services.nodup_keys

theorem mem_keys (h : Balanced configs s uq rq) {e : PriorityQueueNode UpdateNode}
    (he : e ∈ uq ++ rq) : e.id ∈ configs.services.keys :=
  h.perm.mem_iff.1 (mem_map_of_mem he)

theorem nodup_update (h : Balanced configs s uq rq) : (uq.map PriorityQueueNode.id).Nodup := by
  have hnodup := h.nodup
  rw [map_append] at hnodup
  exact hnodup.of_append_left

theorem nodup_request (h : Balanced configs s uq rq) : (rq.map PriorityQueueNode.id).Nodup := by
  have hnodup := h.nodup
  rw [map_append] at hnodup
  exact hnodup.of_append_right

theorem distinct (h : Balanced configs s uq rq) {name : String}
    (hname : name ∈ configs.services.keys) {es : List (PriorityQueueNode UpdateNode)}
    (hes : ∀ e ∈ es, e ∈ uq ++ rq) : StableQueue.Distinct es name :=
  fun e he hhash => Configs.eq_of_hash_eq (h.mem_keys (hes e he)) hname hhash

theorem requested_iff (h : Balanced configs s uq rq) {name key : String}
    (hkey : key ∈ configs.services.keys) (hhash : sdbmStringHash name = sdbmStringHash key) :
    s.Requested name ↔ key ∈ rq.map PriorityQueueNode.id := by
  rw [State.Requested, ne_eq, getNode_eq_none_iff h.request]
  push Not
  constructor
  · rintro ⟨e, he, heq⟩
    have hid := Configs.eq_of_hash_eq (h.mem_keys (mem_append_right uq he)) hkey
      (heq.trans hhash)
    exact hid ▸ mem_map_of_mem he
  · intro hmem
    obtain ⟨e, he, rfl⟩ := List.mem_map.1 hmem
    exact ⟨e, he, hhash.symm⟩

theorem exists_update (h : Balanced configs s uq rq) {key : String}
    (hkey : key ∈ configs.services.keys) (hrq : key ∉ rq.map PriorityQueueNode.id) :
    ∃ e ∈ uq, e.id = key := by
  have hmem := h.perm.mem_iff.2 hkey
  rw [map_append, mem_append] at hmem
  exact List.mem_map.1 (hmem.resolve_right hrq)

theorem of_perm (h : Balanced configs s uq rq) {s' : State}
    {uq' rq' : List (PriorityQueueNode UpdateNode)} (hupdate : Represents s'.updateQueue uq')
    (hrequest : Represents s'.requestQueue rq')
    (hperm : ((uq' ++ rq').map PriorityQueueNode.id).Perm ((uq ++ rq).map PriorityQueueNode.id))
    (hnamed : ∀ e ∈ uq' ++ rq', e.value.serviceName = e.id) : Balanced configs s' uq' rq' :=
  ⟨hupdate, hrequest, hperm.trans h.perm, hnamed⟩

theorem congr (h : Balanced configs s uq rq) {s' : State} (hu : s'.updateQueue = s.updateQueue)
    (hr : s'.requestQueue = s.requestQueue) : Balanced configs s' uq rq :=
  ⟨hu ▸ h.update, hr ▸ h.request, h.perm, h.named⟩

/-! ## The update loop -/

omit [Kernel] in
theorem without_subset {V : Type} {es : List (PriorityQueueNode V)} {id : String}
    {e : PriorityQueueNode V} (he : e ∈ StableQueue.without es id) : e ∈ es :=
  mem_of_mem_filter he

theorem schedule {node : UpdateNode} (hupdate : Represents s.updateQueue uq)
    (hdistinct : StableQueue.Distinct uq node.serviceName)
    (habsent : ∀ e ∈ uq, e.id ≠ node.serviceName) (referenceTime : ℤ) :
    ∃ updateQueue, s.schedule referenceTime node = some { s with updateQueue := updateQueue } ∧
      Represents updateQueue (uq ++
        [⟨timePriority (node.nextTime - referenceTime), node.serviceName, node⟩]) := by
  obtain ⟨pq, hpush, hrepresents⟩ := hupdate.push
    (show StableQueue.Asked uq (.push (timePriority (node.nextTime - referenceTime))
      node.serviceName node) from ⟨hdistinct, habsent⟩)
  refine ⟨pq, ?_, hrepresents⟩
  rw [State.schedule, hpush]
  rfl

/-- An update is taken from the front of its queue. -/
theorem dequeue (h : Balanced configs s uq rq) {requested : Bool}
    {e : PriorityQueueNode UpdateNode}
    (hnext : StableQueue.next (if requested then rq else uq) = some e) :
    ∃ s' uq' rq', s.dequeue requested = some (s', e.value) ∧
      Represents s'.updateQueue uq' ∧ Represents s'.requestQueue rq' ∧
      ((uq ++ rq).map PriorityQueueNode.id).Perm
        (e.id :: (uq' ++ rq').map PriorityQueueNode.id) ∧
      (∀ a ∈ uq' ++ rq', a ∈ uq ++ rq) ∧
      rq' = (if requested then StableQueue.without rq e.id else rq) ∧
      s'.responses = s.responses := by
  cases requested with
  | true =>
    have hmem : e ∈ rq := next_mem hnext
    obtain ⟨pq, happly, hrepresents⟩ := h.request.apply
      (show StableQueue.Asked rq .shift from trivial) trivial
    have hshift : s.requestQueue.shiftPriorityQueue = some (pq, some e) := by
      simpa [PriorityQueue.apply, StableQueue.apply, show StableQueue.next rq = some e from hnext,
        Option.map_eq_some_iff] using happly
    have helements : (StableQueue.apply rq .shift).1 = StableQueue.without rq e.id := by
      simp [StableQueue.apply, show StableQueue.next rq = some e from hnext]
    refine ⟨{ s with requestQueue := pq }, uq, StableQueue.without rq e.id, ?_, h.update,
      helements ▸ hrepresents, ?_, ?_, rfl, rfl⟩
    · simp [State.dequeue, hshift]
    · rw [map_append, map_append]
      exact ((perm_without h.nodup_request hmem).append_left _).trans perm_middle
    · intro a ha
      rw [mem_append] at ha ⊢
      exact ha.imp id without_subset
  | false =>
    have hmem : e ∈ uq := next_mem hnext
    obtain ⟨pq, happly, hrepresents⟩ := h.update.apply
      (show StableQueue.Asked uq .shift from trivial) trivial
    have hshift : s.updateQueue.shiftPriorityQueue = some (pq, some e) := by
      simpa [PriorityQueue.apply, StableQueue.apply, show StableQueue.next uq = some e from hnext,
        Option.map_eq_some_iff] using happly
    have helements : (StableQueue.apply uq .shift).1 = StableQueue.without uq e.id := by
      simp [StableQueue.apply, show StableQueue.next uq = some e from hnext]
    refine ⟨{ s with updateQueue := pq }, StableQueue.without uq e.id, rq, ?_,
      helements ▸ hrepresents, h.request, ?_, ?_, rfl, rfl⟩
    · simp [State.dequeue, hshift]
    · rw [map_append, map_append]
      exact (perm_without h.nodup_update hmem).append_right _
    · intro a ha
      rw [mem_append] at ha ⊢
      exact ha.imp without_subset id

/-- A round of the update loop puts back the node that it has taken. -/
theorem round (h : Balanced configs s uq rq) (providers : HashedMap sdbmStringHash Provider)
    (referenceTime : ℤ) (attempt : Attempt) {requested : Bool}
    {e : PriorityQueueNode UpdateNode}
    (hnext : StableQueue.next (if requested then rq else uq) = some e)
    (hfits : requested = true → fitsLine e.id = true) :
    ∃ s' uq' rq', s.round configs providers referenceTime requested attempt = some s' ∧
      s'.place = .updating false ∧ uq' ≠ [] ∧ Balanced configs s' uq' rq' ∧
      rq' = (if requested then StableQueue.without rq e.id else rq) ∧
      ∃ service memory node, s'.responses = s.responses ++ if requested then
        [⟨(performUpdate providers service memory node attempt).2.2.status % 2 ^ 8, .name e.id⟩]
      else [] := by
  obtain ⟨s₁, uq₁, rq₁, hdequeue, hupdate, hrequest, hperm, hsubset, hrq₁, hresponses⟩ :=
    h.dequeue hnext
  have hmem : e ∈ uq ++ rq := by
    have hin := next_mem hnext
    cases requested with
    | true => exact mem_append_right uq hin
    | false => exact mem_append_left rq hin
  have hname : e.value.serviceName = e.id := h.named e hmem
  have hkey : e.id ∈ configs.services.keys := h.mem_keys hmem
  obtain ⟨service, hservice⟩ :=
    Option.isSome_iff_exists.1 (configs.services.get_isSome_of_mem_keys hkey)
  have hservicesName : service.name = e.id := configs.name_of_get hkey hservice
  have hnotMem : e.id ∉ (uq₁ ++ rq₁).map PriorityQueueNode.id :=
    (List.nodup_cons.1 (hperm.nodup_iff.1 h.nodup)).1
  obtain ⟨done, hdone⟩ : ∃ done, done =
      performUpdate providers service s₁.memory e.value attempt := ⟨_, rfl⟩
  have hserviceName : done.2.1.serviceName = e.id := by
    rw [hdone]
    exact hname
  obtain ⟨s₂, hs₂⟩ : ∃ s₂ : State, s₂ =
      (if requested then
        State.respond { s₁ with memory := done.1, currentTime := attempt.currentTime }
          ⟨done.2.2.status % 2 ^ 8, .name service.name⟩
      else { s₁ with memory := done.1, currentTime := attempt.currentTime }) := ⟨_, rfl⟩
  have hqueues : s₂.updateQueue = s₁.updateQueue ∧ s₂.requestQueue = s₁.requestQueue := by
    rw [hs₂]
    split_ifs
    · exact ⟨rfl, rfl⟩
    · exact ⟨rfl, rfl⟩
  have hdistinct : StableQueue.Distinct uq₁ done.2.1.serviceName :=
    hserviceName ▸ h.distinct hkey fun a ha => hsubset a (mem_append_left rq₁ ha)
  have habsent : ∀ a ∈ uq₁, a.id ≠ done.2.1.serviceName := by
    intro a ha heq
    rw [hserviceName] at heq
    exact hnotMem (heq ▸ mem_map_of_mem (mem_append_left rq₁ ha))
  obtain ⟨pq, hschedule, hrepresents⟩ := schedule (s := s₂) (hqueues.1.symm ▸ hupdate) hdistinct
    habsent referenceTime
  have hanswer : (if requested then State.respondLine
        { s₁ with memory := done.1, currentTime := attempt.currentTime }
        (done.2.2.status % 2 ^ 8) service.name
      else some { s₁ with memory := done.1, currentTime := attempt.currentTime }) = some s₂ := by
    rw [hs₂]
    split_ifs with hrequested
    · rw [State.respondLine, hservicesName, if_pos (hfits hrequested)]
    · rfl
  refine ⟨{ s₂ with updateQueue := pq, place := .updating false }, _, rq₁, ?_, rfl, ?_,
    h.of_perm hrepresents (hqueues.2.symm ▸ hrequest) ?_ ?_, hrq₁, service, s₁.memory, e.value, ?_⟩
  · simp only [State.round, hdequeue, Option.bind_eq_bind, Option.bind_some, hname, hservice,
      ← hdone, hanswer, hschedule]
  · simp
  · refine List.Perm.trans ?_ hperm.symm
    rw [append_assoc, map_append, singleton_append, map_cons, map_append,
      hserviceName]
    exact perm_middle
  · intro a ha
    rw [append_assoc, singleton_append, mem_append, mem_cons] at ha
    obtain ha | rfl | ha := ha
    · exact h.named a (hsubset a (mem_append_left rq₁ ha))
    · rfl
    · exact h.named a (hsubset a (mem_append_right uq₁ ha))
  · rw [← hdone, ← hservicesName, ← hresponses]
    show s₂.responses = _
    rw [hs₂]
    split_ifs
    · rfl
    · exact (List.append_nil _).symm

/-- A response that does not fit its message ends the daemon. -/
theorem round_of_not_fits (h : Balanced configs s uq rq)
    (providers : HashedMap sdbmStringHash Provider) (referenceTime : ℤ) (attempt : Attempt)
    {e : PriorityQueueNode UpdateNode} (hnext : StableQueue.next rq = some e)
    (hfits : fitsLine e.id = false) :
    s.round configs providers referenceTime true attempt = none := by
  obtain ⟨s₁, uq₁, rq₁, hdequeue, -⟩ :=
    h.dequeue (show StableQueue.next (if true then rq else uq) = some e from hnext)
  have hmem : e ∈ uq ++ rq := mem_append_right uq (next_mem hnext)
  have hkey : e.id ∈ configs.services.keys := h.mem_keys hmem
  obtain ⟨service, hservice⟩ :=
    Option.isSome_iff_exists.1 (configs.services.get_isSome_of_mem_keys hkey)
  have hname : fitsLine service.name = false := by rw [configs.name_of_get hkey hservice, hfits]
  simp only [State.round, hdequeue, Option.bind_eq_bind, Option.bind_some, h.named e hmem,
    hservice, if_true, State.respondLine, hname, Bool.false_eq_true, if_false, Option.bind_none]

theorem answerable_iff (h : Balanced configs s uq rq) :
    Answerable s ↔ ∀ e, StableQueue.next rq = some e → fitsLine e.id = true := by
  rw [Answerable, h.request.peek]
  refine forall₂_congr fun e he => ?_
  rw [h.named e (mem_append_right uq (next_mem he))]

/-- There is an update to take, or none at all. -/
theorem nextRound (h : Balanced configs s uq rq) {first : Bool}
    (hne : first = true ∨ uq ≠ []) (hkeys : configs.services.keys ≠ []) :
    s.nextRound first = some none ∨ ∃ requested e, s.nextRound first = some (some requested) ∧
      StableQueue.next (if requested then rq else uq) = some e := by
  have hqueue : uq ≠ [] ∨ rq ≠ [] := by
    by_contra hnot
    push Not at hnot
    obtain ⟨rfl, rfl⟩ := hnot
    exact hkeys (List.perm_nil.1 h.perm.symm)
  rw [State.nextRound, h.request.peek, h.update.peek]
  simp only [Option.bind_eq_bind, Option.bind_some]
  cases hrq : StableQueue.next rq with
  | some e =>
    cases first with
    | true =>
      refine .inr ⟨true, e, by simp, hrq⟩
    | false =>
      cases huq : StableQueue.next uq with
      | none => exact absurd (next_eq_none_iff.1 huq) (hne.resolve_left (by decide))
      | some a => exact .inr ⟨true, e, by simp, hrq⟩
  | none =>
    cases huq : StableQueue.next uq with
    | none =>
      exact absurd (next_eq_none_iff.1 huq)
        (hqueue.resolve_right (not_not.2 (next_eq_none_iff.1 hrq)))
    | some a =>
      by_cases htime : s.currentTime ≥ a.value.nextTime
      · exact .inr ⟨false, a, by simp [htime], huq⟩
      · exact .inl (by simp [htime])

/-! ## Requests -/

/-- A service is moved from the updates to the requests. -/
theorem moveToRequests (h : Balanced configs s uq rq) {name : String}
    {e : PriorityQueueNode UpdateNode} (he : e ∈ uq)
    (hhash : sdbmStringHash name = sdbmStringHash e.id) (forced : Bool) (messageCount : ℕ) :
    ∃ s' node, s.moveToRequests name forced messageCount = some s' ∧ s'.place = s.place ∧
      s'.responses = s.responses ∧
      Balanced configs s' (StableQueue.without uq e.id) (rq ++ [⟨messageCount, e.id, node⟩]) := by
  have hmem : e ∈ uq ++ rq := mem_append_left rq he
  have hkey := h.mem_keys hmem
  have hname := h.named e hmem
  have hrq : ∀ a ∈ rq, a.id ≠ e.id := by
    intro a ha heq
    have hnodup := h.nodup
    rw [map_append, nodup_append] at hnodup
    exact hnodup.2.2 e.id (mem_map_of_mem he) a.id (mem_map_of_mem ha) heq.symm
  obtain ⟨uq', v, priority, hremove, hanswer, hupdate⟩ := h.update.remove
    (h.distinct hkey fun a ha => mem_append_left rq ha)
  rw [find_of_mem h.nodup_update he, StableQueue.answer] at hanswer
  obtain ⟨rfl, -⟩ := QueueAnswer.value.inj hanswer
  obtain ⟨node, hnode⟩ : ∃ node : UpdateNode, node = { e.value with
    nextTime := s.currentTime
    lastFullUpdate := if forced then 0 else e.value.lastFullUpdate } := ⟨_, rfl⟩
  have hnodeName : node.serviceName = e.id := by
    rw [hnode]
    exact hname
  obtain ⟨rq', hpush, hrequest⟩ := h.request.push
    (show StableQueue.Asked rq (.push messageCount e.id node) from
      ⟨h.distinct hkey fun a ha => mem_append_right uq ha, hrq⟩)
  refine ⟨{ s with updateQueue := uq', requestQueue := rq' }, node, ?_, rfl, rfl,
    h.of_perm hupdate hrequest ?_ ?_⟩
  · rw [State.moveToRequests, removePriorityQueueElementWithId_congr _ hhash, hremove]
    rw [hnode, ← hname] at hpush
    rw [Option.bind_eq_bind, Option.bind_some]
    refine Option.bind_eq_some_iff.2 ⟨e.value, rfl, ?_⟩
    exact Option.bind_eq_some_iff.2 ⟨rq', hpush, rfl⟩
  · have hcons := perm_without h.nodup_update he
    rw [map_append, map_append, map_append, ← append_assoc]
    refine List.Perm.trans ?_ (hcons.symm.append_right _)
    exact perm_append_comm
  · intro a ha
    rw [mem_append, mem_append, mem_singleton] at ha
    obtain ha | ha | rfl := ha
    · exact h.named a (mem_append_left rq (without_subset ha))
    · exact h.named a (mem_append_right uq ha)
    · exact hnodeName

theorem moveToRequests_of_requested (h : Balanced configs s uq rq) {name key : String}
    (hkey : key ∈ configs.services.keys) (hrq : key ∈ rq.map PriorityQueueNode.id)
    (hhash : sdbmStringHash name = sdbmStringHash key) (forced : Bool) (messageCount : ℕ) :
    s.moveToRequests name forced messageCount = none := by
  have huq : ∀ a ∈ uq, a.id ≠ key := by
    intro a ha heq
    have hnodup := h.nodup
    rw [map_append, nodup_append] at hnodup
    exact hnodup.2.2 a.id (mem_map_of_mem ha) key hrq heq
  obtain ⟨uq', v, priority, hremove, hanswer, -⟩ := h.update.remove
    (h.distinct hkey fun a ha => mem_append_left rq ha)
  rw [(find_eq_none huq).1, StableQueue.answer] at hanswer
  obtain ⟨rfl, -⟩ := QueueAnswer.value.inj hanswer
  rw [State.moveToRequests, removePriorityQueueElementWithId_congr _ hhash, hremove]
  rfl

theorem foldlM_move (h : Balanced configs s uq rq) (forced : Bool) (messageCount : ℕ)
    {names : List String} (hnodup : names.Nodup)
    (hnames : ∀ name ∈ names, name ∈ configs.services.keys)
    (hrq : ∀ name ∈ names, name ∉ rq.map PriorityQueueNode.id) :
    ∃ s' uq' rq',
      names.foldlM (fun s name => s.moveToRequests name forced messageCount) s = some s' ∧
      s'.place = s.place ∧ Balanced configs s' uq' rq' := by
  induction names generalizing s uq rq with
  | nil => exact ⟨s, uq, rq, rfl, rfl, h⟩
  | cons name names ih =>
    obtain ⟨hname, htail⟩ := List.nodup_cons.1 hnodup
    obtain ⟨e, he, rfl⟩ := h.exists_update (hnames name mem_cons_self)
      (hrq name mem_cons_self)
    obtain ⟨s₁, node, hmove, hplace, -, hbalanced⟩ := h.moveToRequests he rfl forced messageCount
    obtain ⟨s', uq', rq', hfold, hplace', hend⟩ := ih hbalanced htail
      (fun n hn => hnames n (mem_cons_of_mem _ hn)) fun n hn hmem => by
        rw [map_append, mem_append, map_singleton, mem_singleton] at hmem
        obtain hmem | rfl := hmem
        · exact hrq n (mem_cons_of_mem _ hn) hmem
        · exact hname hn
    exact ⟨s', uq', rq', by rw [foldlM_cons, hmove]; exact hfold, hplace'.trans hplace, hend⟩

theorem foldlM_move_of_requested (h : Balanced configs s uq rq) (forced : Bool) (messageCount : ℕ)
    {names : List String} (hnames : ∀ name ∈ names, name ∈ configs.services.keys)
    (hrq : ∃ name ∈ names, name ∈ rq.map PriorityQueueNode.id) :
    names.foldlM (fun s name => s.moveToRequests name forced messageCount) s = none := by
  induction names generalizing s uq rq with
  | nil => simp at hrq
  | cons name names ih =>
    rw [foldlM_cons]
    by_cases hname : name ∈ rq.map PriorityQueueNode.id
    · rw [h.moveToRequests_of_requested (hnames name mem_cons_self) hname rfl]
      rfl
    · obtain ⟨e, he, rfl⟩ := h.exists_update (hnames name mem_cons_self) hname
      obtain ⟨s₁, node, hmove, -, -, hbalanced⟩ := h.moveToRequests he rfl forced messageCount
      obtain ⟨name', hmem, hrq'⟩ := hrq
      obtain rfl | hmem := List.mem_cons.1 hmem
      · exact absurd hrq' hname
      · rw [hmove]
        refine ih hbalanced (fun n hn => hnames n (mem_cons_of_mem _ hn))
          ⟨name', hmem, ?_⟩
        rw [map_append]
        exact mem_append_left _ hrq'

theorem respond (h : Balanced configs s uq rq) (response : Response) :
    Balanced configs (s.respond response) uq rq :=
  h.congr rfl rfl

/-- A request that can be granted keeps the queues balanced. -/
theorem handle (h : Balanced configs s uq rq) {request : Request}
    (hgrantable : Grantable configs s request) (messageCount : ℕ) :
    ∃ s' uq' rq', s.handle configs request messageCount = some s' ∧ s'.place = s.place ∧
      Balanced configs s' uq' rq' := by
  obtain ⟨hfits, hgrantable⟩ := hgrantable
  rw [State.handle, if_neg (by rw [hfits]; decide)]
  split_ifs at hgrantable ⊢ with hall
  · rw [configs.map_name]
    have hrq : ∀ name ∈ configs.services.keys, name ∉ rq.map PriorityQueueNode.id :=
      fun name hname hmem => hgrantable name hname ((h.requested_iff hname rfl).2 hmem)
    dsimp only
    split_ifs
    · exact (h.respond _).foldlM_move _ _ configs.services.nodup_keys (fun _ hn => hn) hrq
    · exact h.foldlM_move _ _ configs.services.nodup_keys (fun _ hn => hn) hrq
  · cases hget : configs.services.get request.name with
    | none =>
      rw [State.respondLine, if_pos hfits]
      exact ⟨_, uq, rq, rfl, rfl, h.respond _⟩
    | some service =>
      obtain ⟨key, hhash, hmem⟩ := configs.services.exists_mem_of_get hget
      have hkey : key ∈ configs.services.keys := (configs.services.mem_keys key).2 ⟨_, hmem⟩
      have hrq : key ∉ rq.map PriorityQueueNode.id := fun hin =>
        hgrantable (by rw [hget]; rfl) ((h.requested_iff hkey hhash.symm).2 hin)
      obtain ⟨e, he, rfl⟩ := h.exists_update hkey hrq
      obtain ⟨s', node, hmove, hplace, -, hbalanced⟩ := h.moveToRequests he hhash.symm
        request.forced messageCount
      exact ⟨s', _, _, hmove, hplace, hbalanced⟩

/-- A request that cannot be granted ends the daemon. -/
theorem handle_of_not_grantable (h : Balanced configs s uq rq) {request : Request}
    (hgrantable : ¬Grantable configs s request) (messageCount : ℕ) :
    s.handle configs request messageCount = none := by
  rw [Grantable, not_and] at hgrantable
  rw [State.handle]
  cases hfits : fitsLine request.name with
  | false => rw [if_pos rfl]
  | true =>
  rw [if_neg (by decide)]
  replace hgrantable := hgrantable hfits
  split_ifs at hgrantable ⊢ with hall
  · rw [configs.map_name]
    push Not at hgrantable
    obtain ⟨name, hname, hrequested⟩ := hgrantable
    have hrq : ∃ name ∈ configs.services.keys, name ∈ rq.map PriorityQueueNode.id :=
      ⟨name, hname, (h.requested_iff hname rfl).1 hrequested⟩
    dsimp only
    split_ifs
    · exact (h.respond _).foldlM_move_of_requested _ _ (fun _ hn => hn) hrq
    · exact h.foldlM_move_of_requested _ _ (fun _ hn => hn) hrq
  · push Not at hgrantable
    obtain ⟨service, hget⟩ := Option.isSome_iff_exists.1 hgrantable.1
    obtain ⟨key, hhash, hmem⟩ := configs.services.exists_mem_of_get hget
    have hkey : key ∈ configs.services.keys := (configs.services.mem_keys key).2 ⟨_, hmem⟩
    rw [hget]
    exact h.moveToRequests_of_requested hkey ((h.requested_iff hkey hhash.symm).1 hgrantable.2)
      hhash.symm _ _

theorem handleAll (h : Balanced configs s uq rq) {requests : List Request} {messageCount : ℕ}
    (hgrantable : GrantableAll configs s requests messageCount) :
    ∃ s' uq' rq', s.handleAll configs requests messageCount = some s' ∧
      Balanced configs s' uq' rq' := by
  induction requests generalizing s uq rq messageCount with
  | nil => exact ⟨s, uq, rq, rfl, h⟩
  | cons r rs ih =>
    obtain ⟨s₁, uq₁, rq₁, hhandle, -, hbalanced⟩ := h.handle hgrantable.1 messageCount
    obtain ⟨s', uq', rq', hrest, hend⟩ := ih hbalanced (hgrantable.2 s₁ hhandle)
    refine ⟨s', uq', rq', ?_, hend⟩
    rw [State.handleAll, hhandle]
    exact hrest

theorem grantableAll_of_handleAll (h : Balanced configs s uq rq) {requests : List Request}
    {messageCount : ℕ} {s' : State}
    (hhandle : s.handleAll configs requests messageCount = some s') :
    GrantableAll configs s requests messageCount := by
  induction requests generalizing s uq rq messageCount with
  | nil => trivial
  | cons r rs ih =>
    by_cases hgrantable : Grantable configs s r
    · obtain ⟨s₁, uq₁, rq₁, hstep, -, hbalanced⟩ := h.handle hgrantable messageCount
      rw [State.handleAll, hstep] at hhandle
      refine ⟨hgrantable, fun s₂ hs₂ => ?_⟩
      obtain rfl := Option.some.inj (hstep.symm.trans hs₂)
      exact ih hbalanced hhandle
    · rw [State.handleAll, h.handle_of_not_grantable hgrantable] at hhandle
      cases hhandle

end Balanced

/-! ## Runs -/

def Sound (configs : Configs) (s : State) : Prop :=
  ∃ uq rq, Balanced configs s uq rq ∧ (s.place = .updating false → uq ≠ [])

def OrderlyEvent (configs : Configs) (s : State) : Event → Prop
  | .time _ => True
  | .update _ => s.place ≠ .top → s.place ≠ .sleeping → Answerable s
  | .requests messages => s.place = .sleeping → GrantableAll configs s messages 1

def OrderlyRun (configs : Configs) (providers : HashedMap sdbmStringHash Provider)
    (referenceTime : ℤ) : State → List Event → Prop
  | _, [] => True
  | s, e :: es => OrderlyEvent configs s e ∧
      ∀ s', s.step configs providers referenceTime e = some s' →
        OrderlyRun configs providers referenceTime s' es

instance (configs : Configs) (s : State) (e : Event) : Decidable (OrderlyEvent configs s e) :=
  match e with
  | .time _ => .isTrue trivial
  | .update _ =>
    inferInstanceAs (Decidable (s.place ≠ .top → s.place ≠ .sleeping → Answerable s))
  | .requests messages =>
    inferInstanceAs (Decidable (s.place = .sleeping → GrantableAll configs s messages 1))

/-- Decides `OrderlyRun` along the run. -/
def decidableOrderlyRun (configs : Configs) (providers : HashedMap sdbmStringHash Provider)
    (referenceTime : ℤ) : (s : State) → (events : List Event) →
    Decidable (OrderlyRun configs providers referenceTime s events)
  | _, [] => .isTrue trivial
  | s, e :: es =>
    have : ∀ s', Decidable (OrderlyRun configs providers referenceTime s' es) :=
      fun s' => decidableOrderlyRun configs providers referenceTime s' es
    inferInstanceAs (Decidable (OrderlyEvent configs s e ∧
      ∀ s' ∈ s.step configs providers referenceTime e,
        OrderlyRun configs providers referenceTime s' es))

instance (configs : Configs) (providers : HashedMap sdbmStringHash Provider) (referenceTime : ℤ)
    (s : State) (events : List Event) :
    Decidable (OrderlyRun configs providers referenceTime s events) :=
  decidableOrderlyRun configs providers referenceTime s events

variable {providers : HashedMap sdbmStringHash Provider} {referenceTime : ℤ}

/-- An orderly event keeps the daemon sound. -/
theorem Sound.step (h : Sound configs s) (hkeys : configs.services.keys ≠ []) {e : Event}
    (horderly : OrderlyEvent configs s e) (providers : HashedMap sdbmStringHash Provider)
    (referenceTime : ℤ) :
    ∃ s', s.step configs providers referenceTime e = some s' ∧ Sound configs s' := by
  obtain ⟨uq, rq, hbalanced, hne⟩ := h
  cases e with
  | time now =>
    cases hplace : s.place with
    | top =>
      rw [State.step, hplace]
      dsimp only
      split_ifs
      · exact ⟨_, rfl, uq, rq, hbalanced.congr rfl rfl, by rintro ⟨⟩⟩
      · exact ⟨_, rfl, uq, rq, hbalanced.congr rfl rfl, by rintro ⟨⟩⟩
    | updating first => exact ⟨s, by rw [State.step, hplace], uq, rq, hbalanced, hne⟩
    | sleeping => exact ⟨s, by rw [State.step, hplace], uq, rq, hbalanced, hne⟩
  | update attempt =>
    cases hplace : s.place with
    | top => exact ⟨s, by rw [State.step, hplace], uq, rq, hbalanced, hne⟩
    | sleeping => exact ⟨s, by rw [State.step, hplace], uq, rq, hbalanced, hne⟩
    | updating first =>
      have hfirst : first = true ∨ uq ≠ [] := by
        cases first with
        | true => exact .inl rfl
        | false => exact .inr (hne hplace)
      simp only [State.step, hplace]
      obtain hround | ⟨requested, e, hround, hnext⟩ := hbalanced.nextRound hfirst hkeys
      · rw [hround]
        exact ⟨_, rfl, uq, rq, hbalanced.congr rfl rfl, by rintro ⟨⟩⟩
      · have hanswerable : Answerable s :=
          horderly (by rw [hplace]; rintro ⟨⟩) (by rw [hplace]; rintro ⟨⟩)
        obtain ⟨s', uq', rq', hstep, -, hne', hbalanced', -⟩ :=
          hbalanced.round providers referenceTime attempt hnext fun hrequested =>
            hbalanced.answerable_iff.1 hanswerable e (by rwa [if_pos hrequested] at hnext)
        rw [hround]
        exact ⟨s', hstep, uq', rq', hbalanced', fun _ => hne'⟩
  | requests messages =>
    cases hplace : s.place with
    | top => exact ⟨s, by rw [State.step, hplace], uq, rq, hbalanced, hne⟩
    | updating first => exact ⟨s, by rw [State.step, hplace], uq, rq, hbalanced, hne⟩
    | sleeping =>
      obtain ⟨s', uq', rq', hhandle, hbalanced'⟩ := hbalanced.handleAll (horderly hplace)
      refine ⟨{ s' with place := .top }, ?_, uq', rq', hbalanced'.congr rfl rfl,
        by rintro ⟨⟩⟩
      rw [State.step, hplace, hhandle]
      rfl

theorem Balanced.answerable_of_update (h : Balanced configs s uq rq) {first : Bool}
    (hplace : s.place = .updating first) (hne : first = true ∨ uq ≠ []) {attempt : Attempt}
    {s' : State} (hstep : s.step configs providers referenceTime (.update attempt) = some s') :
    Answerable s := by
  rw [h.answerable_iff]
  intro e hnext
  have hround : s.nextRound first = some (some true) := by
    cases huq : StableQueue.next uq with
    | none =>
      obtain rfl := hne.resolve_right (not_not.2 (next_eq_none_iff.1 huq))
      simp [State.nextRound, h.request.peek, hnext]
    | some a => cases first <;> simp [State.nextRound, h.request.peek, h.update.peek, hnext, huq]
  by_contra hfits
  simp only [State.step, hplace, hround, Option.bind_eq_bind, Option.bind_some,
    h.round_of_not_fits providers referenceTime attempt hnext (Bool.eq_false_iff.2 hfits)] at hstep
  cases hstep

theorem Sound.orderly_of_step (h : Sound configs s) {e : Event} {s' : State}
    (hstep : s.step configs providers referenceTime e = some s') : OrderlyEvent configs s e := by
  cases e with
  | time now => trivial
  | update attempt =>
    intro htop hsleeping
    obtain ⟨uq, rq, hbalanced, hne⟩ := h
    cases hplace : s.place with
    | top => exact absurd hplace htop
    | sleeping => exact absurd hplace hsleeping
    | updating first =>
      refine hbalanced.answerable_of_update hplace ?_ hstep
      cases first with
      | true => exact .inl rfl
      | false => exact .inr (hne hplace)
  | requests messages =>
    intro hplace
    obtain ⟨uq, rq, hbalanced, -⟩ := h
    rw [State.step, hplace, Option.map_eq_some_iff] at hstep
    obtain ⟨s₁, hhandle, -⟩ := hstep
    exact hbalanced.grantableAll_of_handleAll hhandle

theorem Sound.orderly_of_run (h : Sound configs s) (hkeys : configs.services.keys ≠ [])
    {events : List Event} {s' : State}
    (hrun : s.run configs providers referenceTime events = some s') :
    OrderlyRun configs providers referenceTime s events := by
  induction events generalizing s with
  | nil => trivial
  | cons e es ih =>
    obtain ⟨s₁, hstep, hrest⟩ := Option.bind_eq_some_iff.1 hrun
    have horderly := h.orderly_of_step hstep
    obtain ⟨s₂, hstep', hsound⟩ := h.step hkeys horderly providers referenceTime
    obtain rfl := Option.some.inj (hstep.symm.trans hstep')
    refine ⟨horderly, fun s₃ hs₃ => ?_⟩
    obtain rfl := Option.some.inj (hstep.symm.trans hs₃)
    exact ih hsound hrest

theorem Sound.run (h : Sound configs s) (hkeys : configs.services.keys ≠ [])
    {events : List Event} (horderly : OrderlyRun configs providers referenceTime s events) :
    ∃ s', s.run configs providers referenceTime events = some s' ∧ Sound configs s' := by
  induction events generalizing s with
  | nil => exact ⟨s, rfl, h⟩
  | cons e es ih =>
    obtain ⟨s₁, hstep, hsound⟩ := h.step hkeys horderly.1 providers referenceTime
    obtain ⟨s', hrun, hend⟩ := ih hsound (horderly.2 s₁ hstep)
    refine ⟨s', ?_, hend⟩
    rw [State.run, hstep]
    exact hrun

theorem OrderlyRun.of_prefix {before events : List Event} (hpre : before <+: events)
    (h : OrderlyRun configs providers referenceTime s events) :
    OrderlyRun configs providers referenceTime s before := by
  induction before generalizing s events with
  | nil => trivial
  | cons e es ih =>
    obtain ⟨rest, rfl⟩ := hpre
    exact ⟨h.1, fun s' hstep => ih (prefix_append es rest) (h.2 s' hstep)⟩

/-! ## The first state -/

/-- The services that are left are scheduled, each one once. -/
theorem exists_scheduled (forceUpdate : Bool) (referenceTime : ℤ) (starts : String → Start)
    {es : List (String × Service sdbmStringHash)} (hes : es ⊆ configs.services.entries)
    (hnodup : (uq.map PriorityQueueNode.id ++ es.map Prod.fst).Nodup)
    (huq : ∀ e ∈ uq, e.id ∈ configs.services.keys ∧ e.value.serviceName = e.id)
    (hupdate : Represents s.updateQueue uq) :
    ∃ s' uq', es.foldlM (fun s e =>
        s.schedule referenceTime (State.startNode e.2 forceUpdate (starts e.1))) s = some s' ∧
      Represents s'.updateQueue uq' ∧ s'.requestQueue = s.requestQueue ∧ s'.place = s.place ∧
      s'.responses = s.responses ∧
      uq'.map PriorityQueueNode.id = uq.map PriorityQueueNode.id ++ es.map Prod.fst ∧
      ∀ e ∈ uq', e.value.serviceName = e.id := by
  induction es generalizing s uq with
  | nil => exact ⟨s, uq, rfl, hupdate, rfl, rfl, rfl, by simp, fun e he => (huq e he).2⟩
  | cons e es ih =>
    have hmem : e ∈ configs.services.entries := hes mem_cons_self
    have hkey : e.1 ∈ configs.services.keys := mem_map_of_mem hmem
    have hname : (State.startNode e.2 forceUpdate (starts e.1)).serviceName = e.1 :=
      configs.name_eq e hmem
    have habsent : ∀ a ∈ uq, a.id ≠ e.1 := by
      intro a ha heq
      rw [map_cons, nodup_append] at hnodup
      exact hnodup.2.2 a.id (mem_map_of_mem ha) e.1 mem_cons_self heq
    obtain ⟨pq, hschedule, hrepresents⟩ := Balanced.schedule hupdate
      (hname ▸ fun a ha hhash => Configs.eq_of_hash_eq (huq a ha).1 hkey hhash)
      (hname ▸ habsent) referenceTime
    have hscheduled : ∀ a ∈ uq ++ [⟨timePriority
        ((State.startNode e.2 forceUpdate (starts e.1)).nextTime - referenceTime),
        (State.startNode e.2 forceUpdate (starts e.1)).serviceName,
        State.startNode e.2 forceUpdate (starts e.1)⟩],
        a.id ∈ configs.services.keys ∧ a.value.serviceName = a.id := by
      intro a ha
      obtain ha | ha := List.mem_append.1 ha
      · exact huq a ha
      · rw [List.mem_singleton.1 ha]
        exact ⟨hname ▸ hkey, rfl⟩
    obtain ⟨s', uq', hfold, hupdate', hrequest, hplace, hresponses, hids, hnamed⟩ := ih
      (s := { s with updateQueue := pq }) (fun a ha => hes (mem_cons_of_mem e ha))
      (by simpa [hname] using hnodup) hscheduled hrepresents
    refine ⟨s', uq', ?_, hupdate', hrequest, hplace, hresponses, ?_, hnamed⟩
    · rw [foldlM_cons, hschedule]
      exact hfold
    · rw [hids, map_append, append_assoc, map_singleton, hname]
      rfl

theorem balanced_start (configs : Configs) (forceUpdate : Bool) (referenceTime lastChecked : ℤ)
    (starts : String → Start) :
    ∃ s uq, State.start configs forceUpdate referenceTime lastChecked starts = some s ∧
      Balanced configs s uq [] ∧ s.place = .top ∧ s.responses = [] := by
  have hinitial : Represents (State.initial lastChecked).updateQueue [] := represents_initialize
  obtain ⟨s, uq, hstart, hupdate, hrequest, hplace, hresponses, hids, hnamed⟩ :=
    exists_scheduled forceUpdate referenceTime starts
      (List.Subset.refl configs.services.entries)
      (by rw [map_nil, nil_append]; exact configs.services.nodup_keys) (by simp) hinitial
  refine ⟨s, uq, hstart, ⟨hupdate, ?_, ?_, ?_⟩, hplace, hresponses⟩
  · rw [hrequest]
    exact represents_initialize
  · rw [List.append_nil, hids]
    exact List.Perm.refl _
  · rw [List.append_nil]
    exact hnamed

theorem sound_start (configs : Configs) (forceUpdate : Bool) (referenceTime lastChecked : ℤ)
    (starts : String → Start) :
    ∃ s, State.start configs forceUpdate referenceTime lastChecked starts = some s ∧
      Sound configs s := by
  obtain ⟨s, uq, hstart, hbalanced, hplace, -⟩ :=
    balanced_start configs forceUpdate referenceTime lastChecked starts
  refine ⟨s, hstart, uq, [], hbalanced, ?_⟩
  rw [hplace]
  rintro ⟨⟩

/-- Whatever clients ask for and whenever updates are made: the daemon goes on, with each service in
one of its queues and once, exactly when each request and each response fits its message and no
request names a service that is asked for already. -/
theorem run_balanced_iff (configs : Configs) (hservices : configs.services.keys ≠ [])
    (providers : HashedMap sdbmStringHash Provider) (forceUpdate : Bool)
    (referenceTime lastChecked : ℤ) (starts : String → Start) (events : List Event) :
    ∃ s, State.start configs forceUpdate referenceTime lastChecked starts = some s ∧
      ((∀ before, before <+: events →
          ∃ s', s.run configs providers referenceTime before = some s' ∧
            ∃ uq rq, Balanced configs s' uq rq) ↔
        OrderlyRun configs providers referenceTime s events) := by
  obtain ⟨s, hstart, hsound⟩ :=
    sound_start configs forceUpdate referenceTime lastChecked starts
  refine ⟨s, hstart, fun hrun => ?_, fun horderly before hpre => ?_⟩
  · obtain ⟨s', hend, -⟩ := hrun events prefix_rfl
    exact hsound.orderly_of_run hservices hend
  · obtain ⟨s', hrun, uq, rq, hbalanced, -⟩ :=
      hsound.run hservices (horderly.of_prefix hpre)
    exact ⟨s', hrun, uq, rq, hbalanced⟩

end Daemon

end Queues

namespace Daemon

section Homes

local instance daemonKernel : Kernel := referenceKernel 32

def daemonService (name : String) : Service sdbmStringHash where
  name := name
  serviceProvider := "provider"
  ipv6 := false
  checkInterval := 900
  forceInterval := 86400
  ipSource := .interface "eth1"
  variableDefinitions := HashedMap.empty.set "domain" (name ++ ".example.org")

def twoServices : Configs where
  services := (HashedMap.empty.set "home" (daemonService "home")).set "work" (daemonService "work")
  name_eq := by decide

def sameAddress (now : ℤ) : Attempt where
  currentTime := now
  domainIp := some "192.0.2.7"
  localIp := some "192.0.2.7"
  page := none
  scriptStatus := none

def startsAt (now : ℤ) (_ : String) : Start := ⟨now, some (now - 60)⟩

def askedInTurn : List Event :=
  [.time 1001, .update (sameAddress 1001), .update (sameAddress 1001), .update (sameAddress 1001),
    .requests [⟨false, "home"⟩, ⟨true, "phone"⟩], .time 1002, .update (sameAddress 1002),
    .update (sameAddress 1002), .requests [⟨true, updateAllRequestStr⟩], .time 1003,
    .update (sameAddress 1003), .update (sameAddress 1003), .update (sameAddress 1003)]

/-- No service is lost when they are asked for one after the other. -/
theorem balanced_asked_in_turn :
    ∃ s, State.start twoServices false 1000 1000 (startsAt 1000) = some s ∧
      ∀ before, before <+: askedInTurn →
        ∃ s', s.run twoServices .empty 1000 before = some s' ∧
          ∃ uq rq, Balanced twoServices s' uq rq := by
  have horderly : ∀ s ∈ State.start twoServices false 1000 1000 (startsAt 1000),
      OrderlyRun twoServices .empty 1000 s askedInTurn := by
    decide
  obtain ⟨s, hstart, hiff⟩ := run_balanced_iff twoServices (by decide) .empty false 1000
    1000 (startsAt 1000) askedInTurn
  exact ⟨s, hstart, hiff.2 (horderly s hstart)⟩

/-- The daemon follows a null pointer when one request names a service twice, and it ends when a
request for all services comes with one for a single service. -/
theorem asked_twice :
    ∃ s, State.start twoServices false 1000 1000 (startsAt 1000) = some s ∧
      (s.run twoServices .empty 1000
        [.time 1000, .requests [⟨false, "home"⟩, ⟨false, "home"⟩]]).isNone ∧
      (s.run twoServices .empty 1000
        [.time 1000, .requests [⟨false, "home"⟩, ⟨false, updateAllRequestStr⟩]]).isNone := by
  have hnone : ∀ s ∈ State.start twoServices false 1000 1000 (startsAt 1000),
      (s.run twoServices .empty 1000
        [.time 1000, .requests [⟨false, "home"⟩, ⟨false, "home"⟩]]).isNone ∧
      (s.run twoServices .empty 1000
        [.time 1000, .requests [⟨false, "home"⟩, ⟨false, updateAllRequestStr⟩]]).isNone := by
    decide
  obtain ⟨s, hstart, -⟩ := sound_start twoServices false 1000 1000 (startsAt 1000)
  exact ⟨s, hstart, hnone s hstart⟩

end Homes

end Daemon

end Ddns

end Gargoyle
