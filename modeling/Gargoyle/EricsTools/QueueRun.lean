import Gargoyle.EricsTools.QueueSteps

/-!
# Every run of a priority queue

A queue represents the elements of its slots, and with them a stable queue. Every
operation keeps that but one: `get_priority_queue_element_with_id` frees the node that
it has found, and the node stays in the queue. The runs that never ask for an element
that is there are the runs of a stable queue.
-/

namespace Gargoyle

open List

namespace EricsTools

open Bandwidth TreeMap Heap

section Queue

variable {V : Type} [Kernel]

structure Live (pq : PriorityQueue V) : Prop where
  first : ∀ pn, pq.first = some pn → (pq.pqNodes.node pn).isSome
  ids : ∀ id idn, pq.ids.getStringMapElement id = some idn → (pq.lists.node idn.idList).isSome ∧
    ∃ pn, pq.listNodes.value idn.idNode = some pn ∧ (pq.pqNodes.node pn).isSome
  lists : ∀ k l, pq.priorities.getLongMapElement k = some l →
    ∃ ends ps, pq.lists.node l = some ends ∧ IsList pq.listNodes ends ps ∧
      ∀ p ∈ ps, ∃ pn, pq.listNodes.value p = some pn ∧ (pq.pqNodes.node pn).isSome

structure Slots (pq : PriorityQueue V) (gs : List (Slot V)) : Prop where
  holds : Holds pq gs
  first : pq.first = nextNode gs
  length : pq.length = gs.length

/-- The queue has the elements `es`. -/
def Represents (pq : PriorityQueue V) (es : List (PriorityQueueNode V)) : Prop :=
  ∃ gs, gs.map Slot.elem = es ∧ Slots pq gs

section Slots

variable {pq : PriorityQueue V} {gs as bs : List (Slot V)} {g : Slot V}

/-- The nodes of a queue are all live. -/
theorem Slots.live (h : Slots pq gs) : Live pq where
  first := by
    intro pn hpn
    rw [h.first, nextNode] at hpn
    obtain ⟨g, hg, rfl⟩ := Option.map_eq_some_iff.1 hpn
    rw [h.holds.node g (argmin_mem hg)]
    rfl
  ids := by
    intro id idn hget
    have hex : ∃ g ∈ gs, sdbmStringHash g.elem.id = sdbmStringHash id := by
      by_contra hnone
      push Not at hnone
      rw [h.holds.absent id hnone] at hget
      cases hget
    obtain ⟨g, hg, hhash⟩ := hex
    obtain ⟨l, hl, hid⟩ := h.holds.found g hg
    obtain ⟨-, ends, hends, -⟩ := h.holds.list _ l hl
    rw [StringMap.getStringMapElement, hhash] at hid
    obtain rfl := Option.some.inj (hget.symm.trans hid)
    refine ⟨by simp [hends], g.pqn, h.holds.value g hg, ?_⟩
    rw [h.holds.node g hg]
    rfl
  lists := by
    intro k l hl
    rw [LongMap.getLongMapElement_eq h.holds.sound.ordered] at hl
    obtain ⟨-, ends, hends, hlist⟩ := h.holds.list k l hl
    refine ⟨ends, _, hends, hlist, fun p hp => ?_⟩
    obtain ⟨g, hg, rfl⟩ := List.mem_map.1 hp
    have hmem := (mem_bucket.1 hg).1
    refine ⟨g.pqn, h.holds.value g hmem, ?_⟩
    rw [h.holds.node g hmem]
    rfl

/-! ## The next element -/

omit [Kernel] in
theorem next_map (gs : List (Slot V)) :
    StableQueue.next (gs.map Slot.elem) = (gs.argmin fun g => g.elem.priority).map Slot.elem :=
  argmin_map Slot.elem gs

theorem Slots.firstWith (h : Slots pq gs) (g : Slot V) :
    ∃ first, pq.firstWith g.elem.priority g.pqn = some first ∧ nextNode (gs ++ [g]) = some first := by
  rw [PriorityQueue.firstWith, h.first, nextNode, nextNode, argmin_concat]
  cases hmin : gs.argmin fun g => g.elem.priority with
  | none => exact ⟨g.pqn, rfl, rfl⟩
  | some c =>
    simp only [Option.map_some, h.holds.node c (argmin_mem hmin), Option.bind_eq_bind,
      Option.bind_some]
    refine ⟨_, rfl, ?_⟩
    split_ifs <;> rfl

theorem Slots.withNodes (h : Slots pq gs) {pqNodes : Heap (PriorityQueueNode V)}
    (hnode : ∀ g ∈ gs, pqNodes.node g.pqn = pq.pqNodes.node g.pqn) :
    Slots { pq with pqNodes := pqNodes } gs :=
  ⟨h.holds.withNodes hnode, h.first, h.length⟩

theorem Slots.push (h : Slots pq gs) {pn : ℕ} {e : PriorityQueueNode V}
    (hpn : pq.pqNodes.node pn = some e) (hnew : pn ∉ gs.map Slot.pqn)
    (hhash : ∀ g ∈ gs, sdbmStringHash g.elem.id ≠ sdbmStringHash e.id) :
    ∃ pq', pq.pushPriorityQueueNode pn = some pq' ∧ Represents pq' (gs.map Slot.elem ++ [e]) := by
  obtain ⟨first, hwith, hnext⟩ := h.firstWith ⟨e, pn, 0⟩
  obtain ⟨pq', lnode, hrun, hholds, -, hfirst, hlength⟩ := h.holds.push hpn hnew hhash hwith
  refine ⟨pq', hrun, gs ++ [⟨e, pn, lnode⟩], by simp, hholds, ?_, ?_⟩
  · rw [hfirst, ← hnext, nextNode, nextNode, argmin_concat, argmin_concat]
    cases gs.argmin fun g => g.elem.priority with
    | none => rfl
    | some c =>
      simp only
      split_ifs <;> rfl
  · rw [hlength, h.length, length_append]
    simp

/-! ## One slot out of the queue -/

theorem Slots.id_ne (h : Slots pq (as ++ g :: bs)) : ∀ g' ∈ as ++ bs, g'.elem.id ≠ g.elem.id := by
  intro g' hg' heq
  refine (Holds.notMem_map_of_nodup h.holds.hashes).2 (List.mem_map.2 ⟨g', hg', ?_⟩)
  rw [heq]

theorem Slots.without (h : Slots pq (as ++ g :: bs)) :
    StableQueue.without ((as ++ g :: bs).map Slot.elem) g.elem.id = (as ++ bs).map Slot.elem := by
  have hkeep : ∀ gs : List (Slot V), (∀ g' ∈ gs, g'.elem.id ≠ g.elem.id) →
      (gs.map Slot.elem).filter (fun e => e.id ≠ g.elem.id) = gs.map Slot.elem := by
    intro gs hgs
    refine List.filter_eq_self.2 fun e he => ?_
    obtain ⟨g', hg', rfl⟩ := List.mem_map.1 he
    exact decide_eq_true (hgs g' hg')
  have has := hkeep as fun g' hg' => h.id_ne g' (mem_append_left _ hg')
  have hbs := hkeep bs fun g' hg' => h.id_ne g' (mem_append_right _ hg')
  rw [StableQueue.without, map_append, filter_append, has, map_cons,
    filter_cons_of_neg (by simp), hbs, map_append]

theorem Slots.find (h : Slots pq (as ++ g :: bs)) :
    StableQueue.find ((as ++ g :: bs).map Slot.elem) g.elem.id = some g.elem := by
  rw [StableQueue.find, map_append, find?_append, map_cons,
    find?_cons_of_pos (by simp)]
  have has : (as.map Slot.elem).find? (fun e => e.id = g.elem.id) = none := by
    refine List.find?_eq_none.2 fun e he => ?_
    obtain ⟨g', hg', rfl⟩ := List.mem_map.1 he
    simpa using h.id_ne g' (mem_append_left _ hg')
  rw [has, Option.none_or]

omit [Kernel] in
theorem find_eq_none {es : List (PriorityQueueNode V)} {id : String} (hid : ∀ e ∈ es, e.id ≠ id) :
    StableQueue.find es id = none ∧ StableQueue.without es id = es := by
  refine ⟨List.find?_eq_none.2 fun e he => ?_, List.filter_eq_self.2 fun e he => ?_⟩
  · simpa using hid e he
  · simpa using hid e he

theorem Slots.afterwards {pq' : PriorityQueue V} (h : Slots pq (as ++ g :: bs))
    (hholds : Holds pq' (as ++ bs)) (hfirst : pq'.first = nextNode (as ++ bs))
    (hlength : pq'.length = pq.length - 1) {pqNodes : Heap (PriorityQueueNode V)}
    (hnode : ∀ p ≠ g.pqn, pqNodes.node p = pq'.pqNodes.node p) :
    Slots { pq' with pqNodes := pqNodes } (as ++ bs) := by
  refine Slots.withNodes ⟨hholds, hfirst, ?_⟩ fun g' hg' => hnode _ ?_
  · rw [hlength, h.length]
    simp
    omega
  · exact fun heq => (Holds.notMem_map_of_nodup h.holds.pqns).2 (heq ▸ mem_map_of_mem hg')

omit [Kernel] in
theorem exists_split_of_argmin (hmin : gs.argmin (fun g => g.elem.priority) = some g) :
    ∃ as bs, gs = as ++ g :: bs ∧ bucket as g.elem.priority = [] := by
  have hhead := head?_filter_of_argmin hmin
  obtain ⟨rest, hrest⟩ : ∃ rest, gs.filter (fun g' => g'.elem.priority = g.elem.priority) =
      g :: rest := List.head?_eq_some_iff.1 hhead
  obtain ⟨as, bs, rfl, has, -, -⟩ := List.filter_eq_cons_iff.1 hrest
  refine ⟨as, bs, rfl, List.filter_eq_nil_iff.2 has⟩

theorem Slots.shift (h : Slots pq gs) :
    ∃ pq', pq.shiftPriorityQueue = some (pq', StableQueue.next (gs.map Slot.elem)) ∧
      Represents pq' (StableQueue.apply (gs.map Slot.elem) .shift).1 := by
  rw [StableQueue.apply, next_map]
  have hfirst := h.first
  rw [nextNode] at hfirst
  cases hmin : gs.argmin fun g => g.elem.priority with
  | none =>
    rw [hmin] at hfirst
    refine ⟨pq, ?_, gs, rfl, h⟩
    simp [PriorityQueue.shiftPriorityQueue, PriorityQueue.shiftPriorityQueueNode, hfirst]
  | some g =>
    rw [hmin] at hfirst
    obtain ⟨as, bs, rfl, has⟩ := exists_split_of_argmin hmin
    have hle : ∀ g' ∈ as ++ g :: bs, g.elem.priority ≤ g'.elem.priority :=
      fun g' hg' => le_of_mem_argmin (f := fun g : Slot V => g.elem.priority) hg' hmin
    obtain ⟨pq', hrun, hholds, hnodes, hfirst', hlength⟩ := h.holds.shift has hle hfirst
    have hnode : pq'.pqNodes.node g.pqn = some g.elem := by
      rw [hnodes]
      exact h.holds.node g (by simp)
    refine ⟨{ pq' with pqNodes := pq'.pqNodes.free g.pqn }, ?_, as ++ bs, h.without.symm,
      h.afterwards hholds hfirst' hlength fun p hp => node_free_of_ne hp⟩
    simp [PriorityQueue.shiftPriorityQueue, hrun, hnode, PriorityQueue.freePriorityQueueNode]

omit [Kernel] in
theorem nextNode_of_ne (h : nextNode (as ++ g :: bs) ≠ some g.pqn) :
    nextNode (as ++ g :: bs) = nextNode (as ++ bs) := by
  unfold nextNode at h ⊢
  cases hmin : (as ++ g :: bs).argmin fun g => g.elem.priority with
  | none => simp at hmin
  | some c =>
    have hne : c ≠ g := by
      rintro rfl
      exact h (by rw [hmin]; rfl)
    rw [argmin_middle_of_ne hmin hne]

theorem Slots.remove (h : Slots pq (as ++ g :: bs)) :
    ∃ pq', pq.removePriorityQueueNodeWithId g.elem.id = some (pq', some g.pqn) ∧
      pq'.pqNodes.node g.pqn = some g.elem ∧
      ∀ pqNodes : Heap (PriorityQueueNode V), (∀ p ≠ g.pqn, pqNodes.node p = pq'.pqNodes.node p) →
        Slots { pq' with pqNodes := pqNodes } (as ++ bs) := by
  obtain ⟨pq', hrun, hholds, hnodes, hfirst, hlength⟩ := h.holds.remove
  refine ⟨pq', hrun, ?_, fun pqNodes => h.afterwards hholds ?_ hlength⟩
  · rw [hnodes]
    exact h.holds.node g (by simp)
  · rw [hfirst, h.first]
    split_ifs with hcase
    · rfl
    · exact nextNode_of_ne hcase

end Slots

/-! ## One operation -/

section Step

variable {pq : PriorityQueue V} {es : List (PriorityQueueNode V)}

theorem Represents.live (h : Represents pq es) : Live pq := by
  obtain ⟨gs, -, hslots⟩ := h
  exact hslots.live

theorem Represents.length (h : Represents pq es) : pq.length = es.length := by
  obtain ⟨gs, rfl, hslots⟩ := h
  rw [hslots.length, length_map]

omit [Kernel] in
theorem Slots.split_of_mem {gs : List (Slot V)} {id : String}
    (hid : ∃ e ∈ gs.map Slot.elem, e.id = id) :
    ∃ as g bs, gs = as ++ g :: bs ∧ g.elem.id = id := by
  obtain ⟨e, he, rfl⟩ := hid
  obtain ⟨g, hg, rfl⟩ := List.mem_map.1 he
  obtain ⟨as, bs, rfl⟩ := append_of_mem hg
  exact ⟨as, g, bs, rfl, rfl⟩

theorem Slots.get_of_absent {gs : List (Slot V)} {id : String} (h : Slots pq gs)
    (hdistinct : StableQueue.Distinct (gs.map Slot.elem) id)
    (habsent : ∀ e ∈ gs.map Slot.elem, e.id ≠ id) : pq.ids.getStringMapElement id = none := by
  refine h.holds.absent id fun g hg hhash => ?_
  have hmem : g.elem ∈ gs.map Slot.elem := mem_map_of_mem hg
  exact habsent g.elem hmem (hdistinct g.elem hmem hhash)

theorem Represents.push (h : Represents pq es) {priority : ℕ} {id : String} {value : V}
    (hasked : StableQueue.Asked es (.push priority id value)) :
    ∃ pq', pq.pushPriorityQueue priority id value = some pq' ∧
      Represents pq' (es ++ [⟨priority, id, value⟩]) := by
  obtain ⟨gs, rfl, hslots⟩ := h
  obtain ⟨hdistinct, habsent⟩ := hasked
  have hbound : ∀ g ∈ gs, g.pqn ≠ pq.pqNodes.bound :=
    fun g hg => Nat.ne_of_lt (lt_bound_of_node (hslots.holds.node g hg))
  have hslots' := hslots.withNodes fun g hg =>
    node_alloc_of_ne ⟨priority, id, value⟩ (hbound g hg)
  refine hslots'.push (node_alloc_self ..) ?_ ?_
  · intro hmem
    obtain ⟨g, hg, heq⟩ := List.mem_map.1 hmem
    exact hbound g hg heq
  · intro g hg hhash
    have hmem : g.elem ∈ gs.map Slot.elem := mem_map_of_mem hg
    exact habsent g.elem hmem (hdistinct g.elem hmem hhash)

theorem Represents.peek (h : Represents pq es) :
    pq.peekPriorityQueue = some (StableQueue.next es) := by
  obtain ⟨gs, rfl, hslots⟩ := h
  rw [PriorityQueue.peekPriorityQueue, hslots.first, nextNode, next_map]
  cases hmin : gs.argmin fun g => g.elem.priority with
  | none => rfl
  | some g => simp [hslots.holds.node g (argmin_mem hmin)]

theorem Represents.get (h : Represents pq es) {id : String}
    (hdistinct : StableQueue.Distinct es id) (habsent : ∀ e ∈ es, e.id ≠ id) :
    pq.getPriorityQueueElementWithId id = some (pq, none, 0) := by
  obtain ⟨gs, rfl, hslots⟩ := h
  simp [PriorityQueue.getPriorityQueueElementWithId, PriorityQueue.getPriorityQueueNodeWithId,
    hslots.get_of_absent hdistinct habsent, PriorityQueue.freeFound]

/-- Removing by an id is removing from the list. -/
theorem Represents.remove (h : Represents pq es) {id : String}
    (hdistinct : StableQueue.Distinct es id) :
    ∃ pq' v priority, pq.removePriorityQueueElementWithId id = some (pq', v, priority) ∧
      QueueAnswer.value v priority = StableQueue.answer (StableQueue.find es id) ∧
      Represents pq' (StableQueue.without es id) := by
  obtain ⟨gs, rfl, hslots⟩ := h
  by_cases hid : ∃ e ∈ gs.map Slot.elem, e.id = id
  · obtain ⟨as, g, bs, rfl, rfl⟩ := Slots.split_of_mem hid
    obtain ⟨pq', hrun, hnode, hrest⟩ := hslots.remove
    refine ⟨{ pq' with pqNodes := pq'.pqNodes.free g.pqn }, some g.elem.value,
      PriorityQueue.asLong g.elem.priority, ?_, ?_, as ++ bs, hslots.without.symm,
      hrest _ fun p hp => node_free_of_ne hp⟩
    · simp [PriorityQueue.removePriorityQueueElementWithId, hrun, PriorityQueue.freeFound, hnode,
        PriorityQueue.freePriorityQueueNode]
    · rw [hslots.find]
      rfl
  · push Not at hid
    have hnone := hslots.get_of_absent hdistinct hid
    obtain ⟨hfind, hwithout⟩ := find_eq_none hid
    have hremoved := (StringMap.removed_eq_get hslots.holds.idsSound id).trans hnone
    refine ⟨{ pq with ids := (pq.ids.removeStringMapElement id).1 }, none, 0, ?_, ?_, gs,
      hwithout.symm, ?_, hslots.first, hslots.length⟩
    · simp [PriorityQueue.removePriorityQueueElementWithId,
        PriorityQueue.removePriorityQueueNodeWithId, hremoved, PriorityQueue.freeFound]
    · rw [hfind]
      rfl
    · exact hslots.holds.removeAbsent fun g hg hhash => hid g.elem (mem_map_of_mem hg)
        (hdistinct g.elem (mem_map_of_mem hg) hhash)

theorem Represents.setPriority (h : Represents pq es) {id : String} {priority : ℕ}
    (hasked : StableQueue.Asked es (.setPriority id priority)) :
    ∃ pq', pq.setPriorityForIdInPriorityQueue id priority = some pq' ∧
      Represents pq' (StableQueue.apply es (.setPriority id priority)).1 := by
  obtain ⟨gs, rfl, hslots⟩ := h
  obtain ⟨-, hid⟩ := hasked
  obtain ⟨as, g, bs, rfl, rfl⟩ := Slots.split_of_mem hid
  obtain ⟨pq', hrun, hnode, hrest⟩ := hslots.remove
  have hset := @update_of_node _ _ _ _ (fun n => { n with priority := priority }) hnode
  have hself := @node_modify_self _ _ _ _ (fun n => { n with priority := priority }) hnode
  obtain ⟨pq'', hpush, hrepresents⟩ := (hrest _ fun p hp => node_modify_of_ne hp).push hself
    (Holds.notMem_map_of_nodup hslots.holds.pqns).2 fun g' hg' hhash =>
      (Holds.notMem_map_of_nodup hslots.holds.hashes).2 (List.mem_map.2 ⟨g', hg', hhash⟩)
  refine ⟨pq'', ?_, ?_⟩
  · simp [PriorityQueue.setPriorityForIdInPriorityQueue, hrun, hset, hpush]
  · rw [StableQueue.apply, hslots.find, Option.elim, hslots.without]
    exact hrepresents

theorem Represents.apply (h : Represents pq es) {op : QueueOp V} (hasked : StableQueue.Asked es op)
    (hget : StableQueue.NotGot es op) :
    ∃ pq', pq.apply op = some (pq', (StableQueue.apply es op).2) ∧
      Represents pq' (StableQueue.apply es op).1 := by
  cases op with
  | push priority id value =>
    obtain ⟨pq', hrun, hrepresents⟩ := h.push hasked
    exact ⟨pq', by simp [PriorityQueue.apply, hrun, StableQueue.apply], hrepresents⟩
  | shift =>
    obtain ⟨gs, rfl, hslots⟩ := h
    obtain ⟨pq', hrun, hrepresents⟩ := hslots.shift
    exact ⟨pq', by simp [PriorityQueue.apply, hrun, StableQueue.apply], hrepresents⟩
  | peek => exact ⟨pq, by simp [PriorityQueue.apply, h.peek, StableQueue.apply], h⟩
  | get id =>
    refine ⟨pq, ?_, h⟩
    simp [PriorityQueue.apply, h.get hasked hget, StableQueue.apply, (find_eq_none hget).1,
      StableQueue.answer]
  | remove id =>
    obtain ⟨pq', v, priority, hrun, hanswer, hrepresents⟩ := h.remove hasked
    exact ⟨pq', by simp [PriorityQueue.apply, hrun, StableQueue.apply, ← hanswer], hrepresents⟩
  | setPriority id priority =>
    obtain ⟨pq', hrun, hrepresents⟩ := h.setPriority hasked
    exact ⟨pq', by simp [PriorityQueue.apply, hrun, StableQueue.apply], hrepresents⟩

end Step

/-! ## Runs -/

theorem represents_initialize :
    Represents (PriorityQueue.initializePriorityQueue : PriorityQueue V) [] :=
  ⟨[], rfl, holds_initialize, rfl, rfl⟩

theorem Represents.run {pq : PriorityQueue V} {es : List (PriorityQueueNode V)}
    (h : Represents pq es) {ops : List (QueueOp V)}
    (hasked : StableQueue.Always StableQueue.Asked es ops)
    (hget : StableQueue.Always StableQueue.NotGot es ops) :
    ∃ pq', pq.run ops = some (pq', (StableQueue.run es ops).2) ∧
      Represents pq' (StableQueue.run es ops).1 := by
  induction ops generalizing pq es with
  | nil => exact ⟨pq, rfl, h⟩
  | cons op ops ih =>
    obtain ⟨pq', hstep, hrepresents⟩ := h.apply hasked.1 hget.1
    obtain ⟨pq'', hrun, hend⟩ := ih hrepresents hasked.2 hget.2
    refine ⟨pq'', ?_, hend⟩
    simp [PriorityQueue.run, hstep, hrun, StableQueue.run]

/-- A run in which no element that is in the queue is asked for returns what a stable
queue returns. At its end the length is the number of the elements, and the queue has
no record that is freed. -/
theorem run_stable (ops : List (QueueOp V))
    (hasked : StableQueue.Always StableQueue.Asked [] ops)
    (hget : StableQueue.Always StableQueue.NotGot [] ops) :
    ∃ pq : PriorityQueue V, PriorityQueue.initializePriorityQueue.run ops =
        some (pq, (StableQueue.run [] ops).2) ∧
      pq.length = (StableQueue.run [] ops).1.length ∧ Live pq := by
  obtain ⟨pq, hrun, hrepresents⟩ := represents_initialize.run hasked hget
  exact ⟨pq, hrun, hrepresents.length, hrepresents.live⟩

end Queue

section Machines

local instance queueKernel : Kernel := referenceKernel 64

/-- Three machines wait, the second and the third with one priority. The priority of the
first one is changed to theirs, so that it comes behind them. -/
theorem machines_in_order :
    ∃ pq : PriorityQueue ℕ, PriorityQueue.initializePriorityQueue.run
        [.push 5 "lan" 1, .push 3 "wan" 2, .push 3 "dmz" 4, .setPriority "lan" 3, .get "vpn", .peek,
          .remove "dmz", .shift, .shift, .shift] =
        some (pq, [.done, .done, .done, .done, .value none 0, .element (some ⟨3, "wan", 2⟩),
          .value (some 4) 3, .element (some ⟨3, "wan", 2⟩), .element (some ⟨3, "lan", 1⟩),
          .element none]) ∧ pq.length = 0 ∧ Live pq :=
  run_stable [.push 5 "lan" 1, .push 3 "wan" 2, .push 3 "dmz" 4, .setPriority "lan" 3, .get "vpn",
    .peek, .remove "dmz", .shift, .shift, .shift] (by decide) (by decide)

/-- An element is pushed and asked for. It is in the queue, but its node is freed, so that
the queue cannot be used any more. -/
theorem got_node_freed :
    StableQueue.Always StableQueue.Asked [] [.push 5 "lan" (1 : ℕ), .get "lan"] ∧
      (∃ pq : PriorityQueue ℕ, PriorityQueue.initializePriorityQueue.run
        [.push 5 "lan" 1, .get "lan"] = some (pq, [.done, .value (some 1) 5]) ∧
          pq.length = 1 ∧ ¬ Live pq) ∧
      (PriorityQueue.initializePriorityQueue.run
        [.push 5 "lan" (1 : ℕ), .get "lan", .shift]).isNone := by
  refine ⟨by decide, ?_, by decide⟩
  have hend : ((PriorityQueue.initializePriorityQueue.run
      [.push 5 "lan" (1 : ℕ), .get "lan"]).map fun r =>
        (r.2, r.1.length, r.1.first, (r.1.pqNodes.node 0).isSome)) =
      some ([.done, .value (some 1) 5], 1, some 0, false) := by decide
  obtain ⟨⟨pq, answers⟩, hrun, heq⟩ := Option.map_eq_some_iff.1 hend
  obtain ⟨rfl, hlength, hfirst, hnode⟩ : answers = [.done, .value (some 1) 5] ∧ pq.length = 1 ∧
      pq.first = some 0 ∧ (pq.pqNodes.node 0).isSome = false := by simpa using heq
  refine ⟨pq, hrun, hlength, fun hlive => ?_⟩
  rw [hlive.first 0 hfirst] at hnode
  cases hnode

end Machines

end EricsTools

end Gargoyle
