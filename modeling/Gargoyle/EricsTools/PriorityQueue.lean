import Gargoyle.Data.LinkedNodes
import Gargoyle.TreeMap.StringMap

/-!
# The list of `list.c`

A list is the record of its two ends and its length, and its nodes are linked in
both directions. The functions that work with nodes rather than values are
modelled, as a function from the memory of the nodes and the record of the list. A
node that is not in memory is a fault, which is `none`.
-/

namespace Gargoyle

open List

namespace EricsTools

section

variable {V : Type*}

def initializeList : ListEnds := ⟨none, none, 0⟩

def createListNode (h : Heap (LinkedNode V)) (value : V) : Heap (LinkedNode V) × ℕ :=
  h.alloc ⟨none, none, value⟩

/-- `free_list_node`, with the value of the node. -/
def freeListNode (h : Heap (LinkedNode V)) (deleteNode : ℕ) : Option (Heap (LinkedNode V) × V) := do
  let n ← h.node deleteNode
  some (h.free deleteNode, n.value)

/-- `shift_list_node`, with the node that was taken off. -/
def shiftListNode (h : Heap (LinkedNode V)) (l : ListEnds) :
    Option (Heap (LinkedNode V) × ListEnds × Option ℕ) :=
  match l.first with
  | none => some (h, l, none)
  | some returnNode => do
    let n ← h.node returnNode
    let h ← h.linkPrevious n.next none
    let last := if l.last = some returnNode then none else l.last
    let h ← h.setPrevious returnNode none
    let h ← h.setNext returnNode none
    some (h, ⟨n.next, last, l.length - 1⟩, some returnNode)

def unshiftListNode (h : Heap (LinkedNode V)) (l : ListEnds) (newNode : ℕ) :
    Option (Heap (LinkedNode V) × ListEnds) := do
  let h ← h.setPrevious newNode none
  let h ← h.setNext newNode l.first
  let h ← h.linkPrevious l.first (some newNode)
  let last := if l.first = none then some newNode else l.last
  some (h, ⟨some newNode, last, l.length + 1⟩)

def pushListNode (h : Heap (LinkedNode V)) (l : ListEnds) (newNode : ℕ) :
    Option (Heap (LinkedNode V) × ListEnds) := do
  let h ← h.setNext newNode none
  let h ← h.setPrevious newNode l.last
  let h ← h.linkNext l.last (some newNode)
  let first := if l.last = none then some newNode else l.first
  some (h, ⟨first, some newNode, l.length + 1⟩)

/-- The writes of `remove_internal_list_node` to the neighbours of a node and the ends
of the list: at the head, at the tail, and between two nodes. -/
def linkAround (h : Heap (LinkedNode V)) (l : ListEnds) (next previous : Option ℕ) :
    Option (Heap (LinkedNode V) × ListEnds) := do
  let (h, l) ← show Option (Heap (LinkedNode V) × ListEnds) from
    match previous with
    | none => (h.linkPrevious next none).map fun h => (h, { l with first := next })
    | some _ => some (h, l)
  let (h, l) ← show Option (Heap (LinkedNode V) × ListEnds) from
    match next with
    | none => (h.linkNext previous none).map fun h => (h, { l with last := previous })
    | some _ => some (h, l)
  match previous, next with
  | some previous, some next => do
    let h ← h.setNext previous (some next)
    let h ← h.setPrevious next (some previous)
    some (h, l)
  | _, _ => some (h, l)

def removeInternalListNode (h : Heap (LinkedNode V)) (l : ListEnds) (internal : ℕ) :
    Option (Heap (LinkedNode V) × ListEnds) := do
  let n ← h.node internal
  let (h, l) ← linkAround h l n.next n.previous
  let h ← h.setNext internal none
  let h ← h.setPrevious internal none
  some (h, { l with length := l.length - 1 })

/-! ## What becomes of a list -/

open Heap

section Spec

variable {h h' : Heap (LinkedNode V)} {l : ListEnds} {ps as bs : List ℕ} {p : ℕ}

theorem updateTwice_of_node {n : LinkedNode V} {f g : LinkedNode V → LinkedNode V}
    (hf : ∀ n, (f n).value = n.value) (hg : ∀ n, (g n).value = n.value)
    (hn : h.node p = some n) (hseg : Seg h none ps none) (hp : p ∉ ps) :
    ∃ h₁ h₂, h.update p f = some h₁ ∧ h₁.update p g = some h₂ ∧ Seg h₂ none ps none ∧
      SameValues h h₂ ∧ ∀ q ≠ p, h₂.node q = h.node q := by
  have hother : ∀ q ≠ p, ((h.modify p f).modify p g).node q = h.node q :=
    fun q hq => (node_modify_of_ne hq).trans (node_modify_of_ne hq)
  refine ⟨_, _, update_of_node hn, update_of_node (node_modify_self hn),
    hseg.congr fun q hq => hother q ?_, (sameValues_modify hf).trans (sameValues_modify hg), hother⟩
  rintro rfl
  exact hp hq

theorem pushListNode_spec {n : LinkedNode V} (hlist : IsList h l ps) (hp : p ∉ ps)
    (hn : h.node p = some n) :
    ∃ h' l', pushListNode h l p = some (h', l') ∧ IsList h' l' (ps ++ [p]) ∧ SameValues h h' ∧
      ∀ q ∉ ps ++ [p], h'.node q = h.node q := by
  obtain ⟨h₁, h₂, h₃, hset₁, hset₂, hlink, hseg, hsame, hnode⟩ :=
    hlist.seg.putBack hlist.nodup hp hn
  refine ⟨h₃, ⟨if l.last = none then some p else l.first, some p, l.length + 1⟩, ?_,
    ⟨?_, hseg, ?_, ?_, ?_⟩, hsame, hnode⟩
  · simp only [pushListNode, hset₁, hlist.last, hset₂, hlink, Option.bind_eq_bind,
      Option.bind_some]
  · exact List.nodup_append.2 ⟨hlist.nodup, nodup_singleton p, by
      rintro a ha b hb rfl
      exact hp (List.mem_singleton.1 hb ▸ ha)⟩
  · rw [hlist.last, hlist.first]
    cases ps with
    | nil => simp
    | cons a as => simp
  · simp
  · simp [hlist.length]

theorem unshiftListNode_spec {n : LinkedNode V} (hlist : IsList h l ps) (hp : p ∉ ps)
    (hn : h.node p = some n) :
    ∃ h' l', unshiftListNode h l p = some (h', l') ∧ IsList h' l' (p :: ps) ∧ SameValues h h' ∧
      ∀ q ∉ p :: ps, h'.node q = h.node q := by
  obtain ⟨h₁, h₂, h₃, hset₁, hset₂, hlink, hseg, hsame, hnode⟩ :=
    hlist.seg.putFront hlist.nodup hp hn
  refine ⟨h₃, ⟨some p, if l.first = none then some p else l.last, l.length + 1⟩, ?_,
    ⟨List.nodup_cons.2 ⟨hp, hlist.nodup⟩, hseg, rfl, ?_, ?_⟩, hsame, hnode⟩
  · simp only [unshiftListNode, hset₁, hlist.first, hset₂, hlink, Option.bind_eq_bind,
      Option.bind_some]
  · rw [hlist.first, hlist.last]
    cases ps with
    | nil => simp
    | cons a as => simp
  · simp [hlist.length]

theorem shiftListNode_spec (hlist : IsList h l (p :: ps)) :
    ∃ h' l', shiftListNode h l = some (h', l', some p) ∧ IsList h' l' ps ∧ SameValues h h' ∧
      ∀ q ∉ p :: ps, h'.node q = h.node q := by
  obtain ⟨⟨v, hv⟩, hrest⟩ := hlist.seg
  obtain ⟨hp, hnodup⟩ := List.nodup_cons.1 hlist.nodup
  obtain ⟨h₁, hlink, hseg, hsame, hnode⟩ := hrest.linkPrevious hnodup none
  obtain ⟨h₂, h₃, hset₂, hset₃, hseg', hsame', hnode'⟩ :=
    updateTwice_of_node (f := fun n => { n with previous := none })
      (g := fun n => { n with next := none }) (fun _ => rfl) (fun _ => rfl)
      ((hnode p hp).trans hv) hseg hp
  refine ⟨h₃, ⟨ps.head?, if l.last = some p then none else l.last, l.length - 1⟩, ?_,
    ⟨hnodup, hseg', rfl, ?_, ?_⟩, hsame.trans hsame', fun q hq => ?_⟩
  · simp [shiftListNode, hlist.first, hv, hlink, setPrevious, setNext, hset₂, hset₃]
  · rw [hlist.last, getLast?_cons]
    cases hlast : ps.getLast? with
    | none => simp
    | some q =>
      have hq : q ≠ p := by
        rintro rfl
        exact hp (mem_of_getLast? hlast)
      simp [hq]
  · simp [hlist.length]
  · rw [mem_cons, not_or] at hq
    rw [hnode' q hq.1, hnode q hq.2]

theorem unshiftListNode_shiftListNode (hlist : IsList h l (p :: ps)) :
    ∃ h' l', shiftListNode h l = some (h', l', some p) ∧ h'.value p = h.value p ∧
      unshiftListNode h' l' p = some (h, l) := by
  obtain ⟨h₁, l₁, hshift, hlist₁, hsame₁, hnode₁⟩ := shiftListNode_spec hlist
  obtain ⟨n, hn⟩ := hlist.seg.exists_node (mem_cons_self (a := p))
  have hvalue₁ : (h₁.node p).isSome := by
    have hvalue := hsame₁.value p
    rw [value, value, hn] at hvalue
    rw [← Option.isSome_map, hvalue]
    rfl
  obtain ⟨n₁, hn₁⟩ := Option.isSome_iff_exists.1 hvalue₁
  obtain ⟨h₂, l₂, hunshift, hlist₂, hsame₂, hnode₂⟩ :=
    unshiftListNode_spec hlist₁ (List.nodup_cons.1 hlist.nodup).1 hn₁
  have hsame := hsame₁.trans hsame₂
  have hheap : h₂ = h := by
    refine Heap.ext_node hsame.bound fun q => ?_
    by_cases hq : q ∈ p :: ps
    · exact hlist₂.seg.node_eq hlist.seg (fun q _ => hsame.value q) q hq
    · rw [hnode₂ q hq, hnode₁ q hq]
  refine ⟨h₁, l₁, hshift, hsame₁.value p, ?_⟩
  rw [hunshift, hheap, hlist₂.ends_eq hlist]

theorem linkAround_eq (h : Heap (LinkedNode V)) (l : ListEnds) (next previous : Option ℕ) :
    linkAround h l next previous =
      ((h.linkNext previous next).bind fun h => h.linkPrevious next previous).map fun h =>
        (h, ⟨if previous = none then next else l.first,
          if next = none then previous else l.last, l.length⟩) := by
  cases previous with
  | none =>
    cases next with
    | none => simp [linkAround, Heap.linkNext, Heap.linkPrevious]
    | some q => cases hset : h.setPrevious q none <;>
        simp [linkAround, Heap.linkNext, Heap.linkPrevious, hset]
  | some r =>
    cases next with
    | none => cases hset : h.setNext r none <;>
        simp [linkAround, Heap.linkNext, Heap.linkPrevious, hset]
    | some q =>
      cases hset : h.setNext r (some q) with
      | none => simp [linkAround, Heap.linkNext, hset]
      | some h₁ => cases hset' : h₁.setPrevious q (some r) <;>
          simp [linkAround, Heap.linkNext, Heap.linkPrevious, hset, hset']

/-- A node is taken out, and the rest keeps its order. -/
theorem removeInternalListNode_spec (hlist : IsList h l (as ++ p :: bs)) :
    ∃ h' l', removeInternalListNode h l p = some (h', l') ∧ IsList h' l' (as ++ bs) ∧
      SameValues h h' ∧ ∀ q ∉ as ++ p :: bs, h'.node q = h.node q := by
  obtain ⟨v, hv⟩ := hlist.seg.node_middle
  obtain ⟨hp, hnodup⟩ := List.nodup_cons.1 (List.nodup_middle.1 hlist.nodup)
  obtain ⟨h₁, h₂, hlink₁, hlink₂, hseg, hsame, hnode⟩ := hlist.seg.unlink hlist.nodup
  obtain ⟨h₃, h₄, hset₃, hset₄, hseg', hsame', hnode'⟩ :=
    updateTwice_of_node (f := fun n => { n with next := none })
      (g := fun n => { n with previous := none }) (fun _ => rfl) (fun _ => rfl)
      ((hnode p hp).trans hv) hseg hp
  refine ⟨h₄, ⟨if as.getLast? = none then bs.head? else l.first,
    if bs.head? = none then as.getLast? else l.last, l.length - 1⟩, ?_,
    ⟨hnodup, hseg', ?_, ?_, ?_⟩, hsame.trans hsame', fun q hq => ?_⟩
  · simp [removeInternalListNode, hv, linkAround_eq, hlink₁, hlink₂, setNext, setPrevious, hset₃,
      hset₄]
  · rw [hlist.first]
    cases as with
    | nil => simp
    | cons a as => simp
  · rw [hlist.last]
    cases bs with
    | nil => simp
    | cons b bs => simp [getLast?_append, getLast?_cons]
  · simp [hlist.length]
    omega
  · rw [mem_append, mem_cons, not_or, not_or] at hq
    rw [hnode' q hq.2.1, hnode q]
    simp [hq.1, hq.2.2]

end Spec

end

/-!
## The queue of `priority_queue.c`

The elements with one priority are in a list, in the order in which they came, and
the lists are in a tree under their priorities. A second tree, under the hashes of
the ids, has the list and the list node of each element, and the queue remembers its
first element by itself.

The elements, the list nodes and the lists are in memory. A function that reads a
record that is not there, or writes to it or frees it, has a fault, which is `none`
here. The records of the second tree are in one place at a time, so that they are
values of the tree.
-/

open Bandwidth TreeMap

structure PriorityQueueNode (V : Type) where
  priority : ℕ
  id : String
  value : V
  deriving DecidableEq

/-- `id_map_node`: the addresses of a list and of a node in it. -/
structure IdMapNode where
  idList : ℕ
  idNode : ℕ
  deriving DecidableEq

/-- `priority_queue`, and the memory for its records. -/
structure PriorityQueue (V : Type) where
  pqNodes : Heap (PriorityQueueNode V)
  listNodes : Heap (LinkedNode ℕ)
  lists : Heap ListEnds
  priorities : LongMap ℕ ℕ
  ids : StringMap IdMapNode
  first : Option ℕ
  length : ℤ

namespace PriorityQueue

variable {V : Type}

def initializePriorityQueue : PriorityQueue V where
  pqNodes := .empty
  listNodes := .empty
  lists := .empty
  priorities := .empty
  ids := .initializeStringMap false
  first := none
  length := 0

/-- `create_priority_node`, with the address of the node. -/
def createPriorityNode (pq : PriorityQueue V) (priority : ℕ) (id : String) (value : V) :
    PriorityQueue V × ℕ :=
  let new := pq.pqNodes.alloc ⟨priority, id, value⟩
  ({ pq with pqNodes := new.1 }, new.2)

/-- `free_priority_queue_node`, with the value of the node. -/
def freePriorityQueueNode (pq : PriorityQueue V) (pn : ℕ) : Option (PriorityQueue V × V) := do
  let n ← pq.pqNodes.node pn
  some ({ pq with pqNodes := pq.pqNodes.free pn }, n.value)

/-! ### The functions of `list.c`, for a list of the queue -/

def pushListNode (pq : PriorityQueue V) (l newNode : ℕ) : Option (PriorityQueue V) := do
  let ends ← pq.lists.node l
  let (listNodes, ends) ← EricsTools.pushListNode pq.listNodes ends newNode
  some { pq with listNodes := listNodes, lists := pq.lists.modify l fun _ => ends }

def unshiftListNode (pq : PriorityQueue V) (l newNode : ℕ) : Option (PriorityQueue V) := do
  let ends ← pq.lists.node l
  let (listNodes, ends) ← EricsTools.unshiftListNode pq.listNodes ends newNode
  some { pq with listNodes := listNodes, lists := pq.lists.modify l fun _ => ends }

def removeInternalListNode (pq : PriorityQueue V) (l internal : ℕ) : Option (PriorityQueue V) := do
  let ends ← pq.lists.node l
  let (listNodes, ends) ← EricsTools.removeInternalListNode pq.listNodes ends internal
  some { pq with listNodes := listNodes, lists := pq.lists.modify l fun _ => ends }

def shiftListNode (pq : PriorityQueue V) (l : ℕ) : Option (PriorityQueue V × Option ℕ) := do
  let ends ← pq.lists.node l
  let (listNodes, ends, returnNode) ← EricsTools.shiftListNode pq.listNodes ends
  some ({ pq with listNodes := listNodes, lists := pq.lists.modify l fun _ => ends }, returnNode)

def freeListNode (pq : PriorityQueue V) (deleteNode : ℕ) : Option (PriorityQueue V × ℕ) := do
  let (listNodes, value) ← EricsTools.freeListNode pq.listNodes deleteNode
  some ({ pq with listNodes := listNodes }, value)

/-- The loop of `destroy_list`: each round takes a node off the list. -/
def destroyRounds : ℕ → PriorityQueue V → ℕ → Option (PriorityQueue V)
  | 0, pq, _ => some pq
  | rounds + 1, pq, l => do
    let (pq, node) ← pq.shiftListNode l
    let pq ←
      match node with
      | none => some pq
      | some node => (pq.freeListNode node).map Prod.fst
    destroyRounds rounds pq l

/-- `destroy_list` in the mode that ignores the values. Every round makes the list
shorter by one. -/
def destroyList (pq : PriorityQueue V) (l : ℕ) : Option (PriorityQueue V) := do
  let ends ← pq.lists.node l
  let pq ← destroyRounds ends.length.toNat pq l
  some { pq with lists := pq.lists.free l }

/-! ### Elements -/

/-- `pq->first` becomes the first element of a list: its node is taken off the list and
put back. -/
def resetFirst (pq : PriorityQueue V) : Option ℕ → Option (PriorityQueue V)
  | none => some { pq with first := none }
  | some nextFirstList => do
    let (pq, node) ← pq.shiftListNode nextFirstList
    let nextFirstNode ← node
    let value ← pq.listNodes.value nextFirstNode
    { pq with first := some value }.unshiftListNode nextFirstList nextFirstNode

variable [Kernel]

def pushOnPriority (pq : PriorityQueue V) (priority lpn : ℕ) : Option (PriorityQueue V × ℕ) := do
  let new := pq.lists.alloc initializeList
  let pq ← { pq with lists := new.1 }.pushListNode new.2 lpn
  let set := pq.priorities.setLongMapElement priority new.2
  let pq := { pq with priorities := set.1 }
  match set.2 with
  | none => some (pq, new.2)
  | some oldList => do
    let pq ← pq.pushListNode oldList lpn
    let priorities := (pq.priorities.setLongMapElement priority oldList).1
    some ({ pq with priorities := priorities, lists := pq.lists.free new.2 }, oldList)

/-- The first element of a queue to which `pn` is added. -/
def firstWith (pq : PriorityQueue V) (priority pn : ℕ) : Option ℕ :=
  match pq.first with
  | none => some pn
  | some first => do
    let n ← pq.pqNodes.node first
    some (if priority < n.priority then pn else first)

def pushPriorityQueueNode (pq : PriorityQueue V) (pn : ℕ) : Option (PriorityQueue V) := do
  let n ← pq.pqNodes.node pn
  let lpn := createListNode pq.listNodes pn
  let (pq, list) ← { pq with listNodes := lpn.1 }.pushOnPriority n.priority lpn.2
  let first ← pq.firstWith n.priority pn
  let ids := (pq.ids.setStringMapElement n.id ⟨list, lpn.2⟩).1
  some { pq with first := some first, ids := ids, length := pq.length + 1 }

/-- `shift_priority_queue_node`, with the node that was taken off. -/
def shiftPriorityQueueNode (pq : PriorityQueue V) : Option (PriorityQueue V × Option ℕ) :=
  match pq.first with
  | none => some (pq, none)
  | some first => do
    let n ← pq.pqNodes.node first
    let removed := pq.priorities.removeLongMapElement n.priority
    let nextList ← removed.2
    let (pq, node) ← { pq with priorities := removed.1 }.shiftListNode nextList
    let smallestListNode ← node
    let ends ← pq.lists.node nextList
    let (pq, nextFirstList) ←
      if ends.length = 0 then do
        let pq ← pq.destroyList nextList
        some (pq, (pq.priorities.getSmallestLongMapElement 0).1)
      else
        let priorities := (pq.priorities.setLongMapElement n.priority nextList).1
        some ({ pq with priorities := priorities }, some nextList)
    let (pq, returnNode) ← pq.freeListNode smallestListNode
    let r ← pq.pqNodes.node returnNode
    let pq ← { pq with ids := (pq.ids.removeStringMapElement r.id).1 }.resetFirst nextFirstList
    some ({ pq with length := pq.length - 1 }, some returnNode)

def getPriorityQueueNodeWithId (pq : PriorityQueue V) (id : String) : Option (Option ℕ) :=
  match pq.ids.getStringMapElement id with
  | none => some none
  | some idn => (pq.listNodes.value idn.idNode).map some

/-- `remove_priority_queue_node_with_id`, with the node that was removed. -/
def removePriorityQueueNodeWithId (pq : PriorityQueue V) (id : String) :
    Option (PriorityQueue V × Option ℕ) :=
  let removed := pq.ids.removeStringMapElement id
  match removed.2 with
  | none => some ({ pq with ids := removed.1 }, none)
  | some idn => do
    let pq ← { pq with ids := removed.1 }.removeInternalListNode idn.idList idn.idNode
    let (pq, returnNode) ← pq.freeListNode idn.idNode
    let ends ← pq.lists.node idn.idList
    let pq ←
      if ends.length = 0 then do
        let r ← pq.pqNodes.node returnNode
        let priorities := (pq.priorities.removeLongMapElement r.priority).1
        { pq with priorities := priorities }.destroyList idn.idList
      else some pq
    let pq ←
      if pq.first = some returnNode then
        pq.resetFirst (pq.priorities.getSmallestLongMapElement 0).1
      else some pq
    some ({ pq with length := pq.length - 1 }, some returnNode)

/-! ### The functions of the queue -/

def pushPriorityQueue (pq : PriorityQueue V) (priority : ℕ) (id : String) (value : V) :
    Option (PriorityQueue V) :=
  let new := pq.createPriorityNode priority id value
  new.1.pushPriorityQueueNode new.2

/-- `shift_priority_queue`. The priority and the id are copied before the node is
freed. -/
def shiftPriorityQueue (pq : PriorityQueue V) :
    Option (PriorityQueue V × Option (PriorityQueueNode V)) := do
  let (pq, node) ← pq.shiftPriorityQueueNode
  match node with
  | none => some (pq, none)
  | some pn => do
    let n ← pq.pqNodes.node pn
    let (pq, value) ← pq.freePriorityQueueNode pn
    some (pq, some { n with value := value })

def peekPriorityQueue (pq : PriorityQueue V) : Option (Option (PriorityQueueNode V)) :=
  match pq.first with
  | none => some none
  | some first => (pq.pqNodes.node first).map some

/-- The priority as the functions with a `long` return it. -/
def asLong (priority : ℕ) : ℤ := (BitVec.ofNat Kernel.ulongBits priority).toInt

/-- The end of the two functions with an id: the node they have found is freed. The
value is `NULL` and the priority 0 if there is none. -/
def freeFound (pq : PriorityQueue V) : Option ℕ → Option (PriorityQueue V × Option V × ℤ)
  | none => some (pq, none, 0)
  | some pn => do
    let n ← pq.pqNodes.node pn
    let (pq, value) ← pq.freePriorityQueueNode pn
    some (pq, some value, asLong n.priority)

def getPriorityQueueElementWithId (pq : PriorityQueue V) (id : String) :
    Option (PriorityQueue V × Option V × ℤ) := do
  let node ← pq.getPriorityQueueNodeWithId id
  pq.freeFound node

def removePriorityQueueElementWithId (pq : PriorityQueue V) (id : String) :
    Option (PriorityQueue V × Option V × ℤ) := do
  let (pq, node) ← pq.removePriorityQueueNodeWithId id
  pq.freeFound node

def setPriorityForIdInPriorityQueue (pq : PriorityQueue V) (id : String) (priority : ℕ) :
    Option (PriorityQueue V) := do
  let (pq, node) ← pq.removePriorityQueueNodeWithId id
  let idPqNode ← node
  let pqNodes ← pq.pqNodes.update idPqNode fun n => { n with priority := priority }
  { pq with pqNodes := pqNodes }.pushPriorityQueueNode idPqNode

end PriorityQueue

end EricsTools

end Gargoyle
