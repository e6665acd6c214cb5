import Gargoyle.EricsTools.PriorityQueue
import Mathlib.Data.List.MinMax

/-!
# What a priority queue is for

The elements of a stable queue are a list in the order in which they have come. The
next one is the first among those with the least priority number. An element whose
priority is changed comes once more.
-/

namespace Gargoyle

open List

namespace EricsTools

/-! ## The first of the least -/

section Argmin

variable {α β : Type*} {f : α → ℕ} {as : List α} {a : α}

/-- The first of the elements with the least key. -/
theorem argmin_of_head?_filter {k : ℕ} (hle : ∀ b ∈ as, k ≤ f b)
    (hhead : (as.filter fun b => f b = k).head? = some a) : as.argmin f = some a := by
  induction as using List.reverseRecOn with
  | nil => cases hhead
  | append_singleton as b ih =>
    have hle' : ∀ c ∈ as, k ≤ f c := fun c hc => hle c (mem_append_left _ hc)
    have hb : k ≤ f b := hle b (by simp)
    rw [argmin_concat]
    rw [filter_append, head?_append] at hhead
    cases hbefore : (as.filter fun b => f b = k).head? with
    | some c =>
      rw [hbefore, Option.some_or] at hhead
      obtain rfl := Option.some.inj hhead
      have hc : f c = k := by
        simpa using (List.mem_filter.1 (mem_of_mem_head? hbefore)).2
      rw [ih hle' hbefore]
      simp only [hc, not_lt.2 hb, if_false]
    | none =>
      rw [hbefore, Option.none_or] at hhead
      obtain ⟨rfl, hk⟩ : b = a ∧ f b = k := by
        by_cases hk : f b = k
        · simpa [hk] using hhead
        · simp [hk] at hhead
      cases hmin : as.argmin f with
      | none => rfl
      | some c =>
        have hc := argmin_mem hmin
        have hne : f c ≠ k := fun heq => by
          have hmem : c ∈ as.filter fun b => f b = k := by simp [hc, heq]
          rw [List.head?_eq_none_iff.1 hbefore] at hmem
          cases hmem
        have hlt : f b < f c := by
          rw [hk]
          exact lt_of_le_of_ne (hle' c hc) hne.symm
        simp only [hlt, if_true]

theorem head?_filter_of_argmin (hmin : as.argmin f = some a) :
    (as.filter fun b => f b = f a).head? = some a := by
  have hle : ∀ b ∈ as, f a ≤ f b := fun b hb => le_of_mem_argmin hb hmin
  cases hhead : (as.filter fun b => f b = f a).head? with
  | none =>
    have hmem : a ∈ as.filter fun b => f b = f a := by simp [argmin_mem hmin]
    rw [List.head?_eq_none_iff.1 hhead] at hmem
    cases hmem
  | some b => rw [← hmin, argmin_of_head?_filter hle hhead]

theorem argmin_middle_of_ne {bs : List α} {c : α} (hmin : (as ++ a :: bs).argmin f = some c)
    (hne : c ≠ a) : (as ++ bs).argmin f = some c := by
  refine argmin_of_head?_filter (k := f c) (fun b hb => le_of_mem_argmin ?_ hmin) ?_
  · rw [mem_append] at hb ⊢
    exact hb.imp id (mem_cons_of_mem _)
  · have hhead := head?_filter_of_argmin hmin
    rw [filter_append, head?_append] at hhead ⊢
    cases has : (as.filter fun b => f b = f c).head? with
    | some b => rwa [has, Option.some_or] at hhead
    | none =>
      rw [has, Option.none_or] at hhead
      rw [Option.none_or]
      by_cases ha : f a = f c
      · rw [filter_cons_of_pos (by simpa using ha)] at hhead
        exact absurd (Option.some.inj hhead).symm hne
      · rwa [filter_cons_of_neg (by simpa using ha)] at hhead

theorem argmin_map (g : β → α) (bs : List β) :
    (bs.map g).argmin f = (bs.argmin (f ∘ g)).map g := by
  induction bs using List.reverseRecOn with
  | nil => rfl
  | append_singleton bs b ih =>
    rw [map_append, map_singleton, argmin_concat, argmin_concat, ih]
    cases bs.argmin (f ∘ g) with
    | none => rfl
    | some c =>
      simp only [Option.map_some, Function.comp]
      split_ifs <;> rfl

end Argmin

/-! ## The operations -/

inductive QueueOp (V : Type)
  | push (priority : ℕ) (id : String) (value : V)
  | shift
  | peek
  | get (id : String)
  | remove (id : String)
  | setPriority (id : String) (priority : ℕ)

inductive QueueAnswer (V : Type)
  | done
  | element (e : Option (PriorityQueueNode V))
  | value (v : Option V) (priority : ℤ)
  deriving DecidableEq

section

variable {V : Type} [Bandwidth.Kernel]

def PriorityQueue.apply (pq : PriorityQueue V) :
    QueueOp V → Option (PriorityQueue V × QueueAnswer V)
  | .push priority id value => (pq.pushPriorityQueue priority id value).map fun pq => (pq, .done)
  | .shift => pq.shiftPriorityQueue.map fun r => (r.1, .element r.2)
  | .peek => pq.peekPriorityQueue.map fun e => (pq, .element e)
  | .get id => (pq.getPriorityQueueElementWithId id).map fun r => (r.1, .value r.2.1 r.2.2)
  | .remove id => (pq.removePriorityQueueElementWithId id).map fun r => (r.1, .value r.2.1 r.2.2)
  | .setPriority id priority =>
    (pq.setPriorityForIdInPriorityQueue id priority).map fun pq => (pq, .done)

def PriorityQueue.run (pq : PriorityQueue V) :
    List (QueueOp V) → Option (PriorityQueue V × List (QueueAnswer V))
  | [] => some (pq, [])
  | op :: ops => do
    let (pq, answer) ← pq.apply op
    let (pq, answers) ← pq.run ops
    some (pq, answer :: answers)

namespace StableQueue

def next (es : List (PriorityQueueNode V)) : Option (PriorityQueueNode V) :=
  es.argmin PriorityQueueNode.priority

def find (es : List (PriorityQueueNode V)) (id : String) : Option (PriorityQueueNode V) :=
  es.find? fun e => e.id = id

def without (es : List (PriorityQueueNode V)) (id : String) : List (PriorityQueueNode V) :=
  es.filter fun e => e.id ≠ id

def answer : Option (PriorityQueueNode V) → QueueAnswer V
  | none => .value none 0
  | some e => .value (some e.value) (PriorityQueue.asLong e.priority)

def apply (es : List (PriorityQueueNode V)) :
    QueueOp V → List (PriorityQueueNode V) × QueueAnswer V
  | .push priority id value => (es ++ [⟨priority, id, value⟩], .done)
  | .shift => ((next es).elim es fun e => without es e.id, .element (next es))
  | .peek => (es, .element (next es))
  | .get id => (es, answer (find es id))
  | .remove id => (without es id, answer (find es id))
  | .setPriority id priority =>
    ((find es id).elim es fun e => without es id ++ [{ e with priority := priority }], .done)

def run (es : List (PriorityQueueNode V)) :
    List (QueueOp V) → List (PriorityQueueNode V) × List (QueueAnswer V)
  | [] => (es, [])
  | op :: ops =>
    let r := run (apply es op).1 ops
    (r.1, (apply es op).2 :: r.2)

def Distinct (es : List (PriorityQueueNode V)) (id : String) : Prop :=
  ∀ e ∈ es, Bandwidth.sdbmStringHash e.id = Bandwidth.sdbmStringHash id → e.id = id

def Asked (es : List (PriorityQueueNode V)) : QueueOp V → Prop
  | .push _ id _ => Distinct es id ∧ ∀ e ∈ es, e.id ≠ id
  | .shift => True
  | .peek => True
  | .get id => Distinct es id
  | .remove id => Distinct es id
  | .setPriority id _ => Distinct es id ∧ ∃ e ∈ es, e.id = id

def Always (p : List (PriorityQueueNode V) → QueueOp V → Prop) :
    List (PriorityQueueNode V) → List (QueueOp V) → Prop
  | _, [] => True
  | es, op :: ops => p es op ∧ Always p (apply es op).1 ops

/-- No element that is in the queue is asked for with `get`. -/
def NotGot (es : List (PriorityQueueNode V)) : QueueOp V → Prop
  | .get id => ∀ e ∈ es, e.id ≠ id
  | _ => True

instance (es : List (PriorityQueueNode V)) (id : String) : Decidable (Distinct es id) :=
  inferInstanceAs (Decidable (∀ e ∈ es, _))

instance (es : List (PriorityQueueNode V)) : (op : QueueOp V) → Decidable (Asked es op)
  | .push _ _ _ => inferInstanceAs (Decidable (_ ∧ _))
  | .shift => inferInstanceAs (Decidable True)
  | .peek => inferInstanceAs (Decidable True)
  | .get id => inferInstanceAs (Decidable (Distinct es id))
  | .remove id => inferInstanceAs (Decidable (Distinct es id))
  | .setPriority _ _ => inferInstanceAs (Decidable (_ ∧ _))

instance (es : List (PriorityQueueNode V)) : (op : QueueOp V) → Decidable (NotGot es op)
  | .push _ _ _ => inferInstanceAs (Decidable True)
  | .shift => inferInstanceAs (Decidable True)
  | .peek => inferInstanceAs (Decidable True)
  | .get _ => inferInstanceAs (Decidable (∀ e ∈ es, _))
  | .remove _ => inferInstanceAs (Decidable True)
  | .setPriority _ _ => inferInstanceAs (Decidable True)

instance decidableAlways (p : List (PriorityQueueNode V) → QueueOp V → Prop)
    [∀ es op, Decidable (p es op)] : ∀ es ops, Decidable (Always p es ops)
  | _, [] => inferInstanceAs (Decidable True)
  | es, op :: ops =>
    have := decidableAlways p (apply es op).1 ops
    inferInstanceAs (Decidable (p es op ∧ Always p (apply es op).1 ops))

end StableQueue

end

/-!
## The records of a queue

A slot is an element with the addresses of its two nodes. `Holds pq gs` says that the
slots `gs`, in the order in which their elements have come, are what the two trees and
the lists of a queue have: the list of a priority has the nodes of the slots with this
priority, and every id leads to its node. What the functions do to the records is
said here for one slot that comes, and for one that goes.
-/

open Bandwidth TreeMap Heap

structure Slot (V : Type) where
  elem : PriorityQueueNode V
  pqn : ℕ
  lnode : ℕ

variable {V : Type}

def bucket (gs : List (Slot V)) (k : ℕ) : List (Slot V) :=
  gs.filter fun g => g.elem.priority = k

def nextNode (gs : List (Slot V)) : Option ℕ :=
  (gs.argmin fun g => g.elem.priority).map Slot.pqn

section Bucket

variable {gs as bs : List (Slot V)} {g : Slot V} {k : ℕ}

theorem mem_bucket : g ∈ bucket gs k ↔ g ∈ gs ∧ g.elem.priority = k := by
  simp [bucket]

theorem bucket_append (as bs : List (Slot V)) (k : ℕ) :
    bucket (as ++ bs) k = bucket as k ++ bucket bs k :=
  filter_append ..

theorem bucket_cons_self (g : Slot V) (gs : List (Slot V)) :
    bucket (g :: gs) g.elem.priority = g :: bucket gs g.elem.priority := by
  simp [bucket]

theorem bucket_cons_of_ne (h : g.elem.priority ≠ k) : bucket (g :: gs) k = bucket gs k := by
  simp [bucket, h]

theorem bucket_middle_of_ne (h : g.elem.priority ≠ k) :
    bucket (as ++ g :: bs) k = bucket (as ++ bs) k := by
  rw [bucket_append, bucket_append, bucket_cons_of_ne h]

theorem lnode_ne_of_bucket {k' : ℕ} (hnodup : (gs.map Slot.lnode).Nodup) (hk : k' ≠ k) {p : ℕ}
    (hp : p ∈ (bucket gs k').map Slot.lnode) : p ∉ (bucket gs k).map Slot.lnode := by
  intro hp'
  obtain ⟨g, hg, rfl⟩ := List.mem_map.1 hp
  obtain ⟨g', hg', heq⟩ := List.mem_map.1 hp'
  obtain ⟨hmem, rfl⟩ := mem_bucket.1 hg
  obtain ⟨hmem', rfl⟩ := mem_bucket.1 hg'
  obtain rfl := inj_on_of_nodup_map hnodup hmem' hmem heq
  exact hk rfl

end Bucket

variable [Kernel]

structure Holds (pq : PriorityQueue V) (gs : List (Slot V)) : Prop where
  sound : pq.priorities.Sound
  idsSound : pq.ids.lm.Sound
  node : ∀ g ∈ gs, pq.pqNodes.node g.pqn = some g.elem
  value : ∀ g ∈ gs, pq.listNodes.value g.lnode = some g.pqn
  pqns : (gs.map Slot.pqn).Nodup
  lnodes : (gs.map Slot.lnode).Nodup
  hashes : (gs.map fun g => sdbmStringHash g.elem.id).Nodup
  /-- A priority without a list has no slots. -/
  empty : ∀ k, pq.priorities.lookup k = none → bucket gs k = []
  /-- The list of a priority. -/
  list : ∀ k l, pq.priorities.lookup k = some l → bucket gs k ≠ [] ∧
    ∃ ends, pq.lists.node l = some ends ∧ IsList pq.listNodes ends ((bucket gs k).map Slot.lnode)
  /-- Two priorities do not share a list. -/
  apart : ∀ k k' l, pq.priorities.lookup k = some l → pq.priorities.lookup k' = some l → k = k'
  /-- The id of a slot leads to it. -/
  found : ∀ g ∈ gs, ∃ l, pq.priorities.lookup g.elem.priority = some l ∧
    pq.ids.getStringMapElement g.elem.id = some ⟨l, g.lnode⟩
  /-- No other id leads anywhere. -/
  absent : ∀ id, (∀ g ∈ gs, sdbmStringHash g.elem.id ≠ sdbmStringHash id) →
    pq.ids.getStringMapElement id = none

theorem holds_initialize : Holds (PriorityQueue.initializePriorityQueue : PriorityQueue V) [] where
  sound := LongMap.Sound.empty
  idsSound := LongMap.Sound.empty
  node := fun _ h => nomatch h
  value := fun _ h => nomatch h
  pqns := nodup_nil
  lnodes := nodup_nil
  hashes := nodup_nil
  empty := fun _ _ => rfl
  list := fun _ _ h => nomatch h
  apart := fun _ _ _ h => nomatch h
  found := fun _ h => nomatch h
  absent := fun _ _ => rfl

namespace Holds

variable {pq : PriorityQueue V} {gs as bs : List (Slot V)} {g : Slot V} {k l : ℕ}

theorem withFirst (h : Holds pq gs) (first : Option ℕ) (length : ℤ) :
    Holds { pq with first := first, length := length } gs where
  sound := h.sound
  idsSound := h.idsSound
  node := h.node
  value := h.value
  pqns := h.pqns
  lnodes := h.lnodes
  hashes := h.hashes
  empty := h.empty
  list := h.list
  apart := h.apart
  found := h.found
  absent := h.absent

theorem withNodes (h : Holds pq gs) {pqNodes : Heap (PriorityQueueNode V)}
    (hnode : ∀ g ∈ gs, pqNodes.node g.pqn = pq.pqNodes.node g.pqn) :
    Holds { pq with pqNodes := pqNodes } gs where
  sound := h.sound
  idsSound := h.idsSound
  node := fun g hg => (hnode g hg).trans (h.node g hg)
  value := h.value
  pqns := h.pqns
  lnodes := h.lnodes
  hashes := h.hashes
  empty := h.empty
  list := h.list
  apart := h.apart
  found := h.found
  absent := h.absent

/-! ### The slot of the least priority -/

theorem getSmallest (h : Holds pq gs) (init : ℕ) :
    (gs = [] ∧ (pq.priorities.getSmallestLongMapElement init).1 = none) ∨
      ∃ k l, pq.priorities.lookup k = some l ∧ (∀ g ∈ gs, k ≤ g.elem.priority) ∧
        (pq.priorities.getSmallestLongMapElement init).1 = some l := by
  cases hlist : pq.priorities.root.toList with
  | nil =>
    refine .inl ⟨List.eq_nil_iff_forall_not_mem.2 fun g hg => ?_, ?_⟩
    · obtain ⟨l, hl, -⟩ := h.found g hg
      rw [LongMap.lookup, hlist] at hl
      cases hl
    · simp [LongMap.getSmallestLongMapElement, smallest_eq_head?, hlist]
  | cons e es =>
    have hleast := isLeast_of_head (hlist ▸ h.sound.ordered)
    have hlookup : ∀ k, pq.priorities.lookup k = (e :: es).lookup k := fun k => by
      rw [LongMap.lookup, hlist]
    refine .inr ⟨e.1, e.2, ?_, fun g hg => ?_, ?_⟩
    · rw [hlookup, lookup_cons_self]
    · obtain ⟨l, hl, -⟩ := h.found g hg
      refine hleast.2 ?_
      rw [Set.mem_ofPred_eq, ← hlookup, hl]
      rfl
    · simp [LongMap.getSmallestLongMapElement, smallest_eq_head?, hlist]

theorem argmin_of_list (h : Holds pq gs) (hl : pq.priorities.lookup k = some l)
    (hle : ∀ g ∈ gs, k ≤ g.elem.priority) :
    ∃ g rest, gs.argmin (fun g => g.elem.priority) = some g ∧ bucket gs k = g :: rest := by
  cases hbucket : bucket gs k with
  | nil => exact absurd hbucket (h.list k l hl).1
  | cons g rest =>
    refine ⟨g, rest, argmin_of_head?_filter hle ?_, rfl⟩
    change (bucket gs k).head? = some g
    rw [hbucket]
    rfl

theorem resetFirst_some (h : Holds pq gs) (hl : pq.priorities.lookup k = some l)
    (hle : ∀ g ∈ gs, k ≤ g.elem.priority) :
    pq.resetFirst (some l) =
      some { pq with first := nextNode gs } := by
  obtain ⟨g, rest, hmin, hbucket⟩ := h.argmin_of_list hl hle
  obtain ⟨-, ends, hends, hlist⟩ := h.list k l hl
  rw [hbucket, map_cons] at hlist
  obtain ⟨h', ends', hshift, hvalue, hunshift⟩ := unshiftListNode_shiftListNode hlist
  have hg : g ∈ gs := argmin_mem hmin
  have hends' := @node_modify_self _ _ _ _ (fun _ => ends') hends
  have hback : (pq.lists.modify l fun _ => ends').modify l (fun _ => ends) = pq.lists := by
    refine Heap.ext_node rfl fun q => ?_
    by_cases hq : q = l
    · subst hq
      rw [node_modify_self hends', hends]
    · rw [node_modify_of_ne hq, node_modify_of_ne hq]
  simp [PriorityQueue.resetFirst, PriorityQueue.shiftListNode, PriorityQueue.unshiftListNode, hends,
    hshift, hvalue, h.value g hg, hends', hunshift, hback, nextNode, hmin]

theorem resetFirst (h : Holds pq gs) (init : ℕ) :
    pq.resetFirst (pq.priorities.getSmallestLongMapElement init).1 =
      some { pq with first := nextNode gs } := by
  rcases h.getSmallest init with ⟨rfl, hnone⟩ | ⟨k, l, hl, hle, hsome⟩
  · rw [hnone]
    rfl
  · rw [hsome, h.resetFirst_some hl hle]

end Holds

end EricsTools

end Gargoyle
