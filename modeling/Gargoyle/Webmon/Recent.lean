import Gargoyle.Bandwidth.ReferenceKernel
import Gargoyle.Webmon.Defs

/-!
# The lists as lists of recent entries

The nodes of a queue are a linked list, with the latest entry first, and the map has
one entry for each of them (`Consistent`). Each of the functions keeps this, apart
from the removal of a node from the map under a key that is printed for another
family: the node is freed then, and stays in the map.
-/

namespace Gargoyle

open Option (bind_some map_some)

open List

namespace Webmon

open Heap
open Bandwidth (Kernel In6Addr sdbmStringHash)

section

variable [Kernel]

/-! ## The queue -/

namespace RecentList

variable {l : RecentList} {p : ℕ} {e : Entry} {as bs ps : List ℕ} {t : ℤ} {family : Family}

theorem node_of_value (hlist : l.heap.IsList l.queue (as ++ p :: bs))
    (he : l.heap.value p = some e) : l.heap.node p = some ⟨bs.head?, as.getLast?, e⟩ := by
  obtain ⟨v, hv⟩ := hlist.seg.node_middle
  rw [Heap.value, hv, map_some, Option.some.injEq] at he
  rw [hv, ← he]

/-- A node with a new time goes to the front. -/
theorem updateQueueNodeTime_spec (hlist : l.heap.IsList l.queue (as ++ p :: bs))
    (he : l.heap.value p = some e) :
    ∃ l', l.updateQueueNodeTime p t = some l' ∧ l'.heap.IsList l'.queue (p :: (as ++ bs)) ∧
      l'.heap.value p = some { e with time := t } ∧
      (∀ q ≠ p, l'.heap.value q = l.heap.value q) ∧ l'.index = l.index := by
  have hnode := node_of_value hlist he
  have hnodup := hlist.nodup
  have hout : p ∉ as ++ bs := (List.nodup_cons.1 (List.nodup_middle.1 hnodup)).1
  set h₀ := l.heap.modify p fun n => { n with value := { e with time := t } } with hh₀
  have hset : l.heap.setValue p { e with time := t } = some h₀ := update_of_node hnode
  have hseg₀ : h₀.Seg none (as ++ p :: bs) none := hlist.seg.modifyValue p _
  have hnode₀ : h₀.node p = some ⟨bs.head?, as.getLast?, { e with time := t }⟩ :=
    node_modify_self hnode
  have hother₀ : ∀ q ≠ p, h₀.value q = l.heap.value q := fun q hq => by
    rw [Heap.value, node_modify_of_ne hq, Heap.value]
  simp only [updateQueueNodeTime, hnode, bind_some, hset]
  rcases eq_nil_or_concat as with rfl | ⟨front, a, rfl⟩
  · refine ⟨_, rfl, ⟨hnodup, hseg₀, hlist.first, hlist.last, hlist.length⟩, ?_, hother₀, rfl⟩
    rw [Heap.value, hnode₀]
    rfl
  · rw [concat_eq_append] at *
    obtain ⟨h₁, h₂, hlink₁, hlink₂, hseg₂, hsame₂, hnode₂⟩ := hseg₀.unlink hnodup
    have hlast : (front ++ [a]).getLast? = some a := by simp
    obtain ⟨first, hfirst⟩ : ∃ first, (front ++ [a]).head? = some first := by
      cases front <;> exact ⟨_, rfl⟩
    have hqueue : l.queue.first = some first := by
      rw [hlist.first, head?_append, hfirst, Option.some_or]
    have hhead : (front ++ [a] ++ bs).head? = some first := by
      rw [head?_append, hfirst, Option.some_or]
    obtain ⟨h₃, h₄, h₅, hset₃, hset₄, hlink₅, hseg₅, hsame₅, -⟩ :=
      hseg₂.putFront (List.nodup_cons.1 (List.nodup_middle.1 hnodup)).2 hout
        ((hnode₂ p hout).trans hnode₀)
    rw [hlast] at hlink₁ hlink₂ ⊢
    rw [hhead] at hset₄ hlink₅
    have hset₁ : h₀.setNext a bs.head? = some h₁ := hlink₁
    have hset₅ : h₄.setPrevious first (some p) = some h₅ := hlink₅
    simp only [hset₁, hlink₂, hset₃, hqueue, hset₄, hset₅, bind_some, map_some]
    refine ⟨_, rfl, ⟨List.nodup_middle.1 hnodup, hseg₅, rfl, ?_, ?_⟩, ?_, fun q hq => ?_, rfl⟩
    · rw [hlist.last]
      cases bs with
      | nil => simp [getLast?_cons]
      | cons b bs => simp [getLast?_cons, getLast?_append]
    · rw [hlist.length]
      simp
      omega
    · rw [hsame₅.value, hsame₂.value, Heap.value, hnode₀]
      rfl
    · rw [hsame₅.value, hsame₂.value, hother₀ q hq]

/-- The last node is dropped from queue and index. -/
theorem dropLast_spec (hlist : l.heap.IsList l.queue (as ++ [p])) (has : as ≠ [])
    (he : l.heap.value p = some e) :
    ∃ l', l.dropLast family = some l' ∧ l'.heap.IsList l'.queue as ∧
      (∀ q ≠ p, l'.heap.value q = l.heap.value q) ∧
      l'.index = l.index.remove (printKey family e.srcIp e.value) ∧ l'.heap.value p = none := by
  have hnode := node_of_value hlist he
  obtain ⟨last, hlast⟩ : ∃ last, as.getLast? = some last :=
    Option.isSome_iff_exists.1 (List.getLast?_isSome.2 has)
  obtain ⟨h₁, h₂, hlink₁, hlink₂, hseg₂, hsame₂, -⟩ := hlist.seg.unlink hlist.nodup
  obtain rfl : h₁ = h₂ := Option.some.inj hlink₂
  have hqueue : l.queue.last = some p := by simp [hlist.last]
  rw [hlast] at hlink₁ hnode
  have hset : l.heap.setNext last none = some h₁ := hlink₁
  simp only [dropLast, hqueue, hnode, hset, bind_some, map_some]
  have hseg := IsList.seg_free hlist.nodup hseg₂
  rw [List.append_nil] at hseg
  refine ⟨_, rfl, ⟨(List.nodup_append.1 hlist.nodup).1, hseg, ?_, hlast.symm, ?_⟩,
    fun q hq => ?_, rfl, value_free_self h₁ p⟩
  · rw [hlist.first, head?_append]
    cases as with
    | nil => exact absurd rfl has
    | cons a as => rfl
  · rw [hlist.length, length_append, length_singleton]
    push_cast
    omega
  · rw [Heap.value, node_free_of_ne hq, ← Heap.value, hsame₂.value]

theorem addQueueNode_spec {srcIp : In6Addr} {value : List Char} {k : String} {maxLength : ℕ}
    (hlist : l.heap.IsList l.queue ps) :
    ∃ added : RecentList, l.addQueueNode family srcIp value k maxLength t =
        (if maxLength ≤ ps.length then added.dropLast family else some added) ∧
      added.heap.IsList added.queue (l.heap.bound :: ps) ∧
      added.heap.value l.heap.bound = some ⟨family, srcIp, value, t⟩ ∧
      (∀ q ≠ l.heap.bound, added.heap.value q = l.heap.value q) ∧
      added.index = l.index.set k l.heap.bound := by
  obtain ⟨heap, hlink, hlist', hvalue, hother⟩ := hlist.pushFront ⟨family, srcIp, value, t⟩
  refine ⟨⟨heap, _, l.index.set k l.heap.bound⟩, ?_, hlist', hvalue, hother, rfl⟩
  have hbound : (l.heap.alloc ⟨l.queue.first, none, ⟨family, srcIp, value, t⟩⟩).2 = l.heap.bound :=
    rfl
  have hlong : l.queue.length + 1 > (maxLength : ℤ) ↔ maxLength ≤ ps.length := by
    rw [hlist.length]
    omega
  rw [addQueueNode]
  dsimp only
  rw [hbound, hlink, bind_some]
  simp only [hlong]

/-- The first node is dropped if it was still typed. -/
theorem discard_spec {srcIp : In6Addr} {search : List Char}
    (hlist : l.heap.IsList l.queue (p :: bs)) (he : l.heap.value p = some e)
    (htyped : stillTyped e srcIp search t = true) :
    ∃ l', l.discard .ipv4 srcIp search t = some l' ∧ l'.heap.IsList l'.queue bs ∧
      (∀ q ≠ p, l'.heap.value q = l.heap.value q) ∧
      l'.index = l.index.remove (printKey .ipv4 e.srcIp e.value) ∧ l'.heap.value p = none := by
  have hnode := @node_of_value _ l p e [] bs hlist he
  obtain ⟨h₁, h₂, hlink₁, hlink₂, hseg₂, hsame₂, -⟩ :=
    @Seg.unlink _ l.heap p [] bs hlist.seg hlist.nodup
  obtain rfl : l.heap = h₁ := Option.some.inj hlink₁
  have hset : l.heap.linkPrevious bs.head? none = some h₂ := hlink₂
  simp only [discard, hlist.first, head?_cons, hnode, bind_some, htyped, if_true, hset,
    map_some]
  refine ⟨_, rfl, ⟨(List.nodup_cons.1 hlist.nodup).2, ?_, rfl, ?_, ?_⟩, fun q hq => ?_, rfl,
    value_free_self h₂ p⟩
  · exact @IsList.seg_free _ _ [] bs p hlist.nodup hseg₂
  · rw [hlist.last]
    cases bs with
    | nil => rfl
    | cons b bs => simp [getLast?_cons]
  · rw [hlist.length, length_cons]
    push_cast
    omega
  · rw [Heap.value, node_free_of_ne hq, ← Heap.value, hsame₂.value]

end RecentList

/-! ## The map -/

def Indexes (m : Bandwidth.StringMap ℕ) (ns : List (ℕ × String)) : Prop :=
  ∀ k p, (k, p) ∈ m.entries ↔ (p, k) ∈ ns

section Index

variable {m : Bandwidth.StringMap ℕ} {ns as bs : List (ℕ × String)} {n : ℕ × String} {k : String}

theorem Indexes.set {p : ℕ} (h : Indexes m ns)
    (hne : ∀ n ∈ ns, sdbmStringHash n.2 ≠ sdbmStringHash k) : Indexes (m.set k p) ((p, k) :: ns) := by
  intro k' p'
  rw [HashedMap.mem_entries_set, mem_cons, Prod.mk.injEq, Prod.mk.injEq, h k' p']
  constructor
  · rintro (⟨rfl, rfl⟩ | ⟨hmem, -⟩)
    · exact .inl ⟨rfl, rfl⟩
    · exact .inr hmem
  · rintro (⟨rfl, rfl⟩ | hmem)
    · exact .inl ⟨rfl, rfl⟩
    · exact .inr ⟨hmem, hne _ hmem⟩

theorem Indexes.remove (h : Indexes m (as ++ n :: bs))
    (hne : ∀ n' ∈ as ++ bs, sdbmStringHash n'.2 ≠ sdbmStringHash n.2) :
    Indexes (m.remove n.2) (as ++ bs) := by
  intro k p
  rw [HashedMap.mem_entries_remove, h k p]
  constructor
  · rintro ⟨hmem, hhash⟩
    rcases List.mem_append.1 hmem with hmem | hmem
    · exact mem_append_left _ hmem
    · rcases List.mem_cons.1 hmem with rfl | hmem
      · exact absurd rfl hhash
      · exact mem_append_right _ hmem
  · intro hmem
    refine ⟨?_, hne _ hmem⟩
    rcases List.mem_append.1 hmem with hmem | hmem
    · exact mem_append_left _ hmem
    · exact mem_append_right _ (mem_cons_of_mem _ hmem)

theorem Indexes.mem_of_get {p : ℕ} (h : Indexes m ns) (hget : m.get k = some p)
    (hdistinct : ∀ n ∈ ns, sdbmStringHash n.2 = sdbmStringHash k → n.2 = k) : (p, k) ∈ ns := by
  obtain ⟨k', hhash, hmem⟩ := m.exists_mem_of_get hget
  have hn := (h k' p).1 hmem
  obtain rfl : k' = k := hdistinct _ hn hhash
  exact hn

theorem Indexes.hash_ne_of_get (h : Indexes m ns) (hget : m.get k = none) (hn : n ∈ ns) :
    sdbmStringHash n.2 ≠ sdbmStringHash k :=
  (m.get_eq_none_iff k).1 hget (n.2, n.1) ((h n.2 n.1).2 hn)

end Index

/-! ## The order of the entries -/

def age (history : List (String × ℤ)) (k : String) : ℕ := (history.map Prod.fst).idxOf k

section Age

variable {history : List (String × ℤ)} {k k' : String} {t : ℤ}

omit [Kernel] in
theorem age_cons_self : age ((k, t) :: history) k = 0 := by
  simp [age]

omit [Kernel] in
theorem age_cons_of_ne (h : k' ≠ k) : age ((k, t) :: history) k' = age history k' + 1 := by
  rw [age, map_cons, idxOf_cons_ne _ (Ne.symm h), age]

omit [Kernel] in
theorem pairwise_age_cons {p : ℕ} {ns : List (ℕ × String)}
    (hrecent : ns.Pairwise fun n n' => age history n.2 < age history n'.2)
    (hne : ∀ n ∈ ns, n.2 ≠ k) :
    ((p, k) :: ns).Pairwise fun n n' =>
      age ((k, t) :: history) n.2 < age ((k, t) :: history) n'.2 := by
  refine List.pairwise_cons.2 ⟨fun n hn => ?_, hrecent.imp_of_mem fun hn hn' hlt => ?_⟩
  · rw [age_cons_self, age_cons_of_ne (hne n hn)]
    omega
  · rw [age_cons_of_ne (hne _ hn), age_cons_of_ne (hne _ hn')]
    omega

end Age

/-- The nodes `ns`, with their keys, are the queue, and the map has one entry for each
of them. A key was last recorded at the time of its node, and the nodes are in the
order in which their keys were last recorded. -/
structure Consistent (maxLength : ℕ) (history : List (String × ℤ)) (l : RecentList)
    (ns : List (ℕ × String)) : Prop where
  list : l.heap.IsList l.queue (ns.map Prod.fst)
  keyed : ∀ n ∈ ns, ∃ e, l.heap.value n.1 = some e ∧ e.key = n.2 ∧ history.lookup n.2 = some e.time
  length_le : ns.length ≤ maxLength
  index : Indexes l.index ns
  recent : ns.Pairwise fun n n' => age history n.2 < age history n'.2

def Entry.SameSource (e e' : Entry) : Prop :=
  e.family = e'.family ∧ e.srcIp 0 = e'.srcIp 0 ∧ (e.family = .ipv6 → e.srcIp = e'.srcIp)

theorem Entry.SameSource.printKey {e e' : Entry} (h : e.SameSource e') (value : List Char) :
    printKey e.family e.srcIp value = printKey e'.family e'.srcIp value := by
  obtain ⟨hfamily, hword, hip⟩ := h
  rw [← hfamily]
  cases hf : e.family with
  | ipv4 => simp only [Webmon.printKey, hword]
  | ipv6 => simp only [Webmon.printKey, hip hf]

def RecentList.NoTwins (l : RecentList) (ns : List (ℕ × String)) : Prop :=
  ∀ n ∈ ns, ∀ n' ∈ ns, ∀ e e', l.heap.value n.1 = some e → l.heap.value n'.1 = some e' →
    e.SameSource e' → e.value = e'.value → n = n'

def HashesDistinct (ks : List String) : Prop :=
  ∀ k ∈ ks, ∀ k' ∈ ks, sdbmStringHash k = sdbmStringHash k' → k = k'

def RecentList.DropsOwnFamily (l : RecentList) (maxLength : ℕ) (family : Family)
    (k : String) : Prop :=
  l.index.get k = none → l.queue.length = maxLength →
    ∀ p e, l.queue.last = some p → l.heap.value p = some e → e.family = family

def RecentList.DiscardsIpv4 (l : RecentList) (family : Family) (srcIp : In6Addr)
    (search : List Char) (t : ℤ) : Prop :=
  family = .ipv4 → ∀ p e, l.queue.first = some p → l.heap.value p = some e →
    stillTyped e srcIp search t = true → e.family = .ipv4

namespace Consistent

omit [Kernel] in
theorem sublist_middle {α : Type*} {as bs : List α} {n : α} :
    (as ++ bs).Sublist (as ++ n :: bs) :=
  List.Sublist.append_left (sublist_cons_self _ _) _

variable {maxLength : ℕ} {history : List (String × ℤ)} {l : RecentList} {ns as bs : List (ℕ × String)}
  {n : ℕ × String} {family : Family} {srcIp : In6Addr} {value : List Char} {t : ℤ}

theorem empty : Consistent maxLength [] .empty [] :=
  ⟨isList_nil _, fun _ hn => absurd hn not_mem_nil, Nat.zero_le _,
    fun _ _ => iff_of_false not_mem_nil not_mem_nil, List.Pairwise.nil⟩

theorem mem_history (h : Consistent maxLength history l ns) (hn : n ∈ ns) :
    n.2 ∈ history.map Prod.fst := by
  obtain ⟨e, -, -, hlookup⟩ := h.keyed n hn
  obtain ⟨l₁, l₂, hl, -⟩ := List.lookup_eq_some_iff.1 hlookup
  rw [hl]
  simp

theorem nodup_keys (h : Consistent maxLength history l ns) : (ns.map Prod.snd).Nodup := by
  refine List.pairwise_map.2 (h.recent.imp fun hlt heq => ?_)
  rw [heq] at hlt
  exact lt_irrefl _ hlt

theorem key_ne (h : Consistent maxLength history l (as ++ n :: bs)) {n' : ℕ × String}
    (hn' : n' ∈ as ++ bs) : n'.2 ≠ n.2 := by
  have hkeys := h.nodup_keys
  rw [map_append, map_cons, nodup_middle, ← map_append] at hkeys
  intro heq
  exact (List.nodup_cons.1 hkeys).1 (heq ▸ mem_map_of_mem hn')

theorem node_ne (h : Consistent maxLength history l (as ++ n :: bs)) {n' : ℕ × String}
    (hn' : n' ∈ as ++ bs) : n'.1 ≠ n.1 := by
  have hnodes := h.list.nodup
  rw [map_append, map_cons, nodup_middle, ← map_append] at hnodes
  intro heq
  exact (List.nodup_cons.1 hnodes).1 (heq ▸ mem_map_of_mem hn')

theorem hash_ne (h : Consistent maxLength history l (as ++ n :: bs))
    (hdistinct : HashesDistinct (history.map Prod.fst)) {n' : ℕ × String} (hn' : n' ∈ as ++ bs) :
    sdbmStringHash n'.2 ≠ sdbmStringHash n.2 := by
  intro heq
  exact h.key_ne hn' (hdistinct _ (h.mem_history (sublist_middle.mem hn')) _
    (h.mem_history (mem_append_right _ mem_cons_self)) heq)

theorem keyed_cons {k : String} (h : Consistent maxLength history l ns) {h' : Heap (LinkedNode Entry)}
    (hn : n ∈ ns) (hne : n.2 ≠ k) (hvalue : h'.value n.1 = l.heap.value n.1) :
    ∃ e, h'.value n.1 = some e ∧ e.key = n.2 ∧
      ((k, t) :: history).lookup n.2 = some e.time := by
  obtain ⟨e, he, hkey, htime⟩ := h.keyed n hn
  refine ⟨e, hvalue.trans he, hkey, ?_⟩
  rw [List.lookup_cons, beq_false_of_ne hne]
  exact htime

theorem update {k : String} {p : ℕ} (h : Consistent maxLength history l ns) (hmem : (p, k) ∈ ns) :
    ∃ l' ns', l.updateQueueNodeTime p t = some l' ∧
      Consistent maxLength ((k, t) :: history) l' ns' := by
  obtain ⟨as, bs, rfl⟩ := append_of_mem hmem
  obtain ⟨e, he, hkey, -⟩ := h.keyed (p, k) hmem
  have hlist := h.list
  rw [map_append, map_cons] at hlist
  obtain ⟨l', hupdate, hlist', hvalue, hother, hindex⟩ :=
    RecentList.updateQueueNodeTime_spec hlist he
  refine ⟨l', (p, k) :: (as ++ bs), hupdate, ?_, ?_, ?_, ?_, ?_⟩
  · rwa [map_cons, map_append]
  · intro n hn
    rcases List.mem_cons.1 hn with rfl | hn
    · exact ⟨_, hvalue, hkey, by simp⟩
    · exact h.keyed_cons (sublist_middle.mem hn) (h.key_ne hn) (hother _ (h.node_ne hn))
  · have hlen := h.length_le
    simp only [length_append, length_cons] at hlen ⊢
    omega
  · intro k' p'
    rw [hindex, h.index k' p']
    exact List.perm_middle.mem_iff
  · refine pairwise_age_cons ?_ fun n hn => h.key_ne hn
    exact h.recent.sublist sublist_middle

theorem takeOut {l' : RecentList} (h : Consistent maxLength history l (as ++ n :: bs))
    (hdistinct : HashesDistinct (history.map Prod.fst))
    (hlist : l'.heap.IsList l'.queue ((as ++ bs).map Prod.fst))
    (hother : ∀ q ≠ n.1, l'.heap.value q = l.heap.value q)
    (hindex : l'.index = l.index.remove n.2) : Consistent maxLength history l' (as ++ bs) := by
  refine ⟨hlist, fun n' hn' => ?_, ?_, ?_, h.recent.sublist sublist_middle⟩
  · rw [hother _ (h.node_ne hn')]
    exact h.keyed n' (sublist_middle.mem hn')
  · have hlen := h.length_le
    rw [length_append, length_cons] at hlen
    rw [length_append]
    omega
  · rw [hindex]
    exact h.index.remove fun n' hn' => h.hash_ne hdistinct hn'

/-- A new node keeps the list consistent with its history. -/
theorem add {k : String} (h : Consistent maxLength history l ns) (hmax : 1 ≤ maxLength)
    (hdistinct : HashesDistinct (k :: history.map Prod.fst)) (hk : k = printKey family srcIp value)
    (hget : l.index.get k = none) (hown : l.DropsOwnFamily maxLength family k) :
    ∃ l' ns', l.addQueueNode family srcIp value k maxLength t = some l' ∧
      Consistent maxLength ((k, t) :: history) l' ns' := by
  obtain ⟨added, hstep, hlist, hvalue, hother, hindex⟩ :=
    @RecentList.addQueueNode_spec _ l _ t family srcIp value k maxLength h.list
  have hne : ∀ n ∈ ns, n.2 ≠ k := by
    rintro n hn rfl
    exact h.index.hash_ne_of_get hget hn rfl
  have hnode : ∀ n ∈ ns, n.1 ≠ l.heap.bound :=
    fun n hn => h.list.ne_bound (mem_map_of_mem hn)
  -- before a node is dropped the list may be too long by one
  have hadded : Consistent (maxLength + 1) ((k, t) :: history) added
      ((l.heap.bound, k) :: ns) := by
    refine ⟨hlist, fun n hn => ?_, ?_, ?_, pairwise_age_cons h.recent hne⟩
    · rcases List.mem_cons.1 hn with rfl | hn
      · exact ⟨_, hvalue, hk.symm, by simp⟩
      · exact h.keyed_cons hn (hne n hn) (hother _ (hnode n hn))
    · rw [length_cons]
      exact Nat.succ_le_succ h.length_le
    · rw [hindex]
      exact h.index.set fun n hn => h.index.hash_ne_of_get hget hn
  rw [hstep, length_map]
  by_cases hlong : maxLength ≤ ns.length
  · rw [if_pos hlong]
    have hfull : ns.length = maxLength := le_antisymm h.length_le hlong
    rcases eq_nil_or_concat ns with rfl | ⟨front, old, rfl⟩
    · rw [length_nil] at hfull
      omega
    · rw [concat_eq_append] at *
      obtain ⟨e, he, hkey, -⟩ := h.keyed old (by simp)
      have hfamily : e.family = family := by
        refine hown hget ?_ old.1 e ?_ he
        · rw [h.list.length, length_map, hfull]
        · rw [h.list.last]
          simp
      have hold : added.heap.value old.1 = some e :=
        (hother _ (hnode old (by simp))).trans he
      have hlist' : added.heap.IsList added.queue
          ((((l.heap.bound, k) :: front).map Prod.fst) ++ [old.1]) := by
        simpa using hadded.list
      obtain ⟨l', hdrop, hlist'', hother', hindex', -⟩ :=
        @RecentList.dropLast_spec _ _ _ _ _ family hlist' (by simp) hold
      have hprint : printKey family e.srcIp e.value = old.2 := by
        rw [← hkey, Entry.key, hfamily]
      rw [hprint] at hindex'
      refine ⟨l', (l.heap.bound, k) :: front, hdrop, ?_⟩
      have hout := @takeOut _ _ _ _ ((l.heap.bound, k) :: front) [] old l' hadded hdistinct
        (by simpa using hlist'') hother' hindex'
      rw [List.append_nil] at hout
      refine ⟨hout.list, hout.keyed, ?_, hout.index, hout.recent⟩
      rw [length_append, length_singleton] at hfull
      rw [length_cons]
      omega
  · rw [if_neg hlong]
    refine ⟨added, _, rfl, hadded.list, hadded.keyed, ?_, hadded.index, hadded.recent⟩
    rw [length_cons]
    omega

theorem record (h : Consistent maxLength history l ns) (hmax : 1 ≤ maxLength)
    (hdistinct : HashesDistinct (printKey family srcIp value :: history.map Prod.fst))
    (hown : l.DropsOwnFamily maxLength family (printKey family srcIp value)) :
    ∃ l' ns', l.record maxLength family srcIp value t = some l' ∧
      Consistent maxLength ((printKey family srcIp value, t) :: history) l' ns' := by
  rw [RecentList.record]
  cases hget : l.index.get (printKey family srcIp value) with
  | some p =>
    refine h.update (h.index.mem_of_get hget fun n hn heq => ?_)
    exact hdistinct _ (mem_cons_of_mem _ (h.mem_history hn)) _ mem_cons_self heq
  | none => exact h.add hmax hdistinct rfl hget hown

theorem noTwins (h : Consistent maxLength history l ns) : l.NoTwins ns := by
  intro n hn n' hn' e e' he he' hsource hvalue
  obtain ⟨f, hf, hkey, -⟩ := h.keyed n hn
  obtain ⟨f', hf', hkey', -⟩ := h.keyed n' hn'
  obtain rfl : e = f := Option.some.inj (he.symm.trans hf)
  obtain rfl : e' = f' := Option.some.inj (he'.symm.trans hf')
  refine inj_on_of_nodup_map h.nodup_keys hn hn' ?_
  rw [← hkey, ← hkey', Entry.key, Entry.key, hsource.printKey, hvalue]

/-- Dropping what was still typed keeps the list consistent. -/
theorem discard {search : List Char} (h : Consistent maxLength history l ns)
    (hdistinct : HashesDistinct (history.map Prod.fst))
    (hown : l.DiscardsIpv4 family srcIp search t) :
    ∃ l' ns', l.discard family srcIp search t = some l' ∧ Consistent maxLength history l' ns' := by
  cases family with
  | ipv6 => exact ⟨l, ns, by rw [RecentList.discard], h⟩
  | ipv4 =>
    cases ns with
    | nil =>
      have hfirst : l.queue.first = none := h.list.first
      exact ⟨l, [], by simp only [RecentList.discard, hfirst], h⟩
    | cons n ns =>
      obtain ⟨e, he, hkey, -⟩ := h.keyed n mem_cons_self
      have hfirst : l.queue.first = some n.1 := h.list.first
      by_cases htyped : stillTyped e srcIp search t = true
      · have hfamily : e.family = .ipv4 := hown rfl n.1 e hfirst he htyped
        obtain ⟨l', hdiscard, hlist, hother, hindex, -⟩ :=
          RecentList.discard_spec h.list he htyped
        have hprint : printKey .ipv4 e.srcIp e.value = n.2 := by
          rw [← hkey, Entry.key, hfamily]
        rw [hprint] at hindex
        exact ⟨l', ns, hdiscard, @takeOut _ _ _ _ [] ns n l' h hdistinct hlist hother hindex⟩
      · have hnode := @RecentList.node_of_value _ l n.1 e [] (ns.map Prod.fst) h.list he
        refine ⟨l, n :: ns, ?_, h⟩
        simp only [RecentList.discard, hfirst, hnode, bind_some, htyped,
          Bool.false_eq_true, if_false]

end Consistent

end

/-!
## Runs of records

Both lists stay consistent along a run in which a node that is dropped for a record
has the family of the record, and a search that is discarded is one of an IPv4
address. When the two families are mixed otherwise, a freed node stays in the map.
-/

open Bandwidth (Kernel In6Addr sdbmStringHash referenceKernel)

section Runs

variable [Kernel]

def Event.domainRecord : Event → Option (String × ℤ)
  | .domain family srcIp value t => some (printKey family srcIp value, t)
  | _ => none

def Event.searchRecord : Event → Option (String × ℤ)
  | .search family srcIp value t => some (printKey family srcIp value, t)
  | _ => none

def history (kind : Event → Option (String × ℤ)) (events : List Event) : List (String × ℤ) :=
  (events.filterMap kind).reverse

def StepOk (maxDomains maxSearches : ℕ) (s : State) : Event → Prop
  | .domain family srcIp value _ =>
    s.domains.DropsOwnFamily maxDomains family (printKey family srcIp value)
  | .discard family srcIp search t => s.searches.DiscardsIpv4 family srcIp search t
  | .search family srcIp value _ =>
    s.searches.DropsOwnFamily maxSearches family (printKey family srcIp value)

def RunOk (maxDomains maxSearches : ℕ) : State → List Event → Prop
  | _, [] => True
  | s, e :: events =>
    StepOk maxDomains maxSearches s e ∧
      ∀ s', s.step maxDomains maxSearches e = some s' → RunOk maxDomains maxSearches s' events

def StateConsistent (maxDomains maxSearches : ℕ) (events : List Event) (s : State) : Prop :=
  (∃ ns, Consistent maxDomains (history Event.domainRecord events) s.domains ns) ∧
    ∃ ns, Consistent maxSearches (history Event.searchRecord events) s.searches ns

variable {maxDomains maxSearches : ℕ} {events : List Event} {s : State} {e : Event}

omit [Kernel] in
theorem history_concat_some {kind : Event → Option (String × ℤ)} {r : String × ℤ}
    (h : kind e = some r) : history kind (events ++ [e]) = r :: history kind events := by
  simp [history, h]

omit [Kernel] in
theorem history_concat_none {kind : Event → Option (String × ℤ)} (h : kind e = none) :
    history kind (events ++ [e]) = history kind events := by
  simp [history, h]

/-- A record keeps both lists consistent. -/
theorem StateConsistent.step (hdomains : 1 ≤ maxDomains) (hsearches : 1 ≤ maxSearches)
    (h : StateConsistent maxDomains maxSearches events s)
    (hdistinct : HashesDistinct ((history Event.domainRecord (events ++ [e])).map Prod.fst))
    (hdistinct' : HashesDistinct ((history Event.searchRecord (events ++ [e])).map Prod.fst))
    (hok : StepOk maxDomains maxSearches s e) :
    ∃ s', s.step maxDomains maxSearches e = some s' ∧
      StateConsistent maxDomains maxSearches (events ++ [e]) s' := by
  obtain ⟨⟨ns, hd⟩, ns', hs⟩ := h
  cases e with
  | domain family srcIp value t =>
    rw [history_concat_some rfl, map_cons] at hdistinct
    obtain ⟨l', ns'', hrecord, hd'⟩ := @hd.record _ _ _ _ _ _ _ _ t hdomains hdistinct hok
    refine ⟨{ s with domains := l' }, by rw [State.step, hrecord, map_some], ?_⟩
    refine ⟨⟨ns'', ?_⟩, ns', ?_⟩
    · rwa [history_concat_some rfl]
    · rwa [history_concat_none rfl]
  | discard family srcIp search t =>
    rw [history_concat_none rfl] at hdistinct'
    obtain ⟨l', ns'', hdiscard, hs'⟩ := hs.discard hdistinct' hok
    refine ⟨{ s with searches := l' }, by rw [State.step, hdiscard, map_some], ?_⟩
    refine ⟨⟨ns, ?_⟩, ns'', ?_⟩
    · rwa [history_concat_none rfl]
    · rwa [history_concat_none rfl]
  | search family srcIp value t =>
    rw [history_concat_some rfl, map_cons] at hdistinct'
    obtain ⟨l', ns'', hrecord, hs'⟩ := @hs.record _ _ _ _ _ _ _ _ t hsearches hdistinct' hok
    refine ⟨{ s with searches := l' }, by rw [State.step, hrecord, map_some], ?_⟩
    refine ⟨⟨ns, ?_⟩, ns'', ?_⟩
    · rwa [history_concat_none rfl]
    · rwa [history_concat_some rfl]

theorem HashesDistinct.mono {ks ks' : List String} (h : HashesDistinct ks') (hsub : ks ⊆ ks') :
    HashesDistinct ks :=
  fun k hk k' hk' => h k (hsub hk) k' (hsub hk')

omit [Kernel] in
theorem history_subset {kind : Event → Option (String × ℤ)} {past rest : List Event} :
    (history kind past).map Prod.fst ⊆ (history kind (past ++ rest)).map Prod.fst := by
  refine map_subset _ ?_
  rw [history, history, filterMap_append, reverse_append]
  exact subset_append_right _ _

theorem StateConsistent.run {past : List Event} (hdomains : 1 ≤ maxDomains)
    (hsearches : 1 ≤ maxSearches) (h : StateConsistent maxDomains maxSearches past s)
    (hdistinct : HashesDistinct ((history Event.domainRecord (past ++ events)).map Prod.fst))
    (hdistinct' : HashesDistinct ((history Event.searchRecord (past ++ events)).map Prod.fst))
    (hok : RunOk maxDomains maxSearches s events) :
    ∃ s', s.run maxDomains maxSearches events = some s' ∧
      StateConsistent maxDomains maxSearches (past ++ events) s' := by
  induction events generalizing past s with
  | nil => exact ⟨s, rfl, by rwa [List.append_nil]⟩
  | cons e events ih =>
    have hsplit : past ++ e :: events = past ++ [e] ++ events := by simp
    rw [hsplit] at hdistinct hdistinct' ⊢
    obtain ⟨s₁, hstep, h₁⟩ := h.step hdomains hsearches (hdistinct.mono history_subset)
      (hdistinct'.mono history_subset) hok.1
    obtain ⟨s₂, hrun, h₂⟩ := ih h₁ hdistinct hdistinct' (hok.2 s₁ hstep)
    exact ⟨s₂, by rw [State.run, hstep, bind_some, hrun], h₂⟩

/-- Both lists are consistent after a run in which the families are not mixed. -/
theorem run_consistent (hdomains : 1 ≤ maxDomains) (hsearches : 1 ≤ maxSearches)
    (hdistinct : HashesDistinct ((history Event.domainRecord events).map Prod.fst))
    (hdistinct' : HashesDistinct ((history Event.searchRecord events).map Prod.fst))
    (hok : RunOk maxDomains maxSearches .initial events) :
    ∃ s ns ns', State.initial.run maxDomains maxSearches events = some s ∧
      Consistent maxDomains (history Event.domainRecord events) s.domains ns ∧
      Consistent maxSearches (history Event.searchRecord events) s.searches ns' ∧
      s.domains.NoTwins ns ∧ s.searches.NoTwins ns' := by
  have hinitial : StateConsistent maxDomains maxSearches [] .initial :=
    ⟨⟨[], .empty⟩, [], .empty⟩
  obtain ⟨s, hrun, ⟨ns, hd⟩, ns', hs⟩ := hinitial.run hdomains hsearches hdistinct hdistinct' hok
  exact ⟨s, ns, ns', hrun, hd, hs, hd.noTwins, hs.noTwins⟩

end Runs

section Mixed

local instance mixedKernel : Kernel := referenceKernel 32

def visitor4 : In6Addr := ![0x04030201, 0x01010101, 0x01010101, 0x01010101]

def visitor6 : In6Addr := ![0xb80d0120, 0x01000100, 0x01000100, 0x01000100]

def sameFamily : List Event :=
  [.domain .ipv4 visitor4 "a.b".toList 0, .domain .ipv4 visitor4 "c.d".toList 1]

def mixedFamilies : List Event :=
  [.domain .ipv4 visitor4 "a.b".toList 0, .domain .ipv6 visitor6 "c.d".toList 1]

theorem sameFamily_ok : RunOk 1 1 .initial sameFamily := by
  refine ⟨fun _ hlength => absurd hlength (by decide), fun s hs => ⟨?_, fun _ _ => trivial⟩⟩
  obtain rfl := Option.some.inj hs
  rintro - - p e hp he
  obtain rfl := Option.some.inj hp
  obtain rfl := Option.some.inj he
  rfl

/-- The second visit drops the first. -/
theorem sameFamily_consistent :
    ∃ s ns, State.initial.run 1 1 sameFamily = some s ∧
      Consistent 1 (history Event.domainRecord sameFamily) s.domains ns := by
  obtain ⟨s, ns, -, hrun, hd, -⟩ := @run_consistent _ 1 1 sameFamily le_rfl le_rfl
    (by unfold HashesDistinct; decide) (by unfold HashesDistinct; decide)
    sameFamily_ok
  exact ⟨s, ns, hrun, hd⟩

/-- The second visit drops the first, whose node stays in the map. -/
theorem mixedFamilies_stale :
    HashesDistinct ((history Event.domainRecord mixedFamilies).map Prod.fst) ∧
      HashesDistinct ((history Event.searchRecord mixedFamilies).map Prod.fst) ∧
      ∃ s, State.initial.run 1 1 mixedFamilies = some s ∧
        ("1.2.3.4@a.b", 0) ∈ s.domains.index.entries ∧ s.domains.heap.node 0 = none ∧
        ∀ ns, ¬ Consistent 1 (history Event.domainRecord mixedFamilies) s.domains ns := by
  have hresult : (State.initial.run 1 1 mixedFamilies).map (fun s =>
      (decide (("1.2.3.4@a.b", 0) ∈ s.domains.index.entries), (s.domains.heap.node 0).isNone)) =
        some (true, true) := by decide +kernel
  obtain ⟨s, hs, hfacts⟩ := Option.map_eq_some_iff.1 hresult
  obtain ⟨hentry, hfreed⟩ := Prod.mk.inj hfacts
  replace hentry := of_decide_eq_true hentry
  replace hfreed := Option.isNone_iff_eq_none.1 hfreed
  refine ⟨by unfold HashesDistinct; decide, by unfold HashesDistinct; decide,
    s, hs, hentry, hfreed, fun ns h => ?_⟩
  obtain ⟨e, he, -⟩ := h.keyed _ ((h.index _ _).1 hentry)
  rw [Heap.value, hfreed] at he
  cases he

end Mixed

end Webmon

end Gargoyle
