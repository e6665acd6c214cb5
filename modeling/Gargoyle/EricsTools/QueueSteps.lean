import Gargoyle.EricsTools.StableQueue

/-!
# One slot comes, one slot goes

What `push_priority_queue_node` does to the records, and the two functions that take a
node out of the queue: both unlink a list node, and both give the list back when it
was the last one.
-/

namespace Gargoyle

open Function (update update_self update_of_ne)

open List

namespace EricsTools

open Bandwidth TreeMap Heap

variable {V : Type} [Kernel]

namespace Holds

variable {pq : PriorityQueue V} {gs as bs : List (Slot V)} {g : Slot V} {k l lpn pn : ℕ}

/-! ## A slot comes -/

/-- What becomes of the lists when the node `lpn` comes to the end of the one for the
priority `k`, which is `l` then. -/
structure Pushed (pq pq' : PriorityQueue V) (gs : List (Slot V)) (k l lpn : ℕ) : Prop where
  eq : pq' = { pq with
    listNodes := pq'.listNodes, lists := pq'.lists, priorities := pq'.priorities }
  sound : pq'.priorities.Sound
  lookup : pq'.priorities.lookup = update pq.priorities.lookup k (some l)
  list : ∃ ends, pq'.lists.node l = some ends ∧
    IsList pq'.listNodes ends ((bucket gs k).map Slot.lnode ++ [lpn])
  /-- The lists of the other priorities are other lists, and they are as before. -/
  others : ∀ k' l', k' ≠ k → pq.priorities.lookup k' = some l' →
    l' ≠ l ∧ pq'.lists.node l' = pq.lists.node l'
  same : ∀ p, pq'.listNodes.value p = pq.listNodes.value p
  frame : ∀ p ∉ (bucket gs k).map Slot.lnode ++ [lpn], pq'.listNodes.node p = pq.listNodes.node p

/-- Pushing on a list of a priority. -/
theorem pushOnPriority (h : Holds pq gs) {n : LinkedNode ℕ} {listNodes : Heap (LinkedNode ℕ)}
    (hsame : ∀ g ∈ gs, listNodes.node g.lnode = pq.listNodes.node g.lnode)
    (hn : listNodes.node lpn = some n) (hnew : lpn ∉ gs.map Slot.lnode) (k : ℕ) :
    ∃ pq' l, { pq with listNodes := listNodes }.pushOnPriority k lpn = some (pq', l) ∧
      Pushed { pq with listNodes := listNodes } pq' gs k l lpn ∧
      ∀ l', pq.priorities.lookup k = some l' → l = l' := by
  obtain ⟨h₁, ends₁, hpush₁, hlist₁, hsame₁, hframe₁⟩ :=
    pushListNode_spec (isList_nil listNodes) (not_mem_nil (a := lpn)) hn
  have hnode := @node_modify_self _ _ _ _ (fun _ => ends₁)
    (node_alloc_self pq.lists initializeList)
  obtain ⟨hsound, hlookup, hreturn⟩ := h.sound.lookup_set k pq.lists.bound
  have hbound : ∀ k' l', pq.priorities.lookup k' = some l' → l' ≠ pq.lists.bound := by
    intro k' l' hl'
    obtain ⟨-, ends, hends, -⟩ := h.list k' l' hl'
    exact Nat.ne_of_lt (lt_bound_of_node hends)
  have hold : ∀ l' ≠ pq.lists.bound, ((pq.lists.alloc initializeList).1.modify pq.lists.bound
      fun _ => ends₁).node l' = pq.lists.node l' :=
    fun l' hl' => (node_modify_of_ne hl').trans (node_alloc_of_ne _ hl')
  have hstart : { pq with
      listNodes := listNodes, lists := (pq.lists.alloc initializeList).1 }.pushListNode
        pq.lists.bound lpn = some { pq with
          listNodes := h₁
          lists := (pq.lists.alloc initializeList).1.modify pq.lists.bound fun _ => ends₁ } := by
    simp [PriorityQueue.pushListNode, node_alloc_self, initializeList, hpush₁]
  cases hcase : pq.priorities.lookup k with
  | none =>
    rw [hcase] at hreturn
    refine ⟨{ pq with
      listNodes := h₁
      lists := (pq.lists.alloc initializeList).1.modify pq.lists.bound fun _ => ends₁
      priorities := (pq.priorities.setLongMapElement k pq.lists.bound).1 },
      pq.lists.bound, ?_, ⟨rfl, hsound, hlookup, ⟨ends₁, hnode, ?_⟩, ?_, hsame₁.value, ?_⟩, ?_⟩
    · simp only [PriorityQueue.pushOnPriority]
      rw [show (pq.lists.alloc initializeList).2 = pq.lists.bound from rfl, hstart]
      simp [hreturn]
    · rw [h.empty k hcase]
      exact hlist₁
    · exact fun k' l' _ hl' => ⟨hbound k' l' hl', hold l' (hbound k' l' hl')⟩
    · intro p hp
      rw [h.empty k hcase] at hp
      exact hframe₁ p hp
    · intro l' hl'
      cases hl'
  | some l =>
    rw [hcase] at hreturn
    obtain ⟨-, ends, hends, hlist⟩ := h.list k l hcase
    have hl : l ≠ pq.lists.bound := hbound k l hcase
    have hnotin : lpn ∉ (bucket gs k).map Slot.lnode := by
      intro hmem
      obtain ⟨g, hg, heq⟩ := List.mem_map.1 hmem
      exact hnew (List.mem_map.2 ⟨g, (mem_bucket.1 hg).1, heq⟩)
    have hlist' : IsList h₁ ends ((bucket gs k).map Slot.lnode) := by
      refine hlist.congr fun p hp => ?_
      obtain ⟨g, hg, rfl⟩ := List.mem_map.1 hp
      rw [hframe₁ g.lnode, hsame g (mem_bucket.1 hg).1]
      rw [nil_append, mem_singleton]
      rintro rfl
      exact hnotin hp
    obtain ⟨⟨v, hv⟩, -⟩ := hlist₁.seg
    obtain ⟨h₂, ends₂, hpush₂, hlist₂, hsame₂, hframe₂⟩ := pushListNode_spec hlist' hnotin hv
    have hends' := (hold l hl).trans hends
    obtain ⟨hsound', hlookup', -⟩ := hsound.lookup_set k l
    refine ⟨{ pq with
      listNodes := h₂
      lists := (((pq.lists.alloc initializeList).1.modify pq.lists.bound fun _ => ends₁).modify l
        fun _ => ends₂).free pq.lists.bound
      priorities := ((pq.priorities.setLongMapElement k pq.lists.bound).1.setLongMapElement
        k l).1 }, l, ?_, ⟨rfl, hsound', ?_, ⟨ends₂, ?_, hlist₂⟩, ?_, ?_, ?_⟩, ?_⟩
    · simp only [PriorityQueue.pushOnPriority]
      rw [show (pq.lists.alloc initializeList).2 = pq.lists.bound from rfl, hstart]
      simp [hreturn, PriorityQueue.pushListNode, hends', hpush₂]
    · rw [hlookup', hlookup, Function.update_idem]
    · exact (node_free_of_ne hl).trans (node_modify_self hends')
    · intro k' l' hk' hl'
      have hne : l' ≠ l := fun heq => hk' (h.apart k' k l (heq ▸ hl') hcase)
      refine ⟨hne, (node_free_of_ne (hbound k' l' hl')).trans ?_⟩
      exact (node_modify_of_ne hne).trans (hold l' (hbound k' l' hl'))
    · exact fun p => (hsame₂.value p).trans (hsame₁.value p)
    · intro p hp
      rw [hframe₂ p hp, hframe₁ p]
      rw [mem_append, not_or] at hp
      simpa using hp.2
    · exact fun l' hl' => Option.some.inj hl'

omit [Kernel] in
theorem nodup_map_concat {f : Slot V → ℕ} (h : (gs.map f).Nodup) (hnew : f g ∉ gs.map f) :
    ((gs ++ [g]).map f).Nodup := by
  rw [map_append, map_singleton, ← concat_eq_append]
  exact h.concat hnew

/-- The slots after `push_priority_queue_node`. -/
theorem pushed {pq₁ : PriorityQueue V} {listNodes : Heap (LinkedNode ℕ)} (h : Holds pq gs)
    (hpushed : Pushed { pq with listNodes := listNodes } pq₁ gs g.elem.priority l g.lnode)
    (hlist : ∀ l', pq.priorities.lookup g.elem.priority = some l' → l = l')
    (hnode : pq.pqNodes.node g.pqn = some g.elem) (hvalue : listNodes.value g.lnode = some g.pqn)
    (hold : ∀ g' ∈ gs, listNodes.node g'.lnode = pq.listNodes.node g'.lnode)
    (hpqn : g.pqn ∉ gs.map Slot.pqn) (hlnode : g.lnode ∉ gs.map Slot.lnode)
    (hhash : ∀ g' ∈ gs, sdbmStringHash g'.elem.id ≠ sdbmStringHash g.elem.id)
    (first : Option ℕ) (length : ℤ) :
    Holds { pq₁ with
      first := first
      ids := (pq₁.ids.setStringMapElement g.elem.id ⟨l, g.lnode⟩).1
      length := length } (gs ++ [g]) := by
  have hids : pq₁.ids = pq.ids := by rw [hpushed.eq]
  have hnodes : pq₁.pqNodes = pq.pqNodes := by rw [hpushed.eq]
  have hpriorities : pq₁.priorities.lookup =
      update pq.priorities.lookup g.elem.priority (some l) := hpushed.lookup
  have hidsSound : pq₁.ids.lm.Sound := hids ▸ h.idsSound
  refine ⟨hpushed.sound, (hidsSound.lookup_set _ _).1, ?_, ?_, nodup_map_concat h.pqns hpqn,
    nodup_map_concat h.lnodes hlnode, nodup_map_concat h.hashes ?_, ?_, ?_, ?_, ?_, ?_⟩
  · intro g' hg'
    change pq₁.pqNodes.node g'.pqn = _
    rw [hnodes]
    rcases List.mem_append.1 hg' with hg' | hg'
    · exact h.node g' hg'
    · rw [List.mem_singleton.1 hg', hnode]
  · intro g' hg'
    refine (hpushed.same _).trans ?_
    rcases List.mem_append.1 hg' with hg' | hg'
    · exact (congrArg _ (hold g' hg')).trans (h.value g' hg')
    · rw [List.mem_singleton.1 hg']
      exact hvalue
  · intro hmem
    obtain ⟨g', hg', heq⟩ := List.mem_map.1 hmem
    exact hhash g' hg' heq
  · intro k hk
    have hne : k ≠ g.elem.priority := by
      rintro rfl
      rw [hpriorities, update_self] at hk
      cases hk
    rw [hpriorities, update_of_ne hne] at hk
    rw [bucket_append, h.empty k hk, bucket_cons_of_ne hne.symm]
    rfl
  · intro k l' hl'
    rw [hpriorities] at hl'
    rw [bucket_append]
    by_cases hk : k = g.elem.priority
    · subst hk
      rw [update_self] at hl'
      obtain rfl := Option.some.inj hl'
      rw [bucket_cons_self, map_append]
      exact ⟨by simp, hpushed.list⟩
    · rw [update_of_ne hk] at hl'
      obtain ⟨hne, ends, hends, hlist'⟩ := h.list k l' hl'
      rw [bucket_cons_of_ne (Ne.symm hk), show bucket ([] : List (Slot V)) k = [] from rfl,
        List.append_nil]
      refine ⟨hne, ends, (hpushed.others k l' hk hl').2.trans hends, hlist'.congr fun p hp => ?_⟩
      have hp' := lnode_ne_of_bucket h.lnodes hk hp
      obtain ⟨g', hg', rfl⟩ := List.mem_map.1 hp
      have hmem := (mem_bucket.1 hg').1
      refine (hpushed.frame _ ?_).trans (hold g' hmem)
      rw [mem_append, mem_singleton, not_or]
      exact ⟨hp', fun heq => hlnode (heq ▸ mem_map_of_mem hmem)⟩
  · intro k k' l' hk hk'
    rw [hpriorities] at hk hk'
    by_cases heq : k = g.elem.priority
    · subst heq
      by_contra hne
      rw [update_self] at hk
      rw [update_of_ne (Ne.symm hne)] at hk'
      exact (hpushed.others k' l' (Ne.symm hne) hk').1 (Option.some.inj hk).symm
    · rw [update_of_ne heq] at hk
      by_cases heq' : k' = g.elem.priority
      · subst heq'
        rw [update_self] at hk'
        exact absurd (Option.some.inj hk').symm (hpushed.others k l' heq hk).1
      · rw [update_of_ne heq'] at hk'
        exact h.apart k k' l' hk hk'
  · intro g' hg'
    rw [hpriorities, StringMap.get_set hidsSound, hids]
    rcases List.mem_append.1 hg' with hg' | hg'
    · obtain ⟨l', hl', hid⟩ := h.found g' hg'
      refine ⟨l', ?_, ?_⟩
      · by_cases heq : g'.elem.priority = g.elem.priority
        · rw [heq, update_self, hlist l' (heq ▸ hl')]
        · rw [update_of_ne heq, hl']
      · rw [if_neg (hhash g' hg').symm, hid]
    · obtain rfl := List.mem_singleton.1 hg'
      exact ⟨l, update_self .., if_pos rfl⟩
  · intro id habsent
    rw [StringMap.get_set hidsSound, if_neg (habsent g (by simp)), hids]
    exact h.absent id fun g' hg' => habsent g' (mem_append_left _ hg')

/-- Pushing keeps the queue. -/
theorem push (h : Holds pq gs) {e : PriorityQueueNode V} (hpn : pq.pqNodes.node pn = some e)
    (hnew : pn ∉ gs.map Slot.pqn)
    (hhash : ∀ g ∈ gs, sdbmStringHash g.elem.id ≠ sdbmStringHash e.id) {first : ℕ}
    (hfirst : pq.firstWith e.priority pn = some first) :
    ∃ pq' lnode, pq.pushPriorityQueueNode pn = some pq' ∧ Holds pq' (gs ++ [⟨e, pn, lnode⟩]) ∧
      pq'.pqNodes = pq.pqNodes ∧ pq'.first = some first ∧ pq'.length = pq.length + 1 := by
  have hbound : ∀ g ∈ gs, g.lnode ≠ pq.listNodes.bound := by
    intro g hg
    obtain ⟨n, hn, -⟩ := Option.map_eq_some_iff.1 (h.value g hg)
    exact Nat.ne_of_lt (lt_bound_of_node hn)
  have hfresh : pq.listNodes.bound ∉ gs.map Slot.lnode := by
    intro hmem
    obtain ⟨g, hg, heq⟩ := List.mem_map.1 hmem
    exact hbound g hg heq
  have hold : ∀ g ∈ gs, (pq.listNodes.alloc ⟨none, none, pn⟩).1.node g.lnode =
      pq.listNodes.node g.lnode := fun g hg => node_alloc_of_ne _ (hbound g hg)
  have hself := node_alloc_self pq.listNodes ⟨none, none, pn⟩
  obtain ⟨pq₁, l, hpush, hpushed, hlist⟩ := h.pushOnPriority hold hself hfresh e.priority
  have hnodes : pq₁.pqNodes = pq.pqNodes := by rw [hpushed.eq]
  have hlength : pq₁.length = pq.length := by rw [hpushed.eq]
  have hfirst₁ : pq₁.firstWith e.priority pn = some first := by
    rw [← hfirst, hpushed.eq]
    rfl
  refine ⟨_, pq.listNodes.bound, ?_, h.pushed (g := ⟨e, pn, pq.listNodes.bound⟩) hpushed hlist hpn
    (congrArg _ hself) hold hnew hfresh hhash (some first) (pq₁.length + 1), hnodes, rfl,
    by rw [hlength]⟩
  simp only [PriorityQueue.pushPriorityQueueNode, hpn, createListNode, Option.bind_eq_bind,
    Option.bind_some]
  rw [show (pq.listNodes.alloc ⟨none, none, pn⟩).2 = pq.listNodes.bound from rfl, hpush]
  simp [hfirst₁]

/-! ## A slot goes -/

omit [Kernel] in
theorem notMem_map_of_nodup {f : Slot V → ℕ} (h : ((as ++ g :: bs).map f).Nodup) :
    ((as ++ bs).map f).Nodup ∧ f g ∉ (as ++ bs).map f := by
  rw [map_append, map_cons, nodup_middle, nodup_cons, ← map_append] at h
  exact ⟨h.2, h.1⟩

/-- The slots after a node has been unlinked and freed, and with it the list if it was
the last node. -/
theorem unlinked (h : Holds pq (as ++ g :: bs)) (m : LongMap ℕ ℕ) (lists : Heap ListEnds)
    {h₁ : Heap (LinkedNode ℕ)} {ends₁ : ListEnds}
    (hl : pq.priorities.lookup g.elem.priority = some l)
    (hlist₁ : IsList h₁ ends₁ ((bucket (as ++ bs) g.elem.priority).map Slot.lnode))
    (hsame : SameValues pq.listNodes h₁)
    (hframe : ∀ p ∉ (bucket (as ++ g :: bs) g.elem.priority).map Slot.lnode,
      h₁.node p = pq.listNodes.node p)
    (hsound : m.Sound) (hlookup : ∀ k ≠ g.elem.priority, m.lookup k = pq.priorities.lookup k)
    (hself : (bucket (as ++ bs) g.elem.priority = [] ∧ m.lookup g.elem.priority = none) ∨
      (bucket (as ++ bs) g.elem.priority ≠ [] ∧ m.lookup g.elem.priority = some l ∧
        lists.node l = some ends₁))
    (hothers : ∀ l' ≠ l, lists.node l' = pq.lists.node l') :
    Holds { pq with
      listNodes := h₁.free g.lnode
      lists := lists
      priorities := m
      ids := (pq.ids.removeStringMapElement g.elem.id).1 } (as ++ bs) := by
  have hsub : ∀ g' ∈ as ++ bs, g' ∈ as ++ g :: bs := fun g' hg' => by
    rw [mem_append] at hg' ⊢
    exact hg'.imp id (mem_cons_of_mem _)
  obtain ⟨hpqns, -⟩ := notMem_map_of_nodup h.pqns
  obtain ⟨hlnodes, hlnode⟩ := notMem_map_of_nodup h.lnodes
  obtain ⟨hhashes, hhash⟩ := notMem_map_of_nodup h.hashes
  have hlnode' : ∀ g' ∈ as ++ bs, g'.lnode ≠ g.lnode :=
    fun g' hg' heq => hlnode (heq ▸ mem_map_of_mem hg')
  have hhash' : ∀ g' ∈ as ++ bs, sdbmStringHash g.elem.id ≠ sdbmStringHash g'.elem.id :=
    fun g' hg' heq => hhash (List.mem_map.2 ⟨g', hg', heq.symm⟩)
  refine ⟨hsound, (h.idsSound.lookup_remove _).1, fun g' hg' => h.node g' (hsub g' hg'), ?_, hpqns,
    hlnodes, hhashes, ?_, ?_, ?_, ?_, ?_⟩
  · intro g' hg'
    rw [← h.value g' (hsub g' hg'), ← hsame.value, Heap.value, node_free_of_ne (hlnode' g' hg'),
      Heap.value]
  · intro k hk
    by_cases heq : k = g.elem.priority
    · subst heq
      rcases hself with hself | ⟨-, hself, -⟩
      · exact hself.1
      · rw [hself] at hk
        cases hk
    · rw [← bucket_middle_of_ne (Ne.symm heq)]
      exact h.empty k ((hlookup k heq).symm.trans hk)
  · intro k l' hl'
    by_cases heq : k = g.elem.priority
    · subst heq
      rcases hself with ⟨-, hself⟩ | ⟨hne, hself, hends⟩
      · rw [hself] at hl'
        cases hl'
      · rw [hself] at hl'
        obtain rfl := Option.some.inj hl'
        refine ⟨hne, ends₁, hends, hlist₁.congr fun p hp => node_free_of_ne ?_⟩
        obtain ⟨g', hg', rfl⟩ := List.mem_map.1 hp
        exact hlnode' g' (mem_bucket.1 hg').1
    · have hl'' := (hlookup k heq).symm.trans hl'
      obtain ⟨hne, ends, hends, hlist⟩ := h.list k l' hl''
      have hapart : l' ≠ l := fun hll => heq (h.apart k _ l (hll ▸ hl'') hl)
      rw [← bucket_middle_of_ne (Ne.symm heq)]
      refine ⟨hne, ends, (hothers l' hapart).trans hends, hlist.congr fun p hp => ?_⟩
      have hp' := lnode_ne_of_bucket h.lnodes heq hp
      refine (node_free_of_ne ?_).trans (hframe p hp')
      rintro rfl
      exact hp' (mem_map_of_mem (mem_bucket.2 ⟨by simp, rfl⟩))
  · intro k k' l' hk hk'
    have hold : ∀ k l', m.lookup k = some l' → pq.priorities.lookup k = some l' := by
      intro k l' hk
      by_cases heq : k = g.elem.priority
      · subst heq
        rcases hself with ⟨-, hself⟩ | ⟨-, hself, -⟩
        · rw [hself] at hk
          cases hk
        · rw [hl, ← hself, hk]
      · rw [← hlookup k heq, hk]
    exact h.apart k k' l' (hold k l' hk) (hold k' l' hk')
  · intro g' hg'
    obtain ⟨l', hl', hid⟩ := h.found g' (hsub g' hg')
    refine ⟨l', ?_, ?_⟩
    · by_cases heq : g'.elem.priority = g.elem.priority
      · rcases hself with ⟨hself, -⟩ | ⟨-, hself, -⟩
        · have hmem : g' ∈ bucket (as ++ bs) g.elem.priority := mem_bucket.2 ⟨hg', heq⟩
          rw [hself] at hmem
          cases hmem
        · rw [heq, hself, ← hl, ← heq, hl']
      · exact (hlookup _ heq).trans hl'
    · rw [StringMap.get_remove h.idsSound, if_neg (hhash' g' hg'), hid]
  · intro id habsent
    rw [StringMap.get_remove h.idsSound]
    by_cases heq : sdbmStringHash g.elem.id = sdbmStringHash id
    · rw [if_pos heq]
    · rw [if_neg heq]
      refine h.absent id fun g' hg' => ?_
      rcases List.mem_append.1 hg' with hg' | hg'
      · exact habsent g' (mem_append_left _ hg')
      · rcases List.mem_cons.1 hg' with rfl | hg'
        · exact heq
        · exact habsent g' (mem_append_right _ hg')

theorem removeAbsent (h : Holds pq gs) {id : String}
    (hid : ∀ g ∈ gs, sdbmStringHash g.elem.id ≠ sdbmStringHash id) :
    Holds { pq with ids := (pq.ids.removeStringMapElement id).1 } gs where
  sound := h.sound
  idsSound := (h.idsSound.lookup_remove _).1
  node := h.node
  value := h.value
  pqns := h.pqns
  lnodes := h.lnodes
  hashes := h.hashes
  empty := h.empty
  list := h.list
  apart := h.apart
  found := by
    intro g hg
    rw [StringMap.get_remove h.idsSound, if_neg (hid g hg).symm]
    exact h.found g hg
  absent := by
    intro id' habsent
    rw [StringMap.get_remove h.idsSound, h.absent id' habsent]
    exact ite_self none

/-- Shifting takes the first element of the least priority. -/
theorem shift (h : Holds pq (as ++ g :: bs)) (has : bucket as g.elem.priority = [])
    (hle : ∀ g' ∈ as ++ g :: bs, g.elem.priority ≤ g'.elem.priority)
    (hfirst : pq.first = some g.pqn) :
    ∃ pq', pq.shiftPriorityQueueNode = some (pq', some g.pqn) ∧ Holds pq' (as ++ bs) ∧
      pq'.pqNodes = pq.pqNodes ∧ pq'.first = nextNode (as ++ bs) ∧
      pq'.length = pq.length - 1 := by
  have hg : g ∈ as ++ g :: bs := by simp
  obtain ⟨l, hl, -⟩ := h.found g hg
  obtain ⟨-, ends, hends, hlist⟩ := h.list _ l hl
  have hrest : bucket (as ++ bs) g.elem.priority = bucket bs g.elem.priority := by
    rw [bucket_append, has, nil_append]
  have hbucket : bucket (as ++ g :: bs) g.elem.priority =
      g :: bucket (as ++ bs) g.elem.priority := by
    rw [bucket_append, has, nil_append, bucket_cons_self, hrest]
  rw [hbucket, map_cons] at hlist
  obtain ⟨h₁, ends₁, hshift, hlist₁, hsame, hframe⟩ := shiftListNode_spec hlist
  have hends₁ := @node_modify_self _ _ _ _ (fun _ => ends₁) hends
  obtain ⟨n, hn, hvalue⟩ := Option.map_eq_some_iff.1 ((hsame.value _).trans (h.value g hg))
  obtain ⟨hsound, hlookup, hreturn⟩ := h.sound.lookup_remove g.elem.priority
  rw [hl] at hreturn
  rw [← map_cons, ← hbucket] at hframe
  have hunlinked := fun m lists => h.unlinked m lists hl hlist₁ hsame hframe
  cases hcase : bucket (as ++ bs) g.elem.priority with
  | nil =>
    have hzero : ends₁.length = 0 := by
      rw [hlist₁.length, hcase]
      rfl
    have hholds := hunlinked _ ((pq.lists.modify l fun _ => ends₁).free l) hsound
      (fun k hk => by rw [hlookup, update_of_ne hk])
      (Or.inl ⟨hcase, by rw [hlookup, update_self]⟩)
      (fun l' hl' => (node_free_of_ne hl').trans (node_modify_of_ne hl'))
    refine ⟨_, ?_, hholds.withFirst (nextNode (as ++ bs)) (pq.length - 1), rfl, rfl, rfl⟩
    have hreset := hholds.resetFirst 0
    rw [hfirst] at hreset
    simp only [PriorityQueue.shiftPriorityQueueNode, hfirst, h.node g hg, hreturn,
      PriorityQueue.shiftListNode, hends, hshift, hends₁, hzero, PriorityQueue.destroyList,
      PriorityQueue.destroyRounds, PriorityQueue.freeListNode, EricsTools.freeListNode, hn, hvalue,
      Option.bind_eq_bind, Option.bind_some, if_true, Int.toNat_zero, hreset]
  | cons g' rest =>
    have hpos : ends₁.length ≠ 0 := by
      rw [hlist₁.length, hcase]
      simp
      omega
    obtain ⟨hsound', hlookup', -⟩ := hsound.lookup_set g.elem.priority l
    have hholds := hunlinked _ (pq.lists.modify l fun _ => ends₁) hsound'
      (fun k hk => by rw [hlookup', update_of_ne hk, hlookup, update_of_ne hk])
      (Or.inr ⟨by simp [hcase], by rw [hlookup', update_self], hends₁⟩)
      (fun l' hl' => node_modify_of_ne hl')
    refine ⟨_, ?_, hholds.withFirst (nextNode (as ++ bs)) (pq.length - 1), rfl, rfl, rfl⟩
    have hreset := hholds.resetFirst_some (k := g.elem.priority) (l := l)
      (by rw [hlookup', update_self]) fun g' hg' => hle g' (by
        rw [mem_append] at hg' ⊢
        exact hg'.imp id (mem_cons_of_mem _))
    rw [hfirst] at hreset
    simp only [PriorityQueue.shiftPriorityQueueNode, hfirst, h.node g hg, hreturn,
      PriorityQueue.shiftListNode, hends, hshift, hends₁, if_neg hpos, PriorityQueue.freeListNode,
      EricsTools.freeListNode, hn, hvalue, Option.bind_eq_bind, Option.bind_some, hreset]

/-- `remove_priority_queue_node_with_id`: the slot with the id goes. -/
theorem remove (h : Holds pq (as ++ g :: bs)) :
    ∃ pq', pq.removePriorityQueueNodeWithId g.elem.id = some (pq', some g.pqn) ∧
      Holds pq' (as ++ bs) ∧ pq'.pqNodes = pq.pqNodes ∧
      pq'.first = (if pq.first = some g.pqn then nextNode (as ++ bs) else pq.first) ∧
      pq'.length = pq.length - 1 := by
  have hg : g ∈ as ++ g :: bs := by simp
  obtain ⟨l, hl, hid⟩ := h.found g hg
  obtain ⟨-, ends, hends, hlist⟩ := h.list _ l hl
  rw [bucket_append, bucket_cons_self, map_append, map_cons] at hlist
  obtain ⟨h₁, ends₁, hremove, hlist₁, hsame, hframe⟩ := removeInternalListNode_spec hlist
  rw [← map_append, ← bucket_append] at hlist₁
  rw [← map_cons, ← map_append, ← bucket_cons_self, ← bucket_append] at hframe
  have hends₁ := @node_modify_self _ _ _ _ (fun _ => ends₁) hends
  obtain ⟨n, hn, hvalue⟩ := Option.map_eq_some_iff.1 ((hsame.value _).trans (h.value g hg))
  have hremoved : (pq.ids.removeStringMapElement g.elem.id).2 = some ⟨l, g.lnode⟩ := by
    rw [← hid]
    exact StringMap.removed_eq_get h.idsSound _
  have hunlinked := fun m lists => h.unlinked m lists hl hlist₁ hsame hframe
  obtain ⟨pq₁, hholds, hrun, hnodes, hfirst, hlength⟩ : ∃ pq₁, Holds pq₁ (as ++ bs) ∧
      pq.removePriorityQueueNodeWithId g.elem.id = (do
        let pq ←
          if pq₁.first = some g.pqn then
            pq₁.resetFirst (pq₁.priorities.getSmallestLongMapElement 0).1
          else some pq₁
        some ({ pq with length := pq.length - 1 }, some g.pqn)) ∧
      pq₁.pqNodes = pq.pqNodes ∧ pq₁.first = pq.first ∧ pq₁.length = pq.length := by
    cases hcase : bucket (as ++ bs) g.elem.priority with
    | nil =>
      have hzero : ends₁.length = 0 := by
        rw [hlist₁.length, hcase]
        rfl
      obtain ⟨hsound, hlookup, -⟩ := h.sound.lookup_remove g.elem.priority
      refine ⟨_, hunlinked _ ((pq.lists.modify l fun _ => ends₁).free l) hsound
        (fun k hk => by rw [hlookup, update_of_ne hk])
        (Or.inl ⟨hcase, by rw [hlookup, update_self]⟩)
        (fun l' hl' => (node_free_of_ne hl').trans (node_modify_of_ne hl')), ?_, rfl, rfl, rfl⟩
      simp only [PriorityQueue.removePriorityQueueNodeWithId, hremoved,
        PriorityQueue.removeInternalListNode, hends, hremove, PriorityQueue.freeListNode,
        EricsTools.freeListNode, hn, hvalue, hends₁, hzero, h.node g hg, PriorityQueue.destroyList,
        PriorityQueue.destroyRounds, Option.bind_eq_bind, Option.bind_some, if_true,
        Int.toNat_zero]
    | cons g' rest =>
      have hpos : ends₁.length ≠ 0 := by
        rw [hlist₁.length, hcase]
        simp
        omega
      refine ⟨_, hunlinked _ (pq.lists.modify l fun _ => ends₁) h.sound (fun _ _ => rfl)
        (Or.inr ⟨by simp [hcase], hl, hends₁⟩) (fun l' hl' => node_modify_of_ne hl'), ?_, rfl, rfl,
        rfl⟩
      simp only [PriorityQueue.removePriorityQueueNodeWithId, hremoved,
        PriorityQueue.removeInternalListNode, hends, hremove, PriorityQueue.freeListNode,
        EricsTools.freeListNode, hn, hvalue, hends₁, if_neg hpos, Option.bind_eq_bind,
        Option.bind_some]
  rw [hrun, ← hfirst, ← hlength, ← hnodes]
  by_cases hcase : pq₁.first = some g.pqn
  · refine ⟨_, ?_, hholds.withFirst (nextNode (as ++ bs)) (pq₁.length - 1), rfl, ?_, rfl⟩
    · simp [hcase, hholds.resetFirst]
    · simp [hcase]
  · refine ⟨_, ?_, hholds.withFirst pq₁.first (pq₁.length - 1), rfl, ?_, rfl⟩
    · simp [hcase]
    · simp [hcase]

end Holds

end EricsTools

end Gargoyle
