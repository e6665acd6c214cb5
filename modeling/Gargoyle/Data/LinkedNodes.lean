import Mathlib.Data.List.Nodup
import Mathlib.Data.Nat.Basic
import Mathlib.Data.Option.Basic

/-!
# Memory for records

A heap has a record at some of its addresses. The addresses that are handed out were
never used before, so that an address of a freed record stays free, and a write to
an address without a record yields nothing.
-/

structure Heap (α : Type*) where
  node : ℕ → Option α
  bound : ℕ
  /-- Addresses from `bound` on have not been used. -/
  fresh : ∀ p, bound ≤ p → node p = none

namespace Heap

open List

variable {α : Type*}

def empty : Heap α := ⟨fun _ => none, 0, fun _ _ => rfl⟩

/-- Change the record at `p`. -/
def modify (h : Heap α) (p : ℕ) (f : α → α) : Heap α where
  node := fun q => if q = p then (h.node q).map f else h.node q
  bound := h.bound
  fresh := by
    intro q hq
    simp [h.fresh q hq]

/-- Change the record at `p`, which has to be there. -/
def update (h : Heap α) (p : ℕ) (f : α → α) : Option (Heap α) :=
  if (h.node p).isSome then some (h.modify p f) else none

def alloc (h : Heap α) (n : α) : Heap α × ℕ :=
  ({ node := fun q => if q = h.bound then some n else h.node q
     bound := h.bound + 1
     fresh := by
       intro q hq
       rw [if_neg (by omega)]
       exact h.fresh q (by omega) }, h.bound)

def free (h : Heap α) (p : ℕ) : Heap α where
  node := fun q => if q = p then none else h.node q
  bound := h.bound
  fresh := by
    intro q hq
    simp [h.fresh q hq]

variable {h : Heap α} {p q : ℕ} {n : α} {f : α → α}

theorem ext_node {h h' : Heap α} (hbound : h.bound = h'.bound)
    (hnode : ∀ p, h.node p = h'.node p) : h = h' := by
  cases h with
  | mk node bound fresh =>
    cases h' with
    | mk node' bound' fresh' =>
      obtain rfl : node = node' := funext hnode
      obtain rfl : bound = bound' := hbound
      rfl

theorem update_of_node (hp : h.node p = some n) : h.update p f = some (h.modify p f) := by
  rw [update, hp]
  rfl

theorem node_modify_self (hp : h.node p = some n) : (h.modify p f).node p = some (f n) := by
  simp [modify, hp]

theorem node_modify_of_ne (hq : q ≠ p) : (h.modify p f).node q = h.node q := by
  simp [modify, hq]

theorem node_alloc_self (h : Heap α) (n : α) : (h.alloc n).1.node h.bound = some n :=
  if_pos rfl

theorem node_alloc_of_ne (n : α) (hq : q ≠ h.bound) : (h.alloc n).1.node q = h.node q :=
  if_neg hq

theorem node_free_of_ne (hq : q ≠ p) : (h.free p).node q = h.node q :=
  if_neg hq

theorem node_free_self (h : Heap α) (p : ℕ) : (h.free p).node p = none :=
  if_pos rfl

theorem lt_bound_of_node (hp : h.node p = some n) : p < h.bound := by
  by_contra hle
  rw [h.fresh p (not_lt.1 hle)] at hp
  cases hp

end Heap

/-!
## Doubly linked lists in memory

A node has the addresses of its two neighbours beside its value.

`Seg h prev ps nxt` says that the nodes at `ps` are linked one after the other, with
`prev` in front of the first and `nxt` behind the last. A list is taken apart with
`seg_append`; the writes at its two ends are `linkNext` and `linkPrevious`, and
`Seg.unlink` is the removal of a node wherever it stands.
-/

structure LinkedNode (V : Type*) where
  next : Option ℕ
  previous : Option ℕ
  value : V

structure ListEnds where
  first : Option ℕ
  last : Option ℕ
  length : ℤ
  deriving DecidableEq

namespace Heap

open List

variable {V : Type*}

def setNext (h : Heap (LinkedNode V)) (p : ℕ) (nxt : Option ℕ) : Option (Heap (LinkedNode V)) :=
  h.update p fun n => { n with next := nxt }

def setPrevious (h : Heap (LinkedNode V)) (p : ℕ) (prev : Option ℕ) : Option (Heap (LinkedNode V)) :=
  h.update p fun n => { n with previous := prev }

def setValue (h : Heap (LinkedNode V)) (p : ℕ) (v : V) : Option (Heap (LinkedNode V)) :=
  h.update p fun n => { n with value := v }

def linkNext (h : Heap (LinkedNode V)) (p nxt : Option ℕ) : Option (Heap (LinkedNode V)) :=
  match p with
  | none => some h
  | some p => h.setNext p nxt

def linkPrevious (h : Heap (LinkedNode V)) (p prev : Option ℕ) : Option (Heap (LinkedNode V)) :=
  match p with
  | none => some h
  | some p => h.setPrevious p prev

def value (h : Heap (LinkedNode V)) (p : ℕ) : Option V := (h.node p).map LinkedNode.value

/-! ### Writing -/

structure SameValues (h h' : Heap (LinkedNode V)) : Prop where
  bound : h'.bound = h.bound
  value : ∀ p, h'.value p = h.value p

section Writing

variable {h h' : Heap (LinkedNode V)} {p : ℕ} {f : LinkedNode V → LinkedNode V}

theorem SameValues.refl (h : Heap (LinkedNode V)) : SameValues h h := ⟨rfl, fun _ => rfl⟩

theorem SameValues.trans {h'' : Heap (LinkedNode V)} (h₁ : SameValues h h') (h₂ : SameValues h' h'') :
    SameValues h h'' :=
  ⟨h₂.bound.trans h₁.bound, fun p => (h₂.value p).trans (h₁.value p)⟩

theorem sameValues_modify (hf : ∀ n, (f n).value = n.value) : SameValues h (h.modify p f) := by
  refine ⟨rfl, fun q => ?_⟩
  by_cases hq : q = p
  · subst hq
    cases hn : h.node q with
    | none => simp [value, modify, hn]
    | some n => simp [value, modify, hn, hf]
  · rw [value, node_modify_of_ne hq, value]

theorem sameValues_of_setNext {nxt : Option ℕ} (hset : h.setNext p nxt = some h') :
    SameValues h h' := by
  unfold setNext update at hset
  split_ifs at hset
  obtain rfl := Option.some.inj hset
  exact sameValues_modify fun _ => rfl

theorem sameValues_of_setPrevious {prev : Option ℕ} (hset : h.setPrevious p prev = some h') :
    SameValues h h' := by
  unfold setPrevious update at hset
  split_ifs at hset
  obtain rfl := Option.some.inj hset
  exact sameValues_modify fun _ => rfl

theorem value_free_self (h : Heap (LinkedNode V)) (p : ℕ) : (h.free p).value p = none := by
  rw [value, node_free_self]
  rfl

end Writing

/-! ### Segments -/

/-- The nodes at `ps` are linked one after the other, between `prev` and `nxt`. -/
def Seg (h : Heap (LinkedNode V)) : Option ℕ → List ℕ → Option ℕ → Prop
  | _, [], _ => True
  | prev, p :: ps, nxt =>
    (∃ v, h.node p = some ⟨ps.head?.or nxt, prev, v⟩) ∧ Seg h (some p) ps nxt

section Segments

variable {h h' : Heap (LinkedNode V)} {prev nxt : Option ℕ} {p : ℕ} {ps as bs : List ℕ}

theorem seg_append : Seg h prev (as ++ bs) nxt ↔
    Seg h prev as (bs.head?.or nxt) ∧ Seg h (as.getLast?.or prev) bs nxt := by
  induction as generalizing prev with
  | nil => simp [Seg]
  | cons a as ih =>
    have hhead : ((as ++ bs).head?).or nxt = as.head?.or (bs.head?.or nxt) := by
      cases as <;> simp
    have hlast : (a :: as).getLast?.or prev = as.getLast?.or (some a) := by
      rw [getLast?_cons]
      cases as.getLast? <;> rfl
    rw [cons_append, Seg, Seg, ih, hhead, hlast, and_assoc]

theorem Seg.congr (hseg : Seg h prev ps nxt) (hnode : ∀ p ∈ ps, h'.node p = h.node p) :
    Seg h' prev ps nxt := by
  induction ps generalizing prev with
  | nil => trivial
  | cons p ps ih =>
    obtain ⟨⟨v, hv⟩, hrest⟩ := hseg
    refine ⟨⟨v, ?_⟩, ih hrest fun q hq => hnode q (mem_cons_of_mem _ hq)⟩
    rw [hnode p mem_cons_self, hv]

theorem Seg.exists_node (hseg : Seg h prev ps nxt) (hp : p ∈ ps) : ∃ n, h.node p = some n := by
  induction ps generalizing prev with
  | nil => cases hp
  | cons q ps ih =>
    obtain ⟨⟨v, hv⟩, hrest⟩ := hseg
    rcases List.mem_cons.1 hp with rfl | hp
    · exact ⟨_, hv⟩
    · exact ih hrest hp

theorem Seg.node_eq (hseg : Seg h prev ps nxt) (hseg' : Seg h' prev ps nxt)
    (hvalue : ∀ p ∈ ps, h.value p = h'.value p) : ∀ p ∈ ps, h.node p = h'.node p := by
  induction ps generalizing prev with
  | nil => exact fun p hp => nomatch hp
  | cons q ps ih =>
    obtain ⟨⟨v, hv⟩, hrest⟩ := hseg
    obtain ⟨⟨v', hv'⟩, hrest'⟩ := hseg'
    intro p hp
    rcases List.mem_cons.1 hp with rfl | hp
    · have heq := hvalue p mem_cons_self
      rw [value, value, hv, hv'] at heq
      obtain rfl : v = v' := Option.some.inj heq
      rw [hv, hv']
    · exact ih hrest hrest' (fun r hr => hvalue r (mem_cons_of_mem _ hr)) p hp

theorem Seg.modifyValue (hseg : Seg h prev ps nxt) (p : ℕ) (v : V) :
    Seg (h.modify p fun n => { n with value := v }) prev ps nxt := by
  induction ps generalizing prev with
  | nil => trivial
  | cons q ps ih =>
    obtain ⟨⟨w, hw⟩, hrest⟩ := hseg
    refine ⟨?_, ih hrest⟩
    by_cases hq : q = p
    · subst hq
      exact ⟨v, by rw [node_modify_self hw]⟩
    · exact ⟨w, by rw [node_modify_of_ne hq, hw]⟩

theorem Seg.linkNext (hseg : Seg h prev as nxt) (hnodup : as.Nodup) (nxt' : Option ℕ) :
    ∃ h', h.linkNext as.getLast? nxt' = some h' ∧ Seg h' prev as nxt' ∧ SameValues h h' ∧
      ∀ q ∉ as, h'.node q = h.node q := by
  rcases eq_nil_or_concat as with rfl | ⟨front, a, rfl⟩
  · exact ⟨h, rfl, trivial, .refl h, fun _ _ => rfl⟩
  · rw [concat_eq_append] at hseg hnodup ⊢
    have hne : ∀ q ∈ front, q ≠ a := fun q hq =>
      (List.nodup_append.1 hnodup).2.2 q hq a (mem_singleton_self a)
    obtain ⟨hfront, ⟨v, hv⟩, -⟩ := seg_append.1 hseg
    have hlink : h.linkNext (front ++ [a]).getLast? nxt' =
        some (h.modify a fun n => { n with next := nxt' }) := by
      rw [getLast?_append]
      exact update_of_node hv
    refine ⟨_, hlink, ?_, sameValues_modify fun _ => rfl, fun q hq => node_modify_of_ne ?_⟩
    · refine seg_append.2
        ⟨hfront.congr fun q hq => node_modify_of_ne (hne q hq), ⟨v, ?_⟩, trivial⟩
      rw [node_modify_self hv]
      rfl
    · rintro rfl
      simp at hq

theorem Seg.linkPrevious (hseg : Seg h prev bs nxt) (hnodup : bs.Nodup) (prev' : Option ℕ) :
    ∃ h', h.linkPrevious bs.head? prev' = some h' ∧ Seg h' prev' bs nxt ∧ SameValues h h' ∧
      ∀ q ∉ bs, h'.node q = h.node q := by
  cases bs with
  | nil => exact ⟨h, rfl, trivial, .refl h, fun _ _ => rfl⟩
  | cons b bs =>
    obtain ⟨hb, -⟩ := List.nodup_cons.1 hnodup
    obtain ⟨⟨v, hv⟩, hrest⟩ := hseg
    refine ⟨_, update_of_node hv, ⟨⟨v, ?_⟩, hrest.congr fun q hq => node_modify_of_ne ?_⟩,
      sameValues_modify fun _ => rfl, fun q hq => node_modify_of_ne ?_⟩
    · rw [node_modify_self hv]
    · rintro rfl
      exact hb hq
    · rintro rfl
      exact hq mem_cons_self

theorem Seg.node_middle (hseg : Seg h none (as ++ p :: bs) none) :
    ∃ v, h.node p = some ⟨bs.head?, as.getLast?, v⟩ := by
  obtain ⟨-, ⟨v, hv⟩, -⟩ := seg_append.1 hseg
  exact ⟨v, by simpa using hv⟩

theorem Seg.unlink (hseg : Seg h none (as ++ p :: bs) none) (hnodup : (as ++ p :: bs).Nodup) :
    ∃ h₁ h₂, h.linkNext as.getLast? bs.head? = some h₁ ∧
      h₁.linkPrevious bs.head? as.getLast? = some h₂ ∧ Seg h₂ none (as ++ bs) none ∧
      SameValues h h₂ ∧ ∀ q ∉ as ++ bs, h₂.node q = h.node q := by
  obtain ⟨hfront, -, hback⟩ := seg_append.1 hseg
  obtain ⟨hnodupA, hnodupB, hdisjoint⟩ := List.nodup_append.1 hnodup
  have hsep : ∀ a ∈ as, ∀ b ∈ bs, a ≠ b :=
    fun a ha b hb => hdisjoint a ha b (mem_cons_of_mem _ hb)
  obtain ⟨h₁, hlink₁, hseg₁, hsame₁, hnode₁⟩ := hfront.linkNext hnodupA bs.head?
  have hback₁ : Seg h₁ (some p) bs none :=
    hback.congr fun q hq => hnode₁ q fun hq' => hsep q hq' q hq rfl
  obtain ⟨h₂, hlink₂, hseg₂, hsame₂, hnode₂⟩ :=
    hback₁.linkPrevious (List.nodup_cons.1 hnodupB).2 as.getLast?
  refine ⟨h₁, h₂, hlink₁, hlink₂, seg_append.2 ⟨?_, by simpa using hseg₂⟩, hsame₁.trans hsame₂,
    fun q hq => ?_⟩
  · simpa using hseg₁.congr fun q hq => hnode₂ q fun hq' => hsep q hq q hq' rfl
  · rw [mem_append, not_or] at hq
    rw [hnode₂ q hq.2, hnode₁ q hq.1]

theorem Seg.putFront {n : LinkedNode V} (hseg : Seg h none ps none) (hnodup : ps.Nodup)
    (hp : p ∉ ps) (hn : h.node p = some n) :
    ∃ h₁ h₂ h₃, h.setPrevious p none = some h₁ ∧ h₁.setNext p ps.head? = some h₂ ∧
      h₂.linkPrevious ps.head? (some p) = some h₃ ∧ Seg h₃ none (p :: ps) none ∧
      SameValues h h₃ ∧ ∀ q ∉ p :: ps, h₃.node q = h.node q := by
  have hn₁ := @node_modify_self _ _ _ _ (fun n => { n with previous := none }) hn
  have hn₂ := @node_modify_self _ _ _ _ (fun n => { n with next := ps.head? }) hn₁
  have hother : ∀ q ≠ p, ((h.modify p fun n => { n with previous := none }).modify p fun n =>
      { n with next := ps.head? }).node q = h.node q :=
    fun q hq => (node_modify_of_ne hq).trans (node_modify_of_ne hq)
  obtain ⟨h₃, hlink, hseg₃, hsame, hnode⟩ :=
    (hseg.congr fun q hq => hother q fun h => hp (h ▸ hq)).linkPrevious hnodup (some p)
  have hset₁ := @update_of_node _ _ _ _ (fun n => { n with previous := none }) hn
  have hset₂ := @update_of_node _ _ _ _ (fun n => { n with next := ps.head? }) hn₁
  refine ⟨_, _, h₃, hset₁, hset₂, hlink, ⟨⟨n.value, ?_⟩, hseg₃⟩,
    ((sameValues_of_setPrevious hset₁).trans (sameValues_of_setNext hset₂)).trans hsame,
    fun q hq => ?_⟩
  · rw [hnode p hp, hn₂, Option.or_none]
  · rw [mem_cons, not_or] at hq
    rw [hnode q hq.2, hother q hq.1]

theorem Seg.putBack {n : LinkedNode V} (hseg : Seg h none ps none) (hnodup : ps.Nodup)
    (hp : p ∉ ps) (hn : h.node p = some n) :
    ∃ h₁ h₂ h₃, h.setNext p none = some h₁ ∧ h₁.setPrevious p ps.getLast? = some h₂ ∧
      h₂.linkNext ps.getLast? (some p) = some h₃ ∧ Seg h₃ none (ps ++ [p]) none ∧
      SameValues h h₃ ∧ ∀ q ∉ ps ++ [p], h₃.node q = h.node q := by
  have hn₁ := @node_modify_self _ _ _ _ (fun n => { n with next := none }) hn
  have hn₂ := @node_modify_self _ _ _ _ (fun n => { n with previous := ps.getLast? }) hn₁
  have hother : ∀ q ≠ p, ((h.modify p fun n => { n with next := none }).modify p fun n =>
      { n with previous := ps.getLast? }).node q = h.node q :=
    fun q hq => (node_modify_of_ne hq).trans (node_modify_of_ne hq)
  obtain ⟨h₃, hlink, hseg₃, hsame, hnode⟩ :=
    (hseg.congr fun q hq => hother q fun h => hp (h ▸ hq)).linkNext hnodup (some p)
  have hset₁ := @update_of_node _ _ _ _ (fun n => { n with next := none }) hn
  have hset₂ := @update_of_node _ _ _ _ (fun n => { n with previous := ps.getLast? }) hn₁
  refine ⟨_, _, h₃, hset₁, hset₂, hlink, seg_append.2 ⟨hseg₃, ⟨n.value, ?_⟩, trivial⟩,
    ((sameValues_of_setNext hset₁).trans (sameValues_of_setPrevious hset₂)).trans hsame,
    fun q hq => ?_⟩
  · rw [hnode p hp, hn₂]
    simp
  · rw [mem_append, mem_singleton, not_or] at hq
    rw [hnode q hq.1, hother q hq.2]

end Segments

/-! ### Lists -/

/-- The nodes at `ps` are a list with the ends `q`. -/
structure IsList (h : Heap (LinkedNode V)) (q : ListEnds) (ps : List ℕ) : Prop where
  nodup : ps.Nodup
  seg : Seg h none ps none
  first : q.first = ps.head?
  last : q.last = ps.getLast?
  length : q.length = ps.length

theorem isList_nil (h : Heap (LinkedNode V)) : IsList h ⟨none, none, 0⟩ [] :=
  ⟨nodup_nil, trivial, rfl, rfl, rfl⟩

theorem IsList.ends_eq {h h' : Heap (LinkedNode V)} {q q' : ListEnds} {ps : List ℕ}
    (hlist : IsList h q ps) (hlist' : IsList h' q' ps) : q = q' := by
  cases q with
  | mk first last length =>
    cases q' with
    | mk first' last' length' =>
      obtain rfl : first = first' := hlist.first.trans hlist'.first.symm
      obtain rfl : last = last' := hlist.last.trans hlist'.last.symm
      obtain rfl : length = length' := hlist.length.trans hlist'.length.symm
      rfl

theorem IsList.congr {h h' : Heap (LinkedNode V)} {q : ListEnds} {ps : List ℕ} (hlist : IsList h q ps)
    (hnode : ∀ p ∈ ps, h'.node p = h.node p) : IsList h' q ps :=
  ⟨hlist.nodup, hlist.seg.congr hnode, hlist.first, hlist.last, hlist.length⟩

section Lists

variable {h : Heap (LinkedNode V)} {q : ListEnds} {ps as bs : List ℕ} {p : ℕ}

theorem IsList.ne_bound (hlist : IsList h q ps) (hp : p ∈ ps) : p ≠ h.bound := by
  obtain ⟨n, hn⟩ := hlist.seg.exists_node hp
  exact Nat.ne_of_lt (lt_bound_of_node hn)

theorem IsList.pushFront (hlist : IsList h q ps) (v : V) :
    ∃ h', (h.alloc ⟨q.first, none, v⟩).1.linkPrevious q.first (some h.bound) = some h' ∧
      IsList h' ⟨some h.bound, q.last.or (some h.bound), q.length + 1⟩ (h.bound :: ps) ∧
      h'.value h.bound = some v ∧ ∀ p ≠ h.bound, h'.value p = h.value p := by
  have hnew : h.bound ∉ ps := fun hmem => hlist.ne_bound hmem rfl
  have hseg : Seg (h.alloc ⟨q.first, none, v⟩).1 none ps none :=
    hlist.seg.congr fun p hp => node_alloc_of_ne _ (hlist.ne_bound hp)
  obtain ⟨h', hlink, hseg', hsame, hnode⟩ := hseg.linkPrevious hlist.nodup (some h.bound)
  have hself : h'.node h.bound = some ⟨ps.head?.or none, none, v⟩ := by
    rw [hnode _ hnew, node_alloc_self, hlist.first, Option.or_none]
  rw [← hlist.first] at hlink
  refine ⟨h', hlink, ⟨?_, ⟨⟨v, hself⟩, hseg'⟩, rfl, ?_, ?_⟩, ?_, fun p hp => ?_⟩
  · exact List.nodup_cons.2 ⟨hnew, hlist.nodup⟩
  · rw [hlist.last, getLast?_cons]
    cases ps.getLast? <;> rfl
  · rw [hlist.length, length_cons]
    push_cast
    rfl
  · rw [Heap.value, hself]
    rfl
  · rw [hsame.value, Heap.value, node_alloc_of_ne _ hp, Heap.value]

theorem IsList.seg_free (hnodup : (as ++ p :: bs).Nodup) (hseg : Seg h none (as ++ bs) none) :
    Seg (h.free p) none (as ++ bs) none := by
  refine hseg.congr fun r hr => node_free_of_ne ?_
  rintro rfl
  have hmiddle := List.nodup_middle.1 hnodup
  exact (List.nodup_cons.1 hmiddle).1 hr

end Lists

end Heap
