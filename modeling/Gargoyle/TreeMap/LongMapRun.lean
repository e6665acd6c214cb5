import Mathlib.Order.Bounds.Basic
import Gargoyle.TreeMap.Content

/-!
# Every run of operations on a `long_map`

The content of a map is a function from keys to values that is known from the
operations alone: a key has the value that was set last, unless it has been
removed since. In every state that operations lead to from the empty map, the
tree is ordered and balanced and has this content, and everything that reads the
map or destroys it sees this content in the order of the keys.
-/

namespace Gargoyle

open Function (update update_self update_of_ne update_apply)

open List

namespace TreeMap

open AvlTree

inductive MapOp (K V : Type*)
  | set (key : K) (value : V)
  | remove (key : K)
  | removeSmallest (smallestKey : K)
  | removeLargest (largestKey : K)

variable {K V : Type*} [LinearOrder K]

def LongMap.apply (m : LongMap K V) : MapOp K V → LongMap K V × Option V
  | .set key value => m.setLongMapElement key value
  | .remove key => m.removeLongMapElement key
  | .removeSmallest smallestKey => (m.removeSmallestLongMapElement smallestKey).1
  | .removeLargest largestKey => (m.removeLargestLongMapElement largestKey).1

def LongMap.run (ops : List (MapOp K V)) : LongMap K V :=
  ops.foldl (fun m op => (m.apply op).1) .empty

open Classical in
/-- What an operation makes of the content of a map. -/
noncomputable def MapOp.change (f : K → Option V) : MapOp K V → K → Option V
  | .set key value => update f key (some value)
  | .remove key => update f key none
  | .removeSmallest _ => fun k => if IsLeast {k | (f k).isSome} k then none else f k
  | .removeLargest _ => fun k => if IsGreatest {k | (f k).isSome} k then none else f k

/-- The content after some operations: what the last `set` of a key that was not
followed by a removal has stored. -/
noncomputable def content (ops : List (MapOp K V)) : K → Option V :=
  ops.foldl MapOp.change fun _ => none

/-! ## The ends of the entries -/

omit [LinearOrder K] in
theorem smallest_eq_head? (t : AvlTree K V) : smallest t = t.toList.head? := by
  induction t with
  | nil => rfl
  | node k v b l r ihl _ =>
    cases l with
    | nil => rfl
    | node k' v' b' l' r' =>
      rw [smallest, ihl]
      simp

omit [LinearOrder K] in
theorem largest_eq_getLast? (t : AvlTree K V) : largest t = t.toList.getLast? := by
  induction t with
  | nil => rfl
  | node k v b l r _ ihr =>
    cases r with
    | nil => simp [largest]
    | node k' v' b' l' r' =>
      rw [largest, ihr]
      simp [getLast?_append, getLast?_cons]

section Ends

variable {es : List (K × V)} {k : K} {v : V}

theorem mem_keys_of_lookup (h : Ascending es) :
    (es.lookup k).isSome ↔ ∃ v, (k, v) ∈ es := by
  rw [Option.isSome_iff_exists]
  exact exists_congr fun v => h.lookup_eq_some

theorem isLeast_of_head (h : Ascending ((k, v) :: es)) :
    IsLeast {k' | (((k, v) :: es).lookup k').isSome} k := by
  refine ⟨(mem_keys_of_lookup h).2 ⟨v, mem_cons_self⟩, fun k' hk' => ?_⟩
  obtain ⟨v', hmem⟩ := (mem_keys_of_lookup h).1 hk'
  rcases List.mem_cons.1 hmem with heq | hmem
  · exact (congrArg Prod.fst heq).ge
  · exact ((List.pairwise_cons.1 h).1 _ hmem).le

theorem isGreatest_of_last (h : Ascending (es ++ [(k, v)])) :
    IsGreatest {k' | ((es ++ [(k, v)]).lookup k').isSome} k := by
  refine ⟨(mem_keys_of_lookup h).2 ⟨v, by simp⟩, fun k' hk' => ?_⟩
  obtain ⟨v', hmem⟩ := (mem_keys_of_lookup h).1 hk'
  rcases List.mem_append.1 hmem with hmem | heq
  · exact ((List.pairwise_append.1 h).2.2 _ hmem _ (mem_singleton_self _)).le
  · exact (congrArg Prod.fst (List.mem_singleton.1 heq)).le

end Ends

/-! ## One operation -/

namespace LongMap

variable {m : LongMap K V}

def lookup (m : LongMap K V) (k : K) : Option V := m.root.toList.lookup k

theorem Sound.lookup_set (h : m.Sound) (key : K) (value : V) :
    (m.setLongMapElement key value).1.Sound ∧
      (m.setLongMapElement key value).1.lookup = update m.lookup key (some value) ∧
      (m.setLongMapElement key value).2 = m.lookup key := by
  obtain ⟨pre, mid, post, hsplit, hreturn, hsound, hlist⟩ := h.set key value
  refine ⟨hsound, funext fun k => ?_, hreturn.trans hsplit.lookup.symm⟩
  have hlist' : (m.setLongMapElement key value).1.root.toList =
      pre ++ (((some value).map fun v => (key, v)).toList ++ post) := hlist
  have hsplit' : SplitAt key (m.setLongMapElement key value).1.root.toList pre (some value) post :=
    ⟨hlist', hsplit.pre_lt, hsplit.lt_post⟩
  by_cases hk : k = key
  · subst hk
    rw [update_self]
    exact hsplit'.lookup
  · rw [update_of_ne hk, lookup, hlist']
    exact hsplit.lookup_of_ne hk

theorem Sound.lookup_remove (h : m.Sound) (key : K) :
    (m.removeLongMapElement key).1.Sound ∧
      (m.removeLongMapElement key).1.lookup = update m.lookup key none ∧
      (m.removeLongMapElement key).2 = m.lookup key := by
  obtain ⟨pre, mid, post, hsplit, hreturn, hsound, hlist⟩ := h.remove key
  refine ⟨hsound, funext fun k => ?_, hreturn.trans hsplit.lookup.symm⟩
  have hlist' : (m.removeLongMapElement key).1.root.toList =
      pre ++ (((none : Option V).map fun v => (key, v)).toList ++ post) := hlist
  have hsplit' : SplitAt key (m.removeLongMapElement key).1.root.toList pre none post :=
    ⟨hlist', hsplit.pre_lt, hsplit.lt_post⟩
  by_cases hk : k = key
  · subst hk
    rw [update_self]
    exact hsplit'.lookup
  · rw [update_of_ne hk, lookup, hlist']
    exact hsplit.lookup_of_ne hk

open Classical in
theorem update_none_eq_ite {f : K → Option V} {p : K → Prop} {k : K} (hp : ∀ k', p k' ↔ k' = k) :
    update f k none = fun k' => if p k' then none else f k' := by
  funext k'
  by_cases hk : k' = k
  · rw [if_pos ((hp k').2 hk), hk, update_self]
  · rw [if_neg (mt (hp k').1 hk), update_of_ne hk]

omit [LinearOrder K] in
theorem getSmallest_of_cons {k : K} {v : V} {es : List (K × V)}
    (h : m.root.toList = (k, v) :: es) (init : K) : (m.getSmallestLongMapElement init).2 = k := by
  simp only [getSmallestLongMapElement, smallest_eq_head?, h, head?_cons]

omit [LinearOrder K] in
theorem getLargest_of_append {k : K} {v : V} {es : List (K × V)}
    (h : m.root.toList = es ++ [(k, v)]) (init : K) : (m.getLargestLongMapElement init).2 = k := by
  simp only [getLargestLongMapElement, largest_eq_getLast?, h, getLast?_append,
    getLast?_singleton, Option.some_or]

/-- An operation keeps the map sound and does what it should. -/
theorem Sound.apply (h : m.Sound) (op : MapOp K V) :
    (m.apply op).1.Sound ∧ (m.apply op).1.lookup = op.change m.lookup := by
  cases op with
  | set key value => exact ⟨(h.lookup_set key value).1, (h.lookup_set key value).2.1⟩
  | remove key => exact ⟨(h.lookup_remove key).1, (h.lookup_remove key).2.1⟩
  | removeSmallest init =>
    obtain ⟨hsound, hlookup, -⟩ := h.lookup_remove (m.getSmallestLongMapElement init).2
    refine ⟨hsound, hlookup.trans ?_⟩
    cases hlist : m.root.toList with
    | nil =>
      have hnone : m.lookup = fun _ => none := by
        funext k
        rw [lookup, hlist]
        rfl
      funext k
      simp [hnone, MapOp.change, update_apply]
    | cons e es =>
      have hleast := isLeast_of_head (hlist ▸ h.ordered)
      have hfun : m.lookup = fun k => (e :: es).lookup k := by
        funext k
        rw [lookup, hlist]
      rw [getSmallest_of_cons hlist, hfun]
      exact update_none_eq_ite fun k => ⟨fun hk => hk.unique hleast, fun hk => hk ▸ hleast⟩
  | removeLargest init =>
    obtain ⟨hsound, hlookup, -⟩ := h.lookup_remove (m.getLargestLongMapElement init).2
    refine ⟨hsound, hlookup.trans ?_⟩
    rcases eq_nil_or_concat m.root.toList with hlist | ⟨es, e, hlist⟩
    · have hnone : m.lookup = fun _ => none := by
        funext k
        rw [lookup, hlist]
        rfl
      funext k
      simp [hnone, MapOp.change, update_apply]
    · rw [concat_eq_append] at hlist
      have hgreatest := isGreatest_of_last (hlist ▸ h.ordered)
      have hfun : m.lookup = fun k => (es ++ [e]).lookup k := by
        funext k
        rw [lookup, hlist]
      rw [getLargest_of_append hlist, hfun]
      exact update_none_eq_ite fun k => ⟨fun hk => hk.unique hgreatest, fun hk => hk ▸ hgreatest⟩

theorem sound_run (ops : List (MapOp K V)) :
    (run ops).Sound ∧ (run ops).lookup = content ops := by
  have hfrom : ∀ (ops : List (MapOp K V)) (m : LongMap K V) (f : K → Option V), m.Sound →
      m.lookup = f → (ops.foldl (fun m op => (m.apply op).1) m).Sound ∧
        (ops.foldl (fun m op => (m.apply op).1) m).lookup = ops.foldl MapOp.change f := by
    intro ops
    induction ops with
    | nil => exact fun m f hsound hlookup => ⟨hsound, hlookup⟩
    | cons op ops ih =>
      intro m f hsound hlookup
      obtain ⟨hstep, hchange⟩ := hsound.apply op
      exact ih _ _ hstep (hlookup ▸ hchange)
  exact hfrom ops .empty _ Sound.empty rfl

/-! ## Reading and destroying -/

omit [LinearOrder K] in
theorem getSortedNodeKeys_eq (t : AvlTree K V) (keys : List K) :
    getSortedNodeKeys t keys = keys ++ t.toList.map Prod.fst := by
  induction t generalizing keys with
  | nil => simp [getSortedNodeKeys]
  | node k v b l r ihl ihr => simp [getSortedNodeKeys, ihl, ihr]

omit [LinearOrder K] in
theorem getSortedNodeValues_eq (t : AvlTree K V) (values : List V) :
    getSortedNodeValues t values = values ++ t.toList.map Prod.snd := by
  induction t generalizing values with
  | nil => simp [getSortedNodeValues]
  | node k v b l r ihl ihr => simp [getSortedNodeValues, ihl, ihr]

omit [LinearOrder K] in
theorem applyToEveryLongMapNode_eq {S : Type*} (applyFunc : K → V → S → S) (t : AvlTree K V)
    (s : S) :
    applyToEveryLongMapNode applyFunc t s = t.toList.foldl (fun s e => applyFunc e.1 e.2 s) s := by
  induction t generalizing s with
  | nil => rfl
  | node k v b l r ihl ihr => simp [applyToEveryLongMapNode, ihl, ihr]

theorem Sound.remove_head (h : m.Sound) {k : K} {v : V} {es : List (K × V)}
    (hlist : m.root.toList = (k, v) :: es) :
    (m.removeLongMapElement k).1.root.toList = es ∧ (m.removeLongMapElement k).2 = some v := by
  obtain ⟨pre, mid, post, hsplit, hreturn, -, hrest⟩ := h.remove k
  have hmid : mid = some v := by
    rw [← hsplit.lookup, hlist, lookup_cons_self]
  have hpre : pre = [] := by
    cases hpre : pre with
    | nil => rfl
    | cons e es' =>
      have heq := hsplit.eq
      rw [hlist, hpre, cons_append] at heq
      have hhead : (k, v) = e := (List.cons.inj heq).1
      exact absurd (hsplit.pre_lt e (hpre ▸ mem_cons_self)) (by rw [← hhead]; exact lt_irrefl k)
  have heq := hsplit.eq
  rw [hlist, hpre, hmid] at heq
  have hpost : es = post := (List.cons.inj heq).2
  rw [hrest, hpre, hpost, hreturn, hmid]
  exact ⟨rfl, rfl⟩

/-- Destroying takes out all values, in order. -/
theorem Sound.destroyRounds (h : m.Sound) (mode : DestroyMode) (init : K) (d : Destroyed V) :
    ∃ m', LongMap.destroyRounds mode init (m.numElements + 1) m d =
        some (m', m.root.toList.foldl (fun d e => d.add mode (some e.2)) d) ∧
      m'.root.toList = [] ∧ m'.numElements = 0 := by
  have hcount : m.numElements = m.root.toList.length := h.counted.trans (size_eq_length _)
  generalize hlist : m.root.toList = es at hcount
  rw [hcount]
  induction es generalizing m d with
  | nil =>
    have hzero : m.numElements = 0 := hcount
    refine ⟨m, ?_, hlist, hzero⟩
    simp [LongMap.destroyRounds, hzero]
  | cons e es ih =>
    have hpos : m.numElements > 0 := by
      rw [hcount]
      exact Nat.succ_pos _
    have hsmallest : m.removeSmallestLongMapElement init =
        (m.removeLongMapElement e.1, e.1) := by
      simp only [removeSmallestLongMapElement, getSmallest_of_cons hlist]
    obtain ⟨hrest, hreturn⟩ := h.remove_head hlist
    have hsound := (h.lookup_remove e.1).1
    have hcount' := (hsound.counted.trans (size_eq_length _)).trans (congrArg List.length hrest)
    obtain ⟨m', hdestroy, hempty⟩ := ih hsound (d.add mode (some e.2)) hrest hcount'
    refine ⟨m', ?_, hempty⟩
    rw [length_cons, LongMap.destroyRounds, if_pos hpos]
    simp only [hsmallest, hreturn]
    exact hdestroy

omit [LinearOrder K] in
theorem foldl_add_returnValues (es : List (K × V)) (d : Destroyed V) :
    es.foldl (fun d e => d.add .returnValues (some e.2)) d =
      ⟨d.returnValues ++ es.map (fun e => some e.2), d.freed, d.numDestroyed + es.length⟩ := by
  induction es generalizing d with
  | nil => simp
  | cons e es ih =>
    rw [foldl_cons, ih]
    simp only [Destroyed.add, if_true, append_assoc, singleton_append, map_cons,
      length_cons, reduceCtorEq, if_false, Nat.add_assoc, Nat.add_comm 1]

/-- Every run of operations leads to a tree that is ordered and balanced, with
the content of the run; the operations return what was there before, and the
traversals and the destruction of the map meet its entries once each, in the
order of their keys. -/
theorem run_correct (ops : List (MapOp K V)) (init : K) :
    Ascending (run ops).root.toList ∧ (run ops).root.Balanced ∧
      (run ops).numElements = (run ops).root.size ∧
      (∀ key, (run ops).getLongMapElement key = content ops key) ∧
      (∀ key value, ((run ops).setLongMapElement key value).2 = content ops key) ∧
      (∀ key, ((run ops).removeLongMapElement key).2 = content ops key) ∧
      ∃ es : List (K × V), Ascending es ∧ (∀ k v, (k, v) ∈ es ↔ content ops k = some v) ∧
        (run ops).getSortedLongMapKeys = (es.map Prod.fst, es.length) ∧
        (run ops).getSortedLongMapValues = (es.map Prod.snd, es.length) ∧
        (∀ (visited : List (K × V)),
          (run ops).applyToEveryLongMapValue (fun k v s => s ++ [(k, v)]) visited = visited ++ es) ∧
        ∃ m', (run ops).destroyLongMapValues .returnValues init =
            some (m', ⟨es.map fun e => some e.2, [], es.length⟩) ∧
          m'.root.toList = [] ∧ m'.numElements = 0 := by
  obtain ⟨hsound, hlookup⟩ := sound_run ops
  have hcount : (run ops).numElements = (run ops).root.toList.length :=
    hsound.counted.trans (size_eq_length _)
  refine ⟨hsound.ordered, hsound.balanced, hsound.counted, fun key => ?_, fun key value => ?_,
    fun key => ?_, (run ops).root.toList, hsound.ordered, fun k v => ?_, ?_, ?_, ?_, ?_⟩
  · rw [getLongMapElement_eq hsound.ordered, ← hlookup]
    rfl
  · rw [(hsound.lookup_set key value).2.2, hlookup]
  · rw [(hsound.lookup_remove key).2.2, hlookup]
  · rw [← hsound.ordered.lookup_eq_some, ← hlookup]
    rfl
  · rw [getSortedLongMapKeys, getSortedNodeKeys_eq, hcount, nil_append]
  · rw [getSortedLongMapValues, getSortedNodeValues_eq, hcount, nil_append]
  · intro visited
    rw [applyToEveryLongMapValue, applyToEveryLongMapNode_eq]
    rw [foldl_append_eq_append, ← flatMap_def, flatMap_singleton']
  · obtain ⟨m', hdestroy, hempty⟩ := hsound.destroyRounds .returnValues init ⟨[], [], 0⟩
    refine ⟨m', ?_, hempty⟩
    rw [destroyLongMapValues, hdestroy, foldl_add_returnValues]
    simp

end LongMap

end TreeMap

end Gargoyle
