import Gargoyle.Bandwidth.ReferenceKernel
import Gargoyle.TreeMap.LongMapRun

/-!
# Maps with strings for keys

`string_map` is a `long_map` under the hashes of its keys. The key itself may be
stored beside the value, and is only ever handed back, so that two strings with
one hash are one key. A map that stores its keys represents a `HashedMap`, which
is what the models of the modules work with.
-/

namespace Gargoyle

open List

namespace TreeMap

open AvlTree Bandwidth

/-- `string_map`. The values of the tree are the ones of the map with the key,
when keys are stored. -/
structure StringMap (V : Type*) where
  lm : LongMap ℕ (Option String × V)
  storeKeys : Bool
  numElements : ℕ

namespace StringMap

variable [Kernel] {V : Type*}

def initializeStringMap (storeKeys : Bool) : StringMap V := ⟨.empty, storeKeys, 0⟩

/-- `get_string_map_element_with_hashed_key`. The number of elements, which is
copied from the tree here as well, is always the one of the tree. -/
def getStringMapElementWithHashedKey (m : StringMap V) (hashedKey : ℕ) : Option V :=
  (m.lm.getLongMapElement hashedKey).map Prod.snd

def getStringMapElement (m : StringMap V) (key : String) : Option V :=
  m.getStringMapElementWithHashedKey (sdbmStringHash key)

/-- `set_string_map_element`, with the value that was replaced. -/
def setStringMapElement (m : StringMap V) (key : String) (value : V) : StringMap V × Option V :=
  let kv := (if m.storeKeys then some key else none, value)
  let set := m.lm.setLongMapElement (sdbmStringHash key) kv
  ({ m with lm := set.1, numElements := set.1.numElements }, set.2.map Prod.snd)

/-- `remove_string_map_element`, with the value that was removed. -/
def removeStringMapElement (m : StringMap V) (key : String) : StringMap V × Option V :=
  let removed := m.lm.removeLongMapElement (sdbmStringHash key)
  ({ m with lm := removed.1, numElements := removed.1.numElements }, removed.2.map Prod.snd)

def getStringMapKeys (m : StringMap V) : List String :=
  if m.storeKeys ∧ m.numElements > 0 then
    m.lm.getSortedLongMapValues.1.map fun kv => kv.1.getD ""
  else []

/-! ## The map that is represented -/

def node (e : String × V) : ℕ × Option String × V := (sdbmStringHash e.1, some e.1, e.2)

structure Represents (m : StringMap V) (hm : HashedMap sdbmStringHash V) : Prop where
  storeKeys : m.storeKeys = true
  sound : m.lm.Sound
  entries : m.lm.root.toList = hm.entries.map node
  numElements : m.numElements = m.lm.numElements

theorem lookup_map_node (key : String) (es : List (String × V)) :
    ((es.map node).lookup (sdbmStringHash key)).map Prod.snd =
      HashedMap.lookup sdbmStringHash key es := by
  induction es with
  | nil => rfl
  | cons e es ih =>
    rw [map_cons, List.lookup_cons, HashedMap.lookup]
    by_cases hkey : sdbmStringHash e.1 = sdbmStringHash key
    · have hbeq : (sdbmStringHash key == (node e).1) = true := beq_iff_eq.2 hkey.symm
      rw [if_pos hkey, hbeq]
      rfl
    · have hbeq : (sdbmStringHash key == (node e).1) = false :=
        beq_false_of_ne fun h => hkey h.symm
      rw [if_neg hkey, hbeq, ih]

/-- A text is set under its hash. -/
theorem map_node_insert {key : String} (value : V) {es : List (String × V)}
    {pre post : List (ℕ × Option String × V)} {mid : Option (Option String × V)}
    (h : SplitAt (sdbmStringHash key) (es.map node) pre mid post) :
    (HashedMap.insert sdbmStringHash key value es).map node =
      pre ++ node (key, value) :: post := by
  induction es generalizing pre with
  | nil =>
    obtain ⟨rfl, hrest⟩ := List.append_eq_nil_iff.1 h.eq.symm
    obtain ⟨-, rfl⟩ := List.append_eq_nil_iff.1 hrest
    rfl
  | cons e es ih =>
    have heq := h.eq
    rw [map_cons] at heq
    cases pre with
    | cons p pre =>
      obtain ⟨rfl, htail⟩ := List.cons.inj heq
      have hlt : sdbmStringHash e.1 < sdbmStringHash key := h.pre_lt _ mem_cons_self
      have hrest := ih ⟨htail, fun p hp => h.pre_lt p (mem_cons_of_mem _ hp), h.lt_post⟩
      rw [HashedMap.insert, if_neg hlt.not_gt, if_neg hlt.ne', map_cons, hrest,
        cons_append]
    | nil =>
      cases mid with
      | some kv =>
        obtain ⟨hhead, htail⟩ := List.cons.inj heq
        have hsame : sdbmStringHash e.1 = sdbmStringHash key := congrArg Prod.fst hhead
        rw [HashedMap.insert, if_neg hsame.not_gt, if_pos hsame.symm, map_cons, htail]
        rfl
      | none =>
        have hpost : post = node e :: es.map node := heq.symm
        have hlt : sdbmStringHash key < sdbmStringHash e.1 :=
          h.lt_post (node e) (hpost ▸ mem_cons_self)
        rw [HashedMap.insert, if_pos hlt, map_cons, map_cons, hpost]
        rfl

theorem map_node_filter {key : String} {es : List (String × V)}
    {pre post : List (ℕ × Option String × V)} {mid : Option (Option String × V)}
    (h : SplitAt (sdbmStringHash key) (es.map node) pre mid post) :
    (es.filter fun e => sdbmStringHash e.1 ≠ sdbmStringHash key).map node = pre ++ post := by
  have hfilter : (es.filter fun e => sdbmStringHash e.1 ≠ sdbmStringHash key).map node =
      (es.map node).filter fun e => e.1 ≠ sdbmStringHash key := by
    rw [filter_map]
    rfl
  have hpre : pre.filter (fun e => e.1 ≠ sdbmStringHash key) = pre :=
    List.filter_eq_self.2 fun e he => decide_eq_true (h.pre_lt e he).ne
  have hpost : post.filter (fun e => e.1 ≠ sdbmStringHash key) = post :=
    List.filter_eq_self.2 fun e he => decide_eq_true (h.lt_post e he).ne'
  rw [hfilter, h.eq, filter_append, filter_append, hpre, hpost]
  cases mid <;> simp

section Represents

variable {m : StringMap V} {hm : HashedMap sdbmStringHash V}

theorem Represents.empty (V : Type*) :
    (initializeStringMap true : StringMap V).Represents HashedMap.empty :=
  ⟨rfl, LongMap.Sound.empty, rfl, rfl⟩

theorem Represents.set (h : m.Represents hm) (key : String) (value : V) :
    (m.setStringMapElement key value).1.Represents (hm.set key value) ∧
      (m.setStringMapElement key value).2 = hm.get key := by
  obtain ⟨pre, mid, post, hsplit, hreturn, hsound, hlist⟩ :=
    h.sound.set (sdbmStringHash key) (some key, value)
  have hset : m.setStringMapElement key value =
      let set := m.lm.setLongMapElement (sdbmStringHash key) (some key, value)
      ({ m with lm := set.1, numElements := set.1.numElements }, set.2.map Prod.snd) := by
    simp only [setStringMapElement, h.storeKeys, if_true]
  rw [hset]
  refine ⟨⟨h.storeKeys, hsound, hlist.trans ?_, rfl⟩, ?_⟩
  · rw [h.entries] at hsplit
    exact (map_node_insert value hsplit).symm
  · have hmid : mid = m.lm.root.toList.lookup (sdbmStringHash key) := hsplit.lookup.symm
    simp only [hreturn, hmid, h.entries, lookup_map_node]
    rfl

theorem Represents.remove (h : m.Represents hm) (key : String) :
    (m.removeStringMapElement key).1.Represents (hm.remove key) ∧
      (m.removeStringMapElement key).2 = hm.get key := by
  obtain ⟨pre, mid, post, hsplit, hreturn, hsound, hlist⟩ :=
    h.sound.remove (sdbmStringHash key)
  refine ⟨⟨h.storeKeys, hsound, hlist.trans ?_, rfl⟩, ?_⟩
  · rw [h.entries] at hsplit
    exact (map_node_filter hsplit).symm
  · have hmid : mid = m.lm.root.toList.lookup (sdbmStringHash key) := hsplit.lookup.symm
    simp only [removeStringMapElement, hreturn, hmid, h.entries, lookup_map_node]
    rfl

theorem Represents.keys (h : m.Represents hm) : m.getStringMapKeys = hm.keys := by
  have hcount : m.numElements = hm.entries.length := by
    rw [h.numElements, h.sound.counted, size_eq_length, h.entries, length_map]
  simp only [getStringMapKeys, h.storeKeys, true_and, LongMap.getSortedLongMapValues,
    LongMap.getSortedNodeValues_eq, h.entries, nil_append, map_map]
  split_ifs with hpos
  · rfl
  · have hempty : hm.entries = [] := List.length_eq_zero_iff.1 (by omega)
    rw [HashedMap.keys, hempty]
    rfl

end Represents

/-! ## Two keys -/

inductive StringOp (V : Type*)
  | set (key : String) (value : V)
  | remove (key : String)

def run (storeKeys : Bool) (ops : List (StringOp V)) : StringMap V :=
  ops.foldl
    (fun m op =>
      match op with
      | .set key value => (m.setStringMapElement key value).1
      | .remove key => (m.removeStringMapElement key).1)
    (initializeStringMap storeKeys)

theorem sound_run (storeKeys : Bool) (ops : List (StringOp V)) :
    (run storeKeys ops).lm.Sound := by
  have hfrom : ∀ (ops : List (StringOp V)) (m : StringMap V), m.lm.Sound →
      (ops.foldl (fun m op =>
        match op with
        | .set key value => (m.setStringMapElement key value).1
        | .remove key => (m.removeStringMapElement key).1) m).lm.Sound := by
    intro ops
    induction ops with
    | nil => exact fun m h => h
    | cons op ops ih =>
      intro m h
      refine ih _ ?_
      cases op with
      | set key value => exact (h.lookup_set _ _).1
      | remove key => exact (h.lookup_remove _).1
  exact hfrom ops _ LongMap.Sound.empty

def Separate (m : StringMap V) (a b : String) : Prop :=
  (∀ value, (m.setStringMapElement a value).1.getStringMapElement b = m.getStringMapElement b) ∧
    (m.removeStringMapElement a).1.getStringMapElement b = m.getStringMapElement b

section Separate

variable {m : StringMap V}

theorem get_set (h : m.lm.Sound) (a b : String) (value : V) :
    (m.setStringMapElement a value).1.getStringMapElement b =
      if sdbmStringHash a = sdbmStringHash b then some value else m.getStringMapElement b := by
  obtain ⟨hsound, hlookup, -⟩ := h.lookup_set (sdbmStringHash a)
    (if m.storeKeys then some a else none, value)
  have hfind := congrFun hlookup (sdbmStringHash b)
  simp only [getStringMapElement, getStringMapElementWithHashedKey, setStringMapElement]
  rw [LongMap.getLongMapElement_eq hsound.ordered, LongMap.getLongMapElement_eq h.ordered]
  unfold LongMap.lookup at hfind
  rw [hfind]
  by_cases hsame : sdbmStringHash a = sdbmStringHash b
  · rw [if_pos hsame, hsame, Function.update_self]
    rfl
  · rw [if_neg hsame, Function.update_of_ne (Ne.symm hsame)]

theorem get_remove (h : m.lm.Sound) (a b : String) :
    (m.removeStringMapElement a).1.getStringMapElement b =
      if sdbmStringHash a = sdbmStringHash b then none else m.getStringMapElement b := by
  obtain ⟨hsound, hlookup, -⟩ := h.lookup_remove (sdbmStringHash a)
  have hfind := congrFun hlookup (sdbmStringHash b)
  simp only [getStringMapElement, getStringMapElementWithHashedKey, removeStringMapElement]
  rw [LongMap.getLongMapElement_eq hsound.ordered, LongMap.getLongMapElement_eq h.ordered]
  unfold LongMap.lookup at hfind
  rw [hfind]
  by_cases hsame : sdbmStringHash a = sdbmStringHash b
  · rw [if_pos hsame, hsame, Function.update_self]
    rfl
  · rw [if_neg hsame, Function.update_of_ne (Ne.symm hsame)]

theorem removed_eq_get (h : m.lm.Sound) (key : String) :
    (m.removeStringMapElement key).2 = m.getStringMapElement key := by
  obtain ⟨-, -, hreturn⟩ := h.lookup_remove (sdbmStringHash key)
  simp only [getStringMapElement, getStringMapElementWithHashedKey, removeStringMapElement]
  rw [hreturn, LongMap.getLongMapElement_eq h.ordered]
  rfl

end Separate

/-- Two keys are kept apart exactly when their hashes are different. -/
theorem separate_iff_hash_ne [Inhabited V] (storeKeys : Bool) (ops : List (StringOp V))
    (a b : String) : (run storeKeys ops).Separate a b ↔ sdbmStringHash a ≠ sdbmStringHash b := by
  have hsound := sound_run storeKeys ops
  constructor
  · rintro ⟨hset, hremove⟩ hsame
    have hfound := hset default
    rw [get_set hsound, if_pos hsame] at hfound
    rw [get_remove hsound, if_pos hsame, ← hfound] at hremove
    cases hremove
  · intro hne
    refine ⟨fun value => ?_, ?_⟩
    · rw [get_set hsound, if_neg hne]
    · rw [get_remove hsound, if_neg hne]

/-! ## The map that a run represents -/

def hashedRun (ops : List (StringOp V)) : HashedMap sdbmStringHash V :=
  ops.foldl
    (fun hm op =>
      match op with
      | .set key value => hm.set key value
      | .remove key => hm.remove key)
    HashedMap.empty

theorem represents_run (ops : List (StringOp V)) : (run true ops).Represents (hashedRun ops) := by
  induction ops using List.reverseRecOn with
  | nil => exact .empty V
  | append_singleton ops op ih =>
    rw [run, hashedRun, foldl_append, foldl_append]
    cases op with
    | set key value => exact (ih.set key value).1
    | remove key => exact (ih.remove key).1

theorem get_run (storeKeys : Bool) (ops : List (StringOp V)) (key : String) :
    (run storeKeys ops).getStringMapElement key = (hashedRun ops).get key := by
  induction ops using List.reverseRecOn with
  | nil => rfl
  | append_singleton ops op ih =>
    have hsound := sound_run storeKeys ops
    rw [run, hashedRun, foldl_append, foldl_append]
    cases op with
    | set k value => exact (get_set hsound k key value).trans (by rw [ih, ← HashedMap.get_set]; rfl)
    | remove k => exact (get_remove hsound k key).trans (by rw [ih, ← HashedMap.get_remove]; rfl)

theorem replaced_eq_get {m : StringMap V} (h : m.lm.Sound) (key : String) (value : V) :
    (m.setStringMapElement key value).2 = m.getStringMapElement key := by
  obtain ⟨-, -, hreturn⟩ := h.lookup_set (sdbmStringHash key)
    (if m.storeKeys then some key else none, value)
  simp only [getStringMapElement, getStringMapElementWithHashedKey, setStringMapElement]
  rw [hreturn, LongMap.getLongMapElement_eq h.ordered]
  rfl

theorem storeKeys_run (storeKeys : Bool) (ops : List (StringOp V)) :
    (run storeKeys ops).storeKeys = storeKeys := by
  induction ops using List.reverseRecOn with
  | nil => rfl
  | append_singleton ops op ih =>
    rw [run, foldl_append]
    cases op with
    | set key value => exact ih
    | remove key => exact ih

/-- Whatever is set and removed: the tree returns the values that a map keyed by hashes returns,
whether it stores keys or not. The keys that it lists are the ones of that map, and are counted
right; without stored keys it lists none. -/
theorem run_refines (ops : List (StringOp V)) :
    (∀ storeKeys key value,
      (run storeKeys ops).getStringMapElement key = (hashedRun ops).get key ∧
        ((run storeKeys ops).setStringMapElement key value).2 = (hashedRun ops).get key ∧
        ((run storeKeys ops).removeStringMapElement key).2 = (hashedRun ops).get key) ∧
      (run true ops).getStringMapKeys = (hashedRun ops).keys ∧
      (run true ops).numElements = (hashedRun ops).keys.length ∧
      (run false ops).getStringMapKeys = [] := by
  have hrepresents := represents_run ops
  refine ⟨fun storeKeys key value => ⟨get_run storeKeys ops key, ?_, ?_⟩, hrepresents.keys, ?_, ?_⟩
  · rw [replaced_eq_get (sound_run storeKeys ops), get_run]
  · rw [removed_eq_get (sound_run storeKeys ops), get_run]
  · rw [hrepresents.numElements, hrepresents.sound.counted, size_eq_length, hrepresents.entries,
      length_map, HashedMap.keys, length_map]
  · rw [getStringMapKeys, storeKeys_run, if_neg fun h => absurd h.1 (by decide)]

end StringMap

/-! ## Two hosts -/

section Hosts

local instance hostKernel : Kernel := referenceKernel 32

/-- The hosts 10.9.152.100 and 10.3.159.0 are one key where words have 32 bits:
the counter that is set for the first one is found for the second one. -/
theorem hosts_share_counter :
    Kernel.ulongBits = 32 ∧ dottedDecimal 1687685386 = "10.9.152.100" ∧
      dottedDecimal 10421002 = "10.3.159.0" ∧
      (StringMap.initializeStringMap true : StringMap ℕ).getStringMapElement "10.3.159.0" = none ∧
      ((StringMap.initializeStringMap true : StringMap ℕ).setStringMapElement
        "10.9.152.100" 7).1.getStringMapElement "10.3.159.0" = some 7 := by
  decide

end Hosts

end TreeMap

end Gargoyle
