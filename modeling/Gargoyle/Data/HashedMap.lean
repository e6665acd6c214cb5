import Mathlib.Data.List.Sort

/-!
# Maps keyed by a hash of the key

`HashedMap hash V` is the abstract content of a search tree ordered by the hash
of its keys, where every node stores the full key beside the value. Two keys
with the same hash are one and the same entry: looking up, writing and removing
compare hashes and never the keys themselves, and a write replaces the stored
key as well. The entries are kept in the order of their hashes, which is the
order an in-order traversal visits them in.
-/

@[ext] structure HashedMap {κ : Type*} (hash : κ → ℕ) (V : Type*) where
  /-- The stored keys and values in traversal order. -/
  entries : List (κ × V)
  /-- The hashes increase strictly along the traversal. -/
  sorted : entries.Pairwise fun a b => hash a.1 < hash b.1

namespace HashedMap

open List

section Entries

variable {κ V : Type*} (hash : κ → ℕ)

/-- The value of the first entry whose hash is the hash of `k`. -/
def lookup (k : κ) : List (κ × V) → Option V
  | [] => none
  | e :: es => if hash e.1 = hash k then some e.2 else lookup k es

/-- Write `v` under `k` at the place its hash belongs to. -/
def insert (k : κ) (v : V) : List (κ × V) → List (κ × V)
  | [] => [(k, v)]
  | e :: es =>
    if hash k < hash e.1 then (k, v) :: e :: es
    else if hash k = hash e.1 then (k, v) :: es
    else e :: insert k v es

theorem lookup_nil (k : κ) : lookup hash k ([] : List (κ × V)) = none := rfl

theorem lookup_cons (k : κ) (e : κ × V) (es : List (κ × V)) :
    lookup hash k (e :: es) = if hash e.1 = hash k then some e.2 else lookup hash k es := rfl

theorem insert_nil (k : κ) (v : V) : insert hash k v [] = [(k, v)] := rfl

theorem insert_cons (k : κ) (v : V) (e : κ × V) (es : List (κ × V)) :
    insert hash k v (e :: es) =
      if hash k < hash e.1 then (k, v) :: e :: es
      else if hash k = hash e.1 then (k, v) :: es
      else e :: insert hash k v es := rfl

theorem lookup_insert (k k' : κ) (v : V) (es : List (κ × V)) :
    lookup hash k' (insert hash k v es) =
      if hash k = hash k' then some v else lookup hash k' es := by
  induction es with
  | nil => rfl
  | cons e es ih =>
    by_cases hk : hash k = hash k'
    · simp only [insert_cons, if_pos hk]
      split_ifs with hlt heq
      · simp [lookup_cons, hk]
      · simp [lookup_cons, hk]
      · have hne : ¬ hash e.1 = hash k' := fun h => heq (hk.trans h.symm)
        simp [lookup_cons, hne, ih, hk]
    · simp only [insert_cons, if_neg hk]
      split_ifs with hlt heq
      · simp [lookup_cons, hk]
      · have hne : ¬ hash e.1 = hash k' := fun h => hk (heq.trans h)
        simp [lookup_cons, hk, hne]
      · simp [lookup_cons, ih, hk]

theorem lookup_filter (k k' : κ) (es : List (κ × V)) :
    lookup hash k' (es.filter fun e => hash e.1 ≠ hash k) =
      if hash k = hash k' then none else lookup hash k' es := by
  induction es with
  | nil => simp [lookup_nil]
  | cons e es ih =>
    by_cases hk : hash e.1 = hash k
    · simp only [hk, ne_eq, not_true_eq_false, decide_false,
        filter_cons_of_neg, Bool.false_eq_true, not_false_eq_true] at ih ⊢
      rw [ih]
      split_ifs with h
      · rfl
      · simp [lookup_cons, hk, h]
    · rw [filter_cons_of_pos (by simpa using hk)]
      simp only [lookup_cons, ih]
      split_ifs with h h'
      · exact absurd (h.trans h'.symm) hk
      · rfl
      · rfl
      · rfl

theorem mem_insert {k : κ} {v : V} {es : List (κ × V)} {e : κ × V}
    (h : e ∈ insert hash k v es) : e = (k, v) ∨ e ∈ es := by
  induction es with
  | nil => simpa [insert_nil] using h
  | cons a es ih =>
    simp only [insert_cons] at h
    split_ifs at h
    · simpa using h
    · rcases List.mem_cons.1 h with h | h
      · exact .inl h
      · exact .inr (mem_cons_of_mem _ h)
    · rcases List.mem_cons.1 h with h | h
      · exact .inr (h ▸ mem_cons_self)
      · exact (ih h).imp id (mem_cons_of_mem _)

theorem mem_insert_of_ne {k : κ} {v : V} {es : List (κ × V)} {e : κ × V} (he : e ∈ es)
    (hne : hash e.1 ≠ hash k) : e ∈ insert hash k v es := by
  induction es with
  | nil => cases he
  | cons a es ih =>
    simp only [insert_cons]
    split_ifs with hlt heq
    · exact mem_cons_of_mem _ he
    · rcases List.mem_cons.1 he with rfl | he
      · exact absurd heq.symm hne
      · exact mem_cons_of_mem _ he
    · rcases List.mem_cons.1 he with rfl | he
      · exact mem_cons_self
      · exact mem_cons_of_mem _ (ih he)

theorem mem_insert_self (k : κ) (v : V) (es : List (κ × V)) : (k, v) ∈ insert hash k v es := by
  induction es with
  | nil => exact mem_cons_self
  | cons a es ih =>
    simp only [insert_cons]
    split_ifs
    · exact mem_cons_self
    · exact mem_cons_self
    · exact mem_cons_of_mem _ ih

theorem insert_sorted (k : κ) (v : V) (es : List (κ × V))
    (h : es.Pairwise fun a b => hash a.1 < hash b.1) :
    (insert hash k v es).Pairwise fun a b => hash a.1 < hash b.1 := by
  induction es with
  | nil => simp [insert_nil]
  | cons e es ih =>
    obtain ⟨hhead, htail⟩ := List.pairwise_cons.1 h
    simp only [insert_cons]
    split_ifs with hlt heq
    · refine List.pairwise_cons.2 ⟨?_, h⟩
      intro a ha
      rcases List.mem_cons.1 ha with rfl | ha
      · exact hlt
      · exact hlt.trans (hhead a ha)
    · refine List.pairwise_cons.2 ⟨fun a ha => ?_, htail⟩
      have := hhead a ha
      exact heq ▸ this
    · refine List.pairwise_cons.2 ⟨fun a ha => ?_, ih htail⟩
      rcases mem_insert hash ha with rfl | ha
      · exact lt_of_le_of_ne (not_lt.1 hlt) (fun h => heq h.symm)
      · exact hhead a ha

theorem eq_of_hash_eq {es : List (κ × V)} (h : es.Pairwise fun a b => hash a.1 < hash b.1)
    {e e' : κ × V} (he : e ∈ es) (he' : e' ∈ es) (hhash : hash e.1 = hash e'.1) : e = e' := by
  induction es with
  | nil => cases he
  | cons a es ih =>
    obtain ⟨hhead, htail⟩ := List.pairwise_cons.1 h
    rcases List.mem_cons.1 he with rfl | hmem
    · rcases List.mem_cons.1 he' with rfl | hmem'
      · rfl
      · exact absurd hhash (hhead e' hmem').ne
    · rcases List.mem_cons.1 he' with rfl | hmem'
      · exact absurd hhash.symm (hhead e hmem).ne
      · exact ih htail hmem hmem'

theorem mem_of_lookup {k : κ} {v : V} {es : List (κ × V)}
    (h : lookup hash k es = some v) :
    ∃ k', hash k' = hash k ∧ (k', v) ∈ es := by
  induction es with
  | nil => simp [lookup_nil] at h
  | cons e es ih =>
    simp only [lookup_cons] at h
    split_ifs at h with hk
    · refine ⟨e.1, hk, ?_⟩
      obtain rfl := Option.some.inj h
      exact mem_cons_self
    · obtain ⟨k', hk', hmem⟩ := ih h
      exact ⟨k', hk', mem_cons_of_mem _ hmem⟩

theorem lookup_of_mem {e : κ × V} {es : List (κ × V)}
    (h : es.Pairwise fun a b => hash a.1 < hash b.1) (he : e ∈ es) :
    lookup hash e.1 es = some e.2 := by
  induction es with
  | nil => exact absurd he (by simp)
  | cons a es ih =>
    obtain ⟨hhead, htail⟩ := List.pairwise_cons.1 h
    rcases List.mem_cons.1 he with rfl | he
    · simp [lookup_cons]
    · have hne : ¬ hash a.1 = hash e.1 := (hhead e he).ne
      simp [lookup_cons, hne, ih htail he]

theorem lookup_append (k : κ) (es fs : List (κ × V)) :
    lookup hash k (es ++ fs) = (lookup hash k es).or (lookup hash k fs) := by
  induction es with
  | nil => rfl
  | cons e es ih =>
    rw [cons_append, lookup_cons, lookup_cons, ih]
    split_ifs <;> rfl

theorem lookup_reverse (k : κ) {es : List (κ × V)}
    (h : es.Pairwise fun a b => hash a.1 < hash b.1) :
    lookup hash k es.reverse = lookup hash k es := by
  induction es with
  | nil => rfl
  | cons e es ih =>
    obtain ⟨hhead, htail⟩ := List.pairwise_cons.1 h
    rw [reverse_cons, lookup_append, ih htail]
    simp only [lookup_cons, lookup_nil]
    split_ifs with hk
    · cases hrest : lookup hash k es with
      | none => rfl
      | some v =>
        obtain ⟨k', hk', hmem⟩ := mem_of_lookup hash hrest
        exact absurd (hk.trans hk'.symm) (hhead _ hmem).ne
    · rw [Option.or_none]

end Entries

variable {κ V : Type*} {hash : κ → ℕ}

def empty : HashedMap hash V := ⟨[], List.Pairwise.nil⟩

/-- The value stored under the hash of `k`. -/
def get (m : HashedMap hash V) (k : κ) : Option V := lookup hash k m.entries

/-- Store `v` under `k`, replacing the entry with the same hash. -/
def set (m : HashedMap hash V) (k : κ) (v : V) : HashedMap hash V :=
  ⟨insert hash k v m.entries, insert_sorted hash k v m.entries m.sorted⟩

/-- Drop the entry with the hash of `k`. -/
def remove (m : HashedMap hash V) (k : κ) : HashedMap hash V :=
  ⟨m.entries.filter fun e => hash e.1 ≠ hash k, m.sorted.filter _⟩

def keys (m : HashedMap hash V) : List κ := m.entries.map Prod.fst

/-- Change the value under the hash of `k` in its place. -/
def modify (m : HashedMap hash V) (k : κ) (f : V → V) : HashedMap hash V where
  entries := m.entries.map fun e => (e.1, if hash e.1 = hash k then f e.2 else e.2)
  sorted := List.pairwise_map.2 m.sorted

@[simp] theorem get_empty (k : κ) : (empty : HashedMap hash V).get k = none := rfl

@[simp] theorem entries_empty : (empty : HashedMap hash V).entries = [] := rfl

theorem get_set (m : HashedMap hash V) (k k' : κ) (v : V) :
    (m.set k v).get k' = if hash k = hash k' then some v else m.get k' :=
  lookup_insert hash k k' v m.entries

@[simp] theorem get_set_self (m : HashedMap hash V) (k : κ) (v : V) :
    (m.set k v).get k = some v := by
  simp [get_set]

theorem get_set_of_ne (m : HashedMap hash V) {k k' : κ} (v : V)
    (h : hash k ≠ hash k') : (m.set k v).get k' = m.get k' := by
  simp [get_set, h]

theorem get_remove (m : HashedMap hash V) (k k' : κ) :
    (m.remove k).get k' = if hash k = hash k' then none else m.get k' :=
  lookup_filter hash k k' m.entries

theorem get_congr (m : HashedMap hash V) {k k' : κ} (h : hash k = hash k') :
    m.get k = m.get k' := by
  change lookup hash k m.entries = lookup hash k' m.entries
  induction m.entries with
  | nil => rfl
  | cons e es ih => simp only [lookup_cons, h, ih]

theorem get_of_mem (m : HashedMap hash V) {e : κ × V} (he : e ∈ m.entries) :
    m.get e.1 = some e.2 :=
  lookup_of_mem hash m.sorted he

theorem exists_mem_of_get (m : HashedMap hash V) {k : κ} {v : V}
    (h : m.get k = some v) : ∃ k', hash k' = hash k ∧ (k', v) ∈ m.entries :=
  mem_of_lookup hash h

theorem get_eq_none_iff (m : HashedMap hash V) (k : κ) :
    m.get k = none ↔ ∀ e ∈ m.entries, hash e.1 ≠ hash k := by
  constructor
  · intro h e he heq
    have hsome := m.get_of_mem he
    rw [m.get_congr heq, h] at hsome
    cases hsome
  · intro h
    cases hget : m.get k with
    | none => rfl
    | some v =>
      obtain ⟨k', hk', hmem⟩ := m.exists_mem_of_get hget
      exact absurd hk' (h _ hmem)

theorem mem_entries_remove (m : HashedMap hash V) (k : κ) (e : κ × V) :
    e ∈ (m.remove k).entries ↔ e ∈ m.entries ∧ hash e.1 ≠ hash k := by
  simp [remove]

theorem remove_of_get_none (m : HashedMap hash V) {k : κ} (h : m.get k = none) :
    m.remove k = m := by
  ext1
  refine List.filter_eq_self.2 fun e he => ?_
  simpa using (m.get_eq_none_iff k).1 h e he

theorem mem_entries_set (m : HashedMap hash V) (k : κ) (v : V) (e : κ × V) :
    e ∈ (m.set k v).entries ↔ e = (k, v) ∨ e ∈ m.entries ∧ hash e.1 ≠ hash k := by
  constructor
  · intro h
    by_cases hhash : hash e.1 = hash k
    · exact .inl (eq_of_hash_eq hash (m.set k v).sorted h (mem_insert_self hash k v m.entries)
        hhash)
    · rcases mem_insert hash h with rfl | hmem
      · exact absurd rfl hhash
      · exact .inr ⟨hmem, hhash⟩
  · rintro (rfl | ⟨hmem, hhash⟩)
    · exact mem_insert_self hash _ _ _
    · exact mem_insert_of_ne hash hmem hhash

theorem get_modify (m : HashedMap hash V) (k k' : κ) (f : V → V) :
    (m.modify k f).get k' = if hash k' = hash k then (m.get k').map f else m.get k' := by
  have hlookup : ∀ es : List (κ × V),
      lookup hash k' (es.map fun e => (e.1, if hash e.1 = hash k then f e.2 else e.2)) =
        if hash k' = hash k then (lookup hash k' es).map f else lookup hash k' es := by
    intro es
    induction es with
    | nil => simp [lookup_nil]
    | cons e es ih =>
      rw [map_cons, lookup_cons, ih, lookup_cons]
      by_cases hk' : hash e.1 = hash k'
      · simp only [hk', if_true, Option.map_some]
        split_ifs <;> rfl
      · simp only [hk', if_false]
  exact hlookup m.entries

/-! ## Keys -/

theorem keys_modify (m : HashedMap hash V) (k : κ) (f : V → V) : (m.modify k f).keys = m.keys := by
  simp [keys, modify]

theorem isSome_get_modify (m : HashedMap hash V) (k k' : κ) (f : V → V) :
    ((m.modify k f).get k').isSome = (m.get k').isSome := by
  rw [get_modify]
  split_ifs with h
  · exact Option.isSome_map
  · rfl

theorem mem_keys (m : HashedMap hash V) (k : κ) : k ∈ m.keys ↔ ∃ v, (k, v) ∈ m.entries := by
  simp [keys]

theorem nodup_keys (m : HashedMap hash V) : m.keys.Nodup := by
  refine List.pairwise_map.2 (m.sorted.imp fun hlt heq => ?_)
  rw [heq] at hlt
  exact lt_irrefl _ hlt

theorem get_isSome_of_mem_keys (m : HashedMap hash V) {k : κ} (h : k ∈ m.keys) :
    (m.get k).isSome := by
  obtain ⟨v, hv⟩ := (m.mem_keys k).1 h
  rw [m.get_of_mem hv]
  rfl

theorem mem_keys_set_self (m : HashedMap hash V) (k : κ) (v : V) : k ∈ (m.set k v).keys :=
  ((m.set k v).mem_keys k).2 ⟨v, (m.mem_entries_set k v _).2 (Or.inl rfl)⟩

theorem eq_or_mem_keys_of_set (m : HashedMap hash V) {k k' : κ} {v : V}
    (h : k' ∈ (m.set k v).keys) : k' = k ∨ k' ∈ m.keys := by
  obtain ⟨w, hw⟩ := ((m.set k v).mem_keys k').1 h
  rw [mem_entries_set] at hw
  rcases hw with heq | ⟨hmem, -⟩
  · exact .inl (congrArg Prod.fst heq)
  · exact .inr ((m.mem_keys k').2 ⟨w, hmem⟩)

theorem get_eq_none_iff_keys (m : HashedMap hash V) (k : κ) :
    m.get k = none ↔ ∀ k' ∈ m.keys, hash k' ≠ hash k := by
  rw [get_eq_none_iff]
  constructor
  · intro hall k' hk'
    obtain ⟨v, hv⟩ := (m.mem_keys k').1 hk'
    exact hall _ hv
  · intro hall e he
    exact hall e.1 (mem_map_of_mem he)

section Congr

variable {W : Type*} {m : HashedMap hash V} {m' : HashedMap hash W}

theorem insert_keys_congr (k : κ) (v : V) (w : W) (es : List (κ × V)) (fs : List (κ × W))
    (h : es.map Prod.fst = fs.map Prod.fst) :
    (insert hash k v es).map Prod.fst = (insert hash k w fs).map Prod.fst := by
  induction es generalizing fs with
  | nil =>
    rw [map_nil, eq_comm, map_eq_nil_iff] at h
    rw [h]
    rfl
  | cons e es ih =>
    cases fs with
    | nil => cases h
    | cons f fs =>
      obtain ⟨hhead, htail⟩ := List.cons.inj h
      simp only [insert_cons, hhead]
      split_ifs
      · simp only [map_cons, hhead, htail]
      · simp only [map_cons, htail]
      · simp only [map_cons, hhead, ih fs htail]

theorem keys_set_congr (h : m.keys = m'.keys) (k : κ) (v : V) (w : W) :
    (m.set k v).keys = (m'.set k w).keys :=
  insert_keys_congr k v w m.entries m'.entries h

theorem keys_remove (m : HashedMap hash V) (k : κ) :
    (m.remove k).keys = m.keys.filter fun k' => hash k' ≠ hash k := by
  simp only [keys, remove, filter_map]
  rfl

theorem keys_remove_congr (h : m.keys = m'.keys) (k : κ) :
    (m.remove k).keys = (m'.remove k).keys := by
  rw [keys_remove, keys_remove, h]

theorem get_isSome_congr (h : m.keys = m'.keys) (k : κ) :
    (m.get k).isSome = (m'.get k).isSome := by
  have hnone : m.get k = none ↔ m'.get k = none := by
    rw [get_eq_none_iff_keys, get_eq_none_iff_keys, h]
  rw [Bool.eq_iff_iff, Option.isSome_iff_ne_none, Option.isSome_iff_ne_none]
  exact not_congr hnone

end Congr

theorem insert_keys_of_mem {k : κ} (v : V) {es : List (κ × V)}
    (hsorted : es.Pairwise fun a b => hash a.1 < hash b.1) (h : k ∈ es.map Prod.fst) :
    (insert hash k v es).map Prod.fst = es.map Prod.fst := by
  induction es with
  | nil => cases h
  | cons e es ih =>
    obtain ⟨hhead, htail⟩ := List.pairwise_cons.1 hsorted
    rw [map_cons, mem_cons] at h
    rcases h with rfl | hmem
    · simp [insert_cons]
    · obtain ⟨f, hf, rfl⟩ := List.mem_map.1 hmem
      have hlt := hhead f hf
      simp only [insert_cons, if_neg (Nat.lt_asymm hlt), if_neg hlt.ne', map_cons,
        ih htail hmem]

theorem insert_of_lt {k : κ} (v : V) {es : List (κ × V)} (h : ∀ e ∈ es, hash e.1 < hash k) :
    insert hash k v es = es ++ [(k, v)] := by
  induction es with
  | nil => rfl
  | cons e es ih =>
    have hlt := h e mem_cons_self
    simp only [insert_cons, if_neg (Nat.lt_asymm hlt), if_neg hlt.ne', cons_append,
      ih fun e' he' => h e' (mem_cons_of_mem e he')]

theorem keys_set_of_lt (m : HashedMap hash V) {k : κ} (v : V)
    (h : ∀ k' ∈ m.keys, hash k' < hash k) : (m.set k v).keys = m.keys ++ [k] := by
  have hentries := insert_of_lt v fun e he => h e.1 (mem_map_of_mem he)
  exact (congrArg (List.map Prod.fst) hentries).trans map_append

theorem keys_sorted (m : HashedMap hash V) : m.keys.Pairwise fun a b => hash a < hash b :=
  List.pairwise_map.2 m.sorted

theorem keys_set_of_mem (m : HashedMap hash V) {k : κ} (v : V) (h : k ∈ m.keys) :
    (m.set k v).keys = m.keys :=
  insert_keys_of_mem v m.sorted h

theorem ext_get {m m' : HashedMap hash V} (hkeys : m.keys = m'.keys)
    (hget : ∀ k, m.get k = m'.get k) : m = m' := by
  have hentries : ∀ m : HashedMap hash V,
      m.entries.map (fun e => (e.1, some e.2)) = m.keys.map fun k => (k, m.get k) := by
    intro m
    rw [keys, map_map]
    exact map_congr_left fun e he => by simp [m.get_of_mem he]
  have hsame : m.entries.map (fun e => (e.1, some e.2)) =
      m'.entries.map fun e => (e.1, some e.2) := by
    rw [hentries m, hentries m', hkeys]
    exact map_congr_left fun k _ => by rw [hget k]
  ext1
  refine List.map_injective_iff.2 (fun e e' heq => ?_) hsame
  obtain ⟨hfst, hsnd⟩ := Prod.mk.inj heq
  exact Prod.ext hfst (Option.some.inj hsnd)

theorem set_set (m : HashedMap hash V) (k : κ) (v w : V) : (m.set k v).set k w = m.set k w := by
  refine ext_get ?_ fun k' => ?_
  · rw [keys_set_of_mem _ _ (mem_keys_set_self m k v)]
    exact keys_set_congr rfl k v w
  · simp only [get_set]
    split_ifs
    · rfl
    · rfl

theorem insert_eq_self_iff {k : κ} {v : V} {es : List (κ × V)}
    (h : es.Pairwise fun a b => hash a.1 < hash b.1) :
    insert hash k v es = es ↔ (k, v) ∈ es := by
  constructor
  · intro heq
    rw [← heq]
    exact mem_insert_self hash k v es
  · intro hmem
    induction es with
    | nil => cases hmem
    | cons e es ih =>
      obtain ⟨hhead, htail⟩ := List.pairwise_cons.1 h
      rcases List.mem_cons.1 hmem with rfl | hmem
      · rw [insert_cons, if_neg (lt_irrefl _), if_pos rfl]
      · have hlt := hhead _ hmem
        rw [insert_cons, if_neg hlt.le.not_gt, if_neg hlt.ne', ih htail hmem]

theorem set_eq_self_iff (m : HashedMap hash V) (k : κ) (v : V) :
    m.set k v = m ↔ (k, v) ∈ m.entries := by
  rw [HashedMap.ext_iff]
  exact insert_eq_self_iff m.sorted

theorem set_inj (m : HashedMap hash V) (k : κ) {v w : V} : m.set k v = m.set k w ↔ v = w := by
  constructor
  · intro h
    have hget := m.get_set_self k v
    rw [h, get_set_self] at hget
    exact (Option.some.inj hget).symm
  · rintro rfl
    rfl

theorem get_foldl_set (es : List (κ × V)) (m : HashedMap hash V) (k : κ) :
    (es.foldl (fun m e => m.set e.1 e.2) m).get k = (lookup hash k es.reverse).or (m.get k) := by
  induction es generalizing m with
  | nil => rfl
  | cons e es ih =>
    rw [foldl_cons, ih, reverse_cons, lookup_append, Option.or_assoc, get_set]
    simp only [lookup_cons, lookup_nil]
    split_ifs <;> rfl

theorem get_foldl_entries (m' m : HashedMap hash V) (k : κ) :
    (m'.entries.foldl (fun m e => m.set e.1 e.2) m).get k = (m'.get k).or (m.get k) := by
  rw [get_foldl_set, lookup_reverse hash k m'.sorted]
  rfl

end HashedMap
