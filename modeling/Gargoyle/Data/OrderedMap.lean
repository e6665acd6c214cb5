import Mathlib.Data.List.Nodup
import Mathlib.Logic.Embedding.Basic

/-!
# Ordered maps

An ordered map has entries with keys of which no two are equal, in the order in which the keys
have come. A key that is there already keeps its place when its value changes; a key that
has been erased comes back behind the others.
-/

namespace Gargoyle

open List

structure OrderedMap (κ β : Type*) where
  entries : List (κ × β)
  nodup : (entries.map Prod.fst).Nodup

namespace OrderedMap

variable {κ γ β : Type*}

theorem ext {m m' : OrderedMap κ β} (h : m.entries = m'.entries) : m = m' := by
  cases m
  cases m'
  congr

def keys (m : OrderedMap κ β) : List κ := m.entries.map Prod.fst

theorem nodup_keys (m : OrderedMap κ β) : m.keys.Nodup := m.nodup

def empty : OrderedMap κ β := ⟨[], nodup_nil⟩

def filter (p : κ → Bool) (m : OrderedMap κ β) : OrderedMap κ β where
  entries := m.entries.filter fun e => p e.1
  nodup := (List.filter_sublist.map Prod.fst).nodup m.nodup

theorem keys_filter (p : κ → Bool) (m : OrderedMap κ β) : (m.filter p).keys = m.keys.filter p := by
  rw [keys, filter, keys, filter_map]
  rfl

theorem filter_filter (p q : κ → Bool) (m : OrderedMap κ β) :
    (m.filter q).filter p = m.filter fun k => p k && q k := by
  refine ext ?_
  simp only [filter, List.filter_filter]

theorem filter_congr {p q : κ → Bool} {m : OrderedMap κ β} (h : ∀ k ∈ m.keys, p k = q k) :
    m.filter p = m.filter q :=
  ext (List.filter_congr fun e he => h e.1 (mem_map_of_mem he))

theorem filter_eq_self {p : κ → Bool} {m : OrderedMap κ β} (h : ∀ k ∈ m.keys, p k) :
    m.filter p = m :=
  ext (List.filter_eq_self.2 fun e he => h e.1 (mem_map_of_mem he))

def mapKeys (f : κ ↪ γ) (m : OrderedMap κ β) : OrderedMap γ β where
  entries := m.entries.map (Prod.map f id)
  nodup := by
    rw [map_map]
    have hmap := m.nodup.map f.injective
    rwa [map_map] at hmap

theorem keys_mapKeys (f : κ ↪ γ) (m : OrderedMap κ β) : (m.mapKeys f).keys = m.keys.map f := by
  rw [keys, mapKeys, keys, map_map, map_map]
  rfl

theorem mapKeys_filter (f : κ ↪ γ) {p : γ → Bool} {q : κ → Bool} {m : OrderedMap κ β}
    (h : ∀ k ∈ m.keys, p (f k) = q k) : (m.mapKeys f).filter p = (m.filter q).mapKeys f := by
  refine ext ?_
  simp only [filter, mapKeys, filter_map]
  exact congrArg _ (List.filter_congr fun e he => h e.1 (mem_map_of_mem he))

section Lookup

variable [DecidableEq κ] [DecidableEq γ]

def lookup (m : OrderedMap κ β) (k : κ) : Option β := m.entries.lookup k

omit [DecidableEq γ] in
theorem lookup_cons (k : κ) (e : κ × β) (es : List (κ × β)) :
    (e :: es).lookup k = if k = e.1 then some e.2 else es.lookup k := by
  rw [List.lookup_cons]
  split_ifs with hk
  · rw [beq_iff_eq.2 hk]
  · rw [beq_eq_false_iff_ne.2 hk]

theorem mem_entries_iff {m : OrderedMap κ β} {k : κ} {v : β} :
    (k, v) ∈ m.entries ↔ m.lookup k = some v := by
  obtain ⟨entries, hnodup⟩ := m
  change _ ↔ entries.lookup k = some v
  induction entries with
  | nil => simp
  | cons e es ih =>
    obtain ⟨hnot, hrest⟩ := List.nodup_cons.1 hnodup
    rw [lookup_cons, mem_cons, ih hrest]
    split_ifs with hk
    · have hout : es.lookup k ≠ some v := by
        intro h
        rw [← ih hrest] at h
        exact hnot (hk ▸ mem_map_of_mem h)
      rw [or_iff_left hout, Option.some.injEq, Prod.ext_iff]
      exact ⟨fun h => h.2.symm, fun h => ⟨hk, h.symm⟩⟩
    · rw [or_iff_right fun h => hk (congrArg Prod.fst h)]

theorem mem_keys_iff {m : OrderedMap κ β} {k : κ} : k ∈ m.keys ↔ ∃ v, m.lookup k = some v := by
  simp only [keys, mem_map, ← mem_entries_iff]
  constructor
  · rintro ⟨⟨a, b⟩, he, rfl⟩
    exact ⟨b, he⟩
  · rintro ⟨v, hv⟩
    exact ⟨(k, v), hv, rfl⟩

theorem lookup_eq_none_iff {m : OrderedMap κ β} {k : κ} : m.lookup k = none ↔ k ∉ m.keys := by
  rw [mem_keys_iff, Option.eq_none_iff_forall_ne_some]
  simp

theorem ext_lookup {m m' : OrderedMap κ β} (hkeys : m.keys = m'.keys)
    (h : ∀ k ∈ m.keys, m.lookup k = m'.lookup k) : m = m' := by
  have hentries : ∀ m : OrderedMap κ β,
      m.entries = m.keys.filterMap fun k => (m.lookup k).map fun v => (k, v) := by
    intro m
    rw [keys, filterMap_map]
    conv_lhs => rw [← filterMap_some (l := m.entries)]
    refine filterMap_congr fun e he => ?_
    rw [Function.comp_apply, mem_entries_iff.1 he]
    rfl
  refine ext ?_
  rw [hentries m, hentries m', ← hkeys]
  exact filterMap_congr fun k hk => by rw [h k hk]

@[simp] theorem lookup_empty (k : κ) : (empty : OrderedMap κ β).lookup k = none := rfl

theorem lookup_filter (p : κ → Bool) (m : OrderedMap κ β) (k : κ) :
    (m.filter p).lookup k = if p k then m.lookup k else none := by
  refine Option.ext fun v => ?_
  rw [← mem_entries_iff, filter, mem_filter, mem_entries_iff]
  by_cases hp : p k <;> simp [hp]

theorem lookup_mapKeys (f : κ ↪ γ) (m : OrderedMap κ β) (k : κ) :
    (m.mapKeys f).lookup (f k) = m.lookup k := by
  refine Option.ext fun v => ?_
  rw [← mem_entries_iff, ← mem_entries_iff, mapKeys, mem_map]
  constructor
  · rintro ⟨⟨a, b⟩, he, heq⟩
    obtain ⟨hka, rfl⟩ := Prod.mk.inj heq
    rwa [← f.injective hka]
  · exact fun h => ⟨(k, v), h, rfl⟩

/-! ## Setting and erasing -/

def upsertEntry (k : κ) (g : Option β → β) : List (κ × β) → List (κ × β)
  | [] => [(k, g none)]
  | e :: es => if e.1 = k then (k, g (some e.2)) :: es else e :: upsertEntry k g es

omit [DecidableEq γ] in
theorem map_fst_upsertEntry (k : κ) (g : Option β → β) (es : List (κ × β)) :
    (upsertEntry k g es).map Prod.fst =
      if k ∈ es.map Prod.fst then es.map Prod.fst else es.map Prod.fst ++ [k] := by
  induction es with
  | nil => simp [upsertEntry]
  | cons e es ih =>
    rw [upsertEntry]
    split_ifs with hk hmem hmem
    · simp [hk]
    · simp [hk] at hmem
    · rw [map_cons, ih, if_pos]
      · rfl
      · simpa [Ne.symm hk] using hmem
    · rw [map_cons, ih, if_neg]
      · rfl
      · simp only [map_cons, mem_cons, not_or] at hmem
        exact hmem.2

def upsert (k : κ) (g : Option β → β) (m : OrderedMap κ β) : OrderedMap κ β where
  entries := upsertEntry k g m.entries
  nodup := by
    rw [map_fst_upsertEntry]
    split_ifs with hmem
    · exact m.nodup
    · rw [nodup_append]
      refine ⟨m.nodup, by simp, ?_⟩
      rintro a ha b hb rfl
      exact hmem (List.mem_singleton.1 hb ▸ ha)

omit [DecidableEq γ] in
theorem upsertEntry_of_notMem {k : κ} {es : List (κ × β)} (h : k ∉ es.map Prod.fst)
    (g : Option β → β) : upsertEntry k g es = es ++ [(k, g none)] := by
  induction es with
  | nil => rfl
  | cons e es ih =>
    rw [map_cons, mem_cons, not_or] at h
    rw [upsertEntry, if_neg (Ne.symm h.1), ih h.2, cons_append]

theorem keys_upsert (k : κ) (g : Option β → β) (m : OrderedMap κ β) :
    (m.upsert k g).keys = if k ∈ m.keys then m.keys else m.keys ++ [k] :=
  map_fst_upsertEntry k g m.entries

theorem lookup_upsert (k : κ) (g : Option β → β) (m : OrderedMap κ β) (k' : κ) :
    (m.upsert k g).lookup k' = if k' = k then some (g (m.lookup k)) else m.lookup k' := by
  change (upsertEntry k g m.entries).lookup k' =
    if k' = k then some (g (m.entries.lookup k)) else m.entries.lookup k'
  induction m.entries with
  | nil => rw [upsertEntry, lookup_cons]; rfl
  | cons e es ih =>
    rw [upsertEntry, lookup_cons k, lookup_cons k']
    by_cases he : e.1 = k
    · rw [if_pos he, if_pos he.symm, lookup_cons]
      split_ifs with hk hend
      · rfl
      · exact absurd (hend.trans he) hk
      · rfl
    · rw [if_neg he, if_neg (Ne.symm he), lookup_cons, ih]
      split_ifs with hk' hk hk
      · exact absurd (hk'.symm.trans hk) he
      · rfl
      · rfl
      · rfl

theorem mapKeys_upsert (f : κ ↪ γ) (k : κ) (g : Option β → β) (m : OrderedMap κ β) :
    (m.upsert k g).mapKeys f = (m.mapKeys f).upsert (f k) g := by
  refine ext ?_
  change (upsertEntry k g m.entries).map (Prod.map f id) =
    upsertEntry (f k) g (m.entries.map (Prod.map f id))
  induction m.entries with
  | nil => rfl
  | cons e es ih =>
    rw [map_cons, upsertEntry, upsertEntry, Prod.map_fst, Prod.map_snd, id]
    by_cases he : e.1 = k
    · rw [if_pos he, if_pos (congrArg f he), map_cons]
      rfl
    · rw [if_neg he, if_neg fun h => he (f.injective h), map_cons, ih]

def erase (k : κ) (m : OrderedMap κ β) : OrderedMap κ β := m.filter fun k' => k' ≠ k

omit [DecidableEq γ] in
theorem filter_upsert {p : κ → Bool} {k : κ} (hk : p k = false) (g : Option β → β)
    (m : OrderedMap κ β) : (m.upsert k g).filter p = m.filter p := by
  refine ext_lookup ?_ fun k' _ => ?_
  · rw [keys_filter, keys_filter, keys_upsert]
    split_ifs with hmem
    · rfl
    · rw [filter_append, filter_singleton, hk]
      simp
  · rw [lookup_filter, lookup_filter, lookup_upsert]
    by_cases heq : k' = k
    · rw [heq, hk, if_neg Bool.false_ne_true, if_neg Bool.false_ne_true]
    · rw [if_neg heq]

omit [DecidableEq γ] in
theorem filter_foldl_upsert {α : Type*} {p : κ → Bool} {k : κ} (hk : p k = false)
    (f : α → Option β → β) (l : List α) (m : OrderedMap κ β) :
    (l.foldl (fun m a => m.upsert k (f a)) m).filter p = m.filter p := by
  induction l generalizing m with
  | nil => rfl
  | cons a l ih => rw [foldl_cons, ih, filter_upsert hk]

omit [DecidableEq γ] [DecidableEq κ] in
theorem filter_filter_of_imp {p q : κ → Bool} {m : OrderedMap κ β}
    (h : ∀ k ∈ m.keys, p k = true → q k = true) : (m.filter q).filter p = m.filter p := by
  rw [filter_filter]
  refine filter_congr fun k hk => ?_
  cases hp : p k with
  | false => rfl
  | true => rw [h k hk hp]; rfl

omit [DecidableEq γ] in
theorem foldl_erase (ks : List κ) (m : OrderedMap κ β) :
    ks.foldl (fun m k => m.erase k) m = m.filter fun k => k ∉ ks := by
  induction ks generalizing m with
  | nil => exact (filter_eq_self fun k _ => by simp).symm
  | cons k ks ih =>
    rw [foldl_cons, ih, erase, filter_filter]
    exact filter_congr fun k' _ => by simp [not_or, Bool.and_comm]

end Lookup

end OrderedMap

end Gargoyle
