import Gargoyle.TreeMap.LongMap

/-!
# What a map contains

A map is sound if its keys are ascending, its tree is balanced and its elements
have been counted right. The operations keep a sound map sound, and they change
its entries as one expects: the entries are split at the key, and the entry
between the two halves is replaced or left out.
-/

namespace Gargoyle

namespace TreeMap

open AvlTree

variable {K V : Type*}

/-! ## Searching -/

section Search

variable [LinearOrder K] {key : K}

/-- The search ends at the key, or where it belongs. -/
theorem descend_spec (key : K) {t : AvlTree K V} (hne : t ≠ .nil) (fs : List (Frame K V)) :
    ∃ k v b l r fs', descend key t fs = (.node k v b l r, fs') ∧
      plug (.node k v b l r) fs' = plug t fs ∧
      (key = k ∨ (key < k ∧ l = .nil) ∨ (k < key ∧ r = .nil)) ∧
      (Ascending t.toList →
        (∀ e ∈ before fs, e.1 < key) → (∀ e ∈ after fs, key < e.1) →
        (∀ e ∈ before fs', e.1 < key) ∧ (∀ e ∈ after fs', key < e.1)) := by
  induction t generalizing fs with
  | nil => exact absurd rfl hne
  | node k v b l r ihl ihr =>
    rcases lt_trichotomy key k with hlt | rfl | hgt
    · cases l with
      | nil =>
        refine ⟨k, v, b, .nil, r, fs, ?_, rfl, Or.inr (.inl ⟨hlt, rfl⟩), fun _ h h' => ⟨h, h'⟩⟩
        simp only [descend, if_neg hlt.ne, if_pos hlt]
      | node k' v' b' l' r' =>
        obtain ⟨k₀, v₀, b₀, l₀, r₀, fs', hdescend, hplug, hstop, hbounds⟩ :=
          ihl (by simp) (⟨.left, k, v, b, r⟩ :: fs)
        refine ⟨k₀, v₀, b₀, l₀, r₀, fs', ?_, hplug, hstop, fun hasc hbefore hafter => ?_⟩
        · rw [← hdescend]
          simp only [descend, if_neg hlt.ne, if_pos hlt]
        · rw [toList_node] at hasc
          obtain ⟨hl, hr, -⟩ := List.pairwise_append.1 hasc
          refine hbounds hl hbefore fun e he => ?_
          simp only [after, List.cons_append, List.mem_cons, List.mem_append] at he
          rcases he with rfl | he | he
          · exact hlt
          · exact hlt.trans ((List.pairwise_cons.1 hr).1 e he)
          · exact hafter e he
    · exact ⟨key, v, b, l, r, fs, by simp [descend], rfl, Or.inl rfl, fun _ h h' => ⟨h, h'⟩⟩
    · cases r with
      | nil =>
        refine ⟨k, v, b, l, .nil, fs, ?_, rfl, Or.inr (.inr ⟨hgt, rfl⟩), fun _ h h' => ⟨h, h'⟩⟩
        simp only [descend, if_neg hgt.ne', if_neg hgt.not_gt]
      | node k' v' b' l' r' =>
        obtain ⟨k₀, v₀, b₀, l₀, r₀, fs', hdescend, hplug, hstop, hbounds⟩ :=
          ihr (by simp) (⟨.right, k, v, b, l⟩ :: fs)
        refine ⟨k₀, v₀, b₀, l₀, r₀, fs', ?_, hplug, hstop, fun hasc hbefore hafter => ?_⟩
        · rw [← hdescend]
          simp only [descend, if_neg hgt.ne', if_neg hgt.not_gt]
        · rw [toList_node] at hasc
          obtain ⟨hl, hr, hcross⟩ := List.pairwise_append.1 hasc
          refine hbounds (List.pairwise_cons.1 hr).2 (fun e he => ?_) hafter
          simp only [before, List.mem_append, List.mem_singleton] at he
          rcases he with he | he | rfl
          · exact hbefore e he
          · exact (hcross e he _ List.mem_cons_self).trans hgt
          · exact hgt

theorem descend_root (key : K) {t : AvlTree K V} (hne : t ≠ .nil) (hasc : Ascending t.toList) :
    ∃ k v b l r fs, descend key t [] = (.node k v b l r, fs) ∧
      plug (.node k v b l r) fs = t ∧
      ((key = k ∧ SplitAt key t.toList (before fs ++ l.toList) (some v) (r.toList ++ after fs)) ∨
        (key < k ∧ l = .nil ∧
          SplitAt key t.toList (before fs) none ((k, v) :: (r.toList ++ after fs))) ∨
        (k < key ∧ r = .nil ∧
          SplitAt key t.toList (before fs ++ (l.toList ++ [(k, v)])) none (after fs))) := by
  obtain ⟨k, v, b, l, r, fs, hdescend, hplug, hstop, hbounds⟩ :=
    descend_spec key hne []
  obtain ⟨hbefore, hafter⟩ := hbounds hasc (by simp [before]) (by simp [after])
  have hlist : t.toList = before fs ++ ((node k v b l r).toList ++ after fs) := by
    rw [← toList_plug, hplug]
    rfl
  have hnode : Ascending (node k v b l r).toList := by
    rw [hlist] at hasc
    exact (List.pairwise_append.1 (List.pairwise_append.1 hasc).2.1).1
  rw [toList_node] at hlist hnode
  obtain ⟨-, hright, hcross⟩ := List.pairwise_append.1 hnode
  have hl : ∀ e ∈ l.toList, e.1 < k := fun e he => hcross e he _ List.mem_cons_self
  have hr : ∀ e ∈ r.toList, k < e.1 := (List.pairwise_cons.1 hright).1
  refine ⟨k, v, b, l, r, fs, hdescend, hplug, ?_⟩
  rcases hstop with rfl | ⟨hlt, rfl⟩ | ⟨hgt, rfl⟩
  · refine .inl ⟨rfl, by rw [hlist]; simp, ?_, ?_⟩
    · intro e he
      exact (List.mem_append.1 he).elim (hbefore e) (hl e)
    · intro e he
      exact (List.mem_append.1 he).elim (hr e) (hafter e)
  · refine .inr (.inl ⟨hlt, rfl, by rw [hlist]; simp, hbefore, ?_⟩)
    intro e he
    rcases List.mem_cons.1 he with rfl | he
    · exact hlt
    · exact (List.mem_append.1 he).elim (fun he => hlt.trans (hr e he)) (hafter e)
  · refine .inr (.inr ⟨hgt, rfl, by rw [hlist]; simp, ?_, hafter⟩)
    intro e he
    simp only [List.mem_append, List.mem_singleton] at he
    rcases he with he | he | rfl
    · exact hbefore e he
    · exact (hl e he).trans hgt
    · exact hgt

end Search

/-! ## Taking out a node -/

theorem leftmost_spec {t : AvlTree K V} (hne : t ≠ .nil) (fs : List (Frame K V)) :
    ∃ pk pv pb pr spine, leftmost t fs = (some (pk, pv, pr), spine) ∧
      plug (.node pk pv pb .nil pr) spine = plug t fs ∧ before spine = before fs := by
  induction t generalizing fs with
  | nil => exact absurd rfl hne
  | node k v b l r ihl _ =>
    cases l with
    | nil => exact ⟨k, v, b, r, fs, rfl, rfl, rfl⟩
    | node k' v' b' l' r' => exact ihl (by simp) (⟨.left, k, v, b, r⟩ :: fs)

/-- Taking a node out keeps the balance and the order. -/
theorem unlink_spec {k : K} {v : V} {b : ℤ} {l r : AvlTree K V} {fs : List (Frame K V)}
    (hnode : (node k v b l r).Balanced) (hfits : Fits fs (node k v b l r).height) :
    let unlinked := unlink b l fs r
    unlinked.1.Balanced ∧ Fits unlinked.2 (unlinked.1.height + 1) ∧
      (plug unlinked.1 unlinked.2).toList = before fs ++ (l.toList ++ (r.toList ++ after fs)) := by
  obtain ⟨hl, hr, hb, hlow, hhigh⟩ := balanced_node.1 hnode
  rw [height_node] at hfits
  cases r with
  | nil =>
    refine ⟨hl, ?_, ?_⟩
    · rw [height_nil, Nat.max_zero, Nat.add_comm] at hfits
      exact hfits
    · rw [unlink, toList_plug]
      rfl
  | node rk rv rb rl rr =>
    cases rl with
    | nil =>
      obtain ⟨-, hrr, -⟩ := balanced_node.1 hr
      simp only [height_node, height_nil, Nat.zero_max, Nat.add_comm 1 rr.height] at hb hfits
      have hunlink : unlink b l fs (node rk rv rb .nil rr) =
          (rr, ⟨.right, rk, rv, b, l⟩ :: fs) := rfl
      rw [hunlink]
      refine ⟨hrr, ⟨hl, hb, hlow, hhigh, ?_⟩, ?_⟩
      · rw [Nat.max_comm]
        exact hfits
      · simp [toList_plug, before, after]
    | node k' v' b' l' r' =>
      obtain ⟨pk, pv, pb, pr, spine, hleftmost, hplug, hbefore⟩ :=
        leftmost_spec (t := node k' v' b' l' r') (by simp) [⟨.left, rk, rv, rb, rr⟩]
      have hplug' : plug (.node pk pv pb .nil pr) spine =
          node rk rv rb (node k' v' b' l' r') rr := hplug
      have hbefore' : before spine = [] := hbefore
      have hunlink : unlink b l fs (node rk rv rb (node k' v' b' l' r') rr) =
          (pr, spine ++ ⟨.right, pk, pv, b, l⟩ :: fs) := by
        simp only [unlink, hleftmost]
      rw [← hplug', balanced_plug] at hr
      obtain ⟨hp, hspine⟩ := hr
      have hpr : (node pk pv pb nil pr).height = pr.height + 1 := by
        rw [height_node, height_nil, Nat.zero_max, Nat.add_comm]
      have hheight : (node rk rv rb (node k' v' b' l' r') rr).height =
          heightAbove spine (pr.height + 1) := by
        rw [← hplug', height_plug, hpr]
      rw [hpr] at hspine
      rw [hunlink]
      refine ⟨(balanced_node.1 hp).2.1, ?_, ?_⟩
      · refine (fits_append _ _ _).2 ⟨hspine, hl, ?_, hlow, hhigh, ?_⟩
        · rw [hb, hheight]
        · rw [← hheight, Nat.max_comm]
          exact hfits
      · have hlist : (node rk rv rb (node k' v' b' l' r') rr).toList =
            (pk, pv) :: (pr.toList ++ after spine) := by
          rw [← hplug', toList_plug, hbefore']
          rfl
        rw [hlist, plug_append, plug, toList_plug]
        simp [Frame.attach, toList_plug, hbefore']

/-! ## The operations -/

structure LongMap.Sound [LinearOrder K] (m : LongMap K V) : Prop where
  ordered : Ascending m.root.toList
  balanced : m.root.Balanced
  counted : m.numElements = m.root.size

namespace LongMap

variable [LinearOrder K] {m : LongMap K V} {key : K}

theorem Sound.empty : (LongMap.empty : LongMap K V).Sound :=
  ⟨List.Pairwise.nil, trivial, rfl⟩

theorem getLongMapElement_eq (h : Ascending m.root.toList) (key : K) :
    m.getLongMapElement key = m.root.toList.lookup key := by
  unfold getLongMapElement
  by_cases hnil : m.root = .nil
  · rw [hnil]
    rfl
  · obtain ⟨k, v, b, l, r, fs, hdescend, -, hsplit⟩ := descend_root key hnil h
    simp only [hdescend]
    rcases hsplit with ⟨rfl, hsplit⟩ | ⟨hlt, -, hsplit⟩ | ⟨hgt, -, hsplit⟩
    · rw [if_pos rfl, hsplit.lookup]
    · rw [if_neg hlt.ne', hsplit.lookup]
    · rw [if_neg hgt.ne, hsplit.lookup]

theorem Sound.replaced (h : m.Sound) {m' : LongMap K V} {pre post : List (K × V)}
    {mid : Option V} (mid' : Option V) (hsplit : SplitAt key m.root.toList pre mid post)
    (hlist : m'.root.toList = pre ++ ((mid'.map fun v => (key, v)).toList ++ post))
    (hbalanced : m'.root.Balanced)
    (hcount : m'.numElements + mid.toList.length = m.numElements + mid'.toList.length) :
    m'.Sound := by
  refine ⟨?_, hbalanced, ?_⟩
  · rw [hlist]
    exact hsplit.ascending h.ordered mid'
  · have hold := hsplit.length
    have hcounted := h.counted
    rw [size_eq_length] at hcounted
    rw [size_eq_length, hlist]
    simp only [List.length_append, Option.length_toList, Option.isSome_map] at *
    omega

/-- Setting a key keeps the map sound. -/
theorem Sound.set (h : m.Sound) (key : K) (value : V) :
    ∃ pre mid post, SplitAt key m.root.toList pre mid post ∧
      (m.setLongMapElement key value).2 = mid ∧
      (m.setLongMapElement key value).1.Sound ∧
      (m.setLongMapElement key value).1.root.toList = pre ++ (key, value) :: post := by
  by_cases hnil : m.root = .nil
  · have hset : m.setLongMapElement key value =
        (⟨.node key value 0 .nil .nil, m.numElements + 1⟩, none) := by
      simp only [setLongMapElement, hnil, descend]
    have hsplit : SplitAt key m.root.toList [] none [] := ⟨by rw [hnil]; rfl, by simp, by simp⟩
    rw [hset]
    exact ⟨[], none, [], hsplit, rfl, h.replaced (some value) hsplit rfl (by simp) rfl, rfl⟩
  · obtain ⟨k, v, b, l, r, fs, hdescend, hplug, hsplit⟩ :=
      descend_root key hnil h.ordered
    have hbalanced := h.balanced
    rw [← hplug, balanced_plug] at hbalanced
    obtain ⟨hnode, hfits⟩ := hbalanced
    obtain ⟨hl, hr, hb, hlow, hhigh⟩ := balanced_node.1 hnode
    rcases hsplit with ⟨rfl, hsplit⟩ | ⟨hlt, rfl, hsplit⟩ | ⟨hgt, rfl, hsplit⟩
    · have hset : m.setLongMapElement key value =
          (⟨plug (.node key value b l r) fs, m.numElements⟩, some v) := by
        simp only [setLongMapElement, hdescend, if_true]
      rw [hset]
      refine ⟨_, _, _, hsplit, rfl, h.replaced (some value) hsplit ?_ ?_ rfl, ?_⟩
      · rw [toList_plug]
        simp
      · exact (balanced_plug _ _).2 ⟨hnode, hfits⟩
      · rw [toList_plug]
        simp
    · have hset : m.setLongMapElement key value =
          (⟨rebalanceWhile 1 (fun new => new ≠ 0) (.node key value 0 .nil .nil)
            (⟨.left, k, v, b, r⟩ :: fs), m.numElements + 1⟩, none) := by
        simp only [setLongMapElement, hdescend, if_neg hlt.ne, if_pos hlt]
      rw [hset]
      refine ⟨_, _, _, hsplit, rfl, h.replaced (some value) hsplit ?_ ?_ rfl, ?_⟩
      · rw [toList_rebalanceWhile, toList_plug]
        simp [before, after]
      · refine balanced_rebalanceWhile_of_grown (h := 0) ?_ (by simp) rfl (Or.inr rfl)
        exact ⟨hr, hb, hlow, hhigh, hfits⟩
      · rw [toList_rebalanceWhile, toList_plug]
        simp [before, after]
    · have hset : m.setLongMapElement key value =
          (⟨rebalanceWhile 1 (fun new => new ≠ 0) (.node key value 0 .nil .nil)
            (⟨.right, k, v, b, l⟩ :: fs), m.numElements + 1⟩, none) := by
        simp only [setLongMapElement, hdescend, if_neg hgt.ne', if_neg hgt.not_gt]
      rw [hset]
      refine ⟨_, _, _, hsplit, rfl, h.replaced (some value) hsplit ?_ ?_ rfl, ?_⟩
      · rw [toList_rebalanceWhile, toList_plug]
        simp [before, after]
      · refine balanced_rebalanceWhile_of_grown (h := 0) ?_ (by simp) rfl (Or.inr rfl)
        refine ⟨hl, hb, hlow, hhigh, ?_⟩
        rw [Nat.max_comm]
        exact hfits
      · rw [toList_rebalanceWhile, toList_plug]
        simp [before, after]

/-- Removing a key keeps the map sound. -/
theorem Sound.remove (h : m.Sound) (key : K) :
    ∃ pre mid post, SplitAt key m.root.toList pre mid post ∧
      (m.removeLongMapElement key).2 = mid ∧ (m.removeLongMapElement key).1.Sound ∧
      (m.removeLongMapElement key).1.root.toList = pre ++ post := by
  by_cases hnil : m.root = .nil
  · have hremove : m.removeLongMapElement key = (m, none) := by
      simp only [removeLongMapElement, hnil, descend]
    have hlist : m.root.toList = [] := by rw [hnil]; rfl
    rw [hremove]
    exact ⟨[], none, [], ⟨hlist, by simp, by simp⟩, rfl, h, hlist⟩
  · obtain ⟨k, v, b, l, r, fs, hdescend, hplug, hsplit⟩ :=
      descend_root key hnil h.ordered
    rcases hsplit with ⟨rfl, hsplit⟩ | ⟨hlt, -, hsplit⟩ | ⟨hgt, -, hsplit⟩
    · have hbalanced := h.balanced
      rw [← hplug, balanced_plug] at hbalanced
      obtain ⟨hrest, hfits, hlist⟩ := unlink_spec hbalanced.1 hbalanced.2
      have hremove : m.removeLongMapElement key =
          (⟨rebalanceWhile (-1) (fun new => new = 0) (unlink b l fs r).1 (unlink b l fs r).2,
            m.numElements - 1⟩, some v) := by
        simp only [removeLongMapElement, hdescend, if_true]
      have hcount : 0 < m.numElements := by
        rw [h.counted, size_eq_length, hsplit.length, Option.toList_some, List.length_singleton]
        omega
      rw [hremove]
      refine ⟨_, _, _, hsplit, rfl, h.replaced none hsplit ?_ ?_ ?_, ?_⟩
      · rw [toList_rebalanceWhile, hlist]
        simp
      · exact balanced_rebalanceWhile_of_shrunk hfits hrest rfl
      · simp only [Option.toList_some, Option.toList_none, List.length_singleton, List.length_nil]
        omega
      · rw [toList_rebalanceWhile, hlist]
        simp
    · have hremove : m.removeLongMapElement key = (m, none) := by
        simp only [removeLongMapElement, hdescend, if_neg hlt.ne]
      rw [hremove]
      exact ⟨_, _, _, hsplit, rfl, h, hsplit.eq⟩
    · have hremove : m.removeLongMapElement key = (m, none) := by
        simp only [removeLongMapElement, hdescend, if_neg hgt.ne']
      rw [hremove]
      exact ⟨_, _, _, hsplit, rfl, h, hsplit.eq⟩

end LongMap

end TreeMap

end Gargoyle
