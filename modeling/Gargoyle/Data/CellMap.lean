import Gargoyle.Data.HashedMap

/-!
# Block memory

An arena holds numbered blocks of cells. Allocation hands out a block number
that was never used before, so a pointer into a freed block never becomes valid
again and two live blocks never overlap. A cell is addressed by its block and
its index in the block. Loading from a cell outside every live block yields
`none`, and storing to such a cell changes nothing.
-/

structure Cell where
  block : ℕ
  index : ℕ
deriving DecidableEq

structure Arena (α : Type*) where
  blocks : ℕ → Option (List α)
  bound : ℕ
  /-- Blocks from `bound` on have not been allocated. -/
  fresh : ∀ b, bound ≤ b → blocks b = none

namespace Arena

variable {α : Type*}

def empty : Arena α := ⟨fun _ => none, 0, fun _ _ => rfl⟩

def load (a : Arena α) (c : Cell) : Option α :=
  (a.blocks c.block).bind fun xs => xs[c.index]?

def store (a : Arena α) (c : Cell) (v : α) : Arena α where
  blocks := fun b =>
    if b = c.block then (a.blocks b).map fun xs => xs.set c.index v else a.blocks b
  bound := a.bound
  fresh := by
    intro b hb
    simp [a.fresh b hb]

def alloc (a : Arena α) (xs : List α) : Arena α × ℕ :=
  ({ blocks := fun b => if b = a.bound then some xs else a.blocks b
     bound := a.bound + 1
     fresh := by
       intro b hb
       rw [if_neg (by omega)]
       exact a.fresh b (by omega) }, a.bound)

def free (a : Arena α) (b : ℕ) : Arena α where
  blocks := fun b' => if b' = b then none else a.blocks b'
  bound := a.bound
  fresh := by
    intro b' hb
    simp [a.fresh b' hb]

def fill (a : Arena α) (cs : List Cell) (v : α) : Arena α :=
  cs.foldl (fun a c => a.store c v) a

@[ext] theorem ext {a a' : Arena α} (hblocks : ∀ b, a.blocks b = a'.blocks b)
    (hbound : a.bound = a'.bound) : a = a' := by
  obtain ⟨blocks, bound, _⟩ := a
  obtain ⟨blocks', bound', _⟩ := a'
  obtain rfl : blocks = blocks' := funext hblocks
  obtain rfl : bound = bound' := hbound
  rfl

theorem load_store (a : Arena α) (c c' : Cell) (v : α) :
    (a.store c v).load c' =
      if c' = c then (a.load c).map fun _ => v else a.load c' := by
  obtain ⟨b, i⟩ := c
  obtain ⟨b', i'⟩ := c'
  by_cases hb : b' = b
  · subst hb
    cases hblock : a.blocks b' with
    | none => simp [load, store, hblock]
    | some xs =>
      by_cases hi : i' = i
      · subst hi
        by_cases hlt : i' < xs.length
        · simp [load, store, hblock, hlt]
        · have hle : xs.length ≤ i' := Nat.le_of_not_lt hlt
          simp [load, store, hblock, hle]
      · have hi' : i ≠ i' := fun h => hi h.symm
        simp [load, store, hblock, hi, hi']
  · simp [load, store, hb]

theorem load_store_self (a : Arena α) {c : Cell} {v : α} (w : α)
    (h : a.load c = some v) : (a.store c w).load c = some w := by
  simp [load_store, h]

theorem load_store_of_ne (a : Arena α) {c c' : Cell} (v : α) (h : c' ≠ c) :
    (a.store c v).load c' = a.load c' := by
  simp [load_store, h]

theorem store_store (a : Arena α) (c : Cell) (v w : α) :
    (a.store c v).store c w = a.store c w := by
  refine Arena.ext (fun b => ?_) rfl
  by_cases hb : b = c.block
  · simp [store, hb, Function.comp_def]
  · simp [store, hb]

theorem store_of_load (a : Arena α) {c : Cell} {v : α} (h : a.load c = some v) :
    a.store c v = a := by
  refine ext (fun b => ?_) rfl
  by_cases hb : b = c.block
  · subst hb
    cases hblock : a.blocks c.block with
    | none => simp [store, hblock]
    | some xs =>
      have hget : xs[c.index]? = some v := by simpa [load, hblock] using h
      obtain ⟨hlt, rfl⟩ := List.getElem?_eq_some_iff.1 hget
      simp [store, hblock]
  · simp [store, hb]

theorem block_lt_of_load (a : Arena α) {c : Cell} {v : α} (h : a.load c = some v) :
    c.block < a.bound := by
  by_contra hle
  simp [load, a.fresh c.block (not_lt.1 hle)] at h

@[simp] theorem alloc_snd (a : Arena α) (xs : List α) : (a.alloc xs).2 = a.bound := rfl

@[simp] theorem alloc_bound (a : Arena α) (xs : List α) :
    (a.alloc xs).1.bound = a.bound + 1 := rfl

@[simp] theorem store_bound (a : Arena α) (c : Cell) (v : α) :
    (a.store c v).bound = a.bound := rfl

theorem load_alloc (a : Arena α) (xs : List α) (c : Cell) :
    (a.alloc xs).1.load c =
      if c.block = a.bound then xs[c.index]? else a.load c := by
  by_cases h : c.block = a.bound
  · simp [load, alloc, h]
  · simp [load, alloc, h]

theorem load_alloc_of_lt (a : Arena α) (xs : List α) {c : Cell}
    (h : c.block < a.bound) : (a.alloc xs).1.load c = a.load c := by
  rw [load_alloc, if_neg (Nat.ne_of_lt h)]

theorem load_free (a : Arena α) (b : ℕ) (c : Cell) :
    (a.free b).load c = if c.block = b then none else a.load c := by
  by_cases h : c.block = b
  · simp [load, free, h]
  · simp [load, free, h]

theorem load_fill (a : Arena α) (cs : List Cell) (v : α) (c : Cell) :
    (a.fill cs v).load c =
      if c ∈ cs then (a.load c).map fun _ => v else a.load c := by
  induction cs generalizing a with
  | nil => simp [fill]
  | cons d cs ih =>
    have hstep : a.fill (d :: cs) v = (a.store d v).fill cs v := rfl
    rw [hstep, ih, load_store]
    by_cases hd : c = d
    · subst hd
      cases a.load c with
      | none => simp
      | some x => simp
    · simp [hd]

end Arena

/-!
## Maps whose values live in an arena

A map from keys to cells, read together with the arena the cells are in, is a
map from keys to contents. That reading is sound when every cell of the map is
live and two entries never share a block; `Owned` says so. The rules below say
how the contents change when one entry is given another cell, when an entry is
dropped, and when every cell is overwritten.
-/

namespace HashedMap

variable {κ α : Type*} {hash : κ → ℕ}

def valueAt (m : HashedMap hash Cell) (a : Arena α) (k : κ) : Option α :=
  (m.get k).bind a.load

structure Owned (m : HashedMap hash Cell) (a : Arena α) : Prop where
  live : ∀ k c, m.get k = some c → ∃ v, a.load c = some v
  apart : ∀ k k' c c', m.get k = some c → m.get k' = some c' → c.block = c'.block →
    hash k = hash k'

theorem owned_empty (a : Arena α) : Owned (empty : HashedMap hash Cell) a :=
  ⟨fun k c h => by simp at h, fun k k' c c' h => by simp at h⟩

namespace Owned

variable {m : HashedMap hash Cell} {a a' : Arena α}

def Keeps (m : HashedMap hash Cell) (a a' : Arena α) (k : κ) : Prop :=
  ∀ k' c, m.get k' = some c → hash k' ≠ hash k → a'.load c = a.load c

theorem set (h : m.Owned a) {k : κ} {c : Cell} {v : α} (hc : a'.load c = some v)
    (hapart : ∀ k' c', m.get k' = some c' → hash k' ≠ hash k → c'.block ≠ c.block)
    (hkeep : Keeps m a a' k) : (m.set k c).Owned a' := by
  refine ⟨fun k₁ c₁ h₁ => ?_, fun k₁ k₂ c₁ c₂ h₁ h₂ hblock => ?_⟩
  · rw [get_set] at h₁
    split_ifs at h₁ with hk
    · obtain rfl := Option.some.inj h₁
      exact ⟨v, hc⟩
    · obtain ⟨w, hw⟩ := h.live k₁ c₁ h₁
      exact ⟨w, (hkeep k₁ c₁ h₁ fun heq => hk heq.symm).trans hw⟩
  · rw [get_set] at h₁ h₂
    split_ifs at h₁ h₂ with hk₁ hk₂ hk₂
    · exact hk₁.symm.trans hk₂
    · obtain rfl := Option.some.inj h₁
      exact absurd hblock.symm (hapart k₂ c₂ h₂ fun heq => hk₂ heq.symm)
    · obtain rfl := Option.some.inj h₂
      exact absurd hblock (hapart k₁ c₁ h₁ fun heq => hk₁ heq.symm)
    · exact h.apart k₁ k₂ c₁ c₂ h₁ h₂ hblock

theorem valueAt_set {k : κ} {c : Cell} {v : α} (hc : a'.load c = some v)
    (hkeep : Keeps m a a' k) (k' : κ) :
    (m.set k c).valueAt a' k' = if hash k = hash k' then some v else m.valueAt a k' := by
  by_cases hk : hash k = hash k'
  · simp [valueAt, get_set, hk, hc]
  · rw [valueAt, get_set, if_neg hk, if_neg hk]
    cases hget : m.get k' with
    | none => simp [valueAt, hget]
    | some c' =>
      simpa [valueAt, hget] using hkeep k' c' hget fun heq => hk heq.symm

theorem store (h : m.Owned a) (c : Cell) (v : α) : m.Owned (a.store c v) := by
  refine ⟨fun k₁ c₁ h₁ => ?_, h.apart⟩
  obtain ⟨w, hw⟩ := h.live k₁ c₁ h₁
  rw [Arena.load_store]
  split_ifs with hc
  · subst hc
    exact ⟨v, by simp [hw]⟩
  · exact ⟨w, hw⟩

theorem cell_ne (h : m.Owned a) {k k' : κ} {c c' : Cell} (hk : m.get k = some c)
    (hk' : m.get k' = some c') (hne : hash k ≠ hash k') : c ≠ c' := by
  intro heq
  exact hne (h.apart k k' c c' hk hk' (congrArg Cell.block heq))

theorem valueAt_store (h : m.Owned a) {k : κ} {c : Cell} (hk : m.get k = some c) (v : α)
    (k' : κ) :
    m.valueAt (a.store c v) k' = if hash k = hash k' then some v else m.valueAt a k' := by
  by_cases hhash : hash k = hash k'
  · obtain ⟨w, hw⟩ := h.live k c hk
    rw [if_pos hhash, valueAt, ← m.get_congr hhash, hk]
    exact a.load_store_self v hw
  · rw [if_neg hhash]
    cases hget : m.get k' with
    | none => simp [valueAt, hget]
    | some c' =>
      have hne : c' ≠ c := h.cell_ne hget hk fun heq => hhash heq.symm
      simp [valueAt, hget, Arena.load_store_of_ne a v hne]

theorem fill (h : m.Owned a) (cs : List Cell) (v : α) : m.Owned (a.fill cs v) := by
  refine ⟨fun k₁ c₁ h₁ => ?_, h.apart⟩
  obtain ⟨w, hw⟩ := h.live k₁ c₁ h₁
  rw [Arena.load_fill]
  split_ifs
  · exact ⟨v, by simp [hw]⟩
  · exact ⟨w, hw⟩

theorem valueAt_fill (h : m.Owned a) (v : α) (k : κ) :
    m.valueAt (a.fill (m.entries.map Prod.snd) v) k = (m.valueAt a k).map fun _ => v := by
  cases hget : m.get k with
  | none => simp [valueAt, hget]
  | some c =>
    obtain ⟨w, hw⟩ := h.live k c hget
    have hmem : c ∈ m.entries.map Prod.snd := by
      obtain ⟨k', -, hmem⟩ := m.exists_mem_of_get hget
      exact List.mem_map.2 ⟨(k', c), hmem, rfl⟩
    simp [valueAt, hget, Arena.load_fill, hmem, hw]

end Owned

end HashedMap
