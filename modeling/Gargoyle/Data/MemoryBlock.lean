import Mathlib.Data.UInt

/-!
# Blocks of memory

A block is what `malloc` returns: so many bytes or slots, none of which has been set. `read` and
`write` return `none` outside of the block, and so does `read` where nothing has been written, so that
a result of a function that works on blocks says that all its accesses were right. A block that is
filled from its start on is given by what is in it.
-/

/-- What is in a block, with `none` where nothing has been set. -/
abbrev MemoryBlock (α : Type*) := List (Option α)

namespace MemoryBlock

open List

section Blocks

variable {α : Type*}

/-- `malloc`. -/
def alloc (size : ℕ) : MemoryBlock α := List.replicate size none

/-- `block[i]`. -/
def read (block : MemoryBlock α) (i : ℕ) : Option α := block[i]?.join

/-- `block[i] = x`. -/
def write (block : MemoryBlock α) (i : ℕ) (x : α) : Option (MemoryBlock α) :=
  if i < block.length then some (block.set i (some x)) else none

theorem read_of_write {block block' : MemoryBlock α} {i j : ℕ} {x : α}
    (h : block.write i x = some block') (hne : j ≠ i) : block'.read j = block.read j := by
  rw [write] at h
  split_ifs at h with hi
  rw [← Option.some.inj h, read, read, getElem?_set_ne hne.symm]

theorem length_of_write {block block' : MemoryBlock α} {i : ℕ} {x : α}
    (h : block.write i x = some block') : block'.length = block.length := by
  rw [write] at h
  split_ifs at h with hi
  rw [← Option.some.inj h, length_set]

def writeAll (block : MemoryBlock α) : ℕ → List α → Option (MemoryBlock α)
  | _, [] => some block
  | i, x :: xs => (block.write i x).bind fun block => writeAll block (i + 1) xs

theorem length_of_writeAll {block block' : MemoryBlock α} {i : ℕ} {xs : List α}
    (h : block.writeAll i xs = some block') : block'.length = block.length := by
  induction xs generalizing block i with
  | nil => rw [Option.some.inj h]
  | cons x xs ih =>
    obtain ⟨block₁, hwrite, hrest⟩ := Option.bind_eq_some_iff.1 h
    rw [ih hrest, length_of_write hwrite]

def filled (size : ℕ) (s : List α) : MemoryBlock α :=
  s.map some ++ List.replicate (size - s.length) none

end Blocks

/-- `strcpy`, which writes the zero behind the text. -/
def strcpy (block : MemoryBlock UInt8) (i : ℕ) (s : List UInt8) : Option (MemoryBlock UInt8) :=
  block.writeAll i (s ++ [0])

def text : MemoryBlock UInt8 → Option (List UInt8)
  | some x :: block => if x = 0 then some [] else (text block).map (x :: ·)
  | _ => none

section Filled

variable {α : Type*} {size : ℕ} {s t : List α}

theorem filled_nil (size : ℕ) : filled size ([] : List α) = alloc size := rfl

theorem length_filled (h : s.length ≤ size) : (filled size s).length = size := by
  rw [filled, length_append, length_map, length_replicate]
  omega

theorem write_filled (h : s.length < size) (x : α) :
    (filled size s).write s.length x = some (filled size (s ++ [x])) := by
  have hrest : size - s.length = size - (s ++ [x]).length + 1 := by
    rw [length_append, length_singleton]
    omega
  rw [write, if_pos (by rwa [length_filled h.le]), filled, hrest, replicate_succ,
    set_append_right _ _ (by rw [length_map]), length_map, Nat.sub_self,
    set_cons_zero, filled, map_append, append_assoc]
  rfl

theorem writeAll_filled (h : s.length + t.length ≤ size) :
    (filled size s).writeAll s.length t = some (filled size (s ++ t)) := by
  induction t generalizing s with
  | nil =>
    rw [List.append_nil]
    rfl
  | cons x t ih =>
    rw [length_cons] at h
    have hrest := @ih (s ++ [x]) (by rw [length_append, length_singleton]; omega)
    rw [length_append, length_singleton, append_assoc] at hrest
    rw [writeAll, write_filled (by omega), Option.bind_some, hrest]
    rfl

theorem read_filled {i : ℕ} (h : i < s.length) : (filled size s).read i = some s[i] := by
  rw [read, filled, getElem?_append_left (by rwa [length_map]), getElem?_map,
    getElem?_eq_getElem h]
  rfl

theorem read_filled_append {x : α} (size : ℕ) (s t : List α) :
    (filled size (s ++ x :: t)).read s.length = some x := by
  rw [read_filled (by rw [length_append, length_cons]; omega),
    getElem_append_right (Nat.le_refl _)]
  simp

theorem write_filled_last {x : α} (h : s.length < size) (y : α) :
    (filled size (s ++ [x])).write s.length y = some (filled size (s ++ [y])) := by
  have hlength : (s ++ [x]).length = (s ++ [y]).length := by simp
  have hle : (s ++ [x]).length ≤ size := by
    rw [length_append, length_singleton]
    omega
  rw [write, if_pos (by rwa [length_filled hle]), filled, map_append, append_assoc,
    set_append_right _ _ (by rw [length_map]), length_map, Nat.sub_self, filled,
    ← hlength, map_append, append_assoc]
  rfl

theorem text_filled {s t : List UInt8} (h : 0 ∉ s) : text (filled size (s ++ 0 :: t)) = some s := by
  have hchars : ∀ {s : List UInt8}, 0 ∉ s → ∀ block : MemoryBlock UInt8,
      text (s.map some ++ some 0 :: block) = some s := by
    intro s hs block
    induction s with
    | nil => rfl
    | cons x s ih =>
      rw [mem_cons, not_or] at hs
      rw [map_cons, cons_append, text, if_neg (Ne.symm hs.1), ih hs.2]
      rfl
  rw [filled, map_append, map_cons, append_assoc, cons_append]
  exact hchars h _

end Filled

/-! ## What is at the start of a block -/

structure Holds {α : Type*} (block : MemoryBlock α) (size : ℕ) (s : List α) : Prop where
  length_eq : block.length = size
  bytes : s.map some <+: block

section Holds

variable {α : Type*} {block : MemoryBlock α} {size : ℕ} {s t : List α}

theorem holds_alloc (size : ℕ) : Holds (alloc size) size ([] : List α) :=
  ⟨length_replicate, nil_prefix⟩

theorem Holds.length_le (h : block.Holds size s) : s.length ≤ size := by
  have hle := h.bytes.length_le
  rwa [length_map, h.length_eq] at hle

theorem Holds.of_prefix (h : block.Holds size t) (hs : s <+: t) : block.Holds size s :=
  ⟨h.length_eq, (hs.map some).trans h.bytes⟩

theorem Holds.read_append_cons {x : α} (h : block.Holds size (s ++ x :: t)) :
    block.read s.length = some x := by
  obtain ⟨rest, hrest⟩ := h.bytes
  rw [MemoryBlock.read, ← hrest, map_append, append_assoc,
    getElem?_append_right (by rw [length_map]), length_map, Nat.sub_self]
  rfl

theorem Holds.eq (h : block.Holds size s) (hsize : s.length = size) : block = s.map some := by
  refine (h.bytes.eq_of_length ?_).symm
  rw [length_map, h.length_eq, hsize]

theorem Holds.write (h : block.Holds size s) (hs : s.length < size) (x : α) :
    ∃ block' : MemoryBlock α, block.write s.length x = some block' ∧
      block'.Holds size (s ++ [x]) := by
  refine ⟨block.set s.length (some x), ?_, ?_, ?_⟩
  · rw [MemoryBlock.write, if_pos (by rwa [h.length_eq])]
  · rw [length_set, h.length_eq]
  · obtain ⟨rest, hrest⟩ := h.bytes
    have hne : rest ≠ [] := by
      rintro rfl
      have hlength := congrArg List.length hrest
      rw [List.append_nil, length_map, h.length_eq] at hlength
      omega
    obtain ⟨y, rest, rfl⟩ := exists_cons_of_ne_nil hne
    rw [← hrest, set_append_right _ _ (by rw [length_map]), length_map, Nat.sub_self,
      set_cons_zero, map_append]
    exact ⟨rest, by rw [append_assoc]; rfl⟩

theorem Holds.writeAll (h : block.Holds size s) (hs : s.length + t.length ≤ size) :
    ∃ block' : MemoryBlock α, block.writeAll s.length t = some block' ∧
      block'.Holds size (s ++ t) := by
  induction t generalizing block s with
  | nil =>
    rw [List.append_nil]
    exact ⟨block, rfl, h⟩
  | cons x t ih =>
    rw [length_cons] at hs
    obtain ⟨block₁, hwrite, hblock₁⟩ := h.write (by omega) x
    obtain ⟨block₂, hrest, hblock₂⟩ :=
      ih hblock₁ (by rw [length_append, length_singleton]; omega)
    rw [length_append, length_singleton] at hrest
    rw [append_assoc] at hblock₂
    refine ⟨block₂, ?_, hblock₂⟩
    rw [MemoryBlock.writeAll, hwrite, Option.bind_some, hrest]

end Holds

end MemoryBlock
