import Mathlib.Algebra.Order.Ring.Int
import Mathlib.Data.List.Pairwise

/-!
# Binary search trees with a balance in every node

A node stores a key, a value and its balance, which is meant to be the height of
its right subtree less the height of its left one. `Balanced` says that it is,
and that it is one of -1, 0 and 1.

A place in a tree is a subtree with the list of the frames above it, the nearest
one first. `plug` puts the tree together again; `before` and `after` are the
entries on the two sides of the place, and `Fits fs h` says that the tree is
balanced around a subtree of height `h` that is put there.
-/

inductive AvlTree (K V : Type*)
  | nil
  | node (key : K) (value : V) (balance : ℤ) (left right : AvlTree K V)

namespace AvlTree

open List

variable {K V : Type*}

/-! ## Fields -/

def balance : AvlTree K V → ℤ
  | nil => 0
  | node _ _ b _ _ => b

def left : AvlTree K V → AvlTree K V
  | nil => nil
  | node _ _ _ l _ => l

def right : AvlTree K V → AvlTree K V
  | nil => nil
  | node _ _ _ _ r => r

def setBalance (b : ℤ) : AvlTree K V → AvlTree K V
  | nil => nil
  | node k v _ l r => node k v b l r

def mapLeft (f : AvlTree K V → AvlTree K V) : AvlTree K V → AvlTree K V
  | nil => nil
  | node k v b l r => node k v b (f l) r

def mapRight (f : AvlTree K V → AvlTree K V) : AvlTree K V → AvlTree K V
  | nil => nil
  | node k v b l r => node k v b l (f r)

@[simp] theorem balance_node (k : K) (v : V) (b : ℤ) (l r : AvlTree K V) :
    (node k v b l r).balance = b := rfl

@[simp] theorem left_node (k : K) (v : V) (b : ℤ) (l r : AvlTree K V) :
    (node k v b l r).left = l := rfl

@[simp] theorem right_node (k : K) (v : V) (b : ℤ) (l r : AvlTree K V) :
    (node k v b l r).right = r := rfl

@[simp] theorem setBalance_node (b' : ℤ) (k : K) (v : V) (b : ℤ) (l r : AvlTree K V) :
    (node k v b l r).setBalance b' = node k v b' l r := rfl

@[simp] theorem mapLeft_node (f : AvlTree K V → AvlTree K V) (k : K) (v : V) (b : ℤ)
    (l r : AvlTree K V) : (node k v b l r).mapLeft f = node k v b (f l) r := rfl

@[simp] theorem mapRight_node (f : AvlTree K V → AvlTree K V) (k : K) (v : V) (b : ℤ)
    (l r : AvlTree K V) : (node k v b l r).mapRight f = node k v b l (f r) := rfl

/-! ## Height and entries -/

def height : AvlTree K V → ℕ
  | nil => 0
  | node _ _ _ l r => 1 + max l.height r.height

def toList : AvlTree K V → List (K × V)
  | nil => []
  | node k v _ l r => l.toList ++ (k, v) :: r.toList

def size : AvlTree K V → ℕ
  | nil => 0
  | node _ _ _ l r => l.size + 1 + r.size

def Balanced : AvlTree K V → Prop
  | nil => True
  | node _ _ b l r =>
    l.Balanced ∧ r.Balanced ∧ b = (r.height : ℤ) - l.height ∧ -1 ≤ b ∧ b ≤ 1

@[simp] theorem height_nil : (nil : AvlTree K V).height = 0 := rfl

@[simp] theorem height_node (k : K) (v : V) (b : ℤ) (l r : AvlTree K V) :
    (node k v b l r).height = 1 + max l.height r.height := rfl

@[simp] theorem toList_nil : (nil : AvlTree K V).toList = [] := rfl

@[simp] theorem toList_node (k : K) (v : V) (b : ℤ) (l r : AvlTree K V) :
    (node k v b l r).toList = l.toList ++ (k, v) :: r.toList := rfl

@[simp] theorem balanced_nil : (nil : AvlTree K V).Balanced := trivial

@[simp] theorem balanced_node {k : K} {v : V} {b : ℤ} {l r : AvlTree K V} :
    (node k v b l r).Balanced ↔
      l.Balanced ∧ r.Balanced ∧ b = (r.height : ℤ) - l.height ∧ -1 ≤ b ∧ b ≤ 1 := Iff.rfl

theorem size_eq_length (t : AvlTree K V) : t.size = t.toList.length := by
  induction t with
  | nil => rfl
  | node k v b l r ihl ihr =>
    rw [size, ihl, ihr, toList_node, length_append, length_cons]
    omega

theorem exists_node_of_height {t : AvlTree K V} (h : 0 < t.height) :
    ∃ k v b l r, t = node k v b l r := by
  cases t with
  | nil => exact absurd h (lt_irrefl 0)
  | node k v b l r => exact ⟨k, v, b, l, r, rfl⟩

/-! ## Rotations -/

def rotateRight : AvlTree K V → AvlTree K V
  | node k v b (node k' v' b' l' r') r => node k' v' b' l' (node k v b r' r)
  | t => t

def rotateLeft : AvlTree K V → AvlTree K V
  | node k v b l (node k' v' b' l' r') => node k' v' b' (node k v b l l') r'
  | t => t

@[simp] theorem rotateRight_node (k : K) (v : V) (b : ℤ) (k' : K) (v' : V) (b' : ℤ)
    (l' r' r : AvlTree K V) :
    (node k v b (node k' v' b' l' r') r).rotateRight = node k' v' b' l' (node k v b r' r) := rfl

@[simp] theorem rotateLeft_node (k : K) (v : V) (b : ℤ) (k' : K) (v' : V) (b' : ℤ)
    (l l' r' : AvlTree K V) :
    (node k v b l (node k' v' b' l' r')).rotateLeft = node k' v' b' (node k v b l l') r' := rfl

@[simp] theorem toList_setBalance (b : ℤ) (t : AvlTree K V) :
    (t.setBalance b).toList = t.toList := by
  cases t <;> rfl

@[simp] theorem toList_rotateRight (t : AvlTree K V) : t.rotateRight.toList = t.toList := by
  cases t with
  | nil => rfl
  | node k v b l r => cases l <;> simp [rotateRight]

@[simp] theorem toList_rotateLeft (t : AvlTree K V) : t.rotateLeft.toList = t.toList := by
  cases t with
  | nil => rfl
  | node k v b l r => cases r <;> simp [rotateLeft]

theorem toList_mapLeft {f : AvlTree K V → AvlTree K V} (hf : ∀ t, (f t).toList = t.toList)
    (t : AvlTree K V) : (t.mapLeft f).toList = t.toList := by
  cases t with
  | nil => rfl
  | node k v b l r => simp [mapLeft, hf]

theorem toList_mapRight {f : AvlTree K V → AvlTree K V} (hf : ∀ t, (f t).toList = t.toList)
    (t : AvlTree K V) : (t.mapRight f).toList = t.toList := by
  cases t with
  | nil => rfl
  | node k v b l r => simp [mapRight, hf]

/-! ## Places in a tree -/

inductive Side
  | left
  | right
deriving DecidableEq

structure Frame (K V : Type*) where
  side : Side
  key : K
  value : V
  balance : ℤ
  sibling : AvlTree K V

def Frame.attach (f : Frame K V) (t : AvlTree K V) : AvlTree K V :=
  match f.side with
  | .left => node f.key f.value f.balance t f.sibling
  | .right => node f.key f.value f.balance f.sibling t

/-- The tree with the subtree `t` at the place below the frames. -/
def plug : AvlTree K V → List (Frame K V) → AvlTree K V
  | t, [] => t
  | t, f :: fs => plug (f.attach t) fs

def before : List (Frame K V) → List (K × V)
  | [] => []
  | f :: fs =>
    match f.side with
    | .left => before fs
    | .right => before fs ++ (f.sibling.toList ++ [(f.key, f.value)])

def after : List (Frame K V) → List (K × V)
  | [] => []
  | f :: fs =>
    match f.side with
    | .left => (f.key, f.value) :: f.sibling.toList ++ after fs
    | .right => after fs

/-- The frames are balanced around a subtree of height `h`. -/
def Fits : List (Frame K V) → ℕ → Prop
  | [], _ => True
  | f :: fs, h =>
    f.sibling.Balanced ∧
      f.balance = (match f.side with
        | .left => (f.sibling.height : ℤ) - h
        | .right => (h : ℤ) - f.sibling.height) ∧
      -1 ≤ f.balance ∧ f.balance ≤ 1 ∧ Fits fs (1 + max h f.sibling.height)

theorem toList_plug (t : AvlTree K V) (fs : List (Frame K V)) :
    (plug t fs).toList = before fs ++ (t.toList ++ after fs) := by
  induction fs generalizing t with
  | nil => simp [plug, before, after]
  | cons f fs ih =>
    rw [plug, ih]
    simp only [before, after, Frame.attach]
    cases f.side <;> simp

theorem Frame.height_attach (f : Frame K V) (t : AvlTree K V) :
    (f.attach t).height = 1 + max t.height f.sibling.height := by
  unfold attach
  cases f.side with
  | left => rfl
  | right => rw [height_node, Nat.max_comm]

theorem Fits.near {f : Frame K V} {fs : List (Frame K V)} {h : ℕ} (hfits : Fits (f :: fs) h) :
    f.sibling.height ≤ h + 1 ∧ h ≤ f.sibling.height + 1 := by
  obtain ⟨-, hbalance, hlow, hhigh, -⟩ := hfits
  cases hside : f.side with
  | left =>
    simp only [hside] at hbalance
    omega
  | right =>
    simp only [hside] at hbalance
    omega

/-- The height of the tree with a subtree of height `h` below the frames. -/
def heightAbove : List (Frame K V) → ℕ → ℕ
  | [], h => h
  | f :: fs, h => heightAbove fs (1 + max h f.sibling.height)

theorem height_plug (t : AvlTree K V) (fs : List (Frame K V)) :
    (plug t fs).height = heightAbove fs t.height := by
  induction fs generalizing t with
  | nil => rfl
  | cons f fs ih => rw [plug, ih, Frame.height_attach, heightAbove]

theorem plug_append (t : AvlTree K V) (fs gs : List (Frame K V)) :
    plug t (fs ++ gs) = plug (plug t fs) gs := by
  induction fs generalizing t with
  | nil => rfl
  | cons f fs ih => exact ih (f.attach t)

theorem fits_append (fs gs : List (Frame K V)) (h : ℕ) :
    Fits (fs ++ gs) h ↔ Fits fs h ∧ Fits gs (heightAbove fs h) := by
  induction fs generalizing h with
  | nil => simp [Fits, heightAbove]
  | cons f fs ih => simp only [cons_append, Fits, heightAbove, ih, and_assoc]

theorem balanced_plug (t : AvlTree K V) (fs : List (Frame K V)) :
    (plug t fs).Balanced ↔ t.Balanced ∧ Fits fs t.height := by
  induction fs generalizing t with
  | nil => simp [plug, Fits]
  | cons f fs ih =>
    rw [plug, ih, Frame.height_attach]
    simp only [Fits, Frame.attach]
    cases f.side <;> simp only [balanced_node] <;> tauto

/-! ## Entries in the order of their keys -/

section Entries

variable [LinearOrder K]

def Ascending (es : List (K × V)) : Prop := es.Pairwise fun a b => a.1 < b.1

/-- The entries on the two sides of the key `k`, and the value of `k` itself. -/
structure SplitAt (k : K) (es pre : List (K × V)) (mid : Option V) (post : List (K × V)) :
    Prop where
  eq : es = pre ++ ((mid.map fun v => (k, v)).toList ++ post)
  pre_lt : ∀ e ∈ pre, e.1 < k
  lt_post : ∀ e ∈ post, k < e.1

variable {k k' : K} {es pre post : List (K × V)} {mid mid' : Option V}

theorem lookup_eq_none_of_ne (h : ∀ e ∈ es, e.1 ≠ k) : es.lookup k = none := by
  refine List.lookup_eq_none_iff.2 fun e he => ?_
  exact bne_iff_ne.2 (h e he).symm

namespace SplitAt

theorem lookup (h : SplitAt k es pre mid post) : es.lookup k = mid := by
  have hpre : pre.lookup k = none := lookup_eq_none_of_ne fun e he => (h.pre_lt e he).ne
  have hpost : post.lookup k = none := lookup_eq_none_of_ne fun e he => (h.lt_post e he).ne'
  rw [h.eq, List.lookup_append, hpre, List.lookup_append, hpost]
  cases mid <;> simp

theorem lookup_of_ne (h : SplitAt k es pre mid post) (hne : k' ≠ k) :
    (pre ++ ((mid'.map fun v => (k, v)).toList ++ post)).lookup k' = es.lookup k' := by
  have hmid : ∀ mid : Option V, ((mid.map fun v => (k, v)).toList).lookup k' = none := by
    intro mid
    cases mid with
    | none => rfl
    | some v => exact lookup_eq_none_of_ne (by simpa using hne.symm)
  rw [h.eq, List.lookup_append, List.lookup_append, List.lookup_append, List.lookup_append,
    hmid, hmid]

theorem ascending (h : SplitAt k es pre mid post) (hes : Ascending es) (mid' : Option V) :
    Ascending (pre ++ ((mid'.map fun v => (k, v)).toList ++ post)) := by
  unfold Ascending at *
  rw [h.eq, pairwise_append, pairwise_append] at hes
  obtain ⟨hpre, ⟨-, hpost, -⟩, hcross⟩ := hes
  have hkey : ∀ e ∈ (mid'.map fun v => (k, v)).toList, e.1 = k := by
    intro e he
    cases mid' with
    | none => cases he
    | some v =>
      obtain rfl : e = (k, v) := by simpa using he
      rfl
  refine List.pairwise_append.2 ⟨hpre, List.pairwise_append.2 ⟨?_, hpost, ?_⟩, ?_⟩
  · cases mid' <;> simp
  · intro a ha b hb
    rw [hkey a ha]
    exact h.lt_post b hb
  · intro a ha b hb
    rcases List.mem_append.1 hb with hb | hb
    · rw [hkey b hb]
      exact h.pre_lt a ha
    · exact hcross a ha b (mem_append_right _ hb)

theorem length (h : SplitAt k es pre mid post) :
    es.length = pre.length + mid.toList.length + post.length := by
  rw [h.eq]
  cases mid with
  | none => simp
  | some v =>
    simp only [Option.map_some, Option.toList_some, length_append, length_cons,
      length_nil]
    omega

end SplitAt

theorem Ascending.lookup_eq_some (h : Ascending es) {v : V} :
    es.lookup k = some v ↔ (k, v) ∈ es := by
  induction es with
  | nil => simp
  | cons e es ih =>
    obtain ⟨hhead, htail⟩ := List.pairwise_cons.1 h
    rw [List.lookup_cons]
    by_cases hk : k = e.1
    · subst hk
      simp only [beq_self_eq_true, Option.some.injEq, mem_cons]
      constructor
      · rintro rfl
        exact .inl rfl
      · rintro (he | hmem)
        · exact congrArg Prod.snd he.symm
        · exact absurd rfl (hhead _ hmem).ne
    · have hne : (k == e.1) = false := beq_false_of_ne hk
      rw [hne, ih htail, mem_cons]
      refine ⟨Or.inr, fun hmem => hmem.resolve_left fun he => hk (congrArg Prod.fst he)⟩

end Entries

end AvlTree
