import Gargoyle.Data.AvlTree

/-!
# The map of `tree_map.h`

`long_map` is a balanced tree that is kept by loops: a search goes down from the
root and remembers the nodes it has passed on a stack, the tree is changed at its
end, and a second loop goes up the stack and balances one node after the other.
Insertion stops when a node has come to the balance 0 and removal when one has
come to another balance.

The stack holds the addresses of the pointers to the nodes and the side on which
the search has gone on. Here it is the list of the nodes themselves without the
subtree on that side. Allocations are taken to succeed.
-/

namespace Gargoyle

namespace TreeMap

open AvlTree

structure LongMap (K V : Type*) where
  root : AvlTree K V
  numElements : ℕ

/-- The `direction` of a stack node. -/
def direction : Side → ℤ
  | .left => -1
  | .right => 1

section

variable {K V : Type*}

/-! ## Balancing -/

def settle (n : AvlTree K V) : AvlTree K V :=
  let n := n.mapLeft (setBalance (if n.balance > 0 then -1 else 0))
  let n := n.mapRight (setBalance (if n.balance < 0 then 1 else 0))
  n.setBalance 0

/-- What `rebalance` does to a node that is too high on the left. -/
def raiseLeft (n : AvlTree K V) : AvlTree K V :=
  if n.left.balance < 0 then (n.rotateRight.mapRight (setBalance 0)).setBalance 0
  else if n.left.balance = 0 then (n.rotateRight.mapRight (setBalance (-1))).setBalance 1
  else settle (n.mapLeft rotateLeft).rotateRight

/-- What `rebalance` does to a node that is too high on the right. -/
def raiseRight (n : AvlTree K V) : AvlTree K V :=
  if n.right.balance > 0 then (n.rotateLeft.mapLeft (setBalance 0)).setBalance 0
  else if n.right.balance = 0 then (n.rotateLeft.mapLeft (setBalance 1)).setBalance (-1)
  else settle (n.mapRight rotateRight).rotateLeft

/-- `rebalance`. The new balance is the one of the root of the result. -/
def rebalance (n : AvlTree K V) (direction updateOp : ℤ) : AvlTree K V :=
  let n := n.setBalance (n.balance + updateOp * direction)
  let n := if n.balance < -1 then raiseLeft n else n
  if n.balance > 1 then raiseRight n else n

/-- The loop that goes up the stack, as long as `goOn` holds of the balance that
a node has come to. -/
def rebalanceWhile (updateOp : ℤ) (goOn : ℤ → Bool) :
    AvlTree K V → List (Frame K V) → AvlTree K V
  | t, [] => t
  | t, f :: fs =>
    let t' := rebalance (f.attach t) (direction f.side) updateOp
    if goOn t'.balance then rebalanceWhile updateOp goOn t' fs else plug t' fs

/-! ## Searching -/

section Search

variable [LinearOrder K]

/-- The loop that searches a key: the node at which it stops, and the nodes above
it. It stops at the key, and at a node that has no child on the side of the
key. -/
def descend (key : K) : AvlTree K V → List (Frame K V) → AvlTree K V × List (Frame K V)
  | .nil, fs => (.nil, fs)
  | .node k v b l r, fs =>
    if key = k then (.node k v b l r, fs)
    else if key < k then
      match l with
      | .nil => (.node k v b .nil r, fs)
      | .node _ _ _ _ _ => descend key l (⟨.left, k, v, b, r⟩ :: fs)
    else
      match r with
      | .nil => (.node k v b l .nil, fs)
      | .node _ _ _ _ _ => descend key r (⟨.right, k, v, b, l⟩ :: fs)

namespace LongMap

/-- `initialize_long_map`. -/
def empty : LongMap K V := ⟨.nil, 0⟩

def getLongMapElement (m : LongMap K V) (key : K) : Option V :=
  match (descend key m.root []).1 with
  | .nil => none
  | .node k v _ _ _ => if k = key then some v else none

/-- `set_long_map_element`, with the value that was replaced. -/
def setLongMapElement (m : LongMap K V) (key : K) (value : V) : LongMap K V × Option V :=
  match descend key m.root [] with
  | (.nil, _) => (⟨.node key value 0 .nil .nil, m.numElements + 1⟩, none)
  | (.node k v b l r, fs) =>
    if key = k then (⟨plug (.node k value b l r) fs, m.numElements⟩, some v)
    else
      let frame : Frame K V := if key < k then ⟨.left, k, v, b, r⟩ else ⟨.right, k, v, b, l⟩
      (⟨rebalanceWhile 1 (fun new => new ≠ 0) (.node key value 0 .nil .nil) (frame :: fs),
        m.numElements + 1⟩, none)

end LongMap

end Search

/-- The loop of `get_smallest_long_map_element`. -/
def smallest : AvlTree K V → Option (K × V)
  | .nil => none
  | .node k v _ .nil _ => some (k, v)
  | .node _ _ _ (.node k v b l r) _ => smallest (.node k v b l r)

/-- The loop of `get_largest_long_map_element`. -/
def largest : AvlTree K V → Option (K × V)
  | .nil => none
  | .node k v _ _ .nil => some (k, v)
  | .node _ _ _ _ (.node k v b l r) => largest (.node k v b l r)

namespace LongMap

/-- `get_smallest_long_map_element`, with what is in `smallest_key` then. -/
def getSmallestLongMapElement (m : LongMap K V) (smallestKey : K) : Option V × K :=
  match smallest m.root with
  | none => (none, smallestKey)
  | some (k, v) => (some v, k)

/-- `get_largest_long_map_element`, with what is in `largest_key` then. -/
def getLargestLongMapElement (m : LongMap K V) (largestKey : K) : Option V × K :=
  match largest m.root with
  | none => (none, largestKey)
  | some (k, v) => (some v, k)

end LongMap

/-! ## Removing -/

def leftmost : AvlTree K V → List (Frame K V) → Option (K × V × AvlTree K V) × List (Frame K V)
  | .nil, fs => (none, fs)
  | .node k v _ .nil r, fs => (some (k, v, r), fs)
  | .node k v b (.node k' v' b' l' r') r, fs =>
    leftmost (.node k' v' b' l' r') (⟨.left, k, v, b, r⟩ :: fs)

/-- Take a node with the given balance and subtrees out of the tree below the
frames: the subtree that is left at the bottom of the stack, and the stack. The
node is replaced by its successor, which takes over its balance. -/
def unlink (b : ℤ) (l : AvlTree K V) (fs : List (Frame K V)) :
    AvlTree K V → AvlTree K V × List (Frame K V)
  | .nil => (l, fs)
  | .node rk rv _ .nil rr => (rr, ⟨.right, rk, rv, b, l⟩ :: fs)
  | .node rk rv rb (.node k v b' l' r') rr =>
    match leftmost (.node k v b' l' r') [⟨.left, rk, rv, rb, rr⟩] with
    | (some (pk, pv, pr), spine) => (pr, spine ++ ⟨.right, pk, pv, b, l⟩ :: fs)
    | (none, spine) => (.nil, spine ++ fs)

section Removal

variable [LinearOrder K]

namespace LongMap

/-- `remove_long_map_element`, with the value that was removed. -/
def removeLongMapElement (m : LongMap K V) (key : K) : LongMap K V × Option V :=
  match descend key m.root [] with
  | (.nil, _) => (m, none)
  | (.node k v b l r, fs) =>
    if key = k then
      let unlinked := unlink b l fs r
      (⟨rebalanceWhile (-1) (fun new => new = 0) unlinked.1 unlinked.2, m.numElements - 1⟩,
        some v)
    else (m, none)

/-- `remove_smallest_long_map_element`, with the key it stores to `smallest_key`. -/
def removeSmallestLongMapElement (m : LongMap K V) (smallestKey : K) :
    (LongMap K V × Option V) × K :=
  let key := (m.getSmallestLongMapElement smallestKey).2
  (m.removeLongMapElement key, key)

/-- `remove_largest_long_map_element`, with the key it stores to `largest_key`. -/
def removeLargestLongMapElement (m : LongMap K V) (largestKey : K) :
    (LongMap K V × Option V) × K :=
  let key := (m.getLargestLongMapElement largestKey).2
  (m.removeLongMapElement key, key)

end LongMap

end Removal

/-! ## Traversals -/

/-- `get_sorted_node_keys`; the list holds the keys stored so far. -/
def getSortedNodeKeys : AvlTree K V → List K → List K
  | .nil, keys => keys
  | .node k _ _ l r, keys => getSortedNodeKeys r (getSortedNodeKeys l keys ++ [k])

/-- `get_sorted_node_values`; the list holds the values stored so far. -/
def getSortedNodeValues : AvlTree K V → List V → List V
  | .nil, values => values
  | .node _ v _ l r, values => getSortedNodeValues r (getSortedNodeValues l values ++ [v])

/-- `apply_to_every_long_map_node`, for a function that changes a state. -/
def applyToEveryLongMapNode {S : Type*} (applyFunc : K → V → S → S) : AvlTree K V → S → S
  | .nil, s => s
  | .node k v _ l r, s =>
    applyToEveryLongMapNode applyFunc r
      (applyFunc k v (applyToEveryLongMapNode applyFunc l s))

namespace LongMap

/-- `get_sorted_long_map_keys`, with the number of keys it reports. -/
def getSortedLongMapKeys (m : LongMap K V) : List K × ℕ :=
  (getSortedNodeKeys m.root [], m.numElements)

/-- `get_sorted_long_map_values`, with the number of values it reports. -/
def getSortedLongMapValues (m : LongMap K V) : List V × ℕ :=
  (getSortedNodeValues m.root [], m.numElements)

def applyToEveryLongMapValue {S : Type*} (m : LongMap K V) (applyFunc : K → V → S → S) (s : S) :
    S :=
  applyToEveryLongMapNode applyFunc m.root s

end LongMap

/-! ## Destruction -/

inductive DestroyMode
  | returnValues
  | freeValues
  | ignoreValues
deriving DecidableEq

/-- What the loop of `destroy_long_map_values` has done so far. -/
structure Destroyed (V : Type*) where
  returnValues : List (Option V)
  freed : List (Option V)
  numDestroyed : ℕ

def Destroyed.add (mode : DestroyMode) (d : Destroyed V) (removed : Option V) : Destroyed V where
  returnValues := if mode = .returnValues then d.returnValues ++ [removed] else d.returnValues
  freed := if mode = .freeValues then d.freed ++ [removed] else d.freed
  numDestroyed := d.numDestroyed + 1

namespace LongMap

variable [LinearOrder K]

/-- The loop of `destroy_long_map_values`, which removes the smallest element as
long as there is one. The first argument is the number of rounds that are looked
at; `none` says that the loop has not ended. -/
def destroyRounds (mode : DestroyMode) (smallestKey : K) :
    ℕ → LongMap K V → Destroyed V → Option (LongMap K V × Destroyed V)
  | 0, _, _ => none
  | n + 1, m, d =>
    if m.numElements > 0 then
      let removed := (m.removeSmallestLongMapElement smallestKey).1
      destroyRounds mode smallestKey n removed.1 (d.add mode removed.2)
    else some (m, d)

/-- `destroy_long_map_values`. `smallestKey` is what an uninitialized key
contains. -/
def destroyLongMapValues (m : LongMap K V) (mode : DestroyMode) (smallestKey : K) :
    Option (LongMap K V × Destroyed V) :=
  destroyRounds mode smallestKey (m.numElements + 1) m ⟨[], [], 0⟩

end LongMap

end

/-!
## Keeping the tree balanced

What `rebalance` does to a node whose subtrees differ in height by at most two,
and what the loops that call it do. An insertion has made a subtree higher by
one, and a removal has made one lower by one; the loop goes up as long as this is
so of the subtree it has just balanced.
-/

variable {K V : Type*} {k : K} {v : V} {b dir op : ℤ} {l r : AvlTree K V}

/-! ### One node -/

theorem toList_settle (n : AvlTree K V) : (settle n).toList = n.toList := by
  have hset : ∀ b (t : AvlTree K V), (t.setBalance b).toList = t.toList := toList_setBalance
  simp only [settle, toList_setBalance, toList_mapRight (hset _), toList_mapLeft (hset _)]

theorem toList_raiseLeft (n : AvlTree K V) : (raiseLeft n).toList = n.toList := by
  have hset : ∀ b (t : AvlTree K V), (t.setBalance b).toList = t.toList := toList_setBalance
  unfold raiseLeft
  split_ifs
  · rw [toList_setBalance, toList_mapRight (hset 0), toList_rotateRight]
  · rw [toList_setBalance, toList_mapRight (hset (-1)), toList_rotateRight]
  · rw [toList_settle, toList_rotateRight, toList_mapLeft toList_rotateLeft]

theorem toList_raiseRight (n : AvlTree K V) : (raiseRight n).toList = n.toList := by
  have hset : ∀ b (t : AvlTree K V), (t.setBalance b).toList = t.toList := toList_setBalance
  unfold raiseRight
  split_ifs
  · rw [toList_setBalance, toList_mapLeft (hset 0), toList_rotateLeft]
  · rw [toList_setBalance, toList_mapLeft (hset 1), toList_rotateLeft]
  · rw [toList_settle, toList_rotateLeft, toList_mapRight toList_rotateRight]

theorem toList_rebalance (n : AvlTree K V) (dir op : ℤ) :
    (rebalance n dir op).toList = n.toList := by
  simp only [rebalance]
  split_ifs <;> simp only [toList_raiseLeft, toList_raiseRight, toList_setBalance]

theorem raiseLeft_spec (hl : l.Balanced) (hr : r.Balanced) (hdiff : l.height = r.height + 2) :
    (raiseLeft (.node k v b l r)).Balanced ∧
      (l.balance ≠ 0 → (raiseLeft (.node k v b l r)).balance = 0 ∧
        (raiseLeft (.node k v b l r)).height = l.height) ∧
      (l.balance = 0 → (raiseLeft (.node k v b l r)).balance = 1 ∧
        (raiseLeft (.node k v b l r)).height = l.height + 1) := by
  obtain ⟨lk, lv, lb, ll, lr, rfl⟩ := exists_node_of_height (t := l) (by omega)
  obtain ⟨hll, hlr, hlb, hlow, hhigh⟩ := balanced_node.1 hl
  rw [height_node] at hdiff
  rcases lt_trichotomy lb 0 with hneg | hzero | hpos
  · have hraise : raiseLeft (node k v b (node lk lv lb ll lr) r) =
        node lk lv 0 ll (node k v 0 lr r) := if_pos hneg
    simp only [hraise, balance_node, balanced_node, height_node, hll, hlr, hr, true_and]
    omega
  · have hraise : raiseLeft (node k v b (node lk lv lb ll lr) r) =
        node lk lv 1 ll (node k v (-1) lr r) := (if_neg hzero.not_lt).trans (if_pos hzero)
    simp only [hraise, balance_node, balanced_node, height_node, hll, hlr, hr, true_and]
    omega
  · -- the right child of the left child comes up to the root
    obtain ⟨mk, mv, mb, ml, mr, rfl⟩ := exists_node_of_height (t := lr) (by omega)
    obtain ⟨hml, hmr, hmb, hmlow, hmhigh⟩ := balanced_node.1 hlr
    have hraise : raiseLeft (node k v b (node lk lv lb ll (node mk mv mb ml mr)) r) =
        node mk mv 0 (node lk lv (if mb > 0 then -1 else 0) ll ml)
          (node k v (if mb < 0 then 1 else 0) mr r) :=
      (if_neg hpos.not_gt).trans (if_neg hpos.ne')
    simp only [height_node] at *
    simp only [hraise, balance_node, balanced_node, height_node, hll, hml, hmr, hr, true_and]
    refine ⟨?_, fun _ => by omega, fun h => by omega⟩
    split_ifs <;> omega

theorem raiseRight_spec (hl : l.Balanced) (hr : r.Balanced) (hdiff : r.height = l.height + 2) :
    (raiseRight (.node k v b l r)).Balanced ∧
      (r.balance ≠ 0 → (raiseRight (.node k v b l r)).balance = 0 ∧
        (raiseRight (.node k v b l r)).height = r.height) ∧
      (r.balance = 0 → (raiseRight (.node k v b l r)).balance = -1 ∧
        (raiseRight (.node k v b l r)).height = r.height + 1) := by
  obtain ⟨rk, rv, rb, rl, rr, rfl⟩ := exists_node_of_height (t := r) (by omega)
  obtain ⟨hrl, hrr, hrb, hlow, hhigh⟩ := balanced_node.1 hr
  rw [height_node] at hdiff
  rcases lt_trichotomy rb 0 with hneg | hzero | hpos
  · -- the left child of the right child comes up to the root
    obtain ⟨mk, mv, mb, ml, mr, rfl⟩ := exists_node_of_height (t := rl) (by omega)
    obtain ⟨hml, hmr, hmb, hmlow, hmhigh⟩ := balanced_node.1 hrl
    have hraise : raiseRight (node k v b l (node rk rv rb (node mk mv mb ml mr) rr)) =
        node mk mv 0 (node k v (if mb > 0 then -1 else 0) l ml)
          (node rk rv (if mb < 0 then 1 else 0) mr rr) :=
      (if_neg hneg.not_gt).trans (if_neg hneg.ne)
    simp only [height_node] at *
    simp only [hraise, balance_node, balanced_node, height_node, hl, hml, hmr, hrr, true_and]
    refine ⟨?_, fun _ => by omega, fun h => by omega⟩
    split_ifs <;> omega
  · have hraise : raiseRight (node k v b l (node rk rv rb rl rr)) =
        node rk rv (-1) (node k v 1 l rl) rr := (if_neg hzero.not_gt).trans (if_pos hzero)
    simp only [hraise, balance_node, balanced_node, height_node, hl, hrl, hrr, true_and]
    omega
  · have hraise : raiseRight (node k v b l (node rk rv rb rl rr)) =
        node rk rv 0 (node k v 0 l rl) rr := if_pos hpos
    simp only [hraise, balance_node, balanced_node, height_node, hl, hrl, hrr, true_and]
    omega

section Node

variable {b' : ℤ} (k : K) (v : V) (l r : AvlTree K V) (hb : b + op * dir = b')
include hb

theorem rebalance_node :
    rebalance (.node k v b l r) dir op =
      if (if b' < -1 then raiseLeft (.node k v b' l r) else .node k v b' l r).balance > 1 then
        raiseRight (if b' < -1 then raiseLeft (.node k v b' l r) else .node k v b' l r)
      else if b' < -1 then raiseLeft (.node k v b' l r) else .node k v b' l r := by
  subst hb
  rfl

theorem rebalance_of_le (hlow : -1 ≤ b') :
    rebalance (.node k v b l r) dir op =
      if b' > 1 then raiseRight (.node k v b' l r) else .node k v b' l r := by
  have hnode := rebalance_node k v l r hb
  rw [if_neg (not_lt.2 hlow)] at hnode
  exact hnode

theorem rebalance_of_lt (hlow : b' < -1)
    (hraised : (raiseLeft (.node k v b' l r)).balance ≤ 1) :
    rebalance (.node k v b l r) dir op = raiseLeft (.node k v b' l r) := by
  have hnode := rebalance_node k v l r hb
  rw [if_pos hlow, if_neg (not_lt.2 hraised)] at hnode
  exact hnode

end Node

/-- What one balancing does to balance and height. -/
theorem rebalance_spec (k : K) (v : V) (b dir op : ℤ) (hl : l.Balanced) (hr : r.Balanced)
    (hb : b + op * dir = (r.height : ℤ) - l.height) (hlow : l.height ≤ r.height + 2)
    (hhigh : r.height ≤ l.height + 2) :
    let t := rebalance (.node k v b l r) dir op
    t.Balanced ∧
      (l.height ≤ r.height + 1 → r.height ≤ l.height + 1 →
        t.balance = (r.height : ℤ) - l.height ∧ t.height = 1 + max l.height r.height) ∧
      (l.height = r.height + 2 →
        (l.balance ≠ 0 → t.balance = 0 ∧ t.height = l.height) ∧
        (l.balance = 0 → t.balance ≠ 0 ∧ t.height = l.height + 1)) ∧
      (r.height = l.height + 2 →
        (r.balance ≠ 0 → t.balance = 0 ∧ t.height = r.height) ∧
        (r.balance = 0 → t.balance ≠ 0 ∧ t.height = r.height + 1)) := by
  intro t
  rcases Nat.lt_or_ge (r.height + 1) l.height with hleft | hle
  · have hdiff : l.height = r.height + 2 := by omega
    obtain ⟨hbalanced, hodd, heven⟩ :=
      raiseLeft_spec (k := k) (v := v) (b := (r.height : ℤ) - l.height) hl hr hdiff
    have hraised : (raiseLeft (.node k v ((r.height : ℤ) - l.height) l r)).balance ≤ 1 := by
      by_cases hzero : l.balance = 0
      · rw [(heven hzero).1]
      · rw [(hodd hzero).1]
        exact zero_le_one
    have ht : t = _ := rebalance_of_lt k v l r hb (by omega) hraised
    rw [ht]
    refine ⟨hbalanced, fun h => by omega, fun _ => ⟨hodd, fun hzero => ?_⟩, fun h => by omega⟩
    rw [(heven hzero).1]
    exact ⟨one_ne_zero, (heven hzero).2⟩
  · have ht : t = _ := rebalance_of_le k v l r hb (by omega)
    rcases Nat.lt_or_ge (l.height + 1) r.height with hright | hle'
    · have hdiff : r.height = l.height + 2 := by omega
      obtain ⟨hbalanced, hodd, heven⟩ :=
        raiseRight_spec (k := k) (v := v) (b := (r.height : ℤ) - l.height) hl hr hdiff
      rw [if_pos (by omega)] at ht
      rw [ht]
      refine ⟨hbalanced, fun _ h => by omega, fun h => by omega, fun _ => ⟨hodd, fun hzero => ?_⟩⟩
      rw [(heven hzero).1]
      exact ⟨by decide, (heven hzero).2⟩
    · rw [if_neg (by omega)] at ht
      rw [ht]
      refine ⟨⟨hl, hr, rfl, by omega, by omega⟩, fun _ _ => ⟨rfl, rfl⟩, fun h => by omega,
        fun h => by omega⟩

/-! ### Going up -/

/-- Balancing one node on the way up. -/
theorem rebalance_attach (op : ℤ) {f : Frame K V} {fs : List (Frame K V)} {h : ℕ} {t : AvlTree K V}
    (hfits : Fits (f :: fs) h) (ht : t.Balanced) (hop : (t.height : ℤ) = h + op)
    (hsmall : -1 ≤ op ∧ op ≤ 1) :
    let t' := rebalance (f.attach t) (direction f.side) op
    t'.Balanced ∧
      (t.height ≤ f.sibling.height + 1 → f.sibling.height ≤ t.height + 1 →
        (t'.balance = 0 ↔ t.height = f.sibling.height) ∧
          t'.height = 1 + max t.height f.sibling.height) ∧
      (t.height = f.sibling.height + 2 →
        (t.balance ≠ 0 → t'.balance = 0 ∧ t'.height = t.height) ∧
        (t.balance = 0 → t'.balance ≠ 0 ∧ t'.height = t.height + 1)) ∧
      (f.sibling.height = t.height + 2 →
        (t'.balance = 0 ∧ t'.height = f.sibling.height) ∨
        (t'.balance ≠ 0 ∧ t'.height = f.sibling.height + 1)) := by
  obtain ⟨hsibling, hbalance, hlow, hhigh, -⟩ := hfits
  intro t'
  cases hside : f.side with
  | left =>
    simp only [hside] at hbalance
    have ht' : t' = rebalance (.node f.key f.value f.balance t f.sibling) (-1) op := by
      simp only [t', Frame.attach, hside, direction]
    obtain ⟨hbalanced, heven, hleft, hright⟩ := rebalance_spec f.key f.value f.balance (-1)
      op ht hsibling (by omega) (by omega) (by omega)
    rw [ht']
    refine ⟨hbalanced, fun h₁ h₂ => ?_, hleft, fun h₁ => ?_⟩
    · obtain ⟨heq, hheight⟩ := heven h₁ h₂
      exact ⟨by rw [heq]; omega, hheight⟩
    · obtain ⟨hodd, hzero⟩ := hright h₁
      by_cases hsib : f.sibling.balance = 0
      · exact .inr (hzero hsib)
      · exact .inl (hodd hsib)
  | right =>
    simp only [hside] at hbalance
    have ht' : t' = rebalance (.node f.key f.value f.balance f.sibling t) 1 op := by
      simp only [t', Frame.attach, hside, direction]
    obtain ⟨hbalanced, heven, hleft, hright⟩ := rebalance_spec f.key f.value f.balance 1 op
      hsibling ht (by omega) (by omega) (by omega)
    rw [ht']
    refine ⟨hbalanced, fun h₁ h₂ => ?_, hright, fun h₁ => ?_⟩
    · obtain ⟨heq, hheight⟩ := heven h₂ h₁
      refine ⟨by rw [heq]; omega, ?_⟩
      rw [hheight, Nat.max_comm]
    · obtain ⟨hodd, hzero⟩ := hleft h₁
      by_cases hsib : f.sibling.balance = 0
      · exact .inr (hzero hsib)
      · exact .inl (hodd hsib)

theorem toList_rebalanceWhile (op : ℤ) (goOn : ℤ → Bool) (t : AvlTree K V)
    (fs : List (Frame K V)) : (rebalanceWhile op goOn t fs).toList = (plug t fs).toList := by
  induction fs generalizing t with
  | nil => rfl
  | cons f fs ih =>
    have hstep : ∀ t' : AvlTree K V, t'.toList = (f.attach t).toList →
        (plug t' fs).toList = (plug t (f :: fs)).toList := by
      intro t' ht'
      rw [plug, toList_plug, toList_plug, ht']
    simp only [rebalanceWhile]
    split_ifs
    · rw [ih, hstep _ (toList_rebalance _ _ _)]
    · exact hstep _ (toList_rebalance _ _ _)

section Loop

variable {fs : List (Frame K V)} {h : ℕ} {t : AvlTree K V}

/-- The tree is balanced again after a subtree has grown. -/
theorem balanced_rebalanceWhile_of_grown (hfits : Fits fs h) (ht : t.Balanced)
    (hheight : t.height = h + 1) (hodd : t.balance ≠ 0 ∨ h = 0) :
    (rebalanceWhile 1 (fun new => new ≠ 0) t fs).Balanced := by
  induction fs generalizing t h with
  | nil => exact ht
  | cons f fs ih =>
    obtain ⟨hbalanced, heven, hhigh, -⟩ :=
      rebalance_attach 1 hfits ht (by omega) (by omega)
    obtain ⟨hnear, hnear'⟩ := hfits.near
    have hrest : Fits fs (1 + max h f.sibling.height) := hfits.2.2.2.2
    simp only [rebalanceWhile, decide_eq_true_eq]
    generalize rebalance (f.attach t) (direction f.side) 1 = t' at *
    have hgrown : (t'.balance = 0 → t'.height = 1 + max h f.sibling.height) ∧
        (t'.balance ≠ 0 → t'.height = 1 + max h f.sibling.height + 1) := by
      by_cases hover : t.height = f.sibling.height + 2
      · have hnonzero : t.balance ≠ 0 := hodd.resolve_right (by omega)
        obtain ⟨hzero, hsame⟩ := (hhigh hover).1 hnonzero
        exact ⟨fun _ => by omega, fun h => absurd hzero h⟩
      · obtain ⟨hiff, hsum⟩ := heven (by omega) (by omega)
        refine ⟨fun hzero => ?_, fun hne => ?_⟩
        · have := hiff.1 hzero
          omega
        · have := mt hiff.2 hne
          omega
    split_ifs with hne
    · exact ih hrest hbalanced (hgrown.2 hne) (Or.inl hne)
    · refine (balanced_plug t' fs).2 ⟨hbalanced, ?_⟩
      rw [hgrown.1 (not_not.1 hne)]
      exact hrest

/-- The tree is balanced again after a subtree has shrunk. -/
theorem balanced_rebalanceWhile_of_shrunk (hfits : Fits fs h) (ht : t.Balanced)
    (hheight : t.height + 1 = h) :
    (rebalanceWhile (-1) (fun new => new = 0) t fs).Balanced := by
  induction fs generalizing t h with
  | nil => exact ht
  | cons f fs ih =>
    obtain ⟨hbalanced, heven, -, hlow⟩ :=
      rebalance_attach (-1) hfits ht (by omega) (by omega)
    obtain ⟨hnear, hnear'⟩ := hfits.near
    have hrest : Fits fs (1 + max h f.sibling.height) := hfits.2.2.2.2
    simp only [rebalanceWhile, decide_eq_true_eq]
    generalize rebalance (f.attach t) (direction f.side) (-1) = t' at *
    have hshrunk : (t'.balance = 0 → t'.height + 1 = 1 + max h f.sibling.height) ∧
        (t'.balance ≠ 0 → t'.height = 1 + max h f.sibling.height) := by
      by_cases hover : f.sibling.height = t.height + 2
      · rcases hlow hover with ⟨hzero, hsame⟩ | ⟨hne, hsame⟩
        · exact ⟨fun _ => by omega, fun h => absurd hzero h⟩
        · exact ⟨fun h => absurd h hne, fun _ => by omega⟩
      · obtain ⟨hiff, hsum⟩ := heven (by omega) (by omega)
        refine ⟨fun hzero => ?_, fun hne => ?_⟩
        · have := hiff.1 hzero
          omega
        · have := mt hiff.2 hne
          omega
    split_ifs with hzero
    · exact ih hrest hbalanced (hshrunk.1 hzero)
    · refine (balanced_plug t' fs).2 ⟨hbalanced, ?_⟩
      rw [hshrunk.2 hzero]
      exact hrest

end Loop

end TreeMap

end Gargoyle
