import Mathlib.Algebra.Order.Ring.Nat
import Gargoyle.TreeMap.LongMapRun

/-!
# Allocations that fail

The operations of `tree_map.h` that change a map, for allocations that may fail.
`fails i` says that allocation `i` of a call fails; the call then returns `NULL`
and leaves the map as it is at that moment. Unless one fails, these are the
operations of `LongMap`.

Almost all allocations are made before anything is written to the map. Only where
the right child of the removed node has no left child it takes the left subtree and
the balance of that node first, and is put on the stack then.
-/

namespace Gargoyle

open List

namespace TreeMap

open AvlTree

variable {K V : Type*}

/-! ## The program -/

/-- A call that ends with the map `m` at an allocation that fails, or with what it
returns. -/
inductive Outcome (K V : Type*)
  | outOfMemory (m : LongMap K V)
  | returned (result : LongMap K V × Option V)

def leftmostAlloc (fails : ℕ → Bool) : ℕ → AvlTree K V → List (Frame K V) →
    Option (Option (K × V × AvlTree K V) × List (Frame K V))
  | _, .nil, fs => some (none, fs)
  | _, .node k v _ .nil r, fs => some (some (k, v, r), fs)
  | i, .node k v b (.node k' v' b' l' r') r, fs =>
    if fails i then none
    else leftmostAlloc fails (i + 1) (.node k' v' b' l' r') (⟨.left, k, v, b, r⟩ :: fs)

/-- Take a node out of the tree, as `unlink` does. At an allocation that fails it
yields what the right subtree of the node is then. -/
def unlinkAlloc (fails : ℕ → Bool) (i : ℕ) (b : ℤ) (l : AvlTree K V) (fs : List (Frame K V)) :
    AvlTree K V → Except (AvlTree K V) (AvlTree K V × List (Frame K V))
  | .nil => .ok (l, fs)
  | .node rk rv _ .nil rr =>
    -- the replacement has got the subtree and the balance of the node before
    if fails i then .error (.node rk rv b l rr) else .ok (rr, ⟨.right, rk, rv, b, l⟩ :: fs)
  | .node rk rv rb (.node k v b' l' r') rr =>
    let right : AvlTree K V := .node rk rv rb (.node k v b' l' r') rr
    if fails i then .error right
    else if fails (i + 1) then .error right
    else
      match leftmostAlloc fails (i + 2) (.node k v b' l' r') [⟨.left, rk, rv, rb, rr⟩] with
      | none => .error right
      | some (some (pk, pv, pr), spine) => .ok (pr, spine ++ ⟨.right, pk, pv, b, l⟩ :: fs)
      | some (none, spine) => .ok (.nil, spine ++ fs)

section Operations

variable [LinearOrder K]

def descendAlloc (fails : ℕ → Bool) (key : K) :
    ℕ → AvlTree K V → List (Frame K V) → Option (AvlTree K V × List (Frame K V) × ℕ)
  | i, .nil, fs => some (.nil, fs, i)
  | i, .node k v b l r, fs =>
    if key = k then some (.node k v b l r, fs, i)
    else if key < k then
      match l with
      | .nil => some (.node k v b .nil r, fs, i)
      | .node _ _ _ _ _ =>
        if fails i then none else descendAlloc fails key (i + 1) l (⟨.left, k, v, b, r⟩ :: fs)
    else
      match r with
      | .nil => some (.node k v b l .nil, fs, i)
      | .node _ _ _ _ _ =>
        if fails i then none else descendAlloc fails key (i + 1) r (⟨.right, k, v, b, l⟩ :: fs)

namespace LongMap

/-- `set_long_map_element`: the new node is allocated first, and the stack node of the root second
if there is a root. -/
def setLongMapElementAlloc (fails : ℕ → Bool) (m : LongMap K V) (key : K) (value : V) :
    Outcome K V :=
  if fails 0 then .outOfMemory m
  else
    match m.root with
    | .nil => .returned (⟨.node key value 0 .nil .nil, m.numElements + 1⟩, none)
    | root =>
      if fails 1 then .outOfMemory m
      else
        match descendAlloc fails key 2 root [] with
        | none => .outOfMemory m
        | some (.nil, _, _) => .returned (m, none)
        | some (.node k v b l r, fs, _) =>
          if key = k then
            .returned (⟨plug (.node k value b l r) fs, m.numElements⟩, some v)
          else
            let frame : Frame K V :=
              if key < k then ⟨.left, k, v, b, r⟩ else ⟨.right, k, v, b, l⟩
            .returned (⟨rebalanceWhile 1 (fun new => new ≠ 0) (.node key value 0 .nil .nil)
              (frame :: fs), m.numElements + 1⟩, none)

/-- `remove_long_map_element`. -/
def removeLongMapElementAlloc (fails : ℕ → Bool) (m : LongMap K V) (key : K) : Outcome K V :=
  match descendAlloc fails key 0 m.root [] with
  | none => .outOfMemory m
  | some (.nil, _, _) => .returned (m, none)
  | some (.node k v b l r, fs, i) =>
    if key = k then
      match unlinkAlloc fails i b l fs r with
      | .error r' => .outOfMemory ⟨plug (.node k v b l r') fs, m.numElements⟩
      | .ok unlinked =>
        .returned (⟨rebalanceWhile (-1) (fun new => new = 0) unlinked.1 unlinked.2,
          m.numElements - 1⟩, some v)
    else .returned (m, none)

end LongMap

end Operations

/-! ## Without a failure -/

theorem leftmostAlloc_eq {fails : ℕ → Bool} {i : ℕ} {t : AvlTree K V} {fs : List (Frame K V)}
    {found : Option (K × V × AvlTree K V) × List (Frame K V)}
    (h : leftmostAlloc fails i t fs = some found) : leftmost t fs = found := by
  induction t generalizing i fs with
  | nil => exact Option.some.inj h
  | node k v b l r ih _ =>
    cases l with
    | nil => exact Option.some.inj h
    | node k' v' b' l' r' =>
      rw [leftmostAlloc] at h
      split_ifs at h
      exact ih h

theorem unlinkAlloc_eq {fails : ℕ → Bool} {i : ℕ} {b : ℤ} {l r : AvlTree K V}
    {fs : List (Frame K V)} {unlinked : AvlTree K V × List (Frame K V)}
    (h : unlinkAlloc fails i b l fs r = .ok unlinked) : unlink b l fs r = unlinked := by
  match r with
  | .nil => exact Except.ok.inj h
  | .node rk rv rb .nil rr =>
    rw [unlinkAlloc] at h
    split_ifs at h
    exact Except.ok.inj h
  | .node rk rv rb (.node k v b' l' r') rr =>
    simp only [unlinkAlloc] at h
    split_ifs at h
    rw [unlink]
    split at h
    · cases h
    · rename_i hfound
      rw [leftmostAlloc_eq hfound]
      exact Except.ok.inj h
    · rename_i hfound
      rw [leftmostAlloc_eq hfound]
      exact Except.ok.inj h

section Search

variable [LinearOrder K] {fails : ℕ → Bool} {key : K}

def SearchCounts (fails : ℕ → Bool) (key : K) (i : ℕ) (t : AvlTree K V) (fs : List (Frame K V)) :
    Prop :=
  ∃ d, (descend key t fs).2.length = fs.length + d ∧
    descendAlloc fails key i t fs =
      if ∀ n < d, fails (i + n) = false then
        some ((descend key t fs).1, (descend key t fs).2, i + d) else none

theorem SearchCounts.stop {i : ℕ} {t : AvlTree K V} {fs : List (Frame K V)}
    (hdescend : descend key t fs = (t, fs))
    (halloc : descendAlloc fails key i t fs = some (t, fs, i)) : SearchCounts fails key i t fs := by
  refine ⟨0, by rw [hdescend]; rfl, ?_⟩
  rw [if_pos (by simp), halloc, hdescend]
  rfl

theorem SearchCounts.down {i : ℕ} {s t : AvlTree K V} {f : Frame K V} {fs : List (Frame K V)}
    (h : SearchCounts fails key (i + 1) s (f :: fs))
    (hdescend : descend key t fs = descend key s (f :: fs))
    (halloc : descendAlloc fails key i t fs =
      if fails i then none else descendAlloc fails key (i + 1) s (f :: fs)) :
    SearchCounts fails key i t fs := by
  obtain ⟨d, hlength, hrest⟩ := h
  rw [length_cons] at hlength
  have hall : (∀ n < d + 1, fails (i + n) = false) ↔
      fails i = false ∧ ∀ n < d, fails (i + 1 + n) = false := by
    rw [Nat.forall_lt_succ_left]
    simp only [Nat.add_zero, Nat.add_assoc, Nat.add_comm 1]
  refine ⟨d + 1, by rw [hdescend, hlength]; omega, ?_⟩
  rw [halloc, hrest, hdescend]
  simp only [hall]
  cases fails i with
  | true => simp
  | false => simp [Nat.add_assoc, Nat.add_comm 1]

theorem searchCounts (fails : ℕ → Bool) (key : K) (t : AvlTree K V) (fs : List (Frame K V))
    (i : ℕ) :
    SearchCounts fails key i t fs := by
  induction t generalizing fs i with
  | nil => exact .stop rfl rfl
  | node k v b l r ihl ihr =>
    rcases lt_trichotomy key k with hlt | rfl | hgt
    · cases l with
      | nil =>
        refine .stop ?_ ?_
        · simp only [descend, if_neg hlt.ne, if_pos hlt]
        · simp only [descendAlloc, if_neg hlt.ne, if_pos hlt]
      | node k' v' b' l' r' =>
        refine .down (ihl (⟨.left, k, v, b, r⟩ :: fs) (i + 1)) ?_ ?_
        · simp only [descend, if_neg hlt.ne, if_pos hlt]
        · simp only [descendAlloc, if_neg hlt.ne, if_pos hlt]
    · refine .stop ?_ ?_
      · simp only [descend, if_true]
      · simp only [descendAlloc, if_true]
    · cases r with
      | nil =>
        refine .stop ?_ ?_
        · simp only [descend, if_neg hgt.ne', if_neg hgt.not_gt]
        · simp only [descendAlloc, if_neg hgt.ne', if_neg hgt.not_gt]
      | node k' v' b' l' r' =>
        refine .down (ihr (⟨.right, k, v, b, l⟩ :: fs) (i + 1)) ?_ ?_
        · simp only [descend, if_neg hgt.ne', if_neg hgt.not_gt]
        · simp only [descendAlloc, if_neg hgt.ne', if_neg hgt.not_gt]

theorem descendAlloc_eq_some_iff {t s : AvlTree K V} {fs : List (Frame K V)} {i j : ℕ} :
    descendAlloc fails key i t [] = some (s, fs, j) ↔
      descend key t [] = (s, fs) ∧ j = i + fs.length ∧ ∀ n < fs.length, fails (i + n) = false := by
  obtain ⟨d, hlength, halloc⟩ := searchCounts fails key t [] i
  rw [halloc]
  generalize descend key t [] = found at hlength ⊢
  obtain ⟨s', fs'⟩ := found
  obtain rfl : fs'.length = d := by simpa using hlength
  split_ifs with hall
  · simp only [Option.some.injEq, Prod.mk.injEq]
    constructor
    · rintro ⟨rfl, rfl, rfl⟩
      exact ⟨⟨rfl, rfl⟩, rfl, hall⟩
    · rintro ⟨⟨rfl, rfl⟩, rfl, -⟩
      exact ⟨rfl, rfl, rfl⟩
  · simp only [Prod.mk.injEq, false_iff]
    rintro ⟨⟨-, rfl⟩, -, hall'⟩
    exact hall hall'

end Search

/-! ## What a failure leaves -/

/-- Allocation `i` fails after the right child `r` of the node with the balance `b` and the left
subtree `l` has been changed. -/
def FailsLate (fails : ℕ → Bool) (i : ℕ) (b : ℤ) (l : AvlTree K V) (r : AvlTree K V) : Prop :=
  r ≠ .nil ∧ r.left = .nil ∧ fails i = true ∧ ¬ (l = .nil ∧ r.balance = b)

theorem unlinkAlloc_keeps_iff {fails : ℕ → Bool} {i : ℕ} {b : ℤ} {l r : AvlTree K V}
    (fs : List (Frame K V)) :
    (∀ r', unlinkAlloc fails i b l fs r = .error r' → r' = r) ↔ ¬ FailsLate fails i b l r := by
  match r with
  | .nil => simp [unlinkAlloc, FailsLate]
  | .node rk rv rb .nil rr =>
    rw [unlinkAlloc]
    by_cases hfail : fails i = true
    · simp [FailsLate, hfail, eq_comm, and_comm]
    · simp [FailsLate, hfail]
  | .node rk rv rb (.node k v b' l' r') rr =>
    have hleft : ¬ FailsLate fails i b l (.node rk rv rb (.node k v b' l' r') rr) := by
      simp [FailsLate]
    refine ⟨fun _ => hleft, fun _ r'' h => ?_⟩
    simp only [unlinkAlloc] at h
    split_ifs at h
    · exact (Except.error.inj h).symm
    · exact (Except.error.inj h).symm
    · split at h
      · exact (Except.error.inj h).symm
      · cases h
      · cases h

theorem attach_injective (f : Frame K V) : Function.Injective f.attach := by
  intro s t h
  unfold Frame.attach at h
  cases hside : f.side with
  | left =>
    simp only [hside] at h
    exact (AvlTree.node.inj h).2.2.2.1
  | right =>
    simp only [hside] at h
    exact (AvlTree.node.inj h).2.2.2.2

theorem plug_injective (fs : List (Frame K V)) : Function.Injective (plug · fs) := by
  induction fs with
  | nil => exact fun _ _ h => h
  | cons f fs ih => exact fun s t h => attach_injective f (ih h)

namespace LongMap

variable [LinearOrder K] {fails : ℕ → Bool} {m m' : LongMap K V} {key : K} {value : V}
  {result : LongMap K V × Option V}

/-- A call in which no allocation fails is the operation without failures. -/
theorem setLongMapElementAlloc_returned
    (h : m.setLongMapElementAlloc fails key value = .returned result) :
    m.setLongMapElement key value = result := by
  obtain ⟨root, numElements⟩ := m
  unfold setLongMapElementAlloc at h
  unfold setLongMapElement
  by_cases hnode : fails 0 = true
  · rw [if_pos hnode] at h
    cases h
  · rw [if_neg hnode] at h
    cases root with
    | nil => exact Outcome.returned.inj h
    | node k₀ v₀ b₀ l₀ r₀ =>
      simp only at h ⊢
      by_cases hstack : fails 1 = true
      · rw [if_pos hstack] at h
        cases h
      · rw [if_neg hstack] at h
        cases hsearch : descendAlloc fails key 2 (.node k₀ v₀ b₀ l₀ r₀) [] with
        | none =>
          rw [hsearch] at h
          cases h
        | some found =>
          obtain ⟨s, fs, j⟩ := found
          obtain ⟨hdescend, -, -⟩ := descendAlloc_eq_some_iff.1 hsearch
          have hne : AvlTree.node k₀ v₀ b₀ l₀ r₀ ≠ .nil := by simp
          obtain ⟨k, v, b, l, r, fs', hend, -⟩ := descend_spec key hne []
          obtain ⟨rfl, rfl⟩ := Prod.mk.inj (hdescend.symm.trans hend)
          rw [hsearch] at h
          rw [hdescend]
          simp only at h ⊢
          split_ifs at h ⊢ <;> exact Outcome.returned.inj h

/-- A removal that returns has done what it should. -/
theorem removeLongMapElementAlloc_returned
    (h : m.removeLongMapElementAlloc fails key = .returned result) :
    m.removeLongMapElement key = result := by
  unfold removeLongMapElementAlloc at h
  unfold removeLongMapElement
  cases hsearch : descendAlloc fails key 0 m.root [] with
  | none =>
    rw [hsearch] at h
    cases h
  | some found =>
    obtain ⟨s, fs, j⟩ := found
    rw [(descendAlloc_eq_some_iff.1 hsearch).1]
    rw [hsearch] at h
    cases s with
    | nil => exact Outcome.returned.inj h
    | node k v b l r =>
      simp only at h ⊢
      split_ifs at h ⊢
      · cases hunlink : unlinkAlloc fails j b l fs r with
        | error r' =>
          rw [hunlink] at h
          cases h
        | ok unlinked =>
          rw [hunlink] at h
          rw [unlinkAlloc_eq hunlink]
          exact Outcome.returned.inj h
      · exact Outcome.returned.inj h

theorem setLongMapElementAlloc_outOfMemory
    (h : m.setLongMapElementAlloc fails key value = .outOfMemory m') : m' = m := by
  unfold setLongMapElementAlloc at h
  by_cases hnode : fails 0 = true
  · rw [if_pos hnode] at h
    exact (Outcome.outOfMemory.inj h).symm
  · rw [if_neg hnode] at h
    split at h
    · cases h
    · by_cases hstack : fails 1 = true
      · rw [if_pos hstack] at h
        exact (Outcome.outOfMemory.inj h).symm
      · rw [if_neg hstack] at h
        split at h
        · exact (Outcome.outOfMemory.inj h).symm
        · cases h
        · split_ifs at h

/-- The removal of `key` gets to a node whose right child has no left child, and only the allocation
for the place of that child fails. -/
def ReplacementFails (fails : ℕ → Bool) (m : LongMap K V) (key : K) : Prop :=
  match descend key m.root [] with
  | (.nil, _) => False
  | (.node k _ b l r, fs) =>
    key = k ∧ (∀ n < fs.length, fails n = false) ∧ FailsLate fails fs.length b l r

theorem plug_of_descend {k : K} {v : V} {b : ℤ} {l r : AvlTree K V} {fs : List (Frame K V)}
    (h : descend key m.root [] = (.node k v b l r, fs)) : plug (.node k v b l r) fs = m.root := by
  have hroot : m.root ≠ .nil := by
    intro hnil
    rw [hnil] at h
    cases h
  obtain ⟨k', v', b', l', r', fs', hdescend, hplug, -⟩ := descend_spec key hroot []
  rw [h] at hdescend
  cases hdescend
  exact hplug

/-- When a removal that fails leaves the map as it was. -/
theorem removeLongMapElementAlloc_keeps_iff :
    (∀ m', m.removeLongMapElementAlloc fails key = .outOfMemory m' → m' = m) ↔
      ¬ ReplacementFails fails m key := by
  unfold removeLongMapElementAlloc ReplacementFails
  cases hsearch : descendAlloc fails key 0 m.root [] with
  | none =>
    refine ⟨fun _ => ?_, fun _ m' h => (Outcome.outOfMemory.inj h).symm⟩
    cases hdescend : descend key m.root [] with
    | mk s fs =>
      cases s with
      | nil => exact not_false
      | node k v b l r =>
        rintro ⟨-, hall, -⟩
        have hsome := descendAlloc_eq_some_iff.2
          ⟨hdescend, rfl, fun n hn => (congrArg fails (Nat.zero_add n)).trans (hall n hn)⟩
        rw [hsearch] at hsome
        cases hsome
  | some found =>
    obtain ⟨s, fs, j⟩ := found
    obtain ⟨hdescend, rfl, hall⟩ := descendAlloc_eq_some_iff.1 hsearch
    simp only [Nat.zero_add] at hall ⊢
    rw [hdescend]
    cases s with
    | nil => simp
    | node k v b l r =>
      by_cases hkey : key = k
      · have hplug := plug_of_descend hdescend
        have hnode : ∀ r', (⟨plug (.node k v b l r') fs, m.numElements⟩ : LongMap K V) = m ↔
            r' = r := by
          intro r'
          constructor
          · intro h
            have hroot := (congrArg LongMap.root h).trans hplug.symm
            exact (AvlTree.node.inj (plug_injective fs hroot)).2.2.2.2
          · rintro rfl
            rw [hplug]
        have hlate : (key = k ∧ (∀ n < fs.length, fails n = false) ∧
            FailsLate fails fs.length b l r) ↔ FailsLate fails fs.length b l r :=
          ⟨fun h => h.2.2, fun h => ⟨hkey, hall, h⟩⟩
        simp only [if_pos hkey]
        rw [hlate, ← unlinkAlloc_keeps_iff fs]
        cases hunlink : unlinkAlloc fails fs.length b l fs r with
        | error r' =>
          simp only [Outcome.outOfMemory.injEq, Except.error.injEq, forall_eq']
          exact hnode r'
        | ok unlinked => simp
      · simp [hkey]

/-- An allocation that fails leaves the map as it was exactly when it is not one that fails late. -/
theorem outOfMemory_keeps_iff (fails : ℕ → Bool) (m : LongMap K V) (key : K) :
    ((∀ value m', m.setLongMapElementAlloc fails key value = .outOfMemory m' → m' = m) ∧
      ∀ m', m.removeLongMapElementAlloc fails key = .outOfMemory m' → m' = m) ↔
      ¬ ReplacementFails fails m key := by
  rw [← removeLongMapElementAlloc_keeps_iff]
  exact ⟨fun h => h.2, fun h => ⟨fun _ _ => setLongMapElementAlloc_outOfMemory, h⟩⟩

/-- When the root of a map with three elements is to be removed, the smallest one is linked to the
largest one before the allocation fails. -/
theorem removal_leaves_link :
    ¬ ∀ m', (run [.set 2 (), .set 1 (), .set 3 ()]).removeLongMapElementAlloc (fun _ => true) 2 =
      .outOfMemory m' → m' = run [.set 2 (), .set 1 (), .set 3 ()] := by
  intro h
  have hsize := congrArg (fun m : LongMap ℕ Unit => m.root.size) (h _ rfl)
  exact absurd hsize (by decide)

end LongMap

/-! ## Runs in which allocations fail -/

def Outcome.map : Outcome K V → LongMap K V
  | .outOfMemory m => m
  | .returned result => result.1

structure AllocCall (K V : Type*) where
  fails : ℕ → Bool
  key : K
  value : Option V

def AllocCall.op (c : AllocCall K V) : MapOp K V :=
  match c.value with
  | some value => .set c.key value
  | none => .remove c.key

namespace LongMap

variable [LinearOrder K]

def callAlloc (m : LongMap K V) (c : AllocCall K V) : Outcome K V :=
  match c.value with
  | some value => m.setLongMapElementAlloc c.fails c.key value
  | none => m.removeLongMapElementAlloc c.fails c.key

def runAlloc (m : LongMap K V) (calls : List (AllocCall K V)) : LongMap K V :=
  calls.foldl (fun m c => (m.callAlloc c).map) m

def returnedOps : LongMap K V → List (AllocCall K V) → List (MapOp K V)
  | _, [] => []
  | m, c :: calls =>
    match m.callAlloc c with
    | .outOfMemory m' => returnedOps m' calls
    | .returned result => c.op :: returnedOps result.1 calls

def NeverLate : LongMap K V → List (AllocCall K V) → Prop
  | _, [] => True
  | m, c :: calls =>
    (c.value = none → ¬ReplacementFails c.fails m c.key) ∧ NeverLate (m.callAlloc c).map calls

variable {m : LongMap K V}

theorem callAlloc_returned {c : AllocCall K V} {result : LongMap K V × Option V}
    (h : m.callAlloc c = .returned result) : m.apply c.op = result := by
  rw [callAlloc] at h
  rw [AllocCall.op]
  cases hvalue : c.value with
  | some value => exact setLongMapElementAlloc_returned (by simpa only [hvalue] using h)
  | none => exact removeLongMapElementAlloc_returned (by simpa only [hvalue] using h)

theorem callAlloc_keeps_iff (m : LongMap K V) (c : AllocCall K V) :
    (∀ m', m.callAlloc c = .outOfMemory m' → m' = m) ↔
      (c.value = none → ¬ReplacementFails c.fails m c.key) := by
  rw [callAlloc]
  cases c.value with
  | some value =>
    simp only [reduceCtorEq, false_imp_iff, iff_true]
    exact fun _ => setLongMapElementAlloc_outOfMemory
  | none =>
    simp only [true_imp_iff]
    exact removeLongMapElementAlloc_keeps_iff

/-- The calls that return make of a map what they make of it alone, at any time of a run, exactly
when no removal fails late. -/
theorem runAlloc_eq_iff (m : LongMap K V) (calls : List (AllocCall K V)) :
    (∀ before after, calls = before ++ after →
      m.runAlloc before = (m.returnedOps before).foldl (fun m op => (m.apply op).1) m) ↔
      m.NeverLate calls := by
  induction calls generalizing m with
  | nil =>
    refine ⟨fun _ => trivial, fun _ before after h => ?_⟩
    obtain ⟨rfl, -⟩ := List.append_eq_nil_iff.1 h.symm
    rfl
  | cons c calls ih =>
    rw [NeverLate, ← callAlloc_keeps_iff]
    cases hcall : m.callAlloc c with
    | outOfMemory m' =>
      rw [Outcome.map, ← ih m']
      constructor
      · intro h
        have hkept : m' = m := by
          have hone := h [c] calls rfl
          rwa [runAlloc, foldl_cons, foldl_nil, returnedOps, hcall] at hone
        subst hkept
        refine ⟨fun _ heq => (Outcome.outOfMemory.inj heq).symm, fun before after hsplit => ?_⟩
        have hmore := h (c :: before) after (by rw [hsplit, cons_append])
        rwa [runAlloc, foldl_cons, returnedOps, hcall] at hmore
      · rintro ⟨hkept, hrest⟩ before after hsplit
        obtain rfl := hkept m' rfl
        cases before with
        | nil => rfl
        | cons c' before =>
          obtain ⟨rfl, htail⟩ := List.cons.inj hsplit
          rw [runAlloc, foldl_cons, returnedOps, hcall]
          exact hrest before after htail
    | returned result =>
      have happly := callAlloc_returned hcall
      rw [Outcome.map, ← ih result.1]
      constructor
      · intro h
        refine ⟨by simp, fun before after hsplit => ?_⟩
        have hmore := h (c :: before) after (by rw [hsplit, cons_append])
        rwa [runAlloc, foldl_cons, returnedOps, hcall, foldl_cons, happly] at hmore
      · rintro ⟨-, hrest⟩ before after hsplit
        cases before with
        | nil => rfl
        | cons c' before =>
          obtain ⟨rfl, htail⟩ := List.cons.inj hsplit
          rw [runAlloc, foldl_cons, returnedOps, hcall, foldl_cons, happly]
          exact hrest before after htail

end LongMap

end TreeMap

end Gargoyle
