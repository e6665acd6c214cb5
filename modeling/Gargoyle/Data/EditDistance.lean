import Mathlib.Order.Lattice.Nat

/-!
# Edit distance

The distance of two lists is the least number of insertions, deletions and substitutions of single
elements that make the one into the other. One block of a list can be replaced by another block with
as many edits as the longer one of the two has elements.
-/

namespace EditDistance

open List

variable {α : Type*}

inductive SingleEdit : List α → List α → Prop
  | insert (x y : List α) (a : α) : SingleEdit (x ++ y) (x ++ a :: y)
  | delete (x y : List α) (a : α) : SingleEdit (x ++ a :: y) (x ++ y)
  | substitute (x y : List α) (a b : α) : SingleEdit (x ++ a :: y) (x ++ b :: y)

inductive Script : ℕ → List α → List α → Prop
  | nil (s : List α) : Script 0 s s
  | cons {n : ℕ} {s t u : List α} (h : SingleEdit s t) (hs : Script n t u) : Script (n + 1) s u

/-- The least number of edits. -/
noncomputable def levenshtein (s t : List α) : ℕ := sInf {n | Script n s t}

theorem levenshtein_le {n : ℕ} {s t : List α} (h : Script n s t) : levenshtein s t ≤ n :=
  Nat.sInf_le h

theorem script_delete (x m y : List α) : Script m.length (x ++ (m ++ y)) (x ++ y) := by
  induction m with
  | nil => exact Script.nil _
  | cons a m ih => exact Script.cons (SingleEdit.delete x (m ++ y) a) ih

theorem script_insert (x n y : List α) : Script n.length (x ++ y) (x ++ (n ++ y)) := by
  induction n generalizing x with
  | nil => exact Script.nil _
  | cons b n ih =>
    have hrest := ih (x ++ [b])
    rw [append_assoc, append_assoc] at hrest
    exact Script.cons (SingleEdit.insert x y b) hrest

theorem script_block (x m n y : List α) :
    Script (max m.length n.length) (x ++ (m ++ y)) (x ++ (n ++ y)) := by
  induction m generalizing x n with
  | nil =>
    rw [length_nil, Nat.zero_max]
    exact script_insert x n y
  | cons a m ih =>
    cases n with
    | nil =>
      rw [length_nil, Nat.max_zero]
      exact script_delete x (a :: m) y
    | cons b n =>
      have hrest := ih (x ++ [b]) n
      rw [append_assoc, append_assoc] at hrest
      rw [length_cons, length_cons, Nat.succ_max_succ]
      exact Script.cons (SingleEdit.substitute x (m ++ y) a b) hrest

theorem levenshtein_block_le (x m n y : List α) :
    levenshtein (x ++ (m ++ y)) (x ++ (n ++ y)) ≤ max m.length n.length :=
  levenshtein_le (script_block x m n y)

end EditDistance
