import Mathlib.Data.List.Basic

/-!
# Runs of a text

The runs of a text are its longest pieces without a separator, from left to right. `firstRuns` takes so
many of them; the last one may go on to the end of the text instead.
-/

namespace Runs

open List

section Runs

variable {α : Type*} (p : α → Bool)

def runs (s : List α) : List (List α) := (s.splitOnP p).filter (!·.isEmpty)

def fromRun : ℕ → List α → List α
  | 0, s => s.dropWhile p
  | n + 1, s => fromRun n ((s.dropWhile p).dropWhile (!p ·))

/-- So many runs at most. With `toEnd` the last one of them is the rest of the text. -/
def firstRuns (toEnd : Bool) (n : ℕ) (s : List α) : List (List α) :=
  if toEnd = true ∧ 0 < n ∧ n ≤ (runs p s).length then
    (runs p s).take (n - 1) ++ [fromRun p (n - 1) s]
  else (runs p s).take n

variable {p} {x : α} {s : List α} {toEnd : Bool}

theorem subset_of_mem_splitOnP {piece : List α} (h : piece ∈ s.splitOnP p) : piece ⊆ s := by
  induction s generalizing piece with
  | nil =>
    rw [splitOnP_nil, mem_singleton] at h
    subst h
    exact List.Subset.refl _
  | cons x s ih =>
    rw [splitOnP_cons_eq_if_modifyHead] at h
    split_ifs at h
    · rcases List.mem_cons.1 h with rfl | hmem
      · exact nil_subset _
      · exact List.Subset.trans (ih hmem) (subset_cons_self x s)
    · obtain ⟨first, rest, hsplit⟩ := exists_cons_of_ne_nil (splitOnP_ne_nil p s)
      rw [hsplit] at h ih
      rcases List.mem_cons.1 h with rfl | hmem
      · exact cons_subset_cons x (ih mem_cons_self)
      · exact List.Subset.trans (ih (mem_cons_of_mem _ hmem)) (subset_cons_self x s)

theorem mem_runs {piece : List α} (h : piece ∈ runs p s) : piece ≠ [] ∧ piece ⊆ s := by
  rw [runs, mem_filter] at h
  refine ⟨?_, subset_of_mem_splitOnP h.1⟩
  rintro rfl
  exact absurd h.2 Bool.false_ne_true

theorem runs_nil : runs p [] = [] := by
  rw [runs, splitOnP_nil]
  rfl

theorem runs_cons_separator (hx : p x = true) (s : List α) : runs p (x :: s) = runs p s := by
  rw [runs, splitOnP_cons_eq_if_modifyHead, if_pos hx,
    filter_cons_of_neg (by simp), runs]

theorem separator_of_dropWhile {y : α} {t : List α} (h : s.dropWhile (!p ·) = y :: t) :
    p y = true := by
  have hhead := head?_dropWhile_not (!p ·) s
  rw [h] at hhead
  simpa using hhead

theorem runs_cons_run (hx : p x = false) (s : List α) :
    runs p (x :: s) = (x :: s).takeWhile (!p ·) :: runs p ((x :: s).dropWhile (!p ·)) := by
  have hfree : ∀ y ∈ (x :: s).takeWhile (!p ·), p y = false := by
    intro y hy
    simpa using List.all_eq_true.1 all_takeWhile y hy
  have hne : (!((x :: s).takeWhile (!p ·)).isEmpty) = true := by
    rw [takeWhile_cons_of_pos (by rw [hx]; rfl)]
    rfl
  have hfilter : ∀ pieces : List (List α),
      (((x :: s).takeWhile (!p ·)) :: pieces).filter (!·.isEmpty) =
        (x :: s).takeWhile (!p ·) :: pieces.filter (!·.isEmpty) :=
    fun pieces => @List.filter_cons_of_pos _ (fun piece => !piece.isEmpty) _ pieces hne
  have hsplit := takeWhile_append_dropWhile (p := (!p ·)) (l := x :: s)
  cases hrest : (x :: s).dropWhile (!p ·) with
  | nil =>
    rw [hrest, List.append_nil] at hsplit
    rw [hsplit] at hfree hfilter
    rw [runs_nil, runs, splitOnP_eq_singleton hfree, hfilter, filter_nil, hsplit]
  | cons y t =>
    have hy := separator_of_dropWhile hrest
    rw [hrest] at hsplit
    have hpieces := splitOnP_append_cons_of_forall_mem hfree y hy t
    rw [hsplit] at hpieces
    rw [runs_cons_separator hy, runs, hpieces, hfilter, runs]

theorem fromRun_cons_separator (hx : p x = true) (n : ℕ) (s : List α) :
    fromRun p n (x :: s) = fromRun p n s := by
  cases n <;> rw [fromRun, dropWhile_cons_of_pos hx, fromRun]

theorem firstRuns_nil (toEnd : Bool) (n : ℕ) : firstRuns p toEnd n [] = [] := by
  rw [firstRuns, runs_nil, length_nil, if_neg (by omega), take_nil]

theorem firstRuns_zero (toEnd : Bool) (s : List α) : firstRuns p toEnd 0 s = [] := by
  rw [firstRuns, if_neg (by omega), take_zero]

theorem length_firstRuns_le (toEnd : Bool) (n : ℕ) (s : List α) :
    (firstRuns p toEnd n s).length ≤ n := by
  rw [firstRuns]
  split_ifs with h
  · rw [length_append, length_take, length_singleton]
    omega
  · exact length_take_le n _

theorem firstRuns_cons_separator (hx : p x = true) (n : ℕ) (s : List α) :
    firstRuns p toEnd n (x :: s) = firstRuns p toEnd n s := by
  rw [firstRuns, firstRuns, runs_cons_separator hx, fromRun_cons_separator hx]

theorem firstRuns_dropWhile (n : ℕ) (s : List α) :
    firstRuns p toEnd n (s.dropWhile p) = firstRuns p toEnd n s := by
  induction s with
  | nil => rfl
  | cons x s ih =>
    cases hx : p x with
    | true => rw [dropWhile_cons_of_pos hx, ih, firstRuns_cons_separator hx]
    | false => rw [dropWhile_cons_of_neg (by rw [hx]; exact Bool.false_ne_true)]

theorem firstRuns_cons_run (hx : p x = false) (n : ℕ) (s : List α) :
    firstRuns p toEnd (n + 1) (x :: s) =
      (if n = 0 ∧ toEnd = true then x :: s else (x :: s).takeWhile (!p ·)) ::
        firstRuns p toEnd n ((x :: s).dropWhile (!p ·)) := by
  have hdrop : (x :: s).dropWhile p = x :: s :=
    dropWhile_cons_of_neg (by rw [hx]; exact Bool.false_ne_true)
  have hruns := runs_cons_run hx s
  cases n with
  | zero =>
    rw [firstRuns_zero, firstRuns, hruns, length_cons]
    by_cases hend : toEnd = true
    · rw [if_pos ⟨hend, by omega, by omega⟩, if_pos ⟨rfl, hend⟩, fromRun, hdrop]
      rfl
    · rw [if_neg (fun h => hend h.1), if_neg (fun h => hend h.2)]
      rfl
  | succ n =>
    rw [if_neg (by omega), firstRuns, firstRuns, hruns, length_cons, Nat.add_sub_cancel,
      Nat.add_sub_cancel, fromRun, hdrop]
    by_cases hlong : toEnd = true ∧ n + 1 ≤ (runs p ((x :: s).dropWhile (!p ·))).length
    · rw [if_pos ⟨hlong.1, by omega, by omega⟩, if_pos ⟨hlong.1, by omega, hlong.2⟩]
      rfl
    · rw [if_neg (fun h => hlong ⟨h.1, by omega⟩), if_neg (fun h => hlong ⟨h.1, h.2.2⟩)]
      rfl

theorem runs_dropWhile (s : List α) : runs p (s.dropWhile p) = runs p s := by
  induction s with
  | nil => rfl
  | cons x s ih =>
    cases hx : p x with
    | true => rw [dropWhile_cons_of_pos hx, ih, runs_cons_separator hx]
    | false => rw [dropWhile_cons_of_neg (by rw [hx]; exact Bool.false_ne_true)]

/-- A limit above the number of separators limits nothing. -/
theorem firstRuns_of_countP_lt {n : ℕ} (h : s.countP p < n) : firstRuns p toEnd n s = runs p s := by
  induction hlength : s.length using Nat.strongRecOn generalizing s n with
  | _ length ih =>
    subst hlength
    cases s with
    | nil => rw [firstRuns_nil, runs_nil]
    | cons x s =>
      cases hx : p x with
      | true =>
        rw [countP_cons_of_pos hx] at h
        rw [firstRuns_cons_separator hx, runs_cons_separator hx]
        exact ih s.length (Nat.lt_succ_self _) (by omega) rfl
      | false =>
        obtain ⟨n, rfl⟩ : ∃ m, n = m + 1 := ⟨n - 1, by omega⟩
        have hsplit := takeWhile_append_dropWhile (p := (!p ·)) (l := x :: s)
        rw [firstRuns_cons_run hx, runs_cons_run hx]
        cases hrest : (x :: s).dropWhile (!p ·) with
        | nil =>
          rw [hrest, List.append_nil] at hsplit
          rw [firstRuns_nil, runs_nil, hsplit, ite_self]
        | cons y t =>
          have hy := separator_of_dropWhile hrest
          rw [hrest] at hsplit
          have hcount := congrArg (List.countP p) hsplit
          have hlength := congrArg List.length hsplit
          rw [countP_append, countP_cons_of_pos hy] at hcount
          rw [length_append, length_cons] at hlength
          rw [if_neg (by omega), firstRuns_cons_separator hy, runs_cons_separator hy,
            ih t.length (by omega) (by omega) rfl]

end Runs

end Runs
