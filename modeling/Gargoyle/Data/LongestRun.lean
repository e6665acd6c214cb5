import Mathlib.Algebra.Order.Group.Nat
import Mathlib.Data.List.GetD

/-!
# Longest runs

A run of a list is a place where some elements in a row have a property. `runs` has for each place
the length of the longest run there. The first greatest entry is the longest run of all, and the
leftmost one of its length.
-/

namespace LongestRun

open List

variable {α : Type*} (p : α → Prop)

def IsRun (l : List α) (i k : ℕ) : Prop := i + k ≤ l.length ∧ ∀ c ∈ (l.drop i).take k, p c

structure IsLongest (l : List α) (i k : ℕ) : Prop where
  isRun : IsRun p l i k
  longest : ∀ j m, IsRun p l j m → m ≤ k
  leftmost : ∀ j, IsRun p l j k → i ≤ j

variable [DecidablePred p]

@[simp] def runs : List α → List ℕ
  | [] => []
  | c :: cs => (if p c then (runs cs).headD 0 + 1 else 0) :: runs cs

def greatest (counts : List ℕ) : ℕ := counts.foldl max 0

section Runs

variable {p}

theorem length_runs (l : List α) : (runs p l).length = l.length := by
  induction l with
  | nil => rfl
  | cons c cs ih => rw [runs, length_cons, length_cons, ih]

omit [DecidablePred p] in
theorem isRun_cons_succ {c : α} {cs : List α} {i k : ℕ} :
    IsRun p (c :: cs) (i + 1) k ↔ IsRun p cs i k := by
  rw [IsRun, IsRun, drop_succ_cons, length_cons]
  exact and_congr_left fun _ => by omega

theorem isRun_zero_iff {l : List α} {k : ℕ} : IsRun p l 0 k ↔ k ≤ (runs p l).headD 0 := by
  induction l generalizing k with
  | nil =>
    rw [IsRun, runs, headD_nil, length_nil]
    exact ⟨fun h => by omega, fun h => ⟨by omega, by simp⟩⟩
  | cons c cs ih =>
    rw [runs, headD_cons]
    cases k with
    | zero => exact iff_of_true ⟨by simp, by simp⟩ (Nat.zero_le _)
    | succ k =>
      have hrest := @ih k
      rw [IsRun, drop_zero] at hrest ⊢
      rw [take_succ_cons, forall_mem_cons, length_cons]
      split_ifs with hc
      · rw [Nat.add_le_add_iff_right, ← hrest]
        exact ⟨fun h => ⟨by omega, h.2.2⟩, fun h => ⟨by omega, hc, h.2⟩⟩
      · exact iff_of_false (fun h => hc h.2.1) (by omega)

theorem isRun_iff {l : List α} {i k : ℕ} (hi : i < l.length) :
    IsRun p l i k ↔ k ≤ (runs p l).getD i 0 := by
  induction l generalizing i with
  | nil => exact absurd hi (Nat.not_lt_zero i)
  | cons c cs ih =>
    cases i with
    | zero => rw [isRun_zero_iff, runs, headD_cons, getD_cons_zero]
    | succ i =>
      rw [isRun_cons_succ, runs, getD_cons_succ]
      exact ih (Nat.lt_of_succ_lt_succ hi)

theorem greatest_spec (counts : List ℕ) :
    (∀ n ∈ counts, n ≤ greatest counts) ∧ (0 < greatest counts → greatest counts ∈ counts) := by
  have hfold : ∀ (counts : List ℕ) (a : ℕ), (a ≤ counts.foldl max a ∧
      ∀ n ∈ counts, n ≤ counts.foldl max a) ∧
        (counts.foldl max a ∈ counts ∨ counts.foldl max a = a) := by
    intro counts
    induction counts with
    | nil => exact fun a => ⟨⟨le_rfl, forall_mem_nil _⟩, Or.inr rfl⟩
    | cons n counts ih =>
      intro a
      obtain ⟨⟨hle, hall⟩, hmem⟩ := ih (max a n)
      rw [foldl_cons]
      refine ⟨⟨(le_max_left a n).trans hle,
        List.forall_mem_cons.2 ⟨(le_max_right a n).trans hle, hall⟩⟩, ?_⟩
      rcases hmem with hmem | heq
      · exact .inl (mem_cons_of_mem n hmem)
      · rw [heq]
        rcases le_total a n with han | hna
        · rw [max_eq_right han]
          exact .inl mem_cons_self
        · rw [max_eq_left hna]
          exact .inr rfl
  obtain ⟨⟨-, hall⟩, hmem⟩ := hfold counts 0
  exact ⟨hall, fun hpos => hmem.resolve_right hpos.ne'⟩

/-- The first of the greatest runs is the longest run. -/
theorem isLongest_greatest {l : List α} (h : 0 < greatest (runs p l)) :
    IsLongest p l ((runs p l).idxOf (greatest (runs p l))) (greatest (runs p l)) := by
  obtain ⟨hall, hmem⟩ := greatest_spec (runs p l)
  have hlt := idxOf_lt_length_of_mem (hmem h)
  have hentry : (runs p l).getD ((runs p l).idxOf (greatest (runs p l))) 0 =
      greatest (runs p l) := by
    rw [getD_eq_getElem _ _ hlt, getElem_idxOf]
  have hle : ∀ {j m}, IsRun p l j m → 0 < m → j < l.length ∧ m ≤ (runs p l).getD j 0 := by
    intro j m hrun hm
    have hj : j < l.length := by
      have hlength := hrun.1
      omega
    exact ⟨hj, (isRun_iff hj).1 hrun⟩
  have hgetD : ∀ {j}, j < l.length → (runs p l).getD j 0 ∈ runs p l := by
    intro j hj
    rw [← length_runs (p := p)] at hj
    rw [getD_eq_getElem _ _ hj]
    exact getElem_mem hj
  refine ⟨?_, ?_, ?_⟩
  · rw [length_runs] at hlt
    exact (isRun_iff hlt).2 hentry.ge
  · intro j m hrun
    rcases Nat.eq_zero_or_pos m with rfl | hm
    · exact Nat.zero_le _
    · obtain ⟨hj, hm⟩ := hle hrun hm
      exact hm.trans (hall _ (hgetD hj))
  · intro j hrun
    obtain ⟨hj, hm⟩ := hle hrun h
    by_contra hbefore
    rw [not_le] at hbefore
    have hsame := le_antisymm (hall _ (hgetD hj)) hm
    rw [← length_runs (p := p)] at hj
    rw [getD_eq_getElem _ _ hj] at hsame
    have hnot := not_of_lt_findIdx hbefore
    rw [hsame, beq_self_eq_true] at hnot
    exact Bool.false_ne_true hnot.symm

theorem not_isRun_two {l : List α} (h : greatest (runs p l) ≤ 1) (i : ℕ) : ¬IsRun p l i 2 := by
  intro hrun
  have hi : i < l.length := by
    have hlength := hrun.1
    omega
  have hle := (isRun_iff hi).1 hrun
  rw [← length_runs (p := p)] at hi
  rw [getD_eq_getElem _ _ hi] at hle
  have hgreatest := (greatest_spec (runs p l)).1 _ (getElem_mem hi)
  omega

end Runs

end LongestRun
