import Gargoyle.Data.EditDistance
import Gargoyle.Webmon.Defs

/-!
# Searches that differ in one block

`within_edit_distance` compares what is left of two texts without their common beginning and their
common end. The longer one of the two rests is an upper bound of the edit distance, whatever it is
that they have in common.
-/

namespace Gargoyle

open List

namespace Webmon

open EditDistance

section Common

variable {s t : List Char}

theorem commonPrefix_comm (s t : List Char) : commonPrefix s t = commonPrefix t s := by
  induction s generalizing t with
  | nil => cases t <;> rfl
  | cons c s ih =>
    cases t with
    | nil => rfl
    | cons d t =>
      rw [commonPrefix, commonPrefix, ih t]
      exact if_congr eq_comm rfl rfl

theorem commonPrefix_le (s t : List Char) : commonPrefix s t ≤ s.length := by
  induction s generalizing t with
  | nil => cases t <;> exact Nat.le_refl 0
  | cons c s ih =>
    cases t with
    | nil => exact Nat.zero_le _
    | cons d t =>
      rw [commonPrefix]
      split_ifs
      · exact Nat.succ_le_succ (ih t)
      · exact Nat.zero_le _

theorem take_commonPrefix (s t : List Char) :
    s.take (commonPrefix s t) = t.take (commonPrefix s t) := by
  induction s generalizing t with
  | nil => cases t <;> rfl
  | cons c s ih =>
    cases t with
    | nil => rfl
    | cons d t =>
      rw [commonPrefix]
      split_ifs with h
      · rw [take_succ_cons, take_succ_cons, h, ih t]
      · rfl

theorem exists_commonEnd (s t : List Char) :
    ∃ m n y, s = m ++ y ∧ t = n ++ y ∧ y.length = commonPrefix s.reverse t.reverse := by
  obtain ⟨k, hk⟩ : ∃ k, commonPrefix s.reverse t.reverse = k := ⟨_, rfl⟩
  have hsplit : ∀ u : List Char, u = (u.reverse.drop k).reverse ++ (u.reverse.take k).reverse := by
    intro u
    rw [← reverse_append, take_append_drop, reverse_reverse]
  have htake := take_commonPrefix s.reverse t.reverse
  rw [hk] at htake
  have hlength := commonPrefix_le s.reverse t.reverse
  rw [hk] at hlength
  refine ⟨(s.reverse.drop k).reverse, (t.reverse.drop k).reverse, (s.reverse.take k).reverse,
    hsplit s, ?_, ?_⟩
  · rw [htake]
    exact hsplit t
  · rw [length_reverse, length_take, hk, Nat.min_eq_left hlength]

end Common

/-- What is compared is what differs between the common ends. -/
theorem exists_rests (s t : List Char) :
    ∃ x m n y, s = x ++ (m ++ y) ∧ t = x ++ (n ++ y) ∧
      ∀ maxEdit, withinEditDistance s t maxEdit =
        (decide ((m.length : ℤ) ≤ maxEdit) && decide ((n.length : ℤ) ≤ maxEdit)) := by
  obtain ⟨k, hk⟩ : ∃ k, commonPrefix s t = k := ⟨_, rfl⟩
  have hsle : k ≤ s.length := hk ▸ commonPrefix_le s t
  have htle : k ≤ t.length := by
    have hle := commonPrefix_le t s
    rwa [commonPrefix_comm, hk] at hle
  have htake := take_commonPrefix s t
  rw [hk] at htake
  obtain ⟨m, n, y, hm, hn, hy⟩ := exists_commonEnd (s.drop (k + 1)) (t.drop (k + 1))
  -- The first characters of the rests are not compared from the end.
  have hone : ∀ (u v : List Char), k ≤ u.length → u.drop (k + 1) = v ++ y →
      u = u.take k ++ (((u.drop k).take 1 ++ v) ++ y) ∧
        ((u.drop k).take 1 ++ v).length = u.length - k - y.length := by
    intro u v hle hv
    have hdrop : u.drop k = (u.drop k).take 1 ++ (v ++ y) := by
      rw [← hv, ← drop_drop, take_append_drop]
    refine ⟨?_, ?_⟩
    · rw [append_assoc, ← hdrop, take_append_drop]
    · have hlength := congrArg List.length hdrop
      rw [length_append, length_append, length_drop] at hlength
      rw [length_append]
      omega
  obtain ⟨hs, hslength⟩ := hone s m hsle hm
  obtain ⟨ht, htlength⟩ := hone t n htle hn
  refine ⟨s.take k, (s.drop k).take 1 ++ m, (t.drop k).take 1 ++ n, y, hs, ?_, fun maxEdit => ?_⟩
  · rw [htake]
    exact ht
  · rw [withinEditDistance]
    simp only [hk, ← hy]
    rw [hslength, htlength]

/-- Two texts that are found to be close are close, and neither of them is the first one. -/
theorem withinEditDistance_sound (s t : List Char) (maxEdit : ℤ) :
    (withinEditDistance s t maxEdit = true → (levenshtein s t : ℤ) ≤ maxEdit) ∧
      withinEditDistance s t maxEdit = withinEditDistance t s maxEdit := by
  constructor
  · intro h
    obtain ⟨x, m, n, y, rfl, rfl, hwithin⟩ := exists_rests s t
    rw [hwithin, Bool.and_eq_true, decide_eq_true_eq, decide_eq_true_eq] at h
    have hle := levenshtein_block_le x m n y
    omega
  · simp only [withinEditDistance]
    rw [commonPrefix_comm t s, commonPrefix_comm (t.drop _).reverse, Bool.and_comm]

end Webmon

end Gargoyle
