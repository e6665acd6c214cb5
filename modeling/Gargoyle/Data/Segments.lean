import Mathlib.Data.List.Pairwise
import Mathlib.Order.Lattice

/-!
# Lists of segments

A segment of a linear order is given by its two ends. In a chain of segments each
one ends no later than the next one starts. `joinTouching` joins the segments of
a chain that meet; the points covered stay the same, and the segments of the
result are apart from each other.
-/

namespace Segments

open List

variable {α : Type*} [LinearOrder α]

structure Chained (rs : List (α × α)) : Prop where
  proper : ∀ r ∈ rs, r.1 < r.2
  ordered : rs.Pairwise fun r r' => r.2 ≤ r'.1

def Covers (rs : List (α × α)) (s : α) : Prop := ∃ r ∈ rs, r.1 ≤ s ∧ s ≤ r.2

def CoversBelow (rs : List (α × α)) (s : α) : Prop := ∃ r ∈ rs, r.1 ≤ s ∧ s < r.2

@[simp] def joinTouching : List (α × α) → List (α × α)
  | [] => []
  | [r] => [r]
  | r :: r' :: rs =>
    if r.2 = r'.1 then joinTouching ((r.1, r'.2) :: rs)
    else r :: joinTouching (r' :: rs)
termination_by rs => rs.length

theorem Chained.tail {r : α × α} {rs : List (α × α)} (h : Chained (r :: rs)) : Chained rs :=
  ⟨fun r' hr' => h.proper r' (mem_cons_of_mem r hr'), h.ordered.of_cons⟩

theorem Chained.joined {r r' : α × α} {rs : List (α × α)} (h : Chained (r :: r' :: rs)) :
    Chained ((r.1, r'.2) :: rs) := by
  have hr := h.proper r (by simp)
  have hr' := h.proper r' (by simp)
  have hmeet : r.2 ≤ r'.1 := rel_of_pairwise_cons h.ordered (by simp)
  refine ⟨?_, ?_⟩
  · intro x hx
    rcases List.mem_cons.1 hx with rfl | hx
    · exact hr.trans_le (hmeet.trans hr'.le)
    · exact h.proper x (by simp [hx])
  · refine List.pairwise_cons.2 ⟨fun x hx => ?_, h.ordered.of_cons.of_cons⟩
    exact rel_of_pairwise_cons h.ordered.of_cons hx

theorem covers_cons {r : α × α} {rs : List (α × α)} {s : α} :
    Covers (r :: rs) s ↔ (r.1 ≤ s ∧ s ≤ r.2) ∨ Covers rs s := by
  simp [Covers]

theorem coversBelow_cons {r : α × α} {rs : List (α × α)} {s : α} :
    CoversBelow (r :: rs) s ↔ (r.1 ≤ s ∧ s < r.2) ∨ CoversBelow rs s := by
  simp [CoversBelow]

/-- Joining pieces that touch does not change what they cover. -/
theorem covers_joinTouching {rs : List (α × α)} (h : Chained rs) (s : α) :
    (Covers (joinTouching rs) s ↔ Covers rs s) ∧
      (CoversBelow (joinTouching rs) s ↔ CoversBelow rs s) := by
  induction rs using joinTouching.induct with
  | case1 => simp [joinTouching]
  | case2 r => simp [joinTouching]
  | case3 r r' rs hmeet ih =>
    have hr := h.proper r (by simp)
    have hr' := h.proper r' (by simp)
    obtain ⟨ih₁, ih₂⟩ := ih h.joined
    rw [joinTouching, if_pos hmeet, ih₁, ih₂]
    simp only [covers_cons, coversBelow_cons, ← or_assoc]
    constructor
    · refine or_congr_left ⟨fun hs => ?_, fun hs => ?_⟩
      · rcases le_total s r.2 with hle | hle
        · exact .inl ⟨hs.1, hle⟩
        · exact .inr ⟨hmeet ▸ hle, hs.2⟩
      · rcases hs with hs | hs
        · exact ⟨hs.1, hs.2.trans (hmeet.le.trans hr'.le)⟩
        · exact ⟨hr.le.trans (hmeet.le.trans hs.1), hs.2⟩
    · refine or_congr_left ⟨fun hs => ?_, fun hs => ?_⟩
      · rcases lt_or_ge s r.2 with hlt | hle
        · exact .inl ⟨hs.1, hlt⟩
        · exact .inr ⟨hmeet ▸ hle, hs.2⟩
      · rcases hs with hs | hs
        · exact ⟨hs.1, hs.2.trans (hmeet.trans_lt hr')⟩
        · exact ⟨hr.le.trans (hmeet.le.trans hs.1), hs.2⟩
  | case4 r r' rs hmeet ih =>
    obtain ⟨ih₁, ih₂⟩ := ih h.tail
    rw [joinTouching, if_neg hmeet]
    exact ⟨covers_cons.trans ((or_congr_right ih₁).trans covers_cons.symm),
      coversBelow_cons.trans ((or_congr_right ih₂).trans coversBelow_cons.symm)⟩

theorem joinTouching_ne_nil {rs : List (α × α)} (h : rs ≠ []) : joinTouching rs ≠ [] := by
  induction rs using joinTouching.induct with
  | case1 => exact absurd rfl h
  | case2 r => simp [joinTouching]
  | case3 r r' rs hmeet ih =>
    rw [joinTouching, if_pos hmeet]
    exact ih (by simp)
  | case4 r r' rs hmeet ih => simp [joinTouching, hmeet]

theorem ends_of_mem_joinTouching {rs : List (α × α)} {x : α × α} (hx : x ∈ joinTouching rs) :
    (∃ r ∈ rs, r.1 = x.1) ∧ ∃ r ∈ rs, r.2 = x.2 := by
  induction rs using joinTouching.induct with
  | case1 => simp [joinTouching] at hx
  | case2 r =>
    rw [joinTouching, mem_singleton] at hx
    subst hx
    exact ⟨⟨x, by simp, rfl⟩, ⟨x, by simp, rfl⟩⟩
  | case3 r r' rs hmeet ih =>
    rw [joinTouching, if_pos hmeet] at hx
    obtain ⟨⟨y, hy, hstart⟩, ⟨z, hz, hend⟩⟩ := ih hx
    constructor
    · rcases List.mem_cons.1 hy with rfl | hy
      · exact ⟨r, by simp, hstart⟩
      · exact ⟨y, by simp [hy], hstart⟩
    · rcases List.mem_cons.1 hz with rfl | hz
      · exact ⟨r', by simp, hend⟩
      · exact ⟨z, by simp [hz], hend⟩
  | case4 r r' rs hmeet ih =>
    rw [joinTouching, if_neg hmeet] at hx
    rcases List.mem_cons.1 hx with rfl | hx
    · exact ⟨⟨x, by simp, rfl⟩, ⟨x, by simp, rfl⟩⟩
    · obtain ⟨⟨y, hy, hstart⟩, ⟨z, hz, hend⟩⟩ := ih hx
      exact ⟨⟨y, mem_cons_of_mem r hy, hstart⟩, ⟨z, mem_cons_of_mem r hz, hend⟩⟩

theorem apart_joinTouching {rs : List (α × α)} (h : Chained rs) :
    (joinTouching rs).Pairwise fun r r' => r.2 < r'.1 := by
  induction rs using joinTouching.induct with
  | case1 => simp [joinTouching]
  | case2 r => simp [joinTouching]
  | case3 r r' rs hmeet ih =>
    rw [joinTouching, if_pos hmeet]
    exact ih h.joined
  | case4 r r' rs hmeet ih =>
    rw [joinTouching, if_neg hmeet]
    refine List.pairwise_cons.2 ⟨fun x hx => ?_, ih h.tail⟩
    obtain ⟨⟨y, hy, hstart⟩, -⟩ := ends_of_mem_joinTouching hx
    have hlt : r.2 < r'.1 :=
      lt_of_le_of_ne (rel_of_pairwise_cons h.ordered (by simp)) hmeet
    rw [← hstart]
    rcases List.mem_cons.1 hy with rfl | hy
    · exact hlt
    · have hr' := h.proper r' (by simp)
      exact hlt.trans_le (hr'.le.trans (rel_of_pairwise_cons h.tail.ordered hy))

theorem proper_of_mem_joinTouching {rs : List (α × α)} (h : Chained rs) {x : α × α}
    (hx : x ∈ joinTouching rs) : x.1 < x.2 := by
  induction rs using joinTouching.induct with
  | case1 => simp [joinTouching] at hx
  | case2 r =>
    rw [joinTouching] at hx
    exact h.proper x hx
  | case3 r r' rs hmeet ih =>
    rw [joinTouching, if_pos hmeet] at hx
    exact ih h.joined hx
  | case4 r r' rs hmeet ih =>
    rw [joinTouching, if_neg hmeet] at hx
    rcases List.mem_cons.1 hx with rfl | hx
    · exact h.proper x (by simp)
    · exact ih h.tail hx

theorem sorted_joinTouching {rs : List (α × α)} (h : Chained rs) :
    (joinTouching rs).Pairwise fun r r' => r.1 ≤ r'.1 := by
  refine List.Pairwise.imp_of_mem ?_ (apart_joinTouching h)
  intro r r' hr _ hlt
  exact ((proper_of_mem_joinTouching h hr).trans hlt).le

theorem head_joinTouching (rs : List (α × α)) :
    (joinTouching rs).head?.map Prod.fst = rs.head?.map Prod.fst := by
  induction rs using joinTouching.induct with
  | case1 => simp [joinTouching]
  | case2 r => simp [joinTouching]
  | case3 r r' rs hmeet ih =>
    rw [joinTouching, if_pos hmeet, ih]
    rfl
  | case4 r r' rs hmeet ih =>
    rw [joinTouching, if_neg hmeet]
    rfl

theorem joinTouching_append_last (rs : List (α × α)) (a : α) :
    ∃ js a', ∀ b, joinTouching (rs ++ [(a, b)]) = js ++ [(a', b)] := by
  induction rs using joinTouching.induct with
  | case1 => exact ⟨[], a, fun b => by simp [joinTouching]⟩
  | case2 r =>
    by_cases hmeet : r.2 = a
    · exact ⟨[], r.1, fun b => by simp [joinTouching, hmeet]⟩
    · exact ⟨[r], a, fun b => by simp [joinTouching, hmeet]⟩
  | case3 r r' rs hmeet ih =>
    obtain ⟨js, a', hjoin⟩ := ih
    refine ⟨js, a', fun b => ?_⟩
    rw [← hjoin b, cons_append, cons_append, joinTouching, if_pos hmeet]
    rfl
  | case4 r r' rs hmeet ih =>
    obtain ⟨js, a', hjoin⟩ := ih
    refine ⟨r :: js, a', fun b => ?_⟩
    have hjoin' := hjoin b
    rw [cons_append] at hjoin'
    rw [cons_append, cons_append, joinTouching, if_neg hmeet, hjoin', cons_append]

theorem joinTouching_of_forall_ne {rs : List (α × α)} (h : ∀ r ∈ rs, ∀ r' ∈ rs, r.2 ≠ r'.1) :
    joinTouching rs = rs := by
  induction rs using joinTouching.induct with
  | case1 => simp [joinTouching]
  | case2 r => simp [joinTouching]
  | case3 r r' rs hmeet ih => exact absurd hmeet (h r (by simp) r' (by simp))
  | case4 r r' rs hmeet ih =>
    rw [joinTouching, if_neg hmeet, ih]
    exact fun x hx y hy => h x (mem_cons_of_mem r hx) y (mem_cons_of_mem r hy)

end Segments
