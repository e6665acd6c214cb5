import Mathlib.Data.List.Pairwise
import Mathlib.Order.Lattice

/-!
# A sweep over two lists of pieces

A piece of a linear order is given by its two ends. `sweep` goes through two lists of pieces at
once: for each piece of the first list it goes on in the second one, until a piece of it crosses
the piece of the first, or does not start before it. Nothing is assumed about the lists, so that
pieces may be empty or reversed, and out of order. For proper pieces in the order of their starts
the sweep finds out whether any two cross.
-/

namespace Sweep

open List

variable {α : Type*} [LinearOrder α]

def Crosses (a b : α × α) : Prop := b.1 < a.2 ∧ a.1 < b.2

instance (a b : α × α) : Decidable (Crosses a b) := inferInstanceAs (Decidable (_ ∧ _))

def advance (a : α × α) : List (α × α) → Bool × List (α × α)
  | [] => (false, [])
  | b :: bs =>
    if Crosses a b then (true, b :: bs)
    else if b.1 < a.1 then advance a bs
    else (false, b :: bs)

def sweep : List (α × α) → List (α × α) → Bool
  | [], _ => false
  | a :: as, bs => (advance a bs).1 || sweep as (advance a bs).2

/-- A piece of the first list and one of the second cross, and are compared: all pieces in front
of the second one start before some piece up to the first one, and not all pieces up to the second
one start before a piece in front of the first one. -/
def Meets (as bs : List (α × α)) : Prop :=
  ∃ l a l' m b m', as = l ++ a :: l' ∧ bs = m ++ b :: m' ∧ Crosses a b ∧
    (∀ c ∈ m, ∃ d ∈ l ++ [a], c.1 < d.1) ∧ ∃ c ∈ m ++ [b], ∀ d ∈ l, d.1 ≤ c.1

/-! ## What is compared with one piece -/

theorem exists_of_advance {a : α × α} {bs : List (α × α)} (h : (advance a bs).1 = false) :
    ∃ m, bs = m ++ (advance a bs).2 ∧ (∀ c ∈ m, c.1 < a.1) ∧
      ∀ c ∈ (advance a bs).2.head?, a.1 ≤ c.1 := by
  induction bs with
  | nil => exact ⟨[], rfl, fun _ h => absurd h not_mem_nil, fun _ h => by cases h⟩
  | cons b bs ih =>
    rw [advance] at h
    by_cases hcross : Crosses a b
    · rw [if_pos hcross] at h
      exact absurd h.symm Bool.false_ne_true
    · rw [if_neg hcross] at h
      rw [advance, if_neg hcross]
      by_cases hlt : b.1 < a.1
      · rw [if_pos hlt] at h ⊢
        obtain ⟨m, hbs, hm, hhead⟩ := ih h
        exact ⟨b :: m, congrArg (b :: ·) hbs, List.forall_mem_cons.2 ⟨hlt, hm⟩, hhead⟩
      · rw [if_neg hlt]
        refine ⟨[], rfl, fun _ h => absurd h not_mem_nil, ?_⟩
        rintro c ⟨⟩
        exact not_lt.1 hlt

/-- A piece is compared with the next ones up to the first that does not start before it. -/
theorem advance_iff {a : α × α} {bs : List (α × α)} :
    (advance a bs).1 = true ↔
      ∃ m b m', bs = m ++ b :: m' ∧ Crosses a b ∧ ∀ c ∈ m, c.1 < a.1 := by
  induction bs with
  | nil => simp [advance]
  | cons b bs ih =>
    rw [advance]
    split_ifs with hcross hlt
    · exact iff_of_true rfl ⟨[], b, bs, rfl, hcross, fun _ h => absurd h not_mem_nil⟩
    · rw [ih]
      constructor
      · rintro ⟨m, c, m', rfl, hc, hm⟩
        exact ⟨b :: m, c, m', rfl, hc, List.forall_mem_cons.2 ⟨hlt, hm⟩⟩
      · rintro ⟨m, c, m', heq, hc, hm⟩
        cases m with
        | nil =>
          obtain rfl := (List.cons.inj heq).1
          exact absurd hc hcross
        | cons d m =>
          obtain ⟨rfl, rfl⟩ := List.cons.inj heq
          exact ⟨m, c, m', rfl, hc, (List.forall_mem_cons.1 hm).2⟩
    · refine iff_of_false (fun h => h) ?_
      rintro ⟨m, c, m', heq, hc, hm⟩
      cases m with
      | nil =>
        obtain rfl := (List.cons.inj heq).1
        exact hcross hc
      | cons d m =>
        obtain ⟨rfl, -⟩ := List.cons.inj heq
        exact hlt (hm b mem_cons_self)

/-! ## What is compared at all -/

/-- After the pieces that start before `a` the sweep goes on with the rest. -/
theorem meets_rest_iff {a : α × α} {as m rest : List (α × α)} (hm : ∀ c ∈ m, c.1 < a.1)
    (hrest : ∀ c ∈ rest.head?, a.1 ≤ c.1) :
    Meets as rest ↔
      ∃ l x l' k b k', as = l ++ x :: l' ∧ m ++ rest = k ++ b :: k' ∧ Crosses x b ∧
        (∀ c ∈ k, ∃ d ∈ a :: (l ++ [x]), c.1 < d.1) ∧
        ∃ c ∈ k ++ [b], ∀ d ∈ a :: l, d.1 ≤ c.1 := by
  constructor
  · rintro ⟨l, x, l', k, b, k', has, rfl, hcross, hbefore, c, hc, hle⟩
    refine ⟨l, x, l', m ++ k, b, k', has, (append_assoc ..).symm, hcross, ?_, ?_⟩
    · intro c hc
      rcases List.mem_append.1 hc with hc | hc
      · exact ⟨a, mem_cons_self, hm c hc⟩
      · obtain ⟨d, hd, hlt⟩ := hbefore c hc
        exact ⟨d, mem_cons_of_mem a hd, hlt⟩
    · -- The piece that was given, or the one where the list was left.
      rw [append_assoc]
      rcases le_or_gt a.1 c.1 with hac | hca
      · exact ⟨c, mem_append_right m hc, List.forall_mem_cons.2 ⟨hac, hle⟩⟩
      · obtain ⟨h, hhead, hmem⟩ : ∃ h, h ∈ (k ++ b :: k').head? ∧ h ∈ k ++ [b] := by
          cases k with
          | nil => exact ⟨b, rfl, mem_singleton_self b⟩
          | cons d k => exact ⟨d, rfl, mem_cons_self⟩
        have hstop := hrest h hhead
        exact ⟨h, mem_append_right m hmem, List.forall_mem_cons.2
          ⟨hstop, fun d hd => (hle d hd).trans (hca.le.trans hstop)⟩⟩
  · rintro ⟨l, x, l', k, b, k', has, hsplit, hcross, hbefore, c, hc, hle⟩
    obtain ⟨hac, hle⟩ := List.forall_mem_cons.1 hle
    have hcm : c ∉ m := fun hmem => absurd (hm c hmem) (not_lt.2 hac)
    obtain ⟨k, rfl, rfl⟩ : ∃ j, k = m ++ j ∧ rest = j ++ b :: k' := by
      rw [append_cons] at hsplit
      rcases List.append_eq_append_iff.1 hsplit with ⟨j, hj, hrest⟩ | ⟨j, hj, -⟩
      · rcases eq_nil_or_concat j with rfl | ⟨j, y, rfl⟩
        · rw [List.append_nil] at hj
          exact absurd (hj ▸ hc) hcm
        · rw [concat_eq_append, ← append_assoc] at hj
          obtain ⟨hk, hy⟩ := append_inj' hj rfl
          obtain rfl := (List.cons.inj hy).1
          exact ⟨j, hk, by rw [hrest, concat_eq_append, append_assoc]; rfl⟩
      · exact absurd (hj ▸ mem_append_left j hc) hcm
    rw [append_assoc] at hc
    refine ⟨l, x, l', k, b, k', has, rfl, hcross, fun e he => ?_, c,
      (List.mem_append.1 hc).resolve_left hcm, hle⟩
    -- The first piece that is left does not start before `a`, so another one is behind it.
    cases k with
    | nil => exact absurd he not_mem_nil
    | cons h k =>
      have hstop := hrest h rfl
      obtain ⟨d, hd, hlt⟩ := hbefore h (mem_append_right m mem_cons_self)
      have hdmem : d ∈ l ++ [x] := by
        rcases List.mem_cons.1 hd with rfl | hd
        · exact absurd hlt (not_lt.2 hstop)
        · exact hd
      obtain ⟨d', hd', hlt'⟩ := hbefore e (mem_append_right m he)
      rcases List.mem_cons.1 hd' with rfl | hd'
      · exact ⟨d, hdmem, hlt'.trans (hstop.trans_lt hlt)⟩
      · exact ⟨d', hd', hlt'⟩

/-- The sweep finds out whether a piece meets another one. -/
theorem sweep_iff {as bs : List (α × α)} : sweep as bs = true ↔ Meets as bs := by
  induction as generalizing bs with
  | nil =>
    refine ⟨fun h => absurd h Bool.false_ne_true, ?_⟩
    rintro ⟨l, a, l', m, b, m', has, -⟩
    exact absurd has (by simp)
  | cons a as ih =>
    rw [sweep, Bool.or_eq_true]
    cases hfirst : (advance a bs).1 with
    | true =>
      refine iff_of_true (Or.inl rfl) ?_
      obtain ⟨m, b, m', rfl, hcross, hm⟩ := advance_iff.1 hfirst
      exact ⟨[], a, as, m, b, m', rfl, rfl, hcross,
        fun c hc => ⟨a, mem_singleton_self a, hm c hc⟩, b,
        mem_append_right m (mem_singleton_self b),
        fun d hd => absurd hd not_mem_nil⟩
    | false =>
      obtain ⟨m, hbs, hm, hhead⟩ := exists_of_advance hfirst
      have hnone : ¬∃ m b m', bs = m ++ b :: m' ∧ Crosses a b ∧ ∀ c ∈ m, c.1 < a.1 := by
        rw [← advance_iff, hfirst]
        exact Bool.false_ne_true
      rw [or_iff_right Bool.false_ne_true, ih, meets_rest_iff hm hhead, ← hbs]
      constructor
      · rintro ⟨l, x, l', k, b, k', rfl, hsplit, hcross, hbefore, hafter⟩
        exact ⟨a :: l, x, l', k, b, k', rfl, hsplit, hcross, hbefore, hafter⟩
      · rintro ⟨l, x, l', k, b, k', has, hsplit, hcross, hbefore, hafter⟩
        cases l with
        | nil =>
          obtain rfl := (List.cons.inj has).1
          refine absurd ⟨k, b, k', hsplit, hcross, fun c hc => ?_⟩ hnone
          obtain ⟨d, hd, hlt⟩ := hbefore c hc
          exact List.mem_singleton.1 hd ▸ hlt
        | cons d l =>
          obtain ⟨rfl, hrest⟩ := List.cons.inj has
          exact ⟨l, x, l', k, b, k', hrest, hsplit, hcross, hbefore, hafter⟩

/-! ## Proper pieces in order -/

structure Ordered (as : List (α × α)) : Prop where
  proper : ∀ a ∈ as, a.1 < a.2
  sorted : as.Pairwise fun a b => a.1 ≤ b.1

/-- Proper pieces in order meet if any two cross. -/
theorem meets_iff_of_ordered {as bs : List (α × α)} (has : Ordered as) (hbs : Ordered bs) :
    Meets as bs ↔ ∃ a ∈ as, ∃ b ∈ bs, Crosses a b := by
  constructor
  · rintro ⟨l, a, l', m, b, m', rfl, rfl, hcross, -⟩
    exact ⟨a, mem_append_right l mem_cons_self, b,
      mem_append_right m mem_cons_self, hcross⟩
  · rintro ⟨a, ha, b, hb, hcross⟩
    obtain ⟨a, hfind⟩ : ∃ a, as.find? (fun a => bs.any fun b => Crosses a b) = some a := by
      rw [← Option.isSome_iff_exists, find?_isSome]
      exact ⟨a, ha, List.any_eq_true.2 ⟨b, hb, decide_eq_true hcross⟩⟩
    obtain ⟨hany, l, l', rfl, hl⟩ := List.find?_eq_some_iff_append.1 hfind
    obtain ⟨b, hfind⟩ : ∃ b, bs.find? (fun b => Crosses a b) = some b := by
      rw [← Option.isSome_iff_exists, find?_isSome]
      exact List.any_eq_true.1 hany
    obtain ⟨hcross, m, m', rfl, hm⟩ := List.find?_eq_some_iff_append.1 hfind
    have hcross : Crosses a b := of_decide_eq_true hcross
    have hl : ∀ d ∈ l, ¬Crosses d b := fun d hd hcross => by
      have hnot := hl d hd
      rw [Bool.not_eq_true', any_eq_false] at hnot
      exact hnot b (mem_append_right m mem_cons_self) (decide_eq_true hcross)
    have hm : ∀ c ∈ m, ¬Crosses a c := fun c hc => by simpa using hm c hc
    have hsorted := (List.pairwise_append.1 has.sorted).2.2
    have hsorted' := (List.pairwise_append.1 hbs.sorted).2.2
    refine ⟨l, a, l', m, b, m', rfl, rfl, hcross, fun c hc => ?_, b,
      mem_append_right m (mem_singleton_self b), fun d hd => ?_⟩
    · refine ⟨a, mem_append_right l (mem_singleton_self a), ?_⟩
      by_contra hle
      rw [not_lt] at hle
      have hstart := (hsorted' c hc b mem_cons_self).trans_lt hcross.1
      exact hm c hc ⟨hstart, hle.trans_lt (hbs.proper c (mem_append_left _ hc))⟩
    · by_contra hlt
      rw [not_le] at hlt
      have hstart := (hsorted d hd a mem_cons_self).trans_lt hcross.2
      exact hl d hd ⟨hlt.trans (has.proper d (mem_append_left _ hd)), hstart⟩

end Sweep
