import Mathlib.Order.Lattice
import Mathlib.Data.List.Basic
import Mathlib.Data.Nat.Find

/-!
# Catching up in rounds

A book has an entry for each of its keys and a time at which its running period
is due to end. In a round the period is closed in every entry and the next one
begins; `catchUp now n` makes rounds until the next period ends after `now`, at
most `n` of them. Entries that are not alive any more are swept out, but only in
rounds after which nothing ends before `now`.

When an entry that is dead after a round stays dead, the rounds in which the book
is swept do not matter: catching up in two steps is catching up at once
(`catchUp_catchUp`).
-/

@[ext] structure Book (K V T : Type*) where
  keys : List K
  entry : K → Option V
  previous : T
  due : T

structure Rounds (V T : Type*) where
  next : T → T
  close : T → T → V → V
  alive : V → Bool

namespace Rounds

variable {K V T : Type*} (R : Rounds V T)

def advance (B : Book K V T) : Book K V T where
  keys := B.keys
  entry := fun k => (B.entry k).map (R.close B.previous B.due)
  previous := B.due
  due := R.next B.due

def sweep (B : Book K V T) : Book K V T :=
  { B with
    keys := B.keys.filter fun k => (B.entry k).any R.alive
    entry := fun k => (B.entry k).filter R.alive }

/-- The book after `m` rounds, of which the last one sweeps. -/
def caughtUp (m : ℕ) (B : Book K V T) : Book K V T :=
  if m = 0 then B else R.sweep (R.advance^[m] B)

theorem caughtUp_succ (m : ℕ) (B : Book K V T) :
    R.caughtUp (m + 1) B = R.sweep (R.advance^[m + 1] B) := if_neg (Nat.succ_ne_zero m)

/-- `P` holds of every entry. -/
def All (P : V → Prop) (B : Book K V T) : Prop := ∀ k v, B.entry k = some v → P v

/-- Closing a period keeps `P`, and an entry with `P` that is dead stays dead. -/
structure Lasting (P : V → Prop) : Prop where
  close : ∀ {v}, P v → ∀ a b, P (R.close a b v)
  dead : ∀ {v}, P v → R.alive v = false → ∀ a b, R.alive (R.close a b v) = false

section Sweep

variable {R} {P : V → Prop} {B : Book K V T}

theorem all_advance_of_close (h : All (fun v => ∀ a b, P (R.close a b v)) B) :
    All P (R.advance B) := by
  intro k v hv
  obtain ⟨w, hw, rfl⟩ := Option.map_eq_some_iff.1 hv
  exact h k w hw _ _

theorem Lasting.all_close (hP : R.Lasting P) (h : All P B) :
    All (fun v => ∀ a b, P (R.close a b v)) B :=
  fun k v hv a b => hP.close (h k v hv) a b

theorem all_sweep (h : All P B) : All P (R.sweep B) := by
  intro k v hv
  exact h k v (Option.filter_eq_some_iff.1 hv).1

theorem sweep_sweep (B : Book K V T) : R.sweep (R.sweep B) = R.sweep B := by
  ext1
  · simp only [sweep, List.filter_filter]
    refine List.filter_congr fun k _ => ?_
    cases B.entry k with
    | none => rfl
    | some v => cases h : R.alive v <;> simp [Option.filter, h]
  · funext k
    simp [sweep, Option.filter_filter]
  · rfl
  · rfl

/-- A book that is swept between two rounds is swept after them. -/
theorem Lasting.sweep_advance_sweep (hP : R.Lasting P) (h : All P B) :
    R.sweep (R.advance (R.sweep B)) = R.sweep (R.advance B) := by
  have hcases : ∀ k, B.entry k = none ∨ (∃ v, B.entry k = some v ∧ R.alive v = true) ∨
      ∃ v, B.entry k = some v ∧ R.alive v = false ∧
        R.alive (R.close B.previous B.due v) = false := by
    intro k
    cases hk : B.entry k with
    | none => exact .inl rfl
    | some v =>
      cases halive : R.alive v with
      | true => exact .inr (.inl ⟨v, rfl, halive⟩)
      | false => exact .inr (.inr ⟨v, rfl, halive, hP.dead (h k v hk) halive _ _⟩)
  ext1
  · simp only [sweep, advance, List.filter_filter]
    refine List.filter_congr fun k _ => ?_
    rcases hcases k with hk | ⟨v, hk, halive⟩ | ⟨v, hk, hdead, hstays⟩
    · simp [hk]
    · simp [hk, Option.filter, halive]
    · simp [hk, Option.filter, hdead, hstays]
  · funext k
    simp only [sweep, advance]
    rcases hcases k with hk | ⟨v, hk, halive⟩ | ⟨v, hk, hdead, hstays⟩
    · simp [hk]
    · simp [hk, Option.filter, halive]
    · simp [hk, Option.filter, hdead, hstays]
  · rfl
  · rfl

theorem Lasting.sweep_iterate_sweep (hP : R.Lasting P) (m : ℕ) (h : All P B) :
    R.sweep (R.advance^[m] (R.sweep B)) = R.sweep (R.advance^[m] B) := by
  induction m generalizing B with
  | zero => exact sweep_sweep B
  | succ m ih =>
    have hadvance : ∀ {B' : Book K V T}, All P B' → All P (R.advance B') :=
      fun hB' => all_advance_of_close (hP.all_close hB')
    calc R.sweep (R.advance^[m + 1] (R.sweep B))
        = R.sweep (R.advance^[m] (R.advance (R.sweep B))) := rfl
      _ = R.sweep (R.advance^[m] (R.sweep (R.advance (R.sweep B)))) :=
          (ih (hadvance (all_sweep h))).symm
      _ = R.sweep (R.advance^[m] (R.sweep (R.advance B))) := by rw [hP.sweep_advance_sweep h]
      _ = R.sweep (R.advance^[m] (R.advance B)) := ih (hadvance h)

theorem Lasting.all_iterate (hP : R.Lasting P)
    (h : All (fun v => ∀ a b, P (R.close a b v)) B) (m : ℕ) :
    All P (R.advance^[m + 1] B) := by
  induction m with
  | zero => exact all_advance_of_close h
  | succ m ih =>
    rw [Function.iterate_succ_apply']
    exact all_advance_of_close (hP.all_close ih)

theorem due_caughtUp (m : ℕ) (B : Book K V T) : (R.caughtUp m B).due = R.next^[m] B.due := by
  have hdue : (R.advance^[m] B).due = R.next^[m] B.due := by
    induction m generalizing B with
    | zero => rfl
    | succ m ih => exact ih (R.advance B)
  unfold caughtUp
  split_ifs with hm
  · rw [hm]
    rfl
  · exact hdue

theorem Lasting.caughtUp_caughtUp (hP : R.Lasting P)
    (h : All (fun v => ∀ a b, P (R.close a b v)) B) (m m' : ℕ) :
    R.caughtUp m' (R.caughtUp m B) = R.caughtUp (m + m') B := by
  cases m with
  | zero =>
    rw [Nat.zero_add]
    rfl
  | succ m =>
    cases m' with
    | zero => rfl
    | succ m' =>
      have hsum : R.caughtUp (m + 1 + (m' + 1)) B =
          R.sweep (R.advance^[m' + 1] (R.advance^[m + 1] B)) := by
        rw [← Nat.add_assoc, caughtUp_succ, ← Function.iterate_add_apply]
        congr 2
        omega
      rw [hsum, caughtUp_succ, caughtUp_succ, hP.sweep_iterate_sweep _ (hP.all_iterate h m)]

end Sweep

variable [LinearOrder T]

/-- One round of catching up with `now`. -/
def round (now : T) (B : Book K V T) : Book K V T :=
  if now ≤ (R.advance B).due then R.sweep (R.advance B) else R.advance B

/-- At most `n` rounds. -/
def catchUp (now : T) : ℕ → Book K V T → Book K V T
  | 0, B => B
  | n + 1, B => if B.due ≤ now then catchUp now n (R.round now B) else B

variable {R} {P : V → Prop} {B : Book K V T} {now : T}

theorem Lasting.catchUp_eq (hP : R.Lasting P) (h : All (fun v => ∀ a b, P (R.close a b v)) B)
    {m n : ℕ} (hmn : m ≤ n) (hbefore : ∀ i < m, R.next^[i] B.due ≤ now)
    (hafter : now < R.next^[m] B.due) : R.catchUp now n B = R.caughtUp m B := by
  induction m generalizing B n with
  | zero =>
    cases n with
    | zero => rfl
    | succ n => exact if_neg (not_le.2 hafter)
  | succ m ih =>
    obtain ⟨n, rfl⟩ : ∃ n', n = n' + 1 := ⟨n - 1, by omega⟩
    have hadvance : All P (R.advance B) := all_advance_of_close h
    have hdue : B.due ≤ now := hbefore 0 (Nat.succ_pos m)
    have hbefore' : ∀ i < m, R.next^[i] (R.advance B).due ≤ now :=
      fun i hi => hbefore (i + 1) (by omega)
    rw [catchUp, if_pos hdue, round]
    split_ifs with hsweep
    · rw [ih (hP.all_close (all_sweep hadvance)) (by omega) hbefore' hafter, caughtUp_succ]
      cases m with
      | zero => rfl
      | succ m => exact hP.sweep_iterate_sweep (m + 1) hadvance
    · rw [ih (hP.all_close hadvance) (by omega) hbefore' hafter, caughtUp_succ]
      cases m with
      | zero => exact absurd hafter.le hsweep
      | succ m => rfl

theorem all_catchUp (hclose : ∀ {v}, P v → ∀ a b, P (R.close a b v)) (h : All P B) (n : ℕ) :
    All P (R.catchUp now n B) := by
  induction n generalizing B with
  | zero => exact h
  | succ n ih =>
    have hadvance : All P (R.advance B) :=
      all_advance_of_close fun k v hv a b => hclose (h k v hv) a b
    rw [catchUp]
    split_ifs
    · apply ih
      unfold round
      split_ifs
      · exact all_sweep hadvance
      · exact hadvance
    · exact h

/-- Catching up twice is catching up once, at the later time. -/
theorem Lasting.catchUp_catchUp (hP : R.Lasting P)
    (h : All (fun v => ∀ a b, P (R.close a b v)) B) {now₁ now₂ : T} (hle : now₁ ≤ now₂) {n : ℕ}
    (hfew : ∃ m ≤ n, now₂ < R.next^[m] B.due) :
    R.catchUp now₂ n (R.catchUp now₁ n B) = R.catchUp now₂ n B := by
  classical
  obtain ⟨m, hm, hmlt⟩ := hfew
  have hsome₂ : ∃ m, now₂ < R.next^[m] B.due := ⟨m, hmlt⟩
  have hsome₁ : ∃ m, now₁ < R.next^[m] B.due := ⟨m, hle.trans_lt hmlt⟩
  -- the numbers of rounds for the two times
  have hm₂ : Nat.find hsome₂ ≤ n := (Nat.find_min' hsome₂ hmlt).trans hm
  have hm₁ : Nat.find hsome₁ ≤ Nat.find hsome₂ :=
    Nat.find_min' hsome₁ (hle.trans_lt (Nat.find_spec hsome₂))
  obtain ⟨d, hd⟩ := Nat.exists_eq_add_of_le hm₁
  have hbefore₂ : ∀ i < Nat.find hsome₂, R.next^[i] B.due ≤ now₂ :=
    fun i hi => not_lt.1 (Nat.find_min hsome₂ hi)
  have hfirst := hP.catchUp_eq h (hm₁.trans hm₂)
    (fun i hi => not_lt.1 (Nat.find_min hsome₁ hi)) (Nat.find_spec hsome₁)
  have hdue : ∀ i, R.next^[i] (R.caughtUp (Nat.find hsome₁) B).due =
      R.next^[Nat.find hsome₁ + i] B.due := by
    intro i
    rw [due_caughtUp, ← Function.iterate_add_apply, Nat.add_comm]
  have hsecond : R.catchUp now₂ n (R.caughtUp (Nat.find hsome₁) B) =
      R.caughtUp d (R.caughtUp (Nat.find hsome₁) B) := by
    refine hP.catchUp_eq ?_ (by omega) (fun i hi => ?_) ?_
    · intro k v hv
      unfold caughtUp at hv
      split_ifs at hv with hzero
      · exact h k v hv
      · obtain ⟨i, hi⟩ := Nat.exists_eq_succ_of_ne_zero hzero
        rw [hi] at hv
        exact hP.all_close (all_sweep (hP.all_iterate h i)) k v hv
    · rw [hdue]
      exact hbefore₂ _ (by omega)
    · rw [hdue, ← hd]
      exact Nat.find_spec hsome₂
  rw [hfirst, hsecond, hP.caughtUp_caughtUp h, ← hd]
  exact (hP.catchUp_eq h hm₂ hbefore₂ (Nat.find_spec hsome₂)).symm

theorem lt_due_catchUp {n : ℕ} (hfew : ∃ m ≤ n, now < R.next^[m] B.due) :
    now < (R.catchUp now n B).due := by
  induction n generalizing B with
  | zero =>
    obtain ⟨m, hm, hlt⟩ := hfew
    obtain rfl := Nat.le_zero.1 hm
    exact hlt
  | succ n ih =>
    rw [catchUp]
    split_ifs with hdue
    · obtain ⟨m, hm, hlt⟩ := hfew
      cases m with
      | zero => exact absurd hlt (not_lt.2 hdue)
      | succ m =>
        refine ih ⟨m, by omega, ?_⟩
        unfold round
        split_ifs
        · exact hlt
        · exact hlt
    · exact not_le.1 hdue

/-- Catching up gets past `now` only when there are few periods to close. -/
theorem lt_due_catchUp_iff {n : ℕ} :
    now < (R.catchUp now n B).due ↔ ∃ m ≤ n, now < R.next^[m] B.due := by
  refine ⟨fun hlt => ?_, lt_due_catchUp⟩
  induction n generalizing B with
  | zero => exact ⟨0, le_rfl, hlt⟩
  | succ n ih =>
    rw [catchUp] at hlt
    split_ifs at hlt with hdue
    · obtain ⟨m, hm, hlater⟩ := ih hlt
      refine ⟨m + 1, by omega, ?_⟩
      have hround : (R.round now B).due = R.next B.due := by
        unfold round
        split_ifs
        · rfl
        · rfl
      rw [hround] at hlater
      exact hlater
    · exact ⟨0, Nat.zero_le _, not_le.1 hdue⟩

end Rounds
