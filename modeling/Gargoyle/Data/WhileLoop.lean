import Mathlib.Logic.Function.Iterate
import Mathlib.Order.Basic

/-!
# While loops

`whileLoop guard body n s` makes rounds from the state `s` while the guard holds,
at most `n` of them, and yields `none` if the guard still holds or a round does
not return. More rounds do not change a result, so that a loop ends if it yields
a result for some number of rounds.
-/

section WhileLoop

variable {σ : Type*} {guard : σ → Prop} [DecidablePred guard] {body body' : σ → Option σ}
  {s s' : σ} {n m : ℕ}

/-- `while (guard) body`, for a bounded number of rounds. -/
def whileLoop (guard : σ → Prop) [DecidablePred guard] (body : σ → Option σ) : ℕ → σ → Option σ
  | 0, _ => none
  | n + 1, s => if guard s then (body s).bind (whileLoop guard body n) else some s

theorem whileLoop_of_not (h : ¬ guard s) (n : ℕ) : whileLoop guard body (n + 1) s = some s :=
  if_neg h

theorem whileLoop_of_guard (h : guard s) (n : ℕ) :
    whileLoop guard body (n + 1) s = (body s).bind (whileLoop guard body n) :=
  if_pos h

theorem whileLoop_mono (hbody : ∀ {t t'}, body t = some t' → body' t = some t') (hle : n ≤ m)
    (h : whileLoop guard body n s = some s') : whileLoop guard body' m s = some s' := by
  induction n generalizing m s with
  | zero => cases h
  | succ n ih =>
    obtain ⟨m, rfl⟩ : ∃ k, m = k + 1 := ⟨m - 1, by omega⟩
    by_cases hguard : guard s
    · rw [whileLoop_of_guard hguard] at h ⊢
      obtain ⟨t, ht, hrest⟩ := Option.bind_eq_some_iff.1 h
      rw [hbody ht, Option.bind_some]
      exact ih (by omega) hrest
    · rw [whileLoop_of_not hguard] at h ⊢
      exact h

theorem whileLoop_of_stuck (hguard : guard s) (hbody : body s = some s) (n : ℕ) :
    whileLoop guard body n s = none := by
  induction n with
  | zero => rfl
  | succ n ih => rw [whileLoop_of_guard hguard, hbody, Option.bind_some, ih]

/-- A loop ends exactly when some number of rounds can be made that end in a state
without the guard. -/
theorem whileLoop_ends_iff :
    (∃ n s', whileLoop guard body n s = some s') ↔
      ∃ i s', (Option.bind · body)^[i] (some s) = some s' ∧ ¬ guard s' := by
  constructor
  · rintro ⟨n, s', h⟩
    induction n generalizing s with
    | zero => cases h
    | succ n ih =>
      by_cases hguard : guard s
      · rw [whileLoop_of_guard hguard] at h
        obtain ⟨t, ht, hrest⟩ := Option.bind_eq_some_iff.1 h
        obtain ⟨i, t', hi, hstop⟩ := ih hrest
        refine ⟨i + 1, t', ?_, hstop⟩
        rwa [Function.iterate_succ_apply, Option.bind_some, ht]
      · exact ⟨0, s, rfl, hguard⟩
  · rintro ⟨i, t', hi, hstop⟩
    induction i generalizing s with
    | zero =>
      obtain rfl := Option.some.inj hi
      exact ⟨1, s, whileLoop_of_not hstop 0⟩
    | succ i ih =>
      by_cases hguard : guard s
      · rw [Function.iterate_succ_apply, Option.bind_some] at hi
        cases ht : body s with
        | none =>
          rw [ht, Function.iterate_fixed rfl] at hi
          cases hi
        | some t =>
          rw [ht] at hi
          obtain ⟨n, s', h⟩ := ih hi
          exact ⟨n + 1, s', by rw [whileLoop_of_guard hguard, ht, Option.bind_some, h]⟩
      · exact ⟨1, s, whileLoop_of_not hguard 0⟩

end WhileLoop
