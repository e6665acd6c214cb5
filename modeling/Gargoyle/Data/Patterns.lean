import Mathlib.Computability.RegularExpressions

/-!
# Patterns

The patterns that scripts use are written with a few more signs than regular expressions: classes of
characters, words, and parts that may be missing. `rmatch` decides whether a whole word matches, and
the lemmas here take a word that matches apart.
-/

namespace Gargoyle

namespace Patterns

open RegularExpression

variable {α : Type*}

def oneOf (cs : List α) : RegularExpression α := cs.foldr (fun c P => char c + P) 0

def oneOfWords (ws : List (List α)) : RegularExpression α :=
  ws.foldr (fun w P => w.foldr (fun c Q => char c * Q) 1 + P) 0

def optional (P : RegularExpression α) : RegularExpression α := 1 + P

section Matches

variable [DecidableEq α] {P Q : RegularExpression α} {w : List α}

theorem rmatch_oneOf_iff {cs : List α} : (oneOf cs).rmatch w ↔ ∃ c ∈ cs, w = [c] := by
  induction cs with
  | nil => simp [oneOf, zero_rmatch]
  | cons c cs ih =>
    rw [oneOf, List.foldr_cons, ← oneOf, add_rmatch_iff, char_rmatch_iff, ih]
    simp

theorem rmatch_word_iff {v : List α} :
    (v.foldr (fun c Q => char c * Q) (1 : RegularExpression α)).rmatch w ↔ w = v := by
  induction v generalizing w with
  | nil => rw [List.foldr_nil, one_rmatch_iff]
  | cons c v ih =>
    rw [List.foldr_cons, mul_rmatch_iff]
    constructor
    · rintro ⟨t, u, rfl, ht, hu⟩
      rw [(char_rmatch_iff ..).1 ht, ih.1 hu]
      rfl
    · rintro rfl
      exact ⟨[c], v, rfl, (char_rmatch_iff ..).2 rfl, ih.2 rfl⟩

theorem rmatch_oneOfWords_iff {ws : List (List α)} : (oneOfWords ws).rmatch w ↔ w ∈ ws := by
  induction ws with
  | nil => simp [oneOfWords, zero_rmatch]
  | cons v ws ih =>
    rw [oneOfWords, List.foldr_cons, ← oneOfWords, add_rmatch_iff, rmatch_word_iff, ih,
      List.mem_cons]

theorem rmatch_optional_iff : (optional P).rmatch w ↔ w = [] ∨ P.rmatch w := by
  rw [optional, add_rmatch_iff, one_rmatch_iff]

theorem rmatch_star_oneOf {cs : List α} (h : (star (oneOf cs)).rmatch w) : ∀ c ∈ w, c ∈ cs := by
  obtain ⟨ws, rfl, hws⟩ := (star_rmatch_iff ..).1 h
  intro c hc
  obtain ⟨v, hv, hcv⟩ := List.mem_flatten.1 hc
  obtain ⟨d, hd, rfl⟩ := rmatch_oneOf_iff.1 (hws v hv).2
  rwa [List.mem_singleton.1 hcv]

end Matches

end Patterns

end Gargoyle
