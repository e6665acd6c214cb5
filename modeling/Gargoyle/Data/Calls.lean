import Mathlib.Data.List.Basic

/-!
# Loops that may fail

A loop that yields `none` as soon as one of its rounds does. The rounds may depend on a
number of calls that they are allowed to make: a loop returns for some number if every
round does, because more calls do not change a result.
-/

namespace List

variable {σ α : Type*} {f g : σ → α → Option σ} {l : List α} {s s' : σ}

theorem foldlM_option_cons {a : α} :
    (a :: l).foldlM f s = some s' ↔ ∃ t, f s a = some t ∧ l.foldlM f t = some s' := by
  rw [List.foldlM_cons]
  exact Option.bind_eq_some_iff

theorem foldlM_option_mono (h : ∀ s a s', f s a = some s' → g s a = some s')
    (hf : l.foldlM f s = some s') : l.foldlM g s = some s' := by
  induction l generalizing s with
  | nil => exact hf
  | cons a l ih =>
    obtain ⟨t, ht, hrest⟩ := foldlM_option_cons.1 hf
    exact foldlM_option_cons.2 ⟨t, h s a t ht, ih hrest⟩

theorem foldlM_option_invariant {P : σ → Prop}
    (hstep : ∀ s, ∀ a ∈ l, ∀ s', P s → f s a = some s' → P s') (hP : P s)
    (hf : l.foldlM f s = some s') : P s' := by
  induction l generalizing s with
  | nil =>
    obtain rfl := Option.some.inj hf
    exact hP
  | cons a l ih =>
    obtain ⟨t, ht, hrest⟩ := foldlM_option_cons.1 hf
    refine ih (fun s b hb => hstep s b (List.mem_cons_of_mem _ hb)) ?_ hrest
    exact hstep s a List.mem_cons_self t hP ht

theorem foldlM_option_forall {P : σ → Prop} {Q : α → Prop}
    (hstep : ∀ s a s', P s → f s a = some s' → P s' ∧ Q a) (hP : P s)
    (hf : l.foldlM f s = some s') : P s' ∧ ∀ a ∈ l, Q a := by
  induction l generalizing s with
  | nil =>
    obtain rfl := Option.some.inj hf
    exact ⟨hP, fun a ha => nomatch ha⟩
  | cons a l ih =>
    obtain ⟨t, ht, hrest⟩ := foldlM_option_cons.1 hf
    obtain ⟨hPt, hQ⟩ := hstep s a t hP ht
    obtain ⟨hPs', hQs⟩ := ih hPt hrest
    exact ⟨hPs', List.forall_mem_cons.2 ⟨hQ, hQs⟩⟩

theorem foldlM_option_mem {Q : α → σ → Prop} (hstep : ∀ s a s', f s a = some s' → Q a s')
    (hkeep : ∀ s b s' a, f s b = some s' → Q a s → Q a s') (hf : l.foldlM f s = some s') :
    ∀ a ∈ l, Q a s' := by
  induction l generalizing s with
  | nil => exact fun a ha => nomatch ha
  | cons a l ih =>
    obtain ⟨t, ht, hrest⟩ := foldlM_option_cons.1 hf
    refine List.forall_mem_cons.2 ⟨?_, ih hrest⟩
    exact foldlM_option_invariant (fun s b _ s' hs hb => hkeep s b s' a hb hs)
      (hstep s a t ht) hrest

theorem exists_foldlM_option {f : ℕ → σ → α → Option σ} {P : σ → Prop}
    (hmono : ∀ m n, m ≤ n → ∀ s a s', f m s a = some s' → f n s a = some s')
    (hstep : ∀ s, ∀ a ∈ l, P s → ∃ n s', f n s a = some s' ∧ P s') (hP : P s) :
    ∃ n s', l.foldlM (f n) s = some s' ∧ P s' := by
  induction l generalizing s with
  | nil => exact ⟨0, s, rfl, hP⟩
  | cons a l ih =>
    obtain ⟨n, t, ht, hPt⟩ := hstep s a List.mem_cons_self hP
    obtain ⟨n', s', hs', hPs'⟩ := ih (fun s b hb => hstep s b (List.mem_cons_of_mem _ hb)) hPt
    refine ⟨max n n', s', foldlM_option_cons.2 ⟨t, ?_, ?_⟩, hPs'⟩
    · exact hmono n _ (Nat.le_max_left n n') s a t ht
    · exact foldlM_option_mono (hmono n' _ (Nat.le_max_right n n')) hs'

end List
