import Mathlib.Data.List.Basic

/-!
# Runs of the escape character

A text is taken apart at the characters that are not the escape character: each of them stands behind a
run of escape characters, which may be empty, and one more run is at the end of the text. `joinRuns` is
what a reader returns that takes one run after the other.
-/

namespace EscapeRuns

open List

section Runs

variable {α : Type*} [DecidableEq α] (esc : α)

def escapeRuns : List α → List (ℕ × α) × ℕ
  | [] => ([], 0)
  | c :: s =>
    if c = esc then
      match escapeRuns s with
      | ([], last) => ([], last + 1)
      | (run :: runs, last) => ((run.1 + 1, run.2) :: runs, last)
    else ((0, c) :: (escapeRuns s).1, (escapeRuns s).2)

def ofRuns : List (ℕ × α) → ℕ → List α
  | [], last => List.replicate last esc
  | run :: runs, last => List.replicate run.1 esc ++ run.2 :: ofRuns runs last

theorem ofRuns_escapeRuns (s : List α) : ofRuns esc (escapeRuns esc s).1 (escapeRuns esc s).2 = s := by
  induction s with
  | nil => rfl
  | cons c s ih =>
    rw [escapeRuns]
    split_ifs with hc
    · subst hc
      cases hruns : escapeRuns c s with
      | mk runs last =>
        rw [hruns] at ih
        cases runs with
        | nil => exact congrArg (c :: ·) ih
        | cons run runs => exact congrArg (c :: ·) ih
    · exact congrArg (c :: ·) ih

theorem ne_of_mem_escapeRuns {s : List α} {run : ℕ × α} (h : run ∈ (escapeRuns esc s).1) :
    run.2 ≠ esc := by
  induction s generalizing run with
  | nil => cases h
  | cons c s ih =>
    rw [escapeRuns] at h
    split_ifs at h with hc
    · cases hruns : escapeRuns esc s with
      | mk runs last =>
        rw [hruns] at h ih
        cases runs with
        | nil => cases h
        | cons first runs =>
          rcases List.mem_cons.1 h with rfl | hmem
          · exact @ih first mem_cons_self
          · exact ih (mem_cons_of_mem _ hmem)
    · rcases List.mem_cons.1 h with rfl | hmem
      · exact hc
      · exact ih hmem

omit [DecidableEq α] in
theorem mem_ofRuns {runs : List (ℕ × α)} {run : ℕ × α} (h : run ∈ runs) (last : ℕ) :
    run.2 ∈ ofRuns esc runs last := by
  induction runs with
  | nil => cases h
  | cons first runs ih =>
    rw [ofRuns, mem_append, mem_cons]
    rcases List.mem_cons.1 h with rfl | hmem
    · exact .inr (.inl rfl)
    · exact .inr (.inr (ih hmem))

end Runs

section Join

variable {α β : Type*}

def joinRuns (f : ℕ × α → Option (List β)) (last : Option (List β)) :
    List (ℕ × α) → Option (List β)
  | [] => last
  | run :: runs => (f run).bind fun s => (joinRuns f last runs).map (s ++ ·)

variable {f g : ℕ × α → Option (List β)} {last last' : Option (List β)} {runs : List (ℕ × α)}

theorem joinRuns_eq_none :
    joinRuns f last runs = none ↔ (∃ run ∈ runs, f run = none) ∨ last = none := by
  induction runs with
  | nil => simp [joinRuns]
  | cons run runs ih =>
    rw [joinRuns]
    cases hrun : f run with
    | none =>
      rw [Option.bind_none]
      exact iff_of_true rfl (Or.inl ⟨run, mem_cons_self, hrun⟩)
    | some s =>
      rw [Option.bind_some, Option.map_eq_none_iff, ih, exists_mem_cons_iff, hrun]
      simp

theorem mem_joinRuns {s : List β} (hs : joinRuns f (some []) runs = some s) {x : β} (hx : x ∈ s) :
    ∃ run ∈ runs, ∃ t, f run = some t ∧ x ∈ t := by
  induction runs generalizing s with
  | nil =>
    rw [joinRuns, Option.some.injEq] at hs
    subst hs
    cases hx
  | cons run runs ih =>
    rw [joinRuns, Option.bind_eq_some_iff] at hs
    obtain ⟨t, ht, hs⟩ := hs
    rw [Option.map_eq_some_iff] at hs
    obtain ⟨rest, hrest, rfl⟩ := hs
    rcases List.mem_append.1 hx with hmem | hmem
    · exact ⟨run, mem_cons_self, t, ht, hmem⟩
    · obtain ⟨run', hrun', t', ht', hx'⟩ := ih hrest hmem
      exact ⟨run', mem_cons_of_mem _ hrun', t', ht', hx'⟩

theorem joinRuns_congr (h : ∀ run ∈ runs, f run = g run) :
    joinRuns f last runs = joinRuns g last runs := by
  induction runs with
  | nil => rfl
  | cons run runs ih =>
    rw [joinRuns, joinRuns, h run mem_cons_self,
      ih fun run hrun => h run (mem_cons_of_mem _ hrun)]

/-- Two readings agree on a text exactly if they agree on each run. -/
theorem eq_of_joinRuns_eq
    (hle : ∀ run ∈ runs, ∀ s t, f run = some s → g run = some t → t.length ≤ s.length)
    {s t : List β} (hf : joinRuns f (some []) runs = some s) (hg : joinRuns g (some []) runs = some t) :
    t.length ≤ s.length ∧ (s = t → ∀ run ∈ runs, f run = g run) := by
  induction runs generalizing s t with
  | nil =>
    rw [joinRuns, Option.some.injEq] at hf hg
    subst hf hg
    exact ⟨Nat.le_refl _, fun _ run hrun => by cases hrun⟩
  | cons run runs ih =>
    rw [joinRuns, Option.bind_eq_some_iff] at hf hg
    obtain ⟨a, ha, hf⟩ := hf
    obtain ⟨b, hb, hg⟩ := hg
    rw [Option.map_eq_some_iff] at hf hg
    obtain ⟨s', hs', rfl⟩ := hf
    obtain ⟨t', ht', rfl⟩ := hg
    have hab := hle run mem_cons_self a b ha hb
    obtain ⟨hshort, hrest⟩ :=
      ih (fun run hrun => hle run (mem_cons_of_mem _ hrun)) hs' ht'
    rw [length_append, length_append]
    refine ⟨by omega, ?_⟩
    intro heq
    have hlength := congrArg List.length heq
    rw [length_append, length_append] at hlength
    obtain ⟨rfl, rfl⟩ := append_inj heq (by omega)
    intro run' hrun'
    rcases List.mem_cons.1 hrun' with rfl | hmem
    · rw [ha, hb]
    · exact hrest rfl run' hmem

end Join

end EscapeRuns
