import Mathlib.Data.List.DropRight

/-!
# Texts that are split at separators

Scripts split a text at runs of characters of a class, or at a separator with blanks around it.
Runs at the ends leave empty pieces there. A separator takes the blanks on both sides with it, so
that the pieces have no blanks at the ends where they were split.
-/

namespace TextSplit

open List

/-! ## Runs -/

section Runs

variable (isSep : Char → Bool)

@[simp] def splitRuns : List Char → List (List Char)
  | [] => [[]]
  | c :: s =>
    if isSep c then
      if s.head?.any isSep then splitRuns s else [] :: splitRuns s
    else (splitRuns s).modifyHead (c :: ·)

variable {isSep}

theorem splitRuns_ne_nil (s : List Char) : splitRuns isSep s ≠ [] := by
  induction s with
  | nil => exact cons_ne_nil _ _
  | cons c s ih =>
    rw [splitRuns]
    split_ifs
    · exact ih
    · exact cons_ne_nil _ _
    · obtain ⟨p, ps, hps⟩ := exists_cons_of_ne_nil ih
      rw [hps]
      exact cons_ne_nil _ _

theorem splitRuns_append {p : List Char} (hp : ∀ c ∈ p, isSep c = false) (s : List Char) :
    splitRuns isSep (p ++ s) = (splitRuns isSep s).modifyHead (p ++ ·) := by
  induction p with
  | nil =>
    obtain ⟨q, ps, hps⟩ := exists_cons_of_ne_nil (@splitRuns_ne_nil isSep s)
    rw [nil_append, hps]
    rfl
  | cons c p ih =>
    obtain ⟨hc, hp⟩ := List.forall_mem_cons.1 hp
    obtain ⟨q, ps, hps⟩ := exists_cons_of_ne_nil (@splitRuns_ne_nil isSep s)
    rw [cons_append, splitRuns, hc, if_neg Bool.false_ne_true, ih hp, hps]
    rfl

theorem splitRuns_of_none {p : List Char} (hp : ∀ c ∈ p, isSep c = false) :
    splitRuns isSep p = [p] := by
  have happend := splitRuns_append hp []
  rwa [List.append_nil, splitRuns, modifyHead_cons, List.append_nil] at happend

theorem splitRuns_run {r : List Char} (hne : r ≠ []) (hr : ∀ c ∈ r, isSep c = true)
    {s : List Char} (hs : ∀ c ∈ s.head?, isSep c = false) :
    splitRuns isSep (r ++ s) = [] :: splitRuns isSep s := by
  induction r with
  | nil => exact absurd rfl hne
  | cons c r ih =>
    obtain ⟨hc, hr⟩ := List.forall_mem_cons.1 hr
    rw [cons_append, splitRuns, if_pos hc]
    cases r with
    | nil =>
      have hany : s.head?.any isSep = false := by
        cases s with
        | nil => rfl
        | cons d s => exact hs d rfl
      rw [nil_append, hany, if_neg Bool.false_ne_true]
    | cons d r =>
      have hany : (d :: r ++ s).head?.any isSep = true := hr d mem_cons_self
      rw [if_pos hany]
      exact ih (cons_ne_nil d r) hr

theorem splitRuns_piece {p r : List Char} (hp : ∀ c ∈ p, isSep c = false) (hne : r ≠ [])
    (hr : ∀ c ∈ r, isSep c = true) {s : List Char} (hs : ∀ c ∈ s.head?, isSep c = false) :
    splitRuns isSep (p ++ (r ++ s)) = p :: splitRuns isSep s := by
  rw [splitRuns_append hp, splitRuns_run hne hr hs, modifyHead_cons, List.append_nil]

/-- Pieces without separators are read back as they were joined. -/
theorem splitRuns_intercalate {sep : Char} (hsep : isSep sep = true) {ps : List (List Char)}
    (hne : ps ≠ []) (h : ∀ p ∈ ps, p ≠ [] ∧ ∀ c ∈ p, isSep c = false) :
    splitRuns isSep ([sep].intercalate ps) = ps := by
  induction ps with
  | nil => exact absurd rfl hne
  | cons p ps ih =>
    obtain ⟨hp, hps⟩ := List.forall_mem_cons.1 h
    cases ps with
    | nil => rw [List.intercalate_singleton, splitRuns_of_none hp.2]
    | cons q ps =>
      have hhead : ∀ c ∈ ([sep].intercalate (q :: ps)).head?, isSep c = false := by
        obtain ⟨hq, hchars⟩ := hps q mem_cons_self
        obtain ⟨c, q, rfl⟩ := exists_cons_of_ne_nil hq
        have hc := hchars c mem_cons_self
        cases ps with
        | nil =>
          rw [List.intercalate_singleton]
          rintro d ⟨⟩
          exact hc
        | cons r ps =>
          rw [List.intercalate_cons_cons]
          rintro d ⟨⟩
          exact hc
      rw [List.intercalate_cons_cons, append_assoc,
        splitRuns_piece hp.2 (cons_ne_nil _ _) (List.forall_mem_singleton.2 hsep) hhead,
        ih (cons_ne_nil _ _) hps]

end Runs

/-! ## Separators with blanks -/

section Around

variable (isBlank : Char → Bool)

@[simp] def innerPieces : List (List Char) → List (List Char)
  | [] => []
  | [p] => [p.dropWhile isBlank]
  | p :: q :: ps => (p.dropWhile isBlank).rdropWhile isBlank :: innerPieces (q :: ps)

def splitAround (sep : Char) (s : List Char) : List (List Char) :=
  match s.splitOn sep with
  | p :: q :: ps => p.rdropWhile isBlank :: innerPieces isBlank (q :: ps)
  | ps => ps

variable {isBlank}

theorem splitAround_of_not_mem {sep : Char} {s : List Char} (h : sep ∉ s) :
    splitAround isBlank sep s = [s] := by
  rw [splitAround, splitOn_eq_singleton h]

theorem splitAround_pair {sep : Char} {p q : List Char} (hp : sep ∉ p) (hq : sep ∉ q) :
    splitAround isBlank sep (p ++ sep :: q) = [p.rdropWhile isBlank, q.dropWhile isBlank] := by
  have hsplit : (p ++ sep :: q).splitOn sep = [p, q] := by
    rw [splitOn_append_cons_self_of_not_mem hp, splitOn_eq_singleton hq]
  rw [splitAround, hsplit]
  rfl

theorem splitAround_intercalate {sep : Char} {p q : List Char} {ps : List (List Char)}
    (h : ∀ r ∈ p :: q :: ps, sep ∉ r) :
    splitAround isBlank sep ([sep].intercalate (p :: q :: ps)) =
      p.rdropWhile isBlank :: innerPieces isBlank (q :: ps) := by
  rw [splitAround, splitOn_intercalate sep h (cons_ne_nil _ _)]

theorem dropWhile_blanks {b s : List Char} (hb : ∀ c ∈ b, isBlank c = true)
    (hs : ∀ c ∈ s.head?, isBlank c = false) : (b ++ s).dropWhile isBlank = s := by
  rw [dropWhile_append_of_pos hb]
  cases s with
  | nil => rfl
  | cons c s =>
    have hc := hs c rfl
    rw [dropWhile_cons_of_neg (by rw [hc]; exact Bool.false_ne_true)]

theorem rdropWhile_blanks {b s : List Char} (hb : ∀ c ∈ b, isBlank c = true)
    (hs : ∀ c ∈ s.getLast?, isBlank c = false) : (s ++ b).rdropWhile isBlank = s := by
  rw [List.rdropWhile, reverse_append, dropWhile_blanks, reverse_reverse]
  · exact fun c hc => hb c (List.mem_reverse.1 hc)
  · rwa [head?_reverse]

/-- Clean pieces are read back as they were joined. -/
theorem splitAround_clean {sep : Char} {ps : List (List Char)} (hne : ps ≠ [])
    (h : ∀ p ∈ ps, sep ∉ p ∧ ∀ c ∈ p, isBlank c = false) :
    splitAround isBlank sep ([sep].intercalate ps) = ps := by
  have hstart : ∀ p ∈ ps, p.dropWhile isBlank = p := fun p hp => by
    have hdrop := @dropWhile_blanks isBlank [] p
      (forall_mem_nil _) fun c hc => (h p hp).2 c (mem_of_head? hc)
    exact hdrop
  have hend : ∀ p ∈ ps, p.rdropWhile isBlank = p := fun p hp => by
    have hdrop := @rdropWhile_blanks isBlank [] p
      (forall_mem_nil _) fun c hc => (h p hp).2 c (mem_of_getLast? hc)
    rwa [List.append_nil] at hdrop
  have hinner : ∀ qs : List (List Char), (∀ q ∈ qs, q ∈ ps) → innerPieces isBlank qs = qs := by
    intro qs hqs
    induction qs with
    | nil => rfl
    | cons p qs ih =>
      obtain ⟨hp, hqs⟩ := List.forall_mem_cons.1 hqs
      cases qs with
      | nil => rw [innerPieces, hstart p hp]
      | cons q qs => rw [innerPieces, hstart p hp, hend p hp, ih hqs]
  obtain ⟨p, ps, rfl⟩ := exists_cons_of_ne_nil hne
  cases ps with
  | nil =>
    rw [List.intercalate_singleton, splitAround_of_not_mem (h p mem_cons_self).1]
  | cons q ps =>
    rw [splitAround_intercalate fun r hr => (h r hr).1, hend p mem_cons_self,
      hinner (q :: ps) fun r hr => mem_cons_of_mem p hr]

end Around

end TextSplit
