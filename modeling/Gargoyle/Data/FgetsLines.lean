import Mathlib.Data.List.Infix

/-!
# Lines read by `fgets`

A file is read into a buffer again and again. Each time the buffer takes the characters up to a
line break, and this too, but not more than it has room for. A line that is too long is taken in
several pieces.
-/

namespace Gargoyle

open List

namespace FgetsLines

/-- What is read, where `cur` has been put in the buffer, and there is room for `room` more. -/
@[simp] def readLoop (size : ℕ) : List Char → ℕ → List Char → List (List Char)
  | cur, _, [] => if cur = [] then [] else [cur]
  | cur, room, c :: s =>
    if c = '\n' ∨ room ≤ 1 then (cur ++ [c]) :: readLoop size [] size s
    else readLoop size (cur ++ [c]) (room - 1) s

/-- What a buffer for `size` characters is filled with, one after the other. -/
def pieces (size : ℕ) (s : List Char) : List (List Char) := readLoop size [] size s

@[simp] theorem pieces_nil (size : ℕ) : pieces size [] = [] := rfl

theorem readLoop_newline {size room : ℕ} {cur t : List Char} (ht : '\n' ∉ t)
    (hroom : t.length < room) (s : List Char) :
    readLoop size cur room (t ++ '\n' :: s) = (cur ++ (t ++ ['\n'])) :: pieces size s := by
  induction t generalizing cur room with
  | nil => simp [readLoop, pieces]
  | cons c t ih =>
    rw [mem_cons, not_or] at ht
    rw [length_cons] at hroom
    have hnot : ¬(c = '\n' ∨ room ≤ 1) := by
      rintro (rfl | hle)
      · exact ht.1 rfl
      · omega
    rw [cons_append, readLoop, if_neg hnot, ih ht.2 (by omega)]
    simp

theorem readLoop_full {size room : ℕ} {cur t : List Char} (ht : '\n' ∉ t) (hne : t ≠ [])
    (hroom : t.length = room) (s : List Char) :
    readLoop size cur room (t ++ s) = (cur ++ t) :: pieces size s := by
  induction t generalizing cur room with
  | nil => exact absurd rfl hne
  | cons c t ih =>
    rw [mem_cons, not_or] at ht
    rw [length_cons] at hroom
    rw [cons_append, readLoop]
    by_cases hlast : t = []
    · subst hlast
      rw [if_pos (Or.inr (by simpa using hroom.ge)), nil_append]
      rfl
    · have hpos := length_pos_of_ne_nil hlast
      have hnot : ¬(c = '\n' ∨ room ≤ 1) := by
        rintro (rfl | hle)
        · exact ht.1 rfl
        · omega
      rw [if_neg hnot, ih ht.2 hlast (by omega), append_assoc]
      rfl

theorem pieces_line {size : ℕ} {t : List Char} (ht : '\n' ∉ t) (hsize : t.length < size)
    (s : List Char) : pieces size (t ++ '\n' :: s) = (t ++ ['\n']) :: pieces size s :=
  readLoop_newline ht hsize s

theorem pieces_full {size : ℕ} {t : List Char} (ht : '\n' ∉ t) (hne : t ≠ [])
    (hsize : t.length = size) (s : List Char) : pieces size (t ++ s) = t :: pieces size s :=
  readLoop_full ht hne hsize s

theorem mem_readLoop {size room : ℕ} {cur s piece : List Char}
    (h : piece ∈ readLoop size cur room s) : piece ≠ [] ∧ ∀ c ∈ piece, c ∈ cur ++ s := by
  induction s generalizing cur room with
  | nil =>
    rw [readLoop] at h
    split_ifs at h with hcur
    · exact absurd h not_mem_nil
    · obtain rfl := List.mem_singleton.1 h
      exact ⟨hcur, fun c hc => mem_append_left [] hc⟩
  | cons c s ih =>
    rw [readLoop] at h
    split_ifs at h
    · rcases List.mem_cons.1 h with rfl | h
      · refine ⟨append_ne_nil_of_right_ne_nil _ (cons_ne_nil _ _), fun d hd => ?_⟩
        rw [append_cons]
        exact mem_append_left s hd
      · obtain ⟨hne, hchars⟩ := ih h
        exact ⟨hne, fun d hd => mem_append_right cur (mem_cons_of_mem c (hchars d hd))⟩
    · obtain ⟨hne, hchars⟩ := ih h
      refine ⟨hne, fun d hd => ?_⟩
      rw [append_cons]
      exact hchars d hd

theorem mem_pieces {size : ℕ} {s piece : List Char} (h : piece ∈ pieces size s) :
    piece ≠ [] ∧ ∀ c ∈ piece, c ∈ s :=
  mem_readLoop h

theorem head?_of_pieces {size : ℕ} {s piece : List Char} {ps : List (List Char)}
    (h : pieces size s = piece :: ps) : piece.head? = s.head? := by
  have hloop : ∀ (s cur : List Char) (room : ℕ) (ps : List (List Char)),
      readLoop size cur room s = piece :: ps → piece.head? = (cur ++ s).head? := by
    intro s
    induction s with
    | nil =>
      intro cur room ps h
      rw [readLoop] at h
      split_ifs at h
      · rw [(List.cons.inj h).1.symm, List.append_nil]
    | cons c s ih =>
      intro cur room ps h
      rw [readLoop] at h
      split_ifs at h
      · rw [(List.cons.inj h).1.symm]
        cases cur with
        | nil => rfl
        | cons d cur => rfl
      · rw [ih _ _ _ h]
        cases cur with
        | nil => rfl
        | cons d cur => rfl
  exact hloop s [] size ps h

def ShortLines (size : ℕ) (s : List Char) : Prop :=
  ∀ t, t <:+: s → '\n' ∉ t → t.length < size

/-- Short lines are read in one piece. -/
theorem readLoop_short {size room : ℕ} {cur s : List Char} (hcur : '\n' ∉ cur)
    (hroom : cur.length + room = size) (hpos : 0 < room) (hshort : ShortLines size (cur ++ s)) :
    ∀ piece ∈ readLoop size cur room s, ∃ t ends, piece = t ++ ends ∧ '\n' ∉ t ∧
      t.length < size ∧ (ends = [] ∨ ends = ['\n']) := by
  induction s generalizing cur room with
  | nil =>
    intro piece hpiece
    rw [readLoop] at hpiece
    split_ifs at hpiece
    · exact absurd hpiece not_mem_nil
    · obtain rfl := List.mem_singleton.1 hpiece
      exact ⟨piece, [], (List.append_nil _).symm, hcur,
        hshort piece (infix_append' [] piece []) hcur, Or.inl rfl⟩
  | cons c s ih =>
    have hsplit : cur ++ c :: s = (cur ++ [c]) ++ s := by simp
    have hlength : (cur ++ [c]).length = cur.length + 1 := by simp
    intro piece hpiece
    rw [readLoop] at hpiece
    by_cases hc : c = '\n'
    · subst hc
      rw [if_pos (Or.inl rfl)] at hpiece
      have hinfix : s <:+: cur ++ '\n' :: s := ⟨cur ++ ['\n'], [], by simp⟩
      rcases List.mem_cons.1 hpiece with rfl | hpiece
      · exact ⟨cur, ['\n'], rfl, hcur, hshort cur (infix_append' [] cur _) hcur,
          Or.inr rfl⟩
      · exact ih not_mem_nil (Nat.zero_add size) (by omega)
          (fun t ht => hshort t (ht.trans hinfix)) piece hpiece
    · have hmem : '\n' ∉ cur ++ [c] := by
        rw [mem_append, mem_singleton, not_or]
        exact ⟨hcur, Ne.symm hc⟩
      have hlt := hshort (cur ++ [c]) (hsplit ▸ infix_append' [] _ _) hmem
      rw [hlength] at hlt
      rw [if_neg (not_or.2 ⟨hc, by omega⟩)] at hpiece
      rw [hsplit] at hshort
      exact ih hmem (by omega) (by omega) hshort piece hpiece

theorem exists_of_mem_pieces {size : ℕ} {s piece : List Char} (hpos : 0 < size)
    (hshort : ShortLines size s) (hpiece : piece ∈ pieces size s) :
    ∃ t ends, piece = t ++ ends ∧ '\n' ∉ t ∧ t.length < size ∧ (ends = [] ∨ ends = ['\n']) :=
  readLoop_short not_mem_nil (Nat.zero_add size) hpos hshort piece hpiece

end FgetsLines

end Gargoyle
