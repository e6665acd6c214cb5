import Mathlib.Data.List.Infix

/-!
# Replacing a text by another one

`replaceAll old new s` replaces the occurrences of `old` in `s` from left to right, and does not look
again at what it has written. An `Escaping` writes some letters as codes that begin with one of them,
the marker. Replacing the letters one after the other by their codes writes all codes if the marker
comes first, and replacing the codes one after the other by their letters gives the text back if the
marker comes last.
-/

namespace Gargoyle

open List

namespace Replace

variable {α : Type*} [DecidableEq α]

def replaceFrom (old new : List α) : ℕ → List α → List α
  | _, [] => []
  | k + 1, _ :: s => replaceFrom old new k s
  | 0, a :: s =>
    if old.isPrefixOf (a :: s) then new ++ replaceFrom old new (old.length - 1) s
    else a :: replaceFrom old new 0 s

/-- Each occurrence of `old` is replaced by `new`. -/
def replaceAll (old new s : List α) : List α := replaceFrom old new 0 s

variable {old new s : List α}

@[simp] theorem replaceAll_nil (old new : List α) : replaceAll old new [] = [] := rfl

theorem mem_replaceFrom {k : ℕ} {x : α} (h : x ∈ replaceFrom old new k s) : x ∈ new ∨ x ∈ s := by
  fun_induction replaceFrom old new k s with
  | case1 => cases h
  | case2 k a s ih => exact (ih h).imp_right (mem_cons_of_mem a)
  | case3 a s hpre ih =>
    rcases List.mem_append.1 h with hnew | hrest
    · exact .inl hnew
    · exact (ih hrest).imp_right (mem_cons_of_mem a)
  | case4 a s hpre ih =>
    rcases List.mem_cons.1 h with rfl | hrest
    · exact .inr mem_cons_self
    · exact (ih hrest).imp_right (mem_cons_of_mem a)

theorem mem_replaceAll {x : α} (h : x ∈ replaceAll old new s) : x ∈ new ∨ x ∈ s :=
  mem_replaceFrom h

theorem replaceFrom_length_append (old new l s : List α) :
    replaceFrom old new l.length (l ++ s) = replaceAll old new s := by
  induction l with
  | nil => rfl
  | cons a l ih => exact ih

theorem replaceAll_self_append (hold : old ≠ []) (new s : List α) :
    replaceAll old new (old ++ s) = new ++ replaceAll old new s := by
  obtain ⟨a, l, rfl⟩ := exists_cons_of_ne_nil hold
  have hstart : (a :: l).isPrefixOf (a :: (l ++ s)) = true :=
    List.isPrefixOf_iff_prefix.2 (prefix_append (a :: l) s)
  rw [replaceAll, cons_append, replaceFrom, if_pos hstart, length_cons,
    Nat.add_sub_cancel, replaceFrom_length_append]

theorem replaceAll_cons_of_ne {a : α} (h : ¬old <+: a :: s) :
    replaceAll old new (a :: s) = a :: replaceAll old new s := by
  rw [replaceAll, replaceFrom, if_neg fun hpre => h (List.isPrefixOf_iff_prefix.1 hpre)]
  rfl

theorem replaceAll_append_of_notMem {c : α} {l x : List α} (hx : c ∉ x) (new s : List α) :
    replaceAll (c :: l) new (x ++ s) = x ++ replaceAll (c :: l) new s := by
  induction x with
  | nil => rfl
  | cons a x ih =>
    rw [mem_cons, not_or] at hx
    have hnot : ¬c :: l <+: a :: (x ++ s) := fun h => hx.1 (List.cons_prefix_cons.1 h).1
    rw [cons_append, replaceAll_cons_of_ne hnot, ih hx.2, cons_append]

theorem replaceAll_of_not_infix (h : ¬old <:+: s) : replaceAll old new s = s := by
  induction s with
  | nil => rfl
  | cons a s ih =>
    have hstart : ¬old <+: a :: s := fun hpre => h hpre.isInfix
    have hrest : ¬old <:+: s := fun hin => h (hin.trans (suffix_cons a s).isInfix)
    rw [replaceAll_cons_of_ne hstart, ih hrest]

theorem replaceAll_append_cons {d : α} {x : List α} (hold : old ≠ []) (hd : d ∉ old)
    (hx : ¬old <:+: x) (new s : List α) :
    replaceAll old new (x ++ d :: s) = x ++ d :: replaceAll old new s := by
  have hstart : ∀ y, old <+: y ++ d :: s → old <+: y := by
    intro y hpre
    have hpre' : old <+: y ++ [d] ++ s := by rwa [← append_cons]
    rcases prefix_or_prefix_of_prefix hpre (prefix_append y _) with hin | hover
    · exact hin
    · obtain ⟨z, rfl⟩ := hover
      rw [prefix_append_right_inj] at hpre
      cases z with
      | nil => simp
      | cons b z => exact absurd (by simp [(List.cons_prefix_cons.1 hpre).1]) hd
  induction x with
  | nil =>
    refine replaceAll_cons_of_ne fun hpre => hold ?_
    exact List.prefix_nil.1 (hstart [] hpre)
  | cons a x ih =>
    have hnot : ¬old <+: a :: (x ++ d :: s) := fun hpre => hx (hstart (a :: x) hpre).isInfix
    have hrest : ¬old <:+: x := fun hin => hx (hin.trans (suffix_cons a x).isInfix)
    rw [cons_append, replaceAll_cons_of_ne hnot, ih hrest, cons_append]

theorem replaceAll_singleton (c : α) (new s : List α) :
    replaceAll [c] new s = s.flatMap fun a => if a = c then new else [a] := by
  induction s with
  | nil => rfl
  | cons a s ih =>
    rw [flatMap_cons, ← ih]
    split_ifs with h
    · subst h
      exact replaceAll_self_append (cons_ne_nil a []) new s
    · have hnot : ¬[c] <+: a :: s := fun hpre => h (List.cons_prefix_cons.1 hpre).1.symm
      exact replaceAll_cons_of_ne hnot

/-! ## Where an occurrence can lie -/

omit [DecidableEq α] in
theorem infix_of_append_left {c : α} {l x y : List α} (hx : c ∉ x) (h : c :: l <:+: x ++ y) :
    c :: l <:+: y := by
  induction x with
  | nil => exact h
  | cons a x ih =>
    rw [mem_cons, not_or] at hx
    rw [cons_append, infix_cons_iff] at h
    obtain hpre | hin := h
    · exact absurd (List.cons_prefix_cons.1 hpre).1 hx.1
    · exact ih hx.2 hin

omit [DecidableEq α] in
theorem infix_of_append_right {c : α} {l x y : List α} (hy : c ∉ y) (h : l ++ [c] <:+: x ++ y) :
    l ++ [c] <:+: x := by
  rw [← reverse_infix, reverse_append, reverse_append] at h
  rw [← reverse_infix, reverse_append]
  exact infix_of_append_left (by simpa using hy) h

omit [DecidableEq α] in
theorem infix_pair_of_append {c d : α} {x y : List α} (hx : d ∉ x)
    (hmeet : x.getLast? = some c → y.head? ≠ some d) (h : [c, d] <:+: x ++ y) : [c, d] <:+: y := by
  induction x with
  | nil => exact h
  | cons a x ih =>
    rw [mem_cons, not_or] at hx
    rw [cons_append, infix_cons_iff] at h
    obtain hpre | hin := h
    · obtain ⟨rfl, hd⟩ := List.cons_prefix_cons.1 hpre
      cases x with
      | nil =>
        obtain ⟨t, rfl⟩ := hd
        exact absurd rfl (hmeet rfl)
      | cons b x =>
        have hdb : d = b := (List.cons_prefix_cons.1 hd).1
        exact absurd (hdb ▸ mem_cons_self) hx.2
    · refine ih hx.2 (fun hlast => hmeet ?_) hin
      cases x with
      | nil => cases hlast
      | cons b x => rwa [getLast?_cons_cons]

/-! ## Codes -/

section Codes

def IsPiece (marker : α) (width : ℕ) (p : List α) : Prop :=
  (∃ a, a ≠ marker ∧ p = [a]) ∨ ∃ l, p = marker :: l ∧ l.length = width ∧ marker ∉ l

theorem replaceAll_piece_append {marker : α} {l p : List α} (hp : IsPiece marker l.length p)
    (new s : List α) :
    replaceAll (marker :: l) new (p ++ s) =
      (if p = marker :: l then new else p) ++ replaceAll (marker :: l) new s := by
  rcases hp with ⟨a, hne, rfl⟩ | ⟨r, rfl, hlength, hr⟩
  · have hmarker : marker ∉ [a] := by simpa using hne.symm
    have hcode : [a] ≠ marker :: l := fun h => hne (List.cons.inj h).1
    rw [if_neg hcode, replaceAll_append_of_notMem hmarker]
  · split_ifs with hcode
    · rw [hcode]
      exact replaceAll_self_append (cons_ne_nil marker l) new _
    · have hnot : ¬marker :: l <+: marker :: (r ++ s) := by
        intro hpre
        have hl := (List.cons_prefix_cons.1 hpre).2
        have hlr := prefix_of_prefix_length_le hl (prefix_append r _) hlength.ge
        have heq : l = r := hlr.eq_of_length hlength.symm
        exact hcode (congrArg _ heq.symm)
      rw [cons_append, replaceAll_cons_of_ne hnot, replaceAll_append_of_notMem hr,
        cons_append]

theorem replaceAll_flatten {marker : α} {l : List α} {ps : List (List α)}
    (hps : ∀ p ∈ ps, IsPiece marker l.length p) (new : List α) :
    replaceAll (marker :: l) new ps.flatten =
      (ps.map fun p => if p = marker :: l then new else p).flatten := by
  induction ps with
  | nil => rfl
  | cons p ps ih =>
    rw [flatten_cons, map_cons, flatten_cons,
      ← ih fun q hq => hps q (mem_cons_of_mem p hq)]
    exact replaceAll_piece_append (hps p mem_cons_self) new _

end Codes

structure Escaping (α : Type*) where
  marker : α
  width : ℕ
  coded : List α
  code : α → List α
  marker_mem : marker ∈ coded
  code_eq : ∀ c ∈ coded, ∃ l, code c = marker :: l ∧ l.length = width ∧ marker ∉ l
  code_injective : ∀ c ∈ coded, ∀ d ∈ coded, code c = code d → c = d

namespace Escaping

variable (e : Escaping α)

def escapeExcept (done s : List α) : List α :=
  s.flatMap fun a => if a ∈ e.coded ∧ a ∉ done then e.code a else [a]

def escape (s : List α) : List α := s.flatMap fun a => if a ∈ e.coded then e.code a else [a]

variable {e}

theorem escapeExcept_nil (s : List α) : e.escapeExcept [] s = e.escape s := by
  simp [escapeExcept, escape]

theorem isPiece {done : List α} (hdone : e.marker ∉ done) (a : α) :
    IsPiece e.marker e.width (if a ∈ e.coded ∧ a ∉ done then e.code a else [a]) := by
  split_ifs with h
  · obtain ⟨l, hcode, hlength, hmarker⟩ := e.code_eq a h.1
    exact .inr ⟨l, hcode, hlength, hmarker⟩
  · refine .inl ⟨a, ?_, rfl⟩
    rintro rfl
    exact h ⟨e.marker_mem, hdone⟩

theorem replaceAll_escapeExcept {c : α} {done : List α} (hc : c ∈ e.coded) (hdone : e.marker ∉ done)
    (new s : List α) : replaceAll (e.code c) new (e.escapeExcept done s) =
      s.flatMap fun a =>
        if a ∈ e.coded ∧ a ∉ done then (if a = c then new else e.code a) else [a] := by
  obtain ⟨l, hcode, hlength, hmarker⟩ := e.code_eq c hc
  rw [escapeExcept, flatMap_def, hcode, replaceAll_flatten, map_map, flatMap_def]
  · congr 1
    refine map_congr_left fun a _ => ?_
    rw [Function.comp_apply]
    split_ifs with hcoded heq hac hac
    · rfl
    · exact absurd (e.code_injective a hcoded.1 c hc (heq.trans hcode.symm)) hac
    · exact absurd (hac ▸ hcode) heq
    · rfl
    · rename_i heq
      have hac : a = e.marker := (List.cons.inj heq).1
      subst hac
      exact absurd ⟨e.marker_mem, hdone⟩ hcoded
    · rfl
  · intro p hp
    obtain ⟨a, -, rfl⟩ := List.mem_map.1 hp
    exact hlength ▸ isPiece hdone a

theorem replaceAll_code {c : α} {done : List α} (hc : c ∈ e.coded) (hdone : e.marker ∉ done)
    (s : List α) :
    replaceAll (e.code c) [c] (e.escapeExcept done s) = e.escapeExcept (c :: done) s := by
  rw [replaceAll_escapeExcept hc hdone, escapeExcept]
  congr 1
  funext a
  by_cases hac : a = c
  · simp [hac]
  · simp [hac]

theorem replaceAll_code_marker {done s : List α} (hdone : e.marker ∉ done)
    (hs : ∀ a ∈ s, a ∈ e.coded → a ≠ e.marker → a ∈ done) :
    replaceAll (e.code e.marker) [e.marker] (e.escapeExcept done s) = s := by
  rw [replaceAll_escapeExcept e.marker_mem hdone]
  have hall : ∀ a ∈ s, (if a ∈ e.coded ∧ a ∉ done then
      (if a = e.marker then [e.marker] else e.code a) else [a]) = [a] := by
    intro a ha
    split_ifs with hcoded hmarker
    · rw [hmarker]
    · exact absurd (hs a ha hcoded.1 hmarker) hcoded.2
    · rfl
  rw [flatMap_congr hall, flatMap_singleton']

theorem foldl_replaceAll (code : α → List α) {cs : List α}
    (hcs : cs.Pairwise fun c d => d ∉ code c) (s : List α) :
    cs.foldl (fun t c => replaceAll [c] (code c) t) s =
      s.flatMap fun a => if a ∈ cs then code a else [a] := by
  induction cs generalizing s with
  | nil => simp
  | cons c cs ih =>
    obtain ⟨hc, htail⟩ := List.pairwise_cons.1 hcs
    rw [foldl_cons, ih htail, replaceAll_singleton, flatMap_assoc]
    congr 1
    funext a
    by_cases hac : a = c
    · have hcode : ((code c).flatMap fun b => if b ∈ cs then code b else [b]) = code c := by
        have hnone : ∀ b ∈ code c, (if b ∈ cs then code b else [b]) = [b] :=
          fun b hb => if_neg fun hmem => hc b hmem hb
        rw [flatMap_congr hnone, flatMap_singleton']
      simp [hac, hcode]
    · simp [hac]

end Escaping

end Replace

end Gargoyle
