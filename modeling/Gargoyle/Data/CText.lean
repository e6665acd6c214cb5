import Mathlib.Data.List.TakeWhile
import Mathlib.Data.UInt

/-!
# Texts of C

A text is the list of its bytes, without the zero that ends it. The functions here are those of the
standard library that programs search texts with.
-/

namespace Gargoyle

namespace CText

def bytes (s : String) : List UInt8 := s.toList.map fun c => c.toNat.toUInt8

/-- The text that is found where `xs` is stored: the bytes before the first zero. -/
def cstr (xs : List UInt8) : List UInt8 := xs.takeWhile fun x => x ≠ 0

/-- `tolower` of the C locale. -/
def tolower (x : UInt8) : UInt8 := if 65 ≤ x ∧ x ≤ 90 then x + 32 else x

/-- `toupper` of the C locale. -/
def toupper (x : UInt8) : UInt8 := if 97 ≤ x ∧ x ≤ 122 then x - 32 else x

section Search

variable {α : Type*} [DecidableEq α]

/-- `strstr(s, pat) - s`, where there is such a place. -/
def strstr (pat : List α) : List α → Option ℕ
  | [] => if pat = [] then some 0 else none
  | c :: cs => if pat.isPrefixOf (c :: cs) then some 0 else (strstr pat cs).map (· + 1)

/-- `strchr(s, c) - s`, where there is such a place. -/
def strchr (c : α) (s : List α) : Option ℕ := s.findIdx? (· = c)

theorem strstr_spec {pat s : List α} {n : ℕ} (h : strstr pat s = some n) :
    pat <+: s.drop n := by
  induction s generalizing n with
  | nil =>
    rw [strstr] at h
    split_ifs at h with hpat
    simp [hpat]
  | cons c cs ih =>
    rw [strstr] at h
    split_ifs at h with hpre
    · obtain rfl := Option.some.inj h
      exact List.isPrefixOf_iff_prefix.1 hpre
    · obtain ⟨m, hm, rfl⟩ := Option.map_eq_some_iff.1 h
      exact ih hm

theorem strstr_eq_zero_iff {pat s : List α} : strstr pat s = some 0 ↔ pat <+: s := by
  constructor
  · exact strstr_spec
  · intro h
    cases s with
    | nil => rw [strstr, if_pos (List.prefix_nil.1 h)]
    | cons c cs => rw [strstr, if_pos (List.isPrefixOf_iff_prefix.2 h)]

end Search

/-- Any block of memory that has room for `n` bytes can be copied from. -/
def memcpy (src : List UInt8) (n : ℕ) : Option (List UInt8) :=
  if n ≤ src.length then some (src.take n) else none

theorem cstr_of_notMem {xs : List UInt8} (h : 0 ∉ xs) : cstr xs = xs := by
  rw [cstr, List.takeWhile_eq_self_iff]
  intro x hx
  rw [decide_eq_true_eq]
  rintro rfl
  exact h hx

theorem cstr_append_of_notMem {xs ys : List UInt8} (h : 0 ∉ xs) :
    cstr (xs ++ ys) = xs ++ cstr ys := by
  induction xs with
  | nil => rfl
  | cons x xs ih =>
    rw [List.mem_cons, not_or] at h
    have hx : decide (x ≠ 0) = true := decide_eq_true (Ne.symm h.1)
    rw [List.cons_append, cstr, List.takeWhile_cons, if_pos hx, ← cstr, ih h.2, List.cons_append]

end CText

end Gargoyle
