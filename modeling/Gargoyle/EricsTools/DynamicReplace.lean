import Gargoyle.Data.CInt
import Gargoyle.Data.CText
import Gargoyle.Data.MemoryBlock
import Gargoyle.Data.Replace
import Mathlib.Tactic.Linarith
import Mathlib.Tactic.Ring

/-!
# Replacing in a text

`dynamic_replace` goes through the template twice: it counts the occurrences to know how many bytes
the new text has, and then it writes the new text. Texts are given without the zero at their end. An
empty text is found again and again at one place, so that no loop ends, which is `none`; so is an
access outside of the memory that was allocated.
-/

namespace Gargoyle

open List

namespace EricsTools

open CInt CText Replace

def countOccurrences (s old : List UInt8) (i count : ℕ) : Option (ℕ × ℕ) :=
  if i < s.length then
    if strstr old (s.drop i) = some 0 then
      if old.length = 0 then none
      else countOccurrences s old (i + (old.length - 1) + 1) (count + 1)
    else countOccurrences s old (i + 1) count
  else some (i, count)
termination_by s.length - i

def replaceLoop (old new s : List UInt8) (i : ℕ) (ret : MemoryBlock UInt8) : Option (ℕ × MemoryBlock UInt8) :=
  match s with
  | [] => some (i, ret)
  | x :: rest =>
    if strstr old (x :: rest) = some 0 then
      if old.length = 0 then none
      else (ret.strcpy i new).bind fun ret =>
        replaceLoop old new (rest.drop (old.length - 1)) (i + new.length) ret
    else (ret.write i x).bind fun ret => replaceLoop old new rest (i + 1) ret
termination_by s.length
decreasing_by
  · simp only [length_drop, length_cons]
    omega
  · exact Nat.lt_succ_self _

/-- `dynamic_replace` for texts whose sizes are numbers of the type `int`. -/
def dynamicReplace (templateStr old new : List UInt8) : Option (MemoryBlock UInt8) :=
  (countOccurrences templateStr old 0 0).bind fun counted =>
    let size : ℤ := counted.1 + 1 + counted.2 * ((new.length : ℤ) - old.length)
    (replaceLoop old new templateStr 0 (MemoryBlock.alloc size.toNat)).bind fun written =>
      written.2.write written.1 0

section Replacing

variable {old new s : List UInt8}

theorem drop_old {x : UInt8} {rest t : List UInt8} (hold : old ≠ []) (h : old ++ t = x :: rest) :
    rest.drop (old.length - 1) = t := by
  have hpos := List.length_pos_iff.2 hold
  have hdrop : (x :: rest).drop (old.length - 1 + 1) = t := by
    rw [Nat.sub_add_cancel hpos, ← h, drop_left]
  rwa [drop_succ_cons] at hdrop

/-- The count is what the length of the result is computed from. -/
theorem countOccurrences_spec (hold : old ≠ []) (i count : ℕ) (hi : i ≤ s.length) :
    ∃ c, countOccurrences s old i count = some (s.length, count + c) ∧
      (replaceAll old new (s.drop i)).length + c * old.length =
        (s.drop i).length + c * new.length ∧ c * old.length ≤ (s.drop i).length := by
  have hpos := List.length_pos_iff.2 hold
  fun_induction countOccurrences s old i count with
  | case1 i count hlt hfound hzero => exact absurd hzero hpos.ne'
  | case2 i count hlt hfound hzero ih =>
    obtain ⟨t, ht⟩ := strstr_eq_zero_iff.1 hfound
    have hnext : s.drop (i + (old.length - 1) + 1) = t := by
      have hindex : i + (old.length - 1) + 1 = i + old.length := by omega
      rw [hindex, ← drop_drop, ← ht, drop_left]
    have hlength := congrArg List.length ht
    rw [length_append, length_drop] at hlength
    obtain ⟨c, hcount, heq, hle⟩ := ih (by omega)
    rw [hnext] at heq hle
    refine ⟨c + 1, ?_, ?_, ?_⟩
    · rw [hcount, Nat.add_assoc, Nat.add_comm 1 c]
    · rw [← ht, replaceAll_self_append hold, length_append, length_append]
      linarith
    · rw [← ht, length_append]
      linarith
  | case3 i count hlt hfound ih =>
    obtain ⟨c, hcount, heq, hle⟩ := ih (by omega)
    have hnot : ¬old <+: s.drop i := fun h => hfound (strstr_eq_zero_iff.2 h)
    rw [drop_eq_getElem_cons hlt] at hnot ⊢
    refine ⟨c, hcount, ?_, ?_⟩
    · rw [replaceAll_cons_of_ne hnot, length_cons, length_cons]
      omega
    · rw [length_cons]
      omega
  | case4 i count hlt =>
    obtain rfl : i = s.length := by omega
    exact ⟨0, rfl, by rw [drop_length, replaceAll_nil, Nat.zero_mul, Nat.zero_mul],
      by rw [Nat.zero_mul]; exact Nat.zero_le _⟩

/-- The loop writes the text with all replacements. -/
theorem replaceLoop_holds (hold : old ≠ []) {size : ℕ} {done : List UInt8} {ret : MemoryBlock UInt8}
    (h : ret.Holds size done) (hsize : done.length + (replaceAll old new s).length + 1 ≤ size) :
    ∃ ret' : MemoryBlock UInt8,
      replaceLoop old new s done.length ret =
        some ((done ++ replaceAll old new s).length, ret') ∧
      ret'.Holds size (done ++ replaceAll old new s) := by
  have hpos := List.length_pos_iff.2 hold
  induction hn : s.length using Nat.strong_induction_on generalizing s done ret with
  | _ n ih =>
    cases s with
    | nil =>
      rw [replaceLoop, replaceAll_nil, List.append_nil]
      exact ⟨ret, rfl, h⟩
    | cons x rest =>
      rw [length_cons] at hn
      rw [replaceLoop]
      by_cases hfound : old <+: x :: rest
      · obtain ⟨t, ht⟩ := hfound
        have hdrop := drop_old hold ht
        have hlength := congrArg List.length ht
        rw [length_append, length_cons] at hlength
        have hall : replaceAll old new (x :: rest) = new ++ replaceAll old new t := by
          rw [← ht, replaceAll_self_append hold]
        rw [hall, length_append] at hsize
        obtain ⟨ret₁, hwrite, hret₁⟩ := h.writeAll (t := new ++ [0]) (by
          rw [length_append, length_singleton]
          omega)
        have hnew := hret₁.of_prefix (s := done ++ new)
          ⟨[0], by rw [append_assoc]⟩
        obtain ⟨ret₂, hrest, hret₂⟩ := @ih t.length (by omega) t (done ++ new) ret₁ hnew
          (by rw [length_append]; omega) rfl
        rw [if_pos (strstr_eq_zero_iff.2 ⟨t, ht⟩), if_neg hpos.ne', MemoryBlock.strcpy, hwrite,
          Option.bind_some, hall, hdrop, ← append_assoc, ← length_append]
        exact ⟨ret₂, hrest, hret₂⟩
      · have hall := @replaceAll_cons_of_ne _ _ _ new _ _ hfound
        rw [hall, length_cons] at hsize
        obtain ⟨ret₁, hwrite, hret₁⟩ := h.write (by omega) x
        obtain ⟨ret₂, hrest, hret₂⟩ := @ih rest.length (by omega) rest _ ret₁ hret₁
          (by rw [length_append, length_singleton]; omega) rfl
        rw [length_append, length_singleton, append_assoc,
          singleton_append] at hrest
        rw [append_assoc, singleton_append] at hret₂
        rw [if_neg (fun hstr => hfound (strstr_eq_zero_iff.1 hstr)), hwrite, Option.bind_some,
          hall]
        exact ⟨ret₂, hrest, hret₂⟩

theorem dynamicReplace_holds (templateStr new : List UInt8) {old : List UInt8} (hold : old ≠ []) :
    ∃ ret : MemoryBlock UInt8, dynamicReplace templateStr old new = some ret ∧
      ret.Holds ((replaceAll old new templateStr).length + 1)
        (replaceAll old new templateStr ++ [0]) := by
  obtain ⟨c, hcount, heq, -⟩ := @countOccurrences_spec old new templateStr hold 0 0 (Nat.zero_le _)
  rw [drop_zero] at heq
  obtain ⟨size, hsize⟩ : ∃ size, (replaceAll old new templateStr).length + 1 = size := ⟨_, rfl⟩
  have halloc : (((templateStr.length : ℤ) + 1 +
      ((0 + c : ℕ) : ℤ) * ((new.length : ℤ) - old.length)).toNat) = size := by
    have heq' : ((replaceAll old new templateStr).length : ℤ) + c * old.length =
        templateStr.length + c * new.length := by exact_mod_cast heq
    rw [Nat.zero_add, mul_sub]
    omega
  obtain ⟨ret, hloop, hret⟩ := @replaceLoop_holds old new templateStr hold size []
    (MemoryBlock.alloc size) (MemoryBlock.holds_alloc size) (by rw [length_nil]; omega)
  rw [nil_append] at hloop hret
  obtain ⟨ret', hwrite, hret'⟩ := hret.write (by omega) 0
  rw [dynamicReplace, hcount, Option.bind_some]
  simp only [halloc]
  rw [length_nil] at hloop
  rw [hloop, Option.bind_some, hsize]
  exact ⟨ret', hwrite, hret'⟩

theorem dynamicReplace_text {templateStr old new : List UInt8} (hold : old ≠ [])
    (hzero : 0 ∉ templateStr) (hnew : 0 ∉ new) :
    (dynamicReplace templateStr old new).bind MemoryBlock.text =
      some (replaceAll old new templateStr) := by
  obtain ⟨ret, hreplace, hret⟩ := dynamicReplace_holds templateStr new hold
  have hnone : 0 ∉ replaceAll old new templateStr :=
    fun hmem => (mem_replaceAll hmem).elim hnew hzero
  have htext := @MemoryBlock.text_filled 0 _ [] hnone
  rw [MemoryBlock.filled, Nat.zero_sub, replicate_zero, List.append_nil] at htext
  rw [hreplace, Option.bind_some, hret.eq (by rw [length_append, length_singleton]), htext]

/-- All occurrences are replaced, and the memory that was allocated is filled exactly. -/
theorem dynamicReplace_exact (templateStr new : List UInt8) {old : List UInt8} (hold : old ≠ []) :
    dynamicReplace templateStr old new =
      some ((replaceAll old new templateStr ++ [0]).map some) := by
  obtain ⟨ret, hreplace, hret⟩ := dynamicReplace_holds templateStr new hold
  rw [hreplace, hret.eq (by rw [length_append, length_singleton])]

end Replacing

/-! ## Sizes of the type int -/

/-- `dynamic_replace` with the numbers as it computes them. The index of the first loop only grows, and
so has overflowed if its last value has. A negative size is one that `malloc` refuses. -/
def dynamicReplaceInt (templateStr old new : List UInt8) : Option (MemoryBlock UInt8) :=
  (countOccurrences templateStr old 0 0).bind fun counted =>
    (int counted.1).bind fun i =>
      (int (toInt new.length - toInt old.length)).bind fun difference =>
        (int (counted.2 * difference)).bind fun growth =>
          (int (i + 1)).bind fun length =>
            (int (length + growth)).bind fun size =>
              if size < 0 then none
              else
                (replaceLoop old new templateStr 0 (MemoryBlock.alloc size.toNat)).bind
                  fun written => written.2.write written.1 0

/-- The template and the result have less than `2 ^ 31` bytes with their zeros, and so has the
difference of the lengths of the two other texts. -/
structure SizesFit (templateStr old new : List UInt8) : Prop where
  template : templateStr.length + 1 < 2 ^ 31
  result : (replaceAll old new templateStr).length + 1 < 2 ^ 31
  difference : (int (toInt new.length - toInt old.length)).isSome

section Sizes

variable {old new templateStr : List UInt8}

theorem length_replaceLoop {s : List UInt8} {i : ℕ} {ret : MemoryBlock UInt8}
    {written : ℕ × MemoryBlock UInt8} (h : replaceLoop old new s i ret = some written) :
    written.2.length = ret.length := by
  fun_induction replaceLoop old new s i ret with
  | case1 i ret => rw [← Option.some.inj h]
  | case2 i ret x rest hfound hzero => cases h
  | case3 i ret x rest hfound hzero ih =>
    obtain ⟨ret₁, hwrite, hrest⟩ := Option.bind_eq_some_iff.1 h
    rw [ih ret₁ hrest, MemoryBlock.length_of_writeAll hwrite]
  | case4 i ret x rest hfound ih =>
    obtain ⟨ret₁, hwrite, hrest⟩ := Option.bind_eq_some_iff.1 h
    rw [ih ret₁ hrest, MemoryBlock.length_of_write hwrite]

/-- The block that comes out has the size that was computed. -/
theorem length_dynamicReplaceInt {ret : MemoryBlock UInt8}
    (h : dynamicReplaceInt templateStr old new = some ret) : ret.length < 2 ^ 31 := by
  simp only [dynamicReplaceInt, Option.bind_eq_some_iff] at h
  obtain ⟨counted, -, i, -, difference, -, growth, -, length, -, size, hsize, h⟩ := h
  obtain ⟨⟨-, hhigh⟩, rfl⟩ := int_eq_some_iff.1 hsize
  split_ifs at h with hneg
  obtain ⟨written, hloop, hwrite⟩ := Option.bind_eq_some_iff.1 h
  rw [MemoryBlock.length_of_write hwrite, length_replaceLoop hloop, MemoryBlock.alloc,
    length_replicate]
  omega

/-- The numbers of `dynamic_replace` are the ones that are meant if they fit. -/
theorem dynamicReplaceInt_of_fit (hold : old ≠ []) (h : SizesFit templateStr old new) :
    dynamicReplaceInt templateStr old new = dynamicReplace templateStr old new := by
  obtain ⟨c, hcount, heq, hle⟩ :=
    @countOccurrences_spec old new templateStr hold 0 0 (Nat.zero_le _)
  rw [drop_zero] at heq hle
  obtain ⟨d, hd⟩ := Option.isSome_iff_exists.1 h.difference
  have htemplate := h.template
  have hresult := h.result
  have heq' : ((replaceAll old new templateStr).length : ℤ) + c * old.length =
      templateStr.length + c * new.length := by exact_mod_cast heq
  have hgrowth : (c : ℤ) * d =
      (replaceAll old new templateStr).length - templateStr.length := by
    obtain ⟨-, rfl⟩ := int_eq_some_iff.1 hd
    rcases Nat.eq_zero_or_pos c with rfl | hc
    · rw [Nat.cast_zero, zero_mul, zero_mul, add_zero, add_zero] at *
      omega
    · -- the old text is in the template, and the new one in the result
      have hold' := Nat.le_mul_of_pos_left old.length hc
      have hnew' := Nat.le_mul_of_pos_left new.length hc
      rw [toInt_of_lt (by omega), toInt_of_lt (by omega), mul_sub]
      linarith
  rw [dynamicReplaceInt, dynamicReplace, hcount, Option.bind_some, Option.bind_some,
    int_of_bounds (by omega) (by omega), Option.bind_some, hd, Option.bind_some, Nat.zero_add,
    hgrowth, int_of_bounds (by omega) (by omega), Option.bind_some,
    int_of_bounds (by omega) (by omega), Option.bind_some, int_of_bounds (by omega) (by omega),
    Option.bind_some, if_neg (by omega)]
  have hsize : (templateStr.length : ℤ) + 1 +
      ((replaceAll old new templateStr).length - templateStr.length) =
      templateStr.length + 1 + c * ((new.length : ℤ) - old.length) := by
    rw [mul_sub]
    linarith
  rw [hsize]

theorem fit_of_dynamicReplaceInt (hold : old ≠ [])
    (h : dynamicReplaceInt templateStr old new =
      some ((replaceAll old new templateStr ++ [0]).map some)) : SizesFit templateStr old new := by
  have hlength := length_dynamicReplaceInt h
  rw [length_map, length_append, length_singleton] at hlength
  obtain ⟨c, hcount, -⟩ := @countOccurrences_spec old new templateStr hold 0 0 (Nat.zero_le _)
  rw [dynamicReplaceInt, hcount, Option.bind_some] at h
  obtain ⟨i, hi, h⟩ := Option.bind_eq_some_iff.1 h
  obtain ⟨difference, hdifference, h⟩ := Option.bind_eq_some_iff.1 h
  obtain ⟨growth, -, h⟩ := Option.bind_eq_some_iff.1 h
  obtain ⟨length, hadd, -⟩ := Option.bind_eq_some_iff.1 h
  obtain ⟨-, rfl⟩ := int_eq_some_iff.1 hi
  have htemplate : (templateStr.length : ℤ) + 1 < 2 ^ 31 := (int_eq_some_iff.1 hadd).1.2
  exact ⟨by exact_mod_cast htemplate, hlength, Option.isSome_of_eq_some hdifference⟩

/-- All occurrences are replaced, in memory of exactly the size of the result, if and only if the
sizes fit. -/
theorem dynamicReplaceInt_eq_iff (templateStr new : List UInt8) {old : List UInt8} (hold : old ≠ []) :
    dynamicReplaceInt templateStr old new =
      some ((replaceAll old new templateStr ++ [0]).map some) ↔ SizesFit templateStr old new := by
  refine ⟨fit_of_dynamicReplaceInt hold, fun h => ?_⟩
  rw [dynamicReplaceInt_of_fit hold h]
  exact dynamicReplace_exact templateStr new hold

/-- An occurrence that overlaps with the one before it is left. -/
theorem dynamicReplaceInt_overlap :
    bytes "aa" ≠ [] ∧ dynamicReplaceInt (bytes "aaa") (bytes "aa") (bytes "aab") =
      some ((replaceAll (bytes "aa") (bytes "aab") (bytes "aaa") ++ [0]).map some) :=
  ⟨by decide, (dynamicReplaceInt_eq_iff (bytes "aaa") (bytes "aab") (by decide)).2
    ⟨by decide, by decide, by decide⟩⟩

theorem length_replaceAll_replicate (x : UInt8) (new : List UInt8) (k : ℕ) :
    (replaceAll [x] new (List.replicate k x)).length = k * new.length := by
  induction k with
  | zero => rw [replicate_zero, replaceAll_nil, length_nil, Nat.zero_mul]
  | succ k ih =>
    have hfirst : replaceAll [x] new (x :: List.replicate k x) =
        new ++ replaceAll [x] new (List.replicate k x) :=
      replaceAll_self_append (cons_ne_nil x []) new (List.replicate k x)
    rw [replicate_succ, hfirst, length_append, ih, Nat.succ_mul, Nat.add_comm]

/-- A text of 65536 letters, each of which is replaced by such a text. -/
theorem dynamicReplaceInt_long :
    ¬∀ templateStr old new : List UInt8, old ≠ [] → dynamicReplaceInt templateStr old new =
      some ((replaceAll old new templateStr ++ [0]).map some) := by
  intro h
  have hfit := fit_of_dynamicReplaceInt (cons_ne_nil _ _)
    (h (List.replicate 65536 97) [97] (List.replicate 65536 98) (cons_ne_nil _ _))
  have hresult := hfit.result
  rw [length_replaceAll_replicate, length_replicate] at hresult
  omega

end Sizes

end EricsTools

end Gargoyle
