import Gargoyle.Web.Ip6Forms

/-!
# What the checks of long addresses accept

The grammar of addresses has eight groups, or fewer and two colons in a row. The check for an
address misses seven groups with two colons at one end. The check for a subnet takes any text for
the mask that is no number, or is one within the bounds when it is asked for a number: an empty
text, a fraction, or no numeral at all.
-/

namespace Gargoyle

open List

namespace Web

open InetText (isHexDigit isGroup)
open ScriptNumber (IsDecimal)

/-! ## The grammar -/

def IsIp6Text (s : List Char) : Prop := ∃ f : Ip6Form, f.IsAddress ∧ f.text = s

def IsMaskText (s : List Char) : Prop := ∃ n, IsDecimal s n ∧ -128 ≤ n ∧ n ≤ 128

def IsIp6RangeText (s : List Char) : Prop :=
  IsIp6Text s ∨ ∃ a m, s = a ++ '/' :: m ∧ IsIp6Text a ∧ IsMaskText m

/-! ## What is accepted beside it -/

def SevenGroups (s : List Char) : Prop :=
  ∃ gs : List (List Char), gs.length = 7 ∧ (∀ g ∈ gs, isGroup g = true) ∧
    (s = ':' :: ':' :: [':'].intercalate gs ∨ s = [':'].intercalate gs ++ [':', ':'])

def maskAccepted (m : List Char) : Prop :=
  ¬((ScriptNumber.ofText m).isLess (-128) = true ∨ (ScriptNumber.ofText m).isGreater 128 = true)

def LooseMask (s : List Char) : Prop :=
  ∃ a m, s = a ++ '/' :: m ∧ '/' ∉ m ∧ validateIP6 a = 0 ∧ maskAccepted m ∧ ∀ n, ¬IsDecimal m n

def SevenGroupsMask (s : List Char) : Prop :=
  ∃ a m, s = a ++ '/' :: m ∧ SevenGroups a ∧ IsMaskText m

section Validators

variable {s : List Char}

theorem isIp6Text_of_valid (h : validateIP6 s = 0) : IsIp6Text s := by
  obtain ⟨f, ⟨hf, -⟩, htext⟩ := validateIP6_iff.1 h
  exact ⟨f, hf, htext⟩

theorem isIp6Text_of_sevenGroups (h : SevenGroups s) : IsIp6Text s := by
  obtain ⟨gs, hlength, hgs, rfl | rfl⟩ := h
  · refine ⟨.compressed [] gs, ⟨?_, hgs⟩, rfl⟩
    rw [Ip6Form.Counts, length_nil, Nat.zero_add]
    exact hlength.le
  · refine ⟨.compressed gs [], ⟨hlength.le, ?_⟩, rfl⟩
    rw [Ip6Form.groups, List.append_nil]
    exact hgs

theorem invalid_of_sevenGroups (h : SevenGroups s) : validateIP6 s ≠ 0 := by
  obtain ⟨gs, hlength, hgs, hs⟩ := h
  have hne : gs ≠ [] := by
    rintro rfl
    exact absurd hlength (by decide)
  have hnine : (s.splitOn ':').length = 9 := by
    have hparts : (parts gs).length = 7 := by rw [length_parts, if_neg hne, hlength]
    rcases hs with rfl | rfl
    · have hsplit := splitOn_doubleColon [] ([':'].intercalate gs)
      rw [nil_append] at hsplit
      rw [hsplit, splitOn_groups hgs, length_append, length_cons, hparts]
      rfl
    · rw [splitOn_doubleColon, splitOn_groups hgs, length_append, length_cons, hparts]
      rfl
  intro hvalid
  have hlength := (validateIP6_eq_zero_iff.1 hvalid).2.1
  omega

/-- What is meant and what is accepted differ by a text of seven groups. -/
theorem isIp6Text_iff : IsIp6Text s ↔ validateIP6 s = 0 ∨ SevenGroups s := by
  constructor
  · rintro ⟨f, hf, rfl⟩
    rcases le_or_gt f.components.length 8 with hle | hgt
    · exact .inl (validateIP6_text hf hle)
    · right
      cases f with
      | full gs =>
        have hcount : gs.length = 8 := hf.counts
        rw [Ip6Form.components, length_parts] at hgt
        split_ifs at hgt <;> omega
      | compressed ls rs =>
        have hcount : ls.length + rs.length ≤ 7 := hf.counts
        rw [Ip6Form.components, length_append, length_cons, length_parts,
          length_parts] at hgt
        obtain ⟨hls, hrs⟩ := List.forall_mem_append.1 hf.isGroup
        by_cases hl : ls = []
        · subst hl
          have hseven : rs.length = 7 := by
            rw [if_pos rfl] at hgt
            simp only [length_nil] at hcount
            split_ifs at hgt <;> omega
          exact ⟨rs, hseven, hrs, Or.inl rfl⟩
        · by_cases hr : rs = []
          · subst hr
            have hseven : ls.length = 7 := by
              rw [if_neg hl, if_pos rfl] at hgt
              simp only [length_nil] at hcount
              omega
            exact ⟨ls, hseven, hls, Or.inr rfl⟩
          · rw [if_neg hl, if_neg hr] at hgt
            omega
  · rintro (hvalid | hseven)
    · exact isIp6Text_of_valid hvalid
    · exact isIp6Text_of_sevenGroups hseven

theorem slash_not_mem (h : IsIp6Text s) : '/' ∉ s := by
  intro hslash
  obtain ⟨f, hf, rfl⟩ := h
  rcases mem_splitOn_text hf hslash with hcolon | hhex
  · exact absurd hcolon (by decide)
  · exact absurd hhex (by decide)

theorem validateIP6_nil : validateIP6 [] ≠ 0 := by decide

/-- A range is an address, with or without the length of a prefix. -/
theorem validateIP6Range_iff :
    validateIP6Range s = 0 ↔ validateIP6 s = 0 ∨
      ∃ a m, s = a ++ '/' :: m ∧ '/' ∉ m ∧ validateIP6 a = 0 ∧ maskAccepted m := by
  constructor
  · intro h
    rw [validateIP6Range] at h
    split_ifs at h with hslash
    · right
      split at h
      · next a m hsplit =>
          have hjoin : ['/'].intercalate (s.splitOn '/') = s := intercalate_splitOn '/'
          rw [hsplit, List.intercalate_cons_cons, List.intercalate_singleton,
            append_assoc] at hjoin
          have hboth : validateIP6 a = 0 ∧ maskAccepted m := by
            by_contra hnot
            rw [maskAccepted] at hnot
            simp only [if_neg hnot] at h
            exact absurd h Nat.one_ne_zero
          refine ⟨a, m, hjoin.symm, ?_, hboth⟩
          intro hm
          have hcount := congrArg List.length hsplit
          obtain ⟨x, y, rfl⟩ := append_of_mem hm
          rw [← hjoin, singleton_append, splitOn_append_cons_self,
            splitOn_append_cons_self, length_append, length_append] at hcount
          have ha := List.length_pos_iff.2 (splitOn_ne_nil '/' a)
          have hx := List.length_pos_iff.2 (splitOn_ne_nil '/' x)
          have hy := List.length_pos_iff.2 (splitOn_ne_nil '/' y)
          simp only [length_cons, length_nil] at hcount
          omega
      · exact absurd h Nat.one_ne_zero
    · exact .inl h
  · rintro (hvalid | ⟨a, m, rfl, hm, ha, haccepted⟩)
    · have hslash := slash_not_mem (isIp6Text_of_valid hvalid)
      rw [validateIP6Range, if_neg fun h => hslash h.1]
      exact hvalid
    · have hslash := slash_not_mem (isIp6Text_of_valid ha)
      have hhead : (a ++ '/' :: m).head? ≠ some '/' := by
        cases a with
        | nil => exact absurd ha validateIP6_nil
        | cons c a =>
          intro heq
          exact hslash (List.mem_cons.2 (Or.inl (Option.some.inj heq).symm))
      have hsplit : (a ++ '/' :: m).splitOn '/' = [a, m] := by
        rw [splitOn_append_cons_self_of_not_mem hslash, splitOn_eq_singleton hm]
      rw [validateIP6Range, if_pos ⟨mem_append_right _ mem_cons_self, hhead⟩, hsplit]
      exact if_pos ⟨ha, haccepted⟩

theorem maskAccepted_decimal {m : List Char} {n : ℤ} (h : IsDecimal m n) :
    maskAccepted m ↔ -128 ≤ n ∧ n ≤ 128 := by
  rw [maskAccepted, ScriptNumber.ofText_decimal h,
    (ScriptNumber.compare_nearest (by decide)).1, (ScriptNumber.compare_nearest (by decide)).2]
  omega

theorem slash_not_mem_decimal {m : List Char} {n : ℤ} (h : IsDecimal m n) : '/' ∉ m := by
  have hdigits : ∀ {s : List Char}, (∀ c ∈ s, c.isDigit = true) → '/' ∉ s := fun hs hmem =>
    absurd (hs _ hmem) (by decide)
  cases h with
  | plain hne hs => exact hdigits hs
  | plus hne hs => exact not_mem_cons_of_ne_of_not_mem (by decide) (hdigits hs)
  | minus hne hs => exact not_mem_cons_of_ne_of_not_mem (by decide) (hdigits hs)

theorem slash_inj {a a' m m' : List Char} (h : a ++ '/' :: m = a' ++ '/' :: m') (ha : '/' ∉ a)
    (ha' : '/' ∉ a') : a = a' ∧ m = m' := by
  have hsplit := congrArg (List.splitOn '/') h
  rw [splitOn_append_cons_self_of_not_mem ha,
    splitOn_append_cons_self_of_not_mem ha'] at hsplit
  obtain rfl := (List.cons.inj hsplit).1
  exact ⟨rfl, (List.cons.inj (append_cancel_left h)).2⟩

/-- The checks accept exactly what the grammar allows, unless the text has seven groups and two
colons at one end, or a mask that is no decimal integer. -/
theorem validators_exact_iff (s : List Char) :
    ((validateIP6 s = 0 ↔ IsIp6Text s) ∧ (validateIP6Range s = 0 ↔ IsIp6RangeText s)) ↔
      ¬SevenGroups s ∧ ¬SevenGroupsMask s ∧ ¬LooseMask s := by
  constructor
  · rintro ⟨haddress, hrange⟩
    refine ⟨fun hseven => ?_, ?_, ?_⟩
    · exact invalid_of_sevenGroups hseven (haddress.2 (isIp6Text_of_sevenGroups hseven))
    · rintro ⟨a, m, rfl, hseven, hmask⟩
      have ha := isIp6Text_of_sevenGroups hseven
      rcases validateIP6Range_iff.1 (hrange.2 (Or.inr ⟨a, m, rfl, ha, hmask⟩)) with
        hvalid | ⟨a', m', heq, -, hvalid, -⟩
      · exact slash_not_mem (isIp6Text_of_valid hvalid) (by simp)
      · obtain ⟨rfl, -⟩ := slash_inj heq (slash_not_mem ha)
          (slash_not_mem (isIp6Text_of_valid hvalid))
        exact invalid_of_sevenGroups hseven hvalid
    · rintro ⟨a, m, rfl, hm, hvalid, haccepted, hnot⟩
      rcases hrange.1 (validateIP6Range_iff.2 (Or.inr ⟨a, m, rfl, hm, hvalid, haccepted⟩)) with
        htext | ⟨a', m', heq, ha', n, hn, -⟩
      · exact slash_not_mem htext (by simp)
      · obtain ⟨-, rfl⟩ := slash_inj heq (slash_not_mem (isIp6Text_of_valid hvalid))
          (slash_not_mem ha')
        exact hnot n hn
  · rintro ⟨hseven, hsevenmask, hloose⟩
    refine ⟨⟨isIp6Text_of_valid, fun h => (isIp6Text_iff.1 h).resolve_right hseven⟩, ?_⟩
    rw [validateIP6Range_iff]
    constructor
    · rintro (hvalid | ⟨a, m, rfl, hm, hvalid, haccepted⟩)
      · exact .inl (isIp6Text_of_valid hvalid)
      · obtain ⟨n, hn⟩ : ∃ n, IsDecimal m n := by
          by_contra hnone
          exact hloose ⟨a, m, rfl, hm, hvalid, haccepted, not_exists.1 hnone⟩
        exact .inr ⟨a, m, rfl, isIp6Text_of_valid hvalid, n, hn,
          (maskAccepted_decimal hn).1 haccepted⟩
    · rintro (htext | ⟨a, m, rfl, ha, n, hn, hbounds⟩)
      · exact .inl ((isIp6Text_iff.1 htext).resolve_right hseven)
      · refine .inr ⟨a, m, rfl, slash_not_mem_decimal hn, ?_, (maskAccepted_decimal hn).2 hbounds⟩
        exact (isIp6Text_iff.1 ha).resolve_right fun h => hsevenmask ⟨a, m, rfl, h, n, hn, hbounds⟩

/-- Seven groups and two colons behind them are an address that is not accepted. -/
theorem seven_groups_rejected :
    ¬∀ s, (validateIP6 s = 0 ↔ IsIp6Text s) ∧ (validateIP6Range s = 0 ↔ IsIp6RangeText s) := by
  intro h
  have hrejected : validateIP6 ['1', ':', '2', ':', '3', ':', '4', ':', '5', ':', '6', ':', '7', ':',
      ':'] ≠ 0 := by decide
  refine hrejected ((h _).1.2 ⟨.compressed [['1'], ['2'], ['3'], ['4'], ['5'], ['6'], ['7']] [],
    ⟨?_, ?_⟩, rfl⟩)
  · exact le_rfl
  · exact List.all_eq_true.1 (by decide)

end Validators

end Web

end Gargoyle
