import Gargoyle.Web.Ip6Text

/-!
# Forms of long addresses

The text of a long address has eight groups between colons, or fewer, and then two colons in a row
stand for those that are missing. The check accepts these texts, but for those with seven groups and
two colons at one end: they have nine parts between colons.
-/

namespace Gargoyle

open List

namespace Web

open InetText (isHexDigit isGroup isGroup_digits mem_splitOn)
open Numerals (numeralValue)

/-! ## Forms -/

inductive Ip6Form
  | full (groups : List (List Char))
  | compressed (before after : List (List Char))

def parts (groups : List (List Char)) : List (List Char) := if groups = [] then [[]] else groups

def groupValue (g : List Char) : ℕ := numeralValue 16 (g.map Char.toLower)

namespace Ip6Form

def text : Ip6Form → List Char
  | full groups => [':'].intercalate groups
  | compressed before after => [':'].intercalate before ++ ':' :: ':' :: [':'].intercalate after

def groups : Ip6Form → List (List Char)
  | full groups => groups
  | compressed before after => before ++ after

def components : Ip6Form → List (List Char)
  | full groups => parts groups
  | compressed before after => parts before ++ [] :: parts after

def Counts : Ip6Form → Prop
  | full groups => groups.length = 8
  | compressed before after => before.length + after.length ≤ 7

structure IsAddress (f : Ip6Form) : Prop where
  counts : f.Counts
  isGroup : ∀ g ∈ f.groups, isGroup g = true

def allGroups : Ip6Form → List (List Char)
  | full groups => groups
  | compressed before after =>
    before ++ (List.replicate (8 - (before.length + after.length)) ['0'] ++ after)

def values (f : Ip6Form) : List ℕ := f.allGroups.map groupValue

end Ip6Form

/-! ## What is between colons -/

section Parts

theorem colon_not_hex {c : Char} (h : isHexDigit c = true) : c ≠ ':' := by
  rintro rfl
  exact absurd h (by decide)

theorem isGroup_iff {g : List Char} : isGroup g = true ↔ g ≠ [] ∧ isComponent g = true := by
  simp [isGroup, isComponent, and_assoc]

theorem colon_not_mem_group {g : List Char} (h : isGroup g = true) : ':' ∉ g := fun hc =>
  colon_not_hex (isGroup_digits h hc) rfl

theorem parts_ne_nil (gs : List (List Char)) : parts gs ≠ [] := by
  rw [parts]
  split_ifs with h
  · exact cons_ne_nil _ _
  · exact h

theorem length_parts {gs : List (List Char)} :
    (parts gs).length = if gs = [] then 1 else gs.length := by
  rw [parts]
  split_ifs <;> rfl

theorem intercalate_parts (gs : List (List Char)) :
    [':'].intercalate (parts gs) = [':'].intercalate gs := by
  rw [parts]
  split_ifs with h
  · rw [h]
    rfl
  · rfl

theorem splitOn_groups {gs : List (List Char)} (h : ∀ g ∈ gs, isGroup g = true) :
    ([':'].intercalate gs).splitOn ':' = parts gs := by
  rw [← intercalate_parts]
  refine splitOn_intercalate ':' (fun p hp => ?_) (parts_ne_nil gs)
  rw [parts] at hp
  split_ifs at hp
  · rw [List.mem_singleton.1 hp]
    exact not_mem_nil
  · exact colon_not_mem_group (h p hp)

theorem splitOn_doubleColon (x y : List Char) :
    (x ++ ':' :: ':' :: y).splitOn ':' = x.splitOn ':' ++ [] :: y.splitOn ':' := by
  have hcons : (':' :: y).splitOn ':' = [] :: y.splitOn ':' := splitOn_append_cons_self [] y
  rw [splitOn_append_cons_self, hcons]

theorem Ip6Form.splitOn_text {f : Ip6Form} (h : ∀ g ∈ f.groups, isGroup g = true) :
    f.text.splitOn ':' = f.components := by
  cases f with
  | full gs => exact splitOn_groups h
  | compressed ls rs =>
    obtain ⟨hls, hrs⟩ := List.forall_mem_append.1 h
    rw [text, components, splitOn_doubleColon, splitOn_groups hls, splitOn_groups hrs]

theorem head_groups {gs : List (List Char)} (h : ∀ g ∈ gs, isGroup g = true) :
    ∀ c ∈ ([':'].intercalate gs).head?, isHexDigit c = true := by
  cases gs with
  | nil => exact fun c hc => (by cases hc)
  | cons g gs =>
    obtain ⟨hg, -⟩ := List.forall_mem_cons.1 h
    obtain ⟨d, g, rfl⟩ := exists_cons_of_ne_nil (isGroup_iff.1 hg).1
    rw [intercalate_cons_cons_left]
    rintro c ⟨⟩
    exact isGroup_digits hg mem_cons_self

theorem last_groups {gs : List (List Char)} (h : ∀ g ∈ gs, isGroup g = true) :
    ∀ c ∈ ([':'].intercalate gs).getLast?, isHexDigit c = true := by
  induction gs with
  | nil => exact fun c hc => (by cases hc)
  | cons g gs ih =>
    obtain ⟨hg, hgs⟩ := List.forall_mem_cons.1 h
    intro c hc
    cases gs with
    | nil =>
      rw [List.intercalate_singleton] at hc
      exact isGroup_digits hg (mem_of_getLast? hc)
    | cons g' gs =>
      have hne : [':'].intercalate (g' :: gs) ≠ [] := by
        obtain ⟨d, t, rfl⟩ := exists_cons_of_ne_nil
          (isGroup_iff.1 (hgs g' mem_cons_self)).1
        rw [intercalate_cons_cons_left]
        exact cons_ne_nil _ _
      rw [List.intercalate_cons_cons, getLast?_append_of_ne_nil _ hne] at hc
      exact ih hgs c hc

end Parts

/-! ## Two colons in a row -/

section DoubleColon

theorem doubleColonLater_iff {s : List Char} :
    doubleColonLater s = true ↔ ∃ m y, s = m ++ ':' :: ':' :: y ∧ m ≠ [] ∧
      ∀ c ∈ m, isLineTerminator c = false := by
  induction s with
  | nil => exact iff_of_false Bool.false_ne_true fun ⟨m, y, h, _⟩ => by simp at h
  | cons c s ih =>
    rw [doubleColonLater, Bool.and_eq_true, Bool.or_eq_true, ih, Bool.not_eq_true',
      isPrefixOf_iff_prefix]
    constructor
    · rintro ⟨hc, ⟨y, rfl⟩ | ⟨m, y, rfl, hne, hm⟩⟩
      · exact ⟨[c], y, rfl, cons_ne_nil _ _, List.forall_mem_singleton.2 hc⟩
      · exact ⟨c :: m, y, rfl, cons_ne_nil _ _, List.forall_mem_cons.2 ⟨hc, hm⟩⟩
    · rintro ⟨m, y, heq, hne, hm⟩
      obtain ⟨d, m, rfl⟩ := exists_cons_of_ne_nil hne
      obtain ⟨rfl, rfl⟩ := List.cons.inj heq
      obtain ⟨hc, hm⟩ := List.forall_mem_cons.1 hm
      refine ⟨hc, ?_⟩
      cases m with
      | nil => exact .inl ⟨y, rfl⟩
      | cons e m => exact .inr ⟨e :: m, y, rfl, cons_ne_nil _ _, hm⟩

theorem hasTwoDoubleColons_iff {s : List Char} :
    hasTwoDoubleColons s = true ↔
      ∃ x m y, s = x ++ ':' :: ':' :: (m ++ ':' :: ':' :: y) ∧ m ≠ [] ∧
        ∀ c ∈ m, isLineTerminator c = false := by
  induction s with
  | nil => exact iff_of_false Bool.false_ne_true fun ⟨x, m, y, h, _⟩ => by simp at h
  | cons c s ih =>
    rw [hasTwoDoubleColons, Bool.or_eq_true, Bool.and_eq_true, doubleColonLater_iff,
      isPrefixOf_iff_prefix]
    constructor
    · rintro (⟨⟨t, ht⟩, m, y, hdrop, hne, hm⟩ | hlater)
      · obtain ⟨rfl, rfl⟩ := List.cons.inj ht
        exact ⟨[], m, y, congrArg (fun r => ':' :: ':' :: r) hdrop, hne, hm⟩
      · obtain ⟨x, m, y, rfl, hne, hm⟩ := ih.1 hlater
        exact ⟨c :: x, m, y, rfl, hne, hm⟩
    · rintro ⟨x, m, y, heq, hne, hm⟩
      cases x with
      | nil =>
        obtain ⟨rfl, rfl⟩ := List.cons.inj heq
        exact .inl ⟨⟨_, rfl⟩, m, y, rfl, hne, hm⟩
      | cons d x =>
        obtain ⟨rfl, rfl⟩ := List.cons.inj heq
        exact .inr (ih.2 ⟨x, m, y, rfl, hne, hm⟩)

def innerEmpty (ps : List (List Char)) : ℕ := ps.tail.dropLast.count []

theorem innerEmpty_append {xs ys : List (List Char)} (hx : xs ≠ []) (hy : ys ≠ []) :
    innerEmpty (xs ++ ys) = xs.tail.count [] + ys.dropLast.count [] := by
  rw [innerEmpty, tail_append_of_ne_nil hx, dropLast_append_of_ne_nil hy,
    count_append]

theorem two_le_innerEmpty {s x m y : List Char}
    (h : s = x ++ ':' :: ':' :: (m ++ ':' :: ':' :: y)) :
    2 ≤ innerEmpty (s.splitOn ':') := by
  have hy := splitOn_ne_nil ':' y
  have hrest : [] :: (m.splitOn ':' ++ [] :: y.splitOn ':') ≠ [] := cons_ne_nil _ _
  have hdrop : ([] :: (m.splitOn ':' ++ [] :: y.splitOn ':')).dropLast =
      [] :: (m.splitOn ':' ++ [] :: (y.splitOn ':').dropLast) := by
    rw [dropLast_cons_of_ne_nil (by simp), dropLast_append_of_ne_nil (by simp),
      dropLast_cons_of_ne_nil hy]
  rw [h, splitOn_doubleColon, splitOn_doubleColon,
    innerEmpty_append (splitOn_ne_nil ':' x) hrest, hdrop, count_cons_self,
    count_append, count_cons_self]
  omega

theorem infix_doubleColon {s : List Char} :
    [':', ':'] <:+: s ↔ ∃ x y, s = x ++ ':' :: ':' :: y :=
  ⟨fun ⟨x, y, h⟩ => ⟨x, y, by rw [← h]; simp⟩, fun ⟨x, y, h⟩ => ⟨x, y, by rw [h]; simp⟩⟩

theorem endsWithSingleColon_concat {s : List Char} {c : Char} (hc : c ≠ ':') :
    endsWithSingleColon (s ++ [c, ':']) = true := by
  rw [endsWithSingleColon, reverse_append]
  exact decide_eq_true hc

theorem ne_nil_of_mem_splitOn {t : List Char} (hne : t ≠ []) ( hinfix : ¬[':', ':'] <:+: t)
    (hhead : t.head? ≠ some ':') (hlast : t.getLast? ≠ some ':') :
    ∀ p ∈ t.splitOn ':', p ≠ [] := by
  rintro p hp rfl
  obtain ⟨xs, ys, hsplit⟩ := append_of_mem hp
  have hjoin : [':'].intercalate (xs ++ [] :: ys) = t := by
    rw [← hsplit, intercalate_splitOn]
  rcases eq_nil_or_concat xs with rfl | ⟨xs, x, rfl⟩
  · cases ys with
    | nil => exact hne hjoin.symm
    | cons y ys =>
      rw [nil_append, List.intercalate_cons_cons] at hjoin
      exact hhead (by rw [← hjoin]; rfl)
  · have hfront : ∀ (xs : List (List Char)) (zs : List (List Char)), zs ≠ [] →
        ∃ s, [':'].intercalate (xs ++ zs) = s ++ [':'].intercalate zs ∧
          (xs ≠ [] → s.getLast? = some ':') := by
      intro xs zs hzs
      induction xs with
      | nil => exact ⟨[], rfl, fun h => absurd rfl h⟩
      | cons x xs ih =>
        obtain ⟨s, hs, hcolon⟩ := ih
        refine ⟨x ++ (':' :: s), ?_, fun _ => ?_⟩
        · rw [cons_append, intercalate_cons_of_ne_nil (by simp [hzs]), hs]
          simp
        · cases xs with
          | nil =>
            obtain rfl : s = [] := by simpa using hs
            simp
          | cons y xs =>
            have hsome := hcolon (cons_ne_nil y xs)
            rw [getLast?_append_of_ne_nil _ (cons_ne_nil _ _), getLast?_cons,
              hsome]
            rfl
    obtain ⟨s, hs, hcolon⟩ := hfront (xs.concat x) ([] :: ys) (cons_ne_nil _ _)
    have hcolon := hcolon (by simp)
    obtain ⟨s, rfl⟩ := List.getLast?_eq_some_iff.1 hcolon
    cases ys with
    | nil =>
      rw [hs, List.intercalate_singleton, List.append_nil] at hjoin
      exact hlast (by rw [← hjoin]; simp)
    | cons y ys =>
      rw [hs, List.intercalate_cons_cons] at hjoin
      exact hinfix (infix_doubleColon.2 ⟨s, [':'].intercalate (y :: ys), by rw [← hjoin]; simp⟩)

theorem exists_groups {t : List Char} (hcomponents : ∀ p ∈ t.splitOn ':', isComponent p = true)
    ( hinfix : ¬[':', ':'] <:+: t) (hhead : t.head? ≠ some ':') (hlast : t.getLast? ≠ some ':') :
    ∃ gs, (∀ g ∈ gs, isGroup g = true) ∧ [':'].intercalate gs = t := by
  by_cases hne : t = []
  · exact ⟨[], forall_mem_nil _, hne.symm⟩
  · refine ⟨t.splitOn ':', fun g hg => isGroup_iff.2 ⟨?_, hcomponents g hg⟩,
      intercalate_splitOn ':'⟩
    exact ne_nil_of_mem_splitOn hne hinfix hhead hlast g hg

end DoubleColon

/-! ## What the check accepts -/

section Check

theorem hex_not_terminator {c : Char} (h : isHexDigit c = true) : isLineTerminator c = false := by
  have hall : ∀ d ∈ ['\n', '\r', '\u2028', '\u2029'], isHexDigit d = false :=
    Numerals.forall_mem_of_all (by decide)
  rw [isLineTerminator, decide_eq_false_iff_not]
  intro hc
  exact absurd ((hall c hc).symm.trans h) Bool.false_ne_true

theorem isComponent_chars {s : List Char} (h : (s.splitOn ':').all isComponent = true) {c : Char}
    (hc : c ∈ s) : c = ':' ∨ isHexDigit c = true := by
  rcases mem_splitOn ':' hc with rfl | ⟨p, hp, hc⟩
  · exact .inl rfl
  · have hcomponent := List.all_eq_true.1 h p hp
    rw [isComponent, Bool.and_eq_true, all_eq_true] at hcomponent
    exact .inr (hcomponent.2 c hc)

theorem rejected_of_two {x m y : List Char}
    (h : ((x ++ ':' :: ':' :: (m ++ ':' :: ':' :: y)).splitOn ':').all isComponent = true)
    (hthree : ¬[':', ':', ':'] <:+: x ++ ':' :: ':' :: (m ++ ':' :: ':' :: y)) :
    hasTwoDoubleColons (x ++ ':' :: ':' :: (m ++ ':' :: ':' :: y)) = true := by
  refine hasTwoDoubleColons_iff.2 ⟨x, m, y, rfl, ?_, fun c hc => ?_⟩
  · rintro rfl
    exact hthree ⟨x, ':' :: y, by simp⟩
  · rcases isComponent_chars h (c := c) (by simp [hc]) with rfl | hhex
    · decide
    · exact hex_not_terminator hhex

theorem validateIP6_eq_zero_iff {s : List Char} :
    validateIP6 s = 0 ↔
      (¬([':', ':', ':'] <:+: s ∨ hasTwoDoubleColons s = true ∨ endsWithSingleColon s = true ∨
        startsWithSingleColon s = true)) ∧
      ¬((s.splitOn ':').length < 2 ∨ 8 < (s.splitOn ':').length) ∧
      ¬((s.splitOn ':').length < 8 ∧ ¬[':', ':'] <:+: s) ∧
      (s.splitOn ':').all isComponent = true := by
  simp only [validateIP6]
  split_ifs <;> simp_all

/-- A text that is accepted has the form of an address. -/
theorem exists_form {s : List Char} (h : validateIP6 s = 0) :
    ∃ f : Ip6Form, f.IsAddress ∧ f.text = s := by
  obtain ⟨hpatterns, hlength, hshort, hcomponents⟩ := validateIP6_eq_zero_iff.1 h
  rw [not_or, not_or, not_or] at hpatterns
  obtain ⟨hthree, htwo, hend, hstart⟩ := hpatterns
  have hlast : ∀ {t : List Char}, s = t ++ [':'] → t ≠ [] → ¬[':', ':'] <:+: s → False := by
    rintro t rfl ht hinfix
    obtain ⟨t, c, rfl⟩ := (eq_nil_or_concat t).resolve_left ht
    rw [concat_eq_append, append_assoc] at hend hinfix
    refine hend (endsWithSingleColon_concat ?_)
    rintro rfl
    exact hinfix (infix_doubleColon.2 ⟨t, [], rfl⟩)
  by_cases hinfix : [':', ':'] <:+: s
  · obtain ⟨x, y, rfl⟩ := infix_doubleColon.1 hinfix
    have hsplit := splitOn_doubleColon x y
    have hall := hcomponents
    rw [hsplit, all_append, Bool.and_eq_true, all_cons, Bool.and_eq_true] at hall
    obtain ⟨hxall, -, hyall⟩ := hall
    have hxend : x.getLast? ≠ some ':' := by
      intro hcolon
      obtain ⟨x, rfl⟩ := List.getLast?_eq_some_iff.1 hcolon
      exact hthree ⟨x, y, by simp⟩
    have hystart : y.head? ≠ some ':' := by
      intro hcolon
      obtain ⟨y, rfl⟩ := List.head?_eq_some_iff.1 hcolon
      exact hthree ⟨x, y, by simp⟩
    have hxinfix : ¬[':', ':'] <:+: x := by
      intro hx
      obtain ⟨z, m, rfl⟩ := infix_doubleColon.1 hx
      rw [append_assoc, cons_append, cons_append] at hcomponents hthree htwo
      exact htwo (rejected_of_two hcomponents hthree)
    have hyinfix : ¬[':', ':'] <:+: y := by
      intro hy
      obtain ⟨m, z, rfl⟩ := infix_doubleColon.1 hy
      exact htwo (rejected_of_two hcomponents hthree)
    have hxstart : x.head? ≠ some ':' := by
      intro hcolon
      obtain ⟨z, rfl⟩ := List.head?_eq_some_iff.1 hcolon
      cases z with
      | nil => exact hxend rfl
      | cons c z =>
        have hc : c ≠ ':' := by
          rintro rfl
          exact hxinfix ⟨[], z, rfl⟩
        refine hstart ?_
        have hnot : [':', ':'].isPrefixOf (':' :: c :: z ++ ':' :: ':' :: y) = false := by
          simp [List.isPrefixOf, hc.symm]
        rw [startsWithSingleColon, hnot]
        rfl
    have hyend : y.getLast? ≠ some ':' := by
      intro hcolon
      obtain ⟨z, rfl⟩ := List.getLast?_eq_some_iff.1 hcolon
      obtain ⟨z, c, rfl⟩ : ∃ z' c, z = z' ++ [c] := by
        rcases eq_nil_or_concat z with rfl | ⟨z, c, rfl⟩
        · exact absurd rfl hystart
        · exact ⟨z, c, concat_eq_append⟩
      refine hend ?_
      have heq : x ++ ':' :: ':' :: (z ++ [c] ++ [':']) = (x ++ ':' :: ':' :: z) ++ [c, ':'] := by
        simp
      rw [heq]
      refine endsWithSingleColon_concat ?_
      rintro rfl
      exact hyinfix ⟨z, [], by simp⟩
    obtain ⟨ls, hls, rfl⟩ := exists_groups (List.all_eq_true.1 hxall) hxinfix hxstart hxend
    obtain ⟨rs, hrs, rfl⟩ := exists_groups (List.all_eq_true.1 hyall) hyinfix hystart hyend
    refine ⟨.compressed ls rs, ⟨?_, List.forall_mem_append.2 ⟨hls, hrs⟩⟩, rfl⟩
    have hle : (parts ls).length + (1 + (parts rs).length) ≤ 8 := by
      rw [hsplit, splitOn_groups hls, splitOn_groups hrs, length_append,
        length_cons] at hlength
      omega
    have hparts : ∀ gs, gs.length ≤ (parts gs).length := by
      intro gs
      rw [parts]
      split_ifs with hnil
      · rw [hnil]
        exact Nat.zero_le _
      · exact le_rfl
    have hl := hparts ls
    have hr := hparts rs
    simp only [Ip6Form.Counts]
    omega
  · have height : (s.splitOn ':').length = 8 := by
      have hge : ¬(s.splitOn ':').length < 8 := fun hlt => hshort ⟨hlt, hinfix⟩
      omega
    have hsend : s.getLast? ≠ some ':' := by
      intro hcolon
      obtain ⟨t, ht⟩ := List.getLast?_eq_some_iff.1 hcolon
      refine hlast ht ?_ hinfix
      rintro rfl
      rw [ht] at height
      exact absurd height (by decide)
    have hsstart : s.head? ≠ some ':' := by
      intro hcolon
      obtain ⟨t, rfl⟩ := List.head?_eq_some_iff.1 hcolon
      refine hstart ?_
      have hnot : [':', ':'].isPrefixOf (':' :: t) = false := by
        rw [← Bool.not_eq_true, isPrefixOf_iff_prefix]
        exact fun hprefix => hinfix hprefix.isInfix
      rw [startsWithSingleColon, hnot]
      rfl
    obtain ⟨gs, hgs, rfl⟩ := exists_groups (List.all_eq_true.1 hcomponents) hinfix hsstart hsend
    refine ⟨.full gs, ⟨?_, hgs⟩, rfl⟩
    rw [splitOn_groups hgs] at height
    rw [parts] at height
    split_ifs at height
    · exact absurd height (by decide)
    · exact height

variable {f : Ip6Form}

theorem components_of_parts {gs : List (List Char)} (h : ∀ g ∈ gs, isGroup g = true) :
    ∀ p ∈ parts gs, isComponent p = true := by
  rw [parts]
  split_ifs
  · exact List.forall_mem_singleton.2 rfl
  · exact fun p hp => (isGroup_iff.1 (h p hp)).2

theorem count_parts {gs : List (List Char)} (h : ∀ g ∈ gs, isGroup g = true) :
    (parts gs).tail.count [] = 0 ∧ (parts gs).dropLast.count [] = 0 := by
  have hnot : [] ∉ gs := fun hmem => (isGroup_iff.1 (h [] hmem)).1 rfl
  rw [parts]
  split_ifs
  · exact ⟨rfl, rfl⟩
  · exact ⟨List.count_eq_zero.2 fun hmem => hnot (mem_of_mem_tail hmem),
      List.count_eq_zero.2 fun hmem => hnot ((dropLast_sublist gs).subset hmem)⟩

theorem Ip6Form.innerEmpty_le (h : ∀ g ∈ f.groups, isGroup g = true) :
    innerEmpty f.components ≤ 1 := by
  cases f with
  | full gs =>
    have htail := (@count_parts gs h).1
    have hsub := (dropLast_sublist (parts gs).tail).count_le []
    rw [components, innerEmpty]
    omega
  | compressed ls rs =>
    obtain ⟨hls, hrs⟩ := List.forall_mem_append.1 h
    have hcons : ([] :: parts rs).dropLast = [] :: (parts rs).dropLast :=
      dropLast_cons_of_ne_nil (parts_ne_nil rs)
    rw [components, innerEmpty_append (parts_ne_nil ls) (cons_ne_nil _ _), hcons,
      count_cons_self, (count_parts hls).1, (count_parts hrs).2]

/-- No form of an address has a single colon at an end. -/
theorem Ip6Form.ends (h : f.IsAddress) :
    endsWithSingleColon f.text = false ∧ startsWithSingleColon f.text = false := by
  have hend : ∀ s : List Char, s.getLast? ≠ some ':' → endsWithSingleColon s = false := by
    intro s hs
    rw [endsWithSingleColon.eq_def]
    split
    · next c t hrev =>
        have hlast : s.getLast? = some ':' := by
          rw [← head?_reverse, hrev]
          rfl
        exact absurd hlast hs
    · rfl
  have hstart : ∀ s : List Char, s.head? ≠ some ':' → startsWithSingleColon s = false := by
    intro s hs
    cases s with
    | nil => rfl
    | cons c s =>
      have hc : ':' ≠ c := fun heq => hs (by rw [← heq]; rfl)
      rw [startsWithSingleColon, List.isPrefixOf, beq_eq_false_iff_ne.2 hc]
      rfl
  have hnotlast : ∀ {gs : List (List Char)}, (∀ g ∈ gs, isGroup g = true) →
      ([':'].intercalate gs).getLast? ≠ some ':' := fun hgs hcolon =>
    colon_not_hex (last_groups hgs ':' hcolon) rfl
  have hnothead : ∀ {gs : List (List Char)}, (∀ g ∈ gs, isGroup g = true) →
      ([':'].intercalate gs).head? ≠ some ':' := fun hgs hcolon =>
    colon_not_hex (head_groups hgs ':' hcolon) rfl
  cases f with
  | full gs => exact ⟨hend _ (hnotlast h.isGroup), hstart _ (hnothead h.isGroup)⟩
  | compressed ls rs =>
    obtain ⟨hls, hrs⟩ := List.forall_mem_append.1 h.isGroup
    constructor
    · by_cases hempty : [':'].intercalate rs = []
      · rw [text, hempty, endsWithSingleColon, reverse_append]
        rfl
      · refine hend _ ?_
        rw [text, getLast?_append_of_ne_nil _ (cons_ne_nil _ _),
          getLast?_cons_of_ne_nil (cons_ne_nil _ _),
          getLast?_cons_of_ne_nil hempty]
        exact hnotlast hrs
    · by_cases hempty : [':'].intercalate ls = []
      · rw [text, hempty]
        rfl
      · refine hstart _ ?_
        rw [text, head?_append_of_ne_nil _ hempty]
        exact hnothead hls

theorem mem_splitOn_text (h : f.IsAddress) {c : Char} (hc : c ∈ f.text) :
    c = ':' ∨ isHexDigit c = true := by
  refine isComponent_chars (s := f.text) ?_ hc
  rw [Ip6Form.splitOn_text h.isGroup, all_eq_true]
  cases f with
  | full gs => exact components_of_parts h.isGroup
  | compressed ls rs =>
    obtain ⟨hls, hrs⟩ := List.forall_mem_append.1 h.isGroup
    exact List.forall_mem_append.2 ⟨components_of_parts hls,
      List.forall_mem_cons.2 ⟨rfl, components_of_parts hrs⟩⟩

/-- The form of an address is accepted. -/
theorem validateIP6_text (h : f.IsAddress) (hlength : f.components.length ≤ 8) :
    validateIP6 f.text = 0 := by
  have hsplit := Ip6Form.splitOn_text h.isGroup
  have hinner := Ip6Form.innerEmpty_le h.isGroup
  rw [← hsplit] at hinner
  obtain ⟨hends, hstarts⟩ := Ip6Form.ends h
  refine validateIP6_eq_zero_iff.2 ⟨?_, ?_, ?_, ?_⟩
  · rintro (⟨x, y, hthree⟩ | htwo | hend | hstart)
    · have htwo : f.text = x ++ ':' :: ':' :: ':' :: y := by
        rw [← hthree]
        simp
      have hsplit := splitOn_doubleColon x (':' :: y)
      have hcons : (':' :: y).splitOn ':' = [] :: y.splitOn ':' :=
        splitOn_append_cons_self [] y
      have hne := splitOn_ne_nil ':' y
      rw [htwo, hsplit, hcons, innerEmpty_append (splitOn_ne_nil ':' x)
        (cons_ne_nil _ _), dropLast_cons_of_ne_nil (cons_ne_nil _ _),
        dropLast_cons_of_ne_nil hne, count_cons_self, count_cons_self] at hinner
      omega
    · obtain ⟨x, m, y, heq, -, -⟩ := hasTwoDoubleColons_iff.1 htwo
      exact absurd (two_le_innerEmpty heq) (by omega)
    · exact absurd (hends.symm.trans hend) Bool.false_ne_true
    · exact absurd (hstarts.symm.trans hstart) Bool.false_ne_true
  · rw [hsplit]
    have htwo : 2 ≤ f.components.length := by
      cases f with
      | full gs =>
        have hcount : gs.length = 8 := h.counts
        have hne : gs ≠ [] := by
          rintro rfl
          exact absurd hcount (by decide)
        rw [Ip6Form.components, parts, if_neg hne]
        omega
      | compressed ls rs =>
        have hl := List.length_pos_iff.2 (parts_ne_nil ls)
        rw [Ip6Form.components, length_append, length_cons]
        omega
    omega
  · rintro ⟨hlt, hinfix⟩
    cases f with
    | full gs =>
      have hcount : gs.length = 8 := h.counts
      have hne : gs ≠ [] := by
        rintro rfl
        exact absurd hcount (by decide)
      rw [hsplit, Ip6Form.components, parts, if_neg hne] at hlt
      omega
    | compressed ls rs => exact hinfix (infix_doubleColon.2 ⟨_, _, rfl⟩)
  · rw [hsplit, all_eq_true]
    cases f with
    | full gs => exact components_of_parts h.isGroup
    | compressed ls rs =>
      obtain ⟨hls, hrs⟩ := List.forall_mem_append.1 h.isGroup
      exact List.forall_mem_append.2 ⟨components_of_parts hls,
        List.forall_mem_cons.2 ⟨rfl, components_of_parts hrs⟩⟩

theorem validateIP6_iff {s : List Char} :
    validateIP6 s = 0 ↔ ∃ f : Ip6Form, (f.IsAddress ∧ f.components.length ≤ 8) ∧ f.text = s := by
  constructor
  · intro h
    obtain ⟨f, hf, rfl⟩ := exists_form h
    have hlength := (validateIP6_eq_zero_iff.1 h).2.1
    rw [Ip6Form.splitOn_text hf.isGroup] at hlength
    exact ⟨f, ⟨hf, by omega⟩, rfl⟩
  · rintro ⟨f, ⟨hf, hlength⟩, rfl⟩
    exact validateIP6_text hf hlength

end Check

end Web

end Gargoyle
