import Gargoyle.Web.Ip6Items

/-!
# Overlap of long addresses

The ends of items are compared as texts. Those of a subnet are in small letters and those of all
other items in capitals, so that the comparison of a subnet with another item may see its first
address behind the last one of the item, or its last address behind the first one, only because of
the case. Two subnets, and two items that are none, overlap if and only if they have an address in
common.
-/

namespace Gargoyle

open List

namespace Web

open Numerals
open TextSplit

/-! ## Ends as texts -/

def IsFullText (r : ℕ → Char) (n : ℕ) (s : List Char) : Prop :=
  ∃ vs : List ℕ, (vs.length = 8 ∧ ∀ v ∈ vs, v < 65536) ∧ addressNumber vs = n ∧ fullWith r vs = s

def Ip6Item.digit : Ip6Item → ℕ → Char
  | subnet .. => Nat.digitChar
  | _ => fun d => (Nat.digitChar d).toUpper

section Ends

variable {i j : Ip6Item}

theorem IsFullText.lt {r : ℕ → Char} {n : ℕ} {s : List Char} (h : IsFullText r n s) :
    n < 2 ^ 128 := by
  obtain ⟨vs, ⟨hlength, hvs⟩, rfl, -⟩ := h
  have hlt := addressNumber_lt hvs
  rw [hlength] at hlt
  exact hlt.trans_le (by norm_num)

theorem IsFullText.atMost {r r' : ℕ → Char} {n m : ℕ} {s t : List Char} (hs : IsFullText r n s)
    (ht : IsFullText r' m t) :
    textAtMost s t = true ↔
      textAtMost ((addressDigits n).map r) ((addressDigits m).map r') = true := by
  obtain ⟨vs, ⟨hvlength, hv⟩, rfl, rfl⟩ := hs
  obtain ⟨ws, ⟨hwlength, hw⟩, rfl, rfl⟩ := ht
  exact fullWith_atMost hv hw hvlength hwlength

theorem fullWith_digitChar (vs : List ℕ) : fullWith Nat.digitChar vs = (fullForm vs).text := by
  rw [fullWith, fullForm, Ip6Form.text]
  exact congrArg _ (map_congr_left fun v _ => smallText_groupDigits v)

theorem isFullText_capital (a : Ip6Address) (h : ∀ c ∈ a.text, c.toUpper = c) :
    IsFullText (fun d => (Nat.digitChar d).toUpper) a.number (ip6Full a.text) :=
  ⟨a.form.values, ⟨length_values a.isAddress, values_lt a.isAddress⟩, rfl,
    (ip6Full_capital a.isAddress h).symm⟩

/-- The ends of a subnet, as full forms. -/
theorem getIp6RangeStrings_subnet (a : Ip6Address) {bits : List Char} (h : IsIp6PrefixLength bits) :
    ∃ s t, getIp6RangeStrings (a.text ++ '/' :: bits) = some (s, t) ∧
      IsFullText Nat.digitChar (Ip6Item.subnet a bits h).ends.1 s ∧
      IsFullText Nat.digitChar (Ip6Item.subnet a bits h).ends.2 t := by
  have hn := h.small
  have hvalue : ScriptNumber.ofText bits = .finite (numeralValue 10 bits : ℕ) := by
    rw [ScriptNumber.ofText_decimal (.plain h.ne_nil h.digits), ScriptNumber.nearest_intCast]
    · rfl
    · rw [abs_of_nonneg (Int.natCast_nonneg _)]
      omega
  obtain ⟨g, hcanonical, hmask, hlower, hvalues⟩ :=
    @ip6Mask_small a.form a.isAddress (.text bits) _ hn hvalue
  have hmasked : g.values.length = 8 ∧ ∀ v ∈ g.values, v < 65536 :=
    ⟨length_values hcanonical.isAddress, values_lt hcanonical.isAddress⟩
  have hnumber : addressNumber g.values = a.number / 2 ^ (128 - numeralValue 10 bits) *
      2 ^ (128 - numeralValue 10 bits) := by
    rw [hvalues]
    exact addressNumber_maskedValues (length_values a.isAddress) (values_lt a.isAddress) hn
  have hstart := ip6Full_small hcanonical.isAddress hlower
  have hbits : (bitsText g.values).length = 128 := by
    rw [length_bitsText hmasked.2, hmasked.1]
  have hbinary : ip6addr2bin (ip6Full g.text) = bitsText g.values := by
    rw [hstart, fullWith_digitChar, ip6addr2bin_text (isAddress_fullForm hmasked.1 hmasked.2),
      values_fullForm]
  have hends : IsBits ((bitsText g.values).take (numeralValue 10 bits) ++
      List.replicate (128 - numeralValue 10 bits) '1') :=
    IsBits.append (fun c hc => isBits_bitsText _ c (mem_of_mem_take hc))
      (isBits_replicate (Or.inr rfl) _)
  have hlength : ((bitsText g.values).take (numeralValue 10 bits) ++
      List.replicate (128 - numeralValue 10 bits) '1').length = 128 := by
    rw [length_append, length_take, length_replicate, hbits]
    omega
  have hlast := numeralValue_filled (isBits_bitsText g.values) (numeralValue 10 bits)
  rw [hbits, numeralValue_bitsText hmasked.2, hnumber, Nat.mul_div_cancel _ (Nat.two_pow_pos _)]
    at hlast
  refine ⟨_, _, ?_, ⟨g.values, hmasked, hnumber, hstart.symm⟩,
    ⟨bitGroups ((bitsText g.values).take (numeralValue 10 bits) ++
      List.replicate (128 - numeralValue 10 bits) '1'), ⟨?_, bitGroups_lt hends⟩, ?_, rfl⟩⟩
  · have hrest : (ScriptNumber.finite (numeralValue 10 bits : ℕ)).subFrom 128 =
        .finite (128 - numeralValue 10 bits : ℕ) := ScriptNumber.subFrom_natCast hn (by norm_num)
    have htext : ip6Mask a.text (.text bits) = some g.text := hmask
    rw [getIp6RangeStrings, if_pos (mem_mark ..),
      splitAround_ip6Mark a.chars h.chars (Or.inl rfl)]
    simp only [getD_cons_zero, getD_cons_succ, htext, Option.bind_eq_bind,
      Option.bind_some, hvalue, hrest, ScriptNumber.repeated_natCast, ScriptNumber.upTo_natCast,
      hbinary]
    rw [ip6bin2addr_bits hends hlength, fullWith_digitChar]
    rfl
  · rw [bitGroups, length_map, length_range]
  · rw [addressNumber_bitGroups hlength, hlast]
    rfl

theorem getIp6RangeStrings_text (h : ∀ c ∈ i.text, c.toUpper = c) :
    ∃ s t, getIp6RangeStrings i.text = some (s, t) ∧
      IsFullText i.digit i.ends.1 s ∧ IsFullText i.digit i.ends.2 t := by
  cases i with
  | single a =>
    refine ⟨_, _, ?_, isFullText_capital a h, isFullText_capital a h⟩
    rw [Ip6Item.text, getIp6RangeStrings, if_neg a.not_mark.1, if_neg a.not_mark.2]
  | subnet a bits hbits => exact getIp6RangeStrings_subnet a hbits
  | range first last hle =>
    obtain ⟨hfirst, hlast⟩ := List.forall_mem_append.1 h
    have hlast := (List.forall_mem_cons.1 hlast).2
    refine ⟨_, _, ?_, isFullText_capital first hfirst, isFullText_capital last hlast⟩
    rw [Ip6Item.text, getIp6RangeStrings,
      if_neg (not_mem_mark first.not_mark.1 last.not_mark.1 (by decide)), if_pos (mem_mark ..),
      splitAround_ip6Mark first.chars last.chars (Or.inr rfl)]
    rfl

/-! ## The checks -/

theorem validateIp6Piece_text (h : ∀ c ∈ i.text, c.toUpper = c) : validateIp6Piece i.text = 0 := by
  cases i with
  | single a =>
    rw [Ip6Item.text, validateIp6Piece, if_neg a.not_mark.2]
    exact validateIP6Range_iff.2 (Or.inl a.valid)
  | subnet a bits hbits =>
    rw [Ip6Item.text, validateIp6Piece,
      if_neg (not_mem_mark a.not_mark.2 hbits.not_mark.2 (by decide))]
    refine validateIP6Range_iff.2 (Or.inr ⟨a.text, bits, rfl, hbits.not_mark.1, a.valid, ?_⟩)
    have hsmall := hbits.small
    exact (maskAccepted_decimal (.plain hbits.ne_nil hbits.digits)).2 (by omega)
  | range first last hle =>
    obtain ⟨hfirst, hlast⟩ := List.forall_mem_append.1 h
    have hlast := (List.forall_mem_cons.1 hlast).2
    have hatMost : textAtMost (ip6Full first.text) (ip6Full last.text) = true := by
      refine ((isFullText_capital first hfirst).atMost (isFullText_capital last hlast)).2 ?_
      refine (capitalText_atMost (addressDigits_lt _) (addressDigits_lt _) ?_).2 ?_
      · rw [length_addressDigits first.number_lt, length_addressDigits last.number_lt]
      · rw [digitsValue_addressDigits, digitsValue_addressDigits]
        exact hle
    rw [Ip6Item.text, validateIp6Piece, if_pos (mem_mark ..),
      splitAround_ip6Mark first.chars last.chars (Or.inr rfl)]
    simp only [first.valid, last.valid, hatMost, and_self, if_true]

theorem unseparated_ip6Items (l : List Ip6Item) : Unseparated (l.map Ip6Item.text) := by
  intro p hp
  obtain ⟨i, -, rfl⟩ := List.mem_map.1 hp
  exact ⟨i.text_ne_nil, fun c hc => (isIp6ItemChar_spec (i.chars c hc)).1⟩

theorem validateMultipleIp6s_text (h : ∀ c ∈ i.text, c.toUpper = c) :
    validateMultipleIp6s i.text = 0 := by
  have hsplit := (unseparated_ip6Items [i]).splitAround (cons_ne_nil _ _)
  rw [map_singleton, listText, List.intercalate_singleton] at hsplit
  rw [validateMultipleIp6s, hsplit, firstError_eq_zero_iff]
  exact List.forall_mem_singleton.2 (validateIp6Piece_text h)

theorem upper_capital : ∀ c ∈ i.upper.text, c.toUpper = c := by
  rw [text_upper]
  exact List.forall_mem_map.2 fun c hc => (isIp6ItemChar_spec (i.chars c hc)).2.2

theorem ell_not_mem_upper : 'L' ∉ i.upper.text := by
  rw [text_upper]
  intro hmem
  obtain ⟨c, hc, heq⟩ := List.mem_map.1 hmem
  exact (isIp6ItemChar_spec (i.chars c hc)).2.1 heq

theorem comma_not_mem : ',' ∉ i.text := fun hmem =>
  absurd (isIp6ItemChar_spec (i.chars _ hmem)).1 (by decide)

theorem adjusted_ip6Text : adjusted i.text = i.upper.text := by
  have hnot : ∀ s : List Char, 'L' ∈ s → i.upper.text ≠ s := by
    rintro s hs rfl
    exact ell_not_mem_upper hs
  rw [adjusted, if_neg i.text_ne_nil]
  have hupper : i.text.map Char.toUpper = i.upper.text := text_upper.symm
  simp only [hupper]
  rw [if_neg]
  rintro (heq | heq)
  · exact hnot _ (by decide) heq
  · exact hnot _ (by decide) heq

/-! ## Two items -/

def HiddenBy (x y : ℕ) : Prop := Hidden (addressDigits x) (addressDigits y)

def Missed (i j : Ip6Item) : Prop := (¬i.IsSubnet ∧ j.IsSubnet) ∧ HiddenBy i.ends.2 j.ends.1

def Spurious (i j : Ip6Item) : Prop :=
  (¬i.IsSubnet ∧ j.IsSubnet) ∧ j.ends.2 < i.ends.1 ∧ HiddenBy i.ends.1 j.ends.2 ∧
    ¬HiddenBy i.ends.2 j.ends.1

def Seen (i j : Ip6Item) : Prop :=
  (i.addresses ∩ j.addresses).Nonempty ∧ ¬(Missed i j ∨ Missed j i)

def FoundIp6 (i j : Ip6Item) : Prop := Seen i j ∨ Spurious i j ∨ Spurious j i

theorem capital_compared {n m : ℕ} {s t : List Char}
    (hs : IsFullText (fun d => (Nat.digitChar d).toUpper) n s) (ht : IsFullText Nat.digitChar m t) :
    (textAtMost s t = true ↔ n ≤ m ∨ HiddenBy n m) ∧
      (textAtMost t s = true ↔ m ≤ n ∧ ¬HiddenBy n m) := by
  have hcompared := capital_atMost_small (addressDigits_lt n) (addressDigits_lt m)
    (by rw [length_addressDigits hs.lt, length_addressDigits ht.lt])
  rw [digitsValue_addressDigits, digitsValue_addressDigits] at hcompared
  exact ⟨(hs.atMost ht).trans hcompared.1, (ht.atMost hs).trans hcompared.2⟩

theorem same_compared {n m : ℕ} {s t : List Char} (h : i.IsSubnet ↔ j.IsSubnet)
    (hs : IsFullText i.digit n s) (ht : IsFullText j.digit m t) :
    textAtMost s t = true ↔ n ≤ m := by
  have hlength : (addressDigits n).length = (addressDigits m).length := by
    rw [length_addressDigits hs.lt, length_addressDigits ht.lt]
  have hsmall := smallText_atMost (addressDigits_lt n) (addressDigits_lt m) hlength
  have hcapital := capitalText_atMost (addressDigits_lt n) (addressDigits_lt m) hlength
  rw [digitsValue_addressDigits, digitsValue_addressDigits] at hsmall hcapital
  rw [hs.atMost ht]
  cases i <;> cases j
  case subnet.subnet => exact hsmall
  case single.subnet => exact (h.2 trivial).elim
  case range.subnet => exact (h.2 trivial).elim
  case subnet.single => exact (h.1 trivial).elim
  case subnet.range => exact (h.1 trivial).elim
  all_goals exact hcapital

theorem digit_of_not_isSubnet (h : ¬i.IsSubnet) :
    i.digit = fun d => (Nat.digitChar d).toUpper := by
  cases i with
  | single a => rfl
  | subnet a bits hbits => exact absurd trivial h
  | range first last hle => rfl

theorem digit_of_isSubnet (h : i.IsSubnet) : i.digit = Nat.digitChar := by
  cases i with
  | single a => exact h.elim
  | subnet a bits hbits => rfl
  | range first last hle => exact h.elim

theorem mixed_compared (hi : ¬i.IsSubnet) (hj : j.IsSubnet) {s t s' t' : List Char}
    (hs : IsFullText i.digit i.ends.1 s) (ht : IsFullText i.digit i.ends.2 t)
    (hs' : IsFullText j.digit j.ends.1 s') (ht' : IsFullText j.digit j.ends.2 t') :
    textAtMost s t' = true ∧ textAtMost s' t = true ↔
      ((i.addresses ∩ j.addresses).Nonempty ∧ ¬Missed i j) ∨ Spurious i j := by
  have hiordered := @ip6Ends_ordered i
  have hjordered := @ip6Ends_ordered j
  rw [digit_of_not_isSubnet hi] at hs ht
  rw [digit_of_isSubnet hj] at hs' ht'
  rw [(capital_compared hs ht').1, (capital_compared ht hs').2, inter_ip6Addresses, Missed,
    Spurious, and_iff_right (And.intro hi hj), and_iff_right (And.intro hi hj)]
  constructor
  · rintro ⟨hlast, hfirst, hseen⟩
    rcases le_or_gt i.ends.1 j.ends.2 with hle | hlt
    · exact .inl ⟨⟨hle, hfirst⟩, hseen⟩
    · exact .inr ⟨hlt, hlast.resolve_left (not_le.2 hlt), hseen⟩
  · rintro (⟨⟨hle, hfirst⟩, hseen⟩ | ⟨hlt, hhidden, hseen⟩)
    · exact ⟨Or.inl hle, hfirst, hseen⟩
    · exact ⟨Or.inr hhidden, by omega, hseen⟩

theorem not_missed_of_same (h : i.IsSubnet ↔ j.IsSubnet) :
    ¬(Missed i j ∨ Missed j i) ∧ ¬(Spurious i j ∨ Spurious j i) := by
  rw [Missed, Missed, Spurious, Spurious]
  tauto

theorem not_missed_of_subnet (hi : ¬i.IsSubnet) : ¬Missed j i ∧ ¬Spurious j i :=
  ⟨fun h => hi h.1.2, fun h => hi h.1.2⟩

theorem inter_comm_nonempty :
    (i.addresses ∩ j.addresses).Nonempty ↔ (j.addresses ∩ i.addresses).Nonempty := by
  rw [Set.inter_comm]

theorem foundIp6_iff {s t s' t' : List Char}
    (hs : IsFullText i.digit i.ends.1 s) (ht : IsFullText i.digit i.ends.2 t)
    (hs' : IsFullText j.digit j.ends.1 s') (ht' : IsFullText j.digit j.ends.2 t') :
    textAtMost s t' = true ∧ textAtMost s' t = true ↔ FoundIp6 i j := by
  rw [FoundIp6, Seen]
  by_cases hsame : i.IsSubnet ↔ j.IsSubnet
  · obtain ⟨hmissed, hspurious⟩ := not_missed_of_same hsame
    rw [same_compared hsame hs ht', same_compared hsame.symm hs' ht, ← inter_ip6Addresses,
      and_iff_left hmissed, or_iff_left hspurious]
  · by_cases hi : i.IsSubnet
    · have hj : ¬j.IsSubnet := fun hj => hsame (iff_of_true hi hj)
      obtain ⟨hmissed, hspurious⟩ := not_missed_of_subnet hj
      rw [and_comm, mixed_compared hj hi hs' ht' hs ht, inter_comm_nonempty, or_iff_right hmissed,
        or_iff_right hspurious]
    · have hj : j.IsSubnet := by
        by_contra hj
        exact hsame (iff_of_false hi hj)
      obtain ⟨hmissed, hspurious⟩ := not_missed_of_subnet hi
      rw [mixed_compared hi hj hs ht hs' ht', or_iff_left hmissed, or_iff_left hspurious]

theorem digit_upper : i.upper.digit = i.digit := by
  cases i <;> rfl

theorem foundIp6_of_upper_eq (h : i.upper.text = j.upper.text) : FoundIp6 i j := by
  obtain ⟨s, t, hranges, hs, ht⟩ := getIp6RangeStrings_text (@upper_capital i)
  obtain ⟨s', t', hranges', hs', ht'⟩ := getIp6RangeStrings_text (@upper_capital j)
  rw [h, hranges', Option.some_inj, Prod.mk.injEq] at hranges
  obtain ⟨rfl, rfl⟩ := hranges
  have hsubnet : i.IsSubnet ↔ j.IsSubnet := by
    rw [← @isSubnet_upper i, ← @isSubnet_upper j, isSubnet_iff, isSubnet_iff, h]
  rw [digit_upper, ends_upper] at hs ht hs' ht'
  have hfirst := (same_compared hsubnet hs hs').1 ((same_compared Iff.rfl hs hs).2 le_rfl)
  have hlast := (same_compared hsubnet.symm ht' ht).1 ((same_compared Iff.rfl ht ht).2 le_rfl)
  have hordered := @ip6Ends_ordered j
  have hordered' := @ip6Ends_ordered i
  have hfirst' := (same_compared hsubnet.symm hs' hs).1 ((same_compared Iff.rfl hs hs).2 le_rfl)
  refine .inl ⟨inter_ip6Addresses.2 ⟨hfirst.trans hordered, hfirst'.trans hordered'⟩, ?_⟩
  exact (not_missed_of_same hsubnet).1

open Classical in
theorem testSingleAddrOverlap_ip6Text (i j : Ip6Item) :
    testSingleAddrOverlap i.text j.text true = some (decide (FoundIp6 i j)) := by
  obtain ⟨s, t, hranges, hs, ht⟩ := getIp6RangeStrings_text (@upper_capital i)
  obtain ⟨s', t', hranges', hs', ht'⟩ := getIp6RangeStrings_text (@upper_capital j)
  rw [digit_upper, ends_upper] at hs ht hs' ht'
  rw [testSingleAddrOverlap, adjusted_ip6Text, adjusted_ip6Text]
  by_cases heq : i.upper.text = j.upper.text
  · rw [if_pos heq, decide_eq_true (foundIp6_of_upper_eq heq)]
  · have hcheck : ¬(validateMultipleIp6s i.upper.text > 0 ∨ validateMultipleIp6s j.upper.text > 0 ∨
        ',' ∈ i.upper.text ∨ ',' ∈ j.upper.text) := by
      rw [validateMultipleIp6s_text upper_capital, validateMultipleIp6s_text upper_capital]
      rintro (h | h | h | h)
      · exact absurd h (lt_irrefl 0)
      · exact absurd h (lt_irrefl 0)
      · exact comma_not_mem h
      · exact comma_not_mem h
    rw [if_neg heq, if_pos rfl, if_neg hcheck, if_pos rfl, hranges, hranges',
      decide_eq_decide.2 (foundIp6_iff hs ht hs' ht').symm, Bool.decide_and]
    simp only [Bool.decide_eq_true]
    rfl

/-! ## Lists of items -/

def ShareIp6Address (l m : List Ip6Item) : Prop :=
  ∃ x, (∃ i ∈ l, x ∈ i.addresses) ∧ ∃ j ∈ m, x ∈ j.addresses

def CaseDecidesRight (l m : List Ip6Item) : Prop :=
  (ShareIp6Address l m → ∃ i ∈ l, ∃ j ∈ m, FoundIp6 i j) ∧
    ((∃ i ∈ l, ∃ j ∈ m, Spurious i j ∨ Spurious j i) → ShareIp6Address l m)

theorem shareIp6Address_iff {l m : List Ip6Item} :
    ShareIp6Address l m ↔ ∃ i ∈ l, ∃ j ∈ m, (i.addresses ∩ j.addresses).Nonempty := by
  constructor
  · rintro ⟨x, ⟨i, hi, hxi⟩, j, hj, hxj⟩
    exact ⟨i, hi, j, hj, x, hxi, hxj⟩
  · rintro ⟨i, hi, j, hj, x, hxi, hxj⟩
    exact ⟨x, ⟨i, hi, hxi⟩, j, hj, hxj⟩

theorem testAddrOverlap_ip6Items {l m : List Ip6Item} (hl : l ≠ []) (hm : m ≠ []) :
    testAddrOverlap (listText (l.map Ip6Item.text)) (listText (m.map Ip6Item.text)) true =
      some true ↔ ∃ i ∈ l, ∃ j ∈ m, FoundIp6 i j := by
  classical
  have heq : ∀ p ∈ l.map Ip6Item.text, ∀ q ∈ m.map Ip6Item.text,
      testSingleAddrOverlap p q true = some ((testSingleAddrOverlap p q true).getD false) := by
    intro p hp q hq
    obtain ⟨i, -, rfl⟩ := List.mem_map.1 hp
    obtain ⟨j, -, rfl⟩ := List.mem_map.1 hq
    rw [testSingleAddrOverlap_ip6Text]
    rfl
  rw [testAddrOverlap_listText (unseparated_ip6Items l) (unseparated_ip6Items m)
    (by simpa using hl) (by simpa using hm) heq, Option.some_inj, any_map, any_eq_true]
  refine exists_congr fun i => and_congr_right fun _ => ?_
  rw [Function.comp_apply, any_map, any_eq_true]
  refine exists_congr fun j => and_congr_right fun _ => ?_
  rw [Function.comp_apply, testSingleAddrOverlap_ip6Text, Option.getD_some, decide_eq_true_eq]

/-! ### Empty lists -/

theorem testSingleAddrOverlap_nil (i : Ip6Item) :
    testSingleAddrOverlap [] i.text true = some false ∧
      testSingleAddrOverlap i.text [] true = some false := by
  have hall : adjusted [] = ['A', 'L', 'L'] := by decide
  have hne : ['A', 'L', 'L'] ≠ i.upper.text := by
    intro heq
    exact @ell_not_mem_upper i (heq ▸ by decide)
  have hinvalid : validateMultipleIp6s ['A', 'L', 'L'] > 0 := by decide
  constructor
  · rw [testSingleAddrOverlap, adjusted_ip6Text, hall, if_neg hne, if_pos rfl,
      if_pos (Or.inl hinvalid)]
  · rw [testSingleAddrOverlap, adjusted_ip6Text, hall, if_neg hne.symm, if_pos rfl,
      if_pos (Or.inr (.inl hinvalid))]

theorem testAddrOverlap_nil {l : List Ip6Item} (hl : l ≠ []) :
    testAddrOverlap [] (listText (l.map Ip6Item.text)) true = some false ∧
      testAddrOverlap (listText (l.map Ip6Item.text)) [] true = some false := by
  have hsplit := (unseparated_ip6Items l).splitRuns (by simpa using hl)
  have hempty : splitRuns isItemSeparator (trimBlanks []) = [[]] := rfl
  have hnone : ∀ ps : List (List Char), (ps.any fun _ => false) = false := by
    intro ps
    rw [any_eq_false]
    exact fun _ _ => Bool.false_ne_true
  rw [testAddrOverlap, testAddrOverlap, hsplit, hempty]
  constructor
  · rw [anyM_eq_some (g := fun _ => false), hnone]
    refine List.forall_mem_singleton.2 ?_
    rw [anyM_eq_some (g := fun _ => false), hnone]
    exact List.forall_mem_map.2 fun i _ => (testSingleAddrOverlap_nil i).1
  · rw [anyM_eq_some (g := fun _ => false), hnone]
    refine List.forall_mem_map.2 fun i _ => ?_
    rw [anyM_eq_some (g := fun _ => false), hnone]
    exact List.forall_mem_singleton.2 (testSingleAddrOverlap_nil i).2

theorem testAddrOverlap_nil_nil : testAddrOverlap [] [] true = some true := by decide

def Ip6OverlapRight (l m : List Ip6Item) : Prop :=
  testAddrOverlap (listText (l.map Ip6Item.text)) (listText (m.map Ip6Item.text)) true =
    some true ↔ ShareIp6Address l m

theorem found_iff_shareIp6 {l m : List Ip6Item} :
    ((∃ i ∈ l, ∃ j ∈ m, FoundIp6 i j) ↔ ShareIp6Address l m) ↔ CaseDecidesRight l m := by
  rw [CaseDecidesRight]
  constructor
  · intro hright
    refine ⟨hright.2, ?_⟩
    rintro ⟨i, hi, j, hj, hspurious⟩
    exact hright.1 ⟨i, hi, j, hj, Or.inr hspurious⟩
  · rintro ⟨hseen, hspurious⟩
    refine ⟨?_, hseen⟩
    rintro ⟨i, hi, j, hj, hfound | hfound⟩
    · exact shareIp6Address_iff.2 ⟨i, hi, j, hj, hfound.1⟩
    · exact hspurious ⟨i, hi, j, hj, hfound⟩

/-- The answer is right exactly if the case of the letters does not hide an overlap or make one up,
for lists that are not both empty. -/
theorem ip6OverlapRight_iff (l m : List Ip6Item) :
    Ip6OverlapRight l m ↔ ¬(l = [] ∧ m = []) ∧ CaseDecidesRight l m := by
  rw [← found_iff_shareIp6, Ip6OverlapRight]
  by_cases hl : l = []
  · subst hl
    have hshare : ¬ShareIp6Address [] m := by
      rintro ⟨x, ⟨i, hi, -⟩, -⟩
      exact absurd hi not_mem_nil
    by_cases hm : m = []
    · subst hm
      exact iff_of_false (fun h => hshare (h.1 testAddrOverlap_nil_nil)) fun h => h.1 ⟨rfl, rfl⟩
    · have hnone : listText (([] : List Ip6Item).map Ip6Item.text) = [] := rfl
      rw [hnone, (testAddrOverlap_nil hm).1]
      refine iff_of_true (iff_of_false (by decide) hshare) ⟨fun h => hm h.2, ?_⟩
      refine iff_of_false ?_ hshare
      rintro ⟨i, hi, -⟩
      exact absurd hi not_mem_nil
  · by_cases hm : m = []
    · subst hm
      have hshare : ¬ShareIp6Address l [] := by
        rintro ⟨x, -, j, hj, -⟩
        exact absurd hj not_mem_nil
      have hnone : listText (([] : List Ip6Item).map Ip6Item.text) = [] := rfl
      rw [hnone, (testAddrOverlap_nil hl).2]
      refine iff_of_true (iff_of_false (by decide) hshare) ⟨fun h => hl h.1, ?_⟩
      refine iff_of_false ?_ hshare
      rintro ⟨i, -, j, hj, -⟩
      exact absurd hj not_mem_nil
    · rw [testAddrOverlap_ip6Items hl hm, and_iff_right fun h => hl h.1]

/-! ### An address in its subnet -/

theorem isAddress_linkLocal :
    (Ip6Form.compressed [['f', 'e', '8', '0']] [['1']]).IsAddress ∧
      (Ip6Form.compressed [['f', 'e', '8', '0']] []).IsAddress := by
  refine ⟨⟨?_, List.all_eq_true.1 (by decide)⟩, ⟨?_, List.all_eq_true.1 (by decide)⟩⟩
  · rw [Ip6Form.Counts]
    decide
  · rw [Ip6Form.Counts]
    decide

/-- `fe80::1` -/
def linkLocal : Ip6Address :=
  ⟨.compressed [['f', 'e', '8', '0']] [['1']], isAddress_linkLocal.1, by decide⟩

/-- `fe80::` -/
def linkLocalPrefix : Ip6Address :=
  ⟨.compressed [['f', 'e', '8', '0']] [], isAddress_linkLocal.2, by decide⟩

theorem isIp6PrefixLength_ten : IsIp6PrefixLength ['1', '0'] where
  ne_nil := cons_ne_nil _ _
  digits := List.all_eq_true.1 (by decide)
  small := by decide

/-- `fe80::/10` -/
def linkLocalSubnet : Ip6Item := .subnet linkLocalPrefix ['1', '0'] isIp6PrefixLength_ten

theorem linkLocal_mem : linkLocal.number ∈ linkLocalSubnet.addresses := by
  have heq : linkLocal.number / 2 ^ 118 = linkLocalPrefix.number / 2 ^ 118 := by decide
  exact heq

theorem linkLocal_missed : Missed (.single linkLocal) linkLocalSubnet := by
  refine ⟨⟨fun h => h, trivial⟩, ?_, [], 15, 15, (addressDigits linkLocal.number).tail,
    (addressDigits linkLocalSubnet.ends.1).tail, ?_, ?_, forall_mem_nil _, by decide⟩
  · rw [digitsValue_addressDigits, digitsValue_addressDigits]
    decide
  · decide
  · decide

/-- `fe80::1` is not found in `fe80::/10`. -/
theorem address_in_subnet_missed :
    ¬∀ l m : List Ip6Item, l ≠ [] → m ≠ [] → Ip6OverlapRight l m := by
  intro h
  have hright := h [.single linkLocal] [linkLocalSubnet] (cons_ne_nil _ _)
    (cons_ne_nil _ _)
  rw [Ip6OverlapRight, testAddrOverlap_ip6Items (cons_ne_nil _ _) (cons_ne_nil _ _)]
    at hright
  obtain ⟨i, hi, j, hj, hfound⟩ := hright.2 ⟨linkLocal.number, ⟨_, mem_singleton_self _, rfl⟩,
    _, mem_singleton_self _, linkLocal_mem⟩
  obtain rfl := List.mem_singleton.1 hi
  obtain rfl := List.mem_singleton.1 hj
  rcases hfound with ⟨-, hseen⟩ | hspurious | hspurious
  · exact hseen (Or.inl linkLocal_missed)
  · exact hspurious.2.2.2 linkLocal_missed.2
  · exact hspurious.1.2

end Ends

end Web

end Gargoyle
