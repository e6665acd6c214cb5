import Gargoyle.Web.FullTexts
import Gargoyle.Web.Ip4Overlap
import Gargoyle.Web.Ip6Validators

/-!
# Items with long addresses

A list holds addresses, subnets and ranges. The letters of the items are made capitals before the
items are compared. The ends of an address and of a range stay in capitals, but those of a subnet
come from binary numbers and are written in small letters.
-/

namespace Gargoyle

open List

namespace Web

open InetText (isHexDigit isGroup isGroup_digits)
open Numerals
open TextSplit

/-! ## Capitals -/

def upperText (s : List Char) : List Char := s.map Char.toUpper

def Ip6Form.upper : Ip6Form → Ip6Form
  | full groups => full (groups.map upperText)
  | compressed before after => compressed (before.map upperText) (after.map upperText)

section Upper

variable {f : Ip6Form}

theorem upper_hex {c : Char} (h : isHexDigit c = true) :
    isHexDigit c.toUpper = true ∧ c.toUpper.toLower = c.toLower ∧
      c.toUpper.toUpper = c.toUpper ∧ c.toUpper ≠ 'L' :=
  forall_hexDigit (p := fun c => isHexDigit c.toUpper = true ∧ c.toUpper.toLower = c.toLower ∧
    c.toUpper.toUpper = c.toUpper ∧ c.toUpper ≠ 'L') (by decide) h

theorem upperText_intercalate (gs : List (List Char)) :
    upperText ([':'].intercalate gs) = [':'].intercalate (gs.map upperText) := by
  induction gs with
  | nil => rfl
  | cons g gs ih =>
    cases gs with
    | nil =>
      rw [map_singleton, List.intercalate_singleton, List.intercalate_singleton]
    | cons g' gs =>
      rw [map_cons] at ih
      rw [map_cons, map_cons, List.intercalate_cons_cons, List.intercalate_cons_cons,
        ← ih, upperText, map_append, map_append]
      rfl

theorem Ip6Form.text_upper (f : Ip6Form) : f.upper.text = upperText f.text := by
  cases f with
  | full gs => exact (upperText_intercalate gs).symm
  | compressed ls rs =>
    have hcolon : Char.toUpper ':' = ':' := rfl
    rw [upper, text, text, ← upperText_intercalate, ← upperText_intercalate]
    simp only [upperText, map_append, map_cons, hcolon]

theorem Ip6Form.groups_upper (f : Ip6Form) : f.upper.groups = f.groups.map upperText := by
  cases f with
  | full gs => rfl
  | compressed ls rs => exact List.map_append.symm

theorem isGroup_upperText {g : List Char} (h : isGroup g = true) : isGroup (upperText g) = true := by
  have hlength := length_group h
  rw [isGroup_iff, isComponent, Bool.and_eq_true, decide_eq_true_eq, all_eq_true, upperText,
    length_map]
  refine ⟨fun hnil => (isGroup_iff.1 h).1 (List.map_eq_nil_iff.1 hnil), hlength, ?_⟩
  exact List.forall_mem_map.2 fun c hc => (upper_hex (isGroup_digits h hc)).1

theorem length_parts_upper (gs : List (List Char)) :
    (parts (gs.map upperText)).length = (parts gs).length := by
  rw [length_parts, length_parts, length_map, if_congr map_eq_nil_iff rfl rfl]

theorem Ip6Form.length_components_upper (f : Ip6Form) :
    f.upper.components.length = f.components.length := by
  cases f with
  | full gs => exact length_parts_upper gs
  | compressed ls rs =>
    rw [upper, components, components, length_append, length_append, length_cons,
      length_cons, length_parts_upper, length_parts_upper]

theorem Ip6Form.isAddress_upper (h : f.IsAddress) : f.upper.IsAddress where
  counts := by
    cases f with
    | full gs =>
      have hcount : gs.length = 8 := h.counts
      rw [upper, Counts, length_map, hcount]
    | compressed ls rs =>
      have hcount : ls.length + rs.length ≤ 7 := h.counts
      rw [upper, Counts, length_map, length_map]
      exact hcount
  isGroup := by
    rw [Ip6Form.groups_upper]
    exact List.forall_mem_map.2 fun g hg => isGroup_upperText (h.isGroup g hg)

theorem Ip6Form.values_upper (h : f.IsAddress) : f.upper.values = f.values := by
  have hall : f.upper.allGroups = f.allGroups.map upperText := by
    cases f with
    | full gs => rfl
    | compressed ls rs =>
      rw [upper, allGroups, allGroups, map_append, map_append, map_replicate,
        length_map, length_map]
      rfl
  rw [values, values, hall, map_map]
  refine map_congr_left fun g hg => ?_
  have hgroup := allGroups_isGroup h g hg
  rw [Function.comp_apply, groupValue, groupValue, upperText, map_map]
  refine congrArg (numeralValue 16) (map_congr_left fun c hc => ?_)
  exact (upper_hex (isGroup_digits hgroup hc)).2.1

end Upper

/-! ## Addresses -/

structure Ip6Address where
  form : Ip6Form
  isAddress : form.IsAddress
  eight : form.components.length ≤ 8

namespace Ip6Address

variable (a : Ip6Address)

def text : List Char := a.form.text

def number : ℕ := addressNumber a.form.values

def upper : Ip6Address where
  form := a.form.upper
  isAddress := Ip6Form.isAddress_upper a.isAddress
  eight := (Ip6Form.length_components_upper a.form).le.trans a.eight

theorem text_upper : a.upper.text = upperText a.text := a.form.text_upper

theorem number_upper : a.upper.number = a.number :=
  congrArg addressNumber (Ip6Form.values_upper a.isAddress)

theorem valid : validateIP6 a.text = 0 := validateIP6_text a.isAddress a.eight

theorem number_lt : a.number < 2 ^ 128 := by
  have hlt := addressNumber_lt (values_lt a.isAddress)
  rw [length_values a.isAddress] at hlt
  exact hlt.trans_le (by norm_num)

theorem chars : ∀ c ∈ a.text, c = ':' ∨ isHexDigit c = true := fun _ hc =>
  mem_splitOn_text a.isAddress hc

theorem text_ne_nil : a.text ≠ [] := fun hnil => validateIP6_nil (hnil ▸ a.valid)

end Ip6Address

/-! ## Items -/

structure IsIp6PrefixLength (bits : List Char) : Prop where
  ne_nil : bits ≠ []
  digits : ∀ c ∈ bits, c.isDigit = true
  small : numeralValue 10 bits ≤ 128

inductive Ip6Item
  | single (a : Ip6Address)
  | subnet (a : Ip6Address) (bits : List Char) (h : IsIp6PrefixLength bits)
  | range (first last : Ip6Address) (h : first.number ≤ last.number)

theorem number_upper_le {a b : Ip6Address} (h : a.number ≤ b.number) :
    a.upper.number ≤ b.upper.number := by
  rwa [a.number_upper, b.number_upper]

namespace Ip6Item

def text : Ip6Item → List Char
  | single a => a.text
  | subnet a bits _ => a.text ++ '/' :: bits
  | range first last _ => first.text ++ '-' :: last.text

def addresses : Ip6Item → Set ℕ
  | single a => {a.number}
  | subnet a bits _ =>
    let rest := 128 - numeralValue 10 bits
    {x | x / 2 ^ rest = a.number / 2 ^ rest}
  | range first last _ => {x | first.number ≤ x ∧ x ≤ last.number}

def ends : Ip6Item → ℕ × ℕ
  | single a => (a.number, a.number)
  | subnet a bits _ =>
    let rest := 128 - numeralValue 10 bits
    (a.number / 2 ^ rest * 2 ^ rest, a.number / 2 ^ rest * 2 ^ rest + (2 ^ rest - 1))
  | range first last _ => (first.number, last.number)

def IsSubnet : Ip6Item → Prop
  | subnet .. => True
  | _ => False

def upper : Ip6Item → Ip6Item
  | single a => single a.upper
  | subnet a bits h => subnet a.upper bits h
  | range first last h => range first.upper last.upper (number_upper_le h)

end Ip6Item

section Items

variable {i j : Ip6Item}

theorem mem_ip6Ends {x : ℕ} : x ∈ i.addresses ↔ i.ends.1 ≤ x ∧ x ≤ i.ends.2 := by
  cases i with
  | single a => exact ⟨fun h => ⟨h.ge, h.le⟩, fun h => le_antisymm h.2 h.1⟩
  | subnet a bits h =>
    have hpos := Nat.two_pow_pos (128 - numeralValue 10 bits)
    have hiff : x / 2 ^ (128 - numeralValue 10 bits) =
        a.number / 2 ^ (128 - numeralValue 10 bits) ↔ _ := Nat.div_eq_iff hpos
    rw [Nat.add_sub_assoc (Nat.one_le_of_lt hpos)] at hiff
    exact hiff
  | range first last h => exact Iff.rfl

theorem ip6Ends_ordered : i.ends.1 ≤ i.ends.2 := by
  cases i with
  | single a => exact le_rfl
  | subnet a bits h => exact Nat.le_add_right _ _
  | range first last h => exact h

theorem inter_ip6Addresses : (i.addresses ∩ j.addresses).Nonempty ↔
    i.ends.1 ≤ j.ends.2 ∧ j.ends.1 ≤ i.ends.2 := by
  constructor
  · rintro ⟨x, hxi, hxj⟩
    rw [mem_ip6Ends] at hxi hxj
    exact ⟨hxi.1.trans hxj.2, hxj.1.trans hxi.2⟩
  · rintro ⟨hij, hji⟩
    have hi := @ip6Ends_ordered i
    have hj := @ip6Ends_ordered j
    exact ⟨max i.ends.1 j.ends.1, mem_ip6Ends.2 ⟨le_max_left _ _, max_le hi hji⟩,
      mem_ip6Ends.2 ⟨le_max_right _ _, max_le hij hj⟩⟩

theorem ends_upper : i.upper.ends = i.ends := by
  cases i with
  | single a => rw [Ip6Item.upper, Ip6Item.ends, a.number_upper, Ip6Item.ends]
  | subnet a bits h => simp only [Ip6Item.upper, Ip6Item.ends, a.number_upper]
  | range first last h => rw [Ip6Item.upper, Ip6Item.ends, first.number_upper, last.number_upper,
      Ip6Item.ends]

theorem isSubnet_upper : i.upper.IsSubnet ↔ i.IsSubnet := by
  cases i <;> exact Iff.rfl

theorem toUpper_isDigit {c : Char} (h : c.isDigit = true) : c.toUpper = c :=
  (isItemChar_spec (Or.inl (.inl h))).2.2.2

theorem text_upper : i.upper.text = upperText i.text := by
  cases i with
  | single a => exact a.text_upper
  | subnet a bits h =>
    have hbits : bits.map Char.toUpper = bits :=
      (map_congr_left fun c hc => toUpper_isDigit (h.digits c hc)).trans (map_id _)
    rw [Ip6Item.upper, Ip6Item.text, Ip6Item.text, a.text_upper, upperText, upperText,
      map_append, map_cons, hbits]
    rfl
  | range first last h =>
    rw [Ip6Item.upper, Ip6Item.text, Ip6Item.text, first.text_upper, last.text_upper, upperText,
      upperText, upperText, map_append, map_cons]
    rfl

/-! ### Characters -/

def IsIp6ItemChar (c : Char) : Prop := c ∈ [':', '/', '-'] ∨ isHexDigit c = true

theorem isIp6ItemChar_spec {c : Char} (h : IsIp6ItemChar c) :
    isItemSeparator c = false ∧ c.toUpper ≠ 'L' ∧ c.toUpper.toUpper = c.toUpper := by
  rcases h with h | h
  · have hall : ∀ c ∈ [':', '/', '-'], isItemSeparator c = false ∧ c.toUpper ≠ 'L' ∧
        c.toUpper.toUpper = c.toUpper := forall_mem_of_all (by decide)
    exact hall c h
  · exact forall_hexDigit (p := fun c => isItemSeparator c = false ∧ c.toUpper ≠ 'L' ∧
      c.toUpper.toUpper = c.toUpper) (by decide) h

theorem isHexDigit_of_isDigit {c : Char} (h : c.isDigit = true) : isHexDigit c = true := by
  rw [isHexDigit, h]
  rfl

theorem not_mark_hex {c : Char} (h : c = ':' ∨ isHexDigit c = true) :
    c ≠ '/' ∧ c ≠ '-' ∧ isTabOrSpace c = false := by
  rcases h with rfl | h
  · decide
  · exact forall_hexDigit (p := fun c => c ≠ '/' ∧ c ≠ '-' ∧ isTabOrSpace c = false)
      (by decide) h

theorem Ip6Address.not_mark (a : Ip6Address) : '/' ∉ a.text ∧ '-' ∉ a.text :=
  ⟨fun h => (not_mark_hex (a.chars _ h)).1 rfl, fun h => (not_mark_hex (a.chars _ h)).2.1 rfl⟩

theorem IsIp6PrefixLength.chars {bits : List Char} (h : IsIp6PrefixLength bits) :
    ∀ c ∈ bits, c = ':' ∨ isHexDigit c = true := fun c hc =>
  Or.inr (isHexDigit_of_isDigit (h.digits c hc))

theorem IsIp6PrefixLength.not_mark {bits : List Char} (h : IsIp6PrefixLength bits) :
    '/' ∉ bits ∧ '-' ∉ bits :=
  ⟨fun hc => (not_mark_hex (h.chars _ hc)).1 rfl, fun hc => (not_mark_hex (h.chars _ hc)).2.1 rfl⟩

theorem Ip6Item.chars : ∀ c ∈ i.text, IsIp6ItemChar c := by
  have haddress : ∀ {s : List Char}, (∀ c ∈ s, c = ':' ∨ isHexDigit c = true) →
      ∀ c ∈ s, IsIp6ItemChar c := by
    intro s hs c hc
    rcases hs c hc with rfl | hhex
    · exact .inl mem_cons_self
    · exact .inr hhex
  cases i with
  | single a => exact haddress a.chars
  | subnet a bits h =>
    exact List.forall_mem_append.2 ⟨haddress a.chars,
      List.forall_mem_cons.2 ⟨Or.inl (by decide), haddress h.chars⟩⟩
  | range first last h =>
    exact List.forall_mem_append.2 ⟨haddress first.chars,
      List.forall_mem_cons.2 ⟨Or.inl (by decide), haddress last.chars⟩⟩

theorem Ip6Item.text_ne_nil : i.text ≠ [] := by
  cases i with
  | single a => exact a.text_ne_nil
  | subnet a bits h => exact append_ne_nil_of_right_ne_nil _ (cons_ne_nil _ _)
  | range first last h => exact append_ne_nil_of_right_ne_nil _ (cons_ne_nil _ _)

theorem isSubnet_iff : i.IsSubnet ↔ '/' ∈ i.text := by
  cases i with
  | single a => exact iff_of_false (fun h => h) a.not_mark.1
  | subnet a bits h => exact iff_of_true trivial (mem_mark ..)
  | range first last h =>
    exact iff_of_false (fun h => h)
      (not_mem_mark first.not_mark.1 last.not_mark.1 (by decide))

theorem splitAround_ip6Mark {m : Char} {s t : List Char}
    (hs : ∀ c ∈ s, c = ':' ∨ isHexDigit c = true) (ht : ∀ c ∈ t, c = ':' ∨ isHexDigit c = true)
    (hm : m = '/' ∨ m = '-') : splitAround isTabOrSpace m (s ++ m :: t) = [s, t] := by
  have hpart : ∀ p : List Char, (∀ c ∈ p, c = ':' ∨ isHexDigit c = true) →
      m ∉ p ∧ ∀ c ∈ p, isTabOrSpace c = false := by
    intro p hp
    refine ⟨fun hmem => ?_, fun c hc => (not_mark_hex (hp c hc)).2.2⟩
    rcases hm with rfl | rfl
    · exact (not_mark_hex (hp _ hmem)).1 rfl
    · exact (not_mark_hex (hp _ hmem)).2.1 rfl
  have hsplit := splitAround_clean (cons_ne_nil s [t])
    (List.forall_mem_cons.2 ⟨hpart s hs, List.forall_mem_singleton.2 (hpart t ht)⟩)
  rwa [List.intercalate_cons_cons, List.intercalate_singleton, append_assoc] at hsplit

end Items

end Web

end Gargoyle
