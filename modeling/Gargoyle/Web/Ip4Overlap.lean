import Gargoyle.Data.Subnets
import Gargoyle.Web.AddrOverlap

/-!
# Items of lists of addresses

An item is an address, a subnet with the number of its bits or with a mask, or a range. Its numbers
are the signed words of its first and its last address.
-/

namespace Gargoyle

open List

namespace Web

open Numerals (numeralValue)
open PortForwarding (validateIP validateNumeric)
open TextSplit

/-! ## Addresses with dots -/

structure IsField (f : List Char) : Prop where
  ne_nil : f ≠ []
  short : f.length ≤ 3
  digits : ∀ c ∈ f, c.isDigit = true
  small : numeralValue 10 f ≤ 255

structure Quad where
  a : List Char
  b : List Char
  c : List Char
  d : List Char
  isField : ∀ f ∈ [a, b, c, d], IsField f

namespace Quad

variable (q : Quad)

def fields : List (List Char) := [q.a, q.b, q.c, q.d]

def text : List Char := ['.'].intercalate q.fields

def number : ℕ :=
  ((numeralValue 10 q.a * 256 + numeralValue 10 q.b) * 256 + numeralValue 10 q.c) * 256 +
    numeralValue 10 q.d

def address : BitVec 32 := BitVec.ofNat 32 q.number

def Admitted : Prop := validateIP q.text = 0

end Quad

section Quads

variable (q : Quad)

theorem digit_ne_dot {c : Char} (hc : c.isDigit = true) : c ≠ '.' := by
  rintro rfl
  exact absurd hc (by decide)

theorem Quad.splitOn_text : q.text.splitOn '.' = q.fields :=
  splitOn_intercalate '.'
    (fun f hf hdot => digit_ne_dot ((q.isField f hf).digits '.' hdot) rfl) (cons_ne_nil _ _)

def IsIpChar (c : Char) : Prop := c.isDigit = true ∨ c = '.'

theorem Quad.chars : ∀ c ∈ q.text, IsIpChar c := by
  intro c hc
  rcases InetText.mem_splitOn '.' hc with rfl | ⟨f, hf, hc⟩
  · exact .inr rfl
  · rw [q.splitOn_text] at hf
    exact .inl ((q.isField f hf).digits c hc)

theorem Quad.text_ne_nil : q.text ≠ [] := by
  intro hnil
  have hsplit := q.splitOn_text
  rw [hnil, Quad.fields] at hsplit
  simp at hsplit

theorem Quad.number_lt : q.number < 2 ^ 32 := by
  have ha := (q.isField q.a (by simp)).small
  have hb := (q.isField q.b (by simp)).small
  have hc := (q.isField q.c (by simp)).small
  have hd := (q.isField q.d (by simp)).small
  rw [Quad.number]
  omega

theorem Quad.toNat_address : q.address.toNat = q.number := by
  rw [Quad.address, BitVec.toNat_ofNat, Nat.mod_eq_of_lt q.number_lt]

theorem toInt_word (x : BitVec 32) :
    x.toInt = if x.toNat < 2 ^ 31 then (x.toNat : ℤ) else x.toNat - 2 ^ 32 := by
  rw [BitVec.toInt_eq_toNat_cond]
  split_ifs <;> omega

theorem shiftLeft_byte {n count : ℕ} (hn : n ≤ 255) (hcount : count % 32 = count) :
    shiftLeft (some (n : ℤ)) count = ((n * 2 ^ count : ℕ) : ℤ).bmod (2 ^ 32) := by
  have hword : (toInt32 (some (n : ℤ))).toNat = n := by
    rw [toInt32, Option.getD_some, BitVec.toNat_ofInt]
    omega
  rw [shiftLeft, hcount, BitVec.toInt_shiftLeft, hword, Nat.shiftLeft_eq]

theorem IsField.parsePaddedInt {f : List Char} (h : IsField f) :
    parsePaddedInt f = some (numeralValue 10 f : ℤ) := parsePaddedInt_digits h.digits h.ne_nil

theorem getIpInteger_text : getIpInteger q.text = some q.address.toInt := by
  have hfields : ∀ f ∈ [q.a, q.b, q.c, q.d],
      (decide (1 ≤ f.length) && f.all Char.isDigit) = true := by
    intro f hf
    have hfield := q.isField f hf
    rw [Bool.and_eq_true, decide_eq_true_eq, all_eq_true]
    exact ⟨List.length_pos_iff.2 hfield.ne_nil, hfield.digits⟩
  have ha := q.isField q.a (by simp)
  have hb := q.isField q.b (by simp)
  have hc := q.isField q.c (by simp)
  have hd := q.isField q.d (by simp)
  rw [getIpInteger, q.splitOn_text, Quad.fields]
  simp only []
  rw [if_pos (List.all_eq_true.2 hfields), ha.parsePaddedInt, hb.parsePaddedInt,
    hc.parsePaddedInt, hd.parsePaddedInt, shiftLeft_byte ha.small rfl, shiftLeft_byte hb.small rfl,
    shiftLeft_byte hc.small rfl, Option.map_some, Option.some_inj, toInt_word, q.toNat_address,
    Quad.number]
  have ha := ha.small
  have hb := hb.small
  have hc := hc.small
  have hd := hd.small
  rw [Int.bmod_def, Int.bmod_def, Int.bmod_def]
  push_cast
  split_ifs <;> omega

/-! ## Masks -/

def fieldsOf (n : ℕ) : List ℕ := [n / 256 ^ 3, n / 256 ^ 2 % 256, n / 256 % 256, n % 256]

theorem ipFields_text : ipFields q.text = some (fieldsOf q.number) := by
  have hfields : ∀ f ∈ q.fields,
      (decide (1 ≤ f.length) && decide (f.length ≤ 3) && f.all Char.isDigit) = true := by
    intro f hf
    have hfield := q.isField f hf
    rw [Bool.and_eq_true, Bool.and_eq_true, decide_eq_true_eq, decide_eq_true_eq, all_eq_true]
    exact ⟨⟨List.length_pos_iff.2 hfield.ne_nil, hfield.short⟩, hfield.digits⟩
  have ha := (q.isField q.a (by simp)).small
  have hb := (q.isField q.b (by simp)).small
  have hc := (q.isField q.c (by simp)).small
  have hd := (q.isField q.d (by simp)).small
  rw [ipFields, q.splitOn_text, if_pos ⟨rfl, List.all_eq_true.2 hfields⟩, Option.some_inj, fieldsOf,
    Quad.number]
  simp only [Quad.fields, map_cons, map_nil, List.cons.injEq, and_true]
  refine ⟨?_, ?_, ?_, ?_⟩ <;> omega

theorem validateNetMask_text {k : ℕ} (hk : k ≤ 32) (h : q.address = Subnets.mask 32 k) :
    validateNetMask q.text = 0 := by
  have hall : ∀ k : Fin 33,
      checkMaskFields (fieldsOf (Subnets.mask 32 k.val).toNat) 255 0 = 0 := by decide
  have hnumber : q.number = (Subnets.mask 32 k).toNat := by rw [← h, q.toNat_address]
  rw [validateNetMask, ipFields_text, Option.elim_some, hnumber]
  exact hall ⟨k, Nat.lt_succ_of_le hk⟩

theorem validateIpRange_slash {mask : List Char} (hmask : '/' ∉ mask)
    (h : validateNetMask mask = 0 ∨ validateNumericRange mask 1 31 = 0) :
    validateIpRange (q.text ++ '/' :: mask) = 0 ↔ q.Admitted := by
  have hslash : '/' ∉ q.text := fun hc => by
    rcases q.chars _ hc with hdigit | hdot
    · exact absurd hdigit (by decide)
    · exact absurd hdot (by decide)
  have hhead : (q.text ++ '/' :: mask).head? ≠ some '/' := by
    obtain ⟨c, s, hcons⟩ := exists_cons_of_ne_nil q.text_ne_nil
    rw [hcons] at hslash ⊢
    intro heq
    exact hslash (List.mem_cons.2 (Or.inl (Option.some.inj heq).symm))
  have hsplit : (q.text ++ '/' :: mask).splitOn '/' = [q.text, mask] := by
    rw [splitOn_append_cons_self_of_not_mem hslash, splitOn_eq_singleton hmask]
  rw [validateIpRange, if_pos ⟨mem_append_right _ mem_cons_self, hhead⟩, hsplit,
    Quad.Admitted]
  by_cases hvalid : validateIP q.text = 0
  · exact iff_of_true (if_pos ⟨hvalid, h⟩) hvalid
  · refine iff_of_false (fun hzero => ?_) hvalid
    have hone : (if validateIP q.text = 0 ∧
        (validateNetMask mask = 0 ∨ validateNumericRange mask 1 31 = 0) then 0 else 1) = 1 :=
      if_neg fun hboth => hvalid hboth.1
    exact absurd (hone.symm.trans hzero) Nat.one_ne_zero

end Quads

/-! ## Items -/

structure IsPrefixLength (bits : List Char) : Prop where
  ne_nil : bits ≠ []
  digits : ∀ c ∈ bits, c.isDigit = true
  pos : 1 ≤ numeralValue 10 bits
  small : numeralValue 10 bits ≤ 31

inductive IpItem
  | single (q : Quad)
  | subnet (q : Quad) (bits : List Char) (h : IsPrefixLength bits)
  | masked (q mask : Quad) (h : ∃ k ≤ 32, mask.address = Subnets.mask 32 k)
  | range (first last : Quad) (h : first.address.toNat ≤ last.address.toNat)

namespace IpItem

def text : IpItem → List Char
  | single q => q.text
  | subnet q bits _ => q.text ++ '/' :: bits
  | masked q mask _ => q.text ++ '/' :: mask.text
  | range first last _ => first.text ++ '-' :: last.text

def addresses : IpItem → Set (BitVec 32)
  | single q => {q.address}
  | subnet q bits _ =>
    let mask := Subnets.mask 32 (32 - numeralValue 10 bits)
    {x | x &&& mask = q.address &&& mask}
  | masked q mask _ => {x | x &&& mask.address = q.address &&& mask.address}
  | range first last _ => {x | first.address.toNat ≤ x.toNat ∧ x.toNat ≤ last.address.toNat}

def ends : IpItem → BitVec 32 × BitVec 32
  | single q => (q.address, q.address)
  | subnet q bits _ =>
    let mask := Subnets.mask 32 (32 - numeralValue 10 bits)
    (Subnets.first q.address mask, Subnets.last q.address mask)
  | masked q mask _ => (Subnets.first q.address mask.address, Subnets.last q.address mask.address)
  | range first last _ => (first.address, last.address)

def Accepted : IpItem → Prop
  | single q => q.Admitted
  | subnet q _ _ => q.Admitted
  | masked q _ _ => q.Admitted
  | range first last _ =>
    (first.Admitted ∧ last.Admitted) ∧
      ¬(first.address.toNat < 2 ^ 31 ∧ 2 ^ 31 ≤ last.address.toNat)

/-- An item with the mask `0.0.0.0`. -/
def IsZeroMask : IpItem → Prop
  | masked _ mask _ => mask.address = 0
  | _ => False

end IpItem

section Items

variable {i : IpItem}

theorem mem_ends {x : BitVec 32} :
    x ∈ i.addresses ↔ i.ends.1.toNat ≤ x.toNat ∧ x.toNat ≤ i.ends.2.toNat := by
  cases i with
  | single q =>
    have heq : x = q.address ↔ x.toNat = q.address.toNat := BitVec.toNat_inj.symm
    exact heq.trans ⟨fun h => ⟨h.ge, h.le⟩, fun h => le_antisymm h.2 h.1⟩
  | subnet q bits h => exact Subnets.first_eq_iff x q.address (Nat.sub_le ..)
  | masked q mask h =>
    obtain ⟨k, hk, hmask⟩ := h
    have hiff := Subnets.first_eq_iff x q.address hk
    rw [← hmask] at hiff
    exact hiff
  | range first last h => exact Iff.rfl

theorem ends_ordered : i.ends.1.toNat ≤ i.ends.2.toNat := by
  cases i with
  | single q => exact le_rfl
  | subnet q bits h => exact Subnets.toNat_first_le_last q.address (Nat.sub_le ..)
  | masked q mask h =>
    obtain ⟨k, hk, hmask⟩ := h
    have hle := Subnets.toNat_first_le_last q.address hk
    rw [← hmask] at hle
    exact hle
  | range first last h => exact h

theorem toInt32_toInt (x : BitVec 32) : toInt32 (some x.toInt) = x := BitVec.ofInt_toInt

/-! ### Texts of items -/

def IsItemChar (c : Char) : Prop := IsIpChar c ∨ c = '/' ∨ c = '-'

theorem isItemChar_spec {c : Char} (h : IsItemChar c) :
    isItemSeparator c = false ∧ isTabOrSpace c = false ∧ c ≠ ',' ∧ c.toUpper = c := by
  rcases h with (h | rfl) | rfl | rfl
  · have hne : c ≠ ',' := by
      rintro rfl
      exact absurd h (by decide)
    have hblank := (digit_ne h).2.2.2.2.1
    have hupper : c.toUpper = c := by
      have hle : 48 ≤ c.toNat ∧ c.toNat ≤ 57 := by
        simpa [Char.isDigit, UInt32.le_iff_toNat_le] using h
      unfold Char.toUpper
      rw [dif_neg]
      rintro ⟨hlower, -⟩
      have hge : 97 ≤ c.toNat := UInt32.le_iff_toNat_le.1 hlower
      omega
    rw [isItemSeparator, hblank, decide_eq_false hne]
    exact ⟨rfl, rfl, hne, hupper⟩
  · decide
  · decide
  · decide

theorem IsIpChar.not_mark {c : Char} (h : IsIpChar c) : c ≠ '/' ∧ c ≠ '-' := by
  rcases h with h | rfl
  · refine ⟨?_, (digit_ne h).1⟩
    rintro rfl
    exact absurd h (by decide)
  · decide

theorem Quad.not_mark (q : Quad) : '/' ∉ q.text ∧ '-' ∉ q.text :=
  ⟨fun h => (q.chars _ h).not_mark.1 rfl, fun h => (q.chars _ h).not_mark.2 rfl⟩

theorem IsPrefixLength.not_mark {bits : List Char} (h : IsPrefixLength bits) :
    '/' ∉ bits ∧ '-' ∉ bits ∧ '.' ∉ bits :=
  ⟨fun hc => (IsIpChar.not_mark (Or.inl (h.digits _ hc))).1 rfl,
    fun hc => (IsIpChar.not_mark (Or.inl (h.digits _ hc))).2 rfl,
    fun hc => digit_ne_dot (h.digits _ hc) rfl⟩

theorem IpItem.chars : ∀ c ∈ i.text, IsItemChar c := by
  have hjoin : ∀ {s t : List Char} {m : Char}, (∀ c ∈ s, IsIpChar c) → (∀ c ∈ t, IsIpChar c) →
      m = '/' ∨ m = '-' → ∀ c ∈ s ++ m :: t, IsItemChar c := fun hs ht hm =>
    List.forall_mem_append.2 ⟨fun c hc => Or.inl (hs c hc),
      List.forall_mem_cons.2 ⟨Or.inr hm, fun c hc => Or.inl (ht c hc)⟩⟩
  cases i with
  | single q => exact fun c hc => Or.inl (q.chars c hc)
  | subnet q bits h => exact hjoin q.chars (fun c hc => Or.inl (h.digits c hc)) (Or.inl rfl)
  | masked q mask h => exact hjoin q.chars mask.chars (Or.inl rfl)
  | range first last h => exact hjoin first.chars last.chars (Or.inr rfl)

theorem IpItem.text_ne_nil : i.text ≠ [] := by
  cases i with
  | single q => exact q.text_ne_nil
  | subnet q bits h => exact append_ne_nil_of_right_ne_nil _ (cons_ne_nil _ _)
  | masked q mask h => exact append_ne_nil_of_right_ne_nil _ (cons_ne_nil _ _)
  | range first last h => exact append_ne_nil_of_right_ne_nil _ (cons_ne_nil _ _)

theorem splitAround_mark {m : Char} {s t : List Char} (hs : ∀ c ∈ s, IsIpChar c)
    (ht : ∀ c ∈ t, IsIpChar c) (hm : m = '/' ∨ m = '-') :
    splitAround isTabOrSpace m (s ++ m :: t) = [s, t] := by
  have hclean : ∀ p ∈ [s, t], m ∉ p ∧ ∀ c ∈ p, isTabOrSpace c = false := by
    have hpart : ∀ p : List Char, (∀ c ∈ p, IsIpChar c) →
        m ∉ p ∧ ∀ c ∈ p, isTabOrSpace c = false := by
      intro p hp
      refine ⟨fun hmem => ?_, fun c hc => (isItemChar_spec (Or.inl (hp c hc))).2.1⟩
      rcases hm with rfl | rfl
      · exact (hp _ hmem).not_mark.1 rfl
      · exact (hp _ hmem).not_mark.2 rfl
    exact List.forall_mem_cons.2 ⟨hpart s hs, List.forall_mem_singleton.2 (hpart t ht)⟩
  have hsplit := splitAround_clean (cons_ne_nil s [t]) hclean
  rwa [List.intercalate_cons_cons, List.intercalate_singleton, append_assoc] at hsplit

theorem mem_mark (m : Char) (s t : List Char) : m ∈ s ++ m :: t :=
  mem_append_right s mem_cons_self

theorem not_mem_mark {m n : Char} {s t : List Char} (hs : n ∉ s) (ht : n ∉ t) (hne : n ≠ m) :
    n ∉ s ++ m :: t := by
  rw [mem_append, mem_cons, not_or, not_or]
  exact ⟨hs, hne, ht⟩

/-! ### The numbers of an item -/

theorem getMaskInteger_eq {bits : List Char} (h : IsPrefixLength bits) :
    getMaskInteger bits = (Subnets.mask 32 (32 - numeralValue 10 bits)).toInt := by
  have hpos := h.pos
  have hsmall := h.small
  have hones : toInt32 (some (-1)) = BitVec.allOnes 32 := by decide
  have hcount : ((32 - (numeralValue 10 bits : ℤ)) % 32).toNat % 32 =
      32 - numeralValue 10 bits := by omega
  rw [getMaskInteger, parsePaddedInt_digits h.digits h.ne_nil, Option.elim_some, shiftLeft, hones,
    hcount]
  rfl

/-- The ends of an item, as signed integers. -/
theorem getIpRangeIntegers_text :
    getIpRangeIntegers i.text = (some i.ends.1.toInt, some i.ends.2.toInt) := by
  cases i with
  | single q =>
    rw [IpItem.text, getIpRangeIntegers, if_neg q.not_mark.1, if_neg q.not_mark.2,
      getIpInteger_text]
    rfl
  | subnet q bits h =>
    have hsplit := splitAround_mark q.chars (fun c hc => Or.inl (h.digits c hc)) (Or.inl rfl)
    rw [IpItem.text, getIpRangeIntegers, if_pos (mem_mark ..), hsplit]
    simp only [getD_cons_zero, getD_cons_succ]
    rw [if_neg h.not_mark.2.2, getIpInteger_text, getMaskInteger_eq h, toInt32_toInt,
      toInt32_toInt]
    rfl
  | masked q mask h =>
    have hdot : '.' ∈ mask.text := by
      rw [Quad.text, Quad.fields, List.intercalate_cons_cons]
      simp
    rw [IpItem.text, getIpRangeIntegers, if_pos (mem_mark ..),
      splitAround_mark q.chars mask.chars (Or.inl rfl)]
    simp only [getD_cons_zero, getD_cons_succ]
    rw [if_pos hdot, getIpInteger_text, getIpInteger_text, toInt32_toInt, toInt32_toInt]
    rfl
  | range first last h =>
    have hslash : '/' ∉ first.text ++ '-' :: last.text :=
      not_mem_mark first.not_mark.1 last.not_mark.1 (by decide)
    rw [IpItem.text, getIpRangeIntegers, if_neg hslash, if_pos (mem_mark ..),
      splitAround_mark first.chars last.chars (Or.inr rfl)]
    simp only [getD_cons_zero, getD_cons_succ]
    rw [getIpInteger_text, getIpInteger_text]
    rfl

/-! ### The checks of an item -/

/-- Exactly the accepted items pass the check. -/
theorem validateIpPiece_text : validateIpPiece i.text = 0 ↔ i.Accepted := by
  cases i with
  | single q =>
    rw [IpItem.text, validateIpPiece, if_neg q.not_mark.2, validateIpRange,
      if_neg fun h => q.not_mark.1 h.1]
    rfl
  | subnet q bits h =>
    have hrange : validateNumericRange bits 1 31 = 0 := by
      have hnumeric : validateNumeric bits = 0 :=
        if_pos ⟨h.ne_nil, List.all_eq_true.2 h.digits⟩
      rw [validateNumericRange, if_neg (fun hne => hne hnumeric), if_neg (not_lt.2 h.pos),
        if_neg (not_lt.2 h.small)]
    have hiff := validateIpRange_slash q h.not_mark.1 (Or.inr hrange)
    rw [IpItem.text, validateIpPiece,
      if_neg (not_mem_mark q.not_mark.2 h.not_mark.2.1 (by decide)), hiff]
    rfl
  | masked q mask h =>
    obtain ⟨k, hk, hmask⟩ := h
    have hiff := validateIpRange_slash q mask.not_mark.1
      (Or.inl (validateNetMask_text mask hk hmask))
    rw [IpItem.text, validateIpPiece,
      if_neg (not_mem_mark q.not_mark.2 mask.not_mark.2 (by decide)), hiff]
    rfl
  | range first last h =>
    have hhalf : first.address.toInt ≤ last.address.toInt ↔
        ¬(first.address.toNat < 2 ^ 31 ∧ 2 ^ 31 ≤ last.address.toNat) := by
      have hlast := last.address.isLt
      rw [toInt_word, toInt_word]
      split_ifs <;> omega
    rw [IpItem.text, validateIpPiece, if_pos (mem_mark ..),
      splitAround_mark first.chars last.chars (Or.inr rfl)]
    simp only [getIpInteger_text, atMost, decide_eq_true_eq, IpItem.Accepted, Quad.Admitted,
      ← hhalf]
    split_ifs <;> simp_all

end Items

/-!
## Overlap of addresses with dots

The ends of an item are compared as signed words. Ranges that go from one half of the addresses to
the other one are rejected by the check, and an item with the mask `0.0.0.0` ends before it starts,
so that it overlaps with nothing but an item of the same text. All other items overlap if and only
if they have an address in common.
-/

/-! ### Lists of texts -/

def listText (ps : List (List Char)) : List Char := [','].intercalate ps

section Lists

variable {ps qs : List (List Char)}

theorem trimBlanks_eq {s : List Char} (h : ∀ c ∈ s, isTabOrSpace c = false) : trimBlanks s = s := by
  have hstart := @dropWhile_blanks isTabOrSpace [] s (forall_mem_nil _)
    fun c hc => h c (mem_of_head? hc)
  have hend := @rdropWhile_blanks isTabOrSpace [] s (forall_mem_nil _)
    fun c hc => h c (mem_of_getLast? hc)
  rw [nil_append] at hstart
  rw [List.append_nil] at hend
  rw [trimBlanks, hstart, hend]

def Unseparated (ps : List (List Char)) : Prop :=
  ∀ p ∈ ps, p ≠ [] ∧ ∀ c ∈ p, isItemSeparator c = false

theorem Unseparated.not_blank (h : Unseparated ps) : ∀ c ∈ listText ps, isTabOrSpace c = false := by
  intro c hc
  rw [listText] at hc
  induction ps with
  | nil => exact absurd hc not_mem_nil
  | cons p ps ih =>
    obtain ⟨hp, hps⟩ := List.forall_mem_cons.1 h
    have hchar : ∀ c ∈ p, isTabOrSpace c = false := fun c hc =>
      (Bool.or_eq_false_iff.1 (hp.2 c hc)).2
    cases ps with
    | nil =>
      rw [List.intercalate_singleton] at hc
      exact hchar c hc
    | cons q ps =>
      rw [List.intercalate_cons_cons, append_assoc, mem_append, mem_append,
        mem_singleton] at hc
      rcases hc with hc | rfl | hc
      · exact hchar c hc
      · decide
      · exact ih hps hc

theorem Unseparated.splitRuns (h : Unseparated ps) (hne : ps ≠ []) :
    splitRuns isItemSeparator (trimBlanks (listText ps)) = ps := by
  rw [trimBlanks_eq h.not_blank, listText, splitRuns_intercalate (by decide) hne h]

theorem Unseparated.splitAround (h : Unseparated ps) (hne : ps ≠ []) :
    splitAround isTabOrSpace ',' (trimBlanks (listText ps)) = ps := by
  rw [trimBlanks_eq h.not_blank, listText, splitAround_clean hne]
  intro p hp
  have hchars := (h p hp).2
  refine ⟨fun hcomma => absurd (hchars _ hcomma) (by decide), fun c hc => ?_⟩
  exact (Bool.or_eq_false_iff.1 (hchars c hc)).2

theorem anyM_eq_some {f : List Char → Option Bool} {g : List Char → Bool}
    (h : ∀ p ∈ ps, f p = some (g p)) : ps.anyM f = some (ps.any g) := by
  induction ps with
  | nil => rfl
  | cons p ps ih =>
    obtain ⟨hp, hps⟩ := List.forall_mem_cons.1 h
    rw [List.anyM, hp, any_cons]
    cases g p with
    | true => rfl
    | false => exact ih hps

theorem testAddrOverlap_listText (hps : Unseparated ps) (hqs : Unseparated qs) (hpne : ps ≠ [])
    (hqne : qs ≠ []) {treatipv6 : Bool} {g : List Char → List Char → Bool}
    (h : ∀ p ∈ ps, ∀ q ∈ qs, testSingleAddrOverlap p q treatipv6 = some (g p q)) :
    testAddrOverlap (listText ps) (listText qs) treatipv6 =
      some (ps.any fun p => qs.any fun q => g p q) := by
  rw [testAddrOverlap, hps.splitRuns hpne, hqs.splitRuns hqne]
  exact anyM_eq_some fun p hp => anyM_eq_some fun q hq => h p hp q hq

end Lists

/-! ### Items with dots -/

section Items

variable {i j : IpItem}

theorem unseparated_items (l : List IpItem) : Unseparated (l.map IpItem.text) := by
  intro p hp
  obtain ⟨i, -, rfl⟩ := List.mem_map.1 hp
  exact ⟨i.text_ne_nil, fun c hc => (isItemChar_spec (i.chars c hc)).1⟩

theorem validateMultipleIps_iff {l : List IpItem} (hne : l ≠ []) :
    validateMultipleIps (listText (l.map IpItem.text)) = 0 ↔ ∀ i ∈ l, i.Accepted := by
  rw [validateMultipleIps, (unseparated_items l).splitAround (by simpa using hne),
    firstError_eq_zero_iff, forall_mem_map]
  exact forall₂_congr fun i _ => validateIpPiece_text

theorem validateMultipleIps_text (h : i.Accepted) : validateMultipleIps i.text = 0 := by
  have hlist := (validateMultipleIps_iff (cons_ne_nil i [])).2
    (List.forall_mem_singleton.2 h)
  rwa [map_singleton, listText, List.intercalate_singleton] at hlist

theorem adjusted_text : adjusted i.text = i.text := by
  have hupper : i.text.map Char.toUpper = i.text :=
    (map_congr_left fun c hc => (isItemChar_spec (i.chars c hc)).2.2.2).trans (map_id _)
  have hnot : ∀ s : List Char, 'A' ∈ s → i.text ≠ s := by
    rintro s hs heq
    rcases i.chars 'A' (heq ▸ hs) with (h | h) | h
    · exact absurd h (by decide)
    · exact absurd h (by decide)
    · exact absurd h (by decide)
  rw [adjusted, if_neg i.text_ne_nil]
  simp only [hupper]
  rw [if_neg]
  rintro (heq | heq)
  · exact hnot _ (by decide) heq
  · exact hnot _ (by decide) heq

def Found (i j : IpItem) : Prop :=
  i.text = j.text ∨ (i.ends.1.toInt ≤ j.ends.2.toInt ∧ j.ends.1.toInt ≤ i.ends.2.toInt)

open Classical in
theorem testSingleAddrOverlap_text (hi : i.Accepted) (hj : j.Accepted) :
    testSingleAddrOverlap i.text j.text false = some (decide (Found i j)) := by
  have hcomma : ∀ k : IpItem, ',' ∉ k.text := fun k hc =>
    (isItemChar_spec (k.chars _ hc)).2.2.1 rfl
  rw [testSingleAddrOverlap, adjusted_text, adjusted_text]
  by_cases heq : i.text = j.text
  · rw [if_pos heq, decide_eq_true (show Found i j from Or.inl heq)]
  · have hcheck : ¬(validateMultipleIps i.text > 0 ∨ validateMultipleIps j.text > 0 ∨
        ',' ∈ i.text ∨ ',' ∈ j.text) := by
      rw [validateMultipleIps_text hi, validateMultipleIps_text hj]
      rintro (h | h | h | h)
      · exact absurd h (lt_irrefl 0)
      · exact absurd h (lt_irrefl 0)
      · exact hcomma i h
      · exact hcomma j h
    have hfound : Found i j ↔
        i.ends.1.toInt ≤ j.ends.2.toInt ∧ j.ends.1.toInt ≤ i.ends.2.toInt := or_iff_right heq
    rw [if_neg heq, if_neg Bool.false_ne_true, if_neg hcheck, if_neg Bool.false_ne_true,
      getIpRangeIntegers_text, getIpRangeIntegers_text, decide_eq_decide.2 hfound, Bool.decide_and]
    rfl

theorem sameHalf_ends (hi : i.Accepted) (hmask : ¬i.IsZeroMask) :
    i.ends.1.toNat < 2 ^ 31 ↔ i.ends.2.toNat < 2 ^ 31 := by
  have hsubnet : ∀ (x : BitVec 32) (k : ℕ), k ≤ 31 →
      ((Subnets.first x (Subnets.mask 32 k)).toNat < 2 ^ 31 ↔
        (Subnets.last x (Subnets.mask 32 k)).toNat < 2 ^ 31) := by
    intro x k hk
    rw [Subnets.toNat_first, Subnets.toNat_last x (by omega)]
    have hpow : 2 ^ 31 = 2 ^ (31 - k) * 2 ^ k := by
      rw [← pow_add, Nat.sub_add_cancel hk]
    rw [hpow]
    have hpos := Nat.two_pow_pos k
    have hlt : x.toNat / 2 ^ k * 2 ^ k < 2 ^ (31 - k) * 2 ^ k ↔ x.toNat / 2 ^ k < 2 ^ (31 - k) :=
      Nat.mul_lt_mul_right hpos
    rw [hlt]
    constructor
    · intro h
      have hmul := Nat.mul_le_mul_right (2 ^ k) (Nat.succ_le_of_lt h)
      rw [Nat.succ_mul] at hmul
      omega
    · intro h
      exact hlt.1 ((Nat.le_add_right _ _).trans_lt h)
  cases i with
  | single q => exact Iff.rfl
  | subnet q bits h => exact hsubnet q.address _ (by have hpos := h.pos; omega)
  | masked q mask h =>
    obtain ⟨k, hk, heq⟩ := h
    have hk : k ≤ 31 := by
      by_contra hgt
      obtain rfl : k = 32 := by omega
      exact hmask (heq.trans (by decide))
    have hiff := hsubnet q.address k hk
    rw [← heq] at hiff
    exact hiff
  | range first last h =>
    have hhalf := hi.2
    simp only [IpItem.ends]
    omega

theorem ends_of_zeroMask (h : i.IsZeroMask) : i.ends.1.toInt = 0 ∧ i.ends.2.toInt = -1 := by
  cases i with
  | masked q mask hmask =>
    have hzero : mask.address = 0 := h
    have hfirst : Subnets.first q.address 0 = 0 := BitVec.and_zero
    have hlast : Subnets.last q.address 0 = BitVec.allOnes 32 := by
      rw [Subnets.last]
      simp
    simp only [IpItem.ends, hzero, hfirst, hlast]
    decide
  | single q => exact absurd h (fun h => h)
  | subnet q bits hbits => exact absurd h (fun h => h)
  | range first last hrange => exact absurd h (fun h => h)

theorem not_found_zeroMask (hi : i.IsZeroMask) (hj : j.Accepted) :
    ¬(i.ends.1.toInt ≤ j.ends.2.toInt ∧ j.ends.1.toInt ≤ i.ends.2.toInt) := by
  obtain ⟨hfirst, hlast⟩ := ends_of_zeroMask hi
  rw [hfirst, hlast]
  by_cases hzero : j.IsZeroMask
  · rw [(ends_of_zeroMask hzero).1, (ends_of_zeroMask hzero).2]
    decide
  · have hhalf := sameHalf_ends hj hzero
    have hfirst := j.ends.1.isLt
    have hlast := j.ends.2.isLt
    rw [toInt_word, toInt_word]
    split_ifs <;> omega

theorem inter_addresses_nonempty :
    (i.addresses ∩ j.addresses).Nonempty ↔
      i.ends.1.toNat ≤ j.ends.2.toNat ∧ j.ends.1.toNat ≤ i.ends.2.toNat := by
  constructor
  · rintro ⟨x, hxi, hxj⟩
    rw [mem_ends] at hxi hxj
    exact ⟨hxi.1.trans hxj.2, hxj.1.trans hxi.2⟩
  · rintro ⟨hij, hji⟩
    have hi := @ends_ordered i
    have hj := @ends_ordered j
    rcases le_total i.ends.1.toNat j.ends.1.toNat with hle | hle
    · exact ⟨j.ends.1, mem_ends.2 ⟨hle, hji⟩, mem_ends.2 ⟨le_rfl, hj⟩⟩
    · exact ⟨i.ends.1, mem_ends.2 ⟨le_rfl, hi⟩, mem_ends.2 ⟨hle, hij⟩⟩

theorem found_iff_nonempty (hi : i.Accepted) (hj : j.Accepted) (hizero : ¬i.IsZeroMask)
    (hjzero : ¬j.IsZeroMask) :
    i.ends.1.toInt ≤ j.ends.2.toInt ∧ j.ends.1.toInt ≤ i.ends.2.toInt ↔
      (i.addresses ∩ j.addresses).Nonempty := by
  have hihalf := sameHalf_ends hi hizero
  have hjhalf := sameHalf_ends hj hjzero
  have hiordered := @ends_ordered i
  have hjordered := @ends_ordered j
  have hilt := i.ends.2.isLt
  have hjlt := j.ends.2.isLt
  rw [inter_addresses_nonempty, toInt_word, toInt_word, toInt_word, toInt_word]
  split_ifs <;> omega

theorem addresses_nonempty (i : IpItem) : i.addresses.Nonempty :=
  ⟨i.ends.1, mem_ends.2 ⟨le_rfl, ends_ordered⟩⟩

theorem addresses_of_zeroMask (h : i.IsZeroMask) : i.addresses = Set.univ := by
  cases i with
  | masked q mask hmask =>
    have hzero : mask.address = 0 := h
    refine Set.eq_univ_of_forall fun x => ?_
    have heq : x &&& 0 = q.address &&& 0 := BitVec.and_zero.trans BitVec.and_zero.symm
    rw [← hzero] at heq
    exact heq
  | single q => exact absurd h (fun h => h)
  | subnet q bits hbits => exact absurd h (fun h => h)
  | range first last hrange => exact absurd h (fun h => h)

theorem nonempty_of_text_eq (h : i.text = j.text) : (i.addresses ∩ j.addresses).Nonempty := by
  have hnumbers := @getIpRangeIntegers_text i
  rw [h, getIpRangeIntegers_text, Prod.mk.injEq, Option.some_inj, Option.some_inj] at hnumbers
  obtain ⟨hfirst, hlast⟩ := hnumbers
  rw [BitVec.toInt_inj] at hfirst hlast
  rw [inter_addresses_nonempty, hfirst, hlast]
  exact ⟨ends_ordered, ends_ordered⟩

/-! ### Lists of items -/

def ShareAddress (l m : List IpItem) : Prop :=
  ∃ x, (∃ i ∈ l, x ∈ i.addresses) ∧ ∃ j ∈ m, x ∈ j.addresses

def MasksSeen (l m : List IpItem) : Prop :=
  (∀ i ∈ l ++ m, ¬i.IsZeroMask) ∨
    ∃ i ∈ l, ∃ j ∈ m, i.text = j.text ∨
      ((¬i.IsZeroMask ∧ ¬j.IsZeroMask) ∧ (i.addresses ∩ j.addresses).Nonempty)

def OverlapRight (l m : List IpItem) : Prop :=
  (validateMultipleIps (listText (l.map IpItem.text)) = 0 ∧
      validateMultipleIps (listText (m.map IpItem.text)) = 0) ∧
    (testAddrOverlap (listText (l.map IpItem.text)) (listText (m.map IpItem.text)) false =
      some true ↔ ShareAddress l m)

theorem testAddrOverlap_items {l m : List IpItem} (hl : ∀ i ∈ l, i.Accepted)
    (hm : ∀ j ∈ m, j.Accepted) (hlne : l ≠ []) (hmne : m ≠ []) :
    testAddrOverlap (listText (l.map IpItem.text)) (listText (m.map IpItem.text)) false =
        some true ↔ ∃ i ∈ l, ∃ j ∈ m, Found i j := by
  classical
  have heq : ∀ p ∈ l.map IpItem.text, ∀ q ∈ m.map IpItem.text,
      testSingleAddrOverlap p q false =
        some ((testSingleAddrOverlap p q false).getD false) := by
    intro p hp q hq
    obtain ⟨i, hi, rfl⟩ := List.mem_map.1 hp
    obtain ⟨j, hj, rfl⟩ := List.mem_map.1 hq
    rw [testSingleAddrOverlap_text (hl i hi) (hm j hj)]
    rfl
  rw [testAddrOverlap_listText (unseparated_items l) (unseparated_items m) (by simpa using hlne)
    (by simpa using hmne) heq, Option.some_inj, any_map, any_eq_true]
  refine exists_congr fun i => and_congr_right fun hi => ?_
  rw [Function.comp_apply, any_map, any_eq_true]
  refine exists_congr fun j => and_congr_right fun hj => ?_
  rw [Function.comp_apply, testSingleAddrOverlap_text (hl i hi) (hm j hj), Option.getD_some,
    decide_eq_true_eq]

theorem shareAddress_iff {l m : List IpItem} :
    ShareAddress l m ↔ ∃ i ∈ l, ∃ j ∈ m, (i.addresses ∩ j.addresses).Nonempty := by
  constructor
  · rintro ⟨x, ⟨i, hi, hxi⟩, j, hj, hxj⟩
    exact ⟨i, hi, j, hj, x, hxi, hxj⟩
  · rintro ⟨i, hi, j, hj, x, hxi, hxj⟩
    exact ⟨x, ⟨i, hi, hxi⟩, j, hj, hxj⟩

/-- When an overlap of two lists is found. -/
theorem found_iff_share {l m : List IpItem} (hl : ∀ i ∈ l, i.Accepted) (hm : ∀ j ∈ m, j.Accepted)
    (hlne : l ≠ []) (hmne : m ≠ []) :
    ((∃ i ∈ l, ∃ j ∈ m, Found i j) ↔ ShareAddress l m) ↔ MasksSeen l m := by
  have hseen : (∃ i ∈ l, ∃ j ∈ m, Found i j) ↔ ∃ i ∈ l, ∃ j ∈ m, i.text = j.text ∨
      ((¬i.IsZeroMask ∧ ¬j.IsZeroMask) ∧ (i.addresses ∩ j.addresses).Nonempty) := by
    refine exists_congr fun i => and_congr_right fun hi => exists_congr fun j =>
      and_congr_right fun hj => or_congr_right ?_
    by_cases hizero : i.IsZeroMask
    · exact iff_of_false (not_found_zeroMask hizero (hm j hj)) fun h => h.1.1 hizero
    · by_cases hjzero : j.IsZeroMask
      · exact iff_of_false (fun h => not_found_zeroMask hjzero (hl i hi) ⟨h.2, h.1⟩)
          fun h => h.1.2 hjzero
      · rw [found_iff_nonempty (hl i hi) (hm j hj) hizero hjzero]
        exact (and_iff_right ⟨hizero, hjzero⟩).symm
  have hshared : (∃ i ∈ l, ∃ j ∈ m, Found i j) → ShareAddress l m := by
    intro hfound
    obtain ⟨i, hi, j, hj, heq | ⟨-, hnonempty⟩⟩ := hseen.1 hfound
    · exact shareAddress_iff.2 ⟨i, hi, j, hj, nonempty_of_text_eq heq⟩
    · exact shareAddress_iff.2 ⟨i, hi, j, hj, hnonempty⟩
  rw [MasksSeen, ← hseen]
  constructor
  · intro hright
    by_cases hzero : ∀ i ∈ l ++ m, ¬i.IsZeroMask
    · exact .inl hzero
    · -- An item with the mask zero has an address in common with every other one.
      push Not at hzero
      obtain ⟨k, hk, hkzero⟩ := hzero
      refine .inr (hright.2 (shareAddress_iff.2 ?_))
      have huniv := addresses_of_zeroMask hkzero
      rcases List.mem_append.1 hk with hk | hk
      · obtain ⟨j, hj⟩ := exists_mem_of_ne_nil m hmne
        exact ⟨k, hk, j, hj, by rw [huniv, Set.univ_inter]; exact addresses_nonempty j⟩
      · obtain ⟨i, hi⟩ := exists_mem_of_ne_nil l hlne
        exact ⟨i, hi, k, hk, by rw [huniv, Set.inter_univ]; exact addresses_nonempty i⟩
  · rintro (hnone | hfound)
    · refine ⟨hshared, fun hshare => hseen.2 ?_⟩
      obtain ⟨i, hi, j, hj, hnonempty⟩ := shareAddress_iff.1 hshare
      exact ⟨i, hi, j, hj, Or.inr ⟨⟨hnone i (mem_append_left m hi),
        hnone j (mem_append_right l hj)⟩, hnonempty⟩⟩
    · exact iff_of_true hfound (hshared hfound)

theorem validateMultipleIps_nil :
    validateMultipleIps (listText (([] : List IpItem).map IpItem.text)) ≠ 0 := by decide

/-- The lists for which the answer is right. -/
theorem overlapRight_iff (l m : List IpItem) :
    OverlapRight l m ↔
      (l ≠ [] ∧ m ≠ []) ∧ ((∀ i ∈ l, i.Accepted) ∧ ∀ j ∈ m, j.Accepted) ∧ MasksSeen l m := by
  rw [OverlapRight]
  by_cases hlne : l = []
  · subst hlne
    exact iff_of_false (fun h => validateMultipleIps_nil h.1.1) fun h => h.1.1 rfl
  by_cases hmne : m = []
  · subst hmne
    exact iff_of_false (fun h => validateMultipleIps_nil h.1.2) fun h => h.1.2 rfl
  have hne : l ≠ [] ∧ m ≠ [] := ⟨hlne, hmne⟩
  rw [validateMultipleIps_iff hlne, validateMultipleIps_iff hmne, and_iff_right hne]
  refine and_congr_right fun haccepted => ?_
  rw [testAddrOverlap_items haccepted.1 haccepted.2 hlne hmne]
  exact found_iff_share haccepted.1 haccepted.2 hlne hmne

theorem isField_exampleFields :
    (∀ f ∈ [['1', '0'], ['0'], ['0'], ['1']], IsField f) ∧
      ∀ f ∈ [['2', '0', '0'], ['0'], ['0'], ['1']], IsField f := by
  have hall : [['1', '0'], ['2', '0', '0'], ['0'], ['1']].all (fun f => decide (f ≠ [] ∧
      f.length ≤ 3 ∧ f.all Char.isDigit = true ∧ numeralValue 10 f ≤ 255)) = true := by decide
  have hfield : ∀ f ∈ [['1', '0'], ['2', '0', '0'], ['0'], ['1']], IsField f := by
    intro f hf
    obtain ⟨hne, hshort, hdigits, hsmall⟩ := Numerals.forall_mem_of_all hall f hf
    exact ⟨hne, hshort, List.all_eq_true.1 hdigits, hsmall⟩
  exact ⟨fun f hf => hfield f (by grind), fun f hf => hfield f (by grind)⟩

/-- `10.0.0.1` -/
def lowQuad : Quad := ⟨['1', '0'], ['0'], ['0'], ['1'], isField_exampleFields.1⟩

/-- `200.0.0.1` -/
def highQuad : Quad := ⟨['2', '0', '0'], ['0'], ['0'], ['1'], isField_exampleFields.2⟩

theorem lowQuad_le_highQuad : lowQuad.address.toNat ≤ highQuad.address.toNat := by decide

/-- A range that goes over the middle of all addresses is not accepted. -/
theorem range_over_middle_rejected :
    (lowQuad.Admitted ∧ highQuad.Admitted) ∧
      ¬OverlapRight [.range lowQuad highQuad lowQuad_le_highQuad] [.single lowQuad] := by
  have hadmitted : lowQuad.Admitted ∧ highQuad.Admitted := by
    rw [Quad.Admitted, Quad.Admitted]
    decide
  have hrejected : validateMultipleIps "10.0.0.1-200.0.0.1".toList ≠ 0 := by decide
  exact ⟨hadmitted, fun h => hrejected h.1.1⟩

end Items

end Web

end Gargoyle
