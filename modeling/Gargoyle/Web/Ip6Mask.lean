import Gargoyle.Web.Ip6Canonical

/-!
# The mask of a long address

An address is one number of 128 bits. Its bits are written as a text, the last ones are replaced by
zeros, and the text is read again in pieces of sixteen.
-/

namespace Gargoyle

open List

namespace Web

open InetText (isHexDigit isGroup isGroup_digits)
open Numerals

/-! ## The bits of an address -/

def addressNumber (vs : List ℕ) : ℕ := vs.foldl (fun n v => n * 65536 + v) 0

def bitsText (vs : List ℕ) : List Char := vs.flatMap (paddedNumeral 2 16)

def bitGroups (bin : List Char) : List ℕ :=
  (List.range 8).map fun x => numeralValue 2 ((bin.drop (x * 16)).take 16)

def IsBits (s : List Char) : Prop := ∀ c ∈ s, c = '0' ∨ c = '1'

section Bits

variable {s t : List Char}

theorem IsBits.isDigits (h : IsBits s) : IsDigits 2 s := by
  intro c hc
  rcases h c hc with rfl | rfl
  · decide
  · decide

theorem IsBits.append (hs : IsBits s) (ht : IsBits t) : IsBits (s ++ t) :=
  List.forall_mem_append.2 ⟨hs, ht⟩

theorem isBits_replicate {c : Char} (hc : c = '0' ∨ c = '1') (n : ℕ) :
    IsBits (List.replicate n c) := by
  intro d hd
  rwa [eq_of_mem_replicate hd]

theorem isBits_paddedNumeral (k n : ℕ) : IsBits (paddedNumeral 2 k n) := by
  intro c hc
  obtain ⟨d, hd, rfl⟩ := mem_paddedNumeral Nat.one_lt_two hc
  obtain rfl | rfl : d = 0 ∨ d = 1 := by omega
  · exact .inl rfl
  · exact .inr rfl

theorem isBits_bitsText (vs : List ℕ) : IsBits (bitsText vs) := by
  intro c hc
  obtain ⟨v, -, hc⟩ := List.mem_flatMap.1 hc
  exact isBits_paddedNumeral 16 v c hc

theorem addressNumber_append (vs ws : List ℕ) :
    addressNumber (vs ++ ws) = addressNumber vs * 65536 ^ ws.length + addressNumber ws := by
  induction ws using List.reverseRecOn with
  | nil => simp [addressNumber]
  | append_singleton ws w ih =>
    have hlast : ∀ us : List ℕ, addressNumber (us ++ [w]) = addressNumber us * 65536 + w := by
      intro us
      simp [addressNumber]
    rw [← append_assoc, hlast, hlast, ih, length_append, length_singleton,
      pow_succ]
    ring

theorem addressNumber_cons (v : ℕ) (vs : List ℕ) :
    addressNumber (v :: vs) = v * 65536 ^ vs.length + addressNumber vs := by
  have hsingle : addressNumber [v] = v := by simp [addressNumber]
  have happend := addressNumber_append [v] vs
  rwa [singleton_append, hsingle] at happend

theorem length_bitsText {vs : List ℕ} (h : ∀ v ∈ vs, v < 65536) :
    (bitsText vs).length = 16 * vs.length := by
  induction vs with
  | nil => rfl
  | cons v vs ih =>
    obtain ⟨hv, hvs⟩ := List.forall_mem_cons.1 h
    have hpadded : (paddedNumeral 2 16 v).length = 16 := length_paddedNumeral (by decide) hv
    rw [bitsText, flatMap_cons, length_append, hpadded, length_cons]
    rw [bitsText] at ih
    rw [ih hvs]
    omega

theorem numeralValue_bitsText {vs : List ℕ} (h : ∀ v ∈ vs, v < 65536) :
    numeralValue 2 (bitsText vs) = addressNumber vs := by
  induction vs with
  | nil => rfl
  | cons v vs ih =>
    obtain ⟨hv, hvs⟩ := List.forall_mem_cons.1 h
    have hlength := length_bitsText hvs
    have hpow : (65536 : ℕ) ^ vs.length = 2 ^ (16 * vs.length) := by
      rw [pow_mul]
      norm_num
    have hrest := ih hvs
    rw [bitsText] at hlength hrest
    rw [addressNumber_cons, bitsText, flatMap_cons, numeralValue_append, hlength, hpow,
      hrest, numeralValue_paddedNumeral Nat.one_lt_two (by decide)]

theorem bitGroups_lt (h : IsBits s) : ∀ v ∈ bitGroups s, v < 65536 := by
  intro v hv
  obtain ⟨x, -, rfl⟩ := List.mem_map.1 hv
  have hsub : IsBits ((s.drop (x * 16)).take 16) := fun c hc =>
    h c (mem_of_mem_drop (mem_of_mem_take hc))
  have hlt := numeralValue_lt hsub.isDigits
  have hlength : ((s.drop (x * 16)).take 16).length ≤ 16 := length_take_le _ _
  exact hlt.trans_le (Nat.pow_le_pow_right (by decide) hlength)

theorem addressNumber_bitGroups (h : s.length = 128) :
    addressNumber (bitGroups s) = numeralValue 2 s := by
  have hpieces : ∀ n ≤ 8, addressNumber ((List.range n).map fun x =>
      numeralValue 2 ((s.drop (x * 16)).take 16)) = numeralValue 2 (s.take (n * 16)) := by
    intro n hn
    induction n with
    | zero =>
      rw [Nat.zero_mul, take_zero]
      rfl
    | succ n ih =>
      have hlength : ((s.drop (n * 16)).take 16).length = 16 := by
        rw [length_take, length_drop]
        omega
      have hsingle : ∀ v, addressNumber [v] = v := fun v => by simp [addressNumber]
      rw [range_succ, map_append, addressNumber_append, ih (by omega),
        map_singleton, hsingle, length_singleton, Nat.succ_mul, take_add, numeralValue_append, hlength,
        pow_one]
      norm_num
  have hall := hpieces 8 le_rfl
  rwa [take_of_length_le h.le] at hall

theorem numeralValue_take (h : IsBits s) (n : ℕ) :
    numeralValue 2 (s.take n) = numeralValue 2 s / 2 ^ (s.length - n) := by
  have hsplit := numeralValue_append 2 (s.take n) (s.drop n)
  rw [take_append_drop, length_drop] at hsplit
  have hrest : IsBits (s.drop n) := fun c hc => h c (mem_of_mem_drop hc)
  have hlt := numeralValue_lt hrest.isDigits
  rw [length_drop] at hlt
  rw [hsplit, Nat.mul_comm, Nat.mul_add_div (Nat.two_pow_pos _), Nat.div_eq_of_lt hlt, Nat.add_zero]

theorem numeralValue_cleared (h : IsBits s) (n : ℕ) :
    numeralValue 2 (s.take n ++ List.replicate (s.length - n) '0') =
      numeralValue 2 s / 2 ^ (s.length - n) * 2 ^ (s.length - n) := by
  have hzero := numeralValue_zeros 2 (s.length - n) []
  rw [List.append_nil] at hzero
  rw [← numeralValue_take h, numeralValue_append, hzero, length_replicate]
  rfl

theorem numeralValue_filled (h : IsBits s) (n : ℕ) :
    numeralValue 2 (s.take n ++ List.replicate (s.length - n) '1') =
      numeralValue 2 s / 2 ^ (s.length - n) * 2 ^ (s.length - n) + (2 ^ (s.length - n) - 1) := by
  have hones : ∀ k : ℕ, numeralValue 2 (List.replicate k '1') = 2 ^ k - 1 := by
    intro k
    induction k with
    | zero => rfl
    | succ k ih =>
      have hone : digitValue '1' = 1 := rfl
      have hpos := Nat.two_pow_pos k
      rw [replicate_succ, numeralValue_cons, ih, hone, length_replicate, Nat.one_mul,
        pow_succ]
      omega
  rw [← numeralValue_take h, numeralValue_append, hones, length_replicate]

end Bits

/-! ## Numbers as texts -/

section Radix

theorem hex_not_special {c : Char} (hc : isHexDigit c = true) :
    ScriptNumber.isSpace c = false ∧ c ∉ ['-', '+', 'x', 'X'] ∧ radixDigit 16 c = true :=
  forall_hexDigit (p := fun c => ScriptNumber.isSpace c = false ∧ c ∉ ['-', '+', 'x', 'X'] ∧
    radixDigit 16 c = true) (by decide) hc

theorem parseIntRadix_digits {radix : ℕ} {s : List Char} (hne : s ≠ [])
    (hhex : ∀ c ∈ s, isHexDigit c = true) (hradix : ∀ c ∈ s, radixDigit radix c = true) :
    parseIntRadix radix s = some (numeralValue radix (s.map Char.toLower) : ℤ) := by
  have hnot : ∀ d ∈ ['-', '+', 'x', 'X'], d ∉ s := fun d hd hmem =>
    (hex_not_special (hhex d hmem)).2.1 hd
  have hdrop : s.dropWhile ScriptNumber.isSpace = s := by
    obtain ⟨c, t, rfl⟩ := exists_cons_of_ne_nil hne
    have hspace := (hex_not_special (hhex c mem_cons_self)).1
    rw [dropWhile_cons_of_neg]
    rw [hspace]
    exact Bool.false_ne_true
  have hleading : leadingNumber radix (radixDigit radix) s =
      some (numeralValue radix (s.map Char.toLower) : ℤ) := by
    rw [leadingNumber, List.takeWhile_eq_self_iff.2 hradix, if_neg hne]
  rw [parseIntRadix, hdrop]
  split
  · exact absurd mem_cons_self (hnot '-' (by decide))
  · exact absurd mem_cons_self (hnot '+' (by decide))
  · rw [parseUnsignedRadix.eq_def]
    split
    · exact absurd (mem_cons_of_mem _ mem_cons_self) (hnot 'x' (by decide))
    · exact absurd (mem_cons_of_mem _ mem_cons_self) (hnot 'X' (by decide))
    · exact hleading

theorem padStart_radixText (k radix n : ℕ) :
    padStart k (radixText radix (some (n : ℤ))) = paddedNumeral radix k n := by
  have hnonneg : ¬(n : ℤ) < 0 := by omega
  rw [radixText, Option.elim_some, if_neg hnonneg, Int.natAbs_natCast]
  rfl

theorem ip6addr2bin_text {f : Ip6Form} (h : f.IsAddress) :
    ip6addr2bin f.text = bitsText f.values := by
  rw [ip6addr2bin, ip6Full_text h, splitOn_fullGroups h, flatMap_map, bitsText, Ip6Form.values,
    flatMap_map]
  have hgroup : ∀ g ∈ f.allGroups, padStart 16 (radixText 2 (parseIntRadix 16 (fourDigits g))) =
      paddedNumeral 2 16 (groupValue g) := by
    intro g hg
    have hfull := isFull_fourDigits (allGroups_isGroup h g hg)
    have hne := (isGroup_iff.1 hfull.isGroup).1
    rw [parseIntRadix_digits hne hfull.hex fun c hc => (hex_not_special (hfull.hex c hc)).2.2,
      ← groupValue, groupValue_fourDigits]
    exact padStart_radixText 16 2 _
  exact flatMap_congr hgroup

theorem ip6bin2addr_bits {s : List Char} (h : IsBits s) (hlength : s.length = 128) :
    ip6bin2addr s = [':'].intercalate ((bitGroups s).map (paddedNumeral 16 4)) := by
  rw [ip6bin2addr, bitGroups, map_map]
  refine congrArg ([':'].intercalate ·) (map_congr_left fun x hx => ?_)
  have hlt := List.mem_range.1 hx
  have hsub : IsBits ((s.drop (x * 16)).take 16) := fun c hc =>
    h c (mem_of_mem_drop (mem_of_mem_take hc))
  have hne : (s.drop (x * 16)).take 16 ≠ [] := by
    rw [← length_pos_iff, length_take, length_drop]
    omega
  have hlower : ((s.drop (x * 16)).take 16).map Char.toLower = (s.drop (x * 16)).take 16 := by
    refine (map_congr_left fun c hc => ?_).trans (map_id _)
    rcases hsub c hc with rfl | rfl <;> rfl
  rw [parseIntRadix_digits hne
    (fun c hc => by rcases hsub c hc with rfl | rfl <;> decide)
    (fun c hc => by rcases hsub c hc with rfl | rfl <;> decide), hlower]
  exact padStart_radixText 4 16 _

end Radix

/-! ## The masked address -/

section Masked

def clearedBits (vs : List ℕ) (n : ℕ) : List Char :=
  (bitsText vs).take n ++ List.replicate (128 - n) '0'

def fullForm (vs : List ℕ) : Ip6Form := .full (vs.map (paddedNumeral 16 4))

theorem values_lt {f : Ip6Form} (h : f.IsAddress) : ∀ v ∈ f.values, v < 65536 := by
  intro v hv
  obtain ⟨g, hg, rfl⟩ := List.mem_map.1 hv
  exact groupValue_lt (allGroups_isGroup h g hg)

theorem length_values {f : Ip6Form} (h : f.IsAddress) : f.values.length = 8 := by
  rw [Ip6Form.values, length_map, length_allGroups h]

theorem lower_digitChar {d : ℕ} (hd : d < 16) :
    isHexDigit (Nat.digitChar d) = true ∧ (Nat.digitChar d).toLower = Nat.digitChar d := by
  revert d
  decide

theorem paddedNumeral_lower (k n : ℕ) : ∀ c ∈ paddedNumeral 16 k n,
    isHexDigit c = true ∧ c.toLower = c := by
  intro c hc
  obtain ⟨d, hd, rfl⟩ := mem_paddedNumeral (by decide) hc
  exact lower_digitChar hd

theorem isFull_paddedNumeral {v : ℕ} (h : v < 65536) : IsFull (paddedNumeral 16 4 v) :=
  ⟨length_paddedNumeral (by decide) h, fun c hc => (paddedNumeral_lower 4 v c hc).1⟩

theorem groupValue_paddedNumeral (v : ℕ) : groupValue (paddedNumeral 16 4 v) = v := by
  have hlower : (paddedNumeral 16 4 v).map Char.toLower = paddedNumeral 16 4 v :=
    (map_congr_left fun c hc => (paddedNumeral_lower 4 v c hc).2).trans (map_id _)
  rw [groupValue, hlower, numeralValue_paddedNumeral (by decide) le_rfl]

theorem isAddress_fullForm {vs : List ℕ} (hlength : vs.length = 8) (h : ∀ v ∈ vs, v < 65536) :
    (fullForm vs).IsAddress where
  counts := by rw [fullForm, Ip6Form.Counts, length_map, hlength]
  isGroup := by
    intro g hg
    obtain ⟨v, hv, rfl⟩ := List.mem_map.1 hg
    exact (isFull_paddedNumeral (h v hv)).isGroup

theorem values_fullForm (vs : List ℕ) : (fullForm vs).values = vs := by
  rw [fullForm, Ip6Form.values, Ip6Form.allGroups, map_map]
  exact (map_congr_left fun v _ => groupValue_paddedNumeral v).trans (map_id _)

theorem length_clearedBits {vs : List ℕ} (hlength : vs.length = 8) (h : ∀ v ∈ vs, v < 65536)
    {n : ℕ} (hn : n ≤ 128) : (clearedBits vs n).length = 128 := by
  rw [clearedBits, length_append, length_take, length_replicate, length_bitsText h,
    hlength]
  omega

theorem isBits_clearedBits (vs : List ℕ) (n : ℕ) : IsBits (clearedBits vs n) :=
  IsBits.append (fun c hc => isBits_bitsText vs c (mem_of_mem_take hc))
    (isBits_replicate (Or.inl rfl) _)

def maskedValues (vs : List ℕ) (n : ℕ) : List ℕ := bitGroups (clearedBits vs n)

theorem maskedValues_lt (vs : List ℕ) (n : ℕ) : ∀ v ∈ maskedValues vs n, v < 65536 :=
  bitGroups_lt (isBits_clearedBits vs n)

theorem length_maskedValues (vs : List ℕ) (n : ℕ) : (maskedValues vs n).length = 8 := by
  rw [maskedValues, bitGroups, length_map, length_range]

theorem addressNumber_maskedValues {vs : List ℕ} (hlength : vs.length = 8)
    (h : ∀ v ∈ vs, v < 65536) {n : ℕ} (hn : n ≤ 128) :
    addressNumber (maskedValues vs n) = addressNumber vs / 2 ^ (128 - n) * 2 ^ (128 - n) := by
  have hbits : (bitsText vs).length = 128 := by rw [length_bitsText h, hlength]
  have hcleared := numeralValue_cleared (isBits_bitsText vs) n
  rw [hbits, numeralValue_bitsText h] at hcleared
  rw [maskedValues, addressNumber_bitGroups (length_clearedBits hlength h hn), clearedBits,
    hcleared]

theorem ip6Mask_text {f : Ip6Form} (h : f.IsAddress) {mask : Mask} {n : ℕ} (hn : n ≤ 128)
    (hmask : mask.value = .finite n) :
    ip6Mask f.text mask =
      some (ip6Canonical (fullForm (maskedValues f.values n)).text) := by
  have hless : (ScriptNumber.finite n).isLess 0 = false := by
    rw [ScriptNumber.isLess, decide_eq_false_iff_not, not_lt]
    exact_mod_cast Nat.zero_le n
  have hrest : (ScriptNumber.finite n).subFrom 128 = .finite (128 - n : ℕ) :=
    ScriptNumber.subFrom_natCast hn (by norm_num)
  have hcleared := ip6bin2addr_bits (isBits_clearedBits f.values n)
    (length_clearedBits (length_values h) (values_lt h) hn)
  rw [ip6Mask, ip6addr2bin_text h, hmask, hless, if_neg Bool.false_ne_true, hrest,
    ScriptNumber.repeated_natCast, ScriptNumber.upTo_natCast]
  rw [clearedBits] at hcleared
  simp only [Option.map_some, Option.bind_eq_bind, Option.bind_some]
  rw [hcleared]
  rfl

end Masked

/-!
## Texts of one address

All forms of a text have the same groups, so that a text is the text of one address. The full form
and the canonical one are texts of the same address, and the canonical one depends only on the
address and on the case of its letters.
-/

/-! ### The case of letters -/

def SameCase (a b : List Char) : Prop :=
  (∀ c ∈ a ++ b, c.toLower = c) ∨ ∀ c ∈ a ++ b, c.toUpper = c

section Case

theorem mem_intercalate {ps : List (List Char)} {p : List Char} {c : Char} (hp : p ∈ ps)
    (hc : c ∈ p) : c ∈ [':'].intercalate ps := by
  induction ps with
  | nil => exact absurd hp not_mem_nil
  | cons q ps ih =>
    cases ps with
    | nil =>
      rw [List.intercalate_singleton, ← List.mem_singleton.1 hp]
      exact hc
    | cons r ps =>
      rw [List.intercalate_cons_cons, append_assoc]
      rcases List.mem_cons.1 hp with rfl | hp
      · exact mem_append_left _ hc
      · exact mem_append_right _ (mem_append_right _ (ih hp))

theorem mem_text_of_mem_allGroups {f : Ip6Form} {g : List Char} (hg : g ∈ f.allGroups) {c : Char}
    (hc : c ∈ g) : c ∈ f.text ∨ c = '0' := by
  cases f with
  | full gs => exact .inl (mem_intercalate hg hc)
  | compressed ls rs =>
    rw [Ip6Form.text, mem_append]
    rcases List.mem_append.1 hg with hg | hg
    · exact .inl (.inl (mem_intercalate hg hc))
    · rcases List.mem_append.1 hg with hg | hg
      · rw [eq_of_mem_replicate hg] at hc
        exact .inr (List.mem_singleton.1 hc)
      · exact .inl (.inr (mem_cons_of_mem _ (mem_cons_of_mem _
          (mem_intercalate hg hc))))

theorem digit_of_lower {c : Char} (hc : isHexDigit c = true) :
    (c.toLower = c → Nat.digitChar (digitValue c.toLower) = c) ∧
      (c.toUpper = c → (Nat.digitChar (digitValue c.toLower)).toUpper = c) :=
  forall_hexDigit (p := fun c => (c.toLower = c → Nat.digitChar (digitValue c.toLower) = c) ∧
    (c.toUpper = c → (Nat.digitChar (digitValue c.toLower)).toUpper = c)) (by decide) hc

/-- Groups of one value and one case have the same four digits. -/
theorem fourDigits_eq {g g' : List Char} (h : isGroup g = true) (h' : isGroup g' = true)
    (hvalue : groupValue g = groupValue g')
    (hcase : (∀ c ∈ g ++ g', c.toLower = c) ∨ ∀ c ∈ g ++ g', c.toUpper = c) :
    fourDigits g = fourDigits g' := by
  have hfull := isFull_fourDigits h
  have hfull' := isFull_fourDigits h'
  have hnumber : numeralValue 16 ((fourDigits g).map Char.toLower) =
      numeralValue 16 ((fourDigits g').map Char.toLower) := by
    rw [← groupValue, ← groupValue, groupValue_fourDigits, groupValue_fourDigits, hvalue]
  have hdigits := map_digitValue_inj (isDigits_lower hfull.hex) (isDigits_lower hfull'.hex)
    (by rw [length_map, length_map, hfull.four, hfull'.four]) hnumber
  rw [map_map, map_map] at hdigits
  have hback : ∀ (r : ℕ → Char) (g : List Char),
      (∀ c ∈ fourDigits g, r (digitValue c.toLower) = c) →
      ((fourDigits g).map (digitValue ∘ Char.toLower)).map r = fourDigits g := by
    intro r g hr
    rw [map_map]
    exact (map_congr_left hr).trans (map_id _)
  have hzero : ∀ {g : List Char} {t : Char → Char}, t '0' = '0' → (∀ c ∈ g, t c = c) →
      ∀ c ∈ fourDigits g, t c = c := by
    intro g t hzero hg
    refine List.forall_mem_append.2 ⟨fun c hc => ?_, hg⟩
    rw [eq_of_mem_replicate hc, hzero]
  rcases hcase with hlower | hupper
  · obtain ⟨hg, hg'⟩ := List.forall_mem_append.1 hlower
    rw [← hback Nat.digitChar g fun c hc =>
        (digit_of_lower (hfull.hex c hc)).1 (hzero rfl hg c hc),
      ← hback Nat.digitChar g' fun c hc =>
        (digit_of_lower (hfull'.hex c hc)).1 (hzero rfl hg' c hc), hdigits]
  · obtain ⟨hg, hg'⟩ := List.forall_mem_append.1 hupper
    rw [← hback (fun d => (Nat.digitChar d).toUpper) g fun c hc =>
        (digit_of_lower (hfull.hex c hc)).2 (hzero rfl hg c hc),
      ← hback (fun d => (Nat.digitChar d).toUpper) g' fun c hc =>
        (digit_of_lower (hfull'.hex c hc)).2 (hzero rfl hg' c hc), hdigits]

theorem map_eq_map_of_values {gs hs : List (List Char)} {t : List Char → List Char}
    (h : ∀ g ∈ gs, ∀ g' ∈ hs, groupValue g = groupValue g' → t g = t g')
    (hvalues : gs.map groupValue = hs.map groupValue) : gs.map t = hs.map t := by
  induction gs generalizing hs with
  | nil => rw [List.map_eq_nil_iff.1 hvalues.symm]
  | cons g gs ih =>
    cases hs with
    | nil => exact absurd hvalues (cons_ne_nil _ _)
    | cons g' hs =>
      obtain ⟨hg, hgs⟩ := List.cons.inj hvalues
      rw [map_cons, map_cons, h g mem_cons_self g' mem_cons_self hg,
        ih (fun x hx y hy => h x (mem_cons_of_mem g hx) y (mem_cons_of_mem g' hy))
          hgs]

theorem shortGroups_eq {f f' : Ip6Form} (h : f.IsAddress) (h' : f'.IsAddress)
    (hvalues : f.values = f'.values) (hcase : SameCase f.text f'.text) :
    f.shortGroups = f'.shortGroups := by
  refine map_eq_map_of_values (fun g hg g' hg' hvalue => ?_) hvalues
  refine congrArg suppressZeros (fourDigits_eq (allGroups_isGroup h g hg)
    (allGroups_isGroup h' g' hg') hvalue ?_)
  have hchars : ∀ {t : Char → Char}, t '0' = '0' → (∀ c ∈ f.text ++ f'.text, t c = c) →
      ∀ c ∈ g ++ g', t c = c := by
    intro t hzero ht c hc
    have hmem : c ∈ f.text ++ f'.text ∨ c = '0' := by
      rcases List.mem_append.1 hc with hc | hc
      · exact (mem_text_of_mem_allGroups hg hc).imp_left (mem_append_left _)
      · exact (mem_text_of_mem_allGroups hg' hc).imp_left (mem_append_right _)
    rcases hmem with hmem | rfl
    · exact ht c hmem
    · exact hzero
  exact hcase.imp (hchars rfl) (hchars rfl)

end Case

/-! ### Addresses -/

def Denotes (a : List Char) (vs : List ℕ) : Prop :=
  ∃ f : Ip6Form, f.IsAddress ∧ f.text = a ∧ f.values = vs

structure Normalised (a : List Char) (vs : List ℕ) : Prop where
  denotes : Denotes a vs
  unique : ∀ ws, Denotes a ws → ws = vs
  groups : vs.length = 8 ∧ ∀ v ∈ vs, v < 65536
  full : ∃ gs, ip6Full a = [':'].intercalate gs ∧ gs.length = 8 ∧ (∀ g ∈ gs, IsFull g) ∧
    gs.map groupValue = vs
  canonical : ∃ f : Ip6Form, f.Canonical ∧ f.text = ip6Canonical a ∧ f.values = vs
  accepted : validateIP6 (ip6Canonical a) = 0
  same : ∀ b, validateIP6 b = 0 → Denotes b vs → SameCase a b → ip6Canonical b = ip6Canonical a
  masked : ∀ n : ℕ, n ≤ 128 → ∃ f : Ip6Form, f.Canonical ∧ ip6Mask a (.number n) = some f.text ∧
    (∀ c ∈ f.text, c.toLower = c) ∧
    addressNumber f.values = addressNumber vs / 2 ^ (128 - n) * 2 ^ (128 - n)

section Addresses

theorem values_eq_of_text_eq {f f' : Ip6Form} (h : f.IsAddress) (h' : f'.IsAddress)
    (htext : f.text = f'.text) : f.values = f'.values := by
  have hfull := ip6Full_text h
  rw [htext, ip6Full_text h'] at hfull
  have hsplit := congrArg (List.splitOn ':') hfull
  rw [splitOn_fullGroups h, splitOn_fullGroups h'] at hsplit
  have hvalues := congrArg (List.map groupValue) hsplit
  rw [map_map, map_map] at hvalues
  have hback : ∀ gs : List (List Char), gs.map (groupValue ∘ fourDigits) = gs.map groupValue :=
    fun gs => map_congr_left fun g _ => groupValue_fourDigits g
  rw [hback, hback] at hvalues
  exact hvalues.symm

theorem canonical_spec {f : Ip6Form} (h : f.IsAddress) :
    (shortForm f.shortGroups).Canonical ∧ (shortForm f.shortGroups).values = f.values := by
  obtain ⟨hcanonical, hall⟩ := shortForm_spec (length_shortGroups h) (isShort_shortGroups h)
  rw [Ip6Form.values, hall, values_shortGroups h]
  exact ⟨hcanonical, rfl⟩

theorem lower_text {f : Ip6Form} (h : ∀ g ∈ f.groups, ∀ c ∈ g, c.toLower = c) :
    ∀ c ∈ f.text, c.toLower = c := by
  have hjoin : ∀ gs : List (List Char), (∀ g ∈ gs, ∀ c ∈ g, c.toLower = c) →
      ∀ c ∈ [':'].intercalate gs, c.toLower = c := by
    intro gs hgs c hc
    induction gs with
    | nil => exact absurd hc not_mem_nil
    | cons g gs ih =>
      obtain ⟨hg, hgs⟩ := List.forall_mem_cons.1 hgs
      cases gs with
      | nil =>
        rw [List.intercalate_singleton] at hc
        exact hg c hc
      | cons g' gs =>
        rw [List.intercalate_cons_cons, append_assoc, mem_append, mem_append,
          mem_singleton] at hc
        rcases hc with hc | rfl | hc
        · exact hg c hc
        · rfl
        · exact ih hgs hc
  cases f with
  | full gs => exact hjoin gs h
  | compressed ls rs =>
    obtain ⟨hls, hrs⟩ := List.forall_mem_append.1 h
    exact List.forall_mem_append.2 ⟨hjoin ls hls, List.forall_mem_cons.2 ⟨rfl,
      List.forall_mem_cons.2 ⟨rfl, hjoin rs hrs⟩⟩⟩

theorem suppressZeros_lower {g : List Char} (hfull : IsFull g) (h : ∀ c ∈ g, c.toLower = c) :
    ∀ c ∈ suppressZeros g, c.toLower = c := by
  rw [suppressZeros_of_isFull hfull]
  split_ifs
  · exact List.forall_mem_singleton.2 rfl
  · exact fun c hc => h c ((dropWhile_sublist _).subset hc)

theorem mem_of_mem_shortForm {gs : List (List Char)} {g : List Char}
    (hg : g ∈ (shortForm gs).groups) : g ∈ gs := by
  rw [shortForm] at hg
  split_ifs at hg
  · rcases List.mem_append.1 hg with hg | hg
    · exact mem_of_mem_take hg
    · exact mem_of_mem_drop hg
  · exact hg

theorem lower_canonical {vs : List ℕ} (h : ∀ v ∈ vs, v < 65536) :
    ∀ c ∈ (shortForm (fullForm vs).shortGroups).text, c.toLower = c := by
  refine lower_text fun g hg => ?_
  obtain ⟨g', hg', rfl⟩ := List.mem_map.1 (mem_of_mem_shortForm hg)
  obtain ⟨v, hv, rfl⟩ := List.mem_map.1 hg'
  have hfull := isFull_paddedNumeral (h v hv)
  rw [shortGroup, fourDigits_of_isFull hfull]
  exact suppressZeros_lower hfull fun c hc => (paddedNumeral_lower 4 v c hc).2

theorem ip6Mask_small {f : Ip6Form} (h : f.IsAddress) {mask : Mask} {n : ℕ} (hn : n ≤ 128)
    (hmask : mask.value = .finite n) :
    ∃ g : Ip6Form, g.Canonical ∧ ip6Mask f.text mask = some g.text ∧
      (∀ c ∈ g.text, c.toLower = c) ∧ g.values = maskedValues f.values n := by
  have hfull := isAddress_fullForm (length_maskedValues f.values n) (maskedValues_lt f.values n)
  obtain ⟨hcanonical, hvalues⟩ := canonical_spec hfull
  refine ⟨_, hcanonical, ?_, lower_canonical (maskedValues_lt f.values n), ?_⟩
  · rw [ip6Mask_text h hn hmask, ip6Canonical_text hfull]
  · rw [hvalues, values_fullForm]

/-- The texts of all addresses are normalised. -/
theorem ip6_normalised {a : List Char} (h : validateIP6 a = 0) : ∃ vs, Normalised a vs := by
  obtain ⟨f, ⟨hf, -⟩, rfl⟩ := validateIP6_iff.1 h
  obtain ⟨hcanonical, hvalues⟩ := canonical_spec hf
  refine ⟨f.values, ?_⟩
  constructor
  case denotes => exact ⟨f, hf, rfl, rfl⟩
  case unique =>
      rintro ws ⟨f', hf', htext, rfl⟩
      exact values_eq_of_text_eq hf' hf htext
  case groups => exact ⟨length_values hf, values_lt hf⟩
  case full =>
      refine ⟨_, ip6Full_text hf, ?_, ?_, ?_⟩
      · rw [length_map, length_allGroups hf]
      · intro g hg
        obtain ⟨g', hg', rfl⟩ := List.mem_map.1 hg
        exact isFull_fourDigits (allGroups_isGroup hf g' hg')
      · rw [map_map]
        exact map_congr_left fun g _ => groupValue_fourDigits g
  case canonical => exact ⟨_, hcanonical, (ip6Canonical_text hf).symm, hvalues⟩
  case accepted =>
      rw [ip6Canonical_text hf]
      exact validateIP6_text hcanonical.isAddress hcanonical.eight
  case same =>
      rintro b - ⟨f', hf', rfl, hsame⟩ hcase
      rw [ip6Canonical_text hf, ip6Canonical_text hf', shortGroups_eq hf hf' hsame.symm hcase]
  case masked =>
      intro n hn
      obtain ⟨g, hcanonical, hmask, hlower, hvalues⟩ := @ip6Mask_small f hf (.number n) n hn rfl
      refine ⟨g, hcanonical, hmask, hlower, ?_⟩
      rw [hvalues]
      exact addressNumber_maskedValues (length_values hf) (values_lt hf) hn

/-- The shortest text of the loopback address. -/
theorem loopback_normalised :
    validateIP6 "::1".toList = 0 ∧ ∃ vs, Normalised "::1".toList vs :=
  ⟨by decide, ip6_normalised (by decide)⟩

end Addresses

end Web

end Gargoyle
