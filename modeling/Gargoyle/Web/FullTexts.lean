import Gargoyle.Web.AddrOverlap
import Gargoyle.Web.Ip6Mask

/-!
# The order of hexadecimal texts

Texts of digits of one length and of one case are in the order of their numbers. A capital letter
comes before all small letters, so that a text in capitals comes before one in small letters if both
begin with the same numerals and have letters then, whatever the letters are.
-/

namespace Gargoyle

open List

namespace Web

open Numerals

/-! ## Digits -/

def smallText (ds : List ℕ) : List Char := ds.map Nat.digitChar

def capitalText (ds : List ℕ) : List Char := ds.map fun d => (Nat.digitChar d).toUpper

def digitsValue (ds : List ℕ) : ℕ := numeralValue 16 (smallText ds)

def Hidden (ds es : List ℕ) : Prop :=
  digitsValue es ≤ digitsValue ds ∧
    ∃ p d e s t, ds = p ++ d :: s ∧ es = p ++ e :: t ∧ (∀ c ∈ p, c < 10) ∧ 10 ≤ e

section Order

variable {ds es : List ℕ}

theorem isDigits_smallText (h : ∀ d ∈ ds, d < 16) : IsDigits 16 (smallText ds) := by
  intro c hc
  obtain ⟨d, hd, rfl⟩ := List.mem_map.1 hc
  rw [digitValue_digitChar (h d hd)]
  exact h d hd

theorem digitsValue_cons_le {d e : ℕ} (hd : ∀ x ∈ d :: ds, x < 16) (he : ∀ x ∈ e :: es, x < 16)
    (hlength : ds.length = es.length) :
    digitsValue (d :: ds) ≤ digitsValue (e :: es) ↔
      d < e ∨ d = e ∧ digitsValue ds ≤ digitsValue es := by
  obtain ⟨hd, hds⟩ := List.forall_mem_cons.1 hd
  obtain ⟨he, hes⟩ := List.forall_mem_cons.1 he
  have hle := @numeralValue_cons_le 16 (Nat.digitChar d) (Nat.digitChar e) _ _
    (isDigits_smallText hds) (isDigits_smallText hes)
    (by rw [smallText, smallText, length_map, length_map, hlength])
  rw [digitValue_digitChar hd, digitValue_digitChar he] at hle
  exact hle

theorem digit_order : ∀ d < 16, ∀ e < 16,
    ((Nat.digitChar d).toNat < (Nat.digitChar e).toNat ↔ d < e) ∧
    ((Nat.digitChar d).toUpper.toNat < (Nat.digitChar e).toUpper.toNat ↔ d < e) ∧
    ((Nat.digitChar d).toUpper.toNat < (Nat.digitChar e).toNat ↔ d < e ∨ 10 ≤ e) ∧
    ((Nat.digitChar d).toNat < (Nat.digitChar e).toUpper.toNat ↔ d < e ∧ d < 10) := by decide

theorem digit_eq : ∀ d < 16, ∀ e < 16,
    (Nat.digitChar d = Nat.digitChar e ↔ d = e) ∧
    ((Nat.digitChar d).toUpper = (Nat.digitChar e).toUpper ↔ d = e) ∧
    ((Nat.digitChar d).toUpper = Nat.digitChar e ↔ d = e ∧ e < 10) := by decide

theorem textAtMost_cons {c d : Char} {s t : List Char} :
    textAtMost (c :: s) (d :: t) = true ↔ c.toNat < d.toNat ∨ c = d ∧ textAtMost s t = true := by
  rw [textAtMost, Bool.or_eq_true, Bool.and_eq_true, decide_eq_true_eq, decide_eq_true_eq]

theorem smallText_atMost (hd : ∀ x ∈ ds, x < 16) (he : ∀ x ∈ es, x < 16)
    (hlength : ds.length = es.length) :
    textAtMost (smallText ds) (smallText es) = true ↔ digitsValue ds ≤ digitsValue es := by
  induction ds generalizing es with
  | nil =>
    obtain rfl : es = [] := eq_nil_of_length_eq_zero hlength.symm
    exact iff_of_true rfl le_rfl
  | cons d ds ih =>
    cases es with
    | nil => exact absurd hlength (Nat.succ_ne_zero _)
    | cons e es =>
      have hlength := Nat.succ.inj hlength
      have hdlt := hd d mem_cons_self
      have helt := he e mem_cons_self
      rw [digitsValue_cons_le hd he hlength, smallText, smallText, map_cons, map_cons,
        textAtMost_cons, (digit_order d hdlt e helt).1, (digit_eq d hdlt e helt).1,
        ← ih (fun x hx => hd x (mem_cons_of_mem d hx))
          (fun x hx => he x (mem_cons_of_mem e hx)) hlength]
      rfl

theorem capitalText_atMost (hd : ∀ x ∈ ds, x < 16) (he : ∀ x ∈ es, x < 16)
    (hlength : ds.length = es.length) :
    textAtMost (capitalText ds) (capitalText es) = true ↔ digitsValue ds ≤ digitsValue es := by
  induction ds generalizing es with
  | nil =>
    obtain rfl : es = [] := eq_nil_of_length_eq_zero hlength.symm
    exact iff_of_true rfl le_rfl
  | cons d ds ih =>
    cases es with
    | nil => exact absurd hlength (Nat.succ_ne_zero _)
    | cons e es =>
      have hlength := Nat.succ.inj hlength
      have hdlt := hd d mem_cons_self
      have helt := he e mem_cons_self
      rw [digitsValue_cons_le hd he hlength, capitalText, capitalText, map_cons,
        map_cons, textAtMost_cons, (digit_order d hdlt e helt).2.1,
        (digit_eq d hdlt e helt).2.1, ← ih (fun x hx => hd x (mem_cons_of_mem d hx))
          (fun x hx => he x (mem_cons_of_mem e hx)) hlength]
      rfl

/-! ## Capitals and small letters -/

theorem hidden_cons_iff {d e : ℕ} (hd : ∀ x ∈ d :: ds, x < 16) (he : ∀ x ∈ e :: es, x < 16)
    (hlength : ds.length = es.length) :
    Hidden (d :: ds) (e :: es) ↔
      (10 ≤ e ∧ digitsValue (e :: es) ≤ digitsValue (d :: ds)) ∨ (d = e ∧ e < 10 ∧ Hidden ds es) := by
  rw [Hidden]
  constructor
  · rintro ⟨hle, p, x, y, s, t, hds, hes, hp, hy⟩
    cases p with
    | nil =>
      obtain ⟨rfl, rfl⟩ := List.cons.inj hes
      exact .inl ⟨hy, hle⟩
    | cons z p =>
      obtain ⟨rfl, rfl⟩ := List.cons.inj hds
      obtain ⟨rfl, rfl⟩ := List.cons.inj hes
      obtain ⟨hz, hp⟩ := List.forall_mem_cons.1 hp
      have hrest := (digitsValue_cons_le he hd hlength.symm).1 hle
      refine .inr ⟨rfl, hz, ?_, p, x, y, s, t, rfl, rfl, hp, hy⟩
      exact (hrest.resolve_left (lt_irrefl _)).2
  · rintro (⟨hy, hle⟩ | ⟨rfl, hz, hle, p, x, y, s, t, rfl, rfl, hp, hy⟩)
    · exact ⟨hle, [], d, e, ds, es, rfl, rfl, forall_mem_nil _, hy⟩
    · refine ⟨(digitsValue_cons_le he hd hlength.symm).2 (Or.inr ⟨rfl, hle⟩), d :: p, x, y, s, t,
        rfl, rfl, List.forall_mem_cons.2 ⟨hz, hp⟩, hy⟩

/-- Capital letters come before small ones. -/
theorem capital_atMost_small (hd : ∀ x ∈ ds, x < 16) (he : ∀ x ∈ es, x < 16)
    (hlength : ds.length = es.length) :
    (textAtMost (capitalText ds) (smallText es) = true ↔
        digitsValue ds ≤ digitsValue es ∨ Hidden ds es) ∧
      (textAtMost (smallText es) (capitalText ds) = true ↔
        digitsValue es ≤ digitsValue ds ∧ ¬Hidden ds es) := by
  induction ds generalizing es with
  | nil =>
    obtain rfl : es = [] := eq_nil_of_length_eq_zero hlength.symm
    refine ⟨iff_of_true rfl (Or.inl le_rfl), iff_of_true rfl ⟨le_rfl, ?_⟩⟩
    rintro ⟨-, p, d, e, s, t, hds, -⟩
    exact absurd hds.symm (by simp)
  | cons d ds ih =>
    cases es with
    | nil => exact absurd hlength (Nat.succ_ne_zero _)
    | cons e es =>
      have hlength := Nat.succ.inj hlength
      have hdlt := hd d mem_cons_self
      have helt := he e mem_cons_self
      obtain ⟨hcapital, hsmall⟩ := ih (fun x hx => hd x (mem_cons_of_mem d hx))
        (fun x hx => he x (mem_cons_of_mem e hx)) hlength
      have horder := digit_order d hdlt e helt
      have horder' := digit_order e helt d hdlt
      have hequal := (digit_eq d hdlt e helt).2.2
      have hle := digitsValue_cons_le hd he hlength
      have hge := digitsValue_cons_le he hd hlength.symm
      have hhidden := hidden_cons_iff hd he hlength
      have htotal := le_total (digitsValue (d :: ds)) (digitsValue (e :: es))
      rw [capitalText] at hcapital hsmall
      rw [smallText] at hcapital hsmall
      rw [capitalText, smallText, map_cons, map_cons, textAtMost_cons,
        textAtMost_cons, horder.2.2.1, horder'.2.2.2, hequal, eq_comm (a := Nat.digitChar e),
        hequal, hcapital, hsmall, hhidden]
      constructor
      · rw [hle]
        rw [hle, hge] at htotal
        rw [hge]
        grind
      · rw [hge]
        rw [hle, hge] at htotal
        grind

end Order

/-!
## The order of full forms

The colons of full forms are at the same places, so that full forms are compared like their digits.
The full form of a text whose letters are of one case has the digits of the address in that case.
-/

open InetText (isHexDigit isGroup isGroup_digits)

/-! ### Digits of groups -/

def groupDigits (v : ℕ) : List ℕ := (paddedNumeral 16 4 v).map digitValue

def addressDigits (n : ℕ) : List ℕ := (paddedNumeral 16 32 n).map digitValue

def fullWith (r : ℕ → Char) (vs : List ℕ) : List Char :=
  [':'].intercalate (vs.map fun v => (groupDigits v).map r)

section Digits

variable {vs ws : List ℕ}

theorem smallText_digits {s : List Char} (h : ∀ c ∈ s, ∃ d < 16, Nat.digitChar d = c) :
    smallText (s.map digitValue) = s := by
  rw [smallText, map_map]
  refine (map_congr_left fun c hc => ?_).trans (map_id s)
  obtain ⟨d, hd, rfl⟩ := h c hc
  exact congrArg Nat.digitChar (digitValue_digitChar hd)

theorem smallText_groupDigits (v : ℕ) : smallText (groupDigits v) = paddedNumeral 16 4 v :=
  smallText_digits fun _ hc => mem_paddedNumeral (by decide) hc

theorem smallText_addressDigits (n : ℕ) : smallText (addressDigits n) = paddedNumeral 16 32 n :=
  smallText_digits fun _ hc => mem_paddedNumeral (by decide) hc

theorem digits_lt {k n : ℕ} : ∀ d ∈ (paddedNumeral 16 k n).map digitValue, d < 16 :=
  List.forall_mem_map.2 fun c hc => isDigits_paddedNumeral (by decide) le_rfl k n c hc

theorem addressDigits_lt (n : ℕ) : ∀ d ∈ addressDigits n, d < 16 := digits_lt

theorem digitsValue_addressDigits (n : ℕ) : digitsValue (addressDigits n) = n := by
  rw [digitsValue, smallText_addressDigits, numeralValue_paddedNumeral (by decide) le_rfl]

theorem length_groupDigits {v : ℕ} (h : v < 65536) : (groupDigits v).length = 4 := by
  rw [groupDigits, length_map, length_paddedNumeral (by decide) h]

theorem length_addressDigits {n : ℕ} (h : n < 2 ^ 128) : (addressDigits n).length = 32 := by
  rw [addressDigits, length_map, length_paddedNumeral (by decide)]
  exact h.trans_le (by norm_num)

theorem length_flatMap_groupDigits (h : ∀ v ∈ vs, v < 65536) :
    (vs.flatMap groupDigits).length = 4 * vs.length := by
  induction vs with
  | nil => rfl
  | cons v vs ih =>
    obtain ⟨hv, hvs⟩ := List.forall_mem_cons.1 h
    rw [flatMap_cons, length_append, length_groupDigits hv, ih hvs, length_cons]
    ring

theorem smallText_append (ds es : List ℕ) : smallText (ds ++ es) = smallText ds ++ smallText es :=
  map_append

theorem digitsValue_flatMap (h : ∀ v ∈ vs, v < 65536) :
    digitsValue (vs.flatMap groupDigits) = addressNumber vs := by
  induction vs with
  | nil => rfl
  | cons v vs ih =>
    obtain ⟨-, hvs⟩ := List.forall_mem_cons.1 h
    have hrest := ih hvs
    have hpow : (65536 : ℕ) ^ vs.length = 16 ^ (4 * vs.length) := by
      rw [pow_mul]
      norm_num
    rw [digitsValue] at hrest
    rw [digitsValue, flatMap_cons, smallText_append, numeralValue_append, hrest,
      smallText_groupDigits, numeralValue_paddedNumeral (by decide) le_rfl, smallText,
      length_map, length_flatMap_groupDigits hvs, addressNumber_cons, hpow]

theorem addressNumber_lt (h : ∀ v ∈ vs, v < 65536) : addressNumber vs < 65536 ^ vs.length := by
  have hlt := numeralValue_lt (isBits_bitsText vs).isDigits
  rw [numeralValue_bitsText h, length_bitsText h, pow_mul] at hlt
  exact hlt

theorem flatMap_groupDigits (hlength : vs.length = 8) (h : ∀ v ∈ vs, v < 65536) :
    vs.flatMap groupDigits = addressDigits (addressNumber vs) := by
  have hnumber := addressNumber_lt h
  rw [hlength] at hnumber
  have hdigits : ∀ d ∈ vs.flatMap groupDigits, d < 16 := by
    intro d hd
    obtain ⟨v, -, hd⟩ := List.mem_flatMap.1 hd
    exact digits_lt d hd
  have hback : (smallText (vs.flatMap groupDigits)).map digitValue = vs.flatMap groupDigits := by
    rw [smallText, map_map]
    exact (map_congr_left fun d hd => digitValue_digitChar (hdigits d hd)).trans
      (map_id _)
  rw [← hback, addressDigits]
  refine map_digitValue_inj (isDigits_smallText hdigits)
    (isDigits_paddedNumeral (by decide) le_rfl 32 _) ?_ ?_
  · rw [smallText, length_map, length_flatMap_groupDigits h, hlength,
      length_paddedNumeral (by decide) (hnumber.trans_le (by norm_num))]
  · rw [numeralValue_paddedNumeral (by decide) le_rfl]
    exact digitsValue_flatMap h

/-! ### Texts with colons at the same places -/

theorem textAtMost_append {x y s t : List Char} (h : x.length = y.length) :
    textAtMost (x ++ s) (y ++ t) = true ↔
      (x ≠ y ∧ textAtMost x y = true) ∨ (x = y ∧ textAtMost s t = true) := by
  induction x generalizing y with
  | nil =>
    obtain rfl : y = [] := eq_nil_of_length_eq_zero h.symm
    simp
  | cons c x ih =>
    cases y with
    | nil => exact absurd h (Nat.succ_ne_zero _)
    | cons d y =>
      have hrest := ih (Nat.succ.inj h)
      rw [cons_append, cons_append, textAtMost_cons, textAtMost_cons, hrest, ne_eq,
        ne_eq, List.cons.injEq]
      by_cases hcd : c = d
      · subst hcd
        simp
      · simp [hcd]

/-- Groups of one length are compared without their colons. -/
theorem textAtMost_intercalate {gs hs : List (List Char)}
    (h : gs.map List.length = hs.map List.length) :
    textAtMost ([':'].intercalate gs) ([':'].intercalate hs) = true ↔
      textAtMost gs.flatten hs.flatten = true := by
  induction gs generalizing hs with
  | nil =>
    obtain rfl : hs = [] := List.map_eq_nil_iff.1 h.symm
    exact Iff.rfl
  | cons g gs ih =>
    cases hs with
    | nil => exact absurd h (cons_ne_nil _ _)
    | cons g' hs =>
      obtain ⟨hlength, hrest⟩ := List.cons.inj h
      rw [flatten_cons, flatten_cons, textAtMost_append hlength, ← ih hrest]
      cases gs with
      | nil =>
        obtain rfl : hs = [] := List.map_eq_nil_iff.1 hrest.symm
        have happend := @textAtMost_append g g' [] [] hlength
        rw [List.append_nil, List.append_nil] at happend
        rw [List.intercalate_singleton, List.intercalate_singleton]
        exact happend
      | cons x gs =>
        cases hs with
        | nil => exact absurd hrest (cons_ne_nil _ _)
        | cons y hs =>
          have hcolon : ∀ s t : List Char,
              textAtMost (':' :: s) (':' :: t) = true ↔ textAtMost s t = true := by
            intro s t
            rw [textAtMost_cons]
            simp
          rw [List.intercalate_cons_cons, List.intercalate_cons_cons, append_assoc,
            append_assoc, textAtMost_append hlength, singleton_append,
            singleton_append, hcolon]

theorem fullWith_atMost {r r' : ℕ → Char} (hv : ∀ v ∈ vs, v < 65536) (hw : ∀ w ∈ ws, w < 65536)
    (hvlength : vs.length = 8) (hwlength : ws.length = 8) :
    textAtMost (fullWith r vs) (fullWith r' ws) = true ↔
      textAtMost ((addressDigits (addressNumber vs)).map r)
        ((addressDigits (addressNumber ws)).map r') = true := by
  have hlengths : ∀ (r : ℕ → Char) {vs : List ℕ}, (∀ v ∈ vs, v < 65536) → vs.length = 8 →
      (vs.map fun v => (groupDigits v).map r).map List.length = List.replicate 8 4 := by
    intro r vs hv hlength
    rw [map_map, ← hlength]
    refine List.eq_replicate_iff.2 ⟨length_map _, List.forall_mem_map.2 fun v hmem => ?_⟩
    exact (length_map _).trans (length_groupDigits (hv v hmem))
  have hflatten : ∀ (r : ℕ → Char) {vs : List ℕ}, (∀ v ∈ vs, v < 65536) → vs.length = 8 →
      (vs.map fun v => (groupDigits v).map r).flatten =
        (addressDigits (addressNumber vs)).map r := by
    intro r vs hv hlength
    rw [← flatMap_groupDigits hlength hv, map_flatMap, flatMap_def]
  rw [fullWith, fullWith, textAtMost_intercalate
    ((hlengths r hv hvlength).trans (hlengths r' hw hwlength).symm), hflatten r hv hvlength,
    hflatten r' hw hwlength]

/-! ### Full forms in one case -/

variable {f : Ip6Form}

theorem fourDigits_eq_map {r : ℕ → Char} (hzero : r 0 = '0') {g : List Char}
    (hgroup : isGroup g = true) (hr : ∀ c ∈ g, r (digitValue c.toLower) = c) :
    fourDigits g = (groupDigits (groupValue g)).map r := by
  have hfull := isFull_fourDigits hgroup
  have hlower := isDigits_lower hfull.hex
  have hdigits : ((fourDigits g).map Char.toLower).map digitValue = groupDigits (groupValue g) := by
    refine map_digitValue_inj hlower (isDigits_paddedNumeral (by decide) le_rfl 4 _) ?_ ?_
    · rw [length_map, hfull.four, length_paddedNumeral (by decide) (groupValue_lt hgroup)]
    · rw [← groupValue, groupValue_fourDigits, numeralValue_paddedNumeral (by decide) le_rfl]
  rw [← hdigits, map_map, map_map]
  refine ((map_congr_left fun c hc => ?_).trans (map_id _)).symm
  rcases List.mem_append.1 hc with hc | hc
  · rw [eq_of_mem_replicate hc]
    exact hzero
  · exact hr c hc

theorem ip6Full_eq_fullWith {r : ℕ → Char} (hzero : r 0 = '0') (h : f.IsAddress)
    (hr : ∀ g ∈ f.allGroups, ∀ c ∈ g, r (digitValue c.toLower) = c) :
    ip6Full f.text = fullWith r f.values := by
  rw [ip6Full_text h, fullWith, Ip6Form.values, map_map]
  refine congrArg ([':'].intercalate ·) (map_congr_left fun g hg => ?_)
  exact fourDigits_eq_map hzero (allGroups_isGroup h g hg) (hr g hg)

theorem ip6Full_small (h : f.IsAddress) (hcase : ∀ c ∈ f.text, c.toLower = c) :
    ip6Full f.text = fullWith Nat.digitChar f.values := by
  refine ip6Full_eq_fullWith rfl h fun g hg c hc => ?_
  refine (digit_of_lower (isGroup_digits (allGroups_isGroup h g hg) hc)).1 ?_
  rcases mem_text_of_mem_allGroups hg hc with hmem | rfl
  · exact hcase c hmem
  · rfl

theorem ip6Full_capital (h : f.IsAddress) (hcase : ∀ c ∈ f.text, c.toUpper = c) :
    ip6Full f.text = fullWith (fun d => (Nat.digitChar d).toUpper) f.values := by
  refine ip6Full_eq_fullWith rfl h fun g hg c hc => ?_
  refine (digit_of_lower (isGroup_digits (allGroups_isGroup h g hg) hc)).2 ?_
  rcases mem_text_of_mem_allGroups hg hc with hmem | rfl
  · exact hcase c hmem
  · rfl

end Digits

end Web

end Gargoyle
