import Mathlib.Data.List.Basic
import Mathlib.Data.List.Induction
import Mathlib.Data.Nat.Digits.Defs

/-!
# Numbers written with a separator

`numerals sep b ns` writes the numbers `ns` in base `b`, without leading zeros
and with `sep` between them, and `readNumerals sep b` reads such a text back.
Bases up to sixteen are covered, with the letters `a` to `f`.
-/

namespace Numerals

open List

theorem forall_mem_of_all {α : Type*} {p : α → Prop} [DecidablePred p] {l : List α}
    (h : (l.all fun a => decide (p a)) = true) : ∀ a ∈ l, p a :=
  fun a ha => of_decide_eq_true (List.all_eq_true.1 h a ha)

def digitValue (c : Char) : ℕ :=
  if c.toNat < 97 then c.toNat - 48 else c.toNat - 87

def numeralValue (b : ℕ) (cs : List Char) : ℕ :=
  cs.foldl (fun n c => b * n + digitValue c) 0

/-- The numbers `ns` in base `b`, separated by `sep`. -/
def numerals (sep : Char) (b : ℕ) (ns : List ℕ) : List Char :=
  [sep].intercalate (ns.map (Nat.toDigits b))

def readNumerals (sep : Char) (b : ℕ) (cs : List Char) : List ℕ :=
  (cs.splitOn sep).map (numeralValue b)

theorem digitValue_digitChar {d : ℕ} (hd : d < 16) : digitValue (Nat.digitChar d) = d := by
  revert d
  decide

theorem numeralValue_append_singleton (b : ℕ) (cs : List Char) (c : Char) :
    numeralValue b (cs ++ [c]) = b * numeralValue b cs + digitValue c := by
  simp [numeralValue]

theorem numeralValue_toDigits {b : ℕ} (hb : 1 < b) (hb' : b ≤ 16) (n : ℕ) :
    numeralValue b (Nat.toDigits b n) = n := by
  induction n using Nat.strong_induction_on with
  | _ n ih =>
    rcases Nat.lt_or_ge n b with hlt | hge
    · rw [Nat.toDigits_of_lt_base hlt]
      simp [numeralValue, digitValue_digitChar (show n < 16 by omega)]
    · have hdigit : n % b < 16 := lt_of_lt_of_le (Nat.mod_lt n (by omega)) hb'
      rw [Nat.toDigits_of_base_le hb hge, numeralValue_append_singleton,
        ih (n / b) (Nat.div_lt_self (by omega) hb), digitValue_digitChar hdigit]
      exact Nat.div_add_mod n b

theorem not_mem_toDigits {b : ℕ} (hb : 1 < b) (hb' : b ≤ 16) {sep : Char}
    (hsep : ∀ d < 16, Nat.digitChar d ≠ sep) (n : ℕ) : sep ∉ Nat.toDigits b n := by
  induction n using Nat.strong_induction_on with
  | _ n ih =>
    rcases Nat.lt_or_ge n b with hlt | hge
    · rw [Nat.toDigits_of_lt_base hlt]
      simpa using (hsep n (by omega)).symm
    · have hdigit : n % b < 16 := lt_of_lt_of_le (Nat.mod_lt n (by omega)) hb'
      rw [Nat.toDigits_of_base_le hb hge]
      simp only [mem_append, mem_singleton, not_or]
      exact ⟨ih (n / b) (Nat.div_lt_self (by omega) hb), (hsep _ hdigit).symm⟩

theorem numerals_cons_cons (sep : Char) (b n m : ℕ) (ns : List ℕ) :
    numerals sep b (n :: m :: ns) = Nat.toDigits b n ++ sep :: numerals sep b (m :: ns) := by
  simp [numerals, List.intercalate]

theorem not_mem_numerals {b : ℕ} (hb : 1 < b) (hb' : b ≤ 16) {sep c : Char} (hne : c ≠ sep)
    (hc : ∀ d < 16, Nat.digitChar d ≠ c) (ns : List ℕ) : c ∉ numerals sep b ns := by
  induction ns with
  | nil => simp [numerals, List.intercalate]
  | cons n ns ih =>
    have hn := not_mem_toDigits hb hb' hc n
    cases ns with
    | nil => simpa [numerals, List.intercalate] using hn
    | cons m ns =>
      rw [numerals_cons_cons]
      simp [hn, hne, ih]

theorem readNumerals_numerals {sep : Char} {b : ℕ} (hb : 1 < b) (hb' : b ≤ 16)
    (hsep : ∀ d < 16, Nat.digitChar d ≠ sep) {ns : List ℕ} (hns : ns ≠ []) :
    readNumerals sep b (numerals sep b ns) = ns := by
  have hsplit : (numerals sep b ns).splitOn sep = ns.map (Nat.toDigits b) := by
    apply splitOn_intercalate
    · intro l hl
      obtain ⟨n, -, rfl⟩ := List.mem_map.1 hl
      exact not_mem_toDigits hb hb' hsep n
    · simpa using hns
  rw [readNumerals, hsplit, map_map]
  refine (map_congr_left fun n _ => ?_).trans (map_id ns)
  exact numeralValue_toDigits hb hb' n

theorem readNumerals_of_not_mem {sep : Char} (b : ℕ) {cs : List Char} (h : sep ∉ cs) :
    readNumerals sep b cs = [numeralValue b cs] := by
  rw [readNumerals, splitOn_eq_singleton h]
  rfl

/-!
## Texts of digits of one length

The number of a text of digits, taken apart at any place. Of two texts of the same length the
numbers decide which digits they have, and which one comes first. With zeros in front, a number
can be written with any length that is enough for it.
-/

variable {b : ℕ}

theorem numeralValue_append (b : ℕ) (s t : List Char) :
    numeralValue b (s ++ t) = numeralValue b s * b ^ t.length + numeralValue b t := by
  induction t using List.reverseRecOn with
  | nil => simp [numeralValue]
  | append_singleton t c ih =>
    rw [← append_assoc, numeralValue_append_singleton, ih, numeralValue_append_singleton,
      length_append, length_singleton, pow_succ]
    ring

theorem numeralValue_cons (b : ℕ) (c : Char) (s : List Char) :
    numeralValue b (c :: s) = digitValue c * b ^ s.length + numeralValue b s := by
  have hsingle : numeralValue b [c] = digitValue c := by simp [numeralValue]
  rw [← hsingle, ← numeralValue_append, singleton_append]

def IsDigits (b : ℕ) (s : List Char) : Prop := ∀ c ∈ s, digitValue c < b

theorem numeralValue_lt {s : List Char} (h : IsDigits b s) : numeralValue b s < b ^ s.length := by
  induction s with
  | nil => exact Nat.one_pos
  | cons c s ih =>
    obtain ⟨hc, hs⟩ := List.forall_mem_cons.1 h
    rw [numeralValue_cons, length_cons, pow_succ']
    calc digitValue c * b ^ s.length + numeralValue b s
        < digitValue c * b ^ s.length + b ^ s.length := Nat.add_lt_add_left (ih hs) _
      _ = (digitValue c + 1) * b ^ s.length := by ring
      _ ≤ b * b ^ s.length := Nat.mul_le_mul_right _ hc

theorem numeralValue_zeros (b n : ℕ) (s : List Char) :
    numeralValue b (List.replicate n '0' ++ s) = numeralValue b s := by
  have hzero : numeralValue b (List.replicate n '0') = 0 := by
    induction n with
    | zero => rfl
    | succ n ih =>
      rw [replicate_succ, numeralValue_cons, ih]
      exact Nat.zero_mul _
  rw [numeralValue_append, hzero, Nat.zero_mul, Nat.zero_add]

/-! ### Comparison -/

theorem numeralValue_cons_le {c d : Char} {s t : List Char} (hs : IsDigits b s) (ht : IsDigits b t)
    (h : s.length = t.length) :
    numeralValue b (c :: s) ≤ numeralValue b (d :: t) ↔
      digitValue c < digitValue d ∨
        digitValue c = digitValue d ∧ numeralValue b s ≤ numeralValue b t := by
  have hsb := numeralValue_lt hs
  have htb := numeralValue_lt ht
  rw [numeralValue_cons, numeralValue_cons, h]
  rw [h] at hsb
  have hstep : ∀ {x y : ℕ}, x < y → x * b ^ t.length + b ^ t.length ≤ y * b ^ t.length := by
    intro x y hxy
    rw [← Nat.succ_mul]
    exact Nat.mul_le_mul_right _ hxy
  rcases Nat.lt_trichotomy (digitValue c) (digitValue d) with hlt | heq | hgt
  · have hmul := hstep hlt
    exact iff_of_true (by omega) (Or.inl hlt)
  · rw [heq, Nat.add_le_add_iff_left]
    exact ⟨fun hle => Or.inr ⟨rfl, hle⟩, fun hor => (hor.resolve_left (lt_irrefl _)).2⟩
  · have hmul := hstep hgt
    exact iff_of_false (by omega) (by omega)

theorem map_digitValue_inj {s t : List Char} (hs : IsDigits b s) (ht : IsDigits b t)
    (hlength : s.length = t.length) (h : numeralValue b s = numeralValue b t) :
    s.map digitValue = t.map digitValue := by
  induction s generalizing t with
  | nil =>
    obtain rfl : t = [] := eq_nil_of_length_eq_zero hlength.symm
    rfl
  | cons c s ih =>
    cases t with
    | nil => exact absurd hlength (Nat.succ_ne_zero _)
    | cons d t =>
      obtain ⟨-, hs⟩ := List.forall_mem_cons.1 hs
      obtain ⟨-, ht⟩ := List.forall_mem_cons.1 ht
      have hlength := Nat.succ.inj hlength
      have hle := (numeralValue_cons_le hs ht hlength).1 h.le
      have hge := (numeralValue_cons_le ht hs hlength.symm).1 h.ge
      have hdigit : digitValue c = digitValue d := by omega
      rw [map_cons, map_cons, hdigit, ih hs ht hlength (by omega)]

/-! ### Numbers with zeros in front -/

def paddedNumeral (b k n : ℕ) : List Char :=
  List.replicate (k - (Nat.toDigits b n).length) '0' ++ Nat.toDigits b n

theorem length_paddedNumeral {k n : ℕ} (hk : 0 < k) (h : n < b ^ k) :
    (paddedNumeral b k n).length = k := by
  have hle := Nat.toDigits_length b n k hk h
  rw [paddedNumeral, length_append, length_replicate]
  omega

theorem numeralValue_paddedNumeral (hb : 1 < b) (hb' : b ≤ 16) (k n : ℕ) :
    numeralValue b (paddedNumeral b k n) = n := by
  rw [paddedNumeral, numeralValue_zeros, numeralValue_toDigits hb hb']

theorem mem_toDigits (hb : 1 < b) {n : ℕ} {c : Char} (hc : c ∈ Nat.toDigits b n) :
    ∃ d < b, Nat.digitChar d = c := by
  induction n using Nat.strong_induction_on with
  | _ n ih =>
    rcases Nat.lt_or_ge n b with hlt | hge
    · rw [Nat.toDigits_of_lt_base hlt, mem_singleton] at hc
      exact ⟨n, hlt, hc.symm⟩
    · rw [Nat.toDigits_of_base_le hb hge, mem_append, mem_singleton] at hc
      rcases hc with hc | rfl
      · exact ih (n / b) (Nat.div_lt_self (by omega) hb) hc
      · exact ⟨n % b, Nat.mod_lt n (by omega), rfl⟩

theorem mem_paddedNumeral (hb : 1 < b) {k n : ℕ} {c : Char} (hc : c ∈ paddedNumeral b k n) :
    ∃ d < b, Nat.digitChar d = c := by
  rcases List.mem_append.1 hc with hc | hc
  · exact ⟨0, by omega, (eq_of_mem_replicate hc).symm⟩
  · exact mem_toDigits hb hc

theorem isDigits_paddedNumeral (hb : 1 < b) (hb' : b ≤ 16) (k n : ℕ) :
    IsDigits b (paddedNumeral b k n) := by
  intro c hc
  obtain ⟨d, hd, rfl⟩ := mem_paddedNumeral hb hc
  rwa [digitValue_digitChar (lt_of_lt_of_le hd hb')]

end Numerals
