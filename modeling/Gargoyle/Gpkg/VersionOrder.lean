import Gargoyle.Bandwidth.ReferenceKernel
import Gargoyle.Data.KeyedOrder
import Gargoyle.Gpkg.AddPackage
import Mathlib.Data.Char

/-!
# The order of versions

`compare_versions` compares the parts of two versions one by one, those that are numbers by
their values. It fails to be an order in two ways: a version that goes on where another one
ends counts as equal to it from one side only, and texts without a number may stand, as
texts, between two numbers whose values are in the other order. There are no others.
-/

namespace Gargoyle

open List

namespace Gpkg

open Bandwidth KeyedOrder
open Timerange (splitOnSeparators)

/-! ## Texts -/

theorem strcmp_cons (c d : Char) (s t : List Char) :
    strcmp (c :: s) (d :: t) = if c < d then -1 else if d < c then 1 else strcmp s t := rfl

theorem strcmp_neg_iff {s t : List Char} : strcmp s t < 0 ↔ s < t := by
  induction s generalizing t with
  | nil => cases t <;> simp [strcmp]
  | cons c s ih =>
    cases t with
    | nil => simp [strcmp]
    | cons d t =>
      rw [strcmp_cons, cons_lt_cons_iff, ← ih]
      rcases lt_trichotomy c d with h | rfl | h
      · simp [h]
      · simp
      · simp [h, h.not_gt, h.ne']

theorem strcmp_pos_iff {s t : List Char} : 0 < strcmp s t ↔ t < s := by
  induction s generalizing t with
  | nil => cases t <;> simp [strcmp]
  | cons c s ih =>
    cases t with
    | nil => simp [strcmp]
    | cons d t =>
      rw [strcmp_cons, cons_lt_cons_iff, ← ih]
      rcases lt_trichotomy c d with h | rfl | h
      · simp [h, h.not_gt, h.ne']
      · simp
      · simp [h, h.not_gt]

theorem strcmp_eq_zero_iff {s t : List Char} : strcmp s t = 0 ↔ s = t := by
  rcases lt_trichotomy s t with h | rfl | h
  · exact iff_of_false (strcmp_neg_iff.2 h).ne h.ne
  · have hneg := mt strcmp_neg_iff.1 (lt_irrefl s)
    have hpos := mt strcmp_pos_iff.1 (lt_irrefl s)
    exact iff_of_true (by omega) rfl
  · exact iff_of_false (strcmp_pos_iff.2 h).ne' h.ne'

section Order

variable [Kernel]

def versionParts (v : String) : List (List Char) :=
  splitOnSeparators v.toList versionSeparators (-1) false

def partNumber (part : List Char) : Option ℕ := scanUnsigned Kernel.ulongBits part

def VersionExtends (a b : String) : Prop :=
  versionParts b ≠ [] ∧ Extends partNumber (versionParts a) (versionParts b)

/-- A version without parts, or a part without a number where three versions first differ,
stands as a text between those of `a` and `b`, but by its parts `b` is not above `a`. -/
def VersionsTangled (a b c : String) : Prop :=
  (versionParts a ≠ [] ∧ versionParts b ≠ [] ∧ versionParts c = [] ∧ a.toList < c.toList ∧
      c.toList < b.toList ∧ ¬Beats partNumber (versionParts b) (versionParts a)) ∨
    Tangled partNumber (versionParts a) (versionParts b) (versionParts c)

def comparePart (x y : List Char) : ℤ :=
  match partNumber x, partNumber y with
  | some m, some n => if m > n then 1 else if m = n then 0 else -1
  | _, _ => strcmp x y

theorem compareParts_cons (x y : List Char) (xs ys : List (List Char)) (ret : ℤ) :
    compareParts (x :: xs) (y :: ys) ret =
      if comparePart x y ≠ 0 then comparePart x y else compareParts xs ys (comparePart x y) := rfl

theorem comparePart_iff (x y : List Char) :
    (0 < comparePart x y ↔ Higher partNumber x y) ∧
      (comparePart x y < 0 ↔ Higher partNumber y x) := by
  cases hx : partNumber x with
  | none =>
    cases hy : partNumber y <;>
      simp only [comparePart, Higher, hx, hy, strcmp_pos_iff, strcmp_neg_iff, and_self]
  | some m =>
    cases hy : partNumber y with
    | none => simp only [comparePart, Higher, hx, hy, strcmp_pos_iff, strcmp_neg_iff, and_self]
    | some n =>
      simp only [comparePart, Higher, hx, hy]
      split_ifs <;> constructor <;> omega

/-- Parts are compared one by one, and then by their number. -/
theorem compareParts_iff (xs ys : List (List Char)) :
    (0 < compareParts xs ys 0 ↔ Beats partNumber xs ys) ∧
      (compareParts xs ys 0 < 0 ↔ Beats partNumber ys xs) := by
  induction xs generalizing ys with
  | nil => cases ys <;> simp [compareParts, Beats]
  | cons x xs ih =>
    cases ys with
    | nil => simp [compareParts, Beats]
    | cons y ys =>
      rw [compareParts_cons, Beats, Beats, ← (comparePart_iff x y).1, ← (comparePart_iff x y).2]
      have hcases : Higher partNumber x y ∨ Same partNumber x y ∨ Higher partNumber y x :=
        higher_or_same x y
      rcases hcases with h | h | h
      · have hpos := (comparePart_iff x y).1.2 h
        have hnot : ¬Same partNumber x y := h.not_same
        rw [if_pos hpos.ne']
        refine ⟨⟨fun _ => Or.inl hpos, fun _ => hpos⟩, fun hneg => ?_, fun h' => ?_⟩
        · exact .inl hneg
        · exact h'.elim id fun hsame => absurd hsame.1.symm hnot
      · have hzero : comparePart x y = 0 := by
          have hle := mt (comparePart_iff x y).1.1 fun hhigher => hhigher.not_same h
          have hge := mt (comparePart_iff x y).2.1 fun hhigher => hhigher.not_same h.symm
          omega
        rw [if_neg (not_not.2 hzero), hzero, (ih ys).1, (ih ys).2]
        simp only [lt_irrefl, false_or, h, h.symm, true_and, and_self]
      · have hneg := (comparePart_iff x y).2.2 h
        have hnot : ¬Same partNumber y x := h.not_same
        rw [if_pos hneg.ne]
        refine ⟨⟨fun hpos => Or.inl hpos, fun h' => ?_⟩, fun _ => Or.inl hneg, fun _ => hneg⟩
        exact h'.elim id fun hsame => absurd hsame.1.symm hnot

theorem compareVersions_eq {a b : String} (hne : a ≠ b) :
    compareVersions a b =
      if compareParts (versionParts a) (versionParts b) (strcmp a.toList b.toList) = 0 ∧
          (versionParts a).length < (versionParts b).length then -1
      else compareParts (versionParts a) (versionParts b) (strcmp a.toList b.toList) := by
  have hstrcmp : strcmp a.toList b.toList ≠ 0 := fun h =>
    hne (String.toList_injective (strcmp_eq_zero_iff.1 h))
  have hsecond : ∀ (ret : ℤ) (m n : ℕ),
      (if (if ret = 0 ∧ m < n then -1 else ret) = 0 ∧ n > m then 1
        else if ret = 0 ∧ m < n then -1 else ret) = if ret = 0 ∧ m < n then -1 else ret := by
    intro ret m n
    by_cases h : ret = 0 ∧ m < n
    · rw [if_pos h, if_neg fun h' => absurd h'.1 (by decide)]
    · rw [if_neg h, if_neg fun h' => h ⟨h'.1, h'.2⟩]
  exact (if_neg hstrcmp).trans (hsecond _ _ _)

theorem compareVersions_of_nil {a b : String} (h : versionParts a = [] ∨ versionParts b = []) :
    compareVersions a b = strcmp a.toList b.toList := by
  have hparts : ∀ ret, compareParts (versionParts a) (versionParts b) ret = ret := by
    intro ret
    rcases h with h | h
    · rw [h]
      cases versionParts b <;> rfl
    · rw [h]
      cases versionParts a <;> rfl
  by_cases heq : a = b
  · simp [compareVersions, heq, strcmp_eq_zero_iff]
  · have hstrcmp : strcmp a.toList b.toList ≠ 0 := fun h =>
      heq (String.toList_injective (strcmp_eq_zero_iff.1 h))
    rw [compareVersions_eq heq, hparts, if_neg fun h => hstrcmp h.1]

/-- Versions are compared by their parts. -/
theorem compareVersions_of_parts {a b : String} (ha : versionParts a ≠ [])
    (hb : versionParts b ≠ []) :
    (0 < compareVersions a b ↔ Beats partNumber (versionParts a) (versionParts b)) ∧
      (compareVersions a b < 0 ↔ ¬AtLeast partNumber (versionParts a) (versionParts b)) := by
  by_cases heq : a = b
  · have hzero : compareVersions a b = 0 := by simp [compareVersions, heq, strcmp_eq_zero_iff]
    have hrefl : AtLeast partNumber (versionParts b) (versionParts b) := atLeast_refl _
    rw [heq] at hzero ⊢
    simp only [hzero, lt_irrefl, false_iff, not_not]
    exact ⟨fun hbeats => hbeats.not_atLeast hrefl, hrefl⟩
  · have hstart : ∀ ret, compareParts (versionParts a) (versionParts b) ret =
        compareParts (versionParts a) (versionParts b) 0 := by
      intro ret
      obtain ⟨x, xs, hx⟩ := exists_cons_of_ne_nil ha
      obtain ⟨y, ys, hy⟩ := exists_cons_of_ne_nil hb
      rw [hx, hy, compareParts_cons, compareParts_cons]
    have hiff := compareParts_iff (versionParts a) (versionParts b)
    rw [compareVersions_eq heq, hstart, not_atLeast_iff, ← hiff.1, ← hiff.2]
    split_ifs with hshort
    · have hnone : ¬Beats partNumber (versionParts b) (versionParts a) := fun hbeats =>
        (hiff.2.2 hbeats).ne hshort.1
      have hnone' : ¬Beats partNumber (versionParts a) (versionParts b) := fun hbeats =>
        (hiff.1.2 hbeats).ne' hshort.1
      have hextends : Extends partNumber (versionParts b) (versionParts a) := by
        have htotal : AtLeast partNumber (versionParts b) (versionParts a) ∨
            AtLeast partNumber (versionParts a) (versionParts b) := AtLeast.total _ _
        rcases htotal with h | h
        · rcases atLeast_iff.1 h with hbeats | hextends | hsame
          · exact absurd hbeats hnone
          · exact hextends
          · exact absurd hsame.length_eq hshort.2.ne'
        · rcases atLeast_iff.1 h with hbeats | hextends | hsame
          · exact absurd hbeats hnone'
          · exact absurd hextends.length_lt hshort.2.not_gt
          · exact absurd hsame.length_eq hshort.2.ne
      exact ⟨by simp [hshort.1], by simp [hextends]⟩
    · refine ⟨Iff.rfl, Or.inl, fun h => h.elim id fun hextends => ?_⟩
      rcases lt_trichotomy (compareParts (versionParts a) (versionParts b) 0) 0 with h | h | h
      · exact h
      · exact absurd ⟨h, hextends.length_lt⟩ hshort
      · exact absurd (atLeast_iff.2 (Or.inl (hiff.1.1 h))) hextends.not_atLeast

/-! ## Both ways -/

def Opposite (a b : String) : Prop :=
  (compareVersions b a).sign = -(compareVersions a b).sign

omit [Kernel] in
theorem sign_eq_neg_sign_iff {m n : ℤ} :
    m.sign = -n.sign ↔ (0 < m ↔ n < 0) ∧ (m < 0 ↔ 0 < n) := by
  rw [← Int.sign_eq_one_iff_pos, ← Int.sign_eq_one_iff_pos, ← Int.sign_eq_neg_one_iff_neg,
    ← Int.sign_eq_neg_one_iff_neg]
  rcases Int.sign_trichotomy m with hm | hm | hm <;>
    rcases Int.sign_trichotomy n with hn | hn | hn <;> simp [hm, hn]

/-- Two versions are in opposite order unless one extends the other. -/
theorem opposite_iff {a b : String} :
    Opposite a b ↔ ¬VersionExtends a b ∧ ¬VersionExtends b a := by
  rw [Opposite, sign_eq_neg_sign_iff]
  by_cases hnil : versionParts a = [] ∨ versionParts b = []
  · rw [compareVersions_of_nil hnil, compareVersions_of_nil hnil.symm, strcmp_pos_iff,
      strcmp_pos_iff, strcmp_neg_iff, strcmp_neg_iff]
    refine iff_of_true ⟨Iff.rfl, Iff.rfl⟩ ⟨fun h => ?_, fun h => ?_⟩
    · have hlength := h.2.length_lt
      rw [hnil.resolve_right h.1] at hlength
      exact Nat.not_lt_zero _ hlength
    · have hlength := h.2.length_lt
      rw [hnil.resolve_left h.1] at hlength
      exact Nat.not_lt_zero _ hlength
  · obtain ⟨ha, hb⟩ := not_or.1 hnil
    have hab := compareVersions_of_parts ha hb
    have hba := compareVersions_of_parts hb ha
    have hextends : Extends partNumber (versionParts a) (versionParts b) →
        ¬Beats partNumber (versionParts a) (versionParts b) := Extends.not_beats
    have hextends' : Extends partNumber (versionParts b) (versionParts a) →
        ¬Beats partNumber (versionParts b) (versionParts a) := Extends.not_beats
    rw [hab.1, hab.2, hba.1, hba.2, not_atLeast_iff, not_atLeast_iff, VersionExtends,
      VersionExtends]
    constructor
    · rintro ⟨hpos, hneg⟩
      exact ⟨fun h => hextends h.2 (hneg.1 (Or.inr h.2)),
        fun h => hextends' h.2 (hpos.2 (Or.inr h.2))⟩
    · rintro ⟨hnot, hnot'⟩
      exact ⟨⟨Or.inl, fun h => h.resolve_right fun hext => hnot' ⟨ha, hext⟩⟩,
        ⟨fun h => h.resolve_right fun hext => hnot ⟨hb, hext⟩, Or.inl⟩⟩

/-! ## Three versions -/

theorem compareVersions_nonneg_iff {a b : String} :
    0 ≤ compareVersions a b ↔
      if versionParts a = [] ∨ versionParts b = [] then b.toList ≤ a.toList
      else AtLeast partNumber (versionParts a) (versionParts b) := by
  split_ifs with hnil
  · rw [compareVersions_of_nil hnil, ← not_lt, strcmp_neg_iff, not_lt]
  · rw [not_or] at hnil
    rw [← not_lt, (compareVersions_of_parts hnil.1 hnil.2).2, not_not]

theorem compareVersions_pos_iff {a b : String} :
    0 < compareVersions a b ↔
      if versionParts a = [] ∨ versionParts b = [] then b.toList < a.toList
      else Beats partNumber (versionParts a) (versionParts b) := by
  split_ifs with hnil
  · rw [compareVersions_of_nil hnil, strcmp_pos_iff]
  · rw [not_or] at hnil
    exact (compareVersions_of_parts hnil.1 hnil.2).1

theorem compareVersions_self (a : String) : compareVersions a a = 0 := by
  simp [compareVersions, strcmp_eq_zero_iff]

theorem compareVersions_neg_of_pos {a b : String} (h : 0 < compareVersions a b) :
    compareVersions b a < 0 := by
  rw [compareVersions_pos_iff] at h
  split_ifs at h with hnil
  · rwa [compareVersions_of_nil hnil.symm, strcmp_neg_iff]
  · rw [not_or] at hnil
    exact (compareVersions_of_parts hnil.2 hnil.1).2.2 h.not_atLeast

def Transitive (a b c : String) : Prop :=
  0 ≤ compareVersions a b → 0 ≤ compareVersions b c → 0 ≤ compareVersions a c

omit [Kernel] in
theorem text_lt_of_le {a b : String} (ha : versionParts a ≠ []) (hb : versionParts b = []) :
    (a.toList ≤ b.toList → a.toList < b.toList) ∧ (b.toList ≤ a.toList → b.toList < a.toList) := by
  have hne : a.toList ≠ b.toList := fun h => ha (by rw [String.toList_injective h, hb])
  exact ⟨fun h => lt_of_le_of_ne h hne, fun h => lt_of_le_of_ne h hne.symm⟩

/-- A relation between parts passes on to versions. -/
theorem passes_on {r : List Char → List Char → Prop}
    {R : List (List Char) → List (List Char) → Prop}
    (hrtrans : ∀ s t u, r s t → r t u → r s u) (hle : ∀ s t, r s t → t ≤ s)
    (hge : ∀ s t, ¬r s t → s ≤ t) (hnot : ∀ xs ys, R xs ys → ¬Beats partNumber ys xs)
    (hbeats : ∀ xs ys, Beats partNumber xs ys → R xs ys)
    (hRtrans : ∀ xs ys zs, R xs ys → R ys zs → ¬Tangled partNumber xs ys zs →
      ¬Tangled partNumber ys zs xs → ¬Tangled partNumber zs xs ys → R xs zs)
    {a b c : String} (h : ¬VersionsTangled a b c) (h' : ¬VersionsTangled b c a)
    (h'' : ¬VersionsTangled c a b)
    (hab : if versionParts a = [] ∨ versionParts b = [] then r a.toList b.toList
      else R (versionParts a) (versionParts b))
    (hbc : if versionParts b = [] ∨ versionParts c = [] then r b.toList c.toList
      else R (versionParts b) (versionParts c)) :
    if versionParts a = [] ∨ versionParts c = [] then r a.toList c.toList
    else R (versionParts a) (versionParts c) := by
  simp only [VersionsTangled, not_or] at h h' h''
  by_cases ha : versionParts a = []
  · rw [if_pos (Or.inl ha)] at hab ⊢
    by_cases hb : versionParts b = []
    · rw [if_pos (Or.inl hb)] at hbc
      exact hrtrans _ _ _ hab hbc
    · by_cases hc : versionParts c = []
      · rw [if_pos (Or.inr hc)] at hbc
        exact hrtrans _ _ _ hab hbc
      · rw [if_neg (not_or.2 ⟨hb, hc⟩)] at hbc
        by_contra hac
        refine h'.1 ⟨hb, hc, ha, ?_, ?_, hnot _ _ hbc⟩
        · exact (text_lt_of_le hb ha).1 (hle _ _ hab)
        · exact (text_lt_of_le hc ha).2 (hge _ _ hac)
  · by_cases hb : versionParts b = []
    · rw [if_pos (Or.inr hb)] at hab
      rw [if_pos (Or.inl hb)] at hbc
      by_cases hc : versionParts c = []
      · rw [if_pos (Or.inr hc)]
        exact hrtrans _ _ _ hab hbc
      · rw [if_neg (not_or.2 ⟨ha, hc⟩)]
        by_contra hac
        refine h''.1 ⟨hc, ha, hb, ?_, ?_, fun h => hac (hbeats _ _ h)⟩
        · exact (text_lt_of_le hc hb).1 (hle _ _ hbc)
        · exact (text_lt_of_le ha hb).2 (hle _ _ hab)
    · rw [if_neg (not_or.2 ⟨ha, hb⟩)] at hab
      by_cases hc : versionParts c = []
      · rw [if_pos (Or.inr hc)] at hbc ⊢
        by_contra hac
        refine h.1 ⟨ha, hb, hc, ?_, ?_, hnot _ _ hab⟩
        · exact (text_lt_of_le ha hc).1 (hge _ _ hac)
        · exact (text_lt_of_le hb hc).2 (hle _ _ hbc)
      · rw [if_neg (not_or.2 ⟨hb, hc⟩)] at hbc
        rw [if_neg (not_or.2 ⟨ha, hc⟩)]
        exact hRtrans _ _ _ hab hbc h.2 h'.2 h''.2

theorem transitive_of_not_tangled {a b c : String} (h : ¬VersionsTangled a b c)
    (h' : ¬VersionsTangled b c a) (h'' : ¬VersionsTangled c a b) : Transitive a b c := by
  intro hab hbc
  rw [compareVersions_nonneg_iff] at hab hbc ⊢
  exact passes_on (r := fun s t => t ≤ s) (fun _ _ _ hst htu => htu.trans hst) (fun _ _ => id)
    (fun _ _ hst => (not_le.1 hst).le) (fun _ _ hle hbeats => hbeats.not_atLeast hle)
    (fun _ _ hbeats => atLeast_iff.2 (Or.inl hbeats)) (fun _ _ _ => AtLeast.trans) h h' h'' hab hbc

theorem above_trans {a b c : String} (h : ¬VersionsTangled a b c) (h' : ¬VersionsTangled b c a)
    (h'' : ¬VersionsTangled c a b) (hab : 0 < compareVersions a b)
    (hbc : 0 < compareVersions b c) : 0 < compareVersions a c := by
  rw [compareVersions_pos_iff] at hab hbc ⊢
  exact passes_on (r := fun s t => t < s) (fun _ _ _ hst htu => htu.trans hst)
    (fun _ _ => le_of_lt) (fun _ _ hst => not_lt.1 hst)
    (fun _ _ hbeats hbeats' => hbeats'.not_atLeast (atLeast_iff.2 (Or.inl hbeats)))
    (fun _ _ => id) (fun _ _ _ => Beats.trans) h h' h'' hab hbc

theorem VersionsTangled.circle {a b c : String} (h : VersionsTangled a b c) :
    ¬0 < compareVersions b a ∧ 0 < compareVersions b c ∧ 0 < compareVersions c a := by
  rw [compareVersions_pos_iff, compareVersions_pos_iff, compareVersions_pos_iff]
  rcases h with ⟨ha, hb, hc, hac, hcb, hnot⟩ | h
  · rw [if_neg (not_or.2 ⟨hb, ha⟩), if_pos (Or.inr hc), if_pos (Or.inl hc)]
    exact ⟨hnot, hcb, hac⟩
  · obtain ⟨ha, hb, hc⟩ := h.ne_nil
    rw [if_neg (not_or.2 ⟨hb, ha⟩), if_neg (not_or.2 ⟨hb, hc⟩), if_neg (not_or.2 ⟨hc, ha⟩)]
    exact h.circle

/-! ## The latest version -/

/-- A version that `add_package_data` is given. -/
structure AddedVersion [Kernel] where
  name : String
  version : String
  info : PackageInfo

theorem real_mem_empty (name : String) (p : Provided) (real : String)
    (h : (HashedMap.empty : StringMap Provided).get name = some p)
    (_ : p.realName = some real) : ((HashedMap.empty : StringMap Versions).get real).isSome := by
  cases h

def addedPackages (es : List AddedVersion) : PackageData :=
  es.foldl (fun data e => data.addPackageData e.info e.name e.version)
    ⟨.empty, .empty, real_mem_empty⟩

def Versions.Topped (S : Set String) (vs : Versions) : Prop :=
  ∀ v ∈ vs.infos.keys, v ∈ S ∧ 0 ≤ compareVersions vs.latest v

def LatestGreatest (S : Set String) : Prop :=
  ∀ es : List AddedVersion, (∀ e ∈ es, e.version ∈ S) → ∀ name vs,
    (addedPackages es).packages.get name = some vs →
      ∀ v ∈ vs.infos.keys, 0 ≤ compareVersions vs.latest v

section Latest

variable {S : Set String}

theorem Opposite.nonneg {a b : String} (h : Opposite a b) (hle : ¬0 < compareVersions b a) :
    0 ≤ compareVersions a b :=
  not_lt.1 fun hlt => hle ((sign_eq_neg_sign_iff.1 h).1.2 hlt)

theorem newest_greatest (hopposite : ∀ a ∈ S, ∀ b ∈ S, Opposite a b)
    (htrans : ∀ a ∈ S, ∀ b ∈ S, ∀ c ∈ S, Transitive a b c) {version : String}
    {versions : List String} (hmem : ∀ v ∈ version :: versions, v ∈ S) {seen : String}
    (hseen : seen ∈ S) (hle : 0 ≤ compareVersions version seen) :
    0 ≤ compareVersions (newest version versions) seen ∧
      ∀ v ∈ versions, 0 ≤ compareVersions (newest version versions) v := by
  induction versions generalizing version seen with
  | nil => exact ⟨hle, fun _ h => nomatch h⟩
  | cons w versions ih =>
    have hversion := hmem version mem_cons_self
    have hw := hmem w (mem_cons_of_mem _ mem_cons_self)
    have hrest : ∀ v ∈ versions, v ∈ S := fun v hv =>
      hmem v (mem_cons_of_mem _ (mem_cons_of_mem _ hv))
    rw [newest, foldl_cons]
    split_ifs with hlt
    · have hall : ∀ v ∈ w :: versions, v ∈ S := List.forall_mem_cons.2 ⟨hw, hrest⟩
      have hself : 0 ≤ compareVersions w w := (compareVersions_self w).ge
      have hwseen := htrans w hw version hversion seen hseen hlt.le hle
      exact ⟨(ih hall hseen hwseen).1,
        List.forall_mem_cons.2 ⟨(ih hall hw hself).1, (ih hall hw hself).2⟩⟩
    · have hall : ∀ v ∈ version :: versions, v ∈ S := List.forall_mem_cons.2 ⟨hversion, hrest⟩
      have hnot := (hopposite version hversion w hw).nonneg hlt
      exact ⟨(ih hall hseen hle).1,
        List.forall_mem_cons.2 ⟨(ih hall hw hnot).1, (ih hall hw hnot).2⟩⟩

theorem refresh_topped (hopposite : ∀ a ∈ S, ∀ b ∈ S, Opposite a b)
    (htrans : ∀ a ∈ S, ∀ b ∈ S, ∀ c ∈ S, Transitive a b c) {infos : StringMap PackageInfo}
    {current : Option String} (hcurrent : ∀ v, current = some v → v ∈ infos.keys)
    (hne : infos.keys ≠ []) (hkeys : ∀ v ∈ infos.keys, v ∈ S) :
    (Versions.refresh infos current hcurrent hne).Topped S := by
  intro v hv
  refine ⟨hkeys v hv, ?_⟩
  have hhead := hkeys _ (head_mem hne)
  have hmem : ∀ w ∈ infos.keys.head hne :: infos.keys.tail, w ∈ S := by rwa [cons_head_tail]
  have hgreatest := newest_greatest hopposite htrans hmem hhead (compareVersions_self _).ge
  have hv' : v ∈ infos.keys := hv
  rw [← cons_head_tail hne] at hv'
  rcases List.mem_cons.1 hv' with rfl | hmem
  · exact hgreatest.1
  · exact hgreatest.2 v hmem

/-- In an order the latest version is the greatest. -/
theorem latestGreatest_of_order (hopposite : ∀ a ∈ S, ∀ b ∈ S, Opposite a b)
    (htrans : ∀ a ∈ S, ∀ b ∈ S, ∀ c ∈ S, Transitive a b c) : LatestGreatest S := by
  have hadd : ∀ (vs : Versions) (version : String) (i : PackageInfo), version ∈ S →
      vs.Topped S → (vs.add version i).Topped S := by
    intro vs version i hversion hvs
    rw [Versions.add]
    split
    · refine refresh_topped hopposite htrans _ _ fun v hv => ?_
      rw [HashedMap.keys_modify] at hv
      exact (hvs v hv).1
    · refine refresh_topped hopposite htrans _ _ fun v hv => ?_
      rcases HashedMap.eq_or_mem_keys_of_set _ hv with rfl | hv
      · exact hversion
      · exact (hvs v hv).1
  have hsingle : ∀ (version : String) (i : PackageInfo), version ∈ S →
      (Versions.single version i).Topped S := by
    intro version i hversion
    refine refresh_topped hopposite htrans _ _ fun v hv => ?_
    rcases HashedMap.eq_or_mem_keys_of_set _ hv with rfl | hv
    · exact hversion
    · cases hv
  have hstep : ∀ (data : PackageData) (e : AddedVersion), e.version ∈ S →
      (∀ name vs, data.packages.get name = some vs → vs.Topped S) →
        ∀ name vs, (data.addPackageData e.info e.name e.version).packages.get name = some vs →
          vs.Topped S := by
    intro data e he hdata name vs hvs
    rw [PackageData.addPackageData] at hvs
    cases hget : data.packages.get e.name with
    | some old =>
      simp only [hget, HashedMap.get_modify] at hvs
      split_ifs at hvs
      · obtain ⟨_, -, rfl⟩ := Option.map_eq_some_iff.1 hvs
        exact hadd old e.version _ he (hdata _ _ hget)
      · exact hdata name vs hvs
    | none =>
      simp only [hget, HashedMap.get_set] at hvs
      split_ifs at hvs
      · obtain rfl := Option.some.inj hvs
        exact hsingle e.version _ he
      · exact hdata name vs hvs
  intro es hes
  have hrun : ∀ (es : List AddedVersion) (data : PackageData), (∀ e ∈ es, e.version ∈ S) →
      (∀ name vs, data.packages.get name = some vs → vs.Topped S) →
        ∀ name vs, (es.foldl (fun d e => d.addPackageData e.info e.name e.version)
          data).packages.get name = some vs → vs.Topped S := by
    intro es
    induction es with
    | nil => exact fun data _ hdata => hdata
    | cons e es ih =>
      intro data hes hdata
      have hes := List.forall_mem_cons.1 hes
      exact ih _ hes.2 (hstep data e hes.1 hdata)
  have hstart : ∀ name (vs : Versions),
      (HashedMap.empty : StringMap Versions).get name = some vs → vs.Topped S := by
    intro name vs h
    cases h
  exact fun name vs hvs v hv => (hrun es _ hes hstart name vs hvs v hv).2

/-- For every set of versions, `compare_versions` is an order on it, and the version that
is marked as the latest one is always a greatest one, if and only if none of the versions
goes on where another one ends and no three of them are tangled. -/
theorem compareVersions_order_iff (S : Set String) :
    ((∀ a ∈ S, ∀ b ∈ S, Opposite a b) ∧ (∀ a ∈ S, ∀ b ∈ S, ∀ c ∈ S, Transitive a b c) ∧
        LatestGreatest S) ↔
      (∀ a ∈ S, ∀ b ∈ S, ¬VersionExtends a b) ∧
        ∀ a ∈ S, ∀ b ∈ S, ∀ c ∈ S, ¬VersionsTangled a b c := by
  constructor
  · rintro ⟨hopposite, htrans, -⟩
    refine ⟨fun a ha b hb => (opposite_iff.1 (hopposite a ha b hb)).1, ?_⟩
    intro a ha b hb c hc htangled
    obtain ⟨hba, hbc, hca⟩ := htangled.circle
    have hab := (hopposite a ha b hb).nonneg hba
    have hac := htrans a ha b hb c hc hab hbc.le
    exact absurd (compareVersions_neg_of_pos hca) (not_lt.2 hac)
  · rintro ⟨hextends, htangled⟩
    have hopposite : ∀ a ∈ S, ∀ b ∈ S, Opposite a b := fun a ha b hb =>
      opposite_iff.2 ⟨hextends a ha b hb, hextends b hb a ha⟩
    have htrans : ∀ a ∈ S, ∀ b ∈ S, ∀ c ∈ S, Transitive a b c := fun a ha b hb c hc =>
      transitive_of_not_tangled (htangled a ha b hb c hc) (htangled b hb c hc a ha)
        (htangled c hc a ha b hb)
    exact ⟨hopposite, htrans, latestGreatest_of_order hopposite htrans⟩

end Latest

end Order

section Circle

local instance circleKernel : Kernel := referenceKernel 64

/-- The comparison is no order on all versions. -/
theorem compareVersions_is_no_order :
    ¬((∀ a b, Opposite a b) ∧ (∀ a b c, Transitive a b c) ∧ LatestGreatest Set.univ) := by
  rintro ⟨hopposite, -, -⟩
  exact absurd (hopposite "1.0.1" "1.0") (by rw [Opposite]; decide)

end Circle

end Gpkg

end Gargoyle
