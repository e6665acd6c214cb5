import Gargoyle.Data.LongestRun
import Gargoyle.Web.Ip6Forms

/-!
# The full form of a long address

All eight groups are written with four digits. The two colons are taken off the ends of the text
one by one, so that there is one empty part in the place of the missing groups wherever that place
is.
-/

namespace Gargoyle

open List

namespace Web

open InetText (isHexDigit isGroup isGroup_digits)
open Numerals

/-! ## Digits -/

def hexDigits : List Char :=
  ['0', '1', '2', '3', '4', '5', '6', '7', '8', '9', 'a', 'b', 'c', 'd', 'e', 'f', 'A', 'B', 'C',
    'D', 'E', 'F']

theorem mem_hexDigits {c : Char} (h : isHexDigit c = true) : c ∈ hexDigits := by
  have hbounds : (48 ≤ c.toNat ∧ c.toNat ≤ 57) ∨ (97 ≤ c.toNat ∧ c.toNat ≤ 102) ∨
      65 ≤ c.toNat ∧ c.toNat ≤ 70 := by
    simpa [isHexDigit, Char.isDigit, UInt32.le_iff_toNat_le, Char.le_def, or_assoc] using h
  have hall : ∀ n < 103, 48 ≤ n → ((n ≤ 57) ∨ (97 ≤ n) ∨ 65 ≤ n ∧ n ≤ 70) →
      Char.ofNat n ∈ hexDigits := by decide
  have hmem := hall c.toNat (by omega) (by omega) (by omega)
  rwa [Char.ofNat_toNat] at hmem

theorem forall_hexDigit {p : Char → Prop} [DecidablePred p]
    (h : (hexDigits.all fun c => decide (p c)) = true) {c : Char} (hc : isHexDigit c = true) :
    p c :=
  forall_mem_of_all h c (mem_hexDigits hc)

theorem digitValue_lower_lt {c : Char} (hc : isHexDigit c = true) : digitValue c.toLower < 16 :=
  forall_hexDigit (p := fun c => digitValue c.toLower < 16) (by decide) hc

theorem isDigits_lower {s : List Char} (h : ∀ c ∈ s, isHexDigit c = true) :
    IsDigits 16 (s.map Char.toLower) := by
  intro c hc
  obtain ⟨d, hd, rfl⟩ := List.mem_map.1 hc
  exact digitValue_lower_lt (h d hd)

theorem groupValue_lt {g : List Char} (h : isGroup g = true) : groupValue g < 65536 := by
  have hlt := numeralValue_lt (isDigits_lower fun c hc => isGroup_digits h hc)
  have hlength : (g.map Char.toLower).length ≤ 4 := by
    have hcomponent := (isGroup_iff.1 h).2
    rw [isComponent, Bool.and_eq_true, decide_eq_true_eq] at hcomponent
    rw [length_map]
    exact hcomponent.1
  exact hlt.trans_le (Nat.pow_le_pow_right (by decide) hlength)

/-! ## Groups of four digits -/

structure IsFull (g : List Char) : Prop where
  four : g.length = 4
  hex : ∀ c ∈ g, isHexDigit c = true

def fourDigits (g : List Char) : List Char := List.replicate (4 - g.length) '0' ++ g

theorem length_group {g : List Char} (h : isGroup g = true) : g.length ≤ 4 := by
  have hcomponent := (isGroup_iff.1 h).2
  rw [isComponent, Bool.and_eq_true, decide_eq_true_eq] at hcomponent
  exact hcomponent.1

theorem isFull_fourDigits {g : List Char} (h : isGroup g = true) : IsFull (fourDigits g) where
  four := by
    have hlength := length_group h
    rw [fourDigits, length_append, length_replicate]
    omega
  hex := by
    refine List.forall_mem_append.2 ⟨fun c hc => ?_, fun c hc => isGroup_digits h hc⟩
    rw [eq_of_mem_replicate hc]
    decide

theorem groupValue_fourDigits (g : List Char) : groupValue (fourDigits g) = groupValue g := by
  have hzeros : (List.replicate (4 - g.length) '0').map Char.toLower =
      List.replicate (4 - g.length) '0' := by
    rw [map_replicate]
    rfl
  rw [groupValue, fourDigits, map_append, hzeros, numeralValue_zeros, groupValue]

theorem IsFull.isGroup {g : List Char} (h : IsFull g) : isGroup g = true := by
  have hne : g ≠ [] := by
    rintro rfl
    exact absurd h.four (by decide)
  rw [isGroup_iff, isComponent, Bool.and_eq_true, decide_eq_true_eq, all_eq_true]
  exact ⟨hne, h.four.le, h.hex⟩

theorem fourDigits_of_isFull {g : List Char} (h : IsFull g) : fourDigits g = g := by
  rw [fourDigits, h.four]
  rfl

theorem fullGroup_group {g : List Char} (h : isGroup g = true) (count : ℕ) :
    fullGroup count g = fourDigits g := by
  have hne := (isGroup_iff.1 h).1
  have hlength := length_group h
  have hsplit : ['0', '0', '0', '0'] = List.replicate g.length '0' ++
      List.replicate (4 - g.length) '0' := by
    rw [replicate_append_replicate, Nat.add_sub_cancel' hlength]
    rfl
  have hdrop : (['0', '0', '0', '0'] ++ g).length - 4 = (List.replicate g.length '0').length := by
    rw [length_append, length_replicate, length_cons, length_cons,
      length_cons, length_cons, length_nil]
    omega
  rw [fullGroup, if_pos hne, lastChars, hdrop, hsplit, append_assoc, drop_left,
    fourDigits]

/-! ## The text without its mask and without dots -/

section Form

variable {f : Ip6Form}

theorem ip6Splitmask_of_not_mem {s : List Char} (h : '/' ∉ s) : ip6Splitmask s = (s, []) := by
  rw [ip6Splitmask, splitOn_eq_singleton h]

theorem form_chars (h : f.IsAddress) : '/' ∉ f.text ∧ '.' ∉ f.text := by
  constructor
  · intro hc
    rcases mem_splitOn_text h hc with heq | hhex
    · exact absurd heq (by decide)
    · exact absurd hhex (by decide)
  · intro hc
    rcases mem_splitOn_text h hc with heq | hhex
    · exact absurd heq (by decide)
    · exact absurd hhex (by decide)

theorem replaceIp4_of_not_mem {s : List Char} (h : '.' ∉ s) : replaceIp4 s = s := by
  have hrest : '.' ∉ s.rtakeWhile (· ≠ ':') := fun hc => h ((rtakeWhile_suffix _ s).subset hc)
  rw [replaceIp4, splitOn_eq_singleton hrest]
  split_ifs <;> rfl

def Ip6Form.stripped : Ip6Form → List (List Char)
  | full groups => groups
  | compressed before after => before ++ [] :: after

theorem getLast?_text {gs : List (List Char)} (h : ∀ g ∈ gs, isGroup g = true) :
    ([':'].intercalate gs).getLast? ≠ some ':' := fun hcolon =>
  colon_not_hex (last_groups h ':' hcolon) rfl

theorem isPrefixOf_text {gs : List (List Char)} (h : ∀ g ∈ gs, isGroup g = true) :
    [':'].isPrefixOf ([':'].intercalate gs) = false := by
  rw [← Bool.not_eq_true, isPrefixOf_iff_prefix]
  rintro ⟨t, ht⟩
  exact colon_not_hex (head_groups h ':' (by rw [← ht]; rfl)) rfl

theorem stripColons_of_clean {s : List Char} (hstart : [':'].isPrefixOf s = false)
    (hend : s.getLast? ≠ some ':') : stripColons s = s := by
  rw [stripColons, hstart, if_neg Bool.false_ne_true, if_neg hend]

/-- What is left of an address without the colons at its ends. -/
theorem splitOn_stripColons (h : f.IsAddress) : (stripColons f.text).splitOn ':' = f.stripped := by
  cases f with
  | full gs =>
    have hgs : ∀ g ∈ gs, isGroup g = true := h.isGroup
    have hcount : gs.length = 8 := h.counts
    have hne : gs ≠ [] := by
      rintro rfl
      exact absurd hcount (by decide)
    rw [Ip6Form.text, stripColons_of_clean (isPrefixOf_text hgs) (getLast?_text hgs),
      splitOn_groups hgs, parts, if_neg hne, Ip6Form.stripped]
  | compressed ls rs =>
    obtain ⟨hls, hrs⟩ := List.forall_mem_append.1 h.isGroup
    rw [Ip6Form.text, Ip6Form.stripped]
    have hempty : ∀ {gs : List (List Char)}, (∀ g ∈ gs, isGroup g = true) → gs ≠ [] →
        [':'].intercalate gs ≠ [] := by
      intro gs hgs hne hnil
      have hsplit := splitOn_groups hgs
      rw [hnil, parts, if_neg hne] at hsplit
      have hmem : [] ∈ gs := hsplit ▸ mem_singleton_self _
      exact (isGroup_iff.1 (hgs [] hmem)).1 rfl
    have hsplit : ∀ {gs : List (List Char)}, (∀ g ∈ gs, isGroup g = true) → gs ≠ [] →
        ([':'].intercalate gs).splitOn ':' = gs := by
      intro gs hgs hne
      rw [splitOn_groups hgs, parts, if_neg hne]
    by_cases hl : ls = []
    · subst hl
      by_cases hr : rs = []
      · subst hr
        rfl
      · have hlast : (':' :: [':'].intercalate rs).getLast? ≠ some ':' := by
          rw [getLast?_cons_of_ne_nil (hempty hrs hr)]
          exact getLast?_text hrs
        have hstrip : stripColons ([':'].intercalate [] ++ ':' :: ':' :: [':'].intercalate rs) =
            ':' :: [':'].intercalate rs := by
          have hprefix : [':'].isPrefixOf
              ([':'].intercalate [] ++ ':' :: ':' :: [':'].intercalate rs) = true := rfl
          rw [stripColons, hprefix, if_pos rfl]
          exact if_neg hlast
        have hcons := splitOn_append_cons_self (a := ':') [] ([':'].intercalate rs)
        rw [hstrip]
        exact hcons.trans (congrArg ([] :: ·) (hsplit hrs hr))
    · have hprefix : ∀ t, [':'].isPrefixOf ([':'].intercalate ls ++ t) = false := by
        intro t
        obtain ⟨c, u, hcons⟩ := exists_cons_of_ne_nil (hempty hls hl)
        have hnot := isPrefixOf_text hls
        rw [hcons] at hnot ⊢
        exact hnot
      by_cases hr : rs = []
      · subst hr
        have hlast : ([':'].intercalate ls ++ ':' :: ':' :: [':'].intercalate []).getLast? =
            some ':' := getLast?_append_of_ne_nil _ (cons_ne_nil _ _)
        have hdrop : ([':'].intercalate ls ++ ':' :: ':' :: [':'].intercalate []).dropLast =
            [':'].intercalate ls ++ [':'] :=
          dropLast_append_of_ne_nil (cons_ne_nil _ _)
        rw [stripColons, hprefix, if_neg Bool.false_ne_true, if_pos hlast, hdrop,
          splitOn_append_cons_self, hsplit hls hl]
        rfl
      · have hlast : ([':'].intercalate ls ++ ':' :: ':' :: [':'].intercalate rs).getLast? ≠
            some ':' := by
          rw [getLast?_append_of_ne_nil _ (cons_ne_nil _ _),
            getLast?_cons_of_ne_nil (cons_ne_nil _ _),
            getLast?_cons_of_ne_nil (hempty hrs hr)]
          exact getLast?_text hrs
        rw [stripColons_of_clean ( hprefix _) hlast, splitOn_doubleColon, hsplit hls hl,
          hsplit hrs hr]

/-! ## The full form -/

theorem intercalate_nested {xs ys zs : List (List Char)} (hne : zs ≠ []) :
    [':'].intercalate (xs ++ [':'].intercalate zs :: ys) =
      [':'].intercalate (xs ++ (zs ++ ys)) := by
  have hinner : ∀ {zs : List (List Char)}, zs ≠ [] →
      [':'].intercalate ([':'].intercalate zs :: ys) = [':'].intercalate (zs ++ ys) := by
    intro zs hne
    induction zs with
    | nil => exact absurd rfl hne
    | cons z zs ih =>
      cases zs with
      | nil => rw [List.intercalate_singleton, singleton_append]
      | cons z' zs =>
        cases ys with
        | nil => rw [List.append_nil, List.intercalate_singleton]
        | cons y ys =>
          have hrest := ih (cons_ne_nil _ _)
          rw [List.intercalate_cons_cons] at hrest
          rw [List.intercalate_cons_cons, List.intercalate_cons_cons, cons_append,
            cons_append, List.intercalate_cons_cons, ← cons_append, ← hrest]
          simp only [append_assoc]
  induction xs with
  | nil => exact hinner hne
  | cons x xs ih =>
    rw [cons_append, cons_append, intercalate_cons_of_ne_nil (by simp),
      intercalate_cons_of_ne_nil (by simp [hne]), ih]

theorem allGroups_isGroup (h : f.IsAddress) : ∀ g ∈ f.allGroups, isGroup g = true := by
  cases f with
  | full gs => exact h.isGroup
  | compressed ls rs =>
    obtain ⟨hls, hrs⟩ := List.forall_mem_append.1 h.isGroup
    refine List.forall_mem_append.2 ⟨hls, List.forall_mem_append.2 ⟨fun g hg => ?_, hrs⟩⟩
    rw [eq_of_mem_replicate hg]
    decide

theorem length_allGroups (h : f.IsAddress) : f.allGroups.length = 8 := by
  cases f with
  | full gs => exact h.counts
  | compressed ls rs =>
    have hcount : ls.length + rs.length ≤ 7 := h.counts
    rw [Ip6Form.allGroups, length_append, length_append, length_replicate]
    omega

/-- The full form has all groups with four digits. -/
theorem ip6Full_text (h : f.IsAddress) :
    ip6Full f.text = [':'].intercalate (f.allGroups.map fourDigits) := by
  obtain ⟨hslash, hdot⟩ := form_chars h
  rw [ip6Full, ip6Splitmask_of_not_mem hslash]
  simp only [replaceIp4_of_not_mem hdot, splitOn_stripColons h]
  have hmap : ∀ {gs : List (List Char)} (count : ℕ), (∀ g ∈ gs, isGroup g = true) →
      gs.map (fullGroup count) = gs.map fourDigits := fun count hgs =>
    map_congr_left fun g hg => fullGroup_group (hgs g hg) count
  rw [joinMask, if_pos rfl]
  cases f with
  | full gs =>
    have hgs : ∀ g ∈ gs, isGroup g = true := h.isGroup
    rw [Ip6Form.stripped, Ip6Form.allGroups, hmap _ hgs]
  | compressed ls rs =>
    obtain ⟨hls, hrs⟩ := List.forall_mem_append.1 h.isGroup
    have hcount : ls.length + rs.length ≤ 7 := h.counts
    have hzeros : fullGroup (Ip6Form.stripped (.compressed ls rs)).length [] =
        [':'].intercalate ((List.replicate (8 - (ls.length + rs.length)) ['0']).map
          fourDigits) := by
      have hlength : 9 - (Ip6Form.stripped (.compressed ls rs)).length =
          8 - (ls.length + rs.length) := by
        rw [Ip6Form.stripped, length_append, length_cons]
        omega
      rw [fullGroup, if_neg (fun hne => hne rfl), hlength, map_replicate]
      rfl
    have hne : (List.replicate (8 - (ls.length + rs.length)) ['0']).map fourDigits ≠ [] := by
      rw [ne_eq, map_eq_nil_iff, replicate_eq_nil_iff]
      omega
    rw [Ip6Form.allGroups, map_append, map_append, ← intercalate_nested hne, ← hzeros,
      ← hmap (Ip6Form.stripped (.compressed ls rs)).length hls,
      ← hmap (Ip6Form.stripped (.compressed ls rs)).length hrs, ← map_cons,
      ← map_append]
    rfl

end Form

/-!
## The canonical form of a long address

Groups are written without leading zeros, and the leftmost longest run of zero groups is left out
if there are two at least. The counts of the script are the lengths of the runs at all places.
-/

open LongestRun

/-! ### Groups without leading zeros -/

def shortGroup (g : List Char) : List Char := suppressZeros (fourDigits g)

structure IsShort (g : List Char) : Prop where
  isGroup : isGroup g = true
  no_zero : g = ['0'] ∨ g.head? ≠ some '0'

section Groups

variable {g : List Char}

theorem zeros_append_rest (g : List Char) :
    g = List.replicate (g.takeWhile (· = '0')).length '0' ++ g.dropWhile (· = '0') := by
  have hzeros : g.takeWhile (· = '0') = List.replicate (g.takeWhile (· = '0')).length '0' :=
    eq_replicate_of_mem fun c hc => by
      have hzero := mem_takeWhile_imp hc
      exact of_decide_eq_true hzero
  rw [← hzeros]
  exact List.takeWhile_append_dropWhile.symm

theorem suppressZeros_of_isFull (h : IsFull g) :
    suppressZeros g =
      if g.dropWhile (· = '0') = [] then ['0'] else g.dropWhile (· = '0') := by
  have hsplit := zeros_append_rest g
  have hlength := congrArg List.length hsplit
  rw [length_append, length_replicate] at hlength
  rw [suppressZeros]
  cases hrest : g.dropWhile (· = '0') with
  | nil =>
    have hlt : ([] : List Char).length < g.length := by
      rw [h.four]
      decide
    rw [if_pos hlt, if_pos rfl]
    rfl
  | cons c rest =>
    have hc : c ≠ '0' := by
      rintro rfl
      have hhead := head?_dropWhile_not (· = '0') g
      rw [hrest] at hhead
      have hfalse : decide ('0' = '0') = false := hhead
      exact absurd hfalse (by decide)
    have hhex : isHexDigit c = true := h.hex c (by rw [hsplit, hrest]; simp)
    rw [if_neg (cons_ne_nil c rest)]
    split_ifs with hlt hany
    · rfl
    · exact absurd (show (c :: rest).head?.any (fun c => isHexDigit c && c ≠ '0') = true by
        simp [hhex, hc]) hany
    · rw [hrest] at hlength hsplit
      have hzero : (g.takeWhile (· = '0')).length = 0 := by omega
      rw [hzero] at hsplit
      exact hsplit

theorem groupValue_suppressZeros (h : IsFull g) : groupValue (suppressZeros g) = groupValue g := by
  have hzeros : ∀ n : ℕ, (List.replicate n '0').map Char.toLower = List.replicate n '0' := by
    intro n
    rw [map_replicate]
    rfl
  have hsplit := congrArg groupValue (zeros_append_rest g)
  rw [groupValue, groupValue, map_append, hzeros, numeralValue_zeros] at hsplit
  rw [suppressZeros_of_isFull h, groupValue, groupValue, hsplit]
  split_ifs with hnil
  · rw [hnil]
    rfl
  · rfl

theorem isShort_suppressZeros (h : IsFull g) : IsShort (suppressZeros g) := by
  have hsplit := zeros_append_rest g
  have hlength := congrArg List.length hsplit
  rw [length_append, length_replicate, h.four] at hlength
  rw [suppressZeros_of_isFull h]
  split_ifs with hnil
  · exact ⟨by decide, Or.inl rfl⟩
  · refine ⟨?_, Or.inr fun hhead => ?_⟩
    · rw [isGroup_iff, isComponent, Bool.and_eq_true, decide_eq_true_eq, all_eq_true]
      exact ⟨hnil, by omega, fun c hc => h.hex c ((dropWhile_sublist _).subset hc)⟩
    · have hnot := head?_dropWhile_not (· = '0') g
      rw [hhead] at hnot
      exact absurd hnot (by decide)

theorem IsShort.eq_zero_iff (h : IsShort g) : g = ['0'] ↔ groupValue g = 0 := by
  constructor
  · rintro rfl
    rfl
  · intro hvalue
    by_contra hne
    have hhead := h.no_zero.resolve_left hne
    obtain ⟨c, s, rfl⟩ := exists_cons_of_ne_nil (isGroup_iff.1 h.isGroup).1
    have hc : c ≠ '0' := fun heq => hhead (by rw [heq]; rfl)
    have hpos : c ≠ '0' → 0 < digitValue c.toLower :=
      forall_hexDigit (p := fun c => c ≠ '0' → 0 < digitValue c.toLower) (by decide)
        (isGroup_digits h.isGroup mem_cons_self)
    rw [groupValue, map_cons, numeralValue_cons] at hvalue
    have hmul := Nat.mul_pos (hpos hc) (Nat.pow_pos (n := (s.map Char.toLower).length)
      (show 0 < 16 by decide))
    omega

theorem isShort_shortGroup (h : isGroup g = true) : IsShort (shortGroup g) :=
  isShort_suppressZeros (isFull_fourDigits h)

theorem groupValue_shortGroup (h : isGroup g = true) :
    groupValue (shortGroup g) = groupValue g := by
  rw [shortGroup, groupValue_suppressZeros (isFull_fourDigits h), groupValue_fourDigits]

end Groups

/-! ### The counts -/

section Counts

def IsZero (c : List Char) : Prop := c = ['0']

instance : DecidablePred IsZero := fun c => inferInstanceAs (Decidable (c = ['0']))

theorem length_bump (first last : ℕ) (counts : List ℕ) :
    (bump first last counts).length = counts.length := length_mapIdx

theorem getD_bump {first last j : ℕ} {counts : List ℕ} (hj : j < counts.length) :
    (bump first last counts).getD j 0 =
      if first ≤ j ∧ j ≤ last then counts.getD j 0 + 1 else counts.getD j 0 := by
  have hj' : j < (bump first last counts).length := by rwa [length_bump]
  rw [getD_eq_getElem _ _ hj', getD_eq_getElem _ _ hj]
  exact getElem_mapIdx

theorem length_countZeros (cs : List (List Char)) (i : ℕ) (chain : Option ℕ) (counts : List ℕ) :
    (countZeros cs i chain counts).length = counts.length := by
  induction cs generalizing i chain counts with
  | nil => rfl
  | cons c cs ih =>
    rw [countZeros]
    split_ifs
    · rw [ih, length_bump]
    · exact ih ..

/-- What the loop adds: the run in front of it goes on, and the runs behind it are counted. -/
theorem getD_countZeros {cs : List (List Char)} {i : ℕ} {chain : Option ℕ} {counts : List ℕ}
    (hchain : ∀ f ∈ chain, f < i) {j : ℕ} (hj : j < counts.length) :
    (countZeros cs i chain counts).getD j 0 = counts.getD j 0 +
      if i ≤ j then (runs IsZero cs).getD (j - i) 0
      else if ∃ f ∈ chain, f ≤ j then (runs IsZero cs).headD 0 else 0 := by
  induction cs generalizing i chain counts with
  | nil =>
    rw [countZeros, runs, getD_nil, headD_nil]
    split_ifs <;> rfl
  | cons c cs ih =>
    have hj' : ∀ first last, j < (bump first last counts).length := fun first last => by
      rwa [length_bump]
    rw [countZeros, runs, headD_cons]
    have hat : ∀ h : i ≤ j, (j = i ∧ j - i = 0) ∨ (i + 1 ≤ j ∧ j - i = j - (i + 1) + 1) := by
      intro h
      omega
    by_cases hc : c = ['0']
    · have hzero : IsZero c := hc
      have hnext : ∀ f ∈ some (chain.getD i), f < i + 1 := by
        intro f hf
        cases hf
        cases chain with
        | none => exact Nat.lt_succ_self i
        | some f' => exact Nat.lt_succ_of_lt (hchain f' rfl)
      rw [if_pos hc, if_pos hzero, ih hnext (hj' _ _), getD_bump hj]
      by_cases hij : i ≤ j
      · rw [if_pos hij]
        rcases hat hij with ⟨rfl, hsub⟩ | ⟨hlt, hsub⟩
        · -- The place of the component itself.
          have hfirst : chain.getD j ≤ j := by
            cases chain with
            | none => exact le_rfl
            | some f' => exact (hchain f' rfl).le
          rw [if_pos ⟨hfirst, le_rfl⟩, if_neg (by omega), if_pos ⟨_, rfl, hfirst⟩, hsub,
            getD_cons_zero]
          omega
        · rw [if_neg (by omega), if_pos hlt, hsub, getD_cons_succ]
      · rw [if_neg hij, if_neg (show ¬i + 1 ≤ j by omega)]
        by_cases hmem : ∃ f ∈ chain, f ≤ j
        · -- A place in the chain.
          have hfirst : chain.getD i ≤ j := by
            obtain ⟨f, hf, hle⟩ := hmem
            rwa [hf]
          rw [if_pos hmem, if_pos ⟨hfirst, by omega⟩, if_pos ⟨_, rfl, hfirst⟩]
          omega
        · have hbefore : ¬chain.getD i ≤ j := by
            cases chain with
            | none => exact hij
            | some f' => exact fun hle => hmem ⟨f', rfl, hle⟩
          rw [if_neg hmem, if_neg (fun h => hbefore h.1), if_neg]
          rintro ⟨f, hf, hle⟩
          cases hf
          exact hbefore hle
    · have hzero : ¬IsZero c := hc
      have hnone : ¬∃ f ∈ (none : Option ℕ), f ≤ j := by
        rintro ⟨f, hf, -⟩
        cases hf
      rw [if_neg hc, if_neg hzero, ih (by intro f hf; cases hf) hj, if_neg hnone]
      by_cases hij : i ≤ j
      · rw [if_pos hij]
        rcases hat hij with ⟨rfl, hsub⟩ | ⟨hlt, hsub⟩
        · rw [if_neg (by omega), hsub, getD_cons_zero]
        · rw [if_pos hlt, hsub, getD_cons_succ]
      · rw [if_neg hij, if_neg (show ¬i + 1 ≤ j by omega)]
        split_ifs <;> rfl

theorem countZeros_eq (cs : List (List Char)) :
    countZeros cs 0 none (List.replicate cs.length 0) = runs IsZero cs := by
  refine ext_getElem ?_ fun j hj hj' => ?_
  · rw [length_countZeros, length_replicate, length_runs]
  · have hlt : j < (List.replicate cs.length 0).length := by
      rwa [length_countZeros] at hj
    have hcount := @getD_countZeros cs 0 none _ (by intro f hf; cases hf) j hlt
    rw [getD_eq_getElem _ _ hj, if_pos (Nat.zero_le j), Nat.sub_zero,
      getD_eq_getElem _ _ hj', getD_eq_getElem _ _ hlt, getElem_replicate,
      Nat.zero_add] at hcount
    exact hcount

end Counts

/-! ### The form -/

def Ip6Form.Compresses : Ip6Form → Prop
  | f@(full _) => ∀ i, ¬IsRun (· = 0) f.values i 2
  | f@(compressed before after) =>
    2 ≤ 8 - (before.length + after.length) ∧
      IsLongest (· = 0) f.values before.length (8 - (before.length + after.length))

structure Ip6Form.Canonical (f : Ip6Form) : Prop where
  isAddress : f.IsAddress
  eight : f.components.length ≤ 8
  short : ∀ g ∈ f.groups, IsShort g
  compresses : f.Compresses

section Form

def shortForm (gs : List (List Char)) : Ip6Form :=
  let zeroCounts := runs IsZero gs
  if 1 < greatest zeroCounts then
    .compressed (gs.take (zeroCounts.idxOf (greatest zeroCounts)))
      (gs.drop (zeroCounts.idxOf (greatest zeroCounts) + greatest zeroCounts))
  else .full gs

variable {gs : List (List Char)}

theorem isRun_values {gs : List (List Char)} (h : ∀ g ∈ gs, IsShort g) {i k : ℕ} :
    IsRun (· = 0) (gs.map groupValue) i k ↔ IsRun IsZero gs i k := by
  rw [IsRun, IsRun, length_map, ← map_drop, ← map_take, forall_mem_map]
  refine and_congr_right fun _ => forall₂_congr fun g hg => ?_
  have hmem : g ∈ gs := mem_of_mem_drop (mem_of_mem_take hg)
  exact (h g hmem).eq_zero_iff.symm

theorem allGroups_of_run {i k : ℕ} (hlength : gs.length = 8) (hrun : IsRun IsZero gs i k) :
    (Ip6Form.compressed (gs.take i) (gs.drop (i + k))).allGroups = gs := by
  have hik := hrun.1
  have hmiddle : (gs.drop i).take k = List.replicate k ['0'] :=
    List.eq_replicate_iff.2 ⟨by rw [length_take, length_drop]; omega, hrun.2⟩
  have hcount : 8 - ((gs.take i).length + (gs.drop (i + k)).length) = k := by
    rw [length_take, length_drop]
    omega
  rw [Ip6Form.allGroups, hcount, ← hmiddle, ← drop_drop, take_append_drop,
    take_append_drop]

/-- The short form is canonical and has the same groups. -/
theorem shortForm_spec (hlength : gs.length = 8) (h : ∀ g ∈ gs, IsShort g) :
    (shortForm gs).Canonical ∧ (shortForm gs).allGroups = gs := by
  rw [shortForm]
  by_cases htwo : 1 < greatest (runs IsZero gs)
  · simp only [if_pos htwo]
    have hlongest := isLongest_greatest (p := IsZero) (l := gs) (by omega)
    have hall := allGroups_of_run hlength hlongest.isRun
    have hik := hlongest.isRun.1
    have hsubset : ∀ g ∈ gs.take ((runs IsZero gs).idxOf (greatest (runs IsZero gs))) ++
        gs.drop ((runs IsZero gs).idxOf (greatest (runs IsZero gs)) +
          greatest (runs IsZero gs)), g ∈ gs := by
      intro g hg
      rcases List.mem_append.1 hg with hg | hg
      · exact mem_of_mem_take hg
      · exact mem_of_mem_drop hg
    have hcount : 8 - ((gs.take ((runs IsZero gs).idxOf (greatest (runs IsZero gs)))).length +
        (gs.drop ((runs IsZero gs).idxOf (greatest (runs IsZero gs)) +
          greatest (runs IsZero gs))).length) = greatest (runs IsZero gs) := by
      rw [length_take, length_drop]
      omega
    refine ⟨⟨⟨?_, fun g hg => (h g (hsubset g hg)).isGroup⟩, ?_,
      fun g hg => h g (hsubset g hg), ?_⟩, hall⟩
    · rw [Ip6Form.Counts, length_take, length_drop]
      omega
    · rw [Ip6Form.components, length_append, length_cons, length_parts, length_parts]
      rw [length_take, length_drop]
      split_ifs <;> omega
    · rw [Ip6Form.Compresses, Ip6Form.values, hall, hcount, length_take,
        min_eq_left (by omega)]
      refine ⟨htwo, (isRun_values h).2 hlongest.isRun, fun j m hrun => ?_, fun j hrun => ?_⟩
      · exact hlongest.longest j m ((isRun_values h).1 hrun)
      · exact hlongest.leftmost j ((isRun_values h).1 hrun)
  · simp only [if_neg htwo]
    have hne : gs ≠ [] := by
      rintro rfl
      exact absurd hlength (by decide)
    refine ⟨⟨⟨hlength, fun g hg => (h g hg).isGroup⟩, ?_, h, fun i hrun => ?_⟩, rfl⟩
    · rw [Ip6Form.components, length_parts, if_neg hne]
      exact hlength.le
    · exact not_isRun_two (not_lt.1 htwo) i ((isRun_values h).1 hrun)

theorem padEnds_of_ne_nil (h : ∀ g ∈ gs, g ≠ []) : padEnds gs = gs := by
  have hhead : gs.head? ≠ some [] := fun hsome => h [] (mem_of_head? hsome) rfl
  have hlast : gs.getLast? ≠ some [] := fun hsome => h [] (mem_of_getLast? hsome) rfl
  rw [padEnds, if_neg (fun h => hhead h.1), if_neg hhead, if_neg hlast]

theorem padEnds_hole {ls rs : List (List Char)} (hls : ∀ g ∈ ls, g ≠ []) (hrs : ∀ g ∈ rs, g ≠ []) :
    padEnds (ls ++ [] :: rs) = parts ls ++ [] :: parts rs := by
  have hone : ∀ g gs', parts (g :: gs') = g :: gs' := fun g gs' => if_neg (cons_ne_nil g gs')
  cases ls with
  | nil =>
    cases rs with
    | nil => rfl
    | cons r rs =>
      have hlong : ¬([] :: r :: rs).length = 1 := fun h => absurd (Nat.succ.inj h) (by simp)
      rw [nil_append, padEnds, if_neg (fun h => hlong h.2), if_pos head?_cons, hone]
      rfl
  | cons l ls =>
    have hhead : (l :: ls ++ [] :: rs).head? ≠ some [] := fun h =>
      hls l mem_cons_self (Option.some.inj h)
    rw [padEnds, if_neg (fun h => hhead h.1), if_neg hhead, hone]
    cases rs with
    | nil =>
      have hlast : (l :: ls ++ [[]]).getLast? = some [] :=
        getLast?_append_of_ne_nil _ (cons_ne_nil _ _)
      rw [if_pos hlast, append_assoc]
      rfl
    | cons r rs =>
      have hlast : (l :: ls ++ [] :: r :: rs).getLast? ≠ some [] := by
        rw [append_cons, getLast?_append_of_ne_nil _ (cons_ne_nil _ _)]
        exact fun h => hrs [] (mem_of_getLast? h) rfl
      rw [if_neg hlast, hone]

/-- The longest run of zeros is left out. -/
theorem padEnds_compressZeros (hlength : gs.length = 8) (h : ∀ g ∈ gs, IsShort g) :
    padEnds (compressZeros gs) = (shortForm gs).components := by
  have hne : ∀ g ∈ gs, g ≠ [] := fun g hg => (isGroup_iff.1 (h g hg).isGroup).1
  rw [compressZeros, countZeros_eq, shortForm]
  by_cases htwo : 1 < greatest (runs IsZero gs)
  · have hlongest := isLongest_greatest (p := IsZero) (l := gs) (by omega)
    have hik := hlongest.isRun.1
    have hgreatest : (runs IsZero gs).foldl max 0 = greatest (runs IsZero gs) := rfl
    simp only [hgreatest, if_pos htwo]
    generalize hi : (runs IsZero gs).idxOf (greatest (runs IsZero gs)) = i at *
    generalize greatest (runs IsZero gs) = k at *
    have hset : (gs.take i ++ gs.drop (i + (k - 1))).set i [] =
        gs.take i ++ [] :: gs.drop (i + k) := by
      have hlt : i + (k - 1) < gs.length := by omega
      have hlen : (gs.take i).length = i := by
        rw [length_take]
        omega
      have hnext : i + (k - 1) + 1 = i + k := by omega
      rw [drop_eq_getElem_cons hlt, hnext, set_append_right _ _ hlen.le, hlen,
        Nat.sub_self, set_cons_zero]
    have htake : ∀ g ∈ gs.take i, g ≠ [] := fun g hg => hne g (mem_of_mem_take hg)
    have hdrop : ∀ g ∈ gs.drop (i + k), g ≠ [] := fun g hg => hne g (mem_of_mem_drop hg)
    rw [hset, padEnds_hole htake hdrop, Ip6Form.components]
  · have hgreatest : (runs IsZero gs).foldl max 0 = greatest (runs IsZero gs) := rfl
    have hgs : gs ≠ [] := by
      rintro rfl
      exact absurd hlength (by decide)
    simp only [hgreatest, if_neg htwo]
    rw [padEnds_of_ne_nil hne, Ip6Form.components, parts, if_neg hgs]

theorem intercalate_components {f : Ip6Form} (h : ∀ g ∈ f.groups, isGroup g = true) :
    [':'].intercalate f.components = f.text := by
  rw [← Ip6Form.splitOn_text h, intercalate_splitOn]

def Ip6Form.shortGroups (f : Ip6Form) : List (List Char) := f.allGroups.map shortGroup

theorem isShort_shortGroups {f : Ip6Form} (h : f.IsAddress) : ∀ g ∈ f.shortGroups, IsShort g := by
  intro g hg
  obtain ⟨g', hg', rfl⟩ := List.mem_map.1 hg
  exact isShort_shortGroup (allGroups_isGroup h g' hg')

theorem length_shortGroups {f : Ip6Form} (h : f.IsAddress) : f.shortGroups.length = 8 := by
  rw [Ip6Form.shortGroups, length_map, length_allGroups h]

theorem values_shortGroups {f : Ip6Form} (h : f.IsAddress) :
    f.shortGroups.map groupValue = f.values := by
  rw [Ip6Form.shortGroups, map_map, Ip6Form.values]
  exact map_congr_left fun g hg => groupValue_shortGroup (allGroups_isGroup h g hg)

theorem splitOn_fullGroups {f : Ip6Form} (h : f.IsAddress) :
    ([':'].intercalate (f.allGroups.map fourDigits)).splitOn ':' = f.allGroups.map fourDigits := by
  refine splitOn_intercalate ':' (fun g hg => ?_) ?_
  · obtain ⟨g', hg', rfl⟩ := List.mem_map.1 hg
    exact colon_not_mem_group (isFull_fourDigits (allGroups_isGroup h g' hg')).isGroup
  · intro hnil
    have hlength := length_allGroups h
    rw [List.map_eq_nil_iff.1 hnil] at hlength
    exact absurd hlength (by decide)

theorem slash_not_mem_full {f : Ip6Form} (h : f.IsAddress) :
    '/' ∉ [':'].intercalate (f.allGroups.map fourDigits) := by
  intro hslash
  rcases InetText.mem_splitOn ':' hslash with heq | ⟨g, hg, hmem⟩
  · exact absurd heq (by decide)
  · rw [splitOn_fullGroups h] at hg
    obtain ⟨g', hg', rfl⟩ := List.mem_map.1 hg
    exact absurd ((isFull_fourDigits (allGroups_isGroup h g' hg')).hex _ hmem) (by decide)

theorem ip6Canonical_text {f : Ip6Form} (h : f.IsAddress) :
    ip6Canonical f.text = (shortForm f.shortGroups).text := by
  have hcanonical := (shortForm_spec (length_shortGroups h) (isShort_shortGroups h)).1
  rw [ip6Canonical, ip6Full_text h, ip6Splitmask_of_not_mem (slash_not_mem_full h)]
  simp only [splitOn_fullGroups h, map_map]
  have hgroups : f.allGroups.map (suppressZeros ∘ fourDigits) = f.shortGroups := rfl
  rw [hgroups, padEnds_compressZeros (length_shortGroups h) (isShort_shortGroups h),
    intercalate_components hcanonical.isAddress.isGroup, joinMask, if_pos rfl]

end Form

end Web

end Gargoyle
