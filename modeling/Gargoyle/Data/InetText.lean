import Gargoyle.Data.Numerals

/-!
# Texts of internet addresses

What `inet_pton` takes for an address of either family, and what `sscanf` takes for six pairs of
hexadecimal digits between colons. The scanner stops behind the sixth pair, and takes a
single digit for a pair, so that it also accepts many addresses with eight groups.
-/

namespace Gargoyle

open List

namespace InetText

open Numerals

def isHexDigit (c : Char) : Bool :=
  c.isDigit || ('a' ≤ c && c ≤ 'f') || ('A' ≤ c && c ≤ 'F')

/-! ## Addresses with dots -/

def isOctet (s : List Char) : Bool :=
  s ≠ [] && s.length ≤ 3 && s.all Char.isDigit && (s.head? ≠ some '0' || s.length = 1) &&
    numeralValue 10 s ≤ 255

/-- `inet_pton` with `AF_INET`. -/
def isInet (s : List Char) : Bool :=
  (s.splitOn '.').length = 4 && (s.splitOn '.').all isOctet

/-! ## Addresses with colons -/

def isGroup (s : List Char) : Bool := s ≠ [] && s.length ≤ 4 && s.all isHexDigit

def groups (s : List Char) : Option ℕ :=
  if s = [] then some 0
  else
    let pieces := s.splitOn ':'
    if pieces.all isGroup then some pieces.length
    else if pieces.dropLast.all isGroup && isInet (pieces.getLastD []) then some (pieces.length + 1)
    else none

def atDoubleColon : List Char → Option (List Char × List Char)
  | ':' :: ':' :: rest => some ([], rest)
  | c :: rest => (atDoubleColon rest).map fun r => (c :: r.1, r.2)
  | [] => none

/-- `inet_pton` with `AF_INET6`. -/
def isInet6 (s : List Char) : Bool :=
  match atDoubleColon s with
  | none => groups s = some 8
  | some (before, after) =>
    (before = [] || (before.splitOn ':').all isGroup) &&
      (groups after).any fun n => (if before = [] then 0 else (before.splitOn ':').length) + n ≤ 7

/-! ## Pairs of digits -/

def isBlank (c : Char) : Bool := c ∈ [' ', '\t', '\n', '\x0b', '\x0c', '\r']

/-- A conversion `"%2x"` of `sscanf`: what is behind it, or `none` if it fails. -/
def scanPair (s : List Char) : Option (List Char) :=
  match s.dropWhile isBlank with
  | [] => none
  | [c] => if isHexDigit c then some [] else none
  | c :: d :: rest =>
    if c = '+' ∨ c = '-' then if isHexDigit d then some rest else none
    else if isHexDigit c = false ∨ (c = '0' ∧ (d = 'x' ∨ d = 'X')) then none
    else if isHexDigit d then some rest
    else some (d :: rest)

def scanPairs : ℕ → List Char → Bool
  | 0, _ => true
  | 1, s => (scanPair s).isSome
  | n + 2, s =>
    match scanPair s with
    | some (':' :: rest) => scanPairs (n + 1) rest
    | _ => false

/-- `sscanf` with `"%2x:%2x:%2x:%2x:%2x:%2x"` converts all six. -/
def scanMac (s : List Char) : Bool := scanPairs 6 s

def isPair (s : List Char) : Bool := s.length = 2 && s.all isHexDigit

def isMac (s : List Char) : Bool := (s.splitOn ':').length = 6 && (s.splitOn ':').all isPair

/-! ## Their characters -/

section Characters

variable {s : List Char} {c : Char}

theorem mem_splitOn (sep : Char) (h : c ∈ s) : c = sep ∨ ∃ p ∈ s.splitOn sep, c ∈ p := by
  induction s with
  | nil => cases h
  | cons d s ih =>
    rw [splitOn_cons_eq_if_modifyHead]
    obtain ⟨p, ps, hps⟩ := exists_cons_of_ne_nil (splitOn_ne_nil sep s)
    rw [hps] at ih ⊢
    by_cases hd : d = sep
    · rw [if_pos (beq_iff_eq.2 hd)]
      rcases List.mem_cons.1 h with rfl | hc
      · exact .inl hd
      · exact (ih hc).imp_right fun ⟨q, hq, hcq⟩ => ⟨q, mem_cons_of_mem _ hq, hcq⟩
    · rw [if_neg (by simpa using hd), modifyHead_cons]
      rcases List.mem_cons.1 h with rfl | hc
      · exact .inr ⟨_, mem_cons_self, mem_cons_self⟩
      · refine (ih hc).imp_right ?_
        rintro ⟨q, hq, hcq⟩
        rcases List.mem_cons.1 hq with rfl | hq
        · exact ⟨_, mem_cons_self, mem_cons_of_mem _ hcq⟩
        · exact ⟨q, mem_cons_of_mem _ hq, hcq⟩

theorem isHexDigit_of_isDigit (h : c.isDigit = true) : isHexDigit c = true := by
  rw [isHexDigit, h]
  rfl

theorem isOctet_digits (h : isOctet s = true) (hc : c ∈ s) : c.isDigit = true := by
  simp only [isOctet, Bool.and_eq_true, all_eq_true] at h
  exact h.1.1.2 c hc

theorem isInet_chars (h : isInet s = true) (hc : c ∈ s) : c.isDigit = true ∨ c = '.' := by
  simp only [isInet, Bool.and_eq_true, all_eq_true] at h
  rcases mem_splitOn '.' hc with hdot | ⟨p, hp, hcp⟩
  · exact .inr hdot
  · exact .inl (isOctet_digits (h.2 p hp) hcp)

theorem isInet_ne_nil (h : isInet s = true) : s ≠ [] := by
  rintro rfl
  revert h
  decide

def GroupChar (c : Char) : Prop := isHexDigit c = true ∨ c = ':' ∨ c = '.'

theorem isGroup_digits (h : isGroup s = true) (hc : c ∈ s) : isHexDigit c = true := by
  simp only [isGroup, Bool.and_eq_true, all_eq_true] at h
  exact h.2 c hc

theorem all_isGroup_chars (h : (s.splitOn ':').all isGroup = true) (hc : c ∈ s) : GroupChar c := by
  rcases mem_splitOn ':' hc with hcolon | ⟨p, hp, hcp⟩
  · exact .inr (.inl hcolon)
  · exact .inl (isGroup_digits (List.all_eq_true.1 h p hp) hcp)

theorem groups_chars {n : ℕ} (h : groups s = some n) (hc : c ∈ s) : GroupChar c := by
  rw [groups] at h
  simp only at h
  split_ifs at h with hnil hall hlast
  · rw [hnil] at hc
    cases hc
  · exact all_isGroup_chars hall hc
  · rw [Bool.and_eq_true] at hlast
    rcases mem_splitOn ':' hc with hcolon | ⟨p, hp, hcp⟩
    · exact .inr (.inl hcolon)
    · have hne := splitOn_ne_nil ':' s
      rw [← dropLast_append_getLast hne, mem_append, mem_singleton] at hp
      rcases hp with hp | rfl
      · exact .inl (isGroup_digits (List.all_eq_true.1 hlast.1 p hp) hcp)
      · rw [getLastD_eq_getLast?, getLast?_eq_getLast_of_ne_nil hne] at hlast
        rcases isInet_chars hlast.2 hcp with hdigit | hdot
        · exact .inl (isHexDigit_of_isDigit hdigit)
        · exact .inr (.inr hdot)

theorem atDoubleColon_eq_some {before after : List Char}
    (h : atDoubleColon s = some (before, after)) : s = before ++ ':' :: ':' :: after := by
  induction s using atDoubleColon.induct generalizing before with
  | case1 rest =>
    rw [atDoubleColon] at h
    obtain ⟨rfl, rfl⟩ := Prod.mk.inj (Option.some.inj h)
    rfl
  | case2 c rest hnot ih =>
    rw [atDoubleColon.eq_2 _ _ hnot] at h
    obtain ⟨r, hr, heq⟩ := Option.map_eq_some_iff.1 h
    obtain ⟨rfl, rfl⟩ := Prod.mk.inj heq
    rw [cons_append, ← ih hr]
  | case3 => cases h

theorem isInet6_chars (h : isInet6 s = true) : (∀ c ∈ s, GroupChar c) ∧ ':' ∈ s := by
  rw [isInet6] at h
  cases hsplit : atDoubleColon s with
  | none =>
    simp only [hsplit, decide_eq_true_eq] at h
    refine ⟨fun c hc => groups_chars h hc, ?_⟩
    by_contra hnot
    rw [groups, splitOn_eq_singleton hnot] at h
    simp only at h
    split_ifs at h
    all_goals simp at h
  | some r =>
    obtain ⟨before, after⟩ := r
    obtain rfl := atDoubleColon_eq_some hsplit
    simp only [hsplit, Bool.and_eq_true, Bool.or_eq_true, decide_eq_true_eq] at h
    obtain ⟨hbefore, hafter⟩ := h
    obtain ⟨n, hn, -⟩ := (Option.any_eq_true _ _).1 hafter
    refine ⟨fun c hc => ?_, by simp⟩
    simp only [mem_append, mem_cons] at hc
    rcases hc with hc | rfl | rfl | hc
    · rcases hbefore with rfl | hall
      · cases hc
      · exact all_isGroup_chars hall hc
    · exact .inr (.inl rfl)
    · exact .inr (.inl rfl)
    · exact groups_chars hn hc

theorem isMac_chars (h : isMac s = true) : (∀ c ∈ s, isHexDigit c = true ∨ c = ':') ∧ ':' ∈ s := by
  simp only [isMac, Bool.and_eq_true, decide_eq_true_eq, all_eq_true] at h
  obtain ⟨hlength, hpairs⟩ := h
  constructor
  · intro c hc
    rcases mem_splitOn ':' hc with hcolon | ⟨p, hp, hcp⟩
    · exact .inr hcolon
    · have hpair := hpairs p hp
      simp only [isPair, Bool.and_eq_true, all_eq_true] at hpair
      exact .inl (hpair.2 c hcp)
  · by_contra hnot
    rw [splitOn_eq_singleton hnot] at hlength
    cases hlength

theorem isInet6_of_isMac (h : isMac s = true) : isInet6 s = false := by
  simp only [isMac, Bool.and_eq_true, decide_eq_true_eq, all_eq_true] at h
  obtain ⟨hlength, hpairs⟩ := h
  rw [isInet6]
  cases hsplit : atDoubleColon s with
  | none =>
    simp only [decide_eq_false_iff_not, groups, hlength]
    split_ifs <;> simp
  | some r =>
    obtain ⟨before, after⟩ := r
    have hmem : [] ∈ s.splitOn ':' := by
      rw [atDoubleColon_eq_some hsplit, splitOn_append_cons_self, mem_append]
      refine .inr ?_
      rw [splitOn_cons_eq_if_modifyHead]
      exact mem_cons_self
    exact absurd (hpairs [] hmem) (by decide)

theorem not_isBlank_of_isHexDigit {c : Char} (h : isHexDigit c = true) : isBlank c = false := by
  rw [isBlank, decide_eq_false_iff_not]
  intro hc
  simp only [mem_cons, not_mem_nil, or_false] at hc
  rcases hc with rfl | rfl | rfl | rfl | rfl | rfl <;> revert h <;> decide

theorem scanPair_of_isPair {p : List Char} (h : isPair p = true) (rest : List Char) :
    scanPair (p ++ rest) = some rest := by
  simp only [isPair, Bool.and_eq_true, decide_eq_true_eq, all_eq_true] at h
  obtain ⟨hlength, hdigits⟩ := h
  obtain ⟨c, d, rfl⟩ := List.length_eq_two.1 hlength
  have hc : isHexDigit c = true := hdigits c (by simp)
  have hd : isHexDigit d = true := hdigits d (by simp)
  have hsign : ¬(c = '+' ∨ c = '-') := by
    rintro (rfl | rfl) <;> revert hc <;> decide
  have hx : ¬(isHexDigit c = false ∨ (c = '0' ∧ (d = 'x' ∨ d = 'X'))) := by
    rintro (hfalse | ⟨-, rfl | rfl⟩)
    · rw [hc] at hfalse
      cases hfalse
    · revert hd
      decide
    · revert hd
      decide
  have hstart : ([c, d] ++ rest).dropWhile isBlank = c :: d :: rest := by
    simp [not_isBlank_of_isHexDigit hc]
  rw [scanPair, hstart]
  simp only [if_neg hsign, if_neg hx, if_pos hd]

theorem scanPairs_of_isPair {p : List Char} {ps : List (List Char)}
    (h : ∀ q ∈ p :: ps, isPair q = true) :
    scanPairs (ps.length + 1) ([':'].intercalate (p :: ps)) = true := by
  induction ps generalizing p with
  | nil =>
    have hp := scanPair_of_isPair (h p mem_cons_self) []
    rw [List.append_nil] at hp
    simp [List.intercalate, scanPairs, hp]
  | cons q ps ih =>
    have hjoin : [':'].intercalate (p :: q :: ps) = p ++ (':' :: [':'].intercalate (q :: ps)) := by
      simp [List.intercalate]
    rw [length_cons, scanPairs, hjoin, scanPair_of_isPair (h p mem_cons_self)]
    exact ih fun r hr => h r (mem_cons_of_mem _ hr)

theorem scanMac_of_isMac (h : isMac s = true) : scanMac s = true := by
  simp only [isMac, Bool.and_eq_true, decide_eq_true_eq, all_eq_true] at h
  obtain ⟨hlength, hpairs⟩ := h
  obtain ⟨p, ps, hps⟩ := exists_cons_of_ne_nil (splitOn_ne_nil ':' s)
  have hjoin : [':'].intercalate (p :: ps) = s := by rw [← hps, intercalate_splitOn]
  have hcount : ps.length + 1 = 6 := by rw [← hlength, hps, length_cons]
  have hscan := scanPairs_of_isPair (hps ▸ hpairs)
  rwa [hjoin, hcount] at hscan

end Characters

end InetText

end Gargoyle
