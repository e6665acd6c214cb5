import Gargoyle.Data.Numerals

/-!
# JSON texts

`Reads` is the grammar of JSON with what is left of the text behind the part that was read, so that
parts are put behind each other by handing on the rest. Escapes are decoded on the way, and
numbers keep their text. The grammar is unambiguous (`Reads.unique`).

For a text that is printed for a value, `PrintsIff` says that it is read as this value under
some condition, and under no other. The printed texts of strings, arrays and objects are put
together from those of their parts.
-/

namespace Gargoyle

open List

namespace JsonText

open Numerals

inductive Json
  | null
  | bool (value : Bool)
  | num (text : List Char)
  | str (text : List Char)
  | arr (items : List Json)
  | obj (members : List (List Char × Json))

/-! ## The grammar -/

def isBlank (c : Char) : Bool := c ∈ [' ', '\t', '\n', '\r']

def skip (s : List Char) : List Char := s.dropWhile isBlank

def escapeOf : Char → Option Char
  | '"' => some '"'
  | '\\' => some '\\'
  | '/' => some '/'
  | 'b' => some '\x08'
  | 'f' => some '\x0c'
  | 'n' => some '\n'
  | 'r' => some '\r'
  | 't' => some '\t'
  | _ => none

def isHexDigit (c : Char) : Bool :=
  c.isDigit || ('a' ≤ c && c ≤ 'f') || ('A' ≤ c && c ≤ 'F')

def hexValue (ds : List Char) : ℕ := numeralValue 16 (ds.map Char.toLower)

inductive ReadsString : List Char → List Char → List Char → Prop
  | close {rest : List Char} : ReadsString ('"' :: rest) [] rest
  | char {c : Char} {s t rest : List Char} : c ≠ '"' → c ≠ '\\' → 0x20 ≤ c.toNat →
      ReadsString s t rest → ReadsString (c :: s) (c :: t) rest
  | escape {e c : Char} {s t rest : List Char} : escapeOf e = some c → ReadsString s t rest →
      ReadsString ('\\' :: e :: s) (c :: t) rest
  | unicode {a b c d : Char} {s t rest : List Char} : (∀ x ∈ [a, b, c, d], isHexDigit x = true) →
      ReadsString s t rest →
      ReadsString ('\\' :: 'u' :: a :: b :: c :: d :: s) (Char.ofNat (hexValue [a, b, c, d]) :: t)
        rest

def digits (s : List Char) : List Char := s.takeWhile Char.isDigit

/-- The exponent of a number whose text so far is `text`. -/
def readExponent (text : List Char) : List Char → Option (List Char × List Char)
  | [] => some (text, [])
  | e :: s =>
    if e = 'e' ∨ e = 'E' then
      let sign := s.takeWhile fun c => c = '+' ∨ c = '-'
      let ds := digits (s.drop sign.length)
      if 1 < sign.length ∨ ds = [] then none
      else some (text ++ e :: (sign ++ ds), (s.drop sign.length).drop ds.length)
    else some (text, e :: s)

/-- The fraction of a number whose text so far is `text`. -/
def readFraction (text : List Char) : List Char → Option (List Char × List Char)
  | '.' :: s =>
    if digits s = [] then none
    else readExponent (text ++ '.' :: digits s) (s.drop (digits s).length)
  | s => readExponent text s

def readUnsigned (sign : List Char) : List Char → Option (List Char × List Char)
  | '0' :: s => readFraction (sign ++ ['0']) s
  | s => if digits s = [] then none else readFraction (sign ++ digits s) (s.drop (digits s).length)

def readNumber : List Char → Option (List Char × List Char)
  | '-' :: s => readUnsigned ['-'] s
  | s => readUnsigned [] s

inductive Part
  | value
  | items
  | members

inductive Reads : Part → List Char → Json → List Char → Prop
  | nullValue {rest : List Char} : Reads .value ('n' :: 'u' :: 'l' :: 'l' :: rest) .null rest
  | trueValue {rest : List Char} :
      Reads .value ('t' :: 'r' :: 'u' :: 'e' :: rest) (.bool true) rest
  | falseValue {rest : List Char} :
      Reads .value ('f' :: 'a' :: 'l' :: 's' :: 'e' :: rest) (.bool false) rest
  | num {s text rest : List Char} : readNumber s = some (text, rest) →
      Reads .value s (.num text) rest
  | str {s t rest : List Char} : ReadsString s t rest → Reads .value ('"' :: s) (.str t) rest
  | noItems {s rest : List Char} : skip s = ']' :: rest → Reads .value ('[' :: s) (.arr []) rest
  | arr {s rest : List Char} {v : Json} : Reads .items s v rest → Reads .value ('[' :: s) v rest
  | lastItem {s s' rest : List Char} {v : Json} : Reads .value (skip s) v s' →
      skip s' = ']' :: rest → Reads .items s (.arr [v]) rest
  | item {s s' s'' rest : List Char} {v : Json} {vs : List Json} : Reads .value (skip s) v s' →
      skip s' = ',' :: s'' → Reads .items s'' (.arr vs) rest → Reads .items s (.arr (v :: vs)) rest
  | noMembers {s rest : List Char} : skip s = '}' :: rest →
      Reads .value ('\x7b' :: s) (.obj []) rest
  | obj {s rest : List Char} {v : Json} : Reads .members s v rest →
      Reads .value ('\x7b' :: s) v rest
  | lastMember {s s₁ s₂ s₃ s₄ k rest : List Char} {v : Json} : skip s = '"' :: s₁ →
      ReadsString s₁ k s₂ → skip s₂ = ':' :: s₃ → Reads .value (skip s₃) v s₄ →
      skip s₄ = '}' :: rest → Reads .members s (.obj [(k, v)]) rest
  | member {s s₁ s₂ s₃ s₄ s₅ k rest : List Char} {v : Json} {ms : List (List Char × Json)} :
      skip s = '"' :: s₁ → ReadsString s₁ k s₂ → skip s₂ = ':' :: s₃ →
      Reads .value (skip s₃) v s₄ → skip s₄ = ',' :: s₅ → Reads .members s₅ (.obj ms) rest →
      Reads .members s (.obj ((k, v) :: ms)) rest

def IsDocument (s : List Char) (v : Json) : Prop :=
  ∃ rest, Reads .value (skip s) v rest ∧ skip rest = []

/-! ## Nothing is read in two ways -/

/-- A string is read in one way. -/
theorem ReadsString.unique {s t t' rest rest' : List Char} (h : ReadsString s t rest)
    (h' : ReadsString s t' rest') : t = t' ∧ rest = rest' := by
  induction h generalizing t' rest' with
  | close =>
    cases h' with
    | close => exact ⟨rfl, rfl⟩
    | char hquote => exact absurd rfl hquote
  | char hquote hslash _ _ ih =>
    cases h' with
    | close => exact absurd rfl hquote
    | char _ _ _ h' =>
      obtain ⟨ht, hrest⟩ := ih h'
      exact ⟨congrArg _ ht, hrest⟩
    | escape => exact absurd rfl hslash
    | unicode => exact absurd rfl hslash
  | escape he _ ih =>
    cases h' with
    | char _ hslash => exact absurd rfl hslash
    | escape he' h' =>
      obtain ⟨ht, hrest⟩ := ih h'
      rw [he] at he'
      exact ⟨congrArg₂ _ (Option.some.inj he') ht, hrest⟩
    | unicode => cases he
  | unicode _ _ ih =>
    cases h' with
    | char _ hslash => exact absurd rfl hslash
    | escape he' => cases he'
    | unicode _ h' =>
      obtain ⟨ht, hrest⟩ := ih h'
      exact ⟨congrArg _ ht, hrest⟩

theorem head_of_readNumber {c : Char} {s : List Char} {r : List Char × List Char}
    (h : readNumber (c :: s) = some r) : c = '-' ∨ c.isDigit = true := by
  by_cases hsign : c = '-'
  · exact .inl hsign
  · refine .inr ?_
    by_contra hdigit
    have hdigits : digits (c :: s) = [] := takeWhile_cons_of_neg (by simpa using hdigit)
    have hzero : c ≠ '0' := by
      rintro rfl
      exact hdigit rfl
    have hread : readNumber (c :: s) = readUnsigned [] (c :: s) := by
      rw [readNumber]
      rintro _ ⟨⟩
      exact hsign rfl
    rw [hread, readUnsigned, if_pos hdigits] at h
    · cases h
    · rintro _ ⟨⟩
      exact hzero rfl

theorem Reads.not_end {c : Char} {s rest : List Char} {v : Json}
    (h : Reads .value (c :: s) v rest) : c ≠ ',' ∧ c ≠ ']' ∧ c ≠ '\x7d' := by
  cases h with
  | num h =>
    rcases head_of_readNumber h with rfl | hdigit
    · decide
    · refine ⟨?_, ?_, ?_⟩
      · rintro rfl
        exact absurd hdigit (by decide)
      · rintro rfl
        exact absurd hdigit (by decide)
      · rintro rfl
        exact absurd hdigit (by decide)
  | _ => decide

theorem Reads.items_not_closed {s s' rest : List Char} {v : Json} (h : Reads .items s v rest)
    (hs : skip s = ']' :: s') : False := by
  cases h with
  | lastItem hv =>
    rw [hs] at hv
    exact hv.not_end.2.1 rfl
  | item hv =>
    rw [hs] at hv
    exact hv.not_end.2.1 rfl

theorem Reads.members_not_closed {s s' rest : List Char} {v : Json} (h : Reads .members s v rest)
    (hs : skip s = '\x7d' :: s') : False := by
  cases h with
  | lastMember hquote =>
    rw [hs] at hquote
    cases hquote
  | member hquote =>
    rw [hs] at hquote
    cases hquote

theorem ne_of_readNumber {c : Char} {s : List Char} {r : List Char × List Char}
    (h : readNumber (c :: s) = some r) :
    c ≠ 'n' ∧ c ≠ 't' ∧ c ≠ 'f' ∧ c ≠ '"' ∧ c ≠ '[' ∧ c ≠ '\x7b' := by
  have hne : ∀ d : Char, d ≠ '-' → d.isDigit = false → c ≠ d := by
    rintro d hsign hdigit rfl
    rcases head_of_readNumber h with h | h
    · exact hsign h
    · rw [hdigit] at h
      cases h
  exact ⟨hne _ (by decide) (by decide), hne _ (by decide) (by decide),
    hne _ (by decide) (by decide), hne _ (by decide) (by decide), hne _ (by decide) (by decide),
    hne _ (by decide) (by decide)⟩

theorem key_unique {s s₁ s₂ s₃ k s₁' s₂' s₃' k' : List Char} (hquote : skip s = '"' :: s₁)
    (hkey : ReadsString s₁ k s₂) (hcolon : skip s₂ = ':' :: s₃) (hquote' : skip s = '"' :: s₁')
    (hkey' : ReadsString s₁' k' s₂') (hcolon' : skip s₂' = ':' :: s₃') : k = k' ∧ s₃ = s₃' := by
  rw [hquote] at hquote'
  obtain rfl := (List.cons.inj hquote').2
  obtain ⟨rfl, rfl⟩ := hkey.unique hkey'
  rw [hcolon] at hcolon'
  exact ⟨rfl, (List.cons.inj hcolon').2⟩

/-- A text is read in one way. -/
theorem Reads.unique {m : Part} {s rest rest' : List Char} {v v' : Json} (h : Reads m s v rest)
    (h' : Reads m s v' rest') : v = v' ∧ rest = rest' := by
  induction h generalizing v' rest' with
  | nullValue =>
    cases h' with
    | nullValue => exact ⟨rfl, rfl⟩
    | num h => exact absurd rfl (ne_of_readNumber h).1
  | trueValue =>
    cases h' with
    | trueValue => exact ⟨rfl, rfl⟩
    | num h => exact absurd rfl (ne_of_readNumber h).2.1
  | falseValue =>
    cases h' with
    | falseValue => exact ⟨rfl, rfl⟩
    | num h => exact absurd rfl (ne_of_readNumber h).2.2.1
  | num h =>
    cases h' with
    | nullValue => exact absurd rfl (ne_of_readNumber h).1
    | trueValue => exact absurd rfl (ne_of_readNumber h).2.1
    | falseValue => exact absurd rfl (ne_of_readNumber h).2.2.1
    | num h' =>
      rw [h] at h'
      obtain ⟨htext, hrest⟩ := Prod.mk.inj (Option.some.inj h')
      exact ⟨congrArg _ htext, hrest⟩
    | str => exact absurd rfl (ne_of_readNumber h).2.2.2.1
    | noItems => exact absurd rfl (ne_of_readNumber h).2.2.2.2.1
    | arr => exact absurd rfl (ne_of_readNumber h).2.2.2.2.1
    | noMembers => exact absurd rfl (ne_of_readNumber h).2.2.2.2.2
    | obj => exact absurd rfl (ne_of_readNumber h).2.2.2.2.2
  | str h =>
    cases h' with
    | num h => exact absurd rfl (ne_of_readNumber h).2.2.2.1
    | str h' =>
      obtain ⟨ht, hrest⟩ := h.unique h'
      exact ⟨congrArg _ ht, hrest⟩
  | noItems hclose =>
    cases h' with
    | num h => exact absurd rfl (ne_of_readNumber h).2.2.2.2.1
    | noItems hclose' =>
      rw [hclose] at hclose'
      exact ⟨rfl, (List.cons.inj hclose').2⟩
    | arr h' => exact absurd hclose h'.items_not_closed
  | arr h ih =>
    cases h' with
    | num h => exact absurd rfl (ne_of_readNumber h).2.2.2.2.1
    | noItems hclose => exact absurd hclose h.items_not_closed
    | arr h' => exact ih h'
  | lastItem _ hclose ih =>
    cases h' with
    | lastItem hv' hclose' =>
      obtain ⟨rfl, rfl⟩ := ih hv'
      rw [hclose] at hclose'
      exact ⟨rfl, (List.cons.inj hclose').2⟩
    | item hv' hcomma =>
      obtain ⟨-, rfl⟩ := ih hv'
      rw [hclose] at hcomma
      cases hcomma
  | item _ hcomma _ ihv ihvs =>
    cases h' with
    | lastItem hv' hclose =>
      obtain ⟨-, rfl⟩ := ihv hv'
      rw [hcomma] at hclose
      cases hclose
    | item hv' hcomma' hvs' =>
      obtain ⟨rfl, rfl⟩ := ihv hv'
      rw [hcomma] at hcomma'
      obtain rfl := (List.cons.inj hcomma').2
      obtain ⟨hvs, hrest⟩ := ihvs hvs'
      exact ⟨congrArg _ (congrArg _ (Json.arr.inj hvs)), hrest⟩
  | noMembers hclose =>
    cases h' with
    | num h => exact absurd rfl (ne_of_readNumber h).2.2.2.2.2
    | noMembers hclose' =>
      rw [hclose] at hclose'
      exact ⟨rfl, (List.cons.inj hclose').2⟩
    | obj h' => exact absurd hclose h'.members_not_closed
  | obj h ih =>
    cases h' with
    | num h => exact absurd rfl (ne_of_readNumber h).2.2.2.2.2
    | noMembers hclose => exact absurd hclose h.members_not_closed
    | obj h' => exact ih h'
  | lastMember hquote hkey hcolon _ hclose ih =>
    cases h' with
    | lastMember hquote' hkey' hcolon' hv' hclose' =>
      obtain ⟨rfl, rfl⟩ := key_unique hquote hkey hcolon hquote' hkey' hcolon'
      obtain ⟨rfl, rfl⟩ := ih hv'
      rw [hclose] at hclose'
      exact ⟨rfl, (List.cons.inj hclose').2⟩
    | member hquote' hkey' hcolon' hv' hcomma =>
      obtain ⟨rfl, rfl⟩ := key_unique hquote hkey hcolon hquote' hkey' hcolon'
      obtain ⟨-, rfl⟩ := ih hv'
      rw [hclose] at hcomma
      cases hcomma
  | member hquote hkey hcolon _ hcomma _ ihv ihms =>
    cases h' with
    | lastMember hquote' hkey' hcolon' hv' hclose =>
      obtain ⟨rfl, rfl⟩ := key_unique hquote hkey hcolon hquote' hkey' hcolon'
      obtain ⟨-, rfl⟩ := ihv hv'
      rw [hcomma] at hclose
      cases hclose
    | member hquote' hkey' hcolon' hv' hcomma' hms' =>
      obtain ⟨rfl, rfl⟩ := key_unique hquote hkey hcolon hquote' hkey' hcolon'
      obtain ⟨rfl, rfl⟩ := ihv hv'
      rw [hcomma] at hcomma'
      obtain rfl := (List.cons.inj hcomma').2
      obtain ⟨hms, hrest⟩ := ihms hms'
      exact ⟨congrArg _ (congrArg _ (Json.obj.inj hms)), hrest⟩

/-! ## Printed strings -/

/-- Between quotation marks, `raw` is read as `text` if and only if `ok`. -/
structure SpellsIff (raw text : List Char) (ok : Prop) : Prop where
  reads : ok → ∀ rest, ReadsString (raw ++ '"' :: rest) text rest
  only : ∀ rest rest', ReadsString (raw ++ '"' :: rest) text rest' → ok

def Plain (s : List Char) : Prop := ∀ c ∈ s, c ≠ '"' ∧ c ≠ '\\' ∧ 0x20 ≤ c.toNat

theorem Plain.reads {s : List Char} (h : Plain s) (rest : List Char) :
    ReadsString (s ++ '"' :: rest) s rest := by
  induction s with
  | nil => exact .close
  | cons c s ih =>
    obtain ⟨⟨hquote, hslash, hcontrol⟩, hs⟩ := List.forall_mem_cons.1 h
    exact .char hquote hslash hcontrol (ih hs)

theorem exists_append_of_not_mem {α : Type*} {q : α} {xs s u rest : List α} (hq : q ∉ xs)
    (h : xs ++ s = u ++ q :: rest) : ∃ u', u = xs ++ u' ∧ s = u' ++ q :: rest := by
  rcases List.append_eq_append_iff.1 h with ⟨u', hu, hs⟩ | ⟨w, hxs, hrest⟩
  · exact ⟨u', hu, hs⟩
  · cases w with
    | nil =>
      rw [List.append_nil] at hxs
      exact ⟨[], by rw [hxs, List.append_nil], hrest.symm⟩
    | cons c w =>
      obtain rfl := (List.cons.inj hrest).1
      exact absurd (hxs ▸ mem_append_right u mem_cons_self) hq

theorem ReadsString.step {u rest t rest' : List Char} {a : Char} (ha : a ≠ '"')
    (h : ReadsString (u ++ '"' :: rest) (a :: t) rest') :
    ∃ w u', u = w ++ u' ∧ w ≠ [] ∧ '"' ∉ w ∧ ReadsString (u' ++ '"' :: rest) t rest' := by
  generalize hs : u ++ '"' :: rest = s at h
  cases h with
  | @char _ s _ _ hquote _ _ h =>
    have hnone : '"' ∉ [a] := by simpa using ha.symm
    obtain ⟨u', hu, rfl⟩ := exists_append_of_not_mem (s := s) hnone hs.symm
    exact ⟨_, u', hu, cons_ne_nil _ _, hnone, h⟩
  | @escape e _ s _ _ he h =>
    have hnone : '"' ∉ ['\\', e] := by
      have hne : e ≠ '"' := by
        rintro rfl
        exact ha (Option.some.inj he).symm
      simpa using hne.symm
    obtain ⟨u', hu, rfl⟩ := exists_append_of_not_mem (s := s) hnone hs.symm
    exact ⟨_, u', hu, cons_ne_nil _ _, hnone, h⟩
  | @unicode b c d e s _ _ hhex h =>
    have hnone : '"' ∉ ['\\', 'u', b, c, d, e] := by
      have hhex' : '"' ∉ [b, c, d, e] := fun hmem => absurd (hhex _ hmem) (by decide)
      simpa using hhex'
    obtain ⟨u', hu, rfl⟩ := exists_append_of_not_mem (s := s) hnone hs.symm
    exact ⟨_, u', hu, cons_ne_nil _ _, hnone, h⟩

theorem not_readsString_of_lag {p u rest rest' : List Char} (hp : p ≠ []) (hquote : '"' ∉ p) :
    ¬ReadsString (u ++ '"' :: rest) (p ++ u) rest' := by
  induction hlength : u.length using Nat.strong_induction_on generalizing p u with
  | _ n ih =>
    intro h
    obtain ⟨a, p, rfl⟩ := exists_cons_of_ne_nil hp
    rw [mem_cons, not_or] at hquote
    obtain ⟨w, u', rfl, hw, hnone, h⟩ := h.step (Ne.symm hquote.1)
    -- What was read for `a` goes from the front of the text to the end of the lag.
    have hlt : u'.length < n := by
      have hpos := length_pos_of_ne_nil hw
      rw [← hlength, length_append]
      exact Nat.lt_add_of_pos_left hpos
    have h : ReadsString (u' ++ '"' :: rest) (p ++ w ++ u') rest' := by
      rw [append_assoc]
      exact h
    refine ih u'.length hlt ?_ ?_ rfl h
    · exact append_ne_nil_of_right_ne_nil p hw
    · rw [mem_append, not_or]
      exact ⟨hquote.2, hnone⟩

/-- A plain text spells itself, and no other text is one. -/
theorem spellsIff_self (s : List Char) : SpellsIff s s (Plain s) where
  reads := Plain.reads
  only rest rest' h := by
    induction s with
    | nil => exact fun _ hmem => absurd hmem not_mem_nil
    | cons c s ih =>
      rw [cons_append] at h
      generalize hx : s ++ '"' :: rest = x at h
      generalize hy : c :: s = y at h
      cases h with
      | close => cases hy
      | char hquote hslash hcontrol h =>
        obtain rfl := (List.cons.inj hy).2
        subst hx
        exact List.forall_mem_cons.2 ⟨⟨hquote, hslash, hcontrol⟩, ih h⟩
      | @escape e _ x t _ he h =>
        obtain ⟨rfl, rfl⟩ := List.cons.inj hy
        have hnone : '"' ∉ [e] := by
          have hne : e ≠ '"' := by
            rintro rfl
            exact absurd he (by decide)
          simpa using hne.symm
        obtain ⟨u, rfl, rfl⟩ := exists_append_of_not_mem (s := x) hnone hx.symm
        exact absurd h (not_readsString_of_lag (cons_ne_nil _ _) hnone)
      | @unicode a b d e x t _ hhex h =>
        obtain rfl := (List.cons.inj hy).2
        have hnone : '"' ∉ ['u', a, b, d, e] := by
          have hhex' : '"' ∉ [a, b, d, e] := fun hmem => absurd (hhex _ hmem) (by decide)
          simpa using hhex'
        obtain ⟨u, rfl, rfl⟩ := exists_append_of_not_mem (s := x) hnone hx.symm
        exact absurd h (not_readsString_of_lag (cons_ne_nil _ _) hnone)

theorem SpellsIff.of_reads {raw text text' : List Char}
    (h : ∀ rest, ReadsString (raw ++ '"' :: rest) text rest) :
    SpellsIff raw text' (text' = text) where
  reads heq := heq ▸ h
  only rest _ h' := (h'.unique (h rest)).1

/-- In a string, `w` is read as the character `a` if and only if `ok`. -/
structure EncodesIff (w : List Char) (a : Char) (ok : Prop) : Prop where
  reads : ok → ∀ s t rest, ReadsString s t rest → ReadsString (w ++ s) (a :: t) rest
  only : ∀ s t rest, ReadsString (w ++ s) (a :: t) rest → ok ∧ ReadsString s t rest

theorem encodesIff_char {c : Char} (hquote : c ≠ '"') (hslash : c ≠ '\\') :
    EncodesIff [c] c (0x20 ≤ c.toNat) where
  reads hcontrol _ _ _ h := .char hquote hslash hcontrol h
  only s t rest h := by
    generalize hy : c :: t = y at h
    cases h with
    | close => cases hy
    | char _ _ hcontrol h => exact ⟨hcontrol, (List.cons.inj hy).2 ▸ h⟩
    | escape => exact absurd rfl hslash
    | unicode => exact absurd rfl hslash

theorem encodesIff_escape {e c : Char} (he : escapeOf e = some c) :
    EncodesIff ['\\', e] c True where
  reads _ _ _ _ h := .escape he h
  only s t rest h := by
    generalize hy : c :: t = y at h
    cases h with
    | char _ hslash => exact absurd rfl hslash
    | escape _ h => exact ⟨trivial, (List.cons.inj hy).2 ▸ h⟩
    | unicode => cases he

theorem spellsIff_flatMap {encode : Char → List Char} {decode : Char → Char} {ok : Char → Prop}
    (h : ∀ c, EncodesIff (encode c) (decode c) (ok c)) (cs : List Char) :
    SpellsIff (cs.flatMap encode) (cs.map decode) (∀ c ∈ cs, ok c) where
  reads hok rest := by
    induction cs with
    | nil => exact .close
    | cons c cs ih =>
      obtain ⟨hc, hcs⟩ := List.forall_mem_cons.1 hok
      rw [flatMap_cons, append_assoc]
      exact (h c).reads hc _ _ _ (ih hcs)
  only rest rest' hread := by
    induction cs with
    | nil => exact fun _ hmem => absurd hmem not_mem_nil
    | cons c cs ih =>
      rw [flatMap_cons, append_assoc] at hread
      obtain ⟨hc, hcs⟩ := (h c).only _ _ _ hread
      exact List.forall_mem_cons.2 ⟨hc, ih hcs⟩

/-! ## Printed values -/

def Stops (s : List Char) : Prop :=
  ∀ c ∈ s.head?, c.isDigit = false ∧ c ≠ '.' ∧ c ≠ 'e' ∧ c ≠ 'E'

theorem stops_newline (s : List Char) : Stops ('\n' :: s) := by
  rintro c ⟨⟩
  decide

theorem stops_comma (s : List Char) : Stops (',' :: s) := by
  rintro c ⟨⟩
  decide

/-- The text `t` is read as `v` if and only if `ok`. -/
structure PrintsIff (t : List Char) (v : Json) (ok : Prop) : Prop where
  not_blank : ∃ c s, t = c :: s ∧ isBlank c = false
  reads : ok → ∀ tail, Stops tail → Reads .value (t ++ tail) v tail
  only : ∀ tail rest, Stops tail → Reads .value (t ++ tail) v rest → ok

theorem skip_append {ws : List Char} (hws : ∀ c ∈ ws, isBlank c = true) (s : List Char) :
    skip (ws ++ s) = skip s := by
  induction ws with
  | nil => rfl
  | cons c ws ih =>
    obtain ⟨hc, hws⟩ := List.forall_mem_cons.1 hws
    rw [cons_append, skip, dropWhile_cons_of_pos hc]
    exact ih hws

theorem skip_of_not_blank {c : Char} (hc : isBlank c = false) (s : List Char) :
    skip (c :: s) = c :: s :=
  dropWhile_cons_of_neg (by simp [hc])

theorem PrintsIff.skip_append {t : List Char} {v : Json} {ok : Prop} (h : PrintsIff t v ok)
    (s : List Char) : skip (t ++ s) = t ++ s := by
  obtain ⟨c, t, rfl, hc⟩ := h.not_blank
  exact skip_of_not_blank hc (t ++ s)

theorem PrintsIff.iff {t : List Char} {v : Json} {ok ok' : Prop} (h : PrintsIff t v ok)
    (hiff : ok ↔ ok') : PrintsIff t v ok' :=
  ⟨h.not_blank, fun hok => h.reads (hiff.2 hok), fun tail rest hstops hread =>
    hiff.1 (h.only tail rest hstops hread)⟩

theorem PrintsIff.isDocument_iff {t : List Char} {v : Json} {ok : Prop} (h : PrintsIff t v ok) :
    IsDocument (t ++ ['\n']) v ↔ ok := by
  rw [IsDocument, h.skip_append]
  constructor
  · rintro ⟨rest, hread, -⟩
    exact h.only _ rest (stops_newline []) hread
  · intro hok
    exact ⟨['\n'], h.reads hok _ (stops_newline []), rfl⟩

theorem printsIff_str {raw text : List Char} {ok : Prop} (h : SpellsIff raw text ok) :
    PrintsIff ('"' :: (raw ++ ['"'])) (.str text) ok where
  not_blank := ⟨_, _, rfl, rfl⟩
  reads hok tail _ := by
    rw [cons_append, append_assoc]
    exact .str (h.reads hok tail)
  only tail rest _ hread := by
    rw [cons_append, append_assoc] at hread
    cases hread with
    | str hread => exact h.only tail rest hread

/-! ### Numbers -/

theorem Stops.digits_append {ds tail : List Char} (hds : ∀ c ∈ ds, c.isDigit = true)
    (h : Stops tail) : digits (ds ++ tail) = ds := by
  rw [digits, takeWhile_append_of_pos hds]
  cases tail with
  | nil => rw [takeWhile_nil, List.append_nil]
  | cons c tail =>
    rw [takeWhile_cons_of_neg (by simp [(h c rfl).1]), List.append_nil]

theorem Stops.readFraction {tail : List Char} (h : Stops tail) (text : List Char) :
    readFraction text tail = some (text, tail) := by
  cases tail with
  | nil => rfl
  | cons c tail =>
    obtain ⟨-, hpoint, he, hE⟩ := h c rfl
    rw [JsonText.readFraction, readExponent, if_neg (not_or.2 ⟨he, hE⟩)]
    rintro _ ⟨⟩
    exact hpoint rfl

theorem toDigits_of_head_zero {n : ℕ} {ds : List Char} (h : Nat.toDigits 10 n = '0' :: ds) :
    ds = [] := by
  induction n using Nat.strong_induction_on generalizing ds with
  | _ n ih =>
    rcases Nat.lt_or_ge n 10 with hlt | hge
    · rw [Nat.toDigits_of_lt_base hlt] at h
      exact (List.cons.inj h).2.symm
    · rw [Nat.toDigits_of_base_le (by decide) hge] at h
      have hpos : 0 < n / 10 := Nat.div_pos hge (by decide)
      cases hfront : Nat.toDigits 10 (n / 10) with
      | nil => exact absurd hfront Nat.toDigits_ne_nil
      | cons c cs =>
        rw [hfront] at h
        obtain rfl := (List.cons.inj h).1
        have hn : 0 < n := lt_of_lt_of_le (by decide) hge
        obtain rfl := ih _ (Nat.div_lt_self hn (by decide)) hfront
        have hvalue := numeralValue_toDigits (b := 10) (by decide) (by decide) (n / 10)
        rw [hfront] at hvalue
        exact absurd hvalue (Nat.ne_of_lt hpos)

/-- A number is read from its digits. -/
theorem readNumber_toDigits (n : ℕ) {tail : List Char} (h : Stops tail) :
    readNumber (Nat.toDigits 10 n ++ tail) = some (Nat.toDigits 10 n, tail) := by
  have hdigits : ∀ c ∈ Nat.toDigits 10 n, c.isDigit = true := fun c hc =>
    Nat.isDigit_of_mem_toDigits (by decide) (by decide) hc
  cases hds : Nat.toDigits 10 n with
  | nil => exact absurd hds Nat.toDigits_ne_nil
  | cons c ds =>
    rw [hds] at hdigits
    have hsign : c ≠ '-' := by
      rintro rfl
      exact absurd (hdigits _ mem_cons_self) (by decide)
    have hunsigned : readNumber (c :: ds ++ tail) = readUnsigned [] (c :: ds ++ tail) := by
      rw [cons_append, readNumber]
      rintro _ ⟨⟩
      exact hsign rfl
    rw [hunsigned]
    by_cases hzero : c = '0'
    · subst hzero
      obtain rfl := toDigits_of_head_zero hds
      exact h.readFraction ['0']
    · have hall : digits (c :: ds ++ tail) = c :: ds := h.digits_append hdigits
      rw [cons_append] at hall ⊢
      rw [readUnsigned, hall, if_neg (cons_ne_nil c ds), ← cons_append,
        drop_left, nil_append, h.readFraction]
      rintro _ ⟨⟩
      exact hzero rfl

theorem printsIff_num (n : ℕ) :
    PrintsIff (Nat.toDigits 10 n) (.num (Nat.toDigits 10 n)) True where
  not_blank := by
    cases hds : Nat.toDigits 10 n with
    | nil => exact absurd hds Nat.toDigits_ne_nil
    | cons c ds =>
      have hdigit : c.isDigit = true := Nat.isDigit_of_mem_toDigits (n := n) (b := 10)
        (by decide) (by decide) (hds ▸ mem_cons_self)
      refine ⟨c, ds, rfl, ?_⟩
      refine decide_eq_false fun hmem => ?_
      have hnone : ∀ d ∈ [' ', '\t', '\n', '\r'], d.isDigit = false :=
        forall_mem_of_all (by decide)
      rw [hnone c hmem] at hdigit
      cases hdigit
  reads _ _ hstops := .num (readNumber_toDigits n hstops)
  only _ _ _ _ := trivial

/-! ### Sequences -/

theorem newline_intercalate {ts : List (List Char)} (hne : ts ≠ []) :
    '\n' :: [',', '\n'].intercalate ts = [','].intercalate (ts.map ('\n' :: ·)) := by
  induction ts with
  | nil => exact absurd rfl hne
  | cons t ts ih =>
    cases ts with
    | nil => rfl
    | cons t' ts =>
      rw [List.intercalate_cons_cons, map_cons, map_cons,
        List.intercalate_cons_cons, ← map_cons, ← ih (cons_ne_nil _ _)]
      simp

section Sequences

variable {α β : Type*} (R : List Char → α → List Char → Prop) (close : Char)

/-- The rest of a sequence of elements that are read by `R`. -/
inductive ReadsSeq : List Char → List α → List Char → Prop
  | last {s s' rest : List Char} {a : α} : R s a s' → skip s' = close :: rest →
      ReadsSeq s [a] rest
  | next {s s' s'' rest : List Char} {a : α} {as : List α} : R s a s' → skip s' = ',' :: s'' →
      ReadsSeq s'' as rest → ReadsSeq s (a :: as) rest

def ReadsAll (s : List Char) (as : List α) (rest : List Char) : Prop :=
  as = [] ∧ skip s = close :: rest ∨ ReadsSeq R close s as rest

/-- The text `t` is read as the element `a` if and only if `ok`. -/
structure ElementIff (t : List Char) (a : α) (ok : Prop) : Prop where
  reads : ok → ∀ tail, Stops tail → R (t ++ tail) a tail
  only : ∀ tail rest, Stops tail → R (t ++ tail) a rest → ok

variable {R close}

theorem ElementIff.blanks_append (hR : ∀ s s' a rest, skip s = skip s' → R s a rest → R s' a rest)
    {t : List Char} {a : α} {ok : Prop} (h : ElementIff R t a ok) {ws : List Char}
    (hws : ∀ c ∈ ws, isBlank c = true) : ElementIff R (ws ++ t) a ok where
  reads hok tail hstops := by
    rw [append_assoc]
    exact hR _ _ a tail (skip_append hws _).symm (h.reads hok tail hstops)
  only tail rest hstops hread := by
    rw [append_assoc] at hread
    exact h.only tail rest hstops (hR _ _ a rest (skip_append hws _) hread)

theorem skip_newline_blanks (hclose : isBlank close = false) {ws : List Char}
    (hws : ∀ c ∈ ws, isBlank c = true) (tail : List Char) :
    skip ('\n' :: (ws ++ close :: tail)) = close :: tail := by
  have hlead : skip ('\n' :: (ws ++ close :: tail)) = skip (ws ++ close :: tail) := rfl
  rw [hlead, skip_append hws, skip_of_not_blank hclose]

variable {es : List β} {text : β → List Char} {val : β → α} {ok : β → Prop} {ws : List Char}

section NonEmpty

variable (h : ∀ e ∈ es, ElementIff R (text e) (val e) (ok e)) (hne : es ≠ [])
include h hne

theorem readsSeq_intercalate (hclose : isBlank close = false) (hws : ∀ c ∈ ws, isBlank c = true)
    (hok : ∀ e ∈ es, ok e) (tail : List Char) :
    ReadsSeq R close ([','].intercalate (es.map text) ++ '\n' :: (ws ++ close :: tail))
      (es.map val) tail := by
  induction es with
  | nil => exact absurd rfl hne
  | cons e es ih =>
    obtain ⟨he, hes⟩ := List.forall_mem_cons.1 h
    obtain ⟨hoke, hokes⟩ := List.forall_mem_cons.1 hok
    cases es with
    | nil =>
      rw [map_singleton, List.intercalate_singleton]
      exact .last (he.reads hoke _ (stops_newline _)) (skip_newline_blanks hclose hws tail)
    | cons e' es =>
      rw [map_cons, map_cons, List.intercalate_cons_cons, append_assoc,
        append_assoc]
      exact .next (he.reads hoke _ (stops_comma _)) rfl (ih hes (cons_ne_nil _ _) hokes)

/-- What is read in order has been fit to be read. -/
theorem ok_of_readsSeq (hR : ∀ s a rest rest', R s a rest → R s a rest' → rest = rest')
    {tail rest : List Char}
    (hread : ReadsSeq R close ([','].intercalate (es.map text) ++ '\n' :: (ws ++ close :: tail))
      (es.map val) rest) : ∀ e ∈ es, ok e := by
  induction es with
  | nil => exact absurd rfl hne
  | cons e es ih =>
    obtain ⟨he, hes⟩ := List.forall_mem_cons.1 h
    cases es with
    | nil =>
      rw [map_singleton, List.intercalate_singleton] at hread
      have hoke : ok e := by
        cases hread with
        | last hread => exact he.only _ _ (stops_newline _) hread
        | next hread => exact he.only _ _ (stops_newline _) hread
      simpa using hoke
    | cons e' es =>
      rw [map_cons, map_cons, List.intercalate_cons_cons, append_assoc,
        append_assoc] at hread
      cases hread with
      | next hread hcomma hmore =>
        have hoke := he.only _ _ (stops_comma _) hread
        obtain rfl := hR _ _ _ _ hread (he.reads hoke _ (stops_comma _))
        obtain rfl := (List.cons.inj hcomma).2
        exact List.forall_mem_cons.2 ⟨hoke, ih hes (cons_ne_nil _ _) hmore⟩

end NonEmpty

variable (close) (h : ∀ e ∈ es, ElementIff R ('\n' :: text e) (val e) (ok e))
include h

theorem readsAll_lines (hclose : isBlank close = false) (hws : ∀ c ∈ ws, isBlank c = true)
    (hok : ∀ e ∈ es, ok e) (tail : List Char) :
    ReadsAll R close
      ('\n' :: ([',', '\n'].intercalate (es.map text) ++ '\n' :: (ws ++ close :: tail)))
      (es.map val) tail := by
  by_cases hne : es = []
  · subst hne
    exact .inl ⟨rfl, skip_newline_blanks hclose hws tail⟩
  · refine .inr ?_
    rw [← cons_append, newline_intercalate (mt List.map_eq_nil_iff.1 hne), map_map]
    exact readsSeq_intercalate h hne hclose hws hok tail

theorem ok_of_readsAll (hR : ∀ s a rest rest', R s a rest → R s a rest' → rest = rest')
    (ws tail rest : List Char) (hread : ReadsAll R close
      ('\n' :: ([',', '\n'].intercalate (es.map text) ++ '\n' :: (ws ++ close :: tail)))
      (es.map val) rest) : ∀ e ∈ es, ok e := by
  by_cases hne : es = []
  · subst hne
    exact fun _ hmem => absurd hmem not_mem_nil
  · rcases hread with ⟨hnil, -⟩ | hread
    · exact absurd (List.map_eq_nil_iff.1 hnil) hne
    · rw [← cons_append, newline_intercalate (mt List.map_eq_nil_iff.1 hne),
        map_map] at hread
      exact ok_of_readsSeq h hne hR hread

end Sequences

/-! ### Arrays -/

def ReadsItem (s : List Char) (v : Json) (rest : List Char) : Prop := Reads .value (skip s) v rest

theorem reads_items_iff {s rest : List Char} {vs : List Json} :
    Reads .items s (.arr vs) rest ↔ ReadsSeq ReadsItem ']' s vs rest := by
  induction vs generalizing s with
  | nil =>
    constructor
    · intro h
      cases h
    · intro h
      cases h
  | cons v vs ih =>
    constructor
    · intro h
      cases h with
      | lastItem hv hclose => exact .last hv hclose
      | item hv hcomma hvs => exact .next hv hcomma (ih.1 hvs)
    · intro h
      cases h with
      | last hv hclose => exact .lastItem hv hclose
      | next hv hcomma hvs => exact .item hv hcomma (ih.2 hvs)

theorem PrintsIff.elementIff {t : List Char} {v : Json} {ok : Prop} (h : PrintsIff t v ok) :
    ElementIff ReadsItem t v ok where
  reads hok tail hstops := by
    rw [ReadsItem, h.skip_append]
    exact h.reads hok tail hstops
  only tail rest hstops hread := by
    rw [ReadsItem, h.skip_append] at hread
    exact h.only tail rest hstops hread

theorem reads_arr_iff {s rest : List Char} {vs : List Json} :
    Reads .value ('[' :: s) (.arr vs) rest ↔ ReadsAll ReadsItem ']' s vs rest := by
  constructor
  · intro h
    cases h with
    | noItems hclose => exact .inl ⟨rfl, hclose⟩
    | arr h => exact .inr (reads_items_iff.1 h)
  · rintro (⟨rfl, hclose⟩ | h)
    · exact .noItems hclose
    · exact .arr (reads_items_iff.2 h)

theorem printsIff_arr {α : Type*} (es : List α) {text : α → List Char} {val : α → Json}
    {ok : α → Prop} (h : ∀ e ∈ es, PrintsIff (text e) (val e) (ok e)) {indent ws : List Char}
    (hindent : ∀ c ∈ indent, isBlank c = true) (hws : ∀ c ∈ ws, isBlank c = true) :
    PrintsIff ('[' :: '\n' :: ([',', '\n'].intercalate (es.map fun e => indent ++ text e) ++
      '\n' :: (ws ++ [']']))) (.arr (es.map val)) (∀ e ∈ es, ok e) := by
  have hitems : ∀ e ∈ es, ElementIff ReadsItem ('\n' :: (indent ++ text e)) (val e) (ok e) := by
    intro e he
    have hlead : ∀ c ∈ '\n' :: indent, isBlank c = true :=
      List.forall_mem_cons.2 ⟨rfl, hindent⟩
    refine (h e he).elementIff.blanks_append ?_ hlead
    intro s s' v rest hskip hread
    rwa [ReadsItem, ← hskip]
  refine ⟨⟨_, _, rfl, rfl⟩, ?_, ?_⟩
  · intro hok tail _
    have hread := readsAll_lines ']' hitems rfl hws hok tail
    simpa using reads_arr_iff.2 hread
  · intro tail rest _ hread
    refine ok_of_readsAll ']' hitems ?_ ws tail rest (reads_arr_iff.1 ?_)
    · intro s v rest rest' hread hread'
      exact (hread.unique hread').2
    · simpa using hread

/-! ### Objects -/

def ReadsMember (s : List Char) (m : List Char × Json) (rest : List Char) : Prop :=
  ∃ s₁ s₂ s₃, skip s = '"' :: s₁ ∧ ReadsString s₁ m.1 s₂ ∧ skip s₂ = ':' :: s₃ ∧
    Reads .value (skip s₃) m.2 rest

theorem ReadsMember.unique {s rest rest' : List Char} {m : List Char × Json}
    (h : ReadsMember s m rest) (h' : ReadsMember s m rest') : rest = rest' := by
  obtain ⟨s₁, s₂, s₃, hquote, hkey, hcolon, hv⟩ := h
  obtain ⟨s₁', s₂', s₃', hquote', hkey', hcolon', hv'⟩ := h'
  obtain ⟨-, rfl⟩ := key_unique hquote hkey hcolon hquote' hkey' hcolon'
  exact (hv.unique hv').2

theorem reads_members_iff {s rest : List Char} {ms : List (List Char × Json)} :
    Reads .members s (.obj ms) rest ↔ ReadsSeq ReadsMember '\x7d' s ms rest := by
  induction ms generalizing s with
  | nil =>
    constructor
    · intro h
      cases h
    · intro h
      cases h
  | cons m ms ih =>
    constructor
    · intro h
      cases h with
      | lastMember hquote hkey hcolon hv hclose =>
        exact .last ⟨_, _, _, hquote, hkey, hcolon, hv⟩ hclose
      | member hquote hkey hcolon hv hcomma hms =>
        exact .next ⟨_, _, _, hquote, hkey, hcolon, hv⟩ hcomma (ih.1 hms)
    · intro h
      cases h with
      | last hm hclose =>
        obtain ⟨_, _, _, hquote, hkey, hcolon, hv⟩ := hm
        exact .lastMember hquote hkey hcolon hv hclose
      | next hm hcomma hms =>
        obtain ⟨_, _, _, hquote, hkey, hcolon, hv⟩ := hm
        exact .member hquote hkey hcolon hv hcomma (ih.2 hms)

theorem reads_obj_iff {s rest : List Char} {ms : List (List Char × Json)} :
    Reads .value ('\x7b' :: s) (.obj ms) rest ↔ ReadsAll ReadsMember '\x7d' s ms rest := by
  constructor
  · intro h
    cases h with
    | noMembers hclose => exact .inl ⟨rfl, hclose⟩
    | obj h => exact .inr (reads_members_iff.1 h)
  · rintro (⟨rfl, hclose⟩ | h)
    · exact .noMembers hclose
    · exact .obj (reads_members_iff.2 h)

def memberText (raw t : List Char) : List Char := '"' :: (raw ++ '"' :: ':' :: ' ' :: t)

theorem memberText_append (raw t tail : List Char) :
    memberText raw t ++ tail = '"' :: (raw ++ '"' :: ':' :: ' ' :: (t ++ tail)) := by
  simp [memberText]

theorem elementIff_member {raw key t : List Char} {v : Json} {okKey ok : Prop}
    (hkey : SpellsIff raw key okKey) (h : PrintsIff t v ok) :
    ElementIff ReadsMember (memberText raw t) (key, v) (okKey ∧ ok) where
  reads hok tail hstops := by
    rw [memberText_append]
    refine ⟨_, ':' :: ' ' :: (t ++ tail), ' ' :: (t ++ tail), rfl, hkey.reads hok.1 _, rfl, ?_⟩
    have hblank : skip (' ' :: (t ++ tail)) = t ++ tail := h.skip_append tail
    rw [hblank]
    exact h.reads hok.2 tail hstops
  only tail rest hstops hread := by
    rw [memberText_append] at hread
    obtain ⟨s₁, s₂, s₃, hquote, hread, hcolon, hv⟩ := hread
    obtain rfl := (List.cons.inj hquote).2
    have hok := hkey.only _ _ hread
    obtain ⟨-, rfl⟩ := hread.unique (hkey.reads hok _)
    obtain rfl := (List.cons.inj hcolon).2
    have hblank : skip (' ' :: (t ++ tail)) = t ++ tail := h.skip_append tail
    rw [hblank] at hv
    exact ⟨hok, h.only tail rest hstops hv⟩

/-- An object is read if all members are. -/
theorem printsIff_obj {α : Type*} (es : List α) {raw key text : α → List Char} {val : α → Json}
    {okKey ok : α → Prop} (hkey : ∀ e ∈ es, SpellsIff (raw e) (key e) (okKey e))
    (h : ∀ e ∈ es, PrintsIff (text e) (val e) (ok e)) {indent ws : List Char}
    (hindent : ∀ c ∈ indent, isBlank c = true) (hws : ∀ c ∈ ws, isBlank c = true) :
    PrintsIff ('\x7b' :: '\n' ::
        ([',', '\n'].intercalate (es.map fun e => indent ++ memberText (raw e) (text e)) ++
          '\n' :: (ws ++ ['\x7d'])))
      (.obj (es.map fun e => (key e, val e))) (∀ e ∈ es, okKey e ∧ ok e) := by
  have hmembers : ∀ e ∈ es, ElementIff ReadsMember
      ('\n' :: (indent ++ memberText (raw e) (text e))) (key e, val e) (okKey e ∧ ok e) := by
    intro e he
    have hlead : ∀ c ∈ '\n' :: indent, isBlank c = true :=
      List.forall_mem_cons.2 ⟨rfl, hindent⟩
    refine (elementIff_member (hkey e he) (h e he)).blanks_append ?_ hlead
    rintro s s' m rest hskip ⟨s₁, s₂, s₃, hquote, hread⟩
    exact ⟨s₁, s₂, s₃, hskip ▸ hquote, hread⟩
  refine ⟨⟨_, _, rfl, rfl⟩, ?_, ?_⟩
  · intro hok tail _
    have hread := readsAll_lines '\x7d' hmembers rfl hws hok tail
    simpa using reads_obj_iff.2 hread
  · intro tail rest _ hread
    refine ok_of_readsAll '\x7d' hmembers ?_ ws tail rest (reads_obj_iff.1 ?_)
    · intro s m rest rest' hread hread'
      exact hread.unique hread'
    · simpa using hread

theorem not_reads_comma {s rest : List Char} {v : Json} :
    ¬Reads .value ('\x7b' :: '\n' :: ',' :: s) v rest := by
  intro h
  cases h with
  | num h => exact absurd rfl (ne_of_readNumber h).2.2.2.2.2
  | noMembers hclose => cases hclose
  | obj h =>
    cases h with
    | lastMember hquote => cases hquote
    | member hquote => cases hquote

theorem printsIff_comma {s : List Char} {v : Json} :
    PrintsIff ('\x7b' :: '\n' :: ',' :: s) v False where
  not_blank := ⟨_, _, rfl, rfl⟩
  reads h := h.elim
  only _ _ _ hread := not_reads_comma hread

theorem Reads.first_member {raw ws t rest : List Char} {v : Json}
    (h : Reads .value ('\x7b' :: '\n' :: (ws ++ memberText raw t)) v rest)
    (hws : ∀ c ∈ ws, isBlank c = true) (hraw : Plain raw) :
    ∃ v' rest', Reads .value (skip t) v' rest' := by
  have hstart : skip ('\n' :: (ws ++ memberText raw t)) = memberText raw t := by
    have hlead : skip ('\n' :: (ws ++ memberText raw t)) = skip (ws ++ memberText raw t) := rfl
    rw [hlead, skip_append hws]
    rfl
  have hvalue : ∀ {s₁ s₂ s₃ k s₄ : List Char} {v' : Json},
      skip ('\n' :: (ws ++ memberText raw t)) = '"' :: s₁ → ReadsString s₁ k s₂ →
        skip s₂ = ':' :: s₃ → Reads .value (skip s₃) v' s₄ →
          ∃ v' rest', Reads .value (skip t) v' rest' := by
    intro s₁ s₂ s₃ k s₄ v' hquote hkey hcolon hv
    obtain ⟨-, rfl⟩ := key_unique hstart (hraw.reads (':' :: ' ' :: t)) rfl hquote hkey hcolon
    exact ⟨v', s₄, hv⟩
  cases h with
  | num h => exact absurd rfl (ne_of_readNumber h).2.2.2.2.2
  | noMembers hclose =>
    rw [hstart] at hclose
    cases hclose
  | obj h =>
    cases h with
    | lastMember hquote hkey hcolon hv => exact hvalue hquote hkey hcolon hv
    | member hquote hkey hcolon hv => exact hvalue hquote hkey hcolon hv

/-! ## Items of which some are left out -/

def commaItems (index : ℕ) : List (Option (List Char)) → List Char
  | [] => []
  | none :: items => commaItems (index + 1) items
  | some t :: items => (if 0 < index then [',', '\n'] else []) ++ t ++ commaItems (index + 1) items

theorem commaItems_succ (index : ℕ) (items : List (Option (List Char))) :
    commaItems (index + 1) items = (items.filterMap id).flatMap ([',', '\n'] ++ ·) := by
  induction items generalizing index with
  | nil => rfl
  | cons item items ih =>
    cases item with
    | none =>
      rw [commaItems, ih]
      rfl
    | some t =>
      rw [commaItems, ih, if_pos (Nat.succ_pos index)]
      rfl

theorem intercalate_cons (ts : List (List Char)) (t : List Char) :
    [',', '\n'].intercalate (t :: ts) = t ++ ts.flatMap ([',', '\n'] ++ ·) := by
  induction ts generalizing t with
  | nil => simp
  | cons t' ts ih =>
    rw [List.intercalate_cons_cons, ih, flatMap_cons]
    simp

theorem commaItems_zero (items : List (Option (List Char))) :
    commaItems 0 items =
      if items.head? = some none ∧ items.filterMap id ≠ [] then
        ',' :: '\n' :: [',', '\n'].intercalate (items.filterMap id)
      else [',', '\n'].intercalate (items.filterMap id) := by
  match items with
  | [] => rfl
  | some t :: items =>
    rw [commaItems, commaItems_succ, if_neg (Nat.lt_irrefl 0), if_neg (by simp)]
    exact (intercalate_cons _ _).symm
  | none :: items =>
    rw [commaItems, commaItems_succ]
    have hfilter : (none :: items).filterMap id = items.filterMap id := rfl
    rw [hfilter]
    cases items.filterMap id with
    | nil => simp
    | cons t ts => simp [intercalate_cons]

/-- An object with commas in front is read if all members are. -/
theorem printsIff_commaObj {α β : Type*} (es : List α) {f : α → Option β}
    {raw key text : β → List Char} {val : β → Json} {okKey ok : β → Prop}
    (hkey : ∀ b ∈ es.filterMap f, SpellsIff (raw b) (key b) (okKey b))
    (h : ∀ b ∈ es.filterMap f, PrintsIff (text b) (val b) (ok b)) {indent ws : List Char}
    (hindent : ∀ c ∈ indent, isBlank c = true) (hws : ∀ c ∈ ws, isBlank c = true) :
    PrintsIff ('\x7b' :: '\n' ::
        (commaItems 0 (es.map fun a => (f a).map fun b => indent ++ memberText (raw b) (text b)) ++
          '\n' :: (ws ++ ['\x7d'])))
      (.obj ((es.filterMap f).map fun b => (key b, val b)))
      ((∀ a, es.head? = some a → f a = none → es.filterMap f = []) ∧
        ∀ b ∈ es.filterMap f, okKey b ∧ ok b) := by
  have hitems : (es.map fun a => (f a).map fun b => indent ++ memberText (raw b) (text b)).filterMap
      id = (es.filterMap f).map fun b => indent ++ memberText (raw b) (text b) := by
    rw [filterMap_map, map_filterMap]
    rfl
  rw [commaItems_zero, hitems]
  split_ifs with hleading
  · refine printsIff_comma.iff ⟨False.elim, fun hok => ?_⟩
    obtain ⟨hhead, hne⟩ := hleading
    rw [head?_map] at hhead
    obtain ⟨a, ha, hfa⟩ := Option.map_eq_some_iff.1 hhead
    exact hne (List.map_eq_nil_iff.2 (hok.1 a ha (Option.map_eq_none_iff.1 hfa)))
  · refine (printsIff_obj _ hkey h hindent hws).iff ⟨fun hok => ⟨fun a ha hfa => ?_, hok⟩, And.right⟩
    by_contra hne
    refine hleading ⟨?_, mt List.map_eq_nil_iff.1 hne⟩
    rw [head?_map, ha, Option.map_some, hfa]
    rfl

end JsonText

end Gargoyle
