import Mathlib.Data.List.Basic
import Mathlib.Data.Option.Basic

/-!
# Tokens of a script

A script of a page is read character by character: words, signs, and texts in quotes of both kinds.
A text may not have an end of line in it, and a backslash begins an escape. What needs more of the
language than this, such as an escape with a number, is no script here.

The other way round, a text can be written in double quotes with two replacements, as long as it
has no end of line in it.
-/

namespace Gargoyle

open List

namespace ScriptTokens

/-! ## Reading -/

inductive Token
  | word (t : List Char)
  | text (t : List Char)
  | sign (c : Char)
  deriving DecidableEq

inductive Mode
  | between
  | word (t : List Char)
  | quoted (quote : Char) (t : List Char)
  | escaped (quote : Char) (t : List Char)
  deriving DecidableEq

structure Reader where
  tokens : List Token
  mode : Mode
  deriving DecidableEq

def isWordChar (c : Char) : Bool := c.isAlphanum || c = '_' || c = '$'

def isBlank (c : Char) : Bool := c = ' ' || c = '\t' || c = '\n' || c = '\r'

def isSign (c : Char) : Bool := c = '.' || c = ',' || c = ';' || c = '=' || c = '(' || c = ')'

def isLineEnd (c : Char) : Bool := c = '\n' || c = '\r'

def escapedChar (c : Char) : Option (List Char) :=
  if c = 'n' then some ['\n']
  else if c = 'r' then some ['\r']
  else if c = 't' then some ['\t']
  else if c = 'b' then some ['\x08']
  else if c = 'v' then some ['\x0b']
  else if c = 'f' then some ['\x0c']
  else if c = '\n' then some []
  else if c = '\r' || c = 'x' || c = 'u' || c.isDigit then none
  else some [c]

namespace Reader

def start (tokens : List Token) (c : Char) : Option Reader :=
  if isBlank c then some ⟨tokens, .between⟩
  else if isWordChar c then some ⟨tokens, .word [c]⟩
  else if c = '"' || c = '\'' then some ⟨tokens, .quoted c []⟩
  else if isSign c then some ⟨tokens ++ [.sign c], .between⟩
  else none

def step (r : Reader) (c : Char) : Option Reader :=
  match r.mode with
  | .between => start r.tokens c
  | .word t => if isWordChar c then some ⟨r.tokens, .word (t ++ [c])⟩
      else start (r.tokens ++ [.word t]) c
  | .quoted quote t =>
    if c = quote then some ⟨r.tokens ++ [.text t], .between⟩
    else if c = '\\' then some ⟨r.tokens, .escaped quote t⟩
    else if isLineEnd c then none
    else some ⟨r.tokens, .quoted quote (t ++ [c])⟩
  | .escaped quote t => (escapedChar c).map fun s => ⟨r.tokens, .quoted quote (t ++ s)⟩

def read (r : Reader) (t : List Char) : Option Reader := t.foldlM step r

def finish (r : Reader) : Option (List Token) :=
  match r.mode with
  | .between => some r.tokens
  | .word t => some (r.tokens ++ [.word t])
  | .quoted .. | .escaped .. => none

end Reader

def tokens (script : List Char) : Option (List Token) :=
  ((⟨[], .between⟩ : Reader).read script).bind Reader.finish

namespace Reader

variable {r : Reader} {ts : List Token} {quote : Char} {u : List Char}

theorem read_nil : r.read [] = some r := rfl

theorem read_cons (c : Char) (t : List Char) : r.read (c :: t) = (r.step c).bind (·.read t) := rfl

theorem read_append (s t : List Char) : r.read (s ++ t) = (r.read s).bind (·.read t) :=
  foldlM_append

theorem read_plain {t : List Char} (h : ∀ c ∈ t, c ≠ quote ∧ c ≠ '\\' ∧ isLineEnd c = false) :
    (⟨ts, .quoted quote u⟩ : Reader).read t = some ⟨ts, .quoted quote (u ++ t)⟩ := by
  induction t generalizing u with
  | nil => rw [read_nil, List.append_nil]
  | cons c t ih =>
    obtain ⟨⟨hquote, hback, hline⟩, ht⟩ := List.forall_mem_cons.1 h
    have hstep : (⟨ts, .quoted quote u⟩ : Reader).step c = some ⟨ts, .quoted quote (u ++ [c])⟩ := by
      simp [step, hquote, hback, hline]
    rw [read_cons, hstep, Option.bind_some, ih ht, append_assoc, singleton_append]

theorem read_blank {c : Char} (hc : isBlank c = true) (rest : List Char) :
    (⟨ts, .between⟩ : Reader).read (c :: rest) = (⟨ts, .between⟩ : Reader).read rest := by
  simp [read_cons, step, start, hc]

theorem read_sign {c : Char} (hc : isSign c = true) (rest : List Char) :
    (⟨ts, .between⟩ : Reader).read (c :: rest) =
      (⟨ts ++ [.sign c], .between⟩ : Reader).read rest := by
  have hstart : start ts c = some ⟨ts ++ [.sign c], .between⟩ := by
    simp only [isSign, Bool.or_eq_true, decide_eq_true_eq] at hc
    rcases hc with ((((rfl | rfl) | rfl) | rfl) | rfl) | rfl <;>
      simp [start, isBlank, isWordChar, isSign]
  rw [read_cons, step, hstart, Option.bind_some]

theorem read_quote (rest : List Char) :
    (⟨ts, .between⟩ : Reader).read ('\'' :: rest) =
      (⟨ts, .quoted '\'' []⟩ : Reader).read rest := by
  have hstart : start ts '\'' = some ⟨ts, .quoted '\'' []⟩ := by
    simp [start, isBlank, isWordChar]
  rw [read_cons, step, hstart, Option.bind_some]

theorem read_wordChars {u w : List Char} (hw : w.all isWordChar = true) :
    (⟨ts, .word u⟩ : Reader).read w = some ⟨ts, .word (u ++ w)⟩ := by
  induction w generalizing u with
  | nil => rw [read_nil, List.append_nil]
  | cons c w ih =>
    rw [all_cons, Bool.and_eq_true] at hw
    have hstep : (⟨ts, .word u⟩ : Reader).step c = some ⟨ts, .word (u ++ [c])⟩ := by
      simp [step, hw.1]
    rw [read_cons, hstep, Option.bind_some, ih hw.2, append_assoc, singleton_append]

theorem read_word {w : List Char} {c : Char} (hne : w ≠ []) (hw : w.all isWordChar = true)
    (hc : isWordChar c = false) (rest : List Char) :
    (⟨ts, .between⟩ : Reader).read (w ++ c :: rest) =
      (⟨ts ++ [.word w], .between⟩ : Reader).read (c :: rest) := by
  obtain ⟨d, w, rfl⟩ := exists_cons_of_ne_nil hne
  rw [all_cons, Bool.and_eq_true] at hw
  have hnotBlank : isBlank d = false := by
    by_contra hblank
    simp only [isBlank, Bool.or_eq_true, decide_eq_true_eq, Bool.not_eq_false] at hblank
    rcases hblank with ((rfl | rfl) | rfl) | rfl <;> exact absurd hw.1 (by decide)
  have hstart : (⟨ts, .between⟩ : Reader).step d = some ⟨ts, .word [d]⟩ := by
    simp [step, start, hw.1, hnotBlank]
  rw [cons_append, read_cons, hstart, Option.bind_some, read_append, read_wordChars hw.2,
    Option.bind_some, singleton_append, read_cons, read_cons]
  simp [step, hc]

end Reader

/-! ## Writing -/

def replaceChar (c : Char) (s t : List Char) : List Char :=
  t.flatMap fun d => if d = c then s else [d]

def escape (t : List Char) : List Char :=
  replaceChar '"' ['\\', '"'] (replaceChar '\\' ['\\', '\\'] t)

theorem escape_cons (c : Char) (t : List Char) :
    escape (c :: t) =
      (if c = '\\' then ['\\', '\\'] else if c = '"' then ['\\', '"'] else [c]) ++
        escape t := by
  rw [escape, replaceChar, replaceChar, flatMap_cons, flatMap_append]
  split_ifs with hback hquote
  · rfl
  · simp [hquote, escape, replaceChar]
  · simp [hquote, escape, replaceChar]

theorem escape_of_plain {t : List Char} (h : ∀ c ∈ t, c ≠ '\\' ∧ c ≠ '"') : escape t = t := by
  induction t with
  | nil => rfl
  | cons c t ih =>
    obtain ⟨⟨hback, hquote⟩, ht⟩ := List.forall_mem_cons.1 h
    rw [escape_cons, if_neg hback, if_neg hquote, ih ht, singleton_append]

/-- An escaped text is read back, unless it has a line break. -/
theorem read_escape (ts : List Token) (u t : List Char) :
    (⟨ts, .quoted '"' u⟩ : Reader).read (escape t) =
      if t.any isLineEnd then none else some ⟨ts, .quoted '"' (u ++ t)⟩ := by
  induction t generalizing u with
  | nil => simp [escape, replaceChar, Reader.read_nil]
  | cons c t ih =>
    rw [escape_cons, Reader.read_append, any_cons]
    -- an escape is a character with a backslash before it; an end of line is no escape
    have hnext : (⟨ts, .quoted '"' u⟩ : Reader).read
        (if c = '\\' then ['\\', '\\'] else if c = '"' then ['\\', '"'] else [c]) =
          if isLineEnd c then none else some ⟨ts, .quoted '"' (u ++ [c])⟩ := by
      split_ifs with hback hline hquote hline hline
      · exact absurd hline (by rw [hback]; decide)
      · rw [hback]
        rfl
      · exact absurd hline (by rw [hquote]; decide)
      · rw [hquote]
        rfl
      · simp [Reader.read_cons, Reader.step, hback, hquote, hline]
      · simp [Reader.read_cons, Reader.read_nil, Reader.step, hback, hquote, hline]
    rw [hnext]
    by_cases hline : isLineEnd c = true
    · simp [hline]
    · rw [if_neg hline, Option.bind_some, ih]
      simp [hline]

end ScriptTokens

end Gargoyle
