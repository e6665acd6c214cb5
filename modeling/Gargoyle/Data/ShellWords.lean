import Mathlib.Data.List.Basic
import Mathlib.Data.Option.Basic

/-!
# Words of a shell script

A shell takes a script apart into commands, and each command into words. Single quotes keep all that
is between them, line ends too, and a backslash outside of them keeps the next character. What
needs more of the shell than this, such as a variable, is no script here.

A text without quotes comes through in single quotes; a quote in it has to be written outside of
them.
-/

namespace Gargoyle

namespace ShellWords

def isSpecial (c : Char) : Bool :=
  c ∈ ['"', '$', '\x60', ';', '&', '|', '<', '>', '(', ')', '#', '*', '?', '[', ']', '~', '!',
    '\x7b', '\x7d']

def consCommand (words : List (List Char)) (commands : List (List (List Char))) :
    List (List (List Char)) :=
  if words = [] then commands else words :: commands

/-- The commands of a script: `quoted` tells whether a quote is open, `word` is the word that has
been begun, and `words` are the words of the command before it. -/
@[simp] def commandsFrom : (quoted : Bool) → (word : Option (List Char)) → (words : List (List Char)) →
    List Char → Option (List (List (List Char)))
  | true, _, _, [] => none
  | true, word, words, c :: cs =>
    if c = '\'' then commandsFrom false word words cs
    else commandsFrom true (some (word.getD [] ++ [c])) words cs
  | false, word, words, [] => some (consCommand (words ++ word.toList) [])
  | false, word, words, '\\' :: c :: cs =>
    if c = '\n' then commandsFrom false word words cs
    else commandsFrom false (some (word.getD [] ++ [c])) words cs
  | false, word, words, c :: cs =>
    if c = '\'' then commandsFrom true (some (word.getD [])) words cs
    else if c = '\n' then
      (consCommand (words ++ word.toList)) <$> commandsFrom false none [] cs
    else if c = ' ' ∨ c = '\t' then commandsFrom false none (words ++ word.toList) cs
    else if isSpecial c then none
    else commandsFrom false (some (word.getD [] ++ [c])) words cs

def commands (script : List Char) : Option (List (List (List Char))) :=
  commandsFrom false none [] script

def Plain (t : List Char) : Prop :=
  ∀ c ∈ t, c ≠ '\'' ∧ c ≠ '\\' ∧ c ≠ '\n' ∧ c ≠ ' ' ∧ c ≠ '\t' ∧ isSpecial c = false

def escape (t : List Char) : List Char :=
  t.flatMap fun c => if c = '\'' then ['\'', '\\', '\'', '\''] else [c]

variable {t rest : List Char} {word : Option (List Char)} {words : List (List Char)}

theorem commandsFrom_plain (ht : Plain t) (hne : t ≠ []) :
    commandsFrom false word words (t ++ rest) =
      commandsFrom false (some (word.getD [] ++ t)) words rest := by
  induction t generalizing word with
  | nil => exact absurd rfl hne
  | cons c t ih =>
    obtain ⟨⟨hquote, hback, hline, hblank, htab, hspecial⟩, ht⟩ := List.forall_mem_cons.1 ht
    have hstep : commandsFrom false word words (c :: (t ++ rest)) =
        commandsFrom false (some (word.getD [] ++ [c])) words (t ++ rest) := by
      rw [commandsFrom.eq_5 _ _ _ _ fun _ _ h _ => hback h]
      simp [hquote, hline, hblank, htab, hspecial]
    rw [List.cons_append, hstep]
    cases t with
    | nil => rfl
    | cons d t =>
      rw [ih ht (List.cons_ne_nil d t)]
      simp

theorem commandsFrom_blank :
    commandsFrom false word words (' ' :: rest) =
      commandsFrom false none (words ++ word.toList) rest := by
  simp [commandsFrom]

theorem commandsFrom_line :
    commandsFrom false word words ('\n' :: rest) =
      (consCommand (words ++ word.toList)) <$> commands rest := by
  simp [commandsFrom, commands]

theorem commandsFrom_quoted (word : List Char) :
    commandsFrom false (some word) words ('\'' :: (escape t ++ '\'' :: rest)) =
      commandsFrom false (some (word ++ t)) words rest := by
  have hopen : ∀ word : List Char, commandsFrom true (some word) words (escape t ++ '\'' :: rest) =
      commandsFrom false (some (word ++ t)) words rest := by
    induction t with
    | nil => simp [escape, commandsFrom]
    | cons c t ih =>
      intro word
      rw [escape, List.flatMap_cons, ← escape, List.append_assoc]
      split_ifs with hc
      · simp [commandsFrom, ih, hc]
      · simp [commandsFrom, ih, hc]
  have hquote : commandsFrom false (some word) words ('\'' :: (escape t ++ '\'' :: rest)) =
      commandsFrom true (some word) words (escape t ++ '\'' :: rest) := by
    simp [commandsFrom]
  rw [hquote, hopen]

end ShellWords

end Gargoyle
