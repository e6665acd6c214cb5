import Gargoyle.Data.ShellWords
import Gargoyle.Timerange.Text
import Gargoyle.Web.UciRun

/-!
# The script that saves a page

`getScriptCommands` compares the configuration of a page with the one that it was loaded with, and
writes a script of `uci` commands. The first loop deletes what has gone, and lists and values
that become each other; the second one sets values and fills lists.

The store is what `uci` makes of the commands: it has types of sections, and options that are texts
or lists. A section is deleted with its options, and an option is set only if its section is
there; the empty text deletes.
-/

namespace Gargoyle

open Function (update update_of_ne update_eq_self)

namespace Web

open OrderedMap ShellWords

/-! ## The script -/

inductive UciCommand
  | del (key : List Char)
  | set (key value : List Char)
  | addList (key value : List Char)

def UciCommand.text : UciCommand → List Char
  | del key => "uci del ".toList ++ key
  | set key value => "uci set ".toList ++ (key ++ '=' :: '\'' :: (escape value ++ ['\'']))
  | addList key value => "uci add_list ".toList ++ (key ++ '=' :: '\'' :: (escape value ++ ['\'']))

theorem UciCommand.text_del (key : List Char) : (del key).text = "uci del ".toList ++ key :=
  rfl

theorem UciCommand.text_set (key value : List Char) :
    (set key value).text =
      "uci set ".toList ++ (key ++ '=' :: '\'' :: (escape value ++ ['\''])) :=
  rfl

theorem UciCommand.text_addList (key value : List Char) :
    (addList key value).text =
      "uci add_list ".toList ++ (key ++ '=' :: '\'' :: (escape value ++ ['\''])) :=
  rfl

/-- `==` for values. Two arrays are equal if they are one and the same. -/
def Value.looseEq : Value → Value → Bool
  | .str s, .str t => s = t
  | .str s, .arr ws => s = Value.text (.arr ws)
  | .arr vs, .str t => Value.text (.arr vs) = t
  | .arr _, .arr _ => false

def sameItems (vs ws : List Value) : Bool :=
  vs.length = ws.length && (vs.zip ws).all fun p => p.1.looseEq p.2

def isEmptyValue : Option Value → Bool
  | none => true
  | some v => v.text = []

def needsDel (oldValue newValue : Option Value) : Bool :=
  match oldValue, newValue with
  | some (.arr vs), some (.arr ws) => !sameItems vs ws
  | some (.arr _), _ => true
  | _, some (.arr _) => true
  | oldValue, newValue => isEmptyValue newValue && !isEmptyValue oldValue

/-- The commands of the second loop for a key. A list that has not been deleted
(`listsWithoutUpdates`) is left as it is. -/
def updates (key : List Char) (oldValue : Option Value) (newValue : Value) : List UciCommand :=
  match oldValue, newValue with
  | some (.arr vs), .arr ws =>
    if sameItems vs ws then [] else ws.map fun v => .addList key v.text
  | _, .arr ws => ws.map fun v => .addList key v.text
  | some (.arr _), .str s => [.set key s]
  | some (.str t), .str s => if t ≠ s ∧ s ≠ [] then [.set key s] else []
  | none, .str s => if s ≠ [] then [.set key s] else []

namespace UciContainer

def scriptCommands (c oldSettings : UciContainer) : List UciCommand :=
  (oldSettings.keys.filter fun key => needsDel (oldSettings.values key) (c.values key)).map .del ++
    c.keys.flatMap fun key =>
      ((c.values key).map fun newValue => updates key (oldSettings.values key) newValue).getD []

def getScriptCommands (c oldSettings : UciContainer) : List Char :=
  ['\n'].intercalate ((c.scriptCommands oldSettings).map UciCommand.text ++ ["uci commit".toList])

end UciContainer

/-! ## The store -/

inductive Stored
  | str (s : List Char)
  | list (ss : List (List Char))

def Stored.items : Stored → List (List Char)
  | .str s => [s]
  | .list ss => ss

abbrev UciStore := Key → Option Stored

def Key.sectionKey (k : Key) : Key := ⟨k.pkg, k.section_, none⟩

namespace UciStore

variable (s : UciStore)

/-- `uci del`. -/
def del (k : Key) : UciStore := fun k' =>
  if k' = k ∨ k = k'.sectionKey then none else s k'

/-- `uci set`. -/
def set (k : Key) (value : List Char) : UciStore :=
  if k.option ≠ none ∧ (s k.sectionKey).isNone then s
  else if value = [] then s.del k
  else update s k (some (.str value))

/-- `uci add_list`. -/
def addList (k : Key) (value : List Char) : UciStore :=
  if k.option = none ∨ (s k.sectionKey).isNone then s
  else update s k (some (.list (((s k).map Stored.items).getD [] ++ [value])))

/-- A name that `uci` accepts. -/
def parseName (t : List Char) : Option Name :=
  if h : t ≠ [] ∧ t.all isNameChar = true then some ⟨t, h.1, List.all_eq_true.1 h.2⟩ else none

def parseKey (t : List Char) : Option Key :=
  match t.splitOn '.' with
  | [p, s] => do some ⟨← parseName p, ← parseName s, none⟩
  | [p, s, o] => do some ⟨← parseName p, ← parseName s, some (← parseName o)⟩
  | _ => none

/-- A command, by its words. `uci commit` writes the changes that have been made. -/
def exec : List (List Char) → UciStore
  | [program, command, argument] =>
    if program ≠ "uci".toList then s
    else
      let value := (argument.dropWhile (· ≠ '=')).tail
      match parseKey (argument.takeWhile (· ≠ '=')) with
      | none => s
      | some k =>
        if command = "del".toList then s.del k
        else if command = "set".toList then s.set k value
        else if command = "add_list".toList then s.addList k value
        else s
  | _ => s

end UciStore

def Value.stored : Value → Option Stored
  | .str [] => none
  | .str s => some (.str s)
  | .arr [] => none
  | .arr vs => some (.list (vs.map Value.text))

def UciContainer.store (c : UciContainer) : UciStore := fun k =>
  (c.get k.pkg.chars k.section_.chars k.optionText).stored

structure Sectioned (c : UciContainer) : Prop where
  type : ∀ k : Key, k.option = none → k.text ∈ c.keys →
    ∃ t ≠ [], c.get k.pkg.chars k.section_.chars k.optionText = .str t
  preceded : ∀ (k : Key) (before after : List (List Char)), k.option ≠ none →
    c.keys = before ++ k.text :: after → k.sectionKey.text ∈ before

/-!
## The script brings the store to the new configuration

A command changes one key, or deletes a section. After the first loop the store has, of the old
configuration, what the new one keeps. The second loop goes through the keys in their order, so
that a section is there before its options are set.
-/

/-! ### From the script to commands -/

section Shell

def UciCommand.words : UciCommand → List (List Char)
  | .del key => ["uci".toList, "del".toList, key]
  | .set key value => ["uci".toList, "set".toList, key ++ '=' :: value]
  | .addList key value => ["uci".toList, "add_list".toList, key ++ '=' :: value]

def UciCommand.key : UciCommand → List Char
  | .del key => key
  | .set key _ => key
  | .addList key _ => key

theorem plain_of_isNameChar {c : Char} (h : isNameChar c = true ∨ c = '.') :
    c ≠ '\'' ∧ c ≠ '\\' ∧ c ≠ '\n' ∧ c ≠ ' ' ∧ c ≠ '\t' ∧ isSpecial c = false ∧ c ≠ '=' := by
  have hne : ∀ d, isNameChar d = false → d ≠ '.' → c ≠ d := by
    rintro d hd hdot rfl
    rcases h with h | h
    · rw [hd] at h
      exact absurd h (by decide)
    · exact hdot h
  have hspecial : isSpecial c = false := by
    have hnot : ∀ d, isSpecial d = true → isNameChar d = false ∧ d ≠ '.' := by
      intro d hd
      simp only [isSpecial, decide_eq_true_eq, List.mem_cons, List.not_mem_nil, or_false] at hd
      rcases hd with rfl | rfl | rfl | rfl | rfl | rfl | rfl | rfl | rfl | rfl | rfl | rfl | rfl |
        rfl | rfl | rfl | rfl | rfl | rfl <;> decide
    rw [← Bool.not_eq_true]
    exact fun hs => hne c (hnot c hs).1 (hnot c hs).2 rfl
  exact ⟨hne _ (by decide) (by decide), hne _ (by decide) (by decide),
    hne _ (by decide) (by decide), hne _ (by decide) (by decide), hne _ (by decide) (by decide),
    hspecial, hne _ (by decide) (by decide)⟩

theorem Key.text_chars (k : Key) : ∀ c ∈ k.text, isNameChar c = true ∨ c = '.' := by
  have hpkg := k.pkg.nameChars
  have hsection := k.section_.nameChars
  intro c hc
  cases ho : k.option with
  | none =>
    rw [k.text_of_option_none ho, List.mem_append, List.mem_cons] at hc
    rcases hc with hc | rfl | hc
    · exact .inl (hpkg c hc)
    · exact .inr rfl
    · exact .inl (hsection c hc)
  | some o =>
    rw [k.text_of_option_some ho, List.mem_append, List.mem_cons, List.mem_append,
      List.mem_cons] at hc
    rcases hc with hc | rfl | hc | rfl | hc
    · exact .inl (hpkg c hc)
    · exact .inr rfl
    · exact .inl (hsection c hc)
    · exact .inr rfl
    · exact .inl (o.nameChars c hc)

theorem Key.text_ne_nil (k : Key) : k.text ≠ [] := by
  intro h
  have hpkg := k.infix_pkg
  rw [h, List.infix_nil] at hpkg
  exact k.pkg.ne_nil hpkg

theorem Key.plain_text (k : Key) : Plain k.text := fun c hc => by
  obtain ⟨h₁, h₂, h₃, h₄, h₅, h₆, -⟩ := plain_of_isNameChar (k.text_chars c hc)
  exact ⟨h₁, h₂, h₃, h₄, h₅, h₆⟩

theorem Key.equals_notMem_text (k : Key) : '=' ∉ k.text := fun h =>
  (plain_of_isNameChar (k.text_chars '=' h)).2.2.2.2.2.2 rfl

theorem plain_uci : Plain "uci".toList := by
  simp [Plain, isSpecial]

theorem plain_del : Plain "del".toList := by
  simp [Plain, isSpecial]

theorem plain_set : Plain "set".toList := by
  simp [Plain, isSpecial]

theorem plain_addList : Plain "add_list".toList := by
  simp [Plain, isSpecial]

theorem plain_append {s t : List Char} (hs : Plain s) (ht : Plain t) : Plain (s ++ t) :=
  List.forall_mem_append.2 ⟨hs, ht⟩

variable {rest : List Char} {words : List (List Char)}

theorem commandsFrom_word {t : List Char} (ht : Plain t) (hne : t ≠ []) :
    commandsFrom false none words (t ++ ' ' :: rest) =
      commandsFrom false none (words ++ [t]) rest := by
  rw [commandsFrom_plain ht hne, commandsFrom_blank]
  rfl

theorem commandsFrom_assignment (k : Key) (value : List Char) :
    commandsFrom false none words (k.text ++ '=' :: '\'' :: (escape value ++ '\'' :: rest)) =
      commandsFrom false (some (k.text ++ '=' :: value)) words rest := by
  have hplain : Plain (k.text ++ ['=']) := plain_append k.plain_text (by simp [Plain, isSpecial])
  have hstart := @commandsFrom_plain _ ('\'' :: (escape value ++ '\'' :: rest)) none words hplain
    (by simp)
  rw [List.append_assoc, List.singleton_append] at hstart
  rw [hstart, commandsFrom_quoted]
  simp

/-- A command is read back from its line. -/
theorem commands_command {c : UciCommand} {k : Key} (hk : c.key = k.text) :
    commands (c.text ++ '\n' :: rest) = (c.words :: ·) <$> commands rest := by
  have hcons : ∀ ws : List (List Char), ws ≠ [] → consCommand ws = (ws :: ·) := by
    intro ws hws
    funext cs
    rw [consCommand, if_neg hws]
  cases c with
  | del key =>
    obtain rfl : key = k.text := hk
    have hword : "uci del ".toList = "uci".toList ++ ' ' :: ("del".toList ++ [' ']) := by simp
    have htext : (UciCommand.del k.text).text ++ '\n' :: rest =
        "uci".toList ++ ' ' :: ("del".toList ++ ' ' :: (k.text ++ '\n' :: rest)) := by
      rw [UciCommand.text_del, hword]
      simp only [List.append_assoc, List.cons_append, List.nil_append]
    rw [htext, commands, commandsFrom_word plain_uci (by simp),
      commandsFrom_word plain_del (by simp), commandsFrom_plain k.plain_text k.text_ne_nil,
      commandsFrom_line, hcons _ (by simp)]
    rfl
  | set key value =>
    obtain rfl : key = k.text := hk
    have hword : "uci set ".toList = "uci".toList ++ ' ' :: ("set".toList ++ [' ']) := by simp
    have htext : (UciCommand.set k.text value).text ++ '\n' :: rest =
        "uci".toList ++ ' ' :: ("set".toList ++ ' ' ::
          (k.text ++ '=' :: '\'' :: (escape value ++ '\'' :: '\n' :: rest))) := by
      rw [UciCommand.text_set, hword]
      simp only [List.append_assoc, List.cons_append, List.nil_append]
    rw [htext, commands, commandsFrom_word plain_uci (by simp),
      commandsFrom_word plain_set (by simp), commandsFrom_assignment, commandsFrom_line,
      hcons _ (by simp)]
    rfl
  | addList key value =>
    obtain rfl : key = k.text := hk
    have hword : "uci add_list ".toList =
        "uci".toList ++ ' ' :: ("add_list".toList ++ [' ']) := by simp
    have htext : (UciCommand.addList k.text value).text ++ '\n' :: rest =
        "uci".toList ++ ' ' :: ("add_list".toList ++ ' ' ::
          (k.text ++ '=' :: '\'' :: (escape value ++ '\'' :: '\n' :: rest))) := by
      rw [UciCommand.text_addList, hword]
      simp only [List.append_assoc, List.cons_append, List.nil_append]
    rw [htext, commands, commandsFrom_word plain_uci (by simp),
      commandsFrom_word plain_addList (by simp), commandsFrom_assignment, commandsFrom_line,
      hcons _ (by simp)]
    rfl

theorem plain_commit : Plain "commit".toList := by
  simp [Plain, isSpecial]

theorem commands_script {cs : List UciCommand} (h : ∀ c ∈ cs, ∃ k : Key, c.key = k.text) :
    commands (['\n'].intercalate (cs.map UciCommand.text ++ ["uci commit".toList])) =
      some (cs.map UciCommand.words ++ [["uci".toList, "commit".toList]]) := by
  induction cs with
  | nil =>
    have hword : "uci commit".toList = "uci".toList ++ ' ' :: ("commit".toList ++ []) := by simp
    rw [List.map_nil, List.nil_append, Timerange.intercalate_singleton, hword, commands,
      commandsFrom_word plain_uci (by simp), commandsFrom_plain plain_commit (by simp)]
    rfl
  | cons c cs ih =>
    obtain ⟨⟨k, hk⟩, hcs⟩ := List.forall_mem_cons.1 h
    obtain ⟨t, ts, hrest⟩ : ∃ t ts, cs.map UciCommand.text ++ ["uci commit".toList] = t :: ts := by
      cases cs <;> exact ⟨_, _, rfl⟩
    have ih := ih hcs
    rw [hrest] at ih
    rw [List.map_cons, List.cons_append, hrest, Timerange.intercalate_cons_cons,
      commands_command hk, ih]
    rfl

end Shell

/-! ### What a command does -/

section Exec

theorem parseName_chars (n : Name) : UciStore.parseName n.chars = some n := by
  rw [UciStore.parseName, dif_pos ⟨n.ne_nil, List.all_eq_true.2 n.nameChars⟩]

theorem parseKey_text (k : Key) : UciStore.parseKey k.text = some k := by
  obtain ⟨p, s, o⟩ := k
  rw [UciStore.parseKey, Key.splitOn_text, Key.parts]
  cases o with
  | none => simp [parseName_chars]
  | some o => simp [parseName_chars]

theorem takeWhile_argument (k : Key) (value : List Char) :
    (k.text ++ '=' :: value).takeWhile (· ≠ '=') = k.text := by
  rw [List.takeWhile_append_of_pos fun c hc => ?_]
  · simp
  · exact decide_eq_true fun h => k.equals_notMem_text (h ▸ hc)

theorem dropWhile_argument (k : Key) (value : List Char) :
    (k.text ++ '=' :: value).dropWhile (· ≠ '=') = '=' :: value := by
  rw [List.dropWhile_append_of_pos fun c hc => ?_]
  · simp
  · exact decide_eq_true fun h => k.equals_notMem_text (h ▸ hc)

variable (s : UciStore) (k : Key) (value : List Char)

theorem exec_del : s.exec (UciCommand.del k.text).words = s.del k := by
  have hkey : k.text.takeWhile (· ≠ '=') = k.text :=
    List.takeWhile_eq_self_iff.2 fun c hc =>
      decide_eq_true fun h => k.equals_notMem_text (h ▸ hc)
  rw [UciCommand.words, UciStore.exec, if_neg (by simp), hkey, parseKey_text]
  exact if_pos rfl

theorem exec_set : s.exec (UciCommand.set k.text value).words = s.set k value := by
  rw [UciCommand.words, UciStore.exec, if_neg (by simp), takeWhile_argument, dropWhile_argument,
    parseKey_text]
  simp

theorem exec_addList : s.exec (UciCommand.addList k.text value).words = s.addList k value := by
  rw [UciCommand.words, UciStore.exec, if_neg (by simp), takeWhile_argument, dropWhile_argument,
    parseKey_text]
  simp

theorem foldl_del (ks : List Key) (k' : Key) :
    (ks.map fun k => (UciCommand.del k.text).words).foldl UciStore.exec s k' =
      if k' ∈ ks ∨ k'.sectionKey ∈ ks then none else s k' := by
  induction ks generalizing s with
  | nil => simp
  | cons k ks ih =>
    rw [List.map_cons, List.foldl_cons, exec_del, ih]
    simp only [UciStore.del, List.mem_cons]
    by_cases hks : k' ∈ ks ∨ k'.sectionKey ∈ ks
    · rw [if_pos hks, if_pos (hks.imp Or.inr Or.inr)]
    · rw [if_neg hks]
      obtain ⟨hk, hsection⟩ := not_or.1 hks
      simp [hk, hsection, eq_comm]

end Exec

/-! ### The values of a key -/

section Values

theorem Value.stored_str (t : List Char) :
    (Value.str t).stored = if t = [] then none else some (.str t) := by
  cases t <;> rfl

theorem Value.stored_arr (vs : List Value) :
    (Value.arr vs).stored = if vs = [] then none else some (.list (vs.map Value.text)) := by
  cases vs <;> rfl

theorem Value.text_of_looseEq {v w : Value} (h : v.looseEq w = true) : v.text = w.text := by
  cases v with
  | str t =>
    cases w with
    | str t' => exact of_decide_eq_true h
    | arr ws => exact of_decide_eq_true h
  | arr vs =>
    cases w with
    | str t' => exact of_decide_eq_true h
    | arr ws => exact absurd h (by simp [looseEq])

theorem map_text_of_sameItems {vs ws : List Value} (h : sameItems vs ws = true) :
    vs.map Value.text = ws.map Value.text := by
  induction vs generalizing ws with
  | nil =>
    cases ws with
    | nil => rfl
    | cons w ws => simp [sameItems] at h
  | cons v vs ih =>
    cases ws with
    | nil => simp [sameItems] at h
    | cons w ws =>
      simp only [sameItems, List.length_cons, Nat.add_right_cancel_iff, List.zip_cons_cons,
        List.all_cons, Bool.and_eq_true, decide_eq_true_eq] at h
      obtain ⟨hlength, hhead, htail⟩ := h
      have hrest : sameItems vs ws = true := by simp [sameItems, hlength, htail]
      rw [List.map_cons, List.map_cons, Value.text_of_looseEq hhead, ih hrest]

theorem stored_of_sameItems {vs ws : List Value} (h : sameItems vs ws = true) :
    (Value.arr vs).stored = (Value.arr ws).stored := by
  have htexts := map_text_of_sameItems h
  have hlength : vs.length = ws.length := by
    have := congrArg List.length htexts
    rwa [List.length_map, List.length_map] at this
  rw [Value.stored_arr, Value.stored_arr, htexts]
  simp only [← List.length_eq_zero_iff, hlength]

theorem isEmptyValue_str (t : List Char) : isEmptyValue (some (.str t)) = decide (t = []) :=
  rfl

variable {s : UciStore} {k : Key} {ov : Option Value}

theorem foldl_addList (ho : k.option ≠ none) (hsection : s k.sectionKey ≠ none)
    (vs : List Value) :
    ((vs.map fun v => UciCommand.addList k.text v.text).map UciCommand.words).foldl
        UciStore.exec s =
      if vs = [] then s
      else update s k
        (some (.list (((s k).map Stored.items).getD [] ++ vs.map Value.text))) := by
  have hne : k.sectionKey ≠ k := fun h => ho (by rw [← h]; rfl)
  induction vs generalizing s with
  | nil => rfl
  | cons v vs ih =>
    have hstep : s.addList k v.text = update s k
        (some (.list (((s k).map Stored.items).getD [] ++ [v.text]))) := by
      rw [UciStore.addList, if_neg]
      rintro (h | h)
      · exact ho h
      · exact hsection (Option.isNone_iff_eq_none.1 h)
    have hsection' : (s.addList k v.text) k.sectionKey ≠ none := by
      rwa [hstep, update_of_ne hne]
    rw [List.map_cons, List.map_cons, List.foldl_cons, exec_addList, ih hsection',
      if_neg (List.cons_ne_nil v vs), hstep]
    cases vs with
    | nil => simp
    | cons w vs => simp [Stored.items]

/-- The commands for one list. -/
theorem foldl_updates_arr {ws : List Value} (ho : k.option ≠ none) (hsection : s k.sectionKey ≠ none)
    (hk : s k = if needsDel ov (some (.arr ws)) then none else ov.bind Value.stored) :
    ((updates k.text ov (.arr ws)).map UciCommand.words).foldl UciStore.exec s =
      update s k (Value.arr ws).stored := by
  -- a list that is filled has been deleted before
  have hfill : s k = none →
      ((ws.map fun v => UciCommand.addList k.text v.text).map UciCommand.words).foldl
        UciStore.exec s = update s k (Value.arr ws).stored := by
    intro hnone
    rw [foldl_addList ho hsection, Value.stored_arr, hnone]
    split_ifs with hws
    · rw [← hnone, update_eq_self]
    · rfl
  match ov, hk with
  | none, hk => exact hfill hk
  | some (.str t), hk => exact hfill hk
  | some (.arr vs), hk =>
    rw [updates]
    by_cases hsame : sameItems vs ws = true
    · rw [if_neg (by simp [needsDel, hsame]), Option.bind_some, stored_of_sameItems hsame] at hk
      rw [if_pos hsame, ← hk, update_eq_self]
      rfl
    · rw [if_pos (by simp [needsDel, hsame])] at hk
      rw [if_neg hsame]
      exact hfill hk

/-- The commands for one text. -/
theorem foldl_updates_str {t : List Char} (hsection : k.option ≠ none → s k.sectionKey ≠ none)
    (htype : k.option = none → t ≠ [])
    (hk : s k = if needsDel ov (some (.str t)) then none else ov.bind Value.stored) :
    ((updates k.text ov (.str t)).map UciCommand.words).foldl UciStore.exec s =
      update s k (Value.str t).stored := by
  have hset : (s k = none ∨ t ≠ []) →
      ([UciCommand.set k.text t].map UciCommand.words).foldl UciStore.exec s =
        update s k (Value.str t).stored := by
    intro ht
    have hthere : ¬ (k.option ≠ none ∧ (s k.sectionKey).isNone = true) := fun h =>
      hsection h.1 (Option.isNone_iff_eq_none.1 h.2)
    rw [List.map_cons, List.map_nil, List.foldl_cons, List.foldl_nil, exec_set, UciStore.set,
      if_neg hthere, Value.stored_str]
    split_ifs with hempty
    · -- an empty value deletes an option, which is not there
      have hnone : s k = none := ht.resolve_right (not_not.2 hempty)
      have ho : k.option ≠ none := fun h => htype h hempty
      funext k'
      rw [UciStore.del]
      by_cases hk' : k' = k
      · simp [hk']
      · have hne : k ≠ k'.sectionKey := fun h => ho (by rw [h]; rfl)
        rw [if_neg (not_or.2 ⟨hk', hne⟩), update_of_ne hk']
    · rfl
  have hkeep : s k = (Value.str t).stored → s = update s k (Value.str t).stored :=
    fun h => by rw [← h, update_eq_self]
  match ov, hk with
  | some (.arr vs), hk => exact hset (Or.inl hk)
  | some (.str t'), hk =>
    rw [updates]
    split_ifs with ht
    · exact hset (Or.inr ht.2)
    · refine hkeep (hk.trans ?_)
      by_cases hempty : t = []
      · by_cases hold : t' = []
        · simp [hempty, hold, needsDel, isEmptyValue_str, Value.stored]
        · simp [hempty, hold, needsDel, isEmptyValue_str, Value.stored]
      · have heq : t' = t := by
          by_contra hne
          exact ht ⟨hne, hempty⟩
        simp [heq, hempty, needsDel, isEmptyValue_str]
  | none, hk =>
    rw [updates]
    split_ifs with ht
    · exact hset (Or.inr ht)
    · refine hkeep (hk.trans ?_)
      rw [not_not.1 ht]
      simp [Value.stored]

theorem foldl_updates {nv : Value} (hsection : k.option ≠ none → s k.sectionKey ≠ none)
    (htype : k.option = none → ∃ t ≠ [], nv = .str t)
    (hk : s k = if needsDel ov (some nv) then none else ov.bind Value.stored) :
    ((updates k.text ov nv).map UciCommand.words).foldl UciStore.exec s =
      update s k nv.stored := by
  cases nv with
  | arr ws =>
    have ho : k.option ≠ none := fun h => by
      obtain ⟨t, -, ht⟩ := htype h
      exact Value.noConfusion ht
    exact foldl_updates_arr ho (hsection ho) hk
  | str t =>
    refine foldl_updates_str hsection (fun h => ?_) hk
    obtain ⟨t', ht', heq⟩ := htype h
    rwa [Value.str.inj heq]

end Values

/-! ### The two loops -/

section Loops

variable {o n : UciMap}

def UciMap.value (m : UciMap) (k : Key) : Option Value := (m.lookup k).map Setting.value

theorem store_container (m : UciMap) (k : Key) :
    m.container.store k = (m.value k).bind Value.stored := by
  rw [UciContainer.store, UciMap.get_container, UciMap.value]
  cases m.lookup k <;> rfl

theorem value_eq_none_iff {m : UciMap} {k : Key} : m.value k = none ↔ k ∉ m.keys := by
  rw [UciMap.value, Option.map_eq_none_iff, lookup_eq_none_iff]

def deletes (o n : UciMap) (k : Key) : Bool := needsDel (o.value k) (n.value k)

def kept (o n : UciMap) (k : Key) : Option Stored :=
  if deletes o n k then none else (o.value k).bind Value.stored

theorem Sectioned.value_eq {m : UciMap} (h : Sectioned m.container) {k : Key} (ho : k.option = none)
    (hk : k ∈ m.keys) : ∃ t ≠ [], m.value k = some (.str t) := by
  have hmem : k.text ∈ m.container.keys := by
    rw [UciMap.keys_container]
    exact List.mem_map_of_mem hk
  obtain ⟨t, ht, hget⟩ := h.type k ho hmem
  refine ⟨t, ht, ?_⟩
  rw [UciMap.get_container] at hget
  obtain ⟨v, hv⟩ := Option.ne_none_iff_exists'.1 (mt value_eq_none_iff.1 (not_not.2 hk))
  rw [UciMap.value] at hv
  rw [hv] at hget
  rw [UciMap.value, hv]
  exact congrArg some hget

theorem Sectioned.sectionKey_mem {m : UciMap} (h : Sectioned m.container) {k : Key}
    (ho : k.option ≠ none) {before after : List Key} (hkeys : m.keys = before ++ k :: after) :
    k.sectionKey ∈ before := by
  have htexts : m.container.keys =
      before.map Key.text ++ k.text :: after.map Key.text := by
    rw [UciMap.keys_container, hkeys, List.map_append, List.map_cons]
  obtain ⟨k', hk', heq⟩ := List.mem_map.1 (h.preceded k _ _ ho htexts)
  rwa [← Key.text_inj.1 heq]

theorem Key.sectionKey_of_option_none {k : Key} (ho : k.option = none) : k.sectionKey = k := by
  obtain ⟨p, s, option⟩ := k
  exact congrArg (Key.mk p s) ho.symm

theorem Sectioned.sectionKey_mem_keys {m : UciMap} (h : Sectioned m.container) {k : Key}
    (hk : k ∈ m.keys) : k.sectionKey ∈ m.keys := by
  by_cases ho : k.option = none
  · rwa [Key.sectionKey_of_option_none ho]
  · obtain ⟨before, after, hkeys⟩ := List.append_of_mem hk
    rw [hkeys]
    exact List.mem_append_left _ (h.sectionKey_mem ho hkeys)

theorem deletes_sectionKey (hold : Sectioned o.container) (hnew : Sectioned n.container) {k : Key}
    (hk : k ∈ n.keys) : k.sectionKey ∈ o.keys → deletes o n k.sectionKey = false := by
  intro hmem
  obtain ⟨t, ht, hn⟩ := hnew.value_eq (k := k.sectionKey) rfl (hnew.sectionKey_mem_keys hk)
  obtain ⟨t', -, ho⟩ := hold.value_eq (k := k.sectionKey) rfl hmem
  simp [deletes, hn, ho, needsDel, isEmptyValue_str, ht]

/-- The deletions leave what is kept. -/
theorem foldl_deletions (hold : Sectioned o.container) (hnew : Sectioned n.container) (k : Key) :
    ((o.keys.filter (deletes o n)).map fun k => (UciCommand.del k.text).words).foldl
        UciStore.exec o.container.store k =
      if k ∈ n.keys then kept o n k else none := by
  have hmem : ∀ k, k ∈ o.keys.filter (deletes o n) ↔ k ∈ o.keys ∧ deletes o n k = true :=
    fun _ => List.mem_filter
  rw [foldl_del, store_container]
  simp only [hmem]
  by_cases hk : k ∈ n.keys
  · have hsection : ¬ (k.sectionKey ∈ o.keys ∧ deletes o n k.sectionKey = true) := fun h =>
      Bool.false_ne_true ((deletes_sectionKey hold hnew hk h.1).symm.trans h.2)
    rw [if_pos hk, kept]
    by_cases hko : k ∈ o.keys
    · simp only [hko, true_and, hsection, or_false]
    · simp [hko, hsection, value_eq_none_iff.2 hko]
  · rw [if_neg hk]
    split_ifs with hdel
    · rfl
    · -- what stays without a new value is the empty text
      have hn : n.value k = none := value_eq_none_iff.2 hk
      have hstays : ¬ (k ∈ o.keys ∧ deletes o n k = true) := (not_or.1 hdel).1
      cases ho : o.value k with
      | none => rfl
      | some v =>
        have hko : k ∈ o.keys := by
          by_contra h
          rw [value_eq_none_iff.2 h] at ho
          cases ho
        cases v with
        | arr vs => exact absurd ⟨hko, by simp [deletes, ho, hn, needsDel]⟩ hstays
        | str t =>
          by_contra hne
          refine hstays ⟨hko, ?_⟩
          have ht : t ≠ [] := by
            rintro rfl
            exact hne rfl
          simp [deletes, ho, hn, needsDel, isEmptyValue, Value.text, ht]

def updatesOf (o n : UciMap) (k : Key) : List UciCommand :=
  ((n.value k).map fun nv => updates k.text (o.value k) nv).getD []

/-- The commands for all keys of the new configuration. -/
theorem foldl_updatesOf (hnew : Sectioned n.container) {before after : List Key}
    (hkeys : n.keys = before ++ after) {s : UciStore}
    (hs : ∀ k, s k = if k ∈ before then (n.value k).bind Value.stored
      else if k ∈ n.keys then kept o n k else none) (k : Key) :
    ((after.flatMap (updatesOf o n)).map UciCommand.words).foldl UciStore.exec s k =
      n.container.store k := by
  induction after generalizing before s with
  | nil =>
    rw [List.append_nil] at hkeys
    rw [List.flatMap_nil, List.map_nil, List.foldl_nil, hs, store_container, ← hkeys]
    split_ifs with hk
    · rfl
    · rw [value_eq_none_iff.2 hk]
      rfl
  | cons k₀ after ih =>
    have hmem : k₀ ∈ n.keys := by
      rw [hkeys]
      exact List.mem_append_right _ List.mem_cons_self
    have hnotMem : k₀ ∉ before := by
      have hnodup := n.nodup_keys
      rw [hkeys] at hnodup
      exact fun h => (List.nodup_append.1 hnodup).2.2 k₀ h k₀ List.mem_cons_self rfl
    obtain ⟨nv, hnv⟩ := Option.ne_none_iff_exists'.1 (mt value_eq_none_iff.1 (not_not.2 hmem))
    have hsection : k₀.option ≠ none → s k₀.sectionKey ≠ none := by
      intro ho
      have hbefore := hnew.sectionKey_mem ho hkeys
      obtain ⟨t, ht, hn⟩ := hnew.value_eq (k := k₀.sectionKey) rfl (hnew.sectionKey_mem_keys hmem)
      rw [hs, if_pos hbefore, hn, Option.bind_some, Value.stored_str, if_neg ht]
      exact Option.some_ne_none _
    have htype : k₀.option = none → ∃ t ≠ [], nv = .str t := by
      intro ho
      obtain ⟨t, ht, hn⟩ := hnew.value_eq ho hmem
      exact ⟨t, ht, Option.some.inj (hnv.symm.trans hn)⟩
    have hk₀ : s k₀ =
        if needsDel (o.value k₀) (some nv) then none else (o.value k₀).bind Value.stored := by
      rw [hs, if_neg hnotMem, if_pos hmem, kept, deletes, hnv]
    rw [List.flatMap_cons, List.map_append, List.foldl_append, updatesOf, hnv, Option.map_some,
      Option.getD_some, foldl_updates hsection htype hk₀]
    have hkeys' : n.keys = before ++ [k₀] ++ after := by
      rw [hkeys]
      simp
    refine ih hkeys' fun k => ?_
    by_cases hk : k = k₀
    · subst hk
      simp [hnv]
    · rw [update_of_ne hk, hs]
      simp [hk]

theorem scriptCommands_container (o n : UciMap) :
    n.container.scriptCommands o.container =
      (o.keys.filter (deletes o n)).map (fun k => .del k.text) ++
        n.keys.flatMap (updatesOf o n) := by
  rw [UciContainer.scriptCommands, UciMap.keys_container, UciMap.keys_container, List.filter_map,
    List.map_map, List.flatMap_map]
  refine congrArg₂ _ (congrArg _ (List.filter_congr fun k _ => ?_)) (congrArg (List.flatMap · _) ?_)
  · rw [Function.comp_apply, UciMap.values_container, UciMap.values_container]
    rfl
  · funext k
    rw [UciMap.values_container, UciMap.values_container]
    rfl

/-- Each command is about a key. -/
theorem exists_key_of_mem {c : UciCommand} (h : c ∈ n.container.scriptCommands o.container) :
    ∃ k : Key, c.key = k.text := by
  rw [scriptCommands_container, List.mem_append, List.mem_map, List.mem_flatMap] at h
  rcases h with ⟨k, -, rfl⟩ | ⟨k, -, hc⟩
  · exact ⟨k, rfl⟩
  · refine ⟨k, ?_⟩
    rw [updatesOf] at hc
    cases hn : n.value k with
    | none => simp [hn] at hc
    | some nv =>
      rw [hn, Option.map_some, Option.getD_some] at hc
      match nv, o.value k, hc with
      | .arr ws, none, hc | .arr ws, some (.str t), hc =>
        obtain ⟨v, -, rfl⟩ := List.mem_map.1 hc
        rfl
      | .arr ws, some (.arr vs), hc =>
        rw [updates] at hc
        split_ifs at hc
        · cases hc
        · obtain ⟨v, -, rfl⟩ := List.mem_map.1 hc
          rfl
      | .str t, some (.arr vs), hc =>
        rw [List.mem_singleton.1 hc]
        rfl
      | .str t, none, hc | .str t, some (.str t'), hc =>
        rw [updates] at hc
        split_ifs at hc
        · rw [List.mem_singleton.1 hc]
          rfl
        · cases hc

theorem exec_script (hold : Sectioned o.container) (hnew : Sectioned n.container) :
    ∃ cs, commands (n.container.getScriptCommands o.container) = some cs ∧
      cs.foldl UciStore.exec o.container.store = n.container.store := by
  refine ⟨_, commands_script fun c hc => exists_key_of_mem hc, ?_⟩
  rw [List.foldl_append, List.foldl_cons, List.foldl_nil]
  have hcommit : ∀ s : UciStore, s.exec ["uci".toList, "commit".toList] = s := fun _ => rfl
  rw [hcommit, scriptCommands_container, List.map_append, List.foldl_append, List.map_map]
  funext k
  have hkeys : n.keys = [] ++ n.keys := rfl
  refine foldl_updatesOf hnew hkeys (fun k => ?_) k
  rw [if_neg List.not_mem_nil]
  exact foldl_deletions hold hnew k

end Loops

/-! ### Runs -/

/-- A shell that reads the script of two configurations runs commands that make the new one out of
the old one. -/
theorem script_saves {oldOps newOps : List Op} (hold : ∀ op ∈ oldOps, op.Direct)
    (hnew : ∀ op ∈ newOps, op.Direct) (holdSectioned : Sectioned (run oldOps))
    (hnewSectioned : Sectioned (run newOps)) :
    ∃ cs, commands ((run newOps).getScriptCommands (run oldOps)) = some cs ∧
      cs.foldl UciStore.exec (run oldOps).store = (run newOps).store := by
  rw [run_eq_container hold] at holdSectioned ⊢
  rw [run_eq_container hnew] at hnewSectioned ⊢
  exact exec_script holdSectioned hnewSectioned

section Example

/-- `Sectioned`, computed. -/
def UciMap.sectioned (m : UciMap) : Bool :=
  m.keys.all fun k =>
    if k.option = none then
      match m.value k with
      | some (.str t) => t ≠ []
      | _ => false
    else k.sectionKey ∈ m.keys.takeWhile (· ≠ k)

theorem sectioned_container {m : UciMap} (h : m.sectioned = true) : Sectioned m.container where
  type k ho hk := by
    rw [UciMap.keys_container] at hk
    obtain ⟨k', hk', heq⟩ := List.mem_map.1 hk
    obtain rfl := Key.text_inj.1 heq
    have hcheck := List.all_eq_true.1 h k' hk'
    rw [if_pos ho] at hcheck
    split at hcheck
    next t ht =>
      refine ⟨t, of_decide_eq_true hcheck, ?_⟩
      rw [UciMap.get_container, ← UciMap.value, ht]
      rfl
    next => cases hcheck
  preceded k before after ho hkeys := by
    rw [UciMap.keys_container] at hkeys
    obtain ⟨l₁, l₂, hl, hbefore, hrest⟩ := List.map_eq_append_iff.1 hkeys
    obtain ⟨k', l₃, rfl, hk', -⟩ := List.map_eq_cons_iff.1 hrest
    obtain rfl := Key.text_inj.1 hk'
    have hcheck := List.all_eq_true.1 h k' (by rw [hl]; simp)
    have hnotMem : k' ∉ l₁ := by
      have hnodup := m.nodup_keys
      rw [hl] at hnodup
      exact fun hmem => (List.nodup_append.1 hnodup).2.2 k' hmem k' List.mem_cons_self rfl
    have htake : m.keys.takeWhile (· ≠ k') = l₁ := by
      rw [hl, List.takeWhile_append_of_pos fun k hk => ?_]
      · simp
      · exact decide_eq_true fun heq => hnotMem (heq ▸ hk)
    rw [if_neg ho, decide_eq_true_eq, htake] at hcheck
    rw [← hbefore]
    exact List.mem_map_of_mem hcheck

theorem sectioned_run {ops : List Op} (h : ∀ op ∈ ops, op.Direct)
    (hsectioned : (runMap ops).sectioned = true) : Sectioned (run ops) := by
  rw [run_eq_container h]
  exact sectioned_container hsectioned

def network : Name := name "network" (names_of_all (by decide))

def wan : Name := name "wan" (names_of_all (by decide))

def proto : Name := name "proto" (names_of_all (by decide))

def dns : Name := name "dns" (names_of_all (by decide))

def oldPage : List Op :=
  [.set ⟨network, wan, none⟩ (.str "interface".toList) false,
    .set ⟨network, wan, some proto⟩ (.str "dhcp".toList) false,
    .createListOption network wan dns (some true),
    .set ⟨network, wan, some dns⟩ (.str "1.1.1.1".toList) true,
    .set ⟨network, upload, none⟩ (.str "class".toList) false]

def newPage : List Op :=
  [.removeSection network upload,
    .set ⟨network, wan, none⟩ (.str "interface".toList) false,
    .setLines network wan proto "it's\nstatic".toList,
    .set ⟨network, wan, some dns⟩ (.str "8.8.8.8".toList) false]

theorem newPage_saved :
    ∃ cs, commands ((run newPage).getScriptCommands (run oldPage)) = some cs ∧
      cs.foldl UciStore.exec (run oldPage).store = (run newPage).store :=
  have hold : ∀ op ∈ oldPage, op.Direct := by simp [oldPage, Op.Direct]
  have hnew : ∀ op ∈ newPage, op.Direct := by simp [newPage, Op.Direct]
  script_saves hold hnew (sectioned_run hold (by decide))
    (sectioned_run hnew (by decide))

end Example

end Web

end Gargoyle
