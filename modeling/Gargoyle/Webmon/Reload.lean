import Gargoyle.Webmon.Recent
import Gargoyle.Timerange.Text

/-!
# The lists as text

A list is shown as a text with a line for each node, the oldest first, and a text
like this is loaded again. The fields of a line are its words, and a line that has
not four of them is passed over: a value that is empty, or has a blank, a tab or a
line break in it, is lost.
-/

namespace Gargoyle

open List

namespace Webmon

open Heap Numerals
open Timerange (splitOnSeparators splitLoop isSpace)
open Bandwidth (Kernel In6Addr referenceKernel)

variable [Kernel]

/-! ## Showing -/

/-- `%ld` of the seconds, which were made an `unsigned long`. -/
def longText (t : ℤ) : List Char :=
  let v := t.bmod (2 ^ Kernel.ulongBits)
  if v < 0 then '-' :: Nat.toDigits 10 v.natAbs else Nat.toDigits 10 v.natAbs

def Family.code : Family → ℕ
  | .ipv4 => 2
  | .ipv6 => 10

def Entry.ipText (e : Entry) : List Char :=
  match e.family with
  | .ipv4 => (Kernel.pI4 (e.srcIp 0)).toList
  | .ipv6 => (Kernel.pI6c e.srcIp).toList

def Entry.line (e : Entry) : List Char :=
  longText e.time ++ '\t' :: (Nat.toDigits 10 e.family.code ++ '\t' :: (e.ipText ++ '\t' :: e.value))

/-- The loop of `webmon_proc_domain_show`, from a node to the front. There are at
most as many nodes as addresses that were used. -/
def showFrom (h : Heap (LinkedNode Entry)) : ℕ → Option ℕ → Option (List Char)
  | _, none => some []
  | 0, some _ => none
  | n + 1, some p =>
    (h.node p).bind fun node =>
      (showFrom h n node.previous).map fun rest => node.value.line ++ '\n' :: rest

/-- `webmon_proc_domain_show` and `webmon_proc_search_show`. -/
def RecentList.show (l : RecentList) : Option (List Char) :=
  showFrom l.heap l.heap.bound l.queue.last

/-! ## Loading -/

def signedPrefix (str : List Char) : Option ℤ :=
  match str with
  | '-' :: rest =>
    let digits := rest.takeWhile Char.isDigit
    if digits = [] then none else some (-(numeralValue 10 digits : ℤ))
  | _ =>
    let digits := str.takeWhile Char.isDigit
    if digits = [] then none else some (numeralValue 10 digits : ℤ)

/-- `sscanf` with `"%lld"`; `none` if nothing is converted. -/
def scanLld (str : List Char) : Option ℤ := signedPrefix (str.dropWhile isSpace)

/-- `kstrtol` with base 10; `none` for an error. -/
def kstrtol (str : List Char) : Option ℤ :=
  let digits := match str with
    | '+' :: rest => rest
    | '-' :: rest => rest
    | rest => rest
  if digits = [] ∨ ¬ digits.all Char.isDigit then none
  else if str.head? = some '-' then some (-(numeralValue 10 digits : ℤ))
  else some (numeralValue 10 digits : ℤ)

def RecentList.setFirstTime (l : RecentList) (time : ℤ) : Option RecentList :=
  l.queue.first.bind fun p =>
    (l.heap.node p).bind fun node =>
      (l.heap.setValue p { node.value with time := time }).map fun heap => { l with heap := heap }

def ip4Any (a : BitVec 32) (rest : In6Addr) : In6Addr := fun i => if i = 0 then a else rest i

/-- A line that is loaded, at the time `t`. -/
def RecentList.loadLine (maxQueueLength : ℕ) (rest : In6Addr) (t : ℤ) (l : RecentList)
    (line : List Char) : Option RecentList :=
  match splitOnSeparators line ['\t', ' '] (-1) false with
  | [timeText, protoText, ipText, value] =>
    let load := fun family (srcIp : In6Addr) =>
      match scanLld timeText with
      | some time =>
        (l.addQueueNode family srcIp value (printKey family srcIp value) maxQueueLength t).bind
          fun l => l.setFirstTime time
      | none => some l
    match kstrtol protoText with
    | some 2 =>
      match Kernel.in4Pton (String.ofList ipText) with
      | some a => load .ipv4 (ip4Any a rest)
      | none => some l
    | some 10 =>
      match Kernel.in6Pton (String.ofList ipText) with
      | some a => load .ipv6 a
      | none => some l
    | _ => some l
  | _ => some l

/-- `nft_webmon_load_mapsqueues`, for one of the lists. -/
def loadMapsqueues (maxQueueLength : ℕ) (rest : In6Addr) (t : ℤ) (data : List Char) :
    Option RecentList :=
  (splitOnSeparators data ['\n', '\r'] (-1) false).foldlM
    (RecentList.loadLine maxQueueLength rest t) .empty

/-! ## The text of a list -/

def blanks : List Char := ['\t', ' ', '\n', '\r']

def IsWord (cs : List Char) : Prop := cs ≠ [] ∧ ∀ c ∈ cs, c ∉ blanks

structure PrintsWords : Prop where
  pI4 : ∀ a, IsWord (Kernel.pI4 a).toList
  pI6c : ∀ a, IsWord (Kernel.pI6c a).toList

/-- A node whose value is one field, and whose time fits a `long`. -/
structure Entry.Plain (e : Entry) : Prop where
  value : IsWord e.value
  time : e.time.bmod (2 ^ Kernel.ulongBits) = e.time

section Text

omit [Kernel] in
theorem IsWord.notMem {cs : List Char} (h : IsWord cs) {separators : List Char}
    (hsub : separators ⊆ blanks) : cs ≠ [] ∧ ∀ c ∈ cs, c ∉ separators :=
  ⟨h.1, fun c hc hsep => h.2 c hc (hsub hsep)⟩

omit [Kernel] in
theorem isDigit_of_mem_toDigits {n : ℕ} : ∀ c ∈ Nat.toDigits 10 n, c.isDigit = true :=
  fun _ hc => Nat.isDigit_of_mem_toDigits (by norm_num) (by norm_num) hc

omit [Kernel] in
theorem notMem_blanks_of_isDigit {c : Char} (h : c.isDigit = true) : c ∉ blanks := by
  intro hmem
  fin_cases hmem <;> cases h

omit [Kernel] in
theorem isWord_toDigits (n : ℕ) : IsWord (Nat.toDigits 10 n) :=
  ⟨Nat.toDigits_ne_nil, fun c hc => notMem_blanks_of_isDigit (isDigit_of_mem_toDigits c hc)⟩

theorem isWord_longText (t : ℤ) : IsWord (longText t) := by
  unfold longText
  dsimp only
  split_ifs
  · refine ⟨cons_ne_nil _ _, fun c hc => ?_⟩
    rcases List.mem_cons.1 hc with rfl | hc
    · decide
    · exact (isWord_toDigits _).2 c hc
  · exact isWord_toDigits _

theorem PrintsWords.ipText (h : PrintsWords) (e : Entry) : IsWord e.ipText := by
  unfold Entry.ipText
  cases e.family with
  | ipv4 => exact h.pI4 _
  | ipv6 => exact h.pI6c _

theorem Entry.line_eq (e : Entry) : e.line =
    Timerange.terminated '\t' [longText e.time, Nat.toDigits 10 e.family.code, e.ipText] e.value := by
  simp [Entry.line, Timerange.terminated]

theorem split_line (h : PrintsWords) {e : Entry} (he : e.Plain) :
    splitOnSeparators e.line ['\t', ' '] (-1) false =
      [longText e.time, Nat.toDigits 10 e.family.code, e.ipText, e.value] := by
  have hsub : (['\t', ' '] : List Char) ⊆ blanks := by decide
  have hvalue := he.value.notMem hsub
  rw [e.line_eq, Timerange.splitOnSeparators_terminated ?_ hvalue.2 (by decide),
    if_neg hvalue.1]
  · rfl
  · intro p hp
    simp only [mem_cons, not_mem_nil, or_false] at hp
    rcases hp with rfl | rfl | rfl
    · exact (isWord_longText _).notMem hsub
    · exact (isWord_toDigits _).notMem hsub
    · exact (h.ipText e).notMem hsub

theorem line_chars (h : PrintsWords) {e : Entry} (he : e.Plain) :
    e.line ≠ [] ∧ ∀ c ∈ e.line, c ∉ ['\n', '\r'] := by
  have hsub : (['\n', '\r'] : List Char) ⊆ blanks := by decide
  refine ⟨by simp [Entry.line], fun c hc => ?_⟩
  simp only [Entry.line, mem_append, mem_cons] at hc
  rcases hc with hc | rfl | hc | rfl | hc | rfl | hc
  · exact ((isWord_longText _).notMem hsub).2 c hc
  · decide
  · exact ((isWord_toDigits _).notMem hsub).2 c hc
  · decide
  · exact ((h.ipText e).notMem hsub).2 c hc
  · decide
  · exact (he.value.notMem hsub).2 c hc

omit [Kernel] in
theorem takeWhile_toDigits (n : ℕ) : (Nat.toDigits 10 n).takeWhile Char.isDigit =
    Nat.toDigits 10 n :=
  List.takeWhile_eq_self_iff.2 isDigit_of_mem_toDigits

omit [Kernel] in
theorem dropWhile_isSpace_toDigits (n : ℕ) : (Nat.toDigits 10 n).dropWhile isSpace =
    Nat.toDigits 10 n := by
  obtain ⟨d, ds, hds⟩ := exists_cons_of_ne_nil (@Nat.toDigits_ne_nil n 10)
  have hdigit : d.isDigit = true := @isDigit_of_mem_toDigits n d (by simp [hds])
  have hspace : isSpace d = false := by
    rw [isSpace, decide_eq_false_iff_not]
    intro hmem
    fin_cases hmem <;> cases hdigit
  rw [hds, dropWhile_cons, hspace]
  rfl

theorem scanLld_longText {t : ℤ} (h : t.bmod (2 ^ Kernel.ulongBits) = t) :
    scanLld (longText t) = some t := by
  simp only [longText, h]
  split_ifs with hneg
  · have hdrop : ('-' :: Nat.toDigits 10 t.natAbs).dropWhile isSpace =
        '-' :: Nat.toDigits 10 t.natAbs := by
      rw [dropWhile_cons]
      rfl
    rw [scanLld, hdrop, signedPrefix, takeWhile_toDigits, if_neg Nat.toDigits_ne_nil,
      numeralValue_toDigits (by norm_num) (by norm_num)]
    congr 1
    omega
  · rw [scanLld, dropWhile_isSpace_toDigits, signedPrefix, takeWhile_toDigits,
      if_neg Nat.toDigits_ne_nil, numeralValue_toDigits (by norm_num) (by norm_num)]
    · congr 1
      omega
    · intro rest heq
      have hdigit := @isDigit_of_mem_toDigits t.natAbs '-' (by simp [heq])
      cases hdigit

end Text

/-! ## Showing and loading a list -/

structure RecentList.Holds (l : RecentList) (ps : List ℕ) (es : List Entry) : Prop where
  list : l.heap.IsList l.queue ps
  values : ps.map l.heap.value = es.map some
  live : ∀ p, p ∉ ps → l.heap.value p = none

/-- An entry after it was loaded, when the other words of the union were `rest`. -/
def Entry.reloaded (rest : In6Addr) (e : Entry) : Entry :=
  match e.family with
  | .ipv4 => { e with srcIp := ip4Any (e.srcIp 0) rest }
  | .ipv6 => e

def linesOf (es : List Entry) : List Char :=
  Timerange.terminated '\n' (es.reverse.map Entry.line) []

section Reloading

variable {l : RecentList} {ps : List ℕ} {es : List Entry} {maxLength : ℕ} {rest : In6Addr} {t : ℤ}

/-- The file has one line for each node, the oldest first. -/
theorem showFrom_eq {h : Heap (LinkedNode Entry)} {nxt : Option ℕ} {n : ℕ} (hseg : h.Seg none ps nxt)
    (hvalues : ps.map h.value = es.map some) (hn : ps.length ≤ n) :
    showFrom h n ps.getLast? = some (linesOf es) := by
  induction n generalizing ps es nxt with
  | zero =>
    obtain rfl : ps = [] := List.length_eq_zero_iff.1 (by omega)
    obtain rfl : es = [] := by simpa using hvalues.symm
    rfl
  | succ n ih =>
    rcases eq_nil_or_concat ps with rfl | ⟨front, p, rfl⟩
    · obtain rfl : es = [] := by simpa using hvalues.symm
      rfl
    · rw [concat_eq_append] at *
      rcases eq_nil_or_concat es with rfl | ⟨es, e, rfl⟩
      · simp at hvalues
      · rw [concat_eq_append] at *
        obtain ⟨hfront, ⟨v, hv⟩, -⟩ := seg_append.1 hseg
        simp only [map_append, map_cons, map_nil] at hvalues
        obtain ⟨hvalues', hlast⟩ := append_inj' hvalues rfl
        obtain rfl : v = e := by
          simpa [Heap.value, hv] using hlast
        rw [length_append, length_singleton] at hn
        rw [getLast?_append, getLast?_singleton, Option.some_or, showFrom, hv,
          Option.bind_some, Option.or_none, ih hfront hvalues' (by omega), Option.map_some,
          linesOf, linesOf, reverse_append, reverse_singleton, singleton_append,
          map_cons, Timerange.terminated_cons]

theorem RecentList.Holds.show (h : l.Holds ps es) : l.show = some (linesOf es) := by
  have hbound : ps.length ≤ l.heap.bound := by
    have hsub : ps ⊆ List.range l.heap.bound := by
      intro p hp
      obtain ⟨n, hn⟩ := h.list.seg.exists_node hp
      exact List.mem_range.2 (lt_bound_of_node hn)
    simpa using (subperm_of_subset h.list.nodup hsub).length_le
  rw [RecentList.show, h.list.last]
  exact showFrom_eq h.list.seg h.values hbound

theorem RecentList.Holds.cons {l' : RecentList} {p : ℕ} {e : Entry} (h : l.Holds ps es)
    (hp : p ∉ ps) (hlist : l'.heap.IsList l'.queue (p :: ps)) (hvalue : l'.heap.value p = some e)
    (hother : ∀ q ≠ p, l'.heap.value q = l.heap.value q) : l'.Holds (p :: ps) (e :: es) := by
  refine ⟨hlist, ?_, fun q hq => ?_⟩
  · rw [map_cons, map_cons, hvalue, ← h.values]
    refine congrArg _ (map_congr_left fun q hq => hother q ?_)
    rintro rfl
    exact hp hq
  · rw [mem_cons, not_or] at hq
    rw [hother q hq.1, h.live q hq.2]

theorem RecentList.Holds.notMem_bound (h : l.Holds ps es) : l.heap.bound ∉ ps :=
  fun hmem => h.list.ne_bound hmem rfl

/-- The first node gets its time. -/
theorem RecentList.Holds.setFirstTime {p : ℕ} {e : Entry} (h : l.Holds (p :: ps) (e :: es))
    (time : ℤ) :
    ∃ l', l.setFirstTime time = some l' ∧ l'.Holds (p :: ps) ({ e with time := time } :: es) := by
  obtain ⟨hp, -⟩ := List.nodup_cons.1 h.list.nodup
  obtain ⟨hvalue, hvalues⟩ := List.cons.inj h.values
  obtain ⟨n, hn, rfl⟩ := Option.map_eq_some_iff.1 hvalue
  have hset : l.heap.setValue p { n.value with time := time } = some (l.heap.modify p
      fun m => { m with value := { n.value with time := time } }) := update_of_node hn
  have hself := @node_modify_self _ l.heap p n
    (fun m => { m with value := { n.value with time := time } }) hn
  have hfirst : l.queue.first = some p := h.list.first
  have hstep : l.setFirstTime time = some ⟨l.heap.modify p fun m =>
      { m with value := { n.value with time := time } }, l.queue, l.index⟩ := by
    rw [RecentList.setFirstTime, hfirst, Option.bind_some, hn, Option.bind_some, hset]
    rfl
  refine ⟨_, hstep, ⟨h.list.nodup, h.list.seg.modifyValue p _, h.list.first, h.list.last,
    h.list.length⟩, ?_, fun q hq => ?_⟩
  · rw [map_cons, map_cons, Heap.value, hself, ← hvalues]
    refine congrArg₂ _ rfl (map_congr_left fun q hq => ?_)
    have hne : q ≠ p := fun heq => hp (heq ▸ hq)
    rw [Heap.value, node_modify_of_ne hne, Heap.value]
  · have hne : q ≠ p := fun heq => hq (heq ▸ mem_cons_self)
    rw [Heap.value, node_modify_of_ne hne]
    exact h.live q hq

theorem RecentList.Holds.addTimed (h : l.Holds ps es) (hlen : ps.length < maxLength)
    (family : Family) (srcIp : In6Addr) (value : List Char) (k : String) (time : ℤ) :
    ∃ l' ps', ((l.addQueueNode family srcIp value k maxLength t).bind
        fun l => l.setFirstTime time) = some l' ∧
      l'.Holds ps' (⟨family, srcIp, value, time⟩ :: es) ∧ ps'.length = ps.length + 1 := by
  obtain ⟨added, hstep, hlist, hvalue, hother, -⟩ :=
    @RecentList.addQueueNode_spec _ l ps t family srcIp value k maxLength h.list
  rw [if_neg (by omega)] at hstep
  obtain ⟨l', hset, hholds⟩ :=
    (h.cons h.notMem_bound hlist hvalue hother).setFirstTime time
  exact ⟨l', _, by rw [hstep, Option.bind_some, hset], hholds, length_cons⟩

/-- A line of the file adds a node. -/
theorem RecentList.Holds.loadLine (hprint : PrintsWords) (h : l.Holds ps es)
    (hlen : ps.length < maxLength) {e : Entry} (he : e.Plain) :
    ∃ l' ps', l.loadLine maxLength rest t e.line = some l' ∧
      l'.Holds ps' (e.reloaded rest :: es) ∧ ps'.length = ps.length + 1 := by
  have htime := scanLld_longText he.time
  rw [RecentList.loadLine, split_line hprint he]
  dsimp only
  rw [htime]
  cases hfamily : e.family with
  | ipv4 =>
    have hproto : kstrtol (Nat.toDigits 10 Family.ipv4.code) = some 2 := by decide
    have hip : Kernel.in4Pton (String.ofList e.ipText) = some (e.srcIp 0) := by
      rw [Entry.ipText, hfamily]
      dsimp only
      rw [String.ofList_toList, Kernel.in4Pton_pI4]
    have hreloaded : e.reloaded rest = ⟨.ipv4, ip4Any (e.srcIp 0) rest, e.value, e.time⟩ := by
      rw [Entry.reloaded, hfamily]
    rw [hproto, hip, hreloaded]
    exact h.addTimed hlen _ _ _ _ _
  | ipv6 =>
    have hproto : kstrtol (Nat.toDigits 10 Family.ipv6.code) = some 10 := by decide
    have hip : Kernel.in6Pton (String.ofList e.ipText) = some e.srcIp := by
      rw [Entry.ipText, hfamily]
      dsimp only
      rw [String.ofList_toList, Kernel.in6Pton_pI6c]
    have hreloaded : e.reloaded rest = ⟨.ipv6, e.srcIp, e.value, e.time⟩ := by
      rw [Entry.reloaded, hfamily]
      dsimp only
      rw [← hfamily]
    rw [hproto, hip, hreloaded]
    exact h.addTimed hlen _ _ _ _ _

theorem RecentList.Holds.loadLines (hprint : PrintsWords) {ds : List Entry} (h : l.Holds ps es)
    (hlen : ps.length + ds.length ≤ maxLength) (hplain : ∀ e ∈ ds, e.Plain) :
    ∃ l' ps', (ds.map Entry.line).foldlM (RecentList.loadLine maxLength rest t) l = some l' ∧
      l'.Holds ps' ((ds.map (Entry.reloaded rest)).reverse ++ es) := by
  induction ds generalizing l ps es with
  | nil => exact ⟨l, ps, rfl, h⟩
  | cons e ds ih =>
    rw [length_cons] at hlen
    obtain ⟨l₁, ps₁, hload, h₁, hlen₁⟩ :=
      @h.loadLine _ _ _ _ maxLength rest t hprint (by omega) _ (hplain e mem_cons_self)
    obtain ⟨l₂, ps₂, hloads, h₂⟩ :=
      ih h₁ (by omega) fun e' he' => hplain e' (mem_cons_of_mem e he')
    refine ⟨l₂, ps₂, ?_, ?_⟩
    · rw [map_cons, foldlM_cons, hload]
      exact hloads
    · simpa using h₂

theorem loadMapsqueues_linesOf (hprint : PrintsWords) (hlen : es.length ≤ maxLength)
    (hplain : ∀ e ∈ es, e.Plain) :
    ∃ l' ps', loadMapsqueues maxLength rest t (linesOf es) = some l' ∧
      l'.Holds ps' (es.map (Entry.reloaded rest)) := by
  have hlines : ∀ p ∈ es.reverse.map Entry.line, p ≠ [] ∧ ∀ c ∈ p, c ∉ ['\n', '\r'] := by
    intro p hp
    obtain ⟨e, he, rfl⟩ := List.mem_map.1 hp
    exact line_chars hprint (hplain e (List.mem_reverse.1 he))
  have hempty : (RecentList.empty).Holds [] [] := ⟨isList_nil _, rfl, fun _ _ => rfl⟩
  obtain ⟨l', ps', hload, hholds⟩ := @hempty.loadLines _ _ _ _ maxLength rest t hprint es.reverse
    (by simpa using hlen) fun e he => hplain e (List.mem_reverse.1 he)
  refine ⟨l', ps', ?_, by simpa using hholds⟩
  rw [loadMapsqueues, linesOf, Timerange.splitOnSeparators_terminated hlines (by simp) (by decide),
    if_pos rfl, List.append_nil]
  exact hload

end Reloading

end Webmon

end Gargoyle
