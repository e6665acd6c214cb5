import Gargoyle.Data.InetText
import Gargoyle.Firewall.Options

/-!
# Lists of addresses

The entries of a list are sorted into three sets by what the scanners of the C library accept. Only
an entry with colons is trimmed before it is tested, subnets are accepted by no scanner, and
the one for addresses of network cards also accepts addresses with eight groups whose first five are
short. Such an address is put into two sets, and its text is freed with both.
-/

namespace Gargoyle

open List

namespace Firewall

open Numerals InetText
open Timerange (splitOnSeparators splitLoop trimFlankingWhitespace whitespace Tight
  trimFlankingWhitespace_eq splitOnSeparators_intercalate)

def libc : AddressText where
  isInet := isInet
  isInet6 := isInet6
  isMac := scanMac

/-! ## Entries -/

inductive AddrForm
  | mac
  | ip
  | ipRange
  | ipSubnet
  | ip6
  | ip6Range
  | ip6Subnet

def AddrForm.kind : AddrForm → AddrKind
  | .mac => .ether
  | .ip | .ipRange | .ipSubnet => .ip
  | .ip6 | .ip6Range | .ip6Subnet => .ip6

def isMaskLength (bits : ℕ) (s : List Char) : Bool :=
  s ≠ [] && s.all Char.isDigit && numeralValue 10 s ≤ bits

def AddrForm.Text : AddrForm → List Char → Prop
  | .mac, s => isMac s = true
  | .ip, s => isInet s = true
  | .ipRange, s => ∃ a b, s = a ++ '-' :: b ∧ isInet a = true ∧ isInet b = true
  | .ipSubnet, s => ∃ a n, s = a ++ '/' :: n ∧ isInet a = true ∧ isMaskLength 32 n = true
  | .ip6, s => isInet6 s = true
  | .ip6Range, s => ∃ a b, s = a ++ '-' :: b ∧ isInet6 a = true ∧ isInet6 b = true
  | .ip6Subnet, s => ∃ a n, s = a ++ '/' :: n ∧ isInet6 a = true ∧ isMaskLength 128 n = true

structure AddrEntry where
  form : AddrForm
  text : List Char
  before : List Char
  after : List Char
  isText : form.Text text
  blanks : ∀ c ∈ before ++ after, c ∈ whitespace

def AddrEntry.part (e : AddrEntry) : List Char := e.before ++ (e.text ++ e.after)

def addrList (entries : List AddrEntry) : List Char :=
  [','].intercalate (entries.map AddrEntry.part)

def textsOf (kind : AddrKind) (entries : List AddrEntry) : List (List Char) :=
  (entries.filter (·.form.kind = kind)).map AddrEntry.text

def filed (entries : List AddrEntry) : Option AddrDef :=
  if entries.isEmpty then none
  else
    some ⟨joinAddrs (textsOf .ip entries), joinAddrs (textsOf .ip6 entries),
      joinAddrs (textsOf .ether entries)⟩

def AddrEntry.Safe (e : AddrEntry) : Prop :=
  match e.form with
  | .mac | .ipRange => True
  | .ip => e.before = [] ∧ e.after = []
  | .ip6 | .ip6Range => scanMac e.text = false
  | .ipSubnet | .ip6Subnet => False

/-! ## The characters of an entry -/

section Characters

variable {s a b n : List Char} {c : Char}

theorem isMaskLength_digits {bits : ℕ} (h : isMaskLength bits n = true) :
    n ≠ [] ∧ ∀ c ∈ n, c.isDigit = true := by
  simp only [isMaskLength, Bool.and_eq_true, all_eq_true, decide_eq_true_eq] at h
  exact h.1

theorem isInet_notMem (h : isInet s = true) {c : Char} (hc : c.isDigit = false ∧ c ≠ '.') :
    c ∉ s := by
  intro hmem
  rcases isInet_chars h hmem with hdigit | rfl
  · rw [hc.1] at hdigit
    cases hdigit
  · exact hc.2 rfl

theorem isInet6_notMem (h : isInet6 s = true) {c : Char}
    (hc : isHexDigit c = false ∧ c ≠ ':' ∧ c ≠ '.') : c ∉ s := by
  intro hmem
  rcases (isInet6_chars h).1 c hmem with hdigit | rfl | rfl
  · rw [hc.1] at hdigit
    cases hdigit
  · exact hc.2.1 rfl
  · exact hc.2.2 rfl

theorem isMac_notMem (h : isMac s = true) {c : Char} (hc : isHexDigit c = false ∧ c ≠ ':') :
    c ∉ s := by
  intro hmem
  rcases (isMac_chars h).1 c hmem with hdigit | rfl
  · rw [hc.1] at hdigit
    cases hdigit
  · exact hc.2 rfl

theorem isMaskLength_notMem {bits : ℕ} (h : isMaskLength bits n = true) {c : Char}
    (hc : c.isDigit = false) : c ∉ n := by
  intro hmem
  have hdigit := (isMaskLength_digits h).2 c hmem
  rw [hc] at hdigit
  cases hdigit

theorem isInet_eq_false (hmem : c ∈ s) (hc : c.isDigit = false ∧ c ≠ '.') : isInet s = false := by
  by_contra h
  exact isInet_notMem (Bool.not_eq_false _ ▸ h) hc hmem

theorem isInet6_eq_false (hmem : c ∈ s) (hc : isHexDigit c = false ∧ c ≠ ':' ∧ c ≠ '.') :
    isInet6 s = false := by
  by_contra h
  exact isInet6_notMem (Bool.not_eq_false _ ▸ h) hc hmem

theorem isInet6_eq_false_of_notMem (h : ':' ∉ s) : isInet6 s = false := by
  by_contra hinet
  exact h (isInet6_chars (Bool.not_eq_false _ ▸ hinet)).2

theorem isInet6_ne_nil (h : isInet6 s = true) : s ≠ [] :=
  ne_nil_of_mem (isInet6_chars h).2

theorem AddrForm.Text.notMem {form : AddrForm} (h : form.Text s) {c : Char}
    (hc : isHexDigit c = false ∧ c.isDigit = false ∧ c ∉ [':', '.', '-', '/']) : c ∉ s := by
  simp only [mem_cons, not_mem_nil, or_false, not_or] at hc
  obtain ⟨hhex, hdigit, hcolon, hdot, hdash, hslash⟩ := hc
  cases form with
  | mac => exact isMac_notMem h ⟨hhex, hcolon⟩
  | ip => exact isInet_notMem h ⟨hdigit, hdot⟩
  | ip6 => exact isInet6_notMem h ⟨hhex, hcolon, hdot⟩
  | ipRange =>
    obtain ⟨a, b, rfl, ha, hb⟩ := h
    simp [isInet_notMem ha ⟨hdigit, hdot⟩, isInet_notMem hb ⟨hdigit, hdot⟩, hdash]
  | ip6Range =>
    obtain ⟨a, b, rfl, ha, hb⟩ := h
    simp [isInet6_notMem ha ⟨hhex, hcolon, hdot⟩, isInet6_notMem hb ⟨hhex, hcolon, hdot⟩, hdash]
  | ipSubnet =>
    obtain ⟨a, n, rfl, ha, hn⟩ := h
    simp [isInet_notMem ha ⟨hdigit, hdot⟩, isMaskLength_notMem hn hdigit, hslash]
  | ip6Subnet =>
    obtain ⟨a, n, rfl, ha, hn⟩ := h
    simp [isInet6_notMem ha ⟨hhex, hcolon, hdot⟩, isMaskLength_notMem hn hdigit, hslash]

theorem AddrForm.Text.ne_nil {form : AddrForm} (h : form.Text s) : s ≠ [] := by
  cases form with
  | mac => exact ne_nil_of_mem (isMac_chars h).2
  | ip => exact isInet_ne_nil h
  | ip6 => exact isInet6_ne_nil h
  | ipRange | ip6Range | ipSubnet | ip6Subnet =>
    obtain ⟨a, b, rfl, -⟩ := h
    simp

theorem whitespace_notMem {form : AddrForm} (h : form.Text s) (hc : c ∈ whitespace) : c ∉ s := by
  refine h.notMem ?_
  simp only [whitespace, mem_cons, not_mem_nil, or_false] at hc
  rcases hc with rfl | rfl | rfl | rfl <;> decide

theorem tight_of_notMem (hne : s ≠ []) (h : ∀ c ∈ whitespace, c ∉ s) : Tight s where
  ne_nil := hne
  head := fun hc => h _ hc (head_mem hne)
  last := fun hc => h _ hc (getLast_mem hne)

theorem AddrForm.Text.tight {form : AddrForm} (h : form.Text s) : Tight s :=
  tight_of_notMem h.ne_nil fun _ hc => whitespace_notMem h hc

theorem tight_of_isInet (h : isInet s = true) : Tight s :=
  AddrForm.Text.tight (show AddrForm.ip.Text s from h)

theorem tight_of_isInet6 (h : isInet6 s = true) : Tight s :=
  AddrForm.Text.tight (show AddrForm.ip6.Text s from h)

end Characters

section Part

variable {e : AddrEntry} {c : Char}

theorem AddrEntry.mem_part_iff (hc : c ∉ whitespace) : c ∈ e.part ↔ c ∈ e.text := by
  have hblanks : c ∉ e.before ++ e.after := fun hmem => hc (e.blanks c hmem)
  rw [mem_append, not_or] at hblanks
  simp [AddrEntry.part, hblanks.1, hblanks.2]

theorem AddrEntry.trim_part (e : AddrEntry) : trimFlankingWhitespace e.part = e.text :=
  trimFlankingWhitespace_eq (fun c hc => e.blanks c (mem_append_left _ hc)) e.isText.tight
    (fun c hc => e.blanks c (mem_append_right _ hc))

theorem AddrEntry.trim_text (e : AddrEntry) : trimFlankingWhitespace e.text = e.text := by
  have h := trimFlankingWhitespace_eq (forall_mem_nil _) e.isText.tight (forall_mem_nil _)
  rwa [nil_append, List.append_nil] at h

theorem AddrEntry.part_ne_nil (e : AddrEntry) : e.part ≠ [] := by
  simp [AddrEntry.part, e.isText.ne_nil]

theorem AddrEntry.comma_notMem (e : AddrEntry) : ',' ∉ e.part := by
  rw [AddrEntry.mem_part_iff (by decide)]
  exact e.isText.notMem (by decide)

end Part

/-! ## The rounds -/

/-- What is found in an entry whose text has the number `ptr`. -/
def AddrEntry.found (e : AddrEntry) (ptr : ℕ) : AddrLists :=
  match e.form with
  | .mac => ⟨[], [], [⟨ptr, e.text⟩]⟩
  | .ip => ⟨if e.before = [] ∧ e.after = [] then [⟨ptr, e.text⟩] else [], [], []⟩
  | .ipRange => ⟨[⟨ptr, e.text⟩], [], []⟩
  | .ipSubnet => ⟨[], [], []⟩
  | .ip6 | .ip6Range => ⟨[], [⟨ptr, e.text⟩], if scanMac e.text then [⟨ptr, e.text⟩] else []⟩
  | .ip6Subnet => ⟨[], [], if scanMac e.text then [⟨ptr, e.text⟩] else []⟩

def AddrLists.append (l l' : AddrLists) : AddrLists :=
  ⟨l.ip ++ l'.ip, l.ip6 ++ l'.ip6, l.mac ++ l'.mac⟩

section Round

variable {sep : Char} {p q : List Char} {lists : AddrLists} {ptr : ℕ}
  {part text : List Char}

theorem splitOnSeparators_pair_remainder (hp : p ≠ [] ∧ sep ∉ p) (hq : q ≠ [] ∧ sep ∉ q) :
    splitOnSeparators (p ++ sep :: q) [sep] 2 true = [p, q] := by
  have hall : ∀ c ∈ p, decide (c ∉ [sep]) = true := fun c hc => by
    simpa using fun heq : c = sep => hp.2 (heq ▸ hc)
  have hstart : (p ++ sep :: q).dropWhile (· ∈ [sep]) = p ++ sep :: q := by
    obtain ⟨c, cs, rfl⟩ := exists_cons_of_ne_nil hp.1
    have hc : c ≠ sep := fun heq => hp.2 (heq ▸ mem_cons_self)
    simp [hc]
  have htake : (p ++ sep :: q).takeWhile (· ∉ [sep]) = p := by
    rw [takeWhile_append_of_pos hall]
    simp
  have hdrop : ((p ++ sep :: q).dropWhile (· ∉ [sep])).dropWhile (· ∈ [sep]) = q := by
    rw [dropWhile_append_of_pos hall]
    obtain ⟨c, cs, rfl⟩ := exists_cons_of_ne_nil hq.1
    have hc : c ≠ sep := fun heq => hq.2 (heq ▸ mem_cons_self)
    simp [hc]
  rw [splitOnSeparators, if_neg (by decide), hstart]
  change splitLoop [sep] true 2 (p ++ sep :: q) = _
  rw [splitLoop, if_neg (by simp), if_neg (by simp), htake, hdrop, splitLoop, if_neg hq.1,
    if_pos ⟨rfl, rfl⟩, splitLoop]

theorem parseAddr_of_notMem (hcolon : ':' ∉ part) (hdash : '-' ∉ part) :
    parseAddr libc lists ⟨ptr, part⟩ = some
      (if isInet part then { lists with ip := lists.ip ++ [⟨ptr, trimFlankingWhitespace part⟩] }
      else lists) := by
  have hinet6 : isInet6 part = false := isInet6_eq_false_of_notMem hcolon
  simp only [parseAddr, libc, hcolon, hdash, hinet6, false_and, if_false, Bool.false_eq_true]
  split_ifs <;> rfl

theorem parseAddr_of_dash (hcolon : ':' ∉ part) (hdash : '-' ∈ part)
    (hsplit : splitOnSeparators part ['-'] 2 true = [p, q])
    (hp : isInet6 (trimFlankingWhitespace p) = false)
    (hinet : isInet (trimFlankingWhitespace p) = true ∧ isInet (trimFlankingWhitespace q) = true) :
    parseAddr libc lists ⟨ptr, part⟩ =
      some { lists with ip := lists.ip ++ [⟨ptr, trimFlankingWhitespace part⟩] } := by
  simp [parseAddr, libc, hcolon, hdash, hsplit, hp, hinet.1, hinet.2]

def AddrLists.addMac (lists : AddrLists) (part : AddrPart) : AddrLists :=
  { lists with mac := lists.mac ++ if scanMac part.text then [part] else [] }

theorem parseAddr_of_colon (hcolon : ':' ∈ part) (htrim : trimFlankingWhitespace part = text)
    (htext : trimFlankingWhitespace text = text) (hmem : ':' ∈ text) (hdash : '-' ∉ text) :
    parseAddr libc lists ⟨ptr, part⟩ = some
      (if isInet6 text then { lists.addMac ⟨ptr, text⟩ with ip6 := lists.ip6 ++ [⟨ptr, text⟩] }
      else lists.addMac ⟨ptr, text⟩) := by
  have hinet : isInet text = false := isInet_eq_false hmem (by decide)
  simp only [parseAddr, libc, AddrLists.addMac, hcolon, htrim, htext, hdash, hinet, true_and,
    if_true, Bool.false_eq_true, if_false]
  by_cases hscan : scanMac text <;> by_cases hinet6 : isInet6 text <;> simp [hscan, hinet6]

theorem parseAddr_of_colon_dash (hcolon : ':' ∈ part) (htrim : trimFlankingWhitespace part = text)
    (htext : trimFlankingWhitespace text = text) (hdash : '-' ∈ text)
    (hsplit : splitOnSeparators text ['-'] 2 true = [p, q])
    (hinet6 : isInet6 (trimFlankingWhitespace p) = true ∧
      isInet6 (trimFlankingWhitespace q) = true) :
    parseAddr libc lists ⟨ptr, part⟩ =
      some { lists.addMac ⟨ptr, text⟩ with ip6 := lists.ip6 ++ [⟨ptr, text⟩] } := by
  simp only [parseAddr, libc, AddrLists.addMac, hcolon, htrim, htext, hdash, hsplit, hinet6,
    true_and, and_self, if_true]
  by_cases hscan : scanMac text <;> simp [hscan]

/-! ### Each form -/

section Forms

variable (lists) (ptr) {e : AddrEntry}

theorem AddrEntry.isText_of (e : AddrEntry) {form : AddrForm} (hform : e.form = form) :
    form.Text e.text := hform ▸ e.isText

theorem AddrEntry.colon_iff : ':' ∈ e.part ↔ ':' ∈ e.text := AddrEntry.mem_part_iff (by decide)

theorem AddrEntry.dash_iff : '-' ∈ e.part ↔ '-' ∈ e.text := AddrEntry.mem_part_iff (by decide)

theorem parseAddr_mac (hform : e.form = .mac) :
    parseAddr libc lists ⟨ptr, e.part⟩ = some (lists.append (e.found ptr)) := by
  have htext : isMac e.text = true := e.isText_of hform
  have hmem : ':' ∈ e.text := (isMac_chars htext).2
  rw [parseAddr_of_colon (e.colon_iff.2 hmem) e.trim_part e.trim_text hmem
    (isMac_notMem htext (by decide)), isInet6_of_isMac htext]
  simp [AddrLists.append, AddrLists.addMac, AddrEntry.found, hform, scanMac_of_isMac htext]

theorem parseAddr_ip (hform : e.form = .ip) :
    parseAddr libc lists ⟨ptr, e.part⟩ = some (lists.append (e.found ptr)) := by
  have htext : isInet e.text = true := e.isText_of hform
  rw [parseAddr_of_notMem (e.colon_iff.not.2 (isInet_notMem htext (by decide)))
    (e.dash_iff.not.2 (isInet_notMem htext (by decide))), e.trim_part]
  by_cases hblanks : e.before = [] ∧ e.after = []
  · have hpart : e.part = e.text := by simp [AddrEntry.part, hblanks]
    rw [hpart, if_pos htext]
    simp [AddrLists.append, AddrEntry.found, hform, hblanks]
  · obtain ⟨c, hc⟩ := exists_mem_of_ne_nil (e.before ++ e.after) (by simpa using hblanks)
    have hmem : c ∈ e.part := by
      rw [AddrEntry.part]
      simp only [mem_append] at hc ⊢
      tauto
    have hblank := e.blanks c hc
    have hpart : isInet e.part = false := by
      refine isInet_eq_false hmem ?_
      simp only [whitespace, mem_cons, not_mem_nil, or_false] at hblank
      rcases hblank with rfl | rfl | rfl | rfl <;> decide
    rw [hpart]
    simp [AddrLists.append, AddrEntry.found, hform, hblanks]

theorem parseAddr_ipSubnet (hform : e.form = .ipSubnet) :
    parseAddr libc lists ⟨ptr, e.part⟩ = some (lists.append (e.found ptr)) := by
  obtain ⟨a, n, heq, ha, hn⟩ : ∃ a n, e.text = a ++ '/' :: n ∧ isInet a = true ∧
      isMaskLength 32 n = true := e.isText_of hform
  have hnot : ∀ c, c.isDigit = false ∧ c ≠ '.' → c ≠ '/' → c ∉ e.text := by
    intro c hc hslash
    simp [heq, isInet_notMem ha hc, isMaskLength_notMem hn hc.1, hslash]
  have hslash : '/' ∈ e.part := (AddrEntry.mem_part_iff (by decide)).2 (by simp [heq])
  rw [parseAddr_of_notMem (e.colon_iff.not.2 (hnot ':' (by decide) (by decide)))
    (e.dash_iff.not.2 (hnot '-' (by decide) (by decide))), isInet_eq_false hslash (by decide)]
  simp [AddrLists.append, AddrEntry.found, hform]

theorem parseAddr_ip6 (hform : e.form = .ip6) :
    parseAddr libc lists ⟨ptr, e.part⟩ = some (lists.append (e.found ptr)) := by
  have htext : isInet6 e.text = true := e.isText_of hform
  have hmem : ':' ∈ e.text := (isInet6_chars htext).2
  rw [parseAddr_of_colon (e.colon_iff.2 hmem) e.trim_part e.trim_text hmem
    (isInet6_notMem htext (by decide)), if_pos htext]
  simp [AddrLists.append, AddrLists.addMac, AddrEntry.found, hform]

theorem parseAddr_ip6Subnet (hform : e.form = .ip6Subnet) :
    parseAddr libc lists ⟨ptr, e.part⟩ = some (lists.append (e.found ptr)) := by
  obtain ⟨a, n, heq, ha, hn⟩ : ∃ a n, e.text = a ++ '/' :: n ∧ isInet6 a = true ∧
      isMaskLength 128 n = true := e.isText_of hform
  have hmem : ':' ∈ e.text := by simp [heq, (isInet6_chars ha).2]
  have hdash : '-' ∉ a ∧ '-' ∉ n :=
    ⟨isInet6_notMem ha (by decide), isMaskLength_notMem hn (by decide)⟩
  have hslash : '/' ∈ e.text := by simp [heq]
  rw [parseAddr_of_colon (e.colon_iff.2 hmem) e.trim_part e.trim_text hmem
    (by simp [heq, hdash.1, hdash.2]), isInet6_eq_false hslash (by decide)]
  simp [AddrLists.append, AddrLists.addMac, AddrEntry.found, hform]

theorem trim_of_blanks {s blanks : List Char} (hs : Tight s)
    (hblanks : ∀ c ∈ blanks, c ∈ whitespace) :
    trimFlankingWhitespace (blanks ++ s) = s ∧ trimFlankingWhitespace (s ++ blanks) = s := by
  have hbefore := trimFlankingWhitespace_eq hblanks hs (forall_mem_nil _)
  have hafter := trimFlankingWhitespace_eq (forall_mem_nil _) hs hblanks
  rw [List.append_nil] at hbefore
  rw [nil_append] at hafter
  exact ⟨hbefore, hafter⟩

/-- A range is filed with both of its ends. -/
theorem parseAddr_ipRange (hform : e.form = .ipRange) :
    parseAddr libc lists ⟨ptr, e.part⟩ = some (lists.append (e.found ptr)) := by
  obtain ⟨a, b, heq, ha, hb⟩ : ∃ a b, e.text = a ++ '-' :: b ∧ isInet a = true ∧
      isInet b = true := e.isText_of hform
  have hbefore : ∀ c ∈ e.before, c ∈ whitespace := fun c hc => e.blanks c (by simp [hc])
  have hafter : ∀ c ∈ e.after, c ∈ whitespace := fun c hc => e.blanks c (by simp [hc])
  have hdash : '-' ∉ e.before ∧ '-' ∉ a ∧ '-' ∉ b ∧ '-' ∉ e.after :=
    ⟨fun h => absurd (hbefore _ h) (by decide), isInet_notMem ha (by decide),
      isInet_notMem hb (by decide), fun h => absurd (hafter _ h) (by decide)⟩
  have hcolon : ':' ∉ e.text := by
    have hcolons : ':' ∉ a ∧ ':' ∉ b := ⟨isInet_notMem ha (by decide), isInet_notMem hb (by decide)⟩
    simp [heq, hcolons.1, hcolons.2]
  have hpart : e.part = (e.before ++ a) ++ '-' :: (b ++ e.after) := by simp [AddrEntry.part, heq]
  have hsplit : splitOnSeparators e.part ['-'] 2 true = [e.before ++ a, b ++ e.after] := by
    rw [hpart]
    refine splitOnSeparators_pair_remainder ⟨?_, ?_⟩ ⟨?_, ?_⟩
    · simp [isInet_ne_nil ha]
    · simp [hdash.1, hdash.2.1]
    · simp [isInet_ne_nil hb]
    · simp [hdash.2.2.1, hdash.2.2.2]
  have hta := (trim_of_blanks (tight_of_isInet ha) hbefore).1
  have htb := (trim_of_blanks (tight_of_isInet hb) hafter).2
  have hinet6 : isInet6 a = false := isInet6_eq_false_of_notMem (isInet_notMem ha (by decide))
  rw [parseAddr_of_dash (e.colon_iff.not.2 hcolon) (by simp [hpart]) hsplit (by rw [hta, hinet6])
    (by rw [hta, htb]; exact ⟨ha, hb⟩), e.trim_part]
  simp [AddrLists.append, AddrEntry.found, hform]

theorem parseAddr_ip6Range (hform : e.form = .ip6Range) :
    parseAddr libc lists ⟨ptr, e.part⟩ = some (lists.append (e.found ptr)) := by
  obtain ⟨a, b, heq, ha, hb⟩ : ∃ a b, e.text = a ++ '-' :: b ∧ isInet6 a = true ∧
      isInet6 b = true := e.isText_of hform
  have hmem : ':' ∈ e.text := by simp [heq, (isInet6_chars ha).2]
  have hsplit : splitOnSeparators e.text ['-'] 2 true = [a, b] := by
    rw [heq]
    exact splitOnSeparators_pair_remainder ⟨isInet6_ne_nil ha, isInet6_notMem ha (by decide)⟩
      ⟨isInet6_ne_nil hb, isInet6_notMem hb (by decide)⟩
  have hta := (trim_of_blanks (tight_of_isInet6 ha) (forall_mem_nil _)).1
  have htb := (trim_of_blanks (tight_of_isInet6 hb) (forall_mem_nil _)).1
  rw [nil_append] at hta htb
  rw [parseAddr_of_colon_dash (e.colon_iff.2 hmem) e.trim_part e.trim_text (by simp [heq]) hsplit
    (by rw [hta, htb]; exact ⟨ha, hb⟩)]
  simp [AddrLists.append, AddrLists.addMac, AddrEntry.found, hform]

theorem parseAddr_part (e : AddrEntry) :
    parseAddr libc lists ⟨ptr, e.part⟩ = some (lists.append (e.found ptr)) := by
  cases hform : e.form with
  | mac => exact parseAddr_mac lists ptr hform
  | ip => exact parseAddr_ip lists ptr hform
  | ipRange => exact parseAddr_ipRange lists ptr hform
  | ipSubnet => exact parseAddr_ipSubnet lists ptr hform
  | ip6 => exact parseAddr_ip6 lists ptr hform
  | ip6Range => exact parseAddr_ip6Range lists ptr hform
  | ip6Subnet => exact parseAddr_ip6Subnet lists ptr hform

end Forms

end Round

/-! ## The sets -/

section Sets

variable {entries : List AddrEntry} {e : AddrEntry} {texts : List (List Char)} {t : List Char}

/-- What is found in the entries, whose texts have the numbers from `k` on. -/
def foundFrom : ℕ → List AddrEntry → AddrLists
  | _, [] => ⟨[], [], []⟩
  | k, e :: entries => (e.found k).append (foundFrom (k + 1) entries)

theorem foldlM_parseAddr (entries : List AddrEntry) (k : ℕ) (lists : AddrLists) :
    (((entries.map AddrEntry.part).zipIdx k).map fun p => (⟨p.2, p.1⟩ : AddrPart)).foldlM
      (parseAddr libc) lists = some (lists.append (foundFrom k entries)) := by
  induction entries generalizing k lists with
  | nil => simp [foundFrom, AddrLists.append]
  | cons e entries ih =>
    rw [map_cons, zipIdx_cons, map_cons, foldlM_cons, parseAddr_part]
    exact (ih (k + 1) _).trans (by simp [foundFrom, AddrLists.append])

theorem foldlM_split (entries : List AddrEntry) :
    ((splitOnSeparators (addrList entries) [','] (-1) false).zipIdx.map
      fun p => (⟨p.2, p.1⟩ : AddrPart)).foldlM (parseAddr libc) ⟨[], [], []⟩ =
        some (foundFrom 0 entries) := by
  have hparts : ∀ p ∈ entries.map AddrEntry.part, p ≠ [] ∧ ',' ∉ p := by
    intro p hp
    obtain ⟨e, -, rfl⟩ := List.mem_map.1 hp
    exact ⟨e.part_ne_nil, e.comma_notMem⟩
  rw [addrList, splitOnSeparators_intercalate hparts, foldlM_parseAddr]
  simp [AddrLists.append]

theorem AddrEntry.length_found (e : AddrEntry) (k : ℕ) :
    (e.found k).ip.length ≤ (textsOf .ip [e]).length ∧
      (e.found k).ip6.length ≤ (textsOf .ip6 [e]).length ∧
      (textsOf .ether [e]).length ≤ (e.found k).mac.length ∧
      ((e.found k).ip.length = (textsOf .ip [e]).length →
        (e.found k).ip6.length = (textsOf .ip6 [e]).length →
        (e.found k).mac.length = (textsOf .ether [e]).length → e.Safe) := by
  cases hform : e.form with
  | mac => simp [AddrEntry.found, AddrEntry.Safe, textsOf, hform, AddrForm.kind]
  | ip =>
    by_cases hblanks : e.before = [] ∧ e.after = []
    · simp [AddrEntry.found, AddrEntry.Safe, textsOf, hform, AddrForm.kind, hblanks]
    · simp [AddrEntry.found, textsOf, hform, AddrForm.kind, hblanks]
  | ipRange => simp [AddrEntry.found, AddrEntry.Safe, textsOf, hform, AddrForm.kind]
  | ipSubnet => simp [AddrEntry.found, textsOf, hform, AddrForm.kind]
  | ip6 | ip6Range =>
    cases hscan : scanMac e.text with
    | false => simp [AddrEntry.found, AddrEntry.Safe, textsOf, hform, AddrForm.kind, hscan]
    | true => simp [AddrEntry.found, textsOf, hform, AddrForm.kind, hscan]
  | ip6Subnet => simp [AddrEntry.found, textsOf, hform, AddrForm.kind]

theorem textsOf_cons (kind : AddrKind) (e : AddrEntry) (entries : List AddrEntry) :
    textsOf kind (e :: entries) = textsOf kind [e] ++ textsOf kind entries := by
  rw [textsOf, textsOf, textsOf, ← map_append, ← filter_append]
  rfl

theorem length_foundFrom (entries : List AddrEntry) (k : ℕ) :
    (foundFrom k entries).ip.length ≤ (textsOf .ip entries).length ∧
      (foundFrom k entries).ip6.length ≤ (textsOf .ip6 entries).length ∧
      (textsOf .ether entries).length ≤ (foundFrom k entries).mac.length ∧
      ((foundFrom k entries).ip.length = (textsOf .ip entries).length →
        (foundFrom k entries).ip6.length = (textsOf .ip6 entries).length →
        (foundFrom k entries).mac.length = (textsOf .ether entries).length →
          ∀ e ∈ entries, e.Safe) := by
  induction entries generalizing k with
  | nil => simp [foundFrom, textsOf]
  | cons e entries ih =>
    obtain ⟨hip, hip6, hmac, hsafe⟩ := e.length_found k
    obtain ⟨hips, hip6s, hmacs, hsafes⟩ := ih (k + 1)
    simp only [foundFrom, AddrLists.append, textsOf_cons _ e entries, length_append,
      forall_mem_cons]
    refine ⟨by omega, by omega, by omega, fun h h6 hm => ⟨hsafe ?_ ?_ ?_, hsafes ?_ ?_ ?_⟩⟩ <;>
      omega

/-! ### The entries that are put into one set -/

/-- The numbers of the texts that are found, in the order opposite to that in which the sets
are freed. -/
def AddrLists.ptrs (lists : AddrLists) : List ℕ :=
  (lists.mac ++ (lists.ip6 ++ lists.ip)).map AddrPart.ptr

theorem ptrs_append (lists lists' : AddrLists) :
    (lists.append lists').ptrs ~ lists.ptrs ++ lists'.ptrs := by
  simp only [AddrLists.ptrs, AddrLists.append, perm_iff_count, map_append, count_append]
  omega

theorem AddrEntry.found_of_safe (h : e.Safe) (k : ℕ) :
    (e.found k).ptrs = [k] ∧ (e.found k).ip.map AddrPart.text = textsOf .ip [e] ∧
      (e.found k).ip6.map AddrPart.text = textsOf .ip6 [e] ∧
      (e.found k).mac.map AddrPart.text = textsOf .ether [e] := by
  cases hform : e.form <;>
    simp_all [AddrEntry.found, AddrEntry.Safe, textsOf, AddrForm.kind, AddrLists.ptrs]

theorem foundFrom_of_safe (h : ∀ e ∈ entries, e.Safe) (k : ℕ) :
    (foundFrom k entries).ptrs ~ List.range' k entries.length ∧
      (foundFrom k entries).ip.map AddrPart.text = textsOf .ip entries ∧
      (foundFrom k entries).ip6.map AddrPart.text = textsOf .ip6 entries ∧
      (foundFrom k entries).mac.map AddrPart.text = textsOf .ether entries := by
  induction entries generalizing k with
  | nil => simp [foundFrom, textsOf, AddrLists.ptrs]
  | cons e entries ih =>
    obtain ⟨he, hrest⟩ := List.forall_mem_cons.1 h
    obtain ⟨hptrs, hip, hip6, hmac⟩ := AddrEntry.found_of_safe he k
    obtain ⟨hptrs', hip', hip6', hmac'⟩ := ih hrest (k + 1)
    refine ⟨(ptrs_append _ _).trans ?_, ?_, ?_, ?_⟩
    · rw [hptrs, length_cons, List.range'_succ, singleton_append]
      exact hptrs'.cons k
    · rw [foundFrom, AddrLists.append, map_append, hip, hip', textsOf_cons _ e entries]
    · rw [foundFrom, AddrLists.append, map_append, hip6, hip6', textsOf_cons _ e entries]
    · rw [foundFrom, AddrLists.append, map_append, hmac, hmac', textsOf_cons _ e entries]

/-- Texts that are not freed yet can be freed once each. -/
theorem joinAndFree_of_nodup {parts : List AddrPart} {freed : List ℕ}
    (h : (parts.map AddrPart.ptr ++ freed).Nodup) :
    joinAndFree parts freed =
      some (joinAddrs (parts.map AddrPart.text), parts.map AddrPart.ptr ++ freed) := by
  have hfreed : parts.foldrM freePart freed = some (parts.map AddrPart.ptr ++ freed) := by
    induction parts with
    | nil => rfl
    | cons part parts ih =>
      obtain ⟨hnotMem, hrest⟩ := nodup_cons.1 h
      rw [foldrM_cons, ih hrest]
      exact if_neg hnotMem
  rw [joinAndFree, hfreed, Option.map_some]

theorem joinAndFree_fst {parts : List AddrPart} {freed : List ℕ} {joined : Option String × List ℕ}
    (h : joinAndFree parts freed = some joined) :
    joined.1 = joinAddrs (parts.map AddrPart.text) := by
  obtain ⟨freed', -, rfl⟩ := Option.map_eq_some_iff.1 h
  rfl

/-! ## The texts of the sets -/

theorem mem_found {k : ℕ} {part : AddrPart}
    (h : part ∈ (e.found k).ip ∨ part ∈ (e.found k).ip6 ∨ part ∈ (e.found k).mac) :
    part.text = e.text := by
  unfold AddrEntry.found at h
  cases hform : e.form <;> simp [hform] at h <;> grind

theorem comma_notMem_text (e : AddrEntry) : ',' ∉ e.text := e.isText.notMem (by decide)

theorem comma_notMem_foundFrom {k : ℕ} {part : AddrPart}
    (h : part ∈ (foundFrom k entries).ip ∨ part ∈ (foundFrom k entries).ip6 ∨
      part ∈ (foundFrom k entries).mac) : ',' ∉ part.text := by
  induction entries generalizing k with
  | nil => simp [foundFrom] at h
  | cons e entries ih =>
    simp only [foundFrom, AddrLists.append, mem_append] at h
    by_cases hfound : part ∈ (e.found k).ip ∨ part ∈ (e.found k).ip6 ∨ part ∈ (e.found k).mac
    · exact mem_found hfound ▸ comma_notMem_text e
    · exact @ih (k + 1) (by tauto)

theorem comma_notMem_textsOf {kind : AddrKind} (h : t ∈ textsOf kind entries) : ',' ∉ t := by
  obtain ⟨e, -, rfl⟩ := List.mem_map.1 h
  exact comma_notMem_text e

theorem count_intercalate (h : ∀ t ∈ texts, ',' ∉ t) (t : List Char) (ht : ',' ∉ t) :
    ([','].intercalate (t :: texts)).count ',' = texts.length := by
  induction texts generalizing t with
  | nil => simp [List.intercalate, count_eq_zero_of_not_mem ht]
  | cons u texts ih =>
    obtain ⟨hu, hrest⟩ := List.forall_mem_cons.1 h
    rw [Timerange.intercalate_cons_cons, count_append, count_eq_zero_of_not_mem ht,
      count_cons_self, ih hrest u hu, length_cons, Nat.zero_add]

def textCount (joined : Option String) : ℕ := joined.elim 0 fun s => s.toList.count ',' + 1

theorem textCount_joinAddrs (h : ∀ t ∈ texts, ',' ∉ t) :
    textCount (joinAddrs texts) = texts.length := by
  match texts with
  | [] => rfl
  | [t] => simp [joinAddrs, textCount, count_eq_zero_of_not_mem (h t (by simp))]
  | t :: u :: texts =>
    have hcount := count_intercalate (fun v hv => h v (mem_cons_of_mem t hv)) t
      (h t mem_cons_self)
    have hjoined : joinAddrs (t :: u :: texts) = some (String.ofList
        (['\x7b'] ++ [','].intercalate (t :: u :: texts) ++ ['\x7d'])) := rfl
    rw [textCount, hjoined, Option.elim_some, String.toList_ofList, count_append,
      count_append, hcount]
    simp

theorem length_eq_of_joinAddrs {parts : List AddrPart} {kind : AddrKind}
    (hparts : ∀ part ∈ parts, ',' ∉ part.text)
    (h : joinAddrs (parts.map AddrPart.text) = joinAddrs (textsOf kind entries)) :
    parts.length = (textsOf kind entries).length := by
  rw [← length_map AddrPart.text, ← textCount_joinAddrs (by simpa using hparts), h,
    textCount_joinAddrs fun t ht => comma_notMem_textsOf ht]

/-- For every list of addresses of network cards, addresses and ranges of both families and subnets
of both, with blanks around the entries: every entry is in the set of its kind and in no other, and
there are no sets only if there are no entries, if and only if no entry is a subnet, an address with
dots with blanks around it, or an address or a range with colons that the scanner for six pairs
accepts. -/
theorem parseIpsAndMacs_files_iff (entries : List AddrEntry) :
    parseIpsAndMacs libc (addrList entries) = some (filed entries) ↔ ∀ e ∈ entries, e.Safe := by
  simp only [parseIpsAndMacs, foldlM_split, Option.bind_some, filed]
  obtain ⟨-, -, -, hsafe⟩ := length_foundFrom entries 0
  constructor
  · intro h
    obtain ⟨ip, hip, h⟩ := Option.bind_eq_some_iff.1 h
    obtain ⟨ip6, hip6, h⟩ := Option.bind_eq_some_iff.1 h
    obtain ⟨mac, hmac, h⟩ := Option.map_eq_some_iff.1 h
    cases entries with
    | nil => exact forall_mem_nil _
    | cons e entries =>
      simp only [isEmpty_cons, Bool.false_eq_true, if_false] at h
      split_ifs at h
      obtain ⟨h₁, h₂, h₃⟩ := AddrDef.mk.inj (Option.some.inj h)
      rw [joinAndFree_fst hip] at h₁
      rw [joinAndFree_fst hip6] at h₂
      rw [joinAndFree_fst hmac] at h₃
      refine hsafe (length_eq_of_joinAddrs ?_ h₁) (length_eq_of_joinAddrs ?_ h₂)
        (length_eq_of_joinAddrs ?_ h₃)
      · exact fun part hpart => comma_notMem_foundFrom (Or.inl hpart)
      · exact fun part hpart => comma_notMem_foundFrom (Or.inr (.inl hpart))
      · exact fun part hpart => comma_notMem_foundFrom (Or.inr (.inr hpart))
  · intro h
    obtain ⟨hptrs, hip, hip6, hmac⟩ := foundFrom_of_safe h 0
    have hnodup : (foundFrom 0 entries).ptrs.Nodup := hptrs.nodup_iff.2 List.nodup_range'
    have hcount : (foundFrom 0 entries).ip.length + (foundFrom 0 entries).ip6.length +
        (foundFrom 0 entries).mac.length = entries.length := by
      have hlength := hptrs.length_eq
      simp only [AddrLists.ptrs, length_map, length_append, List.length_range'] at hlength
      omega
    simp only [AddrLists.ptrs, map_append] at hnodup
    have hnodup6 := (nodup_append.1 hnodup).2.1
    rw [joinAndFree_of_nodup (by simpa using (nodup_append.1 hnodup6).2.1), Option.bind_some,
      joinAndFree_of_nodup (by simpa using hnodup6), Option.bind_some,
      joinAndFree_of_nodup (by simpa using hnodup), Option.map_some, hcount, hip, hip6, hmac]
    cases entries with
    | nil => rfl
    | cons e entries => rfl

end Sets

/-! ## An address behind a blank -/

theorem isInet_firstAddress : isInet "10.0.0.1".toList = true := by decide

theorem isInet_secondAddress : isInet "10.0.0.2".toList = true := by decide

theorem blank_mem_whitespace : ∀ c ∈ [' '] ++ [], c ∈ whitespace :=
  forall_mem_of_all (by decide)

def twoAddresses : List AddrEntry :=
  [⟨.ip, "10.0.0.1".toList, [], [], isInet_firstAddress, forall_mem_nil _⟩,
    ⟨.ip, "10.0.0.2".toList, [' '], [], isInet_secondAddress, blank_mem_whitespace⟩]

/-- The second one is in no set. -/
theorem second_address_lost :
    parseIpsAndMacs libc (addrList twoAddresses) = some (some ⟨some "10.0.0.1", none, none⟩) ∧
      parseIpsAndMacs libc (addrList twoAddresses) ≠ some (filed twoAddresses) := by
  decide

/-- An address whose groups are short is put into two sets and freed twice. -/
example : parseIpsAndMacs libc "fd0:1:2:3:4:5:6:7, fd:1:2:3:4:5:6:7".toList = none := by
  decide

end Firewall

end Gargoyle
