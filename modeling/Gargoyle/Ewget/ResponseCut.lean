import Gargoyle.Data.CText

/-!
# Reading the response of a server

`get_http_response` reads from a connection into a buffer until nothing is left. It writes the bytes
up to the first blank line as the header, and those after it as the body, to up to three streams and
to a response in memory. Redirects are not followed here. A function returns `none` where the program
reads outside of its memory or where a count does not fit into an `int`.
-/

namespace Gargoyle

open Option (map_some none_or)

open List

namespace Ewget

open CText

structure HttpResponse where
  header : Option (List UInt8)
  data : Option (List UInt8)
  isText : Bool
  length : ℕ
deriving DecidableEq

/-- Where a response goes. A destination that is `NULL` is `none`. -/
structure Destinations where
  reply : Option HttpResponse
  headerStream : Option (List UInt8)
  bodyStream : Option (List UInt8)
  combinedStream : Option (List UInt8)
deriving DecidableEq

/-- The variables of `get_http_response`. -/
structure Reader where
  headerBytesRead : ℕ
  bodyBytesRead : ℕ
  readingHeader : Bool
  lastTwoBytesOfOldReadBuffer : UInt8 × UInt8
  out : Destinations
deriving DecidableEq

/-- A count of bytes as an `int`. -/
def int (n : ℕ) : Option ℕ := if n < 2 ^ 31 then some n else none

def earlierEnd : Option ℕ → Option ℕ → Option ℕ
  | some c, some l => some (if c < l then c else l)
  | some c, none => some c
  | none, l => l

/-- `body_start - read_buffer`, where the end of the header is in the buffer or just behind it. -/
def bodyStart (old : UInt8 × UInt8) (buf : List UInt8) : Option ℕ :=
  let crEnd := if old.1 = 10 ∧ old.2 = 13 then if buf.getD 0 0 = 10 then some 1 else none else none
  let (crEnd, lfEnd) :=
    if crEnd = none ∧ old.2 = 10 then
      (if buf.getD 0 0 = 13 ∧ buf.getD 1 0 = 10 then some 2 else crEnd,
        if buf.getD 0 0 = 10 then some 1 else none)
    else (crEnd, none)
  let (crEnd, lfEnd) :=
    if crEnd = none ∧ lfEnd = none then
      ((strstr [10, 13, 10] (cstr buf)).map (· + 3), (strstr [10, 10] (cstr buf)).map (· + 2))
    else (crEnd, lfEnd)
  earlierEnd crEnd lfEnd

/-- Whether the header says that the body is a text, where it says what the body is. The line that
says it is copied up to its end, with a length of `-1` where that is not there yet. -/
def contentIsText (header : List UInt8) : Option (Option Bool) :=
  let header := (cstr header).map tolower
  match strstr (bytes "content-type:") header with
  | none => some none
  | some contentStart =>
    (strchr 10 (header.drop contentStart)).map fun contentEnd =>
      some (strstr (bytes "text") ((header.drop contentStart).take contentEnd)).isSome

/-- The `n` bytes that a response has so far, which are not looked at when there are none. -/
def copyOld (mem : List UInt8) (n : ℕ) : Option (List UInt8) :=
  if n > 0 then memcpy mem n else some []

def HttpResponse.addHeader (reply : HttpResponse) (headerBytesRead : ℕ) (part : List UInt8) :
    Option HttpResponse := do
  let _ ← int (headerBytesRead + part.length + 1)
  let old ← copyOld (reply.header.elim [] (· ++ [0])) headerBytesRead
  let header := old ++ part
  let isText ← contentIsText header
  return { reply with header := some (cstr header), isText := isText.getD reply.isText }

def HttpResponse.addBody (reply : HttpResponse) (bodyBytesRead : ℕ) (part : List UInt8) :
    Option HttpResponse := do
  let total ← int (bodyBytesRead + part.length)
  let old ← copyOld (reply.data.getD []) bodyBytesRead
  return { reply with data := some (old ++ part), length := total }

def Reader.writeHeader (r : Reader) (part : List UInt8) : Option Reader := do
  let out := { r.out with
    headerStream := r.out.headerStream.map (· ++ part)
    combinedStream := r.out.combinedStream.map (· ++ part) }
  match r.out.reply with
  | none => return { r with out }
  | some reply =>
    let reply ← reply.addHeader r.headerBytesRead part
    return { r with
      out := { out with reply := some reply }
      headerBytesRead := r.headerBytesRead + part.length }

def Reader.writeBody (r : Reader) (part : List UInt8) : Option Reader := do
  let out := { r.out with
    bodyStream := r.out.bodyStream.map (· ++ part)
    combinedStream := r.out.combinedStream.map (· ++ part) }
  match r.out.reply with
  | none => return { r with out }
  | some reply =>
    let reply ← reply.addBody r.bodyBytesRead part
    return { r with
      out := { out with reply := some reply }
      bodyBytesRead := r.bodyBytesRead + part.length }

def lastTwoBytes (buf : List UInt8) : UInt8 × UInt8 :=
  (if buf.length = 1 then 0 else buf.getD (buf.length - 2) 0, buf.getD (buf.length - 1) 0)

def Reader.readStep (r : Reader) (buf : List UInt8) : Option Reader := do
  let (r, headerLength) ←
    if r.readingHeader then
      let start := bodyStart r.lastTwoBytesOfOldReadBuffer buf
      let headerLength := start.getD buf.length
      let r ← r.writeHeader (buf.take headerLength)
      some ({ r with readingHeader := start.isNone }, headerLength)
    else some (r, 0)
  let r ← if r.readingHeader then some r else r.writeBody (buf.drop headerLength)
  return { r with lastTwoBytesOfOldReadBuffer := lastTwoBytes buf }

def Reader.start (out : Destinations) : Reader where
  headerBytesRead := 0
  bodyBytesRead := 0
  readingHeader := true
  lastTwoBytesOfOldReadBuffer := (0, 0)
  out := { out with
    reply := out.reply.map fun _ => { header := none, data := none, isText := false, length := 0 } }

/-- `get_http_response` on a connection that gives these reads and then nothing. -/
def getHttpResponse (reads : List (List UInt8)) (out : Destinations) : Option Destinations :=
  (reads.foldlM Reader.readStep (Reader.start out)).map Reader.out

/-!
## Where a response is cut

A stream of bytes is divided at its first blank line. The program sees the stream in the pieces that
the network makes of it, and remembers two bytes of the last piece. `Split` is what it makes of the
pieces, apart from where it writes it. The blank line is missed in one case: when its second byte is
a piece of its own.
-/

def blankLineEnd : List UInt8 → Option ℕ
  | [] => none
  | c :: cs =>
    if c = 10 ∧ [10].isPrefixOf cs then some 2
    else if c = 10 ∧ [13, 10].isPrefixOf cs then some 3
    else (blankLineEnd cs).map (· + 1)

def headerPart (stream : List UInt8) : List UInt8 :=
  match blankLineEnd stream with
  | some n => stream.take n
  | none => stream

def bodyPart (stream : List UInt8) : List UInt8 :=
  match blankLineEnd stream with
  | some n => stream.drop n
  | none => []

section BlankLine

variable {p q : List UInt8} {n : ℕ}

theorem headerPart_append_bodyPart (stream : List UInt8) :
    headerPart stream ++ bodyPart stream = stream := by
  unfold headerPart bodyPart
  cases blankLineEnd stream with
  | none => exact List.append_nil _
  | some n => exact take_append_drop ..

theorem blankLineEnd_le (h : blankLineEnd p = some n) : 2 ≤ n ∧ n ≤ p.length := by
  induction p generalizing n with
  | nil => cases h
  | cons c cs ih =>
    rw [blankLineEnd] at h
    split_ifs at h with h₁ h₂
    · obtain rfl := Option.some.inj h
      have := (List.isPrefixOf_iff_prefix.1 h₁.2).length_le
      exact ⟨le_rfl, by simpa using this⟩
    · obtain rfl := Option.some.inj h
      have := (List.isPrefixOf_iff_prefix.1 h₂.2).length_le
      exact ⟨by omega, by simpa using this⟩
    · obtain ⟨m, hm, rfl⟩ := Option.map_eq_some_iff.1 h
      have := ih hm
      rw [length_cons]
      omega

/-- A blank line that has ended stays the first. -/
theorem blankLineEnd_append_of_some (h : blankLineEnd p = some n) :
    blankLineEnd (p ++ q) = some n := by
  induction p generalizing n with
  | nil => cases h
  | cons c cs ih =>
    rw [blankLineEnd] at h
    rw [cons_append, blankLineEnd]
    split_ifs at h with h₁ h₂
    · have := (List.isPrefixOf_iff_prefix.1 h₁.2).trans (prefix_append cs q)
      rw [if_pos ⟨h₁.1, List.isPrefixOf_iff_prefix.2 this⟩, h]
    · have hpre := (List.isPrefixOf_iff_prefix.1 h₂.2).trans (prefix_append cs q)
      obtain ⟨t, ht⟩ := hpre
      rw [if_neg, if_pos ⟨h₂.1, List.isPrefixOf_iff_prefix.2 ⟨t, ht⟩⟩, h]
      rw [← ht]
      simp
    · obtain ⟨m, hm, rfl⟩ := Option.map_eq_some_iff.1 h
      have hlen := blankLineEnd_le hm
      have hlong : ∀ l : List UInt8, l.length ≤ 2 → (l <+: cs ++ q ↔ l <+: cs) := by
        intro l hl
        constructor
        · intro hpre
          exact prefix_of_prefix_length_le hpre (prefix_append cs q) (by omega)
        · intro hpre
          exact hpre.trans (prefix_append cs q)
      simp only [ isPrefixOf_iff_prefix] at h₁ h₂ ⊢
      rw [if_neg, if_neg, ih hm, map_some]
      · rwa [hlong _ (by simp)]
      · rwa [hlong _ (by simp)]

def straddles (p q : List UInt8) : Option ℕ :=
  if [10, 13].isSuffixOf p ∧ [10].isPrefixOf q then some 1
  else if [10].isSuffixOf p ∧ [13, 10].isPrefixOf q then some 2
  else if [10].isSuffixOf p ∧ [10].isPrefixOf q then some 1
  else none

theorem straddles_cons {c : UInt8} {cs : List UInt8} (h : c ≠ 10 ∨ 2 ≤ cs.length) :
    straddles (c :: cs) q = straddles cs q := by
  have h₁ : [10, 13].isSuffixOf (c :: cs) ↔ [10, 13].isSuffixOf cs := by
    rw [isSuffixOf_iff_suffix, isSuffixOf_iff_suffix, suffix_cons_iff, or_iff_right]
    rintro heq
    obtain ⟨rfl, rfl⟩ := List.cons.inj heq
    simp at h
  have h₂ : [10].isSuffixOf (c :: cs) ↔ [10].isSuffixOf cs := by
    rw [isSuffixOf_iff_suffix, isSuffixOf_iff_suffix, suffix_cons_iff, or_iff_right]
    rintro heq
    obtain ⟨rfl, rfl⟩ := List.cons.inj heq
    simp at h
  rw [straddles, straddles]
  simp only [h₁, h₂]

theorem straddles_nil : straddles [] q = none := by
  simp [straddles]

theorem straddles_newline : straddles [10] q =
    if [13, 10].isPrefixOf q then some 2 else if [10].isPrefixOf q then some 1 else none := by
  simp [straddles, List.isSuffixOf, List.isPrefixOf]

theorem straddles_singleton {a : UInt8} (h : a ≠ 10) : straddles [a] q = none := by
  simp [straddles, List.isSuffixOf, List.isPrefixOf, h.symm]

theorem straddles_cons_singleton {a : UInt8} (h : a ≠ 10) : straddles [10, a] q =
    if 13 = a ∧ [10].isPrefixOf q then some 1 else none := by
  simp [straddles, List.isSuffixOf, List.isPrefixOf, h.symm]

/-- The first blank line ends behind the cut, or is cut itself. -/
theorem blankLineEnd_append_of_none (h : blankLineEnd p = none) :
    blankLineEnd (p ++ q) = ((straddles p q).or (blankLineEnd q)).map (p.length + ·) := by
  induction p with
  | nil => simp [straddles]
  | cons c cs ih =>
    rw [blankLineEnd] at h
    split_ifs at h with h₁ h₂
    have ih := ih (Option.map_eq_none_iff.1 h)
    rw [cons_append, blankLineEnd, ih]
    by_cases hc : c = 10
    · subst hc
      rcases cs with - | ⟨a, - | ⟨b, cs⟩⟩
      · rw [straddles_nil, straddles_newline, nil_append, none_or]
        by_cases h10 : [10].isPrefixOf q
        · have h13 : ¬[13, 10].isPrefixOf q := by
            rcases q with - | ⟨x, q⟩
            · simp
            · simp only [List.isPrefixOf, Bool.and_true, beq_iff_eq] at h10
              simp [← h10]
          rw [if_pos ⟨rfl, h10⟩, if_neg h13, if_pos h10]
          rfl
        · rw [if_neg (fun h => h10 h.2)]
          by_cases h13 : [13, 10].isPrefixOf q
          · rw [if_pos ⟨rfl, h13⟩, if_pos h13]
            rfl
          · rw [if_neg (fun h => h13 h.2), if_neg h13, if_neg h10, Option.map_map, none_or]
            congr 1
            funext n
            simp [Nat.add_comm]
      · have ha : a ≠ 10 := by
          rintro rfl
          exact h₁ ⟨rfl, rfl⟩
        rw [straddles_cons_singleton ha, straddles_singleton ha, none_or, if_neg]
        · by_cases h13 : 13 = a ∧ [10].isPrefixOf q
          · rw [if_pos h13, if_pos]
            · rfl
            · simpa [List.isPrefixOf] using h13
          · rw [if_neg h13, if_neg, Option.map_map, none_or]
            · congr 1
              funext n
              simp [Nat.add_comm, Nat.add_left_comm]
            · simpa [List.isPrefixOf] using h13
        · simpa [List.isPrefixOf] using ha.symm
      · have hlen : 2 ≤ (a :: b :: cs).length := by simp
        rw [straddles_cons (.inr hlen)]
        have h₁ : ¬[10].isPrefixOf (a :: b :: cs) := fun h => h₁ ⟨rfl, h⟩
        have h₂ : ¬[13, 10].isPrefixOf (a :: b :: cs) := fun h => h₂ ⟨rfl, h⟩
        rw [if_neg, if_neg, Option.map_map]
        · congr 1
          funext n
          simp [Nat.add_right_comm]
        · simpa [List.isPrefixOf] using h₂
        · simpa [List.isPrefixOf] using h₁
    · rw [straddles_cons (.inl hc), if_neg (fun h => hc h.1), if_neg (fun h => hc h.1),
        Option.map_map]
      congr 1
      funext n
      simp [Nat.add_right_comm]

theorem straddles_pos (h : straddles p q = some n) : 1 ≤ n := by
  unfold straddles at h
  split_ifs at h
  all_goals
    obtain rfl := Option.some.inj h
    omega

theorem blankLineEnd_take (h : blankLineEnd p = some n) : blankLineEnd (p.take n) = some n := by
  have hn := blankLineEnd_le h
  rw [← take_append_drop n p] at h
  cases htake : blankLineEnd (p.take n) with
  | some m => rwa [blankLineEnd_append_of_some htake] at h
  | none =>
    rw [blankLineEnd_append_of_none htake, length_take, min_eq_left hn.2] at h
    obtain ⟨k, hk, hnk⟩ := Option.map_eq_some_iff.1 h
    have hpos : 1 ≤ k := by
      rcases Option.or_eq_some_iff.1 hk with hk | ⟨-, hk⟩
      · exact straddles_pos hk
      · exact le_trans (by omega) (blankLineEnd_le hk).1
    omega

theorem headerPart_of_none (h : blankLineEnd p = none) : headerPart p = p := by
  rw [headerPart, h]

theorem headerPart_of_some (h : blankLineEnd p = some n) : headerPart p = p.take n := by
  rw [headerPart, h]

theorem headerPart_append_of_some (h : blankLineEnd p = some n) :
    headerPart (p ++ q) = headerPart p := by
  rw [headerPart_of_some (blankLineEnd_append_of_some h), headerPart_of_some h,
    take_append_of_le_length (blankLineEnd_le h).2]

theorem headerPart_prefix_append : headerPart p <+: headerPart (p ++ q) := by
  cases h : blankLineEnd p with
  | some n =>
    rw [headerPart_append_of_some h]
  | none =>
    rw [headerPart_of_none h, headerPart, blankLineEnd_append_of_none h]
    cases (straddles p q).or (blankLineEnd q) with
    | none => exact prefix_append ..
    | some n =>
      rw [map_some]
      show p <+: (p ++ q).take (p.length + n)
      rw [take_length_add_append]
      exact prefix_append ..

theorem bodyPart_prefix_append : bodyPart p <+: bodyPart (p ++ q) := by
  cases h : blankLineEnd p with
  | some n =>
    rw [bodyPart, bodyPart, h, blankLineEnd_append_of_some h]
    show p.drop n <+: (p ++ q).drop n
    rw [drop_append_of_le_length (blankLineEnd_le h).2]
    exact prefix_append ..
  | none =>
    rw [bodyPart, h]
    exact nil_prefix

theorem headerPart_append_of_none (h : blankLineEnd p = none) (hs : straddles p q = none) :
    headerPart (p ++ q) = p ++ headerPart q := by
  rw [headerPart, blankLineEnd_append_of_none h, hs, none_or, headerPart]
  cases blankLineEnd q with
  | none => rfl
  | some n => exact take_length_add_append n

theorem blankLineEnd_cstr (h : 0 ∉ headerPart p) : blankLineEnd (cstr p) = blankLineEnd p := by
  cases hp : blankLineEnd p with
  | none =>
    rw [headerPart_of_none hp] at h
    rw [cstr_of_notMem h, hp]
  | some n =>
    rw [headerPart, hp] at h
    have hcut : cstr p = p.take n ++ cstr (p.drop n) := by
      conv_lhs => rw [← take_append_drop n p]
      exact cstr_append_of_notMem h
    rw [hcut, blankLineEnd_append_of_some (blankLineEnd_take hp)]

theorem earlierEnd_map_succ (c l : Option ℕ) :
    earlierEnd (c.map (· + 1)) (l.map (· + 1)) = (earlierEnd c l).map (· + 1) := by
  cases c with
  | none => rfl
  | some c =>
    cases l with
    | none => rfl
    | some l =>
      simp only [map_some, earlierEnd]
      split_ifs
      · rfl
      · omega
      · omega
      · rfl

theorem earlierEnd_strstr (s : List UInt8) :
    earlierEnd ((strstr [10, 13, 10] s).map (· + 3)) ((strstr [10, 10] s).map (· + 2)) =
      blankLineEnd s := by
  induction s with
  | nil => rfl
  | cons c cs ih =>
    have hpre : ∀ l : List UInt8, (10 :: l).isPrefixOf (c :: cs) ↔ c = 10 ∧ l.isPrefixOf cs := by
      intro l
      rw [List.isPrefixOf, Bool.and_eq_true, beq_iff_eq, eq_comm]
    rw [strstr, strstr, blankLineEnd]
    by_cases h₁ : c = 10 ∧ [10].isPrefixOf cs
    · rw [if_pos h₁, if_pos ((hpre _).2 h₁)]
      cases hcr : (if [10, 13, 10].isPrefixOf (c :: cs) then some 0
          else (strstr [10, 13, 10] cs).map (· + 1)) with
      | none => rfl
      | some m =>
        simp only [map_some, earlierEnd]
        rw [if_neg (by omega)]
    · rw [if_neg h₁, if_neg (fun h => h₁ ((hpre _).1 h))]
      by_cases h₂ : c = 10 ∧ [13, 10].isPrefixOf cs
      · rw [if_pos h₂, if_pos ((hpre _).2 h₂)]
        cases hlf : strstr [10, 10] cs with
        | none => rfl
        | some m =>
          simp only [map_some, earlierEnd]
          split_ifs
          · rfl
          · congr 1
            omega
      · rw [if_neg h₂, if_neg (fun h => h₂ ((hpre _).1 h)), ← ih, ← earlierEnd_map_succ]
        simp only [Option.map_map]
        congr 1

theorem getD_zero_iff (b : List UInt8) : b.getD 0 0 = 10 ↔ [10].isPrefixOf b := by
  cases b with
  | nil => simp
  | cons x b =>
    rw [getD_cons_zero, List.isPrefixOf, List.isPrefixOf, Bool.and_true, beq_iff_eq]
    exact eq_comm

theorem getD_one_iff (b : List UInt8) :
    (b.getD 0 0 = 13 ∧ b.getD 1 0 = 10) ↔ [13, 10].isPrefixOf b := by
  cases b with
  | nil => simp
  | cons x b =>
    rw [getD_cons_zero, getD_cons_succ, getD_zero_iff, List.isPrefixOf,
      Bool.and_eq_true, beq_iff_eq, eq_comm]

theorem bodyStart_of_remembered {old : UInt8 × UInt8} {b : List UInt8}
    (h₁ : [10, 13].isSuffixOf p ↔ old.1 = 10 ∧ old.2 = 13) (h₂ : [10].isSuffixOf p ↔ old.2 = 10) :
    bodyStart old b = (straddles p b).or (blankLineEnd (cstr b)) := by
  rw [← earlierEnd_strstr]
  simp only [bodyStart, straddles, h₁, h₂, getD_zero_iff, getD_one_iff]
  by_cases hcr : old.1 = 10 ∧ old.2 = 13
  · have hlf : ¬old.2 = 10 := by
      rw [hcr.2]
      decide
    by_cases hb : [10].isPrefixOf b
    · simp [hcr, hb, earlierEnd]
    · simp [hcr, hb]
  · by_cases hlf : old.2 = 10
    · by_cases hb : [13, 10].isPrefixOf b
      · have hb' : ¬[10].isPrefixOf b := by
          rw [← getD_zero_iff, ((getD_one_iff b).2 hb).1]
          decide
        simp [hlf, hb, hb', earlierEnd]
      · by_cases hb' : [10].isPrefixOf b
        · simp [hlf, hb, hb', earlierEnd]
        · simp [hlf, hb, hb']
    · simp [hcr, hlf]

theorem bodyStart_of_forgotten {b : List UInt8} :
    bodyStart (0, 13) b = blankLineEnd (cstr b) := by
  rw [← earlierEnd_strstr]
  simp [bodyStart]

theorem bodyStart_pos {old : UInt8 × UInt8} {b : List UInt8} (h : bodyStart old b = some n) :
    1 ≤ n := by
  have hfound : 1 ≤ n ∨ blankLineEnd (cstr b) = some n := by
    rw [← earlierEnd_strstr]
    simp only [bodyStart] at h
    split_ifs at h
    all_goals first
      | exact .inr h
      | simp_all [earlierEnd]
    all_goals omega
  rcases hfound with h | h
  · exact h
  · exact le_trans (by omega) (blankLineEnd_le h).1

end BlankLine

/-! ### The pieces of a stream -/

structure Split where
  readingHeader : Bool
  header : List UInt8
  body : List UInt8
  lastTwo : UInt8 × UInt8

namespace Split

def start : Split := ⟨true, [], [], (0, 0)⟩

def step (s : Split) (buf : List UInt8) : Split :=
  if s.readingHeader then
    let start := bodyStart s.lastTwo buf
    let n := start.getD buf.length
    { readingHeader := start.isNone, header := s.header ++ buf.take n,
      body := s.body ++ buf.drop n, lastTwo := lastTwoBytes buf }
  else { s with body := s.body ++ buf, lastTwo := lastTwoBytes buf }

def ofReads (reads : List (List UInt8)) : Split := reads.foldl step start

variable {s : Split} {b : List UInt8} {reads after : List (List UInt8)}

theorem ofReads_append_singleton : ofReads (reads ++ [b]) = (ofReads reads).step b := by
  simp [ofReads]

theorem step_of_none (hr : s.readingHeader = true) (h : bodyStart s.lastTwo b = none) :
    s.step b = ⟨true, s.header ++ b, s.body, lastTwoBytes b⟩ := by
  simp [step, hr, h]

theorem step_of_some {n : ℕ} (hr : s.readingHeader = true) (h : bodyStart s.lastTwo b = some n) :
    s.step b = ⟨false, s.header ++ b.take n, s.body ++ b.drop n, lastTwoBytes b⟩ := by
  simp [step, hr, h]

theorem step_of_not (hr : s.readingHeader = false) :
    s.step b = ⟨false, s.header, s.body ++ b, lastTwoBytes b⟩ := by
  simp [step, hr]

theorem lastTwo_step : (s.step b).lastTwo = lastTwoBytes b := by
  unfold step
  split_ifs
  · rfl
  · rfl

theorem header_prefix_step : s.header <+: (s.step b).header := by
  unfold step
  split_ifs
  · exact prefix_append ..
  · exact prefix_rfl

theorem header_prefix_foldl (s : Split) (after : List (List UInt8)) :
    s.header <+: (after.foldl step s).header := by
  induction after generalizing s with
  | nil => exact prefix_rfl
  | cons b after ih => exact header_prefix_step.trans (ih _)

theorem header_length_step (hr : s.readingHeader = true) (hb : b ≠ []) :
    s.header.length + 1 ≤ (s.step b).header.length := by
  have hlen := List.length_pos_iff.2 hb
  cases h : bodyStart s.lastTwo b with
  | none =>
    rw [step_of_none hr h, length_append]
    omega
  | some n =>
    have := bodyStart_pos h
    rw [step_of_some hr h, length_append, length_take]
    omega

theorem header_append_body_step (h : s.readingHeader = true → s.body = []) :
    (s.step b).header ++ (s.step b).body = s.header ++ s.body ++ b ∧
      ((s.step b).readingHeader = true → (s.step b).body = []) := by
  cases hr : s.readingHeader with
  | false =>
    rw [step_of_not hr]
    exact ⟨(append_assoc ..).symm, fun h => by cases h⟩
  | true =>
    have hbody := h hr
    cases hstart : bodyStart s.lastTwo b with
    | none =>
      rw [step_of_none hr hstart, hbody]
      simp
    | some n =>
      rw [step_of_some hr hstart, hbody]
      simp

theorem header_append_body (reads : List (List UInt8)) :
    (ofReads reads).header ++ (ofReads reads).body = reads.flatten ∧
      ((ofReads reads).readingHeader = true → (ofReads reads).body = []) := by
  induction reads using List.reverseRecOn with
  | nil => exact ⟨rfl, fun _ => rfl⟩
  | append_singleton reads b ih =>
    have hstep := header_append_body_step (b := b) ih.2
    rw [ofReads_append_singleton, hstep.1, ih.1]
    exact ⟨by simp, hstep.2⟩

end Split

theorem newline_suffix_iff {p : List UInt8} {x : UInt8} : [10] <:+ p ++ [x] ↔ x = 10 := by
  have h : [] ++ [10] <:+ p ++ [x] ↔ [] <:+ p ∧ [10] = [x] :=
    suffix_append_inj_of_length_eq rfl
  rw [nil_append, and_iff_right (nil_suffix), List.cons.injEq, and_iff_left rfl] at h
  exact h.trans eq_comm

theorem carriageReturn_suffix_iff {p : List UInt8} {x : UInt8} :
    [10, 13] <:+ p ++ [x] ↔ x = 13 ∧ [10] <:+ p := by
  have h : [10] ++ [13] <:+ p ++ [x] ↔ [10] <:+ p ∧ [13] = [x] :=
    suffix_append_inj_of_length_eq rfl
  rw [singleton_append, List.cons.injEq, and_iff_left rfl, and_comm] at h
  rw [h, eq_comm]

/-- The last two bytes are remembered, unless a lone `\r` has been read. -/
theorem remembered_or_forgotten {reads : List (List UInt8)} (hne : ∀ b ∈ reads, b ≠ []) :
    (([10, 13] <:+ reads.flatten ↔
        (Split.ofReads reads).lastTwo.1 = 10 ∧ (Split.ofReads reads).lastTwo.2 = 13) ∧
      ([10] <:+ reads.flatten ↔ (Split.ofReads reads).lastTwo.2 = 10)) ∨
    ∃ before, reads = before ++ [[13]] ∧ [10] <:+ before.flatten := by
  rcases eq_nil_or_concat' reads with rfl | ⟨before, c, rfl⟩
  · exact .inl ⟨by decide, by decide⟩
  · rw [Split.ofReads_append_singleton, Split.lastTwo_step, flatten_append,
      flatten_singleton]
    have hc : c ≠ [] := hne c (by simp)
    obtain ⟨c, y, rfl⟩ := (eq_nil_or_concat' c).resolve_left hc
    rcases eq_nil_or_concat' c with rfl | ⟨c, x, rfl⟩
    · by_cases h : y = 13 ∧ [10] <:+ before.flatten
      · obtain ⟨rfl, h⟩ := h
        exact .inr ⟨before, rfl, h⟩
      · left
        rw [nil_append, carriageReturn_suffix_iff, newline_suffix_iff]
        refine ⟨iff_of_false h ?_, Iff.rfl⟩
        rintro ⟨h, -⟩
        simp [lastTwoBytes] at h
    · left
      have hlast : lastTwoBytes ((c ++ [x]) ++ [y]) = (x, y) := by
        simp [lastTwoBytes]
      rw [hlast, ← append_assoc, carriageReturn_suffix_iff, newline_suffix_iff,
        ← append_assoc, newline_suffix_iff]
      exact ⟨and_comm, Iff.rfl⟩

structure Split.Reading (reads : List (List UInt8)) : Prop where
  readingHeader : (ofReads reads).readingHeader = true
  header_eq : (ofReads reads).header = reads.flatten
  blankLineEnd_eq : blankLineEnd reads.flatten = none

structure Split.Divided (reads : List (List UInt8)) : Prop where
  readingHeader : (ofReads reads).readingHeader = false
  header_eq : (ofReads reads).header = headerPart reads.flatten
  blankLineEnd_isSome : (blankLineEnd reads.flatten).isSome

section Step

variable {reads : List (List UInt8)} {b : List UInt8}

theorem blankLineEnd_append_piece (hne : ∀ b ∈ reads, b ≠ []) (hr : Split.Reading reads)
    (hnul : 0 ∉ headerPart (reads.flatten ++ b))
    (hcut : ¬∃ before, reads = before ++ [[13]] ∧ [10] <:+ before.flatten ∧ [10] <+: b) :
    blankLineEnd (reads.flatten ++ b) =
      (bodyStart (Split.ofReads reads).lastTwo b).map (reads.flatten.length + ·) := by
  have hcstr : straddles reads.flatten b = none → blankLineEnd (cstr b) = blankLineEnd b := by
    intro hs
    rw [headerPart_append_of_none hr.blankLineEnd_eq hs, mem_append, not_or] at hnul
    exact blankLineEnd_cstr hnul.2
  have hor : (straddles reads.flatten b).or (blankLineEnd (cstr b)) =
      (straddles reads.flatten b).or (blankLineEnd b) := by
    cases hs : straddles reads.flatten b with
    | none => rw [hcstr hs]
    | some n => rfl
  rw [blankLineEnd_append_of_none hr.blankLineEnd_eq, ← hor]
  congr 1
  rcases remembered_or_forgotten hne with ⟨h₁, h₂⟩ | ⟨before, rfl, hbefore⟩
  · rw [bodyStart_of_remembered _ _]
    · rw [isSuffixOf_iff_suffix, h₁]
    · rw [isSuffixOf_iff_suffix, h₂]
  · have hb : ¬[10] <+: b := fun hb => hcut ⟨before, rfl, hbefore, hb⟩
    have hs : straddles (before ++ [[13]]).flatten b = none := by
      simp only [straddles, isSuffixOf_iff_suffix, isPrefixOf_iff_prefix, hb,
        flatten_append, flatten_singleton, newline_suffix_iff]
      simp
    rw [hs, none_or, Split.ofReads_append_singleton, Split.lastTwo_step]
    exact bodyStart_of_forgotten.symm

/-- A read either continues the header or ends it at the blank line. -/
theorem Split.Reading.step (hne : ∀ b ∈ reads, b ≠ []) (hr : Split.Reading reads)
    (hnul : 0 ∉ headerPart (reads.flatten ++ b))
    (hcut : ¬∃ before, reads = before ++ [[13]] ∧ [10] <:+ before.flatten ∧ [10] <+: b) :
    Split.Reading (reads ++ [b]) ∨ Split.Divided (reads ++ [b]) := by
  have hend := blankLineEnd_append_piece hne hr hnul hcut
  have hflat : (reads ++ [b]).flatten = reads.flatten ++ b := by simp
  cases hstart : bodyStart (Split.ofReads reads).lastTwo b with
  | none =>
    left
    have hstep := Split.step_of_none hr.readingHeader hstart
    rw [← Split.ofReads_append_singleton] at hstep
    rw [hstart] at hend
    constructor
    · rw [hstep]
    · rw [hstep, hflat, hr.header_eq]
    · rw [hflat, hend]
      rfl
  | some n =>
    right
    have hstep := Split.step_of_some hr.readingHeader hstart
    rw [← Split.ofReads_append_singleton] at hstep
    rw [hstart, map_some] at hend
    constructor
    · rw [hstep]
    · rw [hstep, hflat, headerPart, hend, hr.header_eq]
      exact (take_length_add_append n).symm
    · rw [hflat, hend]
      rfl

theorem Split.Divided.step (hd : Split.Divided reads) : Split.Divided (reads ++ [b]) := by
  have hstep := Split.step_of_not (b := b) hd.readingHeader
  rw [← Split.ofReads_append_singleton] at hstep
  obtain ⟨n, hn⟩ := Option.isSome_iff_exists.1 hd.blankLineEnd_isSome
  have hend : blankLineEnd (reads ++ [b]).flatten = some n := by
    rw [flatten_append, blankLineEnd_append_of_some hn]
  constructor
  · rw [hstep]
  · rw [hstep, hd.header_eq, flatten_append, headerPart_append_of_some hn]
  · rw [hend]
    rfl

end Step

def CutsBlankLine (reads : List (List UInt8)) : Prop :=
  ∃ before t after, reads = before ++ [13] :: (10 :: t) :: after ∧
    blankLineEnd before.flatten = none ∧ [10] <:+ before.flatten ∧ t ++ after.flatten ≠ []

section Cut

variable {reads after : List (List UInt8)} {b t p : List UInt8}

theorem blankLineEnd_of_cut (hp : blankLineEnd p = none) (h10 : [10] <:+ p) :
    blankLineEnd (p ++ 13 :: 10 :: t) = some (p.length + 2) := by
  have hs : straddles p (13 :: 10 :: t) = some 2 := by
    simp [straddles, List.isPrefixOf, h10]
  rw [blankLineEnd_append_of_none hp, hs]
  rfl

theorem headerPart_of_cut (hp : blankLineEnd p = none) (h10 : [10] <:+ p) :
    headerPart (p ++ 13 :: 10 :: t) = p ++ [13, 10] := by
  rw [headerPart_of_some (blankLineEnd_of_cut hp h10), take_length_add_append]
  rfl

/-- The header is read on, or has been divided from the body. -/
theorem reading_or_divided (hne : ∀ b ∈ reads, b ≠ []) (hnul : 0 ∉ headerPart reads.flatten)
    (hafter : after.flatten ≠ []) (hcut : ¬CutsBlankLine (reads ++ after)) :
    Split.Reading reads ∨ Split.Divided reads := by
  induction reads using List.reverseRecOn generalizing after with
  | nil => exact .inl ⟨rfl, rfl, rfl⟩
  | append_singleton reads b ih =>
    rw [append_assoc] at hcut
    have hflat : (reads ++ [b]).flatten = reads.flatten ++ b := by simp
    rw [hflat] at hnul
    have hb : ([b] ++ after).flatten ≠ [] := by
      rw [flatten_append]
      exact fun h => hafter (List.append_eq_nil_iff.1 h).2
    have hne' : ∀ b ∈ reads, b ≠ [] := fun b hb => hne b (mem_append_left _ hb)
    rcases ih hne' (fun h => hnul (headerPart_prefix_append.subset h)) hb hcut with hr | hd
    · refine hr.step hne' hnul ?_
      rintro ⟨before, rfl, h10, t, rfl⟩
      refine hcut ⟨before, t, after, by simp, ?_, h10, ?_⟩
      · have := hr.blankLineEnd_eq
        rw [flatten_append] at this
        cases hbefore : blankLineEnd before.flatten with
        | none => rfl
        | some n =>
          rw [blankLineEnd_append_of_some hbefore] at this
          cases this
      · exact fun h => hafter (List.append_eq_nil_iff.1 h).2
    · exact .inr hd.step

theorem bodyPart_of_cut (hp : blankLineEnd p = none) (h10 : [10] <:+ p) :
    bodyPart (p ++ 13 :: 10 :: t) = t := by
  rw [bodyPart, blankLineEnd_of_cut hp h10]
  exact drop_length_add_append 2

theorem Split.Reading.header_of_singleton {x : UInt8} (hr : Split.Reading reads) :
    (Split.ofReads (reads ++ [[x]])).header = (reads ++ [[x]]).flatten := by
  have hlen := Split.header_length_step hr.readingHeader (cons_ne_nil x [])
  rw [← Split.ofReads_append_singleton, hr.header_eq] at hlen
  obtain ⟨hall, -⟩ := Split.header_append_body (reads ++ [[x]])
  have hle := congrArg List.length hall
  rw [length_append, flatten_append, flatten_singleton, length_append,
    length_singleton] at hle
  have hbody : (Split.ofReads (reads ++ [[x]])).body = [] := by
    rw [← length_eq_zero_iff]
    omega
  rw [← hall, hbody, List.append_nil]

/-- The header is found if no read ends inside of its blank line. -/
theorem header_of_not_cut (hne : ∀ b ∈ reads, b ≠ []) (hnul : 0 ∉ headerPart reads.flatten)
    (hcut : ¬CutsBlankLine reads) : (Split.ofReads reads).header = headerPart reads.flatten := by
  rcases eq_nil_or_concat' reads with rfl | ⟨before, b, rfl⟩
  · rfl
  · have hb : b ≠ [] := hne b (by simp)
    have hne' : ∀ b ∈ before, b ≠ [] := fun b hb => hne b (mem_append_left _ hb)
    have hflat : (before ++ [b]).flatten = before.flatten ++ b := by simp
    rw [hflat] at hnul
    have hnul' : 0 ∉ headerPart before.flatten := fun h => hnul (headerPart_prefix_append.subset h)
    rcases reading_or_divided hne' hnul' (by simpa using hb) hcut with hr | hd
    · by_cases hbad : ∃ before', before = before' ++ [[13]] ∧ [10] <:+ before'.flatten ∧ [10] <+: b
      · obtain ⟨before, rfl, h10, t, rfl⟩ := hbad
        have hnone : blankLineEnd before.flatten = none := by
          rw [Option.eq_none_iff_forall_ne_some]
          intro n hn
          have := hr.blankLineEnd_eq
          rw [flatten_append, blankLineEnd_append_of_some hn] at this
          cases this
        have ht : t = [] := by
          by_contra ht
          exact hcut ⟨before, t, [], by simp, hnone, h10, by simpa using ht⟩
        subst ht
        have hcutPart := headerPart_of_cut (t := []) hnone h10
        rw [List.append_nil, hr.header_of_singleton]
        simpa using hcutPart.symm
      · rcases hr.step hne' hnul hbad with hr' | hd'
        · rw [hr'.header_eq, headerPart_of_none hr'.blankLineEnd_eq]
        · exact hd'.header_eq
    · exact hd.step.header_eq

/-- Where the blank line is missed the header gets too long. -/
theorem header_of_cut (hne : ∀ b ∈ reads, b ≠ []) (hnul : 0 ∉ headerPart reads.flatten)
    (hcut : CutsBlankLine reads) :
    (headerPart reads.flatten).length < (Split.ofReads reads).header.length := by
  obtain ⟨before, t, after, rfl, hnone, h10, hrest⟩ := hcut
  have hflat : (before ++ [13] :: (10 :: t) :: after).flatten =
      before.flatten ++ 13 :: 10 :: (t ++ after.flatten) := by simp
  rw [hflat, headerPart_of_cut hnone h10] at hnul ⊢
  have hreading : Split.Reading (before ++ [[13]]) := by
    have hne' : ∀ b ∈ before ++ [[13]], b ≠ [] := fun b hb => hne b (by simp at hb ⊢; tauto)
    have hpart : headerPart (before ++ [[13]]).flatten <+: before.flatten ++ [13, 10] := by
      rw [← headerPart_of_cut (t := []) hnone h10]
      have := headerPart_prefix_append (p := (before ++ [[13]]).flatten) (q := [10])
      simpa using this
    have hnot : ¬CutsBlankLine (before ++ [[13]] ++ [[10]]) := by
      rintro ⟨before', t', after', heq, hnone', h10', hrest'⟩
      have hbody := bodyPart_of_cut (t := t' ++ after'.flatten) hnone' h10'
      have hbody' := bodyPart_of_cut (t := []) hnone h10
      have heq := congrArg List.flatten heq
      have heq : before.flatten ++ 13 :: 10 :: [] =
          before'.flatten ++ 13 :: 10 :: (t' ++ after'.flatten) := by simpa using heq
      rw [← heq, hbody'] at hbody
      exact hrest' hbody.symm
    rcases reading_or_divided hne' (fun h => hnul (hpart.subset h)) (by simp) hnot with hr | hd
    · exact hr
    · have hd := hd.blankLineEnd_isSome
      rw [flatten_append, blankLineEnd_append_of_none hnone] at hd
      simp [straddles, blankLineEnd] at hd
  have hfirst : ∀ b, Split.ofReads (before ++ [13] :: b :: after) =
      after.foldl Split.step ((Split.ofReads (before ++ [[13]])).step b) := by
    intro b
    simp [Split.ofReads]
  rw [hfirst]
  have hlast : (Split.ofReads (before ++ [[13]])).lastTwo = (0, 13) := by
    rw [Split.ofReads_append_singleton, Split.lastTwo_step]
    rfl
  have hheader := hreading.header_eq
  cases t with
  | nil =>
    have hafter : after ≠ [] := by
      rintro rfl
      exact hrest rfl
    obtain ⟨c, after, rfl⟩ := exists_cons_of_ne_nil hafter
    have hc : c ≠ [] := hne c (by simp)
    have hstart : bodyStart (Split.ofReads (before ++ [[13]])).lastTwo [10] = none := by
      rw [hlast]
      decide
    have hstep := Split.step_of_none hreading.readingHeader hstart
    rw [foldl_cons]
    have hlen := (Split.header_prefix_foldl (((Split.ofReads (before ++ [[13]])).step [10]).step c)
      after).length_le
    have hlen' := Split.header_length_step (s := (Split.ofReads (before ++ [[13]])).step [10])
      (b := c) (by rw [hstep]) hc
    rw [hheader] at hstep
    rw [hstep] at hlen' hlen ⊢
    simp at hlen' hlen ⊢
    omega
  | cons x t =>
    have hlen := (Split.header_prefix_foldl ((Split.ofReads (before ++ [[13]])).step (10 :: x :: t))
      after).length_le
    have hstart : bodyStart (Split.ofReads (before ++ [[13]])).lastTwo (10 :: x :: t) =
        blankLineEnd (cstr (10 :: x :: t)) := by
      rw [hlast, bodyStart_of_forgotten]
    cases hend : blankLineEnd (cstr (10 :: x :: t)) with
    | none =>
      rw [hend] at hstart
      rw [Split.step_of_none hreading.readingHeader hstart, hheader] at hlen ⊢
      simp at hlen ⊢
      omega
    | some n =>
      rw [hend] at hstart
      rw [Split.step_of_some hreading.readingHeader hstart, hheader] at hlen ⊢
      have hn := (blankLineEnd_le hend).1
      simp at hlen ⊢
      omega

end Cut

end Ewget

end Gargoyle
