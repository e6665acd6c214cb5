import Gargoyle.Weburl.RequestText

/-!
# Whole requests

A request with its whole header in one packet has one field with the name `Host`,
in any spelling. Its target is the path that is taken out of it. The host that is
taken out stands behind the first `Host:` of the header, which need not be the
field: the letters may stand in the target, or at the end of the name or in the
value of a field before it. Of the field itself only blanks are skipped, and the
host ends at a colon.
-/

namespace Gargoyle

open List

namespace Weburl

open ByteBuffer

def IsLineByte (x : UInt8) : Prop := x ≠ 0 ∧ x ≠ 10 ∧ x ≠ 13

def linesText (lines : List (List UInt8)) : List UInt8 := lines.flatMap fun line => line ++ [13, 10]

/-! ## The end of a header -/

section Lines

variable {lines : List (List UInt8)} {body : List UInt8}

theorem isChain_linesText (hlines : ∀ line ∈ lines, line ≠ [] ∧ ∀ x ∈ line, IsLineByte x) :
    (linesText lines).IsChain fun x y => x = 10 → y ≠ 10 ∧ y ≠ 13 := by
  induction lines with
  | nil => exact List.IsChain.nil
  | cons line lines ih =>
    have hrest := ih fun line hline => hlines line (mem_cons_of_mem _ hline)
    obtain ⟨-, hline⟩ := hlines line mem_cons_self
    have hhead : ∀ y ∈ (linesText lines).head?, y ≠ 10 ∧ y ≠ 13 := by
      intro y hy
      cases lines with
      | nil => cases hy
      | cons next lines =>
        obtain ⟨hne, hnext⟩ := hlines next (by simp)
        cases next with
        | nil => exact absurd rfl hne
        | cons z next =>
          obtain rfl : z = y := by simpa [linesText] using hy
          exact (hnext z mem_cons_self).2
    have hchain : (line ++ [13, 10]).IsChain fun x y => x = 10 → y ≠ 10 ∧ y ≠ 13 := by
      rw [isChain_append]
      refine ⟨?_, by simp, fun x hx y _ hten => ?_⟩
      · refine List.isChain_iff_getElem.2 fun i hi hten => ?_
        exact absurd hten (hline _ (getElem_mem _)).2.1
      · exact absurd hten (hline x (mem_of_getLast? hx)).2.1
    change (line ++ [13, 10] ++ linesText lines).IsChain _
    refine hchain.append hrest fun x hx y hy hten => ?_
    exact hhead y hy

theorem linesText_ends (hne : lines ≠ []) : ∃ q, linesText lines = q ++ [10] := by
  obtain ⟨front, last, rfl⟩ : ∃ front last, lines = front ++ [last] :=
    ⟨_, _, (dropLast_concat_getLast hne).symm⟩
  refine ⟨linesText front ++ last ++ [13], ?_⟩
  simp [linesText]

/-- The header ends at its first blank line. -/
theorem lastHeaderIndex_lines (hlines : ∀ line ∈ lines, line ≠ [] ∧ ∀ x ∈ line, IsLineByte x)
    (hne : lines ≠ []) (body : List UInt8) :
    lastHeaderIndex (ofBytes (linesText lines ++ 13 :: 10 :: body))
      (linesText lines ++ 13 :: 10 :: body).length = (linesText lines).length + 1 := by
  have hchain := isChain_linesText hlines
  obtain ⟨q, hq⟩ := linesText_ends hne
  generalize linesText lines = flat at hq hchain ⊢
  have hlength : flat.length = q.length + 1 := by rw [hq, length_append, length_singleton]
  have hten : ofBytes (flat ++ 13 :: 10 :: body) q.length = 10 := by
    rw [ofBytes_append_of_lt (by omega)]
    simp [hq]
  have hcr : ofBytes (flat ++ 13 :: 10 :: body) (q.length + 1) = 13 := by
    rw [← hlength, ← Nat.add_zero flat.length, ofBytes_append_length]
    rfl
  have hlf : ofBytes (flat ++ 13 :: 10 :: body) (q.length + 2) = 10 := by
    rw [show q.length + 2 = flat.length + 1 by omega, ofBytes_append_length]
    rfl
  have hheader : HeaderEnd (ofBytes (flat ++ 13 :: 10 :: body)) q.length :=
    ⟨hlf, Or.inr ⟨hten, hcr⟩⟩
  have hnone : ∀ k < q.length, ¬ HeaderEnd (ofBytes (flat ++ 13 :: 10 :: body)) k := by
    rintro k hk ⟨hend, hbefore⟩
    have hpair := List.isChain_iff_getElem.1 hchain
    have hbyte : ∀ {i} (hi : i < flat.length), ofBytes (flat ++ 13 :: 10 :: body) i = flat[i] :=
      fun hi => ofBytes_append_of_lt hi
    rcases hbefore with hten' | ⟨hten', hcr'⟩
    · rw [hbyte (by omega)] at hten'
      by_cases hlast : k + 2 < flat.length
      · rw [hbyte hlast] at hend
        exact (hpair (k + 1) hlast hten').1 hend
      · rw [show k + 2 = q.length + 1 by omega, hcr] at hend
        exact absurd hend (by decide)
    · rw [hbyte (by omega)] at hten' hcr'
      exact (hpair k (by omega) hten').2 hcr'
  rcases @headerLoop_spec (ofBytes (flat ++ 13 :: 10 :: body)) 0
    ((flat ++ 13 :: 10 :: body).length - 2) with ⟨-, hall⟩ | ⟨k, -, hk, hloop, hfirst⟩
  · refine absurd hheader (hall q.length (Nat.zero_le _) ?_)
    simp only [length_append, length_cons]
    omega
  · obtain rfl : k = q.length := by
      rcases Nat.lt_trichotomy k q.length with hlt | heq | hgt
      · exact absurd hk (hnone k hlt)
      · exact heq
      · exact absurd hheader (hfirst _ (Nat.zero_le _) hgt)
    rw [hlength]
    exact hloop

end Lines

/-! ## The first place with the label -/

section Behind

variable {label q rest xs : List UInt8}

theorem prefix_line_iff (hten : 10 ∉ label) (q rest : List UInt8) :
    label <+: (q ++ [10] ++ rest).map toupper ↔ label <+: (q ++ [10]).map toupper := by
  rw [map_append]
  constructor
  · intro h
    rcases prefix_or_prefix_of_prefix h (prefix_append _ _) with hle | hle
    · exact hle
    · refine absurd (hle.subset ?_) hten
      rw [map_append]
      exact mem_append_right _ mem_cons_self
  · exact fun h => h.trans (prefix_append _ _)

theorem length_le_of_prefix_line (hten : 10 ∉ label)
    (h : label <+: (q ++ [10]).map toupper) : label.length ≤ q.length := by
  by_contra hlong
  have hle := h.length_le
  rw [length_map, length_append, length_singleton] at hle
  have heq := h.eq_of_length (by
    rw [length_map, length_append, length_singleton]
    omega)
  rw [heq, map_append] at hten
  exact hten (mem_append_right _ mem_cons_self)

theorem behind_line (hten : 10 ∉ label) (hlabel : label ≠ []) (hq : 0 ∉ q) :
    behind label (q ++ [10] ++ rest) =
      match behind label (q ++ [10]) with
      | some xs => some (xs ++ rest)
      | none => behind label rest := by
  induction q with
  | nil =>
    have hnot : ¬ label <+: ([] ++ [(10 : UInt8)]).map toupper := by
      intro h
      have hle := length_le_of_prefix_line hten h
      exact hlabel (List.length_eq_zero_iff.1 (Nat.le_zero.1 hle))
    have hnot' := mt (prefix_line_iff hten [] rest).1 hnot
    rw [nil_append] at hnot hnot' ⊢
    rw [singleton_append] at hnot' ⊢
    have hline : (10 : UInt8) ≠ 0 := by decide
    simp only [behind, if_neg hline, if_neg hnot, if_neg hnot']
  | cons x q ih =>
    rw [mem_cons, not_or] at hq
    have hiff := prefix_line_iff hten (x :: q) rest
    simp only [cons_append] at hiff ⊢
    rw [behind, behind, if_neg (Ne.symm hq.1), if_neg (Ne.symm hq.1)]
    by_cases h : label <+: (x :: (q ++ [10])).map toupper
    · have hlength := @length_le_of_prefix_line label (x :: q) hten h
      rw [if_pos h, if_pos (hiff.2 h)]
      dsimp only
      rw [← cons_append, drop_append_of_le_length]
      simp only [length_cons, length_append] at hlength ⊢
      omega
    · rw [if_neg h, if_neg (mt hiff.1 h)]
      exact ih hq.2

theorem mem_of_behind_line (hten : 10 ∉ label) (hq : 0 ∉ q)
    (h : behind label (q ++ [10]) = some xs) : 10 ∈ xs := by
  induction q with
  | nil =>
    rw [nil_append, behind, if_neg (by decide)] at h
    split_ifs at h with hlabel
    · have hle := @length_le_of_prefix_line label [] hten hlabel
      obtain rfl := Option.some.inj h
      rw [Nat.le_zero.1 hle]
      exact mem_cons_self
    · cases h
  | cons x q ih =>
    rw [mem_cons, not_or] at hq
    rw [cons_append, behind, if_neg (Ne.symm hq.1)] at h
    split_ifs at h with hlabel
    · have hlength := @length_le_of_prefix_line label (x :: q) hten hlabel
      obtain rfl := Option.some.inj h
      rw [← cons_append, drop_append_of_le_length hlength]
      exact mem_append_right _ mem_cons_self
    · exact ih hq.2 h

theorem behind_suffix {ys : List UInt8} (h : behind label ys = some xs) : xs <:+ ys := by
  induction ys with
  | nil => cases h
  | cons y ys ih =>
    rw [behind] at h
    split_ifs at h
    · obtain rfl := Option.some.inj h
      exact drop_suffix _ _
    · exact (ih h).trans (suffix_cons y ys)

theorem behind_eq_none_iff {ys : List UInt8} (hlabel : label ≠ []) (hys : 0 ∉ ys) :
    behind label ys = none ↔ ¬ label <:+: ys.map toupper := by
  induction ys with
  | nil => simp [behind, hlabel]
  | cons y ys ih =>
    rw [mem_cons, not_or] at hys
    rw [behind, if_neg (Ne.symm hys.1), map_cons, infix_cons_iff, not_or, ← ih hys.2]
    by_cases h : label <+: toupper y :: ys.map toupper
    · simp [h]
    · simp [h]

theorem hostText_append (h : 10 ∈ xs) : hostText (xs ++ rest) = hostText xs := by
  have hdrop : (xs ++ rest).dropWhile (fun x => x = 32) =
      xs.dropWhile (fun x => x = 32) ++ rest := by
    rw [dropWhile_append, if_neg]
    intro hempty
    rw [List.isEmpty_iff, dropWhile_eq_nil_iff] at hempty
    exact absurd (hempty 10 h) (by decide)
  have hmem : 10 ∈ xs.dropWhile fun x => x = 32 := by
    have hsplit := takeWhile_append_dropWhile (p := fun x : UInt8 => decide (x = 32)) (l := xs)
    rw [← hsplit, mem_append] at h
    refine h.resolve_left fun hblank => ?_
    exact absurd (mem_takeWhile_imp hblank) (by decide)
  rw [hostText, hostText, hdrop, takeWhile_append, if_neg]
  intro hall
  have hself := List.takeWhile_eq_self_iff.1
    (( takeWhile_prefix fun x => !isHostEnd x).eq_of_length hall)
  exact absurd (hself 10 hmem) (by decide)

end Behind

/-! ## Well-formed requests -/

inductive Method
  | get | post | head
deriving DecidableEq

def Method.bytes : Method → List UInt8
  | .get => "GET".toList.map chr
  | .post => "POST".toList.map chr
  | .head => "HEAD".toList.map chr

structure Field where
  name : List UInt8
  value : List UInt8
  name_ne : name ≠ []
  name_token : ∀ x ∈ name, IsLineByte x ∧ x ≠ 9 ∧ x ≠ 32 ∧ x ≠ 58
  value_line : ∀ x ∈ value, IsLineByte x

def Field.line (f : Field) : List UInt8 := f.name ++ 58 :: f.value

def IsHost (name : List UInt8) : Prop := name.map toupper = ("Host".toList.map chr).map toupper

structure HostField where
  name : List UInt8
  before : List UInt8
  host : List UInt8
  port : Option (List UInt8)
  after : List UInt8
  name_host : IsHost name
  before_space : ∀ x ∈ before, x = 32 ∨ x = 9
  host_token : ∀ x ∈ host, IsLineByte x ∧ x ≠ 9 ∧ x ≠ 32
  port_digits : ∀ digits, port = some digits → ∀ x ∈ digits, 48 ≤ x ∧ x ≤ 57
  after_space : ∀ x ∈ after, x = 32 ∨ x = 9
  -- all of the space around a host that is not there stands before it
  after_nil : host = [] → port = none → after = []

def HostField.value (f : HostField) : List UInt8 :=
  f.before ++ (f.host ++ ((f.port.elim [] fun digits => 58 :: digits) ++ f.after))

def HostField.line (f : HostField) : List UInt8 := f.name ++ 58 :: f.value

structure Request where
  method : Method
  target : List UInt8
  minor : UInt8
  fieldsBefore : List Field
  hostField : HostField
  fieldsAfter : List Field
  body : List UInt8
  target_ne : target ≠ []
  target_token : ∀ x ∈ target, IsLineByte x ∧ x ≠ 32
  minor_digit : 48 ≤ minor ∧ minor ≤ 57
  one_host : ∀ f ∈ fieldsBefore ++ fieldsAfter, ¬ IsHost f.name

namespace Request

def requestLine (r : Request) : List UInt8 :=
  r.method.bytes ++ 32 :: (r.target ++ 32 :: ("HTTP/1.".toList.map chr ++ [r.minor]))

def leading (r : Request) : List (List UInt8) := r.requestLine :: r.fieldsBefore.map Field.line

def lines (r : Request) : List (List UInt8) :=
  r.leading ++ r.hostField.line :: r.fieldsAfter.map Field.line

def payload (r : Request) : List UInt8 := linesText r.lines ++ 13 :: 10 :: r.body

def HostRead (f : HostField) : Prop :=
  9 ∉ f.before ∧ 58 ∉ f.host.take 624 ∧
    (f.port = none → f.after.head? = some 9 → 624 ≤ f.host.length)

/-- The letters `Host:` do not stand before the field with the host, which is read, or
the same host stands behind them. -/
def HostFound (r : Request) : Prop :=
  match behind hostLabel (linesText r.leading) with
  | none => HostRead r.hostField
  | some xs => (hostText xs).take 624 = r.hostField.host.take 624

end Request

/-! ## What is taken out of them -/

section Request

variable {r : Request}

theorem isLineByte_of_digit {x : UInt8} (h : 48 ≤ x ∧ x ≤ 57) : IsLineByte x := by
  refine ⟨?_, ?_, ?_⟩
  · rintro rfl
    exact absurd h.1 (by decide)
  · rintro rfl
    exact absurd h.1 (by decide)
  · rintro rfl
    exact absurd h.1 (by decide)

theorem isLineByte_of_space {x : UInt8} (h : x = 32 ∨ x = 9) : IsLineByte x := by
  rcases h with rfl | rfl
  · exact ⟨by decide, by decide, by decide⟩
  · exact ⟨by decide, by decide, by decide⟩

theorem isLineByte_colon : IsLineByte 58 := ⟨by decide, by decide, by decide⟩

theorem isLineByte_blank : IsLineByte 32 := ⟨by decide, by decide, by decide⟩

theorem isLineByte_of_isHost {name : List UInt8} (h : IsHost name) : ∀ x ∈ name, IsLineByte x := by
  intro x hx
  have hmem : toupper x ∈ ("Host".toList.map chr).map toupper := by
    rw [← h]
    exact mem_map_of_mem hx
  refine ⟨?_, ?_, ?_⟩
  · rintro rfl
    exact absurd hmem (by decide)
  · rintro rfl
    exact absurd hmem (by decide)
  · rintro rfl
    exact absurd hmem (by decide)

theorem HostField.value_line (f : HostField) : ∀ x ∈ f.value, IsLineByte x := by
  intro x hx
  simp only [HostField.value, mem_append] at hx
  rcases hx with hx | hx | hx | hx
  · exact isLineByte_of_space (f.before_space x hx)
  · exact (f.host_token x hx).1
  · cases hport : f.port with
    | none =>
      rw [hport] at hx
      cases hx
    | some digits =>
      rw [hport] at hx
      rcases List.mem_cons.1 hx with rfl | hdigit
      · exact isLineByte_colon
      · exact isLineByte_of_digit (f.port_digits digits hport x hdigit)
  · exact isLineByte_of_space (f.after_space x hx)

theorem HostField.line_line (f : HostField) : f.line ≠ [] ∧ ∀ x ∈ f.line, IsLineByte x := by
  refine ⟨by simp [HostField.line], fun x hx => ?_⟩
  rcases List.mem_append.1 hx with hx | hx
  · exact isLineByte_of_isHost f.name_host x hx
  · rcases List.mem_cons.1 hx with rfl | hx
    · exact isLineByte_colon
    · exact f.value_line x hx

theorem Field.line_line (f : Field) : f.line ≠ [] ∧ ∀ x ∈ f.line, IsLineByte x := by
  refine ⟨by simp [Field.line], fun x hx => ?_⟩
  rcases List.mem_append.1 hx with hx | hx
  · exact (f.name_token x hx).1
  · rcases List.mem_cons.1 hx with rfl | hx
    · exact isLineByte_colon
    · exact f.value_line x hx

theorem Method.bytes_line (m : Method) : ∀ x ∈ m.bytes, IsLineByte x ∧ x ≠ 32 := by
  unfold IsLineByte
  cases m <;> exact Numerals.forall_mem_of_all (by decide)

theorem Request.requestLine_line (r : Request) :
    r.requestLine ≠ [] ∧ ∀ x ∈ r.requestLine, IsLineByte x := by
  refine ⟨by simp [Request.requestLine], fun x hx => ?_⟩
  have hversion : ∀ x ∈ "HTTP/1.".toList.map chr, IsLineByte x := by
    unfold IsLineByte
    exact Numerals.forall_mem_of_all (by decide)
  simp only [Request.requestLine, mem_append, mem_cons] at hx
  rcases hx with hx | rfl | hx | rfl | hx | hx
  · exact (r.method.bytes_line x hx).1
  · exact isLineByte_blank
  · exact (r.target_token x hx).1
  · exact isLineByte_blank
  · exact hversion x hx
  · obtain rfl := List.mem_singleton.1 (by simpa using hx)
    exact isLineByte_of_digit r.minor_digit

theorem Request.lines_line (r : Request) :
    ∀ line ∈ r.lines, line ≠ [] ∧ ∀ x ∈ line, IsLineByte x := by
  intro line hline
  simp only [Request.lines, Request.leading, cons_append, mem_cons, mem_append,
    mem_map] at hline
  rcases hline with rfl | ⟨f, -, rfl⟩ | rfl | ⟨f, -, rfl⟩
  · exact r.requestLine_line
  · exact f.line_line
  · exact r.hostField.line_line
  · exact f.line_line

theorem linesText_append (xs ys : List (List UInt8)) :
    linesText (xs ++ ys) = linesText xs ++ linesText ys := flatMap_append

theorem zero_notMem_linesText {lines : List (List UInt8)}
    (hlines : ∀ line ∈ lines, line ≠ [] ∧ ∀ x ∈ line, IsLineByte x) : 0 ∉ linesText lines := by
  intro hzero
  obtain ⟨line, hline, hx⟩ := List.mem_flatMap.1 hzero
  rcases List.mem_append.1 hx with hx | hx
  · exact ((hlines line hline).2 0 hx).1 rfl
  · exact absurd hx (by decide)

theorem headerText_payload (r : Request) : headerText r.payload = linesText r.lines ++ [13] := by
  have hindex := lastHeaderIndex_lines r.lines_line (by simp [Request.lines, Request.leading])
    r.body
  rw [headerText, Request.payload, hindex, take_length_add_append]
  rfl

/-- The first label for a host is in the header field or in front of it. -/
theorem behind_header (r : Request) :
    ∃ rest rest', behind hostLabel (headerText r.payload) =
      match behind hostLabel (linesText r.leading) with
      | some xs => some (xs ++ rest)
      | none => some (r.hostField.value ++ 13 :: rest') := by
  have hten : 10 ∉ hostLabel := by decide
  have hne : hostLabel ≠ [] := by decide
  obtain ⟨q, hq⟩ := @linesText_ends r.leading (by simp [Request.leading])
  have hzero : 0 ∉ q := by
    have hleading := zero_notMem_linesText fun line hline =>
      r.lines_line line (mem_append_left _ hline)
    rw [hq, mem_append, not_or] at hleading
    exact hleading.1
  have hheader : headerText r.payload = q ++ [10] ++
      (r.hostField.line ++ 13 :: 10 :: (linesText (r.fieldsAfter.map Field.line) ++ [13])) := by
    rw [headerText_payload, Request.lines, linesText_append, hq]
    simp [linesText]
  have hown : ∀ rest, behind hostLabel (r.hostField.line ++ rest) =
      some (r.hostField.value ++ rest) := by
    intro rest
    have hname := r.hostField.name_host
    have hlength : r.hostField.name.length = 4 := by
      have hlength := congrArg List.length hname
      rwa [length_map] at hlength
    have hline : hostLabel <+: (r.hostField.line ++ rest).map toupper := by
      have hlabel : hostLabel = r.hostField.name.map toupper ++ [58] := by
        rw [hname]
        rfl
      rw [hlabel, HostField.line, append_assoc, map_append,
        prefix_append_right_inj]
      exact ⟨(r.hostField.value ++ rest).map toupper, rfl⟩
    have hdrop : (r.hostField.line ++ rest).drop hostLabel.length =
        r.hostField.value ++ rest := by
      have hfive : hostLabel.length = r.hostField.name.length + 1 := by
        rw [hlength]
        rfl
      rw [hfive, HostField.line, append_assoc, drop_length_add_append]
      rfl
    obtain ⟨x, xs, hxs⟩ := exists_cons_of_ne_nil
      (show r.hostField.line ++ rest ≠ [] by simp [HostField.line])
    have hx : x ≠ 0 := by
      rintro rfl
      have hlabel : hostLabel = 72 :: [79, 83, 84, 58] := by decide
      rw [hxs, map_cons, hlabel, cons_prefix_cons] at hline
      exact absurd hline.1 (by decide)
    rw [hxs] at hline hdrop ⊢
    rw [behind, if_neg hx, if_pos hline, hdrop]
  refine ⟨r.hostField.line ++ 13 :: 10 :: (linesText (r.fieldsAfter.map Field.line) ++ [13]),
    10 :: (linesText (r.fieldsAfter.map Field.line) ++ [13]), ?_⟩
  rw [hheader, behind_line hten hne hzero, hq, hown]

def HostField.tail (f : HostField) (rest : List UInt8) : List UInt8 :=
  (f.port.elim [] fun digits => 58 :: digits) ++ (f.after ++ 13 :: rest)

theorem HostField.value_append (f : HostField) (rest : List UInt8) :
    f.value ++ 13 :: rest = f.before ++ (f.host ++ f.tail rest) := by
  simp [HostField.value, HostField.tail]

theorem HostField.hostText_of_blanks (f : HostField) (rest : List UInt8) (htab : 9 ∉ f.before) :
    hostText (f.value ++ 13 :: rest) =
      (f.host ++ f.tail rest).takeWhile fun x => !isHostEnd x := by
  have hblanks : ∀ x ∈ f.before, decide (x = 32) = true := by
    intro x hx
    rcases f.before_space x hx with rfl | rfl
    · rfl
    · exact absurd hx htab
  have hhost : (f.host ++ f.tail rest).dropWhile (fun x => x = 32) = f.host ++ f.tail rest := by
    have hhead : ∀ x ∈ (f.host ++ f.tail rest).head?, x ≠ 32 := by
      intro x hx
      cases hhost : f.host with
      | cons y host =>
        obtain rfl : y = x := by simpa [hhost] using hx
        exact (f.host_token y (by simp [hhost])).2.2
      | nil =>
        rw [hhost, nil_append, HostField.tail] at hx
        cases hport : f.port with
        | some digits =>
          obtain rfl : 58 = x := by simpa [hport] using hx
          decide
        | none =>
          obtain rfl : 13 = x := by simpa [hport, f.after_nil hhost hport] using hx
          decide
    cases htext : f.host ++ f.tail rest with
    | nil => rfl
    | cons x xs =>
      rw [dropWhile_cons, if_neg]
      rw [decide_eq_true_eq]
      exact hhead x (by rw [htext]; rfl)
  rw [hostText, f.value_append, dropWhile_append_of_pos hblanks, hhost]

theorem HostField.hostText_of_tab (f : HostField) (rest : List UInt8) (htab : 9 ∈ f.before) :
    ∃ xs, hostText (f.value ++ 13 :: rest) = 9 :: xs := by
  have hdrop : ∀ {space : List UInt8} (ys : List UInt8), (∀ x ∈ space, x = 32 ∨ x = 9) →
      9 ∈ space → ∃ xs, (space ++ ys).dropWhile (fun x => x = 32) = 9 :: xs := by
    intro space ys hspace hmem
    induction space with
    | nil => cases hmem
    | cons x space ih =>
      rcases hspace x mem_cons_self with rfl | rfl
      · have hmem' : 9 ∈ space := (List.mem_cons.1 hmem).resolve_left (by decide)
        exact ih (fun y hy => hspace y (mem_cons_of_mem _ hy)) hmem'
      · exact ⟨space ++ ys, rfl⟩
  obtain ⟨xs, hxs⟩ := hdrop (f.host ++ f.tail rest) f.before_space htab
  refine ⟨xs.takeWhile fun x => !isHostEnd x, ?_⟩
  rw [hostText, f.value_append, hxs, takeWhile_cons]
  rfl

theorem HostField.not_isHostEnd (f : HostField) {x : UInt8} (hx : x ∈ f.host) (hcolon : x ≠ 58) :
    (!isHostEnd x) = true := by
  obtain ⟨⟨-, hlf, hcr⟩, -, hblank⟩ := f.host_token x hx
  simp [isHostEnd, hlf, hcr, hblank, hcolon]

theorem take_append_eq_iff {xs ys : List UInt8} {n : ℕ} :
    (xs ++ ys).take n = xs.take n ↔ ys = [] ∨ n ≤ xs.length := by
  rw [take_append, append_right_eq_self, take_eq_nil_iff, or_comm,
    Nat.sub_eq_zero_iff_le]

theorem HostField.take_of_plain (f : HostField) (rest : List UInt8) (hcolon : 58 ∉ f.host) :
    ((f.host ++ f.tail rest).takeWhile fun x => !isHostEnd x).take 624 = f.host.take 624 ↔
      (f.port = none → f.after.head? = some 9 → 624 ≤ f.host.length) := by
  rw [takeWhile_append_of_pos fun x hx => f.not_isHostEnd hx fun h => hcolon (h ▸ hx),
    take_append_eq_iff, HostField.tail]
  cases hport : f.port with
  | some digits => simp [isHostEnd]
  | none =>
    cases hafter : f.after with
    | nil => simp [isHostEnd]
    | cons x after =>
      rcases f.after_space x (by rw [hafter]; exact mem_cons_self) with rfl | rfl
      · simp [isHostEnd]
      · simp [isHostEnd]

theorem HostField.take_of_colon (f : HostField) (rest : List UInt8) (hcolon : 58 ∈ f.host) :
    ((f.host ++ f.tail rest).takeWhile fun x => !isHostEnd x).take 624 = f.host.take 624 ↔
      58 ∉ f.host.take 624 := by
  obtain ⟨front, back, hsplit, hfront⟩ := eq_append_cons_of_mem hcolon
  have hplain : ∀ x ∈ front, (!isHostEnd x) = true := fun x hx =>
    f.not_isHostEnd (hsplit ▸ mem_append_left _ hx) fun h => hfront (h ▸ hx)
  have hread : ((f.host ++ f.tail rest).takeWhile fun x => !isHostEnd x) = front := by
    rw [hsplit, append_assoc, takeWhile_append_of_pos hplain]
    simp [isHostEnd]
  rw [hread, eq_comm, hsplit, take_append_eq_iff, take_append, mem_append, not_or]
  constructor
  · rintro (hnil | hlong)
    · cases hnil
    · rw [Nat.sub_eq_zero_of_le hlong]
      exact ⟨fun h => hfront (mem_of_mem_take h), not_mem_nil⟩
  · rintro ⟨-, hmem⟩
    by_contra hshort
    obtain ⟨m, hm⟩ := Nat.exists_eq_succ_of_ne_zero (show 624 - front.length ≠ 0 by omega)
    rw [hm] at hmem
    exact hmem mem_cons_self

theorem hostText_value (f : HostField) (rest : List UInt8) :
    (hostText (f.value ++ 13 :: rest)).take 624 = f.host.take 624 ↔ Request.HostRead f := by
  by_cases htab : 9 ∈ f.before
  · obtain ⟨xs, hxs⟩ := f.hostText_of_tab rest htab
    refine iff_of_false (fun h => ?_) fun h => h.1 htab
    have hmem : 9 ∈ f.host.take 624 := by
      rw [← h, hxs]
      exact mem_cons_self
    exact (f.host_token 9 (mem_of_mem_take hmem)).2.1 rfl
  · rw [f.hostText_of_blanks rest htab, Request.HostRead, and_iff_right htab]
    by_cases hcolon : 58 ∈ f.host
    · rw [f.take_of_colon rest hcolon]
      refine (and_iff_left_of_imp fun hcut _ _ => ?_).symm
      by_contra hshort
      rw [take_of_length_le (by omega)] at hcut
      exact hcut hcolon
    · rw [f.take_of_plain rest hcolon,
        and_iff_right fun h => hcolon (mem_of_mem_take h)]

/-- When the host of a request is found. -/
theorem packetHost_payload (r : Request) :
    packetHost r.payload = r.hostField.host.take 624 ↔ r.HostFound := by
  have hzero : 0 ∉ headerText r.payload := by
    rw [headerText_payload, mem_append, not_or]
    exact ⟨zero_notMem_linesText r.lines_line, by decide⟩
  have hplain : ∀ xs, behind hostLabel (headerText r.payload) = some xs →
      cString ((hostText xs).take 624) = (hostText xs).take 624 := by
    intro xs hxs
    refine List.takeWhile_eq_self_iff.2 fun x hx => decide_eq_true ?_
    rintro rfl
    have hmem := (dropWhile_suffix _).subset
      (( takeWhile_prefix _).subset (mem_of_mem_take hx))
    exact hzero ((behind_suffix hxs).subset hmem)
  have hleading : ∀ xs, behind hostLabel (linesText r.leading) = some xs → 10 ∈ xs := by
    intro xs hxs
    obtain ⟨q, hq⟩ := @linesText_ends r.leading (by simp [Request.leading])
    have hnot := zero_notMem_linesText fun line hline =>
      r.lines_line line (mem_append_left _ hline)
    rw [hq] at hxs
    rw [hq, mem_append, not_or] at hnot
    exact mem_of_behind_line (by decide) hnot.1 hxs
  obtain ⟨rest, rest', hbehind⟩ := behind_header r
  unfold packetHost Request.HostFound
  cases hfirst : behind hostLabel (linesText r.leading) with
  | none =>
    rw [hfirst] at hbehind
    rw [hbehind]
    dsimp only
    rw [hplain _ hbehind, hostText_value]
  | some xs =>
    rw [hfirst] at hbehind
    rw [hbehind]
    dsimp only
    rw [hplain _ hbehind, hostText_append (hleading xs hfirst)]

/-! ### The path of a request -/

theorem length_method (m : Method) : 3 ≤ m.bytes.length ∧ m.bytes.length ≤ 4 := by
  cases m <;> decide

def Request.fromTarget (r : Request) : List UInt8 :=
  r.target ++ 32 :: ("HTTP/1.".toList.map chr ++ [r.minor]) ++ 13 :: 10 ::
    (linesText (r.fieldsBefore.map Field.line ++ r.hostField.line :: r.fieldsAfter.map Field.line)
      ++ 13 :: 10 :: r.body)

theorem Request.payload_eq (r : Request) :
    r.payload = r.method.bytes ++ 32 :: r.fromTarget := by
  simp [Request.payload, Request.lines, Request.leading, Request.requestLine, linesText,
    Request.fromTarget]

theorem Request.payload_eq_append_body (r : Request) :
    ∃ before, r.payload = before ++ r.body ∧
      r.method.bytes.length + 1 + r.target.length ≤ before.length := by
  refine ⟨linesText r.lines ++ [13, 10], by simp [Request.payload], ?_⟩
  simp only [Request.lines, Request.leading, Request.requestLine, linesText, length_append,
    flatMap_append, flatMap_cons, cons_append, length_cons]
  omega

theorem length_payload (r : Request) : 10 < r.payload.length := by
  have hmethod := length_method r.method
  have hversion : ("HTTP/1.".toList.map chr).length = 7 := rfl
  rw [r.payload_eq, Request.fromTarget]
  simp only [length_append, length_cons, hversion]
  omega

theorem methodEnd_payload (r : Request) :
    methodEnd (ofBytes r.payload) = r.method.bytes.length := by
  rw [r.payload_eq]
  cases r.method <;> rfl

/-- A request is taken for one. -/
theorem isWebRequest_payload (r : Request) :
    isWebRequest (ofBytes r.payload) r.payload.length = true := by
  have hlong := length_payload r
  have hsame : ∀ {word : List UInt8}, word <+: r.payload → word.length ≤ 5 →
      strnicmp (ofBytes r.payload) r.payload.length word 0 = some true := by
    intro word hword hle
    rw [strnicmp_ofBytes (by omega), drop_zero, decide_eq_true]
    exact hword.map toupper
  have hmethod : r.method.bytes ++ [32] <+: r.payload := by
    rw [r.payload_eq, prefix_append_right_inj]
    exact ⟨r.fromTarget, rfl⟩
  unfold isWebRequest
  cases hm : r.method with
  | get =>
    rw [hm] at hmethod
    rw [hsame (show "GET ".toList.map chr <+: r.payload from hmethod) (by decide)]
    simp
  | post =>
    rw [hm] at hmethod
    rw [hsame (show "POST ".toList.map chr <+: r.payload from hmethod) (by decide)]
    simp
  | head =>
    rw [hm] at hmethod
    rw [hsame (show "HEAD ".toList.map chr <+: r.payload from hmethod) (by decide)]
    simp

theorem Request.fromTarget_eq (r : Request) : ∃ rest, r.fromTarget = r.target ++ 32 :: rest := by
  unfold Request.fromTarget
  simp only [append_assoc, cons_append]
  exact ⟨_, rfl⟩

theorem ofBytes_payload (r : Request) (i : ℕ) :
    ofBytes r.payload (r.method.bytes.length + 1 + i) = ofBytes r.fromTarget i := by
  rw [r.payload_eq, Nat.add_assoc, ofBytes_append_length, Nat.add_comm 1 i]
  rfl

theorem ofBytes_targetEnd (r : Request) :
    ofBytes r.payload (r.method.bytes.length + 1 + r.target.length) = 32 := by
  obtain ⟨rest, hrest⟩ := r.fromTarget_eq
  rw [ofBytes_payload, hrest, ← Nat.add_zero r.target.length, ofBytes_append_length]
  rfl

/-- The target lies between its blanks. -/
theorem pathEnds_payload (r : Request) :
    PathEnds (ofBytes r.payload) r.payload.length (methodEnd (ofBytes r.payload))
      (r.method.bytes.length + 1) (r.method.bytes.length + 1 + r.target.length) := by
  obtain ⟨rest, hrest⟩ := r.fromTarget_eq
  have htarget : ∀ i (hi : i < r.target.length),
      ofBytes r.payload (r.method.bytes.length + 1 + i) = r.target[i] := by
    intro i hi
    rw [ofBytes_payload, hrest, ofBytes_append_of_lt hi]
  have hpos : 0 < r.target.length := List.length_pos_iff.2 r.target_ne
  rw [methodEnd_payload]
  refine ⟨by omega, by omega, ?_, fun j h₁ h₂ => ?_, ?_, fun j h₁ h₂ => ?_,
    Or.inl (ofBytes_targetEnd r)⟩
  · rw [r.payload_eq, hrest]
    simp only [length_append, length_cons]
    omega
  · obtain rfl : j = r.method.bytes.length := by omega
    rw [r.payload_eq, ← Nat.add_zero r.method.bytes.length, ofBytes_append_length]
    rfl
  · rw [← Nat.add_zero (r.method.bytes.length + 1), htarget 0 hpos]
    exact (r.target_token _ (getElem_mem _)).2
  · obtain ⟨i, rfl⟩ := Nat.exists_eq_add_of_le h₁
    have hi : i < r.target.length := by omega
    rw [htarget i hi]
    obtain ⟨⟨hzero, -⟩, hblank⟩ := r.target_token _ (getElem_mem hi)
    exact ⟨hblank, hzero⟩

/-- The target ends in the packet, with a zero byte behind it where one follows. -/
theorem pathEnds_memory (r : Request) (rest : List UInt8) (hzero : 0 ∈ r.body ++ rest) :
    let memory := r.payload ++ rest
    let fin := r.method.bytes.length + 1 + r.target.length
    PathEnds (ofBytes memory) memory.length (methodEnd (ofBytes memory))
        (r.method.bytes.length + 1) fin ∧
      ofBytes memory fin = 32 ∧ ZeroFrom (ofBytes memory) memory.length fin := by
  intro memory fin
  have hlong := length_payload r
  have hends := (pathEnds_payload r).append rest
  rw [← methodEnd_append rest (by omega)] at hends
  refine ⟨hends, ?_, ?_⟩
  · rw [ofBytes_append_left (pathEnds_payload r).fin_lt, ofBytes_targetEnd]
  · obtain ⟨k, hk, hbyte⟩ := List.getElem_of_mem hzero
    obtain ⟨before, hbefore, hlength⟩ := r.payload_eq_append_body
    have hmemory : memory = before ++ (r.body ++ rest) := by
      rw [← append_assoc, ← hbefore]
    refine ⟨before.length + k, by omega, ?_, ?_⟩
    · rw [hmemory, length_append]
      omega
    · rw [hmemory, ofBytes_append_length, ← hbyte, ofBytes, getD_eq_getElem?_getD,
        getElem?_eq_getElem hk, Option.getD_some]

theorem packetPath_payload (r : Request) (rest : List UInt8) (base : ℕ) :
    packetPath (r.payload ++ rest) base = r.target.take 624 := by
  obtain ⟨tail, htail⟩ := r.fromTarget_eq
  have hdrop : (r.payload ++ rest).drop (r.method.bytes.length + 1) =
      r.target ++ 32 :: (tail ++ rest) := by
    rw [r.payload_eq, append_assoc, drop_length_add_append, htail]
    simp
  have hlong := length_payload r
  have hends := (pathEnds_payload r).append rest
  have hblank : ofBytes (r.payload ++ rest)
      (r.method.bytes.length + 1 + r.target.length) = 32 := by
    rw [ofBytes_append_left (pathEnds_payload r).fin_lt, ofBytes_targetEnd]
  rw [← methodEnd_append rest (by omega)] at hends
  rw [packetPath_of_ends hends, if_pos hblank, hdrop, Nat.add_sub_cancel_left, take_left]

theorem headerInside_payload (r : Request) :
    HeaderInside (ofBytes r.payload) r.payload.length := by
  have hindex := lastHeaderIndex_lines r.lines_line (by simp [Request.lines, Request.leading])
    r.body
  have hlong := length_payload r
  rcases @lastHeaderIndex_spec (ofBytes r.payload) r.payload.length (by omega) with
    ⟨heq, -⟩ | ⟨-, hinside, -⟩
  · have hlength : r.payload.length = (linesText r.lines).length + (r.body.length + 2) := by
      simp [Request.payload]
    change lastHeaderIndex (ofBytes r.payload) r.payload.length = _ at hindex
    omega
  · exact hinside

theorem text_injective : Function.Injective text := by
  have hvalue : ∀ x : UInt8, (Char.ofNat x.toNat).toNat = x.toNat := by
    intro x
    have hlt := x.toNat_lt
    unfold Char.ofNat
    rw [dif_pos (Or.inl (by omega))]
    rfl
  refine List.map_injective_iff.2 fun x y h => UInt8.toNat_inj.1 ?_
  rw [← hvalue x, ← hvalue y, h]

end Request

/-! ## Requests -/

/-- Of a well-formed request the target is taken for the path, and the host for the
host exactly when it is found, whatever follows the packet in the memory. -/
theorem host_and_path_iff (r : Request) (rest : List UInt8) (base : ℕ)
    (hint : r.payload.length < 2 ^ 31) (hzero : 0 ∈ r.body ++ rest) :
    let memory := r.payload ++ rest
    (httpAddress (ofBytes memory) memory.length r.payload.length base =
        some (text (r.target.take 624), text (r.hostField.host.take 624)) ∧
      extractUrl (ofBytes memory) memory.length r.payload.length base =
        some ((text (r.hostField.host.take 624)).map tolower, text (r.target.take 624))) ↔
      r.HostFound := by
  intro memory
  have hlong := length_payload r
  have hsize : r.payload.length ≤ memory.length := by simp [memory]
  have hweb : isWebRequest (ofBytes memory) r.payload.length = true :=
    isWebRequest_append.trans (isWebRequest_payload r)
  obtain ⟨hends, hblank, hnull⟩ := pathEnds_memory r rest hzero
  have hpath : PathInside (ofBytes memory) memory.length base :=
    ⟨_, _, hends, hnull, fun hb => absurd (hblank.symm.trans hb) (by decide)⟩
  have hmissing : ¬ PathMissing (ofBytes memory) memory.length base := by
    rintro ⟨⟨start, fin, hends', hb⟩, -⟩
    obtain ⟨-, rfl⟩ := hends.unique hends'
    exact absurd (hblank.symm.trans hb) (by decide)
  have hheader : HeaderInside (ofBytes memory) r.payload.length := (headerInside_payload r).append
  have hhost : HostInside (ofBytes memory) memory.length r.payload.length := Or.inl hheader
  obtain ⟨address, haddress⟩ := Option.isSome_iff_exists.1
    ((@httpAddress_isSome_iff _ _ _ base hweb hlong hsize).2 ⟨hpath, hhost⟩)
  obtain ⟨url, hurl⟩ := Option.isSome_iff_exists.1
    ((@extractUrl_isSome_iff _ _ _ base hweb hlong hint hsize (.inl hheader)).2
      ⟨hpath, Or.inr hhost⟩)
  rw [haddress, hurl, httpAddress_ofBytes hweb hlong haddress,
    extractUrl_ofBytes hweb hlong hint hmissing hurl, packetPath_payload, ← packetHost_payload]
  simp only [Option.some.injEq, Prod.mk.injEq, true_and, and_true]
  constructor
  · exact fun h => text_injective h.1
  · intro h
    rw [h]
    exact ⟨rfl, rfl⟩

theorem hostFound_of_plain {r : Request}
    (hlabel : ¬ hostLabel <:+: (linesText r.leading).map toupper) (hbefore : 9 ∉ r.hostField.before)
    (hhost : 58 ∉ r.hostField.host) (hafter : 9 ∉ r.hostField.after) : r.HostFound := by
  have hzero := zero_notMem_linesText fun line hline =>
    r.lines_line line (mem_append_left _ hline)
  unfold Request.HostFound
  rw [(behind_eq_none_iff (by decide) hzero).2 hlabel]
  refine ⟨hbefore, fun h => hhost (mem_of_mem_take h), fun _ hhead => ?_⟩
  exact absurd (mem_of_head? hhead) hafter

section Requests

/-- The field `Host: c.d`. -/
def hostCd : HostField where
  name := "Host".toList.map chr
  before := [32]
  host := "c.d".toList.map chr
  port := none
  after := []
  name_host := rfl
  before_space := Numerals.forall_mem_of_all (by decide)
  host_token := by unfold IsLineByte; exact Numerals.forall_mem_of_all (by decide)
  port_digits := by simp
  after_space := by simp
  after_nil := fun _ _ => rfl

/-- The field `X-Forwarded-Host: a.b`. -/
def forwardedAb : Field where
  name := "X-Forwarded-Host".toList.map chr
  value := " a.b".toList.map chr
  name_ne := by decide
  name_token := by unfold IsLineByte; exact Numerals.forall_mem_of_all (by decide)
  value_line := by unfold IsLineByte; exact Numerals.forall_mem_of_all (by decide)

/-- A request for `http://c.d/`, with some fields before the one with the host. -/
def requestCd (fields : List Field) (hfields : ∀ f ∈ fields, ¬ IsHost f.name) : Request where
  method := .get
  target := "/".toList.map chr
  minor := 49
  fieldsBefore := fields
  hostField := hostCd
  fieldsAfter := []
  body := []
  target_ne := by decide
  target_token := by unfold IsLineByte; exact Numerals.forall_mem_of_all (by decide)
  minor_digit := by decide
  one_host := by simpa using hfields

theorem plain_request_read :
    let r := requestCd [] (by simp)
    let memory := r.payload ++ [0]
    httpAddress (ofBytes memory) memory.length r.payload.length 0 =
        some (['/'], ['c', '.', 'd']) ∧
      extractUrl (ofBytes memory) memory.length r.payload.length 0 =
        some (['c', '.', 'd'], ['/']) := by
  intro r memory
  have hfound : r.HostFound :=
    hostFound_of_plain (by decide) (by decide) (by decide) (by decide)
  exact (host_and_path_iff r [0] 0 (by decide) (by simp)).2 hfound

theorem forwardedAb_not_isHost : ∀ f ∈ [forwardedAb], ¬ IsHost f.name := by
  intro f hf
  obtain rfl := List.mem_singleton.1 hf
  unfold IsHost
  decide

/-- The host of another field is taken. -/
theorem forwarded_host_taken :
    ∃ r : Request, r.fieldsBefore = [forwardedAb] ∧ r.hostField = hostCd ∧
      httpAddress (ofBytes (r.payload ++ [0])) (r.payload.length + 1) r.payload.length 0 =
        some (['/'], ['a', '.', 'b']) ∧
      extractUrl (ofBytes (r.payload ++ [0])) (r.payload.length + 1) r.payload.length 0 =
        some (['a', '.', 'b'], ['/']) ∧
      text (r.hostField.host.take 624) ≠ ['a', '.', 'b'] := by
  refine ⟨requestCd [forwardedAb] forwardedAb_not_isHost, rfl, rfl, ?_, ?_, ?_⟩
  · decide
  · decide
  · decide

end Requests

end Weburl

end Gargoyle
