import Mathlib.Algebra.Group.Int.Defs
import Mathlib.Algebra.GroupWithZero.Nat
import Mathlib.Tactic.Set
import Mathlib.Tactic.SplitIfs

/-!
# Escaped variables

Before the value of a variable is printed, it is copied to a buffer, and characters of it
are replaced on the way by more than one. The loop is bounded by the place in the value,
not by the place in the buffer. A text is the list of its characters, without the zero
that ends it.
-/

namespace Gargoyle

open List

namespace Gpkg

inductive OutputFormat
  | humanReadable
  | json
  | javascript
  deriving DecidableEq

structure OutBuf where
  writes : List (ℕ × Char) := []
  outIndex : ℕ := 0

namespace OutBuf

/-- `out_buf[out_index] = c`. -/
def put (out : OutBuf) (c : Char) : OutBuf :=
  { out with writes := out.writes ++ [(out.outIndex, c)] }

/-- `out_index++`. -/
def next (out : OutBuf) : OutBuf := { out with outIndex := out.outIndex + 1 }

def indent (out : OutBuf) : ℕ → OutBuf
  | 0 => out
  | blanks + 1 => indent (out.next.put ' ') blanks

end OutBuf

section Escape

variable (format : OutputFormat) (varName : List Char)

/-- One round of the loop of `escape_package_variable`, for the character `c`. -/
def escapeRound (c : Char) (out : OutBuf) : OutBuf :=
  let out :=
    if format = .json ∨ format = .javascript then
      if c = '\\' ∨ c = '"' ∨ c = '\n' ∨ c = '\r' then
        let ch := if c = '\r' ∨ c = '\n' then 'n' else c
        ((out.put '\\').next).put ch
      else out.put c
    else
      if c = '\n' ∨ c = '\r' then (out.put '\n').indent (varName.length + 2)
      else out.put c
  out.next

/-- The loop of `escape_package_variable` from `index` on. -/
def escapeLoop (bufLen : ℤ) : List Char → ℕ → OutBuf → OutBuf
  | [], _, out => out
  | c :: text, index, out =>
    if (index : ℤ) < bufLen - 1 then
      escapeLoop bufLen text (index + 1) (escapeRound format varName c out)
    else out

/-- `escape_package_variable`, for an `out_buf` that is not `NULL`: what is written to
it, in order. -/
def escapePackageVariable (varDef : Option (List Char)) (bufLen : ℤ) : List (ℕ × Char) :=
  if 0 < bufLen then
    let out : OutBuf := OutBuf.put {} '\x00'
    match varDef with
    | none => out.writes
    | some text => ((escapeLoop format varName bufLen text 0 out).put '\x00').writes
  else []

def escapeChar (c : Char) : List Char :=
  if format = .json ∨ format = .javascript then
    if c = '\\' ∨ c = '"' ∨ c = '\n' ∨ c = '\r' then
      ['\\', if c = '\r' ∨ c = '\n' then 'n' else c]
    else [c]
  else if c = '\n' ∨ c = '\r' then '\n' :: List.replicate (varName.length + 2) ' '
  else [c]

def copied (text : List Char) (bufLen : ℤ) : List Char := text.take (bufLen - 1).toNat

def escaped (text : List Char) (bufLen : ℤ) : List Char :=
  (copied text bufLen).flatMap (escapeChar format varName)

def width (c : Char) : ℕ :=
  if format = .json ∨ format = .javascript then
    if c = '\\' ∨ c = '"' ∨ c = '\n' ∨ c = '\r' then 2 else 1
  else if c = '\n' ∨ c = '\r' then varName.length + 3 else 1

end Escape

/-! ## What the loop writes -/

namespace OutBuf

def append (out : OutBuf) (xs : List Char) : OutBuf :=
  ⟨out.writes ++ xs.zipIdx.map fun x => (out.outIndex + x.2, x.1), out.outIndex + xs.length⟩

@[simp] theorem append_nil (out : OutBuf) : out.append [] = out := by
  simp [append]

theorem append_append (out : OutBuf) (xs ys : List Char) :
    (out.append xs).append ys = out.append (xs ++ ys) := by
  have hys : ys.zipIdx xs.length = ys.zipIdx.map fun y => (y.1, xs.length + y.2) :=
    zipIdx_eq_map_add
  simp only [append, zipIdx_append, map_append, length_append, Nat.add_assoc,
    append_assoc, Nat.zero_add, hys, map_map]
  rfl

theorem put_next (out : OutBuf) (c : Char) : (out.put c).next = out.append [c] := rfl

theorem indent_next (out : OutBuf) (c : Char) (blanks : ℕ) :
    ((out.put c).indent blanks).next = out.append (c :: List.replicate blanks ' ') := by
  induction blanks generalizing out c with
  | zero => rfl
  | succ blanks ih =>
    rw [indent, put_next, ih, append_append]
    rfl

theorem forall_append {out : OutBuf} {xs : List Char} {p : ℕ → Prop} :
    (∀ w ∈ (out.append xs).writes, p w.1) ↔
      (∀ w ∈ out.writes, p w.1) ∧ ∀ i < xs.length, p (out.outIndex + i) := by
  simp only [append, mem_append, mem_map]
  constructor
  · intro h
    refine ⟨fun w hw => h w (Or.inl hw), fun i hi => ?_⟩
    exact h _ (Or.inr ⟨(xs[i], i), List.mem_zipIdx_iff_getElem?.2 (getElem?_eq_getElem hi),
      rfl⟩)
  · rintro ⟨hw, hi⟩ w (h | ⟨x, hx, rfl⟩)
    · exact hw w h
    · exact hi x.2 (snd_lt_of_mem_zipIdx hx)

end OutBuf

section Escape

variable (format : OutputFormat) (varName : List Char)

theorem escapeRound_eq (c : Char) (out : OutBuf) :
    escapeRound format varName c out = out.append (escapeChar format varName c) := by
  rw [escapeRound, escapeChar]
  split_ifs
  · rw [OutBuf.put_next, OutBuf.put_next, OutBuf.append_append]
    rfl
  · rw [OutBuf.put_next, OutBuf.put_next, OutBuf.append_append]
    rfl
  · rfl
  · exact OutBuf.indent_next out '\n' _
  · rfl

theorem escapeLoop_eq (bufLen : ℤ) (text : List Char) (index : ℕ) (out : OutBuf) :
    escapeLoop format varName bufLen text index out =
      out.append ((text.take (bufLen - 1 - index).toNat).flatMap (escapeChar format varName)) := by
  induction text generalizing index out with
  | nil => rw [escapeLoop, take_nil, flatMap_nil, OutBuf.append_nil]
  | cons c text ih =>
    rw [escapeLoop]
    split_ifs with hindex
    · have hleft : (bufLen - 1 - index).toNat = (bufLen - 1 - (index + 1 : ℕ)).toNat + 1 := by
        omega
      rw [ih, escapeRound_eq, OutBuf.append_append, hleft, take_succ_cons,
        flatMap_cons]
    · have hleft : (bufLen - 1 - index).toNat = 0 := by omega
      rw [hleft, take_zero, flatMap_nil, OutBuf.append_nil]

theorem escapePackageVariable_some {bufLen : ℤ} (hbuf : 0 < bufLen) (text : List Char) :
    escapePackageVariable format varName (some text) bufLen =
      ((OutBuf.put {} '\x00').append (escaped format varName text bufLen ++ ['\x00'])).writes := by
  have hstart : (bufLen - 1 - (0 : ℕ)).toNat = (bufLen - 1).toNat := by omega
  rw [escapePackageVariable, if_pos hbuf, ← OutBuf.append_append, ← OutBuf.put_next]
  simp only [escapeLoop_eq, hstart]
  rfl

theorem length_escapeChar (c : Char) :
    (escapeChar format varName c).length = width format varName c := by
  rw [escapeChar, width]
  split_ifs <;> simp

theorem length_escaped (text : List Char) (bufLen : ℤ) :
    (escaped format varName text bufLen).length =
      ((copied text bufLen).map (width format varName)).sum := by
  rw [escaped, length_flatMap]
  simp only [length_escapeChar]

/-- Every index that is written lies in the buffer if and only if the characters that take
the place of the first `buf_len - 1` ones of the value are not more than `buf_len - 1`. -/
theorem escapePackageVariable_below_iff (varDef : Option (List Char)) {bufLen : ℤ}
    (hbuf : 0 < bufLen) :
    (∀ w ∈ escapePackageVariable format varName varDef bufLen, (w.1 : ℤ) < bufLen) ↔
      ∀ text, varDef = some text →
        (((copied text bufLen).map (width format varName)).sum : ℤ) ≤ bufLen - 1 := by
  cases varDef with
  | none =>
    rw [escapePackageVariable, if_pos hbuf]
    simp [OutBuf.put, hbuf]
  | some text =>
    rw [escapePackageVariable_some format varName hbuf,
      OutBuf.forall_append (p := fun i => (i : ℤ) < bufLen), length_append, length_escaped,
      length_singleton]
    set size := ((copied text bufLen).map (width format varName)).sum
    constructor
    · rintro ⟨-, hwrites⟩ _ ⟨⟩
      have hlast := hwrites size (Nat.lt_succ_self size)
      simp only [OutBuf.put, Nat.zero_add] at hlast
      omega
    · intro hsize
      have hsize := hsize text rfl
      refine ⟨?_, fun i hi => ?_⟩
      · simp [OutBuf.put, hbuf]
      · simp only [OutBuf.put, Nat.zero_add]
        omega

/-- A buffer of ten characters holds what `ab` is copied to. -/
theorem escapePackageVariable_below_ten :
    (0 : ℤ) < 10 ∧
      ((∀ w ∈ escapePackageVariable .json "Source".toList (some "ab".toList) 10,
        (w.1 : ℤ) < 10) ↔
          ∀ text, some "ab".toList = some text →
            (((copied text 10).map (width .json "Source".toList)).sum : ℤ) ≤ 10 - 1) :=
  ⟨by decide, escapePackageVariable_below_iff .json "Source".toList (some "ab".toList) (by decide)⟩

/-- A quotation mark fills a buffer of two characters, and the zero is written behind it. -/
theorem quotation_mark_overflows :
    ¬∀ (varDef : Option (List Char)) (varName : List Char) (format : OutputFormat) (bufLen : ℤ),
      0 < bufLen → ∀ w ∈ escapePackageVariable format varName varDef bufLen, (w.1 : ℤ) < bufLen := by
  intro h
  exact absurd (h (some ['"']) [] .json 2 (by decide) (2, '\x00') (by decide)) (by decide)

end Escape

end Gpkg

end Gargoyle
