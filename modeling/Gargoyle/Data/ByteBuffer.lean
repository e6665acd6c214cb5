import Mathlib.Tactic.Ring

/-!
# Byte buffers with little-endian words

A buffer assigns a byte to every offset. `writeLE w b off v` stores the `w`
lowest bytes of `v` from the offset `off` on, least significant first, and
`readLE w b off` reads them back. A word just written is read back reduced to its
width.

A record is a list of fields, each with its width and its value. `writeFields`
lays the fields out one after the other, and `Holds` says that they are there.
Texts end with a zero byte.
-/

abbrev ByteBuffer := ℕ → UInt8

namespace ByteBuffer

open List

def zeros : ByteBuffer := fun _ => 0

def writeByte (b : ByteBuffer) (off : ℕ) (x : UInt8) : ByteBuffer :=
  fun i => if i = off then x else b i

/-- Store the `w` lowest bytes of `v`, least significant first. -/
@[simp] def writeLE : ℕ → ByteBuffer → ℕ → ℕ → ByteBuffer
  | 0, b, _, _ => b
  | w + 1, b, off, v => writeLE w (b.writeByte off (UInt8.ofNat v)) (off + 1) (v / 256)

/-- The number whose `w` little-endian bytes start at `off`. -/
@[simp] def readLE : ℕ → ByteBuffer → ℕ → ℕ
  | 0, _, _ => 0
  | w + 1, b, off => (b off).toNat + 256 * readLE w b (off + 1)

theorem writeByte_of_ne (b : ByteBuffer) {off i : ℕ} (x : UInt8) (h : i ≠ off) :
    b.writeByte off x i = b i := by
  simp [writeByte, h]

theorem writeLE_outside (w : ℕ) (b : ByteBuffer) (off v i : ℕ)
    (h : i < off ∨ off + w ≤ i) : writeLE w b off v i = b i := by
  induction w generalizing b off v with
  | zero => rfl
  | succ w ih =>
    rw [writeLE, ih _ _ _ (by omega)]
    exact writeByte_of_ne b _ (by omega)

theorem readLE_congr (w : ℕ) {b b' : ByteBuffer} (off : ℕ)
    (h : ∀ i, off ≤ i → i < off + w → b i = b' i) :
    readLE w b off = readLE w b' off := by
  induction w generalizing off with
  | zero => rfl
  | succ w ih =>
    rw [readLE, readLE, h off le_rfl (by omega),
      ih (off + 1) fun i h₁ h₂ => h i (by omega) (by omega)]

theorem readLE_lt (w : ℕ) (b : ByteBuffer) (off : ℕ) : readLE w b off < 256 ^ w := by
  induction w generalizing off with
  | zero => simp [readLE]
  | succ w ih =>
    have hbyte : (b off).toNat < 256 := (b off).toNat_lt
    have hrest := ih (off + 1)
    rw [readLE, pow_succ]
    omega

theorem readLE_writeLE_self (w : ℕ) (b : ByteBuffer) (off v : ℕ) :
    readLE w (writeLE w b off v) off = v % 256 ^ w := by
  induction w generalizing b off v with
  | zero => simp [readLE, Nat.mod_one]
  | succ w ih =>
    have hbyte : writeLE w (b.writeByte off (UInt8.ofNat v)) (off + 1) (v / 256) off =
        UInt8.ofNat v := by
      rw [writeLE_outside w _ _ _ _ (by omega)]
      simp [writeByte]
    rw [writeLE, readLE, ih, hbyte, pow_succ', Nat.mod_mul]
    simp

/-! ## Records -/

@[simp] def size : List (ℕ × ℕ) → ℕ
  | [] => 0
  | f :: fs => f.1 + size fs

@[simp] def writeFields : ByteBuffer → ℕ → List (ℕ × ℕ) → ByteBuffer
  | b, _, [] => b
  | b, off, f :: fs => writeFields (writeLE f.1 b off f.2) (off + f.1) fs

@[simp] def Holds (b : ByteBuffer) : ℕ → List (ℕ × ℕ) → Prop
  | _, [] => True
  | off, f :: fs => readLE f.1 b off = f.2 % 256 ^ f.1 ∧ Holds b (off + f.1) fs

@[simp] theorem size_append (fs gs : List (ℕ × ℕ)) : size (fs ++ gs) = size fs + size gs := by
  induction fs with
  | nil => simp [size]
  | cons f fs ih => rw [cons_append, size, size, ih, Nat.add_assoc]

theorem size_map_const (w : ℕ) (vs : List ℕ) : size (vs.map fun v => (w, v)) = w * vs.length := by
  induction vs with
  | nil => simp [size]
  | cons v vs ih => rw [map_cons, size, ih, length_cons, Nat.mul_succ, Nat.add_comm]

theorem writeFields_outside (b : ByteBuffer) (off : ℕ) (fs : List (ℕ × ℕ)) (i : ℕ)
    (h : i < off ∨ off + size fs ≤ i) : writeFields b off fs i = b i := by
  induction fs generalizing b off with
  | nil => rfl
  | cons f fs ih =>
    simp only [size] at h
    rw [writeFields, ih _ _ (by omega)]
    exact writeLE_outside _ _ _ _ _ (by omega)

theorem writeFields_append (b : ByteBuffer) (off : ℕ) (fs gs : List (ℕ × ℕ)) :
    writeFields b off (fs ++ gs) = writeFields (writeFields b off fs) (off + size fs) gs := by
  induction fs generalizing b off with
  | nil => rfl
  | cons f fs ih => rw [cons_append, writeFields, ih, size, Nat.add_assoc, writeFields]

theorem Holds.congr {b b' : ByteBuffer} {off : ℕ} {fs : List (ℕ × ℕ)} (h : Holds b off fs)
    (hsame : ∀ i, off ≤ i → i < off + size fs → b' i = b i) : Holds b' off fs := by
  induction fs generalizing off with
  | nil => trivial
  | cons f fs ih =>
    simp only [size] at hsame
    refine ⟨?_, ih h.2 fun i h₁ h₂ => hsame i (by omega) (by omega)⟩
    rw [← h.1]
    exact readLE_congr _ _ fun i h₁ h₂ => hsame i h₁ (by omega)

theorem holds_append {b : ByteBuffer} {off : ℕ} {fs gs : List (ℕ × ℕ)} :
    Holds b off (fs ++ gs) ↔ Holds b off fs ∧ Holds b (off + size fs) gs := by
  induction fs generalizing off with
  | nil => simp [Holds, size]
  | cons f fs ih =>
    rw [cons_append, Holds, ih, Holds, size, and_assoc, Nat.add_assoc]

theorem holds_writeFields (b : ByteBuffer) (off : ℕ) (fs : List (ℕ × ℕ)) :
    Holds (writeFields b off fs) off fs := by
  induction fs generalizing b off with
  | nil => trivial
  | cons f fs ih =>
    refine ⟨?_, ih _ _⟩
    rw [← readLE_writeLE_self f.1 b off f.2]
    exact readLE_congr _ _ fun i h₁ h₂ => writeFields_outside _ _ _ _ (Or.inl h₂)

theorem decide_flag {b : ByteBuffer} {off : ℕ} {flag : Bool}
    (h : readLE 1 b off = flag.toNat % 256 ^ 1) : decide (b off ≠ 0) = flag := by
  have hbyte : (b off).toNat = flag.toNat := by
    cases flag <;> simpa [readLE] using h
  cases flag with
  | false =>
    have hzero : b off = 0 := UInt8.toNat_inj.1 hbyte
    simp [hzero]
  | true =>
    have hne : b off ≠ 0 := by
      intro hzero
      rw [hzero] at hbyte
      cases hbyte
    simp [hne]

/-- The fields that end within the first `len` bytes are in the buffer. -/
@[simp] def HoldsWithin (len : ℕ) (b : ByteBuffer) : ℕ → List (ℕ × ℕ) → Prop
  | _, [] => True
  | off, f :: fs =>
    (off + f.1 ≤ len → readLE f.1 b off = f.2 % 256 ^ f.1) ∧ HoldsWithin len b (off + f.1) fs

theorem Holds.within {b b' : ByteBuffer} {len off : ℕ} {fs : List (ℕ × ℕ)} (h : Holds b off fs)
    (hsame : ∀ i, off ≤ i → i < len → b' i = b i) : HoldsWithin len b' off fs := by
  induction fs generalizing off with
  | nil => trivial
  | cons f fs ih =>
    refine ⟨fun hfits => ?_, ih h.2 fun i h₁ h₂ => hsame i (by omega) h₂⟩
    rw [← h.1]
    exact readLE_congr _ _ fun i h₁ h₂ => hsame i h₁ (by omega)

theorem HoldsWithin.holds {b : ByteBuffer} {len off : ℕ} {fs : List (ℕ × ℕ)}
    (h : HoldsWithin len b off fs) (hfits : off + size fs ≤ len) : Holds b off fs := by
  induction fs generalizing off with
  | nil => trivial
  | cons f fs ih =>
    simp only [size] at hfits
    exact ⟨h.1 (by omega), ih h.2 (by omega)⟩

theorem holdsWithin_append {b : ByteBuffer} {len off : ℕ} {fs gs : List (ℕ × ℕ)} :
    HoldsWithin len b off (fs ++ gs) ↔
      HoldsWithin len b off fs ∧ HoldsWithin len b (off + size fs) gs := by
  induction fs generalizing off with
  | nil => simp [HoldsWithin, size]
  | cons f fs ih =>
    rw [cons_append, HoldsWithin, ih, HoldsWithin, size, and_assoc, Nat.add_assoc]

/-- The 64-bit words from `off` on. -/
def readWords (b : ByteBuffer) (off n : ℕ) : List ℕ :=
  (List.range n).map fun i => readLE 8 b (off + 8 * i)

theorem readWords_succ (b : ByteBuffer) (off n : ℕ) :
    readWords b off (n + 1) = readLE 8 b off :: readWords b (off + 8) n := by
  simp only [readWords, range_succ_eq_map, map_cons, map_map]
  refine congrArg₂ List.cons (by simp) (map_congr_left fun i _ => ?_)
  simp only [Function.comp_apply, Nat.succ_eq_add_one]
  congr 1
  omega

theorem readWords_of_holds {b : ByteBuffer} {off : ℕ} {vs : List ℕ}
    (h : Holds b off (vs.map fun v => (8, v))) :
    readWords b off vs.length = vs.map (· % 256 ^ 8) := by
  induction vs generalizing off with
  | nil => rw [readWords, length_nil, range_zero, map_nil, map_nil]
  | cons v vs ih =>
    obtain ⟨hv, hvs⟩ := h
    have hword : readLE 8 b off = v % 256 ^ 8 := hv
    rw [length_cons, readWords_succ, map_cons, ih hvs, hword]

/-! ## Texts -/

@[simp] def writeChars : ByteBuffer → ℕ → List Char → ByteBuffer
  | b, _, [] => b
  | b, off, c :: cs => writeChars (b.writeByte off (UInt8.ofNat c.toNat)) (off + 1) cs

/-- The characters up to a zero byte, at most `n`. -/
@[simp] def readChars (b : ByteBuffer) : ℕ → ℕ → List Char
  | _, 0 => []
  | off, n + 1 => if b off = 0 then [] else Char.ofNat (b off).toNat :: readChars b (off + 1) n

/-- What is left of a text that is sent through a field of `n` characters. -/
@[simp] def sentChars : ℕ → List Char → List Char
  | 0, _ => []
  | _ + 1, [] => []
  | n + 1, c :: cs =>
    if c.toNat % 256 = 0 then [] else Char.ofNat (c.toNat % 256) :: sentChars n cs

theorem writeChars_outside (b : ByteBuffer) (off : ℕ) (cs : List Char) (i : ℕ)
    (h : i < off ∨ off + cs.length ≤ i) : writeChars b off cs i = b i := by
  induction cs generalizing b off with
  | nil => rfl
  | cons c cs ih =>
    simp only [length_cons] at h
    rw [writeChars, ih _ _ (by omega)]
    exact writeByte_of_ne b _ (by omega)

/-- A text is read as it was written, up to its end. -/
theorem readChars_writeChars (b : ByteBuffer) (off n : ℕ) (cs : List Char)
    (hend : n ≤ cs.length ∨ b (off + cs.length) = 0) :
    readChars (writeChars b off cs) off n = sentChars n cs := by
  induction n generalizing b off cs with
  | zero => rfl
  | succ n ih =>
    cases cs with
    | nil =>
      have hzero : b off = 0 := by simpa using hend
      rw [writeChars, readChars, if_pos hzero, sentChars]
    | cons c cs =>
      have hbyte : writeChars b off (c :: cs) off = UInt8.ofNat c.toNat := by
        rw [writeChars, writeChars_outside _ _ _ _ (by omega)]
        simp [writeByte]
      have hiff : (UInt8.ofNat c.toNat = 0) ↔ c.toNat % 256 = 0 := by
        rw [← UInt8.toNat_inj]
        simp
      rw [readChars, hbyte, sentChars]
      simp only [hiff, UInt8.toNat_ofNat']
      split_ifs
      · rfl
      · refine congrArg _ (ih _ _ cs ?_)
        simp only [length_cons] at hend
        rcases hend with hlen | hzero
        · exact .inl (by omega)
        · refine .inr ?_
          rw [writeByte_of_ne b _ (by omega), ← hzero]
          congr 1
          omega

theorem readChars_congr {b b' : ByteBuffer} {off n : ℕ}
    (h : ∀ i, off ≤ i → i < off + n → b i = b' i) : readChars b off n = readChars b' off n := by
  induction n generalizing off with
  | zero => rfl
  | succ n ih =>
    rw [readChars, readChars, h off le_rfl (by omega),
      ih fun i h₁ h₂ => h i (by omega) (by omega)]

theorem sentChars_take (n : ℕ) (cs : List Char) : sentChars n (cs.take n) = sentChars n cs := by
  induction n generalizing cs with
  | zero => rfl
  | succ n ih =>
    cases cs with
    | nil => rfl
    | cons c cs => rw [take_succ_cons, sentChars, sentChars, ih]

end ByteBuffer
