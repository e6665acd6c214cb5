import Gargoyle.Data.ByteBuffer

/-!
# Reading a packet with its bounds

A packet is the first `len` bytes of a buffer. Functions that read a packet return
`none` when a byte outside of it is read, so that a result says that every read
was inside. `scan` looks for the first byte of a kind.
-/

namespace ByteBuffer

open List

/-- The byte at `off`. -/
def readByte (b : ByteBuffer) (len off : ℕ) : Option UInt8 :=
  if off < len then some (b off) else none

/-- Copy `n` bytes from `off` on. -/
def readBytes (b : ByteBuffer) (len off n : ℕ) : Option (List UInt8) :=
  if n = 0 ∨ off + n ≤ len then some ((List.range n).map fun i => b (off + i)) else none

/-- The first of `n` bytes from `off` on that satisfies `stop`. -/
@[simp] def scanFrom (stop : UInt8 → Bool) (b : ByteBuffer) : ℕ → ℕ → Option ℕ
  | 0, _ => none
  | n + 1, off => if stop (b off) then some off else scanFrom stop b n (off + 1)

/-- The loop that moves on while the byte at its offset does not satisfy `stop`. -/
def scan (stop : UInt8 → Bool) (b : ByteBuffer) (len off : ℕ) : Option ℕ :=
  scanFrom stop b (len - off) off

/-- The loop that moves on while the byte at its offset does not satisfy `stop`
and the offset is not `n` further. -/
@[simp] def scanTo (stop : UInt8 → Bool) (b : ByteBuffer) (len : ℕ) : ℕ → ℕ → Option ℕ
  | 0, off => (readByte b len off).map fun _ => off
  | n + 1, off =>
    (readByte b len off).bind fun x => if stop x then some off else scanTo stop b len n (off + 1)

section

variable {stop : UInt8 → Bool} {b : ByteBuffer} {len off i n : ℕ}

theorem readByte_of_lt (h : off < len) : readByte b len off = some (b off) := if_pos h

theorem readBytes_isSome_iff : (readBytes b len off n).isSome ↔ n = 0 ∨ off + n ≤ len := by
  unfold readBytes
  split_ifs with h
  · simpa using h
  · simpa using h

/-- The scan stops at the first byte that it looks for. -/
theorem scanFrom_eq_some_iff : scanFrom stop b n off = some i ↔
    off ≤ i ∧ i < off + n ∧ stop (b i) = true ∧ ∀ j, off ≤ j → j < i → stop (b j) = false := by
  induction n generalizing off with
  | zero =>
    simp only [scanFrom]
    constructor
    · intro h
      cases h
    · rintro ⟨h₁, h₂, -⟩
      omega
  | succ n ih =>
    simp only [scanFrom]
    by_cases hstop : stop (b off) = true
    · rw [if_pos hstop]
      constructor
      · intro h
        obtain rfl := Option.some.inj h
        exact ⟨le_rfl, by omega, hstop, fun j h₁ h₂ => absurd h₂ (not_lt.2 h₁)⟩
      · rintro ⟨h₁, -, -, hbefore⟩
        rcases Nat.eq_or_lt_of_le h₁ with rfl | hlt
        · rfl
        · rw [hbefore off le_rfl hlt] at hstop
          cases hstop
    · rw [if_neg hstop, ih]
      constructor
      · rintro ⟨h₁, h₂, hi, hbefore⟩
        refine ⟨by omega, by omega, hi, fun j hj hlt => ?_⟩
        rcases Nat.eq_or_lt_of_le hj with rfl | hlt'
        · exact Bool.eq_false_iff.2 hstop
        · exact hbefore j hlt' hlt
      · rintro ⟨h₁, h₂, hi, hbefore⟩
        have hne : off ≠ i := by
          rintro rfl
          exact hstop hi
        exact ⟨by omega, by omega, hi, fun j hj hlt => hbefore j (by omega) hlt⟩

theorem scan_eq_some_iff : scan stop b len off = some i ↔
    off ≤ i ∧ i < len ∧ stop (b i) = true ∧ ∀ j, off ≤ j → j < i → stop (b j) = false := by
  rw [scan, scanFrom_eq_some_iff]
  constructor
  · rintro ⟨h₁, h₂, hrest⟩
    exact ⟨h₁, by omega, hrest⟩
  · rintro ⟨h₁, h₂, hrest⟩
    exact ⟨h₁, by omega, hrest⟩

theorem scan_isSome_iff : (scan stop b len off).isSome ↔
    ∃ i, off ≤ i ∧ i < len ∧ stop (b i) = true := by
  constructor
  · intro h
    obtain ⟨i, hi⟩ := Option.isSome_iff_exists.1 h
    obtain ⟨h₁, h₂, h₃, -⟩ := scan_eq_some_iff.1 hi
    exact ⟨i, h₁, h₂, h₃⟩
  · intro h
    classical
    obtain ⟨h₁, h₂, h₃⟩ := Nat.find_spec h
    refine Option.isSome_iff_exists.2 ⟨Nat.find h, scan_eq_some_iff.2 ⟨h₁, h₂, h₃, ?_⟩⟩
    intro j hj hlt
    have hmin := Nat.find_min h hlt
    rw [Bool.eq_false_iff]
    exact fun hstop => hmin ⟨hj, by omega, hstop⟩

/-- A scan stays inside if its bound or a byte that it looks for is inside. -/
theorem scanTo_isSome_iff : (scanTo stop b len n off).isSome ↔
    off + n < len ∨ ∃ i, off ≤ i ∧ i < len ∧ i < off + n ∧ stop (b i) = true := by
  induction n generalizing off with
  | zero =>
    simp only [scanTo, readByte, Option.isSome_map]
    split_ifs with h
    · simp only [Option.isSome_some, true_iff]
      exact .inl h
    · simp only [Option.isSome_none, Bool.false_eq_true, false_iff]
      rintro (hlt | ⟨i, h₁, -, h₃, -⟩) <;> omega
  | succ n ih =>
    simp only [scanTo]
    by_cases h : off < len
    · rw [readByte_of_lt h, Option.bind_some]
      by_cases hstop : stop (b off) = true
      · simp only [if_pos hstop, Option.isSome_some, true_iff]
        exact .inr ⟨off, le_rfl, h, by omega, hstop⟩
      · rw [if_neg hstop, ih]
        constructor
        · rintro (hlt | ⟨i, h₁, h₂, h₃, h₄⟩)
          · exact .inl (by omega)
          · exact .inr ⟨i, by omega, h₂, by omega, h₄⟩
        · rintro (hlt | ⟨i, h₁, h₂, h₃, h₄⟩)
          · exact .inl (by omega)
          · have hne : off ≠ i := by
              rintro rfl
              exact hstop h₄
            exact .inr ⟨i, by omega, h₂, by omega, h₄⟩
    · have hnone : readByte b len off = none := if_neg h
      rw [hnone]
      simp only [Option.bind_none, Option.isSome_none, Bool.false_eq_true, false_iff]
      rintro (hlt | ⟨i, h₁, h₂, -, -⟩) <;> omega

theorem scanTo_bounds (h : scanTo stop b len n off = some i) : off ≤ i ∧ i ≤ off + n ∧ i < len := by
  induction n generalizing off with
  | zero =>
    simp only [scanTo, readByte] at h
    split_ifs at h with hlt
    · obtain rfl := Option.some.inj h
      exact ⟨le_rfl, le_rfl, hlt⟩
    · cases h
  | succ n ih =>
    simp only [scanTo, readByte] at h
    split_ifs at h with hlt
    · rw [Option.bind_some] at h
      split_ifs at h with hstop
      · obtain rfl := Option.some.inj h
        exact ⟨le_rfl, by omega, hlt⟩
      · have hrest := ih h
        omega
    · cases h

theorem scanTo_stops (h : scanTo stop b len n off = some i) :
    (stop (b i) = true ∨ i = off + n) ∧ ∀ j, off ≤ j → j < i → stop (b j) = false := by
  induction n generalizing off with
  | zero =>
    obtain ⟨h₁, h₂, -⟩ := scanTo_bounds h
    exact ⟨Or.inr (by omega), fun j hj hlt => by omega⟩
  | succ n ih =>
    simp only [scanTo, readByte] at h
    split_ifs at h with hlt
    · rw [Option.bind_some] at h
      split_ifs at h with hstop
      · obtain rfl := Option.some.inj h
        exact ⟨Or.inl hstop, fun j hj hlt => by omega⟩
      · obtain ⟨hend, hbefore⟩ := ih h
        refine ⟨hend.imp_right (by omega), fun j hj hlt => ?_⟩
        rcases Nat.eq_or_lt_of_le hj with rfl | hlt'
        · exact Bool.eq_false_iff.2 hstop
        · exact hbefore j hlt' hlt
    · cases h

end

/-!
## Bytes on the wire

Network formats store numbers with the most significant byte first, and lists
of bytes behind their length. `Stores b off xs` says that the bytes `xs` stand
in the buffer from `off` on; a message that is put together from parts is stored
when the parts are stored one after the other.
-/

/-- The number whose `w` bytes start at `off`, most significant first. -/
@[simp] def readBE : ℕ → ByteBuffer → ℕ → ℕ
  | 0, _, _ => 0
  | w + 1, b, off => (b off).toNat * 256 ^ w + readBE w b (off + 1)

/-- The `w` lowest bytes of `v`, most significant first. -/
@[simp] def beBytes : ℕ → ℕ → List UInt8
  | 0, _ => []
  | w + 1, v => UInt8.ofNat (v / 256 ^ w) :: beBytes w v

/-- A list of bytes behind its length, which has `w` bytes. -/
def vector (w : ℕ) (xs : List UInt8) : List UInt8 := beBytes w xs.length ++ xs

/-- The bytes stand in the buffer from `off` on. -/
@[simp] def Stores (b : ByteBuffer) : ℕ → List UInt8 → Prop
  | _, [] => True
  | off, x :: xs => b off = x ∧ Stores b (off + 1) xs

def ofBytes (xs : List UInt8) : ByteBuffer := fun i => xs.getD i 0

@[simp] theorem length_beBytes (w v : ℕ) : (beBytes w v).length = w := by
  induction w with
  | zero => rfl
  | succ w ih => rw [beBytes, length_cons, ih]

@[simp] theorem length_vector (w : ℕ) (xs : List UInt8) :
    (vector w xs).length = w + xs.length := by
  rw [vector, length_append, length_beBytes]

theorem stores_append {b : ByteBuffer} {off : ℕ} {xs ys : List UInt8} :
    Stores b off (xs ++ ys) ↔ Stores b off xs ∧ Stores b (off + xs.length) ys := by
  induction xs generalizing off with
  | nil => simp [Stores]
  | cons x xs ih =>
    rw [cons_append, Stores, ih, Stores, and_assoc, length_cons, Nat.add_right_comm,
      Nat.add_assoc]

theorem stores_ofBytes_append (ps xs : List UInt8) : Stores (ofBytes (ps ++ xs)) ps.length xs := by
  induction xs generalizing ps with
  | nil => trivial
  | cons x xs ih =>
    refine ⟨by simp [ofBytes], ?_⟩
    simpa using ih (ps ++ [x])

theorem stores_ofBytes (xs : List UInt8) : Stores (ofBytes xs) 0 xs :=
  stores_ofBytes_append [] xs

theorem readBE_of_stores_mod {b : ByteBuffer} {off w v : ℕ} (h : Stores b off (beBytes w v)) :
    readBE w b off = v % 256 ^ w := by
  induction w generalizing off with
  | zero => simp [readBE, Nat.mod_one]
  | succ w ih =>
    obtain ⟨hbyte, hrest⟩ := h
    rw [readBE, hbyte, ih hrest, pow_succ, Nat.mod_mul]
    simp [Nat.add_comm, Nat.mul_comm]

theorem readBE_one (b : ByteBuffer) (off : ℕ) : readBE 1 b off = (b off).toNat := by
  simp [readBE]

theorem readBE_of_stores {b : ByteBuffer} {off w v : ℕ} (h : Stores b off (beBytes w v))
    (hfits : v < 256 ^ w) : readBE w b off = v := by
  rw [readBE_of_stores_mod h, Nat.mod_eq_of_lt hfits]

theorem readBE_of_stores_vector {b : ByteBuffer} {off w : ℕ} {xs : List UInt8}
    (h : Stores b off (vector w xs)) (hfits : xs.length < 256 ^ w) :
    readBE w b off = xs.length :=
  readBE_of_stores (stores_append.1 h).1 hfits

def text (xs : List UInt8) : List Char := xs.map fun x => Char.ofNat x.toNat

theorem readChars_of_stores {b : ByteBuffer} {off : ℕ} {xs : List UInt8} (h : Stores b off xs)
    (hzero : (0 : UInt8) ∉ xs) : readChars b off xs.length = text xs := by
  induction xs generalizing off with
  | nil => rfl
  | cons x xs ih =>
    obtain ⟨rfl, hrest⟩ := h
    have hne : b off ≠ 0 := fun h0 => hzero (h0 ▸ mem_cons_self)
    rw [length_cons, readChars, if_neg hne,
      ih hrest fun h0 => hzero (mem_cons_of_mem _ h0)]
    rfl

/-!
## A packet given by its bytes

The bytes of a packet from an offset on are the tail of a list. What the loops of
`Scan` and the copies take out of the packet are pieces of this list.
-/

variable {stop : UInt8 → Bool} {p : List UInt8} {off i n : ℕ}

theorem drop_eq_cons (h : off < p.length) : p.drop off = ofBytes p off :: p.drop (off + 1) := by
  rw [drop_eq_getElem_cons h, ofBytes, getD_eq_getElem?_getD,
    getElem?_eq_getElem h, Option.getD_some]

theorem ofBytes_append_of_lt {xs ys : List UInt8} {i : ℕ} (h : i < xs.length) :
    ofBytes (xs ++ ys) i = xs[i] := by
  rw [ofBytes, getD_eq_getElem?_getD, getElem?_append_left h,
    getElem?_eq_getElem h, Option.getD_some]

theorem ofBytes_append_length (xs ys : List UInt8) (i : ℕ) :
    ofBytes (xs ++ ys) (xs.length + i) = ofBytes ys i := by
  rw [ofBytes, ofBytes, getD_eq_getElem?_getD, getD_eq_getElem?_getD,
    getElem?_append_right (Nat.le_add_right _ _), Nat.add_sub_cancel_left]

theorem readBytes_ofBytes (h : n = 0 ∨ off + n ≤ p.length) :
    readBytes (ofBytes p) p.length off n = some ((p.drop off).take n) := by
  rw [readBytes, if_pos h]
  congr 1
  rcases h with rfl | hle
  · simp
  · induction n generalizing off with
    | zero => simp
    | succ n ih =>
      rw [drop_eq_cons (by omega), take_succ_cons, ← ih (by omega),
        range_succ_eq_map, map_cons, map_map, Nat.add_zero]
      refine congrArg _ (map_congr_left fun j _ => ?_)
      rw [Function.comp_apply, Nat.succ_eq_add_one, Nat.add_comm j 1, Nat.add_assoc]

theorem takeWhile_of_scanFrom (hn : off + n ≤ p.length)
    (h : scanFrom stop (ofBytes p) n off = some i) :
    (p.drop off).takeWhile (fun x => !stop x) = (p.drop off).take (i - off) ∧
      (p.drop off).dropWhile (fun x => !stop x) = p.drop i := by
  induction n generalizing off with
  | zero => cases h
  | succ n ih =>
    rw [scanFrom] at h
    rw [drop_eq_cons (show off < p.length by omega), takeWhile_cons, dropWhile_cons]
    split_ifs at h with hstop
    · obtain rfl := Option.some.inj h
      rw [hstop, Nat.sub_self, drop_eq_cons (show off < p.length by omega)]
      exact ⟨rfl, rfl⟩
    · obtain ⟨hle, -⟩ := scanFrom_eq_some_iff.1 h
      obtain ⟨htake, hdrop⟩ := ih (by omega) h
      have hshift : i - off = (i - (off + 1)) + 1 := by omega
      rw [Bool.not_eq_true] at hstop
      rw [hstop, Bool.not_false, if_pos rfl, if_pos rfl, htake, hdrop, hshift,
        take_succ_cons]
      exact ⟨rfl, rfl⟩

theorem takeWhile_of_scan (h : scan stop (ofBytes p) p.length off = some i) :
    (p.drop off).takeWhile (fun x => !stop x) = (p.drop off).take (i - off) ∧
      (p.drop off).dropWhile (fun x => !stop x) = p.drop i := by
  have hbounds := scan_eq_some_iff.1 h
  exact takeWhile_of_scanFrom (by omega) h

theorem takeWhile_of_scanTo (h : scanTo stop (ofBytes p) p.length n off = some i) :
    ((p.drop off).take n).takeWhile (fun x => !stop x) = (p.drop off).take (i - off) := by
  induction n generalizing off with
  | zero =>
    obtain ⟨hle, hle', -⟩ := scanTo_bounds h
    rw [show i - off = 0 by omega, take_zero]
    rfl
  | succ n ih =>
    obtain ⟨hle, -, hlt⟩ := scanTo_bounds h
    have hoff : off < p.length := by omega
    rw [scanTo, readByte_of_lt hoff, Option.bind_some] at h
    rw [drop_eq_cons hoff, take_succ_cons, takeWhile_cons]
    split_ifs at h with hstop
    · obtain rfl := Option.some.inj h
      rw [hstop, Nat.sub_self]
      rfl
    · obtain ⟨hle', -⟩ := scanTo_bounds h
      have hshift : i - off = (i - (off + 1)) + 1 := by omega
      rw [Bool.not_eq_true] at hstop
      rw [hstop, Bool.not_false, if_pos rfl, ih h, hshift, take_succ_cons]

end ByteBuffer
