import Gargoyle.Data.Base64
import Gargoyle.Data.CText
import Gargoyle.Data.MemoryBlock

/-!
# The credentials of a request

`encode_base_64_str` reads three bytes at a time and stays at the zero that ends the text, so that the
last bytes of a block may be zeros. It breaks lines after so many blocks as fit into a line, and then
after each block, because blocks are never counted from the start again. `none` stands for an access
outside of the text, the table or the memory that was allocated.
-/

namespace Gargoyle

open List

namespace Ewget

open CText (bytes)
open MemoryBlock (alloc filled)

def cb64 : List UInt8 := bytes "ABCDEFGHIJKLMNOPQRSTUVWXYZabcdefghijklmnopqrstuvwxyz0123456789+/"

def encodeBlockBase64 (in₀ in₁ in₂ : UInt8) (len : ℕ) : Option (List UInt8) := do
  let out₀ ← cb64[(in₀ >>> 2).toNat]?
  let out₁ ← cb64[(((in₀ &&& 0x03) <<< 4) ||| ((in₁ &&& 0xf0) >>> 4)).toNat]?
  let out₂ ← if len > 1 then cb64[(((in₁ &&& 0x0f) <<< 2) ||| ((in₂ &&& 0xc0) >>> 6)).toNat]?
    else some 61
  let out₃ ← if len > 2 then cb64[(in₂ &&& 0x3f).toNat]? else some 61
  some [out₀, out₁, out₂, out₃]

def nextByte : List UInt8 → UInt8 × List UInt8
  | [] => (0, [])
  | x :: s => (x, s)

theorem length_nextByte (s : List UInt8) : (nextByte s).2.length = s.length - 1 := by
  cases s <;> rfl

theorem length_third_lt {s : List UInt8} (h : s ≠ []) :
    (nextByte (nextByte (nextByte s).2).2).2.length < s.length := by
  have hpos := List.length_pos_iff.2 h
  rw [length_nextByte, length_nextByte, length_nextByte]
  omega

/-- The loop of `encode_base_64_str`, with what is left of the text. -/
def encodeLoop (linesize : ℕ) (original : List UInt8) (blocksout encodedIndex : ℕ)
    (encoded : MemoryBlock UInt8) : Option (ℕ × MemoryBlock UInt8) :=
  if h : original = [] then some (encodedIndex, encoded)
  else
    let first := nextByte original
    let second := nextByte first.2
    let third := nextByte second.2
    let len := [original, first.2, second.2].countP (· ≠ [])
    (encodeBlockBase64 first.1 second.1 third.1 len).bind fun out =>
      (encoded.writeAll encodedIndex out).bind fun encoded =>
        if linesize / 4 ≤ blocksout + 1 then
          (encoded.write (encodedIndex + 4) 10).bind fun encoded =>
            encodeLoop linesize third.2 (blocksout + 1) (encodedIndex + 5) encoded
        else encodeLoop linesize third.2 (blocksout + 1) (encodedIndex + 4) encoded
termination_by original.length
decreasing_by all_goals exact length_third_lt h

def encodeBase64Str (original : Option (List UInt8)) (linesize : ℕ) : Option (MemoryBlock UInt8) :=
  match original with
  | none => (alloc 1).write 0 0
  | some original =>
    let encoded := alloc (4 * original.length / 3 + 4)
    (if original = [] then encoded.write 0 0 else some encoded).bind fun encoded =>
      (encodeLoop linesize original 0 0 encoded).bind fun end_ =>
        end_.2.write end_.1 0

/-- The line size that `create_http_request` passes. -/
def authorizationLineSize : ℕ := 999999

section Encode

open Base64 (quantum character padding)

theorem cb64_eq : ∀ n < 64, cb64[n]? = some (character n) := by decide

theorem byte_parts (x : UInt8) :
    (x >>> 2).toNat = x.toNat / 4 ∧ ((x &&& 0x03) <<< 4).toNat = x.toNat % 4 * 16 ∧
      ((x &&& 0xf0) >>> 4).toNat = x.toNat / 16 ∧ ((x &&& 0x0f) <<< 2).toNat = x.toNat % 16 * 4 ∧
      ((x &&& 0xc0) >>> 6).toNat = x.toNat / 64 ∧ (x &&& 0x3f).toNat = x.toNat % 64 := by
  have hall : ∀ n < 256, (fun x : UInt8 => (x >>> 2).toNat = n / 4 ∧
      ((x &&& 0x03) <<< 4).toNat = n % 4 * 16 ∧ ((x &&& 0xf0) >>> 4).toNat = n / 16 ∧
      ((x &&& 0x0f) <<< 2).toNat = n % 16 * 4 ∧ ((x &&& 0xc0) >>> 6).toNat = n / 64 ∧
      (x &&& 0x3f).toNat = n % 64) (UInt8.ofNat n) := by decide +kernel
  have hbyte := hall x.toNat x.toNat_lt
  rwa [UInt8.ofNat_toNat] at hbyte

theorem or_eq_add {a b i : ℕ} (hb : b < 2 ^ i) : a * 2 ^ i ||| b = a * 2 ^ i + b := by
  rw [← Nat.shiftLeft_eq, Nat.shiftLeft_add_eq_or_of_lt hb]

theorem encodeBlockBase64_eq (x y z : UInt8) (len : ℕ) :
    encodeBlockBase64 x y z len = some
      (((quantum x y z).take 2).map character ++
        [if len > 1 then character (y.toNat % 16 * 4 + z.toNat / 64) else padding,
          if len > 2 then character (z.toNat % 64) else padding]) := by
  obtain ⟨hfirst, hlow, -, -, -, -⟩ := byte_parts x
  obtain ⟨-, -, hhigh, hlow', -, -⟩ := byte_parts y
  obtain ⟨-, -, -, -, hhigh', hlast⟩ := byte_parts z
  have hx := x.toNat_lt
  have hy := y.toNat_lt
  have hz := z.toNat_lt
  have hsecond : (((x &&& 0x03) <<< 4) ||| ((y &&& 0xf0) >>> 4)).toNat =
      x.toNat % 4 * 16 + y.toNat / 16 := by
    rw [UInt8.toNat_or, hlow, hhigh]
    exact or_eq_add (a := x.toNat % 4) (i := 4) (by omega)
  have hthird : (((y &&& 0x0f) <<< 2) ||| ((z &&& 0xc0) >>> 6)).toNat =
      y.toNat % 16 * 4 + z.toNat / 64 := by
    rw [UInt8.toNat_or, hlow', hhigh']
    exact or_eq_add (a := y.toNat % 16) (i := 2) (by omega)
  rw [encodeBlockBase64, hfirst, hsecond, hthird, hlast, cb64_eq _ (by omega),
    cb64_eq _ (by omega), cb64_eq _ (by omega), cb64_eq _ (by omega)]
  split_ifs <;> rfl

theorem encodeLoop_step {linesize size : ℕ} {x y z : UInt8} {xs ys rest : List UInt8} {len : ℕ}
    (hy : nextByte xs = (y, ys)) (hz : nextByte ys = (z, rest))
    (hlen : [x :: xs, xs, ys].countP (· ≠ []) = len) {blocksout : ℕ} {s out : List UInt8}
    (hout : encodeBlockBase64 x y z len = some out) (hfour : out.length = 4)
    (hblocks : blocksout + 1 < linesize / 4) (hsize : s.length + 4 ≤ size) :
    encodeLoop linesize (x :: xs) blocksout s.length (filled size s) =
      encodeLoop linesize rest (blocksout + 1) (s ++ out).length (filled size (s ++ out)) := by
  have hx : nextByte (x :: xs) = (x, xs) := rfl
  rw [encodeLoop, dif_neg (cons_ne_nil x xs)]
  simp only [hx, hy, hz, hlen, hout, Option.bind_some]
  rw [MemoryBlock.writeAll_filled (by omega), Option.bind_some, if_neg (by omega),
    length_append, hfour]

theorem encodeLoop_nil (linesize blocksout encodedIndex : ℕ) (encoded : MemoryBlock UInt8) :
    encodeLoop linesize [] blocksout encodedIndex encoded = some (encodedIndex, encoded) := by
  rw [encodeLoop, dif_pos rfl]

/-- The loop writes the whole code. -/
theorem encodeLoop_filled {linesize size : ℕ} (original : List UInt8) {blocksout : ℕ}
    {s : List UInt8} (hblocks : blocksout + (original.length + 2) / 3 < linesize / 4)
    (hsize : s.length + (Base64.encode original).length ≤ size) :
    encodeLoop linesize original blocksout s.length (filled size s) =
      some ((s ++ Base64.encode original).length, filled size (s ++ Base64.encode original)) := by
  induction original using Base64.group_induction generalizing blocksout s with
  | nil => rw [encodeLoop_nil, Base64.encode_nil, List.append_nil]
  | one x =>
    rw [Base64.length_encode] at hsize
    simp only [length_singleton] at hblocks hsize
    have hstep := @encodeLoop_step linesize size x 0 0 [] [] [] 1 rfl rfl (by simp) blocksout s _
      (encodeBlockBase64_eq x 0 0 1) (by simp [quantum]) (by omega) (by omega)
    rw [encodeLoop_nil, if_neg (by decide), if_neg (by decide)] at hstep
    rw [Base64.encode_one]
    exact hstep
  | two x y =>
    rw [Base64.length_encode] at hsize
    simp only [length_cons, length_nil] at hblocks hsize
    have hstep := @encodeLoop_step linesize size x y 0 [y] [] [] 2 rfl rfl (by simp) blocksout s _
      (encodeBlockBase64_eq x y 0 2) (by simp [quantum]) (by omega) (by omega)
    rw [encodeLoop_nil, if_pos (by decide), if_neg (by decide)] at hstep
    rw [Base64.encode_two]
    exact hstep
  | three x y z xs ih =>
    rw [Base64.length_encode] at hsize
    simp only [length_cons] at hblocks hsize
    have hfour : ((quantum x y z).map character).length = 4 := rfl
    have hrest := @ih (blocksout + 1) (s ++ (quantum x y z).map character) (by omega) (by
      rw [length_append, Base64.length_encode, hfour]
      omega)
    have hstep := @encodeLoop_step linesize size x y z (y :: z :: xs) (z :: xs) xs 3 rfl rfl
      (by simp) blocksout s _ (encodeBlockBase64_eq x y z 3) (by simp [quantum]) (by omega)
      (by omega)
    rw [if_pos (by decide), if_pos (by decide)] at hstep
    rw [Base64.encode_three, ← append_assoc]
    exact hstep.trans hrest

/-- Shorter texts than 749000 bytes are encoded without line breaks, in the memory that was
allocated. -/
theorem encodeBase64Str_eq (original : List UInt8) (h : original.length < 749000) :
    ∃ encoded : MemoryBlock UInt8, encodeBase64Str (some original) authorizationLineSize = some encoded ∧
      encoded.length = 4 * original.length / 3 + 4 ∧
      encoded.text = some (Base64.encode original) := by
  obtain ⟨size, hsize⟩ : ∃ size, 4 * original.length / 3 + 4 = size := ⟨_, rfl⟩
  have hlength := Base64.length_encode original
  have hroom : (Base64.encode original).length + 1 ≤ size := by omega
  have htext := @MemoryBlock.text_filled size _ [] (Base64.zero_notMem_encode original)
  refine ⟨filled size (Base64.encode original ++ [0]), ?_, ?_, htext⟩
  · rw [encodeBase64Str]
    simp only [hsize]
    by_cases hnil : original = []
    · subst hnil
      have hpos : ([] : List UInt8).length < size := by
        rw [length_nil]
        omega
      have hzero := MemoryBlock.write_filled hpos 0
      have hagain : (filled size [(0 : UInt8)]).write 0 0 = some (filled size [0]) := by
        rw [MemoryBlock.write, if_pos]
        · rfl
        · rw [MemoryBlock.length_filled] <;> exact hpos
      rw [length_nil, nil_append] at hzero
      rw [if_pos rfl, ← MemoryBlock.filled_nil, hzero, Option.bind_some, encodeLoop_nil,
        Option.bind_some, Base64.encode_nil, nil_append]
      exact hagain
    · have hloop := @encodeLoop_filled authorizationLineSize size original 0 []
        (by rw [authorizationLineSize]; omega) (by rw [length_nil]; omega)
      rw [length_nil, nil_append] at hloop
      rw [if_neg hnil, Option.bind_some, ← MemoryBlock.filled_nil, hloop, Option.bind_some,
        MemoryBlock.write_filled (by omega)]
  · rw [hsize, MemoryBlock.length_filled]
    rw [length_append, length_singleton]
    exact hroom

/-- The example with one padding character. -/
theorem encodeBase64Str_two :
    (bytes "Ma").length < 749000 ∧ Base64.encode (bytes "Ma") = bytes "TWE=" ∧
      ∃ encoded : MemoryBlock UInt8,
        encodeBase64Str (some (bytes "Ma")) authorizationLineSize = some encoded ∧
          encoded.length = 4 * (bytes "Ma").length / 3 + 4 ∧
          encoded.text = some (Base64.encode (bytes "Ma")) := by
  have hshort : (bytes "Ma").length < 749000 := by decide
  exact ⟨hshort, by decide, encodeBase64Str_eq (bytes "Ma") hshort⟩

end Encode

end Ewget

end Gargoyle
