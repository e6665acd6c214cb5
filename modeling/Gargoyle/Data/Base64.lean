import Mathlib.Data.Nat.Bits
import Mathlib.Data.UInt
import Mathlib.Tactic.Ring

/-!
# Base64

The bits of all bytes, the highest one of each first, are taken six at a time, with zeros behind the
last ones. Six bits are a number, and the alphabet has a character for it. The text is made a
multiple of four characters long with a padding character.
-/

namespace Base64

open List

def bits (x : UInt8) : List Bool := (List.range 8).map fun k => x.toNat.testBit (7 - k)

def bitsValue (bs : List Bool) : ℕ := bs.foldl (fun n b => 2 * n + b.toNat) 0

def sextets : List Bool → List ℕ
  | [] => []
  | a :: b :: c :: d :: e :: f :: bs => bitsValue [a, b, c, d, e, f] :: sextets bs
  | bs => [bitsValue (bs ++ List.replicate (6 - bs.length) false)]

/-- `A` to `Z`, `a` to `z`, `0` to `9`, `+` and `/`. -/
def character (n : ℕ) : UInt8 :=
  (if n < 26 then 65 + n else if n < 52 then 71 + n else if n < 62 then n - 4
    else if n = 62 then 43 else 47).toUInt8

/-- `=` -/
def padding : UInt8 := 61

def encode (xs : List UInt8) : List UInt8 :=
  let cs := (sextets (xs.flatMap bits)).map character
  cs ++ List.replicate ((4 - cs.length % 4) % 4) padding

/-! ## Numbers of bits -/

theorem bitsValue_append (bs cs : List Bool) :
    bitsValue (bs ++ cs) = bitsValue bs * 2 ^ cs.length + bitsValue cs := by
  induction cs using List.reverseRecOn with
  | nil => simp [bitsValue]
  | append_singleton cs c ih =>
    have hlast : ∀ ds : List Bool, bitsValue (ds ++ [c]) = 2 * bitsValue ds + c.toNat := by
      intro ds
      simp [bitsValue]
    rw [← append_assoc, hlast, hlast, ih, length_append, length_singleton, pow_succ]
    ring

theorem bitsValue_lt (bs : List Bool) : bitsValue bs < 2 ^ bs.length := by
  induction bs using List.reverseRecOn with
  | nil => exact Nat.one_pos
  | append_singleton bs b ih =>
    have hb : bitsValue [b] < 2 := by cases b <;> decide
    rw [bitsValue_append, length_append, length_singleton, pow_one, pow_succ]
    omega

theorem length_bits (x : UInt8) : (bits x).length = 8 := by
  rw [bits, length_map, length_range]

theorem bitsValue_bits (x : UInt8) : bitsValue (bits x) = x.toNat := by
  have hall : ∀ n < 256, bitsValue ((List.range 8).map fun k => n.testBit (7 - k)) = n := by
    decide +kernel
  exact hall x.toNat x.toNat_lt

theorem bitsValue_take_drop (x : UInt8) (k : ℕ) :
    x.toNat / 2 ^ (8 - k) = bitsValue ((bits x).take k) ∧
      x.toNat % 2 ^ (8 - k) = bitsValue ((bits x).drop k) := by
  have hsum := bitsValue_append ((bits x).take k) ((bits x).drop k)
  have hlt := bitsValue_lt ((bits x).drop k)
  rw [length_drop, length_bits] at hsum hlt
  rw [take_append_drop, bitsValue_bits, mul_comm, add_comm] at hsum
  exact (Nat.div_mod_unique (Nat.two_pow_pos _)).2 ⟨hsum.symm, hlt⟩

theorem bitsValue_take (x : UInt8) (k : ℕ) :
    bitsValue ((bits x).take k) = x.toNat / 2 ^ (8 - k) :=
  (bitsValue_take_drop x k).1.symm

theorem bitsValue_drop (x : UInt8) (k : ℕ) :
    bitsValue ((bits x).drop k) = x.toNat % 2 ^ (8 - k) :=
  (bitsValue_take_drop x k).2.symm

/-! ## Groups of three bytes -/

section Groups

variable (x y z : UInt8) (xs : List UInt8)

def quantum : List ℕ :=
  [x.toNat / 4, x.toNat % 4 * 16 + y.toNat / 16, y.toNat % 16 * 4 + z.toNat / 64, z.toNat % 64]

theorem sextets_append {bs cs : List Bool} (h : bs.length = 6) :
    sextets (bs ++ cs) = bitsValue bs :: sextets cs := by
  rcases bs with _ | ⟨a, _ | ⟨b, _ | ⟨c, _ | ⟨d, _ | ⟨e, _ | ⟨f, _ | ⟨g, bs⟩⟩⟩⟩⟩⟩⟩
  case cons.cons.cons.cons.cons.cons.nil => rfl
  all_goals
    simp only [length_cons, length_nil] at h
    omega

theorem sextets_short {bs : List Bool} (hne : bs ≠ []) (h : bs.length < 6) :
    sextets bs = [bitsValue bs * 2 ^ (6 - bs.length)] := by
  have hzeros : ∀ n, bitsValue (List.replicate n false) = 0 := by
    intro n
    induction n with
    | zero => rfl
    | succ n ih =>
      rw [replicate_succ', bitsValue_append, ih]
      rfl
  have hpadded : sextets bs = [bitsValue (bs ++ List.replicate (6 - bs.length) false)] := by
    rcases bs with _ | ⟨a, _ | ⟨b, _ | ⟨c, _ | ⟨d, _ | ⟨e, _ | ⟨f, bs⟩⟩⟩⟩⟩⟩
    case nil => exact absurd rfl hne
    case cons.cons.cons.cons.cons.cons =>
        simp only [length_cons] at h
        omega
    all_goals rfl
  rw [hpadded, bitsValue_append, hzeros, length_replicate, Nat.add_zero]

theorem sextets_between {k : ℕ} (hk : 2 ≤ k) (hk' : k ≤ 8) (bs : List Bool) :
    sextets ((bits x).drop k ++ (bits y ++ bs)) =
      (x.toNat % 2 ^ (8 - k) * 2 ^ (k - 2) + y.toNat / 2 ^ (10 - k)) ::
        sextets ((bits y).drop (k - 2) ++ bs) := by
  have hsplit : (bits x).drop k ++ (bits y ++ bs) =
      ((bits x).drop k ++ (bits y).take (k - 2)) ++ ((bits y).drop (k - 2) ++ bs) := by
    rw [append_assoc, ← append_assoc ((bits y).take (k - 2)), take_append_drop]
  have hlength : ((bits x).drop k ++ (bits y).take (k - 2)).length = 6 := by
    rw [length_append, length_drop, length_take, length_bits, length_bits]
    omega
  have htake : ((bits y).take (k - 2)).length = k - 2 := by
    rw [length_take, length_bits]
    omega
  have hten : 8 - (k - 2) = 10 - k := by omega
  rw [hsplit, sextets_append hlength, bitsValue_append, bitsValue_drop x,
    bitsValue_take y, htake, hten]

theorem sextets_first (bs : List Bool) :
    sextets (bits x ++ bs) = x.toNat / 4 :: sextets ((bits x).drop 6 ++ bs) := by
  have hlength : ((bits x).take 6).length = 6 := by
    rw [length_take, length_bits]
    rfl
  have hsplit : bits x ++ bs = (bits x).take 6 ++ ((bits x).drop 6 ++ bs) := by
    rw [← append_assoc, take_append_drop]
  rw [hsplit, sextets_append hlength, bitsValue_take x]
  rfl

theorem sextets_three (bs : List Bool) :
    sextets (bits x ++ (bits y ++ (bits z ++ bs))) = quantum x y z ++ sextets bs := by
  have hlast : sextets ((bits z).drop 2 ++ bs) = z.toNat % 64 :: sextets bs := by
    rw [sextets_append (by rw [length_drop, length_bits]), bitsValue_drop z]
    rfl
  rw [sextets_first, sextets_between x y (by decide) (by decide),
    sextets_between y z (by decide) (by decide)]
  rw [hlast]
  rfl

theorem encode_nil : encode [] = [] := rfl

theorem encode_three :
    encode (x :: y :: z :: xs) = (quantum x y z).map character ++ encode xs := by
  have hlength : ((quantum x y z).map character).length = 4 := rfl
  rw [encode, encode, flatMap_cons, flatMap_cons, flatMap_cons, sextets_three,
    map_append, append_assoc]
  simp only [length_append, hlength, Nat.add_mod_left]

theorem encode_two :
    encode [x, y] = ((quantum x y 0).take 3).map character ++ [padding] := by
  have hrest : sextets ((bits y).drop 4) = [y.toNat % 16 * 4] := by
    have hlength : ((bits y).drop 4).length = 4 := by rw [length_drop, length_bits]
    rw [sextets_short (by rw [← length_pos_iff, hlength]; decide) (by rw [hlength]; decide),
      bitsValue_drop y, hlength]
    rfl
  have hbits : [x, y].flatMap bits = bits x ++ (bits y ++ []) := rfl
  rw [encode, hbits, sextets_first, sextets_between x y (by decide) (by decide), List.append_nil,
    hrest]
  rfl

theorem encode_one :
    encode [x] = ((quantum x 0 0).take 2).map character ++ [padding, padding] := by
  have hrest : sextets ((bits x).drop 6) = [x.toNat % 4 * 16] := by
    have hlength : ((bits x).drop 6).length = 2 := by rw [length_drop, length_bits]
    rw [sextets_short (by rw [← length_pos_iff, hlength]; decide) (by rw [hlength]; decide),
      bitsValue_drop x, hlength]
    rfl
  have hbits : [x].flatMap bits = bits x ++ [] := rfl
  rw [encode, hbits, sextets_first, List.append_nil, hrest]
  rfl

end Groups

theorem group_induction {motive : List UInt8 → Prop} (nil : motive []) (one : ∀ x, motive [x])
    (two : ∀ x y, motive [x, y])
    (three : ∀ x y z xs, motive xs → motive (x :: y :: z :: xs)) : ∀ xs, motive xs
  | [] => nil
  | [x] => one x
  | [x, y] => two x y
  | x :: y :: z :: xs => three x y z xs (group_induction nil one two three xs)

theorem length_encode (xs : List UInt8) : (encode xs).length = 4 * ((xs.length + 2) / 3) := by
  induction xs using group_induction with
  | nil => rfl
  | one x =>
    rw [encode_one]
    simp [quantum]
  | two x y =>
    rw [encode_two]
    simp [quantum]
  | three x y z xs ih =>
    rw [encode_three, length_append, ih, length_map, length_cons,
      length_cons, length_cons]
    simp only [quantum, length_cons, length_nil]
    omega

theorem character_ne_zero : ∀ n < 64, character n ≠ 0 := by decide

theorem quantum_lt (x y z : UInt8) : ∀ n ∈ quantum x y z, n < 64 := by
  have hx := x.toNat_lt
  have hy := y.toNat_lt
  have hz := z.toNat_lt
  simp only [quantum, mem_cons, not_mem_nil, or_false]
  rintro n (rfl | rfl | rfl | rfl) <;> omega

theorem zero_notMem_encode (xs : List UInt8) : 0 ∉ encode xs := by
  have hcharacters : ∀ {ns : List ℕ}, (∀ n ∈ ns, n < 64) → 0 ∉ ns.map character := by
    intro ns h hmem
    obtain ⟨n, hn, hzero⟩ := List.mem_map.1 hmem
    exact character_ne_zero n (h n hn) hzero
  have hpadding : 0 ∉ [padding, padding] := by decide
  induction xs using group_induction with
  | nil => exact not_mem_nil
  | one x =>
    rw [encode_one, mem_append, not_or]
    exact ⟨hcharacters fun n hn => quantum_lt x 0 0 n (mem_of_mem_take hn), hpadding⟩
  | two x y =>
    rw [encode_two, mem_append, not_or]
    exact ⟨hcharacters fun n hn => quantum_lt x y 0 n (mem_of_mem_take hn), by decide⟩
  | three x y z xs ih =>
    rw [encode_three, mem_append, not_or]
    exact ⟨hcharacters (quantum_lt x y z), ih⟩

end Base64
