import Mathlib.Data.Fin.VecNotation
import Mathlib.Tactic.FinCases
import Gargoyle.Data.ByteBuffer
import Gargoyle.Bandwidth.TimeShift

/-!
# The blocks in which addresses are sent

A request and a reply of the module carry one block for each address: family and
address, and then the counter, or the number of nodes, three times and the nodes
of its history. The module and `libnftbwctl` write and read the same layout, with
32-bit and 64-bit words in the order of the machine, which is little-endian.

A block that is read back from where it was written is the block that was
written, with its words reduced to their widths.
-/

namespace Gargoyle

namespace Bandwidth

open ByteBuffer

def bandwidthMaxIdLength : ℕ := 50

/-- The length of the buffer `libnftbwctl` sends and receives. -/
def bandwidthQueryLength : ℕ := 16384

/-- The value of a number stored to an `uint64_t`. -/
def toUint64 (x : ℤ) : ℕ := (x % 2 ^ 64).toNat

/-- The value of an `uint64_t` taken for a signed number. -/
def toInt64 (x : ℕ) : ℤ := (x : ℤ).bmod (2 ^ 64)

/-- The sum of two numbers of type `uint32_t`. -/
def addUint32 (x y : ℕ) : ℕ := (x + y) % 2 ^ 32

def readId (b : ByteBuffer) (off : ℕ) : String :=
  String.ofList (readChars b off (bandwidthMaxIdLength - 1))

def writeId (b : ByteBuffer) (off : ℕ) (id : String) : ByteBuffer :=
  writeChars (b.writeByte (off + id.toList.length) 0) off id.toList

def sentId (id : String) : String :=
  String.ofList (sentChars (bandwidthMaxIdLength - 1) id.toList)

def ipFields (family : ℕ) (ip : In6Addr) : List (ℕ × ℕ) :=
  [(4, family), (4, (ip 0).toNat), (4, (ip 1).toNat), (4, (ip 2).toNat), (4, (ip 3).toNat)]

def plainFields (family : ℕ) (ip : In6Addr) (bw : ℕ) : List (ℕ × ℕ) :=
  ipFields family ip ++ [(8, bw)]

def historyFields (family : ℕ) (ip : In6Addr) (firstStart firstEnd lastEnd : ℕ)
    (bws : List ℕ) : List (ℕ × ℕ) :=
  ipFields family ip ++
    [(4, bws.length), (8, firstStart), (8, firstEnd), (8, lastEnd)] ++ bws.map fun bw => (8, bw)

def readIp (b : ByteBuffer) (off : ℕ) : In6Addr :=
  ![BitVec.ofNat 32 (readLE 4 b off), BitVec.ofNat 32 (readLE 4 b (off + 4)),
    BitVec.ofNat 32 (readLE 4 b (off + 8)), BitVec.ofNat 32 (readLE 4 b (off + 12))]

/-- The text of an address: `%pI4` for the family `IPv4` and `%pI6c` for every
other. -/
def printIp [Kernel] (family : ℕ) (ip : In6Addr) : String :=
  if family = NfProto.ipv4.code then Kernel.pI4 (ip 0) else Kernel.pI6c ip

/-! ## Reading what was written -/

theorem toInt64_toUint64 {x : ℤ} (h : -2 ^ 63 ≤ x) (h' : x < 2 ^ 63) :
    toInt64 (toUint64 x) = x := by
  unfold toInt64 toUint64
  have hnonneg : 0 ≤ x % 2 ^ 64 := Int.emod_nonneg x (by norm_num)
  rw [Int.toNat_of_nonneg hnonneg]
  unfold Int.bmod
  norm_num
  omega

theorem toUint64_lt (x : ℤ) : toUint64 x < 256 ^ 8 := by
  have hlt : x % 2 ^ 64 < 2 ^ 64 := Int.emod_lt_of_pos x (by norm_num)
  have hnonneg : 0 ≤ x % 2 ^ 64 := Int.emod_nonneg x (by norm_num)
  unfold toUint64
  omega

theorem readId_writeId (b : ByteBuffer) (off : ℕ) (id : String) :
    readId (writeId b off id) off = sentId id := by
  rw [readId, writeId, sentId, readChars_writeChars]
  right
  simp [writeByte]

theorem writeId_outside (b : ByteBuffer) (off : ℕ) (id : String) (i : ℕ)
    (h : i < off ∨ off + id.toList.length < i) : writeId b off id i = b i := by
  rw [writeId, writeChars_outside _ _ _ _ (by omega), writeByte_of_ne b _ (by omega)]

theorem size_plainFields (family : ℕ) (ip : In6Addr) (bw : ℕ) :
    size (plainFields family ip bw) = 28 := rfl

theorem size_historyFields (family : ℕ) (ip : In6Addr) (firstStart firstEnd lastEnd : ℕ)
    (bws : List ℕ) :
    size (historyFields family ip firstStart firstEnd lastEnd bws) = 48 + 8 * bws.length := by
  rw [historyFields, size_append, size_map_const]
  rfl

theorem ofNat_mod_word (v : BitVec 32) : BitVec.ofNat 32 (v.toNat % 256 ^ 4) = v := by
  apply BitVec.eq_of_toNat_eq
  have := v.isLt
  rw [BitVec.toNat_ofNat]
  omega

theorem readIp_of_holds {b : ByteBuffer} {off family : ℕ} {ip : In6Addr}
    (h : Holds b off (ipFields family ip)) :
    readLE 4 b off = family % 256 ^ 4 ∧ readIp b (off + 4) = ip := by
  simp only [Holds, ipFields, Nat.add_assoc, Nat.reduceAdd, and_true] at h
  obtain ⟨hfamily, h₀, h₁, h₂, h₃⟩ := h
  refine ⟨hfamily, ?_⟩
  simp only [readIp, Nat.add_assoc, Nat.reduceAdd, h₀, h₁, h₂, h₃, ofNat_mod_word]
  funext w
  fin_cases w <;> rfl

theorem historyFields_of_holds {b : ByteBuffer} {index family : ℕ} {ip : In6Addr}
    {firstStart firstEnd lastEnd : ℕ} {bws : List ℕ}
    (h : Holds b index (historyFields family ip firstStart firstEnd lastEnd bws)) :
    readLE 4 b index = family % 256 ^ 4 ∧ readIp b (index + 4) = ip ∧
      readLE 4 b (index + 20) = bws.length % 256 ^ 4 ∧
      readLE 8 b (index + 24) = firstStart % 256 ^ 8 ∧
      readWords b (index + 48) bws.length = bws.map (· % 256 ^ 8) := by
  rw [historyFields, List.append_assoc, holds_append, holds_append] at h
  obtain ⟨hip, htimes, hwords⟩ := h
  obtain ⟨hfamily, hip⟩ := readIp_of_holds hip
  exact ⟨hfamily, hip, htimes.1, htimes.2.1, readWords_of_holds hwords⟩

end Bandwidth

end Gargoyle
