import Gargoyle.Web.PaddedInt
import Gargoyle.Web.PortForwarding
import Mathlib.Data.List.Infix

/-!
# Addresses, subnets and ranges

The checks for texts of addresses with dots, subnets and ranges, and the numbers that are made of
them. A number of a script is made a signed word of 32 bits by the operators on bits, and `none`
stands for `NaN`.
-/

namespace Gargoyle

namespace Web

open Numerals (numeralValue)
open PortForwarding (validateIP validateNumeric)
open TextSplit

/-! ## The checks -/

def validateNumericRange (num : List Char) (min max : ℕ) : ℕ :=
  if validateNumeric num ≠ 0 then 1
  else if numeralValue 10 num < min then 2
  else if max < numeralValue 10 num then 3
  else 0

/-- The fields of an address that matches
`/^(\d{1,3})\.(\d{1,3})\.(\d{1,3})\.(\d{1,3})$/`. -/
def ipFields (address : List Char) : Option (List ℕ) :=
  let fields := address.splitOn '.'
  if fields.length = 4 ∧
      fields.all fun field => 1 ≤ field.length && field.length ≤ 3 && field.all Char.isDigit then
    some (fields.map (numeralValue 10))
  else none

/-- The loop of `validateNetMask`, with `previousField` and `errorCode`. -/
def checkMaskFields : List ℕ → ℕ → ℕ → ℕ
  | [], _, errorCode => errorCode
  | field :: fields, previousField, errorCode =>
    let errorCode := if 255 < field then 3 else errorCode
    let errorCode :=
      if previousField < 255 ∧ field ≠ 0 ∧ errorCode < 2 then 2 else errorCode
    let errorCode :=
      if field ∉ [255, 254, 252, 248, 240, 224, 192, 128, 0] ∧ errorCode < 1 then 1 else errorCode
    checkMaskFields fields field errorCode

def validateNetMask (mask : List Char) : ℕ :=
  (ipFields mask).elim 4 fun fields => checkMaskFields fields 255 0

def validateIpRange (range : List Char) : ℕ :=
  if '/' ∈ range ∧ range.head? ≠ some '/' then
    match range.splitOn '/' with
    | [address, mask] =>
      if validateIP address = 0 ∧
          (validateNetMask mask = 0 ∨ validateNumericRange mask 1 31 = 0) then 0
      else 1
    | _ => 1
  else validateIP range

/-! ## Numbers -/

def toInt32 (n : Option ℤ) : BitVec 32 := BitVec.ofInt 32 (n.getD 0)

/-- `<<`. -/
def shiftLeft (n : Option ℤ) (count : ℕ) : ℤ := (toInt32 n <<< (count % 32)).toInt

def getIpInteger (ipStr : List Char) : Option ℤ :=
  match ipStr.splitOn '.' with
  | [a, b, c, d] =>
    if [a, b, c, d].all fun field => 1 ≤ field.length && field.all Char.isDigit then
      (parsePaddedInt d).map (shiftLeft (parsePaddedInt a) 24 + shiftLeft (parsePaddedInt b) 16 +
        shiftLeft (parsePaddedInt c) 8 + ·)
    else none
  | _ => none

def getMaskInteger (maskSize : List Char) : ℤ :=
  shiftLeft (some (-1)) ((parsePaddedInt maskSize).elim 0 fun n => ((32 - n) % 32).toNat)

def getIpRangeIntegers (ipStr : List Char) : Option ℤ × Option ℤ :=
  if '/' ∈ ipStr then
    let split := splitAround isTabOrSpace '/' ipStr
    let ipInt := getIpInteger (split.getD 0 [])
    let mask := split.getD 1 []
    let ipMaskInt := if '.' ∈ mask then getIpInteger mask else some (getMaskInteger mask)
    let start := toInt32 ipInt &&& toInt32 ipMaskInt
    (some start.toInt, some (start ||| ~~~toInt32 ipMaskInt).toInt)
  else if '-' ∈ ipStr then
    let split := splitAround isTabOrSpace '-' ipStr
    (getIpInteger (split.getD 0 []), getIpInteger (split.getD 1 []))
  else (getIpInteger ipStr, getIpInteger ipStr)

/-- `<=`, which is false for `NaN`. -/
def atMost : Option ℤ → Option ℤ → Bool
  | some a, some b => a ≤ b
  | _, _ => false

/-- `replace(/^[\t ]+/, "").replace(/[\t ]+$/, "")`. -/
def trimBlanks (s : List Char) : List Char := (s.dropWhile isTabOrSpace).rdropWhile isTabOrSpace

def validateIpPiece (nextIp : List Char) : ℕ :=
  if '-' ∈ nextIp then
    match splitAround isTabOrSpace '-' nextIp with
    | [first, last] =>
      if validateIP first = 0 ∧ validateIP last = 0 then
        if atMost (getIpInteger first) (getIpInteger last) then 0 else 1
      else 1
    | _ => 1
  else validateIpRange nextIp

def firstError (check : List Char → ℕ) (pieces : List (List Char)) : ℕ :=
  ((pieces.reverse.map check).find? (· ≠ 0)).getD 0

def validateMultipleIps (ips : List Char) : ℕ :=
  firstError validateIpPiece (splitAround isTabOrSpace ',' (trimBlanks ips))

theorem firstError_eq_zero_iff {check : List Char → ℕ} {pieces : List (List Char)} :
    firstError check pieces = 0 ↔ ∀ p ∈ pieces, check p = 0 := by
  rw [firstError]
  cases hfind : (pieces.reverse.map check).find? (· ≠ 0) with
  | none =>
    refine iff_of_true rfl fun p hp => ?_
    have hall := List.find?_eq_none.1 hfind (check p)
      (List.mem_map_of_mem (List.mem_reverse.2 hp))
    simpa using hall
  | some n =>
    have hne : n ≠ 0 := by simpa using List.find?_some hfind
    obtain ⟨p, hp, rfl⟩ := List.mem_map.1 (List.mem_of_find?_eq_some hfind)
    exact iff_of_false hne fun h => hne (h p (List.mem_reverse.1 hp))

/-!
## Texts of long addresses

The functions of the web interface for addresses with colons: the checks, the full form and the
canonical one, and the change of an address by the length of a mask. A mask is a number or a text,
and a count that is out of bounds makes `repeat` fail, which is `none`.
-/

open InetText (isHexDigit)

/-! ### The checks -/

/-- The characters that `.` does not match. -/
def isLineTerminator (c : Char) : Bool := c ∈ ['\n', '\r', '\u2028', '\u2029']

/-- `.+::` at the start of a text. -/
def doubleColonLater : List Char → Bool
  | [] => false
  | c :: s => !isLineTerminator c && ([':', ':'].isPrefixOf s || doubleColonLater s)

/-- `::.+::`. -/
def hasTwoDoubleColons : List Char → Bool
  | [] => false
  | c :: s =>
    ([':', ':'].isPrefixOf (c :: s) && doubleColonLater (s.drop 1)) || hasTwoDoubleColons s

/-- `[^:]:$`. -/
def endsWithSingleColon (s : List Char) : Bool :=
  match s.reverse with
  | ':' :: c :: _ => c ≠ ':'
  | _ => false

/-- `^:(?!:)`. -/
def startsWithSingleColon (s : List Char) : Bool :=
  [':'].isPrefixOf s && !([':', ':'].isPrefixOf s)

/-- `^[0-9a-f]{0,4}$`, in both cases. -/
def isComponent (s : List Char) : Bool := s.length ≤ 4 && s.all isHexDigit

def validateIP6 (address : List Char) : ℕ :=
  let components := address.splitOn ':'
  if [':', ':', ':'] <:+: address ∨ hasTwoDoubleColons address ∨ endsWithSingleColon address ∨
      startsWithSingleColon address then 1
  else if components.length < 2 ∨ 8 < components.length then 1
  else if components.length < 8 ∧ ¬[':', ':'] <:+: address then 1
  else if components.all isComponent then 0
  else 1

def validateIP6Range (range : List Char) : ℕ :=
  if '/' ∈ range ∧ range.head? ≠ some '/' then
    match range.splitOn '/' with
    | [address, mask] =>
      let number := ScriptNumber.ofText mask
      if validateIP6 address = 0 ∧ ¬(number.isLess (-128) ∨ number.isGreater 128) then 0 else 1
    | _ => 1
  else validateIP6 range

/-! ### Forms of an address -/

def ip6Splitmask (address : List Char) : List Char × List Char :=
  match address.splitOn '/' with
  | [address, bitmask] => (address, bitmask)
  | address :: _ => (address, [])
  | [] => ([], [])

def joinMask (address bitmask : List Char) : List Char :=
  if bitmask = [] then address else address ++ '/' :: bitmask

def lastChars (n : ℕ) (s : List Char) : List Char := s.drop (s.length - n)

def byteText (field : List Char) : List Char :=
  lastChars 2 ('0' :: Nat.toDigits 16 (numeralValue 10 field))

def replaceIp4 (address : List Char) : List Char :=
  let fields := (address.rtakeWhile (· ≠ ':')).splitOn '.'
  if ':' ∈ address ∧ fields.all fun field => field ≠ [] ∧ field.all Char.isDigit then
    match fields with
    | [a, b, c, d] =>
      (address.rdropWhile (· ≠ ':')).rtakeWhile (!isLineTerminator ·) ++
        (byteText a ++ byteText b ++ ':' :: (byteText c ++ byteText d))
    | _ => address
  else address

/-- `replace(/^:|:$/g, '')`. -/
def stripColons (address : List Char) : List Char :=
  let address := if [':'].isPrefixOf address then address.tail else address
  if address.getLast? = some ':' then address.dropLast else address

def fullGroup (count : ℕ) (hex : List Char) : List Char :=
  if hex ≠ [] then lastChars 4 (['0', '0', '0', '0'] ++ hex)
  else [':'].intercalate (List.replicate (9 - count) ['0', '0', '0', '0'])

def ip6Full (address : List Char) : List Char :=
  let tmpAddr := ip6Splitmask address
  let ipv6 := (stripColons (replaceIp4 tmpAddr.1)).splitOn ':'
  joinMask ([':'].intercalate (ipv6.map (fullGroup ipv6.length))) tmpAddr.2

def suppressZeros (component : List Char) : List Char :=
  let rest := component.dropWhile (· = '0')
  if rest.length < component.length then
    if rest.head?.any fun c => isHexDigit c && c ≠ '0' then rest else '0' :: rest
  else component

def bump (first last : ℕ) (zeroCounts : List ℕ) : List ℕ :=
  zeroCounts.mapIdx fun i n => if first ≤ i ∧ i ≤ last then n + 1 else n

def countZeros : List (List Char) → ℕ → Option ℕ → List ℕ → List ℕ
  | [], _, _, zeroCounts => zeroCounts
  | component :: components, i, chain, zeroCounts =>
    if component = ['0'] then
      let firstZeroInChain := chain.getD i
      countZeros components (i + 1) (some firstZeroInChain) (bump firstZeroInChain i zeroCounts)
    else countZeros components (i + 1) none zeroCounts

def compressZeros (components : List (List Char)) : List (List Char) :=
  let zeroCounts := countZeros components 0 none (List.replicate components.length 0)
  let maxZeroCount := zeroCounts.foldl max 0
  if 1 < maxZeroCount then
    let i := zeroCounts.idxOf maxZeroCount
    (components.take i ++ components.drop (i + (maxZeroCount - 1))).set i []
  else components

def padEnds (components : List (List Char)) : List (List Char) :=
  if components.head? = some [] ∧ components.length = 1 then [] :: [] :: components
  else if components.head? = some [] then [] :: components
  else if components.getLast? = some [] then components ++ [[]]
  else components

def ip6Canonical (address : List Char) : List Char :=
  let tmpAddr := ip6Splitmask (ip6Full address)
  let components := (tmpAddr.1.splitOn ':').map suppressZeros
  joinMask ([':'].intercalate (padEnds (compressZeros components))) tmpAddr.2

/-! ### Binary numbers -/

/-- The digits of `parseInt` with a radix. -/
def radixDigit (radix : ℕ) (c : Char) : Bool :=
  ((List.range radix).map Nat.digitChar).contains c.toLower

/-- `parseInt` with a radix, without a sign. -/
def parseUnsignedRadix (radix : ℕ) : List Char → Option ℤ
  | '0' :: 'x' :: s => leadingNumber radix (radixDigit radix) (if radix = 16 then s else ['0'])
  | '0' :: 'X' :: s => leadingNumber radix (radixDigit radix) (if radix = 16 then s else ['0'])
  | s => leadingNumber radix (radixDigit radix) s

/-- `parseInt` with a radix. -/
def parseIntRadix (radix : ℕ) (s : List Char) : Option ℤ :=
  match s.dropWhile ScriptNumber.isSpace with
  | '-' :: s => (parseUnsignedRadix radix s).map (- ·)
  | '+' :: s => parseUnsignedRadix radix s
  | s => parseUnsignedRadix radix s

/-- `toString` with a radix. -/
def radixText (radix : ℕ) (n : Option ℤ) : List Char :=
  n.elim "NaN".toList fun n =>
    if n < 0 then '-' :: Nat.toDigits radix n.natAbs else Nat.toDigits radix n.natAbs

/-- `padStart` with zeros. -/
def padStart (length : ℕ) (s : List Char) : List Char := List.replicate (length - s.length) '0' ++ s

def ip6addr2bin (addr : List Char) : List Char :=
  ((ip6Full addr).splitOn ':').flatMap fun section_ =>
    padStart 16 (radixText 2 (parseIntRadix 16 section_))

def ip6bin2addr (bin : List Char) : List Char :=
  [':'].intercalate ((List.range 8).map fun x =>
    padStart 4 (radixText 16 (parseIntRadix 2 ((bin.drop (x * 16)).take 16))))

/-- The argument `mask`. -/
inductive Mask
  | number (n : ℤ)
  | text (s : List Char)

def Mask.value : Mask → ScriptNumber
  | number n => .finite n
  | text s => .ofText s

/-- `128 + mask`, which is a text if the argument is one. -/
def Mask.addTo128 : Mask → ScriptNumber
  | number n => .finite (128 + n)
  | text s => .ofText ("128".toList ++ s)

def ip6Mask (address : List Char) (mask : Mask) : Option (List Char) := do
  let binaddr := ip6addr2bin address
  let newAddr ← if mask.value.isLess 0 then
    (mask.addTo128.repeated '0').map (· ++ mask.addTo128.startingAt binaddr)
  else ((mask.value.subFrom 128).repeated '0').map (mask.value.upTo binaddr ++ ·)
  some (ip6Canonical (ip6bin2addr newAddr))

end Web

end Gargoyle
