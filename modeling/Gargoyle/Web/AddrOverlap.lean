import Gargoyle.Web.Ip6Text

/-!
# Overlap of addresses

`testAddrOverlap` compares all items of two lists. Two items that are spelled alike, in any case,
overlap, and so do two whose first and last addresses are in order: as signed words for addresses
with dots, and as texts in full form for those with colons. Texts are ASCII here. `none` stands for
a failure of `repeat`.
-/

namespace Gargoyle

namespace Web

open TextSplit

def textAtMost : List Char → List Char → Bool
  | [], _ => true
  | _ :: _, [] => false
  | c :: s, d :: t => c.toNat < d.toNat || (c = d && textAtMost s t)

def validateIp6Piece (nextIp : List Char) : ℕ :=
  if '-' ∈ nextIp then
    match splitAround isTabOrSpace '-' nextIp with
    | [first, last] =>
      if validateIP6 first = 0 ∧ validateIP6 last = 0 then
        if textAtMost (ip6Full first) (ip6Full last) then 0 else 1
      else 1
    | _ => 1
  else validateIP6Range nextIp

def validateMultipleIp6s (ips : List Char) : ℕ :=
  firstError validateIp6Piece (splitAround isTabOrSpace ',' (trimBlanks ips))

def getIp6RangeStrings (ipStr : List Char) : Option (List Char × List Char) :=
  if '/' ∈ ipStr then do
    let split := splitAround isTabOrSpace '/' ipStr
    let size := split.getD 1 []
    let masked ← ip6Mask (split.getD 0 []) (.text size)
    let start := ip6Full masked
    let ones ← ((ScriptNumber.ofText size).subFrom 128).repeated '1'
    some (start, ip6bin2addr ((ScriptNumber.ofText size).upTo (ip6addr2bin start) ++ ones))
  else if '-' ∈ ipStr then
    let split := splitAround isTabOrSpace '-' ipStr
    some (ip6Full (split.getD 0 []), ip6Full (split.getD 1 []))
  else some (ip6Full ipStr, ip6Full ipStr)

/-- `adj`. -/
def adjusted (addrStr : List Char) : List Char :=
  let addrStr := if addrStr = [] then "ALL".toList else addrStr.map Char.toUpper
  if addrStr = "ALL_OTHERS_COMBINED".toList ∨ addrStr = "ALL_OTHERS_INDIVIDUAL".toList then
    "ALL_OTHERS_COMBINED".toList
  else addrStr

def testSingleAddrOverlap (addrStr₁ addrStr₂ : List Char) (treatipv6 : Bool) : Option Bool :=
  let addrStr₁ := adjusted addrStr₁
  let addrStr₂ := adjusted addrStr₂
  if addrStr₁ = addrStr₂ then some true
  else
    let validate := if treatipv6 then validateMultipleIp6s else validateMultipleIps
    if validate addrStr₁ > 0 ∨ validate addrStr₂ > 0 ∨ ',' ∈ addrStr₁ ∨ ',' ∈ addrStr₂ then
      some false
    else if treatipv6 then do
      let parsed₁ ← getIp6RangeStrings addrStr₁
      let parsed₂ ← getIp6RangeStrings addrStr₂
      some (textAtMost parsed₁.1 parsed₂.2 && textAtMost parsed₂.1 parsed₁.2)
    else
      let parsed₁ := getIpRangeIntegers addrStr₁
      let parsed₂ := getIpRangeIntegers addrStr₂
      some (atMost parsed₁.1 parsed₂.2 && atMost parsed₂.1 parsed₁.2)

/-- `[,\t ]`. -/
def isItemSeparator (c : Char) : Bool := c = ',' || isTabOrSpace c

/-- `testAddrOverlap`. The loops stop when an overlap is found. -/
def testAddrOverlap (addrStr₁ addrStr₂ : List Char) (treatipv6 : Bool) : Option Bool :=
  (splitRuns isItemSeparator (trimBlanks addrStr₁)).anyM fun addr₁ =>
    (splitRuns isItemSeparator (trimBlanks addrStr₂)).anyM fun addr₂ =>
      testSingleAddrOverlap addr₁ addr₂ treatipv6

end Web

end Gargoyle
