import Gargoyle.Data.ByteStream
import Gargoyle.Data.Replace
import Gargoyle.Timerange.Text
import Mathlib.Data.Vector.Basic

/-!
# Restored hosts that have quotas of their own

Before the usage of a quota for all other hosts is restored, `filter_group_from_list`
takes the hosts out of it for which there are quotas by now. An address is kept as
its bytes in network order: `ntohl` of its first word is the number of the first
four of them, and `memcmp` compares all sixteen.

The function does not look at the family of a host. A host is tested against an
item with as many of its bytes as the family of the item has, and the last address
of a subnet is stored through a null pointer.
-/

namespace Gargoyle

open List

namespace Quotas

open BigEndian Numerals Replace Timerange

/-! ## The program -/

inductive AddressFamily
  | inet
  | inet6
deriving DecidableEq

/-- `inet_pton` of the C library, and what is left in an address that it does not
read. -/
structure InetPton where
  inet : List Char → Option (List.Vector UInt8 4)
  inet6 : List Char → Option (List.Vector UInt8 16)
  junk : List.Vector UInt8 4
  inet_chars : ∀ {t a}, inet t = some a → t ≠ [] ∧ ∀ c ∈ t, c.isDigit = true ∨ c = '.'
  inet6_chars : ∀ {t a}, inet6 t = some a →
    ':' ∈ t ∧ ∀ c ∈ t, c.isAlphanum = true ∨ c = ':' ∨ c = '.'

/-- `ip_bw`, with the bytes of its four words. -/
structure IpBw where
  family : AddressFamily
  ip : List.Vector UInt8 16
  bw : ℕ
deriving DecidableEq

/-- An item of a group as `ip_range_to_host_ints` returns it. -/
structure HostRange where
  family : AddressFamily
  first : List UInt8
  last : List UInt8

/-- `ntohl` of the first word of an address. -/
def ntohl (ip : List UInt8) : ℕ := value (ip.take 4)

variable (lib : InetPton)

def ipToHostInt (ipStr : List Char) : AddressFamily × List UInt8 :=
  match lib.inet6 ipStr with
  | some a => (.inet6, a.toList)
  | none => (.inet, ((lib.inet ipStr).getD lib.junk).toList ++ List.replicate 12 0)

/-- `ip_range_to_host_ints`. For a subnet of either family, however its mask is
written, the last address is stored to a null pointer. -/
def ipRangeToHostInts (ipStr : List Char) : Option HostRange :=
  match splitOnSeparators ipStr ['/', '-'] (-1) false with
  | [] => none
  | ip :: rest =>
    let start := ipToHostInt lib ip
    if '/' ∈ ipStr then none
    else if '-' ∈ ipStr then
      rest.head?.map fun last => ⟨start.1, start.2, (ipToHostInt lib last).2⟩
    else some ⟨start.1, start.2, start.2⟩

def HostRange.overlaps (range : HostRange) (testIp : List UInt8) : Bool :=
  match range.family with
  | .inet => ntohl testIp ≥ ntohl range.first && ntohl testIp ≤ ntohl range.last
  | .inet6 => memcmp testIp range.first ≥ 0 && memcmp testIp range.last ≤ 0

def replaceWhile (old new : List Char) : ℕ → List Char → List Char
  | 0, s => s
  | n + 1, s => if old <:+: s then replaceWhile old new n (replaceAll old new s) else s

def removeSpaces (groupStr : List Char) : List Char :=
  let s := replaceWhile [' ', '-'] ['-'] groupStr.length groupStr
  replaceWhile ['-', ' '] ['-'] s.length s

def groupBreaks : List Char := [',', '\t', ' ']

/-- `filter_group_from_list`; `none` is a null pointer that is followed. -/
def filterGroupFromList (origIpBwList : List IpBw) (ipGroupStr : List Char) :
    Option (List IpBw) :=
  (splitOnSeparators (removeSpaces ipGroupStr) groupBreaks (-1) false).foldlM
    (fun ipBwList item => (ipRangeToHostInts lib item).map fun range =>
      ipBwList.filter fun next => !range.overlaps next.ip.toList)
    origIpBwList

/-! ## Groups -/

def AddressFamily.bits : AddressFamily → ℕ
  | .inet => 32
  | .inet6 => 128

def AddressFamily.number : AddressFamily → List UInt8 → ℕ
  | .inet, ip => ntohl ip
  | .inet6, ip => value ip

def AddressFamily.other : AddressFamily → AddressFamily
  | .inet => .inet6
  | .inet6 => .inet

def InetPton.number : AddressFamily → List Char → Option ℕ
  | .inet, t => (lib.inet t).map fun a => value a.toList
  | .inet6, t => (lib.inet6 t).map fun a => value a.toList

def InetPton.mask (f : AddressFamily) (t : List Char) : Option ℕ :=
  match lib.number f t with
  | some mask => some mask
  | none =>
    if t ≠ [] ∧ t.all Char.isDigit = true ∧ numeralValue 10 t ≤ f.bits then
      some (2 ^ f.bits - 2 ^ (f.bits - numeralValue 10 t))
    else none

inductive Item
  | address (ip : List Char)
  | range (first last : List Char)
  | subnet (ip mask : List Char)

namespace Item

def text : Item → List Char
  | .address ip => ip
  | .range first last => first ++ '-' :: last
  | .subnet ip mask => ip ++ '/' :: mask

def OfFamily (f : AddressFamily) : Item → Prop
  | .address ip => (lib.number f ip).isSome
  | .range first last => (lib.number f first).isSome ∧ (lib.number f last).isSome
  | .subnet ip mask => (lib.number f ip).isSome ∧ (lib.mask f mask).isSome

def IsSubnet : Item → Prop
  | .address _ | .range _ _ => False
  | .subnet _ _ => True

instance : DecidablePred IsSubnet
  | .address _ | .range _ _ => .isFalse id
  | .subnet _ _ => .isTrue trivial

/-- The item has the address with the number `n` of the family. -/
def covers (f : AddressFamily) (n : ℕ) : Item → Bool
  | .address ip => lib.number f ip = some n
  | .range first last =>
    (lib.number f first).any fun a => (lib.number f last).any fun b => a ≤ n && n ≤ b
  | .subnet ip mask =>
    (lib.number f ip).any fun a => (lib.mask f mask).any fun m => a &&& m = n &&& m

def contains (i : Item) (r : IpBw) : Bool := i.covers lib r.family (r.family.number r.ip.toList)

end Item

structure Group where
  lead : List Char
  items : List (Item × List Char)
  lead_breaks : ∀ c ∈ lead, c ∈ groupBreaks
  breaks : ∀ i ∈ items, ∀ c ∈ i.2, c ∈ groupBreaks
  apart : ∀ i ∈ items.dropLast, i.2 ≠ []
  family : ∀ i ∈ items, ∃ f, i.1.OfFamily lib f

def Group.text {lib : InetPton} (g : Group lib) : List Char :=
  g.lead ++ spaced (g.items.map fun i => (i.1.text, i.2))

/-! ## The texts of items -/

section Texts

variable {lib : InetPton} {f : AddressFamily} {t u : List Char} {n : ℕ} {i : Item}

def Plain (t : List Char) : Prop :=
  t ≠ [] ∧ ∀ c ∈ t, c.isAlphanum = true ∨ c = '.' ∨ c = ':'

theorem Plain.notMem (h : Plain t) {c : Char}
    (hc : c.isAlphanum = false ∧ c ≠ '.' ∧ c ≠ ':') : c ∉ t := by
  intro hmem
  rcases h.2 c hmem with halnum | rfl | rfl
  · exact Bool.false_ne_true (hc.1.symm.trans halnum)
  · exact hc.2.1 rfl
  · exact hc.2.2 rfl

theorem isAlphanum_of_isDigit {c : Char} (h : c.isDigit = true) : c.isAlphanum = true := by
  rw [Char.isAlphanum, h, Bool.or_true]

theorem plain_of_number (h : (lib.number f t).isSome) : Plain t := by
  cases f with
  | inet =>
    obtain ⟨a, ha⟩ := Option.isSome_iff_exists.1 (Option.isSome_map.symm.trans h)
    obtain ⟨hne, hchars⟩ := lib.inet_chars ha
    exact ⟨hne, fun c hc => (hchars c hc).imp isAlphanum_of_isDigit Or.inl⟩
  | inet6 =>
    obtain ⟨a, ha⟩ := Option.isSome_iff_exists.1 (Option.isSome_map.symm.trans h)
    obtain ⟨hcolon, hchars⟩ := lib.inet6_chars ha
    exact ⟨ne_nil_of_mem hcolon, fun c hc => (hchars c hc).imp_right Or.symm⟩

theorem plain_of_mask (h : (lib.mask f t).isSome) : Plain t := by
  unfold InetPton.mask at h
  split at h
  · next hnumber => exact plain_of_number (by rw [hnumber]; rfl)
  · split_ifs at h with hdigits
    · exact ⟨hdigits.1, fun c hc => Or.inl (isAlphanum_of_isDigit (List.all_eq_true.1 hdigits.2.1 c hc))⟩
    · exact absurd h Bool.false_ne_true

theorem number_other (h : (lib.number f t).isSome) : lib.number f.other t = none := by
  have hboth : ∀ {a b}, lib.inet t = some a → lib.inet6 t = some b → False := by
    intro a b ha hb
    rcases (lib.inet_chars ha).2 _ (lib.inet6_chars hb).1 with hdigit | hdot
    · exact absurd hdigit (by decide)
    · exact absurd hdot (by decide)
  cases f with
  | inet =>
    obtain ⟨a, ha⟩ := Option.isSome_iff_exists.1 (Option.isSome_map.symm.trans h)
    refine Option.map_eq_none_iff.2 (Option.eq_none_iff_forall_ne_some.2 fun b hb => ?_)
    exact hboth ha hb
  | inet6 =>
    obtain ⟨b, hb⟩ := Option.isSome_iff_exists.1 (Option.isSome_map.symm.trans h)
    refine Option.map_eq_none_iff.2 (Option.eq_none_iff_forall_ne_some.2 fun a ha => ?_)
    exact hboth ha hb

theorem ipToHostInt_of_number (h : lib.number f t = some n) :
    ∃ ip, ipToHostInt lib t = (f, ip) ∧ f.number ip = n ∧ ip.length = 16 := by
  cases f with
  | inet =>
    obtain ⟨a, ha, rfl⟩ := Option.map_eq_some_iff.1 h
    have hnone : lib.inet6 t = none := Option.map_eq_none_iff.1
      (number_other (f := .inet) (Option.isSome_iff_exists.2 ⟨_, h⟩))
    refine ⟨a.toList ++ List.replicate 12 0, ?_, ?_, ?_⟩
    · rw [ipToHostInt, hnone, ha]
      rfl
    · have htake : (a.toList ++ List.replicate 12 0).take 4 = a.toList :=
        take_left' a.toList_length
      rw [AddressFamily.number, ntohl, htake]
    · rw [length_append, a.toList_length, length_replicate]
  | inet6 =>
    obtain ⟨a, ha, rfl⟩ := Option.map_eq_some_iff.1 h
    refine ⟨a.toList, ?_, rfl, a.toList_length⟩
    rw [ipToHostInt, ha]

theorem text_spec (h : i.OfFamily lib f) : i.text ≠ [] ∧ (∀ c ∈ i.text, c ∉ groupBreaks) ∧
    i.text.head? ≠ some '-' ∧ i.text.getLast? ≠ some '-' := by
  have hbreaks : ∀ {t}, Plain t → ∀ c ∈ t, c ∉ groupBreaks := by
    intro t ht c hc hmem
    have hall : ∀ d ∈ groupBreaks, d.isAlphanum = false ∧ d ≠ '.' ∧ d ≠ ':' :=
      forall_mem_of_all (by decide)
    exact ht.notMem (hall c hmem) hc
  have hhyphen : ∀ {t}, Plain t → t.head? ≠ some '-' ∧ t.getLast? ≠ some '-' := by
    intro t ht
    have hnot : '-' ∉ t := ht.notMem (by decide)
    exact ⟨fun h => hnot (mem_of_head? h), fun h => hnot (mem_of_getLast? h)⟩
  -- two plain texts with a sign between them
  have hpair : ∀ {t u c}, Plain t → Plain u → c ∉ groupBreaks → t ++ c :: u ≠ [] ∧
      (∀ d ∈ t ++ c :: u, d ∉ groupBreaks) ∧ (t ++ c :: u).head? ≠ some '-' ∧
      (t ++ c :: u).getLast? ≠ some '-' := by
    intro t u c ht hu hc
    refine ⟨by simp, fun d hd => ?_, ?_, ?_⟩
    · rcases List.mem_append.1 hd with hd | hd
      · exact hbreaks ht d hd
      · rcases List.mem_cons.1 hd with rfl | hd
        · exact hc
        · exact hbreaks hu d hd
    · rw [head?_append_of_ne_nil _ ht.1]
      exact (hhyphen ht).1
    · rw [getLast?_append_of_ne_nil _ (cons_ne_nil c u),
        getLast?_cons_of_ne_nil hu.1]
      exact (hhyphen hu).2
  cases i with
  | address ip =>
    have hplain := plain_of_number h
    exact ⟨hplain.1, hbreaks hplain, hhyphen hplain⟩
  | range first last =>
    exact hpair (plain_of_number h.1) (plain_of_number h.2) (by decide)
  | subnet ip mask =>
    exact hpair (plain_of_number h.1) (plain_of_mask h.2) (by decide)

theorem covers_other (h : i.OfFamily lib f) (n : ℕ) : i.covers lib f.other n = false := by
  cases i with
  | address ip => simp [Item.covers, number_other h]
  | range first last => simp [Item.covers, number_other h.1]
  | subnet ip mask => simp [Item.covers, number_other h.1]

/-! ## The text of a group -/

theorem replaceWhile_of_not_infix {old new s : List Char} (h : ¬ old <:+: s) (k : ℕ) :
    replaceWhile old new k s = s := by
  cases k with
  | zero => rfl
  | succ k => exact if_neg h

theorem not_infix_spaced {ps : List (List Char × List Char)} (h : Spaced groupBreaks ps)
    (hends : ∀ p ∈ ps, p.1.head? ≠ some '-' ∧ p.1.getLast? ≠ some '-') :
    ¬ [' ', '-'] <:+: spaced ps ∧ ¬ ['-', ' '] <:+: spaced ps := by
  induction ps with
  | nil => exact ⟨by simp [spaced], by simp [spaced]⟩
  | cons p ps ih =>
    obtain ⟨hblank, hhyphen⟩ := ih h.tail fun q hq => hends q (mem_cons_of_mem p hq)
    have hspaced : spaced (p :: ps) = p.1 ++ (p.2 ++ spaced ps) := by simp [spaced]
    have hpiece : ' ' ∉ p.1 := fun hc => (h.pieces p mem_cons_self).2 _ hc (by decide)
    have hrun : '-' ∉ p.2 := fun hc =>
      absurd (h.runs p mem_cons_self _ hc) (by decide)
    obtain ⟨-, hlast⟩ := hends p mem_cons_self
    rw [hspaced]
    constructor
    · intro hin
      refine hblank (infix_pair_of_append hrun (fun _ => ?_) (infix_of_append_left hpiece hin))
      cases ps with
      | nil => simp [spaced]
      | cons q qs =>
        obtain ⟨hne, -⟩ := h.pieces q (by simp)
        have hq : spaced (q :: qs) = q.1 ++ (q.2 ++ spaced qs) := by simp [spaced]
        rw [hq, head?_append_of_ne_nil _ hne]
        exact (hends q (by simp)).1
    · intro hin
      exact hhyphen (infix_of_append_left hrun
        (infix_pair_of_append hpiece (fun heq => absurd heq hlast) hin))

/-- A group is split into its items. -/
theorem split_group (g : Group lib) :
    splitOnSeparators (removeSpaces g.text) groupBreaks (-1) false =
      g.items.map fun i => i.1.text := by
  have hspec : ∀ i ∈ g.items, i.1.text ≠ [] ∧ (∀ c ∈ i.1.text, c ∉ groupBreaks) ∧
      i.1.text.head? ≠ some '-' ∧ i.1.text.getLast? ≠ some '-' := by
    intro i hi
    obtain ⟨f, hf⟩ := g.family i hi
    exact text_spec hf
  have hspaced : Spaced groupBreaks (g.items.map fun i => (i.1.text, i.2)) := by
    refine ⟨List.forall_mem_map.2 fun i hi => ⟨(hspec i hi).1, (hspec i hi).2.1⟩,
      List.forall_mem_map.2 g.breaks, ?_⟩
    rw [← map_dropLast]
    exact List.forall_mem_map.2 g.apart
  obtain ⟨hblank, hhyphen⟩ := not_infix_spaced hspaced
    (List.forall_mem_map.2 fun i hi => (hspec i hi).2.2)
  have hlead : '-' ∉ g.lead := fun hc => absurd (g.lead_breaks _ hc) (by decide)
  have hfirst : (spaced (g.items.map fun i => (i.1.text, i.2))).head? ≠ some '-' := by
    cases hitems : g.items with
    | nil => simp [spaced]
    | cons i is =>
      obtain ⟨hne, -, hhead, -⟩ := hspec i (by simp [hitems])
      have hcons : spaced ((i :: is).map fun i => (i.1.text, i.2)) =
          i.1.text ++ (i.2 ++ spaced (is.map fun i => (i.1.text, i.2))) := by simp [spaced]
      rw [hcons, head?_append_of_ne_nil _ hne]
      exact hhead
  have hremove : removeSpaces g.text = g.text := by
    have hblank' : ¬ [' ', '-'] <:+: g.text := fun hin =>
      hblank (infix_pair_of_append hlead (fun _ => hfirst) hin)
    have hhyphen' : ¬ ['-', ' '] <:+: g.text := fun hin =>
      hhyphen (infix_of_append_left hlead hin)
    rw [removeSpaces, replaceWhile_of_not_infix hblank', replaceWhile_of_not_infix hhyphen']
  rw [hremove, Group.text, hspaced.splitOnSeparators g.lead_breaks, map_map]
  rfl

/-! ## What is kept -/

theorem ipRangeToHostInts_of_slash (h : '/' ∈ t) : ipRangeToHostInts lib t = none := by
  unfold ipRangeToHostInts
  split
  · rfl
  · rw [if_pos h]

/-- A range covers the addresses that it is meant to. -/
theorem ipRangeToHostInts_of_family (h : i.OfFamily lib f) (hsubnet : ¬ i.IsSubnet) :
    ∃ range, ipRangeToHostInts lib i.text = some range ∧ ∀ ip : List.Vector UInt8 16,
      range.overlaps ip.toList = i.covers lib f (f.number ip.toList) := by
  have hbreaks : ∀ {t}, Plain t → t ≠ [] ∧ ∀ c ∈ t, c ∉ ['/', '-'] := by
    intro t ht
    refine ⟨ht.1, fun c hc hmem => ?_⟩
    have hall : ∀ d ∈ ['/', '-'], d.isAlphanum = false ∧ d ≠ '.' ∧ d ≠ ':' :=
      forall_mem_of_all (by decide)
    exact ht.notMem (hall c hmem) hc
  have htest : ∀ {first last : List UInt8} (ip : List.Vector UInt8 16), first.length = 16 →
      last.length = 16 → ((HostRange.mk f first last).overlaps ip.toList = true ↔
        f.number first ≤ f.number ip.toList ∧ f.number ip.toList ≤ f.number last) := by
    intro first last ip hfirst hlast
    have hlen := ip.toList_length
    cases f with
    | inet => simp [HostRange.overlaps, AddressFamily.number]
    | inet6 =>
      simp [HostRange.overlaps, AddressFamily.number,
        memcmp_nonneg_iff (hlen.trans hfirst.symm), memcmp_nonpos_iff (hlen.trans hlast.symm)]
  cases i with
  | address t =>
    obtain ⟨n, hn⟩ := Option.isSome_iff_exists.1 h
    obtain ⟨ip, hip, hnumber, hlen⟩ := ipToHostInt_of_number hn
    have hplain := plain_of_number h
    have hspaced : Spaced ['/', '-'] [(t, [])] :=
      ⟨List.forall_mem_singleton.2 (hbreaks hplain), by simp, by simp⟩
    have hsplit : splitOnSeparators t ['/', '-'] (-1) false = [t] := by
      simpa [spaced] using @Spaced.splitOnSeparators _ _ hspaced [] (by simp)
    refine ⟨⟨f, ip, ip⟩, ?_, fun x => ?_⟩
    · simp only [ipRangeToHostInts, Item.text, hsplit, hip]
      rw [if_neg (hplain.notMem (by decide)), if_neg (hplain.notMem (by decide))]
    · rw [Bool.eq_iff_iff, htest x hlen hlen, hnumber, Item.covers, hn, decide_eq_true_eq,
        Option.some_inj]
      omega
  | range t u =>
    obtain ⟨n, hn⟩ := Option.isSome_iff_exists.1 h.1
    obtain ⟨m, hm⟩ := Option.isSome_iff_exists.1 h.2
    obtain ⟨first, hfirst, hnumber, hlen⟩ := ipToHostInt_of_number hn
    obtain ⟨last, hlast, hnumber', hlen'⟩ := ipToHostInt_of_number hm
    have hplain := plain_of_number h.1
    have hplain' := plain_of_number h.2
    have hspaced : Spaced ['/', '-'] [(t, ['-']), (u, [])] := by
      refine ⟨?_, by simp, by simp⟩
      exact List.forall_mem_cons.2
        ⟨hbreaks hplain, List.forall_mem_singleton.2 (hbreaks hplain')⟩
    have hsplit : splitOnSeparators (t ++ '-' :: u) ['/', '-'] (-1) false = [t, u] := by
      simpa [spaced] using @Spaced.splitOnSeparators _ _ hspaced [] (by simp)
    have hslash : '/' ∉ t ++ '-' :: u := by
      simp [hplain.notMem (c := '/') (by decide), hplain'.notMem (c := '/') (by decide)]
    refine ⟨⟨f, first, last⟩, ?_, fun x => ?_⟩
    · simp only [ipRangeToHostInts, Item.text, hsplit, hfirst]
      rw [if_neg hslash, if_pos (by simp), head?_cons, Option.map_some, hlast]
    · rw [Bool.eq_iff_iff, htest x hlen hlen', hnumber, hnumber', Item.covers, hn, hm]
      simp
  | subnet t m => exact absurd trivial hsubnet

def Item.touches (lib : InetPton) (i : Item) (r : IpBw) : Bool :=
  i.contains lib r || i.covers lib r.family.other (r.family.other.number r.ip.toList)

theorem overlaps_eq_touches {range : HostRange} (h : i.OfFamily lib f)
    (hrange : ∀ ip : List.Vector UInt8 16,
      range.overlaps ip.toList = i.covers lib f (f.number ip.toList)) (r : IpBw) :
    range.overlaps r.ip.toList = i.touches lib r := by
  have hother : ∀ f' : AddressFamily, f' ≠ f → f' = f.other := by
    intro f' hne
    cases f <;> cases f' <;> first | rfl | exact absurd rfl hne
  rw [hrange, Item.touches, Item.contains]
  by_cases heq : r.family = f
  · rw [heq, covers_other h, Bool.or_false]
  · have hfamily : r.family.other = f := by
      rw [hother _ heq]
      cases f <;> rfl
    rw [hfamily, hother _ heq, covers_other h, Bool.false_or]

/-- What is left of the records is outside of all items. -/
theorem filterGroup_eq (items : List Item) (hitems : ∀ i ∈ items, ∃ f, i.OfFamily lib f)
    (records : List IpBw) :
    (items.map Item.text).foldlM (fun ipBwList item => (ipRangeToHostInts lib item).map
        fun range => ipBwList.filter fun next => !range.overlaps next.ip.toList) records =
      if ∀ i ∈ items, ¬ i.IsSubnet then
        some (records.filter fun r => items.all fun i => !i.touches lib r)
      else none := by
  induction items generalizing records with
  | nil => simp
  | cons i items ih =>
    obtain ⟨f, hf⟩ := hitems i mem_cons_self
    have hrest := ih fun j hj => hitems j (mem_cons_of_mem i hj)
    rw [map_cons, foldlM_cons]
    by_cases hsubnet : i.IsSubnet
    · have hslash : '/' ∈ i.text := by
        cases i with
        | address _ | range _ _ => exact hsubnet.elim
        | subnet ip mask => simp [Item.text]
      rw [ipRangeToHostInts_of_slash hslash, if_neg fun h => h i mem_cons_self hsubnet]
      rfl
    · obtain ⟨range, hrange, hoverlaps⟩ := ipRangeToHostInts_of_family hf hsubnet
      rw [hrange, Option.map_some, Option.bind_eq_bind, Option.bind_some, hrest]
      simp only [forall_mem_cons, hsubnet, not_false_eq_true, true_and]
      congr 2
      rw [List.filter_filter]
      refine List.filter_congr fun r _ => ?_
      rw [overlaps_eq_touches hf hoverlaps, all_cons, Bool.and_comm]

end Texts

/-- The filter keeps exactly the hosts that no item of the group has if there is no subnet in the
group, and if a host with bytes that an item of the other family has is one that the group has
anyhow. -/
theorem filterGroupFromList_iff (lib : InetPton) (g : Group lib) (records : List IpBw) :
    filterGroupFromList lib records g.text =
        some (records.filter fun r => g.items.all fun i => !i.1.contains lib r) ↔
      (∀ i ∈ g.items, ¬ i.1.IsSubnet) ∧ ∀ r ∈ records, ∀ i ∈ g.items,
        i.1.covers lib r.family.other (r.family.other.number r.ip.toList) = true →
          ∃ j ∈ g.items, j.1.contains lib r = true := by
  have hfilter : filterGroupFromList lib records g.text =
      if ∀ i ∈ g.items.map Prod.fst, ¬ i.IsSubnet then
        some (records.filter fun r => (g.items.map Prod.fst).all fun i => !i.touches lib r)
      else none := by
    rw [← filterGroup_eq _ (List.forall_mem_map.2 g.family), filterGroupFromList, split_group,
      map_map]
    rfl
  rw [hfilter]
  simp only [forall_mem_map, all_map]
  split_ifs with hsubnet
  · rw [Option.some_inj]
    constructor
    · intro heq
      refine ⟨hsubnet, fun r hr i hi hcovers => ?_⟩
      by_contra hnone
      -- the host is kept by the right side only
      have hmem : r ∈ records.filter fun r => g.items.all fun i => !i.1.contains lib r := by
        refine List.mem_filter.2 ⟨hr, List.all_eq_true.2 fun j hj => ?_⟩
        rw [Bool.not_eq_true']
        exact Bool.eq_false_iff.2 fun h => hnone ⟨j, hj, h⟩
      rw [← heq] at hmem
      have hnot := List.all_eq_true.1 (List.mem_filter.1 hmem).2 i hi
      simp [Item.touches, hcovers] at hnot
    · rintro ⟨-, hother⟩
      refine List.filter_congr fun r hr => ?_
      rw [Bool.eq_iff_iff, all_eq_true, all_eq_true]
      constructor
      · intro h i hi
        have hi' := h i hi
        simp only [Function.comp, Item.touches, Bool.not_or, Bool.and_eq_true] at hi'
        exact hi'.1
      · intro h i hi
        have hcovers : i.1.covers lib r.family.other (r.family.other.number r.ip.toList) ≠ true := by
          intro hcovers
          obtain ⟨j, hj, hcontains⟩ := hother r hr i hi hcovers
          have hnot := h j hj
          simp [hcontains] at hnot
        have hi' := h i hi
        simp only [Function.comp, Item.touches, Bool.not_or, Bool.and_eq_true]
        exact ⟨hi', by simpa using hcovers⟩
  · exact ⟨False.elim, fun h => absurd h.1 hsubnet⟩

/-- Four numbers with dots between them, as `inet_pton` reads them. -/
def readDotted (t : List Char) : Option (List.Vector UInt8 4) :=
  if t ≠ [] ∧ (t.all fun c => c.isDigit || c = '.') = true then
    match splitOnSeparators t ['.'] (-1) false with
    | [a, b, c, d] =>
      if ∀ p ∈ [a, b, c, d], numeralValue 10 p ≤ 255 then
        some ⟨[a, b, c, d].map fun p => UInt8.ofNat (numeralValue 10 p), rfl⟩
      else none
    | _ => none
  else none

def oneAddressLib : InetPton where
  inet := readDotted
  inet6 t := if t = "2001:db8::5".toList then
    some ⟨[0x20, 0x01, 0x0d, 0xb8, 0, 0, 0, 0, 0, 0, 0, 0, 0, 0, 0, 5], rfl⟩ else none
  junk := ⟨[0, 0, 0, 0], rfl⟩
  inet_chars {t a} h := by
    unfold readDotted at h
    split_ifs at h with hchars
    exact ⟨hchars.1, fun c hc => by simpa using List.all_eq_true.1 hchars.2 c hc⟩
  inet6_chars {t a} h := by
    split_ifs at h with ht
    rw [ht]
    exact ⟨by decide, forall_mem_of_all (by decide)⟩

def groupOf (i : Item) (h : ∃ f, i.OfFamily oneAddressLib f) : Group oneAddressLib where
  lead := []
  items := [(i, [])]
  lead_breaks := by simp
  breaks := by simp
  apart := by simp
  family := by simpa using h

def newHost : IpBw :=
  ⟨.inet6, ⟨[0x20, 0x01, 0x0d, 0xb8, 0, 0, 0, 0, 0, 0, 0, 0, 0, 0, 0, 5], rfl⟩, 1000⟩

theorem ofFamily_subnet :
    (Item.subnet "192.168.1.0".toList "24".toList).OfFamily oneAddressLib .inet := by
  unfold Item.OfFamily
  decide

theorem ofFamily_address : (Item.address "32.1.13.184".toList).OfFamily oneAddressLib .inet := by
  unfold Item.OfFamily
  decide

/-- The filter for a subnet does not return, and the one for an address takes away a host of the
other family whose first bytes are the same. -/
theorem host_of_other_family_lost :
    filterGroupFromList oneAddressLib [newHost] (groupOf _ ⟨_, ofFamily_subnet⟩).text = none ∧
    filterGroupFromList oneAddressLib [newHost] (groupOf _ ⟨_, ofFamily_address⟩).text =
      some [] ∧
    (Item.address "32.1.13.184".toList).contains oneAddressLib newHost = false := by
  decide

end Quotas

end Gargoyle
