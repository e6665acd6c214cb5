import Gargoyle.Bwctl.SetData
import Gargoyle.Data.CInt
import Gargoyle.Data.Signed
import Gargoyle.Data.WhileLoop
import Gargoyle.Timerange.Text

/-!
# Backup files of usage

`save_usage_to_file` writes the time and a line for each record, and
`load_usage_from_file` takes the whole file apart at its blanks and goes through
the pieces. The first piece is the time. The round that has read it goes on with
a record without another look at the number of pieces, so that the file of no
records is read behind its end.

The family of a record is scanned with `%ld` to a variable of 32 bits. Where a `long` has the size of
an address and that is 64 bits, the number is stored past the end of the variable, in every
round. A `time_t` is taken to be a `long`, as it is printed and scanned.

What `inet_ntop` and `inet_pton` do is a parameter.
-/

namespace Gargoyle

open List

namespace Bwctl

open Bandwidth Numerals Signed Timerange

/-- `AF_INET`. -/
def familyInet : BitVec 32 := 2

/-- `AF_INET6`. -/
def familyInet6 : BitVec 32 := 10

/-- The separators of `load_usage_from_file`. -/
def fileSeparators : List Char := ['\n', '\r', '\t', ' ']

/-- `inet_ntop` and `inet_pton` for the two families, of which the one reads what
the other has written. -/
structure AddressTexts where
  ntop4 : BitVec 32 → List Char
  ntop6 : In6Addr → List Char
  pton4 : List Char → Option (BitVec 32)
  pton6 : List Char → Option In6Addr
  pton4_ntop4 : ∀ a, pton4 (ntop4 a) = some a
  pton6_ntop6 : ∀ a, pton6 (ntop6 a) = some a
  ntop4_chars : ∀ a, ntop4 a ≠ [] ∧ ∀ c ∈ ntop4 a, c ∉ fileSeparators
  ntop6_chars : ∀ a, ntop6 a ≠ [] ∧ ∀ c ∈ ntop6 a, c ∉ fileSeparators

variable (lib : AddressTexts) {address : AddressSize}

/-! ## Writing -/

/-- The text of the address of a record. For a family that `inet_ntop` does not know nothing is
stored to the buffer. -/
def addressText (d : IpBw) : Option (List Char) :=
  if d.family = familyInet then some (lib.ntop4 (d.ip 0))
  else if d.family = familyInet6 then some (lib.ntop6 d.ip)
  else none

/-- `"%-15s"`. -/
def padded (t : List Char) : List Char := t ++ List.replicate (15 - t.length) ' '

def usageLine (d : IpBw) (ipstr : List Char) : List Char :=
  Nat.toDigits 10 d.family.toNat ++ '\t' :: (padded ipstr ++ '\t' ::
    (printSigned d.bw.toInt ++ ['\n']))

/-- `save_usage_to_file` at the time `now`; `none` says that a buffer is printed to
which nothing has been stored. -/
def saveUsageToFile (now : BitVec address.bits) (data : List IpBw) : Option (List Char) := do
  let lines ← data.mapM fun d => (addressText lib d).map (usageLine d)
  some (padded (printSigned now.toInt) ++ '\n' :: lines.flatten)

/-! ## Reading -/

/-- What `inet_pton` returns. -/
inductive PtonResult
  | stored (ip : In6Addr)
  | refused
  | unknownFamily

/-- `inet_pton` as it is called for a record, with the words that are taken from what it stores. -/
def inetPton (family : BitVec 32) (t : List Char) : PtonResult :=
  if family = familyInet then
    match lib.pton4 t with
    | some a => .stored ![a, 0, 0, 0]
    | none => .refused
  else if family = familyInet6 then
    match lib.pton6 t with
    | some a => .stored a
    | none => .refused
  else .unknownFamily

/-- The variables of `load_usage_from_file`. -/
structure UsageLoad (address : AddressSize) where
  dataPartIndex : ℕ
  lastBackup : BitVec address.bits
  data : List IpBw

def UsageLoad.readBackupTime (dataParts : List (List Char)) (s : UsageLoad address) :
    Option (UsageLoad address) :=
  if s.dataPartIndex = 0 then do
    let t ← dataParts[s.dataPartIndex]?
    some { s with
      lastBackup := ((scanSigned address.bits t).map (BitVec.ofInt address.bits)).getD s.lastBackup
      dataPartIndex := s.dataPartIndex + 1 }
  else some s

/-- `sscanf(.., "%ld", (long int*)&family)`; `none` says that more than the 32 bits of the variable
are stored. -/
def scanFamily (address : AddressSize) (familyText : List Char) : Option (BitVec 32) :=
  match scanSigned address.bits familyText with
  | some family => if address.bits = 32 then some (BitVec.ofInt 32 family) else none
  | none => some 0

/-- The rest of a round; `none` says that a piece behind the last one is read, an address that has
not been stored, or a family stored past the end of its variable. -/
def UsageLoad.readRecord (dataParts : List (List Char)) (s : UsageLoad address) :
    Option (UsageLoad address) := do
  let familyText ← dataParts[s.dataPartIndex]?
  let family ← scanFamily address familyText
  let ipText ← dataParts[s.dataPartIndex + 1]?
  match inetPton lib family ipText, decide (s.data.length < dataParts.length) with
  | .stored ip, true =>
    let bwText ← dataParts[s.dataPartIndex + 2]?
    match scanSigned 64 bwText with
    | some bw =>
      let next : IpBw := { family := family, ip := ip, bw := BitVec.ofInt 64 bw }
      some { s with dataPartIndex := s.dataPartIndex + 3, data := s.data ++ [next] }
    | none => some { s with dataPartIndex := s.dataPartIndex + 3 }
  -- `inet_pton` returns -1, which is taken for a success
  | .unknownFamily, true => none
  | _, _ => some { s with dataPartIndex := s.dataPartIndex + 2 }

def UsageLoad.round (dataParts : List (List Char)) (s : UsageLoad address) :
    Option (UsageLoad address) :=
  (s.readBackupTime dataParts).bind (UsageLoad.readRecord lib dataParts)

def loadLoop (dataParts : List (List Char)) (rounds : ℕ) (s : UsageLoad address) :
    Option (UsageLoad address) :=
  whileLoop (fun s : UsageLoad address => s.dataPartIndex < dataParts.length)
    (UsageLoad.round lib dataParts) rounds s

/-- `load_usage_from_file` for the text of the file: the time and the records. -/
def loadUsageFromFile (address : AddressSize) (fileData : List Char) :
    Option (BitVec address.bits × List IpBw) :=
  let dataParts := splitOnSeparators fileData fileSeparators (-1) false
  (loadLoop lib dataParts (dataParts.length + 1)
    ({ dataPartIndex := 0, lastBackup := 0, data := [] } : UsageLoad address)).map fun s => (s.lastBackup, s.data)

variable {lib : AddressTexts}

/-! ## The pieces of a file -/

theorem notMem_fileSeparators_of_isDigit {c : Char} (h : c.isDigit = true ∨ c = '-') :
    c ∉ fileSeparators := by
  intro hmem
  simp only [fileSeparators, mem_cons, not_mem_nil, or_false] at hmem
  rcases hmem with rfl | rfl | rfl | rfl <;> revert h <;> decide

theorem toDigits_chars (n : ℕ) :
    Nat.toDigits 10 n ≠ [] ∧ ∀ c ∈ Nat.toDigits 10 n, c ∉ fileSeparators :=
  ⟨Nat.toDigits_ne_nil, fun _ hc => notMem_fileSeparators_of_isDigit
    (Or.inl (Nat.isDigit_of_mem_toDigits (by decide) (by decide) hc))⟩

theorem printSigned_chars (v : ℤ) :
    printSigned v ≠ [] ∧ ∀ c ∈ printSigned v, c ∉ fileSeparators := by
  obtain ⟨hne, hchars⟩ := toDigits_chars v.natAbs
  unfold printSigned
  split_ifs
  · refine ⟨cons_ne_nil _ _, fun c hc => ?_⟩
    rcases List.mem_cons.1 hc with rfl | hc
    · exact notMem_fileSeparators_of_isDigit (Or.inr rfl)
    · exact hchars c hc
  · exact ⟨hne, hchars⟩

def ipText (lib : AddressTexts) (d : IpBw) : List Char :=
  if d.family = familyInet then lib.ntop4 (d.ip 0) else lib.ntop6 d.ip

theorem ipText_chars (d : IpBw) : ipText lib d ≠ [] ∧ ∀ c ∈ ipText lib d, c ∉ fileSeparators := by
  unfold ipText
  split_ifs
  · exact lib.ntop4_chars _
  · exact lib.ntop6_chars _

theorem addressText_eq {d : IpBw} (h : d.family = familyInet ∨ d.family = familyInet6) :
    addressText lib d = some (ipText lib d) := by
  unfold addressText ipText
  rcases h with h | h
  · rw [if_pos h, if_pos h]
  · have hne : ¬ d.family = familyInet := fun h' => absurd (h.symm.trans h') (by decide)
    rw [if_neg hne, if_pos h, if_neg hne]

theorem saveUsageToFile_eq (now : BitVec address.bits) {data : List IpBw}
    (hfamily : ∀ d ∈ data, d.family = familyInet ∨ d.family = familyInet6) :
    saveUsageToFile lib now data = some (padded (printSigned now.toInt) ++
      '\n' :: data.flatMap fun d => usageLine d (ipText lib d)) := by
  have hlines : data.mapM (fun d => (addressText lib d).map (usageLine d)) =
      some (data.map fun d => usageLine d (ipText lib d)) := by
    induction data with
    | nil => rfl
    | cons d ds ih =>
      rw [mapM_cons, addressText_eq (hfamily d mem_cons_self),
        ih fun e he => hfamily e (mem_cons_of_mem d he)]
      rfl
  unfold saveUsageToFile
  rw [hlines, flatMap_def]
  rfl

def IpBw.pieces (lib : AddressTexts) (d : IpBw) : List (List Char) :=
  [Nat.toDigits 10 d.family.toNat, ipText lib d, printSigned d.bw.toInt]

def IpBw.spacedPieces (lib : AddressTexts) (d : IpBw) : List (List Char × List Char) :=
  [(Nat.toDigits 10 d.family.toNat, ['\t']),
    (ipText lib d, List.replicate (15 - (ipText lib d).length) ' ' ++ ['\t']),
    (printSigned d.bw.toInt, ['\n'])]

theorem spaced_lines (data : List IpBw) :
    spaced (data.flatMap (IpBw.spacedPieces lib)) =
      data.flatMap fun d => usageLine d (ipText lib d) := by
  unfold spaced
  rw [flatMap_assoc]
  refine congrArg (List.flatMap · data) (funext fun d => ?_)
  simp [IpBw.spacedPieces, usageLine, padded]

/-- The pieces of a file that has been saved. -/
theorem splitOnSeparators_usage (now : BitVec address.bits) (data : List IpBw) :
    splitOnSeparators (padded (printSigned now.toInt) ++
        '\n' :: data.flatMap fun d => usageLine d (ipText lib d)) fileSeparators (-1) false =
      printSigned now.toInt :: data.flatMap (IpBw.pieces lib) := by
  have hblank : ' ' ∈ fileSeparators := by decide
  have hrun : ∀ (t : List Char) {c : Char}, c ∈ fileSeparators →
      ∀ e ∈ List.replicate (15 - t.length) ' ' ++ [c], e ∈ fileSeparators := by
    intro t c hc e he
    rcases List.mem_append.1 he with he | he
    · exact eq_of_mem_replicate he ▸ hblank
    · exact List.mem_singleton.1 he ▸ hc
  let ps : List (List Char × List Char) :=
    (printSigned now.toInt, List.replicate (15 - (printSigned now.toInt).length) ' ' ++ ['\n']) ::
      data.flatMap (IpBw.spacedPieces lib)
  have hall : ∀ p ∈ ps, (p.1 ≠ [] ∧ ∀ c ∈ p.1, c ∉ fileSeparators) ∧
      (∀ c ∈ p.2, c ∈ fileSeparators) ∧ p.2 ≠ [] := by
    intro p hp
    rcases List.mem_cons.1 hp with rfl | hp
    · exact ⟨printSigned_chars _, hrun _ (by decide), by simp⟩
    · obtain ⟨d, -, hp⟩ := List.mem_flatMap.1 hp
      simp only [IpBw.spacedPieces, mem_cons, not_mem_nil, or_false] at hp
      rcases hp with rfl | rfl | rfl
      · exact ⟨toDigits_chars _, hrun (List.replicate 15 ' ') (by decide), by simp⟩
      · exact ⟨ipText_chars d, hrun _ (by decide), by simp⟩
      · exact ⟨printSigned_chars _, hrun (List.replicate 15 ' ') (by decide), by simp⟩
  have hspaced : Spaced fileSeparators ps :=
    ⟨fun p hp => (hall p hp).1, fun p hp => (hall p hp).2.1,
      fun p hp => (hall p (dropLast_subset ps hp)).2.2⟩
  have htext : padded (printSigned now.toInt) ++
      '\n' :: data.flatMap (fun d => usageLine d (ipText lib d)) = [] ++ spaced ps := by
    rw [← spaced_lines]
    simp [ps, spaced, padded]
  rw [htext, hspaced.splitOnSeparators (by simp), map_cons, map_flatMap]
  rfl

/-! ## Reading what has been written -/

section Load

variable {dataParts pre rest : List (List Char)} {s : UsageLoad address} {d : IpBw}

def IpBw.loaded (d : IpBw) : IpBw :=
  if d.family = familyInet then { d with ip := ![d.ip 0, 0, 0, 0] } else d

theorem inetPton_ipText (h : d.family = familyInet ∨ d.family = familyInet6) :
    inetPton lib d.family (ipText lib d) = .stored d.loaded.ip := by
  unfold inetPton ipText IpBw.loaded
  rcases h with h | h
  · simp only [if_pos h, lib.pton4_ntop4]
  · have hne : ¬ d.family = familyInet := fun h' => absurd (h.symm.trans h') (by decide)
    simp only [if_neg hne, if_pos h, lib.pton6_ntop6]

theorem scanFamily_toDigits {x : BitVec 32} (hx : x = familyInet ∨ x = familyInet6) :
    scanFamily address (Nat.toDigits 10 x.toNat) = if address = .bits32 then some x else none := by
  have hsmall : x.toNat ≤ 10 := by
    rcases hx with rfl | rfl
    · decide
    · decide
  rw [scanFamily, scanSigned_toDigits]
  cases address with
  | bits32 =>
    rw [fit_of_fits (by simp only [AddressSize.bits]; omega) (by simp only [AddressSize.bits]; omega)]
    simp [AddressSize.bits, BitVec.ofInt_natCast]
  | bits64 => rfl

theorem scanSigned_word {w : ℕ} (x : BitVec w) : scanSigned w (printSigned x.toInt) = some x.toInt :=
  scanSigned_printSigned (BitVec.le_toInt x) BitVec.toInt_lt

theorem readRecord_pieces (hparts : dataParts = pre ++ (d.pieces lib ++ rest))
    (hindex : s.dataPartIndex = pre.length) (hdata : s.data.length < dataParts.length)
    (hfamily : d.family = familyInet ∨ d.family = familyInet6) :
    s.readRecord lib dataParts = if address = .bits32 then some { s with
      dataPartIndex := s.dataPartIndex + 3, data := s.data ++ [d.loaded] } else none := by
  have hpiece : ∀ i, dataParts[s.dataPartIndex + i]? = (d.pieces lib ++ rest)[i]? := by
    intro i
    rw [hparts, hindex, getElem?_append_right (Nat.le_add_right _ _), Nat.add_sub_cancel_left]
  have h₀ : dataParts[s.dataPartIndex]? = some (Nat.toDigits 10 d.family.toNat) := hpiece 0
  have h₁ : dataParts[s.dataPartIndex + 1]? = some (ipText lib d) := hpiece 1
  have h₂ : dataParts[s.dataPartIndex + 2]? = some (printSigned d.bw.toInt) := hpiece 2
  have hloaded : d.loaded = { family := d.family, ip := d.loaded.ip, bw := d.bw } := by
    unfold IpBw.loaded
    split_ifs <;> rfl
  unfold UsageLoad.readRecord
  simp only [h₀, Option.bind_eq_bind, Option.bind_some, scanFamily_toDigits hfamily]
  split_ifs
  · simp only [h₁, h₂, Option.bind_some, inetPton_ipText hfamily, decide_eq_true hdata,
      scanSigned_word, BitVec.ofInt_toInt]
    rw [← hloaded]
  · rfl

theorem round_of_pos (h : 0 < s.dataPartIndex) :
    s.round lib dataParts = s.readRecord lib dataParts := by
  unfold UsageLoad.round UsageLoad.readBackupTime
  rw [if_neg (Nat.ne_of_gt h), Option.bind_some]

/-- The loop loads all records of a file. -/
theorem loadLoop_records (haddress : address = .bits32) (pre : List (List Char))
    (s : UsageLoad address) {ds : List IpBw}
    (hparts : dataParts = pre ++ ds.flatMap (IpBw.pieces lib))
    (hindex : s.dataPartIndex = pre.length) (hpre : 0 < pre.length)
    (hdata : s.data.length ≤ pre.length)
    (hfamily : ∀ d ∈ ds, d.family = familyInet ∨ d.family = familyInet6) (rounds : ℕ)
    (hrounds : ds.length < rounds) :
    loadLoop lib dataParts rounds s = some { s with
      dataPartIndex := dataParts.length, data := s.data ++ ds.map IpBw.loaded } := by
  obtain ⟨rounds, rfl⟩ := Nat.exists_eq_succ_of_ne_zero (Nat.ne_zero_of_lt hrounds)
  induction ds generalizing pre s rounds with
  | nil =>
    have hend : dataParts.length = s.dataPartIndex := by simp [hparts, hindex]
    unfold loadLoop
    rw [whileLoop_of_not (by simp [hend]), hend]
    simp
  | cons d ds ih =>
    rw [flatMap_cons] at hparts
    have hlength : dataParts.length =
        pre.length + (3 + (ds.flatMap (IpBw.pieces lib)).length) := by
      rw [hparts, length_append, length_append]
      rfl
    have hround := readRecord_pieces hparts hindex (by omega) (hfamily d mem_cons_self)
    rw [if_pos haddress, ← round_of_pos (by omega)] at hround
    rw [length_cons] at hrounds
    obtain ⟨rounds, rfl⟩ := Nat.exists_eq_succ_of_ne_zero (by omega : rounds ≠ 0)
    have hrest := ih (pre ++ d.pieces lib)
      { s with dataPartIndex := s.dataPartIndex + 3, data := s.data ++ [d.loaded] }
      (by rw [hparts, append_assoc]) (by simp [hindex, IpBw.pieces])
      (by rw [length_append]; omega)
      (by simp only [length_append, length_singleton]
          exact Nat.add_le_add hdata (by simp [IpBw.pieces]))
      (fun e he => hfamily e (mem_cons_of_mem d he)) rounds (by omega)
    unfold loadLoop at hrest ⊢
    rw [whileLoop_of_guard (by omega), hround, Option.bind_some, hrest, map_cons,
      append_assoc]
    rfl

theorem round_start {timeText : List Char} {last : BitVec address.bits}
    {parts : List (List Char)}
    (htime : (scanSigned address.bits timeText).map (BitVec.ofInt address.bits) = some last) :
    UsageLoad.round lib (timeText :: parts)
        ({ dataPartIndex := 0, lastBackup := 0, data := [] } : UsageLoad address) =
      UsageLoad.readRecord lib (timeText :: parts)
        { dataPartIndex := 1, lastBackup := last, data := [] } := by
  unfold UsageLoad.round UsageLoad.readBackupTime
  rw [if_pos rfl]
  simp only [getElem?_cons_zero, Option.bind_eq_bind, Option.bind_some, htime,
    Option.getD_some]

end Load

/-- A file that has been saved is loaded. -/
theorem loadUsageFromFile_save (now : BitVec address.bits) {data : List IpBw}
    (hfamily : ∀ d ∈ data, d.family = familyInet ∨ d.family = familyInet6) :
    (saveUsageToFile lib now data).bind (loadUsageFromFile lib address) =
      if address = .bits32 ∧ data ≠ [] then some (now, data.map IpBw.loaded) else none := by
  have htime : (scanSigned address.bits (printSigned now.toInt)).map (BitVec.ofInt address.bits) =
      some now := by
    rw [scanSigned_word, Option.map_some, BitVec.ofInt_toInt]
  rw [saveUsageToFile_eq now hfamily, Option.bind_some, loadUsageFromFile, splitOnSeparators_usage]
  cases data with
  | nil =>
    rw [if_neg fun h => h.2 rfl, loadLoop, whileLoop_of_guard (by simp), round_start htime]
    rfl
  | cons d ds =>
    have hparts : printSigned now.toInt :: (d :: ds).flatMap (IpBw.pieces lib) =
        [printSigned now.toInt] ++ (d :: ds).flatMap (IpBw.pieces lib) := rfl
    by_cases haddress : address = .bits32
    · rw [if_pos ⟨haddress, cons_ne_nil d ds⟩]
      have hloop := loadLoop_records haddress _
        { dataPartIndex := 1, lastBackup := now, data := [] } hparts
        rfl Nat.one_pos (Nat.zero_le 1) hfamily
        ((printSigned now.toInt :: (d :: ds).flatMap (IpBw.pieces lib)).length + 1)
        (by simp [IpBw.pieces]; omega)
      unfold loadLoop at hloop ⊢
      rw [whileLoop_of_guard (by simp [IpBw.pieces]), round_of_pos Nat.one_pos] at hloop
      rw [whileLoop_of_guard (by simp), round_start htime, hloop]
      rfl
    · have hrecord := readRecord_pieces
        (s := { dataPartIndex := 1, lastBackup := now, data := [] }) hparts rfl (by simp) (hfamily d mem_cons_self)
      rw [if_neg haddress] at hrecord
      rw [if_neg fun h => haddress h.1, loadLoop, whileLoop_of_guard (by simp), round_start htime,
        hrecord]
      rfl

theorem loaded_eq_iff (d : IpBw) :
    d.loaded = d ↔ (d.family = familyInet → d.ip 1 = 0 ∧ d.ip 2 = 0 ∧ d.ip 3 = 0) := by
  obtain ⟨family, ip, bw⟩ := d
  unfold IpBw.loaded
  split_ifs with h
  · constructor
    · intro heq hfamily
      obtain ⟨-, hip, -⟩ := IpBw.mk.inj heq
      exact ⟨(congrFun hip 1).symm, (congrFun hip 2).symm, (congrFun hip 3).symm⟩
    · intro hzero
      obtain ⟨h₁, h₂, h₃⟩ := hzero h
      congr 1
      funext i
      fin_cases i
      · rfl
      · exact h₁.symm
      · exact h₂.symm
      · exact h₃.symm
  · exact ⟨fun _ hfamily => absurd hfamily h, fun _ => rfl⟩

section FullTexts

def wordBytes (w : BitVec 32) : List ℕ :=
  [w.toNat % 256, w.toNat / 256 % 256, w.toNat / 65536 % 256, w.toNat / 16777216]

/-- The word with the bytes `a`, `b`, `c` and `d`. -/
def bytesWord (a b c d : ℕ) : BitVec 32 :=
  BitVec.ofNat 32 (a + 256 * b + 65536 * c + 16777216 * d)

def wordGroups (w : BitVec 32) : List ℕ :=
  [w.toNat % 256 * 256 + w.toNat / 256 % 256, w.toNat / 65536 % 256 * 256 + w.toNat / 16777216]

def groupsWord (g h : ℕ) : BitVec 32 := bytesWord (g / 256) (g % 256) (h / 256) (h % 256)

theorem bytes_of_number (n : ℕ) :
    n % 256 + 256 * (n / 256 % 256) + 65536 * (n / 65536 % 256) + 16777216 * (n / 16777216) =
      n := by
  omega

theorem bytes_of_group {a b : ℕ} (h : b < 256) :
    (a * 256 + b) / 256 = a ∧ (a * 256 + b) % 256 = b := by
  omega

theorem bytesWord_toNat (w : BitVec 32) :
    bytesWord (w.toNat % 256) (w.toNat / 256 % 256) (w.toNat / 65536 % 256) (w.toNat / 16777216) =
      w := by
  refine (congrArg (BitVec.ofNat 32) (bytes_of_number w.toNat)).trans ?_
  rw [BitVec.ofNat_toNat, BitVec.setWidth_eq]

theorem groupsWord_toNat (w : BitVec 32) :
    groupsWord (w.toNat % 256 * 256 + w.toNat / 256 % 256)
      (w.toNat / 65536 % 256 * 256 + w.toNat / 16777216) = w := by
  have hlast : w.toNat / 16777216 < 256 := Nat.div_lt_of_lt_mul w.isLt
  obtain ⟨h₁, h₂⟩ := bytes_of_group (a := w.toNat % 256) (Nat.mod_lt (w.toNat / 256) (by decide))
  obtain ⟨h₃, h₄⟩ := bytes_of_group (a := w.toNat / 65536 % 256) hlast
  rw [groupsWord, h₁, h₂, h₃, h₄, bytesWord_toNat]

theorem numerals_chars {sep : Char} {b : ℕ} (hb : 1 < b) (hb' : b ≤ 16)
    (hsep : sep ∉ fileSeparators) {n m : ℕ} {ns : List ℕ} :
    numerals sep b (n :: m :: ns) ≠ [] ∧
      ∀ c ∈ numerals sep b (n :: m :: ns), c ∉ fileSeparators := by
  refine ⟨by simp [numerals_cons_cons], fun c hc hmem => ?_⟩
  refine not_mem_numerals hb hb' (fun heq : c = sep => hsep (heq ▸ hmem)) ?_ _ hc
  have hall : ∀ c ∈ fileSeparators, ∀ d < 16, Nat.digitChar d ≠ c :=
    forall_mem_of_all (by decide)
  exact hall c hmem

def fullTexts : AddressTexts where
  ntop4 a := numerals '.' 10 (wordBytes a)
  ntop6 a := numerals ':' 16 ((List.ofFn a).flatMap wordGroups)
  pton4 t := match readNumerals '.' 10 t with
    | [a, b, c, d] => some (bytesWord a b c d)
    | _ => none
  pton6 t := match readNumerals ':' 16 t with
    | [a, b, c, d, e, f, g, h] =>
      some ![groupsWord a b, groupsWord c d, groupsWord e f, groupsWord g h]
    | _ => none
  pton4_ntop4 a := by
    have hne : wordBytes a ≠ [] := cons_ne_nil _ _
    rw [readNumerals_numerals (by decide) (by decide) (by decide) hne]
    exact congrArg some (bytesWord_toNat a)
  pton6_ntop6 a := by
    have hgroups : (List.ofFn a).flatMap wordGroups =
        wordGroups (a 0) ++ (wordGroups (a 1) ++ (wordGroups (a 2) ++ wordGroups (a 3))) := by
      simp [ofFn_succ]
    have hne : (List.ofFn a).flatMap wordGroups ≠ [] := by simp [wordGroups]
    rw [readNumerals_numerals (by decide) (by decide) (by decide) hne, hgroups]
    simp only [wordGroups, cons_append, nil_append, groupsWord_toNat]
    congr 1
    funext i
    fin_cases i <;> rfl
  ntop4_chars a := numerals_chars (by decide) (by decide) (by decide)
  ntop6_chars a := by
    rw [ofFn_succ, flatMap_cons]
    exact numerals_chars (by decide) (by decide) (by decide)

end FullTexts

end Bwctl

end Gargoyle
