import Gargoyle.Weburl.Defs

/-!
# Reads outside of a packet

A packet is handed to `http_match` and `extract_url` when it begins like a request,
and otherwise to `https_match` and `extract_url_https`. The reads of the first two
stay inside if there is a zero byte behind the path inside, at which `strstr` stops,
and the host ends inside; those of the other two if the length fields that are met
do (`reads_inside_iff`).
-/

namespace Gargoyle

open List

open Option (bind_some map_some isSome_map)

namespace Weburl

open ByteBuffer TreeMap Bandwidth

/-! ## The first message of an encrypted connection -/

/-- The two bytes at `off` as a number. -/
def readShort (b : ByteBuffer) (len off : ℕ) : Option ℕ :=
  (readByte b len off).bind fun x =>
    (readByte b len (off + 1)).map fun y => x.toNat * 256 + y.toNat

/-- The loop over the extensions, over at most `n` of them, with the name as it
stands in the message. -/
def serverNameLoop (b : ByteBuffer) (len packetLimit : ℕ) : ℕ → ℕ → Option (List Char)
  | 0, _ => some []
  | n + 1, packetPtr =>
    if packetPtr < packetLimit then
      (readShort b len packetPtr).bind fun extType =>
        (readShort b len (packetPtr + 2)).bind fun extLen =>
          if extType = 0 then
            (readShort b len (packetPtr + 7)).bind fun snilen =>
              if packetPtr + 9 + snilen < packetLimit ∧ snilen > 0 then
                (readBytes b len (packetPtr + 9) (if snilen < 625 then snilen else 624)).map
                  fun name => text (cString name)
              else some []
          else serverNameLoop b len packetLimit n (packetPtr + 4 + extLen)
    else some []

def serverName (b : ByteBuffer) (len : ℕ) : Option (Option (List Char)) :=
  if len < 43 then some none
  else
    (readByte b len 0).bind fun conttype =>
      (readByte b len 5).bind fun hndshktype =>
        (readByte b len 43).bind fun sidlen =>
          if conttype ≠ 22 then some none
          else if hndshktype ≠ 1 then some none
          else
            let cipherSuites := 1 + 43 + sidlen.toNat
            (readShort b len cipherSuites).bind fun cslen =>
              let compression := cipherSuites + 2 + cslen
              (readByte b len compression).bind fun cmplen =>
                let extensions := compression + 1 + cmplen.toNat
                (readShort b len extensions).bind fun maxextlen =>
                  let packetPtr := extensions + 2
                  let packetLimit :=
                    if packetPtr + maxextlen < len then packetPtr + maxextlen else len
                  (serverNameLoop b len packetLimit packetLimit packetPtr).map some

section ServerName

variable {b : ByteBuffer} {len off : ℕ}

theorem readShort_of_le (h : off + 2 ≤ len) : readShort b len off = some (readBE 2 b off) := by
  rw [readShort, readByte_of_lt (by omega), bind_some, readByte_of_lt (by omega),
    map_some]
  simp [readBE]

theorem readByte_bind_isSome_iff {α : Type*} {f : UInt8 → Option α} :
    ((readByte b len off).bind f).isSome ↔ off < len ∧ (f (b off)).isSome := by
  unfold readByte
  split_ifs with h
  · simp [h]
  · simp [h]

theorem readShort_bind_isSome_iff {α : Type*} {f : ℕ → Option α} :
    ((readShort b len off).bind f).isSome ↔ off + 2 ≤ len ∧ (f (readBE 2 b off)).isSome := by
  by_cases h : off + 2 ≤ len
  · rw [readShort_of_le h, bind_some]
    simp [h]
  · have hnone : readShort b len off = none := by
      unfold readShort readByte
      split_ifs with hoff hnext
      · omega
      · rfl
      · rfl
      · rfl
    rw [hnone]
    simp [h]

theorem of_readByte_bind {α : Type*} {f : UInt8 → Option α} {x : α}
    (h : (readByte b len off).bind f = some x) : f (b off) = some x := by
  obtain ⟨y, hy, hf⟩ := Option.bind_eq_some_iff.1 h
  unfold readByte at hy
  split_ifs at hy with hoff
  obtain rfl := Option.some.inj hy
  exact hf

theorem of_readShort_bind {α : Type*} {f : ℕ → Option α} {x : α}
    (h : (readShort b len off).bind f = some x) : f (readBE 2 b off) = some x := by
  have hle : off + 2 ≤ len := (readShort_bind_isSome_iff.1 (Option.isSome_iff_exists.2 ⟨x, h⟩)).1
  rwa [readShort_of_le hle, bind_some] at h

theorem readChars_eq_text (b : ByteBuffer) (off n : ℕ) :
    readChars b off n = text (cString ((List.range n).map fun i => b (off + i))) := by
  induction n generalizing off with
  | zero => rfl
  | succ n ih =>
    have hrange : (List.range (n + 1)).map (fun i => b (off + i)) =
        b off :: (List.range n).map fun i => b (off + 1 + i) := by
      rw [range_succ_eq_map, map_cons, map_map, Nat.add_zero]
      refine congrArg _ (map_congr_left fun i _ => ?_)
      simp only [Function.comp_apply, Nat.succ_eq_add_one]
      congr 1
      omega
    rw [hrange, readChars, cString, takeWhile_cons]
    by_cases hzero : b off = 0
    · simp [hzero, text]
    · rw [if_neg hzero, ih]
      simp [hzero, text, cString]

inductive ExtensionsInside (b : ByteBuffer) (len packetLimit : ℕ) : ℕ → Prop
  | done {packetPtr : ℕ} : packetLimit ≤ packetPtr → ExtensionsInside b len packetLimit packetPtr
  | name {packetPtr : ℕ} : packetPtr < packetLimit → readBE 2 b packetPtr = 0 →
      packetPtr + 9 ≤ len → ExtensionsInside b len packetLimit packetPtr
  | skip {packetPtr : ℕ} : packetPtr < packetLimit → readBE 2 b packetPtr ≠ 0 →
      packetPtr + 4 ≤ len →
      ExtensionsInside b len packetLimit (packetPtr + 4 + readBE 2 b (packetPtr + 2)) →
      ExtensionsInside b len packetLimit packetPtr

def LengthsInside (b : ByteBuffer) (len : ℕ) : Prop :=
  let cipherSuites := 1 + 43 + (b 43).toNat
  let compression := cipherSuites + 2 + readBE 2 b cipherSuites
  let extensions := compression + 1 + (b compression).toNat
  let packetPtr := extensions + 2
  let maxextlen := readBE 2 b extensions
  extensions + 2 ≤ len ∧
    ExtensionsInside b len
      (if packetPtr + maxextlen < len then packetPtr + maxextlen else len) packetPtr

def ClientHelloInside (b : ByteBuffer) (len : ℕ) : Prop :=
  len < 43 ∨ 43 < len ∧ (b 0 = 22 → b 5 = 1 → LengthsInside b len)

/-- When the walk over the extensions stays inside. -/
theorem serverNameLoop_isSome_iff {packetLimit packetPtr n : ℕ} (hlimit : packetLimit ≤ len)
    (hn : packetLimit ≤ packetPtr + n) :
    (serverNameLoop b len packetLimit n packetPtr).isSome ↔
      ExtensionsInside b len packetLimit packetPtr := by
  induction n generalizing packetPtr with
  | zero =>
    simp only [serverNameLoop, Option.isSome_some, true_iff]
    exact .done (by omega)
  | succ n ih =>
    simp only [serverNameLoop]
    by_cases hin : packetPtr < packetLimit
    · rw [if_pos hin, readShort_bind_isSome_iff, readShort_bind_isSome_iff]
      by_cases htype : readBE 2 b packetPtr = 0
      · rw [if_pos htype, readShort_bind_isSome_iff]
        constructor
        · rintro ⟨-, -, hname, -⟩
          exact .name hin htype (by omega)
        · rintro (hdone | ⟨-, -, hname⟩ | ⟨-, hne, -, -⟩)
          · omega
          · refine ⟨by omega, by omega, by omega, ?_⟩
            by_cases hsni : packetPtr + 9 + readBE 2 b (packetPtr + 7) < packetLimit ∧
                readBE 2 b (packetPtr + 7) > 0
            · rw [if_pos hsni, isSome_map]
              refine readBytes_isSome_iff.2 (Or.inr ?_)
              split_ifs <;> omega
            · rw [if_neg hsni]
              rfl
          · exact absurd htype hne
      · rw [if_neg htype, ih (by omega)]
        constructor
        · rintro ⟨-, hhead, hrest⟩
          exact .skip hin htype hhead hrest
        · rintro (hdone | ⟨-, hzero, -⟩ | ⟨-, -, hhead, hrest⟩)
          · omega
          · exact absurd hzero htype
          · exact ⟨by omega, hhead, hrest⟩
    · rw [if_neg hin]
      exact iff_of_true rfl (.done (by omega))

/-- When all reads for the name stay inside. -/
theorem serverName_isSome_iff : (serverName b len).isSome ↔ ClientHelloInside b len := by
  unfold serverName ClientHelloInside
  by_cases hshort : len < 43
  · simp [hshort]
  · rw [if_neg hshort, readByte_bind_isSome_iff, readByte_bind_isSome_iff,
      readByte_bind_isSome_iff]
    by_cases hcont : b 0 = 22
    · by_cases hhand : b 5 = 1
      · simp only [hcont, hhand, ne_eq, not_true, if_false, hshort, false_or, forall_const,
          LengthsInside]
        rw [readShort_bind_isSome_iff, readByte_bind_isSome_iff, readShort_bind_isSome_iff,
          isSome_map, serverNameLoop_isSome_iff (by split_ifs <;> omega) (by omega)]
        constructor
        · rintro ⟨-, -, hlong, -, -, hext, hrest⟩
          exact ⟨hlong, hext, hrest⟩
        · rintro ⟨hlong, hext, hrest⟩
          exact ⟨by omega, by omega, hlong, by omega, by omega, hext, hrest⟩
      · simp only [hcont, hhand, ne_eq, not_true, not_false_iff, if_true, if_false, hshort,
          Option.isSome_some, false_or, and_true, false_implies, implies_true]
        constructor
        · rintro ⟨-, -, hlong⟩
          exact hlong
        · exact fun hlong => ⟨by omega, by omega, hlong⟩
    · simp only [hcont, ne_eq, not_false_iff, if_true, hshort, Option.isSome_some, false_or,
        and_true, false_implies]
      constructor
      · rintro ⟨-, -, hlong⟩
        exact hlong
      · exact fun hlong => ⟨by omega, by omega, hlong⟩

/-- Inside the packet both loops find the same name. -/
theorem extensionLoop_of_serverNameLoop {packetLimit packetPtr n : ℕ} {name : List Char}
    (hn : packetLimit ≤ packetPtr + n)
    (h : serverNameLoop b len packetLimit n packetPtr = some name) :
    extensionLoop b packetLimit packetPtr = name.map tolower := by
  induction n generalizing packetPtr with
  | zero =>
    rw [extensionLoop, if_neg (by omega)]
    obtain rfl := Option.some.inj h
    rfl
  | succ n ih =>
    simp only [serverNameLoop] at h
    rw [extensionLoop]
    by_cases hin : packetPtr < packetLimit
    · rw [if_pos hin] at h ⊢
      replace h := of_readShort_bind (of_readShort_bind h)
      dsimp only
      by_cases htype : readBE 2 b packetPtr = 0
      · rw [if_pos htype] at h ⊢
        replace h := of_readShort_bind h
        by_cases hsni : packetPtr + 9 + readBE 2 b (packetPtr + 7) < packetLimit ∧
            readBE 2 b (packetPtr + 7) > 0
        · rw [if_pos hsni] at h ⊢
          obtain ⟨bytes, hbytes, rfl⟩ := Option.map_eq_some_iff.1 h
          unfold readBytes at hbytes
          split_ifs at hbytes
          all_goals
            obtain rfl := Option.some.inj hbytes
            rw [readChars_eq_text]
            simp only [*, if_true, if_false]
        · rw [if_neg hsni] at h ⊢
          obtain rfl := Option.some.inj h
          rfl
      · rw [if_neg htype] at h ⊢
        exact ih (by omega) h
    · rw [if_neg hin] at h ⊢
      obtain rfl := Option.some.inj h
      rfl

theorem clientHelloHost_of_serverName {name : Option (List Char)}
    (h : serverName b len = some name) :
    clientHelloHost b len = name.map (List.map tolower) := by
  unfold serverName at h
  unfold clientHelloHost
  by_cases hshort : len < 43
  · rw [if_pos hshort] at h ⊢
    obtain rfl := Option.some.inj h
    rfl
  · rw [if_neg hshort] at h ⊢
    replace h := of_readByte_bind (of_readByte_bind (of_readByte_bind h))
    dsimp only
    by_cases hcont : b 0 ≠ 22
    · rw [if_pos hcont] at h ⊢
      obtain rfl := Option.some.inj h
      rfl
    · rw [if_neg hcont] at h ⊢
      by_cases hhand : b 5 ≠ 1
      · rw [if_pos hhand] at h ⊢
        obtain rfl := Option.some.inj h
        rfl
      · rw [if_neg hhand] at h ⊢
        replace h := of_readShort_bind (of_readByte_bind (of_readShort_bind h))
        obtain ⟨raw, hraw, rfl⟩ := Option.map_eq_some_iff.1 h
        rw [map_some, extensionLoop_of_serverNameLoop (by omega) hraw]

end ServerName

/-! ## The text of a request -/

section Request

variable {b : ByteBuffer} {size len off base : ℕ}

theorem strnicmp_isSome {cs : List UInt8} (h : off + cs.length ≤ len) :
    (strnicmp b len cs off).isSome := by
  induction cs generalizing off with
  | nil => rfl
  | cons c cs ih =>
    rw [length_cons] at h
    rw [strnicmp, readByte_bind_isSome_iff]
    refine ⟨by omega, ?_⟩
    split_ifs
    · rfl
    · exact ih (by omega)

theorem of_strnicmp_cons {c : UInt8} {cs : List UInt8}
    (h : strnicmp b len (c :: cs) off = some true) :
    toupper (b off) = toupper c ∧ strnicmp b len cs (off + 1) = some true := by
  rw [strnicmp] at h
  replace h := of_readByte_bind h
  split_ifs at h with hne
  · exact absurd h (by simp)
  · exact ⟨not_not.1 hne, h⟩

/-- The search for a text stays inside its bound. -/
theorem strnistr_inside {c : UInt8} {cs : List UInt8} {slen : ℕ} (h : off + slen ≤ len) :
    ∃ found, strnistr b len c cs slen off = some found ∧
      ∀ i, found = some i → i + 1 + cs.length ≤ off + slen := by
  induction slen generalizing off with
  | zero => exact ⟨none, rfl, fun i hi => by cases hi⟩
  | succ slen ih =>
    obtain ⟨found, hfound, hbound⟩ := @ih (off + 1) (by omega)
    have hrest : ∃ found, strnistr b len c cs slen (off + 1) = some found ∧
        ∀ i, found = some i → i + 1 + cs.length ≤ off + (slen + 1) :=
      ⟨found, hfound, fun i hi => by have := hbound i hi; omega⟩
    have hnone : ∃ found, (some none : Option (Option ℕ)) = some found ∧
        ∀ i, found = some i → i + 1 + cs.length ≤ off + (slen + 1) :=
      ⟨none, rfl, fun i hi => by cases hi⟩
    rw [strnistr, readByte_of_lt (by omega), bind_some]
    split_ifs with hzero hne hlong
    · exact hnone
    · exact hrest
    · exact hnone
    · have hcmp : (strnicmp b len cs (off + 1)).isSome := strnicmp_isSome (by omega)
      obtain ⟨same, hsame⟩ := Option.isSome_iff_exists.1 hcmp
      rw [hsame, bind_some]
      cases same with
      | true =>
        refine ⟨some off, if_pos rfl, fun i hi => ?_⟩
        obtain rfl := Option.some.inj hi
        omega
      | false => exact hrest

theorem strnistr_blank {slen k : ℕ} (h : off + slen ≤ len) (hk : k < slen)
    (hblank : b (off + k) = 32) (hbefore : ∀ j < k, b (off + j) ≠ 0 ∧ toupper (b (off + j)) ≠ 32) :
    strnistr b len 32 [] slen off = some (some (off + k)) := by
  induction slen generalizing off k with
  | zero => omega
  | succ slen ih =>
    rw [strnistr, readByte_of_lt (by omega), bind_some]
    cases k with
    | zero =>
      rw [Nat.add_zero] at hblank ⊢
      rw [hblank]
      rfl
    | succ k =>
      obtain ⟨hzero, hne⟩ := hbefore 0 (by omega)
      rw [Nat.add_zero] at hzero hne
      have hshift : ∀ j, off + (j + 1) = off + 1 + j := fun j => by omega
      rw [hshift k] at hblank ⊢
      rw [if_neg hzero, if_pos (show toupper (b off) ≠ toupper 32 from hne)]
      refine ih (by omega) (by omega) hblank fun j hj => ?_
      rw [← hshift]
      exact hbefore (j + 1) (by omega)

/-! ### The method -/

def methodEnd (b : ByteBuffer) : ℕ := if b 3 = 32 then 3 else 4

theorem eq_blank_of_toupper {x : UInt8} (h : toupper x = 32) : x = 32 := by
  unfold toupper at h
  split_ifs at h with hlower
  · obtain rfl : x = 64 := by
      rw [← UInt8.sub_add_cancel x 32, h]
      rfl
    exact absurd hlower (by decide)
  · exact h

theorem of_strnicmp_word {word : List UInt8} (hword : ∀ c ∈ word, toupper c ≠ 0 ∧ toupper c ≠ 32)
    (h : strnicmp b len (word ++ [32]) off = some true) :
    b (off + word.length) = 32 ∧
      ∀ j < word.length, b (off + j) ≠ 0 ∧ toupper (b (off + j)) ≠ 32 := by
  induction word generalizing off with
  | nil => exact ⟨eq_blank_of_toupper (of_strnicmp_cons h).1, fun j hj => by cases hj⟩
  | cons c word ih =>
    obtain ⟨hc, hrest⟩ := of_strnicmp_cons h
    obtain ⟨hzero, hblank⟩ := hword c mem_cons_self
    obtain ⟨hend, hletters⟩ := ih (fun c hc => hword c (mem_cons_of_mem _ hc)) hrest
    have hshift : ∀ j, off + (j + 1) = off + 1 + j := fun j => by omega
    refine ⟨by rw [length_cons, hshift]; exact hend, fun j hj => ?_⟩
    cases j with
    | zero =>
      refine ⟨fun hb => ?_, by rw [Nat.add_zero, hc]; exact hblank⟩
      rw [Nat.add_zero] at hb
      rw [hb] at hc
      exact hzero hc.symm
    | succ j =>
      rw [hshift]
      exact hletters j (by simpa using hj)

/-- A request begins with a method and a blank. -/
theorem isWebRequest_spec (h : isWebRequest b len = true) :
    methodEnd b ≤ 4 ∧ b (methodEnd b) = 32 ∧
      ∀ j < methodEnd b, b j ≠ 0 ∧ toupper (b j) ≠ 32 := by
  simp only [isWebRequest, Bool.or_eq_true, decide_eq_true_eq] at h
  have hfour : ∀ word : List UInt8, word.length = 4 →
      (∀ c ∈ word, toupper c ≠ 0 ∧ toupper c ≠ 32) →
      strnicmp b len (word ++ [32]) 0 = some true → methodEnd b ≤ 4 ∧ b (methodEnd b) = 32 ∧
        ∀ j < methodEnd b, b j ≠ 0 ∧ toupper (b j) ≠ 32 := by
    intro word hlen hword hsame
    obtain ⟨hend, hletters⟩ := of_strnicmp_word hword hsame
    rw [hlen] at hend hletters
    simp only [Nat.zero_add] at hend hletters
    have hthree : b 3 ≠ 32 := by
      intro hb
      have hupper := (hletters 3 (by omega)).2
      rw [hb] at hupper
      exact hupper rfl
    rw [methodEnd, if_neg hthree]
    exact ⟨le_rfl, hend, hletters⟩
  rcases h with (h | h) | h
  · have hword : ∀ c ∈ "GET".toList.map chr, toupper c ≠ 0 ∧ toupper c ≠ 32 :=
      Numerals.forall_mem_of_all (by decide)
    obtain ⟨hend, hletters⟩ := of_strnicmp_word hword h
    simp only [Nat.zero_add] at hend hletters
    rw [methodEnd, if_pos (show b 3 = 32 from hend)]
    exact ⟨by omega, hend, hletters⟩
  · exact hfour ("POST".toList.map chr) rfl (Numerals.forall_mem_of_all (by decide)) h
  · exact hfour ("HEAD".toList.map chr) rfl (Numerals.forall_mem_of_all (by decide)) h

/-! ### The path -/

/-- The path from `start` to `fin`, where a blank or a zero ends it, behind the
blanks from `first` on. -/
structure PathEnds (b : ByteBuffer) (size first start fin : ℕ) : Prop where
  first_le : first ≤ start
  start_le : start ≤ fin
  fin_lt : fin < size
  blanks : ∀ j, first ≤ j → j < start → b j = 32
  start_ne : b start ≠ 32
  inner : ∀ j, start ≤ j → j < fin → b j ≠ 32 ∧ b j ≠ 0
  fin_eq : b fin = 32 ∨ b fin = 0

/-- What is copied from `start` on when no blank is found lies in the packet. -/
def NullInside (size base start : ℕ) : Prop :=
  pointerIndex base none ≤ 0 ∨ (start ≤ pointerIndex base none ∧
    start + min 624 (pointerIndex base none - start) ≤ size)

/-- The memory has a zero byte from `off` on. -/
def ZeroFrom (b : ByteBuffer) (size off : ℕ) : Prop := ∃ z, off ≤ z ∧ z < size ∧ b z = 0

def PathInside (b : ByteBuffer) (size base : ℕ) : Prop :=
  ∃ start fin, PathEnds b size (methodEnd b) start fin ∧ ZeroFrom b size fin ∧
    (b fin = 0 → NullInside size base start)

/-- The path ends with a zero, and `path_end_index` is not positive. -/
def PathMissing (b : ByteBuffer) (size base : ℕ) : Prop :=
  (∃ start fin, PathEnds b size (methodEnd b) start fin ∧ b fin = 0) ∧ pointerIndex base none ≤ 0

theorem PathEnds.unique {first start fin start' fin' : ℕ} (h : PathEnds b size first start fin)
    (h' : PathEnds b size first start' fin') : start = start' ∧ fin = fin' := by
  obtain rfl : start = start' := by
    rcases Nat.lt_trichotomy start start' with hlt | heq | hgt
    · exact absurd (h'.blanks _ h.first_le hlt) h.start_ne
    · exact heq
    · exact absurd (h.blanks _ h'.first_le hgt) h'.start_ne
  refine ⟨rfl, ?_⟩
  rcases Nat.lt_trichotomy fin fin' with hlt | heq | hgt
  · have hinner := h'.inner _ h.start_le hlt
    rcases h.fin_eq with hb | hb
    · exact absurd hb hinner.1
    · exact absurd hb hinner.2
  · exact heq
  · have hinner := h.inner _ h'.start_le hgt
    rcases h'.fin_eq with hb | hb
    · exact absurd hb hinner.1
    · exact absurd hb hinner.2

theorem copyText_isSome_iff {start : ℕ} {length : ℤ} : (copyText b size start length).isSome ↔
    0 ≤ length ∧ (length = 0 ∨ start + min 624 length ≤ size) := by
  simp only [copyText]
  by_cases hneg : (if length < 625 then length else 624) < 0
  · rw [if_pos hneg]
    simp only [Option.isSome_none, Bool.false_eq_true, false_iff]
    split_ifs at hneg <;> omega
  · rw [if_neg hneg, readBytes_isSome_iff]
    split_ifs at hneg ⊢ <;> omega

theorem strstrBlank_isSome_iff : (strstrBlank b size off).isSome ↔ ZeroFrom b size off := by
  rw [strstrBlank, isSome_map, scan_isSome_iff]
  simp [ZeroFrom]

/-- The search for a blank ends at the first blank or zero. -/
theorem strstrBlank_of_first {fin : ℕ} (hle : off ≤ fin) (hzero : ZeroFrom b size fin)
    (hinner : ∀ j, off ≤ j → j < fin → b j ≠ 32 ∧ b j ≠ 0) (hend : b fin = 32 ∨ b fin = 0) :
    strstrBlank b size off = some (if b fin = 32 then some fin else none) := by
  obtain ⟨z, hfin, hz, hnull⟩ := hzero
  have hsome : (scan (fun x => x = 0) b size off).isSome :=
    scan_isSome_iff.2 ⟨z, by omega, hz, by simpa using hnull⟩
  obtain ⟨stop, hstop⟩ := Option.isSome_iff_exists.1 hsome
  obtain ⟨h₁, -, h₂, -⟩ := scan_eq_some_iff.1 hstop
  have hfin_le : fin ≤ stop := by
    by_contra hgt
    exact (hinner stop h₁ (by omega)).2 (by simpa using h₂)
  rw [strstrBlank, hstop, map_some]
  congr 1
  by_cases hblank : b fin = 32
  · have hne : fin ≠ stop := by
      rintro rfl
      rw [hblank] at h₂
      exact absurd h₂ (by decide)
    rw [if_pos hblank, scanFrom_eq_some_iff]
    exact ⟨hle, by omega, by simpa using hblank,
      fun j hj hlt => by simpa using (hinner j hj hlt).1⟩
  · have hnull' := hend.resolve_left hblank
    have hmin := (scan_eq_some_iff.1 hstop).2.2.2
    obtain rfl : fin = stop := by
      by_contra hne
      exact absurd (hmin fin hle (by omega)) (by simp [hnull'])
    rw [if_neg hblank, Option.eq_none_iff_forall_ne_some]
    intro i hi
    obtain ⟨h₃, h₄, h₅, -⟩ := scanFrom_eq_some_iff.1 hi
    exact (hinner i h₃ (by omega)).1 (by simpa using h₅)

theorem pathFrom_eq_of_ends {first start fin : ℕ} (h : PathEnds b size first start fin)
    (hzero : ZeroFrom b size fin) :
    pathFrom b size base first =
      if pointerIndex base (if b fin = 32 then some fin else none) > 0 then
        (copyText b size start
          (pointerIndex base (if b fin = 32 then some fin else none) - start)).map fun path =>
            (pointerIndex base (if b fin = 32 then some fin else none), cString path)
      else some (pointerIndex base (if b fin = 32 then some fin else none), []) := by
  have hstart : scan (fun x => x ≠ 32) b size first = some start :=
    scan_eq_some_iff.2 ⟨h.first_le, h.start_le.trans_lt h.fin_lt, by simpa using h.start_ne,
      fun j h₁ h₂ => by simpa using h.blanks j h₁ h₂⟩
  have hfin := strstrBlank_of_first h.start_le hzero h.inner h.fin_eq
  rw [pathFrom, if_neg (by omega), Int.toNat_natCast, hstart, bind_some, hfin,
    bind_some]

/-- What is read of a path with two ends. -/
theorem pathFrom_of_ends {first start fin : ℕ} (h : PathEnds b size first start fin)
    (hzero : ZeroFrom b size fin) :
    ((pathFrom b size base first).isSome ↔ (b fin = 0 → NullInside size base start)) ∧
      ∀ path, pathFrom b size base first = some path →
        path.1 = pointerIndex base (if b fin = 32 then some fin else none) := by
  rw [pathFrom_eq_of_ends h hzero]
  have hle := h.start_le
  have hlt := h.fin_lt
  split_ifs with hblank hpos hpos
  · have hne : b fin ≠ 0 := by
      rw [hblank]
      decide
    refine ⟨?_, fun path hpath => ?_⟩
    · rw [isSome_map, copyText_isSome_iff]
      simp only [hne, false_implies, iff_true, pointerIndex]
      omega
    · obtain ⟨copied, -, rfl⟩ := Option.map_eq_some_iff.1 hpath
      rfl
  · have hne : b fin ≠ 0 := by
      rw [hblank]
      decide
    refine ⟨by simp [hne], fun path hpath => ?_⟩
    obtain rfl := Option.some.inj hpath
    rfl
  · have hnull : b fin = 0 := h.fin_eq.resolve_left hblank
    refine ⟨?_, fun path hpath => ?_⟩
    · rw [isSome_map, copyText_isSome_iff]
      simp only [hnull, forall_const, NullInside]
      omega
    · obtain ⟨copied, -, rfl⟩ := Option.map_eq_some_iff.1 hpath
      rfl
  · refine ⟨?_, fun path hpath => ?_⟩
    · simp only [Option.isSome_some, NullInside, true_iff]
      exact fun _ => Or.inl (not_lt.1 hpos)
    · obtain rfl := Option.some.inj hpath
      rfl

theorem pathEnds_of_pathFrom {first : ℕ} (h : (pathFrom b size base first).isSome) :
    ∃ start fin, PathEnds b size first start fin ∧ ZeroFrom b size fin := by
  obtain ⟨path, hpath⟩ := Option.isSome_iff_exists.1 h
  rw [pathFrom, if_neg (by omega), Int.toNat_natCast] at hpath
  obtain ⟨start, hstart, hrest⟩ := Option.bind_eq_some_iff.1 hpath
  obtain ⟨found, hfound, -⟩ := Option.bind_eq_some_iff.1 hrest
  obtain ⟨z, hz, hlt, hnull⟩ :=
    strstrBlank_isSome_iff.1 (Option.isSome_iff_exists.2 ⟨found, hfound⟩)
  obtain ⟨hfirst, -, hne, hblanks⟩ := scan_eq_some_iff.1 hstart
  have hsome : (scan (fun x => x = 32 || x = 0) b size start).isSome :=
    scan_isSome_iff.2 ⟨z, hz, hlt, by simp [hnull]⟩
  obtain ⟨fin, hfin⟩ := Option.isSome_iff_exists.1 hsome
  obtain ⟨hle, hfin_lt, hend, hinner⟩ := scan_eq_some_iff.1 hfin
  have hfin_le : fin ≤ z := by
    by_contra hgt
    exact absurd (hinner z hz (by omega)) (by simp [hnull])
  exact ⟨start, fin, ⟨hfirst, hle, hfin_lt, fun j h₁ h₂ => by simpa using hblanks j h₁ h₂,
    by simpa using hne, fun j h₁ h₂ => by simpa using hinner j h₁ h₂, by simpa using hend⟩,
    z, hfin_le, hlt, hnull⟩

theorem pathFrom_isSome_iff :
    (pathFrom b size base (methodEnd b)).isSome ↔ PathInside b size base := by
  constructor
  · intro h
    obtain ⟨start, fin, hends, hzero⟩ := pathEnds_of_pathFrom h
    exact ⟨start, fin, hends, hzero, (pathFrom_of_ends hends hzero).1.1 h⟩
  · rintro ⟨start, fin, hends, hzero, hnull⟩
    exact (pathFrom_of_ends hends hzero).1.2 hnull

theorem path_pos_iff {path : ℤ × List UInt8} (hmethod : 0 < methodEnd b)
    (h : pathFrom b size base (methodEnd b) = some path) :
    path.1 > 0 ↔ ¬ PathMissing b size base := by
  obtain ⟨start, fin, hends, hzero⟩ :=
    pathEnds_of_pathFrom (Option.isSome_iff_exists.2 ⟨path, h⟩)
  have hle := hends.first_le
  have hle' := hends.start_le
  rw [(pathFrom_of_ends hends hzero).2 path h, PathMissing, not_and, not_le]
  rcases hends.fin_eq with hb | hb
  · rw [if_pos hb]
    refine iff_of_true (Int.natCast_pos.2 (by omega)) ?_
    rintro ⟨start', fin', hends', hnull⟩
    obtain ⟨-, rfl⟩ := hends.unique hends'
    rw [hb] at hnull
    exact absurd hnull (by decide)
  · rw [if_neg (by rw [hb]; decide)]
    exact ⟨fun hpos _ => hpos, fun hpos => hpos ⟨start, fin, hends, hb⟩⟩

/-! ### The host -/

/-- An empty line ends at `k + 2`. -/
def HeaderEnd (b : ByteBuffer) (k : ℕ) : Prop :=
  b (k + 2) = 10 ∧ (b (k + 1) = 10 ∨ (b k = 10 ∧ b (k + 1) = 13))

theorem headerLoop_spec {n : ℕ} :
    (headerLoop b n (b off) (b (off + 1)) (off + 2) = off + 2 + n ∧
      ∀ k, off ≤ k → k < off + n → ¬ HeaderEnd b k) ∨
    ∃ k, k < off + n ∧ HeaderEnd b k ∧
      headerLoop b n (b off) (b (off + 1)) (off + 2) = k + 2 ∧
      ∀ j, off ≤ j → j < k → ¬ HeaderEnd b j := by
  induction n generalizing off with
  | zero => exact .inl ⟨rfl, fun k h₁ h₂ => by omega⟩
  | succ n ih =>
    simp only [headerLoop]
    split_ifs with hend
    · exact .inr ⟨off, by omega, hend, rfl, fun j h₁ h₂ => absurd h₂ (not_lt.2 h₁)⟩
    · rcases @ih (off + 1) with ⟨hloop, hnone⟩ | ⟨k, hk, hheader, hloop, hfirst⟩
      · refine .inl ⟨by rw [hloop]; omega, fun k h₁ h₂ => ?_⟩
        rcases Nat.eq_or_lt_of_le h₁ with rfl | hlt
        · exact hend
        · exact hnone k hlt (by omega)
      · refine .inr ⟨k, by omega, hheader, hloop, fun j h₁ h₂ => ?_⟩
        rcases Nat.eq_or_lt_of_le h₁ with rfl | hlt
        · exact hend
        · exact hfirst j hlt h₂

def HeaderInside (b : ByteBuffer) (len : ℕ) : Prop := ∃ k, k + 2 < len ∧ HeaderEnd b k

theorem lastHeaderIndex_spec (hlen : 2 ≤ len) :
    (lastHeaderIndex b len = len ∧ ¬ HeaderInside b len) ∨
      (lastHeaderIndex b len < len ∧ HeaderInside b len ∧ b (lastHeaderIndex b len) = 10) := by
  rcases @headerLoop_spec b 0 (len - 2) with ⟨hloop, hnone⟩ | ⟨k, hk, hheader, hloop, -⟩
  · refine .inl ⟨by rw [lastHeaderIndex, hloop]; omega, ?_⟩
    rintro ⟨k, hk, hheader⟩
    exact hnone k (Nat.zero_le k) (by omega) hheader
  · have hlast : lastHeaderIndex b len = k + 2 := hloop
    rw [hlast]
    exact .inr ⟨by omega, ⟨k, by omega, hheader⟩, hheader.1⟩

/-- The host ends in the header or, if the header has no end, in the memory, where it
ends at the end of the packet at the latest. -/
def HostInside (b : ByteBuffer) (size len : ℕ) : Prop :=
  HeaderInside b len ∨
    ∀ i, strnistr b size (chr 'H') ("ost:".toList.map chr) len 0 = some (some i) →
      ∃ p r, i + 5 ≤ p ∧ p ≤ r ∧ r < size ∧ b p ≠ 32 ∧ (isHostEnd (b r) = true ∨ len ≤ r)

/-- A loop over the blanks from an offset on, which stops at `last` if it is bounded. -/
structure SkipsBlanks (bounded : Prop) (skip : ℕ → ℕ → Option ℕ) (b : ByteBuffer) (size : ℕ) :
    Prop where
  isSome_iff : ∀ {last off}, off ≤ last → last ≤ size → (bounded → last < size → b last ≠ 32) →
    ((skip last off).isSome ↔ ∃ p, off ≤ p ∧ p < size ∧ b p ≠ 32)
  bounds : ∀ {last off p}, off ≤ last → skip last off = some p →
    off ≤ p ∧ p < size ∧ (b p ≠ 32 ∨ p = last) ∧ ∀ j, off ≤ j → j < p → b j = 32

theorem skipBlanks_skips : SkipsBlanks False (skipBlanks b size) b size where
  isSome_iff _ _ _ := by
    rw [skipBlanks, scan_isSome_iff]
    simp
  bounds _ h := by
    obtain ⟨h₁, h₂, h₃, h₄⟩ := scan_eq_some_iff.1 h
    exact ⟨h₁, h₂, Or.inl (by simpa using h₃), fun j hj hlt => by simpa using h₄ j hj hlt⟩

theorem skipBlanksTo_skips : SkipsBlanks True (skipBlanksTo b size) b size where
  isSome_iff {last off} hoff hlast hne := by
    rw [skipBlanksTo, scanTo_isSome_iff]
    constructor
    · rintro (hlt | ⟨p, h₁, h₂, -, h₄⟩)
      · exact ⟨last, hoff, by omega, hne trivial (by omega)⟩
      · exact ⟨p, h₁, h₂, by simpa using h₄⟩
    · rintro ⟨p, h₁, h₂, h₃⟩
      by_cases hlt : last < size
      · exact .inl (by omega)
      · exact .inr ⟨p, h₁, h₂, by omega, by simpa using h₃⟩
  bounds hoff h := by
    obtain ⟨h₁, -, h₃⟩ := scanTo_bounds h
    obtain ⟨hend, hbefore⟩ := scanTo_stops h
    refine ⟨h₁, h₃, ?_, fun j hj hlt => by simpa using hbefore j hj hlt⟩
    rcases hend with hstop | hlast
    · exact .inl (by simpa using hstop)
    · exact .inr (by omega)

theorem host_isSome_iff {n p : ℕ} :
    ((scanTo isHostEnd b size n p).bind fun r =>
      (copyText b size p (r - p)).map cString).isSome ↔ (scanTo isHostEnd b size n p).isSome := by
  constructor
  · intro h
    obtain ⟨host, hhost⟩ := Option.isSome_iff_exists.1 h
    obtain ⟨r, hr, -⟩ := Option.bind_eq_some_iff.1 hhost
    exact Option.isSome_iff_exists.2 ⟨r, hr⟩
  · intro h
    obtain ⟨r, hr⟩ := Option.isSome_iff_exists.1 h
    obtain ⟨h₁, h₂, h₃⟩ := scanTo_bounds hr
    rw [hr, bind_some, isSome_map, copyText_isSome_iff]
    omega

/-- When the search for the host stays inside. -/
theorem hostAt_isSome_iff {bounded : Prop} {skip : ℕ → ℕ → Option ℕ}
    (hskip : SkipsBlanks bounded skip b size) {last i : ℕ} (hi : i + 5 ≤ last) (hlast : last ≤ len)
    (hsize : len ≤ size) (hnext : last < len → b last = 10)
    (hbound : bounded → last < len ∨ len = size) :
    ((skip last (i + 5)).bind fun p => (scanTo isHostEnd b size (last - p) p).bind fun r =>
      (copyText b size p (r - p)).map cString).isSome ↔
        last < len ∨ ∃ p r, i + 5 ≤ p ∧ p ≤ r ∧ r < size ∧ b p ≠ 32 ∧
          (isHostEnd (b r) = true ∨ len ≤ r) := by
  have hsome := hskip.isSome_iff hi (hlast.trans hsize) fun hb hlt => by
    rw [hnext (by have := hbound hb; omega)]
    decide
  constructor
  · intro h
    obtain ⟨host, hhost⟩ := Option.isSome_iff_exists.1 h
    obtain ⟨p, hp, hrest⟩ := Option.bind_eq_some_iff.1 hhost
    obtain ⟨h₁, h₂, h₃, -⟩ := hskip.bounds hi hp
    obtain ⟨q, hq, hqsize, hqne⟩ := hsome.1 (Option.isSome_iff_exists.2 ⟨p, hp⟩)
    have hscan := host_isSome_iff.1 (Option.isSome_iff_exists.2 ⟨host, hrest⟩)
    by_cases hlt : last < len
    · exact .inl hlt
    · rcases scanTo_isSome_iff.1 hscan with hroom | ⟨r, h₄, h₅, h₆, hend⟩
      · exact .inr ⟨q, max q len, hq, le_max_left _ _, by omega, hqne, .inr (le_max_right _ _)⟩
      · exact .inr ⟨p, r, h₁, h₄, h₅, h₃.resolve_right (by omega), .inl hend⟩
  · intro h
    have hskipped : (skip last (i + 5)).isSome := by
      refine hsome.2 ?_
      rcases h with hlt | ⟨p, r, h₁, h₂, h₃, h₄, -⟩
      · exact ⟨last, hi, by omega, by rw [hnext hlt]; decide⟩
      · exact ⟨p, h₁, by omega, h₄⟩
    obtain ⟨p, hp⟩ := Option.isSome_iff_exists.1 hskipped
    obtain ⟨h₁, h₂, -, h₃⟩ := hskip.bounds hi hp
    rw [hp, bind_some, host_isSome_iff, scanTo_isSome_iff]
    by_cases hlt : last < len
    · have hple : p ≤ last := by
        by_contra hgt
        have hblank := h₃ last hi (by omega)
        rw [hnext hlt] at hblank
        exact absurd hblank (by decide)
      exact .inl (by omega)
    · obtain ⟨q, r, h₄, h₅, h₆, h₇, hend⟩ := h.resolve_left hlt
      have hple : p ≤ q := by
        by_contra hgt
        exact h₇ (h₃ q h₄ (by omega))
      by_cases hr : r < p + (last - p)
      · exact .inr ⟨r, by omega, h₆, hr, hend.resolve_right (by omega)⟩
      · exact .inl (by omega)

/-- When all reads for the host stay inside. -/
theorem hostWith_isSome_iff {bounded : Prop} {skip : ℕ → ℕ → Option ℕ}
    (hskip : SkipsBlanks bounded skip b size) (hlen : 2 ≤ len) (hsize : len ≤ size)
    (hbound : bounded → HeaderInside b len ∨ len = size) :
    (hostWith skip b size len).isSome ↔ HostInside b size len := by
  have hspec := @lastHeaderIndex_spec b len hlen
  have hle : lastHeaderIndex b len ≤ len := by
    rcases hspec with ⟨hlast, -⟩ | ⟨hlt, -⟩ <;> omega
  have hnext : lastHeaderIndex b len < len → b (lastHeaderIndex b len) = 10 := by
    rcases hspec with ⟨hlast, -⟩ | ⟨-, -, hnext⟩
    · exact fun hlt => by omega
    · exact fun _ => hnext
  have hinside : HeaderInside b len ↔ lastHeaderIndex b len < len := by
    rcases hspec with ⟨hlast, hnone⟩ | ⟨hlt, hheader, -⟩
    · exact iff_of_false hnone (by omega)
    · exact iff_of_true hheader hlt
  obtain ⟨found, hfound, hfirst⟩ := @strnistr_inside b size 0 (chr 'H') ("ost:".toList.map chr)
    (lastHeaderIndex b len) (by omega)
  have hwhole : ¬ lastHeaderIndex b len < len →
      strnistr b size (chr 'H') ("ost:".toList.map chr) len 0 = some found := by
    intro hlt
    rw [← hfound, show lastHeaderIndex b len = len by omega]
  simp only [hostWith, hfound, bind_some]
  rw [HostInside, hinside]
  cases found with
  | none =>
    simp only [Option.isSome_some, true_iff]
    by_cases hlt : lastHeaderIndex b len < len
    · exact .inl hlt
    · refine .inr fun i hi => ?_
      rw [hwhole hlt] at hi
      cases hi
  | some i =>
    have hi : i + 5 ≤ lastHeaderIndex b len := by
      have h : i + 1 + 4 ≤ 0 + lastHeaderIndex b len := hfirst i rfl
      omega
    rw [hostAt_isSome_iff hskip hi hle hsize hnext fun hb => (hbound hb).imp_left hinside.1]
    by_cases hlt : lastHeaderIndex b len < len
    · simp [hlt]
    · rw [hwhole hlt]
      simp [hlt]

theorem zeroFrom_of_pathFrom {first : ℕ} (h : (pathFrom b size base first).isSome) :
    ZeroFrom b size 0 := by
  obtain ⟨-, -, -, z, -, hz, hnull⟩ := pathEnds_of_pathFrom h
  exact ⟨z, Nat.zero_le z, hz, hnull⟩

/-- An address is put together from path and host. -/
theorem httpAddress_eq (hweb : isWebRequest b len = true) :
    httpAddress b size len base = (pathFrom b size base (methodEnd b)).bind fun path =>
      (hostWith (skipBlanks b size) b size len).map fun host => (text path.2, text host) := by
  obtain ⟨hle, hblank, hletters⟩ := isWebRequest_spec hweb
  have hbefore : ∀ j < methodEnd b, b j ≠ 32 ∧ b j ≠ 0 := by
    intro j hlt
    obtain ⟨hnull, hupper⟩ := hletters j hlt
    refine ⟨fun hb => ?_, hnull⟩
    rw [hb] at hupper
    exact hupper rfl
  by_cases hzero : ZeroFrom b size 0
  · obtain ⟨z, -, hz, hnull⟩ := hzero
    have hbehind : methodEnd b ≤ z := by
      by_contra hlt
      exact (hbefore z (by omega)).2 hnull
    have hfirst := strstrBlank_of_first (Nat.zero_le _) ⟨z, hbehind, hz, hnull⟩
      (fun j _ hlt => hbefore j hlt) (.inl hblank)
    rw [httpAddress, hfirst, if_pos hblank, bind_some]
    rfl
  · have hnone : strstrBlank b size 0 = none :=
      Option.not_isSome_iff_eq_none.1 fun h => hzero (strstrBlank_isSome_iff.1 h)
    have hpath : pathFrom b size base (methodEnd b) = none :=
      Option.not_isSome_iff_eq_none.1 fun h => hzero (zeroFrom_of_pathFrom h)
    rw [httpAddress, hnone, hpath]
    rfl

theorem extractUrl_eq (hweb : isWebRequest b len = true) (hlen : 10 < len)
    (hint : len < 2 ^ 31) (hsize : len ≤ size) :
    extractUrl b size len base = (pathFrom b size base (methodEnd b)).bind fun path =>
      if path.1 > 0 then
        (hostWith (skipBlanksTo b size) b size len).map fun host =>
          ((text host).map tolower, text path.2)
      else some ([], []) := by
  obtain ⟨hle, hblank, hletters⟩ := isWebRequest_spec hweb
  have hfirst : strnistr b size 32 [] len 0 = some (some (methodEnd b)) := by
    have h := @strnistr_blank b size 0 len (methodEnd b) (by omega) (by omega)
      (by rwa [Nat.zero_add]) (by simpa using hletters)
    rwa [Nat.zero_add] at h
  have hsecond : strnistr b size 32 []
      ((((len : ℤ) - (methodEnd b + 2)) % 2 ^ 64).toNat) (methodEnd b) =
        some (some (methodEnd b)) := by
    have hslen : (((len : ℤ) - (methodEnd b + 2)) % 2 ^ 64).toNat = len - (methodEnd b + 2) := by
      rw [Int.emod_eq_of_lt (by omega) (by omega)]
      omega
    rw [hslen]
    exact @strnistr_blank b size (methodEnd b) _ 0 (by omega) (by omega) hblank
      fun j hj => by cases hj
  rw [extractUrl, hfirst, bind_some]
  dsimp only
  rw [hsecond, bind_some]
  rfl

theorem httpAddress_isSome_iff (hweb : isWebRequest b len = true) (hlen : 10 < len)
    (hsize : len ≤ size) : (httpAddress b size len base).isSome ↔
      PathInside b size base ∧ HostInside b size len := by
  rw [httpAddress_eq hweb, ← @pathFrom_isSome_iff b size base,
    ← hostWith_isSome_iff skipBlanks_skips (by omega) hsize False.elim]
  cases pathFrom b size base (methodEnd b) with
  | none => simp
  | some path => simp

theorem extractUrl_isSome_iff (hweb : isWebRequest b len = true) (hlen : 10 < len)
    (hint : len < 2 ^ 31) (hsize : len ≤ size) (hbound : HeaderInside b len ∨ len = size) :
    (extractUrl b size len base).isSome ↔
      PathInside b size base ∧ (PathMissing b size base ∨ HostInside b size len) := by
  have hpos : 0 < methodEnd b := by
    unfold methodEnd
    split_ifs <;> omega
  rw [extractUrl_eq hweb hlen hint hsize, ← @pathFrom_isSome_iff b size base,
    ← hostWith_isSome_iff skipBlanksTo_skips (by omega) hsize fun _ => hbound]
  cases hpath : pathFrom b size base (methodEnd b) with
  | none => simp
  | some path =>
    by_cases hmissing : PathMissing b size base
    · have hneg : ¬ path.1 > 0 := by simp [path_pos_iff hpos hpath, hmissing]
      simp [hneg, hmissing]
    · have hend : path.1 > 0 := (path_pos_iff hpos hpath).2 hmissing
      simp [hend, hmissing]

end Request

/-! ## The four functions -/

section Functions

variable [Kernel] {R : Type*}

/-- `https_match`, with `compiled_map`, or nothing when a byte outside is read. -/
def httpsMatchWithin (lib : RegexpLib R) (compiledMap : Option (StringMap R)) (priv : WeburlInfo)
    (b : ByteBuffer) (len : ℕ) : Option (Bool × Option (StringMap R)) :=
  (serverName b len).map fun name =>
    match name with
    | none => (false, compiledMap)
    | some raw => matchHost lib compiledMap priv (raw.map tolower)

/-- `extract_url_https`, or nothing when a byte outside is read. -/
def extractUrlHttpsWithin (b : ByteBuffer) (len : ℕ) : Option (List Char) :=
  (serverName b len).map fun name => (name.map (List.map tolower)).getD []

variable {lib : RegexpLib R} {compiledMap : Option (StringMap R)} {priv : WeburlInfo}
  {b : ByteBuffer} {len base : ℕ}

/-- The packets that are handed to the four functions and are not read outside. -/
theorem reads_inside_iff (hlen : 10 < len) (hint : len < 2 ^ 31) :
    (isWebRequest b len = true →
      ((httpMatch lib compiledMap priv b len len base).isSome ↔
        PathInside b len base ∧ HostInside b len len) ∧
      ((extractUrl b len len base).isSome ↔
        PathInside b len base ∧ (PathMissing b len base ∨ HostInside b len len))) ∧
    (isWebRequest b len = false →
      ((httpsMatchWithin lib compiledMap priv b len).isSome ↔ ClientHelloInside b len) ∧
      ((extractUrlHttpsWithin b len).isSome ↔ ClientHelloInside b len)) := by
  refine ⟨fun hweb => ⟨?_, extractUrl_isSome_iff hweb hlen hint le_rfl (.inr rfl)⟩,
    fun _ => ⟨?_, ?_⟩⟩
  · rw [httpMatch, isSome_map]
    exact httpAddress_isSome_iff hweb hlen le_rfl
  · rw [httpsMatchWithin, isSome_map]
    exact serverName_isSome_iff
  · rw [extractUrlHttpsWithin, isSome_map]
    exact serverName_isSome_iff

end Functions

section Packets

local instance packetKernel : Kernel := referenceKernel 64

def packetOf (s : String) : List UInt8 := s.toList.map chr

/-- A request with a zero byte in its body is read inside. -/
theorem zero_ended_request_inside :
    let p := packetOf "POST / HTTP/1.1\r\nHost: a.b\r\n\r\n" ++ [0]
    ∀ (R : Type) (lib : RegexpLib R) (priv : WeburlInfo) (base : ℕ),
      (httpMatch lib none priv (ofBytes p) p.length p.length base).isSome ∧
        (extractUrl (ofBytes p) p.length p.length base).isSome := by
  intro p R lib priv base
  have hpath : PathInside (ofBytes p) p.length base :=
    ⟨5, 6, ⟨by decide, by decide, by decide, by decide, by decide, by decide, by decide⟩,
      ⟨30, by decide, by decide, by decide⟩, fun hzero => absurd hzero (by decide)⟩
  have hhost : HostInside (ofBytes p) p.length p.length :=
    Or.inl ⟨27, by decide, by decide, by decide⟩
  obtain ⟨hmatch, hurl⟩ := (@reads_inside_iff _ R lib none priv (ofBytes p) p.length base
    (by decide) (by decide)).1 (by decide)
  exact ⟨hmatch.2 ⟨hpath, hhost⟩, hurl.2 ⟨hpath, Or.inr hhost⟩⟩

/-- A request without a zero byte, and a packet of 43 bytes, are not. -/
theorem plain_text_outside :
    let p := packetOf "GET / HTTP/1.1\r\nHost: a.b\r\n\r\n"
    let q := List.replicate 43 (22 : UInt8)
    isWebRequest (ofBytes p) p.length = true ∧ isWebRequest (ofBytes q) q.length = false ∧
      10 < p.length ∧ 10 < q.length ∧
      ∀ (R : Type) (lib : RegexpLib R) (priv : WeburlInfo) (base : ℕ),
        httpMatch lib none priv (ofBytes p) p.length p.length base = none ∧
          extractUrl (ofBytes p) p.length p.length base = none ∧
          httpsMatchWithin lib none priv (ofBytes q) q.length = none ∧
          extractUrlHttpsWithin (ofBytes q) q.length = none := by
  intro p q
  exact ⟨by decide, by decide, by decide, by decide, fun R lib priv base => ⟨rfl, rfl, rfl, rfl⟩⟩

end Packets

end Weburl

end Gargoyle
