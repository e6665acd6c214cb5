import Gargoyle.Ewget.Url

/-!
# The grammar of web addresses

An `Address` is an address by its parts: the protocol, a user and a password with codes, a host, a port
and a path. `parse_url` looks for the places where the parts end in all that is left of the address, so
that a character of one part may be taken for the end of another.
-/

namespace Gargoyle

open List

namespace Ewget

open CText Replace

/-! ## Codes -/

def decode : List UInt8 → Option (List UInt8)
  | [] => some []
  | x :: a :: b :: s =>
    if x = percent then
      match hexByte a b with
      | some y => (decode s).map (y :: ·)
      | none => none
    else (decode (a :: b :: s)).map (x :: ·)
  | x :: s => if x = percent then none else (decode s).map (x :: ·)

/-- A character other than `%`, or a code, with what it means. -/
def IsCodePiece (p : List UInt8 × UInt8) : Prop :=
  (p.1 = [p.2] ∧ p.2 ≠ percent) ∨ ∃ a b, p.1 = [percent, a, b] ∧ hexByte a b = some p.2

def HasPieces (u m : List UInt8) (ps : List (List UInt8 × UInt8)) : Prop :=
  (∀ p ∈ ps, IsCodePiece p) ∧ (ps.map Prod.fst).flatten = u ∧ ps.map Prod.snd = m

theorem HasPieces.cons {u m : List UInt8} {ps : List (List UInt8 × UInt8)} (h : HasPieces u m ps)
    {p : List UInt8 × UInt8} (hp : IsCodePiece p) :
    HasPieces (p.1 ++ u) (p.2 :: m) (p :: ps) := by
  obtain ⟨hps, rfl, rfl⟩ := h
  exact ⟨List.forall_mem_cons.2 ⟨hp, hps⟩, rfl, rfl⟩

theorem exists_pieces {u m : List UInt8} (h : decode u = some m) : ∃ ps, HasPieces u m ps := by
  fun_induction decode u generalizing m with
  | case1 => exact ⟨[], by simp, rfl, Option.some.inj h⟩
  | case2 a b s y hy ih =>
    obtain ⟨m, hm, rfl⟩ := Option.map_eq_some_iff.1 h
    obtain ⟨ps, hps⟩ := ih hm
    exact ⟨_, hps.cons (p := ([percent, a, b], y)) (Or.inr ⟨a, b, rfl, hy⟩)⟩
  | case3 a b s hnone => cases h
  | case4 x a b s hx ih =>
    obtain ⟨m, hm, rfl⟩ := Option.map_eq_some_iff.1 h
    obtain ⟨ps, hps⟩ := ih hm
    exact ⟨_, hps.cons (p := ([x], x)) (Or.inl ⟨rfl, hx⟩)⟩
  | case5 => cases h
  | case6 x s hshort hx ih =>
    obtain ⟨m, hm, rfl⟩ := Option.map_eq_some_iff.1 h
    obtain ⟨ps, hps⟩ := ih hm
    exact ⟨_, hps.cons (p := ([x], x)) (Or.inl ⟨rfl, hx⟩)⟩

def rendered (done : List (List UInt8)) (ps : List (List UInt8 × UInt8)) : List UInt8 :=
  (ps.map fun p => if p.1 ∈ done then charText p.2 else p.1).flatten

theorem rendered_cons (done : List (List UInt8)) (p : List UInt8 × UInt8)
    (ps : List (List UInt8 × UInt8)) :
    rendered done (p :: ps) = (if p.1 ∈ done then charText p.2 else p.1) ++ rendered done ps := rfl

/-- Codes of other characters than `%`. -/
def AreCodes (done : List (List UInt8)) : Prop :=
  ∀ c ∈ done, ∃ a b y, c = [percent, a, b] ∧ hexByte a b = some y ∧ y ≠ percent

theorem hexValue_percent : hexValue percent = none := by decide

theorem isPiece_code {a b y : UInt8} (h : hexByte a b = some y) :
    IsPiece percent 2 [percent, a, b] := by
  refine .inr ⟨[a, b], rfl, rfl, ?_⟩
  intro hmem
  rw [mem_cons, mem_singleton] at hmem
  rw [hexByte] at h
  rcases hmem with rfl | rfl
  · rw [hexValue_percent] at h
    cases h
  · rw [hexValue_percent] at h
    split at h
    · rename_i hnone
      cases hnone
    · cases h

theorem percent_notMem_charText {y : UInt8} (hy : y ≠ percent) : percent ∉ charText y := by
  rw [charText]
  split_ifs
  · exact not_mem_nil
  · rw [mem_singleton]
    exact Ne.symm hy

/-- All codes of one character are replaced at once. -/
theorem replaceAll_rendered {done : List (List UInt8)} (hdone : AreCodes done)
    {ps : List (List UInt8 × UInt8)} (hps : ∀ p ∈ ps, IsCodePiece p) {a b y : UInt8}
    (h : hexByte a b = some y) :
    replaceAll [percent, a, b] (charText y) (rendered done ps) =
      rendered ([percent, a, b] :: done) ps := by
  induction ps with
  | nil => rfl
  | cons p ps ih =>
    have hrest := ih fun q hq => hps q (mem_cons_of_mem p hq)
    rw [rendered_cons, rendered_cons, ← hrest]
    by_cases hmem : p.1 ∈ done
    · obtain ⟨a', b', y', hcode, hbyte, hne⟩ := hdone p.1 hmem
      have hvalue : p.2 = y' := by
        rcases hps p mem_cons_self with ⟨hplain, -⟩ | ⟨a'', b'', hp, hbyte'⟩
        · rw [hplain] at hcode
          exact absurd hcode (by simp)
        · rw [hp] at hcode
          simp only [List.cons.injEq, and_true, true_and] at hcode
          rw [hcode.1, hcode.2, hbyte, Option.some.injEq] at hbyte'
          exact hbyte'.symm
      rw [if_pos hmem, if_pos (mem_cons_of_mem _ hmem), hvalue]
      exact replaceAll_append_of_notMem (percent_notMem_charText hne) _ _
    · rw [if_neg hmem]
      rcases hps p mem_cons_self with ⟨hplain, hne⟩ | ⟨a', b', hp, hbyte⟩
      · have hother : p.1 ∉ [percent, a, b] :: done := by
          rw [mem_cons, not_or]
          exact ⟨by rw [hplain]; simp, hmem⟩
        have hpiece : IsPiece percent 2 p.1 := Or.inl ⟨p.2, hne, hplain⟩
        have hreplace := @replaceAll_piece_append _ _ percent [a, b] p.1 hpiece (charText y)
          (rendered done ps)
        rw [if_neg (fun heq => hother (by rw [heq]; exact mem_cons_self))] at hreplace
        rw [if_neg hother, hreplace]
      · have hpiece := isPiece_code hbyte
        rw [← hp] at hpiece
        have hreplace := @replaceAll_piece_append _ _ percent [a, b] p.1 hpiece (charText y)
          (rendered done ps)
        rw [hreplace]
        by_cases hcode : p.1 = [percent, a, b]
        · have hvalue : p.2 = y := by
            rw [hp] at hcode
            simp only [List.cons.injEq, and_true, true_and] at hcode
            rw [hcode.1, hcode.2, h, Option.some.injEq] at hbyte
            exact hbyte.symm
          rw [if_pos hcode, hcode, if_pos mem_cons_self, hvalue]
        · have hother : p.1 ∉ [percent, a, b] :: done := by
            rw [mem_cons, not_or]
            exact ⟨hcode, hmem⟩
          rw [if_neg hcode, if_neg hother]

theorem unescapeLoop_rendered {ps qs : List (List UInt8 × UInt8)} (hps : ∀ p ∈ ps, IsCodePiece p)
    (hqs : ∀ q ∈ qs, IsCodePiece q) {done : List (List UInt8)} (hdone : AreCodes done) :
    ∃ done', AreCodes done' ∧ done ⊆ done' ∧
      (∀ q ∈ qs, q.1 ≠ [q.2] → q.2 ≠ percent → q.1 ∈ done') ∧
      unescapeLoop (qs.map Prod.fst).flatten (rendered done ps) = some (rendered done' ps) := by
  induction qs generalizing done with
  | nil => exact ⟨done, hdone, List.Subset.refl _, by simp, rfl⟩
  | cons q qs ih =>
    have hrest := fun q hq => hqs q (mem_cons_of_mem _ hq)
    rw [map_cons, flatten_cons]
    rcases hqs q mem_cons_self with ⟨hplain, hne⟩ | ⟨a, b, hq, hbyte⟩
    · obtain ⟨done', hcodes, hsubset, hall, hloop⟩ := ih hrest hdone
      refine ⟨done', hcodes, hsubset, ?_, ?_⟩
      · rw [forall_mem_cons]
        exact ⟨fun h => absurd hplain h, hall⟩
      · rw [hplain, singleton_append, unescapeLoop_cons hne, hloop]
    · rw [hq]
      simp only [cons_append, nil_append]
      rw [unescapeLoop_code hbyte]
      by_cases hpercent : q.2 = percent
      · obtain ⟨done', hcodes, hsubset, hall, hloop⟩ := ih hrest hdone
        refine ⟨done', hcodes, hsubset, ?_, ?_⟩
        · rw [forall_mem_cons]
          exact ⟨fun _ h => absurd hpercent h, hall⟩
        · rw [if_pos hpercent, hloop]
      · have hmore : AreCodes ([percent, a, b] :: done) := by
          refine List.forall_mem_cons.2 ⟨⟨a, b, q.2, rfl, hbyte, hpercent⟩, hdone⟩
        obtain ⟨done', hcodes, hsubset, hall, hloop⟩ := ih hrest hmore
        rw [cons_subset] at hsubset
        refine ⟨done', hcodes, hsubset.2, ?_, ?_⟩
        · rw [forall_mem_cons]
          exact ⟨fun _ _ => by rw [hq]; exact hsubset.1, hall⟩
        · rw [if_neg hpercent, replaceAll_rendered hdone hps hbyte, hloop]

theorem byte_of_forall_lt {p : UInt8 → Prop} (h : ∀ n < 256, p n.toUInt8) (x : UInt8) : p x := by
  have hx := h x.toNat x.toNat_lt
  rwa [Nat.toUInt8, UInt8.ofNat_toNat] at hx

theorem hexValue_spec (x : UInt8) :
    (∀ y ∈ hexValue x, y.toNat < 16) ∧ (hexValue x = some 2 → x = 50) ∧
      (hexValue x = some 5 → x = 53) := by
  obtain ⟨hsmall, hdigits⟩ := byte_of_forall_lt (p := fun x =>
    (hexValue x).all (·.toNat < 16) = true ∧
      (hexValue x = some 2 → x = 50) ∧ (hexValue x = some 5 → x = 53)) (by decide +kernel) x
  exact ⟨fun y hy => of_decide_eq_true ((Option.all_eq_true ..).1 hsmall y hy), hdigits⟩

theorem hexByte_eq_percent {a b : UInt8} (h : hexByte a b = some percent) : a = 50 ∧ b = 53 := by
  obtain ⟨hla, htwo, -⟩ := hexValue_spec a
  obtain ⟨hlb, -, hfive⟩ := hexValue_spec b
  rw [hexByte] at h
  split at h
  · rename_i x y hx hy
    have hxlt := hla x hx
    have hylt := hlb y hy
    have hnat := congrArg UInt8.toNat (Option.some.inj h)
    rw [UInt8.toNat_add, UInt8.toNat_mul] at hnat
    have hvalue : (16 : UInt8).toNat = 16 ∧ percent.toNat = 37 := ⟨rfl, rfl⟩
    rw [hvalue.1, hvalue.2] at hnat
    have hx2 : x = 2 := UInt8.toNat_inj.1 (show x.toNat = 2 by omega)
    have hy5 : y = 5 := UInt8.toNat_inj.1 (show y.toNat = 5 by omega)
    exact ⟨htwo (by rw [hx, hx2]), hfive (by rw [hy, hy5])⟩
  · cases h

/-- A text is unescaped as it is meant, without its zeros. -/
theorem httpUnescape_of_decode {u m : List UInt8} (h : decode u = some m) (hzero : 0 ∉ u) :
    httpUnescape u = some (m.filter (· ≠ 0)) := by
  obtain ⟨ps, hps, rfl, rfl⟩ := exists_pieces h
  have hcodes : AreCodes [] := by
    intro c hc
    cases hc
  obtain ⟨done, hdone, -, hall, hloop⟩ := unescapeLoop_rendered hps hps hcodes
  have hstart : rendered [] ps = (ps.map Prod.fst).flatten := by
    rw [rendered]
    congr 1
  have hlast : hexByte 50 53 = some percent := by decide
  have hmarker := replaceAll_rendered hdone hps hlast
  have hchar : charText percent = [percent] := by decide
  rw [hchar] at hmarker
  rw [hstart] at hloop
  have hcode : bytes "%25" = [percent, 50, 53] := by decide
  have hpiece : ∀ p ∈ ps, (if p.1 ∈ [percent, 50, 53] :: done then charText p.2 else p.1) =
      [p.2].filter (· ≠ 0) := by
    intro p hp
    have hchars : charText p.2 = [p.2].filter (· ≠ 0) := by
      rw [charText, filter_singleton]
      by_cases hnull : p.2 = 0 <;> simp [hnull]
    split_ifs with hmem
    · exact hchars
    · rw [mem_cons, not_or] at hmem
      have hplain : p.1 = [p.2] := by
        rcases hps p hp with ⟨hplain, -⟩ | ⟨a, b, hp', hbyte⟩
        · exact hplain
        · by_cases hpercent : p.2 = percent
          · rw [hpercent] at hbyte
            obtain ⟨rfl, rfl⟩ := hexByte_eq_percent hbyte
            exact absurd hp' hmem.1
          · exact absurd (hall p hp (by rw [hp']; simp) hpercent) hmem.2
      have hnull : p.2 ≠ 0 := by
        intro hnull
        refine hzero (List.mem_flatten.2 ⟨p.1, mem_map_of_mem hp, ?_⟩)
        rw [hplain, hnull]
        exact mem_singleton_self _
      rw [hplain, ← hchars, charText, if_neg hnull]
  rw [httpUnescape, hloop, Option.map_some, hcode, hmarker, Option.some.injEq, rendered,
    map_congr_left hpiece]
  clear hzero hloop hstart hmarker hall hpiece hps h
  induction ps with
  | nil => rfl
  | cons p ps ih =>
    rw [map_cons, flatten_cons, ih, map_cons, ← filter_append,
      singleton_append]

/-! ## Addresses by their parts -/

structure CodedText where
  text : List UInt8
  meaning : List UInt8
  decode_eq : decode text = some meaning
  plain : ∀ x ∈ text, x ≠ 0 ∧ x ∉ bytes "/:@"

def portValue (digits : List UInt8) : ℕ :=
  Numerals.numeralValue 10 (digits.map fun x => Char.ofNat x.toNat)

structure Address where
  secure : Bool
  scheme : List UInt8
  scheme_eq : scheme.map tolower = if secure then bytes "https://" else bytes "http://"
  credentials : Option (CodedText × Option CodedText)
  bracketed : Bool
  host : List UInt8
  host_plain : ∀ x ∈ host,
    x ≠ 0 ∧ x ∉ escapeCharsV6 ∧ x ∉ bytes "/@[]" ∧ (bracketed = false → x ≠ 58)
  port : Option (List UInt8)
  port_digits : ∀ digits ∈ port, digits ≠ [] ∧ digits.length ≤ 5 ∧
    (∀ x ∈ digits, 48 ≤ x ∧ x ≤ 57) ∧ portValue digits ≤ 65535
  path : List UInt8
  path_start : path ≠ [] → path.head? = some 47
  path_plain : 0 ∉ path

namespace Address

variable (a : Address)

def credentialsText : List UInt8 :=
  match a.credentials with
  | none => []
  | some (user, none) => user.text ++ [64]
  | some (user, some password) => user.text ++ 58 :: (password.text ++ [64])

def hostText : List UInt8 := if a.bracketed then 91 :: (a.host ++ [93]) else a.host

def portText : List UInt8 := (a.port.map (58 :: ·)).getD []

def serverText : List UInt8 := a.hostText ++ a.portText ++ a.path

def text : List UInt8 := a.scheme ++ (a.credentialsText ++ a.serverText)

def escapePath (path : List UInt8) : List UInt8 :=
  path.flatMap fun x =>
    if x ∈ escapeChars then [percent, hexDigitUpper (x.toNat / 16), hexDigitUpper (x.toNat % 16)]
    else [x]

def request (userAgent : Option (List UInt8)) (family : ℤ) : UrlRequest where
  protocol := if a.secure then .https else .http
  user := a.credentials.map (·.1.meaning)
  password := a.credentials.bind fun c => c.2.map CodedText.meaning
  hostname := some a.host
  port := match a.port with
    | some digits => portValue digits
    | none => if a.secure then 443 else 80
  path := some (if a.path = [] then [47] else escapePath a.path)
  userAgent := userAgent.getD (bytes "ewget 1.0")
  family := family

/-- What may go wrong: a closing bracket of the path is taken for the end of an address in brackets,
blanks that are not printed have codes of one digit, and the zero is not in any text. -/
def PartsFound : Prop :=
  (a.bracketed = false → a.port.isSome → 93 ∉ a.path) ∧ (∀ x ∈ a.path, x ∉ bytes "\n\r\t") ∧
    ∀ c ∈ a.credentials, 0 ∉ c.1.meaning ∧ ∀ password ∈ c.2, 0 ∉ password.meaning

end Address

section Parse

variable (a : Address)

theorem splitProtocol_address :
    splitProtocol a.text = some (if a.secure then .https else .http,
      if a.secure then 443 else 80, a.credentialsText ++ a.serverText) := by
  have hlength := congrArg List.length a.scheme_eq
  rw [length_map] at hlength
  rw [splitProtocol, Address.text, map_append]
  simp only [a.scheme_eq]
  cases hsecure : a.secure with
  | false =>
    simp only [hsecure, Bool.false_eq_true, if_false] at hlength ⊢
    have hseven : a.scheme.length = 7 := hlength.trans (by decide)
    rw [if_pos ( strstr_of_prefix (prefix_append _ _)), drop_left' hseven]
  | true =>
    simp only [hsecure, if_true] at hlength ⊢
    have hhttp : strstr (bytes "http://")
        (bytes "https://" ++ (a.credentialsText ++ a.serverText).map tolower) ≠ some 0 := by
      intro hzero
      have hcut := (prefix_append_right_inj (bytes "http")).1 (strstr_spec hzero)
      exact absurd (List.cons_prefix_cons.1 hcut).1 (by decide)
    have height : a.scheme.length = 8 := hlength.trans (by decide)
    rw [if_neg hhttp, if_pos ( strstr_of_prefix (prefix_append _ _)), drop_left' height]

theorem digit_ne {x : UInt8} (h : 48 ≤ x ∧ x ≤ 57) :
    x ≠ 47 ∧ x ≠ 58 ∧ x ≠ 64 ∧ x ≠ 91 ∧ x ≠ 93 ∧ x ∉ escapeCharsV6 ∧
      (Char.ofNat x.toNat).isDigit = true := by
  revert h
  exact byte_of_forall_lt (p := fun x => 48 ≤ x ∧ x ≤ 57 →
    x ≠ 47 ∧ x ≠ 58 ∧ x ≠ 64 ∧ x ≠ 91 ∧ x ≠ 93 ∧ x ∉ escapeCharsV6 ∧
      (Char.ofNat x.toNat).isDigit = true) (by decide +kernel) x

theorem notMem_host {c : UInt8} (hc : c ∈ bytes "/@[]") : c ∉ a.host :=
  fun hmem => (a.host_plain c hmem).2.2.1 hc

theorem mem_portText {x : UInt8} (h : x ∈ a.portText) : x = 58 ∨ 48 ≤ x ∧ x ≤ 57 := by
  rw [Address.portText] at h
  cases hport : a.port with
  | none =>
    rw [hport] at h
    cases h
  | some digits =>
    rw [hport, Option.map_some, Option.getD_some, mem_cons] at h
    exact h.imp_right ((a.port_digits digits hport).2.2.1 x)

theorem notMem_portText {c : UInt8} (hc : c = 47 ∨ c = 64 ∨ c = 91 ∨ c = 93) : c ∉ a.portText := by
  intro hmem
  rcases mem_portText a hmem with rfl | hdigit
  · revert hc
    decide
  · obtain ⟨h47, -, h64, h91, h93, -, -⟩ := digit_ne hdigit
    rcases hc with rfl | rfl | rfl | rfl
    · exact h47 rfl
    · exact h64 rfl
    · exact h91 rfl
    · exact h93 rfl

theorem notMem_serverStart {c : UInt8} (hc : c = 47 ∨ c = 64) : c ∉ a.hostText ++ a.portText := by
  rw [mem_append, not_or]
  refine ⟨?_, notMem_portText a (by tauto)⟩
  rw [Address.hostText]
  have hhost : c ∉ a.host := notMem_host a (by rcases hc with rfl | rfl <;> decide)
  split_ifs
  · rw [mem_cons, mem_append, mem_singleton, not_or, not_or]
    exact ⟨by rcases hc with rfl | rfl <;> decide, hhost, by rcases hc with rfl | rfl <;> decide⟩
  · exact hhost

theorem pathBegin_serverText : pathBegin a.serverText = (a.hostText ++ a.portText).length := by
  have hslash := notMem_serverStart a (Or.inl rfl)
  rw [pathBegin, Address.serverText]
  cases hpath : a.path with
  | nil => rw [List.append_nil, strchr_of_notMem hslash, Option.getD_none]
  | cons x path =>
    have hstart := a.path_start (by rw [hpath]; exact cons_ne_nil x path)
    rw [hpath, head?_cons, Option.some.injEq] at hstart
    rw [hstart, strchr_append_cons hslash, Option.getD_some]

theorem CodedText.notMem (t : CodedText) {c : UInt8} (hc : c = 0 ∨ c ∈ bytes "/:@") : c ∉ t.text := by
  intro hmem
  rcases hc with rfl | hc
  · exact (t.plain 0 hmem).1 rfl
  · exact (t.plain c hmem).2 hc

theorem CodedText.httpUnescape_eq (t : CodedText) :
    httpUnescape t.text = some (t.meaning.filter (· ≠ 0)) :=
  httpUnescape_of_decode t.decode_eq (t.notMem (Or.inl rfl))

theorem splitCredentials_none (h : a.credentials = none) :
    splitCredentials (a.credentialsText ++ a.serverText) = some (none, none, a.serverText) := by
  have hat := notMem_serverStart a (Or.inr rfl)
  rw [Address.credentialsText, h, nil_append, splitCredentials]
  split
  · rfl
  · rename_i i hi
    have hle := le_of_strchr hat (by rwa [Address.serverText] at hi)
    rw [if_neg (by rw [pathBegin_serverText]; omega)]

theorem splitCredentials_user {user : CodedText} (h : a.credentials = some (user, none)) :
    splitCredentials (a.credentialsText ++ a.serverText) =
      some (some (user.meaning.filter (· ≠ 0)), none, a.serverText) := by
  have hcut : a.credentialsText ++ a.serverText = user.text ++ 64 :: a.serverText := by
    rw [Address.credentialsText, h]
    exact append_assoc _ _ _
  have hat : strchr 64 (user.text ++ 64 :: a.serverText) = some user.text.length :=
    strchr_append_cons (user.notMem (by decide)) _
  have hslash := lt_pathBegin (user.notMem (c := 47) (by decide)) (by decide : (64 : UInt8) ≠ 47)
    a.serverText
  have hdrop : (user.text ++ 64 :: a.serverText).drop (user.text.length + 1) = a.serverText := by
    rw [append_cons]
    exact drop_left' (by rw [length_append, length_singleton])
  rw [hcut]
  cases hcolon : strchr 58 (user.text ++ 64 :: a.serverText) with
  | none =>
    simp only [splitCredentials, hat, hcolon, hslash, if_true, take_left,
      user.httpUnescape_eq, ne_eq, not_true_eq_false, if_false, hdrop]
  | some i =>
    have hle := le_of_strchr (user.notMem (c := 58) (by decide)) hcolon
    simp only [splitCredentials, hat, hcolon, hslash, if_true, if_neg (Nat.not_lt.2 hle),
      take_left, user.httpUnescape_eq, ne_eq, not_true_eq_false, if_false, hdrop]

/-- The credentials of an address are split off and unescaped. -/
theorem splitCredentials_password {user password : CodedText}
    (h : a.credentials = some (user, some password)) :
    splitCredentials (a.credentialsText ++ a.serverText) =
      some (some (user.meaning.filter (· ≠ 0)), some (password.meaning.filter (· ≠ 0)),
        a.serverText) := by
  have hlength : (user.text ++ 58 :: password.text).length =
      user.text.length + 1 + password.text.length := by
    rw [length_append, length_cons]
    omega
  have hcut : a.credentialsText ++ a.serverText =
      (user.text ++ 58 :: password.text) ++ 64 :: a.serverText := by
    rw [Address.credentialsText, h]
    simp
  have hnotMem : ∀ c : UInt8, c = 47 ∨ c = 64 → c ∉ user.text ++ 58 :: password.text := by
    intro c hc
    have hend : c = 0 ∨ c ∈ bytes "/:@" := Or.inr (by rcases hc with rfl | rfl <;> decide)
    have hother : c ≠ 58 := by rcases hc with rfl | rfl <;> decide
    rw [mem_append, mem_cons, not_or, not_or]
    exact ⟨user.notMem hend, hother, password.notMem hend⟩
  have hat := strchr_append_cons (hnotMem 64 (Or.inr rfl)) a.serverText
  have hslash := lt_pathBegin (hnotMem 47 (Or.inl rfl)) (by decide : (64 : UInt8) ≠ 47) a.serverText
  have hcolon : strchr 58 ((user.text ++ 58 :: password.text) ++ 64 :: a.serverText) =
      some user.text.length := by
    rw [append_assoc, cons_append]
    exact strchr_append_cons (user.notMem (by decide)) _
  have huser : ((user.text ++ 58 :: password.text) ++ 64 :: a.serverText).take user.text.length =
      user.text := by
    rw [append_assoc, take_left]
  have hpassword : (((user.text ++ 58 :: password.text) ++ 64 :: a.serverText).drop
      (user.text.length + 1)).take (user.text.length + 1 + password.text.length -
        user.text.length - 1) = password.text := by
    have hdrop : ((user.text ++ 58 :: password.text) ++ 64 :: a.serverText).drop
        (user.text.length + 1) = password.text ++ 64 :: a.serverText := by
      simp [drop_append]
    have hsub : user.text.length + 1 + password.text.length - user.text.length - 1 =
        password.text.length := by omega
    rw [hdrop, hsub, take_left]
  have hrest : ((user.text ++ 58 :: password.text) ++ 64 :: a.serverText).drop
      (user.text.length + 1 + password.text.length + 1) = a.serverText := by
    rw [append_cons]
    exact drop_left' (by rw [length_append, hlength, length_singleton])
  have hlt : user.text.length < user.text.length + 1 + password.text.length := by omega
  rw [hlength] at hat hslash
  rw [hcut]
  simp only [splitCredentials, hat, hcolon, hslash, if_true, if_pos hlt, huser,
    user.httpUnescape_eq, ne_eq, hlt.ne, not_false_eq_true, hpassword, password.httpUnescape_eq,
    hrest]

theorem splitCredentials_address :
    splitCredentials (a.credentialsText ++ a.serverText) =
      some (a.credentials.map fun c => c.1.meaning.filter (· ≠ 0),
        a.credentials.bind fun c => c.2.map fun password => password.meaning.filter (· ≠ 0),
        a.serverText) := by
  cases h : a.credentials with
  | none => exact splitCredentials_none a h
  | some c =>
    obtain ⟨user, password⟩ := c
    cases password with
    | none => exact splitCredentials_user a h
    | some password => exact splitCredentials_password a h

theorem portBegin_of_le {r : List UInt8} {pathBegin offset : ℕ} {found : Option ℕ}
    (h : ∀ i, strchr 58 (r.drop offset) = some i → pathBegin ≤ offset + i) :
    portBegin r pathBegin offset found = found := by
  rw [portBegin]
  split_ifs with hlt
  · split
    · rfl
    · rename_i i hi
      have hle := h i hi
      rw [if_neg (by omega)]
  · rfl

theorem portBegin_colon {r z digits path : List UInt8} {pathBegin offset : ℕ} {found : Option ℕ}
    (hr : r.drop offset = z ++ 58 :: (digits ++ path)) (hz : 58 ∉ z) (hdigits : 58 ∉ digits)
    (hpath : pathBegin = offset + z.length + 1 + digits.length) :
    portBegin r pathBegin offset found = some (offset + z.length) := by
  have hdrop : r.drop (offset + z.length + 1) = digits ++ path := by
    rw [Nat.add_assoc, ← drop_drop, hr, append_cons]
    exact drop_left' (by rw [length_append, length_singleton])
  have hcolon : strchr 58 (r.drop offset) = some z.length := by
    rw [hr]
    exact strchr_append_cons hz _
  have hrest : portBegin r pathBegin (offset + z.length + 1) (some (offset + z.length)) =
      some (offset + z.length) := by
    refine portBegin_of_le ?_
    intro i hi
    rw [hdrop] at hi
    have hle := le_of_strchr hdigits hi
    omega
  rw [portBegin, if_pos (by omega)]
  simp only [hcolon]
  rw [if_pos (by omega), hrest]

theorem serverText_of_name (h : a.bracketed = false) :
    a.serverText = a.host ++ (a.portText ++ a.path) := by
  rw [Address.serverText, Address.hostText, h, if_neg Bool.false_ne_true, append_assoc]

theorem serverText_of_bracketed (h : a.bracketed = true) :
    a.serverText = 91 :: a.host ++ 93 :: (a.portText ++ a.path) := by
  rw [Address.serverText, Address.hostText, h, if_pos rfl]
  simp

theorem colon_notMem_name (h : a.bracketed = false) : 58 ∉ a.host :=
  fun hmem => (a.host_plain 58 hmem).2.2.2 h rfl

def portFound : Option ℕ :=
  if a.bracketed = false ∧ 93 ∈ a.path then none else a.port.map fun _ => a.hostText.length

theorem portBegin_behind {z : List UInt8} {offset : ℕ}
    (hdrop : a.serverText.drop offset = z ++ (a.portText ++ a.path)) (hz : 58 ∉ z)
    (hoffset : offset + z.length = a.hostText.length) :
    portBegin a.serverText (pathBegin a.serverText) offset none =
      a.port.map fun _ => a.hostText.length := by
  rw [pathBegin_serverText, length_append, ← hoffset]
  cases hport : a.port with
  | none =>
    have hnone : a.portText = [] := by
      rw [Address.portText, hport]
      rfl
    rw [hnone, nil_append] at hdrop
    rw [hnone, Option.map_none]
    refine portBegin_of_le ?_
    intro i hi
    rw [hdrop] at hi
    have hle := le_of_strchr hz hi
    rw [length_nil]
    omega
  | some digits =>
    have hsome : a.portText = 58 :: digits := by
      rw [Address.portText, hport]
      rfl
    have hdigits : 58 ∉ digits := fun hmem =>
      (digit_ne ((a.port_digits digits hport).2.2.1 58 hmem)).2.1 rfl
    rw [hsome, cons_append] at hdrop
    rw [hsome, Option.map_some]
    exact portBegin_colon hdrop hz hdigits (by rw [length_cons]; omega)

theorem portBegin_none (h : strchr 93 a.serverText = none) :
    portBegin a.serverText (pathBegin a.serverText) 0 none = portFound a := by
  have hbracket : 93 ∉ a.serverText := by
    intro hmem
    rw [strchr, findIdx?_eq_none_iff] at h
    exact absurd (h 93 hmem) (by simp)
  have hname : a.bracketed = false := by
    by_contra hbracketed
    rw [Bool.not_eq_false] at hbracketed
    rw [serverText_of_bracketed a hbracketed] at hbracket
    exact hbracket (mem_append_right _ mem_cons_self)
  have hserver := serverText_of_name a hname
  have hhost : a.hostText = a.host := by rw [Address.hostText, hname, if_neg Bool.false_ne_true]
  rw [portFound, if_neg]
  · exact portBegin_behind a (by rw [drop_zero, hserver]) (colon_notMem_name a hname)
      (by rw [hhost, Nat.zero_add])
  · rintro ⟨-, hpath⟩
    rw [hserver] at hbracket
    exact hbracket (mem_append_right _ (mem_append_right _ hpath))

/-- A bracket behind the host makes the port start there. -/
theorem portBegin_some {i : ℕ} (h : strchr 93 a.serverText = some i) :
    portBegin a.serverText (pathBegin a.serverText) (i + 1) none = portFound a := by
  cases hbracketed : a.bracketed with
  | true =>
    have hserver := serverText_of_bracketed a hbracketed
    have hopen : (93 : UInt8) ∉ 91 :: a.host := by
      rw [mem_cons, not_or]
      exact ⟨by decide, notMem_host a (by decide)⟩
    have hhost : a.hostText = 91 :: a.host ++ [93] := by
      rw [Address.hostText, hbracketed, if_pos rfl]
      rfl
    have hplace := strchr_append_cons hopen (a.portText ++ a.path)
    rw [← hserver, h, Option.some.injEq] at hplace
    have hlength : i + 1 = a.hostText.length := by
      rw [hplace, hhost, length_append, length_singleton]
    rw [portFound, hbracketed, if_neg (fun h => Bool.false_ne_true h.1.symm)]
    refine portBegin_behind a (z := []) ?_ not_mem_nil hlength
    rw [hlength, Address.serverText, append_assoc, drop_left, nil_append]
  | false =>
    have hserver := serverText_of_name a hbracketed
    have hstart : 93 ∉ a.hostText ++ a.portText := by
      rw [mem_append, not_or, Address.hostText, hbracketed, if_neg Bool.false_ne_true]
      exact ⟨notMem_host a (by decide), notMem_portText a (by decide)⟩
    have hle := le_of_strchr hstart (by rwa [Address.serverText] at h)
    have hpath : 93 ∈ a.path := by
      have hmem : 93 ∈ a.serverText := by
        by_contra hno
        rw [strchr_of_notMem hno] at h
        cases h
      rw [Address.serverText, mem_append] at hmem
      exact hmem.resolve_left hstart
    rw [portFound, if_pos ⟨hbracketed, hpath⟩, portBegin, if_neg]
    rw [pathBegin_serverText]
    omega

theorem hostname_eq {s : List UInt8} (h : ∀ x ∈ s, x ∉ escapeCharsV6) :
    hostname s = (s.filter (· ≠ 91)).filter (· ≠ 93) := by
  have hreplace : ∀ (c : UInt8) (s : List UInt8), replaceAll [c] [] s = s.filter (· ≠ c) := by
    intro c s
    rw [replaceAll_singleton]
    induction s with
    | nil => rfl
    | cons x s ih =>
      rw [flatMap_cons, ih, filter_cons]
      by_cases hx : x = c <;> simp [hx]
  rw [hostname, hreplace, hreplace]
  refine escapeCharsToHex_of_forall ?_
  intro x hx
  exact h x (mem_of_mem_filter (mem_of_mem_filter hx))

theorem filter_of_notMem {c : UInt8} {s : List UInt8} (h : c ∉ s) : s.filter (· ≠ c) = s := by
  rw [List.filter_eq_self]
  intro x hx
  rw [decide_eq_true_iff]
  rintro rfl
  exact h hx

theorem host_notMem_escape {x : UInt8} (hx : x ∈ a.hostText) : x ∉ escapeCharsV6 := by
  rw [Address.hostText] at hx
  split_ifs at hx
  · rw [mem_cons, mem_append, mem_singleton] at hx
    rcases hx with rfl | hx | rfl
    · decide
    · exact (a.host_plain x hx).2.1
    · decide
  · exact (a.host_plain x hx).2.1

theorem hostname_hostText : hostname a.hostText = a.host := by
  have hopen := filter_of_notMem (notMem_host a (c := 91) (by decide))
  have hclose := filter_of_notMem (notMem_host a (c := 93) (by decide))
  rw [hostname_eq fun x hx => host_notMem_escape a hx, Address.hostText]
  split_ifs
  · rw [filter_cons_of_neg (by decide), filter_append, hopen,
      filter_cons_of_pos (by decide), filter_nil, filter_append, hclose,
      filter_cons_of_neg (by decide), filter_nil, List.append_nil]
  · rw [hopen, hclose]

theorem hostname_hostText_portText (h : a.bracketed = false) :
    hostname (a.hostText ++ a.portText) = a.host ++ a.portText := by
  have hhost : a.hostText = a.host := by rw [Address.hostText, h, if_neg Bool.false_ne_true]
  have hplain : ∀ x ∈ a.hostText ++ a.portText, x ∉ escapeCharsV6 := by
    intro x hx
    rcases List.mem_append.1 hx with hx | hx
    · exact host_notMem_escape a hx
    · rcases mem_portText a hx with rfl | hdigit
      · decide
      · exact (digit_ne hdigit).2.2.2.2.2.1
  have hno : ∀ c : UInt8, c = 91 ∨ c = 93 → c ∉ a.host ++ a.portText := by
    intro c hc
    rw [mem_append, not_or]
    exact ⟨notMem_host a (by rcases hc with rfl | rfl <;> decide), notMem_portText a (by tauto)⟩
  rw [hostname_eq hplain, hhost, filter_of_notMem (hno 91 (Or.inl rfl)),
    filter_of_notMem (hno 93 (Or.inr rfl))]

theorem readPort_digits {digits : List UInt8} (h : digits ∈ a.port) (port : ℤ) :
    readPort digits port = portValue digits := by
  obtain ⟨hne, hshort, hdigits, hvalue⟩ := a.port_digits digits h
  have hscan := @Signed.scanSigned_digits 32 (digits.map fun x => Char.ofNat x.toNat)
    (by simpa using hne) (by
      intro c hc
      obtain ⟨x, hx, rfl⟩ := List.mem_map.1 hc
      exact (digit_ne (hdigits x hx)).2.2.2.2.2.2)
  have hfit : Signed.fit 32 (portValue digits) = portValue digits :=
    Signed.fit_of_fits (by omega) (by omega)
  rw [← portValue, hfit] at hscan
  rw [readPort, if_pos hshort]
  simp only [hscan]
  rw [if_pos (by omega)]

/-- What `parse_url` finds. -/
def Address.found (userAgent : Option (List UInt8)) (family : ℤ) : UrlRequest :=
  { a.request userAgent family with
    user := a.credentials.map fun c => c.1.meaning.filter (· ≠ 0)
    password := a.credentials.bind fun c => c.2.map fun password => password.meaning.filter (· ≠ 0)
    hostname := some (if a.bracketed = false ∧ 93 ∈ a.path then a.host ++ a.portText else a.host)
    port := if a.bracketed = false ∧ 93 ∈ a.path then (if a.secure then 443 else 80)
      else (a.request userAgent family).port
    path := some (if a.path = [] then [47] else escapeCharsToHex a.path escapeChars) }

theorem drop_pathBegin : a.serverText.drop (pathBegin a.serverText) = a.path := by
  rw [pathBegin_serverText, Address.serverText, drop_left]

theorem take_pathBegin :
    a.serverText.take (pathBegin a.serverText) = a.hostText ++ a.portText := by
  rw [pathBegin_serverText, Address.serverText, take_left]

theorem port_between {digits : List UInt8} (h : a.port = some digits) :
    (a.serverText.drop (a.hostText.length + 1)).take
      (pathBegin a.serverText - a.hostText.length - 1) = digits := by
  have hport : a.portText = 58 :: digits := by
    rw [Address.portText, h]
    rfl
  have hdrop : a.serverText.drop (a.hostText.length + 1) = digits ++ a.path := by
    rw [Address.serverText, hport, append_assoc, ← drop_drop, drop_left]
    rfl
  have hlength : pathBegin a.serverText - a.hostText.length - 1 = digits.length := by
    rw [pathBegin_serverText, length_append, hport, length_cons]
    omega
  rw [hdrop, hlength, take_left]

theorem path_found :
    (if (escapeCharsToHex a.path escapeChars).head? = some 47 then
      escapeCharsToHex a.path escapeChars else [47]) =
      if a.path = [] then [47] else escapeCharsToHex a.path escapeChars := by
  by_cases hpath : a.path = []
  · rw [if_pos hpath, hpath]
    rfl
  · obtain ⟨x, path, hcons⟩ := exists_cons_of_ne_nil hpath
    have hstart := a.path_start hpath
    rw [hcons, head?_cons, Option.some.injEq] at hstart
    have hslash : (47 : UInt8) ∉ escapeChars := by decide
    rw [if_neg hpath, hcons, hstart, escapeCharsToHex, flatMap_cons, if_neg hslash]
    exact if_pos rfl

/-- What `parse_url` finds in the text of an address. -/
theorem parseUrl_text (userAgent : Option (List UInt8)) (family : ℤ) :
    parseUrl (some a.text) userAgent family = some (a.found userAgent family) := by
  rw [parseUrl, Option.map_some, splitProtocol_address]
  simp only [splitCredentials_address, drop_pathBegin, take_pathBegin, path_found]
  rw [Address.found]
  by_cases hbad : a.bracketed = false ∧ 93 ∈ a.path
  · have hfound : portFound a = none := if_pos hbad
    have hhost := hostname_hostText_portText a hbad.1
    rw [if_pos hbad, if_pos hbad]
    cases hb : strchr 93 a.serverText with
    | none => simp only [portBegin_none a hb, hfound, hhost]; rfl
    | some i => simp only [portBegin_some a hb, hfound, hhost]; rfl
  · have hfound : portFound a = a.port.map fun _ => a.hostText.length := if_neg hbad
    have htake : a.serverText.take a.hostText.length = a.hostText := by
      rw [Address.serverText, append_assoc, take_left]
    rw [if_neg hbad, if_neg hbad]
    cases hport : a.port with
    | none =>
      have hno : a.hostText ++ a.portText = a.hostText := by
        rw [Address.portText, hport]
        exact List.append_nil _
      rw [hport, Option.map_none] at hfound
      cases hb : strchr 93 a.serverText with
      | none => simp only [portBegin_none a hb, hfound, hno, hostname_hostText, Address.request, hport]
      | some i => simp only [portBegin_some a hb, hfound, hno, hostname_hostText, Address.request, hport]
    | some digits =>
      have hread : ∀ port, readPort digits port = portValue digits := readPort_digits a hport
      have hdigits := port_between a hport
      rw [hport, Option.map_some] at hfound
      cases hb : strchr 93 a.serverText with
      | none =>
        simp only [portBegin_none a hb, hfound, htake, hdigits, hread, hostname_hostText,
          Address.request, hport]
      | some i =>
        simp only [portBegin_some a hb, hfound, htake, hdigits, hread, hostname_hostText,
          Address.request, hport]

theorem escape_singleton (x : UInt8) :
    x ∉ bytes "\n\r\t" ∧ escapeCharsToHex [x] escapeChars = Address.escapePath [x] ∨
      x ∈ bytes "\n\r\t" ∧
        (escapeCharsToHex [x] escapeChars).length < (Address.escapePath [x]).length :=
  byte_of_forall_lt (p := fun x =>
    x ∉ bytes "\n\r\t" ∧ escapeCharsToHex [x] escapeChars = Address.escapePath [x] ∨
      x ∈ bytes "\n\r\t" ∧
        (escapeCharsToHex [x] escapeChars).length < (Address.escapePath [x]).length)
    (by decide +kernel) x

/-- A path without control characters is escaped, another one is not. -/
theorem escape_cases (path : List UInt8) :
    (∀ x ∈ path, x ∉ bytes "\n\r\t") ∧
        escapeCharsToHex path escapeChars = Address.escapePath path ∨
      (¬ ∀ x ∈ path, x ∉ bytes "\n\r\t") ∧
        (escapeCharsToHex path escapeChars).length < (Address.escapePath path).length := by
  induction path with
  | nil => exact .inl ⟨fun x hx => absurd hx not_mem_nil, rfl⟩
  | cons x path ih =>
    have hcode : escapeCharsToHex (x :: path) escapeChars =
        escapeCharsToHex [x] escapeChars ++ escapeCharsToHex path escapeChars :=
      @flatMap_append _ _ [x] path _
    have hpath : Address.escapePath (x :: path) =
        Address.escapePath [x] ++ Address.escapePath path := @flatMap_append _ _ [x] path _
    rw [hcode, hpath, length_append, length_append, forall_mem_cons]
    rcases escape_singleton x with ⟨hx, heq⟩ | ⟨hx, hlt⟩
    · rcases ih with ⟨hall, hrest⟩ | ⟨hsome, hlt⟩
      · exact .inl ⟨⟨hx, hall⟩, by rw [heq, hrest]⟩
      · refine .inr ⟨fun h => hsome h.2, ?_⟩
        rw [heq]
        omega
    · refine .inr ⟨fun h => h.1 hx, ?_⟩
      rcases ih with ⟨-, hrest⟩ | ⟨-, hlt'⟩
      · rw [hrest]
        omega
      · omega

theorem escapeCharsToHex_eq_iff (path : List UInt8) :
    escapeCharsToHex path escapeChars = Address.escapePath path ↔
      ∀ x ∈ path, x ∉ bytes "\n\r\t" := by
  rcases escape_cases path with ⟨hall, heq⟩ | ⟨hsome, hlt⟩
  · exact iff_of_true heq hall
  · refine iff_of_false ?_ hsome
    intro heq
    rw [heq] at hlt
    exact absurd hlt (lt_irrefl _)

theorem filter_eq_iff (s : List UInt8) : s.filter (· ≠ 0) = s ↔ 0 ∉ s := by
  rw [List.filter_eq_self]
  constructor
  · intro h hmem
    simpa using h 0 hmem
  · intro h x hx
    rw [decide_eq_true_iff]
    rintro rfl
    exact h hx

/-- When the host and the port are found. -/
theorem server_eq_iff (userAgent : Option (List UInt8)) (family : ℤ) :
    ((a.found userAgent family).hostname = (a.request userAgent family).hostname ∧
        (a.found userAgent family).port = (a.request userAgent family).port) ↔
      (a.bracketed = false → a.port.isSome → 93 ∉ a.path) := by
  simp only [Address.found]
  by_cases hbad : a.bracketed = false ∧ 93 ∈ a.path
  · rw [if_pos hbad, if_pos hbad]
    cases hport : a.port with
    | none =>
      have hno : a.host ++ a.portText = a.host := by
        rw [Address.portText, hport]
        exact List.append_nil _
      rw [hno]
      refine iff_of_true ⟨rfl, ?_⟩ (fun _ h => by cases h)
      simp only [Address.request, hport]
    | some digits =>
      refine iff_of_false ?_ (fun h => h hbad.1 rfl hbad.2)
      rintro ⟨hhost, -⟩
      have hlength := congrArg List.length (Option.some.inj hhost)
      have htext : a.portText = 58 :: digits := by
        rw [Address.portText, hport]
        rfl
      rw [length_append, htext, length_cons] at hlength
      omega
  · rw [if_neg hbad, if_neg hbad]
    exact iff_of_true ⟨rfl, rfl⟩ (fun hname _ hpath => hbad ⟨hname, hpath⟩)

theorem path_eq_iff (userAgent : Option (List UInt8)) (family : ℤ) :
    (a.found userAgent family).path = (a.request userAgent family).path ↔
      ∀ x ∈ a.path, x ∉ bytes "\n\r\t" := by
  simp only [Address.found, Address.request, Option.some.injEq]
  by_cases hnil : a.path = []
  · rw [if_pos hnil, if_pos hnil, hnil]
    exact iff_of_true rfl (fun x hx => absurd hx not_mem_nil)
  · rw [if_neg hnil, if_neg hnil, escapeCharsToHex_eq_iff]

theorem credentials_eq_iff (userAgent : Option (List UInt8)) (family : ℤ) :
    ((a.found userAgent family).user = (a.request userAgent family).user ∧
        (a.found userAgent family).password = (a.request userAgent family).password) ↔
      ∀ c ∈ a.credentials, 0 ∉ c.1.meaning ∧ ∀ password ∈ c.2, 0 ∉ password.meaning := by
  simp only [Address.found, Address.request]
  cases a.credentials with
  | none => simp
  | some c =>
    obtain ⟨user, password⟩ := c
    simp only [Option.map_some, Option.bind_some, Option.some.injEq, filter_eq_iff,
      Option.mem_def, forall_eq']
    cases password with
    | none => simp
    | some password => simp only [Option.map_some, Option.some.injEq, filter_eq_iff, forall_eq']

theorem found_eq_request_iff (userAgent : Option (List UInt8)) (family : ℤ) :
    a.found userAgent family = a.request userAgent family ↔ a.PartsFound := by
  rw [Address.PartsFound, ← server_eq_iff a userAgent family, ← path_eq_iff a userAgent family,
    ← credentials_eq_iff a userAgent family, UrlRequest.mk.injEq]
  constructor
  · rintro ⟨-, huser, hpassword, hhost, hport, hpath, -, -⟩
    exact ⟨⟨hhost, hport⟩, hpath, huser, hpassword⟩
  · rintro ⟨⟨hhost, hport⟩, hpath, huser, hpassword⟩
    exact ⟨rfl, huser, hpassword, hhost, hport, hpath, rfl, rfl⟩

end Parse

end Ewget

end Gargoyle
