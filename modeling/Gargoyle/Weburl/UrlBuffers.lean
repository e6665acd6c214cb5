import Gargoyle.Weburl.WholeRequest

/-!
# The buffers in which addresses are put together

The tests of a whole address put it together in `test_url`, which has 1250 bytes. A
host and a path are both cut at 624 bytes, so that with `http://` and the zero at the
end there may be six bytes too many. A first message has no path, and a path that is
put behind a host in a second step is a single slash.
-/

namespace Gargoyle

open List

namespace Weburl

open ByteBuffer TreeMap Bandwidth

/-- The size of `test_url`. -/
def testUrlSize : ℕ := 1250

/-! ## The pieces -/

theorem length_cString_le (xs : List UInt8) : (cString xs).length ≤ xs.length :=
  ( takeWhile_prefix _).length_le

theorem length_text (xs : List UInt8) : (text xs).length = xs.length := length_map _

theorem length_packetHost_le (p : List UInt8) : (packetHost p).length ≤ 624 := by
  unfold packetHost
  cases behind hostLabel (headerText p) with
  | none => exact Nat.zero_le _
  | some xs => exact (length_cString_le _).trans (length_take_le _ _)

theorem length_extensionLoop_le (b : ByteBuffer) (packetLimit packetPtr : ℕ) :
    (extensionLoop b packetLimit packetPtr).length ≤ 624 := by
  have hchars : ∀ off n, (readChars b off n).length ≤ n := by
    intro off n
    induction n generalizing off with
    | zero => exact le_rfl
    | succ n ih =>
      rw [readChars]
      split_ifs
      · exact Nat.zero_le _
      · exact Nat.succ_le_succ (ih _)
  fun_induction extensionLoop b packetLimit packetPtr with
  | case1 =>
    rename_i copied
    have hcopied : copied ≤ 624 := by
      simp only [copied]
      split_ifs <;> omega
    rw [length_map]
    exact (hchars _ _).trans hcopied
  | case2 => exact Nat.zero_le _
  | case3 _ _ _ _ _ ih => exact ih
  | case4 => exact Nat.zero_le _

theorem length_clientHelloHost_le {b : ByteBuffer} {len : ℕ} {host : List Char}
    (h : clientHelloHost b len = some host) : host.length ≤ 624 := by
  unfold clientHelloHost at h
  dsimp only at h
  split_ifs at h
  all_goals
    obtain rfl := Option.some.inj h
    exact length_extensionLoop_le _ _ _

section Urls

variable [Kernel] {R : Type*}

/-! ## The texts that are built -/

def testedTexts (lib : RegexpLib R) (priv : WeburlInfo) :
    List (List Char) → Option (StringMap R) → List (List Char)
  | [], _ => []
  | query :: queries, compiledMap =>
    let tested := doMatchTest lib compiledMap priv.matchType priv.testStr query
    query :: if tested.1 then [] else testedTexts lib priv queries tested.2

/-- The texts that `http_match` puts together for a test of the whole address. There are
none when it does not come to them because a byte behind the memory is read. -/
def httpTestUrls (lib : RegexpLib R) (compiledMap : Option (StringMap R)) (priv : WeburlInfo)
    (b : ByteBuffer) (size len base : ℕ) : List (List Char) :=
  match httpAddress b size len base with
  | none => []
  | some address => testedTexts lib priv (httpQueries .allPart address.2 address.1) compiledMap

/-- The texts that `https_match` puts together for a test of the whole address. -/
def httpsTestUrls (lib : RegexpLib R) (compiledMap : Option (StringMap R)) (priv : WeburlInfo)
    (b : ByteBuffer) (len : ℕ) : List (List Char) :=
  match clientHelloHost b len with
  | none => []
  | some host => testedTexts lib priv (httpsQueries .allPart host) compiledMap

section Fit

variable {lib : RegexpLib R} {compiledMap : Option (StringMap R)} {priv : WeburlInfo}

theorem testedTexts_subset {queries : List (List Char)} {query : List Char}
    (h : query ∈ testedTexts lib priv queries compiledMap) : query ∈ queries := by
  induction queries generalizing compiledMap with
  | nil => exact h
  | cons q queries ih =>
    rcases List.mem_cons.1 h with rfl | hrest
    · exact mem_cons_self
    · split_ifs at hrest
      · cases hrest
      · exact mem_cons_of_mem _ (ih hrest)

omit [Kernel] in
theorem length_hostNames_le {host name : List Char} (h : name ∈ hostNames host) :
    name.length ≤ host.length := by
  unfold hostNames at h
  split_ifs at h
  · rcases List.mem_cons.1 h with rfl | h
    · exact le_rfl
    · obtain rfl := List.mem_singleton.1 h
      rw [length_drop]
      exact Nat.sub_le _ _
  · obtain rfl := List.mem_singleton.1 h
    exact le_rfl

omit [Kernel] in
theorem length_httpQueries_le {host path query : List Char}
    (h : query ∈ httpQueries .allPart host path) :
    query.length ≤ 7 + host.length + path.length := by
  simp only [httpQueries, mem_flatMap] at h
  obtain ⟨name, hname, scheme, hscheme, hquery⟩ := h
  have hle := length_hostNames_le hname
  have hlen : scheme.length ≤ 7 := by
    rcases List.mem_cons.1 hscheme with rfl | hscheme
    · decide
    · obtain rfl := List.mem_singleton.1 hscheme
      decide
  split_ifs at hquery
  · rcases List.mem_cons.1 hquery with rfl | hquery
    · rw [length_append]
      omega
    · obtain rfl := List.mem_singleton.1 hquery
      simp only [length_append]
      omega
  · obtain rfl := List.mem_singleton.1 hquery
    simp only [length_append]
    omega

omit [Kernel] in
theorem httpQueries_cons {host path : List Char} (hpath : path ≠ ['/']) :
    ∃ queries, httpQueries .allPart host path =
      ("http://".toList ++ host ++ path) :: queries := by
  simp only [httpQueries, if_neg hpath, hostNames]
  split_ifs
  · exact ⟨_, rfl⟩
  · exact ⟨_, rfl⟩

omit [Kernel] in
theorem length_httpsQueries_le {host query : List Char}
    (h : query ∈ httpsQueries .allPart host) : query.length ≤ 8 + host.length := by
  simp only [httpsQueries, mem_flatMap] at h
  obtain ⟨name, hname, hquery⟩ := h
  have hle := length_hostNames_le hname
  have hscheme : "https://".toList.length = 8 := rfl
  rcases List.mem_cons.1 hquery with rfl | hquery
  · rw [length_append, hscheme]
    omega
  · obtain rfl := List.mem_singleton.1 hquery
    omega

theorem httpsTestUrls_fit {b : ByteBuffer} {len : ℕ} {query : List Char}
    (h : query ∈ httpsTestUrls lib compiledMap priv b len) : query.length + 1 ≤ testUrlSize := by
  unfold httpsTestUrls at h
  cases hhost : clientHelloHost b len with
  | none =>
    rw [hhost] at h
    cases h
  | some host =>
    rw [hhost] at h
    have hle := length_httpsQueries_le (testedTexts_subset h)
    have hcut := length_clientHelloHost_le hhost
    unfold testUrlSize
    omega

end Fit

/-- When the texts for a request fit. -/
theorem httpTestUrls_fit_iff (p rest : List UInt8) (base : ℕ) (hlen : 10 < p.length)
    (hweb : isWebRequest (ofBytes (p ++ rest)) p.length = true) :
    (∀ (R : Type) (lib : RegexpLib R) (compiledMap : Option (TreeMap.StringMap R))
      (priv : WeburlInfo), ∀ query ∈ httpTestUrls lib compiledMap priv (ofBytes (p ++ rest))
        (p ++ rest).length p.length base, query.length + 1 ≤ testUrlSize) ↔
      (PathInside (ofBytes (p ++ rest)) (p ++ rest).length base →
        HostInside (ofBytes (p ++ rest)) (p ++ rest).length p.length →
          (packetHost p).length + (packetPath (p ++ rest) base).length ≤ 1242) := by
  unfold httpTestUrls
  have hsome := @httpAddress_isSome_iff (ofBytes (p ++ rest)) (p ++ rest).length p.length base
    hweb hlen (by simp)
  cases haddress : httpAddress (ofBytes (p ++ rest)) (p ++ rest).length p.length base with
  | none =>
    rw [haddress] at hsome
    simp only [not_mem_nil, false_implies, implies_true, true_iff]
    intro hpath hhost
    exact absurd (hsome.2 ⟨hpath, hhost⟩) (by decide)
  | some address =>
    rw [haddress] at hsome
    obtain ⟨hpath, hhost⟩ := hsome.1 rfl
    obtain rfl := httpAddress_ofBytes hweb hlen haddress
    dsimp only
    constructor
    · intro h _ _
      by_cases hslash : text (packetPath (p ++ rest) base) = ['/']
      · have hone := congrArg List.length hslash
        have hcut := length_packetHost_le p
        rw [length_text, length_singleton] at hone
        omega
      · obtain ⟨queries, hqueries⟩ := @httpQueries_cons (text (packetHost p)) _ hslash
        have hfirst := h Unit ⟨fun _ => none, fun _ _ => false⟩ none
          ⟨[], .containsType, .allPart, false⟩ ("http://".toList ++ text (packetHost p) ++
            text (packetPath (p ++ rest) base)) (by rw [hqueries]; exact mem_cons_self)
        have hscheme : "http://".toList.length = 7 := rfl
        simp only [length_append, length_text, hscheme, testUrlSize] at hfirst
        omega
    · intro h R lib compiledMap priv query hquery
      have hle := length_httpQueries_le (testedTexts_subset hquery)
      rw [length_text, length_text] at hle
      have hshort := h hpath hhost
      unfold testUrlSize
      omega

/-- Every text that is put together fits into its buffer, for a request exactly when host
and path are together not too long, whatever follows the packet in the memory. -/
theorem testUrls_fit_iff (p rest : List UInt8) (base : ℕ) (hlen : 10 < p.length) :
    (isWebRequest (ofBytes (p ++ rest)) p.length = true →
      ((∀ (R : Type) (lib : RegexpLib R) (compiledMap : Option (TreeMap.StringMap R))
        (priv : WeburlInfo), ∀ query ∈ httpTestUrls lib compiledMap priv (ofBytes (p ++ rest))
          (p ++ rest).length p.length base, query.length + 1 ≤ testUrlSize) ↔
        (PathInside (ofBytes (p ++ rest)) (p ++ rest).length base →
          HostInside (ofBytes (p ++ rest)) (p ++ rest).length p.length →
            (packetHost p).length + (packetPath (p ++ rest) base).length ≤ 1242))) ∧
    (isWebRequest (ofBytes (p ++ rest)) p.length = false →
      ∀ (R : Type) (lib : RegexpLib R) (compiledMap : Option (TreeMap.StringMap R))
        (priv : WeburlInfo),
        ∀ query ∈ httpsTestUrls lib compiledMap priv (ofBytes (p ++ rest)) p.length,
          query.length + 1 ≤ testUrlSize) :=
  ⟨httpTestUrls_fit_iff p rest base hlen, fun _ _ _ _ _ _ h => httpsTestUrls_fit h⟩

end Urls

section Requests

local instance urlKernel : Kernel := referenceKernel 64

theorem urls_of_plain_request :
    let p := (requestCd [] (by simp)).payload
    ∀ (R : Type) (lib : RegexpLib R) (compiledMap : Option (TreeMap.StringMap R))
      (priv : WeburlInfo), ∀ query ∈ httpTestUrls lib compiledMap priv (ofBytes (p ++ [0]))
        (p ++ [0]).length p.length 0, query.length + 1 ≤ testUrlSize := by
  intro p
  exact ((testUrls_fit_iff p [0] 0 (by decide)).1 (by decide)).2 fun _ _ => by decide

theorem minorOne_digit : (48 : UInt8) ≤ 49 ∧ (49 : UInt8) ≤ 57 := by decide

/-- A request with a host and a target of `n` bytes. -/
def longRequest (n : ℕ) (hn : 0 < n) : Request where
  method := .get
  target := List.replicate n 47
  minor := 49
  fieldsBefore := []
  hostField :=
    { hostCd with
      host := List.replicate n 97
      host_token := fun x hx => by
        obtain rfl := eq_of_mem_replicate hx
        unfold IsLineByte
        decide
      after_nil := fun _ _ => rfl }
  fieldsAfter := []
  body := []
  target_ne := by simpa using hn.ne'
  target_token := fun x hx => by
    obtain rfl := eq_of_mem_replicate hx
    unfold IsLineByte
    decide
  minor_digit := minorOne_digit
  one_host := by simp

theorem hostFound_longRequest {n : ℕ} (hn : 0 < n) : (longRequest n hn).HostFound := by
  have hplain : ∀ x ∈ linesText (longRequest n hn).leading, toupper x ≠ 58 := by
    intro x hx
    have hwords : ∀ x ∈ "GET ".toList.map chr ++ " HTTP/1.1\r\n".toList.map chr,
        toupper x ≠ 58 := Numerals.forall_mem_of_all (by decide)
    have hparts : linesText (longRequest n hn).leading =
        "GET ".toList.map chr ++ (List.replicate n 47 ++ " HTTP/1.1\r\n".toList.map chr) := by
      change (("GET".toList.map chr ++ 32 :: (List.replicate n 47 ++
        32 :: ("HTTP/1.".toList.map chr ++ [49]))) ++ [13, 10]) ++ [] = _
      rw [List.append_nil, append_assoc, cons_append, append_assoc]
      rfl
    rw [hparts] at hx
    rcases List.mem_append.1 hx with hx | hx
    · exact hwords x (mem_append_left _ hx)
    · rcases List.mem_append.1 hx with hx | hx
      · rw [eq_of_mem_replicate hx]
        decide
      · exact hwords x (mem_append_right _ hx)
  have hlabel : ¬ hostLabel <:+: (linesText (longRequest n hn).leading).map toupper := by
    intro h
    obtain ⟨x, hx, hcolon⟩ := List.mem_map.1 (h.subset (show 58 ∈ hostLabel by decide))
    exact hplain x hx hcolon
  refine hostFound_of_plain hlabel (show 9 ∉ hostCd.before by decide) (fun h => ?_)
    not_mem_nil
  exact absurd (eq_of_mem_replicate h) (by decide)

theorem not_fit_longRequest {n : ℕ} (hn : 0 < n) (hlong : 624 ≤ n) :
    ¬ ∀ (R : Type) (lib : RegexpLib R) (compiledMap : Option (TreeMap.StringMap R))
      (priv : WeburlInfo),
      ∀ query ∈ httpTestUrls lib compiledMap priv (ofBytes ((longRequest n hn).payload ++ [0]))
        ((longRequest n hn).payload ++ [0]).length (longRequest n hn).payload.length 0,
        query.length + 1 ≤ testUrlSize := by
  intro hfit
  obtain ⟨hends, hblank, hzero⟩ := pathEnds_memory (longRequest n hn) [0] (by simp)
  have hpath : PathInside (ofBytes ((longRequest n hn).payload ++ [0]))
      ((longRequest n hn).payload ++ [0]).length 0 :=
    ⟨_, _, hends, hzero, fun hb => absurd (hblank.symm.trans hb) (by decide)⟩
  have hshort := (httpTestUrls_fit_iff _ [0] 0 (length_payload _)
    (isWebRequest_append.trans (isWebRequest_payload _))).1 hfit hpath
    (Or.inl (headerInside_payload _).append)
  rw [packetPath_payload, (packetHost_payload _).2 (hostFound_longRequest hn)] at hshort
  have hhost : (longRequest n hn).hostField.host.length = n := length_replicate
  have htarget : (longRequest n hn).target.length = n := length_replicate
  rw [length_take, length_take, hhost, htarget] at hshort
  omega

/-- A buffer that is too small. -/
theorem long_url_overflows :
    let p := (longRequest 624 (by decide)).payload
    ¬ ∀ (R : Type) (lib : RegexpLib R) (compiledMap : Option (TreeMap.StringMap R))
      (priv : WeburlInfo),
      ∀ query ∈ httpTestUrls lib compiledMap priv (ofBytes (p ++ [0])) (p ++ [0]).length
        p.length 0, query.length + 1 ≤ testUrlSize :=
  not_fit_longRequest (by decide) le_rfl

end Requests

end Weburl

end Gargoyle
