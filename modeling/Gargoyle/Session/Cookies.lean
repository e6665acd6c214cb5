import Gargoyle.Bwctl.IntervalStarts
import Gargoyle.Data.Signed

/-!
# The session validator

`gargoyle_session_validator` decides whether the page that calls it may be shown: by the password, or
by a cookie with a hash and an expiry. The hash is the one of the root password's entry, the expiry,
the user agent and the address of the client, written one after the other. A run that accepts its
client gives it a new cookie. The program prints shell commands that the page runs.
-/

namespace Gargoyle

namespace Session

open Signed

structure Options where
  password : Option (List Char)
  cookieHash : Option (List Char)
  cookieExp : Option (List Char)
  userAgent : Option (List Char)
  srcIp : Option (List Char)
  redirect : Option (List Char)
  timeout : Option (List Char)
  browserTime : Option (List Char)
  unconditionallyGenerate : Bool
deriving DecidableEq

/-- What the program runs on: the entry of the root password, if it is found, the functions `crypt`
and `get_sha256_hash_hex_str`, and the bits of a `long`. -/
structure Host where
  rootHash : Option (List Char)
  crypt : List Char → List Char → List Char
  getSha256HashHexStr : List Char → List Char
  longBits : ℕ

/-- `DEFAULT_SESSION_TIMEOUT_MINUTES`. -/
def defaultSessionTimeoutMinutes : ℤ := 15

namespace Options

def timeoutMinutes (o : Options) : ℤ :=
  match o.timeout.bind (scanSigned 32) with
  | some minutes => if minutes > 0 then minutes else defaultSessionTimeoutMinutes
  | none => defaultSessionTimeoutMinutes

/-- `timeout_minutes*60`, as an `int`. -/
def timeoutSeconds (o : Options) : ℤ := (o.timeoutMinutes * 60).bmod (2 ^ 32)

/-- `browser_time`. -/
def browserSeconds (o : Options) (longBits : ℕ) : ℕ :=
  match o.browserTime.bind (scanSigned longBits) with
  | some seconds => (seconds % 2 ^ longBits).toNat
  | none => 0

end Options

/-- The number in `cookie_exp`. -/
def readExpiry (cookieExp : List Char) : Option ℤ := scanSigned 64 cookieExp

def inTime (expTime now timeoutSeconds : ℤ) : Bool :=
  expTime > now && (expTime - timeoutSeconds - 2).bmod (2 ^ 64) ≤ now

/-- `printf` with `"%02d"`. -/
def twoDigits (n : ℤ) : String :=
  let digits := String.ofList (printSigned n)
  if digits.length < 2 then "0" ++ digits else digits

def getCookieTime (t : ℤ) : String :=
  let utc := Bwctl.localtime 0 t
  let wdays := ["Sun", "Mon", "Tue", "Wed", "Thu", "Fri", "Sat"]
  let months := ["Jan", "Feb", "Mar", "Apr", "May", "Jun", "Jul", "Aug", "Sep", "Oct", "Nov", "Dec"]
  wdays.getD utc.wday.toNat "" ++ ", " ++ String.ofList (printSigned utc.mday) ++ " " ++
    months.getD utc.mon.toNat "" ++ " " ++ String.ofList (printSigned (utc.year + 1900)) ++ " " ++
    twoDigits utc.hour ++ ":" ++ twoDigits utc.min ++ ":" ++ twoDigits utc.sec ++ " UTC"

/-- The browser and the server disagree by more than five minutes. The difference is unsigned where a
`long` is as long as a time. -/
def clocksDisagree (longBits browserTime : ℕ) (now : ℤ) : Bool :=
  if longBits < 64 then
    (browserTime : ℤ) - now < -5 * 60 || (browserTime : ℤ) - now > 5 * 60
  else
    let difference := ((browserTime : ℤ) - now) % 2 ^ longBits
    difference < 2 ^ longBits - 5 * 60 || difference > 5 * 60

structure Cookie where
  hash : List Char
  expTime : ℤ
  exp : List Char
  userAgent : List Char
  srcIp : List Char
deriving DecidableEq

/-- What a run leaves: `valid`, the cookie, and what is printed. -/
structure Outcome where
  valid : Bool
  cookie : Option Cookie
  output : String
deriving DecidableEq

namespace Host

variable (h : Host)

def combined (rootHash exp userAgent srcIp : List Char) : List Char :=
  rootHash ++ exp ++ userAgent ++ srcIp

/-- The test of a cookie, with `valid` and `expired`. -/
def checkCookie (rootHash : List Char) (now : ℤ) (o : Options)
    (cookieHash cookieExp userAgent srcIp : List Char) : Bool × Bool :=
  let read := readExpiry cookieExp
  let expired := read.any fun expTime => !inTime expTime now o.timeoutSeconds
  if h.getSha256HashHexStr (combined rootHash cookieExp userAgent srcIp) = cookieHash then
    (!expired && read.isSome, expired)
  else (false, false)

/-- The test of the client, with `valid` and `expired`. -/
def checkClient (rootHash : List Char) (now : ℤ) (o : Options) : Bool × Bool :=
  match o.password with
  | some password => (h.crypt password rootHash = rootHash, false)
  | none =>
    match o.cookieHash, o.cookieExp, o.userAgent, o.srcIp with
    | some cookieHash, some cookieExp, some userAgent, some srcIp =>
      h.checkCookie rootHash now o cookieHash cookieExp userAgent srcIp
    | _, _, _, _ => (false, false)

def newCookie (rootHash : List Char) (now : ℤ) (o : Options) (userAgent srcIp : List Char) :
    Cookie :=
  let newExpT := now + o.timeoutSeconds
  let newExp := printSigned newExpT
  { hash := h.getSha256HashHexStr (combined rootHash newExp userAgent srcIp)
    expTime := newExpT
    exp := newExp
    userAgent := userAgent
    srcIp := srcIp }

def setCookieOutput (now : ℤ) (o : Options) (cookie : Cookie) : String :=
  let browserTime := o.browserSeconds h.longBits
  let cookieExp :=
    if browserTime > 0 ∧ clocksDisagree h.longBits browserTime now then
      getCookieTime (browserTime + o.timeoutSeconds)
    else getCookieTime cookie.expTime
  let hash := String.ofList cookie.hash
  let exp := String.ofList cookie.exp
  if browserTime = 0 then
    "echo \"Set-Cookie:hash=" ++ hash ++ "; Path=/;\"; echo \"Set-Cookie:exp=" ++ exp ++
      "; Path=/;\"; "
  else
    "echo \"Set-Cookie:hash=" ++ hash ++ "; Expires=" ++ cookieExp ++
      "; Path=/;\"; echo \"Set-Cookie:exp=" ++ exp ++ "; Expires=" ++ cookieExp ++ "; Path=/;\"; "

def refuseOutput (o : Options) (expired : Bool) : String :=
  match o.redirect with
  | some redirect =>
    "echo \"Status: 302 Found\" ;echo \"Location: " ++ String.ofList redirect ++
      (if expired then "?expired=1" else "") ++ "\" ; echo \"\" ; "
  | none => "echo \"invalid\" ;"

/-- `main`, at the time `now`. -/
def main (now : ℤ) (o : Options) : Outcome :=
  match h.rootHash with
  | none => { valid := false, cookie := none, output := "exit\n" }
  | some rootHash =>
    let (valid, expired) := h.checkClient rootHash now o
    let valid := valid || o.unconditionallyGenerate
    let (cookie, output) :=
      match valid, o.srcIp, o.userAgent with
      | true, some srcIp, some userAgent =>
        let cookie := h.newCookie rootHash now o userAgent srcIp
        (some cookie, h.setCookieOutput now o cookie)
      | _, _, _ => (none, refuseOutput o expired)
    { valid, cookie, output := output ++ (if valid then "\n" else "exit\n") }

end Host

/-!
## Whom a session cookie is accepted from

The hash of a cookie is made from one text, in which the expiry, the user agent and the address are
not separated. A run that is shown the hash accepts every expiry, user agent and address that give
the same text, wherever it is cut, if the number in front of the expiry is in time. Cut where it was
when the cookie was given out, the cookie is accepted from that client only (`bound_iff`).
-/

/-- A run of the program, at a time that is far from the ends of `time_t`. -/
structure Run where
  now : ℤ
  options : Options
  now_range : -2 ^ 62 ≤ now ∧ now < 2 ^ 62

structure Identity where
  cookieHash : List Char
  cookieExp : List Char
  userAgent : List Char
  srcIp : List Char
deriving DecidableEq

def Identity.text (c : Identity) : List Char := c.cookieExp ++ c.userAgent ++ c.srcIp

def Cookie.text (k : Cookie) : List Char := k.exp ++ k.userAgent ++ k.srcIp

/-- A run without password and without `-g` is shown a cookie. -/
structure Run.Presents (r : Run) (c : Identity) : Prop where
  password : r.options.password = none
  unconditionallyGenerate : r.options.unconditionallyGenerate = false
  cookieHash : r.options.cookieHash = some c.cookieHash
  cookieExp : r.options.cookieExp = some c.cookieExp
  userAgent : r.options.userAgent = some c.userAgent
  srcIp : r.options.srcIp = some c.srcIp

namespace Host

def issued (h : Host) (runs : List Run) : List Cookie :=
  runs.filterMap fun r => (h.main r.now r.options).cookie

def NoCollision (h : Host) (runs : List Run) (c : Identity) : Prop :=
  ∀ rootHash ∈ h.rootHash, ∀ k ∈ h.issued runs,
    h.getSha256HashHexStr (rootHash ++ k.text) = h.getSha256HashHexStr (rootHash ++ c.text) →
      rootHash ++ k.text = rootHash ++ c.text

def Bound (h : Host) (earlier : List Run) (r : Run) (c : Identity) : Prop :=
  ∃ k ∈ h.issued earlier, k.hash = c.cookieHash ∧ k.exp = c.cookieExp ∧
    k.userAgent = c.userAgent ∧ k.srcIp = c.srcIp ∧
    r.now < k.expTime ∧ k.expTime - r.now ≤ r.options.timeoutMinutes * 60 + 2

def CutAsIssued (h : Host) (earlier : List Run) (r : Run) (c : Identity) : Prop :=
  (∃ expTime, readExpiry c.cookieExp = some expTime ∧
    inTime expTime r.now r.options.timeoutSeconds = true) →
  (∃ k ∈ h.issued earlier, k.hash = c.cookieHash ∧ k.text = c.text) →
    ∃ k ∈ h.issued earlier, k.hash = c.cookieHash ∧ k.text = c.text ∧
      k.exp.length = c.cookieExp.length ∧ k.srcIp.length = c.srcIp.length

section Runs

variable {h : Host} {earlier : List Run} {r : Run} {c : Identity} {k : Cookie}

theorem timeoutMinutes_pos (o : Options) : 0 < o.timeoutMinutes := by
  unfold Options.timeoutMinutes
  cases o.timeout.bind (scanSigned 32) with
  | none => decide
  | some minutes =>
    show 0 < if minutes > 0 then minutes else defaultSessionTimeoutMinutes
    split_ifs with hpos
    · exact hpos
    · decide

theorem timeoutSeconds_bounds (o : Options) :
    -2 ^ 31 ≤ o.timeoutSeconds ∧ o.timeoutSeconds < 2 ^ 31 := by
  have hlow := @Int.le_bmod (o.timeoutMinutes * 60) (2 ^ 32) (by decide)
  have hhigh := @Int.bmod_lt (o.timeoutMinutes * 60) (2 ^ 32) (by decide)
  rw [← Options.timeoutSeconds] at hlow hhigh
  constructor
  · exact hlow
  · exact hhigh

theorem timeoutSeconds_le (o : Options) : o.timeoutSeconds ≤ o.timeoutMinutes * 60 := by
  have hpos := timeoutMinutes_pos o
  rw [Options.timeoutSeconds, Int.bmod_def]
  split_ifs <;> omega

theorem combined_eq_append_text (rootHash : List Char) (c : Identity) :
    combined rootHash c.cookieExp c.userAgent c.srcIp = rootHash ++ c.text := by
  simp [combined, Identity.text]

theorem exists_of_mem_issued (hk : k ∈ h.issued earlier) :
    ∃ rootHash r, h.rootHash = some rootHash ∧ r ∈ earlier ∧
      k = h.newCookie rootHash r.now r.options k.userAgent k.srcIp := by
  obtain ⟨r, hr, hcookie⟩ := List.mem_filterMap.1 hk
  unfold main at hcookie
  cases hroot : h.rootHash with
  | none =>
    rw [hroot] at hcookie
    cases hcookie
  | some rootHash =>
    refine ⟨rootHash, r, rfl, hr, ?_⟩
    simp only [hroot] at hcookie
    split at hcookie
    · obtain rfl := Option.some.inj hcookie
      rfl
    · cases hcookie

theorem hash_of_mem_issued (hk : k ∈ h.issued earlier) {rootHash : List Char}
    (hroot : h.rootHash = some rootHash) : k.hash = h.getSha256HashHexStr (rootHash ++ k.text) := by
  obtain ⟨rootHash', r, hroot', -, hnew⟩ := exists_of_mem_issued hk
  obtain rfl := Option.some.inj (hroot.symm.trans hroot')
  rw [hnew]
  simp [newCookie, combined, Cookie.text]

theorem readExpiry_of_mem_issued (hk : k ∈ h.issued earlier) :
    readExpiry k.exp = some k.expTime ∧ -2 ^ 62 - 2 ^ 31 ≤ k.expTime ∧
      k.expTime < 2 ^ 62 + 2 ^ 31 := by
  obtain ⟨rootHash, r, -, -, hnew⟩ := exists_of_mem_issued hk
  have hnow := r.now_range
  have hseconds := timeoutSeconds_bounds r.options
  have htime : k.expTime = r.now + r.options.timeoutSeconds := by rw [hnew]; rfl
  have hexp : k.exp = printSigned k.expTime := by rw [hnew]; rfl
  rw [readExpiry, hexp, scanSigned_printSigned (by norm_num; omega) (by norm_num; omega)]
  exact ⟨rfl, by omega, by omega⟩

theorem valid_iff (hp : r.Presents c) : (h.main r.now r.options).valid = true ↔
    ∃ rootHash expTime, h.rootHash = some rootHash ∧ readExpiry c.cookieExp = some expTime ∧
      inTime expTime r.now r.options.timeoutSeconds = true ∧
      h.getSha256HashHexStr (rootHash ++ c.text) = c.cookieHash := by
  obtain ⟨hpassword, hgenerate, hhash, hexp, hagent, hip⟩ := hp
  unfold main
  cases h.rootHash with
  | none => simp
  | some rootHash =>
    simp only [checkClient, hpassword, hhash, hexp, hagent, hip, hgenerate, Bool.or_false,
      checkCookie, combined_eq_append_text]
    cases readExpiry c.cookieExp with
    | none => split_ifs <;> simp
    | some expTime =>
      split_ifs with heq
      · simp [heq]
      · simp [heq]

/-- A cookie is accepted from the client only that it was given to, exactly when it is shown cut as it
was given out. -/
theorem bound_iff (hp : r.Presents c) (hissued : ∃ k ∈ h.issued earlier, k.hash = c.cookieHash)
    (hcollision : h.NoCollision earlier c) :
    ((h.main r.now r.options).valid = true → h.Bound earlier r c) ↔ h.CutAsIssued earlier r c := by
  rw [valid_iff hp]
  constructor
  · rintro hbound ⟨expTime, hread, htime⟩ ⟨k, hk, hhash, htext⟩
    obtain ⟨rootHash, -, hroot, -⟩ := exists_of_mem_issued hk
    have hsha := hash_of_mem_issued hk hroot
    rw [htext, hhash] at hsha
    obtain ⟨k', hk', hhash', hexp', hagent', hip', -⟩ :=
      hbound ⟨rootHash, expTime, hroot, hread, htime, hsha.symm⟩
    refine ⟨k', hk', hhash', ?_, by rw [hexp'], by rw [hip']⟩
    rw [Cookie.text, Identity.text, hexp', hagent', hip']
  · rintro hcut ⟨rootHash, expTime, hroot, hread, htime, hsha⟩
    obtain ⟨k₀, hk₀, hhash₀⟩ := hissued
    have hsha₀ := hash_of_mem_issued hk₀ hroot
    have htext₀ : k₀.text = c.text := List.append_cancel_left
      (hcollision rootHash hroot k₀ hk₀ (by rw [← hsha₀, hhash₀, hsha]))
    obtain ⟨k, hk, hhash, htext, hexplen, hiplen⟩ :=
      hcut ⟨expTime, hread, htime⟩ ⟨k₀, hk₀, hhash₀, htext₀⟩
    obtain ⟨hfront, hip⟩ := List.append_inj' htext hiplen
    obtain ⟨hexp, hagent⟩ := List.append_inj hfront hexplen
    obtain ⟨hreadk, hlow, hhigh⟩ := readExpiry_of_mem_issued hk
    rw [hexp, hread] at hreadk
    obtain rfl := Option.some.inj hreadk
    have hseconds := timeoutSeconds_bounds r.options
    have hle := timeoutSeconds_le r.options
    have hbmod : (k.expTime - r.options.timeoutSeconds - 2).bmod (2 ^ 64) =
        k.expTime - r.options.timeoutSeconds - 2 := Int.bmod_eq_of_le (by omega) (by omega)
    simp only [inTime, hbmod, gt_iff_lt, Bool.and_eq_true, decide_eq_true_eq] at htime
    exact ⟨k, hk, hhash, hexp, hagent, hip, htime.1, by omega⟩

end Runs

section Example

def exampleHost : Host where
  rootHash := some "$1$salt$hash".toList
  crypt := fun password _ => password
  getSha256HashHexStr := id
  longBits := 32

def exampleLogin : Run where
  now := 1000000
  options := ⟨none, none, none, some "Mozilla".toList, some "110.0.0.1".toList, none, none, none, true⟩
  now_range := by decide

def exampleShown : Identity where
  cookieHash := "$1$salt$hash1000900Mozilla110.0.0.1".toList
  cookieExp := "1000900".toList
  userAgent := "Mozilla".toList
  srcIp := "110.0.0.1".toList

def exampleRun (c : Identity) : Run where
  now := 1000010
  options := ⟨none, some c.cookieHash, some c.cookieExp, some c.userAgent, some c.srcIp, none, none,
    none, false⟩
  now_range := by decide

theorem exampleRun_presents (c : Identity) : (exampleRun c).Presents c := ⟨rfl, rfl, rfl, rfl, rfl, rfl⟩

theorem bound_iff_example :
    ((exampleHost.main (exampleRun exampleShown).now (exampleRun exampleShown).options).valid = true →
      exampleHost.Bound [exampleLogin] (exampleRun exampleShown) exampleShown) ↔
      exampleHost.CutAsIssued [exampleLogin] (exampleRun exampleShown) exampleShown :=
  bound_iff (exampleRun_presents exampleShown)
    ⟨_, List.mem_cons_self, by decide⟩ fun _ _ _ _ h => h

/-- The cookie of a client at 110.0.0.1 is accepted from another one at 10.0.0.1, whose user agent has
the digit more that its address has less. -/
theorem accepted_from_other_address :
    ¬∀ (h : Host) (earlier : List Run) (r : Run) (c : Identity), r.Presents c →
      (∃ k ∈ h.issued earlier, k.hash = c.cookieHash) → Function.Injective h.getSha256HashHexStr →
        (h.main r.now r.options).valid = true → h.Bound earlier r c := by
  intro h
  let c : Identity :=
    { exampleShown with userAgent := "Mozilla1".toList, srcIp := "10.0.0.1".toList }
  obtain ⟨k, hk, -, -, hagent, -⟩ := h exampleHost [exampleLogin] (exampleRun c) c
    (exampleRun_presents c) ⟨_, List.mem_cons_self, by decide⟩ (fun _ _ h => h) (by decide)
  obtain rfl := List.mem_singleton.1 hk
  exact absurd hagent (by decide)

end Example

end Host

end Session

end Gargoyle
