import Gargoyle.Session.Cookies

/-!
# How long a session lasts

Every page that is shown to a client gives it a new cookie, which it shows for the next page. The
session lasts for as long as no cookie expires, and the clock does not go back by more than two seconds
between two pages.
-/

namespace Gargoyle

namespace Session

open Signed

def Options.showing (o : Options) (k : Cookie) : Options :=
  { o with
    password := none
    cookieHash := some k.hash
    cookieExp := some k.exp
    userAgent := some k.userAgent
    srcIp := some k.srcIp
    unconditionallyGenerate := false }

theorem timeoutSeconds_showing (o : Options) (k : Cookie) :
    (o.showing k).timeoutSeconds = o.timeoutSeconds := rfl

/-- A page at `now` is shown to a client with a cookie of the time `start`. -/
def Continues (o : Options) (start now : ℤ) : Prop :=
  start + o.timeoutSeconds > now ∧ start ≤ now + 2

instance (o : Options) (start now : ℤ) : Decidable (Continues o start now) :=
  inferInstanceAs (Decidable (_ ∧ _))

namespace Host

def browse (h : Host) (o : Options) : Cookie → List ℤ → Option Cookie
  | k, [] => some k
  | k, now :: times => (h.main now (o.showing k)).cookie.bind fun k => browse h o k times

variable {h : Host} {o : Options} {rootHash userAgent srcIp : List Char} {start now : ℤ}

/-- A page gives a new cookie while the session goes on. -/
theorem cookie_main_showing (hroot : h.rootHash = some rootHash)
    (hstart : -2 ^ 62 ≤ start ∧ start < 2 ^ 62) :
    (h.main now (o.showing (h.newCookie rootHash start o userAgent srcIp))).cookie =
      if Continues o start now then some (h.newCookie rootHash now o userAgent srcIp) else none := by
  have hseconds := timeoutSeconds_bounds o
  have hread : readExpiry (printSigned (start + o.timeoutSeconds)) =
      some (start + o.timeoutSeconds) :=
    scanSigned_printSigned (by norm_num; omega) (by norm_num; omega)
  have htime : inTime (start + o.timeoutSeconds) now o.timeoutSeconds =
      decide (Continues o start now) := by
    have hbmod : (start + o.timeoutSeconds - o.timeoutSeconds - 2).bmod (2 ^ 64) = start - 2 := by
      rw [Int.bmod_eq_of_le (by omega) (by omega)]
      omega
    rw [inTime, hbmod, ← Bool.decide_and]
    exact decide_eq_decide.2 (and_congr Iff.rfl (by omega))
  have hcheck : h.checkClient rootHash now
      (o.showing (h.newCookie rootHash start o userAgent srcIp)) =
        (decide (Continues o start now), !decide (Continues o start now)) := by
    show h.checkCookie rootHash now (o.showing _) _ _ _ _ = _
    simp only [checkCookie, newCookie, hread, timeoutSeconds_showing, htime, if_true,
      Option.any_some, Option.isSome_some, Bool.and_true, Bool.not_not]
  simp only [main, hroot, hcheck]
  by_cases hcontinues : Continues o start now
  · rw [if_pos hcontinues, decide_eq_true hcontinues]
    rfl
  · rw [if_neg hcontinues, decide_eq_false hcontinues]
    rfl

/-- A client that has been given a cookie is shown all pages that it asks for exactly when each of them
continues the one before. -/
theorem browse_isSome_iff (hroot : h.rootHash = some rootHash) (times : List ℤ) (start : ℤ)
    (htimes : ∀ t ∈ start :: times, -2 ^ 62 ≤ t ∧ t < 2 ^ 62) :
    (browse h o (h.newCookie rootHash start o userAgent srcIp) times).isSome ↔
      (start :: times).IsChain (Continues o) := by
  induction times generalizing start with
  | nil => simp [browse]
  | cons now times ih =>
    rw [browse, cookie_main_showing hroot (htimes start List.mem_cons_self),
      List.isChain_cons_cons, ← ih now fun t ht => htimes t (List.mem_cons_of_mem _ ht)]
    split_ifs with hcontinues
    · simp [hcontinues]
    · simp [hcontinues]

/-- A second page after ten minutes and a third one after another ten. -/
theorem browse_twenty_minutes :
    (browse exampleHost exampleLogin.options (exampleHost.newCookie "$1$salt$hash".toList 1000000
      exampleLogin.options "Mozilla".toList "110.0.0.1".toList) [1000600, 1001200]).isSome :=
  (browse_isSome_iff rfl [1000600, 1001200] 1000000 (by decide)).2 (by decide)

end Host

end Session

end Gargoyle
