import Mathlib.Data.Nat.Basic
import Mathlib.Logic.Function.Basic

/-!
# The lock of `libnftbwctl`

The clients of the library take turns by a semaphore of the system. `lock` looks
at its value and tries to take it without waiting, some number of times;
`unlock` looks at its value and increments it if it is zero. A client that
receives a signal runs `unlock` in its handler and exits.

A step is one call of the system: getting or creating the semaphore, setting its
first value, reading its value, decrementing and incrementing it. The steps of
any number of clients are interleaved, and a signal may arrive between any two
of them. The calls are taken to succeed, except for the decrement of a semaphore
that is zero.

`unlock` does not ask who holds the lock. A client that is only waiting for it
and is told to exit gives away the lock of another one, and nothing else can go
wrong (`exclusive_of_orderly`).
-/

namespace Gargoyle

open Function (update update_self update_of_ne)

namespace Bwctl

namespace Lock

/-- The function a client is in; `lock` with the milliseconds it may still
wait. -/
inductive Routine
  | lock (maxWaitMilliseconds : ℕ)
  | unlock
  | handler
deriving DecidableEq

/-- The call that a client makes next. `working` is between `lock` and
`unlock`. -/
inductive Control
  | idle
  | semget (r : Routine)
  | setval (r : Routine)
  | getval (r : Routine)
  | semop (r : Routine)
  | working
  | exited
deriving DecidableEq

structure State (ι : Type*) where
  semval : Option ℕ
  control : ι → Control
  known : ι → Bool
  gotLock : ι → Bool

inductive Event (ι : Type*)
  | lock (p : ι) (maxWaitMilliseconds : ℕ)
  | unlock (p : ι)
  | call (p : ι)
  | signal (p : ι)

variable {ι : Type*}

def State.initial : State ι where
  semval := none
  control := fun _ => .idle
  known := fun _ => false
  gotLock := fun _ => false

variable [DecidableEq ι]

namespace State

def goTo (s : State ι) (p : ι) (c : Control) : State ι :=
  { s with control := update s.control p c }

def start (s : State ι) (p : ι) (r : Routine) : State ι :=
  s.goTo p (if s.known p then .getval r else .semget r)

/-- The end of one round of the loop in `lock`, when the lock was not got. -/
def retry (s : State ι) (p : ι) (maxWait : ℕ) : State ι :=
  let maxWait := if maxWait > 25 then maxWait - 25 else 0
  s.goTo p (if maxWait > 0 then .getval (.lock maxWait) else .idle)

def call (s : State ι) (p : ι) : State ι :=
  match s.control p, s.semval with
  | .semget r, none =>
    { s.goTo p (.setval r) with semval := some 0, known := update s.known p true }
  | .semget r, some _ => { s.goTo p (.getval r) with known := update s.known p true }
  | .setval r, some _ => { s.goTo p (.getval r) with semval := some 1 }
  | .getval (.lock maxWait), some v =>
    if v > 0 then s.goTo p (.semop (.lock maxWait)) else s.retry p maxWait
  | .getval .unlock, some v => s.goTo p (if v = 0 then .semop .unlock else .idle)
  | .getval .handler, some v => s.goTo p (if v = 0 then .semop .handler else .exited)
  | .semop (.lock maxWait), some v =>
    if v > 0 then
      { s.goTo p .working with
        semval := some (v - 1), gotLock := update s.gotLock p true }
    else s.retry p maxWait
  | .semop .unlock, some v =>
    { s.goTo p .idle with semval := some (v + 1), gotLock := update s.gotLock p false }
  | .semop .handler, some v =>
    { s.goTo p .exited with semval := some (v + 1), gotLock := update s.gotLock p false }
  | _, _ => s

/-- One event. A client calls `lock` when it is idle and `unlock` when it has
worked; what is not possible changes nothing. -/
def step (s : State ι) : Event ι → State ι
  | .lock p maxWait => if s.control p = .idle then s.start p (.lock maxWait) else s
  | .unlock p => if s.control p = .working then s.start p .unlock else s
  | .call p => s.call p
  | .signal p => if s.control p = .exited then s else s.start p .handler

def run (events : List (Event ι)) : State ι := events.foldl step initial

structure Exclusive (s : State ι) : Prop where
  holder : ∀ p q, s.control p ≠ .exited → s.control q ≠ .exited →
    s.gotLock p = true → s.gotLock q = true → p = q
  value : ∀ v, s.semval = some v → v ≤ 1

def Orderly (s : State ι) : Event ι → Prop
  | .call p => s.control p = .semop .handler → s.gotLock p = true
  | _ => True

def OrderlyFrom : State ι → List (Event ι) → Prop
  | _, [] => True
  | s, e :: es => s.Orderly e ∧ OrderlyFrom (s.step e) es

instance (s : State ι) : (e : Event ι) → Decidable (s.Orderly e)
  | .lock _ _ => inferInstanceAs (Decidable True)
  | .unlock _ => inferInstanceAs (Decidable True)
  | .call p => inferInstanceAs (Decidable (s.control p = _ → s.gotLock p = true))
  | .signal _ => inferInstanceAs (Decidable True)

instance : (s : State ι) → (es : List (Event ι)) → Decidable (OrderlyFrom s es)
  | _, [] => inferInstanceAs (Decidable True)
  | s, e :: es =>
    have := instDecidableOrderlyFrom (s.step e) es
    inferInstanceAs (Decidable (s.Orderly e ∧ OrderlyFrom (s.step e) es))

/-! ## What is kept -/

/-- The client is between `lock` and the end of `unlock`. -/
def Control.Unlocking : Control → Prop
  | .working => True
  | .semget r => r = .unlock
  | .setval r => r = .unlock
  | .getval r => r = .unlock
  | .semop r => r = .unlock
  | _ => False

/-- The lock has one holder at most, and is zero while it has one. A client that
has created the semaphore and not yet set its value is alone in this, and keeps
all others from the lock. -/
structure Guarded (s : State ι) : Prop where
  uncreated : s.semval = none → ∀ p, s.gotLock p = false
  value : ∀ v, s.semval = some v → v ≤ 1
  unique : ∀ p q, s.gotLock p = true → s.gotLock q = true → p = q
  held : ∀ p, s.gotLock p = true → s.semval = some 0
  unlocking : ∀ p, Control.Unlocking (s.control p) → s.gotLock p = true
  creating : ∀ p r, s.control p = .setval r → s.semval = some 0 ∧ (∀ q, s.gotLock q = false) ∧
    ∀ q r', s.control q = .setval r' → q = p

namespace Guarded

variable {s : State ι} {p : ι} {c : Control}

omit [DecidableEq ι] in
theorem initial : (State.initial : State ι).Guarded where
  uncreated := fun _ _ => rfl
  value := fun _ h => nomatch h
  unique := fun _ _ h => nomatch h
  held := fun _ h => nomatch h
  unlocking := fun _ h => h.elim
  creating := fun _ _ h => nomatch h

theorem goTo (h : s.Guarded) (hc : Control.Unlocking c → s.gotLock p = true)
    (hset : ∀ r, c ≠ .setval r) : (s.goTo p c).Guarded := by
  have hold : ∀ q r, update s.control p c q = .setval r → s.control q = .setval r := by
    intro q r hq
    rcases eq_or_ne q p with rfl | hqp
    · rw [update_self] at hq
      exact absurd hq (hset r)
    · rwa [update_of_ne hqp] at hq
  refine ⟨h.uncreated, h.value, h.unique, h.held, fun q hq => ?_, fun q r hq => ?_⟩
  · change Control.Unlocking (update s.control p c q) at hq
    rcases eq_or_ne q p with rfl | hqp
    · rw [update_self] at hq
      exact hc hq
    · rw [update_of_ne hqp] at hq
      exact h.unlocking q hq
  · obtain ⟨hzero, hnone, halone⟩ := h.creating q r (hold q r hq)
    exact ⟨hzero, hnone, fun q' r' hq' => halone q' r' (hold q' r' hq')⟩

omit [DecidableEq ι] in
theorem setKnown (h : s.Guarded) (known : ι → Bool) : Guarded { s with known := known } :=
  ⟨h.uncreated, h.value, h.unique, h.held, h.unlocking, h.creating⟩

omit [DecidableEq ι] in
theorem setFree (h : s.Guarded) (hfree : ∀ q, s.gotLock q = false)
    (hset : ∀ q r, s.control q ≠ .setval r) {v : ℕ} (hv : v ≤ 1) :
    Guarded { s with semval := some v } where
  uncreated := fun hnone => nomatch hnone
  value := fun _ hv' => Option.some.inj hv' ▸ hv
  unique := h.unique
  held := fun q hq => absurd ((hfree q).symm.trans hq) Bool.false_ne_true
  unlocking := h.unlocking
  creating := fun q r hq => absurd hq (hset q r)

theorem start (h : s.Guarded) {r : Routine} (hr : r = .unlock → s.gotLock p = true) :
    (s.start p r).Guarded := by
  unfold State.start
  split_ifs
  · exact h.goTo hr fun _ => Control.noConfusion
  · exact h.goTo hr fun _ => Control.noConfusion

theorem retry (h : s.Guarded) (p : ι) (maxWait : ℕ) : (s.retry p maxWait).Guarded := by
  simp only [State.retry]
  split_ifs <;> exact h.goTo (fun hc => nomatch hc) fun _ => Control.noConfusion

theorem create (h : s.Guarded) {r : Routine} (hcontrol : s.control p = .semget r)
    (hnone : s.semval = none) : Guarded { s.goTo p (.setval r) with semval := some 0 } := by
  have halone : ∀ q r', update s.control p (.setval r) q = .setval r' → q = p := by
    intro q r' hq
    by_contra hqp
    rw [update_of_ne hqp] at hq
    exact nomatch (h.creating q r' hq).1.symm.trans hnone
  refine ⟨(fun hnone => nomatch hnone), fun v hv => ?_, h.unique, fun q hq => ?_, fun q hq => ?_,
    fun q r' hq => ⟨rfl, h.uncreated hnone, fun q' r'' hq' => ?_⟩⟩
  · obtain rfl : 0 = v := Option.some.inj hv
    exact Nat.zero_le 1
  · exact absurd ((h.uncreated hnone q).symm.trans hq) Bool.false_ne_true
  · change Control.Unlocking (update s.control p (.setval r) q) at hq
    refine h.unlocking q ?_
    rcases eq_or_ne q p with rfl | hqp
    · rw [update_self] at hq
      rw [hcontrol]
      exact hq
    · rwa [update_of_ne hqp] at hq
  · exact (halone q' r'' hq').trans (halone q r' hq).symm

/-- Who takes a free lock is the only one. -/
theorem take (h : s.Guarded) {v : ℕ} (hv : s.semval = some v) (hpos : v > 0) :
    Guarded { s.goTo p .working with
      semval := some (v - 1), gotLock := update s.gotLock p true } := by
  have hone : v ≤ 1 := h.value v hv
  obtain rfl : v = 1 := by omega
  have hfree : ∀ q, ¬ s.gotLock q = true := by
    intro q hq
    exact nomatch hv.symm.trans (h.held q hq)
  have hp : ∀ q, update s.gotLock p true q = true → q = p := by
    intro q hq
    by_contra hqp
    rw [update_of_ne hqp] at hq
    exact hfree q hq
  refine ⟨(fun hnone => nomatch hnone), fun w hw => ?_, fun q q' hq hq' => ?_, fun q hq => rfl,
    fun q hq => ?_, fun q r hq => ?_⟩
  · obtain rfl : 0 = w := Option.some.inj hw
    exact Nat.zero_le 1
  · exact (hp q hq).trans (hp q' hq').symm
  · change Control.Unlocking (update s.control p .working q) at hq
    change update s.gotLock p true q = true
    rcases eq_or_ne q p with rfl | hqp
    · exact update_self ..
    · rw [update_of_ne hqp] at hq
      exact absurd (h.unlocking q hq) (hfree q)
  · change update s.control p .working q = .setval r at hq
    rcases eq_or_ne q p with rfl | hqp
    · rw [update_self] at hq
      cases hq
    · rw [update_of_ne hqp] at hq
      exact nomatch hv.symm.trans (h.creating q r hq).1

/-- Only who has the lock releases it. -/
theorem release (h : s.Guarded) (hp : s.gotLock p = true) {v : ℕ} (hv : s.semval = some v)
    (hc : ¬ Control.Unlocking c) (hset : ∀ r, c ≠ .setval r) :
    Guarded { s.goTo p c with
      semval := some (v + 1), gotLock := update s.gotLock p false } := by
  obtain rfl : v = 0 := Option.some.inj (hv.symm.trans (h.held p hp))
  have hfree : ∀ q, update s.gotLock p false q = false := by
    intro q
    rcases eq_or_ne q p with rfl | hqp
    · exact update_self ..
    · rw [update_of_ne hqp, Bool.eq_false_iff]
      exact fun hq => hqp (h.unique q p hq hp)
  refine ⟨(fun hnone => nomatch hnone), fun w hw => ?_, fun q q' hq => ?_, fun q hq => ?_, fun q hq => ?_,
    fun q r hq => ?_⟩
  · obtain rfl : 0 + 1 = w := Option.some.inj hw
    exact le_rfl
  · exact absurd ((hfree q).symm.trans hq) Bool.false_ne_true
  · exact absurd ((hfree q).symm.trans hq) Bool.false_ne_true
  · change Control.Unlocking (update s.control p c q) at hq
    rcases eq_or_ne q p with rfl | hqp
    · rw [update_self] at hq
      exact absurd hq hc
    · rw [update_of_ne hqp] at hq
      exact absurd (h.unique q p (h.unlocking q hq) hp) hqp
  · change update s.control p c q = .setval r at hq
    rcases eq_or_ne q p with rfl | hqp
    · rw [update_self] at hq
      exact absurd hq (hset r)
    · rw [update_of_ne hqp] at hq
      exact absurd (((h.creating q r hq).2.1 p).symm.trans hp) Bool.false_ne_true

/-- A call of `semop` keeps the lock guarded. -/
theorem call (h : s.Guarded) (p : ι)
    (horderly : s.control p = .semop .handler → s.gotLock p = true) : (s.call p).Guarded := by
  have hunlock : ∀ {c}, s.control p = c → Control.Unlocking c → s.gotLock p = true :=
    fun hcontrol hc => h.unlocking p (hcontrol ▸ hc)
  unfold State.call
  split
  case h_1 r hcontrol hnone => exact (h.create hcontrol hnone).setKnown _
  case h_2 r v hcontrol _ =>
      exact (h.goTo (c := .getval r) (fun hc => hunlock hcontrol hc)
        fun _ => Control.noConfusion).setKnown _
  case h_3 r v hcontrol _ =>
      obtain ⟨-, hfree, halone⟩ := h.creating p r hcontrol
      have hnext := h.goTo (p := p) (c := .getval r) (fun hc => hunlock hcontrol hc)
        fun _ => Control.noConfusion
      refine hnext.setFree hfree (fun q r' hq => ?_) le_rfl
      change update s.control p (.getval r) q = .setval r' at hq
      rcases eq_or_ne q p with rfl | hqp
      · rw [update_self] at hq
        cases hq
      · rw [update_of_ne hqp] at hq
        exact hqp (halone q r' hq)
  case h_4 maxWait v _ _ =>
      split_ifs
      · exact h.goTo (fun hc => nomatch hc) fun _ => Control.noConfusion
      · exact h.retry p maxWait
  case h_5 v hcontrol _ =>
      split_ifs
      · exact h.goTo (fun _ => hunlock hcontrol rfl) fun _ => Control.noConfusion
      · exact h.goTo (fun hc => hc.elim) fun _ => Control.noConfusion
  case h_6 v _ _ =>
      split_ifs
      · exact h.goTo (fun hc => nomatch hc) fun _ => Control.noConfusion
      · exact h.goTo (fun hc => hc.elim) fun _ => Control.noConfusion
  case h_7 maxWait v _ hv =>
      split_ifs with hpos
      · exact h.take hv hpos
      · exact h.retry p maxWait
  case h_8 v hcontrol hv =>
      exact h.release (hunlock hcontrol rfl) hv (fun hc => hc.elim) fun _ => Control.noConfusion
  case h_9 v hcontrol hv =>
      exact h.release (horderly hcontrol) hv (fun hc => hc.elim) fun _ => Control.noConfusion
  case h_10 => exact h

theorem step (h : s.Guarded) {e : Event ι} (horderly : s.Orderly e) : (s.step e).Guarded := by
  cases e with
  | lock p maxWait =>
    simp only [State.step]
    split_ifs
    · exact h.start fun hr => nomatch hr
    · exact h
  | unlock p =>
    simp only [State.step]
    split_ifs with hworking
    · exact h.start fun _ => h.unlocking p (hworking ▸ trivial)
    · exact h
  | call p => exact h.call p horderly
  | signal p =>
    simp only [State.step]
    split_ifs
    · exact h
    · exact h.start fun hr => nomatch hr

theorem run_from (h : s.Guarded) {events : List (Event ι)} (horderly : s.OrderlyFrom events) :
    (events.foldl State.step s).Guarded := by
  induction events generalizing s with
  | nil => exact h
  | cons e events ih => exact ih (h.step horderly.1) horderly.2

end Guarded

/-- As long as no handler gives back a lock that its client has not got, the lock
is exclusive in every state of a run. -/
theorem exclusive_of_orderly {events : List (Event ι)}
    (horderly : OrderlyFrom (State.initial : State ι) events) : (run events).Exclusive := by
  have hguarded := Guarded.initial.run_from horderly
  exact ⟨fun p q _ _ => hguarded.unique p q, hguarded.value⟩

def locking (p : Fin 3) (calls : ℕ) : List (Event (Fin 3)) :=
  .lock p 100 :: List.replicate calls (.call p)

/-- The holder is told to exit and gives the lock back, and another client takes
it. -/
theorem exclusive_after_exit_of_holder :
    OrderlyFrom (State.initial : State (Fin 3))
        (locking 0 4 ++ [Event.signal 0, .call 0, .call 0] ++ locking 1 3) ∧
      (run (locking 0 4 ++ [Event.signal 0, .call 0, .call 0] ++ locking 1 3)).Exclusive :=
  ⟨by decide, exclusive_of_orderly (by decide)⟩

/-- A client that waits for the lock is told to exit, and the next one takes the
lock while it has a holder. -/
theorem two_holders_after_exit_of_waiter :
    let s := run (locking 0 4 ++ locking 1 2 ++ [Event.signal 1, .call 1, .call 1] ++ locking 2 3)
    s.control 0 = .working ∧ s.gotLock 0 = true ∧ s.control 2 = .working ∧ s.gotLock 2 = true ∧
      ¬ s.Exclusive := by
  refine ⟨by decide, by decide, by decide, by decide, fun h => ?_⟩
  exact absurd (h.holder 0 2 (by decide) (by decide) (by decide) (by decide)) (by decide)

end State

end Lock

end Bwctl

end Gargoyle
