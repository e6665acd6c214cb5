import Mathlib.Data.Rat.Floor

/-!
# The congestion controller of the quality of service scripts

`qosmon` pings a host through the link and moves the upper rate of the download class so that the
round trip stays below a limit. Its main loop is a state machine: it waits for replies, unloads the
link to measure a round trip, and then watches it while the link is in use.

One pass of the loop is `State.pass`, and what comes from outside is a `Tick`. An `int` wraps
around at 32 bits, and the factors written as floating point numbers are exact rationals. What a
conversion to `int` gives for a value that an `int` cannot hold depends on the processor
(`Processor.outside`).
-/

namespace Gargoyle

namespace Qos

/-- The `int` that is left of a sum, a difference or a product. -/
def wrapInt (x : ℤ) : ℤ := x.bmod (2 ^ 32)

/-- An `int` can hold the number. -/
def FitsInt (x : ℤ) : Prop := -2 ^ 31 ≤ x ∧ x < 2 ^ 31

instance (x : ℤ) : Decidable (FitsInt x) := inferInstanceAs (Decidable (_ ∧ _))

def truncate (q : ℚ) : ℤ := if 0 ≤ q then ⌊q⌋ else ⌈q⌉

/-- What the processor makes of a value that an `int` cannot hold: `none` is a quotient by zero. -/
structure Processor where
  outside : Option ℚ → ℤ

/-- The conversion of a floating point value to `int`. -/
def Processor.toInt (cpu : Processor) : Option ℚ → ℤ
  | none => cpu.outside none
  | some q => if FitsInt (truncate q) then truncate q else cpu.outside (some q)

inductive QState
  | chk
  | init
  | active
  | realtime
  | idle
  | exit
deriving DecidableEq

/-- An accepted command line without `-l`. The limit is in milliseconds, the bandwidth in kbps. -/
structure Config where
  period : ℤ
  bandwidth : ℤ
  limit : Option ℤ
  addEntitlement : Bool
  skipInitialMeasurement : Bool
  customTriptime : ℤ
  le_period : 100 ≤ period
  period_le : period ≤ 2000
  le_bandwidth : 100 ≤ bandwidth
  bandwidth_lt : bandwidth < 2147483647 / 1000

namespace Config

/-- `DBW_UL`, in bps. -/
def DBW_UL (cfg : Config) : ℤ := cfg.bandwidth * 1000

/-- `pinglimit_cl`, in microseconds. -/
def pinglimitCl (cfg : Config) : ℤ :=
  match cfg.limit with
  | some limit => wrapInt (limit * 1000)
  | none => 0

def alpha (cfg : Config) : ℤ := truncate (cfg.period * 1000 / (cfg.period * 4 + cfg.period))

end Config

structure State where
  ntransmitted : ℕ
  nreceived : ℕ
  filTriptime : ℤ
  rawfltime : ℤ
  rawfltimeMax : ℤ
  classcnt : ℕ
  firstflg : Bool
  rtdca : ℕ
  dbwFil : ℤ
  pingon : Bool
  pinglimit : ℤ
  plimit : ℤ
  dbwUl : ℤ
  newDbwUl : ℤ
  savedActiveLimit : ℤ
  savedRealtimeLimit : ℤ
  qstate : QState
  skipInitialMeasurement : Bool
  resetbw : Bool
deriving DecidableEq

structure Reply where
  seq : ℕ
  triptime : ℤ
deriving DecidableEq

structure ClassList where
  errorflg : Bool
  classcnt : ℕ
  rtdca : ℕ
  dbwFil : ℤ
deriving DecidableEq

/-- What comes from outside in one pass. A signal comes before the pass tests `resetbw`, or after it
has cleared it. -/
structure Tick where
  replies : List Reply
  classes : ClassList
  signalBefore : Bool
  signalAfter : Bool
deriving DecidableEq

namespace State

def pinger (s : State) : State := { s with ntransmitted := (s.ntransmitted + 1) % 2 ^ 16 }

/-- `pr_pack`, for a reply to this process. -/
def prPack (cfg : Config) (s : State) (reply : Reply) : State :=
  let s := { s with nreceived := (s.nreceived + 1) % 2 ^ 16 }
  if reply.seq ≠ s.ntransmitted then s
  else
    let triptime := if reply.triptime > cfg.period then cfg.period else reply.triptime
    { s with
      rawfltime := triptime
      rawfltimeMax :=
        if triptime > s.rawfltimeMax.tdiv 1000 then wrapInt (triptime * 1000)
        else s.rawfltimeMax }

def classList (s : State) (classes : ClassList) : State :=
  { s with classcnt := classes.classcnt, rtdca := classes.rtdca, dbwFil := classes.dbwFil }

/-- `resetsig`, when the signal comes. -/
def resetsig (s : State) (signal : Bool) : State := { s with resetbw := s.resetbw || signal }

def tcClassModify (s : State) (rate : ℤ) : State :=
  if s.dbwUl = rate then s else { s with dbwUl := rate }

def applyLimit (s : State) : State := s.tcClassModify s.newDbwUl

def ClassesChanged (s : State) (classes : ClassList) : Prop :=
  classes.errorflg = true ∨ s.firstflg = false ∧ s.classcnt ≠ classes.classcnt

instance (s : State) (classes : ClassList) : Decidable (s.ClassesChanged classes) :=
  inferInstanceAs (Decidable (_ ∨ _ ∧ _))

def setLimits (s : State) (limit : ℤ) : State :=
  { s with savedRealtimeLimit := limit, savedActiveLimit := limit, newDbwUl := limit }

section Passes

variable (cpu : Processor) (cfg : Config)

/-- The variables when the main loop is reached. The first listing of the classes has found
`classcnt` of them. -/
def initial (classcnt : ℕ) : State :=
  let s : State :=
    { ntransmitted := 0, nreceived := 0, filTriptime := 0, rawfltime := 0
      rawfltimeMax := wrapInt (cfg.period * 1000), classcnt := classcnt, firstflg := true
      rtdca := 0, dbwFil := 0, pingon := false, pinglimit := cfg.pinglimitCl, plimit := 0
      dbwUl := cfg.DBW_UL, newDbwUl := 0, savedActiveLimit := 0, savedRealtimeLimit := 0
      qstate := .chk, skipInitialMeasurement := cfg.skipInitialMeasurement, resetbw := true }
  if cfg.skipInitialMeasurement then
    let defaultBw := cpu.toInt (some (cfg.DBW_UL * (9 / 10)))
    let fil := if cfg.customTriptime > 0 then wrapInt (cfg.customTriptime * 1000) else 20000
    let pinglimit :=
      if cfg.addEntitlement then cpu.toInt (some (cfg.pinglimitCl + 11 / 10 * fil))
      else cpu.toInt (some (2 * fil))
    (setLimits
      { s with
        qstate := .idle
        pingon := false
        filTriptime := fil
        pinglimit := pinglimit
        rawfltimeMax := wrapInt (2 * pinglimit) }
      defaultBw).applyLimit
  else s

/-- The limits are set to nine tenths of the link when `resetbw` is set. -/
def reset (s : State) : State :=
  if s.resetbw then
    { s.setLimits (cpu.toInt (some (cfg.DBW_UL * (9 / 10)))) with resetbw := false }
  else s

def filter (s : State) : State :=
  let s := if s.rawfltime = 0 then { s with rawfltime := s.rawfltimeMax.tdiv 1000 } else s
  if s.pingon then
    let change := wrapInt (wrapInt (wrapInt (s.rawfltime * 1000) - s.filTriptime) * cfg.alpha)
    { s with filTriptime := wrapInt (change.tdiv 1000 + s.filTriptime) }
  else s

/-- `case QMON_CHK`. -/
def check (s : State) : State :=
  let s := { s with pingon := true }
  if s.nreceived ≥ 2 then
    if s.pinglimit ≠ 0 ∧ cfg.addEntitlement = false then
      let s := { s with dbwUl := 0 }.applyLimit
      { s with filTriptime := wrapInt (s.rawfltime * 1000), qstate := .idle }
    else { s.tcClassModify 1000 with nreceived := 0, qstate := .init }
  else s

def measuredLimit (s : State) : ℤ :=
  let pinglimit :=
    if cfg.addEntitlement then cpu.toInt (some (s.pinglimit + s.filTriptime * (11 / 10)))
    else cpu.toInt (some (s.filTriptime * 2))
  let pinglimit := if pinglimit < 10000 then 10000 else pinglimit
  if pinglimit > 800000 then 800000 else pinglimit

/-- `case QMON_INIT`. -/
def measure (s : State) : State :=
  let s :=
    if s.nreceived < (10000 : ℤ).tdiv cfg.period + 1 then
      { s with filTriptime := wrapInt (s.rawfltime * 1000) }
    else s
  if s.nreceived > (15000 : ℤ).tdiv cfg.period + 1 then
    let s := { s with qstate := .idle }.applyLimit
    let pinglimit := s.measuredLimit cpu cfg
    { s with pinglimit := pinglimit, rawfltimeMax := wrapInt (2 * pinglimit) }
  else s

def saveLimit (s : State) : State :=
  let s := if s.qstate = .realtime then { s with savedRealtimeLimit := s.newDbwUl } else s
  if s.qstate = .active then { s with savedActiveLimit := s.newDbwUl } else s

def selectMode (s : State) : State :=
  if s.rtdca = 0 ∧ cfg.addEntitlement = true then
    let s := { s with
      plimit := wrapInt ((wrapInt (135 * cfg.pinglimitCl)).tdiv 100 + s.pinglimit) }
    if s.qstate ≠ .active then
      { s with qstate := .active, newDbwUl := s.savedActiveLimit }.applyLimit
    else s
  else
    let s := { s with plimit := s.pinglimit }
    if s.qstate ≠ .realtime then
      { s with qstate := .realtime, newDbwUl := s.savedRealtimeLimit }.applyLimit
    else s

def becomeIdle (s : State) : State :=
  if (s.dbwFil : ℚ) < 1 / 10 * cfg.DBW_UL then { s with qstate := .idle } else s

def err (s : State) : ℤ := wrapInt (s.filTriptime - s.plimit)

/-- `new_dbw_ul * (1.0 - 0.004*err*(float)period/(float)plimit/1000.0)`. -/
def scaled (s : State) : Option ℚ :=
  if s.plimit = 0 then none
  else some (s.newDbwUl * (1 - 4 / 1000 * s.err * cfg.period / s.plimit / 1000))

/-- The limit proposed is sent, and `rawfltime_max` kept fresh. -/
def sendLimit (s : State) : State :=
  let s := s.applyLimit
  if s.rawfltimeMax > s.plimit then { s with rawfltimeMax := wrapInt (s.rawfltimeMax - 100) }
  else s

def adjust (s : State) : State :=
  let scaled := cpu.toInt (s.scaled cfg)
  if s.err < 0 then
    if (s.dbwFil : ℚ) < s.dbwUl * (85 / 100) then s
    else { s with newDbwUl := if scaled > cfg.DBW_UL then cfg.DBW_UL else scaled }.sendLimit
  else
    let floor := (cfg.DBW_UL : ℚ) * (15 / 100)
    { s with newDbwUl := if (scaled : ℚ) < floor then cpu.toInt (some floor) else scaled }.sendLimit

/-- `case QMON_REALTIME`, up to the computation of the error. -/
def enterControl (s : State) : State :=
  (({ s with pingon := true }.saveLimit).selectMode cfg).becomeIdle cfg

/-- `case QMON_ACTIVE` and `case QMON_REALTIME`. -/
def control (s : State) : State := (s.enterControl cfg).adjust cpu cfg

def StaysIdle (s : State) : Prop := (s.dbwFil : ℚ) < 12 / 100 * cfg.DBW_UL

instance (s : State) : Decidable (s.StaysIdle cfg) := inferInstanceAs (Decidable (_ < _))

/-- The `switch` of the state machine. -/
def machine (s : State) : State :=
  match s.qstate with
  | .chk => s.check cfg
  | .init => s.measure cpu cfg
  | .idle =>
    let s := { s with pingon := false }
    if s.StaysIdle cfg then s else s.control cpu cfg
  | .active => s.control cpu cfg
  | .realtime => s.control cpu cfg
  | .exit => s

def ping (s : State) (replies : List Reply) : State :=
  let s := { s with rawfltime := 0 }
  let s := if s.pingon then s.pinger else s
  replies.foldl (prPack cfg) s

def startOver (s : State) : State := { s with firstflg := true, pingon := false, qstate := .chk }

/-- The state in which a pass enters the `switch`. -/
def switchState (s : State) (t : Tick) : State :=
  let s := ((s.ping cfg t.replies).classList t.classes).resetsig t.signalBefore
  let s := if s.skipInitialMeasurement then { s with firstflg := false } else s
  ({ s with skipInitialMeasurement := false }.reset cpu cfg).filter cfg

def pass (s : State) (t : Tick) : State :=
  if s.ClassesChanged t.classes then
    ((((s.ping cfg t.replies).classList t.classes).resetsig t.signalBefore).startOver).resetsig
      t.signalAfter
  else
    { (s.switchState cpu cfg t).machine cpu cfg with firstflg := false }.resetsig t.signalAfter

def run (s : State) (ticks : List Tick) : State := ticks.foldl (pass cpu cfg) s

/-- What follows the main loop after `SIGTERM`. -/
def finish (s : State) : State := { s with qstate := .exit }.tcClassModify cfg.DBW_UL

end Passes

end State

end Qos

end Gargoyle
