import Gargoyle.Ddns.Daemon

/-!
# The clients of the dynamic DNS daemon

`run_request_through_daemon` puts the requests of one client into the message queue, signals the
daemon and then reads as many responses as it expects. All responses have one message type, so that
a client takes the response that is next, whosever it is. The response to a request for all services
is announced by a message that says how many there will be.

In the machine format a client prints a number for each service, as `run_request` does when there is
no daemon. What no variable of the programs holds is kept beside them: which client a response is
for, whether an update was made for it, and what a client has received.
-/

namespace Gargoyle

namespace Ddns

open Bandwidth EricsTools

inductive Printed
  | line (status : ℕ) (serviceName : String)
  | number (status : ℕ)
deriving DecidableEq

def nextStatus (updateStatus : ℕ) : ℕ :=
  if updateStatus = updateSuccessful then 2 else if updateStatus = updateNotNeeded then 1 else 0

def isStatus (updateStatus : ℕ) : Bool :=
  updateStatus = updateSuccessful || updateStatus = updateNotNeeded || updateStatus = updateFailed

section Bodies

variable [Kernel]

def numberBytes (n : ℕ) : List ℕ :=
  (List.range (Kernel.ulongBits / 8)).map fun k => n / 256 ^ k % 256

def ResponseBody.text : ResponseBody → String
  | .name serviceName => serviceName
  | .number n => String.ofList (((numberBytes n).takeWhile (· ≠ 0)).map Char.ofNat)

def ResponseBody.word : ResponseBody → ℕ
  | .name serviceName =>
    let bytes := (serviceName.toUTF8.toList.map UInt8.toNat).take (Kernel.ulongBits / 8)
    bytes.foldr (fun b n => b + 256 * n) 0
  | .number n => n

end Bodies

namespace Daemon

structure Answer (ι : Type*) where
  client : Option ι
  updated : Bool
  response : Response
deriving DecidableEq

section Clients

variable [Kernel] {ι : Type*}

variable (ι) in
/-- The variables of `run_request_through_daemon`, with the requests that are still to be sent and
what was received and printed. -/
structure Client where
  serviceNames : List String
  forceUpdate : Bool
  displayFormat : Char
  unsent : List Request
  signalled : Bool
  messagesExpected : ℕ
  messagesRead : ℕ
  resultMap : HashedMap sdbmStringHash ℕ
  received : List (Answer ι)
  printed : List Printed
  finished : Bool

namespace Client

def start (serviceNames : List String) (forceUpdate : Bool) (displayFormat : Char) : Client ι where
  serviceNames := serviceNames
  forceUpdate := forceUpdate
  displayFormat := displayFormat
  unsent := requestMessages serviceNames forceUpdate
  signalled := false
  messagesExpected := if allFound serviceNames then 1 else serviceNames.length
  messagesRead := 0
  resultMap := .empty
  received := []
  printed := []
  finished := false

def receive (c : Client ι) (a : Answer ι) : Client ι :=
  let updateStatus := a.response.code
  let c := { c with
    messagesExpected := c.messagesExpected +
      if updateStatus = updateOfMultipleServicesScheduled then a.response.body.word else 0
    messagesRead := c.messagesRead + 1
    received := c.received ++ [a] }
  let serviceName := a.response.body.text
  if c.displayFormat = 'h' then
    if isStatus updateStatus then { c with printed := c.printed ++ [.line updateStatus serviceName] }
    else c
  else if allFound c.serviceNames then
    { c with printed := c.printed ++ [.number (nextStatus updateStatus)] }
  else { c with resultMap := c.resultMap.set serviceName (nextStatus updateStatus) }

def finish (c : Client ι) : Client ι :=
  let results :=
    if c.displayFormat ≠ 'h' ∧ allFound c.serviceNames = false then
      c.serviceNames.map fun name => Printed.number ((c.resultMap.get name).getD 0)
    else []
  { c with printed := c.printed ++ results, finished := true }

def Waiting (c : Client ι) : Prop :=
  c.unsent ≠ requestMessages c.serviceNames c.forceUpdate ∧ c.finished = false

instance (c : Client ι) : Decidable c.Waiting := inferInstanceAs (Decidable (_ ∧ _))

end Client

/-- What `run_request` prints without a daemon, when this becomes of the updates. -/
def runRequest (configs : Configs) (serviceNames : List String) (displayFormat : Char)
    (update : Service sdbmStringHash → ℕ) : List Printed :=
  let serviceNames := if allFound serviceNames then configs.services.keys else serviceNames
  serviceNames.flatMap fun name =>
    match configs.services.get name with
    | none => []
    | some service =>
      let updateStatus := update service
      if isStatus updateStatus then
        [if displayFormat = 'h' then .line updateStatus service.testDomain
          else .number (nextStatus updateStatus)]
      else []

inductive Phase
  | running
  | reading (messageCount : ℕ)
  | clearing
  | ended
deriving DecidableEq

variable (ι) in
/-- The daemon and its clients, with the message queue: the requests and the responses. For the hash
of each service it is kept which client has asked for it. -/
structure System where
  daemon : State
  phase : Phase
  outputRequested : Bool
  requests : List (ι × Request)
  answers : List (Answer ι)
  askedBy : ℕ → Option ι
  clients : ι → Client ι

inductive SystemEvent (ι : Type*)
  | daemon (now : ℤ) (attempt : Attempt)
  | client (i : ι)
deriving DecidableEq

def requestedServices (configs : Configs) (request : Request) : List String :=
  if request.name = updateAllRequestStr then configs.services.keys else [request.name]

namespace System

def carryOn (s : System ι) (daemon : Option State) (answer : Response → Answer ι) : System ι :=
  match daemon with
  | some d =>
    { s with daemon := { d with responses := [] }, answers := s.answers ++ d.responses.map answer }
  | none => { s with phase := .ended }

def updateAnswer (s : System ι) (response : Response) : Answer ι where
  client := s.askedBy (sdbmStringHash response.body.text)
  updated := true
  response := response

def daemonStep (configs : Configs) (providers : HashedMap sdbmStringHash Provider)
    (referenceTime : ℤ) (s : System ι) (now : ℤ) (attempt : Attempt) : System ι :=
  match s.phase with
  | .running =>
    match s.daemon.place with
    | .top => s.carryOn (s.daemon.step configs providers referenceTime (.time now)) s.updateAnswer
    | .updating _ =>
      s.carryOn (s.daemon.step configs providers referenceTime (.update attempt)) s.updateAnswer
    | .sleeping =>
      if s.outputRequested then { s with phase := .reading 0 }
      else { s with daemon := { s.daemon with place := .top } }
  | .reading messageCount =>
    match s.requests with
    | [] => { s with phase := .clearing }
    | (i, request) :: requests =>
      let s := { s with
        requests := requests
        phase := .reading (messageCount + 1)
        askedBy := fun h =>
          if h ∈ (requestedServices configs request).map sdbmStringHash then some i
          else s.askedBy h }
      s.carryOn (s.daemon.handle configs request (messageCount + 1)) fun response =>
        ⟨some i, false, response⟩
  | .clearing =>
    { s with
      phase := .running
      outputRequested := false
      daemon := { s.daemon with place := .top } }
  | .ended => s

variable [DecidableEq ι]

def setClient (s : System ι) (i : ι) (c : Client ι) : System ι :=
  { s with clients := Function.update s.clients i c }

def clientStep (s : System ι) (i : ι) : System ι :=
  let c := s.clients i
  match c.unsent with
  | m :: ms =>
    if fitsLine m.name then
      { s with requests := s.requests ++ [(i, m)] }.setClient i { c with unsent := ms }
    -- a client whose line runs over is taken to end there
    else s.setClient i { c with unsent := [], finished := true }
  | [] =>
    if c.signalled = false then
      { s with outputRequested := true }.setClient i { c with signalled := true }
    else if c.messagesRead < c.messagesExpected then
      match s.answers with
      | [] => s
      | a :: as => { s with answers := as }.setClient i (c.receive a)
    else if c.finished then s
    else s.setClient i c.finish

def step (configs : Configs) (providers : HashedMap sdbmStringHash Provider) (referenceTime : ℤ)
    (s : System ι) : SystemEvent ι → System ι
  | .daemon now attempt => s.daemonStep configs providers referenceTime now attempt
  | .client i => s.clientStep i

def run (configs : Configs) (providers : HashedMap sdbmStringHash Provider) (referenceTime : ℤ)
    (s : System ι) (events : List (SystemEvent ι)) : System ι :=
  events.foldl (step configs providers referenceTime) s

omit [DecidableEq ι] in
/-- The handler is there, and the flag is cleared before the main loop. -/
def start (daemon : State) (clients : ι → Client ι) : System ι where
  daemon := daemon
  phase := .clearing
  outputRequested := false
  requests := []
  answers := []
  askedBy := fun _ => none
  clients := clients

end System

end Clients

end Daemon

end Ddns

end Gargoyle
