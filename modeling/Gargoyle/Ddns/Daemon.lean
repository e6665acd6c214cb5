import Gargoyle.Ddns.Updates
import Gargoyle.EricsTools.PriorityQueue

/-!
# How the dynamic DNS daemon is woken up

A client puts its requests into the message queue and raises `SIGUSR1`. The handler of the daemon
sets a flag, and the daemon looks at the flag after each sleep. When it is set the daemon reads the
queue until it finds no request, and then clears the flag.

A step is one call of a client, or one step of the daemon: the update loop, the sleep, the test of
the flag, reading one message, clearing the flag. The handler runs between two steps of the daemon,
when the client raises the signal. The steps of the daemon and of any number of clients are
interleaved.

The flag is cleared once more before the main loop, when the handler is there already. A request is
forgotten when it comes, with its signal, before this, or after the daemon has found the queue empty
and before it clears the flag, and in no other way (`not_forgotten_of_timely`).
-/

namespace Gargoyle

namespace Ddns

structure Request where
  forced : Bool
  name : String
deriving DecidableEq

/-- `MAX_MSG_LINE`. -/
def maxMsgLine : ℕ := 250

/-- The line of a message holds its first byte, the text and the NUL that `sprintf` puts behind it.
With a longer text `sprintf` runs over the line, and a line without a NUL is read over its end. -/
def fitsLine (text : String) : Bool := 1 + text.utf8ByteSize + 1 ≤ maxMsgLine

/-- `UPDATE_ALL_REQUEST_STR`. -/
def updateAllRequestStr : String := "UPDATE_OF_ALL_DEFINED_DDNS_SERVICE_CONFIGURATIONS_REQUESTED"

/-- `all_found`: no service is named, or one of the names is "all". -/
def allFound (serviceNames : List String) : Bool :=
  serviceNames.isEmpty || serviceNames.any (· = "all")

/-- The messages that `run_request_through_daemon` sends. -/
def requestMessages (serviceNames : List String) (forceUpdate : Bool) : List Request :=
  if allFound serviceNames then [⟨forceUpdate, updateAllRequestStr⟩]
  else serviceNames.map fun name => ⟨forceUpdate, name⟩

namespace WakeUp

inductive Place
  | starting
  | updating
  | sleeping
  | testing
  | reading
  | clearing
deriving DecidableEq

/-- What the daemon does next is to clear the flag. -/
def Place.clears : Place → Bool
  | .starting | .clearing => true
  | _ => false

/-- The requests in the message queue, each with the client it is from, the flag, the place of the
daemon, and for each client the messages it has still to send and whether it has raised the signal. -/
structure State (ι : Type*) where
  queue : List (ι × Request)
  outputRequested : Bool
  place : Place
  unsent : ι → List Request
  signalled : ι → Bool

inductive Event (ι : Type*)
  | daemon
  | client (i : ι)
deriving DecidableEq

variable {ι : Type*}

def State.initial (messages : ι → List Request) : State ι where
  queue := []
  outputRequested := false
  place := .starting
  unsent := messages
  signalled := fun _ => false

namespace State

def daemonStep (s : State ι) : State ι :=
  match s.place with
  -- the handler is there since `daemonize`, and the flag is cleared before the main loop
  | .starting => { s with outputRequested := false, place := .updating }
  | .updating => { s with place := .sleeping }
  | .sleeping => { s with place := .testing }
  | .testing => { s with place := if s.outputRequested then .reading else .updating }
  | .reading =>
    match s.queue with
    | [] => { s with place := .clearing }
    | _ :: queue => { s with queue := queue }
  | .clearing => { s with outputRequested := false, place := .updating }

variable [DecidableEq ι]

def clientStep (s : State ι) (i : ι) : State ι :=
  match s.unsent i with
  | m :: ms =>
    -- a client whose line runs over is taken to end there
    if fitsLine m.name then
      { s with queue := s.queue ++ [(i, m)], unsent := Function.update s.unsent i ms }
    else s
  | [] =>
    if s.signalled i then s
    else { s with outputRequested := true, signalled := Function.update s.signalled i true }

def step (s : State ι) : Event ι → State ι
  | .daemon => s.daemonStep
  | .client i => s.clientStep i

def run (s : State ι) (events : List (Event ι)) : State ι := events.foldl step s

omit [DecidableEq ι] in
def Forgotten (s : State ι) : Prop :=
  (∃ i, s.unsent i = [] ∧ s.signalled i = true ∧ ∃ m, (i, m) ∈ s.queue) ∧
    s.outputRequested = false ∧ s.place ≠ .reading ∧ s.place ≠ .clearing

def Timely (s : State ι) : Event ι → Prop
  | .daemon => True
  | .client i => s.place.clears → s.unsent i = [] → s.signalled i = false →
      ∀ m, (i, m) ∉ s.queue

def TimelyFrom : State ι → List (Event ι) → Prop
  | _, [] => True
  | s, e :: es => s.Timely e ∧ TimelyFrom (s.step e) es

/-- A client that has raised the signal has sent all, and its requests are not in the queue unless
the daemon will look there: it is reading, or the flag is set before it clears it. -/
structure Heard (s : State ι) : Prop where
  sent : ∀ i, s.signalled i = true → s.unsent i = []
  clearing : s.place.clears → ∀ i m, s.signalled i = true → (i, m) ∉ s.queue
  waiting : s.place ≠ .reading → s.place.clears = false → s.outputRequested = false →
    ∀ i m, s.signalled i = true → (i, m) ∉ s.queue

omit [DecidableEq ι] in
theorem daemonStep_of_clears {s : State ι} (h : s.place.clears) :
    s.daemonStep = { s with outputRequested := false, place := .updating } := by
  cases hplace : s.place <;> rw [hplace] at h <;> simp only [daemonStep, hplace] <;> cases h

namespace Heard

variable {s : State ι} {i : ι}

omit [DecidableEq ι] in
theorem initial (messages : ι → List Request) : (State.initial messages).Heard where
  sent := fun _ h => absurd h Bool.false_ne_true
  clearing := fun _ _ _ h => absurd h Bool.false_ne_true
  waiting := fun _ _ _ _ _ h => absurd h Bool.false_ne_true

omit [DecidableEq ι] in
theorem daemonStep (h : s.Heard) : s.daemonStep.Heard := by
  cases hplace : s.place with
  | starting =>
    have hclears : s.place.clears := by rw [hplace]; rfl
    rw [daemonStep_of_clears hclears]
    exact ⟨h.sent, by rintro ⟨⟩, fun _ _ _ => h.clearing hclears⟩
  | updating =>
    have hkeep := h.waiting (by rw [hplace]; decide) (by rw [hplace]; rfl)
    simp only [State.daemonStep, hplace]
    exact ⟨h.sent, by rintro ⟨⟩, fun _ _ hflag => hkeep hflag⟩
  | sleeping =>
    have hkeep := h.waiting (by rw [hplace]; decide) (by rw [hplace]; rfl)
    simp only [State.daemonStep, hplace]
    exact ⟨h.sent, by rintro ⟨⟩, fun _ _ hflag => hkeep hflag⟩
  | testing =>
    have hkeep := h.waiting (by rw [hplace]; decide) (by rw [hplace]; rfl)
    simp only [State.daemonStep, hplace]
    cases hflag : s.outputRequested with
    | false => exact ⟨h.sent, by rintro ⟨⟩, fun _ _ _ => hkeep hflag⟩
    | true => exact ⟨h.sent, by rintro ⟨⟩, fun hr => absurd rfl hr⟩
  | reading =>
    cases hqueue : s.queue with
    | nil =>
      simp only [State.daemonStep, hplace, hqueue]
      exact ⟨h.sent, fun _ _ _ _ hm => List.not_mem_nil hm, by rintro - ⟨⟩⟩
    | cons m queue =>
      simp only [State.daemonStep, hplace, hqueue]
      exact ⟨h.sent, by rintro ⟨⟩, fun hr => absurd rfl hr⟩
  | clearing =>
    have hclears : s.place.clears := by rw [hplace]; rfl
    rw [daemonStep_of_clears hclears]
    exact ⟨h.sent, by rintro ⟨⟩, fun _ _ _ => h.clearing hclears⟩

theorem send (h : s.Heard) {m : Request} {ms : List Request} (hunsent : s.unsent i = m :: ms) :
    Heard { s with
      queue := s.queue ++ [(i, m)], unsent := Function.update s.unsent i ms } := by
  have hnot : ∀ j, s.signalled j = true → j ≠ i := by
    rintro j hj rfl
    rw [h.sent j hj] at hunsent
    cases hunsent
  have hmem : ∀ j m', s.signalled j = true → (j, m') ∉ s.queue →
      (j, m') ∉ s.queue ++ [(i, m)] := by
    intro j m' hj hold hnew
    rcases List.mem_append.1 hnew with hnew | hnew
    · exact hold hnew
    · exact hnot j hj (Prod.mk.inj (List.mem_singleton.1 hnew)).1
  refine ⟨fun j hj => ?_, fun hc j m' hj => ?_, fun hr hc hflag j m' hj => ?_⟩
  · show Function.update s.unsent i ms j = []
    rw [Function.update_of_ne (hnot j hj)]
    exact h.sent j hj
  · exact hmem j m' hj (h.clearing hc j m' hj)
  · exact hmem j m' hj (h.waiting hr hc hflag j m' hj)

theorem signal (h : s.Heard) (hunsent : s.unsent i = [])
    (htimely : s.place.clears → ∀ m, (i, m) ∉ s.queue) :
    Heard { s with
      outputRequested := true, signalled := Function.update s.signalled i true } := by
  refine ⟨fun j hj => ?_, fun hc j m hj => ?_, by rintro - - ⟨⟩⟩
  · rcases eq_or_ne j i with rfl | hji
    · exact hunsent
    · exact h.sent j ((Function.update_of_ne hji ..).symm.trans hj)
  · rcases eq_or_ne j i with rfl | hji
    · exact htimely hc m
    · exact h.clearing hc j m ((Function.update_of_ne hji ..).symm.trans hj)

theorem step (h : s.Heard) {e : Event ι} (htimely : s.Timely e) : (s.step e).Heard := by
  cases e with
  | daemon => exact h.daemonStep
  | client i =>
    show (s.clientStep i).Heard
    cases hunsent : s.unsent i with
    | cons m ms =>
      simp only [State.clientStep, hunsent]
      split_ifs
      · exact h.send hunsent
      · exact h
    | nil =>
      simp only [State.clientStep, hunsent]
      split_ifs with hsignalled
      · exact h
      · exact h.signal hunsent fun hc => htimely hc hunsent (Bool.eq_false_iff.2 hsignalled)

theorem run (h : s.Heard) {events : List (Event ι)} (htimely : s.TimelyFrom events) :
    (s.run events).Heard := by
  induction events generalizing s with
  | nil => exact h
  | cons e es ih => exact ih (h.step htimely.1) htimely.2

omit [DecidableEq ι] in
theorem not_forgotten (h : s.Heard) : ¬s.Forgotten := by
  rintro ⟨⟨i, -, hsignalled, m, hm⟩, hflag, hr, -⟩
  cases hc : s.place.clears with
  | true => exact h.clearing hc i m hsignalled hm
  | false => exact h.waiting hr hc hflag i m hsignalled hm

end Heard

instance (s : State ι) : (e : Event ι) → Decidable (s.Timely e)
  | .daemon => inferInstanceAs (Decidable True)
  | .client i =>
    decidable_of_iff (s.place.clears → s.unsent i = [] → s.signalled i = false →
      ∀ p ∈ s.queue, p.1 ≠ i)
      ⟨fun h h₁ h₂ h₃ m hm => h h₁ h₂ h₃ (i, m) hm rfl,
        fun h h₁ h₂ h₃ p hp heq => h h₁ h₂ h₃ p.2 (heq ▸ hp)⟩

instance : (s : State ι) → (es : List (Event ι)) → Decidable (TimelyFrom s es)
  | _, [] => inferInstanceAs (Decidable True)
  | s, e :: es =>
    have := instDecidableTimelyFrom (s.step e) es
    inferInstanceAs (Decidable (s.Timely e ∧ TimelyFrom (s.step e) es))

/-- An event that is not timely is followed by a forgotten request as soon as the daemon goes on. -/
theorem forgotten_of_not_timely {s : State ι} {e : Event ι} (h : ¬s.Timely e) :
    (s.run [e, .daemon]).Forgotten := by
  cases e with
  | daemon => exact absurd trivial h
  | client i =>
    simp only [Timely, not_forall, not_not] at h
    obtain ⟨hplace, hunsent, hsignalled, m, hm⟩ := h
    simp only [run, List.foldl_cons, List.foldl_nil, step, clientStep, hunsent, hsignalled,
      if_false, Bool.false_eq_true]
    rw [daemonStep_of_clears (by exact hplace)]
    exact ⟨⟨i, hunsent, Function.update_self .., m, hm⟩, rfl, by simp, by simp⟩

end State

/-- In a run of timely events no request is forgotten. -/
theorem not_forgotten_of_timely [DecidableEq ι] (serviceNames : ι → List String)
    (forceUpdate : ι → Bool) (events : List (Event ι))
    (htimely : (State.initial fun i =>
      requestMessages (serviceNames i) (forceUpdate i)).TimelyFrom events) :
    ¬((State.initial fun i =>
      requestMessages (serviceNames i) (forceUpdate i)).run events).Forgotten :=
  ((State.Heard.initial _).run htimely).not_forgotten

/-- One client, whose request is read. -/
theorem not_forgotten_of_timely_example :
    ¬((State.initial fun _ : Unit => requestMessages ["home"] false).run
      [.client (), .daemon, .client (), .daemon, .daemon, .daemon, .daemon, .daemon,
        .daemon]).Forgotten :=
  not_forgotten_of_timely (fun _ => ["home"]) (fun _ => false) _ (by decide)

/-- A second client sends its request and raises its signal after the daemon has found the queue
empty. -/
theorem forgotten_while_clearing :
    ((State.initial fun i : Bool => requestMessages [if i then "home" else "work"] false).run
      [.client false, .daemon, .client false, .daemon, .daemon, .daemon, .daemon, .daemon,
        .client true, .client true, .daemon]).Forgotten := by
  refine ⟨⟨true, rfl, rfl, ⟨false, "home"⟩, ?_⟩, rfl, ?_⟩
  · decide
  · decide

end WakeUp

/-!
## The daemon of the dynamic DNS updater

`run_daemon` has two queues of services. In the first one a service waits for the time of its next
update, and in the second one are the services that a client has asked for. The update loop takes
the services out of the second queue, and then the ones whose time has come out of the first one,
and puts each back into the first one. After a sleep, when it has been signalled, the daemon reads
the requests and moves the services that they name from the first queue to the second.

A function returns `none` where the program follows a null pointer, ends with `exit(1)` or leaves
the line of a message.
-/

open Bandwidth EricsTools

inductive ResponseBody
  | name (name : String)
  | number (n : ℕ)
deriving DecidableEq

structure Response where
  code : ℕ
  body : ResponseBody
deriving DecidableEq

/-- `UPDATE_OF_MULTIPLE_SERVICES_SCHEDULED`. -/
def updateOfMultipleServicesScheduled : ℕ := 6

namespace Daemon

inductive Place
  | top
  | updating (first : Bool)
  | sleeping
deriving DecidableEq

inductive Event
  | time (now : ℤ)
  | update (attempt : Attempt)
  | requests (messages : List Request)
deriving DecidableEq

structure Start where
  currentTime : ℤ
  lastUpdate : Option ℤ
deriving DecidableEq

variable [Kernel]

/-- `service_configs`. Each configuration is stored under its name. -/
structure Configs where
  services : HashedMap sdbmStringHash (Service sdbmStringHash)
  name_eq : ∀ e ∈ services.entries, e.2.name = e.1

/-- The variables of `run_daemon`. -/
structure State where
  updateQueue : PriorityQueue UpdateNode
  requestQueue : PriorityQueue UpdateNode
  memory : Memory sdbmStringHash
  responses : List Response
  place : Place
  currentTime : ℤ
  lastChecked : ℤ

def timePriority (time : ℤ) : ℕ := (time % 2 ^ Kernel.ulongBits).toNat

namespace State

def schedule (s : State) (referenceTime : ℤ) (node : UpdateNode) : Option State := do
  let updateQueue ← s.updateQueue.pushPriorityQueue
    (timePriority (node.nextTime - referenceTime)) node.serviceName node
  some { s with updateQueue := updateQueue }

def startNode (service : Service sdbmStringHash) (forceUpdate : Bool) (start : Start) : UpdateNode :=
  let lastUpdate := start.lastUpdate.getD start.currentTime
  let timeSinceUpdate := (start.currentTime - lastUpdate).bmod (2 ^ 32)
  { serviceName := service.name
    nextTime := start.currentTime
    lastFullUpdate :=
      if timeSinceUpdate ≤ 0 ∨ timeSinceUpdate ≥ service.forceInterval ∨ forceUpdate = true then 0
      else lastUpdate }

def initial (lastChecked : ℤ) : State where
  updateQueue := .initializePriorityQueue
  requestQueue := .initializePriorityQueue
  memory := .empty
  responses := []
  place := .top
  currentTime := lastChecked
  lastChecked := lastChecked

def start (configs : Configs) (forceUpdate : Bool) (referenceTime lastChecked : ℤ)
    (starts : String → Start) : Option State :=
  configs.services.entries.foldlM
    (fun s e => s.schedule referenceTime (startNode e.2 forceUpdate (starts e.1)))
    (initial lastChecked)

def nextRound (s : State) (first : Bool) : Option (Option Bool) := do
  let checkRq ← s.requestQueue.peekPriorityQueue
  let checkUq ←
    if first = true ∧ checkRq.isSome then some checkRq else s.updateQueue.peekPriorityQueue
  let next ← checkUq
  some (if s.currentTime ≥ next.value.nextTime ∨ checkRq.isSome then some checkRq.isSome else none)

def dequeue (s : State) (requested : Bool) : Option (State × UpdateNode) :=
  if requested then do
    let (requestQueue, element) ← s.requestQueue.shiftPriorityQueue
    let e ← element
    some ({ s with requestQueue := requestQueue }, e.value)
  else do
    let (updateQueue, element) ← s.updateQueue.shiftPriorityQueue
    let e ← element
    some ({ s with updateQueue := updateQueue }, e.value)

def respond (s : State) (response : Response) : State :=
  { s with responses := s.responses ++ [response] }

def respondLine (s : State) (code : ℕ) (name : String) : Option State :=
  if fitsLine name then some (s.respond ⟨code, .name name⟩) else none

def round (configs : Configs) (providers : HashedMap sdbmStringHash Provider) (referenceTime : ℤ)
    (s : State) (requested : Bool) (attempt : Attempt) : Option State := do
  let (s, node) ← s.dequeue requested
  let service ← configs.services.get node.serviceName
  let (memory, node, report) := performUpdate providers service s.memory node attempt
  let s := { s with memory := memory, currentTime := attempt.currentTime }
  let s ← (if requested then s.respondLine (report.status % 2 ^ 8) service.name else some s)
  let s ← s.schedule referenceTime node
  some { s with place := .updating false }

def moveToRequests (s : State) (name : String) (forced : Bool) (messageCount : ℕ) :
    Option State := do
  let (updateQueue, nextUpdate, _) ← s.updateQueue.removePriorityQueueElementWithId name
  let node ← nextUpdate
  let node := { node with
    nextTime := s.currentTime
    lastFullUpdate := if forced then 0 else node.lastFullUpdate }
  let requestQueue ← s.requestQueue.pushPriorityQueue messageCount node.serviceName node
  some { s with updateQueue := updateQueue, requestQueue := requestQueue }

def handle (configs : Configs) (s : State) (request : Request) (messageCount : ℕ) : Option State :=
  if fitsLine request.name = false then none
  else if request.name = updateAllRequestStr then
    let names := configs.services.entries.map fun e => e.2.name
    let s :=
      if names.length > 1 then s.respond ⟨updateOfMultipleServicesScheduled, .number names.length⟩
      else s
    names.foldlM (fun s name => s.moveToRequests name request.forced messageCount) s
  else
    match configs.services.get request.name with
    | some _ => s.moveToRequests request.name request.forced messageCount
    | none => s.respondLine updateFailed request.name

def handleAll (configs : Configs) : State → List Request → ℕ → Option State
  | s, [], _ => some s
  | s, r :: rs, messageCount => do
    let s ← s.handle configs r messageCount
    handleAll configs s rs (messageCount + 1)

def step (configs : Configs) (providers : HashedMap sdbmStringHash Provider) (referenceTime : ℤ)
    (s : State) : Event → Option State
  | .time now =>
    match s.place with
    | .top =>
      if now = s.lastChecked then some { s with currentTime := now, place := .sleeping }
      else some { s with currentTime := now, lastChecked := now, place := .updating true }
    | _ => some s
  | .update attempt =>
    match s.place with
    | .updating first => do
      let next ← s.nextRound first
      match next with
      | some requested => s.round configs providers referenceTime requested attempt
      | none => some { s with place := .sleeping }
    | _ => some s
  | .requests messages =>
    match s.place with
    | .sleeping => (s.handleAll configs messages 1).map fun s => { s with place := .top }
    | _ => some s

def run (configs : Configs) (providers : HashedMap sdbmStringHash Provider) (referenceTime : ℤ) :
    State → List Event → Option State
  | s, [] => some s
  | s, e :: es => do
    let s ← s.step configs providers referenceTime e
    run configs providers referenceTime s es

end State

end Daemon

end Ddns

end Gargoyle
