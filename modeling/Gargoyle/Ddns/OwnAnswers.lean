import Gargoyle.Ddns.Clients
import Gargoyle.Ddns.Queues

/-!
# Clients of the dynamic DNS daemon and their answers

What a client has asked for is in one of five places: not sent yet, in the queue of requests, in the
daemon's queue, in the queue of responses, or received. As long as no client reads a response while
another one waits for its own, no client gets the response of another (`served_of_alone`).
-/

namespace Gargoyle

open List

namespace Ddns

open Bandwidth EricsTools

def Attempt.Proper (attempt : Attempt) : Prop :=
  ∀ status, attempt.scriptStatus = some status → isStatus status = true

instance (attempt : Attempt) : Decidable attempt.Proper :=
  inferInstanceAs (Decidable (∀ status ∈ attempt.scriptStatus, isStatus status = true))

theorem isStatus_of_proper {hash : String → ℕ} {attempt : Attempt} (h : attempt.Proper)
    (providers : HashedMap hash Provider) (service : Service hash) (memory : Memory hash)
    (node : UpdateNode) :
    isStatus (performUpdate providers service memory node attempt).2.2.status = true := by
  rw [performUpdate]
  dsimp only
  generalize (remoteIp _ _ _ _).2.1 = remote
  generalize (localIp _ _ _).2 = found
  rw [doSingleUpdate]
  split
  · rfl
  · split
    · rfl
    · split_ifs
      · split
        · cases hscript : attempt.scriptStatus with
          | none => rfl
          | some status => exact h status hscript
        · split
          · rw [pageStatus]
            split
            · split_ifs <;> rfl
            · split_ifs <;> rfl
            · rfl
          · rfl
      · rfl

namespace Daemon

section Runs

variable [Kernel] {ι : Type*} {configs : Configs}

def Answer.name (a : Answer ι) : String := a.response.body.text

def Client.wanted (configs : Configs) (c : Client ι) : List String :=
  (requestMessages c.serviceNames c.forceUpdate).flatMap (requestedServices configs)

def Askable (configs : Configs) (serviceNames : List String) : Prop :=
  (∀ request ∈ requestMessages serviceNames false, ∀ name ∈ requestedServices configs request,
      fitsLine name = true) ∧
    if allFound serviceNames then configs.services.keys.length = 1
    else ∀ name ∈ serviceNames, name ∈ configs.services.keys ∧
      (name = updateAllRequestStr → configs.services.keys.length = 1)

def System.Alone (s : System ι) : SystemEvent ι → Prop
  | .daemon _ attempt => attempt.Proper
  | .client i => (s.clients i).unsent = [] → (s.clients i).signalled = true →
      (s.clients i).messagesRead < (s.clients i).messagesExpected →
      ∀ j, j ≠ i → ¬(s.clients j).Waiting

/-- What a client that has finished has got: one response for each service that it wants, to its own
request and after an update, and in the machine format it has printed what `run_request` prints when
the updates come out so. -/
def Client.Served (configs : Configs) (i : ι) (c : Client ι) : Prop :=
  (c.received.map Answer.name).Perm (c.wanted configs) ∧
    (∀ a ∈ c.received, a.client = some i ∧ a.updated = true) ∧
    (c.displayFormat ≠ 'h' → ∃ outcome : String → ℕ,
      (∀ name ∈ c.wanted configs, ∃ a ∈ c.received, a.name = name ∧ a.response.code = outcome name) ∧
      c.printed = runRequest configs c.serviceNames c.displayFormat fun service =>
        outcome service.name)

/-! ## What is wanted -/

def SingleRequest (configs : Configs) (request : Request) : Prop :=
  ∃ name ∈ configs.services.keys, fitsLine name = true ∧ requestedServices configs request = [name]

theorem SingleRequest.fits {request : Request} (h : SingleRequest configs request) :
    fitsLine request.name = true := by
  obtain ⟨name, -, hfits, hservices⟩ := h
  rw [requestedServices] at hservices
  split_ifs at hservices with hall
  · rw [hall]
    decide
  · obtain rfl := List.singleton_inj.1 hservices
    exact hfits

section Wanted

variable {serviceNames : List String}

theorem keys_eq_singleton (h : configs.services.keys.length = 1) {name : String}
    (hname : name ∈ configs.services.keys) : configs.services.keys = [name] := by
  obtain ⟨key, hkeys⟩ := List.length_eq_one_iff.1 h
  rw [hkeys, mem_singleton] at hname
  rw [hkeys, hname]

theorem requestedServices_of_mem {name : String} (hname : name ∈ configs.services.keys)
    (hone : name = updateAllRequestStr → configs.services.keys.length = 1) (forced : Bool) :
    requestedServices configs ⟨forced, name⟩ = [name] := by
  rw [requestedServices]
  split_ifs with hall
  · exact keys_eq_singleton (hone hall) hname
  · rfl

theorem Askable.single (h : Askable configs serviceNames) (forceUpdate : Bool) {request : Request}
    (hrequest : request ∈ requestMessages serviceNames forceUpdate) :
    SingleRequest configs request := by
  obtain ⟨hfits, h⟩ := h
  rw [requestMessages] at hfits hrequest
  split_ifs at h hfits hrequest with hall
  · obtain rfl := List.mem_singleton.1 hrequest
    obtain ⟨key, hkeys⟩ := List.length_eq_one_iff.1 h
    have hservices : ∀ forced, requestedServices configs ⟨forced, updateAllRequestStr⟩ = [key] :=
      fun _ => by rw [requestedServices, if_pos rfl, hkeys]
    refine ⟨key, by rw [hkeys]; exact mem_singleton_self key, ?_, hservices forceUpdate⟩
    exact hfits _ (mem_singleton_self _) key (by rw [hservices]; exact mem_singleton_self key)
  · obtain ⟨name, hname, rfl⟩ := List.mem_map.1 hrequest
    obtain ⟨hkey, hone⟩ := h name hname
    refine ⟨name, hkey, ?_, requestedServices_of_mem hkey hone forceUpdate⟩
    exact hfits ⟨false, name⟩ (mem_map_of_mem hname) name
      (by rw [requestedServices_of_mem hkey hone]; exact mem_singleton_self name)

theorem Askable.wanted_eq {c : Client ι} (h : Askable configs c.serviceNames) :
    c.wanted configs =
      if allFound c.serviceNames then configs.services.keys else c.serviceNames := by
  replace h := h.2
  rw [Client.wanted, requestMessages]
  split_ifs at h ⊢ with hall
  · rw [flatMap_singleton, requestedServices, if_pos rfl]
  · rw [flatMap_map]
    refine (flatMap_congr fun name hname => ?_).trans (flatMap_singleton' _)
    exact requestedServices_of_mem (h name hname).1 (h name hname).2 _

end Wanted

/-! ## Where it is -/

structure Answer.Good (configs : Configs) (a : Answer ι) : Prop where
  updated : a.updated = true
  status : isStatus a.response.code = true
  body : ∃ name ∈ configs.services.keys, a.response.body = .name name

def resultsOf (received : List (Answer ι)) : HashedMap sdbmStringHash ℕ :=
  received.foldl (fun results a => results.set a.name (nextStatus a.response.code)) .empty

structure Client.Sound (configs : Configs) (i : ι) (c : Client ι) : Prop where
  askable : Askable configs c.serviceNames
  unsent : c.unsent ⊆ requestMessages c.serviceNames c.forceUpdate
  signalled : c.signalled = true → c.unsent = []
  read : c.messagesRead = c.received.length
  expected : c.messagesExpected = (c.wanted configs).length
  received : ∀ a ∈ c.received, a.client = some i ∧ a.Good configs
  results : c.displayFormat ≠ 'h' → allFound c.serviceNames = false →
    c.resultMap = resultsOf c.received
  printed : c.displayFormat ≠ 'h' → c.printed =
    if allFound c.serviceNames then
      c.received.map fun a => .number (nextStatus a.response.code)
    else if c.finished then
      c.serviceNames.map fun name => .number (((resultsOf c.received).get name).getD 0)
    else []
  finished : c.finished = true → c.unsent = [] ∧ c.messagesExpected ≤ c.messagesRead

section Places

variable [DecidableEq ι]

def sent (configs : Configs) (requests : List (ι × Request)) (i : ι) : List String :=
  (requests.filter fun p => p.1 = i).flatMap fun p => requestedServices configs p.2

def queued (askedBy : ℕ → Option ι) (ids : List String) (i : ι) : List String :=
  ids.filter fun id => askedBy (sdbmStringHash id) = some i

def answered (answers : List (Answer ι)) (i : ι) : List String :=
  (answers.filter fun a => a.client = some i).map Answer.name

def System.outstanding (configs : Configs) (s : System ι)
    (rq : List (PriorityQueueNode UpdateNode)) (i : ι) : List String :=
  (s.clients i).unsent.flatMap (requestedServices configs) ++ sent configs s.requests i ++
    queued s.askedBy (rq.map PriorityQueueNode.id) i ++ answered s.answers i ++
    (s.clients i).received.map Answer.name

structure System.Sound (configs : Configs) (s : System ι) : Prop where
  clients : ∀ i, (s.clients i).Sound configs i
  requests : ∀ p ∈ s.requests, SingleRequest configs p.2
  answers : ∀ a ∈ s.answers, a.client.isSome = true ∧ a.Good configs
  responses : s.daemon.responses = []
  reading : ∀ messageCount, s.phase = .reading messageCount → s.daemon.place = .sleeping
  queues : ∃ rq, (s.phase ≠ .ended → ∃ uq, Balanced configs s.daemon uq rq ∧
      (s.daemon.place = .updating false → uq ≠ [])) ∧
    (∀ e ∈ rq, (s.askedBy (sdbmStringHash e.id)).isSome = true) ∧
    ∀ i x, (s.outstanding configs rq i).count x ≤ ((s.clients i).wanted configs).count x

theorem sent_cons (requests : List (ι × Request)) (j : ι) (request : Request) (i : ι) :
    sent configs ((j, request) :: requests) i =
      (if j = i then requestedServices configs request else []) ++ sent configs requests i := by
  rw [sent, filter_cons]
  split_ifs with h₁ h₂ h₂
  · rfl
  · exact absurd (of_decide_eq_true h₁) h₂
  · exact absurd (decide_eq_true h₂) h₁
  · rfl

theorem sent_append (requests requests' : List (ι × Request)) (i : ι) :
    sent configs (requests ++ requests') i =
      sent configs requests i ++ sent configs requests' i := by
  rw [sent, filter_append, flatMap_append]
  rfl

theorem answered_append (answers answers' : List (Answer ι)) (i : ι) :
    answered (answers ++ answers') i = answered answers i ++ answered answers' i := by
  rw [answered, filter_append, map_append]
  rfl

theorem answered_cons (a : Answer ι) (answers : List (Answer ι)) (i : ι) :
    answered (a :: answers) i = (if a.client = some i then [a.name] else []) ++ answered answers i := by
  rw [answered, filter_cons]
  split_ifs with h₁ h₂ h₂
  · rfl
  · exact absurd (of_decide_eq_true h₁) h₂
  · exact absurd (decide_eq_true h₂) h₁
  · rfl

theorem count_outstanding (s : System ι) (rq : List (PriorityQueueNode UpdateNode)) (i : ι)
    (x : String) :
    (s.outstanding configs rq i).count x =
      ((s.clients i).unsent.flatMap (requestedServices configs)).count x +
        (sent configs s.requests i).count x +
        (queued s.askedBy (rq.map PriorityQueueNode.id) i).count x +
        (answered s.answers i).count x + ((s.clients i).received.map Answer.name).count x := by
  rw [System.outstanding, count_append, count_append, count_append,
    count_append]

theorem System.Sound.answered_eq_nil {s : System ι} (h : s.Sound configs) {i : ι}
    (hnot : ¬(s.clients i).Waiting) : answered s.answers i = [] := by
  obtain ⟨rq, -, -, hcount⟩ := h.queues
  have hsubperm : (s.outstanding configs rq i).Subperm ((s.clients i).wanted configs) :=
    List.subperm_ext_iff.2 fun x _ => hcount i x
  have hlength := hsubperm.length_le
  simp only [System.outstanding, length_append, length_map] at hlength
  have hclient := h.clients i
  have hfull : ((s.clients i).wanted configs).length ≤
      ((s.clients i).unsent.flatMap (requestedServices configs)).length +
        (s.clients i).received.length := by
    by_cases hunsent : (s.clients i).unsent =
        requestMessages (s.clients i).serviceNames (s.clients i).forceUpdate
    · rw [hunsent, Client.wanted]
      exact Nat.le_add_right _ _
    · have hfinished : (s.clients i).finished = true := by
        by_contra hfinished
        exact hnot ⟨hunsent, Bool.eq_false_iff.2 hfinished⟩
      have hle := (hclient.finished hfinished).2
      rw [hclient.read, hclient.expected] at hle
      omega
  exact eq_nil_of_length_eq_zero (by omega)

end Places

/-! ## Steps of a client -/

section ClientSteps

variable {i : ι} {c : Client ι} {a : Answer ι}

theorem resultsOf_append (received : List (Answer ι)) (a : Answer ι) :
    resultsOf (received ++ [a]) =
      (resultsOf received).set a.name (nextStatus a.response.code) := by
  rw [resultsOf, foldl_append]
  rfl

theorem Answer.Good.code_ne (h : a.Good configs) :
    a.response.code ≠ updateOfMultipleServicesScheduled := by
  intro heq
  have hstatus := h.status
  rw [heq] at hstatus
  exact absurd hstatus (by decide)

theorem receive_frame (c : Client ι) (a : Answer ι) :
    (c.receive a).serviceNames = c.serviceNames ∧ (c.receive a).forceUpdate = c.forceUpdate ∧
      (c.receive a).displayFormat = c.displayFormat ∧ (c.receive a).unsent = c.unsent ∧
      (c.receive a).signalled = c.signalled ∧ (c.receive a).finished = c.finished ∧
      (c.receive a).messagesRead = c.messagesRead + 1 ∧
      (c.receive a).received = c.received ++ [a] := by
  rw [Client.receive]
  dsimp only
  split_ifs <;> exact ⟨rfl, rfl, rfl, rfl, rfl, rfl, rfl, rfl⟩

theorem messagesExpected_receive (h : a.Good configs) :
    (c.receive a).messagesExpected = c.messagesExpected := by
  rw [Client.receive]
  dsimp only
  rw [if_neg h.code_ne]
  split_ifs <;> rfl

/-- An answer of its own keeps a client sound. -/
theorem Client.Sound.receive (h : c.Sound configs i) (hgood : a.Good configs)
    (hclient : a.client = some i) (hfinished : c.finished = false) :
    (c.receive a).Sound configs i := by
  obtain ⟨hnames, hforce, hformat, hunsent, hsignalled, hfinished', hread, hreceived⟩ :=
    receive_frame c a
  have hwanted : (c.receive a).wanted configs = c.wanted configs := by
    rw [Client.wanted, Client.wanted, hnames, hforce]
  constructor
  · rw [hnames]
    exact h.askable
  · rw [hunsent, hnames, hforce]
    exact h.unsent
  · rw [hsignalled, hunsent]
    exact h.signalled
  · rw [hread, hreceived, h.read, length_append]
    rfl
  · rw [messagesExpected_receive hgood, hwanted]
    exact h.expected
  · intro b hb
    rw [hreceived, mem_append, mem_singleton] at hb
    obtain hb | rfl := hb
    · exact h.received b hb
    · exact ⟨hclient, hgood⟩
  · intro hmachine hall
    rw [hformat] at hmachine
    rw [hnames] at hall
    rw [hreceived, resultsOf_append, ← h.results hmachine hall, Client.receive]
    simp [hmachine, hall, Answer.name]
  · intro hmachine
    rw [hformat] at hmachine
    have hprinted := h.printed hmachine
    rw [hnames, hfinished', hfinished, hreceived]
    rw [hfinished] at hprinted
    cases hall : allFound c.serviceNames with
    | true =>
      simp only [hall, if_true] at hprinted ⊢
      simp [Client.receive, hmachine, hall, hprinted]
    | false =>
      simp only [hall, if_false, Bool.false_eq_true] at hprinted ⊢
      simp [Client.receive, hmachine, hall, hprinted]
  · rw [hfinished', hfinished]
    rintro ⟨⟩

theorem Client.Sound.finish (h : c.Sound configs i) (hunsent : c.unsent = [])
    (hread : c.messagesExpected ≤ c.messagesRead) (hfinished : c.finished = false) :
    c.finish.Sound configs i := by
  refine ⟨h.askable, h.unsent, h.signalled, h.read, h.expected, h.received, h.results,
    fun hfinish => ?_, fun _ => ⟨hunsent, hread⟩⟩
  have hmachine : c.displayFormat ≠ 'h' := hfinish
  have hprinted := h.printed hmachine
  rw [hfinished] at hprinted
  rw [Client.finish]
  dsimp only
  cases hall : allFound c.serviceNames with
  | true =>
    simp only [hall, if_true] at hprinted
    simp [hprinted]
  | false =>
    simp only [hall, if_false, Bool.false_eq_true] at hprinted
    simp [hprinted, hmachine, h.results hmachine hall]

variable [DecidableEq ι] {s : System ι}

/-- Only one client has changed. -/
theorem System.Sound.of_client (h : s.Sound configs) {s' : System ι} {c' : Client ι}
    (hdaemon : s'.daemon = s.daemon) (hphase : s'.phase = s.phase)
    (haskedBy : s'.askedBy = s.askedBy) (hclients : s'.clients = Function.update s.clients i c')
    (hclient : c'.Sound configs i) (hwanted : c'.wanted configs = (s.clients i).wanted configs)
    (hrequests : ∀ p ∈ s'.requests, SingleRequest configs p.2)
    (hanswers : ∀ a ∈ s'.answers, a ∈ s.answers)
    (hcount : ∀ j x, (c'.unsent.flatMap (requestedServices configs)).count x +
        (sent configs s'.requests i).count x + (answered s'.answers i).count x +
        (c'.received.map Answer.name).count x ≤
      ((s.clients i).unsent.flatMap (requestedServices configs)).count x +
        (sent configs s.requests i).count x + (answered s.answers i).count x +
        ((s.clients i).received.map Answer.name).count x ∧
      (j ≠ i → sent configs s'.requests j = sent configs s.requests j ∧
        answered s'.answers j = answered s.answers j)) :
    s'.Sound configs := by
  obtain ⟨rq, hbalanced, hasked, hplaces⟩ := h.queues
  refine ⟨fun j => ?_, hrequests, fun a ha => h.answers a (hanswers a ha), hdaemon ▸ h.responses,
    hdaemon ▸ hphase ▸ h.reading, rq, ?_, ?_, fun j x => ?_⟩
  · rw [hclients]
    rcases eq_or_ne j i with rfl | hji
    · rw [Function.update_self]
      exact hclient
    · rw [Function.update_of_ne hji]
      exact h.clients j
  · rw [hdaemon, hphase]
    exact hbalanced
  · rw [haskedBy]
    exact hasked
  · have hold := hplaces j x
    rw [count_outstanding] at hold ⊢
    rw [hclients, haskedBy]
    rcases eq_or_ne j i with rfl | hji
    · rw [Function.update_self, hwanted]
      have hle := (hcount j x).1
      omega
    · obtain ⟨hsent, hanswered⟩ := (hcount j x).2 hji
      rw [Function.update_of_ne hji, hsent, hanswered]
      exact hold

/-- A step of a client that does not take the response of another one. -/
theorem System.Sound.clientStep (h : s.Sound configs) (i : ι)
    (halone : s.Alone (.client i)) : (s.clientStep i).Sound configs := by
  have hclient := h.clients i
  rw [System.clientStep]
  split
  case h_1 m ms hunsent =>
    have hsent : ∀ j, sent configs (s.requests ++ [(i, m)]) j =
        sent configs s.requests j ++ if i = j then requestedServices configs m else [] := by
      intro j
      rw [sent_append, sent_cons]
      simp [sent]
    have hne : (s.clients i).unsent ≠ [] := hunsent ▸ cons_ne_nil m ms
    have hm := hclient.askable.single _ (hclient.unsent (hunsent ▸ mem_cons_self))
    rw [if_pos hm.fits]
    refine h.of_client rfl rfl rfl rfl ?_ rfl ?_ (fun a ha => ha) fun j x => ⟨?_, fun hji => ?_⟩
    · exact ⟨hclient.askable, fun r hr => hclient.unsent (hunsent ▸ mem_cons_of_mem m hr),
        fun hsignalled => absurd (hclient.signalled hsignalled) hne, hclient.read,
        hclient.expected, hclient.received, hclient.results, hclient.printed,
        fun hfinished => absurd (hclient.finished hfinished).1 hne⟩
    · intro p hp
      obtain hp | hp := List.mem_append.1 hp
      · exact h.requests p hp
      · rw [List.mem_singleton.1 hp]
        exact hm
    · show (ms.flatMap (requestedServices configs)).count x +
        (sent configs (s.requests ++ [(i, m)]) i).count x + (answered s.answers i).count x +
        ((s.clients i).received.map Answer.name).count x ≤ _
      rw [hsent, if_pos rfl, hunsent, flatMap_cons, count_append, count_append]
      omega
    · refine ⟨(hsent j).trans ?_, rfl⟩
      rw [if_neg (Ne.symm hji), List.append_nil]
  case h_2 hunsent =>
    split_ifs with hsignalled hread hfinished
    · refine h.of_client rfl rfl rfl rfl ?_ rfl h.requests (fun a ha => ha)
        fun j x => ⟨le_rfl, fun _ => ⟨rfl, rfl⟩⟩
      exact ⟨hclient.askable, hclient.unsent, fun _ => hunsent, hclient.read, hclient.expected,
        hclient.received, hclient.results, hclient.printed, hclient.finished⟩
    · cases hanswers : s.answers with
      | nil => exact h
      | cons a as =>
        dsimp only
        have ha : a ∈ s.answers := hanswers ▸ mem_cons_self
        obtain ⟨hsome, hgood⟩ := h.answers a ha
        obtain ⟨k, hk⟩ := Option.isSome_iff_exists.1 hsome
        -- A response for another client is not read, because that client would be waiting.
        obtain rfl : k = i := by
          by_contra hki
          have hnil := h.answered_eq_nil (halone hunsent (Bool.eq_true_of_not_eq_false hsignalled)
            hread k hki)
          rw [hanswers, answered_cons, if_pos hk] at hnil
          cases hnil
        have hfinished : (s.clients k).finished = false := by
          rw [Bool.eq_false_iff]
          intro hfinished
          exact absurd hread (Nat.not_lt.2 (hclient.finished hfinished).2)
        obtain ⟨hnames, hforce, -, hunsent', -, -, -, hreceived⟩ := receive_frame (s.clients k) a
        refine h.of_client rfl rfl rfl rfl (hclient.receive hgood hk hfinished) ?_ h.requests
          (fun b hb => hanswers ▸ mem_cons_of_mem a hb) fun j x => ⟨?_, fun hjk => ⟨rfl, ?_⟩⟩
        · rw [Client.wanted, Client.wanted, hnames, hforce]
        · show _ + (sent configs s.requests k).count x + (answered as k).count x + _ ≤ _
          rw [hunsent', hreceived, hanswers, answered_cons, if_pos hk, map_append,
            count_append, count_append, map_singleton]
          omega
        · rw [hanswers, answered_cons, if_neg, nil_append]
          · rfl
          · rw [hk]
            exact fun heq => hjk (Option.some.inj heq).symm
    · exact h
    · refine h.of_client rfl rfl rfl rfl
        (hclient.finish hunsent (Nat.le_of_not_lt hread) (Bool.eq_false_iff.2 hfinished)) rfl
        h.requests (fun a ha => ha) fun j x => ⟨le_rfl, fun _ => ⟨rfl, rfl⟩⟩

end ClientSteps

/-! ## Steps of the daemon -/

section DaemonSteps

variable [DecidableEq ι] {s : System ι} {uq rq : List (PriorityQueueNode UpdateNode)}

theorem queued_cons (askedBy : ℕ → Option ι) (id : String) (ids : List String) (i : ι) :
    queued askedBy (id :: ids) i =
      (if askedBy (sdbmStringHash id) = some i then [id] else []) ++ queued askedBy ids i := by
  rw [queued, filter_cons]
  split_ifs with h₁ h₂ h₂
  · rfl
  · exact absurd (of_decide_eq_true h₁) h₂
  · exact absurd (decide_eq_true h₂) h₁
  · rfl

theorem count_queued_without (askedBy : ℕ → Option ι)
    (hnodup : (rq.map PriorityQueueNode.id).Nodup) {e : PriorityQueueNode UpdateNode} (he : e ∈ rq)
    (i : ι) (x : String) :
    (queued askedBy (rq.map PriorityQueueNode.id) i).count x =
      (if askedBy (sdbmStringHash e.id) = some i then [e.id] else []).count x +
        (queued askedBy ((StableQueue.without rq e.id).map PriorityQueueNode.id) i).count x := by
  have hperm := (perm_without hnodup he).filter fun id => askedBy (sdbmStringHash id) = some i
  rw [queued, hperm.count_eq]
  rw [← count_append, ← queued_cons]
  rfl

theorem System.Sound.of_daemon (h : s.Sound configs) {s' : System ι}
    {rq' : List (PriorityQueueNode UpdateNode)} (hclients : s'.clients = s.clients)
    (hrequests : ∀ p ∈ s'.requests, p ∈ s.requests)
    (hanswers : ∀ a ∈ s'.answers, a.client.isSome = true ∧ a.Good configs)
    (hresponses : s'.daemon.responses = [])
    (hreading : ∀ messageCount, s'.phase = .reading messageCount → s'.daemon.place = .sleeping)
    (hbalanced : s'.phase ≠ .ended → ∃ uq, Balanced configs s'.daemon uq rq' ∧
      (s'.daemon.place = .updating false → uq ≠ []))
    (hasked : ∀ e ∈ rq', (s'.askedBy (sdbmStringHash e.id)).isSome = true)
    (hplaces : ∀ i x, (s.outstanding configs rq i).count x ≤
      ((s.clients i).wanted configs).count x)
    (hcount : ∀ i x, (sent configs s'.requests i).count x +
        (queued s'.askedBy (rq'.map PriorityQueueNode.id) i).count x +
        (answered s'.answers i).count x ≤
      (sent configs s.requests i).count x +
        (queued s.askedBy (rq.map PriorityQueueNode.id) i).count x +
        (answered s.answers i).count x) : s'.Sound configs := by
  refine ⟨hclients ▸ h.clients, fun p hp => h.requests p (hrequests p hp), hanswers, hresponses,
    hreading, rq', hbalanced, hasked, fun i x => ?_⟩
  have hold := hplaces i x
  have hle := hcount i x
  rw [count_outstanding] at hold ⊢
  rw [hclients]
  omega

omit [DecidableEq ι] in
theorem carryOn_of_silent (s : System ι) {d : State} (hd : d.responses = [])
    (answer : Response → Answer ι) : s.carryOn (some d) answer = { s with daemon := d } := by
  have heta : { d with responses := [] } = d := by rw [← hd]
  rw [System.carryOn, heta, hd, map_nil, List.append_nil]

theorem System.Sound.of_place (h : s.Sound configs) {d : State} {phase : Phase} {flag : Bool}
    (hphase : s.phase ≠ .ended) (hu : d.updateQueue = s.daemon.updateQueue)
    (hr : d.requestQueue = s.daemon.requestQueue) (hresponses : d.responses = [])
    (hreading : ∀ messageCount, phase = .reading messageCount → d.place = .sleeping)
    (hplace : d.place = .updating false → s.daemon.place = .updating false) :
    System.Sound configs { s with daemon := d, phase := phase, outputRequested := flag } := by
  obtain ⟨rq, hbalanced, hasked, hplaces⟩ := h.queues
  obtain ⟨uq, hbalanced, hne⟩ := hbalanced hphase
  exact h.of_daemon rfl (fun p hp => hp) h.answers hresponses hreading
    (fun _ => ⟨uq, hbalanced.congr hu hr, fun hd => hne (hplace hd)⟩) hasked hplaces
    fun i x => le_rfl

theorem System.Sound.time (h : s.Sound configs) (hphase : s.phase = .running)
    (hplace : s.daemon.place = .top) (providers : HashedMap sdbmStringHash Provider)
    (referenceTime now : ℤ) (answer : Response → Answer ι) :
    (s.carryOn (s.daemon.step configs providers referenceTime (.time now)) answer).Sound
      configs := by
  have hended : s.phase ≠ .ended := by simp [hphase]
  have hreading : ∀ {place : Place} (messageCount : ℕ), s.phase = .reading messageCount →
      place = .sleeping := by simp [hphase]
  rw [State.step, hplace]
  dsimp only
  split_ifs
  · rw [carryOn_of_silent]
    · exact h.of_place hended rfl rfl h.responses hreading (by rintro ⟨⟩)
    · exact h.responses
  · rw [carryOn_of_silent]
    · exact h.of_place hended rfl rfl h.responses hreading (by rintro ⟨⟩)
    · exact h.responses

omit [DecidableEq ι] in
theorem good_updateAnswer (s : System ι) {name : String} (hname : name ∈ configs.services.keys)
    (hasked : (s.askedBy (sdbmStringHash name)).isSome = true) {status : ℕ}
    (hstatus : isStatus status = true) :
    (s.updateAnswer ⟨status % 2 ^ 8, .name name⟩).client.isSome = true ∧
      (s.updateAnswer ⟨status % 2 ^ 8, .name name⟩).Good configs := by
  refine ⟨hasked, rfl, ?_, name, hname, rfl⟩
  have hlt : status < 2 ^ 8 := by
    rw [isStatus, Bool.or_eq_true, Bool.or_eq_true, decide_eq_true_eq, decide_eq_true_eq,
      decide_eq_true_eq] at hstatus
    obtain (rfl | rfl) | rfl := hstatus
    · decide
    · decide
    · decide
  show isStatus (status % 2 ^ 8) = true
  rw [Nat.mod_eq_of_lt hlt]
  exact hstatus

/-- A round of updates keeps the system sound. -/
theorem System.Sound.update (h : s.Sound configs) (hkeys : configs.services.keys ≠ [])
    (hphase : s.phase = .running) {first : Bool} (hplace : s.daemon.place = .updating first)
    (providers : HashedMap sdbmStringHash Provider) (referenceTime : ℤ) {attempt : Attempt}
    (hproper : attempt.Proper) :
    (s.carryOn (s.daemon.step configs providers referenceTime (.update attempt))
      s.updateAnswer).Sound configs := by
  have hended : s.phase ≠ .ended := by simp [hphase]
  have hreading : ∀ {place : Place} (messageCount : ℕ), s.phase = .reading messageCount →
      place = .sleeping := by simp [hphase]
  obtain ⟨rq, hbalanced, hasked, hplaces⟩ := h.queues
  obtain ⟨uq, hbalanced, hne⟩ := hbalanced hended
  have hfirst : first = true ∨ uq ≠ [] := by
    cases first with
    | true => exact .inl rfl
    | false => exact .inr (hne hplace)
  simp only [State.step, hplace]
  obtain hround | ⟨requested, e, hround, hnext⟩ := hbalanced.nextRound hfirst hkeys
  · rw [hround]
    dsimp only [Option.bind_eq_bind, Option.bind_some]
    rw [carryOn_of_silent]
    · exact h.of_place hended rfl rfl h.responses hreading (by rintro ⟨⟩)
    · exact h.responses
  · rw [hround]
    dsimp only [Option.bind_eq_bind, Option.bind_some]
    by_cases hnot : requested = true ∧ fitsLine e.id = false
    · obtain ⟨rfl, hnot⟩ := hnot
      rw [hbalanced.round_of_not_fits providers referenceTime attempt hnext hnot, System.carryOn]
      exact h.of_daemon rfl (fun p hp => hp) h.answers h.responses (by rintro _ ⟨⟩)
        (fun hne => absurd rfl hne) hasked hplaces fun i x => le_rfl
    obtain ⟨d, uq', rq', hstep, -, hne', hbalanced', hrq', service, memory, node, hresponses⟩ :=
      hbalanced.round providers referenceTime attempt hnext fun hrequested =>
        Bool.eq_true_of_not_eq_false fun hfits => hnot ⟨hrequested, hfits⟩
    rw [hstep, System.carryOn]
    rw [h.responses, nil_append] at hresponses
    cases requested with
    | false =>
      simp only [Bool.false_eq_true, if_false] at hresponses hrq'
      subst hrq'
      refine h.of_daemon rfl (fun p hp => hp) ?_ rfl hreading
        (fun _ => ⟨uq', hbalanced'.congr rfl rfl, fun _ => hne'⟩) hasked hplaces fun i x => ?_
      · rw [hresponses, map_nil, List.append_nil]
        exact h.answers
      · rw [hresponses, map_nil, List.append_nil]
    | true =>
      simp only [if_true] at hresponses hrq' hnext
      have hmem : e ∈ rq := next_mem hnext
      have hkey := hbalanced.mem_keys (mem_append_right uq hmem)
      subst hrq'
      refine h.of_daemon rfl (fun p hp => hp) ?_ rfl hreading
        (fun _ => ⟨uq', hbalanced'.congr rfl rfl, fun _ => hne'⟩)
        (fun a ha => hasked a (Balanced.without_subset ha)) hplaces fun i x => ?_
      · rw [hresponses]
        intro a ha
        obtain ha | ha := List.mem_append.1 ha
        · exact h.answers a ha
        · rw [map_singleton, mem_singleton] at ha
          subst ha
          exact good_updateAnswer s hkey (hasked e hmem)
            (isStatus_of_proper hproper providers service memory node)
      · rw [hresponses, map_singleton, answered_append, answered_cons, count_append,
          count_append, count_queued_without s.askedBy hbalanced.nodup_request hmem]
        show _ + _ + (_ + ((if s.askedBy (sdbmStringHash e.id) = some i then [e.id] else []).count x
          + _)) ≤ _
        simp only [answered, filter_nil, map_nil, count_nil]
        omega

/-- A request for one service. -/
theorem Balanced.handle_single {d : State} (h : Balanced configs d uq rq) {request : Request}
    (hrequest : SingleRequest configs request) (messageCount : ℕ) :
    d.handle configs request messageCount = none ∨
      ∃ d' uq' node name, d.handle configs request messageCount = some d' ∧
        d'.place = d.place ∧ d'.responses = d.responses ∧ name ∈ configs.services.keys ∧
        requestedServices configs request = [name] ∧
        Balanced configs d' uq' (rq ++ [⟨messageCount, name, node⟩]) := by
  have hfits := hrequest.fits
  obtain ⟨name, hname, -, hservices⟩ := hrequest
  have hmove : d.handle configs request messageCount =
      d.moveToRequests name request.forced messageCount := by
    rw [requestedServices] at hservices
    rw [State.handle, if_neg (by rw [hfits]; decide)]
    split_ifs at hservices ⊢ with hall
    · rw [configs.map_name, hservices]
      simp
    · obtain rfl : request.name = name := by simpa using hservices
      obtain ⟨service, hget⟩ :=
        Option.isSome_iff_exists.1 (configs.services.get_isSome_of_mem_keys hname)
      rw [hget]
  rw [hmove]
  by_cases hrq : name ∈ rq.map PriorityQueueNode.id
  · exact .inl (h.moveToRequests_of_requested hname hrq rfl _ _)
  · obtain ⟨e, he, rfl⟩ := h.exists_update hname hrq
    obtain ⟨d', node, hd', hplace, hresponses, hbalanced⟩ :=
      h.moveToRequests he rfl request.forced messageCount
    exact .inr ⟨d', _, node, e.id, hd', hplace, hresponses, hname, hservices, hbalanced⟩

/-- The daemon reads a request. -/
theorem System.Sound.read (h : s.Sound configs) {messageCount : ℕ}
    (hphase : s.phase = .reading messageCount) {k : ι} {request : Request}
    {requests : List (ι × Request)} (hrequests : s.requests = (k, request) :: requests)
    (answer : Response → Answer ι) :
    System.Sound configs (System.carryOn
      { s with
        requests := requests
        phase := .reading (messageCount + 1)
        askedBy := fun hash =>
          if hash ∈ (requestedServices configs request).map sdbmStringHash then some k
          else s.askedBy hash }
      (s.daemon.handle configs request (messageCount + 1)) answer) := by
  obtain ⟨rq, hbalanced, hasked, hplaces⟩ := h.queues
  obtain ⟨uq, hbalanced, -⟩ := hbalanced (by simp [hphase])
  have hplace := h.reading messageCount hphase
  have hsingle : SingleRequest configs request :=
    h.requests (k, request) (hrequests ▸ mem_cons_self)
  have hsent : ∀ i x, (sent configs s.requests i).count x =
      (if k = i then requestedServices configs request else []).count x +
        (sent configs requests i).count x := by
    intro i x
    rw [hrequests, sent_cons, count_append]
  have hsub : ∀ p ∈ requests, p ∈ s.requests := fun p hp =>
    hrequests ▸ mem_cons_of_mem _ hp
  obtain hnone | ⟨d, uq', node, name, hsome, hplace', hresponses, hname, hservices, hbalanced'⟩ :=
    hbalanced.handle_single hsingle (messageCount + 1)
  · rw [hnone, System.carryOn]
    refine h.of_daemon rfl hsub h.answers h.responses (by rintro _ ⟨⟩) (fun hne => absurd rfl hne)
      (fun e he => absurd he (not_mem_nil (a := e))) hplaces fun i x => ?_
    have hcount := hsent i x
    show (sent configs requests i).count x + (queued _ [] i).count x +
      (answered s.answers i).count x ≤ _
    rw [queued, filter_nil, count_nil]
    omega
  · rw [h.responses] at hresponses
    rw [hsome, carryOn_of_silent _ hresponses]
    have hne : ∀ e ∈ rq, sdbmStringHash e.id ≠ sdbmStringHash name := by
      intro e he heq
      have hid := Configs.eq_of_hash_eq (hbalanced.mem_keys (mem_append_right uq he)) hname heq
      have hnodup := hbalanced'.nodup_request
      rw [map_append, map_singleton, nodup_append] at hnodup
      exact hnodup.2.2 e.id (mem_map_of_mem he) name (mem_singleton_self name) hid
    have hqueued : ∀ i, queued (fun hash =>
          if hash ∈ (requestedServices configs request).map sdbmStringHash then some k
          else s.askedBy hash) (rq.map PriorityQueueNode.id ++ [name]) i =
        queued s.askedBy (rq.map PriorityQueueNode.id) i ++ if k = i then [name] else [] := by
      intro i
      rw [hservices, queued, filter_append, queued]
      congr 1
      · refine List.filter_congr fun id hid => ?_
        obtain ⟨e, he, rfl⟩ := List.mem_map.1 hid
        simp [hne e he]
      · by_cases hk : k = i
        · simp [hk]
        · simp [hk]
    have hplace'' : d.place = .sleeping := hplace'.trans hplace
    refine h.of_daemon rfl hsub h.answers hresponses (fun _ _ => hplace'')
      (fun _ => ⟨uq', hbalanced', fun hd => absurd (hplace''.symm.trans hd) (by rintro ⟨⟩)⟩) ?_
      hplaces fun i x => ?_
    · intro e he
      dsimp only
      split_ifs with hmem
      · rfl
      · obtain he | he := List.mem_append.1 he
        · exact hasked e he
        · rw [List.mem_singleton.1 he, hservices] at hmem
          exact absurd (mem_singleton_self _) hmem
    · have hcount := hsent i x
      rw [hservices] at hcount
      rw [map_append, map_singleton]
      show (sent configs requests i).count x + (queued _ _ i).count x +
        (answered s.answers i).count x ≤ _
      rw [hqueued, count_append]
      omega

theorem System.Sound.daemonStep (h : s.Sound configs) (hkeys : configs.services.keys ≠ [])
    (providers : HashedMap sdbmStringHash Provider) (referenceTime now : ℤ) {attempt : Attempt}
    (hproper : attempt.Proper) :
    (s.daemonStep configs providers referenceTime now attempt).Sound configs := by
  rw [System.daemonStep]
  split
  case h_1 hphase =>
    have hended : s.phase ≠ .ended := by simp [hphase]
    split
    case h_1 hplace => exact h.time hphase hplace providers referenceTime now s.updateAnswer
    case h_2 hplace => exact h.update hkeys hphase hplace providers referenceTime hproper
    case h_3 hplace =>
      split_ifs
      · exact h.of_place hended rfl rfl h.responses (fun _ _ => hplace) fun hd => hd
      · exact h.of_place hended rfl rfl h.responses (by simp [hphase]) (by rintro ⟨⟩)
  case h_2 messageCount hphase =>
    have hended : s.phase ≠ .ended := by simp [hphase]
    split
    case h_1 => exact h.of_place hended rfl rfl h.responses (by rintro _ ⟨⟩) fun hd => hd
    case h_2 hrequests => exact h.read hphase hrequests _
  case h_3 hphase =>
    exact h.of_place (by simp [hphase]) rfl rfl h.responses (by rintro _ ⟨⟩) (by rintro ⟨⟩)
  case h_4 => exact h

theorem System.Sound.step (h : s.Sound configs) (hkeys : configs.services.keys ≠ [])
    (providers : HashedMap sdbmStringHash Provider) (referenceTime : ℤ) {e : SystemEvent ι}
    (halone : s.Alone e) : (s.step configs providers referenceTime e).Sound configs := by
  cases e with
  | daemon now attempt => exact h.daemonStep hkeys providers referenceTime now halone
  | client i => exact h.clientStep i halone

def System.AloneFrom (configs : Configs) (providers : HashedMap sdbmStringHash Provider)
    (referenceTime : ℤ) : System ι → List (SystemEvent ι) → Prop
  | _, [] => True
  | s, e :: es => s.Alone e ∧
      System.AloneFrom configs providers referenceTime (s.step configs providers referenceTime e) es

theorem System.Sound.run (h : s.Sound configs) (hkeys : configs.services.keys ≠ [])
    {providers : HashedMap sdbmStringHash Provider} {referenceTime : ℤ}
    {events : List (SystemEvent ι)}
    (halone : s.AloneFrom configs providers referenceTime events) :
    (s.run configs providers referenceTime events).Sound configs := by
  induction events generalizing s with
  | nil => exact h
  | cons e es ih => exact ih (h.step hkeys providers referenceTime halone.1) halone.2

omit [DecidableEq ι] in
theorem Client.sound_start (i : ι) {serviceNames : List String} (forceUpdate : Bool)
    (displayFormat : Char) (haskable : Askable configs serviceNames) :
    (Client.start serviceNames forceUpdate displayFormat : Client ι).Sound configs i := by
  refine ⟨haskable, List.Subset.refl _, by rintro ⟨⟩, rfl, ?_, fun a ha => absurd ha
    not_mem_nil, fun _ _ => rfl, fun _ => ?_, by rintro ⟨⟩⟩
  · rw [Askable.wanted_eq haskable]
    replace haskable := haskable.2
    show (if allFound serviceNames then 1 else serviceNames.length) =
      (if allFound serviceNames then configs.services.keys else serviceNames).length
    split_ifs at haskable ⊢
    · exact haskable.symm
    · rfl
  · cases hall : allFound serviceNames with
    | true => simp [Client.start, hall]
    | false => simp [Client.start, hall]

theorem System.sound_start {daemon : State} (hbalanced : Balanced configs daemon uq [])
    (hplace : daemon.place = .top) (hresponses : daemon.responses = [])
    {serviceNames : ι → List String} (forceUpdate : ι → Bool) (displayFormat : ι → Char)
    (haskable : ∀ i, Askable configs (serviceNames i)) :
    (System.start daemon fun i =>
      Client.start (serviceNames i) (forceUpdate i) (displayFormat i)).Sound configs := by
  refine ⟨fun i => Client.sound_start i _ _ (haskable i), fun p hp => absurd hp not_mem_nil,
    fun a ha => absurd ha not_mem_nil, hresponses, by rintro _ ⟨⟩, [], fun _ => ⟨uq, hbalanced,
      fun hd => ?_⟩, fun e he => absurd he not_mem_nil, fun i x => ?_⟩
  · rw [System.start, hplace] at hd
    cases hd
  · rw [count_outstanding]
    show _ + 0 + 0 + 0 + 0 ≤ _
    exact le_rfl

end DaemonSteps

/-! ## What a client has in the end -/

section Served

variable {c : Client ι} {i : ι}

theorem get_resultsOf (received : List (Answer ι)) {name : String}
    (hreceived : ∀ a ∈ received, a.name ∈ configs.services.keys)
    (hname : name ∈ configs.services.keys) (hmem : name ∈ received.map Answer.name) :
    ∃ a ∈ received, a.name = name ∧
      (resultsOf received).get name = some (nextStatus a.response.code) := by
  induction received using List.reverseRecOn with
  | nil => cases hmem
  | append_singleton received a ih =>
    rw [resultsOf_append, HashedMap.get_set]
    have ha : a ∈ received ++ [a] := by simp
    by_cases heq : a.name = name
    · exact ⟨a, ha, heq, by rw [if_pos (by rw [heq])]⟩
    · have hhash : sdbmStringHash a.name ≠ sdbmStringHash name := fun h =>
        heq (Configs.eq_of_hash_eq (hreceived a ha) hname h)
      rw [if_neg hhash]
      have hmem' : name ∈ received.map Answer.name := by
        rw [map_append, mem_append, map_singleton, mem_singleton] at hmem
        exact hmem.resolve_right (Ne.symm heq)
      obtain ⟨b, hb, hbname, hget⟩ :=
        ih (fun b hb => hreceived b (mem_append_left _ hb)) hmem'
      exact ⟨b, mem_append_left _ hb, hbname, hget⟩

theorem Answer.Good.name_mem {a : Answer ι} (h : a.Good configs) :
    a.name ∈ configs.services.keys := by
  obtain ⟨name, hname, hbody⟩ := h.body
  rw [Answer.name, hbody]
  exact hname

theorem runRequest_eq {serviceNames : List String} (haskable : Askable configs serviceNames)
    {displayFormat : Char} (hmachine : displayFormat ≠ 'h') {outcome : String → ℕ}
    (hstatus : ∀ name ∈ (if allFound serviceNames then configs.services.keys else serviceNames),
      isStatus (outcome name) = true) :
    runRequest configs serviceNames displayFormat (fun service => outcome service.name) =
      (if allFound serviceNames then configs.services.keys else serviceNames).map
        fun name => .number (nextStatus (outcome name)) := by
  have hkeys : ∀ name ∈ (if allFound serviceNames then configs.services.keys else serviceNames),
      name ∈ configs.services.keys := by
    intro name hname
    replace haskable := haskable.2
    split_ifs at haskable hname with hall
    · exact hname
    · exact (haskable name hname).1
  rw [runRequest, map_eq_flatMap]
  refine flatMap_congr fun name hname => ?_
  obtain ⟨service, hget⟩ :=
    Option.isSome_iff_exists.1 (configs.services.get_isSome_of_mem_keys (hkeys name hname))
  rw [hget]
  dsimp only
  rw [configs.name_of_get (hkeys name hname) hget, if_pos (hstatus name hname), if_neg hmachine]

/-- A client that has finished has been served. -/
theorem System.Sound.served [DecidableEq ι] {s : System ι} (h : s.Sound configs) (i : ι)
    (hfinished : (s.clients i).finished = true) : (s.clients i).Served configs i := by
  obtain ⟨rq, -, -, hplaces⟩ := h.queues
  have hclient := h.clients i
  have hperm : ((s.clients i).received.map Answer.name).Perm ((s.clients i).wanted configs) := by
    have hsubperm : ((s.clients i).received.map Answer.name).Subperm
        ((s.clients i).wanted configs) := by
      refine List.subperm_ext_iff.2 fun x _ => ?_
      have hle := hplaces i x
      rw [count_outstanding] at hle
      omega
    refine hsubperm.perm_of_length_le ?_
    have hle := (hclient.finished hfinished).2
    rw [hclient.read, hclient.expected] at hle
    rw [length_map]
    exact hle
  refine ⟨hperm, fun a ha => ⟨(hclient.received a ha).1, (hclient.received a ha).2.updated⟩,
    fun hmachine => ?_⟩
  have hwanted := hclient.askable.wanted_eq
  have hprinted := hclient.printed hmachine
  simp only [hfinished, if_true] at hprinted
  have hname : ∀ a ∈ (s.clients i).received, a.name ∈ configs.services.keys := fun a ha =>
    (hclient.received a ha).2.name_mem
  have hoption : ∀ name ∈ (s.clients i).wanted configs, ∃ code,
      (∃ a ∈ (s.clients i).received, a.name = name ∧ a.response.code = code) ∧
        (resultsOf (s.clients i).received).get name = some (nextStatus code) := by
    intro name hwant
    have hmem := hperm.mem_iff.2 hwant
    obtain ⟨b, hb, hbname⟩ := List.mem_map.1 hmem
    obtain ⟨a, ha, haname, hget⟩ :=
      get_resultsOf _ hname (hbname ▸ hname b hb) hmem
    exact ⟨a.response.code, ⟨a, ha, haname, rfl⟩, hget⟩
  choose! outcome houtcome using hoption
  refine ⟨outcome, fun name hwant => (houtcome name hwant).1, ?_⟩
  have hstatus : ∀ name ∈ (s.clients i).wanted configs, isStatus (outcome name) = true := by
    intro name hwant
    obtain ⟨a, ha, -, hcode⟩ := (houtcome name hwant).1
    exact hcode ▸ (hclient.received a ha).2.status
  rw [hwanted] at hstatus houtcome hperm
  rw [runRequest_eq hclient.askable hmachine hstatus, hprinted]
  have haskable := hclient.askable.2
  split_ifs at hstatus houtcome hperm haskable ⊢ with hall
  · obtain ⟨key, hkeys⟩ := List.length_eq_one_iff.1 haskable
    rw [hkeys] at hperm houtcome ⊢
    obtain ⟨a, hreceived⟩ : ∃ a, (s.clients i).received = [a] := by
      rw [← length_eq_one_iff, ← length_map (f := Answer.name), hperm.length_eq]
      rfl
    obtain ⟨b, hb, -, hcode⟩ := (houtcome key (mem_singleton_self key)).1
    rw [hreceived, mem_singleton] at hb
    rw [hreceived, map_singleton, map_singleton, ← hcode, hb]
  · refine map_congr_left fun name hwant => ?_
    rw [(houtcome name hwant).2, Option.getD_some]

end Served

/-- Whatever the clients ask for and whenever updates are made: a client that has finished has got one
response for each service that it wants, after an update for its own request, and has printed what
`run_request` prints, if no client reads a response while another one waits, all ask for configured
services, and for all of them only if there is one, the names fit their messages and the scripts end
properly. -/
theorem served_of_alone [DecidableEq ι] (configs : Configs)
    (hservices : configs.services.keys ≠ []) (providers : HashedMap sdbmStringHash Provider)
    (force : Bool) (referenceTime lastChecked : ℤ) (starts : String → Start)
    (serviceNames : ι → List String) (forceUpdate : ι → Bool) (displayFormat : ι → Char)
    (haskable : ∀ i, Askable configs (serviceNames i)) (events : List (SystemEvent ι)) :
    ∃ daemon, State.start configs force referenceTime lastChecked starts = some daemon ∧
      let s := System.start daemon fun i =>
        Client.start (serviceNames i) (forceUpdate i) (displayFormat i)
      s.AloneFrom configs providers referenceTime events →
        ∀ i, ((s.run configs providers referenceTime events).clients i).finished = true →
          ((s.run configs providers referenceTime events).clients i).Served configs i := by
  obtain ⟨daemon, uq, hstart, hbalanced, hplace, hresponses⟩ :=
    balanced_start configs force referenceTime lastChecked starts
  refine ⟨daemon, hstart, fun halone i hfinished => ?_⟩
  have hsound := System.sound_start hbalanced hplace hresponses forceUpdate displayFormat haskable
  exact (hsound.run hservices halone).served i hfinished

end Runs

section Instances

variable [Kernel] {ι : Type*}

instance (configs : Configs) (serviceNames : List String) :
    Decidable (Askable configs serviceNames) :=
  inferInstanceAs (Decidable (_ ∧ if allFound serviceNames then configs.services.keys.length = 1
    else ∀ name ∈ serviceNames, name ∈ configs.services.keys ∧
      (name = updateAllRequestStr → configs.services.keys.length = 1)))

variable [DecidableEq ι] [Fintype ι]

instance (s : System ι) : (e : SystemEvent ι) → Decidable (s.Alone e)
  | .daemon _ attempt => inferInstanceAs (Decidable attempt.Proper)
  | .client i => inferInstanceAs (Decidable (_ → _ → _ → ∀ j, j ≠ i → ¬(s.clients j).Waiting))

instance decidableAloneFrom (configs : Configs) (providers : HashedMap sdbmStringHash Provider)
    (referenceTime : ℤ) : (s : System ι) → (events : List (SystemEvent ι)) →
    Decidable (s.AloneFrom configs providers referenceTime events)
  | _, [] => .isTrue trivial
  | s, e :: es =>
    have := decidableAloneFrom configs providers referenceTime
      (s.step configs providers referenceTime e) es
    inferInstanceAs (Decidable (s.Alone e ∧ System.AloneFrom configs providers referenceTime
      (s.step configs providers referenceTime e) es))

end Instances

section Clients

local instance clientsKernel : Kernel := referenceKernel 32

def clientConfigs : Configs where
  services := (HashedMap.empty.set "home" ⟨"home", "provider", false, 900, 86400,
    .interface "eth1", .empty⟩).set "work" ⟨"work", "provider", false, 900, 86400,
    .interface "eth1", .empty⟩
  name_eq := by decide

def clientProviders : HashedMap sdbmStringHash Provider :=
  HashedMap.empty.set "provider" ⟨none, some (· = "good"), none⟩

def daemonSteps {ι : Type} (now : ℤ) (count : ℕ) : List (SystemEvent ι) :=
  List.replicate count (.daemon now ⟨now, some "192.0.2.7", some "192.0.2.7", none, none⟩)

def clientCalls {ι : Type} (i : ι) (count : ℕ) : List (SystemEvent ι) :=
  List.replicate count (.client i)

def oneAfterTheOther : List (SystemEvent Bool) :=
  daemonSteps 1001 5 ++ clientCalls true 3 ++ daemonSteps 1002 9 ++ clientCalls true 3 ++
    clientCalls false 2 ++ daemonSteps 1003 8 ++ clientCalls false 2

/-- Both clients are served. -/
theorem served_one_after_the_other :
    ∃ daemon, State.start clientConfigs false 1000 1000 (fun _ => ⟨1000, some 940⟩) = some daemon ∧
      let s := System.start daemon fun i : Bool =>
        Client.start (if i then ["work", "home"] else ["home"]) false 'm'
      ∀ i, ((s.run clientConfigs clientProviders 1000 oneAfterTheOther).clients i).Served clientConfigs i := by
  have hall : ∀ daemon ∈ State.start clientConfigs false 1000 1000 (fun _ => ⟨1000, some 940⟩),
      let s := System.start daemon fun i : Bool =>
        Client.start (if i then ["work", "home"] else ["home"]) false 'm'
      s.AloneFrom clientConfigs clientProviders 1000 oneAfterTheOther ∧
        ∀ i, ((s.run clientConfigs clientProviders 1000 oneAfterTheOther).clients i).finished = true := by
    decide
  obtain ⟨daemon, hstart, hserved⟩ := served_of_alone clientConfigs (by decide) clientProviders false
    1000 1000 (fun _ => ⟨1000, some 940⟩) (fun i : Bool => if i then ["work", "home"] else ["home"])
    (fun _ => false) (fun _ => 'm') (by decide) oneAfterTheOther
  obtain ⟨halone, hfinished⟩ := hall daemon hstart
  exact ⟨daemon, hstart, fun i => hserved halone i (hfinished i)⟩

def askedForAll : List (SystemEvent Unit) :=
  daemonSteps 1001 5 ++ clientCalls () 2 ++ daemonSteps 1002 8 ++ clientCalls () 4

/-- The announcement is taken for a response: three numbers are printed, where `run_request` prints
two. -/
theorem announcement_printed :
    ∃ daemon, State.start clientConfigs false 1000 1000 (fun _ => ⟨1000, some 940⟩) = some daemon ∧
      let s := System.start daemon fun _ : Unit => Client.start ["all"] false 'm'
      let c := (s.run clientConfigs clientProviders 1000 askedForAll).clients ()
      c.finished = true ∧ c.printed = [.number 0, .number 1, .number 1] ∧
        (runRequest clientConfigs ["all"] 'm' fun _ => updateNotNeeded) = [.number 1, .number 1] ∧
        ¬c.Served clientConfigs () := by
  have hall : ∀ daemon ∈ State.start clientConfigs false 1000 1000 (fun _ => ⟨1000, some 940⟩),
      let s := System.start daemon fun _ : Unit => Client.start ["all"] false 'm'
      let c := (s.run clientConfigs clientProviders 1000 askedForAll).clients ()
      c.finished = true ∧ c.printed = [.number 0, .number 1, .number 1] ∧
        (runRequest clientConfigs ["all"] 'm' fun _ => updateNotNeeded) = [.number 1, .number 1] ∧
        (c.received.map Answer.name).length ≠ (c.wanted clientConfigs).length := by
    decide
  obtain ⟨daemon, -, hstart, -⟩ :=
    balanced_start clientConfigs false 1000 1000 fun _ => ⟨1000, some 940⟩
  obtain ⟨hfinished, hprinted, hrequest, hlength⟩ := hall daemon hstart
  exact ⟨daemon, hstart, hfinished, hprinted, hrequest, fun hserved =>
    hlength hserved.1.length_eq⟩

end Clients

end Daemon

end Ddns

end Gargoyle
