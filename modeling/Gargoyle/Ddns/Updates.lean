import Mathlib.Algebra.Order.Ring.Int
import Gargoyle.Data.HashedMap

/-!
# One update of a dynamic DNS service

The daemon takes a service from one of its queues, finds out the address that the domain of the
service has, or is believed to have, and the local address, and has the provider updated if they
differ or if an update is due anyway. It remembers addresses in maps that last as long as it runs:
the local address under the name of the interface, and the remote address under the test domain.

What comes from outside in one update is an `Attempt`.
-/

namespace Gargoyle

namespace Ddns

/-- `UPDATE_FAILED`. -/
def updateFailed : ℕ := 3

/-- `UPDATE_NOT_NEEDED`. -/
def updateNotNeeded : ℕ := 4

/-- `UPDATE_SUCCESSFUL`. -/
def updateSuccessful : ℕ := 5

/-- `ddns_service_provider`. A compiled expression is the texts that it matches. -/
structure Provider where
  externalScript : Option String
  successRegexp : Option (String → Bool)
  failureRegexp : Option (String → Bool)

/-- `ip_source`, with the interface. -/
inductive IpSource
  | interface (name : String)
  | internet
deriving DecidableEq

section Maps

variable {hash : String → ℕ}

instance : DecidableEq (HashedMap hash String) := fun _ _ =>
  decidable_of_iff _ HashedMap.ext_iff.symm

variable (hash) in
/-- `ddns_service_config`. -/
structure Service where
  name : String
  serviceProvider : String
  ipv6 : Bool
  checkInterval : ℤ
  forceInterval : ℤ
  ipSource : IpSource
  variableDefinitions : HashedMap hash String
deriving DecidableEq

namespace Service

def testDomain (service : Service hash) : String :=
  match service.variableDefinitions.get "test_domain" with
  | some testDomain => testDomain
  | none =>
    match service.variableDefinitions.get "domain" with
    | some domain => domain
    | none => service.name

def interfaceName (service : Service hash) : String :=
  match service.ipSource with
  | .interface name => name
  | .internet => "internet"

end Service

structure UpdateNode where
  serviceName : String
  nextTime : ℤ
  lastFullUpdate : ℤ
deriving DecidableEq

variable (hash) in
structure Addresses where
  localIpUpdates : HashedMap hash ℤ
  localIps : HashedMap hash String
  remoteIps : HashedMap hash String

variable (hash) in
structure Memory where
  ip : Addresses hash
  ip6 : Addresses hash

namespace Memory

def empty : Memory hash :=
  ⟨⟨HashedMap.empty, HashedMap.empty, HashedMap.empty⟩,
    ⟨HashedMap.empty, HashedMap.empty, HashedMap.empty⟩⟩

def family (memory : Memory hash) (ipv6 : Bool) : Addresses hash :=
  if ipv6 then memory.ip6 else memory.ip

def setFamily (memory : Memory hash) (ipv6 : Bool) (addresses : Addresses hash) : Memory hash :=
  if ipv6 then { memory with ip6 := addresses } else { memory with ip := addresses }

@[simp] theorem family_setFamily_self (memory : Memory hash) (ipv6 : Bool)
    (addresses : Addresses hash) : (memory.setFamily ipv6 addresses).family ipv6 = addresses := by
  cases ipv6 <;> rfl

theorem family_setFamily_of_ne (memory : Memory hash) {ipv6 ipv6' : Bool} (h : ipv6 ≠ ipv6')
    (addresses : Addresses hash) :
    (memory.setFamily ipv6 addresses).family ipv6' = memory.family ipv6' := by
  cases ipv6 <;> cases ipv6'
  · exact absurd rfl h
  · rfl
  · rfl
  · exact absurd rfl h

end Memory

/-- What comes from outside in an update: the time, what looking up the test domain and the local
address would give, the page that the provider would answer with, and the exit status of the
script, if it ends as it should. -/
structure Attempt where
  currentTime : ℤ
  domainIp : Option String
  localIp : Option String
  page : Option String
  scriptStatus : Option ℕ
deriving DecidableEq

def remoteIp (remoteIps : HashedMap hash String) (testDomain : String) (forced : Bool)
    (attempt : Attempt) : HashedMap hash String × Option String × Option String :=
  match remoteIps.get testDomain with
  | some ip => (remoteIps, some ip, none)
  | none =>
    if forced then (remoteIps, none, none)
    else
      match attempt.domainIp with
      | some ip => (remoteIps.set testDomain ip, some ip, some ip)
      | none => (remoteIps, none, none)

def localIp (addresses : Addresses hash) (interfaceName : String) (attempt : Attempt) :
    Addresses hash × Option String :=
  let known : Option String :=
    match addresses.localIps.get interfaceName, addresses.localIpUpdates.get interfaceName with
    | some ip, some updateTime => if attempt.currentTime - updateTime < 3 then some ip else none
    | _, _ => none
  match known with
  | some ip => (addresses, some ip)
  | none =>
    match attempt.localIp with
    | some ip =>
      ({ addresses with
          localIpUpdates := addresses.localIpUpdates.set interfaceName attempt.currentTime
          localIps := addresses.localIps.set interfaceName ip },
        some ip)
    | none => (addresses, none)

def pageStatus (provider : Provider) (page : String) : ℕ :=
  match provider.successRegexp, provider.failureRegexp with
  | some success, _ => if success page then updateSuccessful else updateFailed
  | none, some failure => if failure page then updateFailed else updateSuccessful
  | none, none => updateFailed

def doSingleUpdate (providers : HashedMap hash Provider) (service : Service hash)
    (remoteIp localIp : Option String) (forceUpdate : Bool) (attempt : Attempt) : ℕ :=
  match providers.get service.serviceProvider with
  | none => updateFailed
  | some provider =>
    match localIp with
    | none => updateFailed
    | some ip =>
      if forceUpdate = true ∨ remoteIp ≠ some ip then
        match provider.externalScript with
        | some _ => attempt.scriptStatus.getD updateFailed
        | none =>
          match attempt.page with
          | some page => pageStatus provider page
          | none => updateFailed
      else updateNotNeeded

variable (hash) in
structure Report where
  service : Service hash
  localIp : Option String
  lookedUp : Option String
  status : ℕ

def rememberRemote (remoteIps : HashedMap hash String) (testDomain : String)
    (remoteIp localIp : Option String) (status : ℕ) : HashedMap hash String :=
  let ip := if status = updateSuccessful then localIp else remoteIp
  match ip with
  | some ip => remoteIps.set testDomain ip
  | none => remoteIps

def reschedule (service : Service hash) (node : UpdateNode) (currentTime : ℤ) (status : ℕ) :
    UpdateNode :=
  let nextForceTime :=
    if status = updateNotNeeded then node.lastFullUpdate + service.forceInterval
    else currentTime + service.forceInterval
  let nextCheckTime := currentTime + service.checkInterval
  { node with
    nextTime := if nextForceTime < nextCheckTime then nextForceTime else nextCheckTime
    lastFullUpdate := if status = updateSuccessful then currentTime else node.lastFullUpdate }

def performUpdate (providers : HashedMap hash Provider) (service : Service hash)
    (memory : Memory hash) (node : UpdateNode) (attempt : Attempt) :
    Memory hash × UpdateNode × Report hash :=
  let forced : Bool := attempt.currentTime - node.lastFullUpdate ≥ service.forceInterval
  let addresses := memory.family service.ipv6
  let remote := remoteIp addresses.remoteIps service.testDomain forced attempt
  let found := localIp { addresses with remoteIps := remote.1 } service.interfaceName attempt
  let status := doSingleUpdate providers service remote.2.1 found.2 forced attempt
  let remembered :=
    rememberRemote found.1.remoteIps service.testDomain remote.2.1 found.2 status
  (memory.setFamily service.ipv6 { found.1 with remoteIps := remembered },
    reschedule service node attempt.currentTime status,
    ⟨service, found.2, remote.2.2, status⟩)

end Maps

end Ddns

end Gargoyle
