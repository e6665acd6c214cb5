import Gargoyle.Bandwidth.ReferenceKernel
import Gargoyle.Ddns.Updates

/-!
# When an update is not needed

The daemon remembers the remote address under the test domain of a service, one map for each
family. Services of one family with one test domain share it, so that an update of one makes the
updates of the others unnecessary: that an update is not needed means that the local address is the
one last sent for the test domain, or one that was looked up (`not_needed_matches`). The maps have
hashes for keys, so that this needs the other test domains of the family to have other hashes.
-/

namespace Gargoyle

namespace Ddns

variable {hash : String → ℕ}

namespace Service

def SharesDomain (s t : Service hash) : Prop :=
  s.ipv6 = t.ipv6 ∧ s.testDomain = t.testDomain

instance (s t : Service hash) : Decidable (s.SharesDomain t) :=
  inferInstanceAs (Decidable (_ ∧ _))

/-- Different test domains of one family have different hashes. -/
def KeptApart (s t : Service hash) : Prop :=
  s.ipv6 = t.ipv6 → hash s.testDomain = hash t.testDomain → s.testDomain = t.testDomain

instance (s t : Service hash) : Decidable (s.KeptApart t) :=
  inferInstanceAs (Decidable (_ → _))

end Service

variable (hash) in
structure Update where
  service : Service hash
  node : UpdateNode
  attempt : Attempt

namespace Memory

variable (providers : HashedMap hash Provider)

def after (memory : Memory hash) : List (Update hash) → Memory hash
  | [] => memory
  | u :: us => after (performUpdate providers u.service memory u.node u.attempt).1 us

def reports (memory : Memory hash) : List (Update hash) → List (Report hash)
  | [] => []
  | u :: us =>
    let done := performUpdate providers u.service memory u.node u.attempt
    done.2.2 :: reports done.1 us

end Memory

def lastSent (s : Service hash) : List (Report hash) → Option String
  | [] => none
  | r :: rs =>
    match lastSent s rs with
    | some ip => some ip
    | none =>
      if r.service.SharesDomain s ∧ r.status = updateSuccessful then r.localIp else none

def lookedUp (s : Service hash) (reports : List (Report hash)) : List String :=
  (reports.filter fun r => r.service.SharesDomain s).filterMap Report.lookedUp

def Known (s : Service hash) (reports : List (Report hash)) (ip : String) : Prop :=
  lastSent s reports = some ip ∨ lastSent s reports = none ∧ ip ∈ lookedUp s reports

structure Remembers (s : Service hash) (memory : Memory hash) (reports : List (Report hash)) :
    Prop where
  known : ∀ ip, (memory.family s.ipv6).remoteIps.get s.testDomain = some ip → Known s reports ip
  sent : (memory.family s.ipv6).remoteIps.get s.testDomain = none → lastSent s reports = none

variable {providers : HashedMap hash Provider} {s t : Service hash} {memory : Memory hash}
  {reports : List (Report hash)} {node : UpdateNode} {attempt : Attempt}

theorem lastSent_append_singleton (s : Service hash) (reports : List (Report hash))
    (r : Report hash) :
    lastSent s (reports ++ [r]) =
      if r.service.SharesDomain s ∧ r.status = updateSuccessful then
        r.localIp.or (lastSent s reports)
      else lastSent s reports := by
  induction reports with
  | nil =>
    simp only [List.nil_append, lastSent]
    split_ifs <;> simp
  | cons a as ih =>
    rw [List.cons_append, lastSent, ih, lastSent]
    split_ifs with hr ha
    · cases r.localIp <;> cases lastSent s as <;> simp
    · cases r.localIp <;> cases lastSent s as <;> simp
    · rfl
    · rfl

theorem lookedUp_append (s : Service hash) (reports reports' : List (Report hash)) :
    lookedUp s (reports ++ reports') = lookedUp s reports ++ lookedUp s reports' := by
  simp [lookedUp]

theorem remoteIp_eq_some {remoteIps : HashedMap hash String} {domain ip : String} {forced : Bool}
    (h : (remoteIp remoteIps domain forced attempt).2.1 = some ip) :
    remoteIps.get domain = some ip ∨
      remoteIps.get domain = none ∧ (remoteIp remoteIps domain forced attempt).2.2 = some ip := by
  rw [remoteIp] at h ⊢
  cases hget : remoteIps.get domain with
  | some known =>
    rw [hget] at h
    exact .inl h
  | none =>
    simp only [hget] at h ⊢
    split_ifs at h ⊢ with hforced
    cases hlookup : attempt.domainIp with
    | some found =>
      rw [hlookup] at h
      exact .inr ⟨trivial, h⟩
    | none => simp [hlookup] at h

theorem remoteIp_none {remoteIps : HashedMap hash String} {domain : String} {forced : Bool}
    (h : (remoteIp remoteIps domain forced attempt).2.1 = none) :
    remoteIps.get domain = none ∧ (remoteIp remoteIps domain forced attempt).1 = remoteIps := by
  rw [remoteIp] at h ⊢
  cases hget : remoteIps.get domain with
  | some known => simp [hget] at h
  | none =>
    simp only [hget] at h ⊢
    split_ifs at h ⊢ with hforced
    · exact ⟨trivial, rfl⟩
    · cases hlookup : attempt.domainIp with
      | some found => simp [hlookup] at h
      | none => exact ⟨trivial, rfl⟩

theorem get_remoteIp_of_ne (remoteIps : HashedMap hash String) {domain domain' : String}
    (forced : Bool) (attempt : Attempt) (h : hash domain ≠ hash domain') :
    (remoteIp remoteIps domain forced attempt).1.get domain' = remoteIps.get domain' := by
  rw [remoteIp]
  cases remoteIps.get domain with
  | some known => rfl
  | none =>
    split_ifs
    · rfl
    · cases attempt.domainIp with
      | some found => exact HashedMap.get_set_of_ne _ _ h
      | none => rfl

@[simp] theorem localIp_remoteIps (addresses : Addresses hash) (interfaceName : String)
    (attempt : Attempt) :
    (localIp addresses interfaceName attempt).1.remoteIps = addresses.remoteIps := by
  rw [localIp]
  split
  · rfl
  · split <;> rfl

theorem get_rememberRemote (remoteIps : HashedMap hash String) (domain domain' : String)
    (remoteIp localIp : Option String) (status : ℕ) :
    (rememberRemote remoteIps domain remoteIp localIp status).get domain' =
      if hash domain = hash domain' then
        (if status = updateSuccessful then localIp else remoteIp).or (remoteIps.get domain')
      else remoteIps.get domain' := by
  rw [rememberRemote]
  cases if status = updateSuccessful then localIp else remoteIp with
  | some ip =>
    rw [HashedMap.get_set]
    simp
  | none => simp

theorem eq_of_notNeeded {remote found : Option String} {forced : Bool}
    (hregexp : ∀ p, providers.get s.serviceProvider = some p → p.externalScript = none)
    (h : doSingleUpdate providers s remote found forced attempt = updateNotNeeded) :
    ∃ ip, found = some ip ∧ remote = some ip := by
  rw [doSingleUpdate] at h
  cases hprovider : providers.get s.serviceProvider with
  | none => simp [hprovider, updateFailed, updateNotNeeded] at h
  | some provider =>
    cases found with
    | none => simp [hprovider, updateFailed, updateNotNeeded] at h
    | some ip =>
      simp only [hprovider, hregexp provider hprovider] at h
      split_ifs at h with hneeded
      · exfalso
        revert h
        cases attempt.page with
        | none => simp [updateFailed, updateNotNeeded]
        | some page =>
          simp only [pageStatus]
          split <;> (try split_ifs) <;>
            simp [updateFailed, updateNotNeeded, updateSuccessful]
      · exact ⟨ip, rfl, by simpa using (not_or.mp hneeded).2⟩

theorem isSome_of_successful {remote found : Option String} {forced : Bool}
    (h : doSingleUpdate providers s remote found forced attempt = updateSuccessful) :
    found.isSome := by
  cases found with
  | some ip => rfl
  | none =>
    rw [doSingleUpdate] at h
    cases hprovider : providers.get s.serviceProvider with
    | none => simp [hprovider, updateFailed, updateSuccessful] at h
    | some provider => simp [hprovider, updateFailed, updateSuccessful] at h

theorem Remembers.remote (h : Remembers s memory reports) {forced : Bool} {domain ip : String}
    (hdomain : hash domain = hash s.testDomain)
    (hip : (remoteIp (memory.family s.ipv6).remoteIps domain forced attempt).2.1 = some ip) :
    Known s reports ip ∨ lastSent s reports = none ∧
      (remoteIp (memory.family s.ipv6).remoteIps domain forced attempt).2.2 = some ip := by
  obtain hmap | ⟨hmap, hlookup⟩ := remoteIp_eq_some hip
  · rw [HashedMap.get_congr _ hdomain] at hmap
    exact .inl (h.known ip hmap)
  · rw [HashedMap.get_congr _ hdomain] at hmap
    exact .inr ⟨h.sent hmap, hlookup⟩

theorem Known.append {ip : String} {r : Report hash} (h : Known s reports ip)
    (hr : ¬(r.service.SharesDomain s ∧ r.status = updateSuccessful)) :
    Known s (reports ++ [r]) ip := by
  rw [Known, lastSent_append_singleton, if_neg hr, lookedUp_append]
  exact h.imp id fun hlookup => ⟨hlookup.1, List.mem_append_left _ hlookup.2⟩

theorem known_of_lookedUp {ip : String} {r : Report hash} (hnone : lastSent s reports = none)
    (hshares : r.service.SharesDomain s) (hstatus : r.status ≠ updateSuccessful)
    (hip : r.lookedUp = some ip) : Known s (reports ++ [r]) ip := by
  refine .inr ⟨?_, ?_⟩
  · rw [lastSent_append_singleton, if_neg fun hr => hstatus hr.2, hnone]
  · rw [lookedUp_append]
    simp [lookedUp, hshares, hip]

theorem Remembers.of_not_shares (h : Remembers s memory reports) (hshares : ¬t.SharesDomain s)
    (hapart : t.KeptApart s) :
    Remembers s (performUpdate providers t memory node attempt).1
      (reports ++ [(performUpdate providers t memory node attempt).2.2]) := by
  have hsame : ((performUpdate providers t memory node attempt).1.family s.ipv6).remoteIps.get
      s.testDomain = (memory.family s.ipv6).remoteIps.get s.testDomain := by
    by_cases hfamily : t.ipv6 = s.ipv6
    · have hhash : hash t.testDomain ≠ hash s.testDomain := fun heq =>
        hshares ⟨hfamily, hapart hfamily heq⟩
      simp only [performUpdate, ← hfamily, Memory.family_setFamily_self, get_rememberRemote,
        if_neg hhash, localIp_remoteIps, get_remoteIp_of_ne _ _ _ hhash]
    · rw [performUpdate, Memory.family_setFamily_of_ne _ hfamily]
  have hreport : ¬((performUpdate providers t memory node attempt).2.2.service.SharesDomain s ∧
      (performUpdate providers t memory node attempt).2.2.status = updateSuccessful) :=
    fun hr => hshares hr.1
  constructor
  · intro ip hip
    exact (h.known ip (hsame ▸ hip)).append hreport
  · intro hnone
    rw [lastSent_append_singleton, if_neg hreport]
    exact h.sent (hsame ▸ hnone)

/-- An update of a service with the same test domain. -/
theorem Remembers.of_shares (h : Remembers s memory reports) (hshares : t.SharesDomain s) :
    Remembers s (performUpdate providers t memory node attempt).1
      (reports ++ [(performUpdate providers t memory node attempt).2.2]) := by
  obtain ⟨hfamily, hdomain⟩ := hshares
  have hhash : hash t.testDomain = hash s.testDomain := congrArg hash hdomain
  obtain ⟨forced, hforced⟩ : ∃ forced : Bool,
      forced = decide (attempt.currentTime - node.lastFullUpdate ≥ t.forceInterval) := ⟨_, rfl⟩
  obtain ⟨remote, hremote⟩ : ∃ remote, remote =
      remoteIp (memory.family s.ipv6).remoteIps t.testDomain forced attempt := ⟨_, rfl⟩
  obtain ⟨found, hfound⟩ : ∃ found, found = (localIp { memory.family s.ipv6 with
    remoteIps := remote.1 } t.interfaceName attempt) := ⟨_, rfl⟩
  obtain ⟨status, hstatus⟩ : ∃ status, status =
      doSingleUpdate providers t remote.2.1 found.2 forced attempt := ⟨_, rfl⟩
  have hreport : (performUpdate providers t memory node attempt).2.2 =
      ⟨t, found.2, remote.2.2, status⟩ := by
    simp only [performUpdate, hfamily, ← hforced, ← hremote, ← hfound, ← hstatus]
  have hget : ((performUpdate providers t memory node attempt).1.family s.ipv6).remoteIps.get
      s.testDomain =
        (if status = updateSuccessful then found.2 else remote.2.1).or
          (remote.1.get s.testDomain) := by
    simp only [performUpdate, hfamily, ← hforced, ← hremote, ← hfound, ← hstatus,
      Memory.family_setFamily_self, get_rememberRemote, if_pos hhash]
    rw [hfound, localIp_remoteIps]
  rw [hreport]
  by_cases hsuccess : status = updateSuccessful
  · obtain ⟨ip, hip⟩ := Option.isSome_iff_exists.mp (isSome_of_successful (hstatus ▸ hsuccess))
    have hsent : lastSent s (reports ++ [⟨t, found.2, remote.2.2, status⟩]) = some ip := by
      rw [lastSent_append_singleton, if_pos ⟨⟨hfamily, hdomain⟩, hsuccess⟩]
      simp [hip]
    rw [if_pos hsuccess, hip, Option.some_or] at hget
    constructor
    · intro ip' hip'
      rw [hget, Option.some.injEq] at hip'
      exact .inl (hip' ▸ hsent)
    · intro hnone
      simp [hget] at hnone
  · rw [if_neg hsuccess] at hget
    have hnot : ¬((⟨t, found.2, remote.2.2, status⟩ : Report hash).service.SharesDomain s ∧
        (⟨t, found.2, remote.2.2, status⟩ : Report hash).status = updateSuccessful) :=
      fun hr => hsuccess hr.2
    cases hip : remote.2.1 with
    | some ip =>
      rw [hip, Option.some_or] at hget
      constructor
      · intro ip' hip'
        rw [hget, Option.some.injEq] at hip'
        subst hip'
        obtain hknown | ⟨hnone, hlookup⟩ := h.remote hhash (hremote ▸ hip)
        · exact hknown.append hnot
        · exact known_of_lookedUp hnone ⟨hfamily, hdomain⟩ hsuccess (hremote ▸ hlookup)
      · intro hnone
        simp [hget] at hnone
    | none =>
      obtain ⟨hmap, hkept⟩ := remoteIp_none (hremote ▸ hip)
      rw [HashedMap.get_congr _ hhash] at hmap
      rw [hip, Option.none_or, hremote, hkept, hmap] at hget
      constructor
      · intro ip' hip'
        simp [hget] at hip'
      · intro _
        rw [lastSent_append_singleton, if_neg hnot]
        exact h.sent hmap

theorem Remembers.performUpdate (h : Remembers s memory reports)
    (providers : HashedMap hash Provider) (hapart : t.KeptApart s) (node : UpdateNode)
    (attempt : Attempt) :
    Remembers s (performUpdate providers t memory node attempt).1
      (reports ++ [(Ddns.performUpdate providers t memory node attempt).2.2]) := by
  by_cases hshares : t.SharesDomain s
  · exact h.of_shares hshares
  · exact h.of_not_shares hshares hapart

theorem remembers_empty (s : Service hash) : Remembers s Memory.empty [] where
  known ip h := by
    cases hs : s.ipv6 <;> simp [Memory.family, Memory.empty, hs] at h
  sent _ := rfl

theorem Remembers.after (h : Remembers s memory reports) (providers : HashedMap hash Provider)
    {updates : List (Update hash)} (hapart : ∀ v ∈ updates, v.service.KeptApart s) :
    Remembers s (memory.after providers updates) (reports ++ memory.reports providers updates) := by
  induction updates generalizing memory reports with
  | nil =>
    rw [Memory.after, Memory.reports, List.append_nil]
    exact h
  | cons u us ih =>
    rw [Memory.after, Memory.reports]
    have hstep := ih (h.performUpdate providers (hapart u List.mem_cons_self) u.node u.attempt)
      fun v hv => hapart v (List.mem_cons_of_mem _ hv)
    rw [List.append_assoc, List.singleton_append] at hstep
    exact hstep

/-- An update of a service whose provider has expressions is not needed only when the local address
is the one that was last sent for the test domain or, if none was, one that was looked up for it. -/
theorem not_needed_matches (providers : HashedMap hash Provider) (before : List (Update hash))
    (u : Update hash) (hapart : ∀ v ∈ before, v.service.KeptApart u.service)
    (hregexp : ∀ p, providers.get u.service.serviceProvider = some p → p.externalScript = none) :
    let report := (performUpdate providers u.service (Memory.empty.after providers before) u.node
      u.attempt).2.2
    report.status = updateNotNeeded →
      ∃ ip, report.localIp = some ip ∧
        Known u.service (Memory.empty.reports providers before ++ [report]) ip := by
  intro report hstatus
  have hremembers := (remembers_empty u.service).after providers hapart
  rw [List.nil_append] at hremembers
  obtain ⟨ip, hlocal, hremote⟩ := eq_of_notNeeded hregexp hstatus
  have hnot : report.status ≠ updateSuccessful := by
    simp [hstatus, updateNotNeeded, updateSuccessful]
  refine ⟨ip, hlocal, ?_⟩
  obtain hknown | ⟨hnone, hlookup⟩ := hremembers.remote rfl hremote
  · exact hknown.append fun hr => hnot hr.2
  · exact known_of_lookedUp hnone ⟨rfl, rfl⟩ hnot hlookup

/-! ## Two services of one domain -/

def mapHash : String → ℕ := @Bandwidth.sdbmStringHash (Bandwidth.referenceKernel 32)

def homeService (name : String) (interface : String) : Service mapHash where
  name := name
  serviceProvider := "provider"
  ipv6 := false
  checkInterval := 900
  forceInterval := 86400
  ipSource := .interface interface
  variableDefinitions := HashedMap.empty.set "domain" "home.example.org"

def goodProvider : HashedMap mapHash Provider :=
  HashedMap.empty.set "provider" ⟨none, some (· = "good"), none⟩

def homeUpdate (name interface ip : String) (time : ℤ) : Update mapHash where
  service := homeService name interface
  node := { serviceName := name, nextTime := time, lastFullUpdate := time - 60 }
  attempt := { currentTime := time, domainIp := none, localIp := some ip, page := some "good"
               scriptStatus := none }

/-- A service for another domain, with an address of its own. -/
def officeUpdate (ip : String) (time : ℤ) : Update mapHash :=
  let update := homeUpdate "office" "eth2" ip time
  { update with service := { update.service with
      variableDefinitions := HashedMap.empty.set "domain" "office.example.org" } }

/-- The second update of a service over the same interface is not needed, whatever was sent for
another domain in between. -/
theorem not_needed_again :
    let before := [homeUpdate "wan" "eth1" "192.0.2.7" 1000, officeUpdate "192.0.2.9" 1500]
    let u := homeUpdate "wan" "eth1" "192.0.2.7" 1900
    let report := (performUpdate goodProvider u.service (Memory.empty.after goodProvider before)
      u.node u.attempt).2.2
    ∃ ip, report.localIp = some ip ∧
      Known u.service (Memory.empty.reports goodProvider before ++ [report]) ip :=
  not_needed_matches goodProvider
    [homeUpdate "wan" "eth1" "192.0.2.7" 1000, officeUpdate "192.0.2.9" 1500]
    (homeUpdate "wan" "eth1" "192.0.2.7" 1900) (by decide) (by decide)
    (by decide)

/-- A second service with the same domain is not updated after an update of the first: it has sent
no address itself, and none was looked up. -/
theorem not_needed_after_other :
    let before := Memory.empty.reports goodProvider [homeUpdate "wan" "eth1" "192.0.2.7" 1000]
    let report := (performUpdate goodProvider (homeService "backup" "eth1")
      (Memory.empty.after goodProvider [homeUpdate "wan" "eth1" "192.0.2.7" 1000])
      (homeUpdate "backup" "eth1" "192.0.2.7" 1010).node
      (homeUpdate "backup" "eth1" "192.0.2.7" 1010).attempt).2.2
    report.status = updateNotNeeded ∧
      (∀ r ∈ before, r.service.name = "backup" → r.status ≠ updateSuccessful) ∧
      ∀ r ∈ before ++ [report], r.lookedUp = none := by
  decide

end Ddns

end Gargoyle
