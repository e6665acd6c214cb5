import Gargoyle.Bandwidth.RuleRegistry
import Gargoyle.Bandwidth.SetCounters

/-!
# A page of a reply

A reply to a request for a list carries the blocks of the addresses that fit, from
the index the request asks for (`IsPage`). A page that carries nothing is the end
of the list. A block without a history is written in the format for histories
eight bytes beyond the length that is checked; only what lies in the buffer is
copied to the caller.
-/

namespace Gargoyle

namespace Bandwidth

open ByteBuffer

variable [Kernel]

/-! ## The block of an address -/

/-- What `add_ip_block` reports for an address. -/
def reportedBlock (u : IdUnit) (west : ℤ) (fullHistory : Bool) (family : ℕ) (ip : In6Addr) :
    IpBlock :=
  let ipstr := printIp family ip
  let bw := (u.counter ipstr).getD 0
  let previousReset := u.info.previousReset
  if fullHistory then
    match if u.info.numIntervalsToSave > 0 then u.report ipstr else none with
    | none =>
      let lastReset := toUint64 (previousReset + 60 * west)
      .history family ip lastReset lastReset lastReset [bw]
    | some r =>
      .history family ip (sentTime west previousReset r.firstStart)
        (sentTime west previousReset r.firstEnd) (sentTime west previousReset r.lastEnd) r.bws
  else .counter family ip bw

def IpBlock.address : IpBlock → ℕ × In6Addr
  | .counter family ip _ => (family, ip)
  | .history family ip _ _ _ _ => (family, ip)

def IdUnit.Small (u : IdUnit) : Prop := ∀ k r, u.report k = some r → 8 * r.bws.length < 2 ^ 31

section Block

variable {u : IdUnit} {west : ℤ} {fullHistory : Bool} {len family : ℕ} {ip : In6Addr}

/-- What the block of one address reports. -/
theorem ipBlock_cases (h : u.Small) :
    (ipBlock u west fullHistory family ip).2 =
        (reportedBlock u west fullHistory family ip).fields ∧
      (reportedBlock u west fullHistory family ip).hasHistory = fullHistory ∧
      (reportedBlock u west fullHistory family ip).address = (family, ip) ∧
      (ipBlock u west fullHistory family ip).1 < 2 ^ 31 + 48 ∧
      ((ipBlock u west fullHistory family ip).1 =
          size (reportedBlock u west fullHistory family ip).fields ∨
        (ipBlock u west fullHistory family ip).1 = 48 ∧
          size (reportedBlock u west fullHistory family ip).fields = 56) := by
  cases fullHistory with
  | false => exact ⟨rfl, rfl, rfl, show 28 < 2 ^ 31 + 48 by decide, Or.inl rfl⟩
  | true =>
    have hsmall : ∀ r, (if u.info.numIntervalsToSave > 0 then u.report (printIp family ip)
        else none) = some r → 8 * r.bws.length < 2 ^ 31 := by
      intro r hr
      split_ifs at hr
      exact h _ r hr
    simp only [ipBlock, reportedBlock, if_true]
    generalize (if u.info.numIntervalsToSave > 0 then u.report (printIp family ip)
      else none) = history at hsmall ⊢
    cases history with
    | none => exact ⟨rfl, rfl, rfl, show 48 < 2 ^ 31 + 48 by decide, Or.inr ⟨rfl, rfl⟩⟩
    | some r =>
      have hr := hsmall r rfl
      refine ⟨rfl, rfl, rfl, ?_, Or.inl (size_historyFields _ _ _ _ _ _).symm⟩
      change 48 + 8 * r.bws.length < 2 ^ 31 + 48
      omega

end Block

/-! ## The addresses of a page -/

def Parsed (ks : List String) (addresses : List (ℕ × In6Addr)) : Prop :=
  List.Forall₂ (fun k address => parseIp k = some address) ks addresses

def pageFields (u : IdUnit) (west : ℤ) (fullHistory : Bool) (addresses : List (ℕ × In6Addr)) :
    List (ℕ × ℕ) :=
  addresses.flatMap fun address =>
    (reportedBlock u west fullHistory address.1 address.2).fields

/-- There is room for the blocks of some addresses from `start` on. -/
def Room (u : IdUnit) (west : ℤ) (fullHistory : Bool) (len : ℕ) :
    ℕ → List (ℕ × In6Addr) → Prop
  | _, [] => True
  | start, address :: addresses =>
    start + (ipBlock u west fullHistory address.1 address.2).1 ≤ len ∧
      Room u west fullHistory len
        (start + size (reportedBlock u west fullHistory address.1 address.2).fields) addresses

section Page

variable {u : IdUnit} {west : ℤ} {fullHistory : Bool} {len : ℕ}

/-- A reply has room for the first addresses of the list. -/
theorem addIpBlocks_spec (hsmall : u.Small) (hlen : len ≤ 2 ^ 30) {ks : List String}
    {s : ReplyState} (herror : s.error = .none) (hindex : s.index ≤ len + 8) :
    ∃ n ≤ ks.length, ∃ addresses, Parsed (ks.take n) addresses ∧
      Room u west fullHistory len s.index addresses ∧
      (addIpBlocks u west fullHistory len ks s).buffer =
        writeFields s.buffer s.index (pageFields u west fullHistory addresses) ∧
      (addIpBlocks u west fullHistory len ks s).numIps = s.numIps + n ∧
      ((addIpBlocks u west fullHistory len ks s).error = .none → n = ks.length) := by
  induction ks generalizing s with
  | nil => exact ⟨0, le_rfl, [], List.Forall₂.nil, trivial, rfl, rfl, fun _ => rfl⟩
  | cons k ks ih =>
    cases hparse : parseIp k with
    | none =>
      refine ⟨0, Nat.zero_le _, [], List.Forall₂.nil, trivial, ?_⟩
      simp [addIpBlocks, hparse, pageFields, writeFields]
    | some address =>
      obtain ⟨family, ip⟩ := address
      obtain ⟨hfields, -, -, hlt, hlength⟩ :=
        @ipBlock_cases _ u west fullHistory family ip hsmall
      have hchecked : addUint32 s.index (ipBlock u west fullHistory family ip).1 =
          s.index + (ipBlock u west fullHistory family ip).1 :=
        Nat.mod_eq_of_lt (by omega)
      by_cases hfull : s.index + (ipBlock u west fullHistory family ip).1 > len
      · refine ⟨0, Nat.zero_le _, [], List.Forall₂.nil, trivial, ?_⟩
        simp [addIpBlocks, hparse, addIpBlock, hchecked, hfull, pageFields, writeFields]
      · have hnext : addUint32 s.index (size (reportedBlock u west fullHistory family ip).fields) =
            s.index + size (reportedBlock u west fullHistory family ip).fields :=
          Nat.mod_eq_of_lt (by omega)
        have hstep : addIpBlocks u west fullHistory len (k :: ks) s =
            addIpBlocks u west fullHistory len ks
              { s with
                buffer := writeFields s.buffer s.index
                  (reportedBlock u west fullHistory family ip).fields
                index := s.index + size (reportedBlock u west fullHistory family ip).fields
                numIps := s.numIps + 1 } := by
          simp only [addIpBlocks, hparse, addIpBlock, hchecked, if_neg hfull, hfields, hnext]
        obtain ⟨n, hn, addresses, hparsed, hroom, hbuffer, hnum, hend⟩ := ih
          (s := { s with
            buffer := writeFields s.buffer s.index
              (reportedBlock u west fullHistory family ip).fields
            index := s.index + size (reportedBlock u west fullHistory family ip).fields
            numIps := s.numIps + 1 }) herror (by simp only; omega)
        rw [hstep]
        refine ⟨n + 1, Nat.succ_le_succ hn, (family, ip) :: addresses,
          List.Forall₂.cons hparse hparsed, ⟨by simp only; omega, hroom⟩, ?_, ?_, ?_⟩
        · rw [hbuffer, pageFields, pageFields, List.flatMap_cons, writeFields_append]
        · rw [hnum, Nat.add_assoc, Nat.add_comm 1 n]
        · exact fun h => congrArg (· + 1) (hend h)

/-- The reply `b` carries `n` addresses of the list from the index `next` on. -/
structure IsPage (u : IdUnit) (west : ℤ) (fullHistory : Bool) (len : ℕ) (list : List String)
    (next n : ℕ) (b : ByteBuffer) : Prop where
  count : n ≤ (list.drop next).length
  progress : n = 0 → list.drop next = []
  head : Holds b 0 (getHeader .none list.length next n u.info)
  addresses : ∃ addresses, Parsed ((list.drop next).take n) addresses ∧
    Room u west fullHistory len getHeaderLength addresses ∧
    HoldsWithin len b getHeaderLength (pageFields u west fullHistory addresses)

/-- A reply is a page of the list, or an error. -/
theorem listReply_page (hsmall : u.Small) (hlow : getHeaderLength ≤ len) (hlen : len ≤ 2 ^ 30)
    (query : GetRequest) (list : List String) (user : ByteBuffer) :
    copyToUser user (listReply u west query len list user).1 len 0 ≠ 0 ∨
      ∃ n, IsPage u west query.returnHistory len list query.nextIpIndex n
          (copyToUser user (listReply u west query len list user).1 len) ∧
        (listReply u west query len list user).2 =
          if query.nextIpIndex + n = list.length then none else some list := by
  have hheader : getHeaderLength = 30 := rfl
  obtain ⟨n, hn, addresses, hparsed, hroom, hbuffer, hnum, hend⟩ :=
    @addIpBlocks_spec _ u west query.returnHistory len hsmall hlen
      (list.drop query.nextIpIndex) ⟨user, getHeaderLength, 0, .none⟩ rfl (by simp only; omega)
  simp only [Nat.zero_add] at hnum
  simp only [listReply, hnum]
  generalize addIpBlocks u west query.returnHistory len (list.drop query.nextIpIndex)
    ⟨user, getHeaderLength, 0, .none⟩ = s at hbuffer hnum hend
  have hread : ∀ (error : GetError) (i : ℕ), i < len →
      copyToUser user (writeFields s.buffer 0
        (getHeader error list.length query.nextIpIndex n u.info)) len i =
      writeFields s.buffer 0 (getHeader error list.length query.nextIpIndex n u.info) i :=
    fun error i hi => if_pos hi
  by_cases hgood : (if s.error = .bufferTooShort ∧ n > 0 then GetError.none else s.error) = .none
  · right
    rw [hgood]
    refine ⟨n, ⟨hn, fun hzero => ?_, ?_, addresses, hparsed, hroom, ?_⟩, rfl⟩
    · have hnone : s.error = .none := by simpa [hzero] using hgood
      rw [← List.length_eq_zero_iff, ← hend hnone, hzero]
    · refine (holds_writeFields s.buffer 0 _).congr fun i _ hi => hread .none i ?_
      have hsize : size (getHeader .none list.length query.nextIpIndex n u.info) = 30 := rfl
      omega
    · rw [hbuffer]
      refine (holds_writeFields user getHeaderLength _).within fun i hlow' hi => ?_
      rw [← hbuffer, hread .none i hi]
      exact writeFields_outside _ _ _ _ (Or.inr hlow')
  · left
    generalize (if s.error = .bufferTooShort ∧ n > 0 then GetError.none else s.error) = error
      at hgood
    rw [hread error 0 (by omega)]
    have hfirst := (holds_writeFields s.buffer 0
      (getHeader error list.length query.nextIpIndex n u.info)).1
    intro hzero
    simp only [readLE, hzero] at hfirst
    cases error with
    | none => exact hgood rfl
    | noId => cases hfirst
    | bufferTooShort => cases hfirst
    | noHistory => cases hfirst
    | unknown => cases hfirst

end Page

/-! ## The list between two requests -/

namespace ModuleState

section List

variable (m : ModuleState)

theorem outputIpList_onUnit (p : ℕ) (f : IdUnit → IdUnit) :
    (m.onUnit p f).outputIpList = m.outputIpList := by
  unfold onUnit
  split
  · exact (registered_write m p _ (f _)).2.2.2.2.2
  · rfl

theorem outputIpList_applyToEveryId (f : IdUnit → IdUnit) :
    (m.applyToEveryId f).outputIpList = m.outputIpList := by
  unfold applyToEveryId
  induction m.idMap.entries generalizing m with
  | nil => rfl
  | cons e es ih =>
    rw [List.foldl_cons, ih, outputIpList_onUnit]

theorem outputIpList_checkForTimezoneShift (t : Tick) :
    (m.checkForTimezoneShift t).outputIpList = m.outputIpList := by
  unfold checkForTimezoneShift
  simp only
  split_ifs
  · rfl
  · rfl
  · exact outputIpList_applyToEveryId _ _

theorem outputIpList_checkForBackwardsTimeShift (now : ℤ) :
    (m.checkForBackwardsTimeShift now).outputIpList = m.outputIpList := by
  unfold checkForBackwardsTimeShift
  split_ifs
  · exact outputIpList_applyToEveryId _ _
  · rfl

theorem outputIpList_timeChecksCtl (t : Tick) :
    (m.timeChecksCtl t).outputIpList = m.outputIpList := by
  rw [timeChecksCtl, outputIpList_checkForBackwardsTimeShift, outputIpList_checkForTimezoneShift]

theorem outputIpList_timeChecks (t : Tick) : (m.timeChecks t).outputIpList = m.outputIpList := by
  unfold timeChecks
  split_ifs
  · rfl
  · exact outputIpList_timeChecksCtl m t

theorem outputIpList_chargeCombined (h p len : ℕ) (isCheck : Bool) :
    (m.chargeCombined h p len isCheck).1.outputIpList = m.outputIpList := by
  unfold chargeCombined addToCell
  split
  · exact outputIpList_onUnit _ _ _
  · repeat' split
    all_goals rfl

theorem outputIpList_chargeIp (p : ℕ) (ip : String) (len : ℕ) (isCheck : Bool) (family : ℕ) :
    (m.chargeIp p ip len isCheck family).1.outputIpList = m.outputIpList := by
  unfold chargeIp addToCell
  split
  · split_ifs
    · rfl
    · exact outputIpList_onUnit _ _ _
  · repeat' split
    all_goals rfl

theorem outputIpList_resetIfDue (h : ℕ) (now : ℤ) :
    (m.resetIfDue h now).outputIpList = m.outputIpList := by
  unfold resetIfDue
  split
  · rfl
  · split_ifs
    · split
      · exact outputIpList_onUnit _ _ _
      · rfl
    · rfl

/-- Packets do not change the list that is read page by page. -/
theorem outputIpList_countPacket (h : ℕ) (ips : NftBandwidthInfo → String × String)
    (family len : ℕ) (isCheck : Bool) :
    (m.countPacket h ips family len isCheck).1.outputIpList = m.outputIpList := by
  have hmodify : ∀ (m : ModuleState) f, (m.modifyInfo h f).outputIpList = m.outputIpList := by
    intro m f
    unfold modifyInfo
    split <;> rfl
  have hmonitor : ∀ p priv, (m.chargeMonitor h p priv len isCheck).outputIpList =
      m.outputIpList := by
    intro p priv
    unfold chargeMonitor
    split_ifs
    · exact outputIpList_chargeCombined _ _ _ _ _
    · rfl
  unfold countPacket
  cases m.infos h with
  | none => rfl
  | some priv =>
    simp only
    by_cases hcombined : priv.type = .combined
    · rw [if_pos hcombined, hmodify]
      cases priv.iam with
      | none => rfl
      | some p => exact outputIpList_chargeCombined _ _ _ _ _
    · rw [if_neg hcombined]
      cases priv.iam with
      | none => rfl
      | some p =>
        simp only
        split_ifs
        · exact (outputIpList_chargeIp _ _ _ _ _ _).trans (hmonitor _ _)
        · exact (outputIpList_chargeIp _ _ _ _ _ _).trans (hmonitor _ _)
        · exact hmonitor _ _

theorem outputIpList_bandwidthEval (r : ℕ) (t : Tick) (pkt : Packet) :
    (m.bandwidthEval r t pkt).1.outputIpList = m.outputIpList := by
  have hevaluate : ∀ h ips family len isCheck now,
      ((m.timeChecks t).evaluate h ips family len isCheck now).1.outputIpList =
        m.outputIpList := by
    intro h ips family len isCheck now
    exact (outputIpList_countPacket _ _ _ _ _ _).trans
      ((outputIpList_resetIfDue _ _ _).trans (outputIpList_timeChecks m t))
  rw [bandwidthEval_eq, bandwidthMt]
  split
  · rfl
  · simp only
    split_ifs
    · rfl
    · split
      · exact outputIpList_timeChecks m t
      · exact hevaluate _ _ _ _ _ _
    · exact hevaluate _ _ _ _ _ _

theorem outputIpList_nftBandwidthSetCtl (b : ByteBuffer) (len : ℕ) (t : Tick) :
    (m.nftBandwidthSetCtl b len t).outputIpList = m.outputIpList := by
  unfold nftBandwidthSetCtl
  simp only
  split_ifs
  · exact outputIpList_timeChecksCtl m t
  · split
    · exact outputIpList_timeChecksCtl m t
    · split_ifs
      · exact (outputIpList_onUnit _ _ _).trans (outputIpList_timeChecksCtl m t)
      · exact (outputIpList_onUnit _ _ _).trans (outputIpList_timeChecksCtl m t)

theorem outputIpList_nftBandwidthInit {m' : ModuleState} {r : ℕ} {family : NfProto}
    {attrs : NftBandwidthInfo} {t : Tick} (h : m.nftBandwidthInit r family attrs t = some m') :
    m'.outputIpList = m.outputIpList := by
  have hregister : ∀ {master : NftBandwidthInfo} {registered : ModuleState × ℕ},
      m.register r family master = some registered →
        registered.1.outputIpList = m.outputIpList := by
    intro master registered hreg
    unfold register at hreg
    repeat' split at hreg
    all_goals first
      | cases hreg
        rfl
      | cases hreg
  unfold nftBandwidthInit at h
  simp only at h
  split_ifs at h with hcheck
  · obtain rfl := Option.some.inj h
    rfl
  all_goals
    obtain ⟨registered, hreg, rfl⟩ := Option.map_eq_some_iff.1 h
    have hlist := hregister hreg
  · have hshift := (outputIpList_checkForTimezoneShift registered.1 t).trans hlist
    split
    · exact hshift
    · exact hshift
  · split
    · exact hlist
    · exact hlist

theorem outputIpList_nftBandwidthDestroy (r : ℕ) (family : NfProto) :
    (m.nftBandwidthDestroy r family).outputIpList = m.outputIpList := by
  have hunregister : ∀ (m : ModuleState) priv,
      (m.unregister priv).outputIpList = m.outputIpList := by
    intro m priv
    unfold unregister
    split
    · split_ifs <;> rfl
    · rfl
  unfold nftBandwidthDestroy
  split
  · rfl
  · simp only [freeInfo]
    split
    · split
      · split_ifs
        · unfold promoteOther
          simp only
          split <;> rfl
        · rfl
      · exact hunregister _ _
    · exact hunregister _ _

theorem outputIpList_apply (e : RuleEvent) : (m.apply e).outputIpList = m.outputIpList := by
  cases e with
  | load r family attrs t =>
    cases hinit : m.nftBandwidthInit r family attrs t with
    | none => rw [apply, hinit, Option.getD_none]
    | some m' =>
      rw [apply, hinit, Option.getD_some]
      exact outputIpList_nftBandwidthInit m hinit
  | unload r family => exact outputIpList_nftBandwidthDestroy m r family

end List

/-! ## A request for a page -/

def answering (m : ModuleState) (id : String) (t : Tick) : Option (IdUnit × ℤ) :=
  let m' := m.timeChecksCtl t
  (m'.idMap.get id).bind fun p =>
    ((m'.resetBeforeGet p (t.now - m'.clock.localSecondsWest)).unit p).map fun u =>
      (u, m'.clock.localMinutesWest)

def listFor (m : ModuleState) (query : GetRequest) (t : Tick) : Option (List String) :=
  if query.First then ((m.timeChecksCtl t).getTarget query).map fun s => newList s.2 query
  else m.outputIpList

section Request

variable {m : ModuleState} {user : ByteBuffer} {len : ℕ} {t : Tick}

omit [Kernel] in
theorem getFailure_ne_zero (user : ByteBuffer) {error : GetError} (h : error ≠ .none) :
    getFailure user error 0 ≠ 0 := by
  have hbyte : getFailure user error 0 = UInt8.ofNat error.code := by
    simp [getFailure, writeByte]
  rw [hbyte]
  cases error with
  | none => exact absurd rfl h
  | noId => decide
  | bufferTooShort => decide
  | noHistory => decide
  | unknown => decide

theorem exists_unit_onUnit {p : ℕ} {u : IdUnit} (h : m.unit p = some u) (f : IdUnit → IdUnit) :
    ∃ u', (m.onUnit p f).unit p = some u' := by
  obtain ⟨iam, hiam, hinfo⟩ := Option.bind_eq_some_iff.1 h
  refine ⟨⟨(f u).info, iam.otherInfo.bind (m.onUnit p f).infos, (f u).maps⟩, ?_⟩
  have honUnit : m.onUnit p f = m.write p iam (f u) := by
    simp only [onUnit, hiam, h, write]
  rw [honUnit, unit, write_iams, if_pos rfl, Option.bind_some, write_infos, if_pos rfl]
  rfl

theorem unit_resetBeforeGet_of_list (list : Option (List String)) (p : ℕ) (now : ℤ) :
    (({ m with outputIpList := list } : ModuleState).resetBeforeGet p now).unit p =
      (m.resetBeforeGet p now).unit p := by
  have hunit : ({ m with outputIpList := list } : ModuleState).unit p = m.unit p := rfl
  simp only [resetBeforeGet, onUnit, hunit]
  cases m.iams p with
  | none => rfl
  | some iam =>
    cases m.unit p with
    | none => rfl
    | some u =>
      simp only
      generalize (if u.info.resetInterval ≠ bandwidthNever ∧ u.info.nextReset < now then
        handleIntervalReset now u else u) = u'
      change (({ m with outputIpList := list } : ModuleState).write p iam u').unit p =
        (m.write p iam u').unit p
      have hinfos : (({ m with outputIpList := list } : ModuleState).write p iam u').infos =
          (m.write p iam u').infos := by
        funext r
        rw [write_infos, write_infos]
      rw [unit, unit, hinfos, write_iams, write_iams]

theorem answer_page {p : ℕ} {query : GetRequest} {now : ℤ} {list : List String}
    (hunit : ∃ u, m.unit p = some u) (hlist : m.outputIpList = some list) (hip : query.ip = 0)
    (hlow : getHeaderLength ≤ len) (hlen : len ≤ 2 ^ 30)
    (hsmall : ∀ u, (m.resetBeforeGet p now).unit p = some u → u.Small) :
    (m.answer p query user len now).2 0 ≠ 0 ∨
      ∃ u n, (m.resetBeforeGet p now).unit p = some u ∧
        IsPage u m.clock.localMinutesWest query.returnHistory len list query.nextIpIndex n
          (m.answer p query user len now).2 ∧
        (m.answer p query user len now).1.outputIpList =
          if query.nextIpIndex + n = list.length then none else some list := by
  obtain ⟨u₀, hu₀⟩ := hunit
  obtain ⟨u, hu⟩ : ∃ u, (m.resetBeforeGet p now).unit p = some u := exists_unit_onUnit hu₀ _
  have hanswer : m.answer p query user len now =
      ({ m.resetBeforeGet p now with
          outputIpList := (listReply u m.clock.localMinutesWest query len list user).2 },
        copyToUser user (listReply u m.clock.localMinutesWest query len list user).1 len) := by
    simp only [answer, hu, hlist, Option.getD_some, hip, ne_eq, not_true, if_false]
  rw [hanswer]
  rcases listReply_page (hsmall u hu) hlow hlen query list user with herror | ⟨n, hpage, hrest⟩
  · exact .inl herror
  · exact .inr ⟨u, n, hu, hpage, hrest⟩

/-- A request for a list is answered with an error, or with a page of the list. -/
theorem getCtl_page (hip : (parseGetRequest user).ip = 0)
    (hindex : (parseGetRequest user).nextIpIndex ≠ uint32Max) (hrequest : getRequestLength ≤ len)
    (hlen : len ≤ 2 ^ 30)
    (hsmall : ∀ u west, m.answering (parseGetRequest user).id t = some (u, west) → u.Small) :
    (m.nftBandwidthGetCtl user len t).2 0 ≠ 0 ∨
      ∃ list u west n, m.listFor (parseGetRequest user) t = some list ∧
        m.answering (parseGetRequest user).id t = some (u, west) ∧
        IsPage u west (parseGetRequest user).returnHistory len list
          (parseGetRequest user).nextIpIndex n (m.nftBandwidthGetCtl user len t).2 ∧
        (m.nftBandwidthGetCtl user len t).1.outputIpList =
          if (parseGetRequest user).nextIpIndex + n = list.length then none else some list := by
  have hheader : getHeaderLength ≤ len := le_trans (by decide) hrequest
  unfold nftBandwidthGetCtl
  simp only
  rw [if_neg (not_lt.2 hrequest)]
  cases htarget : (m.timeChecksCtl t).getTarget (parseGetRequest user) with
  | none => exact .inl (getFailure_ne_zero user (by decide))
  | some s =>
    obtain ⟨p, u₀⟩ := s
    obtain ⟨p', hp, htarget'⟩ := Option.bind_eq_some_iff.1 htarget
    obtain ⟨u', hu', hsome⟩ := Option.bind_eq_some_iff.1 htarget'
    split_ifs at hsome with hmaps
    obtain ⟨rfl, rfl⟩ := Prod.mk.inj (Option.some.inj hsome)
    have hanswering : ∀ {u}, ((m.timeChecksCtl t).resetBeforeGet p'
        (t.now - (m.timeChecksCtl t).clock.localSecondsWest)).unit p' = some u →
        m.answering (parseGetRequest user).id t =
          some (u, (m.timeChecksCtl t).clock.localMinutesWest) := by
      intro u hu
      simp only [answering, hp, Option.bind_some, hu, Option.map_some]
    simp only
    by_cases hfirst : (parseGetRequest user).First
    · have hzero : (parseGetRequest user).nextIpIndex = 0 := hfirst.1.resolve_right hindex
      have hlistFor : m.listFor (parseGetRequest user) t =
          some (newList u' (parseGetRequest user)) := by
        simp only [listFor, if_pos hfirst, htarget, Option.map_some]
      rw [if_pos hfirst]
      rcases @answer_page _ { m.timeChecksCtl t with
          outputIpList := some (newList u' (parseGetRequest user)) } user len p'
          { parseGetRequest user with nextIpIndex := 0 }
          (t.now - (m.timeChecksCtl t).clock.localSecondsWest) _ ⟨u', hu'⟩ rfl hip hheader hlen
          (fun u hu => hsmall u _ (hanswering ((unit_resetBeforeGet_of_list _ _ _).symm.trans hu)))
        with herror | ⟨u, n, hu, hpage, hrest⟩
      · exact .inl herror
      · refine .inr ⟨_, u, _, n, hlistFor,
          hanswering ((unit_resetBeforeGet_of_list _ _ _).symm.trans hu), ?_, ?_⟩
        · rw [hzero]
          exact hpage
        · rw [hzero]
          exact hrest
    · rw [if_neg hfirst]
      split_ifs with hbounds
      · exact .inl (getFailure_ne_zero user (by decide))
      · have hpos : 0 < (parseGetRequest user).nextIpIndex :=
          Nat.pos_of_ne_zero fun hzero => hfirst ⟨Or.inl hzero, hip⟩
        obtain ⟨list, hlist⟩ : ∃ list, (m.timeChecksCtl t).outputIpList = some list := by
          refine Option.ne_none_iff_exists'.1 fun hnone => hbounds ⟨hpos, Or.inl ?_⟩
          rw [hnone, Option.isNone_none]
        have hlistFor : m.listFor (parseGetRequest user) t = some list := by
          rw [listFor, if_neg hfirst, ← hlist, outputIpList_timeChecksCtl]
        rcases answer_page ⟨u', hu'⟩ hlist hip hheader hlen
          (fun u hu => hsmall u _ (hanswering hu)) with herror | ⟨u, n, hu, hpage, hrest⟩
        · exact .inl herror
        · exact .inr ⟨list, u, _, n, hlistFor, hanswering hu, hpage, hrest⟩

end Request

end ModuleState

end Bandwidth

end Gargoyle
