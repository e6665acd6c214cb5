import Gargoyle.Firewall.Options

/-!
# From definitions to rules

`compute_rules` turns the definition of a rule into rules of the packet filter. A criterion
with one test is put into `single_check`. A criterion with several has a bit in the top byte of the
mark of the connection, which its rules set, or clear if the criterion is negated; the target
asks for all these bits, and `single_check` has the last one.
-/

namespace Gargoyle

open List

namespace Firewall

open FlagBits
open Timerange (toLowercase)

/-! ## Protocols and families -/

inductive Proto
  | tcp
  | udp
  | both
  deriving DecidableEq

/-- The protocol of an option, `both` if it is another one. -/
def Proto.ofOption (proto : Option String) : Proto :=
  match proto with
  | none => .both
  | some proto =>
    if toLowercase proto.toList = "udp".toList then .udp
    else if toLowercase proto.toList = "tcp".toList then .tcp
    else .both

def Proto.tests (proto : Proto) (requiresProto : Bool) : List Test :=
  match proto with
  | .both => if requiresProto then [⟨false, .l4proto ["tcp", "udp"]⟩] else []
  | .tcp => [⟨false, .l4proto ["tcp"]⟩]
  | .udp => [⟨false, .l4proto ["udp"]⟩]

def familyPrefix (family : Option String) : List Test :=
  match family with
  | none => []
  | some family =>
    if toLowercase family.toList = "ipv4".toList then [⟨false, .nfproto "ipv4"⟩]
    else if toLowercase family.toList = "ipv6".toList then [⟨false, .nfproto "ipv6"⟩]
    else []

/-! ## Criteria -/

structure Parts where
  multiRules : List Rule
  singleCheck : List Test

structure Setting where
  rulePrefix : List Test
  proto : Proto

def Setting.markRule (g : Setting) (requiresProto isNegation : Bool) (maskByteIndex : ℕ)
    (tests : List Test) : Rule where
  tests := g.rulePrefix ++ g.proto.tests requiresProto ++ tests
  statement := .setMark (~~~ single 32 24 maskByteIndex)
    (if isNegation then 0 else single 32 24 maskByteIndex)

/-- `compute_multi_rules`, with what it returns. -/
def computeMultiRules {α : Type} (g : Setting) (parts : Parts) (entries : List α)
    (neverSingle : Bool) (test : Bool → α → List Test) (isNegation : Bool) (maskByteIndex : ℕ)
    (requiresProto : Bool) : Parts × ℕ :=
  match entries, neverSingle with
  | [a], false => ({ parts with singleCheck := test isNegation a ++ parts.singleCheck }, 1)
  | entries, _ =>
    ({ parts with
      multiRules := parts.multiRules ++ entries.map fun a =>
        g.markRule requiresProto isNegation maskByteIndex (test false a) }, 2)

/-- The parts, with `initial_mask_list` and `final_mask_list`. -/
structure Compile where
  parts : Parts
  masks : List (Bool × Bool)

def Compile.maskByteIndex (c : Compile) : ℕ := c.masks.length

def primTest (prim : String → Prim) (negated : Bool) (text : String) : List Test :=
  [⟨negated, prim text⟩]

def Compile.addList (c : Compile) (g : Setting) (list notList : Option (List String))
    (neverSingleNegated : Bool) (prim : String → Prim) (requiresProto : Bool) : Compile :=
  let isNegated := list.isNone && notList.isSome
  match list.or notList with
  | none => { c with masks := c.masks ++ [(isNegated, false)] }
  | some entries =>
    let r := computeMultiRules g c.parts entries (neverSingleNegated && isNegated) (primTest prim)
      isNegated c.maskByteIndex requiresProto
    ⟨r.1, c.masks ++ [(isNegated, r.2 == 2)]⟩

def AddrDef.texts (a : AddrDef) : AddrKind → List String
  | .ip => a.ip.toList
  | .ip6 => a.ip6.toList
  | .ether => a.mac.toList

/-- The kinds that `addr_prefix1` has tests for. -/
def Side.kinds : Side → List AddrKind
  | .source => [.ip, .ip6, .ether]
  | .destination => [.ip, .ip6]

def Compile.addAddrs (c : Compile) (g : Setting) (side : Side) (addrs notAddrs : Option AddrDef)
    (includeProto : Bool) : Compile :=
  let isNegated := addrs.isNone && notAddrs.isSome
  match addrs.or notAddrs with
  | none => c
  | some a =>
    let isMulti : Bool := (side.kinds.flatMap a.texts).length > 1
    ⟨side.kinds.foldl (fun parts kind =>
        if a.texts kind = [] then parts
        else (computeMultiRules g parts (a.texts kind) isMulti (primTest (.addr side kind))
          isNegated c.maskByteIndex includeProto).1) c.parts,
      c.masks ++ [(isNegated, isMulti)]⟩

/-- `url_prefixes1` and `url_prefixes2`. -/
def UrlVar.prim : UrlVar → String → Prim
  | .contains => .weburl false .contains
  | .regex => .weburl false .containsRegex
  | .exact => .weburl false .matchesExactly
  | .domainContains => .weburl true .contains
  | .domainRegex => .weburl true .containsRegex
  | .domainExact => .weburl true .matchesExactly

def RuleDef.urlIsNegated (d : RuleDef) : Bool := urlVars.flatMap d.url = []

def RuleDef.urlLists (d : RuleDef) : UrlVar → List String :=
  if d.urlIsNegated then d.notUrl else d.url

def RuleDef.urlRuleCount (d : RuleDef) : ℕ := (urlVars.flatMap d.urlLists).length

def Compile.addUrls (c : Compile) (g : Setting) (d : RuleDef) (includeProto : Bool) : Compile :=
  let isMulti : Bool := d.urlRuleCount > 1
  ⟨urlVars.foldl (fun parts var =>
      if d.urlLists var = [] then parts
      else (computeMultiRules g parts (d.urlLists var) isMulti (primTest var.prim) d.urlIsNegated
        c.maskByteIndex includeProto).1) c.parts,
    c.masks ++ [(d.urlIsNegated, isMulti)]⟩

/-! ## The tests without bits -/

def RuleDef.timeTests (d : RuleDef) : List Test :=
  match d.activeWeeklyRanges, d.activeHours, d.activeWeekdays with
  | some ranges, _, _ => [⟨false, .timerange (.weeklyRanges ranges)⟩]
  | none, some hours, some weekdays => [⟨false, .timerange (.hoursWeekdays hours weekdays)⟩]
  | none, some hours, none => [⟨false, .timerange (.hours hours)⟩]
  | none, none, some weekdays => [⟨false, .timerange (.weekdays weekdays)⟩]
  | none, none, none => []

def RuleDef.sizeTests (d : RuleDef) : List Test :=
  match d.minPktSize, d.maxPktSize with
  | some min, some max => [⟨false, .length min max⟩]
  | _, _ => []

/-! ## All criteria -/

/-- The protocol, which is `tcp` if there are addresses on the web. -/
def RuleDef.ruleProto (d : RuleDef) : Proto :=
  if d.urlRuleCount > 0 then .tcp else .ofOption d.proto

def RuleDef.setting (d : RuleDef) : Setting := ⟨familyPrefix d.family, d.ruleProto⟩

def bySide {α : Type} (isIngress : Bool) (side : Side) (localValue remoteValue : α) : α :=
  match side with
  | .source => if isIngress then remoteValue else localValue
  | .destination => if isIngress then localValue else remoteValue

def RuleDef.addrs (d : RuleDef) (isIngress : Bool) (side : Side) : Option AddrDef :=
  bySide isIngress side d.localAddr d.remoteAddr

def RuleDef.notAddrs (d : RuleDef) (isIngress : Bool) (side : Side) : Option AddrDef :=
  bySide isIngress side d.notLocalAddr d.notRemoteAddr

def RuleDef.ports (d : RuleDef) (isIngress : Bool) (side : Side) : Option (List String) :=
  bySide isIngress side d.localPort d.remotePort

def RuleDef.notPorts (d : RuleDef) (isIngress : Bool) (side : Side) : Option (List String) :=
  bySide isIngress side d.notLocalPort d.notRemotePort

def RuleDef.portDef (d : RuleDef) (isIngress : Bool) (side : Side) : Option (List String) :=
  (d.ports isIngress side).or (d.notPorts isIngress side)

def RuleDef.compile (d : RuleDef) (isIngress : Bool) : Compile :=
  let g := d.setting
  let includeProto : Bool := Proto.ofOption d.proto ≠ .both
  let c : Compile := ⟨⟨[], d.timeTests ++ d.sizeTests⟩, []⟩
  let c := c.addUrls g d includeProto
  let c := c.addList g d.mark d.notMark true .mark includeProto
  let c := c.addList g d.connmark d.notConnmark false .ctMark includeProto
  let c := c.addAddrs g .source (d.addrs isIngress .source) (d.notAddrs isIngress .source) includeProto
  let c := c.addAddrs g .destination (d.addrs isIngress .destination)
    (d.notAddrs isIngress .destination) includeProto
  let c := c.addList g (d.ports isIngress .source) (d.notPorts isIngress .source) false (.port .source)
    true
  c.addList g (d.ports isIngress .destination) (d.notPorts isIngress .destination) false
    (.port .destination) true

/-! ## The rules -/

def topByteTest (value : ℕ) : Test := ⟨false, .topByte (BitVec.ofNat 32 value)⟩

def tcpTest : Test := ⟨false, .l4proto ["tcp"]⟩

def requestTest : Test := ⟨false, .weburl false .contains "http"⟩

def setTopByte (value : ℕ) : Statement := .setMark 0x00FFFFFF#32 (BitVec.ofNat 32 value)

/-- The protocol is tested with `single_check` unless every protocol will do. -/
def RuleDef.requiresProto (d : RuleDef) (isIngress : Bool) : Bool :=
  !(d.ruleProto = .both ∧ d.portDef isIngress .source = none ∧
    d.portDef isIngress .destination = none)

/-- The criteria with the one for `single_check`: its rule, and the bits that the target asks
for. -/
def RuleDef.multiRules (d : RuleDef) (isIngress : Bool) : List Rule :=
  let c := d.compile isIngress
  if c.parts.singleCheck = [] then c.parts.multiRules
  else
    (computeMultiRules d.setting c.parts [c.parts.singleCheck] true (fun _ tests => tests) false
      c.maskByteIndex (d.requiresProto isIngress)).1.multiRules

def RuleDef.finalBits (d : RuleDef) (isIngress : Bool) : List Bool :=
  let c := d.compile isIngress
  c.masks.map Prod.snd ++ if c.parts.singleCheck = [] then [] else [true]

def RuleDef.initialBits (d : RuleDef) (isIngress : Bool) : List Bool :=
  match (d.compile isIngress).masks with
  | [] => []
  | _ :: masks => false :: masks.map fun m => m.1 && m.2

def RuleDef.initialMainMark (d : RuleDef) (isIngress : Bool) : ℕ :=
  value 24 0 (d.initialBits isIngress)

def RuleDef.finalMatch (d : RuleDef) (isIngress : Bool) : ℕ := value 24 0 (d.finalBits isIngress)

/-- The options of the target: a rejected `tcp` connection is reset. -/
def RuleDef.targetOptions (d : RuleDef) (target : Target) (options : String) : String :=
  if options = "" ∧ d.ruleProto = .tcp ∧ target = .reject then " with tcp reset " else options

def asksReset (options : String) : Bool := decide ("tcp reset".toList <:+: options.toList)

def RuleDef.initialRules (d : RuleDef) (isIngress : Bool) : List Rule :=
  let g := d.setting
  (if d.initialMainMark isIngress > 0 then [⟨g.rulePrefix, setTopByte (d.initialMainMark isIngress)⟩]
    else []) ++
  if d.urlIsNegated ∧ d.urlRuleCount > 1 then
    [⟨g.rulePrefix ++ [tcpTest, requestTest],
      .setMark (~~~ single 32 24 0) (single 32 24 0)⟩]
  else []

def RuleDef.finalRules (d : RuleDef) (isIngress : Bool) (target : Target) (options : String) :
    List Rule :=
  let g := d.setting
  let top := topByteTest (d.finalMatch isIngress)
  if target = .reject ∧ options = "" ∧ d.ruleProto ≠ .both then
    [⟨g.rulePrefix ++ [tcpTest, top], .verdict .reject " with tcp reset"⟩,
      ⟨g.rulePrefix ++ [top], .verdict .reject ""⟩]
  else
    [⟨g.rulePrefix ++ (if asksReset options then [tcpTest] else []) ++ [top],
      .verdict target options⟩]

def RuleDef.singleRules (d : RuleDef) (isIngress : Bool) (target : Target) (options : String) :
    List Rule :=
  let g := d.setting
  let check := (d.compile isIngress).parts.singleCheck
  let reset : Bool := target = .reject ∧ options = ""
  match d.ruleProto with
  | .both =>
    if d.portDef isIngress .destination = none ∧ d.portDef isIngress .source = none then
      (if reset then [⟨g.rulePrefix ++ [tcpTest] ++ check, .verdict .reject " with tcp reset"⟩]
        else []) ++
      [⟨g.rulePrefix ++ check, .verdict target options⟩]
    else
      [⟨g.rulePrefix ++ [tcpTest] ++ check,
          if reset then .verdict .reject " with tcp reset" else .verdict target options⟩,
        ⟨g.rulePrefix ++ [⟨false, .l4proto ["udp"]⟩] ++ check, .verdict target options⟩]
  | proto => [⟨g.rulePrefix ++ proto.tests true ++ check, .verdict target options⟩]

def RuleDef.whitelistRules (d : RuleDef) (isIngress : Bool) (target : Target) : List Rule :=
  let g := d.setting
  if d.urlRuleCount > 0 ∧ target = .accept ∧ isIngress = false then
    [⟨g.rulePrefix ++ [tcpTest, requestTest], setTopByte 0xFF000000⟩,
      ⟨g.rulePrefix ++ [tcpTest, ⟨false, .port .destination "\x7b80,443\x7d"⟩,
        ⟨true, .topByte 0xFF000000#32⟩], .verdict .accept ""⟩,
      ⟨g.rulePrefix ++ [tcpTest, topByteTest 0xFF000000], .verdict .reject " with tcp reset"⟩,
      ⟨g.rulePrefix, setTopByte 0⟩]
  else []

def computeRules (d : RuleDef) (isIngress : Bool) (target : Target) (options : String) :
    List Rule :=
  let options := d.targetOptions target options
  (if (d.compile isIngress).parts.multiRules = [] then d.singleRules isIngress target options
    else d.initialRules isIngress ++ d.multiRules isIngress ++ d.finalRules isIngress target options ++
      [⟨d.setting.rulePrefix, setTopByte 0⟩]) ++
    d.whitelistRules isIngress target

/-!
## What the rules leave behind

The bits of the criteria are in the mark of the connection, and the rule that clears them stands
behind the target. They are left when a packet reaches the target, and the next packet of the
connection starts with them, unless the rules begin with setting the top byte. They do so if a
criterion other than the one for addresses on the web is negated and has a bit.
-/

section Low

variable {Packet : Type*} (nft : Nft Packet) (p : Packet)

theorem lowMask_eq : lowMask 32 24 = 0x00FFFFFF#32 := by decide

theorem not_lowMask_eq : ~~~ lowMask 32 24 = 0xFF000000#32 := by decide

theorem and_lowMask_eq_self {μ : BitVec 32} (h : μ &&& 0xFF000000#32 = 0) :
    μ &&& 0x00FFFFFF#32 = μ := by
  have hflags := (and_not_lowMask_eq_iff 24 μ []).1 (by rw [not_lowMask_eq, h]; rfl)
  have hlow := low_eq_self 24 fun j hj => (hflags j hj).trans (getD_nil ..)
  rwa [low, lowMask_eq] at hlow

def Statement.TopOnly : Statement → Prop
  | .setMark mask value => low 24 mask = lowMask 32 24 ∧ low 24 value = 0
  | .verdict _ _ => True

theorem low_run {rules : List Rule} (h : ∀ r ∈ rules, r.statement.TopOnly) (μ : BitVec 32) :
    low 24 (nft.run p rules μ).1 = low 24 μ := by
  induction rules generalizing μ with
  | nil => rfl
  | cons r rules ih =>
    obtain ⟨hr, hrules⟩ := List.forall_mem_cons.1 h
    rw [Nft.run]
    split_ifs
    · cases hs : r.statement with
      | verdict target options => rfl
      | setMark mask value =>
        rw [hs] at hr
        exact (ih hrules _).trans (low_and_or 24 hr.1 hr.2)
    · exact ih hrules μ

theorem run_of_not_applies {pre : List Test} {rules : List Rule} {μ : BitVec 32}
    (h : ∀ r ∈ rules, pre <+: r.tests) (hpre : nft.applies p μ pre = false) :
    nft.run p rules μ = (μ, none) := by
  induction rules with
  | nil => rfl
  | cons r rules ih =>
    obtain ⟨⟨ts, hts⟩, hrules⟩ := List.forall_mem_cons.1 h
    have hr : nft.applies p μ r.tests = false := by
      rw [← hts, Nft.applies, all_append, ← Nft.applies, hpre, Bool.false_and]
    rw [Nft.run, hr]
    exact ih hrules

theorem applies_familyPrefix (family : Option String) (μ ν : BitVec 32) :
    nft.applies p μ (familyPrefix family) = nft.applies p ν (familyPrefix family) := by
  unfold familyPrefix
  cases family with
  | none => rfl
  | some family =>
    simp only
    split_ifs
    · rfl
    · rfl
    · rfl

end Low

/-! ### The rules of a definition -/

section Rules

structure Rule.Kept (pre : List Test) (r : Rule) : Prop where
  tests : pre <+: r.tests
  statement : r.statement.TopOnly

def Parts.Kept (pre : List Test) (parts : Parts) : Prop := ∀ r ∈ parts.multiRules, r.Kept pre

variable {g : Setting} {pre : List Test} {parts : Parts} {c : Compile}

theorem topOnly_setTopByte {n : ℕ} (h : low 24 (BitVec.ofNat 32 n) = 0) :
    (setTopByte n).TopOnly := by
  refine ⟨?_, h⟩
  rw [← lowMask_eq]
  decide

theorem markRule_kept (g : Setting) (requiresProto isNegation : Bool) (i : ℕ) (tests : List Test) :
    (g.markRule requiresProto isNegation i tests).Kept g.rulePrefix := by
  refine ⟨?_, low_not_single 32 24 i, ?_⟩
  · rw [Setting.markRule, append_assoc]
    exact prefix_append ..
  · split_ifs
    · decide
    · exact low_single 32 24 i

theorem computeMultiRules_kept {α : Type} (h : parts.Kept g.rulePrefix) {entries : List α}
    {neverSingle : Bool} {test : Bool → α → List Test} {isNegation : Bool} {i : ℕ}
    {requiresProto : Bool} :
    (computeMultiRules g parts entries neverSingle test isNegation i requiresProto).1.Kept
      g.rulePrefix := by
  unfold computeMultiRules
  split
  · exact h
  · intro r hr
    rcases List.mem_append.1 hr with hr | hr
    · exact h r hr
    · obtain ⟨a, -, rfl⟩ := List.mem_map.1 hr
      exact markRule_kept ..

theorem foldl_kept {α : Type} {f : Parts → α → Parts} {l : List α}
    (hf : ∀ parts a, parts.Kept pre → (f parts a).Kept pre) (h : parts.Kept pre) :
    (l.foldl f parts).Kept pre := by
  induction l generalizing parts with
  | nil => exact h
  | cons a l ih => exact ih (hf parts a h)

theorem addList_kept (h : c.parts.Kept g.rulePrefix) {list notList : Option (List String)}
    {neverSingleNegated : Bool} {prim : String → Prim} {requiresProto : Bool} :
    (c.addList g list notList neverSingleNegated prim requiresProto).parts.Kept g.rulePrefix := by
  unfold Compile.addList
  cases list.or notList with
  | none => exact h
  | some entries => exact computeMultiRules_kept h

theorem addAddrs_kept (h : c.parts.Kept g.rulePrefix) {side : Side}
    {addrs notAddrs : Option AddrDef} {includeProto : Bool} :
    (c.addAddrs g side addrs notAddrs includeProto).parts.Kept g.rulePrefix := by
  unfold Compile.addAddrs
  cases addrs.or notAddrs with
  | none => exact h
  | some a =>
    refine foldl_kept (fun parts kind hparts => ?_) h
    split_ifs
    · exact hparts
    · exact computeMultiRules_kept hparts

theorem addUrls_kept (h : c.parts.Kept g.rulePrefix) {d : RuleDef} {includeProto : Bool} :
    (c.addUrls g d includeProto).parts.Kept g.rulePrefix := by
  refine foldl_kept (fun parts var hparts => ?_) h
  split_ifs
  · exact hparts
  · exact computeMultiRules_kept hparts

theorem compile_kept (d : RuleDef) (isIngress : Bool) :
    (d.compile isIngress).parts.Kept d.setting.rulePrefix := by
  unfold RuleDef.compile
  refine addList_kept (addList_kept (addAddrs_kept (addAddrs_kept (addList_kept (addList_kept
    (addUrls_kept ?_))))))
  exact fun r hr => nomatch hr

theorem multiRules_kept (d : RuleDef) (isIngress : Bool) :
    ∀ r ∈ d.multiRules isIngress, r.Kept d.setting.rulePrefix := by
  unfold RuleDef.multiRules
  simp only
  split_ifs
  · exact compile_kept d isIngress
  · exact computeMultiRules_kept (compile_kept d isIngress)

theorem kept_verdict {ts : List Test} (h : pre <+: ts) (target : Target) (options : String) :
    (⟨ts, .verdict target options⟩ : Rule).Kept pre :=
  ⟨h, trivial⟩

theorem kept_setTopByte {n : ℕ} (h : low 24 (BitVec.ofNat 32 n) = 0) :
    (⟨pre, setTopByte n⟩ : Rule).Kept pre :=
  ⟨prefix_rfl, topOnly_setTopByte h⟩

theorem initialRules_kept (d : RuleDef) (isIngress : Bool) :
    ∀ r ∈ d.initialRules isIngress, r.Kept d.setting.rulePrefix := by
  intro r hr
  rcases List.mem_append.1 hr with hr | hr
  · split_ifs at hr
    · obtain rfl := List.mem_singleton.1 hr
      exact kept_setTopByte (low_value 24 32 _)
    · cases hr
  · split_ifs at hr
    · obtain rfl := List.mem_singleton.1 hr
      exact ⟨prefix_append .., low_not_single 32 24 0, low_single 32 24 0⟩
    · cases hr

theorem finalRules_kept (d : RuleDef) (isIngress : Bool) (target : Target) (options : String) :
    ∀ r ∈ d.finalRules isIngress target options, r.Kept d.setting.rulePrefix := by
  intro r hr
  unfold RuleDef.finalRules at hr
  simp only at hr
  split_ifs at hr
  · rcases List.mem_pair.1 hr with rfl | rfl
    · exact kept_verdict (prefix_append ..) _ _
    · exact kept_verdict (prefix_append ..) _ _
  · obtain rfl := List.mem_singleton.1 hr
    refine kept_verdict ?_ _ _
    rw [append_assoc]
    exact prefix_append ..
  · obtain rfl := List.mem_singleton.1 hr
    refine kept_verdict ?_ _ _
    rw [append_assoc]
    exact prefix_append ..

theorem whitelistRules_kept (d : RuleDef) (isIngress : Bool) (target : Target) :
    ∀ r ∈ d.whitelistRules isIngress target, r.Kept d.setting.rulePrefix := by
  intro r hr
  unfold RuleDef.whitelistRules at hr
  simp only at hr
  split_ifs at hr
  · simp only [mem_cons, not_mem_nil, or_false] at hr
    rcases hr with rfl | rfl | rfl | rfl
    · exact ⟨prefix_append .., topOnly_setTopByte (by decide)⟩
    · exact kept_verdict (prefix_append ..) _ _
    · exact kept_verdict (prefix_append ..) _ _
    · exact kept_setTopByte (by decide)
  · cases hr

theorem computeRules_of_multi {d : RuleDef} {isIngress : Bool}
    (h : (d.compile isIngress).parts.multiRules ≠ []) (target : Target) (options : String) :
    computeRules d isIngress target options =
      d.initialRules isIngress ++ (d.multiRules isIngress ++
        (d.finalRules isIngress target (d.targetOptions target options) ++
          (⟨d.setting.rulePrefix, setTopByte 0⟩ :: d.whitelistRules isIngress target))) := by
  rw [computeRules, if_neg h]
  simp only [append_assoc, cons_append, nil_append]

theorem computeRules_kept {d : RuleDef} {isIngress : Bool}
    (h : (d.compile isIngress).parts.multiRules ≠ []) (target : Target) (options : String) :
    ∀ r ∈ computeRules d isIngress target options, r.Kept d.setting.rulePrefix := by
  rw [computeRules_of_multi h]
  simp only [forall_mem_append, forall_mem_cons]
  exact ⟨initialRules_kept d isIngress, multiRules_kept d isIngress,
    finalRules_kept d isIngress target _, kept_setTopByte (by decide),
    whitelistRules_kept d isIngress target⟩

theorem computeRules_of_initialMainMark {d : RuleDef} {isIngress : Bool}
    (h : (d.compile isIngress).parts.multiRules ≠ []) (hpos : 0 < d.initialMainMark isIngress)
    (target : Target) (options : String) :
    ∃ rules, computeRules d isIngress target options =
      ⟨d.setting.rulePrefix, setTopByte (d.initialMainMark isIngress)⟩ :: rules := by
  rw [computeRules_of_multi h, RuleDef.initialRules, if_pos hpos]
  exact ⟨_, rfl⟩

end Rules

/-! ### The packets of a connection -/

section Packets

variable {Packet : Type*} (nft : Nft Packet)

def Nft.MarksBefore (C : BitVec 32 → Prop) (rules : List Rule) : List Packet → BitVec 32 → Prop
  | [], _ => True
  | p :: ps, μ => C μ ∧ MarksBefore C rules ps (nft.run p rules μ).1

theorem run_of_setTopByte {family : Option String} (n : ℕ) {rules : List Rule}
    (h : ∀ r ∈ rules, r.Kept (familyPrefix family)) (p : Packet) (μ : BitVec 32) :
    (nft.run p (⟨familyPrefix family, setTopByte n⟩ :: rules) μ).2 =
      (nft.run p (⟨familyPrefix family, setTopByte n⟩ :: rules) (low 24 μ)).2 := by
  have hlow : low 24 (low 24 μ) = low 24 μ := low_low 24 μ
  rw [low, lowMask_eq] at hlow
  by_cases hpre : nft.applies p μ (familyPrefix family)
  · have hpre' := (applies_familyPrefix nft p family (low 24 μ) μ).trans hpre
    simp only [Nft.run, setTopByte, hpre, hpre', if_true, hlow]
    rw [low, lowMask_eq]
  · rw [Bool.not_eq_true] at hpre
    have hpre' := (applies_familyPrefix nft p family (low 24 μ) μ).trans hpre
    have hall : ∀ r ∈ (⟨familyPrefix family, setTopByte n⟩ : Rule) :: rules,
        familyPrefix family <+: r.tests :=
      List.forall_mem_cons.2 ⟨prefix_rfl, fun r hr => (h r hr).tests⟩
    rw [run_of_not_applies nft p hall hpre, run_of_not_applies nft p hall hpre']

/-- The rules of a definition that needs bits have no memory as long as they begin with setting the
top byte, or every packet finds it cleared: what a packet reaches is what it reaches in a
connection without bits. -/
theorem runPackets_eq_map {d : RuleDef} {isIngress : Bool}
    (hmulti : (d.compile isIngress).parts.multiRules ≠ []) (target : Target) (options : String)
    (ps : List Packet) (μ : BitVec 32)
    (hmarks : nft.MarksBefore (fun ν => 0 < d.initialMainMark isIngress ∨ ν &&& 0xFF000000#32 = 0)
      (computeRules d isIngress target options) ps μ) :
    nft.runPackets (computeRules d isIngress target options) ps μ =
      ps.map fun p => (nft.run p (computeRules d isIngress target options)
        (μ &&& 0x00FFFFFF#32)).2 := by
  have hkept := computeRules_kept hmulti target options
  induction ps generalizing μ with
  | nil => rfl
  | cons p ps ih =>
    obtain ⟨hbefore, hrest⟩ := hmarks
    have hlow := low_run nft p (fun r hr => (hkept r hr).statement) μ
    rw [low, low, lowMask_eq] at hlow
    rw [Nft.runPackets, map_cons, ih _ hrest, hlow]
    congr 1
    rcases hbefore with hpos | hzero
    · obtain ⟨rules, hrules⟩ := computeRules_of_initialMainMark hmulti hpos target options
      rw [hrules] at hkept ⊢
      have hall : ∀ r ∈ rules, r.Kept (familyPrefix d.family) := (List.forall_mem_cons.1 hkept).2
      have h := run_of_setTopByte nft (d.initialMainMark isIngress) hall p μ
      rw [low, lowMask_eq] at h
      exact h
    · rw [and_lowMask_eq_self hzero]

end Packets

/-! ### An example -/

section Example

def addressNft : Nft (List Char) where
  nfproto _ := "ipv4"
  l4proto _ := "tcp"
  timerange _ _ := true
  length _ _ _ := true
  weburl _ _ text address := decide (text = "http" ∨ text.toList <:+: address)
  mark _ _ := false
  ctMark _ _ := false
  addr _ _ _ _ := false
  port _ text _ := text = "80"

def adsDef : RuleDef where
  url var := if var = .contains then ["ads", "spam"] else []
  notRemotePort := some ["8080", "8443"]

/-- With a negated list of ports the first packet does not count for the second. -/
theorem ads_memoryless :
    (adsDef.compile false).parts.multiRules ≠ [] ∧ 0 < adsDef.initialMainMark false ∧
      addressNft.runPackets (computeRules adsDef false .drop "") ["ads".toList, "news".toList] 0 =
        [some .drop, none] := by
  have hmulti : (adsDef.compile false).parts.multiRules ≠ [] := by decide
  have hpos : 0 < adsDef.initialMainMark false := by decide
  refine ⟨hmulti, hpos, ?_⟩
  rw [runPackets_eq_map addressNft hmulti .drop "" ["ads".toList, "news".toList] 0
    ⟨Or.inl hpos, Or.inl hpos, trivial⟩]
  decide

/-- Without it the bit of the packet that was dropped is left, and the next packet is dropped too,
whose address contains neither text. -/
theorem ads_remembered :
    ({ adsDef with notRemotePort := none }.compile false).parts.multiRules ≠ [] ∧
      addressNft.runPackets (computeRules { adsDef with notRemotePort := none } false .drop "")
        ["ads".toList, "news".toList] 0 = [some .drop, some .drop] ∧
      addressNft.runPackets (computeRules { adsDef with notRemotePort := none } false .drop "")
        ["news".toList] 0 = [none] := by
  decide

end Example

end Firewall

end Gargoyle
