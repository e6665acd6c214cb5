import Gargoyle.Webmon.Reload
import Gargoyle.Weburl.ClientHello

/-!
# Saving and loading the lists

After a run in which every value that is recorded is one field of a line, each of the
lists is the same when its text is loaded again. A name with a blank in it, which the
first message of an encrypted connection may have, is lost.
-/

namespace Gargoyle

open List

namespace Webmon

open Heap RecentList
open Bandwidth (Kernel In6Addr referenceKernel)

section Runs

variable [Kernel]

def RecentList.FindsLive (l : RecentList) (k : String) : Prop :=
  ∀ p, l.index.get k = some p → (l.heap.value p).isSome

def PlainRecord (value : List Char) (t : ℤ) : Prop :=
  IsWord value ∧ t.bmod (2 ^ Kernel.ulongBits) = t

def StepPlain (s : State) : Event → Prop
  | .domain family srcIp value t =>
    s.domains.FindsLive (printKey family srcIp value) ∧ PlainRecord value t
  | .discard _ _ _ _ => True
  | .search family srcIp value t =>
    s.searches.FindsLive (printKey family srcIp value) ∧ PlainRecord value t

def RunPlain (maxDomains maxSearches : ℕ) : State → List Event → Prop
  | _, [] => True
  | s, e :: events =>
    StepPlain s e ∧
      ∀ s', s.step maxDomains maxSearches e = some s' → RunPlain maxDomains maxSearches s' events

def Entry.Same (e e' : Entry) : Prop :=
  e.SameSource e' ∧ e.value = e'.value ∧ e.time = e'.time

def RecentList.SameQueue (l l' : RecentList) : Prop :=
  ∃ ps es ps' es', l.Holds ps es ∧ l'.Holds ps' es' ∧ List.Forall₂ Entry.Same es es'

def RecentList.Reloads (maxLength : ℕ) (rest : In6Addr) (t : ℤ) (l : RecentList) : Prop :=
  ∃ text l', l.show = some text ∧ loadMapsqueues maxLength rest t text = some l' ∧ l.SameQueue l'

structure RecentList.Kept (maxLength : ℕ) (l : RecentList) (ps : List ℕ) : Prop where
  list : l.heap.IsList l.queue ps
  length_le : ps.length ≤ maxLength
  plain : ∀ p ∈ ps, ∃ e, l.heap.value p = some e ∧ e.Plain
  live : ∀ p ∉ ps, l.heap.value p = none

variable {maxLength : ℕ} {l : RecentList} {ps : List ℕ} {rest : In6Addr} {t t' : ℤ}
  {family : Family} {srcIp : In6Addr} {value : List Char}

omit [Kernel] in
theorem Entry.same_reloaded (e : Entry) (rest : In6Addr) : e.Same (e.reloaded rest) := by
  cases hfamily : e.family with
  | ipv4 =>
    have hreloaded : e.reloaded rest = { e with srcIp := ip4Any (e.srcIp 0) rest } := by
      rw [Entry.reloaded, hfamily]
    rw [hreloaded]
    exact ⟨⟨rfl, rfl, fun h => by rw [hfamily] at h; cases h⟩, rfl, rfl⟩
  | ipv6 =>
    have hreloaded : e.reloaded rest = e := by
      rw [Entry.reloaded, hfamily]
    rw [hreloaded]
    exact ⟨⟨rfl, rfl, fun _ => rfl⟩, rfl, rfl⟩

theorem exists_entries {h : Heap (LinkedNode Entry)} (hplain : ∀ p ∈ ps, ∃ e, h.value p = some e ∧ e.Plain) :
    ∃ es : List Entry, ps.map h.value = es.map some ∧ ∀ e ∈ es, e.Plain := by
  induction ps with
  | nil => exact ⟨[], rfl, fun e he => absurd he not_mem_nil⟩
  | cons p ps ih =>
    obtain ⟨e, he, hplainE⟩ := hplain p mem_cons_self
    obtain ⟨es, hes, hplainEs⟩ := ih fun q hq => hplain q (mem_cons_of_mem p hq)
    refine ⟨e :: es, by rw [map_cons, map_cons, he, hes], fun e' he' => ?_⟩
    rcases List.mem_cons.1 he' with rfl | he'
    · exact hplainE
    · exact hplainEs e' he'

theorem RecentList.Kept.reloads (hprint : PrintsWords) (h : l.Kept maxLength ps) :
    l.Reloads maxLength rest t := by
  obtain ⟨es, hes, hplain⟩ := exists_entries h.plain
  have hholds : l.Holds ps es := ⟨h.list, hes, h.live⟩
  have hlen : es.length ≤ maxLength := by
    have hlength := congrArg List.length hes
    rw [length_map, length_map] at hlength
    rw [← hlength]
    exact h.length_le
  obtain ⟨l', ps', hload, hholds'⟩ :=
    @loadMapsqueues_linesOf _ es maxLength rest t hprint hlen hplain
  refine ⟨_, l', hholds.show, hload, ps, es, ps', _, hholds, hholds', ?_⟩
  rw [List.forall₂_map_right_iff]
  exact List.forall₂_same.2 fun e _ => e.same_reloaded rest

theorem RecentList.Kept.mem_of_isSome (h : l.Kept maxLength ps) {p : ℕ}
    (hp : (l.heap.value p).isSome) : p ∈ ps := by
  by_contra hout
  rw [h.live p hout] at hp
  cases hp

theorem RecentList.Kept.update (h : l.Kept maxLength ps) {p : ℕ} (hp : p ∈ ps)
    (htime : t.bmod (2 ^ Kernel.ulongBits) = t) :
    ∃ l' ps', l.updateQueueNodeTime p t = some l' ∧ l'.Kept maxLength ps' := by
  obtain ⟨e, he, hplain⟩ := h.plain p hp
  obtain ⟨as, bs, rfl⟩ := append_of_mem hp
  obtain ⟨l', hupdate, hlist, hvalue, hother, -⟩ := @updateQueueNodeTime_spec _ l p e as bs t h.list he
  have hperm : ∀ q, q ∈ p :: (as ++ bs) ↔ q ∈ as ++ p :: bs :=
    fun q => List.perm_middle.symm.mem_iff
  refine ⟨l', p :: (as ++ bs), hupdate, hlist, ?_, fun q hq => ?_, fun q hq => ?_⟩
  · have hlen := h.length_le
    simp only [length_append, length_cons] at hlen ⊢
    omega
  · by_cases hqp : q = p
    · subst hqp
      exact ⟨_, hvalue, hplain.value, htime⟩
    · rw [hother q hqp]
      exact h.plain q ((hperm q).1 hq)
  · have hqp : q ≠ p := fun heq => hq (heq ▸ mem_cons_self)
    rw [hother q hqp]
    exact h.live q fun hmem => hq ((hperm q).2 hmem)

/-- A plain record keeps the list. -/
theorem RecentList.Kept.add {k : String} (h : l.Kept maxLength ps) (hmax : 1 ≤ maxLength)
    (hplain : PlainRecord value t) :
    ∃ l' ps', l.addQueueNode family srcIp value k maxLength t = some l' ∧
      l'.Kept maxLength ps' := by
  obtain ⟨added, hstep, hlist, hvalue, hother, -⟩ :=
    @addQueueNode_spec _ l ps t family srcIp value k maxLength h.list
  have hlen := h.length_le
  have hadded : added.Kept (maxLength + 1) (l.heap.bound :: ps) := by
    refine ⟨hlist, by rw [length_cons]; omega, fun q hq => ?_, fun q hq => ?_⟩
    · rcases List.mem_cons.1 hq with rfl | hq
      · exact ⟨_, hvalue, hplain.1, hplain.2⟩
      · rw [hother q (h.list.ne_bound hq)]
        exact h.plain q hq
    · rw [mem_cons, not_or] at hq
      rw [hother q hq.1, h.live q hq.2]
  rw [hstep]
  by_cases hlong : maxLength ≤ ps.length
  · rw [if_pos hlong]
    rcases eq_nil_or_concat ps with rfl | ⟨front, old, rfl⟩
    · rw [length_nil] at hlong
      omega
    · rw [concat_eq_append] at *
      obtain ⟨e, he, -⟩ := hadded.plain old (by simp)
      obtain ⟨l', hdrop, hlist', hother', -, hfreed⟩ :=
        @dropLast_spec _ added old e (l.heap.bound :: front) family hlist (by simp) he
      have hold : old ∉ l.heap.bound :: front := by
        have hnodup := hlist.nodup
        rw [← cons_append, nodup_append] at hnodup
        exact fun hmem => hnodup.2.2 old hmem old (mem_singleton_self old) rfl
      rw [length_append, length_singleton] at hlen
      refine ⟨l', _, hdrop, hlist', by rw [length_cons]; omega, fun q hq => ?_, fun q hq => ?_⟩
      · rw [hother' q fun heq => hold (heq ▸ hq)]
        exact hadded.plain q (by rw [← cons_append]; exact mem_append_left _ hq)
      · by_cases hqold : q = old
        · rw [hqold, hfreed]
        · rw [hother' q hqold]
          refine hadded.live q fun hmem => ?_
          rw [← cons_append, mem_append, mem_singleton] at hmem
          exact hmem.elim hq hqold
  · rw [if_neg hlong]
    exact ⟨added, _, rfl, hadded.list, by rw [length_cons]; omega, hadded.plain, hadded.live⟩

theorem RecentList.Kept.record (h : l.Kept maxLength ps) (hmax : 1 ≤ maxLength)
    (hlive : l.FindsLive (printKey family srcIp value)) (hplain : PlainRecord value t) :
    ∃ l' ps', l.record maxLength family srcIp value t = some l' ∧ l'.Kept maxLength ps' := by
  rw [RecentList.record]
  cases hget : l.index.get (printKey family srcIp value) with
  | some p => exact h.update (h.mem_of_isSome (hlive p hget)) hplain.2
  | none => exact h.add hmax hplain

/-- Dropping what was still typed keeps the list. -/
theorem RecentList.Kept.discard {search : List Char} (h : l.Kept maxLength ps) :
    ∃ l' ps', l.discard family srcIp search t = some l' ∧ l'.Kept maxLength ps' := by
  cases family with
  | ipv6 => exact ⟨l, ps, by rw [RecentList.discard], h⟩
  | ipv4 =>
    cases ps with
    | nil =>
      have hfirst : l.queue.first = none := h.list.first
      exact ⟨l, [], by simp only [RecentList.discard, hfirst], h⟩
    | cons p ps =>
      obtain ⟨e, he, -⟩ := h.plain p mem_cons_self
      have hfirst : l.queue.first = some p := h.list.first
      obtain ⟨hp, -⟩ := List.nodup_cons.1 h.list.nodup
      have hlen := h.length_le
      rw [length_cons] at hlen
      by_cases htyped : stillTyped e srcIp search t = true
      · obtain ⟨l', hdiscard, hlist, hother, -, hfreed⟩ := discard_spec h.list he htyped
        refine ⟨l', ps, hdiscard, hlist, by omega, fun q hq => ?_, fun q hq => ?_⟩
        · rw [hother q fun heq => hp (heq ▸ hq)]
          exact h.plain q (mem_cons_of_mem p hq)
        · by_cases hqp : q = p
          · rw [hqp, hfreed]
          · rw [hother q hqp]
            exact h.live q fun hmem => (List.mem_cons.1 hmem).elim hqp hq
      · have hnode := @node_of_value _ l p e [] ps h.list he
        refine ⟨l, p :: ps, ?_, h⟩
        simp only [RecentList.discard, hfirst, hnode, Option.bind_some, htyped,
          Bool.false_eq_true, if_false]

def StateKept (maxDomains maxSearches : ℕ) (s : State) : Prop :=
  (∃ ps, s.domains.Kept maxDomains ps) ∧ ∃ ps, s.searches.Kept maxSearches ps

variable {maxDomains maxSearches : ℕ} {events : List Event} {s : State} {e : Event}

theorem StateKept.step (hdomains : 1 ≤ maxDomains) (hsearches : 1 ≤ maxSearches)
    (h : StateKept maxDomains maxSearches s) (hplain : StepPlain s e) :
    ∃ s', s.step maxDomains maxSearches e = some s' ∧ StateKept maxDomains maxSearches s' := by
  obtain ⟨⟨ps, hd⟩, ps', hs⟩ := h
  cases e with
  | domain family srcIp value t =>
    obtain ⟨l', qs, hrecord, hd'⟩ := hd.record hdomains hplain.1 hplain.2
    exact ⟨{ s with domains := l' }, by rw [State.step, hrecord, Option.map_some],
      ⟨qs, hd'⟩, ps', hs⟩
  | discard family srcIp search t =>
    obtain ⟨l', qs, hdiscard, hs'⟩ := @hs.discard _ _ _ _ t family srcIp search
    exact ⟨{ s with searches := l' }, by rw [State.step, hdiscard, Option.map_some],
      ⟨ps, hd⟩, qs, hs'⟩
  | search family srcIp value t =>
    obtain ⟨l', qs, hrecord, hs'⟩ := hs.record hsearches hplain.1 hplain.2
    exact ⟨{ s with searches := l' }, by rw [State.step, hrecord, Option.map_some],
      ⟨ps, hd⟩, qs, hs'⟩

theorem StateKept.run (hdomains : 1 ≤ maxDomains) (hsearches : 1 ≤ maxSearches)
    (h : StateKept maxDomains maxSearches s) (hplain : RunPlain maxDomains maxSearches s events) :
    ∃ s', s.run maxDomains maxSearches events = some s' ∧
      StateKept maxDomains maxSearches s' := by
  induction events generalizing s with
  | nil => exact ⟨s, rfl, h⟩
  | cons e events ih =>
    obtain ⟨s₁, hstep, h₁⟩ := h.step hdomains hsearches hplain.1
    obtain ⟨s₂, hrun, h₂⟩ := ih h₁ (hplain.2 s₁ hstep)
    exact ⟨s₂, by rw [State.run, hstep, Option.bind_some, hrun], h₂⟩

/-- After a run of plain records both lists are the same when they are loaded. -/
theorem run_reloads (hprint : PrintsWords) (hdomains : 1 ≤ maxDomains)
    (hsearches : 1 ≤ maxSearches) (hplain : RunPlain maxDomains maxSearches .initial events) :
    ∃ s, State.initial.run maxDomains maxSearches events = some s ∧
      s.domains.Reloads maxDomains rest t ∧ s.searches.Reloads maxSearches rest t := by
  have hempty : ∀ maxLength, (RecentList.empty).Kept maxLength [] := fun _ =>
    ⟨isList_nil _, Nat.zero_le _, fun _ hp => absurd hp not_mem_nil, fun _ _ => rfl⟩
  have hinitial : StateKept maxDomains maxSearches .initial := ⟨⟨[], hempty _⟩, [], hempty _⟩
  obtain ⟨s, hrun, ⟨ps, hd⟩, ps', hs⟩ := hinitial.run hdomains hsearches hplain
  exact ⟨s, hrun, hd.reloads hprint, hs.reloads hprint⟩

theorem RecentList.SameQueue.length_eq {l' : RecentList} (h : l.SameQueue l') :
    l.queue.length = l'.queue.length := by
  obtain ⟨ps, es, ps', es', hl, hl', hsame⟩ := h
  have hps := congrArg List.length hl.values
  have hps' := congrArg List.length hl'.values
  rw [length_map, length_map] at hps hps'
  rw [hl.list.length, hl'.list.length, hps, hps', hsame.length_eq]

end Runs

section Names

local instance namesKernel : Kernel := referenceKernel 32

theorem isWord_numerals {sep : Char} {b n m : ℕ} {ns : List ℕ} (hb : 1 < b) (hb' : b ≤ 16)
    (hsep : sep ∉ blanks) : IsWord (Numerals.numerals sep b (n :: m :: ns)) := by
  refine ⟨by rw [Numerals.numerals_cons_cons]; simp, fun c hc hblank => ?_⟩
  have hne : c ≠ sep := fun heq => hsep (heq ▸ hblank)
  refine Numerals.not_mem_numerals hb hb' hne ?_ _ hc
  fin_cases hblank <;> decide

theorem namesKernel_printsWords : PrintsWords where
  pI4 a := by
    change IsWord (Bandwidth.dottedDecimal a).toList
    rw [Bandwidth.dottedDecimal, String.toList_ofList]
    exact isWord_numerals (by norm_num) (by norm_num) (by decide)
  pI6c a := by
    change IsWord (Bandwidth.colonHex a).toList
    unfold Bandwidth.colonHex
    split_ifs
    · exact ⟨by decide, Numerals.forall_mem_of_all (by decide)⟩
    · rw [String.toList_ofList, Bandwidth.groups]
      exact isWord_numerals (by norm_num) (by norm_num) (by decide)

theorem findsLive_of_isNone {l : RecentList} {k : String} (h : (l.index.get k).isNone = true) :
    l.FindsLive k := by
  intro p hp
  rw [hp] at h
  cases h

theorem sameFamily_plain : RunPlain 2 1 .initial sameFamily := by
  have hplain : ∀ value t, value ≠ [] → (value.all fun c => decide (c ∉ blanks)) = true →
      t.bmod (2 ^ Kernel.ulongBits) = t → PlainRecord value t :=
    fun _ _ hne hall hbmod => ⟨⟨hne, Numerals.forall_mem_of_all hall⟩, hbmod⟩
  refine ⟨⟨findsLive_of_isNone rfl, hplain _ _ (by decide) (by decide) (by decide)⟩,
    fun s hs => ⟨⟨?_, hplain _ _ (by decide) (by decide) (by decide)⟩, fun _ _ => trivial⟩⟩
  obtain rfl := Option.some.inj hs
  exact findsLive_of_isNone (by decide)

/-- Two visits that are shown and loaded in their order. -/
theorem plain_visits_reload :
    ∃ s, State.initial.run 2 1 sameFamily = some s ∧ s.domains.queue.length = 2 ∧
      s.domains.Reloads 2 visitor4 5 := by
  obtain ⟨s, hrun, hdomains, -⟩ := @run_reloads _ visitor4 5 2 1 sameFamily
    namesKernel_printsWords (by decide) le_rfl sameFamily_plain
  have hlength : (State.initial.run 2 1 sameFamily).map (fun s => s.domains.queue.length) =
      some 2 := by decide
  rw [hrun] at hlength
  exact ⟨s, hrun, Option.some.inj hlength, hdomains⟩

def blankHello : List UInt8 :=
  (Weburl.helloFor (Weburl.packetOf "a b") (by decide) (by decide)).bytes

/-- The name is recorded, and is lost when the list is loaded. -/
theorem blank_name_lost :
    Weburl.extractUrlHttps (ByteBuffer.ofBytes blankHello) blankHello.length = "a b".toList ∧
      ∃ s, State.initial.run 1 1 [.domain .ipv4 visitor4 "a b".toList 0] = some s ∧
        s.domains.queue.length = 1 ∧ ¬ s.domains.Reloads 1 visitor4 5 := by
  have hname : Weburl.serverName (ByteBuffer.ofBytes blankHello) blankHello.length =
      some (some "a b".toList) := by decide
  refine ⟨?_, ?_⟩
  · rw [Weburl.extractUrlHttps, Weburl.clientHelloHost_of_serverName hname]
    rfl
  · have hresult : (State.initial.run 1 1 [.domain .ipv4 visitor4 "a b".toList 0]).map (fun s =>
        (s.domains.queue.length, s.domains.show.bind fun text =>
          (loadMapsqueues 1 visitor4 5 text).map fun l => l.queue.length)) =
          some (1, some 0) := by decide
    obtain ⟨s, hs, hfacts⟩ := Option.map_eq_some_iff.1 hresult
    obtain ⟨hone, hzero⟩ := Prod.mk.inj hfacts
    refine ⟨s, hs, hone, ?_⟩
    rintro ⟨text, l', hshow, hload, hsame⟩
    rw [hshow, Option.bind_some, hload, Option.map_some, Option.some.injEq] at hzero
    have hlength := hsame.length_eq
    omega

end Names

end Webmon

end Gargoyle
