import Gargoyle.Ewget.ResponseCut

/-!
# Every way of reading a response

The reader of a response does with each piece what `Split` says, or reads outside of its memory. From
this follows which ways of cutting a stream give the header and the body that the stream has.
-/

namespace Gargoyle

open List

namespace Ewget

open CText

structure Destinations.Received (before after : Destinations) (header body : List UInt8) :
    Prop where
  headerStream_eq : after.headerStream = before.headerStream.map (· ++ header)
  bodyStream_eq : after.bodyStream = before.bodyStream.map (· ++ body)
  combinedStream_eq : after.combinedStream = before.combinedStream.map (· ++ (header ++ body))
  reply_isSome : after.reply.isSome = before.reply.isSome
  reply_eq : ∀ reply ∈ after.reply,
    reply.header.getD [] = header ∧ reply.data.getD [] = body ∧ reply.length = body.length

structure HoldsReply (s : Split) (r : Reader) (reply : HttpResponse) : Prop where
  headerBytesRead_eq : r.headerBytesRead = s.header.length
  bodyBytesRead_eq : r.bodyBytesRead = s.body.length
  header_eq : reply.header.getD [] = cstr s.header
  header_isSome : s.header ≠ [] → reply.header.isSome
  data_eq : reply.data.getD [] = s.body
  length_eq : reply.length = s.body.length

structure Follows (out : Destinations) (s : Split) (r : Reader) : Prop where
  readingHeader_eq : r.readingHeader = s.readingHeader
  lastTwo_eq : r.lastTwoBytesOfOldReadBuffer = s.lastTwo
  body_eq : s.readingHeader = true → s.body = []
  headerStream_eq : r.out.headerStream = out.headerStream.map (· ++ s.header)
  bodyStream_eq : r.out.bodyStream = out.bodyStream.map (· ++ s.body)
  combinedStream_eq : r.out.combinedStream = out.combinedStream.map (· ++ (s.header ++ s.body))
  reply_isSome : r.out.reply.isSome = out.reply.isSome
  reply_holds : ∀ reply ∈ r.out.reply, HoldsReply s r reply

structure FitsHeader (header part : List UInt8) : Prop where
  length_le : header.length ≤ (cstr header).length + 1
  int_lt : header.length + part.length + 1 < 2 ^ 31
  contentIsText_isSome : (contentIsText (header ++ part)).isSome

theorem int_of_lt {n : ℕ} (h : n < 2 ^ 31) : int n = some n := if_pos h

theorem memcpy_cstr_iff {header : List UInt8} :
    memcpy (cstr header ++ [0]) header.length =
      if header.length ≤ (cstr header).length + 1 then some header else none := by
  rw [memcpy, length_append, length_singleton]
  split_ifs with h
  · have hsplit := takeWhile_append_dropWhile (l := header)
      (p := fun x : UInt8 => decide (x ≠ 0))
    rw [← cstr] at hsplit
    congr 1
    cases hd : header.dropWhile fun x : UInt8 => decide (x ≠ 0) with
    | nil =>
      rw [hd, List.append_nil] at hsplit
      rw [hsplit]
      exact take_left
    | cons x rest =>
      have hne : header.dropWhile (fun x => decide (x ≠ 0)) ≠ [] := by
        rw [hd]
        exact cons_ne_nil x rest
      have hx := head_dropWhile_not _ hne
      simp only [hd, head_cons, decide_eq_false_iff_not, not_not] at hx
      subst hx
      rw [hd] at hsplit
      have hlen := congrArg List.length hsplit
      rw [length_append, length_cons] at hlen
      have hrest : rest = [] := by
        rw [← length_eq_zero_iff]
        omega
      subst hrest
      rw [hsplit]
      exact take_length
  · rfl

/-- A part of the header is added if it fits. -/
theorem addHeader_eq_some_iff {s : Split} {r : Reader} {reply reply' : HttpResponse}
    {part : List UInt8} (h : HoldsReply s r reply) :
    reply.addHeader r.headerBytesRead part = some reply' ↔
      FitsHeader s.header part ∧ reply' = { reply with
        header := some (cstr (s.header ++ part))
        isText := ((contentIsText (s.header ++ part)).getD none).getD reply.isText } := by
  have hold : copyOld (reply.header.elim [] (· ++ [0])) s.header.length =
      if s.header.length ≤ (cstr s.header).length + 1 then some s.header else none := by
    rw [copyOld, ← memcpy_cstr_iff]
    split_ifs with hpos
    · obtain ⟨old, hhold⟩ := Option.isSome_iff_exists.1
        (h.header_isSome (ne_nil_of_length_pos hpos))
      have hheader := h.header_eq
      rw [hhold, Option.getD_some] at hheader
      rw [hhold, Option.elim_some, hheader]
    · have hnil : s.header = [] := by
        rw [← length_eq_zero_iff]
        omega
      rw [hnil]
      rfl
  rw [HttpResponse.addHeader, h.headerBytesRead_eq, hold]
  constructor
  · intro hsome
    unfold int at hsome
    split_ifs at hsome with hint hlen
    · cases htext : contentIsText (s.header ++ part) with
      | none => simp [htext] at hsome
      | some isText =>
        simp [htext] at hsome
        exact ⟨⟨hlen, hint, by rw [htext]; rfl⟩, hsome.symm⟩
    all_goals simp at hsome
  · rintro ⟨⟨hlen, hint, htext⟩, rfl⟩
    obtain ⟨isText, htext⟩ := Option.isSome_iff_exists.1 htext
    simp [int_of_lt hint, hlen, htext]

theorem addBody_eq_some_iff {s : Split} {r : Reader} {reply reply' : HttpResponse}
    {part : List UInt8} (h : HoldsReply s r reply) :
    reply.addBody r.bodyBytesRead part = some reply' ↔
      s.body.length + part.length < 2 ^ 31 ∧ reply' = { reply with
        data := some (s.body ++ part), length := s.body.length + part.length } := by
  have hold : copyOld (reply.data.getD []) s.body.length = some s.body := by
    rw [copyOld, h.data_eq, memcpy, if_pos le_rfl, take_length]
    split_ifs with hpos
    · rfl
    · congr 1
      exact (List.length_eq_zero_iff.1 (by omega)).symm
  rw [HttpResponse.addBody, h.bodyBytesRead_eq, hold]
  constructor
  · intro hsome
    unfold int at hsome
    split_ifs at hsome with hint
    · simp at hsome
      exact ⟨hint, hsome.symm⟩
    · simp at hsome
  · rintro ⟨hint, rfl⟩
    simp [int_of_lt hint]

structure Fits (out : Destinations) (s : Split) (b : List UInt8) : Prop where
  header : out.reply.isSome → s.readingHeader = true →
    FitsHeader s.header (b.take ((bodyStart s.lastTwo b).getD b.length))
  body : out.reply.isSome → (s.step b).readingHeader = false → (s.step b).body.length < 2 ^ 31

section Step

variable {out : Destinations} {s : Split} {r r' : Reader} {b part : List UInt8}

/-- Writing a part of the header. -/
theorem Follows.writeHeader (hf : Follows out s r) (hr : s.readingHeader = true)
    (h : r.writeHeader part = some r') :
    (out.reply.isSome → FitsHeader s.header part) ∧
      Follows out { s with header := s.header ++ part } r' := by
  have hbody := hf.body_eq hr
  rw [Reader.writeHeader] at h
  cases hreply : r.out.reply with
  | none =>
    have hout : out.reply.isSome = false := by rw [← hf.reply_isSome, hreply]; rfl
    simp only [hreply, Option.pure_def, Option.some.injEq] at h
    subst h
    refine ⟨fun h => absurd h (by simp [hout]), ?_⟩
    exact
      { readingHeader_eq := hf.readingHeader_eq
        lastTwo_eq := hf.lastTwo_eq
        body_eq := hf.body_eq
        headerStream_eq := by simp [hf.headerStream_eq, Function.comp_def]
        bodyStream_eq := hf.bodyStream_eq
        combinedStream_eq := by simp [hf.combinedStream_eq, hbody, Function.comp_def]
        reply_isSome := by rw [hout]; rfl
        reply_holds := by simp }
  | some reply =>
    have hout : out.reply.isSome = true := by rw [← hf.reply_isSome, hreply]; rfl
    have hholds := hf.reply_holds reply hreply
    simp only [hreply, Option.pure_def, Option.bind_eq_bind] at h
    obtain ⟨reply', hadd, h⟩ := Option.bind_eq_some_iff.1 h
    obtain ⟨hfits, rfl⟩ := (addHeader_eq_some_iff hholds).1 hadd
    obtain rfl := Option.some.inj h
    refine ⟨fun _ => hfits, ?_⟩
    exact
      { readingHeader_eq := hf.readingHeader_eq
        lastTwo_eq := hf.lastTwo_eq
        body_eq := hf.body_eq
        headerStream_eq := by simp [hf.headerStream_eq, Function.comp_def]
        bodyStream_eq := hf.bodyStream_eq
        combinedStream_eq := by simp [hf.combinedStream_eq, hbody, Function.comp_def]
        reply_isSome := by rw [hout]; rfl
        reply_holds := by
          intro reply' hmem
          obtain rfl := Option.some.inj hmem
          exact
            { headerBytesRead_eq := by simp [hholds.headerBytesRead_eq]
              bodyBytesRead_eq := hholds.bodyBytesRead_eq
              header_eq := rfl
              header_isSome := fun _ => rfl
              data_eq := hholds.data_eq
              length_eq := hholds.length_eq } }

theorem Follows.exists_writeHeader (hf : Follows out s r)
    (hfits : out.reply.isSome → FitsHeader s.header part) : ∃ r', r.writeHeader part = some r' := by
  rw [Reader.writeHeader]
  cases hreply : r.out.reply with
  | none => exact ⟨_, rfl⟩
  | some reply =>
    have hout : out.reply.isSome = true := by rw [← hf.reply_isSome, hreply]; rfl
    have hadd := (addHeader_eq_some_iff (hf.reply_holds reply hreply)).2 ⟨hfits hout, rfl⟩
    simp only [hadd, Option.bind_eq_bind, Option.bind_some]
    exact ⟨_, rfl⟩

/-- Writing a part of the body. -/
theorem Follows.writeBody (hf : Follows out s r) (hr : s.readingHeader = false)
    (h : r.writeBody part = some r') :
    (out.reply.isSome → s.body.length + part.length < 2 ^ 31) ∧
      Follows out { s with body := s.body ++ part } r' := by
  rw [Reader.writeBody] at h
  cases hreply : r.out.reply with
  | none =>
    have hout : out.reply.isSome = false := by rw [← hf.reply_isSome, hreply]; rfl
    simp only [hreply, Option.pure_def, Option.some.injEq] at h
    subst h
    refine ⟨fun h => absurd h (by simp [hout]), ?_⟩
    exact
      { readingHeader_eq := hf.readingHeader_eq
        lastTwo_eq := hf.lastTwo_eq
        body_eq := fun h => by rw [hr] at h; cases h
        headerStream_eq := hf.headerStream_eq
        bodyStream_eq := by simp [hf.bodyStream_eq, Function.comp_def]
        combinedStream_eq := by simp [hf.combinedStream_eq, Function.comp_def]
        reply_isSome := by rw [hout]; rfl
        reply_holds := by simp }
  | some reply =>
    have hout : out.reply.isSome = true := by rw [← hf.reply_isSome, hreply]; rfl
    have hholds := hf.reply_holds reply hreply
    simp only [hreply, Option.pure_def, Option.bind_eq_bind] at h
    obtain ⟨reply', hadd, h⟩ := Option.bind_eq_some_iff.1 h
    obtain ⟨hfits, rfl⟩ := (addBody_eq_some_iff hholds).1 hadd
    obtain rfl := Option.some.inj h
    refine ⟨fun _ => hfits, ?_⟩
    exact
      { readingHeader_eq := hf.readingHeader_eq
        lastTwo_eq := hf.lastTwo_eq
        body_eq := fun h => by rw [hr] at h; cases h
        headerStream_eq := hf.headerStream_eq
        bodyStream_eq := by simp [hf.bodyStream_eq, Function.comp_def]
        combinedStream_eq := by simp [hf.combinedStream_eq, Function.comp_def]
        reply_isSome := by rw [hout]; rfl
        reply_holds := by
          intro reply' hmem
          obtain rfl := Option.some.inj hmem
          exact
            { headerBytesRead_eq := hholds.headerBytesRead_eq
              bodyBytesRead_eq := by simp [hholds.bodyBytesRead_eq]
              header_eq := hholds.header_eq
              header_isSome := hholds.header_isSome
              data_eq := rfl
              length_eq := by simp } }

theorem Follows.exists_writeBody (hf : Follows out s r)
    (hfits : out.reply.isSome → s.body.length + part.length < 2 ^ 31) :
    ∃ r', r.writeBody part = some r' := by
  rw [Reader.writeBody]
  cases hreply : r.out.reply with
  | none => exact ⟨_, rfl⟩
  | some reply =>
    have hout : out.reply.isSome = true := by rw [← hf.reply_isSome, hreply]; rfl
    have hadd := (addBody_eq_some_iff (hf.reply_holds reply hreply)).2 ⟨hfits hout, rfl⟩
    simp only [hadd, Option.bind_eq_bind, Option.bind_some]
    exact ⟨_, rfl⟩

theorem Follows.endHeader (hf : Follows out s r) (reading : Bool)
    (hbody : reading = true → s.body = []) :
    Follows out { s with readingHeader := reading } { r with readingHeader := reading } where
  readingHeader_eq := rfl
  lastTwo_eq := hf.lastTwo_eq
  body_eq := hbody
  headerStream_eq := hf.headerStream_eq
  bodyStream_eq := hf.bodyStream_eq
  combinedStream_eq := hf.combinedStream_eq
  reply_isSome := hf.reply_isSome
  reply_holds := fun reply h =>
    let hholds := hf.reply_holds reply h
    ⟨hholds.headerBytesRead_eq, hholds.bodyBytesRead_eq, hholds.header_eq, hholds.header_isSome,
      hholds.data_eq, hholds.length_eq⟩

theorem Follows.remember (hf : Follows out s r) (old : UInt8 × UInt8) :
    Follows out { s with lastTwo := old } { r with lastTwoBytesOfOldReadBuffer := old } where
  readingHeader_eq := hf.readingHeader_eq
  lastTwo_eq := rfl
  body_eq := hf.body_eq
  headerStream_eq := hf.headerStream_eq
  bodyStream_eq := hf.bodyStream_eq
  combinedStream_eq := hf.combinedStream_eq
  reply_isSome := hf.reply_isSome
  reply_holds := fun reply h =>
    let hholds := hf.reply_holds reply h
    ⟨hholds.headerBytesRead_eq, hholds.bodyBytesRead_eq, hholds.header_eq, hholds.header_isSome,
      hholds.data_eq, hholds.length_eq⟩

theorem readStep_of_not (hr : r.readingHeader = false) : r.readStep b =
    (r.writeBody b).map fun r => { r with lastTwoBytesOfOldReadBuffer := lastTwoBytes b } := by
  cases h : r.writeBody b with
  | none => simp [Reader.readStep, hr, h]
  | some r' => simp [Reader.readStep, hr, h]

theorem readStep_of_none (hr : r.readingHeader = true)
    (hstart : bodyStart r.lastTwoBytesOfOldReadBuffer b = none) : r.readStep b =
      (r.writeHeader b).map fun r =>
        { r with readingHeader := true, lastTwoBytesOfOldReadBuffer := lastTwoBytes b } := by
  cases h : r.writeHeader b with
  | none => simp [Reader.readStep, hr, hstart, h]
  | some r' => simp [Reader.readStep, hr, hstart, h]

theorem readStep_of_some {n : ℕ} (hr : r.readingHeader = true)
    (hstart : bodyStart r.lastTwoBytesOfOldReadBuffer b = some n) : r.readStep b =
      (r.writeHeader (b.take n)).bind fun r =>
        (Reader.writeBody { r with readingHeader := false } (b.drop n)).map fun r =>
          { r with lastTwoBytesOfOldReadBuffer := lastTwoBytes b } := by
  cases h : r.writeHeader (b.take n) with
  | none => simp [Reader.readStep, hr, hstart, h]
  | some r' =>
    cases h' : Reader.writeBody { r' with readingHeader := false } (b.drop n) with
    | none => simp [Reader.readStep, hr, hstart, h, h']
    | some r'' => simp [Reader.readStep, hr, hstart, h, h']

/-- One read. -/
theorem Follows.readStep (hf : Follows out s r) (h : r.readStep b = some r') :
    Fits out s b ∧ Follows out (s.step b) r' := by
  cases hr : s.readingHeader with
  | false =>
    rw [readStep_of_not (hf.readingHeader_eq.trans hr)] at h
    obtain ⟨r₁, hbody, rfl⟩ := Option.map_eq_some_iff.1 h
    obtain ⟨hfits, hf₁⟩ := hf.writeBody hr hbody
    rw [Split.step_of_not hr]
    refine ⟨⟨fun _ h => absurd h (by simp [hr]), fun hout _ => ?_⟩, ?_⟩
    · rw [Split.step_of_not hr, length_append]
      exact hfits hout
    · have := hf₁.remember (lastTwoBytes b)
      rwa [← hr]
  | true =>
    have hr' := hf.readingHeader_eq.trans hr
    cases hstart : bodyStart s.lastTwo b with
    | none =>
      rw [readStep_of_none hr' (by rw [hf.lastTwo_eq, hstart])] at h
      obtain ⟨r₁, hheader, rfl⟩ := Option.map_eq_some_iff.1 h
      obtain ⟨hfits, hf₁⟩ := hf.writeHeader hr hheader
      have hstep := Split.step_of_none hr hstart
      refine ⟨⟨fun hout _ => ?_, fun _ h => absurd h (by simp [hstep])⟩, ?_⟩
      · rw [hstart, Option.getD_none, take_length]
        exact hfits hout
      · rw [hstep]
        exact (hf₁.endHeader true fun _ => hf.body_eq hr).remember _
    | some n =>
      rw [readStep_of_some hr' (by rw [hf.lastTwo_eq, hstart])] at h
      obtain ⟨r₁, hheader, h⟩ := Option.bind_eq_some_iff.1 h
      obtain ⟨r₂, hbody, rfl⟩ := Option.map_eq_some_iff.1 h
      obtain ⟨hfits, hf₁⟩ := hf.writeHeader hr hheader
      have hf₁ := hf₁.endHeader false (by simp)
      obtain ⟨hfits', hf₂⟩ := hf₁.writeBody rfl hbody
      have hstep := Split.step_of_some hr hstart
      refine ⟨⟨fun hout _ => ?_, fun hout _ => ?_⟩, ?_⟩
      · rw [hstart]
        exact hfits hout
      · rw [hstep, length_append]
        exact hfits' hout
      · rw [hstep]
        exact hf₂.remember _

/-- A read that fits does not fail. -/
theorem Follows.exists_readStep (hf : Follows out s r) (hfits : Fits out s b) :
    ∃ r', r.readStep b = some r' := by
  cases hr : s.readingHeader with
  | false =>
    rw [readStep_of_not (hf.readingHeader_eq.trans hr)]
    have hbody := hfits.body
    rw [Split.step_of_not hr, length_append] at hbody
    obtain ⟨r', h⟩ := hf.exists_writeBody fun hout => hbody hout rfl
    rw [h]
    exact ⟨_, rfl⟩
  | true =>
    have hr' := hf.readingHeader_eq.trans hr
    cases hstart : bodyStart s.lastTwo b with
    | none =>
      rw [readStep_of_none hr' (by rw [hf.lastTwo_eq, hstart])]
      have hheader := hfits.header
      rw [hstart, Option.getD_none, take_length] at hheader
      obtain ⟨r', h⟩ := hf.exists_writeHeader fun hout => hheader hout hr
      rw [h]
      exact ⟨_, rfl⟩
    | some n =>
      rw [readStep_of_some hr' (by rw [hf.lastTwo_eq, hstart])]
      have hheader := hfits.header
      have hbody := hfits.body
      rw [hstart, Option.getD_some] at hheader
      rw [Split.step_of_some hr hstart, length_append] at hbody
      obtain ⟨r₁, h⟩ := hf.exists_writeHeader fun hout => hheader hout hr
      obtain ⟨-, hf₁⟩ := hf.writeHeader hr h
      have hf₁ := hf₁.endHeader false (by simp)
      obtain ⟨r₂, h'⟩ := hf₁.exists_writeBody fun hout => hbody hout rfl
      rw [h, Option.bind_some, h']
      exact ⟨_, rfl⟩

end Step

section Run

variable {out : Destinations} {r : Reader} {reads : List (List UInt8)}

theorem follows_start (out : Destinations) : Follows out Split.start (Reader.start out) where
  readingHeader_eq := rfl
  lastTwo_eq := rfl
  body_eq := fun _ => rfl
  headerStream_eq := by simp [Reader.start, Split.start]
  bodyStream_eq := by simp [Reader.start, Split.start]
  combinedStream_eq := by simp [Reader.start, Split.start]
  reply_isSome := by simp [Reader.start]
  reply_holds := by
    intro reply h
    obtain ⟨-, -, rfl⟩ := Option.map_eq_some_iff.1 h
    exact ⟨rfl, rfl, rfl, fun h => absurd rfl h, rfl, rfl⟩

theorem follows_foldlM (h : reads.foldlM Reader.readStep (Reader.start out) = some r) :
    Follows out (Split.ofReads reads) r ∧
      ∀ before b, before ++ [b] <+: reads → Fits out (Split.ofReads before) b := by
  induction reads using List.reverseRecOn generalizing r with
  | nil =>
    obtain rfl := Option.some.inj h
    refine ⟨follows_start out, fun before b h => ?_⟩
    simp at h
  | append_singleton reads b ih =>
    rw [foldlM_append, Option.bind_eq_bind] at h
    obtain ⟨r₁, hreads, h⟩ := Option.bind_eq_some_iff.1 h
    rw [foldlM_cons, Option.bind_eq_bind] at h
    obtain ⟨r₂, hb, hr⟩ := Option.bind_eq_some_iff.1 h
    obtain rfl := Option.some.inj hr
    obtain ⟨hf, hfits⟩ := ih hreads
    obtain ⟨hfit, hf'⟩ := hf.readStep hb
    rw [Split.ofReads_append_singleton]
    refine ⟨hf', fun before c hpre => ?_⟩
    rcases List.prefix_concat_iff.1 hpre with heq | hpre
    · obtain ⟨rfl, hlast⟩ := append_inj' heq rfl
      rwa [List.singleton_inj.1 hlast]
    · exact hfits before c hpre

theorem exists_foldlM (h : ∀ before b, before ++ [b] <+: reads → Fits out (Split.ofReads before) b) :
    ∃ r, reads.foldlM Reader.readStep (Reader.start out) = some r := by
  induction reads using List.reverseRecOn with
  | nil => exact ⟨_, rfl⟩
  | append_singleton reads b ih =>
    obtain ⟨r, hr⟩ := ih fun before c hpre =>
      h before c (hpre.trans (prefix_append ..))
    obtain ⟨hf, -⟩ := follows_foldlM hr
    obtain ⟨r', hr'⟩ := hf.exists_readStep (h reads b prefix_rfl)
    refine ⟨r', ?_⟩
    rw [foldlM_append, hr]
    simp [hr']

end Run

def CutsLine (header : List UInt8) : Prop :=
  ∃ n, strstr (bytes "content-type:") (header.map tolower) = some n ∧ 10 ∉ header.drop n

def CutsContentType (reads : List (List UInt8)) : Prop :=
  ∃ before after, reads = before ++ after ∧ blankLineEnd before.flatten = none ∧
    CutsLine before.flatten

def Destinations.Separates (out : Destinations) : Prop :=
  out.reply.isSome ∨ out.headerStream.isSome ∨ out.bodyStream.isSome

structure ReadsWell (out : Destinations) (reads : List (List UInt8)) : Prop where
  blankLine : out.Separates → ¬CutsBlankLine reads
  contentType : out.reply.isSome → ¬CutsContentType reads
  header_lt : out.reply.isSome → (headerPart reads.flatten).length + 1 < 2 ^ 31
  body_lt : out.reply.isSome → (bodyPart reads.flatten).length < 2 ^ 31

structure Delivers (size : ℕ) (reads : List (List UInt8)) (stream : List UInt8) : Prop where
  flatten_eq : reads.flatten = stream
  read_ne : ∀ b ∈ reads, b ≠ []
  read_le : ∀ b ∈ reads, b.length ≤ size

section ContentType

variable {header : List UInt8} {n : ℕ}

theorem tolower_eq_newline_iff {x : UInt8} : tolower x = 10 ↔ x = 10 := by
  unfold tolower
  split_ifs with h
  · obtain ⟨h₁, h₂⟩ := h
    have h₁ := UInt8.le_iff_toNat_le.1 h₁
    have h₂ := UInt8.le_iff_toNat_le.1 h₂
    rw [← UInt8.toNat_inj, ← UInt8.toNat_inj, UInt8.toNat_add]
    simp at h₁ h₂ ⊢
    omega
  · rfl

theorem contentIsText_eq_none_iff (h : 0 ∉ header) :
    contentIsText header = none ↔ CutsLine header := by
  rw [contentIsText, cstr_of_notMem h, CutsLine]
  have hmem : ∀ n, strchr 10 ((header.map tolower).drop n) = none ↔ 10 ∉ header.drop n := by
    intro n
    rw [strchr, findIdx?_eq_none_iff, ← map_drop]
    simp only [mem_map, forall_exists_index, and_imp, forall_apply_eq_imp_iff₂,
      decide_eq_false_iff_not, tolower_eq_newline_iff]
    exact ⟨fun h hmem => h 10 hmem rfl, fun h x hx heq => h (heq ▸ hx)⟩
  cases hstart : strstr (bytes "content-type:") (header.map tolower) with
  | none => simp
  | some n => simp [hmem]

theorem newline_suffix_take (h : blankLineEnd header = some n) : [10] <:+ header.take n := by
  induction header generalizing n with
  | nil => cases h
  | cons c cs ih =>
    rw [blankLineEnd] at h
    split_ifs at h with h₁ h₂
    · obtain rfl := Option.some.inj h
      obtain ⟨rest, rfl⟩ := List.isPrefixOf_iff_prefix.1 h₁.2
      exact ⟨[c], rfl⟩
    · obtain rfl := Option.some.inj h
      obtain ⟨rest, rfl⟩ := List.isPrefixOf_iff_prefix.1 h₂.2
      exact ⟨[c, 13], rfl⟩
    · obtain ⟨m, hm, rfl⟩ := Option.map_eq_some_iff.1 h
      rw [take_succ_cons]
      exact (ih hm).trans (suffix_cons ..)

theorem not_cutsLine_of_newline (h : [10] <:+ header) : ¬CutsLine header := by
  rintro ⟨n, hn, hnot⟩
  have hlen := (strstr_spec hn).length_le
  obtain ⟨front, rfl⟩ := h
  have hle : n ≤ front.length := by
    have hbytes : (bytes "content-type:").length = 13 := by decide
    rw [hbytes, length_drop, length_map, length_append,
      length_singleton] at hlen
    omega
  rw [drop_append_of_le_length hle] at hnot
  simp at hnot

end ContentType

section Received

variable {size : ℕ} {reads : List (List UInt8)} {stream : List UInt8} {out after : Destinations}

theorem CutsBlankLine.append (h : CutsBlankLine reads) (rest : List (List UInt8)) :
    CutsBlankLine (reads ++ rest) := by
  obtain ⟨before, t, after, rfl, hnone, h10, hne⟩ := h
  refine ⟨before, t, after ++ rest, by simp, hnone, h10, ?_⟩
  rw [flatten_append, ← append_assoc]
  exact append_ne_nil_of_left_ne_nil hne _

/-- Reads without a fault have fitted. -/
theorem fits_of_readsWell (hne : ∀ b ∈ reads, b ≠ []) (hnul : 0 ∉ headerPart reads.flatten)
    (hw : ReadsWell out reads) {before : List (List UInt8)} {b : List UInt8}
    (hpre : before ++ [b] <+: reads) : Fits out (Split.ofReads before) b := by
  obtain ⟨after, rfl⟩ := hpre
  rw [flatten_append] at hnul
  have hne' : ∀ c ∈ before ++ [b], c ≠ [] := fun c hc => hne c (mem_append_left _ hc)
  have hnul' : 0 ∉ headerPart (before ++ [b]).flatten :=
    fun h => hnul (headerPart_prefix_append.subset h)
  have hheader : out.reply.isSome →
      ((Split.ofReads before).step b).header = headerPart (before ++ [b]).flatten := by
    intro hout
    rw [← Split.ofReads_append_singleton]
    exact header_of_not_cut hne' hnul' fun h => hw.blankLine (.inl hout) (h.append after)
  constructor
  · intro hout hr
    have hstep : ((Split.ofReads before).step b).header = (Split.ofReads before).header ++
        b.take ((bodyStart (Split.ofReads before).lastTwo b).getD b.length) := by
      simp [Split.step, hr]
    rw [hheader hout] at hstep
    constructor
    · have hnot : 0 ∉ (Split.ofReads before).header := by
        intro h
        rw [hstep] at hnul'
        exact hnul' (mem_append_left _ h)
      rw [cstr_of_notMem hnot]
      exact Nat.le_succ _
    · have hlen := hw.header_lt hout
      rw [flatten_append] at hlen
      have hle := (headerPart_prefix_append (p := (before ++ [b]).flatten)
        (q := after.flatten)).length_le
      rw [← length_append, ← hstep]
      omega
    · rw [← hstep, Option.isSome_iff_ne_none, ne_eq, contentIsText_eq_none_iff hnul']
      cases hend : blankLineEnd (before ++ [b]).flatten with
      | none =>
        rw [headerPart_of_none hend]
        exact fun hline => hw.contentType hout ⟨before ++ [b], after, rfl, hend, hline⟩
      | some n =>
        rw [headerPart_of_some hend]
        exact not_cutsLine_of_newline (newline_suffix_take hend)
  · intro hout _
    have hall := (Split.header_append_body (before ++ [b])).1
    rw [Split.ofReads_append_singleton, hheader hout] at hall
    have hbody : ((Split.ofReads before).step b).body = bodyPart (before ++ [b]).flatten :=
      append_cancel_left (hall.trans (headerPart_append_bodyPart _).symm)
    have hlt := hw.body_lt hout
    rw [flatten_append] at hlt
    rw [hbody]
    exact lt_of_le_of_lt bodyPart_prefix_append.length_le hlt

/-- What has been received is right if the header has been divided right. -/
theorem received_iff {s : Split} {r : Reader} {header body : List UInt8}
    (hf : Follows out s r) (hall : s.header ++ s.body = header ++ body) (hnul : 0 ∉ header) :
    out.Received r.out header body ↔ (out.Separates → s.header = header) := by
  constructor
  · rintro hrec (hreply | hheader | hbody)
    · rw [← hf.reply_isSome] at hreply
      obtain ⟨reply, hreply⟩ := Option.isSome_iff_exists.1 hreply
      have hbody : s.body = body := by
        rw [← (hf.reply_holds reply hreply).data_eq, (hrec.reply_eq reply hreply).2.1]
      rw [hbody] at hall
      exact append_cancel_right hall
    · obtain ⟨w, hw⟩ := Option.isSome_iff_exists.1 hheader
      have heq := hf.headerStream_eq.symm.trans hrec.headerStream_eq
      rw [hw] at heq
      exact append_cancel_left (Option.some.inj heq)
    · obtain ⟨w, hw⟩ := Option.isSome_iff_exists.1 hbody
      have heq := hf.bodyStream_eq.symm.trans hrec.bodyStream_eq
      rw [hw] at heq
      have hbody : s.body = body := append_cancel_left (Option.some.inj heq)
      rw [hbody] at hall
      exact append_cancel_right hall
  · intro h
    by_cases hsep : out.Separates
    · have hheader := h hsep
      rw [hheader] at hall
      have hbody := append_cancel_left hall
      constructor
      · rw [hf.headerStream_eq, hheader]
      · rw [hf.bodyStream_eq, hbody]
      · rw [hf.combinedStream_eq, hheader, hbody]
      · exact hf.reply_isSome
      · intro reply hreply
        have hholds := hf.reply_holds reply hreply
        rw [hholds.header_eq, hholds.data_eq, hholds.length_eq, hheader, hbody,
          cstr_of_notMem hnul]
        exact ⟨rfl, rfl, rfl⟩
    · simp only [Destinations.Separates, not_or, Bool.not_eq_true, Option.isSome_eq_false_iff,
        Option.isNone_iff_eq_none] at hsep
      obtain ⟨hreply, hheader, hbody⟩ := hsep
      have hnone : r.out.reply = none := by
        rw [← Option.isNone_iff_eq_none, ← Option.isSome_eq_false_iff, hf.reply_isSome, hreply]
        rfl
      constructor
      · rw [hf.headerStream_eq, hheader]
        rfl
      · rw [hf.bodyStream_eq, hbody]
        rfl
      · rw [hf.combinedStream_eq, hall]
      · exact hf.reply_isSome
      · rw [hnone]
        intro reply hmem
        cases hmem

/-- What has fitted is short. -/
theorem lengths_of_fits (hout : out.reply.isSome)
    (hfits : ∀ before b, before ++ [b] <+: reads → Fits out (Split.ofReads before) b) :
    (Split.ofReads reads).header.length + 1 < 2 ^ 31 ∧
      (Split.ofReads reads).body.length < 2 ^ 31 := by
  induction reads using List.reverseRecOn with
  | nil => exact ⟨by decide, by decide⟩
  | append_singleton reads b ih =>
    have hfit := hfits reads b prefix_rfl
    obtain ⟨hheader, hbody⟩ := ih fun before c hpre =>
      hfits before c (hpre.trans (prefix_append ..))
    rw [Split.ofReads_append_singleton]
    constructor
    · cases hr : (Split.ofReads reads).readingHeader with
      | false =>
        rw [Split.step_of_not hr]
        exact hheader
      | true =>
        have := (hfit.header hout hr).int_lt
        rw [← length_append] at this
        simpa [Split.step, hr] using this
    · cases hr : ((Split.ofReads reads).step b).readingHeader with
      | false => exact hfit.body hout hr
      | true =>
        have hnil := (Split.header_append_body (reads ++ [b])).2
        rw [Split.ofReads_append_singleton] at hnil
        rw [hnil hr]
        decide

/-- Reads that fit are read without a fault. -/
theorem readsWell_of_fits (hne : ∀ b ∈ reads, b ≠ []) (hnul : 0 ∉ headerPart reads.flatten)
    (hcut : out.Separates → ¬CutsBlankLine reads)
    (hfits : ∀ before b, before ++ [b] <+: reads → Fits out (Split.ofReads before) b) :
    ReadsWell out reads := by
  have hheader : out.Separates → (Split.ofReads reads).header = headerPart reads.flatten :=
    fun hsep => header_of_not_cut hne hnul (hcut hsep)
  have hbody : out.Separates → (Split.ofReads reads).body = bodyPart reads.flatten := by
    intro hsep
    have hall := (Split.header_append_body reads).1
    rw [← headerPart_append_bodyPart reads.flatten, hheader hsep] at hall
    exact append_cancel_left hall
  constructor
  · exact hcut
  · rintro hout ⟨before, after, rfl, hnone, hline⟩
    rcases eq_nil_or_concat' before with rfl | ⟨before, b, rfl⟩
    · obtain ⟨n, hn, -⟩ := hline
      cases hn
    · have hb : b ≠ [] := hne b (by simp)
      rw [flatten_append] at hnul
      have hnul' : 0 ∉ headerPart (before ++ [b]).flatten :=
        fun h => hnul (headerPart_prefix_append.subset h)
      have hne' : ∀ c ∈ before ++ [b], c ≠ [] := fun c hc => hne c (mem_append_left _ hc)
      have hnot := hcut (.inl hout)
      have hheader := header_of_not_cut hne' hnul' fun h => hnot (h.append after)
      rw [headerPart_of_none hnone] at hheader hnul'
      have hnone' : blankLineEnd before.flatten = none := by
        rw [Option.eq_none_iff_forall_ne_some]
        intro n hn
        rw [flatten_append, blankLineEnd_append_of_some hn] at hnone
        cases hnone
      have hreading : (Split.ofReads before).readingHeader = true := by
        rw [append_assoc] at hnot
        have hnul'' : 0 ∉ headerPart before.flatten := by
          rw [headerPart_of_none hnone']
          rw [flatten_append] at hnul'
          exact fun h => hnul' (mem_append_left _ h)
        rcases reading_or_divided (fun c hc => hne' c (mem_append_left _ hc)) hnul''
          (by simp [hb]) hnot with h | h
        · exact h.readingHeader
        · have := h.blankLineEnd_isSome
          rw [hnone'] at this
          cases this
      have htext := ((hfits before b (prefix_append ..)).header hout
        hreading).contentIsText_isSome
      have hstep : ((Split.ofReads before).step b).header = (Split.ofReads before).header ++
          b.take ((bodyStart (Split.ofReads before).lastTwo b).getD b.length) := by
        simp [Split.step, hreading]
      rw [← hstep, ← Split.ofReads_append_singleton, hheader, Option.isSome_iff_ne_none] at htext
      exact htext ((contentIsText_eq_none_iff hnul').2 hline)
  · intro hout
    rw [← hheader (.inl hout)]
    exact (lengths_of_fits hout hfits).1
  · intro hout
    rw [← hbody (.inl hout)]
    exact (lengths_of_fits hout hfits).2

/-- The response is read as the header and the body that the stream has exactly when its pieces do
not keep it from that. -/
theorem getHttpResponse_received_iff (hd : Delivers size reads stream)
    (hnul : 0 ∉ headerPart stream) :
    (∃ after, getHttpResponse reads out = some after ∧
      out.Received after (headerPart stream) (bodyPart stream)) ↔ ReadsWell out reads := by
  obtain ⟨rfl, hne, -⟩ := hd
  have hall : (Split.ofReads reads).header ++ (Split.ofReads reads).body =
      headerPart reads.flatten ++ bodyPart reads.flatten := by
    rw [(Split.header_append_body reads).1, headerPart_append_bodyPart]
  constructor
  · rintro ⟨after, hafter, hrec⟩
    obtain ⟨r, hr, rfl⟩ := Option.map_eq_some_iff.1 hafter
    obtain ⟨hf, hfits⟩ := follows_foldlM hr
    refine readsWell_of_fits hne hnul (fun hsep hcut => ?_) hfits
    have hlt := header_of_cut hne hnul hcut
    rw [(received_iff hf hall hnul).1 hrec hsep] at hlt
    exact lt_irrefl _ hlt
  · intro hw
    obtain ⟨r, hr⟩ := exists_foldlM fun before b => fits_of_readsWell hne hnul hw
    obtain ⟨hf, -⟩ := follows_foldlM hr
    refine ⟨r.out, by rw [getHttpResponse, hr]; rfl, (received_iff hf hall hnul).2 fun hsep => ?_⟩
    exact header_of_not_cut hne hnul (hw.blankLine hsep)

theorem getHttpResponse_received_example :
    (∃ after, getHttpResponse [[72, 10], [13, 10, 66]] ⟨none, some [], some [], none⟩ = some after ∧
      Destinations.Received ⟨none, some [], some [], none⟩ after (headerPart [72, 10, 13, 10, 66])
        (bodyPart [72, 10, 13, 10, 66])) ↔
      ReadsWell ⟨none, some [], some [], none⟩ [[72, 10], [13, 10, 66]] := by
  have hd : Delivers 1024 [[72, 10], [13, 10, 66]] [72, 10, 13, 10, 66] :=
    ⟨rfl, by decide, by decide⟩
  have hnul : 0 ∉ headerPart [72, 10, 13, 10, 66] := by decide
  exact getHttpResponse_received_iff hd hnul

/-- The blank line is missed when its carriage return is read alone. -/
theorem getHttpResponse_cut_blank_line :
    ¬∀ (size : ℕ) (reads : List (List UInt8)) (stream : List UInt8) (out : Destinations),
      Delivers size reads stream → 0 ∉ headerPart stream →
        ∃ after, getHttpResponse reads out = some after ∧
          out.Received after (headerPart stream) (bodyPart stream) := by
  intro h
  have hd : Delivers 1024 [[72, 10], [13], [10, 66]] [72, 10, 13, 10, 66] :=
    ⟨rfl, by decide, by decide⟩
  obtain ⟨after, hafter, hrec⟩ := h 1024 [[72, 10], [13], [10, 66]] [72, 10, 13, 10, 66]
    ⟨none, some [], some [], none⟩ hd (by decide)
  have hrun : getHttpResponse [[72, 10], [13], [10, 66]] ⟨none, some [], some [], none⟩ =
      some ⟨none, some [72, 10, 13, 10, 66], some [], none⟩ := by decide
  rw [hrun] at hafter
  obtain rfl := Option.some.inj hafter
  exact absurd hrec.headerStream_eq (by decide)

end Received

end Ewget

end Gargoyle
