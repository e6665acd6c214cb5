import Gargoyle.Web.PortForwarding
import Mathlib.Data.List.Pairwise

/-!
# Conflicts of forwarded ports

Two rows are in conflict when they forward the same external port of the same protocol. Three of the
four comparisons of the forms are made with numbers, so that they find every conflict. Two single
ports are compared as texts: "80" and "080" are taken for two ports.
-/

namespace Gargoyle

open List

namespace Web

namespace PortForwarding

inductive Transport
  | tcp
  | udp
deriving DecidableEq

def Proto.covers : Proto → Transport → Prop
  | .tcp, t => t = .tcp
  | .udp, t => t = .udp
  | .both, _ => True

def Row.forwardsSingle (row : Row) (t : Transport) (n : ℕ) : Prop :=
  row.proto.covers t ∧ n = port row.cell2

def Row.forwardsRange (row : Row) (t : Transport) (n : ℕ) : Prop :=
  row.proto.covers t ∧ port row.cell2 ≤ n ∧ n ≤ port row.cell3

def Apart (A B : Transport → ℕ → Prop) : Prop := ∀ t n, A t n → ¬B t n

def Page.forwards (page : Page) : List (Transport → ℕ → Prop) :=
  page.singles.map Row.forwardsSingle ++ page.ranges.map Row.forwardsRange

def Page.ConflictFree (page : Page) : Prop := page.forwards.Pairwise Apart

def SameText (page : Page) (excludeRow : Option ℕ) (f : SingleFields) : Prop :=
  ∀ row ∈ others page.singles excludeRow, clashes f.prot row.proto = true →
    port f.fp = port row.cell2 → f.fp = row.cell2

def Page.Uniform (page : Page) : Action → Prop
  | .addPortfRule f => SameText page none f
  | .editSingle i f => SameText page (some i) f
  | _ => True

def Page.UniformFrom : Page → List Action → Prop
  | _, [] => True
  | page, a :: as => page.Uniform a ∧ UniformFrom (page.act a) as

section Rows

variable {rows : List Row} {row values : Row} {p q : Proto} {t : Transport} {n i : ℕ}

theorem clashes_of_covers (hp : p.covers t) (hq : q.covers t) : clashes p q = true := by
  cases p <;> cases q <;> simp_all [Proto.covers, clashes]

theorem Apart.symm {A B : Transport → ℕ → Prop} (h : Apart A B) : Apart B A :=
  fun t n hB hA => h t n hA hB

theorem exists_covers (p : Proto) : ∃ t, p.covers t := by
  cases p with
  | tcp => exact ⟨.tcp, rfl⟩
  | udp => exact ⟨.udp, rfl⟩
  | both => exact ⟨.tcp, trivial⟩

def forwardsOf (ports : List Char → List Char → ℕ → Prop) (row : Row) (t : Transport) (n : ℕ) :
    Prop :=
  row.proto.covers t ∧ ports row.cell2 row.cell3 n

variable (ports : List Char → List Char → ℕ → Prop)

theorem mergeable_iff : mergeable values row = true ↔
    row.proto = (if values.proto = .tcp then Proto.udp else .tcp) ∧ values.cell2 = row.cell2 ∧
      values.cell3 = row.cell3 ∧ values.cell4 = row.cell4 := by
  rw [mergeable, Bool.and_eq_true, Bool.and_eq_true, Bool.and_eq_true, decide_eq_true_eq,
    decide_eq_true_eq, decide_eq_true_eq, decide_eq_true_eq, and_assoc, and_assoc]
  exact and_congr_left' eq_comm

theorem forwardsOf_merged (hm : mergeable values row = true)
    (h : forwardsOf ports (merged values row) t n) :
    forwardsOf ports row t n ∨ forwardsOf ports values t n := by
  obtain ⟨hproto, h2, h3, -⟩ := mergeable_iff.1 hm
  obtain ⟨-, hports⟩ := h
  have hcovers : row.proto.covers t ∨ values.proto.covers t := by
    rw [hproto]
    cases values.proto <;> cases t <;> simp [Proto.covers]
  rcases hcovers with hc | hc
  · exact .inl ⟨hc, hports⟩
  · right
    rw [forwardsOf, h2, h3]
    exact ⟨hc, hports⟩

/-- A row that is apart from the others may be added. -/
theorem pairwise_addRow (h : rows.Pairwise fun r s => Apart (forwardsOf ports r) (forwardsOf ports s))
    (hvalues : ∀ r ∈ rows, Apart (forwardsOf ports values) (forwardsOf ports r))
    (hsome : ∃ n, ports values.cell2 values.cell3 n) :
    (addRow rows values).Pairwise fun r s => Apart (forwardsOf ports r) (forwardsOf ports s) := by
  unfold addRow
  split_ifs
  · rw [pairwise_map]
    refine h.imp_of_mem fun {r s} hr hs hrs t n hrt hst => ?_
    have hone : ¬(mergeable values r = true ∧ mergeable values s = true) := by
      rintro ⟨hmr, hms⟩
      obtain ⟨hprotor, h2r, h3r, -⟩ := mergeable_iff.1 hmr
      obtain ⟨hprotos, h2s, h3s, -⟩ := mergeable_iff.1 hms
      obtain ⟨m, hm⟩ := hsome
      obtain ⟨u, hu⟩ := exists_covers r.proto
      refine hrs u m ⟨hu, by rwa [← h2r, ← h3r]⟩ ⟨?_, by rwa [← h2s, ← h3s]⟩
      rwa [hprotos, ← hprotor]
    have hkeep : ∀ r' ∈ rows, forwardsOf ports
        (if mergeable values r' then merged values r' else r') t n →
          forwardsOf ports r' t n ∨
            (mergeable values r' = true ∧ forwardsOf ports values t n) := by
      intro r' _ hf
      split_ifs at hf with hm
      · exact (forwardsOf_merged ports hm hf).imp id fun hv => ⟨hm, hv⟩
      · exact .inl hf
    rcases hkeep r hr hrt with hrt | ⟨hmr, hrt⟩
    · rcases hkeep s hs hst with hst | ⟨-, hst⟩
      · exact hrs t n hrt hst
      · exact hvalues r hr t n hst hrt
    · rcases hkeep s hs hst with hst | ⟨hms, -⟩
      · exact hvalues s hs t n hrt hst
      · exact hone ⟨hmr, hms⟩
  · rw [pairwise_append]
    refine ⟨h, pairwise_singleton .., fun r hr s hs => ?_⟩
    obtain rfl := List.mem_singleton.1 hs
    exact (hvalues r hr).symm

theorem forwardsOf_of_mem_addRow (hrow : row ∈ addRow rows values) (h : forwardsOf ports row t n) :
    forwardsOf ports values t n ∨ ∃ r ∈ rows, forwardsOf ports r t n := by
  unfold addRow at hrow
  split_ifs at hrow
  · obtain ⟨r, hr, rfl⟩ := List.mem_map.1 hrow
    split_ifs at h with hm
    · exact (forwardsOf_merged ports hm h).symm.imp id fun h => ⟨r, hr, h⟩
    · exact .inr ⟨r, hr, h⟩
  · rcases List.mem_append.1 hrow with hrow | hrow
    · exact .inr ⟨row, hrow, h⟩
    · obtain rfl := List.mem_singleton.1 hrow
      exact .inl h

theorem exists_split (rows : List Row) (i : ℕ) (f : Row → Row) :
    (rows.modify i f = rows ∧ rows.eraseIdx i = rows) ∨
      ∃ as r bs, rows = as ++ r :: bs ∧ rows.modify i f = as ++ f r :: bs ∧
        rows.eraseIdx i = as ++ bs := by
  induction rows generalizing i with
  | nil => exact .inl ⟨by simp, rfl⟩
  | cons a rows ih =>
    cases i with
    | zero => exact .inr ⟨[], a, rows, rfl, rfl, rfl⟩
    | succ i =>
      rcases ih i with ⟨hmodify, herase⟩ | ⟨as, r, bs, hrows, hmodify, herase⟩
      · left
        rw [modify_succ_cons, eraseIdx_cons_succ, hmodify, herase]
        exact ⟨rfl, rfl⟩
      · right
        refine ⟨a :: as, r, bs, by rw [hrows]; rfl, ?_, ?_⟩
        · rw [modify_succ_cons, hmodify]
          rfl
        · rw [eraseIdx_cons_succ, herase]
          rfl

theorem map_modify_toggle :
    (rows.modify i Row.toggle).map (forwardsOf ports) = rows.map (forwardsOf ports) := by
  rcases exists_split rows i Row.toggle with ⟨hmodify, -⟩ | ⟨as, r, bs, rfl, hmodify, -⟩
  · rw [hmodify]
  · rw [hmodify, map_append, map_append]
    rfl

theorem pairwise_modify (f : Row → Row)
    (h : rows.Pairwise fun r s => Apart (forwardsOf ports r) (forwardsOf ports s))
    (hf : ∀ r ∈ rows, ∀ s ∈ rows.eraseIdx i, Apart (forwardsOf ports (f r)) (forwardsOf ports s)) :
    (rows.modify i f).Pairwise fun r s => Apart (forwardsOf ports r) (forwardsOf ports s) := by
  rcases exists_split rows i f with ⟨hmodify, -⟩ | ⟨as, r, bs, hrows, hmodify, herase⟩
  · rwa [hmodify]
  · rw [hmodify]
    rw [herase, hrows] at hf
    rw [hrows, pairwise_append, pairwise_cons] at h
    obtain ⟨has, ⟨-, hbs⟩, hcross⟩ := h
    have hr : ∀ s ∈ as ++ bs, Apart (forwardsOf ports (f r)) (forwardsOf ports s) :=
      hf r (by simp)
    refine List.pairwise_append.2 ⟨has, List.pairwise_cons.2 ⟨fun s hs => ?_, hbs⟩, ?_⟩
    · exact hr s (mem_append_right _ hs)
    · intro s hs s' hs'
      rcases List.mem_cons.1 hs' with rfl | hs'
      · exact (hr s (mem_append_left _ hs)).symm
      · exact hcross s hs s' (mem_cons_of_mem _ hs')

theorem mem_of_mem_modify (f : Row → Row) (hrow : row ∈ rows.modify i f) :
    row ∈ rows ∨ ∃ r ∈ rows, row = f r := by
  rcases exists_split rows i f with ⟨hmodify, -⟩ | ⟨as, r, bs, rfl, hmodify, -⟩
  · rw [hmodify] at hrow
    exact .inl hrow
  · rw [hmodify, mem_append, mem_cons] at hrow
    rcases hrow with hrow | rfl | hrow
    · exact .inl (mem_append_left _ hrow)
    · exact .inr ⟨r, by simp, rfl⟩
    · exact .inl (by simp [hrow])

end Rows

/-! ## The checks of the forms -/

section Checks

variable {page : Page} {excludeRow : Option ℕ}

structure FreshSingle (page : Page) (excludeRow : Option ℕ) (f : SingleFields) : Prop where
  errors_eq : f.errors = []
  singles : ∀ row ∈ others page.singles excludeRow, clashes f.prot row.proto = true →
    f.fp ≠ row.cell2
  ranges : ∀ row ∈ page.ranges, clashes f.prot row.proto = true →
    ¬(port row.cell2 ≤ port f.fp ∧ port f.fp ≤ port row.cell3)

structure FreshRange (page : Page) (excludeRow : Option ℕ) (f : RangeFields) : Prop where
  errors_eq : f.errors = []
  le : port f.sp ≤ port f.ep
  singles : ∀ row ∈ page.singles, clashes f.prot row.proto = true →
    ¬(port f.sp ≤ port row.cell2 ∧ port row.cell2 ≤ port f.ep)
  ranges : ∀ row ∈ others page.ranges excludeRow, clashes f.prot row.proto = true →
    ¬(port row.cell2 ≤ port f.ep ∧ port f.sp ≤ port row.cell3)

theorem freshSingle {f : SingleFields} (h : proofreadForwardSingle page excludeRow f = []) :
    FreshSingle page excludeRow f := by
  simp only [proofreadForwardSingle] at h
  split_ifs at h with hfields
  · rw [append_eq_nil_iff, map_eq_nil_iff, map_eq_nil_iff, filter_eq_nil_iff,
      filter_eq_nil_iff] at h
    obtain ⟨hsingles, hranges⟩ := h
    constructor
    · exact hfields
    · intro row hrow hclash heq
      exact hsingles row hrow (by simp [hclash, heq])
    · rintro row hrow hclash ⟨h₁, h₂⟩
      exact hranges row hrow (by simp [hclash, h₁, h₂])
  · exact absurd h hfields

theorem freshRange {f : RangeFields} (h : proofreadForwardRange page excludeRow f = []) :
    FreshRange page excludeRow f := by
  simp only [proofreadForwardRange] at h
  split_ifs at h with hfields hle
  · cases h
  · rw [nil_append, append_eq_nil_iff, map_eq_nil_iff, map_eq_nil_iff,
      filter_eq_nil_iff, filter_eq_nil_iff] at h
    obtain ⟨hsingles, hranges⟩ := h
    constructor
    · exact hfields
    · exact Nat.le_of_not_lt hle
    · rintro row hrow hclash ⟨h₁, h₂⟩
      exact hsingles row hrow (by simp [hclash, h₁, h₂])
    · rintro row hrow hclash ⟨h₁, h₂⟩
      exact hranges row hrow (by simp [hclash, h₁, h₂])
  · exact absurd h hfields

theorem dash_of_numeric {v : List Char} (h : validateNumeric v = 0) : dash v = v := by
  rw [dash, if_neg]
  rintro rfl
  cases h

theorem proofreadFields_eq_nil_iff {fields : List (String × ℕ)} :
    proofreadFields fields = [] ↔ ∀ field ∈ fields, field.2 = 0 := by
  rw [proofreadFields, filterMap_eq_nil_iff]
  refine forall₂_congr fun field _ => ?_
  split_ifs with h <;> simp [h]

theorem SingleFields.numeric_of_errors {f : SingleFields} (h : f.errors = []) :
    validateNumeric f.fp = 0 :=
  proofreadFields_eq_nil_iff.1 h ("add_fp_label", validateNumeric f.fp) (by simp)

theorem RangeFields.numeric_of_errors {f : RangeFields} (h : f.errors = []) :
    validateNumeric f.sp = 0 ∧ validateNumeric f.ep = 0 := by
  rw [RangeFields.errors, proofreadFields_eq_nil_iff] at h
  exact ⟨h ("addr_sp_label", validateNumeric f.sp) (by simp),
    h ("addr_ep_label", validateNumeric f.ep) (by simp)⟩

end Checks

/-! ## Runs -/

structure Page.Separate (page : Page) : Prop where
  singles : page.singles.Pairwise fun r s => Apart r.forwardsSingle s.forwardsSingle
  ranges : page.ranges.Pairwise fun r s => Apart r.forwardsRange s.forwardsRange
  cross : ∀ r ∈ page.singles, ∀ s ∈ page.ranges, Apart r.forwardsSingle s.forwardsRange

theorem conflictFree_iff {page : Page} : page.ConflictFree ↔ page.Separate := by
  rw [Page.ConflictFree, Page.forwards, pairwise_append, pairwise_map, pairwise_map]
  constructor
  · rintro ⟨hsingles, hranges, hcross⟩
    exact ⟨hsingles, hranges, fun r hr s hs =>
      hcross _ (mem_map_of_mem hr) _ (mem_map_of_mem hs)⟩
  · rintro ⟨hsingles, hranges, hcross⟩
    refine ⟨hsingles, hranges, fun A hA B hB => ?_⟩
    obtain ⟨r, hr, rfl⟩ := List.mem_map.1 hA
    obtain ⟨s, hs, rfl⟩ := List.mem_map.1 hB
    exact hcross r hr s hs

section Step

variable {page : Page} {excludeRow : Option ℕ}

theorem FreshSingle.apart {f : SingleFields} (h : FreshSingle page excludeRow f)
    (hsame : SameText page excludeRow f) (row : Row) (hproto : row.proto = f.prot)
    (hport : row.cell2 = f.fp) :
    (∀ s ∈ others page.singles excludeRow, Apart row.forwardsSingle s.forwardsSingle) ∧
      ∀ s ∈ page.ranges, Apart row.forwardsSingle s.forwardsRange := by
  constructor
  · rintro s hs t n ⟨hc, hn⟩ ⟨hc', hn'⟩
    rw [hproto] at hc
    have hclash := clashes_of_covers hc hc'
    rw [hport] at hn
    exact h.singles s hs hclash (hsame s hs hclash (hn.symm.trans hn'))
  · rintro s hs t n ⟨hc, hn⟩ ⟨hc', hle⟩
    rw [hproto] at hc
    rw [hn, hport] at hle
    exact h.ranges s hs (clashes_of_covers hc hc') hle

theorem FreshRange.apart {f : RangeFields} (h : FreshRange page excludeRow f) (row : Row)
    (hproto : row.proto = f.prot) (hstart : row.cell2 = f.sp) (hend : row.cell3 = f.ep) :
    (∀ s ∈ others page.ranges excludeRow, Apart row.forwardsRange s.forwardsRange) ∧
      ∀ s ∈ page.singles, Apart row.forwardsRange s.forwardsSingle := by
  constructor
  · rintro s hs t n ⟨hc, hle⟩ ⟨hc', hle'⟩
    rw [hproto] at hc
    rw [hstart, hend] at hle
    exact h.ranges s hs (clashes_of_covers hc hc')
      ⟨Nat.le_trans hle'.1 hle.2, Nat.le_trans hle.1 hle'.2⟩
  · rintro s hs t n ⟨hc, hle⟩ ⟨hc', hn⟩
    rw [hproto] at hc
    rw [hstart, hend, hn] at hle
    exact h.singles s hs (clashes_of_covers hc hc') hle

theorem Page.Separate.addPortfRule (hs : page.Separate) {f : SingleFields}
    (hsame : SameText page none f) : (PortForwarding.addPortfRule page f).Separate := by
  by_cases herrors : proofreadForwardSingle page none f = []
  · have hfresh := freshSingle herrors
    rw [PortForwarding.addPortfRule, if_pos herrors]
    obtain ⟨hsingles, hranges⟩ := hfresh.apart hsame
      ⟨dash f.desc, f.prot, dash f.fp, dash f.ip,
        if dash f.dp = ['-'] then dash f.fp else dash f.dp, true⟩ rfl
      (dash_of_numeric (SingleFields.numeric_of_errors hfresh.errors_eq))
    refine ⟨pairwise_addRow (fun a _ n => n = port a) hs.singles hsingles ⟨_, rfl⟩,
      hs.ranges, fun r hr s hs' t n hrt hst => ?_⟩
    rcases forwardsOf_of_mem_addRow (fun a _ n => n = port a) hr hrt with h | ⟨r', hr', h⟩
    · exact hranges s hs' t n h hst
    · exact hs.cross r' hr' s hs' t n h hst
  · rw [PortForwarding.addPortfRule, if_neg herrors]
    exact hs

theorem Page.Separate.addPortfRangeRule (hs : page.Separate) (f : RangeFields) :
    (PortForwarding.addPortfRangeRule page f).Separate := by
  by_cases herrors : proofreadForwardRange page none f = []
  · have hfresh := freshRange herrors
    obtain ⟨hnumeric, hnumeric'⟩ := RangeFields.numeric_of_errors hfresh.errors_eq
    rw [PortForwarding.addPortfRangeRule, if_pos herrors]
    obtain ⟨hranges, hsingles⟩ := hfresh.apart
      ⟨dash f.desc, f.prot, dash f.sp, dash f.ep, dash f.ip, true⟩ rfl (dash_of_numeric hnumeric)
      (dash_of_numeric hnumeric')
    have hle : port (dash f.sp) ≤ port (dash f.ep) := by
      rw [dash_of_numeric hnumeric, dash_of_numeric hnumeric']
      exact hfresh.le
    refine ⟨hs.singles, pairwise_addRow (fun a b n => port a ≤ n ∧ n ≤ port b) hs.ranges hranges
      ⟨_, Nat.le_refl _, hle⟩, fun r hr s hs' t n hrt hst => ?_⟩
    rcases forwardsOf_of_mem_addRow (fun a b n => port a ≤ n ∧ n ≤ port b) hs' hst with
      h | ⟨s', hs', h⟩
    · exact hsingles r hr t n h hrt
    · exact hs.cross r hr s' hs' t n hrt h
  · rw [PortForwarding.addPortfRangeRule, if_neg herrors]
    exact hs

theorem Page.Separate.editForwardSingle (hs : page.Separate) {i : ℕ} {f : SingleFields}
    (hsame : SameText page (some i) f) : (PortForwarding.editForwardSingle page i f).Separate := by
  by_cases herrors : proofreadForwardSingle page (some i) f = []
  · have hfresh := freshSingle herrors
    rw [PortForwarding.editForwardSingle, if_pos herrors]
    have happart := fun r : Row => hfresh.apart hsame
      ⟨f.desc, f.prot, f.fp, f.ip, f.dp, r.enabled⟩ rfl rfl
    refine ⟨pairwise_modify (fun a _ n => n = port a) _ hs.singles fun r _ s hs' =>
      (happart r).1 s hs', hs.ranges, fun r hr s hs' => ?_⟩
    rcases mem_of_mem_modify _ hr with hr | ⟨r', -, rfl⟩
    · exact hs.cross r hr s hs'
    · exact (happart r').2 s hs'
  · rw [PortForwarding.editForwardSingle, if_neg herrors]
    exact hs

theorem Page.Separate.editForwardRange (hs : page.Separate) (i : ℕ) (f : RangeFields) :
    (PortForwarding.editForwardRange page i f).Separate := by
  by_cases herrors : proofreadForwardRange page (some i) f = []
  · have hfresh := freshRange herrors
    rw [PortForwarding.editForwardRange, if_pos herrors]
    have happart := fun r : Row => hfresh.apart ⟨f.desc, f.prot, f.sp, f.ep, f.ip, r.enabled⟩ rfl rfl
      rfl
    refine ⟨hs.singles, pairwise_modify (fun a b n => port a ≤ n ∧ n ≤ port b) _ hs.ranges
      fun r _ s hs' => (happart r).1 s hs', fun r hr s hs' => ?_⟩
    rcases mem_of_mem_modify _ hs' with hs' | ⟨s', -, rfl⟩
    · exact hs.cross r hr s hs'
    · exact ((happart s').2 r hr).symm
  · rw [PortForwarding.editForwardRange, if_neg herrors]
    exact hs

theorem Page.Separate.toggle (hs : page.Separate) (i : ℕ) :
    Page.Separate { page with singles := page.singles.modify i Row.toggle } ∧
      Page.Separate { page with ranges := page.ranges.modify i Row.toggle } := by
  rw [← conflictFree_iff] at hs
  rw [← conflictFree_iff, ← conflictFree_iff, Page.ConflictFree, Page.forwards, Page.ConflictFree,
    Page.forwards]
  constructor
  · have hmap : (page.singles.modify i Row.toggle).map Row.forwardsSingle =
        page.singles.map Row.forwardsSingle := map_modify_toggle fun a _ n => n = port a
    rw [hmap]
    exact hs
  · have hmap : (page.ranges.modify i Row.toggle).map Row.forwardsRange =
        page.ranges.map Row.forwardsRange :=
      map_modify_toggle fun a b n => port a ≤ n ∧ n ≤ port b
    rw [hmap]
    exact hs

theorem Page.Separate.act (hs : page.Separate) {a : Action} (huniform : page.Uniform a) :
    (page.act a).Separate := by
  cases a with
  | addPortfRule f => exact hs.addPortfRule huniform
  | addPortfRangeRule f => exact hs.addPortfRangeRule f
  | editSingle i f => exact hs.editForwardSingle huniform
  | editRange i f => exact hs.editForwardRange i f
  | removeSingle i =>
    exact ⟨hs.singles.sublist (eraseIdx_sublist ..), hs.ranges,
      fun r hr => hs.cross r ((eraseIdx_sublist ..).subset hr)⟩
  | removeRange i =>
    exact ⟨hs.singles, hs.ranges.sublist (eraseIdx_sublist ..),
      fun r hr s hs' => hs.cross r hr s ((eraseIdx_sublist ..).subset hs')⟩
  | toggleSingle i => exact (hs.toggle i).1
  | toggleRange i => exact (hs.toggle i).2

theorem Page.Separate.run (hs : page.Separate) {actions : List Action}
    (huniform : page.UniformFrom actions) : (page.run actions).Separate := by
  induction actions generalizing page with
  | nil => exact hs
  | cons a as ih => exact ih (hs.act huniform.1) huniform.2

end Step

/-! ## Ports that are written in two ways -/

section Twice

variable {page : Page} {f : SingleFields}

/-- Two rows of the table of single ports that forward one port and are not the same row. -/
theorem not_separate_of_port_eq {r s : Row} (hr : r ∈ page.singles) (hs : s ∈ page.singles)
    (hclash : clashes r.proto s.proto = true) (hport : port r.cell2 = port s.cell2)
    (hne : r.cell2 ≠ s.cell2) : ¬page.Separate := by
  intro h
  have hrs : r ≠ s := fun heq => hne (by rw [heq])
  have : Std.Symm fun r s : Row => Apart r.forwardsSingle s.forwardsSingle := ⟨fun _ _ h => h.symm⟩
  have happart := h.singles.forall hr hs hrs
  have hcovers : ∃ t, r.proto.covers t ∧ s.proto.covers t := by
    cases hpr : r.proto with
    | tcp =>
      rw [hpr] at hclash
      refine ⟨.tcp, rfl, ?_⟩
      cases hps : s.proto <;> simp_all [clashes, Proto.covers]
    | udp =>
      rw [hpr] at hclash
      refine ⟨.udp, rfl, ?_⟩
      cases hps : s.proto <;> simp_all [clashes, Proto.covers]
    | both =>
      obtain ⟨t, ht⟩ := exists_covers s.proto
      exact ⟨t, trivial, ht⟩
  obtain ⟨t, hct, hct'⟩ := hcovers
  exact happart t _ ⟨hct, rfl⟩ ⟨hct', hport⟩

/-- A row that clashes with a new one and has another text is there beside it. -/
theorem exists_clash_addRow {rows : List Row} (values : Row) {row : Row} (hrow : row ∈ rows)
    (hclash : clashes values.proto row.proto = true) (hne : values.cell2 ≠ row.cell2) :
    ∃ r ∈ addRow rows values, row ∈ addRow rows values ∧ clashes r.proto row.proto = true ∧
      r.cell2 = values.cell2 := by
  unfold addRow
  split_ifs with hany
  · obtain ⟨m, hm, hmergeable⟩ := List.any_eq_true.1 hany
    have hrow' : ¬mergeable values row = true := fun h => hne (mergeable_iff.1 h).2.1
    refine ⟨merged values m, List.mem_map.2 ⟨m, hm, if_pos hmergeable⟩,
      List.mem_map.2 ⟨row, hrow, if_neg hrow'⟩, ?_, (mergeable_iff.1 hmergeable).2.1.symm⟩
    simp [merged, clashes]
  · exact ⟨values, List.mem_append_right _ (List.mem_singleton_self _),
      List.mem_append_left _ hrow, hclash, rfl⟩

/-- A port that is added in another text than it is there in makes a conflict. -/
theorem conflict_of_not_sameText (hok : proofreadForwardSingle page none f = [])
    (hsame : ¬SameText page none f) : ¬(page.act (.addPortfRule f)).ConflictFree := by
  rw [conflictFree_iff]
  simp only [SameText, others, not_forall] at hsame
  obtain ⟨row, hrow, hclash, hport, hne⟩ := hsame
  have hdash := dash_of_numeric (SingleFields.numeric_of_errors (freshSingle hok).errors_eq)
  rw [Page.act, addPortfRule, if_pos hok, hdash]
  obtain ⟨r, hr, hrow', hclash', hcell⟩ := exists_clash_addRow (⟨dash f.desc, f.prot, f.fp,
    dash f.ip, if dash f.dp = ['-'] then f.fp else dash f.dp, true⟩) hrow hclash hne
  refine not_separate_of_port_eq hr hrow' hclash' ?_ ?_
  · rwa [hcell]
  · rwa [hcell]

end Twice

/-- From empty tables on, no two rows forward the same port of the same protocol, if each single port
is written in one way. -/
theorem conflictFree_of_uniform (actions : List Action)
    (huniform : Page.empty.UniformFrom actions) : (Page.empty.run actions).ConflictFree := by
  have hempty : Page.empty.Separate :=
    ⟨List.Pairwise.nil, List.Pairwise.nil, fun _ h => absurd h not_mem_nil⟩
  exact conflictFree_iff.2 (hempty.run huniform)

instance (page : Page) (excludeRow : Option ℕ) (f : SingleFields) :
    Decidable (SameText page excludeRow f) :=
  inferInstanceAs (Decidable (∀ row ∈ others page.singles excludeRow, _ → _ → _))

instance (page : Page) : (a : Action) → Decidable (page.Uniform a)
  | .addPortfRule f => inferInstanceAs (Decidable (SameText page none f))
  | .editSingle i f => inferInstanceAs (Decidable (SameText page (some i) f))
  | .addPortfRangeRule _ => inferInstanceAs (Decidable True)
  | .editRange _ _ => inferInstanceAs (Decidable True)
  | .removeSingle _ => inferInstanceAs (Decidable True)
  | .removeRange _ => inferInstanceAs (Decidable True)
  | .toggleSingle _ => inferInstanceAs (Decidable True)
  | .toggleRange _ => inferInstanceAs (Decidable True)

instance decidableUniformFrom : (page : Page) → (as : List Action) → Decidable (page.UniformFrom as)
  | _, [] => inferInstanceAs (Decidable True)
  | page, a :: as =>
    have := decidableUniformFrom (page.act a) as
    inferInstanceAs (Decidable (page.Uniform a ∧ Page.UniformFrom (page.act a) as))

def exampleForward (prot : Proto) (fp : List Char) : SingleFields :=
  ⟨[], prot, fp, "192.168.1.2".toList, []⟩

/-- Two ports, of which the second one is for both protocols after it was added again. -/
theorem conflictFree_of_uniform_example :
    (Page.empty.run [.addPortfRule (exampleForward .tcp ['8', '0']),
      .addPortfRule (exampleForward .tcp ['2', '2']),
      .addPortfRule (exampleForward .udp ['2', '2'])]).ConflictFree :=
  conflictFree_of_uniform _ (by decide)

/-- Port 80 is added a second time as port 080. -/
theorem conflict_of_leading_zero :
    ¬(Page.empty.run [.addPortfRule (exampleForward .tcp ['8', '0']),
      .addPortfRule (exampleForward .tcp ['0', '8', '0'])]).ConflictFree := by
  intro h
  have hsingles : (Page.empty.run [.addPortfRule (exampleForward .tcp ['8', '0']),
      .addPortfRule (exampleForward .tcp ['0', '8', '0'])]).singles =
      [⟨['-'], .tcp, ['8', '0'], "192.168.1.2".toList, ['8', '0'], true⟩,
        ⟨['-'], .tcp, ['0', '8', '0'], "192.168.1.2".toList, ['0', '8', '0'], true⟩] := by decide
  have hpair := (conflictFree_iff.1 h).singles
  rw [hsingles, pairwise_pair] at hpair
  exact hpair .tcp 80 ⟨rfl, by decide⟩ ⟨rfl, by decide⟩

/-!
## The sections of the forwards

When the page is saved, the forwards become sections of the firewall configuration: one for each
protocol of a row, of the type `redirect` if the box of the row is checked and `redirect_disabled` if
it is not. The sections of both types that were there are removed before. When the page is loaded,
the sections of the first type are read before those of the second, each type in the order in which
the sections are there. A section is merged into the row of an earlier one if the two have the same
name, ports and address and are for the two protocols.
-/

/-- The options of a section that the page reads. The section is of the type `redirect` if it is
enabled, or else of the type `redirect_disabled`. -/
structure Redirect where
  enabled : Bool
  name : List Char
  proto : List Char
  srcDport : List Char
  destIp : List Char
  destPort : List Char
deriving DecidableEq

/-! ### Saving -/

structure Sections where
  sections : List (List Char × Redirect)
  enabledIndex : ℕ
  disabledIndex : ℕ
deriving DecidableEq

def sectionId (enabled : Bool) (index : ℕ) : List Char :=
  "redirect_".toList ++ (if enabled then "enabled" else "disabled").toList ++ "_number_".toList ++
    Nat.toDigits 10 index

def Sections.push (s : Sections) (r : Redirect) : Sections where
  sections := s.sections ++
    [(sectionId r.enabled (if r.enabled then s.enabledIndex else s.disabledIndex), r)]
  enabledIndex := s.enabledIndex + if r.enabled then 1 else 0
  disabledIndex := s.disabledIndex + if r.enabled then 0 else 1

def Transport.text : Transport → List Char
  | .tcp => ['t', 'c', 'p']
  | .udp => ['u', 'd', 'p']

def Proto.protos : Proto → List Transport
  | .tcp => [.tcp]
  | .udp => [.udp]
  | .both => [.tcp, .udp]

def Row.singleSection (row : Row) (t : Transport) : Redirect where
  enabled := row.enabled
  name := row.name
  proto := t.text
  srcDport := row.cell2
  destIp := row.cell3
  destPort := row.cell4

def Row.rangeSection (row : Row) (t : Transport) : Redirect where
  enabled := row.enabled
  name := row.name
  proto := t.text
  srcDport := row.cell2 ++ '-' :: row.cell3
  destIp := row.cell4
  destPort := row.cell2 ++ '-' :: row.cell3

/-- The sections that `saveChanges` writes for the rows of a table. -/
def Sections.saveRows (s : Sections) (sectionOf : Row → Transport → Redirect) (rows : List Row) :
    Sections :=
  rows.foldl (fun s row => row.proto.protos.foldl (fun s t => s.push (sectionOf row t)) s) s

/-- The sections that `saveChanges` writes. -/
def saveChanges (page : Page) : Sections :=
  ((⟨[], 0, 0⟩ : Sections).saveRows Row.singleSection page.singles).saveRows Row.rangeSection
    page.ranges

/-! ### Loading -/

/-- `otherProto`. -/
def Transport.other : Transport → Transport
  | .tcp => .udp
  | .udp => .tcp

def Transport.toProto : Transport → Proto
  | .tcp => .tcp
  | .udp => .udp

def transportOf (proto : List Char) : Option Transport :=
  if proto = Transport.tcp.text then some .tcp
  else if proto = Transport.udp.text then some .udp
  else none

structure LoadedTable where
  rows : List Row
  protoHash : Transport → List Char → Option ℕ

def LoadedTable.empty : LoadedTable := ⟨[], fun _ _ => none⟩

def Row.toBoth (row : Row) : Row := { row with proto := .both }

def LoadedTable.add (table : LoadedTable) (proto : Transport) (hashStr : List Char) (row : Row) :
    LoadedTable :=
  match table.protoHash proto.other hashStr with
  | some i => { table with rows := table.rows.modify i Row.toBoth }
  | none =>
    { rows := table.rows ++ [row]
      protoHash := Function.update table.protoHash proto
        (Function.update (table.protoHash proto) hashStr (some table.rows.length)) }

structure Loaded where
  singles : LoadedTable
  ranges : LoadedTable

def hashStr (name srcDport destIp destPort : List Char) : List Char :=
  name ++ '-' :: (srcDport ++ '-' :: (destIp ++ '-' :: destPort))

def Loaded.read (l : Loaded) (r : Redirect) : Loaded :=
  let name := dash r.name
  let proto := r.proto.map Char.toLower
  if r.srcDport = [] ∧ r.destPort = [] ∧ r.enabled = true then l
  else
    match transportOf proto with
    | none => l
    | some t =>
      let destPort := if r.destPort = [] then r.srcDport else r.destPort
      let hashStr := hashStr name r.srcDport r.destIp destPort
      if '-' ∈ r.srcDport then
        let splitPorts := r.srcDport.splitOn '-'
        { l with
          ranges := l.ranges.add t hashStr
            ⟨name, t.toProto, splitPorts.getD 0 [], splitPorts.getD 1 [], r.destIp, r.enabled⟩ }
      else
        { l with
          singles := l.singles.add t hashStr
            ⟨name, t.toProto, r.srcDport, r.destIp, destPort, r.enabled⟩ }

def inReadingOrder (sections : List Redirect) : List Redirect :=
  sections.filter (fun r => r.enabled) ++ sections.filter fun r => !r.enabled

/-- The tables that `resetData` makes of the sections. -/
def resetData (sections : List Redirect) : Page :=
  let l := (inReadingOrder sections).foldl Loaded.read ⟨.empty, .empty⟩
  ⟨l.singles.rows, l.ranges.rows⟩

def Page.reload (page : Page) : Page := resetData ((saveChanges page).sections.map Prod.snd)

end PortForwarding

end Web

end Gargoyle
