import Gargoyle.Web.PortConflicts
import Mathlib.Logic.Equiv.List

/-!
# Saving and reloading the forwards

A row with the protocol "both" stands for two entries. Saving and reloading the page keeps the
entries of its tables exactly when no description and no target port is empty, and no two rows are
the same forward for the two protocols, one of them enabled and the other one not: then the disabled
one is merged into the enabled one and is enabled as well (`reload_entries_iff`).
-/

namespace Gargoyle

open List

namespace Web

namespace PortForwarding

structure Entry where
  name : List Char
  transport : Transport
  externalPorts : List (List Char)
  targetIp : List Char
  targetPorts : List (List Char)
  enabled : Bool
deriving DecidableEq

def Row.singleEntry (row : Row) (t : Transport) : Entry :=
  ⟨row.name, t, [row.cell2], row.cell3, [row.cell4], row.enabled⟩

def Row.rangeEntry (row : Row) (t : Transport) : Entry :=
  ⟨row.name, t, [row.cell2, row.cell3], row.cell4, [row.cell2, row.cell3], row.enabled⟩

def rowProtos (rows : List Row) : List (Row × Transport) :=
  rows.flatMap fun row => row.proto.protos.map fun t => (row, t)

def Page.entries (page : Page) : List Entry :=
  (rowProtos page.singles).map (fun p => p.1.singleEntry p.2) ++
    (rowProtos page.ranges).map fun p => p.1.rangeEntry p.2

def Row.cells (row : Row) : List (List Char) := [row.name, row.cell2, row.cell3, row.cell4]

def EnabledTogether (rows : List Row) : Prop :=
  ∀ r ∈ rows, ∀ s ∈ rows, r.proto = .tcp → s.proto = .udp → r.cells = s.cells →
    r.enabled = s.enabled

structure Page.Savable (page : Page) : Prop where
  singles : ∀ row ∈ page.singles, row.name ≠ [] ∧ row.cell4 ≠ []
  ranges : ∀ row ∈ page.ranges, row.name ≠ []
  singlesTogether : EnabledTogether page.singles
  rangesTogether : EnabledTogether page.ranges

section Texts

variable {a a' b b' : List Char}

theorem append_dash_inj (hb : '-' ∉ b) (hb' : '-' ∉ b') :
    a ++ '-' :: b = a' ++ '-' :: b' ↔ a = a' ∧ b = b' := by
  constructor
  · intro h
    have hreverse : b.reverse ++ '-' :: a.reverse = b'.reverse ++ '-' :: a'.reverse := by
      simpa using congrArg List.reverse h
    have htake := congrArg (List.takeWhile (· ≠ '-')) hreverse
    have hall : ∀ {c : List Char}, '-' ∉ c → ∀ x ∈ c.reverse, (decide (x ≠ '-')) = true := by
      intro c hc x hx
      rw [decide_eq_true_eq]
      rintro rfl
      exact hc (List.mem_reverse.1 hx)
    rw [takeWhile_append_of_pos (hall hb), takeWhile_append_of_pos (hall hb')] at htake
    simp only [ne_eq, not_true_eq_false, decide_false, Bool.false_eq_true, not_false_eq_true,
      takeWhile_cons_of_neg, List.append_nil, reverse_inj] at htake
    subst htake
    exact ⟨append_cancel_right h, rfl⟩
  · rintro ⟨rfl, rfl⟩
    rfl

theorem notMem_of_numeric {v : List Char} (h : validateNumeric v = 0) : v ≠ [] ∧ '-' ∉ v := by
  rw [validateNumeric] at h
  split_ifs at h with hv
  refine ⟨hv.1, fun hmem => ?_⟩
  have hdigit := List.all_eq_true.1 hv.2 '-' hmem
  exact absurd hdigit (by decide)

theorem mem_intercalate {c : Char} {sep : List Char} {xs : List (List Char)}
    (h : c ∈ sep.intercalate xs) : c ∈ sep ∨ ∃ x ∈ xs, c ∈ x := by
  rw [List.intercalate, mem_flatten] at h
  obtain ⟨x, hx, hc⟩ := h
  induction xs with
  | nil => simp at hx
  | cons y ys ih =>
    cases ys with
    | nil =>
      rw [intersperse_singleton, mem_singleton] at hx
      exact .inr ⟨y, mem_singleton_self y, hx ▸ hc⟩
    | cons z zs =>
      rw [intersperse_cons_cons, mem_cons, mem_cons] at hx
      obtain rfl | rfl | hx := hx
      · exact .inr ⟨x, mem_cons_self, hc⟩
      · exact .inl hc
      · exact (ih hx).imp id fun ⟨w, hw, hcw⟩ => ⟨w, mem_cons_of_mem y hw, hcw⟩

theorem notMem_of_validIp {address : List Char} (h : validateIP address = 0) :
    '-' ∉ address := by
  intro hmem
  simp only [validateIP] at h
  split_ifs at h with h₁ h₂ hfields h₃ h₄
  rw [← @List.intercalate_splitOn _ address _ _ '.'] at hmem
  obtain hdot | ⟨field, hfield, hin⟩ := mem_intercalate hmem
  · exact absurd hdot (by decide)
  · have hdigits := List.all_eq_true.1 hfields.2 field hfield
    rw [Bool.and_eq_true, Bool.and_eq_true] at hdigits
    exact absurd (List.all_eq_true.1 hdigits.2 '-' hin) (by decide)

end Texts

/-! ## Tables that are being filled -/

abbrev Item := Transport × Row

def LoadedTable.addAll (table : LoadedTable) (hashOf : Row → List Char) (items : List Item) :
    LoadedTable :=
  items.foldl (fun table i => table.add i.1 (hashOf i.2) i.2) table

structure Tracks (hashOf : Row → List Char) (items : List Item) (table : LoadedTable) : Prop where
  found : ∀ t text i, table.protoHash t text = some i →
    ∃ row, table.rows[i]? = some row ∧ hashOf row = text ∧ t ∈ row.proto.protos
  added : ∀ row ∈ table.rows, ∃ t ∈ row.proto.protos, ∃ i, table.protoHash t (hashOf row) = some i
  nodup : (table.rows.map hashOf).Nodup
  covered : ∀ row ∈ table.rows, ∀ t ∈ row.proto.protos, ∃ i ∈ items,
    i.1 = t ∧ i.2.cells = row.cells
  covers : ∀ i ∈ items, ∃ row ∈ table.rows, i.1 ∈ row.proto.protos ∧ i.2.cells = row.cells
  enabled : ∀ row ∈ table.rows, row.enabled = true ↔
    ∃ i ∈ items, i.2.cells = row.cells ∧ i.2.enabled = true

/-- The next item: it is for one protocol, no item before it is for the same forward of that
protocol, its text is the text of no other forward, and no disabled item is before an enabled one. -/
structure Item.Follows (hashOf : Row → List Char) (items : List Item) (item : Item) : Prop where
  proto : item.2.proto = item.1.toProto
  fresh : ∀ i ∈ items, i.1 = item.1 → i.2.cells ≠ item.2.cells
  hash : ∀ i ∈ items, hashOf i.2 = hashOf item.2 → i.2.cells = item.2.cells
  ordered : item.2.enabled = true → ∀ i ∈ items, i.2.enabled = true

section Filling

variable {hashOf : Row → List Char} {items : List Item} {item : Item} {table : LoadedTable}

theorem tracks_empty (hashOf : Row → List Char) : Tracks hashOf [] .empty where
  found := by rintro t text i ⟨⟩
  added := by rintro row ⟨⟩
  nodup := nodup_nil
  covered := by rintro row ⟨⟩
  covers := by rintro i ⟨⟩
  enabled := by rintro row ⟨⟩

theorem mem_protos_toProto {t u : Transport} : t ∈ u.toProto.protos ↔ t = u := by
  cases t <;> cases u <;> decide

theorem exists_mem_protos (p : Proto) : ∃ t, t ∈ p.protos := by
  cases p with
  | tcp => exact ⟨.tcp, by decide⟩
  | udp => exact ⟨.udp, by decide⟩
  | both => exact ⟨.tcp, by decide⟩

theorem mem_protos_both (t : Transport) : t ∈ Proto.both.protos := by
  cases t <;> decide

theorem eq_or_eq_other (t u : Transport) : t = u ∨ t = u.other := by
  cases t <;> cases u <;> decide

theorem Tracks.cells_eq (h : Tracks hashOf items table) (hitem : item.Follows hashOf items)
    (hcongr : ∀ r s : Row, r.cells = s.cells → hashOf r = hashOf s) {row : Row}
    (hrow : row ∈ table.rows) (hhash : hashOf row = hashOf item.2) : row.cells = item.2.cells := by
  obtain ⟨t, ht⟩ := exists_mem_protos row.proto
  obtain ⟨i, hi, -, hcells⟩ := h.covered row hrow t ht
  exact hcells.symm.trans (hitem.hash i hi ((hcongr _ _ hcells).trans hhash))

theorem Tracks.hash_ne (h : Tracks hashOf items table) (hitem : item.Follows hashOf items)
    (hcongr : ∀ r s : Row, r.cells = s.cells → hashOf r = hashOf s)
    (hnone : table.protoHash item.1.other (hashOf item.2) = none) {row : Row}
    (hrow : row ∈ table.rows) : hashOf row ≠ hashOf item.2 := by
  intro hhash
  obtain ⟨t, ht, i, hi⟩ := h.added row hrow
  obtain rfl | rfl := eq_or_eq_other t item.1
  · obtain ⟨i, hi, hproto, hcells⟩ := h.covered row hrow item.1 ht
    exact hitem.fresh i hi hproto (hcells.trans (h.cells_eq hitem hcongr hrow hhash))
  · rw [hhash, hnone] at hi
    cases hi

theorem exists_split_of_getElem {rows : List Row} {i : ℕ} {row : Row} (h : rows[i]? = some row)
    (f : Row → Row) : ∃ as bs, rows = as ++ row :: bs ∧ rows.modify i f = as ++ f row :: bs := by
  induction rows generalizing i with
  | nil => simp at h
  | cons r rows ih =>
    cases i with
    | zero =>
      obtain rfl := Option.some.inj h
      exact ⟨[], rows, rfl, rfl⟩
    | succ i =>
      obtain ⟨as, bs, hrows, hmodify⟩ := ih h
      refine ⟨r :: as, bs, by rw [hrows]; rfl, ?_⟩
      rw [modify_succ_cons, hmodify]
      rfl

theorem update_update_eq (t u : Transport) (text text' : List Char) (i : Option ℕ) :
    Function.update table.protoHash u (Function.update (table.protoHash u) text' i) t text =
      if t = u ∧ text = text' then i else table.protoHash t text := by
  by_cases ht : t = u
  · subst ht
    rw [Function.update_self, Function.update_apply]
    split_ifs with h₁ h₂ h₂
    · rfl
    · exact absurd ⟨rfl, h₁⟩ h₂
    · exact absurd h₂.2 h₁
    · rfl
  · rw [Function.update_of_ne ht, if_neg fun h => ht h.1]

/-- One more section is tracked. -/
theorem Tracks.push (h : Tracks hashOf items table) (hitem : item.Follows hashOf items)
    (hcongr : ∀ r s : Row, r.cells = s.cells → hashOf r = hashOf s)
    (hnone : table.protoHash item.1.other (hashOf item.2) = none) :
    Tracks hashOf (items ++ [item]) (table.add item.1 (hashOf item.2) item.2) := by
  have hne : ∀ row ∈ table.rows, hashOf row ≠ hashOf item.2 := fun row hrow =>
    h.hash_ne hitem hcongr hnone hrow
  have hcells : ∀ row ∈ table.rows, item.2.cells ≠ row.cells := fun row hrow heq =>
    hne row hrow (hcongr _ _ heq.symm)
  have hproto : ∀ t, t ∈ item.2.proto.protos ↔ t = item.1 := fun t => by
    rw [hitem.proto, mem_protos_toProto]
  simp only [LoadedTable.add, hnone]
  refine ⟨fun t text i hi => ?_, fun row hrow => ?_, ?_, fun row hrow t ht => ?_, fun i hi => ?_,
    fun row hrow => ?_⟩
  · dsimp only at hi ⊢
    rw [update_update_eq] at hi
    split_ifs at hi with hnew
    · obtain rfl := Option.some.inj hi
      exact ⟨item.2, getElem?_concat_length, hnew.2.symm, (hproto t).2 hnew.1⟩
    · obtain ⟨row, hrow, hfound⟩ := h.found t text i hi
      exact ⟨row, (getElem?_append_left (List.getElem?_eq_some_iff.1 hrow).1).trans hrow,
        hfound⟩
  · simp only [update_update_eq]
    rw [mem_append, mem_singleton] at hrow
    obtain hrow | rfl := hrow
    · obtain ⟨t, ht, i, hi⟩ := h.added row hrow
      refine ⟨t, ht, i, ?_⟩
      rw [if_neg fun hnew => hne row hrow hnew.2]
      exact hi
    · exact ⟨item.1, (hproto _).2 rfl, table.rows.length, if_pos ⟨rfl, rfl⟩⟩
  · rw [map_append, map_singleton, nodup_append]
    refine ⟨h.nodup, pairwise_singleton .., ?_⟩
    intro text htext text' htext' heq
    obtain ⟨row, hrow, rfl⟩ := List.mem_map.1 htext
    exact hne row hrow (heq.trans (List.mem_singleton.1 htext'))
  · rw [mem_append, mem_singleton] at hrow
    obtain hrow | rfl := hrow
    · obtain ⟨i, hi, hcovered⟩ := h.covered row hrow t ht
      exact ⟨i, mem_append_left _ hi, hcovered⟩
    · exact ⟨item, by simp, ((hproto t).1 ht).symm, rfl⟩
  · rw [mem_append, mem_singleton] at hi
    obtain hi | rfl := hi
    · obtain ⟨row, hrow, hcovers⟩ := h.covers i hi
      exact ⟨row, mem_append_left _ hrow, hcovers⟩
    · exact ⟨i.2, by simp, (hproto _).2 rfl, rfl⟩
  · rw [mem_append, mem_singleton] at hrow
    simp only [mem_append, mem_singleton, or_and_right, exists_or, exists_eq_left]
    obtain hrow | rfl := hrow
    · rw [h.enabled row hrow]
      refine ⟨.inl, fun hor => hor.resolve_right fun hnew => hcells row hrow hnew.1⟩
    · refine ⟨fun henabled => .inr ⟨rfl, henabled⟩, fun hor => ?_⟩
      obtain ⟨i, hi, heq, -⟩ | ⟨-, henabled⟩ := hor
      · obtain ⟨row, hrow, -, hcells'⟩ := h.covers i hi
        exact absurd (heq.symm.trans hcells') (hcells row hrow)
      · exact henabled

/-- An item that is merged into a row. -/
theorem Tracks.merge (h : Tracks hashOf items table) (hitem : item.Follows hashOf items)
    (hcongr : ∀ r s : Row, r.cells = s.cells → hashOf r = hashOf s) {i : ℕ}
    (hsome : table.protoHash item.1.other (hashOf item.2) = some i) :
    Tracks hashOf (items ++ [item]) (table.add item.1 (hashOf item.2) item.2) := by
  obtain ⟨row, hrow, hhash, hother⟩ := h.found _ _ _ hsome
  have hmem : row ∈ table.rows := mem_of_getElem? hrow
  have hcells : row.cells = item.2.cells := h.cells_eq hitem hcongr hmem hhash
  have hcovers : ∃ i ∈ items, i.2.cells = row.cells := by
    obtain ⟨i, hi, -, heq⟩ := h.covered row hmem _ hother
    exact ⟨i, hi, heq⟩
  obtain ⟨as, bs, hrows, hmodify⟩ := exists_split_of_getElem hrow Row.toBoth
  have hmemModify : ∀ r, r ∈ table.rows.modify i Row.toBoth ↔
      r = row.toBoth ∨ r ∈ as ++ bs := fun r => by
    rw [hmodify, mem_append, mem_cons, mem_append]
    tauto
  have hmemRows : ∀ r, r ∈ table.rows ↔ r = row ∨ r ∈ as ++ bs := fun r => by
    rw [hrows, mem_append, mem_cons, mem_append]
    tauto
  have hne : ∀ r ∈ as ++ bs, item.2.cells ≠ r.cells := by
    intro r hr heq
    have hnodup := h.nodup
    rw [hrows, map_append, map_cons, List.perm_middle.nodup_iff, nodup_cons,
      ← map_append] at hnodup
    exact hnodup.1 ((hcongr r row (heq.symm.trans hcells.symm)) ▸ mem_map_of_mem hr)
  have hboth : hashOf row.toBoth = hashOf row := hcongr row.toBoth row rfl
  simp only [LoadedTable.add, hsome]
  refine ⟨fun t text j hj => ?_, fun r hr => ?_, ?_, fun r hr t ht => ?_, fun j hj => ?_,
    fun r hr => ?_⟩
  · obtain ⟨r, hr, hhash', hproto⟩ := h.found t text j hj
    rw [getElem?_modify, hr]
    split_ifs with hij
    · subst hij
      obtain rfl := Option.some.inj (hrow.symm.trans hr)
      exact ⟨row.toBoth, rfl, hboth.trans hhash', mem_protos_both t⟩
    · exact ⟨r, rfl, hhash', hproto⟩
  · obtain rfl | hr := (hmemModify r).1 hr
    · obtain ⟨t, -, j, hj⟩ := h.added row hmem
      exact ⟨t, mem_protos_both t, j, hboth.symm ▸ hj⟩
    · exact h.added r ((hmemRows r).2 (.inr hr))
  · have hmap : (table.rows.modify i Row.toBoth).map hashOf = table.rows.map hashOf := by
      rw [hmodify, hrows, map_append, map_append, map_cons, map_cons, hboth]
    exact hmap ▸ h.nodup
  · obtain rfl | hr := (hmemModify r).1 hr
    · obtain rfl | rfl := eq_or_eq_other t item.1
      · exact ⟨item, by simp, rfl, hcells.symm⟩
      · obtain ⟨j, hj, hcovered⟩ := h.covered row hmem _ hother
        exact ⟨j, mem_append_left _ hj, hcovered⟩
    · obtain ⟨j, hj, hcovered⟩ := h.covered r ((hmemRows r).2 (.inr hr)) t ht
      exact ⟨j, mem_append_left _ hj, hcovered⟩
  · rw [mem_append, mem_singleton] at hj
    obtain hj | rfl := hj
    · obtain ⟨r, hr, hproto, heq⟩ := h.covers j hj
      obtain rfl | hr := (hmemRows r).1 hr
      · exact ⟨r.toBoth, (hmemModify _).2 (.inl rfl), mem_protos_both _, heq⟩
      · exact ⟨r, (hmemModify _).2 (.inr hr), hproto, heq⟩
    · exact ⟨row.toBoth, (hmemModify _).2 (.inl rfl), mem_protos_both _, hcells.symm⟩
  · simp only [mem_append, mem_singleton, or_and_right, exists_or, exists_eq_left]
    obtain rfl | hr := (hmemModify r).1 hr
    · refine (h.enabled row hmem).trans ⟨.inl, fun hor => hor.elim id fun hnew => ?_⟩
      obtain ⟨j, hj, heq⟩ := hcovers
      exact ⟨j, hj, heq, hitem.ordered hnew.2 j hj⟩
    · rw [h.enabled r ((hmemRows r).2 (.inr hr))]
      exact ⟨.inl, fun hor => hor.resolve_right fun hnew => hne r hr hnew.1⟩

theorem Tracks.add (h : Tracks hashOf items table) (hitem : item.Follows hashOf items)
    (hcongr : ∀ r s : Row, r.cells = s.cells → hashOf r = hashOf s) :
    Tracks hashOf (items ++ [item]) (table.add item.1 (hashOf item.2) item.2) := by
  cases hother : table.protoHash item.1.other (hashOf item.2) with
  | none => exact h.push hitem hcongr hother
  | some i => exact h.merge hitem hcongr hother

structure Readable (hashOf : Row → List Char) (items : List Item) : Prop where
  proto : ∀ i ∈ items, i.2.proto = i.1.toProto
  fresh : items.Pairwise fun i j => i.1 = j.1 → i.2.cells ≠ j.2.cells
  hash : ∀ i ∈ items, ∀ j ∈ items, hashOf i.2 = hashOf j.2 → i.2.cells = j.2.cells
  ordered : items.Pairwise fun i j => j.2.enabled = true → i.2.enabled = true

theorem Readable.follows {bs : List Item} (h : Readable hashOf (items ++ item :: bs)) :
    item.Follows hashOf items where
  proto := h.proto item (by simp)
  fresh i hi := (List.pairwise_append.1 h.fresh).2.2 i hi item mem_cons_self
  hash i hi := h.hash i (mem_append_left _ hi) item (by simp)
  ordered henabled i hi :=
    (List.pairwise_append.1 h.ordered).2.2 i hi item mem_cons_self henabled

theorem Tracks.addAll (h : Tracks hashOf items table)
    (hcongr : ∀ r s : Row, r.cells = s.cells → hashOf r = hashOf s) {bs : List Item}
    (hreadable : Readable hashOf (items ++ bs)) :
    Tracks hashOf (items ++ bs) (table.addAll hashOf bs) := by
  induction bs generalizing items table with
  | nil =>
    rw [List.append_nil]
    exact h
  | cons item bs ih =>
    have hstep := h.add hreadable.follows hcongr
    rw [append_cons] at hreadable ⊢
    exact ih hstep hreadable

end Filling

/-! ## The rows of the tables -/

structure Row.Plain (row : Row) : Prop where
  ne_nil : row.cell2 ≠ []
  cell2 : '-' ∉ row.cell2
  cell3 : '-' ∉ row.cell3
  cell4 : '-' ∉ row.cell4

def textsCode (a b : List Char) : ℕ := Encodable.encode (a.map Char.toNat, b.map Char.toNat)

theorem textsCode_inj {a b a' b' : List Char} :
    textsCode a b = textsCode a' b' ↔ a = a' ∧ b = b' := by
  have hinj : Function.Injective Char.toNat := fun c d h => by
    rw [← Char.ofNat_toNat c, ← Char.ofNat_toNat d, h]
  rw [textsCode, textsCode, Encodable.encode_inj, Prod.mk.injEq, hinj.list_map.eq_iff,
    hinj.list_map.eq_iff]

structure KeptRows (rows : List Row) : Prop where
  plain : ∀ row ∈ rows, row.Plain
  apart : rows.Pairwise fun r s =>
    Apart (forwardsOf (fun a b n => n = textsCode a b) r)
      (forwardsOf (fun a b n => n = textsCode a b) s)

def FreshRow (rows : List Row) (values : Row) : Prop :=
  ∀ row ∈ rows, clashes values.proto row.proto = true → values.cell2 = row.cell2 →
    values.cell3 ≠ row.cell3

section Kept

variable {rows : List Row} {values : Row}

theorem FreshRow.apart (h : FreshRow rows values) {row : Row} (hrow : row ∈ rows) :
    Apart (forwardsOf (fun a b n => n = textsCode a b) values)
      (forwardsOf (fun a b n => n = textsCode a b) row) := by
  rintro t n ⟨hc, hn⟩ ⟨hc', hn'⟩
  obtain ⟨h2, h3⟩ := textsCode_inj.1 (hn.symm.trans hn')
  exact h row hrow (clashes_of_covers hc hc') h2 h3

theorem KeptRows.addRow (h : KeptRows rows) (hplain : values.Plain) (hfresh : FreshRow rows values) :
    KeptRows (addRow rows values) where
  plain row hrow := by
    rw [PortForwarding.addRow] at hrow
    split_ifs at hrow
    · obtain ⟨r, hr, rfl⟩ := List.mem_map.1 hrow
      have hr := h.plain r hr
      split_ifs
      · exact ⟨hr.1, hr.2, hr.3, hr.4⟩
      · exact hr
    · obtain hrow | hrow := List.mem_append.1 hrow
      · exact h.plain row hrow
      · exact List.mem_singleton.1 hrow ▸ hplain
  apart := pairwise_addRow _ h.apart (fun _ hr => hfresh.apart hr) ⟨_, rfl⟩

theorem KeptRows.sublist (h : KeptRows rows) {rows' : List Row} (hsub : rows'.Sublist rows) :
    KeptRows rows' :=
  ⟨fun row hrow => h.plain row (hsub.subset hrow), h.apart.sublist hsub⟩

theorem KeptRows.toggle (h : KeptRows rows) (i : ℕ) : KeptRows (rows.modify i Row.toggle) where
  plain row hrow := by
    obtain hrow | ⟨r, hr, rfl⟩ := mem_of_mem_modify _ hrow
    · exact h.plain row hrow
    · have hr := h.plain r hr
      exact ⟨hr.1, hr.2, hr.3, hr.4⟩
  apart := by
    have hmap : (rows.modify i Row.toggle).map (forwardsOf fun a b n => n = textsCode a b) =
        rows.map (forwardsOf fun a b n => n = textsCode a b) := map_modify_toggle _
    have happart := List.pairwise_map.2 h.apart
    rw [← hmap, pairwise_map] at happart
    exact happart

theorem KeptRows.edit (h : KeptRows rows) {i : ℕ} {f : Row → Row}
    (hplain : ∀ r, (f r).Plain) (hfresh : ∀ r, FreshRow (others rows (some i)) (f r)) :
    KeptRows (rows.modify i f) where
  plain row hrow := by
    obtain hrow | ⟨r, hr, rfl⟩ := mem_of_mem_modify _ hrow
    · exact h.plain row hrow
    · exact hplain r
  apart := pairwise_modify _ f h.apart fun r _ s hs => (hfresh r).apart hs

end Kept

/-! ## The tables that can be reached -/

structure Page.Kept (page : Page) : Prop where
  singles : KeptRows page.singles
  ranges : KeptRows page.ranges

section Pages

variable {page : Page} {excludeRow : Option ℕ}

theorem dash_of_validIp {v : List Char} (h : validateIP v = 0) : dash v = v := by
  rw [dash, if_neg]
  rintro rfl
  exact absurd h (by decide)

theorem FreshSingle.plain {f : SingleFields} (h : FreshSingle page excludeRow f) :
    (f.fp ≠ [] ∧ '-' ∉ f.fp) ∧ validateIP f.ip = 0 ∧ '-' ∉ f.dp := by
  have herrors := proofreadFields_eq_nil_iff.1 h.errors_eq
  refine ⟨notMem_of_numeric (SingleFields.numeric_of_errors h.errors_eq),
    herrors ("add_ip_label", validateIP f.ip) (by simp), ?_⟩
  cases hdp : f.dp with
  | nil => exact not_mem_nil
  | cons c cs =>
    have hnumeric := herrors ("add_dp_label", validateNumeric f.dp) (by simp [hdp])
    exact hdp ▸ (notMem_of_numeric hnumeric).2

theorem FreshRange.plain {f : RangeFields} (h : FreshRange page excludeRow f) :
    (f.sp ≠ [] ∧ '-' ∉ f.sp) ∧ '-' ∉ f.ep ∧ validateIP f.ip = 0 := by
  have hnumeric := RangeFields.numeric_of_errors h.errors_eq
  exact ⟨notMem_of_numeric hnumeric.1, (notMem_of_numeric hnumeric.2).2,
    proofreadFields_eq_nil_iff.1 h.errors_eq ("addr_ip_label", validateIP f.ip) (by simp)⟩

theorem FreshSingle.freshRow {f : SingleFields} (h : FreshSingle page excludeRow f) {row : Row}
    (hproto : row.proto = f.prot) (hport : row.cell2 = f.fp) :
    FreshRow (others page.singles excludeRow) row := by
  intro s hs hclash h2
  rw [hproto] at hclash
  exact absurd (hport.symm.trans h2) (h.singles s hs hclash)

theorem FreshRange.freshRow {f : RangeFields} (h : FreshRange page excludeRow f) {row : Row}
    (hproto : row.proto = f.prot) (hstart : row.cell2 = f.sp) (hend : row.cell3 = f.ep) :
    FreshRow (others page.ranges excludeRow) row := by
  intro s hs hclash h2 h3
  rw [hproto] at hclash
  refine h.ranges s hs hclash ⟨?_, ?_⟩
  · rw [← h2, hstart]
    exact h.le
  · rw [← h3, hend]
    exact h.le

theorem Page.Kept.addPortfRule (h : page.Kept) (f : SingleFields) :
    (PortForwarding.addPortfRule page f).Kept := by
  by_cases herrors : proofreadForwardSingle page none f = []
  · rw [PortForwarding.addPortfRule, if_pos herrors]
    have hfresh := freshSingle herrors
    obtain ⟨⟨hne, hfp⟩, hip, hdp⟩ := hfresh.plain
    have hnumeric := dash_of_numeric (SingleFields.numeric_of_errors hfresh.errors_eq)
    refine ⟨h.singles.addRow ⟨?_, ?_, ?_, ?_⟩ (hfresh.freshRow rfl hnumeric), h.ranges⟩
    · exact hnumeric.symm ▸ hne
    · exact hnumeric.symm ▸ hfp
    · exact (dash_of_validIp hip).symm ▸ notMem_of_validIp hip
    · dsimp only
      split_ifs with hdash
      · exact hnumeric.symm ▸ hfp
      · rw [dash] at hdash ⊢
        split_ifs with hnil
        · exact absurd (if_pos hnil) hdash
        · exact hdp
  · rw [PortForwarding.addPortfRule, if_neg herrors]
    exact h

theorem Page.Kept.addPortfRangeRule (h : page.Kept) (f : RangeFields) :
    (PortForwarding.addPortfRangeRule page f).Kept := by
  rw [PortForwarding.addPortfRangeRule]
  split_ifs with herrors
  · have hfresh := freshRange herrors
    obtain ⟨⟨hne, hsp⟩, hep, hip⟩ := hfresh.plain
    obtain ⟨hnumeric, hnumeric'⟩ := RangeFields.numeric_of_errors hfresh.errors_eq
    have hstart := dash_of_numeric hnumeric
    have hend := dash_of_numeric hnumeric'
    refine ⟨h.singles, h.ranges.addRow ⟨?_, ?_, ?_, ?_⟩ (hfresh.freshRow rfl hstart hend)⟩
    · exact hstart.symm ▸ hne
    · exact hstart.symm ▸ hsp
    · exact hend.symm ▸ hep
    · exact (dash_of_validIp hip).symm ▸ notMem_of_validIp hip
  · exact h

theorem Page.Kept.editForwardSingle (h : page.Kept) (i : ℕ) (f : SingleFields) :
    (PortForwarding.editForwardSingle page i f).Kept := by
  rw [PortForwarding.editForwardSingle]
  split_ifs with herrors
  · have hfresh := freshSingle herrors
    obtain ⟨⟨hne, hfp⟩, hip, hdp⟩ := hfresh.plain
    exact ⟨h.singles.edit (fun r => ⟨hne, hfp, notMem_of_validIp hip, hdp⟩)
      fun r => hfresh.freshRow rfl rfl, h.ranges⟩
  · exact h

theorem Page.Kept.editForwardRange (h : page.Kept) (i : ℕ) (f : RangeFields) :
    (PortForwarding.editForwardRange page i f).Kept := by
  rw [PortForwarding.editForwardRange]
  split_ifs with herrors
  · have hfresh := freshRange herrors
    obtain ⟨⟨hne, hsp⟩, hep, hip⟩ := hfresh.plain
    exact ⟨h.singles, h.ranges.edit (fun r => ⟨hne, hsp, hep, notMem_of_validIp hip⟩)
      fun r => hfresh.freshRow rfl rfl rfl⟩
  · exact h

theorem Page.Kept.act (h : page.Kept) (a : Action) : (page.act a).Kept := by
  cases a with
  | addPortfRule f => exact h.addPortfRule f
  | addPortfRangeRule f => exact h.addPortfRangeRule f
  | editSingle i f => exact h.editForwardSingle i f
  | editRange i f => exact h.editForwardRange i f
  | removeSingle i => exact ⟨h.singles.sublist (eraseIdx_sublist ..), h.ranges⟩
  | removeRange i => exact ⟨h.singles, h.ranges.sublist (eraseIdx_sublist ..)⟩
  | toggleSingle i => exact ⟨h.singles.toggle i, h.ranges⟩
  | toggleRange i => exact ⟨h.singles, h.ranges.toggle i⟩

theorem Page.Kept.run (h : page.Kept) (actions : List Action) : (page.run actions).Kept := by
  induction actions generalizing page with
  | nil => exact h
  | cons a as ih => exact ih (h.act a)

theorem kept_empty : Page.empty.Kept :=
  ⟨⟨fun _ h => absurd h not_mem_nil, List.Pairwise.nil⟩,
    ⟨fun _ h => absurd h not_mem_nil, List.Pairwise.nil⟩⟩

end Pages

/-! ## What is read -/

def enabledFirst (pairs : List (Row × Transport)) : List (Row × Transport) :=
  pairs.filter (fun p => p.1.enabled) ++ pairs.filter fun p => !p.1.enabled

def singleItem (p : Row × Transport) : Item :=
  (p.2, ⟨dash p.1.name, p.2.toProto, p.1.cell2, p.1.cell3,
    if p.1.cell4 = [] then p.1.cell2 else p.1.cell4, p.1.enabled⟩)

def rangeItem (p : Row × Transport) : Item :=
  (p.2, ⟨dash p.1.name, p.2.toProto, p.1.cell2, p.1.cell3, p.1.cell4, p.1.enabled⟩)

def singleHash (row : Row) : List Char := hashStr row.name row.cell2 row.cell3 row.cell4

def rangeHash (row : Row) : List Char :=
  hashStr row.name (row.cell2 ++ '-' :: row.cell3) row.cell4 (row.cell2 ++ '-' :: row.cell3)

section Reading

variable {l : Loaded} {row : Row} {pairs : List (Row × Transport)}

theorem transportOf_text (t : Transport) : transportOf (t.text.map Char.toLower) = some t := by
  cases t <;> decide

theorem read_singleSection (h : row.Plain) (t : Transport) :
    l.read (row.singleSection t) =
      { l with
        singles := l.singles.add t (singleHash (singleItem (row, t)).2) (singleItem (row, t)).2 } := by
  have hne : ¬(row.cell2 = [] ∧ row.cell4 = [] ∧ row.enabled = true) := fun hnil => h.1 hnil.1
  simp only [Loaded.read, Row.singleSection, hne, transportOf_text, h.cell2, if_false]
  rfl

theorem read_rangeSection (h : row.Plain) (t : Transport) :
    l.read (row.rangeSection t) =
      { l with
        ranges := l.ranges.add t (rangeHash (rangeItem (row, t)).2) (rangeItem (row, t)).2 } := by
  have hne : row.cell2 ++ '-' :: row.cell3 ≠ [] := by simp
  have hmem : '-' ∈ row.cell2 ++ '-' :: row.cell3 := by simp
  have hsplit : (row.cell2 ++ '-' :: row.cell3).splitOn '-' = [row.cell2, row.cell3] := by
    rw [splitOn_append_cons_self_of_not_mem h.cell2, splitOn_eq_singleton h.cell3]
  simp only [Loaded.read, Row.rangeSection, hne, transportOf_text, hmem, hsplit, if_false, if_true,
    false_and]
  rfl

theorem foldl_read_singles (h : ∀ p ∈ pairs, p.1.Plain) :
    (pairs.map fun p => p.1.singleSection p.2).foldl Loaded.read l =
      { l with singles := l.singles.addAll singleHash (pairs.map singleItem) } := by
  induction pairs generalizing l with
  | nil => rfl
  | cons p pairs ih =>
    rw [map_cons, foldl_cons, read_singleSection (h p mem_cons_self),
      ih fun q hq => h q (mem_cons_of_mem p hq)]
    rfl

theorem foldl_read_ranges (h : ∀ p ∈ pairs, p.1.Plain) :
    (pairs.map fun p => p.1.rangeSection p.2).foldl Loaded.read l =
      { l with ranges := l.ranges.addAll rangeHash (pairs.map rangeItem) } := by
  induction pairs generalizing l with
  | nil => rfl
  | cons p pairs ih =>
    rw [map_cons, foldl_cons, read_rangeSection (h p mem_cons_self),
      ih fun q hq => h q (mem_cons_of_mem p hq)]
    rfl

theorem addAll_append (table : LoadedTable) (hashOf : Row → List Char) (as bs : List Item) :
    (table.addAll hashOf as).addAll hashOf bs = table.addAll hashOf (as ++ bs) :=
  (foldl_append ..).symm

theorem sections_foldl_push (s : Sections) (sectionOf : Transport → Redirect)
    (ts : List Transport) :
    (ts.foldl (fun s t => s.push (sectionOf t)) s).sections.map Prod.snd =
      s.sections.map Prod.snd ++ ts.map sectionOf := by
  induction ts generalizing s with
  | nil => simp
  | cons t ts ih =>
    rw [foldl_cons, ih, Sections.push, map_append, append_assoc]
    rfl

theorem sections_saveRows (s : Sections) (sectionOf : Row → Transport → Redirect)
    (rows : List Row) :
    (s.saveRows sectionOf rows).sections.map Prod.snd =
      s.sections.map Prod.snd ++ (rowProtos rows).map fun p => sectionOf p.1 p.2 := by
  induction rows generalizing s with
  | nil => simp [Sections.saveRows, rowProtos]
  | cons row rows ih =>
    have hstep := ih (row.proto.protos.foldl (fun s t => s.push (sectionOf row t)) s)
    rw [sections_foldl_push s (sectionOf row) row.proto.protos] at hstep
    rw [Sections.saveRows, foldl_cons]
    refine hstep.trans ?_
    rw [rowProtos, rowProtos, flatMap_cons, map_append, map_map, append_assoc]
    rfl

theorem filter_map_section (pairs : List (Row × Transport)) (sectionOf : Row → Transport → Redirect)
    (henabled : ∀ row t, (sectionOf row t).enabled = row.enabled) :
    (pairs.map fun p => sectionOf p.1 p.2).filter (fun r => r.enabled) =
        (pairs.filter fun p => p.1.enabled).map (fun p => sectionOf p.1 p.2) ∧
      (pairs.map fun p => sectionOf p.1 p.2).filter (fun r => !r.enabled) =
        (pairs.filter fun p => !p.1.enabled).map fun p => sectionOf p.1 p.2 := by
  constructor <;> rw [filter_map] <;> congr 1 <;>
    exact List.filter_congr fun p _ => by simp [henabled]

theorem mem_rowProtos {rows : List Row} {p : Row × Transport} :
    p ∈ rowProtos rows ↔ p.1 ∈ rows ∧ p.2 ∈ p.1.proto.protos := by
  rw [rowProtos, mem_flatMap]
  constructor
  · rintro ⟨row, hrow, hp⟩
    obtain ⟨t, ht, rfl⟩ := List.mem_map.1 hp
    exact ⟨hrow, ht⟩
  · rintro ⟨hrow, ht⟩
    exact ⟨p.1, hrow, List.mem_map.2 ⟨p.2, ht, rfl⟩⟩

theorem plain_of_mem_rowProtos {rows : List Row} (h : ∀ row ∈ rows, row.Plain)
    {p : Row × Transport} (hp : p ∈ rowProtos rows) : p.1.Plain :=
  h p.1 (mem_rowProtos.1 hp).1

/-- What a page shows after it has been saved. -/
theorem reload_eq {page : Page} (h : page.Kept) :
    page.reload =
      ⟨(LoadedTable.empty.addAll singleHash
          ((enabledFirst (rowProtos page.singles)).map singleItem)).rows,
        (LoadedTable.empty.addAll rangeHash
          ((enabledFirst (rowProtos page.ranges)).map rangeItem)).rows⟩ := by
  have hsections : (saveChanges page).sections.map Prod.snd =
      ((rowProtos page.singles).map fun p => p.1.singleSection p.2) ++
        (rowProtos page.ranges).map fun p => p.1.rangeSection p.2 := by
    rw [saveChanges, sections_saveRows, sections_saveRows]
    rfl
  have hsingles := fun p hp => plain_of_mem_rowProtos h.singles.plain (p := p) hp
  have hranges := fun p hp => plain_of_mem_rowProtos h.ranges.plain (p := p) hp
  have hfilter : ∀ {ps : List (Row × Transport)} {q : Row × Transport → Bool},
      (∀ p ∈ ps, p.1.Plain) → ∀ p ∈ ps.filter q, p.1.Plain :=
    fun hps p hp => hps p (mem_of_mem_filter hp)
  have hs := filter_map_section (rowProtos page.singles) Row.singleSection fun _ _ => rfl
  have hr := filter_map_section (rowProtos page.ranges) Row.rangeSection fun _ _ => rfl
  rw [Page.reload, hsections, resetData, inReadingOrder, filter_append, filter_append,
    hs.1, hs.2, hr.1, hr.2, foldl_append, foldl_append, foldl_append,
    foldl_read_singles (hfilter hsingles), foldl_read_ranges (hfilter hranges),
    foldl_read_singles (hfilter hsingles), foldl_read_ranges (hfilter hranges)]
  dsimp only
  rw [addAll_append, addAll_append, ← map_append, ← map_append]
  rfl

end Reading

/-! ## The entries that are read -/

structure Reader where
  itemOf : Row × Transport → Item
  hashOf : Row → List Char
  entryOf : Row → Transport → Entry
  /-- Nothing is filled in when the row is read. -/
  Filled : Row → Prop
  transport : ∀ p, (itemOf p).1 = p.2
  proto : ∀ p, (itemOf p).2.proto = p.2.toProto
  cell2 : ∀ p, (itemOf p).2.cell2 = p.1.cell2
  cell3 : ∀ p, (itemOf p).2.cell3 = p.1.cell3
  enabled : ∀ p, (itemOf p).2.enabled = p.1.enabled
  hash_congr : ∀ r s : Row, r.cells = s.cells → hashOf r = hashOf s
  hash_inj : ∀ p q, p.1.Plain → q.1.Plain → hashOf (itemOf p).2 = hashOf (itemOf q).2 →
    (itemOf p).2.cells = (itemOf q).2.cells
  entry_inj : ∀ r s t u,
    entryOf r t = entryOf s u ↔ t = u ∧ r.cells = s.cells ∧ r.enabled = s.enabled
  filled_item : ∀ p, p.1.Plain → Filled (itemOf p).2
  filled_congr : ∀ r s, r.cells = s.cells → Filled r → Filled s
  cells_of_filled : ∀ p, Filled p.1 → (itemOf p).2.cells = p.1.cells

theorem cells_eq_iff {r s : Row} : r.cells = s.cells ↔
    r.name = s.name ∧ r.cell2 = s.cell2 ∧ r.cell3 = s.cell3 ∧ r.cell4 = s.cell4 := by
  simp [Row.cells]

theorem dash_ne_nil (v : List Char) : dash v ≠ [] := by
  rw [dash]
  split_ifs with h
  · exact cons_ne_nil _ _
  · exact h

theorem singleHash_eq (row : Row) : singleHash row =
    ((row.name ++ '-' :: row.cell2) ++ '-' :: row.cell3) ++ '-' :: row.cell4 := by
  simp [singleHash, hashStr]

theorem rangeHash_eq (row : Row) : rangeHash row =
    ((((row.name ++ '-' :: row.cell2) ++ '-' :: row.cell3) ++ '-' :: row.cell4) ++
      '-' :: row.cell2) ++ '-' :: row.cell3 := by
  simp [rangeHash, hashStr]

theorem singleHash_inj {r s : Row} (hr : r.Plain) (hs : s.Plain) (h : singleHash r = singleHash s) :
    r.cells = s.cells := by
  rw [singleHash_eq, singleHash_eq, append_dash_inj hr.cell4 hs.cell4,
    append_dash_inj hr.cell3 hs.cell3, append_dash_inj hr.cell2 hs.cell2] at h
  obtain ⟨⟨⟨h1, h2⟩, h3⟩, h4⟩ := h
  exact cells_eq_iff.2 ⟨h1, h2, h3, h4⟩

theorem rangeHash_inj {r s : Row} (hr : r.Plain) (hs : s.Plain) (h : rangeHash r = rangeHash s) :
    r.cells = s.cells := by
  rw [rangeHash_eq, rangeHash_eq, append_dash_inj hr.cell3 hs.cell3,
    append_dash_inj hr.cell2 hs.cell2, append_dash_inj hr.cell4 hs.cell4,
    append_dash_inj hr.cell3 hs.cell3, append_dash_inj hr.cell2 hs.cell2] at h
  obtain ⟨⟨⟨⟨⟨h1, h2⟩, h3⟩, h4⟩, -⟩, -⟩ := h
  exact cells_eq_iff.2 ⟨h1, h2, h3, h4⟩

theorem plain_singleItem {p : Row × Transport} (h : p.1.Plain) : (singleItem p).2.Plain where
  ne_nil := h.ne_nil
  cell2 := h.cell2
  cell3 := h.cell3
  cell4 := by
    rw [singleItem]
    dsimp only
    split_ifs
    · exact h.cell2
    · exact h.cell4

theorem plain_rangeItem {p : Row × Transport} (h : p.1.Plain) : (rangeItem p).2.Plain :=
  ⟨h.ne_nil, h.cell2, h.cell3, h.cell4⟩

def singleReader : Reader where
  itemOf := singleItem
  hashOf := singleHash
  entryOf := Row.singleEntry
  Filled row := row.name ≠ [] ∧ row.cell4 ≠ []
  transport _ := rfl
  proto _ := rfl
  cell2 _ := rfl
  cell3 _ := rfl
  enabled _ := rfl
  hash_congr r s h := by
    obtain ⟨h1, h2, h3, h4⟩ := cells_eq_iff.1 h
    rw [singleHash, singleHash, h1, h2, h3, h4]
  hash_inj p q hp hq h := singleHash_inj (plain_singleItem hp) (plain_singleItem hq) h
  entry_inj r s t u := by
    rw [cells_eq_iff]
    simp only [Row.singleEntry, Entry.mk.injEq, List.cons.injEq, and_true]
    tauto
  filled_item p hp := by
    refine ⟨dash_ne_nil _, ?_⟩
    rw [singleItem]
    dsimp only
    split_ifs with hnil
    · exact hp.1
    · exact hnil
  filled_congr r s h hr := by
    obtain ⟨h1, -, -, h4⟩ := cells_eq_iff.1 h
    exact ⟨h1 ▸ hr.1, h4 ▸ hr.2⟩
  cells_of_filled p hp := by
    rw [cells_eq_iff]
    exact ⟨if_neg hp.1, rfl, rfl, if_neg hp.2⟩

def rangeReader : Reader where
  itemOf := rangeItem
  hashOf := rangeHash
  entryOf := Row.rangeEntry
  Filled row := row.name ≠ []
  transport _ := rfl
  proto _ := rfl
  cell2 _ := rfl
  cell3 _ := rfl
  enabled _ := rfl
  hash_congr r s h := by
    obtain ⟨h1, h2, h3, h4⟩ := cells_eq_iff.1 h
    rw [rangeHash, rangeHash, h1, h2, h3, h4]
  hash_inj p q hp hq h := rangeHash_inj (plain_rangeItem hp) (plain_rangeItem hq) h
  entry_inj r s t u := by
    rw [cells_eq_iff]
    simp only [Row.rangeEntry, Entry.mk.injEq, List.cons.injEq, and_true]
    tauto
  filled_item p _ := dash_ne_nil _
  filled_congr r s h hr := by
    obtain ⟨h1, -⟩ := cells_eq_iff.1 h
    exact h1 ▸ hr
  cells_of_filled p hp := by
    rw [cells_eq_iff]
    exact ⟨if_neg hp, rfl, rfl, rfl⟩

theorem mem_protos_iff {t : Transport} {p : Proto} : t ∈ p.protos ↔ p.covers t := by
  cases t <;> cases p <;> simp [Proto.protos, Proto.covers]

def Differs (p q : Row × Transport) : Prop :=
  p.2 = q.2 → p.1.cell2 = q.1.cell2 → p.1.cell3 ≠ q.1.cell3

theorem KeptRows.differs {rows : List Row} (h : KeptRows rows) :
    (rowProtos rows).Pairwise Differs := by
  rw [rowProtos, pairwise_flatMap]
  constructor
  · intro row _
    rw [pairwise_map]
    refine List.Pairwise.imp (fun hne heq => absurd heq hne) (?_ : row.proto.protos.Nodup)
    cases row.proto <;> decide
  · refine h.apart.imp fun {r s} happart p hp q hq ht h2 h3 => ?_
    obtain ⟨t, hpt, rfl⟩ := List.mem_map.1 hp
    obtain ⟨u, hqu, rfl⟩ := List.mem_map.1 hq
    obtain rfl : t = u := ht
    refine happart t (textsCode r.cell2 r.cell3) ⟨mem_protos_iff.1 hpt, rfl⟩
      ⟨mem_protos_iff.1 hqu, ?_⟩
    exact textsCode_inj.2 ⟨h2, h3⟩

namespace Reader

variable (R : Reader) {rows : List Row}

def items (rows : List Row) : List Item := (enabledFirst (rowProtos rows)).map R.itemOf

def loaded (rows : List Row) : LoadedTable := LoadedTable.empty.addAll R.hashOf (R.items rows)

def entries (rows : List Row) : List Entry := (rowProtos rows).map fun p => R.entryOf p.1 p.2

theorem mem_items {i : Item} : i ∈ R.items rows ↔ ∃ p ∈ rowProtos rows, R.itemOf p = i := by
  have hperm := filter_append_perm (fun p : Row × Transport => p.1.enabled) (rowProtos rows)
  rw [items, mem_map]
  exact exists_congr fun p => and_congr_left' hperm.mem_iff

theorem mem_entries {e : Entry} :
    e ∈ R.entries rows ↔ ∃ row ∈ rows, ∃ t ∈ row.proto.protos, R.entryOf row t = e := by
  rw [entries, mem_map]
  constructor
  · rintro ⟨p, hp, rfl⟩
    exact ⟨p.1, (mem_rowProtos.1 hp).1, p.2, (mem_rowProtos.1 hp).2, rfl⟩
  · rintro ⟨row, hrow, t, ht, rfl⟩
    exact ⟨(row, t), mem_rowProtos.2 ⟨hrow, ht⟩, rfl⟩

/-- The sections of kept rows can be read. -/
theorem readable (h : KeptRows rows) : Readable R.hashOf (R.items rows) where
  proto i hi := by
    obtain ⟨p, -, rfl⟩ := R.mem_items.1 hi
    rw [R.proto, R.transport]
  fresh := by
    have hperm := filter_append_perm (fun p : Row × Transport => p.1.enabled) (rowProtos rows)
    rw [items, pairwise_map]
    refine List.Pairwise.imp (R := Differs) (fun {p q} hdiffers ht hcells => ?_) ?_
    · rw [R.transport, R.transport] at ht
      obtain ⟨-, h2, h3, -⟩ := cells_eq_iff.1 hcells
      rw [R.cell2, R.cell2] at h2
      rw [R.cell3, R.cell3] at h3
      exact hdiffers ht h2 h3
    · refine (hperm.pairwise_iff fun {p q} hdiffers ht h2 h3 => ?_).2 h.differs
      exact hdiffers ht.symm h2.symm h3.symm
  hash i hi j hj hhash := by
    obtain ⟨p, hp, rfl⟩ := R.mem_items.1 hi
    obtain ⟨q, hq, rfl⟩ := R.mem_items.1 hj
    exact R.hash_inj p q (plain_of_mem_rowProtos h.plain hp) (plain_of_mem_rowProtos h.plain hq)
      hhash
  ordered := by
    rw [items, pairwise_map, enabledFirst, pairwise_append]
    have hfirst : ∀ p ∈ (rowProtos rows).filter (fun p => p.1.enabled), p.1.enabled = true :=
      fun p hp => (List.mem_filter.1 hp).2
    have hlast : ∀ p ∈ (rowProtos rows).filter (fun p => !p.1.enabled), ¬p.1.enabled = true :=
      fun p hp => by simpa using (List.mem_filter.1 hp).2
    refine ⟨?_, ?_, fun p hp q _ _ => (R.enabled p).trans (hfirst p hp)⟩
    · exact pairwise_of_forall_mem_list fun p hp q _ _ => (R.enabled p).trans (hfirst p hp)
    · exact pairwise_of_forall_mem_list fun p _ q hq henabled =>
        absurd ((R.enabled q).symm.trans henabled) (hlast q hq)

theorem tracks (h : KeptRows rows) : Tracks R.hashOf (R.items rows) (R.loaded rows) := by
  have hall := (tracks_empty R.hashOf).addAll R.hash_congr (R.readable h)
  rw [nil_append] at hall
  exact hall

theorem enabled_of_together (h : KeptRows rows) (htogether : EnabledTogether rows) {r s : Row}
    (hr : r ∈ rows) (hs : s ∈ rows) (hcells : r.cells = s.cells) : r.enabled = s.enabled := by
  by_cases heq : r = s
  · rw [heq]
  · have hsymm : Std.Symm fun r s : Row =>
        Apart (forwardsOf (fun a b n => n = textsCode a b) r)
          (forwardsOf (fun a b n => n = textsCode a b) s) := ⟨fun _ _ h => h.symm⟩
    have happart := h.apart.forall hr hs heq
    obtain ⟨-, h2, h3, -⟩ := cells_eq_iff.1 hcells
    have hnot : ∀ t, r.proto.covers t → ¬s.proto.covers t := fun t hrt hst =>
      happart t (textsCode r.cell2 r.cell3) ⟨hrt, rfl⟩ ⟨hst, textsCode_inj.2 ⟨h2, h3⟩⟩
    cases hpr : r.proto with
    | tcp =>
      cases hps : s.proto with
      | tcp => exact absurd (hps ▸ rfl) (hnot .tcp (hpr ▸ rfl))
      | udp => exact htogether r hr s hs hpr hps hcells
      | both => exact absurd (hps ▸ trivial) (hnot .tcp (hpr ▸ rfl))
    | udp =>
      cases hps : s.proto with
      | tcp => exact (htogether s hs r hr hps hpr hcells.symm).symm
      | udp => exact absurd (hps ▸ rfl) (hnot .udp (hpr ▸ rfl))
      | both => exact absurd (hps ▸ trivial) (hnot .udp (hpr ▸ rfl))
    | both =>
      obtain ⟨t, ht⟩ := exists_covers s.proto
      exact absurd ht (hnot t (hpr ▸ trivial))

/-- The loaded rows forward what the rows did. -/
theorem mem_entries_loaded (h : KeptRows rows) (hfilled : ∀ row ∈ rows, R.Filled row)
    (htogether : EnabledTogether rows) (e : Entry) :
    e ∈ R.entries (R.loaded rows).rows ↔ e ∈ R.entries rows := by
  have htracks := R.tracks h
  -- A row that is read and a row that was saved are the same forward and are enabled together.
  have hsame : ∀ r ∈ (R.loaded rows).rows, ∀ s ∈ rows, r.cells = s.cells →
      r.enabled = s.enabled := by
    intro r hr s hs hcells
    obtain ⟨t, ht⟩ := exists_mem_protos s.proto
    have hitem : R.itemOf (s, t) ∈ R.items rows :=
      R.mem_items.2 ⟨(s, t), mem_rowProtos.2 ⟨hs, ht⟩, rfl⟩
    rw [Bool.eq_iff_iff, htracks.enabled r hr]
    constructor
    · rintro ⟨i, hi, heq, henabled⟩
      obtain ⟨p, hp, rfl⟩ := R.mem_items.1 hi
      have hp' := (mem_rowProtos.1 hp).1
      rw [R.cells_of_filled p (hfilled p.1 hp')] at heq
      rw [R.enabled] at henabled
      exact (enabled_of_together h htogether hp' hs (heq.trans hcells)).symm.trans henabled
    · intro henabled
      refine ⟨_, hitem, ?_, (R.enabled _).trans henabled⟩
      rw [R.cells_of_filled _ (hfilled s hs)]
      exact hcells.symm
  rw [R.mem_entries, R.mem_entries]
  constructor
  · rintro ⟨r, hr, t, ht, rfl⟩
    obtain ⟨i, hi, hproto, hcells⟩ := htracks.covered r hr t ht
    obtain ⟨p, hp, rfl⟩ := R.mem_items.1 hi
    obtain ⟨hp', hprotos⟩ := mem_rowProtos.1 hp
    rw [R.cells_of_filled p (hfilled p.1 hp')] at hcells
    rw [R.transport] at hproto
    exact ⟨p.1, hp', p.2, hprotos, (R.entry_inj _ _ _ _).2
      ⟨hproto, hcells, (hsame r hr p.1 hp' hcells.symm).symm⟩⟩
  · rintro ⟨s, hs, t, ht, rfl⟩
    obtain ⟨r, hr, hproto, hcells⟩ := htracks.covers (R.itemOf (s, t))
      (R.mem_items.2 ⟨(s, t), mem_rowProtos.2 ⟨hs, ht⟩, rfl⟩)
    rw [R.cells_of_filled _ (hfilled s hs)] at hcells
    rw [R.transport] at hproto
    exact ⟨r, hr, t, hproto, (R.entry_inj _ _ _ _).2
      ⟨rfl, hcells.symm, hsame r hr s hs hcells.symm⟩⟩

/-- What has come back was filled and enabled together. -/
theorem filled_and_together (h : KeptRows rows)
    (hkept : ∀ e ∈ R.entries rows, e ∈ R.entries (R.loaded rows).rows) :
    (∀ row ∈ rows, R.Filled row) ∧ EnabledTogether rows := by
  have htracks := R.tracks h
  have hread : ∀ s ∈ rows, ∀ t ∈ s.proto.protos, ∃ r ∈ (R.loaded rows).rows,
      t ∈ r.proto.protos ∧ r.cells = s.cells ∧ r.enabled = s.enabled := by
    intro s hs t ht
    obtain ⟨r, hr, u, hu, heq⟩ :=
      R.mem_entries.1 (hkept _ (R.mem_entries.2 ⟨s, hs, t, ht, rfl⟩))
    obtain ⟨rfl, hcells, henabled⟩ := (R.entry_inj _ _ _ _).1 heq
    exact ⟨r, hr, hu, hcells, henabled⟩
  have hfilled : ∀ row ∈ rows, R.Filled row := by
    intro s hs
    obtain ⟨t, ht⟩ := exists_mem_protos s.proto
    obtain ⟨r, hr, hu, hcells, -⟩ := hread s hs t ht
    obtain ⟨i, hi, -, hcells'⟩ := htracks.covered r hr t hu
    obtain ⟨p, hp, rfl⟩ := R.mem_items.1 hi
    exact R.filled_congr _ _ (hcells'.trans hcells)
      (R.filled_item p (plain_of_mem_rowProtos h.plain hp))
  -- An enabled section enables every row that is read for its forward.
  have henables : ∀ r ∈ rows, ∀ s ∈ rows, r.cells = s.cells → r.enabled = true →
      s.enabled = true := by
    intro r hr s hs hcells henabled
    obtain ⟨t, ht⟩ := exists_mem_protos r.proto
    obtain ⟨u, hu⟩ := exists_mem_protos s.proto
    obtain ⟨row, hrow, -, hcells', henabled'⟩ := hread s hs u hu
    rw [← henabled', htracks.enabled row hrow]
    refine ⟨R.itemOf (r, t), R.mem_items.2 ⟨(r, t), mem_rowProtos.2 ⟨hr, ht⟩, rfl⟩, ?_,
      (R.enabled _).trans henabled⟩
    rw [R.cells_of_filled _ (hfilled r hr)]
    exact hcells.trans hcells'.symm
  refine ⟨hfilled, fun r hr s hs _ _ hcells => ?_⟩
  rw [Bool.eq_iff_iff]
  exact ⟨henables r hr s hs hcells, henables s hs r hr hcells.symm⟩

end Reader

/-- From empty tables on: saving and reloading the page keeps the entries of the tables exactly when
no description and no target port is empty and the rows for the same forward are enabled together. -/
theorem reload_entries_iff (actions : List Action) :
    (∀ e, e ∈ (Page.empty.run actions).reload.entries ↔ e ∈ (Page.empty.run actions).entries) ↔
      (Page.empty.run actions).Savable := by
  have hkept := kept_empty.run actions
  generalize Page.empty.run actions = page at hkept ⊢
  have hreload : page.reload.entries =
      singleReader.entries (singleReader.loaded page.singles).rows ++
        rangeReader.entries (rangeReader.loaded page.ranges).rows := by
    rw [reload_eq hkept]
    rfl
  have hpage : page.entries =
      singleReader.entries page.singles ++ rangeReader.entries page.ranges := rfl
  -- An entry of a single port has one external port, and one of a range has two.
  have hone : ∀ {rows : List Row} {e : Entry}, e ∈ singleReader.entries rows →
      e.externalPorts.length = 1 := by
    intro rows e he
    obtain ⟨row, -, t, -, rfl⟩ := singleReader.mem_entries.1 he
    rfl
  have htwo : ∀ {rows : List Row} {e : Entry}, e ∈ rangeReader.entries rows →
      e.externalPorts.length = 2 := by
    intro rows e he
    obtain ⟨row, -, t, -, rfl⟩ := rangeReader.mem_entries.1 he
    rfl
  rw [hreload, hpage]
  simp only [mem_append]
  constructor
  · intro hall
    have hsingles := singleReader.filled_and_together hkept.singles fun e he =>
      ((hall e).2 (.inl he)).resolve_right fun h => by
        have := (hone he).symm.trans (htwo h)
        omega
    have hranges := rangeReader.filled_and_together hkept.ranges fun e he =>
      ((hall e).2 (.inr he)).resolve_left fun h => by
        have := (htwo he).symm.trans (hone h)
        omega
    exact ⟨hsingles.1, hranges.1, hsingles.2, hranges.2⟩
  · intro hsavable e
    rw [singleReader.mem_entries_loaded hkept.singles hsavable.singles hsavable.singlesTogether,
      rangeReader.mem_entries_loaded hkept.ranges hsavable.ranges hsavable.rangesTogether]

def disabledTwin : List Action :=
  [.addPortfRule (exampleForward .tcp ['8', '0']),
    .addPortfRule ⟨[], .udp, ['8', '0'], "192.168.1.3".toList, []⟩,
    .editSingle 1 ⟨['-'], .udp, ['8', '0'], "192.168.1.2".toList, ['8', '0']⟩, .toggleSingle 1]

/-- The disabled forward is enabled by saving the page. -/
theorem reload_disabledTwin :
    (⟨['-'], .udp, [['8', '0']], "192.168.1.2".toList, [['8', '0']], false⟩ : Entry) ∈
        (Page.empty.run disabledTwin).entries ∧
      (⟨['-'], .udp, [['8', '0']], "192.168.1.2".toList, [['8', '0']], true⟩ : Entry) ∉
        (Page.empty.run disabledTwin).entries ∧
      (⟨['-'], .udp, [['8', '0']], "192.168.1.2".toList, [['8', '0']], true⟩ : Entry) ∈
        (Page.empty.run disabledTwin).reload.entries := by
  decide

end PortForwarding

end Web

end Gargoyle
