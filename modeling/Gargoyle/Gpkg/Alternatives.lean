import Gargoyle.Bandwidth.ReferenceKernel
import Gargoyle.Data.Signed
import Gargoyle.Gpkg.AddPackage

/-!
# Alternatives

An alternative is a text `priority:path:target`. For every entry of a list,
`update_alternatives` goes over the entries for its path in all packages and makes the path
a link to the target of one of them. The entry it takes is compared with the priority of its
own entry and not with the best one so far, and a package that is not installed counts as
well, since its status contains the one of those that are. If there is no entry the link is
to be removed, but then the path is used after it has been freed.

Of the files the model has what is at a path: nothing, a link, or something else. Making a
directory or a link does not fail.
-/

namespace Gargoyle

open Function (update update_of_ne update_self)

open List

namespace Gpkg

open Bandwidth
open Timerange (splitOnSeparators)

/-! ## Entries -/

structure AltEntry where
  prio : List Char
  path : List Char
  altpath : List Char
  deriving DecidableEq

/-- `split_on_separators` at colons; `none` if there are not three parts. -/
def altParts (text : String) : Option AltEntry :=
  match splitOnSeparators text.toList [':'] 3 false with
  | [prio, path, altpath] => some ⟨prio, path, altpath⟩
  | _ => none

structure Alternative where
  text : String
  entry : AltEntry
  parts : altParts text = some entry

section Update

variable [Kernel]

/-- `atoi`: what `strtol` reads, cut to 32 bits. -/
def atoi (s : List Char) : ℤ := ((Signed.scanSigned Kernel.ulongBits s).getD 0).bmod (2 ^ 32)

structure AltUniverse [Kernel] where
  data : PackageData
  alternatives : PackageRef → List String

/-- An order in which the packages are visited, and the entries of each. -/
structure AltUniverse.Order (u : AltUniverse) where
  names : List String
  names_perm : names ~ u.data.packages.keys
  entries : PackageRef → List String
  entries_perm : ∀ r, entries r ~ u.alternatives r

/-! ## The choice of an entry -/

def countsAsInstalled (status : String) : Bool :=
  contains "installed" status && !contains "deinstall" status

def AltUniverse.visited (u : AltUniverse) (considerUninstalled name : String) :
    Option PackageRef := do
  let found ← getPackageCurrentOrLatest u.data 2 name
  let r ← found.ret
  let i ← u.data.info r
  if i.status.any countsAsInstalled ∧ name ≠ considerUninstalled then some r else none

/-- An entry of a package that counts. It is compared with the entry `own`. -/
def considerEntry (own : AltEntry) (best : Option AltEntry) (text : String) : Option AltEntry :=
  match altParts text with
  | some installed =>
    if own.path = installed.path then
      if best = none ∨ atoi own.prio < atoi installed.prio then some installed else best
    else best
  | none => best

def AltUniverse.bestEntry (u : AltUniverse) (o : u.Order) (considerUninstalled : String)
    (own : AltEntry) : Option AltEntry :=
  o.names.foldl (fun best name =>
    match u.visited considerUninstalled name with
    | some r => (o.entries r).foldl (considerEntry own) best
    | none => best) none

/-! ## Links -/

inductive PathNode
  | symlink (target : List Char)
  | other
  deriving DecidableEq

structure AltState where
  fs : List Char → Option PathNode
  warn : Bool

def place (root path : List Char) : List Char :=
  root ++ if path.head? = some '/' then path.tail else path

def linkEntry (root : List Char) (s : AltState) (best : AltEntry) : AltState :=
  let symlinkpath := place root best.path
  let linktargetpath := place root best.altpath
  match s.fs symlinkpath with
  | some .other => { s with warn := true }
  | some (.symlink realpath) =>
    if realpath ≠ linktargetpath then
      { s with fs := update s.fs symlinkpath (some (.symlink linktargetpath)) }
    else s
  | none => { s with fs := update s.fs symlinkpath (some (.symlink linktargetpath)) }

/-- A round of `update_alternatives`, or nothing when what it does is undefined. -/
def AltUniverse.updateEntry (u : AltUniverse) (o : u.Order) (considerUninstalled : String)
    (root : List Char) (s : AltState) (alt : Alternative) : Option AltState :=
  match u.bestEntry o considerUninstalled alt.entry with
  | some best => some (linkEntry root s best)
  -- `pkg_alt_path`, whose link is to be removed, has been freed with `alt_parts`
  | none => none

/-- `update_alternatives`, for a list of alternatives of three parts. -/
def AltUniverse.updateAlternatives (u : AltUniverse) (o : u.Order)
    (pkgAlternatives : List Alternative) (linkRoot : Option (List Char)) (overlayRoot : List Char)
    (considerUninstalled : String) (fs : List Char → Option PathNode) : Option AltState :=
  pkgAlternatives.foldlM (u.updateEntry o considerUninstalled (linkRoot.getD overlayRoot))
    ⟨fs, false⟩

/-! ## What is asked for -/

def AltUniverse.entriesFor (u : AltUniverse) (path : List Char) (versions : List PackageRef) :
    List AltEntry :=
  ((versions.flatMap u.alternatives).filterMap altParts).filter fun c => path = c.path

def AltUniverse.counted (u : AltUniverse) (considerUninstalled : String) : List PackageRef :=
  u.data.packages.keys.filterMap (u.visited considerUninstalled)

def AltUniverse.notInstalled (u : AltUniverse) (r : PackageRef) : Bool :=
  (u.data.info r).any fun i => i.status.any (contains "not-installed")

def AltUniverse.eligible (u : AltUniverse) (considerUninstalled : String) (path : List Char) :
    List AltEntry :=
  u.entriesFor path ((u.counted considerUninstalled).filter fun r => !u.notInstalled r)

def AltUniverse.IsGreatest (u : AltUniverse) (considerUninstalled : String)
    (root path target : List Char) : Prop :=
  ∃ c ∈ u.eligible considerUninstalled path,
    (∀ d ∈ u.eligible considerUninstalled path, atoi d.prio ≤ atoi c.prio) ∧
      place root c.altpath = target

def AltUniverse.Right (u : AltUniverse) (considerUninstalled : String) (root : List Char)
    (fs : List Char → Option PathNode) (path : List Char) : Prop :=
  (u.eligible considerUninstalled path ≠ [] → ∃ target,
    fs (place root path) = some (.symlink target) ∧
      u.IsGreatest considerUninstalled root path target) ∧
  (u.eligible considerUninstalled path = [] → ∀ target,
    fs (place root path) ≠ some (.symlink target))

/-- An entry for the path of `own` of a version that counts. Its priority is above that of
`own`, or none is. -/
structure AltUniverse.MayWin (u : AltUniverse) (considerUninstalled : String)
    (own c : AltEntry) : Prop where
  mem : c ∈ u.entriesFor own.path (u.counted considerUninstalled)
  above : atoi own.prio < atoi c.prio ∨
    ∀ d ∈ u.entriesFor own.path (u.counted considerUninstalled), atoi d.prio ≤ atoi own.prio

/-- What is to hold of `own`, the last alternative for the place of a path. -/
structure AltUniverse.Settles (u : AltUniverse) (considerUninstalled : String)
    (root : List Char) (fs : List Char → Option PathNode) (own : AltEntry) (path : List Char) :
    Prop where
  blocked : fs (place root path) = some .other → u.eligible considerUninstalled path = []
  free : fs (place root path) ≠ some .other → ∀ c, u.MayWin considerUninstalled own c →
    u.IsGreatest considerUninstalled root path (place root c.altpath)

/-! ## The loops -/

/-- Of some entries, the last one whose priority is above that of `own`, or the first one. -/
def pickedFrom (own : AltEntry) (cs : List AltEntry) : Option AltEntry :=
  ((cs.filter fun c => atoi own.prio < atoi c.prio).getLast?).or cs.head?

section Picks

variable {own c : AltEntry} {cs : List AltEntry}

theorem pickedFrom_isSome_iff (own : AltEntry) : (pickedFrom own cs).isSome ↔ cs ≠ [] := by
  cases cs <;> simp [pickedFrom]

theorem mem_of_pickedFrom (h : pickedFrom own cs = some c) :
    c ∈ cs ∧ (atoi own.prio < atoi c.prio ∨ ∀ d ∈ cs, atoi d.prio ≤ atoi own.prio) := by
  rcases Option.or_eq_some_iff.1 h with hlast | ⟨hnone, hhead⟩
  · obtain ⟨hmem, habove⟩ := List.mem_filter.1 (mem_of_getLast? hlast)
    exact ⟨hmem, .inl (of_decide_eq_true habove)⟩
  · refine ⟨mem_of_mem_head? hhead, .inr fun d hd => not_lt.1 fun hlt => ?_⟩
    exact not_mem_nil (getLast?_eq_none_iff.1 hnone ▸ mem_filter.2 ⟨hd, decide_eq_true hlt⟩)

theorem pickedFrom_concat (h : atoi own.prio < atoi c.prio) :
    pickedFrom own (cs ++ [c]) = some c := by
  rw [pickedFrom, filter_append, filter_cons_of_pos (by simpa using h), filter_nil,
    getLast?_concat, Option.some_or]

theorem pickedFrom_cons (h : ∀ d ∈ c :: cs, atoi d.prio ≤ atoi own.prio) :
    pickedFrom own (c :: cs) = some c := by
  have hnil : (c :: cs).filter (fun d => atoi own.prio < atoi d.prio) = [] :=
    filter_eq_nil_iff.2 fun d hd => by simpa using h d hd
  rw [pickedFrom, hnil]
  rfl

theorem foldl_better_eq (own : AltEntry) (cs : List AltEntry) :
    cs.foldl (fun best c => if best = none ∨ atoi own.prio < atoi c.prio then some c else best)
      none = pickedFrom own cs := by
  induction cs using List.reverseRecOn with
  | nil => rfl
  | append_singleton cs c ih =>
    rw [foldl_append, foldl_cons, foldl_nil, ih]
    by_cases hc : atoi own.prio < atoi c.prio
    · rw [if_pos (Or.inr hc), pickedFrom_concat hc]
    · rw [pickedFrom, pickedFrom, filter_append, filter_cons_of_neg (by simpa using hc), filter_nil,
        List.append_nil]
      cases cs with
      | nil => simp
      | cons d ds =>
        have hsome : (((d :: ds).filter fun c => atoi own.prio < atoi c.prio).getLast?).or
            (d :: ds).head? ≠ none := by
          rw [head?_cons, ne_eq, Option.or_eq_none_iff, not_and]
          exact fun _ h => nomatch h
        rw [if_neg fun h => h.elim hsome hc, cons_append, head?_cons, head?_cons]

end Picks

section Loops

variable (u : AltUniverse) (considerUninstalled : String) (own : AltEntry)

theorem foldl_considerEntry (texts : List String) (best : Option AltEntry) :
    texts.foldl (considerEntry own) best =
      ((texts.filterMap altParts).filter fun c => own.path = c.path).foldl
        (fun best c => if best = none ∨ atoi own.prio < atoi c.prio then some c else best) best := by
  induction texts generalizing best with
  | nil => rfl
  | cons text texts ih =>
    rw [foldl_cons, ih, considerEntry]
    cases hparts : altParts text with
    | none => rw [filterMap_cons_none hparts]
    | some c =>
      rw [filterMap_cons_some hparts]
      by_cases hpath : own.path = c.path
      · rw [filter_cons_of_pos (by simpa using hpath), foldl_cons]
        simp only [if_pos hpath]
      · rw [filter_cons_of_neg (by simpa using hpath)]
        simp only [if_neg hpath]

/-- The texts that are visited. -/
def AltUniverse.texts (o : u.Order) : List String :=
  (o.names.filterMap (u.visited considerUninstalled)).flatMap o.entries

theorem foldl_visited (o : u.Order) (names : List String) (best : Option AltEntry) :
    names.foldl (fun best name =>
      match u.visited considerUninstalled name with
      | some r => (o.entries r).foldl (considerEntry own) best
      | none => best) best =
      ((names.filterMap (u.visited considerUninstalled)).flatMap o.entries).foldl
        (considerEntry own) best := by
  induction names generalizing best with
  | nil => rfl
  | cons name names ih =>
    rw [foldl_cons, ih]
    cases hvisited : u.visited considerUninstalled name with
    | none => rw [filterMap_cons_none hvisited]
    | some r => rw [filterMap_cons_some hvisited, flatMap_cons, foldl_append]

/-- The entries for a path that are visited. -/
def AltUniverse.candidates (o : u.Order) (path : List Char) : List AltEntry :=
  ((u.texts considerUninstalled o).filterMap altParts).filter fun c => path = c.path

theorem bestEntry_eq (o : u.Order) : u.bestEntry o considerUninstalled own =
    pickedFrom own (u.candidates considerUninstalled o own.path) := by
  rw [AltUniverse.bestEntry, foldl_visited, foldl_considerEntry, foldl_better_eq]
  rfl

theorem candidates_perm (o : u.Order) (path : List Char) :
    u.candidates considerUninstalled o path ~ u.entriesFor path (u.counted considerUninstalled) := by
  have htexts : u.texts considerUninstalled o ~
      (u.counted considerUninstalled).flatMap u.alternatives :=
    ((o.names_perm.filterMap _).flatMap_right _).trans
      (Perm.flatMap_left _ fun r _ => o.entries_perm r)
  exact (htexts.filterMap _).filter _

theorem candidates_ne_nil_iff (o : u.Order) (path : List Char) :
    u.candidates considerUninstalled o path ≠ [] ↔
      u.entriesFor path (u.counted considerUninstalled) ≠ [] := by
  rw [← length_pos_iff, ← length_pos_iff, (candidates_perm u considerUninstalled o path).length_eq]

/-! ### An order in which an entry is taken -/

variable {u considerUninstalled own}

theorem mayWin_of_bestEntry {o : u.Order} {c : AltEntry}
    (h : u.bestEntry o considerUninstalled own = some c) :
    u.MayWin considerUninstalled own c ∧ c.path = own.path := by
  rw [bestEntry_eq] at h
  obtain ⟨hmem, habove⟩ := mem_of_pickedFrom h
  have hperm := candidates_perm u considerUninstalled o own.path
  refine ⟨⟨hperm.mem_iff.1 hmem, habove.imp_right fun hnone d hd => ?_⟩, ?_⟩
  · exact hnone d (hperm.mem_iff.2 hd)
  · exact (of_decide_eq_true (List.mem_filter.1 hmem).2).symm

/-- The package `name` and its entry `text` come first or last. -/
def AltUniverse.orderWith (u : AltUniverse) (name : String) (r : PackageRef) (text : String)
    (atEnd : Bool) (hname : name ∈ u.data.packages.keys) (htext : text ∈ u.alternatives r) :
    u.Order where
  names :=
    if atEnd then u.data.packages.keys.erase name ++ [name]
    else name :: u.data.packages.keys.erase name
  names_perm := by
    split_ifs
    · exact (perm_append_singleton _ _).trans (perm_cons_erase hname).symm
    · exact (perm_cons_erase hname).symm
  entries := update u.alternatives r
    (if atEnd then (u.alternatives r).erase text ++ [text]
    else text :: (u.alternatives r).erase text)
  entries_perm q := by
    by_cases hq : q = r
    · rw [hq, update_self]
      split_ifs
      · exact (perm_append_singleton _ _).trans (perm_cons_erase htext).symm
      · exact (perm_cons_erase htext).symm
    · rw [update_of_ne hq]

/-- Each entry that may win does so in some order. -/
theorem exists_order_of_mayWin {c : AltEntry} (h : u.MayWin considerUninstalled own c) :
    ∃ o : u.Order, u.bestEntry o considerUninstalled own = some c := by
  obtain ⟨hmem, hpath⟩ := List.mem_filter.1 h.mem
  obtain ⟨text, htext, hparts⟩ := List.mem_filterMap.1 hmem
  obtain ⟨r, hr, hentry⟩ := List.mem_flatMap.1 htext
  obtain ⟨name, hname, hvisited⟩ := List.mem_filterMap.1 hr
  rcases h.above with habove | hnone
  · refine ⟨u.orderWith name r text true hname hentry, ?_⟩
    rw [bestEntry_eq, AltUniverse.candidates, AltUniverse.texts]
    simp only [AltUniverse.orderWith, if_true, filterMap_append, flatMap_append, filterMap_cons,
      hvisited, filterMap_nil, flatMap_cons, flatMap_nil, update_self, List.append_nil,
      filter_append, hparts, filter_cons, hpath, filter_nil, ← append_assoc]
    exact pickedFrom_concat habove
  · refine ⟨u.orderWith name r text false hname hentry, ?_⟩
    have hcs : u.candidates considerUninstalled (u.orderWith name r text false hname hentry)
        own.path = c :: (u.candidates considerUninstalled
          (u.orderWith name r text false hname hentry) own.path).tail := by
      rw [AltUniverse.candidates, AltUniverse.texts]
      simp only [AltUniverse.orderWith, Bool.false_eq_true, if_false, filterMap_cons, hvisited,
        flatMap_cons, update_self, cons_append, hparts, filter_cons, hpath, if_true, tail_cons]
    rw [bestEntry_eq, hcs]
    refine pickedFrom_cons fun d hd => ?_
    rw [← hcs] at hd
    exact hnone d ((candidates_perm u considerUninstalled _ own.path).mem_iff.1 hd)

end Loops

/-! ## Rounds -/

section Rounds

variable {u : AltUniverse} {o : u.Order} {considerUninstalled : String} {root : List Char}

omit [Kernel] in
theorem linkEntry_fs (s : AltState) (best : AltEntry) :
    (linkEntry root s best).fs =
      if s.fs (place root best.path) = some .other then s.fs
      else update s.fs (place root best.path)
        (some (.symlink (place root best.altpath))) := by
  rw [linkEntry]
  cases hnode : s.fs (place root best.path) with
  | none => simp only [reduceCtorEq, if_false]
  | some node =>
    cases node with
    | other => simp only [if_true]
    | symlink realpath =>
      simp only [Option.some.injEq, reduceCtorEq, if_false]
      split_ifs with hreal
      · rfl
      · rw [← not_not.1 hreal, ← hnode, Function.update_eq_self]

/-- What a round can do. -/
theorem updateEntry_eq_some_iff {s s' : AltState} {alt : Alternative} :
    u.updateEntry o considerUninstalled root s alt = some s' ↔
      ∃ best, u.bestEntry o considerUninstalled alt.entry = some best ∧
        s' = linkEntry root s best := by
  rw [AltUniverse.updateEntry]
  cases u.bestEntry o considerUninstalled alt.entry with
  | none => simp
  | some best => simp [eq_comm]

theorem updateEntry_other_iff {s s' : AltState} {alt : Alternative}
    (h : u.updateEntry o considerUninstalled root s alt = some s') (p : List Char) :
    s'.fs p = some .other ↔ s.fs p = some .other := by
  obtain ⟨best, -, rfl⟩ := updateEntry_eq_some_iff.1 h
  rw [linkEntry_fs]
  split_ifs with hother
  · rfl
  · by_cases hp : p = place root best.path
    · simp [hp, hother]
    · rw [update_of_ne hp]

theorem updateEntry_of_ne {s s' : AltState} {alt : Alternative}
    (h : u.updateEntry o considerUninstalled root s alt = some s') {p : List Char}
    (hplace : place root alt.entry.path ≠ p) : s'.fs p = s.fs p := by
  obtain ⟨best, hbest, rfl⟩ := updateEntry_eq_some_iff.1 h
  rw [← (mayWin_of_bestEntry hbest).2] at hplace
  rw [linkEntry_fs]
  split_ifs
  · rfl
  · rw [update_of_ne hplace.symm]

theorem updateEntry_self {s s' : AltState} {alt : Alternative} {best : AltEntry}
    (h : u.updateEntry o considerUninstalled root s alt = some s')
    (hbest : u.bestEntry o considerUninstalled alt.entry = some best)
    (hfree : s.fs (place root alt.entry.path) ≠ some .other) :
    s'.fs (place root alt.entry.path) = some (.symlink (place root best.altpath)) := by
  obtain ⟨other, hother, rfl⟩ := updateEntry_eq_some_iff.1 h
  obtain rfl : best = other := Option.some.inj (hbest.symm.trans hother)
  rw [← (mayWin_of_bestEntry hbest).2] at hfree ⊢
  rw [linkEntry_fs, if_neg hfree, update_self]

/-! ## Runs -/

def AltUniverse.rounds (u : AltUniverse) (o : u.Order) (considerUninstalled : String)
    (root : List Char) (s : AltState) (alts : List Alternative) : Option AltState :=
  alts.foldlM (u.updateEntry o considerUninstalled root) s

theorem rounds_isSome_iff {s : AltState} {alts : List Alternative} :
    (u.rounds o considerUninstalled root s alts).isSome ↔
      ∀ alt ∈ alts, u.entriesFor alt.entry.path (u.counted considerUninstalled) ≠ [] := by
  induction alts generalizing s with
  | nil => simp [AltUniverse.rounds]
  | cons alt alts ih =>
    rw [forall_mem_cons, ← candidates_ne_nil_iff u considerUninstalled o,
      ← pickedFrom_isSome_iff alt.entry, ← bestEntry_eq, AltUniverse.rounds, foldlM_cons,
      AltUniverse.updateEntry]
    cases u.bestEntry o considerUninstalled alt.entry with
    | none => simp
    | some best => simpa [AltUniverse.rounds] using ih

theorem rounds_other_iff {s s' : AltState} {alts : List Alternative}
    (h : u.rounds o considerUninstalled root s alts = some s') (p : List Char) :
    s'.fs p = some .other ↔ s.fs p = some .other := by
  induction alts generalizing s with
  | nil =>
    obtain rfl := Option.some.inj h
    rfl
  | cons alt alts ih =>
    obtain ⟨t, ht, hrest⟩ := Option.bind_eq_some_iff.1 h
    exact (ih hrest).trans (updateEntry_other_iff ht p)

theorem rounds_of_ne {s s' : AltState} {alts : List Alternative}
    (h : u.rounds o considerUninstalled root s alts = some s') {p : List Char}
    (hplace : ∀ alt ∈ alts, place root alt.entry.path ≠ p) : s'.fs p = s.fs p := by
  induction alts generalizing s with
  | nil =>
    obtain rfl := Option.some.inj h
    rfl
  | cons alt alts ih =>
    obtain ⟨hfirst, hrest⟩ := List.forall_mem_cons.1 hplace
    obtain ⟨t, ht, hrounds⟩ := Option.bind_eq_some_iff.1 h
    exact (ih hrounds hrest).trans (updateEntry_of_ne ht hfirst)

/-- At the end the place of the last alternative for it is a link to the target of its entry,
unless something else is there. -/
theorem rounds_last {fs : List Char → Option PathNode} {s' : AltState} {l l' : List Alternative}
    {own : Alternative}
    (h : u.rounds o considerUninstalled root ⟨fs, false⟩ (l ++ own :: l') = some s')
    (hlast : ∀ alt ∈ l', place root alt.entry.path ≠ place root own.entry.path) :
    (fs (place root own.entry.path) = some .other →
        s'.fs (place root own.entry.path) = some .other) ∧
      (fs (place root own.entry.path) ≠ some .other →
        ∀ best, u.bestEntry o considerUninstalled own.entry = some best →
          s'.fs (place root own.entry.path) = some (.symlink (place root best.altpath))) := by
  refine ⟨(rounds_other_iff h _).2, fun hfree best hbest => ?_⟩
  rw [AltUniverse.rounds, foldlM_append] at h
  obtain ⟨s, hs, h⟩ := Option.bind_eq_some_iff.1 h
  obtain ⟨t, ht, hrest⟩ := Option.bind_eq_some_iff.1 h
  rw [rounds_of_ne hrest hlast]
  exact updateEntry_self ht hbest fun hother => hfree ((rounds_other_iff hs _).1 hother)

/-! ## The links that are left -/

theorem right_of_no_link {fs : List Char → Option PathNode} {path : List Char}
    (h : ∀ target, fs (place root path) ≠ some (.symlink target)) :
    u.Right considerUninstalled root fs path ↔ u.eligible considerUninstalled path = [] := by
  constructor
  · rintro ⟨hlink, -⟩
    by_contra hne
    obtain ⟨target, htarget, -⟩ := hlink hne
    exact h target htarget
  · exact fun hnil => ⟨fun hne => absurd hnil hne, fun _ => h⟩

theorem right_of_link {fs : List Char → Option PathNode} {path target : List Char}
    (h : fs (place root path) = some (.symlink target)) :
    u.Right considerUninstalled root fs path ↔
      u.IsGreatest considerUninstalled root path target := by
  constructor
  · rintro ⟨hlink, hnil⟩
    have hne : u.eligible considerUninstalled path ≠ [] := fun heq => hnil heq target h
    obtain ⟨other, hother, hgreatest⟩ := hlink hne
    obtain rfl : target = other := PathNode.symlink.inj (Option.some.inj (h.symm.trans hother))
    exact hgreatest
  · intro hgreatest
    obtain ⟨c, hc, -⟩ := id hgreatest
    exact ⟨fun _ => ⟨target, h, hgreatest⟩, fun hnil => absurd hnil (ne_nil_of_mem hc)⟩

omit [Kernel] in
theorem exists_last {alts : List Alternative} {alt : Alternative} (h : alt ∈ alts) :
    ∃ l own l', alts = l ++ own :: l' ∧ place root alt.entry.path = place root own.entry.path ∧
      ∀ later ∈ l', place root later.entry.path ≠ place root own.entry.path := by
  induction alts using List.reverseRecOn with
  | nil => cases h
  | append_singleton alts last ih =>
    by_cases hlast : place root alt.entry.path = place root last.entry.path
    · exact ⟨alts, last, [], rfl, hlast, fun _ h => nomatch h⟩
    · have hmem : alt ∈ alts := (List.mem_append.1 h).resolve_right fun hmem =>
        hlast (by rw [List.mem_singleton.1 hmem])
      obtain ⟨l, own, l', rfl, hpath, hlater⟩ := ih hmem
      refine ⟨l, own, l' ++ [last], by simp, hpath, fun later hmem' => ?_⟩
      rcases List.mem_append.1 hmem' with hmem' | hmem'
      · exact hlater later hmem'
      · rw [List.mem_singleton.1 hmem', ← hpath]
        exact fun heq => hlast heq.symm

end Rounds

/-- In whatever order the packages and their entries are visited, every path of the list is at
the end a link to the target of an eligible entry of greatest priority, or no link, if and
only if every path has an entry, and the last alternative for each place settles it. -/
theorem updateAlternatives_right_iff (u : AltUniverse) (pkgAlternatives : List Alternative)
    (linkRoot : Option (List Char)) (overlayRoot : List Char) (considerUninstalled : String)
    (fs : List Char → Option PathNode) :
    (∀ o : u.Order, ∃ s,
      u.updateAlternatives o pkgAlternatives linkRoot overlayRoot considerUninstalled fs = some s ∧
        ∀ alt ∈ pkgAlternatives,
          u.Right considerUninstalled (linkRoot.getD overlayRoot) s.fs alt.entry.path) ↔
    (∀ alt ∈ pkgAlternatives,
      u.entriesFor alt.entry.path (u.counted considerUninstalled) ≠ []) ∧
    ∀ l own l', pkgAlternatives = l ++ own :: l' →
      (∀ alt ∈ l', place (linkRoot.getD overlayRoot) alt.entry.path ≠
        place (linkRoot.getD overlayRoot) own.entry.path) →
      ∀ alt ∈ pkgAlternatives, place (linkRoot.getD overlayRoot) alt.entry.path =
          place (linkRoot.getD overlayRoot) own.entry.path →
        u.Settles considerUninstalled (linkRoot.getD overlayRoot) fs own.entry alt.entry.path := by
  constructor
  · intro h
    have hall : ∀ alt ∈ pkgAlternatives,
        u.entriesFor alt.entry.path (u.counted considerUninstalled) ≠ [] := by
      obtain ⟨s, hs, -⟩ := h ⟨_, .refl _, _, fun _ => .refl _⟩
      exact rounds_isSome_iff.1 (Option.isSome_iff_exists.2 ⟨s, hs⟩)
    refine ⟨hall, ?_⟩
    rintro l own l' rfl hlast alt halt hpath
    constructor
    · intro hother
      obtain ⟨s, hs, hright⟩ := h ⟨_, .refl _, _, fun _ => .refl _⟩
      rw [hpath] at hother
      have hend := (rounds_last hs hlast).1 hother
      rw [← hpath] at hend
      refine (right_of_no_link fun target htarget => ?_).1 (hright alt halt)
      rw [hend] at htarget
      cases htarget
    · intro hfree c hc
      obtain ⟨o, ho⟩ := exists_order_of_mayWin hc
      obtain ⟨s, hs, hright⟩ := h o
      rw [hpath] at hfree
      have hend := (rounds_last hs hlast).2 hfree c ho
      rw [← hpath] at hend
      exact (right_of_link hend).1 (hright alt halt)
  · rintro ⟨hall, hsettles⟩ o
    obtain ⟨s, hs⟩ := Option.isSome_iff_exists.1
      ((@rounds_isSome_iff _ u o considerUninstalled (linkRoot.getD overlayRoot) ⟨fs, false⟩
        pkgAlternatives).2 hall)
    refine ⟨s, hs, fun alt halt => ?_⟩
    obtain ⟨l, own, l', rfl, hpath, hlast⟩ := @exists_last (linkRoot.getD overlayRoot) _ _ halt
    have hown := hsettles l own l' rfl hlast alt halt hpath
    have hends := rounds_last hs hlast
    rw [← hpath] at hends
    by_cases hother : fs (place (linkRoot.getD overlayRoot) alt.entry.path) = some .other
    · refine (right_of_no_link fun target htarget => ?_).2 (hown.blocked hother)
      rw [hends.1 hother] at htarget
      cases htarget
    · have hne := hall own (by simp)
      rw [← candidates_ne_nil_iff u considerUninstalled o,
        ← pickedFrom_isSome_iff own.entry, ← bestEntry_eq] at hne
      obtain ⟨best, hbest⟩ := Option.isSome_iff_exists.1 hne
      exact (right_of_link (hends.2 hother best hbest)).2
        (hown.free hother best (mayWin_of_bestEntry hbest).1)

/-! ## Three packages for one path -/

def installedOnly (version : String) : Versions where
  infos := HashedMap.empty.set version
    { status := some "install ok installed", installDestination := some "root" }
  current := some version
  latest := version
  current_mem := by
    intro v hv
    obtain rfl := Option.some.inj hv
    exact HashedMap.mem_keys_set_self ..
  latest_mem := HashedMap.mem_keys_set_self ..

def threePrograms : PackageData where
  packages := ((HashedMap.empty.set "busybox" (installedOnly "1.0")).set "uclient-fetch"
    (installedOnly "1.0")).set "wget" (installedOnly "1.0")
  provides := .empty
  real_mem := fun _ _ _ h => nomatch h

def programPath (r : PackageRef) : List String :=
  if r.name = "busybox" then ["100:/usr/bin/wget:/bin/busybox"]
  else if r.name = "wget" then ["300:/usr/bin/wget:/usr/bin/wget-ssl"]
  else ["200:/usr/bin/wget:/bin/uclient-fetch"]

def busyboxWget : Alternative :=
  ⟨"100:/usr/bin/wget:/bin/busybox", ⟨"100".toList, "/usr/bin/wget".toList, "/bin/busybox".toList⟩,
    by decide⟩

end Update

section Programs

local instance programsKernel : Kernel := referenceKernel 64

def programUniverse : AltUniverse where
  data := threePrograms
  alternatives := programPath

def programOrder : programUniverse.Order where
  names := ["busybox", "wget", "uclient-fetch"]
  names_perm := by decide
  entries := programPath
  entries_perm := fun _ => .refl _

/-- The path becomes a link to the program of the second priority. -/
theorem second_priority_linked :
    ¬∀ (u : AltUniverse) (pkgAlternatives : List Alternative) (linkRoot : Option (List Char))
      (overlayRoot : List Char) (considerUninstalled : String)
      (fs : List Char → Option PathNode) (o : u.Order), ∃ s,
        u.updateAlternatives o pkgAlternatives linkRoot overlayRoot considerUninstalled fs =
            some s ∧
          ∀ alt ∈ pkgAlternatives,
            u.Right considerUninstalled (linkRoot.getD overlayRoot) s.fs alt.entry.path := by
  intro h
  obtain ⟨s, hs, hright⟩ := h programUniverse [busyboxWget] none ['/'] "" (fun _ => none)
    programOrder
  have hlink : ((programUniverse.updateAlternatives programOrder [busyboxWget] none ['/'] ""
      fun _ => none).map fun s => s.fs (place ['/'] busyboxWget.entry.path)) =
        some (some (.symlink "/bin/uclient-fetch".toList)) := by decide
  rw [hs, Option.map_some, Option.some.injEq] at hlink
  obtain ⟨c, hc, hgreatest, htarget⟩ :=
    (right_of_link hlink).1 (hright busyboxWget (mem_singleton_self _))
  have hnot : ∀ c ∈ programUniverse.eligible "" busyboxWget.entry.path,
      place ['/'] c.altpath = "/bin/uclient-fetch".toList →
        ¬∀ d ∈ programUniverse.eligible "" busyboxWget.entry.path, atoi d.prio ≤ atoi c.prio := by
    decide
  exact hnot c hc htarget hgreatest

end Programs

end Gpkg

end Gargoyle
