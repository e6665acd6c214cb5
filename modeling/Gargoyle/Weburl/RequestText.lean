import Mathlib.Data.List.TakeWhile
import Gargoyle.Weburl.Bounds

/-!
# The text of a request

The path and the host that are taken out of a request are pieces of its text, and of
what follows it in the memory. The path is what stands between the blanks behind the
method and the next blank (`packetPath`). The host is what stands behind the first
`Host:` of the header, wherever that is (`packetHost`).
-/

namespace Gargoyle

open List

namespace Weburl

open ByteBuffer

/-- `Host:` as it is compared. -/
def hostLabel : List UInt8 := ("Host:".toList.map chr).map toupper

def behind (label : List UInt8) : List UInt8 → Option (List UInt8)
  | [] => none
  | x :: xs =>
    if x = 0 then none
    else if label <+: (x :: xs).map toupper then some ((x :: xs).drop label.length)
    else behind label xs

def hostText (xs : List UInt8) : List UInt8 :=
  (xs.dropWhile fun x => x = 32).takeWhile fun x => !isHostEnd x

def headerText (p : List UInt8) : List UInt8 := p.take (lastHeaderIndex (ofBytes p) p.length)

def packetHost (p : List UInt8) : List UInt8 :=
  match behind hostLabel (headerText p) with
  | none => []
  | some xs => cString ((hostText xs).take 624)

def behindMethod (p : List UInt8) : List UInt8 :=
  (p.drop (methodEnd (ofBytes p))).dropWhile fun x => x = 32

/-- The path of a packet that is at `base`, in the memory from there on. -/
def packetPath (p : List UInt8) (base : ℕ) : List UInt8 :=
  let path := (behindMethod p).takeWhile fun x => x ≠ 32 && x ≠ 0
  if (behindMethod p)[path.length]? = some 32 then path.take 624
  else if pointerIndex base none ≤ 0 then []
  else
    path.take (min 624 (pointerIndex base none - (p.length - (behindMethod p).length : ℕ)).toNat)

/-! ## The search for a label -/

theorem behind_of_short {label xs : List UInt8} (h : xs.length < label.length) :
    behind label xs = none := by
  induction xs with
  | nil => rfl
  | cons x xs ih =>
    rw [length_cons] at h
    rw [behind]
    split_ifs with hzero hlabel
    · rfl
    · have hle := hlabel.length_le
      rw [length_map, length_cons] at hle
      omega
    · exact ih (by omega)

section Packet

variable {p : List UInt8} {off n i : ℕ} {c : UInt8} {cs : List UInt8}

theorem strnicmp_ofBytes (h : off + cs.length ≤ p.length) :
    strnicmp (ofBytes p) p.length cs off =
      some (decide (cs.map toupper <+: (p.drop off).map toupper)) := by
  induction cs generalizing off with
  | nil => simp [strnicmp]
  | cons c cs ih =>
    rw [length_cons] at h
    have hoff : off < p.length := by omega
    rw [strnicmp, readByte_of_lt hoff, Option.bind_some, drop_eq_cons hoff, map_cons,
      map_cons]
    by_cases hne : toupper (ofBytes p off) = toupper c
    · rw [if_neg (not_not.2 hne), ih (by omega), hne]
      simp only [cons_prefix_cons, true_and]
    · rw [if_pos hne]
      simp only [cons_prefix_cons, Ne.symm hne, false_and, decide_false]

/-- What is behind a text that is found. -/
theorem strnistr_ofBytes (h : off + n ≤ p.length) {found : Option ℕ}
    (hfound : strnistr (ofBytes p) p.length c cs n off = some found) :
    behind ((c :: cs).map toupper) ((p.drop off).take n) =
      found.map fun i => (p.drop (i + (cs.length + 1))).take (off + n - (i + (cs.length + 1))) := by
  induction n generalizing off with
  | zero =>
    obtain rfl := Option.some.inj hfound
    rfl
  | succ n ih =>
    have hoff : off < p.length := by omega
    have hrest : off + (n + 1) = off + 1 + n := by omega
    rw [strnistr, readByte_of_lt hoff, Option.bind_some] at hfound
    have hseg : (p.drop off).take (n + 1) = ofBytes p off :: (p.drop (off + 1)).take n := by
      rw [drop_eq_cons hoff, take_succ_cons]
    have hlabel : (c :: cs).map toupper <+:
        (ofBytes p off :: (p.drop (off + 1)).take n).map toupper ↔
        toupper (ofBytes p off) = toupper c ∧
          cs.map toupper <+: ((p.drop (off + 1)).take n).map toupper := by
      rw [map_cons, map_cons, cons_prefix_cons, eq_comm]
    rw [hseg, behind]
    by_cases hzero : ofBytes p off = 0
    · rw [if_pos hzero] at hfound ⊢
      obtain rfl := Option.some.inj hfound
      rfl
    · rw [if_neg hzero] at hfound ⊢
      by_cases hne : toupper (ofBytes p off) = toupper c
      · rw [if_neg (not_not.2 hne)] at hfound
        by_cases hlong : cs.length > n
        · rw [if_pos hlong] at hfound
          obtain rfl := Option.some.inj hfound
          have hshort := @behind_of_short ((c :: cs).map toupper)
            (ofBytes p off :: (p.drop (off + 1)).take n) (by
              simp only [length_map, length_cons, length_take]
              omega)
          rw [behind, if_neg hzero] at hshort
          exact hshort
        · have hcs : cs.map toupper <+: ((p.drop (off + 1)).take n).map toupper ↔
              cs.map toupper <+: (p.drop (off + 1)).map toupper := by
            rw [map_take, prefix_take_iff, length_map]
            exact and_iff_left (Nat.not_lt.1 hlong)
          rw [if_neg hlong, strnicmp_ofBytes (by omega), Option.bind_some] at hfound
          simp only [decide_eq_true_eq] at hfound
          by_cases hsame : cs.map toupper <+: (p.drop (off + 1)).map toupper
          · rw [if_pos hsame] at hfound
            rw [if_pos (hlabel.2 ⟨hne, hcs.2 hsame⟩)]
            obtain rfl := Option.some.inj hfound
            rw [Option.map_some, length_map, length_cons, drop_succ_cons,
              drop_take, drop_drop]
            congr 2
            · omega
            · congr 1
              omega
          · rw [if_neg hsame] at hfound
            rw [if_neg fun h => hsame (hcs.1 (hlabel.1 h).2), hrest]
            exact ih (by omega) hfound
      · rw [if_pos hne] at hfound
        rw [if_neg fun h => hne (hlabel.1 h).1, hrest]
        exact ih (by omega) hfound

/-! ## The host -/

theorem dropWhile_segment {f : UInt8 → Bool} {fin : ℕ} (hle : off ≤ i) (hi : i ≤ fin)
    (hfin : fin ≤ p.length) (hrun : ∀ j, off ≤ j → j < i → f (ofBytes p j) = true)
    (hstop : i = fin ∨ f (ofBytes p i) = false) :
    ((p.drop off).take (fin - off)).dropWhile f = (p.drop i).take (fin - i) := by
  obtain ⟨k, rfl⟩ := Nat.exists_eq_add_of_le hle
  induction k generalizing off with
  | zero =>
    rw [Nat.add_zero] at hstop ⊢
    rcases hstop with rfl | hstop
    · simp
    · rcases Nat.eq_or_lt_of_le hi with rfl | hlt
      · simp
      · obtain ⟨m, hm⟩ := Nat.exists_eq_succ_of_ne_zero (show fin - off ≠ 0 by omega)
        rw [Nat.add_zero] at hlt
        rw [drop_eq_cons (show off < p.length by omega), hm, take_succ_cons,
          dropWhile_cons, hstop]
        rfl
  | succ k ih =>
    have hshift : off + (k + 1) = off + 1 + k := by omega
    rw [hshift] at hi hstop ⊢
    obtain ⟨m, hm⟩ := Nat.exists_eq_succ_of_ne_zero (show fin - off ≠ 0 by omega)
    rw [drop_eq_cons (show off < p.length by omega), hm, take_succ_cons,
      dropWhile_cons, hrun off le_rfl (by omega), if_pos rfl,
      show m = fin - (off + 1) by omega]
    exact ih (Nat.le_add_right _ _) hi (fun j h₁ h₂ => hrun j (by omega) (by omega)) hstop

theorem copyText_ofBytes {start : ℕ} {length : ℤ} {copied : List UInt8}
    (h : copyText (ofBytes p) p.length start length = some copied) :
    0 ≤ length ∧ copied = ((p.drop start).take length.toNat).take 624 := by
  obtain ⟨hnonneg, hinside⟩ := copyText_isSome_iff.1 (Option.isSome_iff_exists.2 ⟨copied, h⟩)
  refine ⟨hnonneg, ?_⟩
  unfold copyText at h
  dsimp only at h
  by_cases hlen : length < 625
  · rw [if_pos hlen, if_neg (not_lt.2 hnonneg), readBytes_ofBytes (by omega)] at h
    rw [take_take, min_eq_right (by omega)]
    exact (Option.some.inj h).symm
  · rw [if_neg hlen, if_neg (by decide), readBytes_ofBytes (by omega)] at h
    rw [take_take, min_eq_left (by omega)]
    exact (Option.some.inj h).symm

theorem headerLoop_congr {b b' : ByteBuffer} {n off : ℕ} {x y : UInt8}
    (h : ∀ i, off ≤ i → i < off + n → b i = b' i) :
    headerLoop b n x y off = headerLoop b' n x y off := by
  induction n generalizing x y off with
  | zero => rfl
  | succ n ih =>
    simp only [headerLoop, h off le_rfl (by omega)]
    split_ifs
    · rfl
    · exact ih fun i h₁ h₂ => h i (by omega) (by omega)

theorem ofBytes_append_left {rest : List UInt8} (h : i < p.length) :
    ofBytes (p ++ rest) i = ofBytes p i := by
  rw [ofBytes_append_of_lt h, ofBytes, getD_eq_getElem?_getD, getElem?_eq_getElem h,
    Option.getD_some]

theorem lastHeaderIndex_append {rest : List UInt8} (hlen : 2 ≤ p.length) :
    lastHeaderIndex (ofBytes (p ++ rest)) p.length = lastHeaderIndex (ofBytes p) p.length := by
  rw [lastHeaderIndex, lastHeaderIndex, ofBytes_append_left (by omega),
    ofBytes_append_left (by omega)]
  exact headerLoop_congr fun i _ hlt => ofBytes_append_left (by omega)

/-- The host is the one that the text of the packet has. -/
theorem hostWith_ofBytes {bounded : Prop} {skip : ℕ → ℕ → Option ℕ} {rest : List UInt8}
    (hskip : SkipsBlanks bounded skip (ofBytes (p ++ rest)) (p ++ rest).length)
    (hlen : 2 ≤ p.length) {host : List UInt8}
    (h : hostWith skip (ofBytes (p ++ rest)) (p ++ rest).length p.length = some host) :
    host = packetHost p := by
  have hlast : lastHeaderIndex (ofBytes p) p.length ≤ p.length ∧
      (lastHeaderIndex (ofBytes p) p.length < p.length →
        ofBytes p (lastHeaderIndex (ofBytes p) p.length) ≠ 32) := by
    rcases @lastHeaderIndex_spec (ofBytes p) p.length hlen with ⟨heq, -⟩ | ⟨hlt, -, hend⟩
    · exact ⟨heq.le, fun hlt => absurd heq hlt.ne⟩
    · refine ⟨hlt.le, fun _ => ?_⟩
      rw [hend]
      decide
  unfold hostWith at h
  unfold packetHost headerText
  dsimp only at h
  rw [lastHeaderIndex_append hlen] at h
  generalize lastHeaderIndex (ofBytes p) p.length = last at h hlast ⊢
  have hheader : p.take last = (p ++ rest).take last := (take_append_of_le_length hlast.1).symm
  have hsize : p.length ≤ (p ++ rest).length := by simp
  have hnext : last < p.length → ofBytes (p ++ rest) last ≠ 32 := fun hlt => by
    rw [ofBytes_append_left hlt]
    exact hlast.2 hlt
  rw [hheader]
  replace hlast := hlast.1
  generalize p ++ rest = m at *
  obtain ⟨found, hfound, hhost⟩ := Option.bind_eq_some_iff.1 h
  have hbehind : behind hostLabel (m.take last) =
      found.map fun i => (m.drop (i + 5)).take (last - (i + 5)) := by
    have hsearch := strnistr_ofBytes (by omega) hfound
    rw [drop_zero, Nat.zero_add] at hsearch
    exact hsearch
  rw [hbehind]
  cases found with
  | none =>
    obtain rfl := Option.some.inj hhost
    rfl
  | some i =>
    have hin : i + 5 ≤ last := by
      obtain ⟨found, hfound', hbound⟩ := @strnistr_inside (ofBytes m) m.length 0 (chr 'H')
        ("ost:".toList.map chr) last (by omega)
      have hle := hbound i (Option.some.inj (hfound'.symm.trans hfound))
      have hcolon : ("ost:".toList.map chr).length = 4 := rfl
      omega
    dsimp only at hhost
    obtain ⟨start, hstart, hrest⟩ := Option.bind_eq_some_iff.1 hhost
    obtain ⟨fin, hfin, hcopy⟩ := Option.bind_eq_some_iff.1 hrest
    obtain ⟨copied, hcopied, rfl⟩ := Option.map_eq_some_iff.1 hcopy
    obtain ⟨hle, hlt, hstop, hblanks⟩ := hskip.bounds hin hstart
    obtain ⟨-, rfl⟩ := copyText_ofBytes hcopied
    rw [Option.map_some]
    dsimp only
    rw [hostText]
    by_cases hbefore : start ≤ last
    · have hskipped : ((m.drop (i + 5)).take (last - (i + 5))).dropWhile (fun x => x = 32) =
          (m.drop start).take (last - start) := by
        refine dropWhile_segment hle hbefore (by omega) (fun j h₁ h₂ => ?_) ?_
        · simpa using hblanks j h₁ h₂
        · rcases hstop with hne | rfl
          · exact .inr (by simpa using hne)
          · exact .inl rfl
      rw [hskipped, takeWhile_of_scanTo hfin]
      obtain ⟨hbound, -, -⟩ := scanTo_bounds hfin
      rw [show ((fin : ℤ) - start).toNat = fin - start by omega]
    · -- The blanks go on behind the packet, where the host is empty.
      have hend : fin = start := by
        obtain ⟨h₁, h₂, -⟩ := scanTo_bounds hfin
        omega
      have hskipped : ((m.drop (i + 5)).take (last - (i + 5))).dropWhile (fun x => x = 32) =
          (m.drop last).take (last - last) :=
        dropWhile_segment hin le_rfl (by omega)
          (fun j h₁ h₂ => by simpa using hblanks j h₁ (by omega)) (.inl rfl)
      rw [hskipped, hend]
      simp

/-! ## The path -/

theorem takeWhile_of_ends {first start fin : ℕ}
    (h : PathEnds (ofBytes p) p.length first start fin) :
    (p.drop start).takeWhile (fun x => x ≠ 32 && x ≠ 0) = (p.drop start).take (fin - start) := by
  have hend : scan (fun x => x = 32 || x = 0) (ofBytes p) p.length start = some fin :=
    scan_eq_some_iff.2 ⟨h.start_le, h.fin_lt, by simpa using h.fin_eq,
      fun j h₁ h₂ => by simpa using h.inner j h₁ h₂⟩
  rw [← (takeWhile_of_scan hend).1]
  congr 1
  funext x
  simp

theorem cString_take (xs : List UInt8) (m : ℕ) : cString (xs.take m) = (cString xs).take m :=
  List.take_takeWhile.symm

/-- The path between two ends, or what a pointer makes of it. -/
theorem packetPath_of_ends {start fin base : ℕ}
    (h : PathEnds (ofBytes p) p.length (methodEnd (ofBytes p)) start fin) :
    packetPath p base =
      if ofBytes p fin = 32 then ((p.drop start).take (fin - start)).take 624
      else if pointerIndex base none ≤ 0 then []
      else
        ((p.drop start).take (fin - start)).take
          (min 624 (pointerIndex base none - start).toNat) := by
  have hblank : scan (fun x => x ≠ 32) (ofBytes p) p.length (methodEnd (ofBytes p)) =
      some start :=
    scan_eq_some_iff.2 ⟨h.first_le, h.start_le.trans_lt h.fin_lt, by simpa using h.start_ne,
      fun j h₁ h₂ => by simpa using h.blanks j h₁ h₂⟩
  have hmethod : behindMethod p = p.drop start := by
    rw [behindMethod, ← (takeWhile_of_scan hblank).2]
    congr 1
    funext x
    simp
  have hle := h.start_le
  have hlt := h.fin_lt
  have hlength : ((p.drop start).take (fin - start)).length = fin - start := by
    rw [length_take, length_drop]
    omega
  have hnext : (p.drop start)[fin - start]? = some (ofBytes p fin) := by
    rw [getElem?_drop, Nat.add_sub_cancel' hle, ← Nat.add_zero fin, ← getElem?_drop,
      drop_eq_cons hlt]
    rfl
  have hstart : p.length - (p.drop start).length = start := by
    rw [length_drop]
    omega
  unfold packetPath
  rw [hmethod]
  dsimp only
  rw [takeWhile_of_ends h, hlength, hnext, hstart]
  simp only [Option.some.injEq]

/-- The path is the one that the text of the packet has. -/
theorem pathFrom_ofBytes {base : ℕ} {path : ℤ × List UInt8}
    (h : pathFrom (ofBytes p) p.length base (methodEnd (ofBytes p)) = some path) :
    path.2 = packetPath p base := by
  obtain ⟨start, fin, hends, hnull⟩ :=
    pathEnds_of_pathFrom (Option.isSome_iff_exists.2 ⟨path, h⟩)
  have hle := hends.start_le
  have hlt := hends.fin_lt
  have hmethod : 0 < methodEnd (ofBytes p) := by
    unfold methodEnd
    split_ifs <;> omega
  have hfirst := hends.first_le
  rw [pathFrom_eq_of_ends hends hnull] at h
  rw [packetPath_of_ends hends]
  by_cases hblank : ofBytes p fin = 32
  · have hpath : cString ((p.drop start).take (fin - start)) =
        (p.drop start).take (fin - start) := by
      rw [← takeWhile_of_ends hends, cString, takeWhile_eq_self_iff]
      intro x hx
      have hx' := mem_takeWhile_imp hx
      simp only [Bool.and_eq_true, decide_eq_true_eq] at hx' ⊢
      exact hx'.2
    have hpos : pointerIndex base (some fin) > 0 := Int.natCast_pos.2 (by omega)
    rw [if_pos hblank, if_pos hpos] at h
    obtain ⟨copied, hcopied, rfl⟩ := Option.map_eq_some_iff.1 h
    obtain ⟨-, rfl⟩ := copyText_ofBytes hcopied
    rw [if_pos hblank, cString_take]
    dsimp only [pointerIndex]
    rw [show ((fin : ℤ) - start).toNat = fin - start by omega, hpath]
  · have hzero : ofBytes p fin = 0 := hends.fin_eq.resolve_left hblank
    have hpath : cString (p.drop start) = (p.drop start).take (fin - start) := by
      have hend : scan (fun x => x = 0) (ofBytes p) p.length start = some fin :=
        scan_eq_some_iff.2 ⟨hle, hlt, by simpa using hzero,
          fun j h₁ h₂ => by simpa using (hends.inner j h₁ h₂).2⟩
      rw [← (takeWhile_of_scan hend).1, cString]
      congr 1
      funext x
      simp
    rw [if_neg hblank] at h ⊢
    by_cases hpos : pointerIndex base none > 0
    · rw [if_pos hpos] at h
      obtain ⟨copied, hcopied, rfl⟩ := Option.map_eq_some_iff.1 h
      obtain ⟨-, rfl⟩ := copyText_ofBytes hcopied
      rw [if_neg (not_le.2 hpos), take_take, cString_take, hpath]
    · rw [if_neg hpos] at h
      obtain rfl := Option.some.inj h
      rw [if_pos (not_lt.1 hpos)]

end Packet

/-! ## A packet with what follows it -/

section Memory

variable {p rest : List UInt8}

theorem strnicmp_congr {b b' : ByteBuffer} {size off : ℕ} {cs : List UInt8}
    (h : ∀ i < size, b i = b' i) : strnicmp b size cs off = strnicmp b' size cs off := by
  induction cs generalizing off with
  | nil => rfl
  | cons c cs ih =>
    have hread : readByte b size off = readByte b' size off := by
      unfold readByte
      split_ifs with hlt
      · rw [h off hlt]
      · rfl
    rw [strnicmp, strnicmp, hread, ih]

theorem isWebRequest_append :
    isWebRequest (ofBytes (p ++ rest)) p.length = isWebRequest (ofBytes p) p.length := by
  have hsame : ∀ cs, strnicmp (ofBytes (p ++ rest)) p.length cs 0 =
      strnicmp (ofBytes p) p.length cs 0 :=
    fun cs => strnicmp_congr fun i hi => ofBytes_append_left hi
  rw [isWebRequest, isWebRequest, hsame, hsame, hsame]

theorem methodEnd_append (rest : List UInt8) (hlen : 3 < p.length) :
    methodEnd (ofBytes (p ++ rest)) = methodEnd (ofBytes p) := by
  rw [methodEnd, methodEnd, ofBytes_append_left hlen]

theorem PathEnds.append {first start fin : ℕ}
    (h : PathEnds (ofBytes p) p.length first start fin) (rest : List UInt8) :
    PathEnds (ofBytes (p ++ rest)) (p ++ rest).length first start fin := by
  have hlt := h.fin_lt
  have hle := h.start_le
  refine ⟨h.first_le, hle, by rw [length_append]; omega, fun j h₁ h₂ => ?_, ?_,
    fun j h₁ h₂ => ?_, ?_⟩
  · rw [ofBytes_append_left (by omega)]
    exact h.blanks j h₁ h₂
  · rw [ofBytes_append_left (by omega)]
    exact h.start_ne
  · rw [ofBytes_append_left (by omega)]
    exact h.inner j h₁ h₂
  · rw [ofBytes_append_left hlt]
    exact h.fin_eq

theorem HeaderInside.append (h : HeaderInside (ofBytes p) p.length) :
    HeaderInside (ofBytes (p ++ rest)) p.length := by
  obtain ⟨k, hk, hend⟩ := h
  refine ⟨k, hk, ?_⟩
  unfold HeaderEnd at hend ⊢
  rwa [ofBytes_append_left hk, ofBytes_append_left (by omega : k + 1 < p.length),
    ofBytes_append_left (by omega : k < p.length)]

end Memory

/-! ## The two functions -/

section Address

variable {p rest : List UInt8} {base : ℕ}

theorem httpAddress_ofBytes (hweb : isWebRequest (ofBytes (p ++ rest)) p.length = true)
    (hlen : 10 < p.length) {address : List Char × List Char}
    (h : httpAddress (ofBytes (p ++ rest)) (p ++ rest).length p.length base = some address) :
    address = (text (packetPath (p ++ rest) base), text (packetHost p)) := by
  rw [httpAddress_eq hweb] at h
  obtain ⟨path, hpath, hrest⟩ := Option.bind_eq_some_iff.1 h
  obtain ⟨host, hhost, rfl⟩ := Option.map_eq_some_iff.1 hrest
  rw [pathFrom_ofBytes hpath, hostWith_ofBytes skipBlanks_skips (by omega) hhost]

theorem extractUrl_ofBytes (hweb : isWebRequest (ofBytes (p ++ rest)) p.length = true)
    (hlen : 10 < p.length) (hint : p.length < 2 ^ 31)
    (hpath : ¬ PathMissing (ofBytes (p ++ rest)) (p ++ rest).length base)
    {address : List Char × List Char}
    (h : extractUrl (ofBytes (p ++ rest)) (p ++ rest).length p.length base = some address) :
    address = ((text (packetHost p)).map tolower, text (packetPath (p ++ rest) base)) := by
  have hpos : 0 < methodEnd (ofBytes (p ++ rest)) := by
    unfold methodEnd
    split_ifs <;> omega
  rw [extractUrl_eq hweb hlen hint (by simp)] at h
  obtain ⟨path, hpath', hrest⟩ := Option.bind_eq_some_iff.1 h
  rw [if_pos ((path_pos_iff hpos hpath').2 hpath)] at hrest
  obtain ⟨host, hhost, rfl⟩ := Option.map_eq_some_iff.1 hrest
  rw [pathFrom_ofBytes hpath', hostWith_ofBytes skipBlanksTo_skips (by omega) hhost]

end Address

end Weburl

end Gargoyle
