import Mathlib.Data.List.Forall2
import Mathlib.Data.List.Lex
import Mathlib.Order.Lattice

/-!
# Orders by a key that some elements have

Two elements that both have a key are compared by their keys, any other two directly, and
lists of elements lexicographically. Such a comparison is total. It is transitive unless an
element without a key stands between two with keys: then the direct order and the order of
the keys may contradict each other.
-/

namespace Gargoyle

namespace KeyedOrder

variable {α β : Type*} [LinearOrder α] [LinearOrder β] (key : α → Option β)

/-- `x` is above `y`. -/
def Higher (x y : α) : Prop :=
  match key x, key y with
  | some m, some n => n < m
  | _, _ => y < x

/-- `x` and `y` are not told apart. -/
def Same (x y : α) : Prop :=
  match key x, key y with
  | some m, some n => m = n
  | _, _ => x = y

/-- The list `xs` is not below `ys`. -/
@[simp] def AtLeast : List α → List α → Prop
  | _, [] => True
  | [], _ :: _ => False
  | x :: xs, y :: ys => Higher key x y ∨ Same key x y ∧ AtLeast xs ys

/-- The list `xs` is above `ys` where they first differ. -/
@[simp] def Beats : List α → List α → Prop
  | x :: xs, y :: ys => Higher key x y ∨ Same key x y ∧ Beats xs ys
  | _, _ => False

/-- The list `xs` is longer than `ys`, and they do not differ before that. -/
@[simp] def Extends : List α → List α → Prop
  | _ :: _, [] => True
  | x :: xs, y :: ys => Same key x y ∧ Extends xs ys
  | [], _ => False

def Between (x y z : α) : Prop :=
  (key x).isSome ∧ (key y).isSome ∧ key z = none ∧ x < z ∧ z < y

/-- Where three lists first differ, `zs` has an element without a key between those of `xs`
and `ys`, but `ys` is not above `xs`. -/
def Tangled : List α → List α → List α → Prop
  | x :: xs, y :: ys, z :: zs =>
    Between key x y z ∧ ¬Beats key (y :: ys) (x :: xs) ∨
      Same key x y ∧ Same key y z ∧ Tangled xs ys zs
  | _, _, _ => False

/-! ## Elements -/

section Elements

variable {key} {x y z : α}

omit [LinearOrder α] [LinearOrder β] in
theorem Same.symm (h : Same key x y) : Same key y x := by
  cases hx : key x <;> cases hy : key y <;> simp only [Same, hx, hy] at h ⊢ <;> exact h.symm

omit [LinearOrder α] [LinearOrder β] in
theorem Same.trans (h : Same key x y) (h' : Same key y z) : Same key x z := by
  cases hx : key x <;> cases hy : key y <;> cases hz : key z <;>
    simp only [Same, hx, hy, hz] at h h' ⊢ <;> grind

theorem Higher.not_same (h : Higher key x y) : ¬ Same key x y := by
  cases hx : key x <;> cases hy : key y <;> simp only [Higher, Same, hx, hy] at h ⊢ <;> exact h.ne'

theorem Higher.asymm (h : Higher key x y) : ¬ Higher key y x := by
  cases hx : key x <;> cases hy : key y <;> simp only [Higher, hx, hy] at h ⊢ <;> exact h.not_gt

theorem higher_or_same (x y : α) : Higher key x y ∨ Same key x y ∨ Higher key y x := by
  have htotal : y < x ∨ x = y ∨ x < y := (lt_trichotomy y x).imp_right (Or.imp_left Eq.symm)
  cases hx : key x with
  | none => cases hy : key y <;> simpa only [Higher, Same, hx, hy] using htotal
  | some m =>
    cases hy : key y with
    | none => simpa only [Higher, Same, hx, hy] using htotal
    | some n =>
      simpa only [Higher, Same, hx, hy] using
        (lt_trichotomy n m).imp_right (Or.imp_left Eq.symm)

theorem higher_or_between (hxy : Higher key x y ∨ Same key x y)
    (hyz : Higher key y z ∨ Same key y z) (hne : ¬(Same key x y ∧ Same key y z)) :
    Higher key x z ∨ Between key x y z ∨ Between key y z x ∨ Between key z x y := by
  cases hx : key x <;> cases hy : key y <;> cases hz : key z <;>
    simp only [Higher, Same, Between, hx, hy, hz] at hxy hyz hne ⊢ <;> grind

theorem Between.higher (h : Between key x y z) : Higher key y z ∧ Higher key z x := by
  obtain ⟨-, -, hz, hxz, hzy⟩ := h
  cases hx : key x <;> cases hy : key y <;> simp only [Higher, hx, hy, hz] <;> exact ⟨hzy, hxz⟩

end Elements

/-! ## Lists -/

section Lists

variable {key} {xs ys zs : List α}

theorem AtLeast.total (xs ys : List α) : AtLeast key xs ys ∨ AtLeast key ys xs := by
  induction xs generalizing ys with
  | nil => exact .inr (by cases ys <;> trivial)
  | cons x xs ih =>
    cases ys with
    | nil => exact .inl trivial
    | cons y ys =>
      have hcases : Higher key x y ∨ Same key x y ∨ Higher key y x := higher_or_same x y
      rcases hcases with h | h | h
      · exact .inl (.inl h)
      · exact (ih ys).imp (fun hle => Or.inr ⟨h, hle⟩) fun hle => Or.inr ⟨h.symm, hle⟩
      · exact .inr (.inl h)

theorem atLeast_refl (xs : List α) : AtLeast key xs xs := (AtLeast.total xs xs).elim id id

theorem atLeast_iff : AtLeast key xs ys ↔
    Beats key xs ys ∨ Extends key xs ys ∨ List.Forall₂ (Same key) xs ys := by
  induction xs generalizing ys with
  | nil => cases ys <;> simp [AtLeast, Beats, Extends, List.forall₂_nil_left_iff]
  | cons x xs ih =>
    cases ys with
    | nil => simp [AtLeast, Beats, Extends]
    | cons y ys =>
      rw [AtLeast, Beats, Extends, List.forall₂_cons, ih]
      tauto

theorem Beats.not_atLeast (h : Beats key xs ys) : ¬AtLeast key ys xs := by
  induction xs generalizing ys with
  | nil => exact h.elim
  | cons x xs ih =>
    cases ys with
    | nil => exact h.elim
    | cons y ys =>
      rw [AtLeast]
      rcases h with h | ⟨h, hrest⟩
      · exact fun h' => h'.elim h.asymm fun hsame => h.not_same hsame.1.symm
      · exact fun h' => h'.elim (fun hhigher => hhigher.not_same h.symm)
          fun hsame => ih hrest hsame.2

omit [LinearOrder α] [LinearOrder β] in
theorem Extends.length_lt (h : Extends key xs ys) : ys.length < xs.length := by
  induction xs generalizing ys with
  | nil => exact h.elim
  | cons x xs ih =>
    cases ys with
    | nil => exact Nat.succ_pos xs.length
    | cons y ys => exact Nat.succ_lt_succ (ih h.2)

theorem Extends.not_beats (h : Extends key xs ys) : ¬Beats key xs ys := by
  induction xs generalizing ys with
  | nil => exact h.elim
  | cons x xs ih =>
    cases ys with
    | nil => exact id
    | cons y ys =>
      rw [Beats]
      exact fun h' => h'.elim (fun hhigher => hhigher.not_same h.1) fun hsame => ih h.2 hsame.2

theorem Extends.not_atLeast (h : Extends key xs ys) : ¬AtLeast key ys xs := by
  induction xs generalizing ys with
  | nil => exact h.elim
  | cons x xs ih =>
    cases ys with
    | nil => exact id
    | cons y ys =>
      rw [AtLeast]
      exact fun h' => h'.elim (fun hhigher => hhigher.not_same h.1.symm)
        fun hsame => ih h.2 hsame.2

theorem not_atLeast_iff : ¬AtLeast key xs ys ↔ Beats key ys xs ∨ Extends key ys xs := by
  constructor
  · intro h
    have hle := (AtLeast.total xs ys).resolve_left h
    rcases atLeast_iff.1 hle with hbeats | hextends | hsame
    · exact .inl hbeats
    · exact .inr hextends
    · exact absurd (atLeast_iff.2 (Or.inr (.inr (hsame.flip.imp fun _ _ => Same.symm)))) h
  · exact fun h => h.elim Beats.not_atLeast Extends.not_atLeast

/-- Three sets that are not tangled are in order. -/
theorem AtLeast.trans (hxy : AtLeast key xs ys) (hyz : AtLeast key ys zs)
    (h : ¬Tangled key xs ys zs) (h' : ¬Tangled key ys zs xs) (h'' : ¬Tangled key zs xs ys) :
    AtLeast key xs zs := by
  induction xs generalizing ys zs with
  | nil =>
    cases ys with
    | nil => exact hyz
    | cons y ys => exact hxy.elim
  | cons x xs ih =>
    cases zs with
    | nil => trivial
    | cons z zs =>
      cases ys with
      | nil => exact hyz.elim
      | cons y ys =>
        by_cases hsame : Same key x y ∧ Same key y z
        · have hxs := (hxy.resolve_left fun hhigher => hhigher.not_same hsame.1).2
          have hys := (hyz.resolve_left fun hhigher => hhigher.not_same hsame.2).2
          have hxz := hsame.1.trans hsame.2
          refine .inr ⟨hxz, ih hxs hys (fun ht => ?_) (fun ht => ?_) fun ht => ?_⟩
          · exact h (Or.inr ⟨hsame.1, hsame.2, ht⟩)
          · exact h' (Or.inr ⟨hsame.2, hxz.symm, ht⟩)
          · exact h'' (Or.inr ⟨hxz.symm, hsame.1, ht⟩)
        · rcases higher_or_between (hxy.imp_right And.left) (hyz.imp_right And.left) hsame with
            hhigher | hbetween | hbetween | hbetween
          · exact .inl hhigher
          · exact absurd (Or.inl ⟨hbetween, fun hbeats => hbeats.not_atLeast hxy⟩) h
          · exact absurd (Or.inl ⟨hbetween, fun hbeats => hbeats.not_atLeast hyz⟩) h'
          · by_contra hnot
            refine h'' (Or.inl ⟨hbetween, fun hbeats => hnot ?_⟩)
            exact atLeast_iff.2 (Or.inl hbeats)

/-- The same for the strict order. -/
theorem Beats.trans (hxy : Beats key xs ys) (hyz : Beats key ys zs)
    (h : ¬Tangled key xs ys zs) (h' : ¬Tangled key ys zs xs) (h'' : ¬Tangled key zs xs ys) :
    Beats key xs zs := by
  induction xs generalizing ys zs with
  | nil => exact hxy.elim
  | cons x xs ih =>
    cases ys with
    | nil => exact hxy.elim
    | cons y ys =>
      cases zs with
      | nil => exact hyz.elim
      | cons z zs =>
        have hnotxy : ¬Beats key (y :: ys) (x :: xs) := fun hbeats =>
          hbeats.not_atLeast (atLeast_iff.2 (Or.inl hxy))
        have hnotyz : ¬Beats key (z :: zs) (y :: ys) := fun hbeats =>
          hbeats.not_atLeast (atLeast_iff.2 (Or.inl hyz))
        by_cases hsame : Same key x y ∧ Same key y z
        · have hxs := (hxy.resolve_left fun hhigher => hhigher.not_same hsame.1).2
          have hys := (hyz.resolve_left fun hhigher => hhigher.not_same hsame.2).2
          have hxz := hsame.1.trans hsame.2
          refine .inr ⟨hxz, ih hxs hys (fun ht => ?_) (fun ht => ?_) fun ht => ?_⟩
          · exact h (Or.inr ⟨hsame.1, hsame.2, ht⟩)
          · exact h' (Or.inr ⟨hsame.2, hxz.symm, ht⟩)
          · exact h'' (Or.inr ⟨hxz.symm, hsame.1, ht⟩)
        · rcases higher_or_between (hxy.imp_right And.left) (hyz.imp_right And.left) hsame with
            hhigher | hbetween | hbetween | hbetween
          · exact .inl hhigher
          · exact absurd (Or.inl ⟨hbetween, hnotxy⟩) h
          · exact absurd (Or.inl ⟨hbetween, hnotyz⟩) h'
          · by_contra hnot
            exact h'' (Or.inl ⟨hbetween, hnot⟩)

theorem Tangled.ne_nil (h : Tangled key xs ys zs) : xs ≠ [] ∧ ys ≠ [] ∧ zs ≠ [] := by
  refine ⟨?_, ?_, ?_⟩ <;> rintro rfl
  · exact h
  · cases xs <;> exact h
  · cases xs <;> cases ys <;> exact h

theorem Tangled.circle (h : Tangled key xs ys zs) :
    ¬Beats key ys xs ∧ Beats key ys zs ∧ Beats key zs xs := by
  induction xs generalizing ys zs with
  | nil => exact h.elim
  | cons x xs ih =>
    cases ys with
    | nil => exact h.elim
    | cons y ys =>
      cases zs with
      | nil => exact h.elim
      | cons z zs =>
        rcases h with ⟨hbetween, hnot⟩ | ⟨hxy, hyz, hrest⟩
        · exact ⟨hnot, Or.inl hbetween.higher.1, Or.inl hbetween.higher.2⟩
        · obtain ⟨hnot, hbeats, hbeats'⟩ := ih hrest
          refine ⟨fun hbeats'' => ?_, Or.inr ⟨hyz, hbeats⟩,
            Or.inr ⟨(hxy.trans hyz).symm, hbeats'⟩⟩
          rcases hbeats'' with hhigher | ⟨-, hbeats''⟩
          · exact hhigher.not_same hxy.symm
          · exact hnot hbeats''

end Lists

end KeyedOrder

end Gargoyle
