import Mathlib.Order.WellFoundedSet

/-!
# Relations without cycles

A relation that leads to finitely many elements has no cycle exactly when it is
well-founded.
-/

namespace Relation

open List

variable {α : Type*} {r : α → α → Prop}

def Acyclic (r : α → α → Prop) : Prop := ∀ a, ¬ TransGen r a a

theorem not_acc_of_transGen {a : α} (h : TransGen r a a) : ¬ Acc r a := by
  intro hacc
  induction hacc.transGen with
  | intro a _ ih => exact ih a h h (hacc.inv_of_transGen h)

theorem acyclic_of_wellFounded (h : WellFounded r) : Acyclic r :=
  fun a ha => not_acc_of_transGen ha (h.apply a)

theorem Acyclic.wellFounded (h : Acyclic r) {s : Set α} (hs : s.Finite)
    (hmem : ∀ a b, r b a → b ∈ s) : WellFounded r := by
  have : IsStrictOrder α (TransGen r) := { irrefl := h, trans := fun _ _ _ => TransGen.trans }
  have hon : s.WellFoundedOn (TransGen r) := hs.wellFoundedOn
  have hacc : ∀ a ∈ s, Acc r a := by
    intro a ha
    refine hon.induction ha fun b hb ih => ⟨b, fun c hc => ?_⟩
    exact ih c (hmem b c hc) (TransGen.single hc)
  exact ⟨fun a => ⟨a, fun b hb => hacc b (hmem a b hb)⟩⟩

theorem wellFounded_iff_acyclic {s : Set α} (hs : s.Finite) (hmem : ∀ a b, r b a → b ∈ s) :
    WellFounded r ↔ Acyclic r :=
  ⟨acyclic_of_wellFounded, fun h => h.wellFounded hs hmem⟩

end Relation
