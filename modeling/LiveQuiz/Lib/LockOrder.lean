import Mathlib.Logic.Relation
import Mathlib.Order.Basic

/-! # Lock order

Parties hold resources and want further ones. If each wants only what ranks above all
it holds, nobody ever waits in a circle.
-/

namespace Coroutine

set_option autoImplicit false

section

variable {P R ι : Type} {wants holds : P → R → Prop} {p q : P}

def Awaits (wants holds : P → R → Prop) (p q : P) : Prop := ∃ r, wants p r ∧ holds q r

variable [Preorder ι] {rank : R → ι}

theorem awaits_rises (hOrder : ∀ p r r', holds p r → wants p r' → rank r < rank r')
    (h : Relation.TransGen (Awaits wants holds) p q) :
    ∃ r r', wants p r ∧ holds q r' ∧ rank r ≤ rank r' := by
  induction h with
  | single h =>
    obtain ⟨r, hWants, hHolds⟩ := h
    exact ⟨r, r, hWants, hHolds, le_rfl⟩
  | tail _ h ih =>
    obtain ⟨r, r', hWants, hHolds, hLe⟩ := ih
    obtain ⟨r'', hWants', hHolds'⟩ := h
    exact ⟨r, r'', hWants, hHolds', hLe.trans (hOrder _ _ _ hHolds hWants').le⟩

theorem awaits_acyclic (hOrder : ∀ p r r', holds p r → wants p r' → rank r < rank r') (p : P) :
    ¬Relation.TransGen (Awaits wants holds) p p := by
  intro hCycle
  obtain ⟨r, r', hWants, hHolds, hLe⟩ := awaits_rises hOrder hCycle
  exact ((hOrder p r' r hHolds hWants).trans_le hLe).false

end

end Coroutine
