import Mathlib.Data.List.Basic

/-! # Runs of a function on states

What holds at every step of a run, of a program that one thread of events drives.
-/

namespace Steps

set_option autoImplicit false

variable {σ ε : Type} {step : σ → ε → σ} {P Q : σ → ε → Prop} {J : σ → Prop} {s : σ} {es : List ε}

/-- `P` of each state of the run and the event that it takes. -/
def Every (step : σ → ε → σ) (P : σ → ε → Prop) : σ → List ε → Prop
  | _, [] => True
  | s, e :: es => P s e ∧ Every step P (step s e) es

theorem Every.of_kept (hStart : J s) (hP : ∀ s e, J s → P s e) (hKeep : ∀ s e, J s → J (step s e)) :
    Every step P s es := by
  induction es generalizing s with
  | nil => trivial
  | cons e es ih => exact ⟨hP s e hStart, ih (hKeep s e hStart)⟩

/-- Two runs on the same events that stay related, each with a condition of its own, where
the second condition keeps the relation. -/
theorem Every.iff_of_related {τ : Type} {step' : τ → ε → τ} {Q' : τ → ε → Prop} {R : σ → τ → Prop} {t : τ}
    (hStart : R s t) (hIff : ∀ s t e, R s t → (P s e ↔ Q' t e))
    (hKeep : ∀ s t e, R s t → Q' t e → R (step s e) (step' t e)) :
    Every step P s es ↔ Every step' Q' t es := by
  induction es generalizing s t with
  | nil => exact Iff.rfl
  | cons e es ih =>
    constructor
    · rintro ⟨hP, hRest⟩
      have hQ := (hIff s t e hStart).mp hP
      exact ⟨hQ, (ih (hKeep s t e hStart hQ)).mp hRest⟩
    · rintro ⟨hQ, hRest⟩
      exact ⟨(hIff s t e hStart).mpr hQ, (ih (hKeep s t e hStart hQ)).mpr hRest⟩

theorem Every.iff_of_kept (hStart : J s) (hIff : ∀ s e, J s → (P s e ↔ Q s e))
    (hKeep : ∀ s e, J s → Q s e → J (step s e)) : Every step P s es ↔ Every step Q s es := by
  refine Every.iff_of_related (R := fun s t => s = t ∧ J s) ⟨rfl, hStart⟩ ?_ ?_
  · rintro s _ e ⟨rfl, hJ⟩
    exact hIff s e hJ
  · rintro s _ e ⟨rfl, hJ⟩ hQ
    exact ⟨rfl, hKeep s e hJ hQ⟩

end Steps
