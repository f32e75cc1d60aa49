import LiveQuiz.Lib.Machine

/-! # Two runs that differ in hidden steps

A relation between the states of two runs is kept to the end when a hidden step of
either run keeps it and a common visible step keeps it.
-/

namespace Coroutine

set_option autoImplicit false

structure Lockstep {σ O : Type} {R : O → Type} {ε α T D E : Type} (M : Machine σ O R ε α T D E)
    (c : State σ O R ε α T → Label D E → Bool) (hidden : Label D E → Bool)
    (Q : State σ O R ε α T → State σ O R ε α T → Prop) : Prop where
  left : ∀ {S S' S₁ l}, Q S S' → hidden l = true → c S l = true → M.step S l = some S₁ → Q S₁ S'
  right : ∀ {S S' S₁ l}, Q S S' → hidden l = true → c S' l = true → M.step S' l = some S₁ → Q S S₁
  both : ∀ {S S' S₁ S₁' l}, Q S S' → hidden l = false → c S l = true → c S' l = true →
    M.step S l = some S₁ → M.step S' l = some S₁' → Q S₁ S₁'

section

variable {σ O : Type} {R : O → Type} {ε α T D E : Type} {M : Machine σ O R ε α T D E}
  {c : State σ O R ε α T → Label D E → Bool} {hidden : Label D E → Bool}
  {Q : State σ O R ε α T → State σ O R ε α T → Prop} {S S' U U' : State σ O R ε α T}

theorem Lockstep.catch_up (h : Lockstep M c hidden Q) {ls : List (Label D E)} (hQ : Q S S')
    (hRun : M.runWhile c S' ls = some U') : ∃ S₁ rest, Q S S₁ ∧ M.runWhile c S₁ rest = some U' ∧
      rest.filter (!hidden ·) = ls.filter (!hidden ·) ∧
      ∀ l ∈ rest.head?, hidden l = false := by
  induction ls generalizing S' with
  | nil => exact ⟨S', [], hQ, hRun, rfl, by simp⟩
  | cons l ls ih =>
    cases hHidden : hidden l with
    | false => exact ⟨S', l :: ls, hQ, hRun, rfl, by simpa using hHidden⟩
    | true =>
      obtain ⟨hc, S₁, hStep, hRest⟩ := Machine.runWhile_cons hRun
      obtain ⟨S₂, rest, hQ', hRun', hFilter, hHead⟩ := ih (h.right hQ hHidden hc hStep) hRest
      exact ⟨S₂, rest, hQ', hRun', by simpa [hHidden] using hFilter, hHead⟩

theorem Lockstep.run (h : Lockstep M c hidden Q) {ls ls' : List (Label D E)} (hQ : Q S S')
    (hRun : M.runWhile c S ls = some U) (hRun' : M.runWhile c S' ls' = some U')
    (hSame : ls.filter (!hidden ·) = ls'.filter (!hidden ·)) : Q U U' := by
  induction ls generalizing S S' ls' with
  | nil =>
    cases hRun
    obtain ⟨S₁, rest, hQ', hRest, hFilter, hHead⟩ := h.catch_up hQ hRun'
    cases rest with
    | nil =>
      cases hRest
      exact hQ'
    | cons l rest =>
      rw [← hSame] at hFilter
      simp [hHead l rfl] at hFilter
  | cons l ls ih =>
    obtain ⟨hc, S₁, hStep, hRest⟩ := Machine.runWhile_cons hRun
    cases hHidden : hidden l with
    | true =>
      refine ih (h.left hQ hHidden hc hStep) hRest hRun' ?_
      simpa [hHidden] using hSame
    | false =>
      obtain ⟨S₂, rest, hQ', hRest', hFilter, hHead⟩ := h.catch_up hQ hRun'
      rw [← hSame, List.filter_cons_of_pos (by simp [hHidden])] at hFilter
      cases rest with
      | nil => cases hFilter
      | cons l' rest =>
        rw [List.filter_cons_of_pos (by simp [hHead l' rfl])] at hFilter
        obtain ⟨rfl, hTail⟩ := List.cons.inj hFilter
        obtain ⟨hc', S₃, hStep', hRest''⟩ := Machine.runWhile_cons hRest'
        exact ih (h.both hQ' hHidden hc hc' hStep hStep') hRest hRest'' hTail.symm

end

end Coroutine
