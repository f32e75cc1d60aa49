import LiveQuiz.Model.Runtime

/-! # Calls that fail

A call to Postgres or Redis goes through, raises without its effect, or takes effect and
loses its reply.
-/

namespace LiveQuiz

open Coroutine

set_option autoImplicit false

section

variable {σ T ρ : Type}

def faulty (fault : Fault) (fallible : Bool) (s : σ) (answer : Option (Outcome σ T (Except Exn ρ))) :
    Option (Outcome σ T (Except Exn ρ)) :=
  match fault with
  | .none => answer
  | .fail => if fallible then some ⟨s, .error .fault, none⟩ else none
  | .lost => if fallible then answer.map fun a => ⟨a.shared, .error .fault, none⟩ else none

theorem faulty_cases {fault : Fault} {fallible : Bool} {s : σ}
    {answer : Option (Outcome σ T (Except Exn ρ))} {out : Outcome σ T (Except Exn ρ)}
    (h : faulty fault fallible s answer = some out) :
    (fault = .none ∧ answer = some out) ∨ (fault = .fail ∧ out = ⟨s, .error .fault, none⟩) ∨
    (fault = .lost ∧ ∃ a, answer = some a ∧ out = ⟨a.shared, .error .fault, none⟩) := by
  cases fault with
  | none => exact .inl ⟨rfl, h⟩
  | fail =>
    simp only [faulty] at h
    split at h <;> cases h
    exact .inr (.inl ⟨rfl, rfl⟩)
  | lost =>
    simp only [faulty] at h
    split at h
    · obtain ⟨a, ha, rfl⟩ := Option.map_eq_some_iff.mp h
      exact .inr (.inr ⟨rfl, a, ha, rfl⟩)
    · cases h

theorem faulty_ok {fault : Fault} {fallible : Bool} {s : σ}
    {answer : Option (Outcome σ T (Except Exn ρ))} {out : Outcome σ T (Except Exn ρ)}
    (h : faulty fault fallible s answer = some out) {a : ρ} (ha : out.result = .ok a) :
    fault = .none ∧ answer = some out := by
  obtain hOk | ⟨-, rfl⟩ | ⟨-, b, -, rfl⟩ := faulty_cases h
  · exact hOk
  · cases ha
  · cases ha

theorem faulty_shared {fault : Fault} {fallible : Bool} {s : σ}
    {answer : Option (Outcome σ T (Except Exn ρ))} {out : Outcome σ T (Except Exn ρ)}
    (h : faulty fault fallible s answer = some out) :
    out.shared = s ∨ ∃ a, answer = some a ∧ fault ≠ .fail ∧ out.shared = a.shared := by
  obtain ⟨rfl, hOk⟩ | ⟨-, rfl⟩ | ⟨rfl, a, ha, rfl⟩ := faulty_cases h
  · exact .inr ⟨out, hOk, by decide, rfl⟩
  · exact .inl rfl
  · exact .inr ⟨a, ha, by decide, rfl⟩

theorem faulty_spawned {fault : Fault} {fallible : Bool} {s : σ}
    {answer : Option (Outcome σ T (Except Exn ρ))} {out : Outcome σ T (Except Exn ρ)}
    (h : faulty fault fallible s answer = some out) (hNone : ∀ a, answer = some a → a.spawned = none) :
    out.spawned = none := by
  obtain ⟨-, hOk⟩ | ⟨-, rfl⟩ | ⟨-, a, -, rfl⟩ := faulty_cases h
  · exact hNone out hOk
  · rfl
  · rfl

end

end LiveQuiz
