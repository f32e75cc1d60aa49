import LiveQuiz.Lib.Contract

/-! # Triples over a program's own part of the state

A program whose requirements speak of what the others keep for it is walked down with
pre- and postconditions on that part of the state alone: one postcondition for the ends
that return, one for those that raise.
-/

namespace Coroutine

set_option autoImplicit false

section

variable {σ O : Type} {R : O → Type} {ε α β γ T D E ω : Type}
  {M : Machine σ O R ε α T D E} {K : Contract σ O ε α T} {own : σ → ω} {pid : Nat} {t : T}

/-- The end of a program: it returns with `Q`, or raises with `X`. -/
def Ends (own : σ → ω) (Q : β → ω → Prop) (X : ω → Prop) : Except ε β → σ → Prop
  | .ok a, s => Q a (own s)
  | .error _, s => X (own s)

/-- From any state whose own part meets `P`, every call of the program meets its
requirement, and its own part meets `Q` where it returns and `X` where it raises. -/
def Triple (M : Machine σ O R ε α T D E) (K : Contract σ O ε α T) (own : σ → ω) (pid : Nat) (t : T)
    (P : ω → Prop) (p : Prog O R ε β) (Q : β → ω → Prop) (X : ω → Prop) : Prop :=
  ∀ s, P (own s) → wp M K pid t p (Ends own Q X) s

namespace Triple

variable {P P' : ω → Prop} {Q : β → ω → Prop} {X X' : ω → Prop}

theorem pure {a : β} (h : ∀ x, P x → Q a x) :
    Triple M K own pid t P (Pure.pure a : Prog O R ε β) Q X :=
  fun s hs => h (own s) hs

theorem raise {e : ε} (h : ∀ x, P x → X x) : Triple M K own pid t P (throw e : Prog O R ε β) Q X :=
  fun s hs => h (own s) hs

theorem bind {p : Prog O R ε β} {f : β → Prog O R ε γ} {U : γ → ω → Prop}
    (hp : Triple M K own pid t P p Q X) (hf : ∀ a, Triple M K own pid t (Q a) (f a) U X) :
    Triple M K own pid t P (p >>= f) U X := by
  intro s hs
  refine wp_bind (wp_mono (hp s hs) fun r s' hr => ?_)
  cases r with
  | ok a => exact hf a s' hr
  | error e => exact hr

theorem weaken {p : Prog O R ε β} {Q' : β → ω → Prop} (hp : Triple M K own pid t P p Q X)
    (hP : ∀ x, P' x → P x) (hQ : ∀ a x, Q a x → Q' a x) (hX : ∀ x, X x → X' x) :
    Triple M K own pid t P' p Q' X' := by
  intro s hs
  refine wp_mono (hp s (hP _ hs)) fun r s' hr => ?_
  cases r with
  | ok a => exact hQ a _ hr
  | error e => exact hX _ hr

theorem handle {p : Prog O R ε β} {h : ε → Prog O R ε β} (hp : Triple M K own pid t P p Q X')
    (hh : ∀ e, Triple M K own pid t X' (h e) Q X) : Triple M K own pid t P (p.handle h) Q X := by
  intro s hs
  refine wp_handle (wp_mono (hp s hs) fun r s' hr => ?_)
  cases r with
  | ok a => exact hr
  | error e => exact hh e s' hr

theorem session {p : Prog O R ε β} {rollback : O} (hp : Triple M K own pid t P p Q X')
    (hRollback : Triple M K own pid t X' (.perform rollback) (fun _ => X) X) :
    Triple M K own pid t P (p.session rollback) Q X :=
  handle hp fun _ => bind hRollback fun _ => raise fun _ hx => hx

theorem whole {p : Prog O R ε β} (hp : Triple M K own pid t P p Q X) :
    Triple M K id pid t (fun s => P (own s)) p (fun a s => Q a (own s)) (fun s => X (own s)) := by
  intro s hs
  refine wp_mono (hp s hs) fun r s' hr => ?_
  cases r with
  | ok a => exact hr
  | error e => exact hr

theorem call {o : O} {Q : R o → ω → Prop} (hRely : ∀ s s', K.rely pid s s' → P (own s) → P (own s'))
    (h : ∀ s, P (own s) → K.req pid t s o ∧ ∀ fresh d out, M.exec s t pid fresh o d = some out →
      Ends own Q X out.result out.shared) :
    Triple M K own pid t P (.perform o) Q X := by
  intro s hs
  refine wp_perform fun s₁ fresh _ hs₁ _ => ?_
  obtain ⟨hReq, hNext⟩ := h s₁ (hRely _ _ hs₁ hs)
  exact ⟨hReq, fun d out hOut => hNext fresh d out hOut⟩

end Triple

end

end Coroutine
