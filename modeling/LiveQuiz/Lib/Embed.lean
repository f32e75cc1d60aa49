import LiveQuiz.Lib.Confined

/-! # Programs inside a larger machine

A machine can run the programs of another one on a part of its state: each call stands
for a call of the larger machine, and its answer is read back. A walk of such a program
in its own machine is a walk in the larger one, with any fact that its calls leave alone.
-/

namespace Coroutine

set_option autoImplicit false

/-- How calls, answers and exceptions of one machine appear in another. -/
structure Embedding (O : Type) (R : O → Type) (ε O' : Type) (R' : O' → Type) (ε' : Type) where
  op : O → O'
  back : (o : O) → Except ε' (R' (op o)) → Except ε (R o)
  err : ε → ε'

section

variable {σ O : Type} {R : O → Type} {ε α β T D E : Type}
  {σ' O' : Type} {R' : O' → Type} {ε' α' T' D' E' : Type}

namespace Embedding

variable (ι : Embedding O R ε O' R' ε')

def result : Except ε β → Except ε' β
  | .ok a => .ok a
  | .error e => .error (ι.err e)

def prog : Prog O R ε β → Prog O' R' ε' β
  | .done r => .done (ι.result r)
  | .call o k => .call (ι.op o) fun r => prog (k (ι.back o r))

/-- The larger machine answers the calls of program `pid` as the smaller one does on its
part of the state, and its contract asks no more of them in states that meet `F`. -/
structure Carries (M : Machine σ O R ε α T D E) (K : Contract σ O ε α T)
    (M' : Machine σ' O' R' ε' α' T' D' E') (K' : Contract σ' O' ε' α' T') (part : σ' → σ)
    (F : σ' → Prop) (pid : Nat) (t : T) (t' : T') : Prop where
  exec : ∀ s fresh o d out, pid < fresh → M'.exec s t' pid fresh (ι.op o) d = some out → F s →
    F out.shared ∧ ∃ e out', M.exec (part s) t pid fresh o e = some out' ∧
      out'.shared = part out.shared ∧ out'.result = ι.back o out.result
  rely : ∀ s s', K'.rely pid s s' → K.rely pid (part s) (part s') ∧ (F s → F s')
  inv : ∀ n s, K'.inv n s → K.inv n (part s)
  req : ∀ s o, F s → K.req pid t (part s) o → K'.req pid t' s (ι.op o)

variable {ι} {M : Machine σ O R ε α T D E} {K : Contract σ O ε α T}
  {M' : Machine σ' O' R' ε' α' T' D' E'} {K' : Contract σ' O' ε' α' T'} {part : σ' → σ}
  {F : σ' → Prop} {pid : Nat} {t : T} {t' : T'}

theorem Carries.wp (h : ι.Carries M K M' K' part F pid t t') {p : Prog O R ε β}
    {Q : Except ε β → σ → Prop} {s : σ'} (hF : F s) (hp : wp M K pid t p Q (part s)) :
    wp M' K' pid t' (ι.prog p) (fun r s => F s ∧ ∃ r', r = ι.result r' ∧ Q r' (part s)) s := by
  induction p generalizing s with
  | done r => exact ⟨hF, r, rfl, hp⟩
  | call o k ih =>
    intro s₁ fresh hFresh hRely hInv
    obtain ⟨hRely', hStay⟩ := h.rely s s₁ hRely
    obtain ⟨hReq, hNext⟩ := hp (part s₁) fresh hFresh hRely' (h.inv fresh s₁ hInv)
    refine ⟨h.req s₁ o (hStay hF) hReq, fun d out hOut => ?_⟩
    obtain ⟨hKeep, e, out', hOut', hShared, hResult⟩ := h.exec s₁ fresh o d out hFresh hOut (hStay hF)
    have hRest := hNext e out' hOut'
    rw [hShared, hResult] at hRest
    exact ih _ hKeep hRest

theorem confined {ok : O → Prop} {ok' : O' → Prop} {p : Prog O R ε β}
    (h : Confined ok (fun _ => True) p) (hOk : ∀ o, ok o → ok' (ι.op o)) :
    Confined ok' (fun _ => True) (ι.prog p) := by
  induction p with
  | done r => exact fun _ _ => trivial
  | call o k ih =>
    have hNext : ∀ r, Confined ok' (fun _ => True) (ι.prog (k r)) := by
      intro r
      cases r with
      | ok v => exact ih _ (h.2.1 v)
      | error e => exact ih _ (h.2.2 e trivial)
    exact ⟨hOk o h.1, fun v => hNext _, fun e _ => hNext _⟩

end Embedding

theorem wp_of_map {γ : Type} {M : Machine σ O R ε α T D E} {K : Contract σ O ε α T} {pid : Nat} {t : T}
    {f : β → γ} {p : Prog O R ε β} {Q : Except ε γ → σ → Prop} {s : σ} (h : wp M K pid t (f <$> p) Q s) :
    wp M K pid t p (fun r s => Q (f <$> r) s) s := by
  change wp M K pid t (p.bind fun a => .done (.ok (f a))) Q s at h
  induction p generalizing s with
  | done r => cases r <;> exact h
  | call o k ih =>
    intro s₁ fresh hFresh hRely hInv
    obtain ⟨hReq, hNext⟩ := h s₁ fresh hFresh hRely hInv
    exact ⟨hReq, fun d out hOut => ih _ (hNext d out hOut)⟩

end

end Coroutine
