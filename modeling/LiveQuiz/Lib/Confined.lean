import LiveQuiz.Lib.Layer

/-! # Confined programs

A confined program makes only certain calls, and raises only certain exceptions as long as
its calls do. Whatever such calls keep is kept by the whole program, under any
interference that keeps it too.
-/

namespace Coroutine

set_option autoImplicit false

variable {O : Type} {R : O → Type} {ε α β σ T D E : Type}

def Confined (ok : O → Prop) (raises : ε → Prop) : Prog O R ε α → Prop
  | .done r => ∀ e, r = .error e → raises e
  | .call o k => ok o ∧ (∀ v, Confined ok raises (k (.ok v))) ∧
      ∀ e, raises e → Confined ok raises (k (.error e))

namespace Confined

variable {ok : O → Prop} {raises : ε → Prop}

theorem mono {ok' : O → Prop} {p : Prog O R ε α} (h : Confined ok raises p)
    (hOk : ∀ o, ok o → ok' o) : Confined ok' raises p := by
  induction p with
  | done r => exact h
  | call o k ih =>
    exact ⟨hOk o h.1, fun v => ih _ (h.2.1 v), fun e he => ih _ (h.2.2 e he)⟩

theorem pure (a : α) : Confined ok raises (R := R) (Pure.pure a : Prog O R ε α) := by
  intro e he
  cases he

theorem throw {e : ε} (he : raises e) : Confined ok raises (MonadExcept.throw e : Prog O R ε α) := by
  intro e' he'
  cases he'
  exact he

theorem ask {o : O} (ho : ok o) : Confined ok raises (Prog.perform o : Prog O R ε (R o)) := by
  refine ⟨ho, fun v e he => ?_, fun e he e' he' => ?_⟩
  · cases he
  · cases he'
    exact he

theorem bind {p : Prog O R ε α} {f : α → Prog O R ε β} (h : Confined ok raises p)
    (hf : ∀ a, Confined ok raises (f a)) : Confined ok raises (p >>= f) := by
  change Confined ok raises (p.bind f)
  induction p with
  | done r =>
    cases r with
    | ok a => exact hf a
    | error e =>
      intro e' he'
      cases he'
      exact h e rfl
  | call o k ih => exact ⟨h.1, fun v => ih _ (h.2.1 v), fun e he => ih _ (h.2.2 e he)⟩

theorem call {o : O} {f : R o → Prog O R ε α} (ho : ok o) (hf : ∀ v, Confined ok raises (f v)) :
    Confined ok raises (Prog.perform o >>= f) :=
  bind (ask ho) hf

theorem map {p : Prog O R ε α} (f : α → β) (h : Confined ok raises p) :
    Confined ok raises (f <$> p) :=
  bind h fun _ => pure _

theorem handle {p : Prog O R ε α} {f : ε → Prog O R ε α} (h : Confined ok raises p)
    (hf : ∀ e, raises e → Confined ok raises (f e)) : Confined ok raises (p.handle f) := by
  induction p with
  | done r =>
    cases r with
    | ok a => exact pure a
    | error e => exact hf e (h e rfl)
  | call o k ih => exact ⟨h.1, fun v => ih _ (h.2.1 v), fun e he => ih _ (h.2.2 e he)⟩

theorem session {p : Prog O R ε α} {rollback : O} (hRollback : ok rollback)
    (h : Confined ok raises p) : Confined ok raises (p.session rollback) :=
  handle h fun _ he => call hRollback fun _ => throw he

end Confined

theorem wp_confined {M : Machine σ O R ε α T D E} {K : Contract σ O ε α T} {pid : Nat} {t : T}
    {ok : O → Prop} {raises : ε → Prop} {J : σ → Prop} {p : Prog O R ε β} {s : σ}
    (h : Confined ok raises p) (hJ : J s) (hReq : ∀ s o, ok o → J s → K.req pid t s o)
    (hRely : ∀ s s', J s → K.rely pid s s' → J s')
    (hExec : ∀ s fresh o d out, ok o → J s → M.exec s t pid fresh o d = some out →
      J out.shared ∧ ∀ e, out.result = .error e → raises e) :
    wp M K pid t p (fun r s' => J s' ∧ ∀ e, r = .error e → raises e) s := by
  induction p generalizing s with
  | done r => exact ⟨hJ, h⟩
  | call o k ih =>
    intro s₁ fresh _ hRely₁ _
    have hJ₁ := hRely s s₁ hJ hRely₁
    refine ⟨hReq s₁ o h.1 hJ₁, fun d out hOut => ?_⟩
    obtain ⟨hJ', hRaises⟩ := hExec s₁ fresh o d out h.1 hJ₁ hOut
    apply ih _ _ hJ'
    cases hRes : out.result with
    | ok v => exact h.2.1 v
    | error e => exact h.2.2 e (hRaises e hRes)

theorem Layer.wp_confined {M : Machine σ O R ε α T D E} {K : Contract σ O ε α T} {L : Layer σ O T}
    {pid : Nat} {t : T} {ok : O → Prop} {J : σ → Prop} {p : Prog O R ε β} {s : σ}
    (h : Confined ok (fun _ => True) p) (hJ : J s) (hReq : ∀ s o, ok o → J s → L.req pid t s o)
    (hRely : ∀ o s s', J s → K.rely pid s s' → L.rely pid t o s s' → J s')
    (hExec : ∀ s fresh o d out, pid < fresh → ok o → J s → K.req pid t s o →
      M.exec s t pid fresh o d = some out → J out.shared) :
    L.wp M K pid t p (fun _ s' => J s') s := by
  induction p generalizing s with
  | done r => exact hJ
  | call o k ih =>
    intro s₁ fresh hLt hRely₁ hRely₂ _ _ hReq₁
    have hJ₁ := hRely o s s₁ hJ hRely₁ hRely₂
    refine ⟨hReq s₁ o h.1 hJ₁, fun d out hOut => ?_⟩
    have hNext : Confined ok (fun _ => True) (k out.result) := by
      cases out.result with
      | ok v => exact h.2.1 v
      | error e => exact h.2.2 e trivial
    exact ih _ hNext (hExec s₁ fresh o d out hLt h.1 hJ₁ hReq₁ hOut)

theorem Layer.keeps_of_confined {M : Machine σ O R ε α T D E} {K : Contract σ O ε α T}
    {L : Layer σ O T} {pid : Nat} {t : T} {p : Prog O R ε β} {s : σ}
    (hp : Confined (fun o => ∀ s, L.req pid t s o) (fun _ => True) p) : L.wp M K pid t p (fun _ _ => True) s := by
  induction p generalizing s with
  | done r => trivial
  | call o k ih =>
    intro s₁ fresh _ _ _ _ _ _
    refine ⟨hp.1 s₁, fun d out _ => ih _ ?_⟩
    cases out.result with
    | ok v => exact hp.2.1 v
    | error e => exact hp.2.2 e trivial

theorem Layer.wp_of_confined {M : Machine σ O R ε α T D E} {K : Contract σ O ε α T}
    {L : Layer σ O T} {pid : Nat} {t : T} {p : Prog O R ε β}
    {Q : Except ε β → σ → Prop} {s : σ}
    (hp : Confined (fun o => ∀ s, L.req pid t s o) (fun _ => True) p)
    (h : Coroutine.wp M K pid t p Q s) : L.wp M K pid t p Q s := by
  induction p generalizing s with
  | done r => exact h
  | call o k ih =>
    intro s₁ fresh hFresh hRely _ hInv _ _
    obtain ⟨-, hNext⟩ := h s₁ fresh hFresh hRely hInv
    refine ⟨hp.1 s₁, fun d out hOut => ih _ ?_ (hNext d out hOut)⟩
    cases out.result with
    | ok v => exact hp.2.1 v
    | error e => exact hp.2.2 e trivial

theorem Confined.of_reach {M : Machine σ O R ε α T D E} {ok : O → Prop}
    {C : State σ O R ε α T → Label D E → Prop} {S S' : State σ O R ε α T}
    (hBody : ∀ t, Confined ok (fun _ => True) (M.body t))
    (hStart : ∀ pr ∈ S.procs, Confined ok (fun _ => True) pr.prog) (h : M.Reach C S S') :
    ∀ pr ∈ S'.procs, Confined ok (fun _ => True) pr.prog := by
  induction h with
  | refl => exact hStart
  | tail _ _ hStep ih =>
    have hSpawned : ∀ (ts : Option T), ∀ pr ∈ ts.toList.map M.start, Confined ok (fun _ => True) pr.prog := by
      intro ts pr hpr
      obtain ⟨t, -, rfl⟩ := List.mem_map.mp hpr
      exact hBody t
    obtain ⟨pid, d, t, o, k, out, rfl, hProc, -, rfl⟩ | ⟨e, out, -, -, rfl⟩ := Machine.step_cases hStep
    · intro pr hpr
      obtain hOld | hNew := List.mem_append.mp hpr
      · obtain hOld | rfl := List.mem_or_eq_of_mem_set hOld
        · exact ih pr hOld
        · have hCall := ih _ (List.mem_of_getElem? hProc)
          cases hRes : out.result with
          | ok v => exact hCall.2.1 v
          | error e => exact hCall.2.2 e trivial
      · exact hSpawned _ pr hNew
    · intro pr hpr
      obtain hOld | hNew := List.mem_append.mp hpr
      · exact ih pr hOld
      · exact hSpawned _ pr hNew

end Coroutine
