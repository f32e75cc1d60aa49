import LiveQuiz.Lib.Contract

/-! # Layers over a contract

A layer states further requirements for the calls of some programs of a machine that
keeps a contract. What a program may rely on is allowed to depend on the call it waits
for, so a layer can speak about the stretch between two particular calls. The contract
is taken for granted, and a layer need not hold of every program: a run carries the
layer along program by program.
-/

namespace Coroutine

set_option autoImplicit false

structure Layer (σ O T : Type) where
  inv : σ → Prop
  rely : (pid : Nat) → T → O → σ → σ → Prop
  req : (pid : Nat) → T → σ → O → Prop

namespace Layer

section

variable {σ O : Type} {R : O → Type} {ε α β γ T D E : Type}

/-- Every call made from here on meets the layer's requirement, and every end meets `Q`. -/
def wp (L : Layer σ O T) (M : Machine σ O R ε α T D E) (K : Contract σ O ε α T) (pid : Nat) (t : T) :
    Prog O R ε β → (Except ε β → σ → Prop) → σ → Prop
  | .done r, Q, s => Q r s
  | .call o k, Q, s => ∀ s₁ fresh, pid < fresh → K.rely pid s s₁ → L.rely pid t o s s₁ →
      K.inv fresh s₁ → L.inv s₁ → K.req pid t s₁ o → L.req pid t s₁ o ∧
        ∀ d out, M.exec s₁ t pid fresh o d = some out → L.wp M K pid t (k out.result) Q out.shared

/-- The layer's rely condition is a preorder for each pending call. -/
structure Steady (L : Layer σ O T) : Prop where
  refl : ∀ pid t o s, L.rely pid t o s s
  trans : ∀ pid t o s₁ s₂ s₃, L.rely pid t o s₁ s₂ → L.rely pid t o s₂ s₃ → L.rely pid t o s₁ s₃

variable {L : Layer σ O T} {M : Machine σ O R ε α T D E} {K : Contract σ O ε α T} {pid : Nat} {t : T}

theorem wp_mono {p : Prog O R ε β} {Q Q' : Except ε β → σ → Prop} {s : σ}
    (h : L.wp M K pid t p Q s) (hQ : ∀ r s, Q r s → Q' r s) : L.wp M K pid t p Q' s := by
  induction p generalizing s with
  | done r => exact hQ r s h
  | call o k ih =>
    intro s₁ fresh hFresh hRely hRely' hInv hInv' hReq
    obtain ⟨hReq', hNext⟩ := h s₁ fresh hFresh hRely hRely' hInv hInv' hReq
    exact ⟨hReq', fun d out hOut => ih _ (hNext d out hOut)⟩

theorem wp_bind {p : Prog O R ε β} {f : β → Prog O R ε γ} {Q : Except ε γ → σ → Prop} {s : σ}
    (h : L.wp M K pid t p (fun r s => match r with
      | .ok a => L.wp M K pid t (f a) Q s
      | .error e => Q (.error e) s) s) : L.wp M K pid t (p.bind f) Q s := by
  induction p generalizing s with
  | done r => cases r <;> exact h
  | call o k ih =>
    intro s₁ fresh hFresh hRely hRely' hInv hInv' hReq
    obtain ⟨hReq', hNext⟩ := h s₁ fresh hFresh hRely hRely' hInv hInv' hReq
    exact ⟨hReq', fun d out hOut => ih _ (hNext d out hOut)⟩

theorem wp_handle {p : Prog O R ε β} {h : ε → Prog O R ε β} {Q : Except ε β → σ → Prop} {s : σ}
    (hp : L.wp M K pid t p (fun r s => match r with
      | .ok a => Q (.ok a) s
      | .error e => L.wp M K pid t (h e) Q s) s) : L.wp M K pid t (p.handle h) Q s := by
  induction p generalizing s with
  | done r => cases r <;> exact hp
  | call o k ih =>
    intro s₁ fresh hFresh hRely hRely' hInv hInv' hReq
    obtain ⟨hReq', hNext⟩ := hp s₁ fresh hFresh hRely hRely' hInv hInv' hReq
    exact ⟨hReq', fun d out hOut => ih _ (hNext d out hOut)⟩

theorem wp_session {p : Prog O R ε β} {rollback : O} {Q : Except ε β → σ → Prop} {s : σ}
    (hp : L.wp M K pid t p (fun r s => match r with
      | .ok a => Q (.ok a) s
      | .error e =>
        L.wp M K pid t (.perform rollback) (fun r s => Q (.error (Prog.raised e r)) s) s) s) :
    L.wp M K pid t (p.session rollback) Q s := by
  refine wp_handle (wp_mono hp fun r s hr => ?_)
  cases r with
  | ok a => exact hr
  | error e => exact wp_bind (wp_mono hr fun r s h => by cases r <;> exact h)

theorem wp_seq {p : Prog O R ε β} {f : β → Prog O R ε γ} {P : Except ε β → σ → Prop}
    {Q : Except ε γ → σ → Prop} {s : σ} (h : L.wp M K pid t p P s)
    (hOk : ∀ b s, P (.ok b) s → L.wp M K pid t (f b) Q s)
    (hError : ∀ e s, P (.error e) s → Q (.error e) s) : L.wp M K pid t (p.bind f) Q s := by
  apply wp_bind
  apply wp_mono h
  intro res s hRes
  cases res with
  | ok b => exact hOk b s hRes
  | error e => exact hError e s hRes

theorem wp_catch {p : Prog O R ε β} {f : ε → Prog O R ε β} {P Q : Except ε β → σ → Prop} {s : σ}
    (h : L.wp M K pid t p P s) (hOk : ∀ b s, P (.ok b) s → Q (.ok b) s)
    (hError : ∀ e s, P (.error e) s → L.wp M K pid t (f e) Q s) :
    L.wp M K pid t (p.handle f) Q s := by
  apply wp_handle
  apply wp_mono h
  intro res s hRes
  cases res with
  | ok b => exact hOk b s hRes
  | error e => exact hError e s hRes

abbrev Keeps (L : Layer σ O T) (M : Machine σ O R ε α T D E) (K : Contract σ O ε α T) (pid : Nat)
    (t : T) (p : Prog O R ε α) (s : σ) : Prop :=
  L.wp M K pid t p (fun _ _ => True) s

theorem Keeps.rely (hSteady : L.Steady) (hSound : Sound M K) {p : Prog O R ε α} {s s' : σ}
    (h : L.Keeps M K pid t p s) (hRely : K.rely pid s s')
    (hRely' : ∀ o k, p = .call o k → L.rely pid t o s s') : L.Keeps M K pid t p s' := by
  cases p with
  | done r => trivial
  | call o k =>
    intro s₁ fresh hFresh h₁ h₁' hInv hInv' hReq
    exact h s₁ fresh hFresh (hSound.rely_trans pid s s' s₁ hRely h₁)
      (hSteady.trans pid t o s s' s₁ (hRely' o k rfl) h₁') hInv hInv' hReq

variable {S S' : State σ O R ε α T} {l : Label D E}

theorem Keeps.req (hSteady : L.Steady) (hSound : Sound M K) (hS : Kept M K S) (hInv : L.inv S.shared)
    {o : O} {k : Except ε (R o) → Prog O R ε α} (hProc : S.procs[pid]? = some ⟨t, .call o k⟩)
    (h : L.Keeps M K pid t (.call o k) S.shared) : L.req pid t S.shared o :=
  (h S.shared _ (List.getElem?_eq_some_iff.mp hProc).1 (hSound.rely_refl pid _)
    (hSteady.refl pid t o _) hS.inv hInv (hS.req hSound hProc)).1

theorem Keeps.step (hSteady : L.Steady) (hSound : Sound M K) (hS : Kept M K S) (hInv : L.inv S.shared)
    (hStep : M.step S l = some S') {p p' : Proc O R ε α T} (hp : S.procs[pid]? = some p)
    (hp' : S'.procs[pid]? = some p') (h : L.Keeps M K pid p.task p.prog S.shared)
    (hRely : (∀ d, l ≠ .op pid d) → ∀ o k, p.prog = .call o k →
      L.rely pid p.task o S.shared S'.shared) :
    L.Keeps M K pid p'.task p'.prog S'.shared := by
  have hLt := (List.getElem?_eq_some_iff.mp hp).1
  obtain ⟨q, d, u, o, k, out, rfl, hProc, hExec, rfl⟩ | ⟨e, out, rfl, hEnv, rfl⟩ :=
    Machine.step_cases hStep
  · have hqLt := (List.getElem?_eq_some_iff.mp hProc).1
    have hReq := hS.req hSound hProc
    obtain hOld | ⟨hNew, -⟩ := getElem?_append_spawned hp'
    · by_cases hq : pid = q
      · subst hq
        rw [List.getElem?_set_self hLt] at hOld
        rw [hProc] at hp
        cases hp
        cases hOld
        exact (h S.shared _ hLt (hSound.rely_refl pid _) (hSteady.refl pid u o _) hS.inv hInv
          hReq).2 d out hExec
      · rw [List.getElem?_set_ne (Ne.symm hq), hp] at hOld
        cases hOld
        refine h.rely hSteady hSound ?_ (hRely fun d' hEq => hq ?_)
        · exact (hSound.exec _ _ _ _ _ _ _ hS.inv hReq hqLt hExec).2.1 pid hLt hq
        · cases hEq
          rfl
    · rw [List.length_set] at hNew
      omega
  · obtain hOld | ⟨hNew, -⟩ := getElem?_append_spawned hp'
    · rw [hp] at hOld
      cases hOld
      exact h.rely hSteady hSound ((hSound.env _ _ _ _ hS.inv hEnv).2.1 pid hLt)
        (hRely fun d hEq => by cases hEq)
    · omega

/-- What a layer asks of the machine alone, where every program keeps to it. -/
structure Fits (L : Layer σ O T) (M : Machine σ O R ε α T D E) (K : Contract σ O ε α T) : Prop where
  steady : L.Steady
  exec : ∀ s t pid fresh o d out, K.inv fresh s → L.inv s → K.req pid t s o → L.req pid t s o →
    M.exec s t pid fresh o d = some out →
      L.inv out.shared ∧
      (∀ q u o', q < fresh → q ≠ pid → L.rely q u o' s out.shared) ∧
      ∀ t', out.spawned = some t' → L.Keeps M K fresh t' (M.body t') out.shared
  env : ∀ s fresh e out, K.inv fresh s → L.inv s → M.env s fresh e = some out →
      L.inv out.1 ∧
      (∀ q u o', q < fresh → L.rely q u o' s out.1) ∧
      ∀ t', out.2 = some t' → L.Keeps M K fresh t' (M.body t') out.1

/-- The state of a run whose programs all keep to the layer. -/
structure Carried (L : Layer σ O T) (M : Machine σ O R ε α T D E) (K : Contract σ O ε α T)
    (S : State σ O R ε α T) : Prop where
  kept : Kept M K S
  inv : L.inv S.shared
  procs : ∀ pid p, S.procs[pid]? = some p → L.Keeps M K pid p.task p.prog S.shared

theorem Carried.req (hFits : L.Fits M K) (hSound : Sound M K) (hS : L.Carried M K S) {o : O}
    {k : Except ε (R o) → Prog O R ε α} (hProc : S.procs[pid]? = some ⟨t, .call o k⟩) :
    L.req pid t S.shared o :=
  (hS.procs pid _ hProc).req hFits.steady hSound hS.kept hS.inv hProc

theorem Carried.step (hFits : L.Fits M K) (hSound : Sound M K) (hS : L.Carried M K S)
    (hStep : M.step S l = some S') : L.Carried M K S' := by
  have hKept := hSound.kept_step hS.kept hStep
  have hOld : ∀ q p p', S.procs[q]? = some p → S'.procs[q]? = some p' →
      ((∀ d, l ≠ .op q d) → ∀ o k, p.prog = .call o k → L.rely q p.task o S.shared S'.shared) →
      L.Keeps M K q p'.task p'.prog S'.shared := fun q p p' hp hp' hRely =>
    (hS.procs q p hp).step hFits.steady hSound hS.kept hS.inv hStep hp hp' hRely
  obtain ⟨pid, d, t, o, k, out, rfl, hProc, hExec, rfl⟩ | ⟨e, out, rfl, hEnv, rfl⟩ :=
    Machine.step_cases hStep
  · obtain ⟨hInv, hRely, hSpawn⟩ := hFits.exec _ _ _ _ _ _ _ hS.kept.inv hS.inv
      (hS.kept.req hSound hProc) (hS.req hFits hSound hProc) hExec
    refine ⟨hKept, hInv, fun q p' hp' => ?_⟩
    by_cases hq : q < S.procs.length
    · obtain ⟨p, hp⟩ : ∃ p, S.procs[q]? = some p := ⟨_, List.getElem?_eq_getElem hq⟩
      refine hOld q p p' hp hp' fun hOther o' _ _ => hRely q p.task o' hq ?_
      rintro rfl
      exact hOther d rfl
    · obtain hIn | ⟨rfl, t', hNew, rfl⟩ := getElem?_append_spawned hp'
      · have hLt := (List.getElem?_eq_some_iff.mp hIn).1
        rw [List.length_set] at hLt
        exact absurd hLt hq
      · rw [List.length_set]
        exact hSpawn t' hNew
  · obtain ⟨hInv, hRely, hSpawn⟩ := hFits.env _ _ _ _ hS.kept.inv hS.inv hEnv
    refine ⟨hKept, hInv, fun q p' hp' => ?_⟩
    by_cases hq : q < S.procs.length
    · obtain ⟨p, hp⟩ : ∃ p, S.procs[q]? = some p := ⟨_, List.getElem?_eq_getElem hq⟩
      exact hOld q p p' hp hp' fun _ o' _ _ => hRely q p.task o' hq
    · obtain hIn | ⟨rfl, t', hNew, rfl⟩ := getElem?_append_spawned hp'
      · exact absurd (List.getElem?_eq_some_iff.mp hIn).1 hq
      · exact hSpawn t' hNew

theorem Carried.reach (hFits : L.Fits M K) (hSound : Sound M K)
    {C : State σ O R ε α T → Label D E → Prop} (hS : L.Carried M K S) (h : M.Reach C S S') :
    L.Carried M K S' := by
  induction h with
  | refl => exact hS
  | tail _ _ hStep ih => exact ih.step hFits hSound hStep

end

end Layer

end Coroutine
