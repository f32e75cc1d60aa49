import LiveQuiz.Lib.Machine

/-! # Rely conditions and call requirements

A contract says what holds of the shared state in every state with a given number
of programs (`inv`), what the others may do between two calls of a program (`rely`), and what must hold when a
call is made (`req`). The weakest precondition `wp` quantifies over that
interference, so a proof about a program is an ordinary walk down its tree: facts
about the state are carried over by lemmas about `rely`, and no intermediate
assertion has to be written down.
-/

namespace Coroutine

set_option autoImplicit false

structure Contract (σ O ε α T : Type) where
  inv : (count : Nat) → σ → Prop
  rely : (pid : Nat) → σ → σ → Prop
  req : (pid : Nat) → T → σ → O → Prop
  post : (pid : Nat) → T → Except ε α → σ → Prop

section

variable {σ O : Type} {R : O → Type} {ε α β T D E : Type}

/-- Every call made from here on meets its requirement, and every end meets `Q`. -/
def wp (M : Machine σ O R ε α T D E) (K : Contract σ O ε α T) (pid : Nat) (t : T) :
    Prog O R ε β → (Except ε β → σ → Prop) → σ → Prop
  | .done r, Q, s => Q r s
  | .call o k, Q, s => ∀ s₁ fresh, pid < fresh → K.rely pid s s₁ → K.inv fresh s₁ →
      K.req pid t s₁ o ∧ ∀ d out, M.exec s₁ t pid fresh o d = some out →
        wp M K pid t (k out.result) Q out.shared

variable {M : Machine σ O R ε α T D E} {K : Contract σ O ε α T} {pid : Nat} {t : T}

theorem wp_mono {p : Prog O R ε β} {Q Q' : Except ε β → σ → Prop} {s : σ}
    (h : wp M K pid t p Q s) (hQ : ∀ r s, Q r s → Q' r s) : wp M K pid t p Q' s := by
  induction p generalizing s with
  | done r => exact hQ r s h
  | call o k ih =>
    intro s₁ fresh hFresh hRely hInv
    obtain ⟨hReq, hNext⟩ := h s₁ fresh hFresh hRely hInv
    exact ⟨hReq, fun d out hOut => ih _ (hNext d out hOut)⟩

theorem wp_bind {γ : Type} {p : Prog O R ε β} {f : β → Prog O R ε γ}
    {Q : Except ε γ → σ → Prop} {s : σ}
    (h : wp M K pid t p (fun r s => match r with
      | .ok a => wp M K pid t (f a) Q s
      | .error e => Q (.error e) s) s) : wp M K pid t (p.bind f) Q s := by
  induction p generalizing s with
  | done r => cases r <;> exact h
  | call o k ih =>
    intro s₁ fresh hFresh hRely hInv
    obtain ⟨hReq, hNext⟩ := h s₁ fresh hFresh hRely hInv
    exact ⟨hReq, fun d out hOut => ih _ (hNext d out hOut)⟩

theorem wp_handle {p : Prog O R ε β} {h : ε → Prog O R ε β} {Q : Except ε β → σ → Prop} {s : σ}
    (hp : wp M K pid t p (fun r s => match r with
      | .ok a => Q (.ok a) s
      | .error e => wp M K pid t (h e) Q s) s) : wp M K pid t (p.handle h) Q s := by
  induction p generalizing s with
  | done r => cases r <;> exact hp
  | call o k ih =>
    intro s₁ fresh hFresh hRely hInv
    obtain ⟨hReq, hNext⟩ := hp s₁ fresh hFresh hRely hInv
    exact ⟨hReq, fun d out hOut => ih _ (hNext d out hOut)⟩

theorem wp_session {p : Prog O R ε β} {rollback : O} {Q : Except ε β → σ → Prop} {s : σ}
    (hp : wp M K pid t p (fun r s => match r with
      | .ok a => Q (.ok a) s
      | .error e => wp M K pid t (.perform rollback) (fun r s => Q (.error (Prog.raised e r)) s) s) s) :
    wp M K pid t (p.session rollback) Q s := by
  refine wp_handle (wp_mono hp fun r s hr => ?_)
  cases r with
  | ok a => exact hr
  | error e => exact wp_bind (wp_mono hr fun r s h => by cases r <;> exact h)

theorem wp_perform {o : O} {Q : Except ε (R o) → σ → Prop} {s : σ}
    (h : ∀ s₁ fresh, pid < fresh → K.rely pid s s₁ → K.inv fresh s₁ → K.req pid t s₁ o ∧
      ∀ d out, M.exec s₁ t pid fresh o d = some out → Q out.result out.shared) :
    wp M K pid t (.perform o) Q s := h

def Contract.lenient (K : Contract σ O ε α T) : Contract σ O ε α T :=
  { K with req := fun _ _ _ _ => True }

theorem wp_relax {p : Prog O R ε β} {Q : Except ε β → σ → Prop} {s : σ} (h : wp M K pid t p Q s) :
    wp M K.lenient pid t p Q s := by
  induction p generalizing s with
  | done r => exact h
  | call o k ih =>
    intro s₁ fresh hFresh hRely hInv
    obtain ⟨-, hNext⟩ := h s₁ fresh hFresh hRely hInv
    exact ⟨trivial, fun d out hOut => ih _ (hNext d out hOut)⟩

/-- The requirements are met once for all, and further walks need not care. -/
theorem wp_lenient {p : Prog O R ε β} {Q Q' : Except ε β → σ → Prop} {s : σ} (h : wp M K pid t p Q s)
    (h' : wp M K.lenient pid t p Q' s) : wp M K pid t p (fun r s => Q r s ∧ Q' r s) s := by
  induction p generalizing s with
  | done r => exact ⟨h, h'⟩
  | call o k ih =>
    intro s₁ fresh hFresh hRely hInv
    obtain ⟨hReq, hNext⟩ := h s₁ fresh hFresh hRely hInv
    obtain ⟨-, hNext'⟩ := h' s₁ fresh hFresh hRely hInv
    exact ⟨hReq, fun d out hOut => ih _ (hNext d out hOut) (hNext' d out hOut)⟩

/-- A walk does not depend on what the ends of programs are promised to meet. -/
theorem wp_promise {p : Prog O R ε β} {Q : Except ε β → σ → Prop} {s : σ}
    (promise : Nat → T → Except ε α → σ → Prop) (h : wp M K pid t p Q s) :
    wp M { K with post := promise } pid t p Q s := by
  induction p generalizing s with
  | done r => exact h
  | call o k ih =>
    intro s₁ fresh hFresh hRely hInv
    obtain ⟨hReq, hNext⟩ := h s₁ fresh hFresh hRely hInv
    exact ⟨hReq, fun d out hOut => ih _ (hNext d out hOut)⟩

theorem wp_free {p : Prog O R ε β} {Q : Except ε β → σ → Prop} {s : σ}
    (hReq : ∀ s o, K.req pid t s o) (hQ : ∀ r s, Q r s) : wp M K pid t p Q s := by
  induction p generalizing s with
  | done r => exact hQ r s
  | call o k ih =>
    intro s₁ fresh hFresh hRely hInv
    exact ⟨hReq s₁ o, fun d out hOut => ih _⟩

/-- The obligations a contract puts on the machine alone, with no program in
sight: one call, one environment action, one started program. The invariant is kept
with the started program counted. -/
structure Sound (M : Machine σ O R ε α T D E) (K : Contract σ O ε α T) : Prop where
  rely_trans : ∀ pid s₁ s₂ s₃, K.rely pid s₁ s₂ → K.rely pid s₂ s₃ → K.rely pid s₁ s₃
  rely_refl : ∀ pid s, K.rely pid s s
  post_rely : ∀ pid t r s s', K.post pid t r s → K.rely pid s s' → K.post pid t r s'
  exec : ∀ s t pid fresh o d out, K.inv fresh s → K.req pid t s o → pid < fresh →
    M.exec s t pid fresh o d = some out →
      K.inv (fresh + out.spawned.toList.length) out.shared ∧
      (∀ q, q < fresh → q ≠ pid → K.rely q s out.shared) ∧
      ∀ t', out.spawned = some t' → wp M K fresh t' (M.body t') (K.post fresh t') out.shared
  env : ∀ s fresh e out, K.inv fresh s → M.env s fresh e = some out →
      K.inv (fresh + out.2.toList.length) out.1 ∧
      (∀ q, q < fresh → K.rely q s out.1) ∧
      ∀ t', out.2 = some t' → wp M K fresh t' (M.body t') (K.post fresh t') out.1

/-- The state of a run that keeps its contract: each program is still on a path
whose remaining calls meet their requirements. -/
structure Kept (M : Machine σ O R ε α T D E) (K : Contract σ O ε α T)
    (S : State σ O R ε α T) : Prop where
  inv : K.inv S.procs.length S.shared
  procs : ∀ pid p, S.procs[pid]? = some p →
    wp M K pid p.task p.prog (K.post pid p.task) S.shared

theorem Sound.wp_rely (h : Sound M K) {p : Prog O R ε α} {s s' : σ}
    (hp : wp M K pid t p (K.post pid t) s) (hs : K.rely pid s s') :
    wp M K pid t p (K.post pid t) s' := by
  cases p with
  | done r => exact h.post_rely pid t r s s' hp hs
  | call o k =>
    exact fun s₁ fresh hFresh hRely hInv =>
      hp s₁ fresh hFresh (h.rely_trans pid s s' s₁ hs hRely) hInv

theorem getElem?_append_spawned {ρ : Type} {l : List ρ} {sp : Option T} {f : T → ρ} {q : Nat}
    {p : ρ} (h : (l ++ sp.toList.map f)[q]? = some p) :
    l[q]? = some p ∨ (q = l.length ∧ ∃ t, sp = some t ∧ p = f t) := by
  by_cases hlt : q < l.length
  · exact .inl (by rwa [List.getElem?_append_left hlt] at h)
  · rw [List.getElem?_append_right (by omega)] at h
    cases hsp : sp with
    | none => simp [hsp] at h
    | some t =>
      have hq : q - l.length = 0 := by
        have := (List.getElem?_eq_some_iff.mp h).1
        simp [hsp] at this
        omega
      simp only [hsp, hq] at h
      exact .inr ⟨by omega, t, rfl, by simpa [eq_comm] using h⟩

theorem Sound.kept_step (h : Sound M K) {S S' : State σ O R ε α T} {l : Label D E}
    (hS : Kept M K S) (hStep : M.step S l = some S') : Kept M K S' := by
  obtain ⟨pid, d, t, o, k, out, -, hProc, hExec, rfl⟩ | ⟨e, out, -, hEnv, rfl⟩ :=
    Machine.step_cases hStep
  · have hpid : pid < S.procs.length := (List.getElem?_eq_some_iff.mp hProc).1
    obtain ⟨hReq, hNext⟩ := hS.procs pid _ hProc S.shared _ hpid (h.rely_refl pid _) hS.inv
    obtain ⟨hInv, hRely, hSpawn⟩ := h.exec _ _ _ _ _ _ _ hS.inv hReq hpid hExec
    refine ⟨by simpa using hInv, fun q p hq => ?_⟩
    obtain hOld | ⟨rfl, t', hsp, rfl⟩ := getElem?_append_spawned hq
    · by_cases hqp : q = pid
      · subst hqp
        rw [List.getElem?_set_self hpid] at hOld
        cases hOld
        exact hNext d out hExec
      · rw [List.getElem?_set_ne (Ne.symm hqp)] at hOld
        have hlt := (List.getElem?_eq_some_iff.mp hOld).1
        exact h.wp_rely (hS.procs q p hOld) (hRely q hlt hqp)
    · rw [List.length_set]
      exact hSpawn t' hsp
  · obtain ⟨hInv, hRely, hSpawn⟩ := h.env _ _ _ _ hS.inv hEnv
    refine ⟨by simpa using hInv, fun q p hq => ?_⟩
    obtain hOld | ⟨rfl, t', hsp, rfl⟩ := getElem?_append_spawned hq
    · have hlt := (List.getElem?_eq_some_iff.mp hOld).1
      exact h.wp_rely (hS.procs q p hOld) (hRely q hlt)
    · exact hSpawn t' hsp

theorem Sound.kept (h : Sound M K) {C : State σ O R ε α T → Label D E → Prop}
    {S S' : State σ O R ε α T} (hS : Kept M K S) (hReach : M.Reach C S S') : Kept M K S' := by
  induction hReach with
  | refl => exact hS
  | tail _ _ hStep ih => exact h.kept_step ih hStep

theorem Kept.req (h : Sound M K) {S : State σ O R ε α T} (hS : Kept M K S) {o : O}
    {k : Except ε (R o) → Prog O R ε α} (hProc : S.procs[pid]? = some ⟨t, .call o k⟩) :
    K.req pid t S.shared o :=
  (hS.procs pid _ hProc S.shared _ (List.getElem?_eq_some_iff.mp hProc).1
    (h.rely_refl pid _) hS.inv).1

theorem Kept.post {S : State σ O R ε α T} (hS : Kept M K S) {r : Except ε α}
    (hProc : S.procs[pid]? = some ⟨t, .done r⟩) : K.post pid t r S.shared :=
  hS.procs pid _ hProc

theorem Sound.follow (h : Sound M K) {Q : Except ε α → σ → Prop} {S S' : State σ O R ε α T}
    {C : State σ O R ε α T → Label D E → Prop} {p : Proc O R ε α T}
    (hStable : ∀ r s s', Q r s → K.rely pid s s' → Q r s') (hS : Kept M K S)
    (hp : S.procs[pid]? = some p) (hwp : wp M K.lenient pid p.task p.prog Q S.shared)
    (hReach : M.Reach C S S') :
    ∃ p', S'.procs[pid]? = some p' ∧ p'.task = p.task ∧
      wp M K.lenient pid p.task p'.prog Q S'.shared := by
  induction hReach with
  | refl => exact ⟨p, hp, rfl, hwp⟩
  | @tail S₁ S₂ l hReach _ hStep ih =>
    obtain ⟨⟨t, prog⟩, hp₁, rfl, hwp₁⟩ := ih
    have hS₁ := h.kept hS hReach
    have hLt := (List.getElem?_eq_some_iff.mp hp₁).1
    have hOther : ∀ s', K.rely pid S₁.shared s' → wp M K.lenient pid p.task prog Q s' := by
      intro s' hRely
      cases prog with
      | done r => exact hStable r _ _ hwp₁ hRely
      | call o k =>
        intro s₁ fresh hFresh hRely₁ hInv
        exact hwp₁ s₁ fresh hFresh (h.rely_trans pid _ _ _ hRely hRely₁) hInv
    obtain ⟨q, d, u, o, k, out, -, hProc, hExec, rfl⟩ | ⟨e, out, -, hEnv, rfl⟩ :=
      Machine.step_cases hStep
    · have hReq := hS₁.req h hProc
      have hqLt := (List.getElem?_eq_some_iff.mp hProc).1
      by_cases hq : pid = q
      · subst hq
        rw [hp₁] at hProc
        cases hProc
        refine ⟨⟨p.task, k out.result⟩, ?_, rfl, ?_⟩
        · rw [List.getElem?_append_left (by simpa using hLt), List.getElem?_set_self hLt]
        · exact (hwp₁ S₁.shared _ hLt (h.rely_refl pid _) hS₁.inv).2 d out hExec
      · refine ⟨⟨p.task, prog⟩, ?_, rfl, hOther _ ?_⟩
        · rw [List.getElem?_append_left (by simpa using hLt), List.getElem?_set_ne (Ne.symm hq), hp₁]
        · exact (h.exec _ _ _ _ _ _ _ hS₁.inv hReq hqLt hExec).2.1 pid hLt hq
    · refine ⟨⟨p.task, prog⟩, ?_, rfl, hOther _ ?_⟩
      · rw [List.getElem?_append_left hLt, hp₁]
      · exact (h.env _ _ _ _ hS₁.inv hEnv).2.1 pid hLt

section

variable {okOp : σ → O → D → Bool} {okEnv : σ → E → Bool}

theorem restrict_exec {s : σ} {fresh : Nat} {o : O} {d : D} {out : Outcome σ T (Except ε (R o))}
    (h : (M.restrict okOp okEnv).exec s t pid fresh o d = some out) :
    okOp s o d = true ∧ M.exec s t pid fresh o d = some out := by
  change (if okOp s o d then M.exec s t pid fresh o d else none) = some out at h
  split at h
  next hOk => exact ⟨hOk, h⟩
  · cases h

theorem restrict_env {s : σ} {fresh : Nat} {e : E} {out : σ × Option T}
    (h : (M.restrict okOp okEnv).env s fresh e = some out) :
    okEnv s e = true ∧ M.env s fresh e = some out := by
  change (if okEnv s e then M.env s fresh e else none) = some out at h
  split at h
  next hOk => exact ⟨hOk, h⟩
  · cases h

theorem wp_restrict {p : Prog O R ε β} {Q : Except ε β → σ → Prop} {s : σ}
    (h : wp M K pid t p Q s) : wp (M.restrict okOp okEnv) K pid t p Q s := by
  induction p generalizing s with
  | done r => exact h
  | call o k ih =>
    intro s₁ fresh hFresh hRely hInv
    obtain ⟨hReq, hNext⟩ := h s₁ fresh hFresh hRely hInv
    exact ⟨hReq, fun d out hOut => ih _ (hNext d out (restrict_exec hOut).2)⟩

theorem Sound.restrict (h : Sound M K) : Sound (M.restrict okOp okEnv) K where
  rely_trans := h.rely_trans
  rely_refl := h.rely_refl
  post_rely := h.post_rely
  exec s t pid fresh o d out hInv hReq hPid hExec := by
    obtain ⟨hInv', hRely, hSpawn⟩ := h.exec s t pid fresh o d out hInv hReq hPid (restrict_exec hExec).2
    exact ⟨hInv', hRely, fun t' hNew => wp_restrict (hSpawn t' hNew)⟩
  env s fresh e out hInv hEnv := by
    obtain ⟨hInv', hRely, hSpawn⟩ := h.env s fresh e out hInv (restrict_env hEnv).2
    exact ⟨hInv', hRely, fun t' hNew => wp_restrict (hSpawn t' hNew)⟩

theorem Kept.restrict {S : State σ O R ε α T} (h : Kept M K S) :
    Kept (M.restrict okOp okEnv) K S :=
  ⟨h.inv, fun pid p hp => wp_restrict (h.procs pid p hp)⟩

end

end

end Coroutine
