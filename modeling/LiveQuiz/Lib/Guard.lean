import LiveQuiz.Lib.Contract

/-! # Guarded machines

A machine in which a call happens only if a guard admits it. The guard sees the state,
the task and the program that makes the call.
-/

namespace Coroutine

set_option autoImplicit false

variable {σ O : Type} {R : O → Type} {ε α β T D E : Type}

namespace Machine

/-- `ok s t pid o d`: program `pid` with task `t` may make the call `o` in `s`. -/
def guarded (M : Machine σ O R ε α T D E) (ok : σ → T → Nat → O → D → Bool) :
    Machine σ O R ε α T D E where
  exec s t pid fresh o d := if ok s t pid o d then M.exec s t pid fresh o d else none
  env := M.env
  body := M.body

def allows (ok : σ → T → Nat → O → D → Bool) (S : State σ O R ε α T) : Label D E → Bool
  | .op pid d =>
    match S.procs[pid]? with
    | some ⟨t, .call o _⟩ => ok S.shared t pid o d
    | _ => true
  | .env _ => true

section

variable {M : Machine σ O R ε α T D E} {ok : σ → T → Nat → O → D → Bool} {S S' : State σ O R ε α T}

theorem guarded_step {l : Label D E} (hOk : allows ok S l = true) (hStep : M.step S l = some S') :
    (M.guarded ok).step S l = some S' := by
  cases l with
  | op pid d =>
    obtain ⟨⟨t, prog⟩, hProc, hAdv⟩ := Option.bind_eq_some_iff.mp hStep
    cases prog with
    | done r => cases hAdv
    | call o k =>
      simp only [allows, hProc] at hOk
      simp only [step, hProc, Option.bind_some, advance, guarded, hOk, if_true]
      exact hAdv
  | env e => exact hStep

theorem Reach.guarded (h : M.Reach (fun S l => allows ok S l = true) S S') :
    (M.guarded ok).Reach (fun _ _ => True) S S' := by
  induction h with
  | refl => exact .refl
  | tail _ hOk hStep ih => exact ih.tail trivial (guarded_step hOk hStep)

end

end Machine

section

variable {M : Machine σ O R ε α T D E} {K : Contract σ O ε α T} {ok : σ → T → Nat → O → D → Bool}
  {pid fresh : Nat} {t : T} {o : O} {d : D} {s : σ}

theorem guarded_exec {out : Outcome σ T (Except ε (R o))}
    (h : (M.guarded ok).exec s t pid fresh o d = some out) :
    ok s t pid o d = true ∧ M.exec s t pid fresh o d = some out := by
  change (if ok s t pid o d then M.exec s t pid fresh o d else none) = some out at h
  split at h
  case isTrue hOk => exact ⟨hOk, h⟩
  case isFalse => cases h

theorem wp_guarded {p : Prog O R ε β} {Q : Except ε β → σ → Prop} (h : wp M K pid t p Q s) :
    wp (M.guarded ok) K pid t p Q s := by
  induction p generalizing s with
  | done r => exact h
  | call o k ih =>
    intro s₁ fresh hFresh hRely hInv
    obtain ⟨hReq, hNext⟩ := h s₁ fresh hFresh hRely hInv
    exact ⟨hReq, fun d out hOut => ih _ (hNext d out (guarded_exec hOut).2)⟩

theorem Sound.guarded (h : Sound M K) : Sound (M.guarded ok) K where
  rely_trans := h.rely_trans
  rely_refl := h.rely_refl
  post_rely := h.post_rely
  exec s t pid fresh o d out hInv hReq hPid hExec := by
    obtain ⟨hInv', hRely, hSpawn⟩ := h.exec s t pid fresh o d out hInv hReq hPid (guarded_exec hExec).2
    exact ⟨hInv', hRely, fun t' hNew => wp_guarded (hSpawn t' hNew)⟩
  env s fresh e out hInv hEnv := by
    obtain ⟨hInv', hRely, hSpawn⟩ := h.env s fresh e out hInv hEnv
    exact ⟨hInv', hRely, fun t' hNew => wp_guarded (hSpawn t' hNew)⟩

theorem Kept.guarded {S : State σ O R ε α T} (h : Kept M K S) : Kept (M.guarded ok) K S :=
  ⟨h.inv, fun pid p hp => wp_guarded (h.procs pid p hp)⟩

end

end Coroutine
