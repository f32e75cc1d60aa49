import Mathlib.Logic.Function.Basic
import LiveQuiz.Lib.Contract

/-! # History variables

A machine that also notes what its programs ask for and in which state. The notes
have no influence, so every run is a run with notes.
-/

namespace Coroutine

set_option autoImplicit false

variable {σ O : Type} {R : O → Type} {ε α T D E η : Type}

/-- `note h pid o s` is the history after program `pid` has made the call `o` in `s`. -/
def Machine.noting (M : Machine σ O R ε α T D E) (note : η → Nat → O → σ → η) :
    Machine (σ × η) O R ε α T D E where
  exec s t pid fresh o d := (M.exec s.1 t pid fresh o d).map fun out =>
    ⟨(out.shared, note s.2 pid o s.1), out.result, out.spawned⟩
  env s fresh e := (M.env s.1 fresh e).map fun out => ((out.1, s.2), out.2)
  body := M.body

def State.noted (S : State σ O R ε α T) (h : η) : State (σ × η) O R ε α T := ⟨(S.shared, h), S.procs⟩

section

variable {M : Machine σ O R ε α T D E} {f : η → Nat → O → σ → η} {S S' : State σ O R ε α T}
  {h : η} {pid fresh : Nat} {t : T} {o : O} {d : D}

theorem noting_exec {s : σ × η} {out : Outcome (σ × η) T (Except ε (R o))}
    (hExec : (M.noting f).exec s t pid fresh o d = some out) :
    out.shared.2 = f s.2 pid o s.1 ∧
      M.exec s.1 t pid fresh o d = some ⟨out.shared.1, out.result, out.spawned⟩ := by
  obtain ⟨a, hA, rfl⟩ := Option.map_eq_some_iff.mp hExec
  exact ⟨rfl, hA⟩

theorem noting_env {s : σ × η} {e : E} {out : (σ × η) × Option T}
    (hEnv : (M.noting f).env s fresh e = some out) :
    out.1.2 = s.2 ∧ M.env s.1 fresh e = some (out.1.1, out.2) := by
  obtain ⟨a, hA, rfl⟩ := Option.map_eq_some_iff.mp hEnv
  exact ⟨rfl, hA⟩

/-- The notes after a step. -/
def noted (note : η → Nat → O → σ → η) (S : State σ O R ε α T) (h : η) : Label D E → η
  | .op pid _ =>
    match S.procs[pid]? with
    | some ⟨_, .call o _⟩ => note h pid o S.shared
    | _ => h
  | .env _ => h

theorem step_noted {l : Label D E} (hStep : M.step S l = some S') :
    (M.noting f).step (S.noted h) l = some (S'.noted (noted f S h l)) := by
  obtain ⟨pid, d, t, o, k, out, rfl, hProc, hExec, rfl⟩ | ⟨e, out, rfl, hEnv, rfl⟩ :=
    Machine.step_cases hStep
  · simp only [Machine.step, State.noted, hProc, Option.bind_some, Machine.advance, Machine.noting,
      hExec, Option.map_some, noted]
    rfl
  · simp only [Machine.step, State.noted, Machine.noting, hEnv, Option.map_some, noted]
    rfl

theorem Machine.Reach.noted {C : State σ O R ε α T → Label D E → Prop} (hReach : M.Reach C S S')
    (h : η) : ∃ h', (M.noting f).Reach (fun _ _ => True) (S.noted h) (S'.noted h') := by
  induction hReach with
  | refl => exact ⟨h, .refl⟩
  | tail _ _ hStep ih =>
    obtain ⟨h', hRun⟩ := ih
    exact ⟨_, hRun.tail trivial (step_noted hStep)⟩

end

section

variable {ν β : Type}

def personal (g : ν → Nat → O → σ → ν) (h : Nat → ν) (pid : Nat) (o : O) (s : σ) : Nat → ν :=
  Function.update h pid (g (h pid) pid o s)

/-- A contract for the machine with notes, with a further promise about the notes. -/
def Contract.personal (K : Contract σ O ε α T)
    (post : Nat → T → Except ε α → σ × (Nat → ν) → Prop) : Contract (σ × (Nat → ν)) O ε α T where
  inv n s := K.inv n s.1
  rely pid s s' := K.rely pid s.1 s'.1 ∧ s'.2 pid = s.2 pid
  req pid t s o := K.req pid t s.1 o
  post pid t r s := K.post pid t r s.1 ∧ post pid t r s

/-- `t` is started as program `fresh` and leaves the state `s`. -/
inductive Machine.Starts (M : Machine σ O R ε α T D E) (K : Contract σ O ε α T) (fresh : Nat) (t : T)
    (s : σ) : Prop
  | exec (s₀ : σ) (t₀ : T) (pid : Nat) (o : O) (d : D) (out : Outcome σ T (Except ε (R o))) :
      K.inv fresh s₀ → K.req pid t₀ s₀ o → M.exec s₀ t₀ pid fresh o d = some out →
      out.spawned = some t → out.shared = s → M.Starts K fresh t s
  | env (s₀ : σ) (e : E) (out : σ × Option T) :
      K.inv fresh s₀ → M.env s₀ fresh e = some out → out.2 = some t → out.1 = s → M.Starts K fresh t s

variable {M : Machine σ O R ε α T D E} {K : Contract σ O ε α T} {g : ν → Nat → O → σ → ν}
  {post : Nat → T → Except ε α → σ × (Nat → ν) → Prop} {pid : Nat} {t : T}

theorem personal_self (h : Nat → ν) (o : O) (s : σ) : personal g h pid o s pid = g (h pid) pid o s :=
  Function.update_self _ _ _

theorem personal_of_ne {q : Nat} (hq : q ≠ pid) (h : Nat → ν) (o : O) (s : σ) :
    personal g h pid o s q = h q := Function.update_of_ne hq _ _

theorem wp_personal {p : Prog O R ε β} {Q : Except ε β → σ → Prop} {s : σ × (Nat → ν)}
    (h : wp M K pid t p Q s.1) :
    wp (M.noting (personal g)) (K.personal post) pid t p (fun r s => Q r s.1) s := by
  induction p generalizing s with
  | done r => exact h
  | call o k ih =>
    intro s₁ fresh hFresh hRely hInv
    obtain ⟨hReq, hNext⟩ := h s₁.1 fresh hFresh hRely.1 hInv
    refine ⟨hReq, fun d out hOut => ih _ ?_⟩
    exact hNext d _ (noting_exec hOut).2

theorem Sound.personal (h : Sound M K)
    (hStable : ∀ pid t r s s', post pid t r s → (K.personal post).rely pid s s' → post pid t r s')
    (hBody : ∀ fresh t s, M.Starts K fresh t s.1 →
      wp (M.noting (personal g)) (K.personal post).lenient fresh t (M.body t) (post fresh t) s) :
    Sound (M.noting (personal g)) (K.personal post) where
  rely_trans pid s₁ s₂ s₃ h₁ h₂ :=
    ⟨h.rely_trans pid s₁.1 s₂.1 s₃.1 h₁.1 h₂.1, h₂.2.trans h₁.2⟩
  rely_refl pid s := ⟨h.rely_refl pid s.1, rfl⟩
  post_rely pid t r s s' hPost hRely :=
    ⟨h.post_rely pid t r s.1 s'.1 hPost.1 hRely.1, hStable pid t r s s' hPost.2 hRely⟩
  exec s t pid fresh o d out hInv hReq hPid hExec := by
    obtain ⟨hNotes, hBase⟩ := noting_exec hExec
    obtain ⟨hInv', hRely, hSpawn⟩ := h.exec s.1 t pid fresh o d _ hInv hReq hPid hBase
    refine ⟨hInv', fun q hq hNe => ⟨hRely q hq hNe, ?_⟩, fun t' ht' => ?_⟩
    · rw [hNotes]
      exact personal_of_ne hNe _ _ _
    · exact wp_lenient (wp_personal (hSpawn t' ht')) (hBody fresh t' out.shared
        (.exec s.1 t pid o d _ hInv hReq hBase ht' rfl))
  env s fresh e out hInv hEnv := by
    obtain ⟨hNotes, hBase⟩ := noting_env hEnv
    obtain ⟨hInv', hRely, hSpawn⟩ := h.env s.1 fresh e _ hInv hBase
    refine ⟨hInv', fun q hq => ⟨hRely q hq, by rw [hNotes]⟩, fun t' ht' => ?_⟩
    exact wp_lenient (wp_personal (hSpawn t' ht')) (hBody fresh t' out.1 (.env s.1 e _ hInv hBase ht' rfl))

end

end Coroutine
