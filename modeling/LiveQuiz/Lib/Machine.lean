import LiveQuiz.Lib.Coroutine

/-! # Machines of interleaved programs

A machine runs any number of programs over one shared state. One step answers
one pending call of one program, or is an action of the environment; either may
start a further program. Every interleaving of the calls is a run.
-/

namespace Coroutine

set_option autoImplicit false

structure Outcome (σ T ρ : Type) where
  shared : σ
  result : ρ
  spawned : Option T

/-- `exec s t pid fresh o d` answers the call `o` of program `pid` under the
scheduler's decision `d`, or is blocked; `fresh` is the number the next program
will get. -/
structure Machine (σ O : Type) (R : O → Type) (ε α T D E : Type) where
  exec : σ → T → (pid fresh : Nat) → (o : O) → D → Option (Outcome σ T (Except ε (R o)))
  env : σ → (fresh : Nat) → E → Option (σ × Option T)
  body : T → Prog O R ε α

structure Proc (O : Type) (R : O → Type) (ε α T : Type) where
  task : T
  prog : Prog O R ε α

def Proc.ended {O : Type} {R : O → Type} {ε α T : Type} (p : Proc O R ε α T) : Bool :=
  match p.prog with
  | .done _ => true
  | .call _ _ => false

theorem Proc.ended_iff {O : Type} {R : O → Type} {ε α T : Type} {p : Proc O R ε α T} :
    p.ended = true ↔ ∃ r, p.prog = .done r := by
  obtain ⟨t, prog⟩ := p
  cases prog with
  | done r => exact ⟨fun _ => ⟨r, rfl⟩, fun _ => rfl⟩
  | call o k => exact ⟨fun h => (by cases h), fun ⟨r, h⟩ => (by cases h)⟩

structure State (σ O : Type) (R : O → Type) (ε α T : Type) where
  shared : σ
  procs : List (Proc O R ε α T)

inductive Label (D E : Type) where
  | op (pid : Nat) (d : D)
  | env (e : E)

namespace Machine

variable {σ O : Type} {R : O → Type} {ε α T D E : Type}

def start (M : Machine σ O R ε α T D E) (t : T) : Proc O R ε α T := ⟨t, M.body t⟩

def advance (M : Machine σ O R ε α T D E) (S : State σ O R ε α T) (pid : Nat) (d : D)
    (p : Proc O R ε α T) : Option (State σ O R ε α T) :=
  match p.prog with
  | .done _ => none
  | .call o k =>
    (M.exec S.shared p.task pid S.procs.length o d).map fun out =>
      ⟨out.shared, S.procs.set pid ⟨p.task, k out.result⟩ ++ out.spawned.toList.map M.start⟩

def step (M : Machine σ O R ε α T D E) (S : State σ O R ε α T) :
    Label D E → Option (State σ O R ε α T)
  | .op pid d => S.procs[pid]?.bind (M.advance S pid d)
  | .env e =>
    (M.env S.shared S.procs.length e).map fun out =>
      ⟨out.1, S.procs ++ out.2.toList.map M.start⟩

def run (M : Machine σ O R ε α T D E) :
    State σ O R ε α T → List (Label D E) → Option (State σ O R ε α T)
  | S, [] => some S
  | S, l :: ls => (M.step S l).bind fun S' => M.run S' ls

/-- `S'` is reached from `S` by a run each of whose steps meets `C` in the
state before it. -/
inductive Reach (M : Machine σ O R ε α T D E) (C : State σ O R ε α T → Label D E → Prop)
    (S : State σ O R ε α T) : State σ O R ε α T → Prop
  | refl : Reach M C S S
  | tail {S' S'' : State σ O R ε α T} {l : Label D E} :
      Reach M C S S' → C S' l → M.step S' l = some S'' → Reach M C S S''

theorem Reach.trans {M : Machine σ O R ε α T D E} {C : State σ O R ε α T → Label D E → Prop}
    {S S' S'' : State σ O R ε α T} (h : M.Reach C S S') (h' : M.Reach C S' S'') :
    M.Reach C S S'' := by
  induction h' with
  | refl => exact h
  | tail _ hC hStep ih => exact ih.tail hC hStep

theorem Reach.mono {M : Machine σ O R ε α T D E} {C C' : State σ O R ε α T → Label D E → Prop}
    {S S' : State σ O R ε α T} (h : M.Reach C S S') (hC : ∀ S l, C S l → C' S l) :
    M.Reach C' S S' := by
  induction h with
  | refl => exact .refl
  | tail _ hl hStep ih => exact ih.tail (hC _ _ hl) hStep

theorem Reach.of_run {M : Machine σ O R ε α T D E} {S S' : State σ O R ε α T}
    {ls : List (Label D E)} (h : M.run S ls = some S') : M.Reach (fun _ _ => True) S S' := by
  induction ls generalizing S with
  | nil => cases h; exact .refl
  | cons l ls ih =>
    obtain ⟨S₁, hStep, hRun⟩ := Option.bind_eq_some_iff.mp h
    exact (Reach.refl.tail trivial hStep).trans (ih hRun)

theorem Reach.exists_of_run {M : Machine σ O R ε α T D E} {S : State σ O R ε α T}
    {ls : List (Label D E)} {p : State σ O R ε α T → Bool} (h : (M.run S ls).any p = true) :
    ∃ S', M.Reach (fun _ _ => True) S S' ∧ p S' = true := by
  cases hRun : M.run S ls with
  | none => simp [hRun] at h
  | some S' => exact ⟨S', .of_run hRun, by simpa [hRun] using h⟩

/-- A run that stops where a step would not meet the condition. -/
def runWhile (M : Machine σ O R ε α T D E) (c : State σ O R ε α T → Label D E → Bool) :
    State σ O R ε α T → List (Label D E) → Option (State σ O R ε α T)
  | S, [] => some S
  | S, l :: ls => if c S l then (M.step S l).bind fun S' => M.runWhile c S' ls else none

theorem runWhile_cons {M : Machine σ O R ε α T D E} {c : State σ O R ε α T → Label D E → Bool}
    {S S' : State σ O R ε α T} {l : Label D E} {ls : List (Label D E)}
    (h : M.runWhile c S (l :: ls) = some S') :
    c S l = true ∧ ∃ S₁, M.step S l = some S₁ ∧ M.runWhile c S₁ ls = some S' := by
  simp only [runWhile] at h
  split at h
  next hc => exact ⟨hc, Option.bind_eq_some_iff.mp h⟩
  · cases h

theorem Reach.of_runWhile {M : Machine σ O R ε α T D E}
    {c : State σ O R ε α T → Label D E → Bool} {S S' : State σ O R ε α T} {ls : List (Label D E)}
    (h : M.runWhile c S ls = some S') : M.Reach (fun S l => c S l = true) S S' := by
  induction ls generalizing S with
  | nil => cases h; exact .refl
  | cons l ls ih =>
    obtain ⟨hc, S₁, hStep, hRun⟩ := runWhile_cons h
    exact (Reach.refl.tail hc hStep).trans (ih hRun)

theorem Reach.exists_of_runWhile {M : Machine σ O R ε α T D E}
    {c : State σ O R ε α T → Label D E → Bool} {S : State σ O R ε α T} {ls : List (Label D E)}
    {p : State σ O R ε α T → Bool} (h : (M.runWhile c S ls).any p = true) :
    ∃ S', M.Reach (fun S l => c S l = true) S S' ∧ p S' = true := by
  cases hRun : M.runWhile c S ls with
  | none => simp [hRun] at h
  | some S' => exact ⟨S', .of_runWhile hRun, by simpa [hRun] using h⟩

theorem step_cases {M : Machine σ O R ε α T D E} {S S' : State σ O R ε α T} {l : Label D E}
    (h : M.step S l = some S') :
    (∃ pid d t o k out, l = .op pid d ∧ S.procs[pid]? = some ⟨t, .call o k⟩ ∧
      M.exec S.shared t pid S.procs.length o d = some out ∧
      S' = ⟨out.shared,
        S.procs.set pid ⟨t, k out.result⟩ ++ out.spawned.toList.map M.start⟩) ∨
    (∃ e out, l = .env e ∧ M.env S.shared S.procs.length e = some out ∧
      S' = ⟨out.1, S.procs ++ out.2.toList.map M.start⟩) := by
  cases l with
  | op pid d =>
    obtain ⟨⟨t, prog⟩, hProc, hAdv⟩ := Option.bind_eq_some_iff.mp h
    cases prog with
    | done r => cases hAdv
    | call o k =>
      obtain ⟨out, hOut, rfl⟩ := Option.map_eq_some_iff.mp hAdv
      exact .inl ⟨pid, d, t, o, k, out, rfl, hProc, hOut, rfl⟩
  | env e =>
    obtain ⟨out, hOut, rfl⟩ := Option.map_eq_some_iff.mp h
    exact .inr ⟨e, out, rfl, hOut, rfl⟩

/-- The machine in which only the admitted calls and actions happen. -/
def restrict (M : Machine σ O R ε α T D E) (okOp : σ → O → D → Bool) (okEnv : σ → E → Bool) :
    Machine σ O R ε α T D E where
  exec s t pid fresh o d := if okOp s o d then M.exec s t pid fresh o d else none
  env s fresh e := if okEnv s e then M.env s fresh e else none
  body := M.body

def admits (okOp : σ → O → D → Bool) (okEnv : σ → E → Bool) (S : State σ O R ε α T) :
    Label D E → Bool
  | .op pid d =>
    match S.procs[pid]? with
    | some ⟨_, .call o _⟩ => okOp S.shared o d
    | _ => true
  | .env e => okEnv S.shared e

theorem restrict_step {M : Machine σ O R ε α T D E} {okOp : σ → O → D → Bool}
    {okEnv : σ → E → Bool} {S S' : State σ O R ε α T} {l : Label D E}
    (hOk : admits okOp okEnv S l = true) (hStep : M.step S l = some S') :
    (M.restrict okOp okEnv).step S l = some S' := by
  cases l with
  | op pid d =>
    obtain ⟨⟨t, prog⟩, hProc, hAdv⟩ := Option.bind_eq_some_iff.mp hStep
    cases prog with
    | done r => cases hAdv
    | call o k =>
      simp only [admits, hProc] at hOk
      simp only [step, hProc, Option.bind_some, advance, restrict, hOk, if_true]
      exact hAdv
  | env e =>
    simp only [admits] at hOk
    simp only [step, restrict, hOk, if_true]
    exact hStep

theorem Reach.restrict {M : Machine σ O R ε α T D E} {okOp : σ → O → D → Bool}
    {okEnv : σ → E → Bool} {S S' : State σ O R ε α T}
    (h : M.Reach (fun S l => admits okOp okEnv S l = true) S S') :
    (M.restrict okOp okEnv).Reach (fun _ _ => True) S S' := by
  induction h with
  | refl => exact .refl
  | tail _ hOk hStep ih => exact ih.tail trivial (restrict_step hOk hStep)

end Machine

end Coroutine
