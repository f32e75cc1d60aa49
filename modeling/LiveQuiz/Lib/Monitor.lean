import LiveQuiz.Lib.Coroutine

/-! # Monitors

A monitor reads the calls of a program and their replies and moves between its own
states. `Follows` says that a program only makes calls its monitor allows and ends
as its monitor expects, whatever the replies are: no shared state is involved.
-/

namespace Coroutine

set_option autoImplicit false

structure Monitor (O : Type) (R : O → Type) (ε σ : Type) where
  allowed : σ → O → Prop
  next : σ → (o : O) → Except ε (R o) → σ

section

variable {O : Type} {R : O → Type} {ε σ α β : Type}

def Follows (A : Monitor O R ε σ) (Q : σ → Except ε α → Prop) : σ → Prog O R ε α → Prop
  | s, .done r => Q s r
  | s, .call o k => A.allowed s o ∧ ∀ r, Follows A Q (A.next s o r) (k r)

variable {A : Monitor O R ε σ} {s : σ}

theorem Follows.mono {p : Prog O R ε α} {Q Q' : σ → Except ε α → Prop} (h : Follows A Q s p)
    (hQ : ∀ s r, Q s r → Q' s r) : Follows A Q' s p := by
  induction p generalizing s with
  | done r => exact hQ s r h
  | call o k ih => exact ⟨h.1, fun r => ih r (h.2 r)⟩

/-- What a program must establish for its continuation to follow the monitor. -/
def Before (A : Monitor O R ε σ) (Q : σ → Except ε β → Prop) (f : α → Prog O R ε β) :
    σ → Except ε α → Prop
  | s, .ok a => Follows A Q s (f a)
  | s, .error e => Q s (.error e)

def Under (A : Monitor O R ε σ) (Q : σ → Except ε α → Prop) (h : ε → Prog O R ε α) :
    σ → Except ε α → Prop
  | s, .ok a => Q s (.ok a)
  | s, .error e => Follows A Q s (h e)

theorem Follows.bind {p : Prog O R ε α} {f : α → Prog O R ε β} {Q : σ → Except ε β → Prop}
    (h : Follows A (Before A Q f) s p) : Follows A Q s (p.bind f) := by
  induction p generalizing s with
  | done r => cases r <;> exact h
  | call o k ih => exact ⟨h.1, fun r => ih r (h.2 r)⟩

theorem Follows.handle {p : Prog O R ε α} {f : ε → Prog O R ε α} {Q : σ → Except ε α → Prop}
    (h : Follows A (Under A Q f) s p) : Follows A Q s (p.handle f) := by
  induction p generalizing s with
  | done r => cases r <;> exact h
  | call o k ih => exact ⟨h.1, fun r => ih r (h.2 r)⟩

def AtExit (A : Monitor O R ε σ) (Q : σ → Except ε α → Prop) (rollback : O) : σ → Except ε α → Prop
  | s, .ok a => Q s (.ok a)
  | s, .error e => A.allowed s rollback ∧ ∀ r, Q (A.next s rollback r) (.error (Prog.raised e r))

theorem Follows.session {p : Prog O R ε α} {rollback : O} {Q : σ → Except ε α → Prop}
    (h : Follows A (AtExit A Q rollback) s p) : Follows A Q s (p.session rollback) := by
  refine Follows.handle (h.mono fun s r hr => ?_)
  cases r with
  | ok a => exact hr
  | error e => exact ⟨hr.1, fun r => by cases r <;> exact hr.2 _⟩

/-- One run of a program by itself: its calls with their replies, and its end. -/
inductive Plays : Prog O R ε α → List ((o : O) × Except ε (R o)) → Except ε α → Prop
  | done (r : Except ε α) : Plays (.done r) [] r
  | call {o : O} {k : Except ε (R o) → Prog O R ε α} (x : Except ε (R o))
      {log : List ((o : O) × Except ε (R o))} {r : Except ε α} (h : Plays (k x) log r) :
      Plays (.call o k) (⟨o, x⟩ :: log) r

def Prog.logWith (answer : (o : O) → Except ε (R o)) :
    Prog O R ε α → List ((o : O) × Except ε (R o))
  | .done _ => []
  | .call o k => ⟨o, answer o⟩ :: (k (answer o)).logWith answer

theorem exists_plays (answer : (o : O) → Except ε (R o)) (p : Prog O R ε α) :
    ∃ r, Plays p (p.logWith answer) r := by
  induction p with
  | done r => exact ⟨r, .done r⟩
  | call o k ih =>
    obtain ⟨r, hPlays⟩ := ih (answer o)
    exact ⟨r, .call _ hPlays⟩

theorem Plays.bind {p : Prog O R ε α} {f : α → Prog O R ε β} {a : α} {r : Except ε β}
    {log log' : List ((o : O) × Except ε (R o))} (hp : Plays p log (.ok a)) (hf : Plays (f a) log' r) :
    Plays (p.bind f) (log ++ log') r := by
  generalize hEnd : Except.ok a = e at hp
  induction hp with
  | done _ =>
    subst hEnd
    exact hf
  | call x _ ih => exact .call x (ih hEnd)

theorem Plays.handle {p : Prog O R ε α} {h : ε → Prog O R ε α} {a : α}
    {log : List ((o : O) × Except ε (R o))} (hp : Plays p log (.ok a)) :
    Plays (p.handle h) log (.ok a) := by
  generalize hEnd : Except.ok a = e at hp
  induction hp with
  | done _ =>
    subst hEnd
    exact .done _
  | call x _ ih => exact .call x (ih hEnd)

/-- The monitor's state after a log. -/
def Monitor.after (A : Monitor O R ε σ) (s : σ) (log : List ((o : O) × Except ε (R o))) : σ :=
  log.foldl (fun s e => A.next s e.1 e.2) s

theorem Follows.allowed_at {p : Prog O R ε α} {Q : σ → Except ε α → Prop}
    {before after : List ((o : O) × Except ε (R o))} {o : O} {x : Except ε (R o)}
    {r : Except ε α} (h : Follows A Q s p) (hPlays : Plays p (before ++ ⟨o, x⟩ :: after) r) :
    A.allowed (A.after s before) o := by
  induction before generalizing p s with
  | nil =>
    cases hPlays
    exact h.1
  | cons e before ih =>
    cases hPlays with
    | call y hNext => exact ih (h.2 y) hNext

end

end Coroutine
