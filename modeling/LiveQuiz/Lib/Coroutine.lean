import Mathlib.Init

/-! # Resumable programs

A program is a tree of calls to an outside world. Every call may answer with a
value or raise, so error paths are part of the tree and exception handlers are
ordinary combinators. Nothing here fixes what the calls are.
-/

namespace Coroutine

set_option autoImplicit false

/-- A finite program over the calls `O`, answered in `R`, raising in `ε`. -/
inductive Prog (O : Type) (R : O → Type) (ε α : Type) where
  | done (r : Except ε α)
  | call (o : O) (k : Except ε (R o) → Prog O R ε α)

namespace Prog

variable {O : Type} {R : O → Type} {ε α β : Type}

def bind : Prog O R ε α → (α → Prog O R ε β) → Prog O R ε β
  | .done (.ok a), f => f a
  | .done (.error e), _ => .done (.error e)
  | .call o k, f => .call o fun r => (k r).bind f

def handle : Prog O R ε α → (ε → Prog O R ε α) → Prog O R ε α
  | .done (.ok a), _ => .done (.ok a)
  | .done (.error e), h => h e
  | .call o k, h => .call o fun r => (k r).handle h

instance : Monad (Prog O R ε) where
  pure a := .done (.ok a)
  bind := bind

instance : MonadExceptOf ε (Prog O R ε) where
  throw e := .done (.error e)
  tryCatch := handle

def perform (o : O) : Prog O R ε (R o) := .call o .done

/-- `async with ... as session`: leaving by an exception rolls back first. -/
def session (rollback : O) (p : Prog O R ε α) : Prog O R ε α :=
  p.handle fun e => do
    let _ ← perform rollback
    throw e

/-- What a session raises after `e`: a failed rollback takes its place. -/
def raised (e : ε) : Except ε β → ε
  | .ok _ => e
  | .error e' => e'

end Prog

end Coroutine
