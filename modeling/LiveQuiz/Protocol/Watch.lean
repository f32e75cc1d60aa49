import LiveQuiz.Lib.Monitor
import LiveQuiz.Service.Session

/-! # Walks under a monitor that lets errors end a program

The monitor only keeps what the program has been told, so an error may end it in
any state and the context managers and handlers add nothing to a walk.
-/

namespace LiveQuiz

open Coroutine

set_option autoImplicit false

namespace Watch

section

variable {α β σ : Type} {A : Monitor Op Op.Res Exn σ} {s : σ} {Q : σ → Except Exn α → Prop}

def Lax (Q : σ → Except Exn α → Prop) : Prop := ∀ s e, Q s (.error e)

theorem Lax.bind {f : β → Coro α} (hQ : Lax Q) : Lax (Before A Q f) := hQ

theorem call {o : Op} {f : o.Res → Coro α} (hQ : Lax Q) (hAllowed : A.allowed s o)
    (hNext : ∀ x, Follows A Q (A.next s o (.ok x)) (f x)) :
    Follows A Q s (Prog.perform o >>= f) := by
  refine ⟨hAllowed, fun r => ?_⟩
  cases r with
  | ok x => exact hNext x
  | error e => exact hQ _ e

theorem last {o : Op} {Q : σ → Except Exn o.Res → Prop} (hAllowed : A.allowed s o)
    (hQ : ∀ s r, Q s r) : Follows A Q s (Prog.perform o) :=
  ⟨hAllowed, fun r => hQ _ r⟩

theorem refused {code message : String} {status : Nat} {details : List (String × String)}
    (hQ : Lax Q) : Follows A Q s (raise code status message details) :=
  hQ s _

theorem guarded {c : Prop} [Decidable c] {code message : String} {status : Nat}
    {details : List (String × String)} {f : β → Coro α} {p : Coro α} (hQ : Lax Q)
    (hp : Follows A Q s p) :
    Follows A Q s (if c then raise code status message details >>= f else p) := by
  split
  · exact hQ s _
  · exact hp

theorem withSession {p : Coro α} (hRollback : ∀ s, A.allowed s .rollback) (hQ : Lax Q)
    (hp : Follows A Q s p) : Follows A Q s (withSession p) := by
  apply Follows.session
  apply hp.mono
  intro s' r hr
  cases r with
  | ok a => exact hr
  | error e => exact ⟨hRollback s', fun _ => hQ _ _⟩

theorem exceptException {p : Coro α} {default : α} (hQ : Lax Q)
    (hp : Follows A (fun _ _ => True) s p) (hOk : ∀ s a, Q s (.ok a)) :
    Follows A Q s (exceptException p default) := by
  apply Follows.handle
  apply hp.mono
  intro s' r _
  cases r with
  | ok a => exact hOk s' a
  | error e =>
    cases e with
    | cancelled => exact hQ s' _
    | crashed => exact hQ s' _
    | auth code status message details => exact hOk s' default
    | integrity => exact hOk s' default
    | fault => exact hOk s' default

theorem broadcast {code : String} {message : Message} {f : Unit → Coro α} (hQ : Lax Q)
    (hId : A.allowed s .nextId) (hSend : ∀ s, A.allowed s (.broadcast code message))
    (hNext : ∀ s, Follows A Q s (f ())) : Follows A Q s (broadcast code message >>= f) := by
  apply Follows.bind
  apply call hQ.bind hId
  intro _
  apply exceptException hQ.bind
  · exact last (hSend _) fun _ _ => trivial
  · exact fun s _ => hNext s

end

end Watch

end LiveQuiz
