import LiveQuiz.Protocol.Run
import LiveQuiz.Lib.Layer

/-! # Rules for walking a coroutine in a layer

The rules of the contract once more, with a fact `F` that the layer's rely condition
keeps while the coroutine waits for the calls of a stretch.
-/

namespace LiveQuiz

open Coroutine

set_option autoImplicit false

abbrev SysLayer := Layer World Op Task

/-- From `w`, every call of `p` meets the layer's requirement and every normal end
meets `Q`. -/
def Layered {α : Type} (L : SysLayer) (pid : Nat) (t : Task) (p : Coro α) (Q : α → World → Prop)
    (w : World) : Prop :=
  L.wp service contract pid t p (fun r w' => ∀ a, r = .ok a → Q a w') w

/-- The pending call will not return: its process is gone, or a cancellation waits for it.
A COMMIT may take effect and be cancelled. -/
def Stopped (pid : Nat) (t : Task) (w : World) (o : Op) : Prop :=
  w.phase t.replica = .crashed ∨ (o.suspends = true ∧ o ≠ .commit ∧ w.cancelling pid = true)

/-- `F` is kept by the others while a call of the stretch is pending that can return, and
by the coroutine itself as long as it leaves the tables alone. -/
structure Frame (L : SysLayer) (pid : Nat) (t : Task) (stretch : Op → Prop) (F : World → Prop) :
    Prop where
  others : ∀ {o w w'}, stretch o → Rely pid w w' → L.rely pid t o w w' → F w →
    ¬Stopped pid t w' o → F w'
  own : ∀ {w w'}, Holds pid w w' → w'.db = w.db → w'.now = w.now → F w → F w'

section

variable {L : SysLayer} {pid : Nat} {t : Task} {α β : Type} {w : World} {stretch : Op → Prop}
  {F : World → Prop} {tx : Tx}

theorem Frame.trivial : Frame L pid t (fun _ => True) (fun _ => True) :=
  ⟨fun _ _ _ h _ => h, fun _ _ _ h => h⟩

theorem not_stopped {o : Op} (hUp : w.phase t.replica = .up)
    (hLive : o.suspends = true → w.cancelling pid = false) : ¬Stopped pid t w o := by
  rintro (hCrashed | ⟨hSuspends, -, hCancel⟩)
  · rw [hUp] at hCrashed
    cases hCrashed
  · rw [hLive hSuspends] at hCancel
    cases hCancel

namespace Layered

theorem pure {a : α} {Q : α → World → Prop} (h : Q a w) : Layered L pid t (pure a) Q w := by
  intro a' ha
  cases ha
  exact h

theorem throw {e : Exn} {Q : α → World → Prop} : Layered L pid t (throw e) Q w := by
  intro a ha
  cases ha

theorem raise {code : String} {status : Nat} {message : String} {details : List (String × String)}
    {Q : α → World → Prop} : Layered L pid t (raise code status message details) Q w := throw

theorem bind {p : Coro α} {f : α → Coro β} {Q : β → World → Prop}
    (h : Layered L pid t p (fun a w => Layered L pid t (f a) Q w) w) :
    Layered L pid t (p >>= f) Q w := by
  refine Layer.wp_bind (Layer.wp_mono h fun r s hr => ?_)
  cases r with
  | ok a => exact hr a rfl
  | error e => exact fun _ ha => by cases ha

theorem map {p : Coro α} {f : α → β} {Q : β → World → Prop}
    (h : Layered L pid t p (fun a w => Q (f a) w) w) : Layered L pid t (f <$> p) Q w :=
  bind (Layer.wp_mono h fun _ _ hr a ha => pure (hr a ha))

theorem mono {p : Coro α} {Q Q' : α → World → Prop} (h : Layered L pid t p Q w)
    (hQ : ∀ a w, Q a w → Q' a w) : Layered L pid t p Q' w :=
  Layer.wp_mono h fun _ _ hr a ha => hQ _ _ (hr a ha)

theorem refused {c : Prop} [Decidable c] {code : String} {status : Nat} {message : String}
    {details : List (String × String)} {f : α → Coro β} {p : Coro β} {Q : β → World → Prop}
    (h : ¬c → Layered L pid t p Q w) :
    Layered L pid t (if c then LiveQuiz.raise code status message details >>= f else p) Q w := by
  split
  · exact bind raise
  next hc => exact h hc

theorem keeps {p : Coro Ret} {Q : Ret → World → Prop} (h : Layered L pid t p Q w) :
    L.Keeps service contract pid t p w :=
  Layer.wp_mono h fun _ _ _ => trivial

theorem ask {o : Op} {Q : o.Res → World → Prop}
    (h : ∀ w₁ n, Rely pid w w₁ → L.rely pid t o w w₁ → Inv n w₁ → L.inv w₁ → Req pid t w₁ o →
      L.req pid t w₁ o ∧ ∀ d out a, ¬Stopped pid t w₁ o → perform w₁ t pid n o d = some out →
        out.result = .ok a → Inv n out.shared → Q a out.shared) :
    Layered L pid t (ask o) Q w := by
  intro w₁ n hPid hRely hRely' hInv hInv' hReq
  obtain ⟨hReq', hNext⟩ := h w₁ n hRely hRely' hInv hInv' hReq
  refine ⟨hReq', fun d out hExec a ha => ?_⟩
  obtain ⟨hUp, hLive, hOk⟩ | ⟨e, hErr, -⟩ := exec_cases hExec
  · exact hNext d out a (not_stopped hUp hLive) hOk ha (perform_kept hInv hReq hPid hOk).1
  · rw [hErr] at ha
    cases ha

theorem quiet {o : Op} {Q : o.Res → World → Prop} (hFrame : Frame L pid t stretch F) (hF : F w)
    (ho : o.quiet = true) (hIn : stretch o) (hReq : ∀ w₁, L.req pid t w₁ o)
    (h : ∀ w' n a, Holds pid w w' → w'.tx pid = w.tx pid → Inv n w' → F w' → Q a w') :
    Layered L pid t (LiveQuiz.ask o) Q w := by
  have hc : o ≠ .commit := by
    rintro rfl
    cases ho
  refine ask fun w₁ n hRely hRely' hInv hInv' hReq' => ⟨hReq w₁, ?_⟩
  intro d out a hRuns hOk _ hInvOut
  have hOwn := perform_quiet ho hOk
  have hAll := hRely.trans hOwn
  refine h out.shared n a hAll.toHolds hAll.tx hInvOut ?_
  exact hFrame.own hOwn.toHolds (perform_untouched hc hOk).db (perform_effect hOk).now
    (hFrame.others hIn hRely hRely' hF hRuns)

theorem skip {o : Op} {Q : o.Res → World → Prop} (ho : o.quiet = true)
    (hReq : ∀ w₁, L.req pid t w₁ o)
    (h : ∀ w' n a, Holds pid w w' → w'.tx pid = w.tx pid → Inv n w' → Q a w') :
    Layered L pid t (LiveQuiz.ask o) Q w :=
  quiet .trivial True.intro ho True.intro hReq fun w' n a h' hTx hInv _ => h w' n a h' hTx hInv

theorem select {query : Query} {Q : query.Rows → World → Prop} (hFrame : Frame L pid t stretch F)
    (hF : F w) (ho : (Op.select query).quiet = true) (hIn : stretch (.select query))
    (hTx : w.tx pid = tx) (hReq : ∀ w₁, L.req pid t w₁ (.select query))
    (h : ∀ w' n, Holds pid w w' → w'.tx pid = tx → Inv n w' → L.inv w' → F w' →
      Q (query.run (applyAll tx.writes w'.db)) w') :
    Layered L pid t (LiveQuiz.select query) Q w := by
  refine ask fun w₁ n hRely hRely' hInv hInv' hReq' => ⟨hReq w₁, fun d out a hRuns hOk ha _ => ?_⟩
  have hF₁ := hFrame.others hIn hRely hRely' hF hRuns
  have hQ := h w₁ n hRely.toHolds (hRely.tx.trans hTx) hInv hInv' hF₁
  cases hOk
  cases ha
  have hSame : w₁.noteRead pid query = w₁ := by
    cases query with
    | submissionsOfMatch m => simp [Op.quiet] at ho
    | _ => rfl
  rw [hSame, World.view, hRely.tx.trans hTx]
  exact hQ

theorem selectForUpdate {query : LockQuery} {Q : Option query.Row → World → Prop}
    (hFrame : Frame L pid t stretch F) (hF : F w) (hIn : stretch (.selectForUpdate query))
    (hTx : w.tx pid = tx) (hReq : ∀ w₁, L.req pid t w₁ (.selectForUpdate query))
    (hNone : ∀ w' n, Holds pid w w' → w'.tx pid = tx → Inv n w' → F w' → Q none w')
    (hSome : ∀ w' n row, Holds pid w w' → w'.tx pid = tx → Inv n w' → F w' →
      query.find (applyAll tx.writes w'.db) = some row → w'.lock (query.ref row) = some pid →
      Q (some row) w') :
    Layered L pid t (LiveQuiz.selectForUpdate query) Q w := by
  refine ask fun w₁ n hRely hRely' hInv hInv' hReq' => ⟨hReq w₁, ?_⟩
  intro d out a hRuns hOk ha hInvOut
  have hOwn := perform_quiet rfl hOk
  have hAll := hRely.trans hOwn
  have hF' : F out.shared := hFrame.own hOwn.toHolds (perform_untouched (by simp) hOk).db
    (perform_effect hOk).now (hFrame.others hIn hRely hRely' hF hRuns)
  simp only [perform, lockRow] at hOk
  split at hOk
  · cases hOk
    cases ha
    exact hNone w₁ n hAll.toHolds (hAll.tx.trans hTx) hInvOut hF'
  next row hFind =>
    split at hOk
    · cases hOk
      cases ha
      rw [World.view, hRely.tx.trans hTx] at hFind
      exact hSome _ n row hAll.toHolds (hAll.tx.trans hTx) hInvOut hF' hFind (lock_acquire _ _ _)
    · cases hOk

theorem flush {ws : List Write} {Q : Unit → World → Prop} (hFrame : Frame L pid t stretch F)
    (hF : F w) (hIn : stretch (.flush ws)) (hTx : w.tx pid = tx)
    (hReq : ∀ w₁, L.req pid t w₁ (.flush ws))
    (h : ∀ w' n, Holds pid w w' → w'.tx pid = { tx with writes := tx.writes ++ ws } →
      Inv n w' → F w' → Q () w') :
    Layered L pid t (LiveQuiz.flush ws) Q w := by
  refine ask fun w₁ n hRely hRely' hInv hInv' hReq' => ⟨hReq w₁, ?_⟩
  intro d out a hRuns hOk ha hInvOut
  have hDb := (perform_untouched (by simp) hOk).db
  have hNow := (perform_effect hOk).now
  obtain ⟨hErr, -⟩ | ⟨-, hHolds, hTx'⟩ := perform_flush hOk
  · rw [hErr] at ha
    cases ha
  · refine h _ n (hRely.toHolds.trans hHolds) ?_ hInvOut ?_
    · rw [hTx', hRely.tx, hTx]
    · exact hFrame.own hHolds hDb hNow (hFrame.others hIn hRely hRely' hF hRuns)

theorem commit {Q : Unit → World → Prop} (hTx : w.tx pid = tx)
    (hF : ∀ w₁, Rely pid w w₁ → L.rely pid t .commit w w₁ → ¬Stopped pid t w₁ .commit → F w₁)
    (h : ∀ w₁ n, Holds pid w w₁ → w₁.tx pid = tx → Inv n w₁ →
      (w₁.phase t.replica ≠ .crashed → F w₁) → Commit w₁ pid t.job tx.writes →
      L.req pid t w₁ .commit ∧
      (Inv n (w₁.commit pid) → Q () (w₁.commit pid))) :
    Layered L pid t LiveQuiz.commit Q w := by
  refine ask fun w₁ n hRely hRely' hInv hInv' hReq => ?_
  have hTx₁ := hRely.tx.trans hTx
  have hC : Commit w₁ pid t.job tx.writes := by
    rw [← hTx₁]
    exact hReq
  have hF₁ : w₁.phase t.replica ≠ .crashed → F w₁ := by
    refine fun hUp => hF w₁ hRely hRely' ?_
    rintro (hCrashed | ⟨-, hNe, -⟩)
    · exact hUp hCrashed
    · exact hNe rfl
  obtain ⟨hReq', hQ⟩ := h w₁ n hRely.toHolds hTx₁ hInv hF₁ hC
  refine ⟨hReq', fun d out a _ hOk ha hInvOut => ?_⟩
  cases hOk
  exact hQ hInvOut

theorem withSession {p : Coro α} {Q : α → World → Prop} (hReq : ∀ w₁, L.req pid t w₁ .rollback)
    (h : Layered L pid t p Q w) : Layered L pid t (withSession p) Q w := by
  refine Layer.wp_session (Layer.wp_mono h fun r s hr => ?_)
  cases r with
  | ok a => exact hr
  | error e => exact fun w₁ _ _ _ _ _ _ _ => ⟨hReq w₁, fun _ _ _ a ha => by cases ha⟩

theorem inTransaction {p : Coro α} {Q : α → World → Prop} (hReq : ∀ w₁, L.req pid t w₁ .rollback)
    (h : Layered L pid t p (fun a w => Layered L pid t LiveQuiz.commit (fun _ w => Q a w) w) w) :
    Layered L pid t (inTransaction p) Q w :=
  withSession hReq (bind (h.mono fun _ _ hC => bind (hC.mono fun _ _ => pure)))

theorem exceptException {p : Coro α} {default : α} {Q : α → World → Prop}
    (h : Layered L pid t p Q w) (hDefault : ∀ w, Q default w) :
    Layered L pid t (exceptException p default) Q w := by
  refine Layer.wp_handle (Layer.wp_mono h fun r s hr => ?_)
  cases r with
  | ok a => exact hr
  | error e => cases e <;> first | exact throw | exact pure (hDefault s)

theorem broadcast {code : String} {message : Message} {Q : Unit → World → Prop}
    (hFrame : Frame L pid t stretch F) (hF : F w) (hIn : stretch .nextId)
    (hIn' : stretch (.broadcast code message)) (hReq : ∀ w₁, L.req pid t w₁ .nextId)
    (hReq' : ∀ w₁, L.req pid t w₁ (.broadcast code message))
    (h : ∀ w', Holds pid w w' → w'.tx pid = w.tx pid → F w' → Q () w') :
    Layered L pid t (broadcast code message) Q w := by
  refine bind (quiet hFrame hF rfl hIn hReq fun w₀ _ _ hHolds hTx _ hF₀ => ?_)
  refine Layer.wp_handle fun w₁ n hPid hRely hRely' hInv hInv' hReq => ⟨hReq' w₁, fun d out hExec => ?_⟩
  have hF₁ := hFrame.others hIn' hRely hRely' hF₀
  have hSent : ∀ {a : Answer (.broadcast code message)}, ¬Stopped pid t w₁ (.broadcast code message) →
      perform w₁ t pid n (.broadcast code message) d = some a → Q () a.shared := by
    intro a hRuns ha
    have hOwn := perform_quiet rfl ha
    have hAll := hRely.trans hOwn
    refine h a.shared (hHolds.trans hAll.toHolds) (hAll.tx.trans hTx) ?_
    exact hFrame.own hOwn.toHolds (perform_untouched (by simp) ha).db (perform_effect ha).now
      (hF₁ hRuns)
  obtain ⟨hUp, hLive, hOk⟩ | ⟨e, hErr, -, hOut⟩ := exec_cases hExec
  · rw [show out.result = .ok () by cases hOk; rfl]
    exact fun _ _ => hSent (not_stopped hUp hLive) hOk
  · have hThrow : ∀ (e : Exn) (v : World), Layered L pid t (MonadExcept.throw e) Q v :=
      fun _ _ => throw
    have hPure : ∀ v : World, Q () v → Layered L pid t (Pure.pure ()) Q v := fun _ => pure
    rw [hErr]
    generalize out.shared = v at hOut ⊢
    cases hOut with
    | crashed => exact hThrow _ _
    | cancelled => exact hThrow _ _
    | cancelledAfter => exact hThrow _ _
    | fault hUp hLive =>
      exact hPure _ (h w₁ (hHolds.trans hRely.toHolds) (hRely.tx.trans hTx)
        (hF₁ (not_stopped hUp hLive)))
    | faultAfter a hUp ha hLive => exact hPure _ (hSent (not_stopped hUp hLive) ha)

theorem sleepUncancelled {delay : Micros} {Q : Bool → World → Prop}
    (hReq : ∀ w₁, L.req pid t w₁ .utcnow) (hReq' : ∀ w₁ u, L.req pid t w₁ (.sleepUntil u))
    (hFalse : ∀ w', Q false w')
    (hTrue : ∀ w', Holds pid w w' → w'.tx pid = w.tx pid → Q true w') :
    Layered L pid t (sleepUncancelled delay) Q w := by
  refine bind (skip rfl hReq fun w₁ _ now h₁ hTx₁ _ => ?_)
  have hSleep : Layered L pid t (do let _ ← LiveQuiz.ask (.sleepUntil (now + delay)); return true)
      Q w₁ := by
    refine bind (skip rfl (fun w₂ => hReq' w₂ _) fun w₂ _ _ h₂ hTx₂ _ => pure ?_)
    exact hTrue w₂ (h₁.trans h₂) (hTx₂.trans hTx₁)
  refine Layer.wp_handle (Layer.wp_mono hSleep fun r s hr => ?_)
  cases r with
  | ok b => exact hr
  | error e => cases e <;> first | exact throw | exact pure (hFalse s)

theorem spent {p : Coro α} (hReq : ∀ w₁ o, ¬Silent w₁ pid → L.req pid t w₁ o)
    (h : ¬Silent w pid) : Layered L pid t p (fun _ _ => True) w := by
  refine Layer.wp_mono (Q := fun _ _ => True) ?_ fun _ _ _ _ _ => True.intro
  induction p generalizing w with
  | done r => exact True.intro
  | call o k ih =>
    intro w₁ n _ hRely _ _ _ _
    have h₁ : ¬Silent w₁ pid := fun hSilent => h fun ws hws => hSilent ws (hRely.later.wal hws)
    refine ⟨hReq w₁ o h₁, fun d out hExec => ih _ fun hSilent => h₁ fun ws hws => ?_⟩
    exact hSilent ws (exec_wal hExec hws)

end Layered

end

end LiveQuiz
