import LiveQuiz.Protocol.Exec

/-! # Rules for walking a coroutine

One rule for each call and for each context manager. A raised exception leaves a
coroutine with nothing to show, so the rules carry a condition for normal ends
only; the two handlers that look at an exception have their own rules.
-/

namespace LiveQuiz

open Coroutine

set_option autoImplicit false

/-- From `w`, with any interference, every call of `p` meets its requirement and
every normal end meets `Q`. -/
def Runs {α : Type} (pid : Nat) (t : Task) (p : Coro α) (Q : α → World → Prop) (w : World) : Prop :=
  wp service contract pid t p (fun r w' => ∀ a, r = .ok a → Q a w') w

section

variable {pid : Nat} {t : Task} {α β : Type} {w : World}

namespace Runs

theorem pure {a : α} {Q : α → World → Prop} (h : Q a w) : Runs pid t (pure a) Q w := by
  intro a' ha
  cases ha
  exact h

theorem throw {e : Exn} {Q : α → World → Prop} : Runs pid t (throw e) Q w := by
  intro a ha
  cases ha

theorem raise {code : String} {status : Nat} {message : String} {details : List (String × String)}
    {Q : α → World → Prop} : Runs pid t (raise code status message details) Q w := throw

theorem bind {p : Coro α} {f : α → Coro β} {Q : β → World → Prop}
    (h : Runs pid t p (fun a w => Runs pid t (f a) Q w) w) : Runs pid t (p >>= f) Q w := by
  refine wp_bind (wp_mono h fun r s hr => ?_)
  cases r with
  | ok a => exact hr a rfl
  | error e => exact fun _ ha => by cases ha

theorem map {p : Coro α} {f : α → β} {Q : β → World → Prop}
    (h : Runs pid t p (fun a w => Q (f a) w) w) : Runs pid t (f <$> p) Q w :=
  bind (wp_mono h fun _ _ hr a ha => pure (hr a ha))

theorem mono {p : Coro α} {Q Q' : α → World → Prop} (h : Runs pid t p Q w)
    (hQ : ∀ a w, Q a w → Q' a w) : Runs pid t p Q' w :=
  wp_mono h fun _ _ hr a ha => hQ _ _ (hr a ha)

theorem refused {c : Prop} [Decidable c] {code : String} {status : Nat} {message : String}
    {details : List (String × String)} {f : α → Coro β} {p : Coro β} {Q : β → World → Prop}
    (h : ¬c → Runs pid t p Q w) :
    Runs pid t (if c then LiveQuiz.raise code status message details >>= f else p) Q w := by
  split
  · exact bind raise
  next hc => exact h hc

theorem ask {o : Op} {Q : o.Res → World → Prop}
    (h : ∀ w₁ n, pid < n → Rely pid w w₁ → Inv n w₁ → Req pid t w₁ o ∧
      ∀ d out a, (o.suspends = true → w₁.cancelling pid = false) →
        perform w₁ t pid n o d = some out → out.result = .ok a → Inv n out.shared →
        Q a out.shared) :
    Runs pid t (ask o) Q w := by
  refine wp_perform fun w₁ n hPid hRely hInv => ?_
  obtain ⟨hReq, hNext⟩ := h w₁ n hPid hRely hInv
  refine ⟨hReq, fun d out hExec a ha => ?_⟩
  obtain ⟨-, hLive, hOk⟩ | ⟨e, hErr, -⟩ := exec_cases hExec
  · exact hNext d out a hLive hOk ha (perform_kept hInv hReq hPid hOk).1
  · rw [hErr] at ha
    cases ha

end Runs

def Op.quiet : Op → Bool
  | .select (.submissionsOfMatch _) | .flush _ | .commit | .rollback => false
  | .redis (.zaddTotal _ _ _ _) | .setActive _ _ | .cancelActive _ => false
  | _ => true

theorem perform_quiet {o : Op} {n : Nat} {d : Decision} {out : Answer o} (ho : o.quiet = true)
    (h : perform w t pid n o d = some out) : Rely pid w out.shared := by
  have hRefl : ∀ v : World, v.db = w.db → v.tx = w.tx → v.lock = w.lock → v.wal = w.wal →
      w.requests ⊆ v.requests → v.redis.applied = w.redis.applied → v.active = w.active →
      v.cancelling = w.cancelling → Rely pid w v := by
    intro v hdb htx hlock hwal hreq happlied hactive hcancel
    have hCore : SameCore w { v with redis := w.redis } := ⟨hdb, rfl, htx, hlock, hwal, hreq⟩
    have hRely : Rely pid w { v with redis := w.redis } := by
      refine hCore.rely (fun r m hr => ?_) fun hc => hcancel ▸ hc
      unfold Registered
      rw [hactive, hcancel]
      exact hr
    exact { hRely with
      later := { hRely.later with }
      applied := fun row _ ha => happlied ▸ ha
      registered := hRely.registered
      cancelling := hRely.cancelling }
  cases o with
  | sleepUntil u =>
    simp only [perform] at h
    split at h
    · cases h
      exact .refl pid w
    · cases h
  | select query =>
    cases query with
    | submissionsOfMatch m => simp [Op.quiet] at ho
    | _ => cases h; exact .refl pid w
  | selectForUpdate query =>
    simp only [perform, lockRow] at h
    split at h
    · cases h
      exact .refl pid w
    · split at h
      next hFree =>
        cases h
        exact rely_acquire hFree
      · cases h
  | redis c =>
    cases c with
    | zaddTotal m p d i => simp [Op.quiet] at ho
    | idemSet k resp =>
      cases h
      refine hRefl _ rfl rfl rfl rfl (fun _ h => h) ?_ rfl rfl
      cases hOld : w.redis.idem k <;> simp [RedisCmd.run, hOld]
    | _ => cases h; exact hRefl _ rfl rfl rfl rfl (fun _ h => h) rfl rfl rfl
  | flush ws => simp [Op.quiet] at ho
  | commit => simp [Op.quiet] at ho
  | rollback => simp [Op.quiet] at ho
  | setActive m j => simp [Op.quiet] at ho
  | cancelActive m => simp [Op.quiet] at ho
  | broadcast code m => cases h; exact hRefl _ rfl rfl rfl rfl (fun _ h => h) rfl rfl rfl
  | _ => cases h; exact .refl pid w

theorem perform_flush {n : Nat} {ws : List Write} {d : Decision} {out : Answer (.flush ws)}
    (h : perform w t pid n (.flush ws) d = some out) :
    (out.result = .error .integrity ∧ out.shared = w) ∨
    (out.result = .ok () ∧ Holds pid w out.shared ∧
      out.shared.tx pid = { w.tx pid with writes := (w.tx pid).writes ++ ws }) := by
  simp only [perform, flushWrites] at h
  split at h
  · cases h
    exact .inl ⟨rfl, rfl⟩
  · split at h
    · cases h
    next hBlocked =>
      cases h
      obtain ⟨⟨l, hl⟩, hKeep, -⟩ := acquireAll_spec
        fun wr hwr => (blocked_false (by simpa using hBlocked) hwr).1
      rw [hl] at hKeep ⊢
      refine .inr ⟨rfl, ?_, by simp [World.addWrites]⟩
      exact { Holds.refl pid w with later := { Later.refl w with }, lock := hKeep pid }

namespace Runs

variable {tx : Tx}

/-- A call whose reply does not matter, before or after a transaction. -/
theorem quiet {o : Op} {Q : o.Res → World → Prop} (ho : o.quiet = true)
    (hReq : ∀ w₁ n, Holds pid w w₁ → Inv n w₁ → Req pid t w₁ o)
    (h : ∀ w' n a, Holds pid w w' → w'.tx pid = w.tx pid → Inv n w' → Q a w') :
    Runs pid t (LiveQuiz.ask o) Q w := by
  refine ask fun w₁ n _ hRely hInv => ⟨hReq w₁ n hRely.toHolds hInv, ?_⟩
  intro d out a _ hOk _ hInv'
  have hAll := hRely.trans (perform_quiet ho hOk)
  exact h out.shared n a hAll.toHolds hAll.tx hInv'

theorem select {query : Query} {Q : query.Rows → World → Prop}
    (ho : (Op.select query).quiet = true) (hTx : w.tx pid = tx)
    (h : ∀ w' n, Holds pid w w' → w'.tx pid = tx → Inv n w' → Req pid t w' (.select query) ∧
      Q (query.run (applyAll tx.writes w'.db)) w') :
    Runs pid t (LiveQuiz.select query) Q w := by
  refine ask fun w₁ n _ hRely hInv => ?_
  obtain ⟨hReq, hQ⟩ := h w₁ n hRely.toHolds (hRely.tx.trans hTx) hInv
  refine ⟨hReq, fun d out a _ hOk ha _ => ?_⟩
  cases hOk
  cases ha
  have hSame : w₁.noteRead pid query = w₁ := by
    cases query with
    | submissionsOfMatch m => simp [Op.quiet] at ho
    | _ => rfl
  rw [hSame, World.view, hRely.tx.trans hTx]
  exact hQ

theorem selectForUpdate {query : LockQuery} {Q : Option query.Row → World → Prop}
    (hTx : w.tx pid = tx)
    (hNone : ∀ w' n, Holds pid w w' → w'.tx pid = tx → Inv n w' → Q none w')
    (hSome : ∀ w' n row, Holds pid w w' → w'.tx pid = tx → Inv n w' →
      query.find (applyAll tx.writes w'.db) = some row → w'.lock (query.ref row) = some pid →
      Q (some row) w') :
    Runs pid t (LiveQuiz.selectForUpdate query) Q w := by
  refine ask fun w₁ n _ hRely hInv => ⟨trivial, fun d out a _ hOk ha hInv' => ?_⟩
  have hAll := hRely.trans (perform_quiet rfl hOk)
  simp only [perform, lockRow] at hOk
  split at hOk
  · cases hOk
    cases ha
    exact hNone w₁ n hAll.toHolds (hAll.tx.trans hTx) hInv'
  next row hFind =>
    split at hOk
    · cases hOk
      cases ha
      rw [World.view, hRely.tx.trans hTx] at hFind
      exact hSome _ n row hAll.toHolds (hAll.tx.trans hTx) hInv' hFind (lock_acquire _ _ _)
    · cases hOk

theorem selectSubmissions {m : Id} {Q : List AnswerSubmission → World → Prop} (hTx : w.tx pid = tx)
    (h : ∀ w' n rows, Holds pid w w' → w'.tx pid = { tx with aggregated := some (m, rows) } →
      Inv n w' → Q rows w') :
    Runs pid t (LiveQuiz.select (.submissionsOfMatch m)) Q w := by
  refine ask fun w₁ n _ hRely hInv => ⟨trivial, fun d out a _ hOk ha hInv' => ?_⟩
  cases hOk
  cases ha
  refine h _ n _ (hRely.toHolds.trans { Holds.refl pid w₁ with later := { Later.refl w₁ with } }) ?_
    hInv'
  simp [World.noteRead, hRely.tx, hTx]

theorem flush {ws : List Write} {Q : Unit → World → Prop} (hTx : w.tx pid = tx)
    (hRoom : ∀ w₁ n, Holds pid w w₁ → Inv n w₁ → Req pid t w₁ (.flush ws))
    (h : ∀ w' n, Holds pid w w' → w'.tx pid = { tx with writes := tx.writes ++ ws } →
      Inv n w' → Q () w') :
    Runs pid t (LiveQuiz.flush ws) Q w := by
  refine ask fun w₁ n _ hRely hInv => ⟨hRoom w₁ n hRely.toHolds hInv, ?_⟩
  intro d out a _ hOk ha hInv'
  obtain ⟨hErr, -⟩ | ⟨-, hHolds, hTx'⟩ := perform_flush hOk
  · rw [hErr] at ha
    cases ha
  · refine h _ n (hRely.toHolds.trans hHolds) ?_ hInv'
    rw [hTx', hRely.tx, hTx]

theorem commit {Q : Unit → World → Prop} (hTx : w.tx pid = tx)
    (h : ∀ w₁ n, Holds pid w w₁ → w₁.tx pid = tx → Inv n w₁ → Commit w₁ pid t.job tx.writes ∧
      (Inv n (w₁.commit pid) → Later w₁ (w₁.commit pid) → Q () (w₁.commit pid))) :
    Runs pid t LiveQuiz.commit Q w := by
  refine ask fun w₁ n _ hRely hInv => ?_
  have hTx₁ := hRely.tx.trans hTx
  obtain ⟨hC, hQ⟩ := h w₁ n hRely.toHolds hTx₁ hInv
  rw [← hTx₁] at hC
  refine ⟨hC, fun d out a _ hOk ha hInv' => ?_⟩
  cases hOk
  exact hQ hInv' (later_commit hInv hC)

theorem withSession {p : Coro α} {Q : α → World → Prop} (h : Runs pid t p Q w) :
    Runs pid t (withSession p) Q w := by
  refine wp_session (wp_mono h fun r s hr => ?_)
  cases r with
  | ok a => exact hr
  | error e => exact wp_perform fun _ _ _ _ _ => ⟨trivial, fun _ _ _ a ha => by cases ha⟩

theorem inTransaction {p : Coro α} {Q : α → World → Prop}
    (h : Runs pid t p (fun a w => Runs pid t LiveQuiz.commit (fun _ w => Q a w) w) w) :
    Runs pid t (inTransaction p) Q w :=
  withSession (bind (h.mono fun _ _ hC => bind (hC.mono fun _ _ => pure)))

theorem exceptException {p : Coro α} {default : α} {Q : α → World → Prop} (h : Runs pid t p Q w)
    (hDefault : ∀ w, Q default w) : Runs pid t (exceptException p default) Q w := by
  refine wp_handle (wp_mono h fun r s hr => ?_)
  cases r with
  | ok a => exact hr
  | error e => cases e <;> first | exact throw | exact pure (hDefault s)

theorem sleepUncancelled {delay : Micros} {Q : Bool → World → Prop} (hFalse : ∀ w', Q false w')
    (hTrue : ∀ w' n, Holds pid w w' → w'.tx pid = w.tx pid → Inv n w' → Q true w') :
    Runs pid t (sleepUncancelled delay) Q w := by
  refine bind (quiet rfl (fun _ _ _ _ => trivial) fun w₁ _ now hHolds hTx _ => ?_)
  have hSleep : Runs pid t (do let _ ← LiveQuiz.ask (.sleepUntil (now + delay)); return true) Q w₁ := by
    refine bind (quiet rfl (fun _ _ _ _ => trivial) fun w' n _ hHolds' hTx' hInv => ?_)
    exact pure (hTrue w' n (hHolds.trans hHolds') (hTx'.trans hTx) hInv)
  refine wp_handle (wp_mono hSleep fun r s hr => ?_)
  cases r with
  | ok b => exact hr
  | error e => cases e <;> first | exact throw | exact pure (hFalse s)

theorem broadcast {code : String} {message : Message} {Q : Unit → World → Prop}
    (hReq : ∀ w₁ n, Holds pid w w₁ → Inv n w₁ → Req pid t w₁ (.broadcast code message))
    (h : ∀ w' n, Holds pid w w' → w'.tx pid = w.tx pid → Inv n w' → Q () w') :
    Runs pid t (broadcast code message) Q w := by
  refine bind (quiet rfl (fun _ _ _ _ => trivial) fun w₀ _ _ hHolds hTx _ => ?_)
  refine wp_handle (wp_perform fun w₁ n hPid hRely hInv => ?_)
  replace hReq := hReq w₁ n (hHolds.trans hRely.toHolds) hInv
  refine ⟨hReq, fun d out hExec => ?_⟩
  have hSent : ∀ {a : Answer (.broadcast code message)},
      perform w₁ t pid n (.broadcast code message) d = some a → Q () a.shared := by
    intro a ha
    have hAll := hRely.trans (perform_quiet rfl ha)
    exact h a.shared n (hHolds.trans hAll.toHolds) (hAll.tx.trans hTx)
      (perform_kept hInv hReq hPid ha).1
  obtain ⟨-, -, hOk⟩ | ⟨e, hErr, -, hOut⟩ := exec_cases hExec
  · rw [show out.result = .ok () by cases hOk; rfl]
    exact fun _ _ => hSent hOk
  · rw [hErr]
    generalize out.shared = v at hOut ⊢
    cases hOut with
    | crashed => exact throw
    | cancelled => exact throw
    | cancelledAfter => exact throw
    | fault => exact pure (h w₁ n (hHolds.trans hRely.toHolds) (hRely.tx.trans hTx) hInv)
    | faultAfter a _ ha => exact pure (hSent ha)

end Runs

end

end LiveQuiz
