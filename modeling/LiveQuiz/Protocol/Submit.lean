import LiveQuiz.Protocol.Questions

/-! # `submit_answer` keeps the contract -/

namespace LiveQuiz

open Coroutine

set_option autoImplicit false

section

variable {pid : Nat} {t : Task} {w w' : World}

/-- The response belongs to a stored row, and the row to a call with `rid`. -/
def Accepted (w : World) (rid : String) (resp : Response) : Prop :=
  ∃ row ∈ w.db.submissions, ∃ rank, resp = .ofRow row rank ∧ Answers w rid row

theorem admitAnswer_runs {matchId participantId mqId : Id} (hTx : w.tx pid = {}) :
    Runs pid t (admitAnswer matchId participantId mqId) (fun r w' => Holds pid w w' ∧
      HoldsQuestion pid r.1 w' ∧ r.1.id = mqId ∧ r.1.matchId = matchId ∧ w'.tx pid = {}) w := by
  refine .bind (.selectForUpdate hTx (fun _ _ _ _ _ => .raise) ?_)
  intro w₁ n₁ mq h₁ hTx hInv hFind hLock
  have hMem : mq ∈ w₁.db.matchQuestions := List.mem_of_find?_eq_some hFind
  have hId : mq.id = mqId := by simpa using List.find?_some hFind
  refine .refused fun hMatch => ?_
  refine .bind (.select rfl hTx fun w₂ _ h₂ hTx _ => ⟨trivial, ?_⟩)
  split
  case h_2 => exact .raise
  refine .bind (.quiet rfl (fun _ _ _ _ => trivial) fun w₃ _ now h₃ hTx₃ _ => ?_)
  refine .refused fun _ => .refused fun hOpen => ?_
  split
  case h_2 => exact .raise
  refine .refused fun _ => ?_
  refine .bind (.select rfl (hTx₃.trans hTx) fun w₄ _ h₄ hTx₄ _ => ⟨trivial, ?_⟩)
  split
  case h_2 => exact .raise
  refine .refused fun _ => .pure ?_
  have hMq : HoldsQuestion pid mq w₁ := ⟨hMem, hLock, by simpa using hOpen⟩
  replace h₄ := (h₂.trans h₃).trans h₄
  exact ⟨h₁.trans h₄, hMq.holds h₄, hId, by simpa using hMatch, hTx₄⟩

theorem Runs.insertInSavepoint {row : AnswerSubmission} {tx : Tx} {Q : Bool → World → Prop}
    (hTx : w.tx pid = tx)
    (hTrue : ∀ w' n, Holds pid w w' →
      w'.tx pid = { tx with writes := tx.writes ++ [.insertSubmission row] } → Inv n w' → Q true w')
    (hFalse : ∀ w' n, Holds pid w w' → w'.tx pid = tx → Inv n w' → Q false w') :
    Runs pid t (insertInSavepoint row) Q w := by
  refine wp_handle (wp_bind (wp_perform fun w₁ n hPid hRely hInv => ?_))
  have hReq : Req pid t w₁ (.flush [.insertSubmission row]) := by simp [Req]
  refine ⟨hReq, fun d out hExec => ?_⟩
  obtain ⟨-, -, hOk⟩ | ⟨e, hErr, -, hOut⟩ := exec_cases hExec
  · have hInv' := (perform_kept hInv hReq hPid hOk).1
    obtain ⟨hErr, hSame⟩ | ⟨hRes, hHolds, hTx'⟩ := perform_flush hOk
    · rw [hErr, hSame]
      exact Runs.pure (hFalse w₁ n hRely.toHolds (hRely.tx.trans hTx) hInv)
    · rw [hRes]
      rw [hRely.tx, hTx] at hTx'
      intro b hb
      cases hb
      exact hTrue _ n (hRely.toHolds.trans hHolds) hTx' hInv'
  · rw [hErr]
    generalize out.shared = v at hOut ⊢
    cases hOut <;> exact Runs.throw

theorem existingSubmission_runs {matchId participantId mqId : Id} {payload : AnswerSubmitRequest}
    {requestId : String} (hTx : w.tx pid = {})
    (hReq : Job.submitAnswer matchId participantId payload requestId ∈ w.requests)
    (hMq : payload.matchQuestionId = mqId) :
    Runs pid t (existingSubmission mqId participantId requestId) (fun row w' =>
      row ∈ w'.db.submissions ∧ Answers w' requestId row ∧ (row.requestId = requestId ∨
        (row.matchQuestionId = mqId ∧ row.participantId = participantId)) ∧ w'.tx pid = {}) w := by
  refine .bind (.select rfl hTx fun w₁ _ h₁ hTx hInv => ⟨trivial, ?_⟩)
  split
  next row hFind =>
    have hRow : row ∈ w₁.db.submissions := List.mem_of_find?_eq_some hFind
    have hRid : row.requestId = requestId := by simpa using List.find?_some hFind
    exact .pure ⟨hRow, hRid ▸ hInv.answered row hRow, .inl hRid, hTx⟩
  · refine .bind (.select rfl hTx fun w₂ _ h₂ hTx _ => ⟨trivial, ?_⟩)
    split
    case h_2 => exact .raise
    next row hFind =>
    have hOnce : row.matchQuestionId = mqId ∧ row.participantId = participantId := by
      simpa using List.find?_some hFind
    refine .pure ⟨List.mem_of_find?_eq_some hFind, ⟨matchId, payload, ?_, ?_⟩,
      .inr hOnce, hTx⟩
    · rw [hOnce.2]
      exact (h₁.later.trans h₂.later).requests hReq
    · rw [hOnce.1, hMq]

theorem submitTx_runs {matchId participantId : Id} {payload : AnswerSubmitRequest}
    {requestId : String} (hTx : w.tx pid = {})
    (hReq : Job.submitAnswer matchId participantId payload requestId ∈ w.requests) :
    Runs pid t (submitTx matchId participantId payload requestId) (fun r w' => match r with
      | .duplicate resp => w'.tx pid = {} ∧ ∃ row ∈ w'.db.submissions,
          resp = .ofRow row none ∧ Answers w' requestId row ∧ (row.requestId = requestId ∨
            (row.matchQuestionId = payload.matchQuestionId ∧ row.participantId = participantId))
      | .inserted row questionId _ _ => row.matchId = matchId ∧ row.participantId = participantId ∧
          row.requestId = requestId ∧ Answers w' requestId row ∧
          ∃ mq roomId eventId now, HoldsQuestion pid mq w' ∧ mq.questionId = questionId ∧
            mq.id = payload.matchQuestionId ∧ mq.id = row.matchQuestionId ∧ mq.matchId = matchId ∧
            w'.tx pid = { writes := submitWrites row roomId questionId eventId now }) w := by
  refine .bind ((admitAnswer_runs hTx).mono ?_)
  rintro ⟨mq, m, now, deadlineAt, startedAt, participant⟩ w₁ ⟨h₁, hMq, hId, hMatch, hTx⟩
  refine .bind (.select rfl hTx fun w₂ _ h₂ hTx _ => ⟨(hMq.holds h₂).reads, ?_⟩)
  dsimp only
  split
  case h_2 => exact .raise
  refine .bind (.select rfl hTx fun w₃ _ h₃ hTx _ => ⟨(hMq.holds (h₂.trans h₃)).reads, ?_⟩)
  refine .bind (.select rfl hTx fun w₄ _ h₄ hTx _ => ⟨trivial, ?_⟩)
  refine .bind (.quiet rfl (fun _ _ _ _ => trivial) fun w₅ _ id h₅ hTx₅ _ => ?_)
  replace h₅ := ((h₂.trans h₃).trans h₄).trans h₅
  refine .bind (.insertInSavepoint (hTx₅.trans hTx) (fun w₆ _ h₆ hTx₆ _ => ?_)
    fun w₆ _ h₆ hTx₆ _ => ?_)
  · refine .bind (.quiet rfl (fun _ _ _ _ => trivial) fun w₇ _ eventId h₇ hTx₇ _ => ?_)
    refine .bind (.flush (hTx₇.trans hTx₆) (fun _ _ _ _ => by simp [Req]) fun w₈ _ h₈ hTx₈ _ => ?_)
    replace h₈ := ((h₅.trans h₆).trans h₇).trans h₈
    refine .pure ⟨rfl, rfl, rfl, ⟨matchId, payload, ?_, hId.symm⟩, mq, m.roomId, eventId, now,
      hMq.holds h₈, rfl, hId, rfl, hMatch, hTx₈⟩
    exact (h₁.later.trans h₈.later).requests hReq
  · replace h₆ := h₁.trans (h₅.trans h₆)
    refine .bind ((existingSubmission_runs hTx₆ (h₆.later.requests hReq) hId.symm).mono ?_)
    rintro row w₇ ⟨hRow, hAns, hFound, hTx₇⟩
    rw [hId] at hFound
    exact .pure ⟨hTx₇, row, hRow, rfl, hAns, hFound⟩

/-- A just committed row and its pending hooks. -/
structure Unhooked (pid : Nat) (t : Task) (row : AnswerSubmission) (w : World) : Prop where
  wrote : Wrote w pid row
  unapplied : row.id ∉ w.redis.applied
  mem : row ∈ w.db.submissions
  answers : Answers w row.requestId row
  job : ∃ m p payload, t.job = .submitAnswer m p payload row.requestId

/-- What the transaction of a call leaves for the code behind it. -/
def Submitted (pid : Nat) (t : Task) (participantId : Id) (payload : AnswerSubmitRequest)
    (requestId : String) : SubmitResult → World → Prop
  | .duplicate resp, w => ∃ row ∈ w.db.submissions, resp = .ofRow row none ∧
      Answers w requestId row ∧ (row.requestId = requestId ∨
        (row.matchQuestionId = payload.matchQuestionId ∧ row.participantId = participantId))
  | .inserted row questionId _ _, w => Unhooked pid t row w ∧ row.requestId = requestId ∧
      ∃ mq ∈ w.db.matchQuestions, mq.id = row.matchQuestionId ∧ mq.matchId = row.matchId ∧
        mq.questionId = questionId

theorem submitted_runs {matchId participantId : Id} {payload : AnswerSubmitRequest}
    {requestId : String} (hJob : t.job = .submitAnswer matchId participantId payload requestId)
    (hTx : w.tx pid = {}) (hReq : t.job ∈ w.requests) :
    Runs pid t (inTransaction (submitTx matchId participantId payload requestId))
      (Submitted pid t participantId payload requestId) w := by
  rw [hJob] at hReq
  refine .inTransaction ((submitTx_runs hTx hReq).mono fun r w₂ hr => ?_)
  cases r with
  | duplicate resp =>
    obtain ⟨hTx₂, row, hRow, rfl, hAns, hFound⟩ := hr
    refine .commit hTx₂ fun w₃ _ h₃ _ _ => ⟨.empty _, fun _ hLater => ?_⟩
    have hAll := h₃.later.trans hLater
    exact ⟨row, hAll.submissions hRow, rfl, hAns.later hAll, hFound⟩
  | inserted row questionId nickname code =>
    obtain ⟨rfl, rfl, rfl, hAns, mq, roomId, eventId, now, hMq, hOf, hPay, hRowMq, hMatch, hTx₂⟩ := hr
    refine .commit hTx₂ fun w₃ n h₃ hTx₃ hInv₃ => ⟨?_, fun hInv₄ hLater => ?_⟩
    · rw [hJob]
      have hMq₃ := hMq.holds h₃
      exact .submit row payload mq roomId _ eventId now (hPay ▸ hRowMq) (hAns.later h₃.later)
        hMq₃.mem hRowMq hMatch hMq₃.lock hMq₃.closedAt
    · have hWrite : .insertSubmission row ∈ (w₃.tx pid).writes := by
        rw [hTx₃]
        exact List.mem_cons_self
      have hWrote : Wrote (w₃.commit pid) pid row :=
        ⟨_, List.mem_append_right _ (List.mem_singleton_self _), hWrite⟩
      obtain ⟨mq', hMem, hMqLater⟩ := hLater.matchQuestions mq (hMq.holds h₃).mem
      refine ⟨⟨hWrote, fun hApplied => ?_, hInv₄.wrote pid row hWrote,
        hAns.later (h₃.later.trans hLater), ⟨_, _, _, hJob⟩⟩, rfl, mq', hMem,
        hMqLater.id.trans hRowMq, hMqLater.matchId.trans hMatch, hMqLater.questionId.trans hOf⟩
      obtain ⟨row', hRow', hId⟩ := hInv₃.applied row.id hApplied
      have hFree := List.any_eq_false.mp (hInv₃.uncollided pid _ hWrite) row' hRow'
      simp [hId] at hFree

theorem top_runs (m : Id) (k : Nat) :
    Runs pid t (top m k) (fun _ w' => Later w w') w := by
  refine .bind (.quiet rfl (fun _ _ _ _ => trivial) fun w₁ _ rows h₁ _ _ => ?_)
  dsimp only
  split
  · exact .pure h₁.later
  · refine .bind (.quiet rfl (fun _ _ _ _ => trivial) fun w₂ _ nicks h₂ _ _ => .pure ?_)
    exact h₁.later.trans h₂.later

theorem submitHooks_runs {row : AnswerSubmission} {questionId : Id} {nickname : String}
    {code : Option String} (hRow : Unhooked pid t row w) :
    Runs pid t (submitHooks row questionId nickname code)
      (fun resp w' => Accepted w' row.requestId resp) w := by
  refine .bind (.ask fun w₁ n _ hRely hInv => ⟨?_, fun d out _ _ hOk _ _ => ?_⟩)
  · exact ⟨row, hRow.wrote.later hRely.later, rfl, rfl, rfl, rfl,
      fun h => hRow.unapplied (hRely.applied row hRow.wrote h)⟩
  have h₁ : Later w out.shared := by
    cases hOk
    exact hRely.later.trans { Later.refl w₁ with }
  refine .bind (.quiet rfl (fun _ _ _ _ => trivial) fun w₂ _ _ h₂ _ _ => ?_)
  refine .bind (.quiet rfl (fun _ _ _ _ => trivial) fun w₃ _ _ h₃ _ _ => ?_)
  refine .bind ((top_runs _ _).mono fun top10 w₄ h₄ => ?_)
  refine .bind (.quiet rfl (fun _ _ _ _ => trivial) fun w₅ _ version h₅ _ _ => ?_)
  replace h₅ := (((h₁.trans h₂.later).trans h₃.later).trans h₄).trans h₅.later
  have hLast : ∀ w₆, Later w w₆ → Runs pid t (do
      redis (.idemSet row.requestId (.ofRow row (rankOf row.participantId top10)))
      return .ofRow row (rankOf row.participantId top10))
      (fun resp w' => Accepted w' row.requestId resp) w₆ := by
    intro w₆ h₆
    have hAcc : ∀ w', Later w w' →
        Accepted w' row.requestId (.ofRow row (rankOf row.participantId top10)) :=
      fun w' h => ⟨row, h.submissions hRow.mem, _, rfl, hRow.answers.later h⟩
    have hSource : ∀ w', Later w w' → ∃ m p payload, t.job = .submitAnswer m p payload row.requestId ∧
        Sourced w' pid p payload.matchQuestionId row.requestId
          (.ofRow row (rankOf row.participantId top10)) := by
      intro w' h
      obtain ⟨m, p, payload, hJob⟩ := hRow.job
      exact ⟨m, p, payload, hJob, .inl ⟨row, _, hRow.wrote.later h, rfl, rfl⟩⟩
    refine .bind (.quiet rfl (fun w₇ _ h₇ _ => ⟨hSource w₇ (h₆.trans h₇.later),
      hAcc w₇ (h₆.trans h₇.later)⟩) ?_)
    exact fun w₇ _ _ h₇ _ _ => .pure (hAcc w₇ (h₆.trans h₇.later))
  dsimp only
  split
  · exact .bind (.broadcast (fun _ _ _ _ => trivial) fun w₆ _ h₆ _ _ => hLast w₆ (h₅.trans h₆.later))
  · exact hLast w₅ h₅

theorem submitAnswer_runs {matchId participantId : Id} {payload : AnswerSubmitRequest}
    {requestId : String} (hJob : t.job = .submitAnswer matchId participantId payload requestId)
    (hTx : w.tx pid = {}) (hReq : t.job ∈ w.requests) :
    Runs pid t (submitAnswer matchId participantId payload requestId)
      (fun resp w' => Accepted w' requestId resp) w := by
  refine .refused fun _ => ?_
  refine .bind (.ask fun w₁ n _ hRely hInv => ⟨trivial, fun d out cached _ hOk hCached _ => ?_⟩)
  cases hOk
  cases hCached
  split
  next resp hHit => exact .pure (hInv.cached requestId resp hHit)
  refine .bind ((submitted_runs hJob (hRely.tx.trans hTx) (hRely.later.requests hReq)).mono ?_)
  intro r w₂ hr
  cases r with
  | duplicate resp =>
    obtain ⟨row, hRow, rfl, hAns, hFound⟩ := hr
    have hKept : ∀ w₄, Later w₂ w₄ →
        row ∈ w₄.db.submissions ∧ Accepted w₄ requestId (.ofRow row none) := by
      intro w₄ h₄
      have hMem := h₄.submissions hRow
      exact ⟨hMem, row, hMem, none, rfl, hAns.later h₄⟩
    refine .bind (.quiet rfl (fun w₄ _ h₄ _ => ?_) fun w₄ _ _ h₄ _ _ => .pure (hKept w₄ h₄.later).2)
    exact ⟨⟨_, _, _, hJob, .inr ⟨row, (hKept w₄ h₄.later).1, rfl, hFound⟩⟩, (hKept w₄ h₄.later).2⟩
  | inserted row questionId nickname code =>
    obtain ⟨hUnhooked, rfl, -⟩ := hr
    exact submitHooks_runs hUnhooked

end

end LiveQuiz
