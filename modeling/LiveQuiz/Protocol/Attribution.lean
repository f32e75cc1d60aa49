import LiveQuiz.Lib.Confined
import LiveQuiz.Protocol.Discreet
import LiveQuiz.Protocol.Layered
import LiveQuiz.Protocol.Moves

/-! # Whose answer it is

A transaction of `submit_answer` commits an answer to a started question of its match by a
participant of the match's room, and its event names that question and that room. Other
services add participants and mark them kicked while it runs.
-/

namespace LiveQuiz

open Coroutine

set_option autoImplicit false

/-- The participant is one of the room. -/
def Member (w : World) (p room : Id) : Prop := ∃ x ∈ w.db.participants, x.id = p ∧ x.roomId = room

structure Attributed (w : World) (row : AnswerSubmission) (roomId questionId : Id) : Prop where
  room : ∃ m ∈ w.db.matches', m.id = row.matchId ∧ m.roomId = roomId
  question : ∃ q ∈ w.db.matchQuestions, q.id = row.matchQuestionId ∧ q.matchId = row.matchId ∧
    q.questionId = questionId ∧ q.startedAt.isSome
  member : Member w row.participantId roomId

def Stay (w w' : World) : Prop := ∀ p room, Member w p room → Member w' p room

def memberLayer : SysLayer where
  inv _ := True
  rely _ _ _ w w' := Stay w w'
  req pid t w
    | .commit => w.phase t.replica ≠ .crashed → ∀ row roomId questionId eventId now,
      (w.tx pid).writes = submitWrites row roomId questionId eventId now →
        Attributed w row roomId questionId
    | _ => True

section

variable {w w' : World} {row : AnswerSubmission} {roomId questionId p : Id}

theorem Attributed.later (h : Attributed w row roomId questionId) (hLater : Later w w')
    (hMember : Member w' row.participantId roomId) : Attributed w' row roomId questionId where
  room := by
    obtain ⟨m, hm, hId, hRoom⟩ := h.room
    obtain ⟨m', hm', hId', hRoom'⟩ := hLater.matches' m hm
    exact ⟨m', hm', hId'.trans hId, hRoom'.trans hRoom⟩
  question := by
    obtain ⟨q, hq, hId, hMatch, hQuestion, hStarted⟩ := h.question
    obtain ⟨q', hq', hLater⟩ := hLater.matchQuestions q hq
    exact ⟨q', hq', hLater.id.trans hId, hLater.matchId.trans hMatch,
      hLater.questionId.trans hQuestion, hLater.started hStarted⟩
  member := hMember

theorem Stay.of_participants (h : w'.db.participants = w.db.participants) : Stay w w' := by
  intro p room hMember
  rwa [Member, h]

theorem applyAll_participants (ws : List Write) (db : Db) :
    (applyAll ws db).participants = db.participants :=
  Transactions.applyAll_same (g := Db.participants) fun wr _ db => by cases wr <;> rfl

theorem env_stay {n : Nat} {e : EnvAction} {out : World × Option Task} (h : env w n e = some out) :
    Stay w out.1 := by
  cases e with
  | join x =>
    simp only [env] at h
    split at h <;> cases h
    rintro p room ⟨y, hy, hIs⟩
    exact ⟨y, List.mem_append_left _ hy, hIs⟩
  | kick i =>
    cases h
    rintro p room ⟨y, hy, hIs⟩
    by_cases hKey : y.id = i
    · exact ⟨_, mem_updateWhere_of_eq hy hKey, hIs⟩
    · exact ⟨y, mem_updateWhere_of_ne hy hKey, hIs⟩
  | edit e =>
    obtain ⟨db, hDb, rfl⟩ := Option.map_eq_some_iff.mp h
    obtain ⟨qs, xs, os, rfl⟩ := QuizEdit.apply_eq hDb
    exact .of_participants rfl
  | boot | request | crash | createRoom =>
    simp only [env] at h
    split at h <;> cases h
    exact .of_participants rfl
  | tick | expireIdem | expirePause =>
    cases h
    exact .of_participants rfl

end

section

variable {S S' : SysState} {l : SysLabel}

theorem step_stay (hS : Held S) (hStep : service.step S l = some S') : Stay S.shared S'.shared := by
  obtain ⟨hDb, -⟩ | ⟨e, out, -, hEnv, hEq⟩ | ⟨pid, t, hC⟩ := step_effect hS hStep
  · exact .of_participants (by rw [hDb])
  · rw [hEq]
    exact env_stay hEnv
  · exact .of_participants (by rw [hC.db, applyAll_participants])

end

theorem memberLayer_steady : memberLayer.Steady :=
  ⟨fun _ _ _ _ _ _ h => h, fun _ _ _ _ _ _ h h' p room hp => h' p room (h p room hp)⟩

section

variable {pid n : Nat} {t : Task} {w : World} {tx : Tx} {stretch : Op → Prop} {F : World → Prop}

theorem Layered.insertInSavepoint {L : SysLayer} {row : AnswerSubmission} {Q : Bool → World → Prop}
    (hFrame : Frame L pid t stretch F) (hF : F w) (hIn : stretch (.flush [.insertSubmission row]))
    (hTx : w.tx pid = tx) (hReq : ∀ w₁, L.req pid t w₁ (.flush [.insertSubmission row]))
    (hTrue : ∀ w' n, Holds pid w w' →
      w'.tx pid = { tx with writes := tx.writes ++ [.insertSubmission row] } → Inv n w' → F w' → Q true w')
    (hFalse : ∀ w' n, Holds pid w w' → w'.tx pid = tx → Inv n w' → F w' → Q false w') :
    Layered L pid t (LiveQuiz.insertInSavepoint row) Q w := by
  refine Layer.wp_handle (Layer.wp_bind fun w₁ n hPid hRely hRely' hInv _ hReq' => ?_)
  have hFlush : Req pid t w₁ (.flush [.insertSubmission row]) := hReq'
  refine ⟨hReq w₁, fun d out hExec => ?_⟩
  obtain ⟨hUp, hLive, hOk⟩ | ⟨e, hErr, -, hOut⟩ := exec_cases hExec
  · have hF₁ := hFrame.others hIn hRely hRely' hF (not_stopped hUp hLive)
    have hInv₁ := (perform_kept hInv hFlush hPid hOk).1
    obtain ⟨hErr, hSame⟩ | ⟨hRes, hHolds, hTx'⟩ := perform_flush hOk
    · rw [hErr, hSame]
      have hPure : Layered L pid t (Pure.pure false) Q w₁ :=
        .pure (hFalse w₁ n hRely.toHolds (hRely.tx.trans hTx) hInv hF₁)
      exact hPure
    · rw [hRes]
      rw [hRely.tx, hTx] at hTx'
      intro b hb
      cases hb
      refine hTrue _ n (hRely.toHolds.trans hHolds) hTx' hInv₁ ?_
      exact hFrame.own hHolds (perform_untouched (by simp) hOk).db (perform_effect hOk).now hF₁
  · have hThrow : ∀ (e : Exn) (v : World), Layered L pid t (MonadExcept.throw e) Q v :=
      fun _ _ => .throw
    rw [hErr]
    generalize out.shared = v at hOut ⊢
    cases hOut <;> exact hThrow _ _

theorem member_frame (p room : Id) :
    Frame memberLayer pid t (fun _ => True) fun w => Member w p room where
  others _ _ hStay hMember _ := hStay p room hMember
  own _ hDb _ hMember := Stay.of_participants (by rw [hDb]) p room hMember

/-- What the admission has read: the started question of the match, the match, the participant. -/
structure Admitted (matchId participantId : Id) (mq : MatchQuestion) (m : Match) (w : World) : Prop where
  question : ∃ q ∈ w.db.matchQuestions, mq.Later q
  started : mq.startedAt.isSome
  ofMatch : mq.matchId = matchId
  played : ∃ x ∈ w.db.matches', x.id = matchId ∧ x.roomId = m.roomId
  member : Member w participantId m.roomId

theorem Admitted.holds {matchId participantId : Id} {mq : MatchQuestion} {m : Match} {w' : World}
    (h : Admitted matchId participantId mq m w) (hHolds : Holds pid w w')
    (hMember : Member w' participantId m.roomId) : Admitted matchId participantId mq m w' where
  question := by
    obtain ⟨q, hq, hLater⟩ := h.question
    obtain ⟨q', hq', hLater'⟩ := hHolds.later.matchQuestions q hq
    exact ⟨q', hq', hLater.trans hLater'⟩
  started := h.started
  ofMatch := h.ofMatch
  played := by
    obtain ⟨x, hx, hId, hRoom⟩ := h.played
    obtain ⟨x', hx', hId', hRoom'⟩ := hHolds.later.matches' x hx
    exact ⟨x', hx', hId'.trans hId, hRoom'.trans hRoom⟩
  member := hMember

theorem Admitted.attributed {matchId participantId : Id} {mq : MatchQuestion} {m : Match}
    {row : AnswerSubmission} (h : Admitted matchId participantId mq m w) (hMatch : row.matchId = matchId)
    (hQuestion : row.matchQuestionId = mq.id) (hParticipant : row.participantId = participantId) :
    Attributed w row m.roomId mq.questionId where
  room := hMatch ▸ h.played
  question := by
    obtain ⟨q, hq, hLater⟩ := h.question
    exact ⟨q, hq, hLater.id.trans hQuestion.symm, hLater.matchId.trans (h.ofMatch.trans hMatch.symm),
      hLater.questionId, hLater.started h.started⟩
  member := hParticipant ▸ h.member

theorem admitAnswer_admits {matchId participantId mqId : Id} (hTx : w.tx pid = {}) :
    Layered memberLayer pid t (admitAnswer matchId participantId mqId)
      (fun r w' => Admitted matchId participantId r.1 r.2.1 w' ∧ w'.tx pid = {}) w := by
  refine .bind (.selectForUpdate .trivial trivial trivial hTx (fun _ => trivial)
    (fun _ _ _ _ _ _ => .raise) ?_)
  intro w₁ _ (mq : MatchQuestion) _ hTx _ _ hFind _
  have hMem : mq ∈ w₁.db.matchQuestions := List.mem_of_find?_eq_some hFind
  refine .refused fun hMatch => ?_
  refine .bind (.select .trivial trivial rfl trivial hTx (fun _ => trivial) fun w₂ _ h₂ hTx _ _ _ => ?_)
  split
  case h_2 => exact .raise
  next m hm =>
  have hMatchRow : m ∈ w₂.db.matches' := List.mem_of_find?_eq_some hm
  have hMatchId : m.id = matchId := by simpa using List.find?_some hm
  refine .bind (.skip rfl (fun _ => trivial) ?_)
  intro w₃ _ now h₃ hTx₃ _
  rw [hTx] at hTx₃
  refine .refused fun _ => .refused fun _ => ?_
  dsimp only
  split
  case h_2 => exact .raise
  next deadlineAt startedAt _ hTimes =>
  refine .refused fun _ => ?_
  refine .bind (.select .trivial trivial rfl trivial hTx₃ (fun _ => trivial) fun w₄ _ h₄ hTx _ _ _ => ?_)
  split
  case h_2 => exact .raise
  next participant hp =>
  refine .refused fun _ => .pure ⟨?_, hTx⟩
  have hLater : Later w₂ w₄ := (h₃.trans h₄).later
  obtain ⟨x, hx, hId, hRoom⟩ := hLater.matches' m hMatchRow
  refine ⟨(h₂.later.trans hLater).matchQuestions mq hMem, ?_, by simpa using hMatch,
    ⟨x, hx, hId.trans hMatchId, hRoom⟩, participant, List.mem_of_find?_eq_some hp, ?_⟩
  · rw [(Prod.mk.inj hTimes).2]
    rfl
  · simpa using List.find?_some hp

theorem existingSubmission_keeps {mqId participantId : Id} {requestId : String} (hTx : w.tx pid = {}) :
    Layered memberLayer pid t (existingSubmission mqId participantId requestId)
      (fun _ w' => w'.tx pid = {}) w := by
  refine .bind (.select .trivial trivial rfl trivial hTx (fun _ => trivial) fun w₁ _ _ hTx _ _ _ => ?_)
  split
  · exact .pure hTx
  · refine .bind (.select .trivial trivial rfl trivial hTx (fun _ => trivial) fun w₂ _ _ hTx _ _ _ => ?_)
    split
    · exact .pure hTx
    · exact .raise

def Ready (pid : Nat) (w : World) : Prop := w.tx pid = {} ∨
  ∃ row roomId questionId eventId now, Attributed w row roomId questionId ∧
    w.tx pid = { writes := submitWrites row roomId questionId eventId now }

theorem submitTx_ready {matchId participantId : Id} {payload : AnswerSubmitRequest}
    {requestId : String} (hTx : w.tx pid = {}) :
    Layered memberLayer pid t (submitTx matchId participantId payload requestId)
      (fun _ w' => Ready pid w') w := by
  refine .bind ((admitAnswer_admits hTx).mono ?_)
  rintro ⟨mq, m, now, deadlineAt, startedAt, participant⟩ w₁ ⟨hAdmitted, hTx⟩
  have hFrame : Frame memberLayer pid t (fun _ => True) fun w => Member w participantId m.roomId :=
    member_frame participantId m.roomId
  refine .bind (.select hFrame hAdmitted.member rfl trivial hTx (fun _ => trivial)
    fun w₂ _ h₂ hTx _ _ hF₂ => ?_)
  dsimp only
  split
  case h_2 => exact .raise
  refine .bind (.select hFrame hF₂ rfl trivial hTx (fun _ => trivial) fun w₃ _ h₃ hTx _ _ hF₃ => ?_)
  refine .bind (.select hFrame hF₃ rfl trivial hTx (fun _ => trivial) fun w₄ _ h₄ hTx _ _ hF₄ => ?_)
  refine .bind (.quiet hFrame hF₄ rfl trivial (fun _ => trivial) fun w₅ _ id h₅ hTx₅ _ hF₅ => ?_)
  rw [hTx] at hTx₅
  replace h₅ := ((h₂.trans h₃).trans h₄).trans h₅
  refine .bind (.insertInSavepoint hFrame hF₅ trivial hTx₅ (fun _ => trivial)
    (fun w₆ _ h₆ hTx₆ _ hF₆ => ?_) fun w₆ _ h₆ hTx₆ _ _ => ?_)
  · refine .bind (.quiet hFrame hF₆ rfl trivial (fun _ => trivial) fun w₇ _ eventId h₇ hTx₇ _ hF₇ => ?_)
    rw [hTx₆] at hTx₇
    refine .bind (.flush hFrame hF₇ trivial hTx₇ (fun _ => trivial) fun w₈ _ h₈ hTx₈ _ hF₈ => ?_)
    replace h₈ := ((h₅.trans h₆).trans h₇).trans h₈
    refine .pure (.inr ⟨_, m.roomId, mq.questionId, eventId, now, ?_, hTx₈⟩)
    exact (hAdmitted.holds h₈ hF₈).attributed rfl rfl rfl
  · exact .bind ((existingSubmission_keeps hTx₆).mono fun _ _ hTx₇ => .pure (.inl hTx₇))

theorem commit_ready {row : AnswerSubmission} {roomId questionId eventId : Id} {now : Micros}
    (hTx : w.tx pid = { writes := submitWrites row roomId questionId eventId now })
    (h : Attributed w row roomId questionId) :
    Layered memberLayer pid t LiveQuiz.commit (fun _ _ => True) w := by
  have hFrame : Frame memberLayer pid t (fun _ => True) fun w => Member w row.participantId roomId :=
    member_frame row.participantId roomId
  refine .commit hTx (fun w₁ hRely hStay hRuns => hFrame.others trivial hRely hStay h.member hRuns) ?_
  refine fun w₁ n h₁ hTx₁ _ hMember _ => ⟨fun hUp row' room' question' event' now' hWrites => ?_,
    fun _ => trivial⟩
  rw [hTx₁] at hWrites
  simp only [submitWrites, List.cons.injEq, Write.insertSubmission.injEq, Write.insertEvent.injEq,
    and_true] at hWrites
  obtain ⟨rfl, hEvent⟩ := hWrites
  have hPayload := congrArg OutboxEvent.payload hEvent
  simp only [answerSubmittedEvent, EventPayload.answerSubmitted.injEq, true_and] at hPayload
  obtain ⟨rfl, rfl, -⟩ := hPayload
  exact h.later h₁.later (hMember hUp)

theorem submitHooks_commitless {row : AnswerSubmission} {questionId : Id} {nickname : String}
    {roomCode : Option String} :
    Confined (fun o => o ≠ .commit) (fun _ => True) (submitHooks row questionId nickname roomCode) := by
  apply confined_call (by simp)
  intro _
  apply confined_call (by simp)
  intro _
  apply confined_call (by simp)
  intro _
  refine Confined.bind ?_ fun top10 => ?_
  · apply confined_call (by simp)
    intro rows
    split
    · exact Confined.pure _
    · exact confined_call (by simp) fun _ => Confined.pure _
  apply confined_call (by simp)
  intro version
  have hCached : ∀ response, Confined (fun o => o ≠ .commit) (fun _ => True) (do
      redis (.idemSet row.requestId response)
      return response : Coro Response) :=
    fun _ => confined_call (by simp) fun _ => Confined.pure _
  dsimp only
  split
  · exact Confined.bind (confined_broadcast (by simp) (by simp)) fun _ => hCached _
  · exact hCached _

theorem memberLayer_free {o : Op} (ho : o ≠ .commit) (w : World) : memberLayer.req pid t w o := by
  cases o with
  | commit => exact absurd rfl ho
  | _ => trivial

theorem submitAnswer_members {matchId participantId : Id} {payload : AnswerSubmitRequest}
    {requestId : String} (hTx : w.tx pid = {}) :
    Layered memberLayer pid t (submitAnswer matchId participantId payload requestId)
      (fun _ _ => True) w := by
  unfold submitAnswer
  refine .refused fun _ => .bind (.skip rfl (fun _ => trivial) ?_)
  intro w₁ _ cached _ hTx₁ _
  split
  · exact .pure trivial
  rw [hTx] at hTx₁
  refine .bind (Layered.mono (Q := fun _ _ => True) (.inTransaction (fun _ => trivial)
    ((submitTx_ready hTx₁).mono fun r w₂ hReady => ?_)) fun r w₂ _ => ?_)
  · obtain hNone | ⟨row, roomId, questionId, eventId, now, hAttributed, hTx₂⟩ := hReady
    · refine .commit hNone (F := fun _ => True) (fun _ _ _ _ => trivial) fun w₃ _ _ hTx₃ _ _ _ => ⟨?_, ?_⟩
      · intro _ row roomId questionId eventId now hWrites
        rw [hTx₃] at hWrites
        cases hWrites
      · exact fun _ => trivial
    · exact commit_ready hTx₂ hAttributed
  · cases r with
    | duplicate response => exact .bind (.skip rfl (fun _ => trivial) fun _ _ _ _ _ _ => .pure trivial)
    | inserted row questionId nickname roomCode =>
      refine Layer.wp_mono (Q := fun _ _ => True) ?_ fun _ _ _ _ _ => trivial
      exact Layer.keeps_of_confined (submitHooks_commitless.mono fun o ho w => memberLayer_free ho w)

end

section

variable {seed : Seed} {S S' : SysState} {l : SysLabel} {C : SysState → SysLabel → Prop}

theorem submit_members (h : service.Reach C (initial seed) S) {q : Nat}
    {p : Proc Op Op.Res Exn Ret Task} (hq : S.procs[q]? = some p)
    (hJob : ∃ m x payload r, p.task.job = .submitAnswer m x payload r) :
    memberLayer.Keeps service contract q p.task p.prog S.shared := by
  induction h generalizing p with
  | refl => cases hq
  | tail hReach _ hStep ih =>
    have hS := held_of_reach hReach
    obtain ⟨p₀, hOld, hTask⟩ | ⟨rfl, hBody, -⟩ := step_proc hS hStep hq
    · exact (ih hOld (hTask ▸ hJob)).step memberLayer_steady sound hS trivial hStep hOld hq
        fun _ _ _ _ => step_stay hS hStep
    · obtain ⟨m, x, payload, r, hJob⟩ := hJob
      rw [hBody, hJob]
      exact (Layered.map (f := Ret.response) (Q := fun _ _ => True)
        (submitAnswer_members (step_fresh hS hStep).1)).keeps

theorem commits_attributed (hReach : service.Reach C (initial seed) S) {pid : Nat} {t : Task}
    (hC : Commits S l S' pid t) {row : AnswerSubmission} {roomId questionId eventId : Id} {now : Micros}
    (hWrites : (S.shared.tx pid).writes = submitWrites row roomId questionId eventId now) :
    Attributed S.shared row roomId questionId := by
  have hS := held_of_reach hReach
  obtain ⟨k, hProc⟩ := hC.proc
  have hShape := hC.shape
  rw [hWrites] at hShape
  obtain ⟨m, payload, hJob, -⟩ := hShape.submits List.mem_cons_self
  have hReq := (submit_members hReach hProc ⟨_, _, _, _, hJob⟩).req memberLayer_steady sound hS trivial hProc
  refine hReq ?_ row roomId questionId eventId now hWrites
  rw [hC.up]
  simp

end

end LiveQuiz
