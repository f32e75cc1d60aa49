import LiveQuiz.Protocol.Run

/-! # How the rows of a match move

Each committed transaction leaves a match row and a match question as they are or
moves them along one edge of their life cycle. The invariants over runs are read
off these edges.
-/

namespace LiveQuiz

open Coroutine

set_option autoImplicit false

section

variable {n pid : Nat} {w : World} {job : Job} {ws : List Write}

theorem applyAll_insertMatchQuestions (mqs : List MatchQuestion) (db : Db) :
    applyAll (mqs.map .insertMatchQuestion) db =
      { db with matchQuestions := db.matchQuestions ++ mqs } := by
  induction mqs generalizing db with
  | nil => simp [applyAll_nil]
  | cons mq mqs ih =>
    rw [List.map_cons, applyAll_cons, ih]
    simp [Write.apply]

theorem applyAll_insertFinalScores (scores : List FinalScore) (db : Db) :
    applyAll (scores.map .insertFinalScore) db =
      { db with finalScores := db.finalScores ++ scores } := by
  induction scores generalizing db with
  | nil => simp [applyAll_nil]
  | cons f scores ih =>
    rw [List.map_cons, applyAll_cons, ih]
    simp [Write.apply]

theorem applyAll_startWrites (m : Match) (mqs : List MatchQuestion) (room : Room) (quiz : QuizSet)
    (eventId : Id) (db : Db) : applyAll (startWrites m mqs room quiz eventId) db =
      { db with
        rooms := updateWhere Room.id room.id (Room.patch .running (some m.startedAt) none) db.rooms
        matches' := db.matches' ++ [m]
        matchQuestions := db.matchQuestions ++ mqs
        outbox := db.outbox ++ [matchStartedEvent eventId m room quiz mqs.length] } := by
  unfold startWrites
  rw [applyAll_cons, applyAll_append, applyAll_insertMatchQuestions]
  rfl

theorem applyAll_finishWrites (m : Match) (room : Room) (scores : List FinalScore)
    (endedAt : Micros) (eventId : Id) (db : Db) :
    applyAll (finishWrites m room scores endedAt eventId) db =
      { db with
        rooms := updateWhere Room.id room.id (Room.patch .completed none (some endedAt)) db.rooms
        matches' := updateWhere Match.id m.id (Match.patch .completed (some endedAt)) db.matches'
        finalScores := db.finalScores ++ scores
        outbox := db.outbox ++ [matchFinishedEvent eventId m room endedAt scores] } := by
  unfold finishWrites
  rw [applyAll_append, applyAll_append, applyAll_insertFinalScores]
  rfl

inductive MatchMove (ws : List Write) : Match → Match → Prop
  | same (m : Match) : MatchMove ws m m
  | paused (m : Match) : m.status = .running → MatchMove ws m (m.patch .paused none)
  | resumed (m : Match) : m.status = .paused → MatchMove ws m (m.patch .running none)
  | finished (m : Match) (room : Room) (scores : List FinalScore) (endedAt : Micros)
      (eventId : Id) : m.status ≠ .completed → ws = finishWrites m room scores endedAt eventId →
      MatchMove ws m (m.patch .completed (some endedAt))

theorem match_forth_updateWhere {db : Db} (hKeys : db.Keys) {m₀ m : Match} {f : Match → Match}
    (h₀ : m₀ ∈ db.matches') (hMove : MatchMove ws m₀ (f m₀)) (hm : m ∈ db.matches') :
    ∃ m' ∈ updateWhere Match.id m₀.id f db.matches', MatchMove ws m m' := by
  by_cases hId : m.id = m₀.id
  · rw [hKeys.match_eq hm h₀ (.inl hId)]
    exact ⟨_, mem_updateWhere_of_eq h₀ rfl, hMove⟩
  · exact ⟨m, mem_updateWhere_of_ne hm hId, .same m⟩

theorem match_back_updateWhere {db : Db} (hKeys : db.Keys) {m₀ m' : Match} {f : Match → Match}
    (h₀ : m₀ ∈ db.matches') (hMove : MatchMove ws m₀ (f m₀))
    (hm' : m' ∈ updateWhere Match.id m₀.id f db.matches') : ∃ m ∈ db.matches', MatchMove ws m m' := by
  obtain ⟨hm, -⟩ | ⟨m, hm, hId, rfl⟩ := mem_updateWhere.mp hm'
  · exact ⟨m', hm, .same m'⟩
  · rw [hKeys.match_eq hm h₀ (.inl hId)]
    exact ⟨m₀, h₀, hMove⟩

theorem Commit.match_forth (hInv : Inv n w) (h : Commit w pid job ws) {m : Match}
    (hm : m ∈ w.db.matches') : ∃ m' ∈ (applyAll ws w.db).matches', MatchMove ws m m' := by
  cases h with
  | start host code matchId room quiz questions ids startedAt eventId =>
    rw [applyAll_startWrites]
    exact ⟨m, List.mem_append_left _ hm, .same m⟩
  | pause host code m₀ h₀ _ hStatus =>
    exact match_forth_updateWhere hInv.keys h₀ (.paused m₀ hStatus) hm
  | resume host code m₀ deadline h₀ _ hStatus hDeadline =>
    obtain rfl | ⟨i, u, -, rfl⟩ := hDeadline
    · exact match_forth_updateWhere hInv.keys h₀ (.resumed m₀ hStatus) hm
    · exact match_forth_updateWhere hInv.keys h₀ (.resumed m₀ hStatus) hm
  | finish _ m₀ room subs participants endedAt eventId _ h₀ _ hStatus =>
    rw [applyAll_finishWrites]
    exact match_forth_updateWhere hInv.keys h₀ (.finished m₀ room _ endedAt eventId hStatus rfl) hm
  | _ => exact ⟨m, hm, .same m⟩

theorem Commit.match_back (hInv : Inv n w) (h : Commit w pid job ws) {m' : Match}
    (hm' : m' ∈ (applyAll ws w.db).matches') :
    (∃ m ∈ w.db.matches', MatchMove ws m m') ∨
      (.insertMatch m' ∈ ws ∧ m'.status = .running ∧ m'.endedAt = none) := by
  cases h with
  | start host code matchId room quiz questions ids startedAt eventId =>
    rw [applyAll_startWrites] at hm'
    obtain hm | hm := List.mem_append.mp hm'
    · exact .inl ⟨m', hm, .same m'⟩
    · rw [List.mem_singleton.mp hm]
      exact .inr ⟨List.mem_cons_self, rfl, rfl⟩
  | pause host code m₀ h₀ _ hStatus =>
    exact .inl (match_back_updateWhere hInv.keys h₀ (.paused m₀ hStatus) hm')
  | resume host code m₀ deadline h₀ _ hStatus hDeadline =>
    obtain rfl | ⟨i, u, -, rfl⟩ := hDeadline
    · exact .inl (match_back_updateWhere hInv.keys h₀ (.resumed m₀ hStatus) hm')
    · exact .inl (match_back_updateWhere hInv.keys h₀ (.resumed m₀ hStatus) hm')
  | finish _ m₀ room subs participants endedAt eventId _ h₀ _ hStatus =>
    rw [applyAll_finishWrites] at hm'
    exact .inl (match_back_updateWhere hInv.keys h₀
      (.finished m₀ room _ endedAt eventId hStatus rfl) hm')
  | _ => exact .inl ⟨m', hm', .same m'⟩

theorem Commit.starts (h : Commit w pid job ws) {m : Match} (hIns : .insertMatch m ∈ ws) :
    ∃ host code, job = .startMatch host code := by
  cases h with
  | start host code => exact ⟨host, code, rfl⟩
  | resume _ _ _ deadline _ _ _ hDeadline =>
    obtain rfl | ⟨i, u, -, rfl⟩ := hDeadline <;> simp at hIns
  | _ => simp [armWrites, closeWrites, finishWrites, submitWrites] at hIns

theorem MatchMove.id {m m' : Match} (h : MatchMove ws m m') : m'.id = m.id := by
  cases h <;> rfl

theorem MatchMove.roomId {m m' : Match} (h : MatchMove ws m m') : m'.roomId = m.roomId := by
  cases h <;> rfl

theorem MatchMove.completed {m m' : Match} (h : MatchMove ws m m') (hm : m.status = .completed) :
    m' = m := by
  cases h with
  | same => rfl
  | paused h => simp [hm] at h
  | resumed h => simp [hm] at h
  | finished _ _ _ _ h => exact absurd hm h

inductive QuestionMove (w : World) (pid : Nat) (job : Job) : MatchQuestion → MatchQuestion → Prop
  | same (q : MatchQuestion) : QuestionMove w pid job q q
  | armed (q : MatchQuestion) (startedAt deadlineAt : Micros) : Arms job q.matchId q.position →
      q.closedAt = none → Silent w pid →
      QuestionMove w pid job q (q.patch (some startedAt) (some deadlineAt) none)
  | closed (q : MatchQuestion) (closedAt : Micros) : Closes job q.matchId q.position →
      q.closedAt = none → q.startedAt.isSome →
      QuestionMove w pid job q (q.patch none none (some closedAt))
  | extended (q : MatchQuestion) (deadlineAt : Micros) :
      QuestionMove w pid job q (q.patch none (some deadlineAt) none)

theorem question_forth_updateWhere {i : Id} {f : MatchQuestion → MatchQuestion} {db : Db}
    {q : MatchQuestion} (hMove : ∀ q ∈ db.matchQuestions, q.id = i → QuestionMove w pid job q (f q))
    (hq : q ∈ db.matchQuestions) :
    ∃ q' ∈ updateWhere MatchQuestion.id i f db.matchQuestions, QuestionMove w pid job q q' := by
  by_cases hId : q.id = i
  · exact ⟨_, mem_updateWhere_of_eq hq hId, hMove q hq hId⟩
  · exact ⟨q, mem_updateWhere_of_ne hq hId, .same q⟩

theorem question_back_updateWhere {i : Id} {f : MatchQuestion → MatchQuestion} {db : Db}
    {q' : MatchQuestion} (hMove : ∀ q ∈ db.matchQuestions, q.id = i → QuestionMove w pid job q (f q))
    (hq' : q' ∈ updateWhere MatchQuestion.id i f db.matchQuestions) :
    ∃ q ∈ db.matchQuestions, QuestionMove w pid job q q' := by
  obtain ⟨hq, -⟩ | ⟨q, hq, hId, rfl⟩ := mem_updateWhere.mp hq'
  · exact ⟨q', hq, .same q'⟩
  · exact ⟨q, hq, hMove q hq hId⟩

theorem Commit.question_forth (hInv : Inv n w) (h : Commit w pid job ws) {q : MatchQuestion}
    (hq : q ∈ w.db.matchQuestions) :
    ∃ q' ∈ (applyAll ws w.db).matchQuestions, QuestionMove w pid job q q' := by
  cases h with
  | start host code matchId room quiz questions ids startedAt eventId =>
    rw [applyAll_startWrites]
    exact ⟨q, List.mem_append_left _ hq, .same q⟩
  | arm _ mq question eventId startedAt deadlineAt hArms hMem _ hOpen hSilent =>
    refine question_forth_updateWhere (fun x hx hId => ?_) hq
    rw [hInv.keys.matchQuestion_eq hx hMem (.inl hId)]
    exact .armed mq startedAt deadlineAt hArms hOpen hSilent
  | close _ mq eventId closedAt correctIds hCloses hMem _ hOpen hs =>
    refine question_forth_updateWhere (fun x hx hId => ?_) hq
    rw [hInv.keys.matchQuestion_eq hx hMem (.inl hId)]
    exact .closed mq closedAt hCloses hOpen hs
  | resume host code m₀ deadline _ _ _ hDeadline =>
    obtain rfl | ⟨i, u, -, rfl⟩ := hDeadline
    · exact ⟨q, hq, .same q⟩
    · exact question_forth_updateWhere (fun x _ _ => .extended x u) hq
  | finish _ m₀ room subs participants endedAt eventId =>
    rw [applyAll_finishWrites]
    exact ⟨q, hq, .same q⟩
  | _ => exact ⟨q, hq, .same q⟩

theorem matchQuestionRows_unstarted {m : Id} {ids : List Id} {questions : List Question}
    {q : MatchQuestion} (h : q ∈ matchQuestionRows m ids questions) : q.startedAt = none := by
  obtain ⟨i, hi, rfl⟩ := List.mem_mapIdx.mp h
  rfl

theorem Commit.question_back (hInv : Inv n w) (h : Commit w pid job ws) {q' : MatchQuestion}
    (hq' : q' ∈ (applyAll ws w.db).matchQuestions) :
    (∃ q ∈ w.db.matchQuestions, QuestionMove w pid job q q') ∨
      (.insertMatchQuestion q' ∈ ws ∧ q'.startedAt = none) := by
  cases h with
  | start host code matchId room quiz questions ids startedAt eventId =>
    rw [applyAll_startWrites] at hq'
    obtain hq | hq := List.mem_append.mp hq'
    · exact .inl ⟨q', hq, .same q'⟩
    · exact .inr ⟨by simp [startWrites, hq], matchQuestionRows_unstarted hq⟩
  | arm _ mq question eventId startedAt deadlineAt hArms hMem _ hOpen hSilent =>
    refine .inl (question_back_updateWhere (fun x hx hId => ?_) hq')
    rw [hInv.keys.matchQuestion_eq hx hMem (.inl hId)]
    exact .armed mq startedAt deadlineAt hArms hOpen hSilent
  | close _ mq eventId closedAt correctIds hCloses hMem _ hOpen hs =>
    refine .inl (question_back_updateWhere (fun x hx hId => ?_) hq')
    rw [hInv.keys.matchQuestion_eq hx hMem (.inl hId)]
    exact .closed mq closedAt hCloses hOpen hs
  | resume host code m₀ deadline _ _ _ hDeadline =>
    obtain rfl | ⟨i, u, -, rfl⟩ := hDeadline
    · exact .inl ⟨q', hq', .same q'⟩
    · exact .inl (question_back_updateWhere (fun x _ _ => .extended x u) hq')
  | finish _ m₀ room subs participants endedAt eventId =>
    rw [applyAll_finishWrites] at hq'
    exact .inl ⟨q', hq', .same q'⟩
  | _ => exact .inl ⟨q', hq', .same q'⟩

theorem QuestionMove.later {q q' : MatchQuestion} (h : QuestionMove w pid job q q') : q.Later q' := by
  cases h with
  | same => exact .refl q
  | armed => exact q.later_patch _ _ _
  | closed => exact q.later_patch _ _ _
  | extended => exact q.later_patch _ _ _

theorem QuestionMove.closedAt {q q' : MatchQuestion} (h : QuestionMove w pid job q q')
    (hq : q.closedAt.isSome) : q'.closedAt = q.closedAt := by
  cases h with
  | closed _ _ hOpen => simp [hOpen] at hq
  | _ => rfl

theorem startWrites_events (m : Match) (mqs : List MatchQuestion) (room : Room) (quiz : QuizSet)
    (eventId : Id) : (startWrites m mqs room quiz eventId).filterMap Write.event? =
      [matchStartedEvent eventId m room quiz mqs.length] := by
  have hNone : (mqs.map Write.insertMatchQuestion).filterMap Write.event? = [] := by
    simp [List.filterMap_eq_nil_iff, Write.event?]
  simp [startWrites, List.filterMap_cons, List.filterMap_append, hNone, Write.event?]

theorem finishWrites_events (m : Match) (room : Room) (scores : List FinalScore) (endedAt : Micros)
    (eventId : Id) : (finishWrites m room scores endedAt eventId).filterMap Write.event? =
      [matchFinishedEvent eventId m room endedAt scores] := by
  have hNone : (scores.map Write.insertFinalScore).filterMap Write.event? = [] := by
    simp [List.filterMap_eq_nil_iff, Write.event?]
  simp [finishWrites, List.filterMap_cons, List.filterMap_append, hNone, Write.event?]

theorem finishWrites_submissions (m : Match) (room : Room) (scores : List FinalScore)
    (endedAt : Micros) (eventId : Id) :
    (finishWrites m room scores endedAt eventId).filterMap Write.submission? = [] := by
  have hNone : (scores.map Write.insertFinalScore).filterMap Write.submission? = [] := by
    simp [List.filterMap_eq_nil_iff, Write.submission?]
  simp [finishWrites, List.filterMap_cons, List.filterMap_append, hNone, Write.submission?]

/-- What an event tells about the transaction that registers it. -/
inductive Announces (w : World) (pid : Nat) (job : Job) (ws : List Write) : EventPayload → Prop
  | matchStarted (m : Match) (code : String) (quizSetId : Id) (version count : Nat) :
      .insertMatch m ∈ ws → Announces w pid job ws
        (.matchStarted m.id m.roomId code quizSetId version count m.startedAt)
  | questionStarted (mq : MatchQuestion) (question : QuestionContent) (eventId : Id)
      (startedAt deadlineAt : Micros) : mq ∈ w.db.matchQuestions →
      Arms job mq.matchId mq.position → mq.closedAt = none → Silent w pid →
      ws = armWrites mq question eventId startedAt deadlineAt →
      Announces w pid job ws (.questionStarted mq.matchId mq.id question.id mq.position
        question.timeLimitSeconds startedAt deadlineAt)
  | questionClosed (mq : MatchQuestion) (eventId : Id) (closedAt : Micros) (correctIds : List Id) :
      mq ∈ w.db.matchQuestions → mq.closedAt = none →
      ws = closeWrites mq eventId closedAt correctIds →
      Announces w pid job ws
        (.questionClosed mq.matchId mq.id mq.questionId mq.position closedAt correctIds)
  | answerSubmitted (row : AnswerSubmission) (roomId questionId eventId : Id) (now : Micros) :
      ws = submitWrites row roomId questionId eventId now →
      Announces w pid job ws (.answerSubmitted row.id row.matchId roomId row.matchQuestionId
        questionId row.participantId row.isCorrect row.scoreAwarded row.responseTimeMs now)
  | matchFinished (m : Match) (room : Room) (scores : List FinalScore) (endedAt : Micros)
      (eventId : Id) : Finishes job m.id → m ∈ w.db.matches' → m.status ≠ .completed →
      ws = finishWrites m room scores endedAt eventId →
      Announces w pid job ws (.matchFinished m.id room.id endedAt scores)

theorem Commit.announces (h : Commit w pid job ws) : ws.filterMap Write.event? = [] ∨
    ∃ e, ws.filterMap Write.event? = [e] ∧ Announces w pid job ws e.payload := by
  cases h with
  | start host code matchId room quiz questions ids startedAt eventId =>
    exact .inr ⟨_, startWrites_events _ _ _ _ _,
      .matchStarted ⟨matchId, room.id, quiz.version, .running, startedAt, none⟩ _ _ _ _
        List.mem_cons_self⟩
  | arm _ mq question eventId startedAt deadlineAt hArms hMem _ hOpen hSilent =>
    exact .inr ⟨_, rfl, .questionStarted mq question eventId startedAt deadlineAt hMem hArms hOpen
      hSilent rfl⟩
  | close _ mq eventId closedAt correctIds _ hMem _ hOpen =>
    exact .inr ⟨_, rfl, .questionClosed mq eventId closedAt correctIds hMem hOpen rfl⟩
  | submit row payload mq roomId questionId eventId now =>
    exact .inr ⟨_, rfl, .answerSubmitted row roomId questionId eventId now rfl⟩
  | finish _ m room subs participants endedAt eventId hFin hMem _ hStatus =>
    exact .inr ⟨_, finishWrites_events _ _ _ _ _,
      .matchFinished m room _ endedAt eventId hFin hMem hStatus rfl⟩
  | resume _ _ _ deadline _ _ _ hDeadline =>
    obtain rfl | ⟨i, u, -, rfl⟩ := hDeadline
    · exact .inl rfl
    · exact .inl rfl
  | empty => exact .inl rfl
  | pause => exact .inl rfl

theorem Commit.outbox_back (h : Commit w pid job ws) {e : OutboxEvent}
    (he : e ∈ (applyAll ws w.db).outbox) : e ∈ w.db.outbox ∨ Announces w pid job ws e.payload := by
  rw [applyAll_outbox] at he
  refine (List.mem_append.mp he).imp_right fun he => ?_
  obtain hNil | ⟨x, hOne, hAnn⟩ := h.announces
  · rw [hNil] at he
    cases he
  · rw [hOne] at he
    exact List.mem_singleton.mp he ▸ hAnn

theorem Commit.submits (h : Commit w pid job ws) {row : AnswerSubmission}
    (hIns : .insertSubmission row ∈ ws) : ∃ m payload,
      job = .submitAnswer m row.participantId payload row.requestId ∧ Answers w row.requestId row := by
  cases h with
  | submit row' payload mq roomId questionId eventId now _ hAns =>
    simp only [submitWrites, List.mem_cons, Write.insertSubmission.injEq, reduceCtorEq,
      List.not_mem_nil, or_false] at hIns
    subst hIns
    exact ⟨_, payload, rfl, hAns⟩
  | start => simp [startWrites] at hIns
  | arm => simp [armWrites] at hIns
  | close => simp [closeWrites] at hIns
  | finish => simp [finishWrites] at hIns
  | pause => simp at hIns
  | resume _ _ _ deadline _ _ _ hDeadline =>
    obtain rfl | ⟨i, u, -, rfl⟩ := hDeadline <;> simp at hIns
  | empty => cases hIns

end

end LiveQuiz
