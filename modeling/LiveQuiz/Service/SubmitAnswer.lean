import LiveQuiz.Service.Session
import LiveQuiz.Service.Scoring
import Mathlib.Data.List.Dedup

/-! # `submit_answer`

The idempotency probe, the transaction with its savepoint, and the hooks after
the commit. The step numbers are those of the source.
-/

namespace LiveQuiz

open Coroutine

set_option autoImplicit false

def deadlineGraceMs : Int := 200

/-- What the transaction hands to the code after it. -/
inductive SubmitResult where
  | duplicate (response : Response)
  | inserted (row : AnswerSubmission) (questionId : Id) (nickname : String) (roomCode : Option String)

def Response.ofRow (row : AnswerSubmission) (rank : Option Nat) : Response :=
  ⟨row.id, true, row.isCorrect, row.scoreAwarded, row.responseTimeMs, rank⟩

/-- Steps 2 to 4: the locked question, the running match, the time and the
participant. -/
def admitAnswer (matchId participantId matchQuestionId : Id) :
    Coro (MatchQuestion × Match × Micros × Micros × Micros × RoomParticipant) := do
  let some mq ← selectForUpdate (.questionById matchQuestionId)
    | raise "VALIDATION_ERROR" 422 "match_question not found"
  if mq.matchId ≠ matchId then
    raise "VALIDATION_ERROR" 422 "match_question not found"
  let some m ← select (.getMatch matchId)
    | raise "ROOM_NOT_FOUND" 404 "match not found"
  let now ← utcnow
  if m.status ≠ .running then
    raise "QUESTION_CLOSED" 409 "match not running"
  if mq.closedAt.isSome then
    raise "QUESTION_CLOSED" 409 "question closed"
  let (some deadlineAt, some startedAt) := (mq.deadlineAt, mq.startedAt)
    | raise "QUESTION_CLOSED" 409 "question not armed"
  if deadlineAt + ofMillis deadlineGraceMs < now then
    raise "QUESTION_CLOSED" 409 "deadline passed"
  let some participant ← select (.participantInRoom participantId m.roomId)
    | raise "FORBIDDEN" 403 "participant not in this match's room or is kicked"
  if participant.isKicked then
    raise "FORBIDDEN" 403 "participant not in this match's room or is kicked"
  return (mq, m, now, deadlineAt, startedAt, participant)

/-- Step 5: the selection is valid and equals the set of correct options. -/
def gradeOptions (options : List AnswerOption) (selected : List Id) : Option Bool :=
  let correct := (options.filter (·.isCorrect)).map (·.id)
  if selected.all fun i => options.any (·.id = i) then
    some (selected.all (fun i => correct.contains i) && correct.all (fun i => selected.contains i) &&
      !correct.isEmpty)
  else none

def Room.mode (room : Option Room) : String :=
  match room.bind (·.scoringMode) with
  | some mode => if mode = "" then scoringModeSpeedBonus else mode
  | none => scoringModeSpeedBonus

def answerSubmittedEvent (eventId : Id) (row : AnswerSubmission) (roomId questionId : Id)
    (now : Micros) : OutboxEvent where
  id := eventId
  aggregateType := .answerAggregate
  aggregateId := row.id
  payload := .answerSubmitted row.id row.matchId roomId row.matchQuestionId questionId
    row.participantId row.isCorrect row.scoreAwarded row.responseTimeMs now
  occurredAt := now

/-- The INSERT in its savepoint: `False` after an IntegrityError. -/
def insertInSavepoint (row : AnswerSubmission) : Coro Bool :=
  Prog.handle (do
      flush [.insertSubmission row]
      return true) fun
    | .integrity => return false
    | e => throw e

/-- The stored row behind a unique violation, by request id first. -/
def existingSubmission (matchQuestionId participantId : Id) (requestId : String) :
    Coro AnswerSubmission := do
  match ← select (.submissionByRequest requestId) with
  | some row => return row
  | none =>
    let some row ← select (.submissionOnce matchQuestionId participantId)
      | raise "ANSWER_ALREADY_SUBMITTED" 409 "duplicate but original not found"
    return row

def submitTx (matchId participantId : Id) (payload : AnswerSubmitRequest) (requestId : String) :
    Coro SubmitResult := do
  let (mq, m, now, deadlineAt, startedAt, participant) ←
    admitAnswer matchId participantId payload.matchQuestionId
  let options ← select (.getOptions mq.questionId)
  let selected := payload.selectedOptionIds.dedup
  let some isCorrect := gradeOptions options selected
    | raise "VALIDATION_ERROR" 422 "selected_option_ids must belong to this question"
  let responseTimeMs := toMillis (max 0 (now - startedAt))
  let deadlineMs := toMillis (deadlineAt - startedAt)
  let question ← select (.getQuestion mq.questionId)
  let room ← select (.getRoom m.roomId)
  let points := (question.map (·.points)).getD 0
  let id ← nextId
  let row : AnswerSubmission :=
    { id := id
      matchId := matchId
      matchQuestionId := mq.id
      participantId := participantId
      selectedOptionIds := selected.insertionSort (· ≤ ·)
      isCorrect := isCorrect
      scoreAwarded := score points responseTimeMs deadlineMs (Room.mode room) isCorrect
      responseTimeMs := responseTimeMs
      requestId := requestId }
  if ← insertInSavepoint row then
    let eventId ← nextId
    flush [.insertEvent (answerSubmittedEvent eventId row m.roomId mq.questionId now)]
    return .inserted row mq.questionId participant.nickname (room.map (·.code))
  else
    let existing ← existingSubmission mq.id participantId requestId
    return .duplicate (Response.ofRow existing none)

/-- `lb_cache.top`. -/
def top (matchId : Id) (n : Nat) : Coro (List LeaderboardEntry) := do
  let rows ← redis (.zrevrange matchId n)
  if rows.isEmpty then return []
  let nicks ← redis (.hmgetNicknames matchId (rows.map (·.1)))
  return (rows.zip nicks).mapIdx fun i ((pid, score), nick) => ⟨i + 1, pid, nick.getD "", score⟩

def rankOf (participantId : Id) (entries : List LeaderboardEntry) : Option Nat :=
  (entries.find? (·.participantId = participantId)).map (·.rank)

/-- Step 9: the live leaderboard, the broadcast, the cached response. -/
def submitHooks (row : AnswerSubmission) (questionId : Id) (nickname : String)
    (roomCode : Option String) : Coro Response := do
  redis (.zaddTotal row.matchId row.participantId row.scoreAwarded row.id)
  let _ ← redis (.markAnswered row.matchId questionId row.participantId)
  redis (.setNicknames row.matchId [(row.participantId, nickname)])
  let top10 ← top row.matchId 10
  let rank := rankOf row.participantId top10
  let version ← redis (.incrLbVersion row.matchId)
  if let some code := roomCode then
    broadcast code (.leaderboardUpdated version top10)
  let response := Response.ofRow row rank
  redis (.idemSet row.requestId response)
  return response

def submitAnswer (matchId participantId : Id) (payload : AnswerSubmitRequest) (requestId : String) :
    Coro Response := do
  if requestId = "" then
    raise "VALIDATION_ERROR" 422 "X-Request-ID is required"
  match ← redis (.idemGet requestId) with
  | some cached => return cached
  | none =>
    match ← inTransaction (submitTx matchId participantId payload requestId) with
    | .duplicate response =>
      redis (.idemSet requestId response)
      return response
    | .inserted row questionId nickname roomCode => submitHooks row questionId nickname roomCode

/-- What comes behind the transaction. -/
def afterTx (requestId : String) : SubmitResult → Coro Response
  | .duplicate response => do
    redis (.idemSet requestId response)
    return response
  | .inserted row questionId nickname roomCode => submitHooks row questionId nickname roomCode

end LiveQuiz
