import LiveQuiz.Service.EndMatch
import LiveQuiz.Service.Scoring

/-! # `arm_question` and `close_question`

The two halves of a question's life, each one transaction followed by its
broadcast and by the task that continues the match.
-/

namespace LiveQuiz

open Coroutine

set_option autoImplicit false

def interQuestionSeconds : Int := 3

def questionStartedEvent (eventId : Id) (mq : MatchQuestion) (question : QuestionContent)
    (startedAt deadlineAt : Micros) : OutboxEvent where
  id := eventId
  aggregateType := .matchAggregate
  aggregateId := mq.matchId
  payload := .questionStarted mq.matchId mq.id question.id mq.position question.timeLimitSeconds
    startedAt deadlineAt
  occurredAt := startedAt

def armTx (matchId : Id) (position : Nat) : Coro (Option (String × Micros × QuestionPayload)) := do
  let some mq ← selectForUpdate (.questionAt matchId position) | return none
  if mq.closedAt.isSome then return none
  let some m ← select (.getMatch matchId) | return none
  if m.status ≠ .running then return none
  let some question ← select (.getQuestion mq.questionId) | return none
  let options ← select (.getOptions mq.questionId)
  let some room ← select (.getRoom m.roomId) | return none
  let startedAt ← utcnow
  let deadlineAt := startedAt + ofSeconds question.timeLimitSeconds
  let eventId ← nextId
  flush [.updateMatchQuestion mq.id (some startedAt) (some deadlineAt) none,
    .insertEvent (questionStartedEvent eventId mq question startedAt deadlineAt)]
  let serverNow ← utcnow
  return some (room.code, deadlineAt,
    { matchQuestionId := mq.id
      position := position
      body := question.body
      type := question.type
      options := options.map fun o => (o.id, o.body)
      startedAt := startedAt
      deadlineAt := deadlineAt
      serverNow := serverNow })

def armQuestion (matchId : Id) (position : Nat) : Coro Unit := do
  let some (code, deadlineAt, payload) ←
    exceptException (inTransaction (armTx matchId position)) none | return
  redis (.setCurrentQuestion matchId payload)
  broadcast code (.questionStarted payload)
  let now ← utcnow
  setActive matchId (.closeQuestionAfter matchId position (max 0 (deadlineAt - now)))

def questionClosedEvent (eventId : Id) (mq : MatchQuestion) (closedAt : Micros)
    (correctIds : List Id) : OutboxEvent where
  id := eventId
  aggregateType := .matchAggregate
  aggregateId := mq.matchId
  payload := .questionClosed mq.matchId mq.id mq.questionId mq.position closedAt correctIds
  occurredAt := closedAt

structure Closed where
  mq : MatchQuestion
  roomCode : String
  correctIds : List Id
  explanation : Option String
  lastQuestion : Bool

def closeTx (matchId : Id) (position : Nat) : Coro (Option Closed) := do
  let some mq ← selectForUpdate (.questionAt matchId position) | return none
  if mq.closedAt.isSome then return none
  let some m ← select (.getMatch matchId) | return none
  if m.status ≠ .running then return none
  let some room ← select (.getRoom m.roomId) | return none
  let options ← select (.getOptions mq.questionId)
  let question ← select (.getQuestion mq.questionId)
  let closedAt ← utcnow
  flush [.updateMatchQuestion mq.id none none (some closedAt)]
  let all ← select (.questionsOfMatch matchId)
  let correctIds := (options.filter (·.isCorrect)).map (·.id)
  let eventId ← nextId
  flush [.insertEvent (questionClosedEvent eventId mq closedAt correctIds)]
  return some ⟨mq, room.code, correctIds, question.bind (·.explanation), all.length ≤ position⟩

/-- `round(100.0 * correct_n / max(1, answered_n), 1)`. -/
def accuracyPercent (correct answered : Nat) : ℚ :=
  (roundHalfEven (1000 * correct / max 1 answered) : ℚ) / 10

def closedAccuracy (matchId : Id) (mq : MatchQuestion) : Coro (Option ℚ) := do
  let answered ← redis (.answeredCount matchId mq.questionId)
  if answered = 0 then
    return none
  let correct ← select (.correctSubmissions mq.id)
  return some (accuracyPercent correct.length answered)

def closeQuestion (matchId : Id) (position : Nat) : Coro Unit := do
  let some closed ← exceptException (inTransaction (closeTx matchId position)) none | return
  let accuracy ← closedAccuracy matchId closed.mq
  broadcast closed.roomCode
    (.questionClosed closed.mq.id closed.correctIds closed.explanation accuracy)
  if closed.lastQuestion then
    let _ ← endMatch matchId none
  else
    setActive matchId (.gapThenArm matchId (position + 1) (ofSeconds (max 0 interQuestionSeconds)))

def closeQuestionAfter (matchId : Id) (position : Nat) (delay : Micros) : Coro Unit := do
  if ← sleepUncancelled delay then
    closeQuestion matchId position

def gapThenArm (matchId : Id) (position : Nat) (sleep : Micros) : Coro Unit := do
  if ← sleepUncancelled sleep then
    armQuestion matchId position

end LiveQuiz
