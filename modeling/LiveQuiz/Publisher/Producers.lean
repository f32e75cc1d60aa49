import LiveQuiz.Publisher.Service
import LiveQuiz.Rooms.World
import LiveQuiz.Authoring.World
import LiveQuiz.Moderation.Decide

/-! # What the backend registers

The outbox rows of every service, with the event type and the aggregate type each is
inserted under. The routing table of the publisher is kept apart from them.
-/

namespace LiveQuiz.Publisher

set_option autoImplicit false

/-- An event about a report, filed by a user or found by the policy. -/
structure ReportEvent where
  id : Id
  aggregateId : Id
  found : Bool
  occurredAt : Micros
  deriving DecidableEq, Repr

inductive BackendEvent where
  | room (event : Rooms.OutboxEvent)
  | match' (event : LiveQuiz.OutboxEvent)
  | report (event : ReportEvent)
  | decision (event : Moderation.DecisionEvent)
  | quizPublished (event : Authoring.PublishedEvent)
  deriving DecidableEq, Repr

namespace BackendEvent

def id : BackendEvent → Id
  | room e => e.id
  | match' e => e.id
  | report e => e.id
  | decision e => e.id
  | quizPublished e => e.id

def aggregateId : BackendEvent → Id
  | room e => e.aggregateId
  | match' e => e.aggregateId
  | report e => e.aggregateId
  | decision e => e.aggregateId
  | quizPublished e => e.aggregateId

def occurredAt : BackendEvent → Micros
  | room e => e.occurredAt
  | match' e => e.occurredAt
  | report e => e.occurredAt
  | decision e => e.occurredAt
  | quizPublished e => e.occurredAt

def aggregateType : BackendEvent → String
  | room e => match e.payload with
    | .roomCreated .. | .playerJoined .. => "room"
    | .contentFlagged .. => "moderation"
  | match' e => match e.aggregateType with
    | .matchAggregate => "match"
    | .answerAggregate => "answer"
  | report _ => "moderation"
  | decision _ => "moderation"
  | quizPublished _ => "quiz_set"

def eventType : BackendEvent → String
  | room e => match e.payload with
    | .roomCreated .. => "RoomCreated"
    | .playerJoined .. => "PlayerJoined"
    | .contentFlagged .. => "ContentFlagged"
  | match' e => match e.payload with
    | .matchStarted .. => "MatchStarted"
    | .questionStarted .. => "QuestionStarted"
    | .questionClosed .. => "QuestionClosed"
    | .answerSubmitted .. => "AnswerSubmitted"
    | .matchFinished .. => "MatchFinished"
  | report e => if e.found then "ContentFlagged" else "ContentReported"
  | decision _ => "ModerationDecisionMade"
  | quizPublished _ => "QuizPublished"

/-- The row that is inserted for the event; its payload is some JSON text. -/
structure Registers (event : BackendEvent) (row : OutboxRow) : Prop where
  id : row.id = event.id
  aggregateType : row.aggregateType = event.aggregateType
  aggregateId : row.aggregateId = event.aggregateId
  eventType : row.eventType = event.eventType
  occurredAt : row.occurredAt = event.occurredAt

def isQuizPublished : BackendEvent → Bool
  | quizPublished _ => true
  | _ => false

theorem topicFor_known {type : String} (h : type ∈ eventToTopic.map Prod.fst) :
    topicFor type ≠ topicDeadLetter := by
  have hTable : ∀ t ∈ eventToTopic.map Prod.fst, topicFor t ≠ topicDeadLetter := by
    decide
  exact hTable type h

theorem known_of_not_published (event : BackendEvent) (h : event.isQuizPublished = false) :
    event.eventType ∈ eventToTopic.map Prod.fst := by
  cases event with
  | room e => cases hPayload : e.payload <;> simp [eventType, hPayload, eventToTopic]
  | match' e => cases hPayload : e.payload <;> simp [eventType, hPayload, eventToTopic]
  | report e => cases hFound : e.found <;> simp [eventType, hFound, eventToTopic]
  | decision e => simp [eventType, eventToTopic]
  | quizPublished e => cases h

theorem topicFor_dead_iff (event : BackendEvent) :
    topicFor event.eventType = topicDeadLetter ↔ event.isQuizPublished = true := by
  cases hKind : event.isQuizPublished with
  | false => simpa using topicFor_known (known_of_not_published event hKind)
  | true =>
    cases event with
    | quizPublished e =>
      have hUnknown : topicFor "QuizPublished" = topicDeadLetter := by
        decide
      exact iff_of_true hUnknown rfl
    | _ => cases hKind

end BackendEvent

end LiveQuiz.Publisher
