import Mathlib.Data.Rat.Defs

/-! # Rows, events and messages

The columns are those the match service reads or writes. Times are microseconds
since the epoch, the resolution of `datetime`; ids are the integers behind the
BIGINT columns, and their renderings as strings in payloads are left implicit.
-/

namespace LiveQuiz

set_option autoImplicit false

abbrev Id := Nat

abbrev Micros := Int

inductive RoomStatus where
  | lobby | running | paused | completed | cancelled
  deriving DecidableEq, Repr

inductive QuestionType where
  | singleChoice | multipleChoice | trueFalse
  deriving DecidableEq, Repr

/-- `scoringMode` is the `scoring_mode` entry of the JSON column `settings`. -/
structure Room where
  id : Id
  code : String
  hostId : Id
  quizSetId : Id
  status : RoomStatus
  scoringMode : Option String
  startedAt : Option Micros
  endedAt : Option Micros
  deriving DecidableEq, Repr

structure RoomParticipant where
  id : Id
  roomId : Id
  nickname : String
  leftAt : Option Micros
  isKicked : Bool
  deriving DecidableEq, Repr

inductive QuizVisibility where
  | priv | unlisted | pub
  deriving DecidableEq, Repr

/-- `tags` are the names of the linked `quiz_tags` rows. -/
structure QuizSet where
  id : Id
  ownerId : Id
  title : String
  description : Option String
  visibility : QuizVisibility
  version : Nat
  tags : List String
  deriving DecidableEq, Repr

structure Question where
  id : Id
  quizSetId : Id
  position : Int
  body : String
  type : QuestionType
  timeLimitSeconds : Int
  points : Int
  explanation : Option String
  deriving DecidableEq, Repr

/-- The columns the match service uses of a question it looks up by id. -/
structure QuestionContent where
  id : Id
  body : String
  type : QuestionType
  timeLimitSeconds : Int
  points : Int
  explanation : Option String
  deriving DecidableEq, Repr

def Question.content (q : Question) : QuestionContent :=
  ⟨q.id, q.body, q.type, q.timeLimitSeconds, q.points, q.explanation⟩

structure AnswerOption where
  id : Id
  questionId : Id
  position : Int
  body : String
  isCorrect : Bool
  deriving DecidableEq, Repr

structure Match where
  id : Id
  roomId : Id
  quizSetVersion : Nat
  status : RoomStatus
  startedAt : Micros
  endedAt : Option Micros
  deriving DecidableEq, Repr

structure MatchQuestion where
  id : Id
  matchId : Id
  questionId : Id
  position : Nat
  startedAt : Option Micros
  deadlineAt : Option Micros
  closedAt : Option Micros
  deriving DecidableEq, Repr

structure AnswerSubmission where
  id : Id
  matchId : Id
  matchQuestionId : Id
  participantId : Id
  selectedOptionIds : List Id
  isCorrect : Bool
  scoreAwarded : Int
  responseTimeMs : Int
  requestId : String
  deriving DecidableEq, Repr

structure FinalScore where
  matchId : Id
  participantId : Id
  totalScore : Int
  correctCount : Nat
  averageResponseMs : Option Int
  rank : Nat
  deriving DecidableEq, Repr

/-- The payloads of the five events the match service registers. -/
inductive EventPayload where
  | matchStarted (matchId roomId : Id) (code : String) (quizSetId : Id)
      (quizSetVersion questionCount : Nat) (startedAt : Micros)
  | questionStarted (matchId matchQuestionId questionId : Id) (position : Nat)
      (timeLimitSeconds : Int) (startedAt deadlineAt : Micros)
  | questionClosed (matchId matchQuestionId questionId : Id) (position : Nat)
      (closedAt : Micros) (correctOptionIds : List Id)
  | answerSubmitted (submissionId matchId roomId matchQuestionId questionId participantId : Id)
      (isCorrect : Bool) (scoreAwarded responseTimeMs : Int) (submittedAt : Micros)
  | matchFinished (matchId roomId : Id) (endedAt : Micros) (finalScores : List FinalScore)
  deriving DecidableEq, Repr

inductive AggregateType where
  | matchAggregate | answerAggregate
  deriving DecidableEq, Repr

structure OutboxEvent where
  id : Id
  aggregateType : AggregateType
  aggregateId : Id
  payload : EventPayload
  occurredAt : Micros
  deriving DecidableEq, Repr

/-- The payload of `question.started`, also stored for reconnecting clients. -/
structure QuestionPayload where
  matchQuestionId : Id
  position : Nat
  body : String
  type : QuestionType
  options : List (Id × String)
  startedAt : Micros
  deadlineAt : Micros
  serverNow : Micros
  deriving DecidableEq, Repr

structure LeaderboardEntry where
  rank : Nat
  participantId : Id
  nickname : String
  score : Int
  deriving DecidableEq, Repr

inductive Message where
  | matchStarted (matchId : Id) (questionCount : Nat) (serverNow : Micros)
  | questionStarted (payload : QuestionPayload)
  | questionClosed (matchQuestionId : Id) (correctOptionIds : List Id)
      (explanation : Option String) (accuracyPercent : Option ℚ)
  | leaderboardUpdated (version : Nat) (top : List LeaderboardEntry)
  | matchFinished (matchId : Id)
  deriving DecidableEq, Repr

/-- The response dict of `submit_answer`. -/
structure Response where
  submissionId : Id
  accepted : Bool
  isCorrect : Bool
  scoreAwarded : Int
  responseTimeMs : Int
  leaderboardRank : Option Nat
  deriving DecidableEq, Repr

end LiveQuiz
