import LiveQuiz.Lib.Transactions
import LiveQuiz.Model.Types
import Mathlib.Data.List.Sort

/-! # Tables, statements and constraints

Each table is the list of its committed rows. A `Write` is one flushed INSERT or
UPDATE, a `Query` one SELECT; the rows a query returns are those of the
statement's snapshot, in its ORDER BY.
-/

namespace LiveQuiz

set_option autoImplicit false

structure Db where
  rooms : List Room
  participants : List RoomParticipant
  quizSets : List QuizSet
  questions : List Question
  options : List AnswerOption
  matches' : List Match
  matchQuestions : List MatchQuestion
  submissions : List AnswerSubmission
  finalScores : List FinalScore
  outbox : List OutboxEvent

/-- A row that statements lock. -/
inductive RowRef where
  | room (id : Id)
  | match' (id : Id)
  | matchQuestion (id : Id)
  deriving DecidableEq, Repr

/-- Columns absent from an UPDATE are `none`. -/
inductive Write where
  | insertMatch (row : Match)
  | insertMatchQuestion (row : MatchQuestion)
  | insertSubmission (row : AnswerSubmission)
  | insertFinalScore (row : FinalScore)
  | insertEvent (row : OutboxEvent)
  | updateRoom (id : Id) (status : RoomStatus) (startedAt endedAt : Option Micros)
  | updateMatch (id : Id) (status : RoomStatus) (endedAt : Option Micros)
  | updateMatchQuestion (id : Id) (startedAt deadlineAt closedAt : Option Micros)
  deriving DecidableEq, Repr

def Room.patch (status : RoomStatus) (startedAt endedAt : Option Micros) (r : Room) : Room :=
  { r with status := status, startedAt := startedAt <|> r.startedAt, endedAt := endedAt <|> r.endedAt }

def Match.patch (status : RoomStatus) (endedAt : Option Micros) (m : Match) : Match :=
  { m with status := status, endedAt := endedAt <|> m.endedAt }

def MatchQuestion.patch (startedAt deadlineAt closedAt : Option Micros) (q : MatchQuestion) :
    MatchQuestion :=
  { q with
    startedAt := startedAt <|> q.startedAt
    deadlineAt := deadlineAt <|> q.deadlineAt
    closedAt := closedAt <|> q.closedAt }

/-- `UPDATE ... WHERE id = i`. -/
def updateWhere {ρ : Type} (key : ρ → Id) (i : Id) (f : ρ → ρ) (rows : List ρ) : List ρ :=
  rows.map fun r => if key r = i then f r else r

def Write.apply : Write → Db → Db
  | .insertMatch row, db => { db with matches' := db.matches' ++ [row] }
  | .insertMatchQuestion row, db => { db with matchQuestions := db.matchQuestions ++ [row] }
  | .insertSubmission row, db => { db with submissions := db.submissions ++ [row] }
  | .insertFinalScore row, db => { db with finalScores := db.finalScores ++ [row] }
  | .insertEvent row, db => { db with outbox := db.outbox ++ [row] }
  | .updateRoom i st sa ea, db =>
    { db with rooms := updateWhere Room.id i (Room.patch st sa ea) db.rooms }
  | .updateMatch i st ea, db =>
    { db with matches' := updateWhere Match.id i (Match.patch st ea) db.matches' }
  | .updateMatchQuestion i sa da ca, db =>
    { db with
      matchQuestions := updateWhere MatchQuestion.id i (MatchQuestion.patch sa da ca) db.matchQuestions }

def applyAll (ws : List Write) (db : Db) : Db := Transactions.applyAll Write.apply ws db

/-- The row an UPDATE locks. -/
def Write.target : Write → Option RowRef
  | .updateRoom i _ _ _ => some (.room i)
  | .updateMatch i _ _ => some (.match' i)
  | .updateMatchQuestion i _ _ _ => some (.matchQuestion i)
  | _ => none

/-- The primary keys and unique constraints of the baseline migration: `w`
collides with a row of `db`. -/
def Write.collides : Write → Db → Bool
  | .insertMatch row, db => db.matches'.any fun m => m.id = row.id || m.roomId = row.roomId
  | .insertMatchQuestion row, db =>
    db.matchQuestions.any fun q =>
      q.id = row.id || (q.matchId = row.matchId && q.position = row.position)
  | .insertSubmission row, db =>
    db.submissions.any fun r =>
      r.id = row.id ||
      (r.matchQuestionId = row.matchQuestionId && r.participantId = row.participantId) ||
      r.requestId = row.requestId
  | .insertFinalScore row, db =>
    db.finalScores.any fun f => f.matchId = row.matchId && f.participantId = row.participantId
  | .insertEvent row, db => db.outbox.any fun e => e.id = row.id
  | _, _ => false

def emptyDb : Db := ⟨[], [], [], [], [], [], [], [], [], []⟩

/-- Two pending writes collide when one finds the other's row. -/
def Write.collidesWith (w w' : Write) : Bool := w.collides (w'.apply emptyDb)

/-- The smallest element of a list under a key, the first of several. -/
def minBy? {ρ : Type} (key : ρ → Int) : List ρ → Option ρ
  | [] => none
  | r :: rs =>
    match minBy? key rs with
    | none => some r
    | some m => if key r ≤ key m then some r else some m

/-- `ORDER BY key ASC`. -/
def sortBy {ρ : Type} (key : ρ → Int) (rows : List ρ) : List ρ :=
  rows.insertionSort fun a b => key a ≤ key b

inductive Query where
  | getMatch (id : Id)
  | getRoom (id : Id)
  | getQuestion (id : Id)
  | getOptions (questionId : Id)
  | getQuizSet (id : Id)
  | questionsOfQuiz (quizSetId : Id)
  | matchOfRoom (roomId : Id)
  | questionsOfMatch (matchId : Id)
  | openQuestion (matchId : Id)
  | nextUnstarted (matchId : Id)
  | participantInRoom (participantId roomId : Id)
  | activeParticipants (roomId : Id)
  | keptParticipants (roomId : Id)
  | submissionsOfMatch (matchId : Id)
  | correctSubmissions (matchQuestionId : Id)
  | submissionByRequest (requestId : String)
  | submissionOnce (matchQuestionId participantId : Id)
  | runningMatches
  deriving DecidableEq, Repr

@[reducible] def Query.Rows : Query → Type
  | .getMatch _ => Option Match
  | .getRoom _ => Option Room
  | .getQuestion _ => Option QuestionContent
  | .getOptions _ => List AnswerOption
  | .getQuizSet _ => Option QuizSet
  | .questionsOfQuiz _ => List Question
  | .matchOfRoom _ => Option Match
  | .questionsOfMatch _ => List MatchQuestion
  | .openQuestion _ => Option MatchQuestion
  | .nextUnstarted _ => Option MatchQuestion
  | .participantInRoom _ _ => Option RoomParticipant
  | .activeParticipants _ => List RoomParticipant
  | .keptParticipants _ => List RoomParticipant
  | .submissionsOfMatch _ => List AnswerSubmission
  | .correctSubmissions _ => List AnswerSubmission
  | .submissionByRequest _ => Option AnswerSubmission
  | .submissionOnce _ _ => Option AnswerSubmission
  | .runningMatches => List Match

def Query.run (db : Db) : (q : Query) → q.Rows
  | .getMatch i => db.matches'.find? (·.id = i)
  | .getRoom i => db.rooms.find? (·.id = i)
  | .getQuestion i => (db.questions.find? (·.id = i)).map Question.content
  | .getOptions i => sortBy AnswerOption.position (db.options.filter (·.questionId = i))
  | .getQuizSet i => db.quizSets.find? (·.id = i)
  | .questionsOfQuiz i => sortBy Question.position (db.questions.filter (·.quizSetId = i))
  | .matchOfRoom i => db.matches'.find? (·.roomId = i)
  | .questionsOfMatch i =>
    sortBy (fun q => (q.position : Int)) (db.matchQuestions.filter (·.matchId = i))
  | .openQuestion i =>
    minBy? (fun q => -(q.position : Int))
      (db.matchQuestions.filter fun q => q.matchId = i ∧ q.startedAt.isSome ∧ q.closedAt.isNone)
  | .nextUnstarted i =>
    minBy? (fun q => (q.position : Int))
      (db.matchQuestions.filter fun q => q.matchId = i ∧ q.startedAt.isNone)
  | .participantInRoom p r => db.participants.find? fun x => x.id = p ∧ x.roomId = r
  | .activeParticipants r =>
    db.participants.filter fun x => x.roomId = r ∧ x.leftAt.isNone ∧ x.isKicked = false
  | .keptParticipants r => db.participants.filter fun x => x.roomId = r ∧ x.isKicked = false
  | .submissionsOfMatch m => db.submissions.filter (·.matchId = m)
  | .correctSubmissions q => db.submissions.filter fun r => r.matchQuestionId = q ∧ r.isCorrect
  | .submissionByRequest r => db.submissions.find? (·.requestId = r)
  | .submissionOnce q p => db.submissions.find? fun r => r.matchQuestionId = q ∧ r.participantId = p
  | .runningMatches => db.matches'.filter (·.status = .running)

/-- The statements with FOR UPDATE. -/
inductive LockQuery where
  | roomByCode (code : String)
  | roomById (id : Id)
  | matchById (id : Id)
  | questionAt (matchId : Id) (position : Nat)
  | questionById (id : Id)
  deriving DecidableEq, Repr

@[reducible] def LockQuery.Row : LockQuery → Type
  | .roomByCode _ => Room
  | .roomById _ => Room
  | .matchById _ => Match
  | .questionAt _ _ => MatchQuestion
  | .questionById _ => MatchQuestion

def LockQuery.find (db : Db) : (q : LockQuery) → Option q.Row
  | .roomByCode c => db.rooms.find? (·.code = c)
  | .roomById i => db.rooms.find? (·.id = i)
  | .matchById i => db.matches'.find? (·.id = i)
  | .questionAt m p => db.matchQuestions.find? fun q => q.matchId = m ∧ q.position = p
  | .questionById i => db.matchQuestions.find? (·.id = i)

def LockQuery.ref : (q : LockQuery) → q.Row → RowRef
  | .roomByCode _, r => .room r.id
  | .roomById _, r => .room r.id
  | .matchById _, m => .match' m.id
  | .questionAt _ _, q => .matchQuestion q.id
  | .questionById _, q => .matchQuestion q.id

end LiveQuiz
