import LiveQuiz.Model.Store

/-! # Quiz edits

The committed effect of the quiz service's writes to a quiz set, its questions
and its options. Each service function is one transaction, so a failing
statement (a missing row, a foreign owner, a duplicate position) leaves the
tables as they were: the result is then `none`.
-/

namespace LiveQuiz

set_option autoImplicit false

/-- `QuizRepo._SHIFT_SENTINEL`. -/
def shiftSentinel : Int := 1000000

def parkPosition : Int := shiftSentinel - 1

structure OptionCreate where
  position : Int
  body : String
  isCorrect : Bool
  deriving DecidableEq, Repr

structure QuestionCreate where
  position : Option Int
  body : String
  type : QuestionType
  timeLimitSeconds : Int
  points : Int
  explanation : Option String
  options : List OptionCreate
  deriving DecidableEq, Repr

structure QuestionUpdate where
  position : Option Int := none
  body : Option String := none
  type : Option QuestionType := none
  timeLimitSeconds : Option Int := none
  points : Option Int := none
  explanation : Option String := none
  options : Option (List OptionCreate) := none
  deriving DecidableEq, Repr

/-- `tags` are the names as `_resolve_tags` leaves them. -/
structure QuizSetUpdate where
  title : Option String := none
  description : Option String := none
  visibility : Option QuizVisibility := none
  tags : Option (List String) := none
  deriving DecidableEq, Repr

/-- One bulk `UPDATE questions SET position = f(position) WHERE p`. -/
def shiftPositions (p : Question → Bool) (f : Int → Int) (qs : List Question) : List Question :=
  qs.map fun q => if p q then { q with position := f q.position } else q

/-- `ux_questions_quiz_position`. -/
def positionsUnique (qs : List Question) : Bool :=
  decide (qs.map fun q => (q.quizSetId, q.position)).Nodup

def checkedPositions (qs : List Question) : Option (List Question) :=
  if positionsUnique qs then some qs else none

def maxQuestionPosition (quizSetId : Id) (qs : List Question) : Int :=
  (qs.filter (·.quizSetId = quizSetId)).foldl (fun m q => max m q.position) 0

def shiftQuestionPositions (quizSetId : Id) (fromPosition by' : Int) (qs : List Question) :
    Option (List Question) := do
  let parked ← checkedPositions <| shiftPositions
    (fun q => q.quizSetId = quizSetId ∧ fromPosition ≤ q.position ∧ q.position < shiftSentinel)
    (· + shiftSentinel) qs
  checkedPositions <| shiftPositions
    (fun q => q.quizSetId = quizSetId ∧ shiftSentinel ≤ q.position)
    (· - shiftSentinel + by') parked

def setPosition (questionId : Id) (position : Int) (qs : List Question) : Option (List Question) :=
  checkedPositions <| updateWhere Question.id questionId (fun q => { q with position := position }) qs

/-- `_move_question_to`: park the row, shift the siblings in two phases, drop
the row at its target. -/
def moveQuestionTo (quizSetId : Id) (question : Question) (newPosition : Int)
    (qs : List Question) : Option (List Question) := do
  let old := question.position
  let parkedRow ← setPosition question.id parkPosition qs
  let affected : Question → Bool := fun q =>
    if newPosition < old then newPosition ≤ q.position ∧ q.position < old
    else old < q.position ∧ q.position ≤ newPosition
  let delta : Int := if newPosition < old then 1 else -1
  let parked ← checkedPositions <| shiftPositions
    (fun q => q.quizSetId = quizSetId ∧ affected q ∧ q.id ≠ question.id ∧ q.position < shiftSentinel)
    (· + shiftSentinel) parkedRow
  let back ← checkedPositions <| shiftPositions
    (fun q => q.quizSetId = quizSetId ∧ shiftSentinel ≤ q.position ∧ q.id ≠ question.id)
    (· - shiftSentinel + delta) parked
  setPosition question.id newPosition back

/-- The option rows of a payload under the ids drawn for them. -/
def optionRows (questionId : Id) (ids : List Id) (options : List OptionCreate) :
    List AnswerOption :=
  (ids.zip options).map fun (i, o) =>
    { id := i, questionId := questionId, position := o.position, body := o.body
      isCorrect := o.isCorrect }

/-- `ux_answer_options_question_position` and the primary key. -/
def checkedOptions (os : List AnswerOption) : Option (List AnswerOption) :=
  if (os.map fun o => (o.questionId, o.position)).Nodup ∧ (os.map (·.id)).Nodup then some os else none

def QuestionUpdate.patch (u : QuestionUpdate) (q : Question) : Question :=
  { q with
    body := u.body.getD q.body
    type := u.type.getD q.type
    timeLimitSeconds := u.timeLimitSeconds.getD q.timeLimitSeconds
    points := u.points.getD q.points
    explanation := u.explanation <|> q.explanation }

def repositioned (question : Question) (position : Option Int) (qs : List Question) :
    Option (List Question) :=
  match position with
  | none => some qs
  | some p =>
    if p = question.position then some qs else moveQuestionTo question.quizSetId question p qs

def replaceOptions (questionId : Id) (ids : List Id) (options : Option (List OptionCreate))
    (os : List AnswerOption) : Option (List AnswerOption) :=
  match options with
  | none => some os
  | some new => checkedOptions (os.filter (·.questionId ≠ questionId) ++ optionRows questionId ids new)

def updateQuestion (ownerId questionId : Id) (u : QuestionUpdate) (ids : List Id) (db : Db) :
    Option Db := do
  let question ← db.questions.find? (·.id = questionId)
  let parent ← db.quizSets.find? (·.id = question.quizSetId)
  guard (parent.ownerId = ownerId)
  let patched := updateWhere Question.id questionId u.patch db.questions
  let questions ← repositioned question u.position patched
  let options ← replaceOptions questionId ids u.options db.options
  return { db with questions := questions, options := options }

def makeRoom (quizSetId : Id) (position : Option Int) (last : Int) (qs : List Question) :
    Option (List Question) :=
  match position with
  | none => some qs
  | some p => if p ≤ last then shiftQuestionPositions quizSetId p 1 qs else some qs

def addQuestion (ownerId quizSetId questionId : Id) (c : QuestionCreate) (ids : List Id) (db : Db) :
    Option Db := do
  let parent ← db.quizSets.find? (·.id = quizSetId)
  guard (parent.ownerId = ownerId)
  guard (db.questions.all (·.id ≠ questionId))
  let last := maxQuestionPosition quizSetId db.questions
  let shifted ← makeRoom quizSetId c.position last db.questions
  let questions ← checkedPositions <| shifted ++
    [{ id := questionId, quizSetId := quizSetId, position := c.position.getD (last + 1)
       body := c.body, type := c.type, timeLimitSeconds := c.timeLimitSeconds, points := c.points
       explanation := c.explanation }]
  let options ← checkedOptions <| db.options ++ optionRows questionId ids c.options
  return { db with questions := questions, options := options }

def renumberAfterDelete (quizSetId : Id) (deletedPosition : Int) (qs : List Question) :
    Option (List Question) := do
  let parked ← checkedPositions <| shiftPositions
    (fun q => q.quizSetId = quizSetId ∧ deletedPosition < q.position ∧ q.position < shiftSentinel)
    (· + shiftSentinel) qs
  checkedPositions <| shiftPositions
    (fun q => q.quizSetId = quizSetId ∧ shiftSentinel ≤ q.position)
    (· - shiftSentinel - 1) parked

/-- `fk_match_questions_question_id_questions`: a row of a match refers to the question. -/
def usedInMatch (questionId : Id) (db : Db) : Bool := db.matchQuestions.any (·.questionId = questionId)

def deleteQuestion (ownerId questionId : Id) (db : Db) : Option Db := do
  let question ← db.questions.find? (·.id = questionId)
  let parent ← db.quizSets.find? (·.id = question.quizSetId)
  guard (parent.ownerId = ownerId)
  guard (usedInMatch questionId db = false)
  let questions ← renumberAfterDelete question.quizSetId question.position
    (db.questions.filter (·.id ≠ questionId))
  return { db with
    questions := questions, options := db.options.filter (·.questionId ≠ questionId) }

def QuizSetUpdate.patch (u : QuizSetUpdate) (qs : QuizSet) : QuizSet :=
  { qs with
    title := u.title.getD qs.title
    description := u.description <|> qs.description
    visibility := u.visibility.getD qs.visibility
    tags := u.tags.getD qs.tags
    version := qs.version + 1 }

def updateQuizSet (ownerId quizSetId : Id) (u : QuizSetUpdate) (db : Db) : Option Db := do
  let parent ← db.quizSets.find? (·.id = quizSetId)
  guard (parent.ownerId = ownerId)
  return { db with quizSets := updateWhere QuizSet.id quizSetId u.patch db.quizSets }

/-- The edits a quiz owner can commit; the ids are those the generator drew. -/
inductive QuizEdit where
  | updateQuestion (ownerId questionId : Id) (payload : QuestionUpdate) (ids : List Id)
  | addQuestion (ownerId quizSetId questionId : Id) (payload : QuestionCreate) (ids : List Id)
  | updateQuizSet (ownerId quizSetId : Id) (payload : QuizSetUpdate)
  deriving DecidableEq, Repr

def QuizEdit.apply : QuizEdit → Db → Option Db
  | .updateQuestion o q u ids => LiveQuiz.updateQuestion o q u ids
  | .addQuestion o s q c ids => LiveQuiz.addQuestion o s q c ids
  | .updateQuizSet o s u => LiveQuiz.updateQuizSet o s u

end LiveQuiz
