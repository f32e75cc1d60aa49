import LiveQuiz.Authoring.World

/-! # The quiz service and its endpoints

Each service function is one transaction that the request's session ends; the endpoint
then invalidates the cached lists. The moderator's `hide` is that of `decide`, which
invalidates nothing.
-/

namespace LiveQuiz.Authoring

open Coroutine

set_option autoImplicit false

/-- A list answer is kept with the length of the log at which its rows were read. -/
inductive Reply where
  | listed (body : Body) (asOf : Nat)
  | summary (row : Summary)
  | question (row : Question) (options : List AnswerOption)
  | deleted
  | hidden (version : Nat)
  deriving DecidableEq, Repr

abbrev Coro := Prog Op Op.Res Exn

abbrev ask (o : Op) : Coro o.Res := Prog.perform o

/-- The request's session: leaving by an exception rolls back. -/
def inSession {α : Type} (body : Coro α) : Coro α := body.session .rollback

def quizNotFound (quizSetId : Id) : Exn :=
  .auth "VALIDATION_ERROR" 404 "quiz set not found" [("quiz_set_id", toString quizSetId)]

def questionNotFound (questionId : Id) : Exn :=
  .auth "VALIDATION_ERROR" 404 "question not found" [("question_id", toString questionId)]

def notOwner (field : String) (i : Id) : Exn :=
  .auth "FORBIDDEN" 403 "not the quiz owner" [(field, toString i)]

def loadOwnedQuiz (owner quizSetId : Id) : Coro Quiz := do
  let some quiz ← ask (.getQuiz quizSetId)
    | throw (quizNotFound quizSetId)
  if quiz.ownerId ≠ owner then throw (notOwner "quiz_set_id" quizSetId)
  return quiz

structure Issue where
  questionId : Option Id
  code : String
  message : String
  deriving DecidableEq, Repr

def questionIssues (q : Question) (options : List AnswerOption) : List Issue :=
  let nOptions := options.length
  let nCorrect := options.countP (·.isCorrect)
  match q.type with
  | .singleChoice =>
    (if nOptions < 2 then
      [⟨some q.id, "INSUFFICIENT_OPTIONS", "single_choice requires at least 2 options."⟩] else []) ++
    (if nCorrect ≠ 1 then
      [⟨some q.id, "EXPECTED_ONE_CORRECT", "single_choice requires exactly 1 correct option."⟩] else [])
  | .multipleChoice =>
    (if nOptions < 2 then
      [⟨some q.id, "INSUFFICIENT_OPTIONS", "multiple_choice requires at least 2 options."⟩] else []) ++
    (if ¬(1 ≤ nCorrect ∧ nCorrect < nOptions) then
      [⟨some q.id, "EXPECTED_SOME_NOT_ALL_CORRECT",
        "multiple_choice requires at least 1 correct option and not all options correct."⟩] else [])
  | .trueFalse =>
    (if nOptions ≠ 2 then
      [⟨some q.id, "WRONG_TF_OPTION_COUNT", "true_false requires exactly 2 options."⟩] else []) ++
    (if nCorrect ≠ 1 then
      [⟨some q.id, "EXPECTED_ONE_CORRECT", "true_false requires exactly 1 correct option."⟩] else [])

def optionsIn (options : List AnswerOption) (q : Question) : List AnswerOption :=
  options.filter (·.questionId = q.id)

/-- `validate_publish` of a quiz loaded with its questions and their options. -/
def validatePublish (questions : List Question) (options : List AnswerOption) : List Issue :=
  match questions with
  | [] => [⟨none, "EMPTY_QUIZ", "Quiz must contain at least one question."⟩]
  | _ => questions.flatMap fun q => questionIssues q (optionsIn options q)

/-- `validate_publish` of the stored quiz. -/
def Db.issues (db : Db) (quizSetId : Id) : List Issue :=
  validatePublish (db.questionsOf quizSetId) (db.optionsOf ((db.questionsOf quizSetId).map (·.id)))

/-- The tag names that are left: the blank and the repeated ones are dropped. -/
def tagNames (names : List String) : List String :=
  names.foldl (fun kept n => if n = "" ∨ n ∈ kept then kept else kept ++ [n]) []

def upsertTags : List String → Coro Unit
  | [] => return
  | n :: rest => do
    let _tagId ← ask .nextId
    ask (.upsertTag n)
    upsertTags rest

def resolveTags (names : List String) : Coro (List String) := do
  upsertTags (tagNames names)
  return tagNames names

def replaceQuizTags (quizSetId : Id) (names : List String) : Coro Unit := do
  let old ← ask (.tagsOf quizSetId)
  ask (.flush [.deleteTags quizSetId old])
  ask (.flush [.insertTags quizSetId names])

def createQuizSet (owner : Id) (payload : QuizSetCreate) : Coro Quiz := do
  let i ← ask .nextId
  let now ← ask .utcnow
  let quiz : Quiz := ⟨i, owner, payload.title, payload.description, payload.visibility, false, 1, now⟩
  ask (.flush [.insertQuiz quiz])
  if payload.tags ≠ [] then
    let names ← resolveTags payload.tags
    replaceQuizTags quiz.id names
  ask .commit
  return quiz

/-- The attributes the payload changes. -/
def quizChanges (u : QuizSetUpdate) (z : Quiz) : QuizPatch where
  title := u.title.filter (· ≠ z.title)
  description := u.description.filter (some · ≠ z.description)
  visibility := u.visibility.filter (· ≠ z.visibility)

def flushQuiz (quizSetId : Id) (changes : QuizPatch) : Coro Unit :=
  if changes = {} then return () else ask (.flush [.updateQuiz quizSetId changes])

/-- The first statement on the tags flushes the changed attributes, so that the version
then has an UPDATE of its own. -/
def updateQuizSet (owner quizSetId : Id) (payload : QuizSetUpdate) : Coro Quiz := do
  let quiz ← loadOwnedQuiz owner quizSetId
  let changes := quizChanges payload quiz
  match payload.tags with
  | none => flushQuiz quiz.id { changes with version := some (quiz.version + 1) }
  | some tags =>
    flushQuiz quiz.id changes
    let names ← resolveTags tags
    replaceQuizTags quiz.id names
    flushQuiz quiz.id { version := some (quiz.version + 1) }
  ask .commit
  return { changes with version := some (quiz.version + 1) }.patch quiz

def publishQuizSet (owner quizSetId : Id) : Coro (Quiz × Nat) := do
  let some quiz ← ask (.getQuiz quizSetId)
    | throw (quizNotFound quizSetId)
  let questions ← ask (.questionsOf quizSetId)
  let options ← ask (.optionsOf (questions.map (·.id)))
  if quiz.ownerId ≠ owner then throw (notOwner "quiz_set_id" quizSetId)
  ask (.flag quizSetId)
  let issues := validatePublish questions options
  if issues ≠ [] then
    throw (.auth "VALIDATION_ERROR" 422 "quiz set failed publish validation"
      (issues.map fun i => ("issues", i.code)))
  let newVersion := quiz.version + 1
  let occurredAt ← ask .utcnow
  let eventId ← ask .nextId
  let published := if quiz.isPublished then none else some true
  ask (.flush [.updateQuiz quiz.id { isPublished := published, version := some newVersion }])
  ask (.flush [.insertEvent ⟨eventId, quiz.id, newVersion, owner, quiz.title, occurredAt⟩])
  ask .commit
  return ({ quiz with isPublished := true, version := newVersion }, questions.length)

/-- `_apply_hide` and the end of its transaction. -/
def hide (quizSetId : Id) : Coro Nat := do
  let some quiz ← ask (.getQuiz quizSetId)
    | throw (.auth "VALIDATION_ERROR" 404 "target quiz set not found"
        [("target_quiz_set_id", toString quizSetId)])
  let version := (if quiz.version = 0 then 1 else quiz.version) + 1
  ask (.flush [.updateQuiz quiz.id
    { visibility := if quiz.visibility = .priv then none else some .priv
      isPublished := if quiz.isPublished then some false else none
      version := some version }])
  ask .commit
  return version

/-- One bulk UPDATE: the rows its snapshot finds, then those of them that still match. -/
def shiftWithin (span : Span) (delta : Int) : Coro Unit := do
  let ids ← ask (.within span)
  ask (.shift ids span delta)

/-- The two phases of a shift of siblings. -/
def shiftSiblings (span : Span) (delta : Int) : Coro Unit := do
  shiftWithin span shiftSentinel
  shiftWithin { quizSetId := span.quizSetId, low := shiftSentinel, other := span.other }
    (delta - shiftSentinel)

/-- The rows of the payload's options, with the ids drawn for them. -/
def drawOptions (questionId : Id) : List OptionCreate → Coro (List AnswerOption)
  | [] => return []
  | o :: rest => do
    let i ← ask .nextId
    let rows ← drawOptions questionId rest
    return ⟨i, questionId, o.position, o.body, o.isCorrect⟩ :: rows

def insertDrawn (questionId : Id) : List OptionCreate → Coro Unit
  | [] => return
  | o :: rest => do
    let i ← ask .nextId
    ask (.flush [.insertOptions [⟨i, questionId, o.position, o.body, o.isCorrect⟩]])
    insertDrawn questionId rest

def targetPosition (quizSetId : Id) (position : Option Int) : Coro Int := do
  let last ← ask (.maxQuestionPosition quizSetId)
  match position with
  | none => return last + 1
  | some p =>
    if p ≤ last then
      shiftSiblings { quizSetId := quizSetId, low := p, high := some shiftSentinel } 1
    return p

/-- The row again, with its options. -/
def hydrated (questionId : Id) : Coro (Question × List AnswerOption) := do
  let some question ← ask (.getQuestion questionId)
    | throw .crashed
  let options ← ask (.optionsOf [questionId])
  return (question, options)

def addQuestion (owner quizSetId : Id) (payload : QuestionCreate) : Coro (Question × List AnswerOption) := do
  let _ ← loadOwnedQuiz owner quizSetId
  let position ← targetPosition quizSetId payload.position
  let i ← ask .nextId
  ask (.flush [.insertQuestion ⟨i, quizSetId, position, payload.body, payload.type,
    payload.timeLimitSeconds, payload.points, payload.explanation⟩])
  insertDrawn i payload.options
  let row ← hydrated i
  ask .commit
  return row

/-- The attributes the payload changes, but for the position. -/
def questionChanges (u : QuestionUpdate) (q : Question) : QuestionPatch where
  body := u.body.filter (· ≠ q.body)
  type := u.type.filter (· ≠ q.type)
  timeLimitSeconds := u.timeLimitSeconds.filter (· ≠ q.timeLimitSeconds)
  points := u.points.filter (· ≠ q.points)
  explanation := u.explanation.filter (some · ≠ q.explanation)

def flushQuestion (q : Question) (changes : QuestionPatch) : Coro Unit :=
  if changes = {} then return () else ask (.flush [.updateQuestion q.quizSetId q.id changes])

/-- `_move_question_to`: its first flush parks the row and writes the other changes. -/
def moveQuestionTo (q : Question) (changes : QuestionPatch) (newPosition : Int) : Coro Unit := do
  flushQuestion q { changes with position := some parkPosition }
  if newPosition < q.position then
    shiftSiblings { quizSetId := q.quizSetId, low := newPosition,
                    high := some (min q.position shiftSentinel), other := some q.id } 1
  else
    shiftSiblings { quizSetId := q.quizSetId, low := q.position + 1,
                    high := some (min (newPosition + 1) shiftSentinel), other := some q.id } (-1)
  flushQuestion q { position := some newPosition }

def replaceOptions (questionId : Id) (rows : List AnswerOption) : Coro Unit := do
  let old ← ask (.optionsOf [questionId])
  ask (.flush [.deleteOptions questionId (old.map (·.id))])
  ask (.flush [.insertOptions rows])

def loadOwnedQuestion (owner questionId : Id) : Coro Question := do
  let some question ← ask (.getQuestion questionId)
    | throw (questionNotFound questionId)
  let some parent ← ask (.getQuiz question.quizSetId)
    | throw (notOwner "question_id" questionId)
  if parent.ownerId ≠ owner then throw (notOwner "question_id" questionId)
  return question

/-- The new position, if the payload gives one. -/
def moves (u : QuestionUpdate) (q : Question) : Option Int := u.position.filter (· ≠ q.position)

/-- The changed attributes are written by the move, by the first statement on the options,
or at the end. -/
def updateQuestion (owner questionId : Id) (payload : QuestionUpdate) :
    Coro (Question × List AnswerOption) := do
  let question ← loadOwnedQuestion owner questionId
  let changes := questionChanges payload question
  match moves payload question with
  | some p => moveQuestionTo question changes p
  | none => pure ()
  let rest : QuestionPatch := if (moves payload question).isSome then {} else changes
  match payload.options with
  | some options =>
    let rows ← drawOptions question.id options
    flushQuestion question rest
    replaceOptions question.id rows
  | none => flushQuestion question rest
  let row ← hydrated question.id
  ask .commit
  return row

/-- What comes behind the move. -/
def finishUpdate (question : Question) (payload : QuestionUpdate) (rest : QuestionPatch) :
    Coro (Question × List AnswerOption) := do
  match payload.options with
  | some options =>
    let rows ← drawOptions question.id options
    flushQuestion question rest
    replaceOptions question.id rows
  | none => flushQuestion question rest
  let row ← hydrated question.id
  ask .commit
  return row

/-- The options go by the cascade; those loaded with the question are deleted. -/
def deleteQuestion (owner questionId : Id) : Coro Unit := do
  let some question ← ask (.getQuestion questionId)
    | throw (questionNotFound questionId)
  let options ← ask (.optionsOf [questionId])
  let some parent ← ask (.getQuiz question.quizSetId)
    | throw (notOwner "question_id" questionId)
  if parent.ownerId ≠ owner then throw (notOwner "question_id" questionId)
  ask (.flush [.deleteOptions question.id (options.map (·.id))])
  ask (.flush [.deleteQuestion question.id])
  shiftSiblings { quizSetId := question.quizSetId, low := question.position + 1,
                  high := some shiftSentinel } (-1)
  ask .commit

/-- `invalidate_prefix`, from a cursor on. -/
def invalidateFrom : Nat → Nat → Nat → Coro Nat
  | 0, _, _ => ask .stall
  | n + 1, cursor, total => do
    let (next, keys) ← ask (.scan cursor)
    if keys ≠ [] then ask (.unlink keys)
    if next = 0 then return total + keys.length
    else invalidateFrom n next (total + keys.length)

def invalidatePrefix (scans : Nat) : Coro Nat := invalidateFrom scans 0 0

def listQuizSets (viewer : Option Id) (f : Filter) : Coro Reply := do
  match ← ask (.getCached (quizListCacheKey viewer f)) with
  | some (body, asOf) => return .listed body asOf
  | none =>
    let (items, asOf) ← ask (.listRows viewer f)
    let body : Body := ⟨items, f.limit, f.offset⟩
    ask (.setCached (quizListCacheKey viewer f) body asOf)
    return .listed body asOf

def endpoint : Job → Coro Reply
  | .list viewer f => listQuizSets viewer f
  | .create owner payload scans => do
    let quiz ← createQuizSet owner payload
    let _ ← invalidatePrefix scans
    return .summary (summary quiz 0)
  | .patch owner quizSetId payload scans => do
    let quiz ← updateQuizSet owner quizSetId payload
    let _ ← invalidatePrefix scans
    let count ← ask (.countQuestions quiz.id)
    return .summary (summary quiz count)
  | .publish owner quizSetId scans => do
    let (quiz, count) ← publishQuizSet owner quizSetId
    let _ ← invalidatePrefix scans
    return .summary (summary quiz count)
  | .addQuestion owner quizSetId payload scans => do
    let (row, options) ← addQuestion owner quizSetId payload
    let _ ← invalidatePrefix scans
    return .question row options
  | .patchQuestion owner questionId payload scans => do
    let (row, options) ← updateQuestion owner questionId payload
    let _ ← invalidatePrefix scans
    return .question row options
  | .deleteQuestion owner questionId scans => do
    deleteQuestion owner questionId
    let _ ← invalidatePrefix scans
    return .deleted
  | .hide quizSetId => do
    let version ← hide quizSetId
    return .hidden version

def authoring (G : Trigram) : Machine World Op Op.Res Exn Reply Job Decision EnvAction where
  exec := exec G
  env := env
  body job := inSession (endpoint job)

abbrev SysState := State World Op Op.Res Exn Reply Job

abbrev SysLabel := Label Decision EnvAction

def initial : SysState where
  shared :=
    { db := ⟨[], [], [], [], []⟩, tx := fun _ => [], lock := fun _ => none, cache := []
      sweep := fun _ => .idle, now := 0, seen := fun _ => none, loaded := fun _ => ([], [])
      first := fun _ => {}, log := [] }
  procs := []

namespace Demo

/-- A search that finds its very text. -/
def search : Trigram where
  similarTo title q := title = q
  similarity title q := if title = q then 1 else 0

abbrev machine := authoring search

def request (job : Job) : SysLabel := .env (.request job)

/-- Calls of one program, with what the scheduler chooses for each. -/
def calls (pid : Nat) (values : List Nat) : List SysLabel := values.map fun v => .op pid { value := v }

def question : QuestionCreate where
  position := none
  body := "2 + 2?"
  type := .singleChoice
  timeLimitSeconds := 20
  points := 1000
  explanation := none
  options := [⟨1, "4", true⟩, ⟨2, "5", false⟩]

end Demo

end LiveQuiz.Authoring
