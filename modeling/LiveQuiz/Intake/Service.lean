import LiveQuiz.Intake.World

/-! # Filing reports

`create_report`, and `publish_quiz_set` with the automatic reports in its transaction.
-/

namespace LiveQuiz.Intake

open Coroutine

set_option autoImplicit false

abbrev Coro := Prog Op Op.Res Exn

abbrev ask (o : Op) : Coro o.Res := Prog.perform o

/-- The request's session: leaving by an exception rolls back. -/
def inSession {α : Type} (body : Coro α) : Coro α := body.session .rollback

/-- `reason[:120]`. -/
def truncated (reason : String) : String := String.ofList (reason.toList.take 120)

/-- `str(i) if i else None`. -/
def rendered (i : Option Id) : Option Id := i.filter (· ≠ 0)

def registerEvent (aggregateType : String) (aggregateId : Id) (payload : Payload) : Coro Unit := do
  let id ← ask .nextId
  let occurredAt ← ask .utcnow
  ask (.flush (.event ⟨id, aggregateType, aggregateId, payload, occurredAt⟩))

def findingContent (roomId targetUserId targetQuizSetId : Option Id) (source : String) (f : Flag) : Content where
  reporterUserId := none
  roomId := roomId
  targetUserId := targetUserId
  targetQuizSetId := targetQuizSetId
  reason := truncated f.reason
  details := some (.finding f.context f.matched source f.details)

def flaggedPayload (reportId : Id) (c : Content) (source : String) (f : Flag) : Payload :=
  .contentFlagged reportId f.reason f.context f.matched source (rendered c.targetUserId)
    (rendered c.targetQuizSetId) (rendered c.roomId)

def persistFlags (roomId targetUserId targetQuizSetId : Option Id) (source : String) : List Flag → Coro Unit
  | [] => return
  | f :: flags => do
    let id ← ask .nextId
    let content := findingContent roomId targetUserId targetQuizSetId source f
    ask (.flush (.report ⟨id, content, .pending⟩))
    registerEvent "moderation" id (flaggedPayload id content source f)
    persistFlags roomId targetUserId targetQuizSetId source flags

section

variable (T : Text) (policy : Policy)

def autoFlagOnPublish (quiz : Authoring.Quiz) (questions : List Question) (options : List AnswerOption) :
    Coro Unit :=
  persistFlags none none (some quiz.id) "quiz.publish"
    (flatFlags T policy (fieldsToScan quiz questions options))

def publishQuizSet (owner quizSetId : Id) : Coro Nat := do
  let some quiz ← ask (.getQuiz quizSetId)
    | throw (Authoring.quizNotFound quizSetId)
  let questions ← ask (.questionsOf quizSetId)
  let options ← ask (.optionsOf (questions.map (·.id)))
  if quiz.ownerId ≠ owner then throw (Authoring.notOwner "quiz_set_id" quizSetId)
  autoFlagOnPublish T policy quiz questions options
  let issues := Authoring.validatePublish questions options
  if issues ≠ [] then
    raise "VALIDATION_ERROR" 422 "quiz set failed publish validation" (issues.map fun i => ("issues", i.code))
  let newVersion := quiz.version + 1
  let occurredAt ← ask .utcnow
  let eventId ← ask .nextId
  let published := if quiz.isPublished then none else some true
  ask (.flush (.updateQuiz quiz.id { isPublished := published, version := some newVersion }))
  ask (.flush (.event ⟨eventId, "quiz_set", quiz.id, .quizPublished quiz.id newVersion owner quiz.title, occurredAt⟩))
  ask .commit
  return newVersion

end

def reportCapacity : Nat := 20

/-- How many targets a report names. -/
def ReportCreate.setCount (p : ReportCreate) : Nat :=
  ([p.roomId, p.targetUserId, p.targetQuizSetId].filter (·.isSome)).length

def reportContent (reporter : Option Id) (p : ReportCreate) : Content where
  reporterUserId := reporter
  roomId := p.roomId
  targetUserId := p.targetUserId
  targetQuizSetId := p.targetQuizSetId
  reason := truncated p.reason
  details := p.details.map .text

def reportedPayload (reportId : Id) (reporter : Option Id) (p : ReportCreate) : Payload :=
  .contentReported reportId (rendered reporter) (rendered p.roomId) (rendered p.targetUserId)
    (rendered p.targetQuizSetId) p.reason

/-- The endpoint and the service function. -/
def createReport (reporter : Option Id) (host : String) (p : ReportCreate) : Coro Id := do
  let actor := (reporter.map toString).getD host
  let (allowed, retryMs) ← ask (.rateAcquire ("rate:report:" ++ actor) reportCapacity 1)
  if !allowed then
    raise "RATE_LIMITED" 429 "report rate exceeded" [("retry_after_ms", toString retryMs)]
  if p.setCount ≠ 1 then
    raise "VALIDATION_ERROR" 422 "exactly one target field is required" [("got", toString p.setCount)]
  let id ← ask .nextId
  ask (.flush (.report ⟨id, reportContent reporter p, .pending⟩))
  registerEvent "moderation" id (reportedPayload id reporter p)
  ask .commit
  return id

def jobBody (T : Text) (policy : Policy) : Job → Coro Nat
  | .createReport reporter host p => inSession (createReport reporter host p)
  | .publish owner i => inSession (publishQuizSet T policy owner i)

def intake (T : Text) (policy : Policy) : Machine World Op Op.Res Exn Nat Job Decision EnvAction where
  exec := exec
  env := env
  body := jobBody T policy

abbrev SysState := State World Op Op.Res Exn Nat Job

abbrev SysLabel := Label Decision EnvAction

def initial : SysState where
  shared :=
    { db := { users := [], rooms := [], quiz := ⟨[], [], [], [], []⟩, reports := [], outbox := [] }
      tx := fun _ => [], lock := fun _ => none, now := 0
      seen := fun _ => none, loaded := fun _ => ([], []), log := [] }
  procs := []

end LiveQuiz.Intake
