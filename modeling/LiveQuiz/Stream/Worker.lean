import LiveQuiz.Stream.World

/-! # The consumer loop

`_run` with its message handlers. One program is one round of the loop; it ends with
the jump to the next round or with the end of the process.
-/

namespace LiveQuiz.Stream

open Coroutine

set_option autoImplicit false

abbrev Coro (α : Type) := Prog Op Op.Res Exn α

def ask (o : Op) : Coro o.Res := .perform o

/-- A computation of the worker's own, with what it raises. -/
def python {α : Type} : Except Exn α → Coro α := .done

def doInsert (batch : Batch Row) : Coro Unit := do
  if batch.rows = [] then return
  ask (.insert batch)

def doInserts : List (Batch Row) → Coro Unit
  | [] => return
  | b :: bs => do
    doInsert b
    doInserts bs

def insertMany (table : String) (rows : List Row) (columns : List String) : Coro Unit := do
  doInserts (← ask (.insertMany table rows columns))

def maybeFlush : Coro Unit := do
  doInserts (← ask .maybeFlush)

def flushAll : Coro Unit := do
  doInserts (← ask .flushAll)

/-- `handlers/room.py` and `handlers/moderation.py`. -/
def handleRoom (L : Outside) (env : Envelope) : Coro Unit := do
  let row ← python (envelopeToRawRow L env)
  insertMany eventsRawTable [.raw row] eventsRawColumns

/-- The fact row of an answer with its four ids. -/
def answerEventsRow (L : Outside) (env : Envelope)
    (matchId roomId participantId questionId : Int) : Except Exn AnswerEventsRow := do
  let scoreAwarded ← orDefault 0 (pyInt L ((env.payload.lookup "score_awarded").getD (.int 0)))
  let responseTimeMs ←
    orDefault 0 (max 0 <$> pyInt L ((env.payload.lookup "response_time_ms").getD (.int 0)))
  let occurredAt ← occurredAtAware env
  return { eventId := env.eventId, matchId := matchId, roomId := roomId
           participantId := participantId, questionId := questionId
           isCorrect := if (env.payload.get "is_correct").truthy then 1 else 0
           scoreAwarded := scoreAwarded, responseTimeMs := responseTimeMs, occurredAt := occurredAt }

def handleAnswer (L : Outside) (env : Envelope) : Coro Unit := do
  let matchId ← python (optInt L (env.payload.get "match_id"))
  let roomId ← python (optInt L (env.payload.get "room_id"))
  let participantId ← python (optInt L (env.payload.get "participant_id"))
  let questionId ← python (optInt L (env.payload.get "question_id"))
  let raw ← python (envelopeToRawRow L env)
  insertMany eventsRawTable [.raw raw] eventsRawColumns
  let (some m, some r, some p, some q) := (matchId, roomId, participantId, questionId) | return
  let row ← python (answerEventsRow L env m r p q)
  insertMany answerEventsTable [.answer row] answerEventsColumns

/-- `int(x)` of a finite float. -/
def truncate (x : ℚ) : Int := if 0 ≤ x then ⌊x⌋ else ⌈x⌉

/-- `round(100.0 * correct / total, 1) if total else 0.0`. -/
def percent (correct total : Int) : ℚ :=
  if total = 0 then 0 else (roundHalfEven (1000 * correct / total) : ℚ) / 10

def AccuracyRow.accuracy (r : AccuracyRow) : QuestionAccuracy where
  questionId := r.questionId
  totalAnswers := r.total
  correctAnswers := r.correct
  accuracyPercent := percent r.correct r.total
  avgResponseMs := truncate r.avgMs
  p50ResponseMs := truncate r.p50Ms
  p95ResponseMs := truncate r.p95Ms

def TimesRow.times (r : TimesRow) : ResponseTimes :=
  ⟨truncate r.p50, truncate r.p95, truncate r.p99, truncate r.avg⟩

/-- `int(nan)` is a ValueError. -/
def computeSnapshot (matchId : Int) : Coro Snapshot := do
  flushAll
  let rows ← ask (.queryAccuracy matchId)
  let accuracy := rows.map AccuracyRow.accuracy
  let some times ← ask (.queryTimes matchId) | throw .valueError
  return { matchId := matchId
           questionAccuracy := accuracy
           responseTimes := times.times
           mostMissed := (accuracy.insertionSort fun a b => a.accuracyPercent ≤ b.accuracyPercent).take 5
           totalAnswers := (accuracy.map (·.totalAnswers)).sum }

/-- `try: p except Exception: return None`. -/
def caught {α : Type} (p : Coro α) : Coro (Option α) :=
  tryCatch (some <$> p) fun _ => return none

def handleMatch (L : Outside) (env : Envelope) : Coro Unit := do
  let row ← python (envelopeToRawRow L env)
  insertMany eventsRawTable [.raw row] eventsRawColumns
  if env.eventType ≠ "MatchFinished" then return
  let found ← python (optInt L (env.payload.get "match_id"))
  let matchId := if found.getD 0 = 0 then env.aggregateId else found.getD 0
  let some snapshot ← caught (computeSnapshot matchId) | return
  let _ ← caught (ask (.setCache matchId snapshot))

def roomEventTypes : List String := ["RoomCreated", "PlayerJoined", "PlayerLeft"]

def matchEventTypes : List String :=
  ["MatchStarted", "QuestionStarted", "QuestionClosed", "MatchFinished"]

def answerEventTypes : List String := ["AnswerSubmitted"]

def moderationEventTypes : List String :=
  ["ContentReported", "ContentFlagged", "ModerationDecisionMade"]

def dispatch (L : Outside) (env : Envelope) : Coro Unit :=
  if env.eventType ∈ roomEventTypes then handleRoom L env
  else if env.eventType ∈ matchEventTypes then handleMatch L env
  else if env.eventType ∈ answerEventTypes then handleAnswer L env
  else if env.eventType ∈ moderationEventTypes then handleRoom L env
  else handleRoom L env

/-- Whether the offset is safe to commit. -/
def handleMessage (L : Outside) (msg : ConsumerRecord) : Coro Bool := do
  match L.parseEnvelope msg.value with
  | .error .invalid => return true
  | .error .uncaught => throw .parse
  | .ok env =>
    if env.schemaVersion ≠ currentSchemaVersion then return true
    let some firstTime ← caught (ask (.claim env.eventId)) | return false
    if !firstTime then return true
    return (← caught (dispatch L env)).isSome

/-- `safe_offsets[tp] = offset`. -/
def setOffset (tp : TopicPartition) (offset : Nat) (safe : List (TopicPartition × Nat)) :
    List (TopicPartition × Nat) :=
  if safe.any (·.1 = tp) then safe.map fun s => if s.1 = tp then (tp, offset) else s
  else safe ++ [(tp, offset)]

/-- The messages of one partition up to the first that fails. -/
def handlePartition (L : Outside) (tp : TopicPartition) :
    List ConsumerRecord → List (TopicPartition × Nat) → Coro (List (TopicPartition × Nat) × Bool)
  | [], safe => return (safe, false)
  | msg :: msgs, safe => do
    if ← handleMessage L msg then handlePartition L tp msgs (setOffset tp (msg.offset + 1) safe)
    else return (safe, true)

/-- A failure ends the batch for all partitions. -/
def handleRecords (L : Outside) : List (TopicPartition × List ConsumerRecord) →
    List (TopicPartition × Nat) → Coro (List (TopicPartition × Nat) × Bool)
  | [], safe => return (safe, false)
  | (tp, msgs) :: records, safe => do
    let (safe, failed) ← handlePartition L tp msgs safe
    if failed then return (safe, true)
    handleRecords L records safe

def pollCycle (L : Outside) : Coro Unit := do
  let some records ← caught (ask .getmany) | ask .sleep
  if records = [] then maybeFlush
  else
    let (safe, failed) ← handleRecords L records []
    let some _ ← caught flushAll | ask .sleep
    if safe ≠ [] then
      let _ ← caught (ask (.commit safe))
    if failed then
      ask .sleep

/-- The `finally` block. -/
def shutdown : Coro Unit := do
  let _ ← caught flushAll
  ask .exit

/-- One round of the loop. An exception that the body does not catch leaves it. -/
def round (L : Outside) : Coro Unit := do
  if ← ask .stopRequested then shutdown
  else
    match ← caught (pollCycle L) with
    | some _ => ask .loop
    | none => shutdown

def worker (L : Outside) : Machine World Op Op.Res Exn Unit Unit Decision EnvAction where
  exec := exec L
  env := env
  body := fun _ => round L

abbrev WorkerState := State World Op Op.Res Exn Unit Unit

abbrev WorkerLabel := Label Decision EnvAction

/-- Empty topics and no process. -/
def blank : WorkerState where
  shared :=
    { log := [], committed := fun _ => 0, seen := [], tables := [], cache := fun _ => none, now := 0
      process := none, stopping := false, position := fun _ => 0, client := {}, inserted := []
      claimFailed := false }
  procs := []

end LiveQuiz.Stream
