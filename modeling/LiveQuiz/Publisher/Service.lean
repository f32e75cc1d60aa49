import LiveQuiz.Publisher.World

/-! # The publisher loop

`_process_batch` and `_run`. One program is one round of the loop; it ends with the jump
to the next round or with the end of the process. The metrics are left out.
-/

namespace LiveQuiz.Publisher

open Coroutine

set_option autoImplicit false

abbrev Coro (α : Type) := Prog Op Op.Res Exn α

def ask (o : Op) : Coro o.Res := .perform o

def pollBatch : Nat := 100

def idleSleepS : ℚ := 1 / 2

def maxPublishAttempts : Nat := 10

def producerName : String := "livequiz-outbox-publisher"

def schemaVersion : Nat := 1

def topicRoom : String := "livequiz.events.room"

def topicMatch : String := "livequiz.events.match"

def topicAnswer : String := "livequiz.events.answer"

def topicModeration : String := "livequiz.events.moderation"

def topicDeadLetter : String := "livequiz.events.dead_letter"

def eventToTopic : List (String × String) :=
  [("RoomCreated", topicRoom), ("PlayerJoined", topicRoom), ("PlayerLeft", topicRoom),
    ("MatchStarted", topicMatch), ("QuestionStarted", topicMatch), ("QuestionClosed", topicMatch),
    ("MatchFinished", topicMatch), ("AnswerSubmitted", topicAnswer),
    ("ContentReported", topicModeration), ("ContentFlagged", topicModeration),
    ("ModerationDecisionMade", topicModeration)]

def topicFor (eventType : String) : String := (eventToTopic.lookup eventType).getD topicDeadLetter

def buildEnvelope (row : OutboxRow) : Envelope where
  eventId := row.id
  eventType := row.eventType
  aggregateType := row.aggregateType
  aggregateId := row.aggregateId
  occurredAt := row.occurredAt
  producer := producerName
  schemaVersion := schemaVersion
  payload := row.payload

/-- `try: send_and_wait ... except KafkaError`: whether the broker has acknowledged. -/
def sent (topic : String) (envelope : Envelope) : Coro Bool :=
  Prog.handle (do
      ask (.sendAndWait topic envelope)
      return true) fun
    | .kafka => return false
    | e => throw e

/-- One row of the batch: whether it counts as published. -/
def processRow (row : OutboxRow) : Coro Bool := do
  let envelope := buildEnvelope row
  if maxPublishAttempts ≤ row.publishAttempts then
    if ← sent topicDeadLetter envelope then
      ask (.popBackoff row.id)
      return true
    else return false
  else if ← sent (topicFor envelope.eventType) envelope then
    ask (.popBackoff row.id)
    return true
  else
    ask (.incrementAttempts row.id)
    ask (.doubleBackoff row.id)
    return false

/-- The rows in turn, with the ids published so far. -/
def processRows : List OutboxRow → List Id → Coro (List Id)
  | [], publishedIds => return publishedIds
  | row :: rows, publishedIds => do
    if ← processRow row then processRows rows (publishedIds ++ [row.id])
    else processRows rows publishedIds

/-- `async with conn.transaction()`. -/
def inTransaction {α : Type} (p : Coro α) : Coro α := do
  ask .begin'
  let a ← p.handle fun e => do
    ask .rollback
    throw e
  ask .commit
  return a

def processBatch : Coro Nat :=
  inTransaction do
    let rows ← ask (.selectBatch pollBatch)
    let publishedIds ← processRows rows []
    if publishedIds ≠ [] then
      ask (.markPublished publishedIds)
    return publishedIds.length

/-- `except Exception`. -/
def caught {α : Type} (p : Coro α) : Coro (Option α) :=
  Prog.handle (some <$> p) fun
    | .cancelled => throw .cancelled
    | _ => return none

/-- The body of the loop. -/
def pollOnce : Coro Unit := do
  let some published ← caught processBatch | ask (.sleep (backoffBaseS * 4))
  if published = 0 then
    let nextSleep := match ← ask .backoffs with
      | none => idleSleepS
      | some b => max idleSleepS b
    ask (.waitStop nextSleep)

/-- One round of the loop. What the body does not catch leaves it. -/
def round : Coro Unit := do
  if ← ask .stopRequested then ask .exit
  else
    Prog.handle (do
      pollOnce
      ask .loop) fun _ => ask .exit

def publisher : Machine World Op Op.Res Exn Unit Nat Decision EnvAction where
  exec := exec
  env := env
  body := fun _ => round

abbrev PublisherState := State World Op Op.Res Exn Unit Nat

abbrev PublisherLabel := Label Decision EnvAction

/-- An empty table and no process. -/
def blank : PublisherState where
  shared :=
    { table := [], lock := fun _ => none, tx := fun _ => none, now := 0, process := fun _ => none
      dead := [], stopping := fun _ => false, backoff := fun _ _ => none, log := [] }
  procs := []

end LiveQuiz.Publisher
