import LiveQuiz.Lib.JsonRoundTrip
import LiveQuiz.Publisher.Service
import LiveQuiz.Stream.Types

/-! # The bytes between publisher and worker

The envelope as the publisher writes it, `parse_envelope` with the model's validation, and
the payloads that the match service registers.
-/

namespace LiveQuiz.Stream

set_option autoImplicit false

/-- 1970-01-01 in microseconds since year 1. -/
def unixEpoch : Int := 62135596800000000

def daysBeforeMonth : List Nat := [0, 0, 31, 59, 90, 120, 151, 181, 212, 243, 273, 304, 334]

def daysInMonth : List Nat := [0, 31, 28, 31, 30, 31, 30, 31, 31, 30, 31, 30, 31]

/-- `datetime._ord2ymd` of the day number, which begins with 0 here. -/
def ordToYmd (day : Nat) : Nat × Nat × Nat :=
  let n400 := day / 146097
  let n100 := day % 146097 / 36524
  let n4 := day % 146097 % 36524 / 1461
  let n1 := day % 146097 % 36524 % 1461 / 365
  let n := day % 146097 % 36524 % 1461 % 365
  let year := n400 * 400 + n100 * 100 + n4 * 4 + n1 + 1
  if n1 = 4 ∨ n100 = 4 then (year - 1, 12, 31)
  else
    let leap := if n1 = 3 ∧ (n4 ≠ 24 ∨ n100 = 3) then 1 else 0
    let month := (n + 50) / 32
    let preceding := daysBeforeMonth.getD month 0 + if 2 < month then leap else 0
    if n < preceding then
      let before := preceding - (daysInMonth.getD (month - 1) 0 + if month - 1 = 2 then leap else 0)
      (year, month - 1, n - before + 1)
    else (year, month, n - preceding + 1)

/-- `'%0*d'`. -/
def pad (width n : Nat) : String :=
  "".pushn '0' (width - (toString n).length) ++ toString n

/-- `_iso_z`, and `_iso` of the match service: UTC with the offset written `Z`, and with the
microseconds if there are any. -/
def isoZ (t : Micros) : String :=
  let u := (t + unixEpoch).toNat
  let (year, month, day) := ordToYmd (u / 86400000000)
  let s := u % 86400000000 / 1000000
  let micros := u % 1000000
  pad 4 year ++ "-" ++ pad 2 month ++ "-" ++ pad 2 day ++ "T" ++ pad 2 (s / 3600) ++ ":" ++
    pad 2 (s / 60 % 60) ++ ":" ++ pad 2 (s % 60) ++
    (if micros = 0 then "" else "." ++ pad 6 micros) ++ "Z"

/-- `str(id)`. -/
def idText (i : Id) : Json.Value := .str (toString i)

/-- The dict that `build_envelope` returns, with the payload it has decoded. -/
def envelopeDict (e : Publisher.Envelope) (payload : Json.Value) : Json.Value :=
  .obj [("event_id", idText e.eventId), ("event_type", .str e.eventType),
    ("aggregate_type", .str e.aggregateType), ("aggregate_id", idText e.aggregateId),
    ("occurred_at", .str (isoZ e.occurredAt)), ("producer", .str e.producer),
    ("schema_version", .int e.schemaVersion), ("payload", payload)]

/-- `.encode("utf-8")`. -/
def encode (s : String) : Bytes := s.toUTF8.data.toList

def decode (raw : Bytes) : Option String := String.fromUTF8? ⟨raw.toArray⟩

/-- `envelope_bytes(build_envelope(row))`; a payload that is no JSON text raises. -/
def envelopeBytes (float : String → Json.Value) (e : Publisher.Envelope) : Option Bytes :=
  (Json.loads float e.payload).map fun payload => encode (Json.dumps (envelopeDict e payload))

/-- What parsing calls and this repository does not define: Python's `float` and `int` on a
text, the value of a float, and pydantic's `int` and `datetime`. -/
structure Reader where
  float : String → Json.Value
  rational : String → ℚ
  intOfStr : String → Option Int
  laxInt : Json.Value → Option Int
  datetime : Json.Value → Option DateTime

namespace Reader

variable (R : Reader)

def value : Json.Value → Json
  | .null => .null
  | .bool b => .bool b
  | .int n => .int n
  | .real token => .real (R.rational token)
  | .nan => .nan
  | .infinity negative => .infinity negative
  | .str s => .str s
  | .arr xs => .nested (Json.dumps (.arr xs))
  | .obj items => .nested (Json.dumps (.obj items))

/-- `_coerce_int`. Its ValueErrors become a ValidationError, a TypeError or an
OverflowError does not. -/
def coerceInt : Json.Value → Except ParseError Int
  | .bool b => .ok (if b then 1 else 0)
  | .int n => .ok n
  | .real token =>
    let x := R.rational token
    .ok (if 0 ≤ x then ⌊x⌋ else ⌈x⌉)
  | .str s => (R.intOfStr s).elim (.error .invalid) .ok
  | .nan => .error .invalid
  | .null | .infinity _ | .arr _ | .obj _ => .error .uncaught

def readStr : Json.Value → Except ParseError String
  | .str s => .ok s
  | _ => .error .invalid

def readInt (v : Json.Value) : Except ParseError Int := (R.laxInt v).elim (.error .invalid) .ok

def readDatetime (v : Json.Value) : Except ParseError DateTime :=
  (R.datetime v).elim (.error .invalid) .ok

def readPayload : Json.Value → Except ParseError Payload
  | .obj items => .ok (items.map fun i => (i.1, R.value i.2))
  | _ => .error .invalid

/-- A required field. -/
def field {α : Type} (items : List (String × Json.Value)) (key : String)
    (read : Json.Value → Except ParseError α) : Except ParseError α :=
  (items.lookup key).elim (.error .invalid) read

def fieldNames : List String :=
  ["event_id", "event_type", "aggregate_type", "aggregate_id", "occurred_at", "producer",
    "schema_version", "payload"]

def uncaught {α : Type} : Except ParseError α → Bool
  | .error .uncaught => true
  | _ => false

/-- `Envelope.model_validate`. What a validator raises uncaught ends the validation; the
other errors are gathered. -/
def modelValidate : Json.Value → Except ParseError Envelope
  | .obj items => do
    let eventId := field items "event_id" R.coerceInt
    let aggregateId := field items "aggregate_id" R.coerceInt
    if uncaught eventId ∨ uncaught aggregateId then throw .uncaught
    let envelope : Envelope :=
      { eventId := ← eventId
        eventType := ← field items "event_type" readStr
        aggregateType := ← field items "aggregate_type" readStr
        aggregateId := ← aggregateId
        occurredAt := ← field items "occurred_at" R.readDatetime
        producer := ← field items "producer" readStr
        schemaVersion := ← field items "schema_version" R.readInt
        payload := ← (items.lookup "payload").elim (.ok []) R.readPayload }
    if items.all (·.1 ∈ fieldNames) then return envelope else throw .invalid
  | _ => .error .invalid

def parseEnvelope (raw : Bytes) : Except ParseError Envelope :=
  ((decode raw).bind (Json.loads R.float)).elim (.error .invalid) R.modelValidate

/-- The worker's environment with this parser. -/
def outside (quantile : ℚ → List Int → ℚ) : Outside where
  parseEnvelope := R.parseEnvelope
  intOfStr := R.intOfStr
  quantile := quantile

/-- A float's text reads as the float, a decimal text as its number, an int is an int. -/
structure Lawful : Prop where
  float : ∀ token, (R.float token).Plain R.float
  int : ∀ n : Nat, R.intOfStr (toString n) = some (n : Int)
  laxInt : ∀ n, R.laxInt (.int n) = some n

end Reader

def scorePayload (s : FinalScore) : Json.Value :=
  .obj [("participant_id", idText s.participantId), ("total_score", .int s.totalScore),
    ("correct_count", .int s.correctCount),
    ("average_response_ms", s.averageResponseMs.elim .null .int), ("rank", .int s.rank)]

/-- The `payload` of each `register_event` call. -/
def eventDict : EventPayload → List (String × Json.Value)
  | .matchStarted matchId roomId code quizSetId quizSetVersion questionCount startedAt =>
    [("match_id", idText matchId), ("room_id", idText roomId), ("code", .str code),
      ("quiz_set_id", idText quizSetId), ("quiz_set_version", .int quizSetVersion),
      ("question_count", .int questionCount), ("started_at", .str (isoZ startedAt))]
  | .questionStarted matchId matchQuestionId questionId position timeLimitSeconds startedAt
      deadlineAt =>
    [("match_id", idText matchId), ("match_question_id", idText matchQuestionId),
      ("question_id", idText questionId), ("position", .int position),
      ("time_limit_seconds", .int timeLimitSeconds), ("started_at", .str (isoZ startedAt)),
      ("deadline_at", .str (isoZ deadlineAt))]
  | .questionClosed matchId matchQuestionId questionId position closedAt correctOptionIds =>
    [("match_id", idText matchId), ("match_question_id", idText matchQuestionId),
      ("question_id", idText questionId), ("position", .int position),
      ("closed_at", .str (isoZ closedAt)), ("correct_option_ids", .arr (correctOptionIds.map idText))]
  | .answerSubmitted submissionId matchId roomId matchQuestionId questionId participantId isCorrect
      scoreAwarded responseTimeMs submittedAt =>
    [("submission_id", idText submissionId), ("match_id", idText matchId),
      ("room_id", idText roomId), ("match_question_id", idText matchQuestionId),
      ("question_id", idText questionId), ("participant_id", idText participantId),
      ("is_correct", .bool isCorrect), ("score_awarded", .int scoreAwarded),
      ("response_time_ms", .int responseTimeMs), ("submitted_at", .str (isoZ submittedAt))]
  | .matchFinished matchId roomId endedAt finalScores =>
    [("match_id", idText matchId), ("room_id", idText roomId), ("ended_at", .str (isoZ endedAt)),
      ("final_scores", .arr (finalScores.map scorePayload))]

end LiveQuiz.Stream
