import LiveQuiz.Service.Scoring

/-! # Events on the wire and rows in ClickHouse

An envelope as the worker parses it, the conversions of its payload, and the rows
of the two tables. A payload column is kept as the value that is rendered.
-/

namespace LiveQuiz.Stream

set_option autoImplicit false

/-- What `json.loads` makes of a value. `real` is a finite float; a list or dict,
which no handler looks into, is kept as its compact text. -/
inductive Json where
  | null
  | bool (b : Bool)
  | int (n : Int)
  | real (x : ℚ)
  | infinity (negative : Bool)
  | nan
  | str (s : String)
  | nested (text : String)
  deriving DecidableEq, Repr

/-- A dict, as the list of its items. -/
abbrev Payload := List (String × Json)

def Payload.get (p : Payload) (key : String) : Json := (p.lookup key).getD .null

/-- `datetime`: the wall time in microseconds since year 1, and the UTC offset of
an aware one. -/
structure DateTime where
  wall : Int
  utcOffset : Option Int
  deriving DecidableEq, Repr

structure Envelope where
  eventId : Int
  eventType : String
  aggregateType : String
  aggregateId : Int
  occurredAt : DateTime
  producer : String
  schemaVersion : Int
  payload : Payload
  deriving DecidableEq, Repr

def currentSchemaVersion : Int := 1

/-- What a message handler raises. `parse` is anything but the ValidationError and
ValueError that the worker catches around `parse_envelope`. -/
inductive Exn where
  | overflow
  | valueError
  | fault
  | parse
  deriving DecidableEq, Repr

abbrev Bytes := List UInt8

inductive ParseError where
  | invalid
  | uncaught
  deriving DecidableEq, Repr

/-- What the worker calls and this repository does not define: the pydantic model's
parser, Python's `int` on a string, and ClickHouse's `quantile`. -/
structure Outside where
  parseEnvelope : Bytes → Except ParseError Envelope
  intOfStr : String → Option Int
  quantile : ℚ → List Int → ℚ

section

variable (L : Outside)

/-- `int(value)`: a value with no integer reading is a TypeError or a ValueError. -/
def pyInt : Json → Except Exn Int
  | .bool b => .ok (if b then 1 else 0)
  | .int n => .ok n
  | .real x => .ok (if 0 ≤ x then ⌊x⌋ else ⌈x⌉)
  | .infinity _ => .error .overflow
  | .str s => ((L.intOfStr s).map Except.ok).getD (.error .valueError)
  | _ => .error .valueError

/-- `except (TypeError, ValueError): return default`. -/
def orDefault {α : Type} (default : α) : Except Exn α → Except Exn α
  | .error .valueError => .ok default
  | r => r

def optInt : Json → Except Exn (Option Int)
  | .null => .ok none
  | .str s => if s = "" then .ok none else orDefault none (some <$> pyInt L (.str s))
  | v => orDefault none (some <$> pyInt L v)

end

/-- `bool(value)`. -/
def Json.truthy : Json → Bool
  | .null => false
  | .bool b => b
  | .int n => n ≠ 0
  | .real x => x ≠ 0
  | .infinity _ => true
  | .nan => true
  | .str s => s ≠ ""
  | .nested text => text ≠ "[]" ∧ text ≠ "\x7b\x7d"

/-- The microseconds of the years 1 to 9999. -/
def dateTimeEnd : Int := 3652059 * 86400000000

def occurredAtAware (env : Envelope) : Except Exn Int :=
  match env.occurredAt.utcOffset with
  | none => .ok env.occurredAt.wall
  | some offset =>
    let utc := env.occurredAt.wall - offset
    if 0 ≤ utc ∧ utc < dateTimeEnd then .ok utc else .error .overflow

structure EventsRawRow where
  eventId : Int
  eventType : String
  aggregateType : String
  aggregateId : Int
  roomId : Option Int
  matchId : Option Int
  participantId : Option Int
  questionId : Option Int
  occurredAt : Int
  payload : Payload
  deriving DecidableEq, Repr

structure AnswerEventsRow where
  eventId : Int
  matchId : Int
  roomId : Int
  participantId : Int
  questionId : Int
  isCorrect : Nat
  scoreAwarded : Int
  responseTimeMs : Int
  occurredAt : Int
  deriving DecidableEq, Repr

inductive Row where
  | raw (row : EventsRawRow)
  | answer (row : AnswerEventsRow)
  deriving DecidableEq, Repr

def eventsRawTable : String := "livequiz.events_raw"

def eventsRawColumns : List String :=
  ["event_id", "event_type", "aggregate_type", "aggregate_id", "room_id", "match_id",
    "participant_id", "question_id", "occurred_at", "payload"]

def answerEventsTable : String := "livequiz.answer_events"

def answerEventsColumns : List String :=
  ["event_id", "match_id", "room_id", "participant_id", "question_id", "is_correct",
    "score_awarded", "response_time_ms", "occurred_at"]

def envelopeToRawRow (L : Outside) (env : Envelope) : Except Exn EventsRawRow := do
  let roomId ← optInt L (env.payload.get "room_id")
  let matchId ← optInt L (env.payload.get "match_id")
  let participantId ← optInt L (env.payload.get "participant_id")
  let questionId ← optInt L (env.payload.get "question_id")
  let occurredAt ← occurredAtAware env
  return { eventId := env.eventId, eventType := env.eventType, aggregateType := env.aggregateType
           aggregateId := env.aggregateId, roomId := roomId, matchId := matchId
           participantId := participantId, questionId := questionId, occurredAt := occurredAt
           payload := env.payload }

end LiveQuiz.Stream
