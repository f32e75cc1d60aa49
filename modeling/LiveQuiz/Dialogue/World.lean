import LiveQuiz.Model.System
import LiveQuiz.Model.Faults
import LiveQuiz.Service.AnswerAttempts
import LiveQuiz.Service.RateLimit
import LiveQuiz.Lib.Json

/-! # Open sockets over the match service

The receive loops of any number of WebSocket connections on all replicas. The match
service is a machine of its own, whose state is a part of the world: its programs take
their steps between those of the loops, and an `answer.submit` starts one of them and
waits for its result. One program is one round of a loop.
-/

namespace LiveQuiz.Dialogue

open Coroutine
open LiveQuiz.Attempts (Counters AnswerSubmitPayload)
open LiveQuiz.RateLimit (Limit)

set_option autoImplicit false

/-- `client_sent_at` is checked and not kept. -/
inductive ClientMessage where
  | heartbeat (messageId lastSeenEventId : Option String)
  | answerSubmit (messageId : String) (payload : AnswerSubmitPayload)
  | hostQuestionNext (messageId : Option String) (expectedCurrentPosition : Int)
  | hostMatchPause (messageId reason : Option String)
  deriving DecidableEq, Repr

/-- `extra="forbid"`. -/
def onlyKeys (items : List (String × Json.Value)) (keys : List String) : Bool := items.all (·.1 ∈ keys)

def readStr : Option Json.Value → Option String
  | some (.str s) => some s
  | _ => none

/-- A field of type `str | None` with the default `None`. -/
def readOptStr : Option Json.Value → Option (Option String)
  | none | some .null => some none
  | some (.str s) => some (some s)
  | _ => none

def readStrings : Option Json.Value → Option (List String)
  | none => some []
  | some (.arr xs) => xs.mapM fun x => readStr (some x)
  | _ => none

def heartbeatPayload : Option Json.Value → Option (Option String)
  | none => some none
  | some (.obj items) => do
    let lastSeen ← readOptStr (items.lookup "last_seen_event_id")
    if onlyKeys items ["last_seen_event_id"] then return lastSeen else none
  | _ => none

def answerSubmitPayload : Option Json.Value → Option AnswerSubmitPayload
  | some (.obj items) => do
    let matchId ← readStr (items.lookup "match_id")
    let matchQuestionId ← readStr (items.lookup "match_question_id")
    let selectedOptionIds ← readStrings (items.lookup "selected_option_ids")
    let _ ← readOptStr (items.lookup "client_sent_at")
    if onlyKeys items ["match_id", "match_question_id", "selected_option_ids", "client_sent_at"] then
      return ⟨matchId, matchQuestionId, selectedOptionIds⟩
    else none
  | _ => none

def hostMatchPausePayload : Option Json.Value → Option (Option String)
  | none => some none
  | some (.obj items) => do
    let reason ← readOptStr (items.lookup "reason")
    if onlyKeys items ["reason"] && reason.all (·.length ≤ 200) then return reason else none
  | _ => none

/-- The JSON parser and the integer coercion of pydantic, and Python's `int` on a string
for an id. -/
structure Outside where
  parse : String → Option Json.Value
  laxInt : Json.Value → Option Int
  parseInt : String → Option Id

namespace Outside

variable (O : Outside)

def hostQuestionNextPayload : Option Json.Value → Option Int
  | some (.obj items) => do
    let position ← (items.lookup "expected_current_position").bind O.laxInt
    if onlyKeys items ["expected_current_position"] && 0 ≤ position then return position else none
  | _ => none

/-- `ClientMessage`, a union discriminated by `type`. -/
def clientMessage : Json.Value → Option ClientMessage
  | .obj items => do
    let type ← readStr (items.lookup "type")
    if !onlyKeys items ["type", "message_id", "payload"] then none
    else if type = "room.heartbeat" then
      return .heartbeat (← readOptStr (items.lookup "message_id")) (← heartbeatPayload (items.lookup "payload"))
    else if type = "answer.submit" then
      return .answerSubmit (← readStr (items.lookup "message_id")) (← answerSubmitPayload (items.lookup "payload"))
    else if type = "host.question.next" then
      return .hostQuestionNext (← readOptStr (items.lookup "message_id"))
        (← O.hostQuestionNextPayload (items.lookup "payload"))
    else if type = "host.match.pause" then
      return .hostMatchPause (← readOptStr (items.lookup "message_id"))
        (← hostMatchPausePayload (items.lookup "payload"))
    else none
  | _ => none

/-- `ClientMessageAdapter.validate_json`. -/
def validateJson (raw : String) : Option ClientMessage := (O.parse raw).bind O.clientMessage

/-- The ids of an `answer.submit`. -/
def request (payload : AnswerSubmitPayload) : Option (Id × AnswerSubmitRequest) := do
  let matchId ← O.parseInt payload.matchId
  let matchQuestionId ← O.parseInt payload.matchQuestionId
  let selectedIds ← payload.selectedOptionIds.mapM O.parseInt
  return (matchId, ⟨matchQuestionId, selectedIds⟩)

end Outside

/-- What the loop sends. -/
inductive Reply where
  | heartbeatAck (messageId : Option String) (serverNow : Micros) (lastSeenEventId : Option String)
  | answerAccepted (messageId : String) (submissionId : Id) (accepted : Bool) (scoreAwarded responseTimeMs : Int)
  | error (messageId : Option String) (code message : String) (retryAfterMs : Option Int)
  deriving DecidableEq, Repr

/-- `WebSocketConnection`, with the replica it is open on. -/
structure Conn where
  id : Nat
  replica : Nat
  participantId : Id
  isHost : Bool
  deriving DecidableEq, Repr

/-- What happens on a socket: a frame is taken, it starts a program of the service, or a
reply is written, which may fail. -/
inductive Entry where
  | heard (raw : String)
  | asked (k : Nat)
  | said (r : Reply) (delivered : Bool)
  deriving DecidableEq, Repr

/-- `inbox` has the frames that have arrived and are not taken yet, `turn` the current
round of each loop. The last three fields are history variables. -/
structure World where
  service : SysState
  counters : Counters
  buckets : String → Option RateLimit.Entry
  inbox : Nat → List String
  closed : Nat → Bool
  turn : Nat → Option Nat
  conns : Nat → Option Conn
  arrived : Nat → List String
  log : Nat → List Entry

theorem thirty_nonneg : (0 : Int) ≤ 30 := by decide

theorem thirty_pos : (0 : ℚ) < 30 := by norm_num

theorem sixty_nonneg : (0 : Int) ≤ 60 := by decide

theorem one_pos : (0 : ℚ) < 1 := by norm_num

theorem cost_pos : (0 : Int) < 1 := by decide

/-- `WS_RATE_CAPACITY`, `WS_RATE_REFILL`. -/
def wsRate : Limit := ⟨30, 30, thirty_nonneg, thirty_pos⟩

/-- `HOST_RATE_CAPACITY`, `HOST_RATE_REFILL`. -/
def hostRate : Limit := ⟨60, 1, sixty_nonneg, one_pos⟩

inductive Op where
  | receiveText
  | wsRateCheck
  | hostRateCheck
  | incr (key : String)
  | expire (key : String)
  | serverNow
  | send (r : Reply)
  | submitAnswer (matchId : Id) (payload : AnswerSubmitRequest) (requestId : String)
  | result (pid : Nat)
  | loop
  deriving DecidableEq, Repr

@[reducible] def Op.Res : Op → Type
  | .receiveText => Option String
  | .wsRateCheck | .hostRateCheck => Bool × Int
  | .incr _ | .submitAnswer _ _ _ => Nat
  | .serverNow => Micros
  | .send _ => Bool
  | .result _ => Response
  | _ => Unit

/-- `nowMs` is the replica's clock, as the rate limiter is told it. -/
structure Decision where
  fault : Fault := .none
  nowMs : Int := 0
  deriving DecidableEq, Repr

abbrev Answer (o : Op) := Outcome World Conn (Except Exn o.Res)

namespace World

def note (w : World) (i : Nat) (e : Entry) : World :=
  { w with log := Function.update w.log i (w.log i ++ [e]) }

/-- `rate_acquire` with a cost of one. -/
def rateAcquire (w : World) (key : String) (l : Limit) (nowMs : Int) : (Bool × Int) × World :=
  let (reply, entry) := RateLimit.acquire l (w.buckets key) ⟨nowMs, 1, cost_pos⟩
  ((reply.allowed, reply.retryAfterMs), { w with buckets := Function.update w.buckets key (some entry) })

end World

/-- The request that an `answer.submit` is for the match service. -/
def Conn.request (c : Conn) (matchId : Id) (payload : AnswerSubmitRequest) (requestId : String) : SysLabel :=
  .env (.request c.replica (.submitAnswer matchId c.participantId payload requestId))

/-- A `receiveText` waits for a frame, and may miss those that are left once the socket is
closed. A `send` never raises. -/
def exec (w : World) (c : Conn) (_pid fresh : Nat) (o : Op) (d : Decision) : Option (Answer o) :=
  match o with
  | .receiveText =>
    match w.inbox c.id, d.fault with
    | raw :: rest, .none =>
      some ⟨({ w with inbox := Function.update w.inbox c.id rest }).note c.id (.heard raw), .ok (some raw), none⟩
    | _, _ => if w.closed c.id then some ⟨w, .ok none, none⟩ else none
  | .wsRateCheck =>
    let (verdict, w') := w.rateAcquire ("rate:ws:" ++ toString c.id) wsRate d.nowMs
    faulty d.fault true w (some ⟨w', .ok verdict, none⟩)
  | .hostRateCheck =>
    let (verdict, w') := w.rateAcquire ("rate:host:" ++ toString c.participantId) hostRate d.nowMs
    faulty d.fault true w (some ⟨w', .ok verdict, none⟩)
  | .incr key =>
    let (counters, attempts) := Attempts.incr w.counters key w.service.shared.now
    faulty d.fault true w (some ⟨{ w with counters := counters }, .ok attempts, none⟩)
  | .expire key =>
    let counters := Attempts.expire w.counters key w.service.shared.now Attempts.answerRateTtl
    faulty d.fault true w (some ⟨{ w with counters := counters }, .ok (), none⟩)
  | .serverNow => some ⟨w, .ok w.service.shared.now, none⟩
  | .send r =>
    let delivered := d.fault = .none && !w.closed c.id
    some ⟨w.note c.id (.said r delivered), .ok delivered, none⟩
  | .submitAnswer m payload rid =>
    (service.step w.service (c.request m payload rid)).map fun S =>
      ⟨({ w with service := S }).note c.id (.asked w.service.procs.length), .ok w.service.procs.length, none⟩
  | .result k =>
    match w.service.procs[k]? with
    | some ⟨_, .done (.ok (.response r))⟩ => some ⟨w, .ok r, none⟩
    | some ⟨_, .done (.error e)⟩ => some ⟨w, .error e, none⟩
    | _ => none
  | .loop => some ⟨{ w with turn := Function.update w.turn c.id (some fresh) }, .ok (), some c⟩

/-- `connect` is the end of a handshake. -/
inductive EnvAction where
  | service (l : SysLabel)
  | connect (replica : Nat) (participantId : Id) (isHost : Bool)
  | arrive (i : Nat) (raw : String)
  | hangUp (i : Nat)

def env (w : World) (fresh : Nat) : EnvAction → Option (World × Option Conn)
  | .service l => (LiveQuiz.service.step w.service l).map fun S => ({ w with service := S }, none)
  | .connect replica participantId isHost =>
    let c : Conn := ⟨fresh, replica, participantId, isHost⟩
    some ({ w with
      turn := Function.update w.turn fresh (some fresh)
      conns := Function.update w.conns fresh (some c) }, some c)
  | .arrive i raw =>
    if (w.conns i).isSome ∧ w.closed i = false then
      some ({ w with
        inbox := Function.update w.inbox i (w.inbox i ++ [raw])
        arrived := Function.update w.arrived i (w.arrived i ++ [raw]) }, none)
    else none
  | .hangUp i => some ({ w with closed := Function.update w.closed i true }, none)

end LiveQuiz.Dialogue
