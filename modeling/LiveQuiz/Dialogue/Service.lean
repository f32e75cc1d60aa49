import LiveQuiz.Dialogue.World

/-! # The receive loop

`_receive_loop`, `_dispatch` and `_ws_submit_answer`. What they do not catch ends the loop,
and with it the connection.
-/

namespace LiveQuiz.Dialogue

open Coroutine
open LiveQuiz.Attempts (AnswerSubmitPayload answerRateLimit wsKey)

set_option autoImplicit false

abbrev Coro := Prog Op Op.Res Exn

abbrev ask (o : Op) : Coro o.Res := Prog.perform o

def say (r : Reply) : Coro Unit := do
  let _ ← ask (.send r)

def answerRateCheck (c : Conn) (matchQuestionId : String) : Coro Bool := do
  let key := wsKey c.participantId matchQuestionId
  let val ← ask (.incr key)
  if val = 1 then
    ask (.expire key)
  return val ≤ answerRateLimit

/-- `match_service.submit_answer` on a session of its own. -/
def submitAnswer (matchId : Id) (payload : AnswerSubmitRequest) (requestId : String) : Coro Response := do
  let k ← ask (.submitAnswer matchId payload requestId)
  ask (.result k)

/-- `except AuthError`. -/
def refused (messageId : String) : Exn → Coro (Option Response)
  | .auth code _ message _ => do
    say (.error (some messageId) code message none)
    return none
  | e => throw e

section

variable (O : Outside) (c : Conn)

def wsSubmitAnswer (messageId : String) (payload : AnswerSubmitPayload) : Coro Unit := do
  let some (matchId, request) := O.request payload
    | say (.error (some messageId) "VALIDATION_ERROR" "invalid id in payload" none)
  let some result ← Prog.handle (some <$> submitAnswer matchId request messageId) (refused messageId)
    | return
  say (.answerAccepted messageId result.submissionId result.accepted result.scoreAwarded result.responseTimeMs)

/-- The host's messages are advisory. -/
def hostMessage : Coro Unit := do
  if !c.isHost then
    say (.error none "FORBIDDEN" "host-only message" none)
  else
    let (allowed, retryAfterMs) ← ask .hostRateCheck
    if !allowed then
      say (.error none "RATE_LIMITED" "host message rate exceeded" (some retryAfterMs))
    else
      say (.error none "NOT_IMPLEMENTED" "use REST host-control endpoints" none)

def dispatch : ClientMessage → Coro Unit
  | .heartbeat messageId lastSeenEventId => do
    let now ← ask .serverNow
    say (.heartbeatAck messageId now lastSeenEventId)
  | .answerSubmit messageId payload => do
    if ← answerRateCheck c payload.matchQuestionId then
      wsSubmitAnswer O messageId payload
    else
      say (.error none "RATE_LIMITED" "answer attempts exceeded" none)
  | .hostQuestionNext _ _ => hostMessage c
  | .hostMatchPause _ _ => hostMessage c

/-- What the loop does with a frame. -/
def handleText (raw : String) : Coro Unit := do
  let (allowed, retryAfterMs) ← ask .wsRateCheck
  if !allowed then
    say (.error none "RATE_LIMITED" "ws message rate exceeded" (some retryAfterMs))
  else
    match O.validateJson raw with
    | none => say (.error none "VALIDATION_ERROR" "invalid message" none)
    | some message => dispatch O c message

/-- One round. -/
def receiveLoop : Coro Unit := do
  let some raw ← ask .receiveText | return
  handleText O c raw
  ask .loop

end

def sockets (O : Outside) : Machine World Op Op.Res Exn Unit Conn Decision EnvAction where
  exec := exec
  env := env
  body := receiveLoop O

abbrev DialogueState := State World Op Op.Res Exn Unit Conn

abbrev DialogueLabel := Label Decision EnvAction

def start (seed : Seed) : DialogueState where
  shared :=
    { service := initial seed
      counters := fun _ => none
      buckets := fun _ => none
      inbox := fun _ => []
      closed := fun _ => false
      turn := fun _ => none
      conns := fun _ => none
      arrived := fun _ => []
      log := fun _ => [] }
  procs := []

end LiveQuiz.Dialogue
