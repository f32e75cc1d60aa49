import LiveQuiz.Model.Types
import Mathlib.Logic.Function.Basic

/-! # The attempt limit on answers

Both entry points count the attempts of a participant at a question in Redis with INCR,
and an EXPIRE after the first, before they call the service: the REST endpoint under the
parsed id of the question, the WebSocket under the text of the message.
-/

namespace LiveQuiz.Attempts

set_option autoImplicit false

/-- A counter of Redis; without `expiresAt` it has no TTL. -/
structure Counter where
  value : Nat
  expiresAt : Option Micros
  deriving DecidableEq, Repr

abbrev Counters := String → Option Counter

def answerRateLimit : Nat := 5

/-- `ANSWER_RATE_TTL_S`. -/
def answerRateTtl : Micros := 600 * 1000000

def Counter.live (c : Counter) (now : Micros) : Bool := c.expiresAt.all (now < ·)

def read (cs : Counters) (key : String) (now : Micros) : Option Counter :=
  (cs key).filter (·.live now)

def incr (cs : Counters) (key : String) (now : Micros) : Counters × Nat :=
  match read cs key now with
  | some c => (Function.update cs key (some { c with value := c.value + 1 }), c.value + 1)
  | none => (Function.update cs key (some ⟨1, none⟩), 1)

def expire (cs : Counters) (key : String) (now ttl : Micros) : Counters :=
  Function.update cs key ((read cs key now).map fun c => { c with expiresAt := some (now + ttl) })

def countAttempt (cs : Counters) (key : String) (now : Micros) : Counters × Nat :=
  let (cs', attempts) := incr cs key now
  (if attempts = 1 then expire cs' key now answerRateTtl else cs', attempts)

def wsKey (participantId : Id) (matchQuestionId : String) : String :=
  "rate:ws:answer:" ++ toString participantId ++ ":" ++ matchQuestionId

def restKey (participantId : Id) (matchQuestionId : Int) : String :=
  "rate:answer:" ++ toString participantId ++ ":" ++ toString matchQuestionId

/-- A call of `match_service.submit_answer`. -/
structure Invocation where
  matchId : Int
  participantId : Id
  matchQuestionId : Int
  selectedOptionIds : List Int
  deriving DecidableEq, Repr

/-- The `answer.submit` message. -/
structure AnswerSubmitPayload where
  matchId : String
  matchQuestionId : String
  selectedOptionIds : List String
  deriving DecidableEq, Repr

/-- `intOfStr` is Python's `int` on a string. -/
def wsSubmitAnswer (intOfStr : String → Option Int) (participantId : Id)
    (payload : AnswerSubmitPayload) : Option Invocation := do
  let matchId ← intOfStr payload.matchId
  let matchQuestionId ← intOfStr payload.matchQuestionId
  let selectedIds ← payload.selectedOptionIds.mapM intOfStr
  return ⟨matchId, participantId, matchQuestionId, selectedIds⟩

/-- A request to the REST endpoint, or a message that the receive loop dispatches. -/
inductive Submission where
  | rest (matchId matchQuestionId : Int) (selectedOptionIds : List Int)
  | ws (payload : AnswerSubmitPayload)
  deriving DecidableEq, Repr

def Submission.key (participantId : Id) : Submission → String
  | .rest _ q _ => restKey participantId q
  | .ws payload => wsKey participantId payload.matchQuestionId

/-- The question the submission is about, where its id is one. -/
def Submission.question (intOfStr : String → Option Int) : Submission → Option Int
  | .rest _ q _ => some q
  | .ws payload => intOfStr payload.matchQuestionId

/-- `submit_answer` of the API and `_dispatch` of the WebSocket. -/
def submit (intOfStr : String → Option Int) (participantId : Id) (cs : Counters) (now : Micros) :
    Submission → Counters × Option Invocation
  | .rest matchId q selected =>
    let (cs', attempts) := countAttempt cs (restKey participantId q) now
    (cs', if attempts > 5 then none else some ⟨matchId, participantId, q, selected⟩)
  | .ws payload =>
    let (cs', attempts) := countAttempt cs (wsKey participantId payload.matchQuestionId) now
    (cs', if attempts ≤ answerRateLimit then wsSubmitAnswer intOfStr participantId payload else none)

/-- The calls of the service in a sequence of submissions. -/
def invocations (intOfStr : String → Option Int) (participantId : Id) :
    Counters → List (Micros × Submission) → List Invocation
  | _, [] => []
  | cs, (now, s) :: rest =>
    let (cs', call) := submit intOfStr participantId cs now s
    call.toList ++ invocations intOfStr participantId cs' rest

end LiveQuiz.Attempts
