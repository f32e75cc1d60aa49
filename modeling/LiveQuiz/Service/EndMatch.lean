import LiveQuiz.Service.Session
import Mathlib.Data.List.Sort

/-! # `end_match`

The aggregation of `final_scores` and the transaction that completes a match.
-/

namespace LiveQuiz

open Coroutine

set_option autoImplicit false

/-- One value of the `per_participant` dict. -/
structure Tally where
  participantId : Id
  total : Int := 0
  correct : Nat := 0
  rtSum : Int := 0
  rtCount : Nat := 0
  deriving DecidableEq, Repr

def Tally.add (t : Tally) (s : AnswerSubmission) : Tally :=
  { t with
    total := t.total + s.scoreAwarded
    correct := t.correct + if s.isCorrect then 1 else 0
    rtSum := t.rtSum + s.responseTimeMs
    rtCount := t.rtCount + 1 }

/-- `dict.setdefault(pid, zeros)`, in insertion order. -/
def setDefault (ts : List Tally) (pid : Id) : List Tally :=
  if ts.any (·.participantId = pid) then ts else ts ++ [{ participantId := pid }]

def tallySubmission (ts : List Tally) (s : AnswerSubmission) : List Tally :=
  (setDefault ts s.participantId).map fun t =>
    if t.participantId = s.participantId then t.add s else t

def perParticipant (subs : List AnswerSubmission) (participants : List RoomParticipant) :
    List Tally :=
  (participants.map (·.id)).foldl setDefault (subs.foldl tallySubmission [])

/-- `int(rt_sum / rt_count)`, or `None` without submissions. -/
def Tally.averageMs (t : Tally) : Option Int :=
  if 0 < t.rtCount then some (t.rtSum.tdiv t.rtCount) else none

/-- `_sort_key` compared lexicographically: total descending, then the average,
with `10**9` standing for a missing one. -/
def Tally.ranksBefore (a b : Tally) : Bool :=
  b.total < a.total ∨ (a.total = b.total ∧ a.averageMs.getD (10 ^ 9) ≤ b.averageMs.getD (10 ^ 9))

def finalScores (matchId : Id) (ts : List Tally) : List FinalScore :=
  (ts.insertionSort fun a b => a.ranksBefore b).mapIdx fun i t =>
    ⟨matchId, t.participantId, t.total, t.correct, t.averageMs, i + 1⟩

def matchFinishedEvent (eventId : Id) (m : Match) (room : Room) (endedAt : Micros)
    (scores : List FinalScore) : OutboxEvent where
  id := eventId
  aggregateType := .matchAggregate
  aggregateId := m.id
  payload := .matchFinished m.id room.id endedAt scores
  occurredAt := endedAt

/-- `alreadyCompleted` tells whether another call had finished the match. -/
structure Ended where
  row : Match
  roomCode : String
  alreadyCompleted : Bool

def endTx (matchId : Id) (hostId : Option Id) : Coro Ended := do
  let some m ← selectForUpdate (.matchById matchId)
    | raise "ROOM_NOT_FOUND" 404 "match not found"
  let some room ← selectForUpdate (.roomById m.roomId)
    | raise "ROOM_NOT_FOUND" 404 "room not found"
  if hostId.any (· ≠ room.hostId) then
    raise "FORBIDDEN" 403 "not the room host"
  if m.status = .completed then
    return ⟨m, room.code, true⟩
  let subs ← select (.submissionsOfMatch matchId)
  let participants ← select (.keptParticipants room.id)
  let scores := finalScores matchId (perParticipant subs participants)
  let endedAt ← utcnow
  let eventId ← nextId
  flush ([.updateRoom room.id .completed none (some endedAt),
      .updateMatch m.id .completed (some endedAt)] ++ scores.map .insertFinalScore ++
      [.insertEvent (matchFinishedEvent eventId m room endedAt scores)])
  return ⟨m.patch .completed (some endedAt), room.code, false⟩

/-- The scheduler entry is cancelled before the transaction is opened. -/
def endMatch (matchId : Id) (hostId : Option Id) : Coro Match := do
  cancelActive matchId
  let ended ← inTransaction (endTx matchId hostId)
  if ended.alreadyCompleted then
    return ended.row
  broadcast ended.roomCode (.matchFinished matchId)
  if let some cached ← redis (.readSnapshot ended.roomCode) then
    redis (.writeSnapshot ended.roomCode { cached with status := .completed })
  return ended.row

end LiveQuiz
