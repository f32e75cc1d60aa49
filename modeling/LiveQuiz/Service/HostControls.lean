import LiveQuiz.Service.Session

/-! # `start_match`, `pause_match`, `resume_match` and recovery -/

namespace LiveQuiz

open Coroutine

set_option autoImplicit false

def drawIds : Nat → Coro (List Id)
  | 0 => return []
  | n + 1 => do
    let id ← nextId
    let ids ← drawIds n
    return id :: ids

/-- The `match_questions` rows of a start: the quiz's questions in position
order, numbered from 1. -/
def matchQuestionRows (matchId : Id) (ids : List Id) (questions : List Question) :
    List MatchQuestion :=
  (ids.zip questions).mapIdx fun i (id, q) =>
    { id := id, matchId := matchId, questionId := q.id, position := i + 1
      startedAt := none, deadlineAt := none, closedAt := none }

def matchStartedEvent (eventId : Id) (m : Match) (room : Room) (quiz : QuizSet) (count : Nat) :
    OutboxEvent where
  id := eventId
  aggregateType := .matchAggregate
  aggregateId := m.id
  payload := .matchStarted m.id room.id room.code quiz.id quiz.version count m.startedAt
  occurredAt := m.startedAt

/-- Steps 1 to 5, up to the COMMIT. -/
def startTx (hostId : Id) (code : String) : Coro (Match × Room × Nat) := do
  let some room ← selectForUpdate (.roomByCode code)
    | raise "ROOM_NOT_FOUND" 404 "room code not found"
  if room.hostId ≠ hostId then
    raise "FORBIDDEN" 403 "not the room host"
  if room.status ≠ .lobby then
    raise "ROOM_NOT_JOINABLE" 409 "match already started or completed"
      [("status", room.status.value)]
  let some quiz ← select (.getQuizSet room.quizSetId)
    | raise "VALIDATION_ERROR" 422 "quiz has no questions" [("quiz_set_id", toString room.quizSetId)]
  let questions ← select (.questionsOfQuiz quiz.id)
  if questions.isEmpty then
    raise "VALIDATION_ERROR" 422 "quiz has no questions" [("quiz_set_id", toString room.quizSetId)]
  let startedAt ← utcnow
  let matchId ← nextId
  let m : Match := ⟨matchId, room.id, quiz.version, .running, startedAt, none⟩
  flush [.insertMatch m]
  let ids ← drawIds questions.length
  let mqs := matchQuestionRows matchId ids questions
  flush (mqs.map .insertMatchQuestion)
  let eventId ← nextId
  flush [.updateRoom room.id .running (some startedAt) none,
    .insertEvent (matchStartedEvent eventId m room quiz mqs.length)]
  commit
  return (m, room, mqs.length)

/-- Step 6: nicknames, the emptied leaderboard and the room snapshot. -/
def seedMatchState (m : Match) (room : Room) (count : Nat) : Coro Unit := do
  let participants ← select (.activeParticipants room.id)
  if !participants.isEmpty then
    redis (.setNicknames m.id (participants.map fun p => (p.id, p.nickname)))
  redis (.resetLeaderboard m.id)
  if let some cached ← redis (.readSnapshot room.code) then
    redis (.writeSnapshot room.code
      { cached with status := .running, matchBlock := some (m.id, count, .running) })

/-- What comes behind the nicknames. -/
def resetMatchState (m : Match) (room : Room) (count : Nat) : Coro Unit := do
  redis (.resetLeaderboard m.id)
  if let some cached ← redis (.readSnapshot room.code) then
    redis (.writeSnapshot room.code
      { cached with status := .running, matchBlock := some (m.id, count, .running) })

def startMatch (hostId : Id) (code : String) : Coro Match :=
  withSession do
    let (m, room, count) ← startTx hostId code
    seedMatchState m room count
    let serverNow ← utcnow
    broadcast room.code (.matchStarted m.id count serverNow)
    createTask (.armQuestion m.id 1)
    return m

/-- The locked room of a host request, its match and the match's questions as
`selectinload` reads them. -/
def hostedMatch (hostId : Id) (code : String) (status : RoomStatus) (message : String) :
    Coro (Room × Match × List MatchQuestion) := do
  let some room ← selectForUpdate (.roomByCode code)
    | raise "ROOM_NOT_FOUND" 404 "room code not found"
  if room.hostId ≠ hostId then
    raise "FORBIDDEN" 403 "not the room host"
  let some m ← select (.matchOfRoom room.id)
    | raise "ROOM_NOT_JOINABLE" 409 message
  let loaded ← select (.questionsOfMatch m.id)
  if m.status ≠ status then
    raise "ROOM_NOT_JOINABLE" 409 message
  return (room, m, loaded)

def remainingMs (mq : Option MatchQuestion) : Coro Int := do
  match mq.bind (·.deadlineAt) with
  | none => return 0
  | some deadlineAt =>
    let now ← utcnow
    return max 0 (toMillis (deadlineAt - now))

def pauseMatch (hostId : Id) (code : String) : Coro Match :=
  withSession do
    let (room, m, loaded) ← hostedMatch hostId code .running "no running match"
    let active ← select (.openQuestion m.id)
    let mq := active.map (identityMapped loaded)
    let remaining ← remainingMs mq
    flush [.updateRoom room.id .paused none none, .updateMatch m.id .paused none]
    commit
    cancelActive m.id
    redis (.setPause m.id ⟨mq.map (·.position), remaining⟩)
    return m.patch .paused none

/-- The UPDATE of the paused question's deadline, when it is still open. -/
def extendDeadline (matchId : Id) (loaded : List MatchQuestion) (position : Option Nat)
    (remaining : Int) : Coro (List Write) := do
  match position with
  | none => return []
  | some p =>
    let some row ← selectForUpdate (.questionAt matchId p) | return []
    if (identityMapped loaded row).closedAt.isSome then
      return []
    let now ← utcnow
    return [.updateMatchQuestion row.id none (some (now + ofMillis (max 0 remaining))) none]

/-- After the commit: the same question's timer, or the next question. -/
def rearm (matchId : Id) (position : Option Nat) (remaining : Int) : Coro Unit := do
  match position with
  | some p =>
    if 0 < remaining then
      setActive matchId (.closeQuestionAfter matchId p (ofMillis remaining))
    else armNext
  | none => armNext
where
  armNext : Coro Unit := do
    let some next ← select (.nextUnstarted matchId) | return
    createTask (.armQuestion matchId next.position)

def resumeMatch (hostId : Id) (code : String) : Coro Match :=
  withSession do
    let (room, m, loaded) ← hostedMatch hostId code .paused "match is not paused"
    let record := (← redis (.getPause m.id)).getD ⟨none, 0⟩
    let deadline ← extendDeadline m.id loaded record.position record.remainingMs
    flush ([.updateRoom room.id .running none none, .updateMatch m.id .running none] ++ deadline)
    commit
    rearm m.id record.position record.remainingMs
    return m.patch .running none

/-- One running match at startup: close its open question, or arm the next one. -/
def recoverMatch (m : Match) : Coro Nat := do
  let some mq ← select (.openQuestion m.id)
    | do
      let some next ← select (.nextUnstarted m.id) | return 0
      createTask (.armQuestion m.id next.position)
      return 1
  let some deadlineAt := mq.deadlineAt | return 0
  let now ← utcnow
  if deadlineAt - now ≤ 0 then
    createTask (.closeQuestion m.id mq.position)
  else
    setActive m.id (.closeQuestionAfter m.id mq.position (deadlineAt - now))
  return 1

def recoverAll : List Match → Coro Nat
  | [] => return 0
  | m :: ms => do
    let n ← recoverMatch m
    let rest ← recoverAll ms
    return n + rest

def recoverRunningMatches : Coro Nat := do
  let ms ← select .runningMatches
  recoverAll ms

end LiveQuiz
