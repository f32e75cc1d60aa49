import LiveQuiz.Rooms.World
import LiveQuiz.Service.Session

/-! # `create_room`, `join_room` and `build_snapshot` -/

namespace LiveQuiz.Rooms

open Coroutine

set_option autoImplicit false

abbrev Coro := Prog Op Op.Res Exn

abbrev ask (o : Op) : Coro o.Res := Prog.perform o

def codeRetries : Nat := 5

def joinCapacity : Nat := 10

/-- The request's session: leaving by an exception rolls back. -/
def inSession {α : Type} (body : Coro α) : Coro α := body.session .rollback

def participantPayload (p : Participant) : Id × String × Bool := (p.id, p.nickname, false)

/-- `_build_snapshot`. -/
def snapshotOf (room : Room) : Coro (Snapshot × Nat) := do
  let rows ← ask (.activeParticipants room.id)
  return (⟨room.code, room.status, rows.length, rows.map participantPayload, none⟩, rows.length)

/-- `False` after an IntegrityError. -/
def tryFlush (wr : Write) : Coro Bool :=
  Prog.handle (do
      ask (.flush wr)
      return true) fun
    | .integrity => return false
    | e => throw e

/-- The attempts to allocate a unique code, each in its own savepoint. -/
def allocate (host : User) (quiz : Quiz) (payload : RoomCreate) : Nat → Coro (Option Room)
  | 0 => return none
  | n + 1 => do
    let candidate ← ask .generateCode
    let id ← ask .nextId
    let room : Room :=
      ⟨id, candidate, host.id, quiz.id, .lobby, payload.maxPlayers, payload.settings⟩
    if ← tryFlush (.room room) then
      return some room
    else
      allocate host quiz payload n

def roomCreatedEvent (eventId : Id) (room : Room) (host : User) (quiz : Quiz) (now : Micros) :
    OutboxEvent where
  id := eventId
  aggregateId := room.id
  payload := .roomCreated room.id room.code host.id quiz.id room.maxPlayers room.settings
  occurredAt := now

def wsUrl (code token : String) : String := "/ws/rooms/" ++ code ++ "?token=" ++ token

def createRoom (O : Outside) (host : User) (payload : RoomCreate) : Coro (Room × String) := do
  let details := [("quiz_set_id", toString payload.quizSetId)]
  let some quiz ← ask (.getQuiz payload.quizSetId)
    | raise "VALIDATION_ERROR" 404 "quiz set not found" details
  if quiz.ownerId ≠ host.id then
    raise "FORBIDDEN" 403 "not the quiz owner" details
  if !quiz.isPublished then
    raise "QUIZ_NOT_PUBLISHED" 409 "cannot create a room from a draft quiz" details
  let some room ← allocate host quiz payload codeRetries
    | raise "INTERNAL_ERROR" 500 "failed to allocate room code" [("reason", O.integrityText)]
  let eventId ← ask .nextId
  let now ← ask .utcnow
  ask (.flush (.event (roomCreatedEvent eventId room host quiz now)))
  ask .commit
  ask (.countInit room.code 0)
  let (snapshot, _) ← snapshotOf room
  ask (.writeSnapshot room.code snapshot)
  let issuedAt ← ask .utcnow
  return (room, wsUrl room.code (O.participantToken issuedAt room.code host.id host.displayName))

def playerJoinedEvent (eventId : Id) (room : Room) (p : Participant) (now : Micros) :
    OutboxEvent where
  id := eventId
  aggregateId := room.id
  payload := .playerJoined room.id p.id p.nickname p.userId
  occurredAt := now

def reportOf (id : Id) (room : Room) (userId : Option Id) (flag : Flag) : ModerationReport where
  id := id
  roomId := some room.id
  targetUserId := userId
  reason := String.ofList (flag.reason.toList.take 120)
  details := [("context", "nickname"), ("matched", flag.matched), ("source", "room.join")] ++
    flag.details

def contentFlaggedEvent (eventId : Id) (report : ModerationReport) (flag : Flag) (now : Micros) :
    OutboxEvent where
  id := eventId
  aggregateId := report.id
  payload := .contentFlagged report.id flag.reason "nickname" flag.matched "room.join"
    (report.targetUserId.filter (· ≠ 0)) (report.roomId.filter (· ≠ 0))
  occurredAt := now

/-- `auto_flag_on_join`: a report and an event for each finding. -/
def autoFlag (room : Room) (userId : Option Id) : List Flag → Coro Unit
  | [] => return
  | flag :: flags => do
    let id ← ask .nextId
    let report := reportOf id room userId flag
    ask (.flush (.report report))
    let eventId ← ask .nextId
    let now ← ask .utcnow
    ask (.flush (.event (contentFlaggedEvent eventId report flag now)))
    autoFlag room userId flags

structure JoinResponse where
  participantId : Id
  roomId : Id
  code : String
  nickname : String
  participantToken : String
  wsUrl : String
  deriving DecidableEq, Repr

/-- Steps 1 and 2: the rate limit, and a room in its lobby. -/
def joinable (code ip : String) : Coro Room := do
  let (allowed, retryMs) ← ask (.rateAcquire ("rate:join:" ++ ip ++ ":" ++ code) joinCapacity 1)
  if !allowed then
    raise "RATE_LIMITED" 429 "too many join attempts" [("retry_after_ms", toString retryMs)]
  let some room ← ask (.getByCode code)
    | raise "ROOM_NOT_FOUND" 404 "room code not found" [("code", code)]
  if room.status ≠ .lobby then
    raise "ROOM_NOT_JOINABLE" 409 "room is not accepting joins"
      [("code", code), ("status", room.status.value)]
  return room

def joinRoom (O : Outside) (code nickname ip : String) (user : Option User) : Coro JoinResponse := do
  let room ← joinable code ip
  let newCount ← ask (.countAdmit code room.maxPlayers)
  if newCount = -1 then
    raise "ROOM_FULL" 409 "room is at capacity"
      [("code", code), ("max_players", toString room.maxPlayers)]
  let id ← ask .nextId
  let participant : Participant := ⟨id, room.id, user.map (·.id), nickname, 0, none, false⟩
  if !(← tryFlush (.participant participant)) then
    ask .rollback
    let _ ← ask (.countRelease code)
    raise "DUPLICATE_NICKNAME" 409 "nickname is already taken in this room"
      [("code", code), ("nickname", nickname)]
  let eventId ← ask .nextId
  let now ← ask .utcnow
  ask (.flush (.event (playerJoinedEvent eventId room participant now)))
  autoFlag room (user.map (·.id)) (O.scanText nickname)
  ask .commit
  let (snapshot, _) ← snapshotOf room
  ask (.writeSnapshot code snapshot)
  let issuedAt ← ask .utcnow
  let token := O.participantToken issuedAt room.code id nickname
  return ⟨id, room.id, room.code, nickname, token, wsUrl room.code token⟩

def buildSnapshot (code : String) : Coro Snapshot := do
  if let some cached ← ask (.readSnapshot code) then
    return cached
  let some room ← ask (.getByCode code)
    | raise "ROOM_NOT_FOUND" 404 "room code not found" [("code", code)]
  let (snapshot, count) ← snapshotOf room
  ask (.countInit code count)
  ask (.writeSnapshot code snapshot)
  return snapshot

inductive Ret where
  | created (room : Room) (hostWsUrl : String)
  | joined (response : JoinResponse)
  | snapshot (s : Snapshot)
  deriving DecidableEq, Repr

def jobBody (O : Outside) : Job → Coro Ret
  | .createRoom host payload =>
    (fun r => .created r.1 r.2) <$> inSession (createRoom O host payload)
  | .joinRoom code nickname ip user => .joined <$> inSession (joinRoom O code nickname ip user)
  | .buildSnapshot code => .snapshot <$> inSession (buildSnapshot code)

def rooms (O : Outside) : Machine World Op Op.Res Exn Ret Job Decision EnvAction where
  exec := exec O
  env := env
  body := jobBody O

abbrev SysState := State World Op Op.Res Exn Ret Job

abbrev SysLabel := Label Decision EnvAction

def initial (quizzes : List Quiz) : SysState where
  shared :=
    { quizzes := quizzes, rooms := [], participants := [], outbox := [], reports := []
      counter := fun _ => none, snapshot := fun _ => none, tx := fun _ => [], seat := fun _ => none
      now := 0 }
  procs := []

end LiveQuiz.Rooms
