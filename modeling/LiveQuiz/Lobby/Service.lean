import LiveQuiz.Lobby.World

/-! # The requests on a room

`create_room`, `join_room` and `build_snapshot` are those of the room service. Of the host
controls and of a mute these are the statements on the rows and keys of a room; what
`start_match` and `end_match` do besides has its own model.
-/

namespace LiveQuiz.Lobby

open Coroutine

set_option autoImplicit false

abbrev Coro := Prog Op Op.Res Exn

abbrev ask (o : Op) : Coro o.Res := Prog.perform o

/-- A program of the room service, with its calls made here. -/
def lift {α : Type} : Rooms.Coro α → Coro α
  | .done r => .done r
  | .call o k => .call (.room o) fun r => lift (k r)

/-- The request's session: leaving by an exception rolls back. -/
def inSession {α : Type} (body : Coro α) : Coro α := body.session .rollback

/-- The room under its code, locked, for its host. -/
def hostedRoom (hostId : Id) (code : String) : Coro Rooms.Room := do
  let some room ← ask (.lockRoom code)
    | raise "ROOM_NOT_FOUND" 404 "room code not found"
  if room.hostId ≠ hostId then
    raise "FORBIDDEN" 403 "not the room host"
  return room

/-- Steps 1 to 5 of `start_match`, up to the COMMIT. -/
def startTx (hostId : Id) (code : String) : Coro (MatchRow × Nat) := do
  let room ← hostedRoom hostId code
  if room.status ≠ .lobby then
    raise "ROOM_NOT_JOINABLE" 409 "match already started or completed"
      [("status", room.status.value)]
  let count ← ask (.questionCount room.quizSetId)
  if count = 0 then
    raise "VALIDATION_ERROR" 422 "quiz has no questions" [("quiz_set_id", toString room.quizSetId)]
  let matchId ← ask (.room .nextId)
  let m : MatchRow := ⟨matchId, room.id, .running⟩
  ask (.flush [.insertMatch m])
  ask (.flush [.setRoom room.id .running])
  ask .commit
  return (m, count)

/-- The snapshot update of step 6. -/
def markRunning (code : String) (m : MatchRow) (count : Nat) : Coro Unit := do
  let some cached ← ask (.room (.readSnapshot code)) | return
  ask (.room (.writeSnapshot code
    { cached with status := .running, matchBlock := some (m.id, count, .running) }))

def startMatch (hostId : Id) (code : String) : Coro MatchRow :=
  inSession do
    let (m, count) ← startTx hostId code
    markRunning code m count
    return m

/-- `pause_match` and `resume_match`: the two statuses move together. -/
def moveMatch (hostId : Id) (code : String) (status next : RoomStatus) (message : String) :
    Coro MatchRow :=
  inSession do
    let room ← hostedRoom hostId code
    let some m ← ask (.matchOfRoom room.id)
      | raise "ROOM_NOT_JOINABLE" 409 message
    if m.status ≠ status then
      raise "ROOM_NOT_JOINABLE" 409 message
    ask (.flush [.setMatch m.id next, .setRoom room.id next])
    ask .commit
    return { m with status := next }

def pauseMatch (hostId : Id) (code : String) : Coro MatchRow :=
  moveMatch hostId code .running .paused "no running match"

def resumeMatch (hostId : Id) (code : String) : Coro MatchRow :=
  moveMatch hostId code .paused .running "match is not paused"

/-- `none` when another call has completed the match. -/
def endTx (matchId : Id) (hostId : Option Id) : Coro (MatchRow × Option String) := do
  let some m ← ask (.lockMatch matchId)
    | raise "ROOM_NOT_FOUND" 404 "match not found"
  let some room ← ask (.lockRoomById m.roomId)
    | raise "ROOM_NOT_FOUND" 404 "room not found"
  if hostId.any (· ≠ room.hostId) then
    raise "FORBIDDEN" 403 "not the room host"
  if m.status = .completed then
    ask .commit
    return (m, none)
  ask (.flush [.setMatch m.id .completed, .setRoom room.id .completed])
  ask .commit
  return ({ m with status := .completed }, some room.code)

def markCompleted (code : String) : Coro Unit := do
  let some cached ← ask (.room (.readSnapshot code)) | return
  ask (.room (.writeSnapshot code { cached with status := .completed }))

def endMatch (matchId : Id) (hostId : Option Id) : Coro MatchRow :=
  inSession do
    let (m, code) ← endTx matchId hostId
    if let some code := code then
      markCompleted code
    return m

/-- `decide` with a mute: `_apply_mute` and the COMMIT. -/
def mute (roomId targetUserId : Option Id) : Coro (List Id) :=
  inSession do
    if roomId.isNone && targetUserId.isNone then
      raise "VALIDATION_ERROR" 422 "mute requires room_id and/or target_user_id"
    let targets ← ask (.muteTargets roomId targetUserId)
    ask (.flush (targets.map .kick))
    ask .commit
    return targets

inductive Ret where
  | room (r : Rooms.Ret)
  | hosted (m : MatchRow)
  | muted (targets : List Id)
  deriving DecidableEq, Repr

def jobBody (O : Rooms.Outside) : Job → Coro Ret
  | .room job => .room <$> lift (Rooms.jobBody O job)
  | .startMatch host code => .hosted <$> startMatch host code
  | .pauseMatch host code => .hosted <$> pauseMatch host code
  | .resumeMatch host code => .hosted <$> resumeMatch host code
  | .endMatch m host => .hosted <$> endMatch m host
  | .mute r u => .muted <$> mute r u

def lobby (O : Rooms.Outside) : Machine World Op Op.Res Exn Ret Job Rooms.Decision EnvAction where
  exec := exec O
  env := env
  body := jobBody O

abbrev SysState := State World Op Op.Res Exn Ret Job

abbrev SysLabel := Label Rooms.Decision EnvAction

def initial (quizzes : List Rooms.Quiz) : SysState where
  shared :=
    { room := (Rooms.initial quizzes).shared, matches' := [], tx := fun _ => []
      lock := fun _ => none, stage := fun _ => none, log := [] }
  procs := []

section

variable {α β : Type}

theorem lift_bind (p : Rooms.Coro α) (f : α → Rooms.Coro β) :
    lift (p.bind f) = (lift p).bind fun a => lift (f a) := by
  induction p with
  | done r => cases r <;> rfl
  | call o k ih =>
    change Prog.call _ _ = Prog.call _ _
    congr 1
    funext r
    exact ih r

theorem lift_handle (p : Rooms.Coro α) (h : Exn → Rooms.Coro α) :
    lift (p.handle h) = (lift p).handle fun e => lift (h e) := by
  induction p with
  | done r => cases r <;> rfl
  | call o k ih =>
    change Prog.call _ _ = Prog.call _ _
    congr 1
    funext r
    exact ih r

end

end LiveQuiz.Lobby
