import LiveQuiz.Handshake.World

/-! # `ws_room_endpoint` and the client at its other end -/

namespace LiveQuiz.Handshake

open Coroutine

set_option autoImplicit false

abbrev Coro := Prog Op Op.Res Exn

abbrev ask (o : Op) : Coro o.Res := Prog.perform o

/-- A program of the room service, with its calls made here. -/
def lift {α : Type} : Rooms.Coro α → Coro α
  | .done r => .done r
  | .call o k => .call (.room o) fun r => lift (k r)

/-- `except AuthError`. -/
def exceptAuth {α : Type} (p : Coro α) (handler : String → String → Coro α) : Coro α :=
  p.handle fun
    | .auth code _ message _ => handler code message
    | e => throw e

/-- `try: ... finally: ...`. -/
def withFinally (body last : Coro Unit) : Coro Unit := do
  body.handle fun e => do
    last
    throw e
  last

def closeUnauthorized : Nat := 4401

def closeNormal : Nat := 1000

def participantType : String := "participant"

def micros (seconds : Int) : Micros := seconds * 1000000

def decodeToken (O : Outside) (token expectedType : String) : Coro Claims := do
  let now ← ask (.room .utcnow)
  let some claims := O.verify token
    | raise "AUTH_REQUIRED" 401 "invalid token"
  if micros claims.exp ≤ now then
    raise "AUTH_REQUIRED" 401 "token expired"
  if claims.type ≠ expectedType then
    raise "FORBIDDEN" 403 ("expected token type '" ++ expectedType ++ "'")
  return claims

def refuse {α : Type} (reason : String) : Coro (Option α) := do
  ask (.close closeUnauthorized reason)
  return none

/-- `_authenticate`: the participant, its nickname, and whether it is the host. -/
def authenticate (O : Outside) (code token : String) : Coro (Option (Id × String × Bool)) := do
  if token = "" then
    refuse "missing token"
  else
    let some claims ← exceptAuth (some <$> decodeToken O token participantType)
        fun _ _ => refuse "invalid token"
      | return none
    if claims.roomCode.getD "None" ≠ code then
      refuse "room mismatch"
    else
      let some participantId := claims.participantId.bind O.parseInt
        | refuse "malformed token"
      let some room ← ask (.room (.getByCode code))
        | refuse "room not found"
      return some (participantId, claims.nickname.getD "", decide (participantId = room.hostId))

/-- The snapshot for a new socket, or an `error` frame and a normal close. -/
def snapshotOrClose (code : String) : Coro (Option Rooms.Snapshot) :=
  exceptAuth (some <$> lift (Rooms.buildSnapshot code)) fun errorCode message => do
    ask (.send (.error errorCode message))
    ask (.close closeNormal "")
    return none

def leave (code : String) (participantId : Id) (nickname : String) (playerCount : Nat) : Coro Unit := do
  ask (.disconnect code)
  ask (.broadcast code (.participantLeft participantId nickname (playerCount - 1)))

/-- From the registration on. -/
def attend (code : String) (participantId : Id) (nickname : String) (isHost : Bool)
    (playerCount : Nat) : Coro Unit := do
  ask (.connect code participantId nickname isHost)
  withFinally
    (do
      ask (.broadcast code (.participantJoined participantId nickname playerCount))
      ask .receive)
    (leave code participantId nickname playerCount)

def wsRoomEndpoint (O : Outside) (code token : String) : Coro Unit := do
  let some (participantId, nickname, isHost) ← authenticate O code token | return
  ask .accept
  let some snapshot ← snapshotOrClose code | return
  ask (.send (.roomSnapshot snapshot))
  attend code participantId nickname isHost snapshot.playerCount

def fetchRoom (code : String) : Coro Unit := do
  let snapshot ← lift (Rooms.buildSnapshot code)
  ask (.send (.roomSnapshot snapshot))

def jobBody (O : Outside) : Job → Coro Unit
  | .connect _ code token => wsRoomEndpoint O code token
  | .fetchRoom code => fetchRoom code

section

variable (O : Outside) (R : Rooms.Outside)

def endpoint : Machine World Op Op.Res Exn Unit Job Rooms.Decision EnvAction where
  exec := exec R
  env := env
  body := jobBody O

end

abbrev SysState := State World Op Op.Res Exn Unit Job

abbrev SysLabel := Label Rooms.Decision EnvAction

def initial : SysState where
  shared :=
    { room := (Rooms.initial []).shared, members := [], inbox := fun _ => [], hungUp := fun _ => false
      asked := [], sent := [], received := [], admitted := [], stage := fun _ => .outside
      failed := fun _ => false }
  procs := []

/-- The payload of `room.snapshot`: no snapshot of the service has a current question. -/
def payload (s : Rooms.Snapshot) : Client.SnapshotPayload where
  room := ⟨s.code, s.status, s.playerCount⟩
  participants := s.participants.map fun p => ⟨p.1, p.2.1, p.2.2⟩
  matchBlock := s.matchBlock.map fun m => ⟨m.1, some m.2.1, some m.2.2, none⟩
  leaderboard := []

/-- `dispatch`. -/
def dispatch (now : Int) (s : Client.LiveMatchState) : ServerMessage → Client.LiveMatchState
  | .roomSnapshot snapshot => s.applySnapshot now (payload snapshot)
  | .participantJoined p nickname count => s.applyParticipantJoined p nickname count
  | .participantLeft p _ count => s.applyParticipantLeft p count
  | .participantKicked _ _ => s
  | .ofMatch m => s.dispatch now m
  | .answerAccepted i accepted score rt => s.applyAnswerAccepted i accepted score rt
  | .error code message => s.setError ⟨code, some message, none⟩

/-- The messages one after the other, each at its time. -/
def listen (s : Client.LiveMatchState) (heard : List (Int × ServerMessage)) : Client.LiveMatchState :=
  heard.foldl (fun s m => dispatch m.1 s m.2) s

end LiveQuiz.Handshake
