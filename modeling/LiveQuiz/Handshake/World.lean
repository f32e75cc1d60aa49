import LiveQuiz.Rooms.Service
import LiveQuiz.Client.Store

/-! # The world of the room endpoint

A WebSocket is one program of the endpoint, and its number is the `conn_id`. What the
handshake reads of a room is the room service's; a broadcast reaches the sockets of the
sender's replica at once, and those of the others when their listener hands it over.
-/

namespace LiveQuiz.Handshake

open Coroutine

set_option autoImplicit false

/-- The claims of a participant token; `exp` is in seconds. -/
structure Claims where
  type : String
  exp : Int
  roomCode : Option String
  participantId : Option String
  nickname : Option String
  deriving DecidableEq, Repr

/-- The JWT library with the secret of the participant tokens, and Python's `int`. -/
structure Outside where
  verify : String → Option Claims
  parseInt : String → Option Id

structure Member where
  conn : Nat
  replica : Nat
  room : String
  participantId : Id
  nickname : String
  isHost : Bool
  deriving DecidableEq, Repr

inductive ServerMessage where
  | roomSnapshot (snapshot : Rooms.Snapshot)
  | participantJoined (participantId : Id) (nickname : String) (playerCount : Nat)
  | participantLeft (participantId : Id) (nickname : String) (playerCount : Nat)
  | participantKicked (participantId reportId : Id)
  | ofMatch (m : LiveQuiz.Message)
  | answerAccepted (submissionId : Id) (accepted : Bool) (scoreAwarded responseTimeMs : Int)
  | error (code message : String)
  deriving DecidableEq, Repr

/-- `fetchRoom` is the REST mirror of the snapshot. -/
inductive Job where
  | connect (replica : Nat) (code token : String)
  | fetchRoom (code : String)
  deriving DecidableEq, Repr

def Job.replica : Job → Nat
  | .connect r _ _ => r
  | .fetchRoom _ => 0

/-- How far a socket has come: registered, its arrival broadcast, removed, its departure
broadcast. -/
inductive Stage where
  | outside | registered | announced | leaving | gone
  deriving DecidableEq, Repr

/-- `members` are the registries of all replicas, `inbox` what Redis has for a replica's
listener, `hungUp` the sockets whose other end is gone, `asked` the questions that are
started and not closed. The others are history variables: the broadcasts in the order
sent, what the sockets have received and when, every connection ever registered, the stage
of each socket, and the handshakes of which a call has failed. -/
structure World where
  room : Rooms.World
  members : List Member
  inbox : Nat → List (String × ServerMessage)
  hungUp : Nat → Bool
  asked : List (String × Id)
  sent : List (String × ServerMessage)
  received : List (Nat × Micros × ServerMessage)
  admitted : List Member
  stage : Nat → Stage
  failed : Nat → Bool

inductive Op where
  | room (o : Rooms.Op)
  | close (code : Nat) (reason : String)
  | accept
  | send (m : ServerMessage)
  | connect (code : String) (participantId : Id) (nickname : String) (isHost : Bool)
  | broadcast (code : String) (m : ServerMessage)
  | receive
  | disconnect (code : String)
  deriving DecidableEq, Repr

@[reducible] def Op.Res : Op → Type
  | .room o => o.Res
  | _ => Unit

/-- A fault of the fan-out is swallowed in `broadcast_all`. -/
def Op.fallible : Op → Bool
  | .room o => o.fallible
  | .connect _ _ _ _ | .broadcast _ _ | .disconnect _ => false
  | _ => true

namespace World

/-- The room's members on a replica whose sockets still take a message. -/
def listeners (w : World) (r : Nat) (code : String) : List Nat :=
  (w.members.filter fun x => x.replica = r ∧ x.room = code ∧ w.hungUp x.conn = false).map (·.conn)

/-- `_close_kicked`. -/
def closeKicked (w : World) (r : Nat) (code : String) : ServerMessage → World
  | .participantKicked p _ =>
    { w with hungUp := fun c => w.hungUp c ||
        w.members.any fun x => x.conn = c ∧ x.replica = r ∧ x.room = code ∧ x.participantId = p }
  | _ => w

/-- `broadcast_local`. -/
def broadcastLocal (w : World) (r : Nat) (code : String) (m : ServerMessage) : World :=
  { w with received := w.received ++ (w.listeners r code).map (·, w.room.now, m) }.closeKicked r code m

/-- PUBLISH; `own` is the replica whose listener drops its own messages. -/
def publish (w : World) (own : Option Nat) (code : String) (m : ServerMessage) : World :=
  { w with
    sent := w.sent ++ [(code, m)]
    inbox := fun r => if own = some r then w.inbox r else w.inbox r ++ [(code, m)] }

/-- `broadcast_all`; the publish may fail. -/
def broadcastAll (w : World) (r : Nat) (code : String) (m : ServerMessage) (fail : Bool) : World :=
  (if fail then { w with sent := w.sent ++ [(code, m)] } else w.publish (some r) code m).broadcastLocal
    r code m

def setStage (w : World) (pid : Nat) (st : Stage) : World :=
  { w with stage := Function.update w.stage pid st }

def register (w : World) (x : Member) : World :=
  { w.setStage x.conn .registered with
    members := w.members ++ [x]
    admitted := w.admitted ++ [x] }

def remove (w : World) (pid : Nat) : World :=
  { w.setStage pid .leaving with members := w.members.filter (·.conn ≠ pid) }

/-- A call has failed; after the registration that is noted no more. -/
def noteFailure (w : World) (pid : Nat) : World :=
  if w.admitted.any (·.conn = pid) then w else { w with failed := Function.update w.failed pid true }

end World

abbrev Answer (o : Op) := Outcome World Job (Except Exn o.Res)

/-- The stage that a broadcast of the endpoint itself leads to. -/
def ServerMessage.stage : ServerMessage → Stage
  | .participantLeft _ _ _ => .gone
  | _ => .announced

/-- Which tokens and codes a room's own calls take is the room service's. The receive loop
ends when the other end of the socket is gone. -/
def perform (O : Rooms.Outside) (w : World) (t : Job) (pid fresh : Nat) :
    (o : Op) → Rooms.Decision → Option (Answer o)
  | .room o, d => (Rooms.perform O w.room pid fresh o d).map fun a => ⟨{ w with room := a.shared }, a.result, none⟩
  | .close _ _, _ => some ⟨{ w with hungUp := Function.update w.hungUp pid true }, .ok (), none⟩
  | .accept, _ => some ⟨w, .ok (), none⟩
  | .send m, _ =>
    if w.hungUp pid then some ⟨w.noteFailure pid, .error .fault, none⟩
    else some ⟨{ w with received := w.received ++ [(pid, w.room.now, m)] }, .ok (), none⟩
  | .connect code p nickname isHost, _ =>
    some ⟨w.register ⟨pid, t.replica, code, p, nickname, isHost⟩, .ok (), none⟩
  | .broadcast code m, d =>
    some ⟨(w.broadcastAll t.replica code m (d.fault ≠ .none)).setStage pid m.stage, .ok (), none⟩
  | .receive, _ => if w.hungUp pid then some ⟨w, .ok (), none⟩ else none
  | .disconnect _, _ => some ⟨w.remove pid, .ok (), none⟩

def exec (O : Rooms.Outside) (w : World) (t : Job) (pid fresh : Nat) (o : Op) (d : Rooms.Decision) :
    Option (Answer o) :=
  if o.fallible then
    match d.fault with
    | .none => perform O w t pid fresh o d
    | .fail => some ⟨w.noteFailure pid, .error .fault, none⟩
    | .lost =>
      (perform O w t pid fresh o d).map fun a => ⟨a.shared.noteFailure pid, .error .fault, none⟩
  else perform O w t pid fresh o d

/-- Time, what other services do to a room, their broadcasts, the listeners, answers to a
socket's own messages, and sockets that come and go. `ask` and `settle` are the starts and
closes of a question. -/
inductive EnvAction where
  | tick (dt : Nat)
  | createRoom (room : Rooms.Room)
  | join (row : Rooms.Participant)
  | kick (participantId : Id)
  | setStatus (roomId : Id) (status : RoomStatus)
  | putSnapshot (code : String) (snapshot : Option Rooms.Snapshot)
  | ask (code : String) (matchQuestionId : Id)
  | settle (matchQuestionId : Id)
  | broadcast (replica : Nat) (code : String) (m : LiveQuiz.Message) (fail : Bool)
  | publishKicked (code : String) (participantId reportId : Id)
  | deliver (replica : Nat)
  | reply (conn : Nat) (submissionId : Id) (accepted : Bool) (scoreAwarded responseTimeMs : Int)
  | request (job : Job)
  | hangUp (conn : Nat)
  deriving DecidableEq, Repr

def env (w : World) (_fresh : Nat) : EnvAction → Option (World × Option Job)
  | .tick dt => some ({ w with room := { w.room with now := w.room.now + dt } }, none)
  | .createRoom r =>
    if w.room.rooms.all fun r' => r'.id ≠ r.id ∧ r'.code ≠ r.code then
      some ({ w with room := { w.room with rooms := w.room.rooms ++ [r] } }, none)
    else none
  | .join p =>
    if w.room.participants.all (·.id ≠ p.id) then
      some ({ w with room := { w.room with participants := w.room.participants ++ [p] } }, none)
    else none
  | .kick i =>
    some ({ w with
      room := { w.room with
        participants := updateWhere Rooms.Participant.id i (fun p => { p with isKicked := true })
          w.room.participants } }, none)
  | .setStatus i st =>
    some ({ w with
      room := { w.room with
        rooms := updateWhere Rooms.Room.id i (fun r => { r with status := st }) w.room.rooms } }, none)
  | .putSnapshot c s =>
    some ({ w with room := { w.room with snapshot := Function.update w.room.snapshot c s } }, none)
  | .ask c mq => some ({ w with asked := w.asked ++ [(c, mq)] }, none)
  | .settle mq => some ({ w with asked := w.asked.filter (·.2 ≠ mq) }, none)
  | .broadcast r c m fail => some (w.broadcastAll r c (.ofMatch m) fail, none)
  | .publishKicked c p report => some (w.publish none c (.participantKicked p report), none)
  | .deliver r =>
    match w.inbox r with
    | [] => none
    | (c, m) :: rest =>
      some ({ w with inbox := Function.update w.inbox r rest }.broadcastLocal r c m, none)
  | .reply conn i accepted score rt =>
    if w.hungUp conn then none
    else some ({ w with received := w.received ++ [(conn, w.room.now, .answerAccepted i accepted score rt)] }, none)
  | .request j => some (w, some j)
  | .hangUp conn => some ({ w with hungUp := Function.update w.hungUp conn true }, none)

end LiveQuiz.Handshake
