import LiveQuiz.Rooms.Service

/-! # The world of everything that touches a room

The room service's world, with what the host controls and the moderation add to it: the
`matches` table, transactions that update rows, and the row locks of FOR UPDATE. The
requests of all services are programs here, so their calls interleave in every order. The
questions, timers and leaderboards of a match have no part in it.
-/

namespace LiveQuiz.Lobby

open Coroutine

set_option autoImplicit false

structure MatchRow where
  id : Id
  roomId : Id
  status : RoomStatus
  deriving DecidableEq, Repr

/-- The flushed statements of the host controls and of a mute. -/
inductive HostWrite where
  | insertMatch (row : MatchRow)
  | setMatch (id : Id) (status : RoomStatus)
  | setRoom (id : Id) (status : RoomStatus)
  | kick (participantId : Id)
  deriving DecidableEq, Repr

inductive Job where
  | room (job : Rooms.Job)
  | startMatch (hostId : Id) (code : String)
  | pauseMatch (hostId : Id) (code : String)
  | resumeMatch (hostId : Id) (code : String)
  | endMatch (matchId : Id) (hostId : Option Id)
  | mute (roomId targetUserId : Option Id)
  deriving DecidableEq, Repr

/-- What the history keeps: the commit of a participant and of a start, and their writes
of the snapshot. -/
inductive Event where
  | joined (code : String)
  | started (code : String)
  | wroteLobby (code : String)
  | wroteRunning (code : String)
  deriving DecidableEq, Repr

/-- A program on its way to write the snapshot of a room: the row it goes by, whether its
own change of the room is committed, and the snapshot once it has read what goes into it. -/
structure Stage where
  code : String
  roomId : Id
  status : RoomStatus
  committed : Bool
  view : Option Rooms.Snapshot
  deriving DecidableEq, Repr

/-- The transactions are those of the host requests. `stage` and `log` are history variables. -/
structure World extends Transactions.Book (List HostWrite) RowRef where
  room : Rooms.World
  matches' : List MatchRow
  stage : Nat → Option Stage
  log : List Event

inductive Op where
  | room (o : Rooms.Op)
  | lockRoom (code : String)
  | lockRoomById (id : Id)
  | lockMatch (id : Id)
  | matchOfRoom (roomId : Id)
  | questionCount (quizSetId : Id)
  | muteTargets (roomId targetUserId : Option Id)
  | flush (ws : List HostWrite)
  | commit
  | rollback
  deriving DecidableEq, Repr

@[reducible] def Op.Res : Op → Type
  | .room o => o.Res
  | .lockRoom _ => Option Rooms.Room
  | .lockRoomById _ => Option Rooms.Room
  | .lockMatch _ => Option MatchRow
  | .matchOfRoom _ => Option MatchRow
  | .questionCount _ => Nat
  | .muteTargets _ _ => List Id
  | _ => Unit

def Op.fallible : Op → Bool
  | .room o => o.fallible
  | .rollback => false
  | _ => true

def HostWrite.apply : HostWrite → World → World
  | .insertMatch row, w => { w with matches' := w.matches' ++ [row] }
  | .setMatch i st, w =>
    { w with matches' := updateWhere MatchRow.id i (fun m => { m with status := st }) w.matches' }
  | .setRoom i st, w =>
    { w with
      room := { w.room with
        rooms := updateWhere Rooms.Room.id i (fun r => { r with status := st }) w.room.rooms } }
  | .kick i, w =>
    { w with
      room := { w.room with
        participants := updateWhere Rooms.Participant.id i (fun p => { p with isKicked := true })
          w.room.participants } }

/-- The row a statement locks. -/
def HostWrite.target : HostWrite → Option RowRef
  | .setMatch i _ => some (.match' i)
  | .setRoom i _ => some (.room i)
  | _ => none

/-- `matches.room_id` is unique. -/
def HostWrite.collides (rows : List MatchRow) : HostWrite → Bool
  | .insertMatch row => rows.any fun m => m.id = row.id || m.roomId = row.roomId
  | _ => false

def HostWrite.room? : HostWrite → Option (Id × RoomStatus)
  | .setRoom i st => some (i, st)
  | _ => none

namespace World

def roomAt (w : World) (code : String) : Option Rooms.Room := w.room.rooms.find? (·.code = code)

def roomOf (w : World) (id : Id) : Option Rooms.Room := w.room.rooms.find? (·.id = id)

def acquire (w : World) (pid : Nat) (ref : RowRef) : World :=
  { w with toBook := w.take pid (· = ref) }

def setStage (w : World) (pid : Nat) (st : Option Stage) : World :=
  { w with stage := Function.update w.stage pid st }

def endTx (w : World) (pid : Nat) : World :=
  { w with toBook := w.toBook.endTx [] pid }

end World

/-- The room whose snapshot a host program is going to write after its commit. -/
def Job.staged (w : World) (ws : List HostWrite) : Job → Option Stage
  | .startMatch _ _ | .endMatch _ _ =>
    (ws.findSome? HostWrite.room?).bind fun (i, st) =>
      (w.roomOf i).map fun r => ⟨r.code, i, st, true, none⟩
  | _ => none

def Job.announces (ws : List HostWrite) : Job → List Event
  | .startMatch _ code => if (ws.findSome? HostWrite.room?).isSome then [.started code] else []
  | _ => []

def World.commit (w : World) (job : Job) (pid : Nat) : World :=
  let v := (Transactions.applyAll HostWrite.apply (w.tx pid) w).endTx pid
  { v.setStage pid (job.staged w (w.tx pid)) with
    log := w.log ++ job.announces (w.tx pid) }

/-- A join goes on from a room in its lobby, a rebuild from any. -/
def Job.visits (r : Rooms.Room) : Job → Bool
  | .room (.joinRoom _ _ _ _) => r.status = .lobby
  | .room (.buildSnapshot _) => true
  | _ => false

/-- The stage after a COMMIT of the room service: a new room is going to get its snapshot,
and a join its next one. -/
def stageAfter (ws : List Rooms.Write) (st : Option Stage) : Option Stage :=
  match ws.findSome? fun | .room a => some a | _ => none with
  | some a => some ⟨a.code, a.id, a.status, true, none⟩
  | none => st.map fun s => { s with committed := true }

def Stage.counts (rows : List Rooms.Participant) (st : Stage) : Stage :=
  { st with view := some ⟨st.code, st.status, rows.length, rows.map Rooms.participantPayload, none⟩ }

def Stage.reads (s : Rooms.Snapshot) (st : Stage) : Stage :=
  { st with view := some { s with status := st.status } }

def Job.joins (ws : List Rooms.Write) : Job → List Event
  | .room (.joinRoom code _ _ _) =>
    if ws.any fun | .participant _ => true | _ => false then [.joined code] else []
  | _ => []

def Job.writes (code : String) (s : Rooms.Snapshot) : Job → List Event
  | .room (.joinRoom _ _ _ _) => if s.status = .lobby then [.wroteLobby code] else []
  | .startMatch _ _ => if s.status = .running then [.wroteRunning code] else []
  | _ => []

/-- The history variables after a call of the room service's kind. -/
def World.observe (w : World) (job : Job) (pid : Nat) : (o : Rooms.Op) → Except Exn o.Res → World
  | .getByCode c, .ok (some r) =>
    if job.visits r then w.setStage pid (some ⟨c, r.id, r.status, false, none⟩) else w
  | .activeParticipants _, .ok rows => w.setStage pid ((w.stage pid).map (Stage.counts rows))
  | .commit, _ =>
    { w.setStage pid (stageAfter (w.room.tx pid) (w.stage pid)) with
      log := w.log ++ job.joins (w.room.tx pid) }
  | .rollback, _ => w.setStage pid none
  | .readSnapshot _, .ok none => w.setStage pid none
  | .readSnapshot _, .ok (some s) => w.setStage pid ((w.stage pid).map (Stage.reads s))
  | .writeSnapshot c s, _ => { w.setStage pid none with log := w.log ++ job.writes c s }
  | _, _ => w

abbrev Answer (o : Op) := Outcome World Job (Except Exn o.Res)

def lockRow {ρ : Type} (w : World) (pid : Nat) (ref : ρ → RowRef) : Option ρ →
    Option (World × Option ρ)
  | none => some (w, none)
  | some r => if w.heldByOther pid (ref r) then none else some (w.acquire pid (ref r), some r)

/-- A mute hits the active participants of the room, of the user, or of both. -/
def World.targets (w : World) (roomId userId : Option Id) : List Id :=
  (w.room.participants.filter fun p => p.leftAt.isNone ∧ p.isKicked = false ∧
    roomId.all (· = p.roomId) ∧ userId.all (p.userId = some ·)).map (·.id)

/-- `d.value` is also the number of questions of a quiz. -/
def perform (O : Rooms.Outside) (w : World) (job : Job) (pid fresh : Nat) :
    (o : Op) → Rooms.Decision → Option (Answer o)
  | .room o, d => (Rooms.perform O w.room pid fresh o d).map fun a =>
    ⟨{ w.observe job pid o a.result with room := a.shared }, a.result, none⟩
  | .lockRoom c, _ => (lockRow w pid (fun r => .room r.id) (w.roomAt c)).map fun a => ⟨a.1, .ok a.2, none⟩
  | .lockRoomById i, _ =>
    (lockRow w pid (fun r => .room r.id) (w.roomOf i)).map fun a => ⟨a.1, .ok a.2, none⟩
  | .lockMatch i, _ =>
    (lockRow w pid (fun m => .match' m.id) (w.matches'.find? (·.id = i))).map fun a =>
      ⟨a.1, .ok a.2, none⟩
  | .matchOfRoom i, _ => some ⟨w, .ok (w.matches'.find? (·.roomId = i)), none⟩
  | .questionCount _, d => some ⟨w, .ok d.value, none⟩
  | .muteTargets r u, _ => some ⟨w, .ok (w.targets r u), none⟩
  | .flush ws, _ =>
    if ws.any (·.collides w.matches') then some ⟨w, .error .integrity, none⟩
    else if ws.any fun wr => wr.target.any (w.heldByOther pid) then none
    else some ⟨{ w with toBook := (w.take pid fun ref => ws.any (·.target = some ref)).append pid ws }, .ok (), none⟩
  | .commit, _ => some ⟨w.commit job pid, .ok (), none⟩
  | .rollback, _ => some ⟨(w.endTx pid).setStage pid none, .ok (), none⟩

/-- After a fault a program gives up. -/
def exec (O : Rooms.Outside) (w : World) (job : Job) (pid fresh : Nat) (o : Op) (d : Rooms.Decision) :
    Option (Answer o) :=
  match d.fault with
  | .none => perform O w job pid fresh o d
  | .fail => if o.fallible then some ⟨w.setStage pid none, .error .fault, none⟩ else none
  | .lost =>
    if o.fallible then
      (perform O w job pid fresh o d).map fun a =>
        ⟨a.shared.setStage pid none, .error .fault, none⟩
    else none

/-- The requests, the clock, edited quizzes, and a snapshot that expires. -/
inductive EnvAction where
  | tick (dt : Nat)
  | request (job : Job)
  | putQuiz (quiz : Rooms.Quiz)
  | expire (code : String)
  deriving DecidableEq, Repr

def env (w : World) (_fresh : Nat) : EnvAction → Option (World × Option Job)
  | .tick dt => some ({ w with room := { w.room with now := w.room.now + dt } }, none)
  | .request j => some (w, some j)
  | .putQuiz q =>
    some ({ w with room := { w.room with quizzes := w.room.quizzes.filter (·.id ≠ q.id) ++ [q] } }, none)
  | .expire c =>
    some ({ w with room := { w.room with snapshot := Function.update w.room.snapshot c none } }, none)

end LiveQuiz.Lobby
