import LiveQuiz.Model.Runtime

/-! # The world of the room service

The tables and the two Redis keys of a room that creating and joining it use. A call is
one statement or one Redis command, the Lua scripts included; a transaction's writes
wait until its COMMIT. All of it is shared by the replicas, so a program's replica plays
no role here.
-/

namespace LiveQuiz.Rooms

open Coroutine

set_option autoImplicit false

structure User where
  id : Id
  displayName : String
  deriving DecidableEq, Repr

structure Quiz where
  id : Id
  ownerId : Id
  isPublished : Bool
  deriving DecidableEq, Repr

/-- The values of the JSON column `settings` are kept as their texts. -/
structure Room where
  id : Id
  code : String
  hostId : Id
  quizSetId : Id
  status : RoomStatus
  maxPlayers : Nat
  settings : List (String × String)
  deriving DecidableEq, Repr

structure Participant where
  id : Id
  roomId : Id
  userId : Option Id
  nickname : String
  joinedAt : Micros
  leftAt : Option Micros
  isKicked : Bool
  deriving DecidableEq, Repr

/-- One finding of `scan_text`. -/
structure Flag where
  reason : String
  matched : String
  details : List (String × String)
  deriving DecidableEq, Repr

/-- A pending row of `moderation_reports`; `details` are the entries of its JSON text. -/
structure ModerationReport where
  id : Id
  roomId : Option Id
  targetUserId : Option Id
  reason : String
  details : List (String × String)
  deriving DecidableEq, Repr

inductive EventPayload where
  | roomCreated (roomId : Id) (code : String) (hostId quizSetId : Id) (maxPlayers : Nat)
      (settings : List (String × String))
  | playerJoined (roomId participantId : Id) (nickname : String) (userId : Option Id)
  | contentFlagged (reportId : Id) (reason context matched source : String)
      (targetUserId roomId : Option Id)
  deriving DecidableEq, Repr

structure OutboxEvent where
  id : Id
  aggregateId : Id
  payload : EventPayload
  occurredAt : Micros
  deriving DecidableEq, Repr

/-- The blob under `room:{code}:state`. A participant is its id, its nickname and
whether it is online; the leaderboard in it stays empty. -/
structure Snapshot where
  code : String
  status : RoomStatus
  playerCount : Nat
  participants : List (Id × String × Bool)
  matchBlock : Option (Id × Nat × RoomStatus)
  deriving DecidableEq, Repr

structure RoomCreate where
  quizSetId : Id
  maxPlayers : Nat
  settings : List (String × String)
  deriving DecidableEq, Repr

inductive Job where
  | createRoom (host : User) (payload : RoomCreate)
  | joinRoom (code nickname ip : String) (user : Option User)
  | buildSnapshot (code : String)
  deriving DecidableEq, Repr

/-- The flushed INSERTs. -/
inductive Write where
  | room (row : Room)
  | participant (row : Participant)
  | event (row : OutboxEvent)
  | report (row : ModerationReport)
  deriving DecidableEq, Repr

/-- What the room service takes from outside: the moderation policy, the signing of
tokens, Postgres' `lower` and the text of a unique violation. -/
structure Outside where
  scanText : String → List Flag
  participantToken : Micros → String → Id → String → String
  lower : String → String
  integrityText : String

/-- `counter` is `room:{code}:participants_count`, `snapshot` is `room:{code}:state`.
`seat` is a history variable: the room whose counter a program has raised for a
participant that it has not committed or given back. -/
structure World where
  quizzes : List Quiz
  rooms : List Room
  participants : List Participant
  outbox : List OutboxEvent
  reports : List ModerationReport
  counter : String → Option Nat
  snapshot : String → Option Snapshot
  tx : Nat → List Write
  seat : Nat → Option String
  now : Micros

inductive Op where
  | rateAcquire (key : String) (capacity cost : Nat)
  | utcnow
  | nextId
  | generateCode
  | getQuiz (id : Id)
  | getByCode (code : String)
  | activeParticipants (roomId : Id)
  | flush (w : Write)
  | commit
  | rollback
  | countInit (code : String) (value : Nat)
  | countAdmit (code : String) (maxPlayers : Nat)
  | countRelease (code : String)
  | readSnapshot (code : String)
  | writeSnapshot (code : String) (snapshot : Snapshot)
  deriving DecidableEq, Repr

/-- The rate limiter answers whether the call is allowed and after how many
milliseconds to try again. -/
@[reducible] def Op.Res : Op → Type
  | .rateAcquire _ _ _ => Bool × Nat
  | .utcnow => Micros
  | .nextId => Id
  | .generateCode => String
  | .getQuiz _ => Option Quiz
  | .getByCode _ => Option Room
  | .activeParticipants _ => List Participant
  | .countAdmit _ _ => Int
  | .countRelease _ => Int
  | .readSnapshot _ => Option Snapshot
  | _ => Unit

def Op.fallible : Op → Bool
  | .utcnow | .generateCode | .rollback => false
  | _ => true

/-- The scheduler's choices for one call: `value` is the drawn id, `text` the drawn
code, `rate` the verdict of the rate limiter, `age` how long ago the transaction began. -/
structure Decision where
  fault : Fault := .none
  value : Nat := 0
  text : String := ""
  rate : Bool × Nat := (true, 0)
  age : Nat := 0
  deriving DecidableEq, Repr

def Write.apply : Write → World → World
  | .room row, w => { w with rooms := w.rooms ++ [row] }
  | .participant row, w => { w with participants := w.participants ++ [row] }
  | .event row, w => { w with outbox := w.outbox ++ [row] }
  | .report row, w => { w with reports := w.reports ++ [row] }

/-- The primary keys, `ux_rooms_code` and `ux_room_participant_nickname`. -/
def Write.collides (lower : String → String) : Write → Write → Bool
  | .room a, .room b => a.id = b.id || a.code = b.code
  | .participant a, .participant b =>
    a.id = b.id || (a.roomId = b.roomId && lower a.nickname = lower b.nickname)
  | .event a, .event b => a.id = b.id
  | .report a, .report b => a.id = b.id
  | _, _ => false

namespace World

/-- The rows of the tables, as the INSERTs that made them. -/
def stored (w : World) : List Write :=
  w.rooms.map .room ++ w.participants.map .participant ++ w.outbox.map .event ++
    w.reports.map .report

def endTx (w : World) (pid : Nat) : World := { w with tx := Function.update w.tx pid [] }

def commit (w : World) (pid : Nat) : World :=
  { (Transactions.applyAll Write.apply (w.tx pid) w).endTx pid with
    seat := Function.update w.seat pid none }

/-- `joined_at` has the server default `now()`, the start of the transaction. -/
def stamp (w : World) (age : Nat) : Write → Write
  | .participant row => .participant { row with joinedAt := w.now - age }
  | wr => wr

/-- Another open transaction has flushed a row with one of the unique keys. -/
def blocked (w : World) (lower : String → String) (pid fresh : Nat) (wr : Write) : Bool :=
  (List.range fresh).any fun q => q ≠ pid && (w.tx q).any (wr.collides lower)

def count (w : World) (code : String) : Nat := (w.counter code).getD 0

def setCount (w : World) (code : String) (n : Nat) : World :=
  { w with counter := Function.update w.counter code (some n) }

def isActive (roomId : Id) (p : Participant) : Bool :=
  p.roomId = roomId ∧ p.leftAt.isNone ∧ p.isKicked = false

/-- The committed participants of a room that have neither left nor been kicked. -/
def active (w : World) (roomId : Id) : List Participant := w.participants.filter (isActive roomId)

end World

abbrev Answer (o : Op) := Outcome World Job (Except Exn o.Res)

def flushWrite (O : Outside) (w : World) (pid fresh : Nat) (wr : Write) (age : Nat) :
    Option (Answer (.flush wr)) :=
  if (w.stored ++ w.tx pid).any (wr.collides O.lower) then some ⟨w, .error .integrity, none⟩
  else if w.blocked O.lower pid fresh wr then none
  else some ⟨{ w with tx := Function.update w.tx pid (w.tx pid ++ [w.stamp age wr]) }, .ok (), none⟩

/-- `CAPACITY_ADMIT_LUA`. -/
def capacityAdmit (w : World) (pid : Nat) (code : String) (maxPlayers : Nat) :
    Answer (.countAdmit code maxPlayers) :=
  if maxPlayers ≤ w.count code then ⟨w, .ok (-1), none⟩
  else ⟨{ w.setCount code (w.count code + 1) with seat := Function.update w.seat pid (some code) },
    .ok (w.count code + 1), none⟩

/-- `CAPACITY_RELEASE_LUA`. -/
def release (w : World) (pid : Nat) (code : String) : Answer (.countRelease code) :=
  if w.count code ≤ 0 then ⟨{ w with seat := Function.update w.seat pid none }, .ok 0, none⟩
  else ⟨{ w.setCount code (w.count code - 1) with seat := Function.update w.seat pid none },
    .ok (w.count code - 1 : Nat), none⟩

def perform (O : Outside) (w : World) (pid fresh : Nat) : (o : Op) → Decision → Option (Answer o)
  | .rateAcquire _ _ _, d => some ⟨w, .ok d.rate, none⟩
  | .utcnow, _ => some ⟨w, .ok w.now, none⟩
  | .nextId, d => some ⟨w, .ok d.value, none⟩
  | .generateCode, d => some ⟨w, .ok d.text, none⟩
  | .getQuiz i, _ => some ⟨w, .ok (w.quizzes.find? (·.id = i)), none⟩
  | .getByCode c, _ => some ⟨w, .ok (w.rooms.find? (·.code = c)), none⟩
  | .activeParticipants i, _ => some ⟨w, .ok (sortBy Participant.joinedAt (w.active i)), none⟩
  | .flush wr, d => flushWrite O w pid fresh wr d.age
  | .commit, _ => some ⟨w.commit pid, .ok (), none⟩
  | .rollback, _ => some ⟨w.endTx pid, .ok (), none⟩
  | .countInit c n, _ => some ⟨w.setCount c n, .ok (), none⟩
  | .countAdmit c m, _ => some (capacityAdmit w pid c m)
  | .countRelease c, _ => some (release w pid c)
  | .readSnapshot c, _ => some ⟨w, .ok (w.snapshot c), none⟩
  | .writeSnapshot c s, _ =>
    some ⟨{ w with snapshot := Function.update w.snapshot c (some s) }, .ok (), none⟩

def exec (O : Outside) (w : World) (_ : Job) (pid fresh : Nat) (o : Op) (d : Decision) :
    Option (Answer o) :=
  match d.fault with
  | .none => perform O w pid fresh o d
  | .fail => if o.fallible then some ⟨w, .error .fault, none⟩ else none
  | .lost =>
    if o.fallible then
      (perform O w pid fresh o d).map fun a => { a with result := .error .fault }
    else none

/-- The requests, the clock, and what other services do to a room: they move its status,
kick participants, write and drop its snapshot, and edit quizzes. -/
inductive EnvAction where
  | tick (dt : Nat)
  | request (job : Job)
  | setStatus (roomId : Id) (status : RoomStatus)
  | kick (participantId : Id)
  | putSnapshot (code : String) (snapshot : Option Snapshot)
  | putQuiz (quiz : Quiz)
  deriving DecidableEq, Repr

def env (w : World) (_fresh : Nat) : EnvAction → Option (World × Option Job)
  | .tick dt => some ({ w with now := w.now + dt }, none)
  | .request j => some (w, some j)
  | .setStatus i st =>
    some ({ w with rooms := updateWhere Room.id i (fun r => { r with status := st }) w.rooms }, none)
  | .kick i =>
    some ({ w with
      participants := updateWhere Participant.id i (fun p => { p with isKicked := true })
        w.participants }, none)
  | .putSnapshot c s => some ({ w with snapshot := Function.update w.snapshot c s }, none)
  | .putQuiz q => some ({ w with quizzes := w.quizzes.filter (·.id ≠ q.id) ++ [q] }, none)

end LiveQuiz.Rooms
