import LiveQuiz.Model.Quiz
import LiveQuiz.Model.Redis
import LiveQuiz.Lib.Machine

/-! # The world the services run in

Postgres under READ COMMITTED with row locks, Redis, the replicas with their
asyncio tasks and schedulers, and the clock. One call is one statement, one
command or one piece of Python between two awaits. A transaction's writes wait
in `Tx` and reach the tables at COMMIT, all at once; its row locks are held to
the end of the transaction.
-/

namespace LiveQuiz

open Coroutine

set_option autoImplicit false

/-- `cancelled` is a BaseException, which `except Exception` lets pass. `crashed`
ends a coroutine whose process is gone, and no handler sees it. -/
inductive Exn where
  | auth (code : String) (status : Nat) (message : String) (details : List (String × String))
  | integrity
  | fault
  | cancelled
  | crashed
  deriving DecidableEq, Repr

/-- An `AuthError`, whatever the program calls. -/
def raise {O : Type} {R : O → Type} {α : Type} (code : String) (status : Nat) (message : String)
    (details : List (String × String) := []) : Prog O R Exn α :=
  throw (.auth code status message details)

structure AnswerSubmitRequest where
  matchQuestionId : Id
  selectedOptionIds : List Id
  deriving DecidableEq, Repr

/-- The coroutines that run as requests or as asyncio tasks. -/
inductive Job where
  | startMatch (hostId : Id) (code : String)
  | pauseMatch (hostId : Id) (code : String)
  | resumeMatch (hostId : Id) (code : String)
  | endMatch (matchId : Id) (hostId : Option Id)
  | submitAnswer (matchId participantId : Id) (payload : AnswerSubmitRequest) (requestId : String)
  | recoverRunningMatches
  | armQuestion (matchId : Id) (position : Nat)
  | closeQuestion (matchId : Id) (position : Nat)
  | closeQuestionAfter (matchId : Id) (position : Nat) (delay : Micros)
  | gapThenArm (matchId : Id) (position : Nat) (sleep : Micros)
  deriving DecidableEq, Repr

structure Task where
  replica : Nat
  job : Job
  deriving DecidableEq, Repr

/-- An open transaction: what it has flushed. `aggregated` is a history variable,
the submissions its aggregation SELECT returned. -/
structure Tx where
  writes : List Write := []
  aggregated : Option (Id × List AnswerSubmission) := none

inductive ReplicaPhase where
  | off | up | crashed
  deriving DecidableEq, Repr

/-- `active` is `MatchScheduler._tasks` of each replica, `cancelling` the tasks
with a cancellation not yet delivered. `wal` and `requests` are history
variables: the commits and the received requests in order. -/
structure World extends Transactions.Book Tx RowRef where
  db : Db
  redis : Redis
  now : Micros
  phase : Nat → ReplicaPhase
  active : Nat → Id → Option Nat
  cancelling : Nat → Bool
  wal : List (Nat × List Write)
  requests : List Job
  sent : List (String × Message)

inductive Op where
  | utcnow
  | nextId
  | sleepUntil (t : Micros)
  | select (q : Query)
  | selectForUpdate (q : LockQuery)
  | flush (ws : List Write)
  | commit
  | rollback
  | redis (c : RedisCmd)
  | broadcast (code : String) (message : Message)
  | createTask (job : Job)
  | setActive (matchId : Id) (job : Job)
  | cancelActive (matchId : Id)
  deriving DecidableEq, Repr

@[reducible] def Op.Res : Op → Type
  | .utcnow => Micros
  | .nextId => Id
  | .select q => q.Rows
  | .selectForUpdate q => Option q.Row
  | .redis c => c.Reply
  | _ => Unit

/-- The calls with a real suspension point, where a cancellation is delivered. -/
def Op.suspends : Op → Bool
  | .sleepUntil _ | .select _ | .selectForUpdate _ | .flush _ | .commit | .redis _ => true
  | .broadcast _ _ => true
  | _ => false

/-- The calls that may raise on their own. A lost connection at ROLLBACK rolls
back as well. -/
def Op.fallible : Op → Bool
  | .nextId => true
  | .sleepUntil _ => false
  | o => o.suspends

/-- `fail`: the call raises and has no effect. `lost`: it takes effect and the
reply is lost, so it raises all the same. -/
inductive Fault where
  | none | fail | lost
  deriving DecidableEq, Repr

/-- The scheduler's choices for one call; `value` is what the id generator draws. -/
structure Decision where
  fault : Fault := .none
  value : Nat := 0
  deriving DecidableEq, Repr

namespace World

/-- What a statement of `pid` sees: the committed rows and its own writes. -/
def view (w : World) (pid : Nat) : Db := applyAll (w.tx pid).writes w.db

def free (w : World) (r : RowRef) (pid : Nat) : Bool := !w.heldByOther pid r

def acquire (w : World) (r : RowRef) (pid : Nat) : World :=
  { w with lock := Function.update w.lock r (some pid) }

/-- The end of a transaction: its writes are gone or applied, its locks free. -/
def endTx (w : World) (pid : Nat) : World :=
  { w with toBook := w.toBook.endTx {} pid }

def commit (w : World) (pid : Nat) : World :=
  { w.endTx pid with
    db := applyAll (w.tx pid).writes w.db
    wal := w.wal ++ [(pid, (w.tx pid).writes)] }

def addWrites (w : World) (pid : Nat) (ws : List Write) : World :=
  { w with tx := Function.update w.tx pid { w.tx pid with writes := (w.tx pid).writes ++ ws } }

def acquireAll (w : World) (pid : Nat) (ws : List Write) : World :=
  (ws.filterMap Write.target).foldl (fun w r => w.acquire r pid) w

def requestCancel (w : World) : Option Nat → World
  | none => w
  | some pid => { w with cancelling := Function.update w.cancelling pid true }

def delivered (w : World) (pid : Nat) : World :=
  { w with cancelling := Function.update w.cancelling pid false }

/-- A statement waits for the row locks of its UPDATEs, and for an open
transaction that has flushed a row with one of its unique keys. -/
def blocked (w : World) (pid fresh : Nat) (ws : List Write) : Bool :=
  ws.any fun wr =>
    wr.target.any (fun r => !w.free r pid) ||
    (List.range fresh).any fun q => q ≠ pid && (w.tx q).writes.any (wr.collidesWith ·)

def noteRead (w : World) (pid : Nat) : Query → World
  | .submissionsOfMatch m =>
    { w with
      tx := Function.update w.tx pid
        { w.tx pid with aggregated := some (m, Query.run (w.view pid) (.submissionsOfMatch m)) } }
  | _ => w

end World

abbrev Answer (o : Op) := Outcome World Task (Except Exn o.Res)

/-- Some INSERT of the flush finds a row with one of its unique keys, in the
tables or earlier in the flush. -/
def violates : List Write → Db → Bool
  | [], _ => false
  | wr :: ws, db => wr.collides db || violates ws (wr.apply db)

/-- One flush of the session: its INSERTs and UPDATEs in the unit-of-work order. -/
def flushWrites (w : World) (pid fresh : Nat) (ws : List Write) : Option (Answer (.flush ws)) :=
  if violates ws (w.view pid) then some ⟨w, .error .integrity, none⟩
  else if w.blocked pid fresh ws then none
  else some ⟨(w.acquireAll pid ws).addWrites pid ws, .ok (), none⟩

def lockRow (w : World) (pid : Nat) (q : LockQuery) : Option (Answer (.selectForUpdate q)) :=
  match q.find (w.view pid) with
  | none => some ⟨w, .ok none, none⟩
  | some row =>
    if w.free (q.ref row) pid then some ⟨w.acquire (q.ref row) pid, .ok (some row), none⟩ else none

/-- The effect and reply of a call that goes through, or `none` while it waits.
`setActive` is `create_task` and `set_active`, with no suspension point between. -/
def perform (w : World) (t : Task) (pid fresh : Nat) : (o : Op) → Decision → Option (Answer o)
  | .utcnow, _ => some ⟨w, .ok w.now, none⟩
  | .nextId, d => some ⟨w, .ok d.value, none⟩
  | .sleepUntil u, _ => if u ≤ w.now then some ⟨w, .ok (), none⟩ else none
  | .select q, _ => some ⟨w.noteRead pid q, .ok (q.run (w.view pid)), none⟩
  | .selectForUpdate q, _ => lockRow w pid q
  | .flush ws, _ => flushWrites w pid fresh ws
  | .commit, _ => some ⟨w.commit pid, .ok (), none⟩
  | .rollback, _ => some ⟨w.endTx pid, .ok (), none⟩
  | .redis c, _ => some ⟨{ w with redis := (c.run w.redis).1 }, .ok (c.run w.redis).2, none⟩
  | .broadcast code m, _ => some ⟨{ w with sent := w.sent ++ [(code, m)] }, .ok (), none⟩
  | .createTask j, _ => some ⟨w, .ok (), some ⟨t.replica, j⟩⟩
  | .setActive m j, _ =>
    some ⟨({ w with
        active := Function.update w.active t.replica
          (Function.update (w.active t.replica) m (some fresh)) }).requestCancel
          (w.active t.replica m), .ok (), some ⟨t.replica, j⟩⟩
  | .cancelActive m, _ =>
    some ⟨({ w with
        active := Function.update w.active t.replica
          (Function.update (w.active t.replica) m none) }).requestCancel
          (w.active t.replica m), .ok (), none⟩

def raising {o : Op} (e : Exn) (a : Answer o) : Answer o := { a with result := .error e }

/-- One call under a decision. A task with a pending cancellation gets it at its
next suspension point; on a crashed replica every call ends the transaction. -/
def exec (w : World) (t : Task) (pid fresh : Nat) (o : Op) (d : Decision) : Option (Answer o) :=
  match w.phase t.replica with
  | .off => none
  | .crashed => some ⟨w.endTx pid, .error .crashed, none⟩
  | .up =>
    if o.suspends && w.cancelling pid then
      match d.fault with
      | .lost => (perform w t pid fresh o d).map fun a => ⟨a.shared.delivered pid, .error .cancelled, a.spawned⟩
      | _ => some ⟨w.delivered pid, .error .cancelled, none⟩
    else
      match d.fault with
      | .none => perform w t pid fresh o d
      | .fail => if o.fallible then some ⟨w, .error .fault, none⟩ else none
      | .lost => if o.fallible then (perform w t pid fresh o d).map (raising .fault) else none

/-- What happens outside the modelled coroutines: time, requests, replicas
coming up and crashing, expiring keys, and other services' commits. -/
inductive EnvAction where
  | tick (dt : Nat)
  | boot (replica : Nat)
  | request (replica : Nat) (job : Job)
  | crash (replica : Nat)
  | expireIdem (requestId : String)
  | expirePause (matchId : Id)
  | edit (e : QuizEdit)
  | createRoom (room : Room)
  | join (participant : RoomParticipant)
  | kick (participantId : Id)
  deriving DecidableEq, Repr

/-- The jobs that arrive as HTTP or WebSocket requests. -/
def Job.isRequest : Job → Bool
  | .startMatch _ _ | .pauseMatch _ _ | .resumeMatch _ _ | .endMatch _ _ => true
  | .submitAnswer _ _ _ _ => true
  | _ => false

def env (w : World) (_fresh : Nat) : EnvAction → Option (World × Option Task)
  | .tick dt => some ({ w with now := w.now + dt }, none)
  | .boot r =>
    if w.phase r = .off then
      some ({ w with phase := Function.update w.phase r .up }, some ⟨r, .recoverRunningMatches⟩)
    else none
  | .request r j =>
    if w.phase r = .up ∧ j.isRequest then
      some ({ w with requests := w.requests ++ [j] }, some ⟨r, j⟩)
    else none
  | .crash r =>
    if w.phase r = .up then some ({ w with phase := Function.update w.phase r .crashed }, none)
    else none
  | .expireIdem k =>
    some ({ w with redis := { w.redis with idem := Function.update w.redis.idem k none } }, none)
  | .expirePause m =>
    some ({ w with redis := { w.redis with pause := Function.update w.redis.pause m none } }, none)
  | .edit e => (e.apply w.db).map fun db => ({ w with db := db }, none)
  | .createRoom r =>
    if r.status = .lobby ∧ w.db.rooms.all (fun r' => r'.id ≠ r.id ∧ r'.code ≠ r.code) then
      some ({ w with db := { w.db with rooms := w.db.rooms ++ [r] } }, none)
    else none
  | .join p =>
    if w.db.participants.all (·.id ≠ p.id) then
      some ({ w with db := { w.db with participants := w.db.participants ++ [p] } }, none)
    else none
  | .kick i =>
    some ({ w with
      db := { w.db with
        participants := updateWhere RoomParticipant.id i (fun p => { p with isKicked := true })
          w.db.participants } }, none)

end LiveQuiz
