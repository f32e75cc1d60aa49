import LiveQuiz.Model.Runtime
import LiveQuiz.Lib.Rounding

/-! # Sessions and handlers

The calls under the names the services use, and the context managers and
exception handlers around them.
-/

namespace LiveQuiz

open Coroutine

set_option autoImplicit false

abbrev Coro := Prog Op Op.Res Exn

abbrev ask (o : Op) : Coro o.Res := Prog.perform o

abbrev utcnow : Coro Micros := ask .utcnow

abbrev nextId : Coro Id := ask .nextId

abbrev select (q : Query) : Coro q.Rows := ask (.select q)

abbrev selectForUpdate (q : LockQuery) : Coro (Option q.Row) := ask (.selectForUpdate q)

abbrev flush (ws : List Write) : Coro Unit := ask (.flush ws)

abbrev commit : Coro Unit := ask .commit

abbrev rollback : Coro Unit := ask .rollback

abbrev redis (c : RedisCmd) : Coro c.Reply := ask (.redis c)

abbrev createTask (j : Job) : Coro Unit := ask (.createTask j)

abbrev setActive (matchId : Id) (j : Job) : Coro Unit := ask (.setActive matchId j)

abbrev cancelActive (matchId : Id) : Coro Unit := ask (.cancelActive matchId)

/-- `async with sm() as session`: leaving by an exception rolls back. -/
def withSession {α : Type} (body : Coro α) : Coro α := body.session .rollback

/-- `async with session.begin()`: leaving normally commits. -/
def inTransaction {α : Type} (body : Coro α) : Coro α :=
  withSession do
    let a ← body
    commit
    return a

/-- `except Exception: return default`. -/
def exceptException {α : Type} (p : Coro α) (default : α) : Coro α :=
  p.handle fun
    | .cancelled => throw .cancelled
    | .crashed => throw .crashed
    | _ => return default

/-- `_broadcast`: the fan-out is best effort. The message id is drawn before it. -/
def broadcast (code : String) (message : Message) : Coro Unit := do
  let _ ← nextId
  exceptException (ask (.broadcast code message)) ()

/-- `asyncio.sleep`, or `False` where the sleep was cancelled. -/
def sleepUncancelled (delay : Micros) : Coro Bool := do
  let now ← utcnow
  Prog.handle (do
      let _ ← ask (.sleepUntil (now + delay))
      return true) fun
    | .cancelled => return false
    | e => throw e

/-- `int(td.total_seconds() * 1000)`: a division and a multiplication of floats. -/
def toMillis (d : Micros) : Int :=
  truncate (nearestDouble (nearestDouble ((d : Int) / 1000000) * 1000))

def ofMillis (ms : Int) : Micros := 1000 * ms

def ofSeconds (s : Int) : Micros := 1000000 * s

def RoomStatus.value : RoomStatus → String
  | .lobby => "lobby"
  | .running => "running"
  | .paused => "paused"
  | .completed => "completed"
  | .cancelled => "cancelled"

/-- A row of a second SELECT in one session is the object the identity map
already holds, with the attributes of the first load. -/
def identityMapped (loaded : List MatchQuestion) (row : MatchQuestion) : MatchQuestion :=
  (loaded.find? (·.id = row.id)).getD row

end LiveQuiz
