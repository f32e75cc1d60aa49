import LiveQuiz.Lib.Machine
import LiveQuiz.Lib.Transactions
import LiveQuiz.Model.Types
import Mathlib.Data.List.Sort
import Mathlib.Data.Rat.Floor
import Mathlib.Logic.Function.Basic

/-! # The world of the outbox publisher

The `outbox_events` table under READ COMMITTED with row locks, the broker, and the
memory of each publisher process. One call is one statement, one send, or one piece of
Python between two awaits. A transaction's updates wait in `Tx` and reach the table at
COMMIT, all at once.
-/

namespace LiveQuiz.Publisher

open Coroutine

set_option autoImplicit false

structure OutboxRow where
  id : Id
  aggregateType : String
  aggregateId : Id
  eventType : String
  payload : String
  occurredAt : Micros
  publishedAt : Option Micros
  publishAttempts : Nat
  deriving DecidableEq, Repr

/-- The on-wire envelope; ids and times are rendered as strings there. -/
structure Envelope where
  eventId : Id
  eventType : String
  aggregateType : String
  aggregateId : Id
  occurredAt : Micros
  producer : String
  schemaVersion : Nat
  payload : String
  deriving DecidableEq, Repr

/-- `kafka` is a KafkaError, `fault` any other Exception. `cancelled` is a
BaseException, which `except Exception` lets pass. -/
inductive Exn where
  | kafka | fault | cancelled
  deriving DecidableEq, Repr

/-- The UPDATE statements. -/
inductive Write where
  | markPublished (ids : List Id) (at' : Micros)
  | incrementAttempts (id : Id)
  deriving DecidableEq, Repr

/-- An open transaction: when it began, the ids its SELECT returned, its updates. -/
structure Tx where
  begunAt : Micros
  selected : List Id := []
  writes : List Write := []
  deriving DecidableEq, Repr

/-- What the history keeps: the acknowledged sends, the sends that raised, and the
sleeps that ran their time. -/
inductive Event where
  | acked (topic : String) (envelope : Envelope)
  | refused (topic : String) (envelope : Envelope)
  | slept (seconds : ℚ)
  deriving DecidableEq, Repr

/-- `process` is the program each replica runs, `backoff` its dict of delays in seconds,
`dead` the programs of processes that are gone. `log` is a history variable: the events
of each replica in order. -/
structure World extends Transactions.Book (Option Tx) Id where
  table : List OutboxRow
  now : Micros
  process : Nat → Option Nat
  dead : List Nat
  stopping : Nat → Bool
  backoff : Nat → Id → Option ℚ
  log : List (Nat × Event)

inductive Op where
  | stopRequested
  | begin'
  | selectBatch (limit : Nat)
  | sendAndWait (topic : String) (envelope : Envelope)
  | incrementAttempts (id : Id)
  | markPublished (ids : List Id)
  | commit
  | rollback
  | popBackoff (id : Id)
  | doubleBackoff (id : Id)
  | backoffs
  | sleep (seconds : ℚ)
  | waitStop (seconds : ℚ)
  | loop
  | exit
  deriving DecidableEq, Repr

@[reducible] def Op.Res : Op → Type
  | .stopRequested => Bool
  | .selectBatch _ => List OutboxRow
  | .backoffs => Option ℚ
  | _ => Unit

/-- The exceptions a call may raise: a KafkaError comes from a send only, and a sleep
can only be cancelled. -/
def Op.raises : Op → Exn → Bool
  | .sendAndWait _ _, _ => true
  | .begin', e | .selectBatch _, e | .incrementAttempts _, e | .markPublished _, e => e ≠ .kafka
  | .commit, e | .rollback, e => e ≠ .kafka
  | .sleep _, e | .waitStop _, e => e = .cancelled
  | _, _ => false

/-- `fail`: the call raises and has no effect. `lost`: it takes effect and the reply is
lost, so it raises all the same. -/
inductive Fault where
  | none
  | fail (e : Exn)
  | lost (e : Exn)
  deriving DecidableEq, Repr

/-- `order` settles the order of rows with equal `occurred_at`. -/
structure Decision where
  fault : Fault := .none
  order : List Id := []
  deriving DecidableEq, Repr

def backoffBaseS : ℚ := 1 / 4

def backoffMaxS : ℚ := 30

def OutboxRow.mark (at' : Micros) (r : OutboxRow) : OutboxRow := { r with publishedAt := some at' }

def OutboxRow.increment (r : OutboxRow) : OutboxRow :=
  { r with publishAttempts := r.publishAttempts + 1 }

/-- `UPDATE ... WHERE p`. -/
def updated (p : OutboxRow → Bool) (f : OutboxRow → OutboxRow) (table : List OutboxRow) :
    List OutboxRow :=
  table.map fun r => if p r then f r else r

def Write.apply : Write → List OutboxRow → List OutboxRow
  | .markPublished ids at', table => updated (fun r => ids.contains r.id) (·.mark at') table
  | .incrementAttempts i, table => updated (fun r => r.id = i) OutboxRow.increment table

/-- The rows an UPDATE locks. -/
def Write.ids : Write → List Id
  | .markPublished ids _ => ids
  | .incrementAttempts i => [i]

def applyAll (ws : List Write) (table : List OutboxRow) : List OutboxRow :=
  Transactions.applyAll Write.apply ws table

/-- `ORDER BY occurred_at`, ties in the order the scan finds them. -/
def before (order : List Id) (a b : OutboxRow) : Bool :=
  a.occurredAt < b.occurredAt ∨
    a.occurredAt = b.occurredAt ∧ order.idxOf a.id ≤ order.idxOf b.id

namespace World

/-- `FOR UPDATE SKIP LOCKED`. -/
def available (w : World) : List OutboxRow :=
  w.table.filter fun r => r.publishedAt = none ∧ w.lock r.id = none

def batch (w : World) (limit : Nat) (order : List Id) : List OutboxRow :=
  (w.available.insertionSort fun a b => before order a b).take limit

def free (w : World) (pid : Nat) (i : Id) : Bool := !w.heldByOther pid i

def lockAll (w : World) (pid : Nat) (ids : List Id) : World :=
  { w with toBook := w.take pid (· ∈ ids) }

def modifyTx (w : World) (pid : Nat) (f : Tx → Tx) : World :=
  { w with tx := Function.update w.tx pid ((w.tx pid).map f) }

/-- The end of a transaction: its updates are gone or applied, its locks free. -/
def endTx (w : World) (pid : Nat) : World :=
  { w with toBook := w.toBook.endTx none pid }

def writes (w : World) (pid : Nat) : List Write := ((w.tx pid).map (·.writes)).getD []

def begunAt (w : World) (pid : Nat) : Micros := ((w.tx pid).map (·.begunAt)).getD w.now

def commit (w : World) (pid : Nat) : World :=
  { w.endTx pid with table := applyAll (w.writes pid) w.table }

def note (w : World) (replica : Nat) (e : Event) : World := { w with log := w.log ++ [(replica, e)] }

def setBackoff (w : World) (replica : Nat) (i : Id) (b : Option ℚ) : World :=
  { w with backoff := Function.update w.backoff replica (Function.update (w.backoff replica) i b) }

/-- The smallest delay of the replica's dict, whose keys are ids of the table. -/
def smallestBackoff (w : World) (replica : Nat) : Option ℚ :=
  (w.table.filterMap fun r => w.backoff replica r.id).min?

end World

abbrev Answer (o : Op) := Outcome World Nat (Except Exn o.Res)

/-- One UPDATE: it waits for the rows it locks. -/
def update (w : World) (pid : Nat) (wr : Write) : Option World :=
  if wr.ids.all (w.free pid) then
    some ((w.lockAll pid wr.ids).modifyTx pid fun tx => { tx with writes := tx.writes ++ [wr] })
  else none

/-- The effect and reply of a call that goes through, or `none` while it waits. `loop`
is the jump back to the head of the loop, `exit` the end of the process. -/
def perform (w : World) (r pid fresh : Nat) : (o : Op) → Decision → Option (Answer o)
  | .stopRequested, _ => some ⟨w, .ok (w.stopping r), none⟩
  | .begin', _ => some ⟨{ w with tx := Function.update w.tx pid (some { begunAt := w.now }) }, .ok (), none⟩
  | .selectBatch limit, d =>
    let rows := w.batch limit d.order
    some ⟨(w.lockAll pid (rows.map (·.id))).modifyTx pid
      fun tx => { tx with selected := rows.map (·.id) }, .ok rows, none⟩
  | .sendAndWait topic envelope, _ => some ⟨w.note r (.acked topic envelope), .ok (), none⟩
  | .incrementAttempts i, _ =>
    (update w pid (.incrementAttempts i)).map fun w' => ⟨w', .ok (), none⟩
  | .markPublished ids, _ =>
    (update w pid (.markPublished ids (w.begunAt pid))).map fun w' => ⟨w', .ok (), none⟩
  | .commit, _ => some ⟨w.commit pid, .ok (), none⟩
  | .rollback, _ => some ⟨w.endTx pid, .ok (), none⟩
  | .popBackoff i, _ => some ⟨w.setBackoff r i none, .ok (), none⟩
  | .doubleBackoff i, _ =>
    some ⟨w.setBackoff r i (some (min (((w.backoff r i).getD backoffBaseS) * 2) backoffMaxS)),
      .ok (), none⟩
  | .backoffs, _ => some ⟨w, .ok (w.smallestBackoff r), none⟩
  | .sleep s, _ => some ⟨w.note r (.slept s), .ok (), none⟩
  | .waitStop s, _ => if w.stopping r then some ⟨w, .ok (), none⟩ else some ⟨w.note r (.slept s), .ok (), none⟩
  | .loop, _ => some ⟨{ w with process := Function.update w.process r (some fresh) }, .ok (), some r⟩
  | .exit, _ => some ⟨{ w with process := Function.update w.process r none }, .ok (), none⟩

/-- The world after a call has raised without its effect. A COMMIT or ROLLBACK that
raises ends the transaction on the server. -/
def World.raised (w : World) (r pid : Nat) : Op → World
  | .commit | .rollback => w.endTx pid
  | .sendAndWait topic envelope => w.note r (.refused topic envelope)
  | _ => w

/-- The calls whose reply can be lost. A send that raises is not acknowledged, whether or
not the broker holds its record. -/
def Op.lossy : Op → Bool
  | .selectBatch _ | .incrementAttempts _ | .markPublished _ | .commit => true
  | _ => false

/-- One call of the program a replica runs; the programs of earlier rounds and of dead
processes make no calls. -/
def exec (w : World) (r pid fresh : Nat) (o : Op) (d : Decision) : Option (Answer o) :=
  if w.process r ≠ some pid then none
  else
    match d.fault with
    | .none => perform w r pid fresh o d
    | .fail e => if o.raises e then some ⟨w.raised r pid o, .error e, none⟩ else none
    | .lost e =>
      if o.raises e ∧ o.lossy then
        (perform w r pid fresh o d).map fun a => ⟨a.shared, .error e, a.spawned⟩
      else none

/-- `reap` is the server's end of a connection whose process is gone. -/
inductive EnvAction where
  | insert (row : OutboxRow)
  | boot (replica : Nat)
  | crash (replica : Nat)
  | reap (pid : Nat)
  | sigterm (replica : Nat)
  | tick (dt : Nat)
  deriving DecidableEq, Repr

def env (w : World) (fresh : Nat) : EnvAction → Option (World × Option Nat)
  | .insert row =>
    if row.publishedAt = none ∧ row.publishAttempts = 0 ∧ w.table.all (·.id ≠ row.id) then
      some ({ w with table := w.table ++ [row] }, none)
    else none
  | .boot r =>
    if w.process r = none then
      some ({ w with
        process := Function.update w.process r (some fresh)
        stopping := Function.update w.stopping r false
        backoff := Function.update w.backoff r fun _ => none }, some r)
    else none
  | .crash r =>
    some ({ w with
      process := Function.update w.process r none
      dead := (w.process r).toList ++ w.dead }, none)
  | .reap pid => if pid ∈ w.dead then some (w.endTx pid, none) else none
  | .sigterm r => some ({ w with stopping := Function.update w.stopping r true }, none)
  | .tick dt => some ({ w with now := w.now + dt }, none)

end LiveQuiz.Publisher
