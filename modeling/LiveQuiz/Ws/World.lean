import LiveQuiz.Stream.Types
import LiveQuiz.Lib.Machine
import Mathlib.Data.List.Sort
import Mathlib.Logic.Function.Basic

/-! # The world of the WebSocket fan-out

Any number of replicas, each with its registry of rooms and its pub/sub subscription,
and Redis between them. One call is one command, one socket write, or one reading of the
registry. Redis keeps for each subscribed replica the messages it has not handed over
yet, and hands them over in any order.
-/

namespace LiveQuiz.Ws

open Coroutine

set_option autoImplicit false

/-- What `json.loads` makes of the value of a key: a dict, or anything else. -/
inductive Value where
  | plain (v : Stream.Json)
  | dict (fields : Stream.Payload)
  deriving DecidableEq, Repr

/-- A dict, as the list of its items. -/
abbrev Message := List (String × Value)

def originField : String := "_origin_replica_id"

namespace Message

/-- `{**message, key: value}`: a key that is there keeps its place. -/
def insert (m : Message) (key : String) (value : Value) : Message :=
  if m.any (·.1 = key) then m.map fun item => if item.1 = key then (key, value) else item
  else m ++ [(key, value)]

/-- The dict without the origin. -/
def clean (m : Message) : Message := m.filter (·.1 ≠ originField)

end Message

def wsRoom (code : String) : String := "ws:room:" ++ code

/-- `split(":", n)`. -/
def splitColons : Nat → List Char → List (List Char)
  | 0, cs => [cs]
  | n + 1, cs =>
    match cs.dropWhile (· ≠ ':') with
    | [] => [cs]
    | _ :: rest => cs.takeWhile (· ≠ ':') :: splitColons n rest

def roomCodeFromChannel (channel : String) : Option String :=
  match splitColons 2 channel.toList with
  | [ws, room, code] =>
    if ws = "ws".toList ∧ room = "room".toList ∧ code ≠ [] then some (String.ofList code) else none
  | _ => none

/-- The pattern `ws:room:*`. -/
def matchesPattern (channel : String) : Bool := "ws:room:".toList.isPrefixOf channel.toList

/-- A connection object; two are the same if they have one `conn_id`. -/
structure Conn where
  id : Nat
  participantId : Int
  deriving DecidableEq, Repr

structure Member where
  conn : Conn
  replica : Nat
  room : String
  deriving DecidableEq, Repr

/-- Who sent a message: the program of a `broadcast_all`, or another client of Redis that
published after `k` messages were sent. -/
inductive Source where
  | broadcast (pid : Nat)
  | direct (k : Nat)
  deriving DecidableEq, Repr

/-- A published message. `data` is `none` where it is not the text of a dict. -/
structure Entry where
  source : Source
  channel : String
  data : Option Message
  deriving DecidableEq, Repr

/-- `audience` are the connections there were on subscribed replicas. -/
structure Sent where
  entry : Entry
  audience : List Conn
  deriving DecidableEq, Repr

structure Receipt where
  conn : Conn
  source : Option Source
  message : Message
  deriving DecidableEq, Repr

/-- `known` lists every connection that was ever registered, with its place. The last
three are history variables: the message each program passes on with its replica, the
messages sent, and what the sockets have received. -/
structure World where
  booted : List Nat
  rooms : Nat → String → List Conn
  subscribed : Nat → Bool
  inbox : Nat → List Entry
  closed : List Conn
  known : List Member
  handling : Nat → Option (Nat × Entry)
  sent : List Sent
  received : List Receipt

/-- `fault` is what Redis or a socket raises, `overflow` what `int` raises on an infinite
float. -/
inductive Exn where
  | fault | overflow
  deriving DecidableEq, Repr

inductive Op where
  | psubscribe
  | punsubscribe
  | getMessage
  | publish (channel : String) (wire : Message)
  | members (room : String)
  | send (conn : Conn) (m : Message)
  | close (conn : Conn)
  | loop
  deriving DecidableEq, Repr

@[reducible] def Op.Res : Op → Type
  | .getMessage => Option (String × Option Message)
  | .members _ => List Conn
  | .send _ _ => Bool
  | _ => Unit

/-- `listen` is one round of the listener's loop. -/
inductive Job where
  | subscribe (replica : Nat)
  | listen (replica : Nat)
  | broadcastAll (replica : Nat) (room : String) (m : Message)
  deriving DecidableEq, Repr

def Job.replica : Job → Nat
  | .subscribe r | .listen r | .broadcastAll r _ _ => r

/-- `pick` is the waiting message that is handed over, if one is before the timeout;
`order` the order of a set of connections. -/
structure Decision where
  fail : Bool := false
  pick : Option Nat := none
  order : List Conn := []
  deriving DecidableEq, Repr

namespace World

def registered (w : World) (m : Member) : Bool := (w.rooms m.replica m.room).contains m.conn

def audience (w : World) : List Conn :=
  (w.known.filter fun m => w.registered m ∧ w.subscribed m.replica).map (·.conn)

/-- The message goes to every subscribed replica. -/
def enqueue (w : World) (e : Entry) : World :=
  if matchesPattern e.channel then
    { w with inbox := fun r => if w.subscribed r then w.inbox r ++ [e] else w.inbox r }
  else w

def announce (w : World) (e : Entry) : World := { w with sent := w.sent ++ [⟨e, w.audience⟩] }

def handle (w : World) (pid r : Nat) (e : Entry) : World :=
  { w with handling := Function.update w.handling pid (some (r, e)) }

/-- `list(...)` of a set. -/
def membersIn (w : World) (r : Nat) (room : String) (order : List Conn) : List Conn :=
  (w.rooms r room).insertionSort fun a b => order.idxOf a ≤ order.idxOf b

def receive (w : World) (pid : Nat) (conn : Conn) (m : Message) : World :=
  { w with received := w.received ++ [⟨conn, (w.handling pid).map (·.2.source), m⟩] }

def take (w : World) (pid r i : Nat) (e : Entry) : World :=
  { w with inbox := Function.update w.inbox r ((w.inbox r).eraseIdx i) }.handle pid r e

def setRoom (w : World) (r : Nat) (room : String) (conns : List Conn) : World :=
  { w with rooms := Function.update w.rooms r (Function.update (w.rooms r) room conns) }

end World

abbrev Answer (o : Op) := Outcome World Job (Except Exn o.Res)

/-- The effect and reply of a call. A write to a socket that is closed or broken is
caught in `send`, which then returns false. -/
def exec (w : World) (t : Job) (pid _fresh : Nat) : (o : Op) → Decision → Option (Answer o)
  | .psubscribe, d =>
    if d.fail then some ⟨w, .error .fault, none⟩
    else some ⟨{ w with subscribed := Function.update w.subscribed t.replica true }, .ok (), none⟩
  | .punsubscribe, d =>
    if d.fail then some ⟨w, .error .fault, none⟩
    else some ⟨{ w with subscribed := Function.update w.subscribed t.replica false }, .ok (), none⟩
  | .getMessage, d =>
    if d.fail then some ⟨w, .error .fault, none⟩
    else
      match d.pick with
      | none => some ⟨w, .ok none, none⟩
      | some i => (w.inbox t.replica)[i]?.map fun e =>
        ⟨w.take pid t.replica i e, .ok (some (e.channel, e.data)), none⟩
  | .publish channel wire, d =>
    let e : Entry := ⟨.broadcast pid, channel, some wire⟩
    let w' := (w.announce e).handle pid t.replica e
    if d.fail then some ⟨w', .error .fault, none⟩ else some ⟨w'.enqueue e, .ok (), none⟩
  | .members room, d => some ⟨w, .ok (w.membersIn t.replica room d.order), none⟩
  | .send conn m, d =>
    if d.fail ∨ conn ∈ w.closed then some ⟨w, .ok false, none⟩
    else some ⟨w.receive pid conn m, .ok true, none⟩
  | .close conn, d =>
    if d.fail then some ⟨w, .error .fault, none⟩
    else some ⟨{ w with closed := conn :: w.closed }, .ok (), none⟩
  | .loop, _ => some ⟨w, .ok (), some (.listen t.replica)⟩

/-- `broadcast` is a call of `broadcast_all`, `publish` a PUBLISH by another client. -/
inductive EnvAction where
  | boot (replica : Nat)
  | broadcast (replica : Nat) (room : String) (m : Message)
  | publish (channel : String) (data : Option Message)
  | connect (m : Member)
  | disconnect (m : Member)
  deriving DecidableEq, Repr

def env (w : World) (_fresh : Nat) : EnvAction → Option (World × Option Job)
  | .boot r =>
    if r ∈ w.booted then none else some ({ w with booted := r :: w.booted }, some (.subscribe r))
  | .broadcast r room m => some (w, some (.broadcastAll r room m))
  | .publish channel data =>
    let e : Entry := ⟨.direct w.sent.length, channel, data⟩
    some ((w.announce e).enqueue e, none)
  | .connect m =>
    if w.known.any (·.conn.id = m.conn.id) then none
    else
      some ({ w.setRoom m.replica m.room (w.rooms m.replica m.room ++ [m.conn]) with
        known := w.known ++ [m] }, none)
  | .disconnect m =>
    some (w.setRoom m.replica m.room ((w.rooms m.replica m.room).filter (· ≠ m.conn)), none)

end LiveQuiz.Ws
