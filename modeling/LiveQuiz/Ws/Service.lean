import LiveQuiz.Ws.World

/-! # Broadcasts and the pub/sub listener

`ConnectionManager.broadcast_local`, `broadcast_all` and `run_pubsub_listener`, over the
replica ids. The logs and the number of deliveries in them are left out.
-/

namespace LiveQuiz.Ws

open Coroutine

set_option autoImplicit false

abbrev Coro (α : Type) := Prog Op Op.Res Exn α

def ask (o : Op) : Coro o.Res := .perform o

/-- `gather` of the sends. None waits for another, so the order in which `members` lists
the connections is the order in which the sends go out. Returns how many went through. -/
def sendAll (m : Message) : List Conn → Coro Nat
  | [] => return 0
  | conn :: conns => do
    let ok ← ask (.send conn m)
    let n ← sendAll m conns
    return (if ok then n + 1 else n)

/-- `try: ... except Exception: log`. -/
def caught (p : Coro Unit) : Coro Unit := p.handle fun _ => return ()

def closeEach (target : Int) : List Conn → Coro Unit
  | [] => return ()
  | conn :: conns => do
    if conn.participantId = target then
      caught (ask (.close conn))
    closeEach target conns

def kicked : String := "participant.kicked"

section

variable (L : Stream.Outside)

def closeKicked (room : String) (m : Message) : Coro Unit :=
  match m.lookup "payload" with
  | some (.dict payload) =>
    match Stream.pyInt L (payload.get "participant_id") with
    | .ok target => do
      let conns ← ask (.members room)
      closeEach target conns
    | .error .overflow => throw .overflow
    | .error _ => return ()
  | _ => return ()

def broadcastLocal (room : String) (m : Message) : Coro Nat := do
  let clean := m.clean
  let members ← ask (.members room)
  if members = [] then return 0
  let delivered ← sendAll clean members
  if clean.lookup "type" = some (.plain (.str kicked)) then
    closeKicked L room clean
  return delivered

variable (ids : Nat → String)

def stamp (r : Nat) (m : Message) : Message := m.insert originField (.plain (.str (ids r)))

def broadcastAll (r : Nat) (room : String) (m : Message) : Coro Unit := do
  caught (ask (.publish (wsRoom room) (stamp ids r m)))
  let _ ← broadcastLocal L room m

def dispatchOne (r : Nat) (channel : String) (data : Option Message) : Coro Unit := do
  let some code := roomCodeFromChannel channel | return ()
  let some payload := data | return ()
  if payload.lookup originField = some (.plain (.str (ids r))) then return ()
  let _ ← broadcastLocal L code payload

/-- `finally`, and the end of the task. -/
def leave (e : Exn) : Coro Unit := do
  caught (ask .punsubscribe)
  throw e

def subscribe : Coro Unit :=
  Prog.handle (do
    ask .psubscribe
    ask .loop) leave

/-- The body of the loop, up to the jump back. -/
def listen (r : Nat) : Coro Unit :=
  Prog.handle (do
    match ← ask .getMessage with
    | none => pure ()
    | some (channel, data) => caught (dispatchOne L ids r channel data)
    ask .loop) leave

def fanout : Machine World Op Op.Res Exn Unit Job Decision EnvAction where
  exec := exec
  env := env
  body
    | .subscribe _ => subscribe
    | .listen r => listen L ids r
    | .broadcastAll r room m => broadcastAll L ids r room m

end

abbrev FanoutState := State World Op Op.Res Exn Unit Job

abbrev FanoutLabel := Label Decision EnvAction

/-- No replica, no connection, nothing sent. -/
def blank : FanoutState where
  shared :=
    { booted := [], rooms := fun _ _ => [], subscribed := fun _ => false, inbox := fun _ => []
      closed := [], known := [], handling := fun _ => none, sent := [], received := [] }
  procs := []

end LiveQuiz.Ws
