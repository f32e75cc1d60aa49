import Mathlib.Data.List.Basic

/-! # `LiveSocket`

The reconnecting WebSocket client of `ws-client.ts`. What the browser decides comes with
the event: whether a constructor throws, and whether a write does. The callbacks of the
page run as events of their own. `newRequestId k` is the `k`th request id of the page.
-/

namespace LiveQuiz.Client

set_option autoImplicit false

inductive ClientMessageType where
  | roomHeartbeat | answerSubmit | hostQuestionNext | hostMatchPause
  deriving DecidableEq, Repr

inductive Payload where
  | lastSeenEventId (id : Option String)
  | json (text : String)
  deriving DecidableEq, Repr

/-- `call` is the number of the page's `send` call that the message comes from; the code
does not keep it. -/
structure QueuedMessage where
  type : ClientMessageType
  payload : Payload
  call : Nat
  deriving DecidableEq, Repr

/-- A message on the wire. A heartbeat has no id and comes from no call. -/
structure Envelope (M : Type) where
  type : ClientMessageType
  messageId : Option M
  payload : Payload
  call : Option Nat
  deriving DecidableEq, Repr

inductive ReadyState where
  | connecting | opened | closing | closed
  deriving DecidableEq, Repr

/-- A WebSocket of the browser, and whether our handlers are still on it. -/
structure WebSocket where
  readyState : ReadyState
  handled : Bool
  deriving DecidableEq, Repr

/-- `ws` is the place of the current socket among all that were made. The last four fields
are history variables: how many ids were made, what the page's `send` calls have returned,
what has gone on the wire, and the calls whose messages the buffer has dropped. -/
structure LiveSocket (M : Type) where
  ws : Option Nat := none
  sockets : List WebSocket := []
  heartbeatTimer : Bool := false
  reconnectTimer : Option Nat := none
  attempt : Nat := 0
  closedByUs : Bool := false
  hasConnectedOnce : Bool := false
  lastSeenEventId : Option String := none
  outbuffer : List QueuedMessage := []
  minted : Nat := 0
  returned : List M := []
  wire : List (Envelope M) := []
  dropped : List Nat := []
  deriving DecidableEq, Repr

def backoffMs : List Nat := [500, 1000, 2000, 5000]

def maxBuffer : Nat := 50

def noRetryCodes : List Nat := [4401, 4400, 1008]

namespace LiveSocket

variable {M : Type} (newRequestId : Nat → M) (s : LiveSocket M)

def isOpen : Bool := (s.ws.bind fun i => s.sockets[i]?).any (·.readyState = .opened)

def setReadyState (i : Nat) (state : ReadyState) : LiveSocket M :=
  { s with sockets := s.sockets.modify i fun x => { x with readyState := state } }

def scheduleReconnect : LiveSocket M :=
  if s.reconnectTimer.isSome then s
  else
    { s with
      reconnectTimer := backoffMs[min s.attempt (backoffMs.length - 1)]?
      attempt := s.attempt + 1 }

/-- `open`. -/
def openSocket (fails : Bool) : LiveSocket M :=
  if fails then s.scheduleReconnect
  else { s with ws := some s.sockets.length, sockets := s.sockets ++ [⟨.connecting, true⟩] }

def connect (fails : Bool) : LiveSocket M := { s with closedByUs := false }.openSocket fails

def rawSend (envelope : Envelope M) (write : Bool) : Bool × LiveSocket M :=
  if s.isOpen && write then (true, { s with wire := s.wire ++ [envelope] }) else (false, s)

/-- `push`, and `shift` above the bound. -/
def push (m : QueuedMessage) : LiveSocket M :=
  if maxBuffer < (s.outbuffer ++ [m]).length then
    { s with
      outbuffer := (s.outbuffer ++ [m]).tail
      dropped := s.dropped ++ ((s.outbuffer ++ [m]).take 1).map (·.call) }
  else { s with outbuffer := s.outbuffer ++ [m] }

/-- `send`, for the page's call of this number. -/
def send (call : Nat) (type : ClientMessageType) (payload : Payload) (write : Bool) : M × LiveSocket M :=
  let messageId := newRequestId s.minted
  match { s with minted := s.minted + 1 }.rawSend ⟨type, some messageId, payload, some call⟩ write with
  | (true, s) => (messageId, s)
  | (false, s) => (messageId, s.push ⟨type, payload, call⟩)

/-- The loop of `flushBuffer`; writes that are not listed succeed. -/
def sendAll : List QueuedMessage → List Bool → LiveSocket M → LiveSocket M
  | [], _, s => s
  | m :: pending, writes, s =>
    sendAll pending writes.tail (s.send newRequestId m.call m.type m.payload (writes.headD true)).2

def flushBuffer (writes : List Bool) : LiveSocket M :=
  sendAll newRequestId s.outbuffer writes { s with outbuffer := [] }

def onOpen (writes : List Bool) : LiveSocket M :=
  { s with hasConnectedOnce := true, attempt := 0, heartbeatTimer := true }.flushBuffer newRequestId writes

def onClose (code : Nat) : LiveSocket M :=
  if s.closedByUs = false ∧ code ∉ noRetryCodes then { s with heartbeatTimer := false }.scheduleReconnect
  else { s with heartbeatTimer := false }

def close : LiveSocket M :=
  { s with
    closedByUs := true
    heartbeatTimer := false
    reconnectTimer := none
    ws := none
    sockets :=
      match s.ws with
      | some i => s.sockets.modify i fun x =>
          ⟨if x.readyState = .closed then .closed else .closing, false⟩
      | none => s.sockets }

end LiveSocket

inductive SocketEvent where
  | connect (fails : Bool)
  | reconnectDue (fails : Bool)
  | opened (i : Nat) (writes : List Bool)
  | fails (i : Nat)
  | closed (i : Nat) (code : Nat)
  | message (i : Nat) (messageId : Option String)
  | heartbeatDue (write : Bool)
  | send (type : ClientMessageType) (payload : Payload) (write : Bool)
  | close
  deriving DecidableEq, Repr

namespace LiveSocket

variable {M : Type} (newRequestId : Nat → M) (s : LiveSocket M)

/-- An event that cannot happen, or that no handler is told of, changes no more than the
state of its socket. -/
def step : SocketEvent → LiveSocket M
  | .connect fails => s.connect fails
  | .reconnectDue fails =>
    if s.reconnectTimer.isNone then s
    else if s.closedByUs then { s with reconnectTimer := none }
    else { s with reconnectTimer := none }.openSocket fails
  | .opened i writes =>
    if s.sockets[i]?.any (·.readyState = .connecting) then
      if s.sockets[i]?.any (·.handled) then (s.setReadyState i .opened).onOpen newRequestId writes
      else s.setReadyState i .opened
    else s
  | .fails i =>
    if s.sockets[i]?.any (·.readyState ≠ .closed) then s.setReadyState i .closing else s
  | .closed i code =>
    if s.sockets[i]?.any (·.readyState ≠ .closed) then
      if s.sockets[i]?.any (·.handled) then (s.setReadyState i .closed).onClose code
      else s.setReadyState i .closed
    else s
  | .message i messageId =>
    if s.sockets[i]?.any (·.handled) ∧ messageId.isSome then { s with lastSeenEventId := messageId }
    else s
  | .heartbeatDue write =>
    if s.heartbeatTimer then
      (s.rawSend ⟨.roomHeartbeat, none, .lastSeenEventId s.lastSeenEventId, none⟩ write).2
    else s
  | .send type payload write =>
    let (messageId, s') := s.send newRequestId s.returned.length type payload write
    { s' with returned := s'.returned ++ [messageId] }
  | .close => s.close

end LiveSocket

end LiveQuiz.Client
