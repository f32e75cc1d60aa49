import LiveQuiz.Client.Socket
import LiveQuiz.Lib.Steps
import Mathlib.Data.List.Range

/-! # The messages a `LiveSocket` sends

Every `send` call's message is in one place: on the wire, in the buffer, or dropped from
its front. The flush on open sends what is in the buffer as if it were new, under ids that
no caller has been given.
-/

namespace LiveQuiz.Client

open Steps

set_option autoImplicit false

namespace LiveSocket

section

variable {M : Type}

def wireCalls (s : LiveSocket M) : List Nat := s.wire.filterMap (·.call)

def bufferCalls (s : LiveSocket M) : List Nat := s.outbuffer.map (·.call)

/-- Of `n` calls each has its message on the wire, in the buffer, dropped, or still to be
sent by a flush, in the order of the calls. -/
structure Ledger (s : LiveSocket M) (pending : List Nat) (n : Nat) : Prop where
  accounted : (s.wireCalls ++ s.dropped ++ (s.bufferCalls ++ pending)).Perm (List.range n)
  sorted : (s.bufferCalls ++ pending).Pairwise (· < ·)
  bounded : s.outbuffer.length ≤ maxBuffer
  oldest : ∀ d ∈ s.dropped, ∀ c ∈ s.bufferCalls ++ pending, d < c

/-- What the buffer does to the messages: none goes out twice, none is lost but the oldest,
and only when there are more than fifty. -/
structure Kept (s s' : LiveSocket M) : Prop where
  once : s'.wireCalls.Nodup
  bounded : s'.outbuffer.length ≤ maxBuffer
  accounted : ∀ c < s'.returned.length, c ∈ s'.wireCalls ∨ c ∈ s'.bufferCalls ∨ c ∈ s'.dropped
  oldest : ∀ d ∈ s'.dropped, ∀ m ∈ s'.outbuffer, d < m.call
  spilled : s'.dropped = s.dropped ∨ s'.outbuffer.length = maxBuffer

/-- Every message on the wire has the id that its call returned, and the messages are there
in the order of their calls. -/
structure Delivered (s : LiveSocket M) : Prop where
  identity : ∀ e ∈ s.wire, ∀ c, e.call = some c → ∃ id, e.messageId = some id ∧ s.returned[c]? = some id
  ordered : s.wireCalls.Pairwise (· < ·)

/-- An opening socket with messages in the buffer writes none of them. -/
def Unflushed (s : LiveSocket M) : SocketEvent → Prop
  | .opened i writes =>
    s.sockets[i]?.any (fun x => x.readyState = .connecting && x.handled) = true →
      (s.setReadyState i .opened).isOpen = true →
        ∀ k < s.outbuffer.length, writes.getD k true = false
  | _ => True

variable {newRequestId : Nat → M} {s v : LiveSocket M} {pending : List Nat} {n c : Nat}
  {type : ClientMessageType} {payload : Payload} {write : Bool}

theorem Ledger.congr (h : Ledger s pending n) (hWire : v.wire = s.wire) (hBuffer : v.outbuffer = s.outbuffer)
    (hDropped : v.dropped = s.dropped) : Ledger v pending n := by
  constructor
  · rw [wireCalls, bufferCalls, hWire, hBuffer, hDropped]
    exact h.accounted
  · rw [bufferCalls, hBuffer]
    exact h.sorted
  · rw [hBuffer]
    exact h.bounded
  · rw [bufferCalls, hBuffer, hDropped]
    exact h.oldest

theorem Ledger.push (h : Ledger s (c :: pending) n) : Ledger (s.push ⟨type, payload, c⟩) pending n := by
  obtain ⟨hAccounted, hSorted, hBounded, hOldest⟩ := h
  unfold LiveSocket.push
  split
  next hFull =>
    cases hBuffer : s.outbuffer with
    | nil => simp [hBuffer, maxBuffer] at hFull
    | cons m rest =>
      simp only [bufferCalls, hBuffer, List.map_cons, List.cons_append] at hAccounted hSorted hOldest
      rw [hBuffer, List.length_cons] at hBounded
      constructor
      · simpa [wireCalls, bufferCalls] using hAccounted
      · simpa [bufferCalls] using hSorted.of_cons
      · simpa using hBounded
      · intro d hd x hx
        have hIn : x ∈ rest.map (·.call) ++ c :: pending := by simpa [bufferCalls] using hx
        obtain hOld | hNew := List.mem_append.mp hd
        · exact hOldest d hOld x (List.mem_cons_of_mem _ hIn)
        · rw [List.mem_singleton.mp hNew]
          exact List.rel_of_pairwise_cons hSorted hIn
  next hRoom =>
    constructor
    · simpa [wireCalls, bufferCalls] using hAccounted
    · simpa [bufferCalls] using hSorted
    · simpa using hRoom
    · intro d hd x hx
      exact hOldest d hd x (by simpa [bufferCalls] using hx)

theorem Ledger.written (h : Ledger s (c :: pending) n) {e : Envelope M} (he : e.call = some c) :
    Ledger { s with wire := s.wire ++ [e] } pending n := by
  obtain ⟨hAccounted, hSorted, hBounded, hOldest⟩ := h
  have hLater : (s.bufferCalls ++ pending).Sublist (s.bufferCalls ++ c :: pending) :=
    (List.sublist_cons_self _ _).append_left _
  constructor
  · apply List.Perm.trans _ hAccounted
    have hMoved : (c :: (s.dropped ++ s.bufferCalls ++ pending)).Perm
        (s.dropped ++ s.bufferCalls ++ c :: pending) := List.perm_middle.symm
    simpa [wireCalls, bufferCalls, he] using hMoved.append_left s.wireCalls
  · exact hSorted.sublist hLater
  · exact hBounded
  · exact fun d hd x hx => hOldest d hd x (hLater.subset hx)

theorem isOpen_minted (k : Nat) : { s with minted := k }.isOpen = s.isOpen := rfl

theorem send_cases (newRequestId : Nat → M) (s : LiveSocket M) (call : Nat) (type : ClientMessageType)
    (payload : Payload) (write : Bool) :
    (s.isOpen = true ∧ write = true ∧ s.send newRequestId call type payload write =
      (newRequestId s.minted, { s with
        minted := s.minted + 1
        wire := s.wire ++ [⟨type, some (newRequestId s.minted), payload, some call⟩] })) ∨
    ((s.isOpen = false ∨ write = false) ∧ s.send newRequestId call type payload write =
      (newRequestId s.minted, { s with minted := s.minted + 1 }.push ⟨type, payload, call⟩)) := by
  simp only [LiveSocket.send, rawSend, isOpen_minted]
  obtain hOpen | hShut := Bool.eq_false_or_eq_true s.isOpen
  · cases write <;> simp [hOpen]
  · simp [hShut]

theorem Ledger.send (h : Ledger s (c :: pending) n) :
    Ledger (s.send newRequestId c type payload write).2 pending n := by
  obtain ⟨-, -, hSend⟩ | ⟨-, hSend⟩ := send_cases newRequestId s c type payload write
  · rw [hSend]
    exact (h.written rfl).congr rfl rfl rfl
  · rw [hSend]
    have hMinted : Ledger { s with minted := s.minted + 1 } (c :: pending) n := h.congr rfl rfl rfl
    exact hMinted.push

/-- What no message changes, and what it only adds to. -/
structure Grown (s v : LiveSocket M) : Prop where
  isOpen : v.isOpen = s.isOpen
  returned : v.returned = s.returned
  minted : s.minted ≤ v.minted
  wire : ∀ e ∈ s.wire, e ∈ v.wire

theorem Grown.refl (s : LiveSocket M) : Grown s s := ⟨rfl, rfl, le_refl _, fun _ he => he⟩

theorem Grown.trans {u : LiveSocket M} (h : Grown s v) (h' : Grown v u) : Grown s u where
  isOpen := h'.isOpen.trans h.isOpen
  returned := h'.returned.trans h.returned
  minted := h.minted.trans h'.minted
  wire e he := h'.wire e (h.wire e he)

theorem push_same (s : LiveSocket M) (m : QueuedMessage) :
    (s.push m).isOpen = s.isOpen ∧ (s.push m).returned = s.returned ∧ (s.push m).minted = s.minted ∧
      (s.push m).wire = s.wire := by
  unfold LiveSocket.push
  split <;> exact ⟨rfl, rfl, rfl, rfl⟩

theorem send_grown (call : Nat) : Grown s (s.send newRequestId call type payload write).2 := by
  obtain ⟨-, -, hSend⟩ | ⟨-, hSend⟩ := send_cases newRequestId s call type payload write
  · rw [hSend]
    exact ⟨rfl, rfl, Nat.le_succ _, fun e he => List.mem_append_left _ he⟩
  · rw [hSend]
    obtain ⟨hOpen, hReturned, hMinted, hWire⟩ :=
      push_same { s with minted := s.minted + 1 } ⟨type, payload, call⟩
    constructor
    · exact hOpen
    · exact hReturned
    · rw [hMinted]
      exact Nat.le_succ _
    · rw [hWire]
      exact fun e he => he

/-- Nothing is dropped from a buffer that does not stay full. -/
theorem push_spilled {d : List Nat} (m : QueuedMessage) (hBounded : s.outbuffer.length ≤ maxBuffer)
    (h : s.dropped = d ∨ s.outbuffer.length = maxBuffer) :
    (s.push m).dropped = d ∨ (s.push m).outbuffer.length = maxBuffer := by
  unfold LiveSocket.push
  split
  next hFull =>
    right
    rw [List.length_append, List.length_singleton] at hFull
    simp only [List.length_tail, List.length_append, List.length_singleton]
    omega
  next hRoom =>
    left
    rw [List.length_append, List.length_singleton] at hRoom
    exact h.resolve_right (by omega)

theorem send_spilled {d : List Nat} (call : Nat) (hBounded : s.outbuffer.length ≤ maxBuffer)
    (h : s.dropped = d ∨ s.outbuffer.length = maxBuffer) :
    (s.send newRequestId call type payload write).2.dropped = d ∨
      (s.send newRequestId call type payload write).2.outbuffer.length = maxBuffer := by
  obtain ⟨-, -, hSend⟩ | ⟨-, hSend⟩ := send_cases newRequestId s call type payload write
  · rw [hSend]
    exact h
  · rw [hSend]
    exact push_spilled _ hBounded h

theorem Ledger.sendAll {messages : List QueuedMessage} {writes : List Bool}
    (h : Ledger s (messages.map (·.call)) n) : Ledger (sendAll newRequestId messages writes s) [] n := by
  induction messages generalizing s writes with
  | nil => exact h
  | cons m messages ih => exact ih h.send

theorem Ledger.flushBuffer {writes : List Bool} (h : Ledger s [] n) :
    Ledger (s.flushBuffer newRequestId writes) [] n := by
  apply Ledger.sendAll
  obtain ⟨hAccounted, hSorted, -, hOldest⟩ := h
  rw [List.append_nil] at hAccounted hSorted hOldest
  exact ⟨hAccounted, hSorted, Nat.zero_le _, hOldest⟩

theorem sendAll_grown (messages : List QueuedMessage) (writes : List Bool) :
    Grown s (sendAll newRequestId messages writes s) := by
  induction messages generalizing s writes with
  | nil => exact .refl s
  | cons m messages ih => exact (send_grown m.call).trans (ih writes.tail)

theorem sendAll_spilled {messages : List QueuedMessage} {writes : List Bool} {d : List Nat}
    (hLedger : Ledger s (messages.map (·.call)) n)
    (h : s.dropped = d ∨ s.outbuffer.length = maxBuffer) :
    (sendAll newRequestId messages writes s).dropped = d ∨
      (sendAll newRequestId messages writes s).outbuffer.length = maxBuffer := by
  induction messages generalizing s writes with
  | nil => exact h
  | cons m messages ih => exact ih hLedger.send (send_spilled m.call hLedger.bounded h)

theorem headD_eq_getD (writes : List Bool) : writes.headD true = writes.getD 0 true := by
  cases writes <;> rfl

theorem tail_getD (writes : List Bool) (k : Nat) : writes.tail.getD k true = writes.getD (k + 1) true := by
  cases writes <;> rfl

theorem sendAll_idle {messages : List QueuedMessage} {writes : List Bool}
    (h : s.isOpen = true → ∀ k < messages.length, writes.getD k true = false) :
    (sendAll newRequestId messages writes s).wire = s.wire := by
  induction messages generalizing s writes with
  | nil => rfl
  | cons m messages ih =>
    obtain ⟨hOpen, hWrite, -⟩ | ⟨-, hSend⟩ := send_cases newRequestId s m.call m.type m.payload
      (writes.headD true)
    · have hFirst := h hOpen 0 (Nat.zero_lt_succ _)
      rw [headD_eq_getD, hFirst] at hWrite
      cases hWrite
    · have hSame := push_same { s with minted := s.minted + 1 } ⟨m.type, m.payload, m.call⟩
      rw [LiveSocket.sendAll, hSend, ih]
      · exact hSame.2.2.2
      · intro hOpen k hk
        rw [tail_getD]
        exact h (hSame.1.symm.trans hOpen) (k + 1) (Nat.succ_lt_succ hk)

theorem sendAll_writes (newRequestId : Nat → M) {messages : List QueuedMessage} {writes : List Bool}
    {k : Nat} (hOpen : s.isOpen = true) (hk : k < messages.length) (hWrite : writes.getD k true = true) :
    ∃ e ∈ (sendAll newRequestId messages writes s).wire, ∃ m ∈ messages, ∃ j, s.minted ≤ j ∧
      e.call = some m.call ∧ e.messageId = some (newRequestId j) := by
  induction messages generalizing s writes k with
  | nil => cases hk
  | cons m messages ih =>
    cases k with
    | zero =>
      obtain ⟨-, -, hSend⟩ | ⟨hNot, -⟩ := send_cases newRequestId s m.call m.type m.payload
        (writes.headD true)
      · refine ⟨⟨m.type, some (newRequestId s.minted), m.payload, some m.call⟩, ?_, m, List.mem_cons_self,
          s.minted, le_refl _, rfl, rfl⟩
        apply (sendAll_grown messages writes.tail).wire
        rw [hSend]
        exact List.mem_append_right _ (List.mem_singleton_self _)
      · rw [headD_eq_getD, hWrite, hOpen] at hNot
        simp at hNot
    | succ k =>
      have hGrown : Grown s (s.send newRequestId m.call m.type m.payload (writes.headD true)).2 :=
        send_grown m.call
      have hLater : writes.tail.getD k true = true := (tail_getD writes k).trans hWrite
      obtain ⟨e, he, m', hm', j, hj, hCall, hId⟩ :=
        ih (hGrown.isOpen.trans hOpen) (Nat.lt_of_succ_lt_succ hk) hLater
      exact ⟨e, he, m', List.mem_cons_of_mem _ hm', j, hGrown.minted.trans hj, hCall, hId⟩

/-- The fields that only messages change. -/
structure Same (s v : LiveSocket M) : Prop where
  outbuffer : v.outbuffer = s.outbuffer
  dropped : v.dropped = s.dropped
  wire : v.wire = s.wire
  returned : v.returned = s.returned
  minted : v.minted = s.minted

theorem Same.refl (s : LiveSocket M) : Same s s := ⟨rfl, rfl, rfl, rfl, rfl⟩

theorem Same.after {u : LiveSocket M} (h' : Same v u) (h : Same s v) : Same s u where
  outbuffer := h'.outbuffer.trans h.outbuffer
  dropped := h'.dropped.trans h.dropped
  wire := h'.wire.trans h.wire
  returned := h'.returned.trans h.returned
  minted := h'.minted.trans h.minted

theorem scheduleReconnect_same (s : LiveSocket M) : Same s s.scheduleReconnect := by
  unfold scheduleReconnect
  split <;> exact ⟨rfl, rfl, rfl, rfl, rfl⟩

theorem openSocket_same (s : LiveSocket M) (fails : Bool) : Same s (s.openSocket fails) := by
  unfold openSocket
  split
  · exact scheduleReconnect_same s
  · exact ⟨rfl, rfl, rfl, rfl, rfl⟩

theorem onClose_same (s : LiveSocket M) (code : Nat) : Same s (s.onClose code) := by
  unfold onClose
  split
  · exact (scheduleReconnect_same { s with heartbeatTimer := false }).after ⟨rfl, rfl, rfl, rfl, rfl⟩
  · exact ⟨rfl, rfl, rfl, rfl, rfl⟩

theorem any_and {α : Type} {o : Option α} {p q : α → Bool} :
    o.any (fun x => p x && q x) = true ↔ o.any p = true ∧ o.any q = true := by
  cases o <;> simp

theorem step_cases (newRequestId : Nat → M) (s : LiveSocket M) (e : SocketEvent) :
    (Unflushed s e ∧ Same s (s.step newRequestId e)) ∨
    (Unflushed s e ∧ ∃ envelope : Envelope M, envelope.call = none ∧
      s.step newRequestId e = { s with wire := s.wire ++ [envelope] }) ∨
    (∃ i writes v, e = .opened i writes ∧
      s.sockets[i]?.any (fun x => x.readyState = .connecting && x.handled) = true ∧ Same s v ∧
      v.isOpen = (s.setReadyState i .opened).isOpen ∧
      s.step newRequestId e = v.flushBuffer newRequestId writes) ∨
    ∃ type payload write, e = .send type payload write ∧
      s.step newRequestId e =
        { (s.send newRequestId s.returned.length type payload write).2 with
          returned := (s.send newRequestId s.returned.length type payload write).2.returned ++
            [(s.send newRequestId s.returned.length type payload write).1] } := by
  cases e with
  | connect fails =>
    refine .inl ⟨trivial, ?_⟩
    exact (openSocket_same { s with closedByUs := false } fails).after ⟨rfl, rfl, rfl, rfl, rfl⟩
  | reconnectDue fails =>
    refine .inl ⟨trivial, ?_⟩
    simp only [LiveSocket.step]
    split
    · exact .refl s
    · split
      · exact ⟨rfl, rfl, rfl, rfl, rfl⟩
      · exact (openSocket_same { s with reconnectTimer := none } fails).after ⟨rfl, rfl, rfl, rfl, rfl⟩
  | opened i writes =>
    simp only [LiveSocket.step]
    split
    next hConnecting =>
      split
      next hHandled =>
        right; right; left
        exact ⟨i, writes, { s.setReadyState i .opened with
          hasConnectedOnce := true
          attempt := 0
          heartbeatTimer := true }, rfl, any_and.mpr ⟨hConnecting, hHandled⟩, ⟨rfl, rfl, rfl, rfl, rfl⟩, rfl, rfl⟩
      next hLoose =>
        left
        constructor
        · exact fun hAny => absurd (any_and.mp hAny).2 hLoose
        · exact ⟨rfl, rfl, rfl, rfl, rfl⟩
    next hNot =>
      left
      constructor
      · exact fun hAny => absurd (any_and.mp hAny).1 hNot
      · exact .refl s
  | fails i =>
    refine .inl ⟨trivial, ?_⟩
    simp only [LiveSocket.step]
    split <;> exact ⟨rfl, rfl, rfl, rfl, rfl⟩
  | closed i code =>
    refine .inl ⟨trivial, ?_⟩
    simp only [LiveSocket.step]
    split
    · split
      · exact (onClose_same (s.setReadyState i .closed) code).after ⟨rfl, rfl, rfl, rfl, rfl⟩
      · exact ⟨rfl, rfl, rfl, rfl, rfl⟩
    · exact .refl s
  | message i messageId =>
    refine .inl ⟨trivial, ?_⟩
    simp only [LiveSocket.step]
    split <;> exact ⟨rfl, rfl, rfl, rfl, rfl⟩
  | heartbeatDue write =>
    simp only [LiveSocket.step, rawSend]
    split
    · split
      · right; left
        exact ⟨trivial, _, rfl, rfl⟩
      · exact .inl ⟨trivial, .refl s⟩
    · exact .inl ⟨trivial, .refl s⟩
  | send type payload write => exact .inr (.inr (.inr ⟨type, payload, write, rfl, rfl⟩))
  | close => exact .inl ⟨trivial, rfl, rfl, rfl, rfl, rfl⟩

/-- The ledger of all calls so far, and every id that a call returned was made for it. -/
structure Sound (newRequestId : Nat → M) (s : LiveSocket M) : Prop where
  ledger : Ledger s [] s.returned.length
  minted : ∀ id ∈ s.returned, ∃ k < s.minted, id = newRequestId k

theorem Sound.congr (h : Sound newRequestId s) (hSame : Same s v) : Sound newRequestId v where
  ledger := by
    rw [hSame.returned]
    exact h.ledger.congr hSame.wire hSame.outbuffer hSame.dropped
  minted := by
    rw [hSame.returned, hSame.minted]
    exact h.minted

theorem Ledger.next (h : Ledger s [] n) : Ledger s [n] (n + 1) := by
  obtain ⟨hAccounted, hSorted, hBounded, hOldest⟩ := h
  rw [List.append_nil] at hAccounted hSorted hOldest
  have hBelow : ∀ c ∈ s.wireCalls ++ s.dropped ++ s.bufferCalls, c < n := by
    intro c hc
    exact List.mem_range.mp (hAccounted.subset hc)
  constructor
  · rw [List.range_succ, ← List.append_assoc]
    exact hAccounted.append_right [n]
  · rw [List.pairwise_append]
    refine ⟨hSorted, List.pairwise_singleton _ _, ?_⟩
    intro c hc x hx
    rw [List.mem_singleton.mp hx]
    exact hBelow c (List.mem_append_right _ hc)
  · exact hBounded
  · intro d hd x hx
    obtain hOld | hNew := List.mem_append.mp hx
    · exact hOldest d hd x hOld
    · rw [List.mem_singleton.mp hNew]
      exact hBelow d (List.mem_append_left _ (List.mem_append_right _ hd))

theorem wireCalls_heartbeat {envelope : Envelope M} (hCall : envelope.call = none) :
    ({ s with wire := s.wire ++ [envelope] } : LiveSocket M).wireCalls = s.wireCalls := by
  simp [wireCalls, hCall]

theorem send_fst (newRequestId : Nat → M) (s : LiveSocket M) (call : Nat) (type : ClientMessageType)
    (payload : Payload) (write : Bool) :
    (s.send newRequestId call type payload write).1 = newRequestId s.minted ∧
      (s.send newRequestId call type payload write).2.minted = s.minted + 1 := by
  obtain ⟨-, -, hSend⟩ | ⟨-, hSend⟩ := send_cases newRequestId s call type payload write
  · rw [hSend]
    exact ⟨rfl, rfl⟩
  · rw [hSend]
    exact ⟨rfl, (push_same { s with minted := s.minted + 1 } ⟨type, payload, call⟩).2.2.1⟩

theorem Sound.step (h : Sound newRequestId s) (e : SocketEvent) :
    Sound newRequestId (s.step newRequestId e) := by
  obtain ⟨-, hSame⟩ | ⟨-, envelope, hCall, hStep⟩ | ⟨i, writes, v, -, -, hSame, -, hStep⟩ |
    ⟨type, payload, write, -, hStep⟩ := step_cases newRequestId s e
  · exact h.congr hSame
  · rw [hStep]
    refine ⟨?_, h.minted⟩
    obtain ⟨hAccounted, hSorted, hBounded, hOldest⟩ := h.ledger
    rw [← wireCalls_heartbeat hCall] at hAccounted
    exact ⟨hAccounted, hSorted, hBounded, hOldest⟩
  · rw [hStep]
    have hv := h.congr hSame
    have hGrown : Grown { v with outbuffer := [] } (v.flushBuffer newRequestId writes) :=
      sendAll_grown v.outbuffer writes
    constructor
    · rw [hGrown.returned]
      exact hv.ledger.flushBuffer
    · rw [hGrown.returned]
      intro id hId
      obtain ⟨k, hk, hEq⟩ := hv.minted id hId
      exact ⟨k, hk.trans_le hGrown.minted, hEq⟩
  · rw [hStep]
    have hGrown : Grown s (s.send newRequestId s.returned.length type payload write).2 := send_grown _
    obtain ⟨hFst, hMinted⟩ := send_fst newRequestId s s.returned.length type payload write
    constructor
    · rw [List.length_append, hGrown.returned]
      exact (h.ledger.next.send).congr rfl rfl rfl
    · intro id hId
      rw [hGrown.returned, hFst] at hId
      simp only [hMinted]
      obtain hOld | hNew := List.mem_append.mp hId
      · obtain ⟨k, hk, hEq⟩ := h.minted id hOld
        exact ⟨k, hk.trans (Nat.lt_succ_self _), hEq⟩
      · exact ⟨s.minted, Nat.lt_succ_self _, List.mem_singleton.mp hNew⟩

theorem Sound.kept (h : Sound newRequestId s) (e : SocketEvent) : Kept s (s.step newRequestId e) := by
  obtain ⟨hAccounted, hSorted, hBounded, hOldest⟩ := (h.step e).ledger
  rw [List.append_nil] at hAccounted hSorted hOldest
  have hNodup := hAccounted.nodup_iff.mpr List.nodup_range
  constructor
  · exact (List.nodup_append.mp (List.nodup_append.mp hNodup).1).1
  · exact hBounded
  · intro c hc
    have hIn := hAccounted.symm.subset (List.mem_range.mpr hc)
    obtain hEarly | hBuffer := List.mem_append.mp hIn
    · obtain hWire | hDropped := List.mem_append.mp hEarly
      · exact .inl hWire
      · exact .inr (.inr hDropped)
    · exact .inr (.inl hBuffer)
  · exact fun d hd m hm => hOldest d hd m.call (List.mem_map_of_mem hm)
  · obtain ⟨-, hSame⟩ | ⟨-, envelope, -, hStep⟩ | ⟨i, writes, v, -, -, hSame, -, hStep⟩ |
      ⟨type, payload, write, -, hStep⟩ := step_cases newRequestId s e
    · exact .inl hSame.dropped
    · rw [hStep]
      exact .inl rfl
    · rw [hStep]
      have hv := (h.congr hSame).ledger
      have hPending : Ledger { v with outbuffer := [] } (v.outbuffer.map (·.call)) v.returned.length := by
        obtain ⟨hA, hS, -, hO⟩ := hv
        rw [List.append_nil] at hA hS hO
        exact ⟨hA, hS, Nat.zero_le _, hO⟩
      exact sendAll_spilled hPending (.inl hSame.dropped)
    · rw [hStep]
      exact send_spilled _ h.ledger.bounded (.inl rfl)

theorem Delivered.congr (h : Delivered s) (hWire : v.wire = s.wire) (hReturned : v.returned = s.returned) :
    Delivered v := by
  constructor
  · rw [hWire, hReturned]
    exact h.identity
  · rw [wireCalls, hWire]
    exact h.ordered

/-- A call whose message goes out at once, or not at all for now. -/
theorem Delivered.send (hSound : Sound newRequestId s) (h : Delivered s) :
    Delivered { (s.send newRequestId s.returned.length type payload write).2 with
      returned := (s.send newRequestId s.returned.length type payload write).2.returned ++
        [(s.send newRequestId s.returned.length type payload write).1] } := by
  have hBefore : ∀ e ∈ s.wire, ∀ c, e.call = some c → ∃ id, e.messageId = some id ∧
      (s.returned ++ [newRequestId s.minted])[c]? = some id := by
    intro e he c hCall
    obtain ⟨id, hId, hGiven⟩ := h.identity e he c hCall
    refine ⟨id, hId, ?_⟩
    rw [List.getElem?_append_left (List.getElem?_eq_some_iff.mp hGiven).1]
    exact hGiven
  obtain ⟨-, -, hSend⟩ | ⟨-, hSend⟩ := send_cases newRequestId s s.returned.length type
    payload write
  · rw [hSend]
    constructor
    · intro e he c hCall
      obtain hOld | hNew := List.mem_append.mp he
      · exact hBefore e hOld c hCall
      · rw [List.mem_singleton.mp hNew] at hCall ⊢
        cases hCall
        exact ⟨_, rfl, List.getElem?_concat_length⟩
    · have hCalls : (s.wire ++ [(⟨type, some (newRequestId s.minted), payload, some s.returned.length⟩ :
          Envelope M)]).filterMap (·.call) = s.wireCalls ++ [s.returned.length] := by
        simp [wireCalls]
      rw [wireCalls, hCalls, List.pairwise_append]
      refine ⟨h.ordered, List.pairwise_singleton _ _, ?_⟩
      intro c hc x hx
      rw [List.mem_singleton.mp hx]
      apply List.mem_range.mp
      apply hSound.ledger.accounted.subset
      exact List.mem_append_left _ (List.mem_append_left _ hc)
  · rw [hSend]
    obtain ⟨-, hReturned, -, hWire⟩ := push_same { s with minted := s.minted + 1 }
      ⟨type, payload, s.returned.length⟩
    constructor
    · rw [hReturned]
      intro e he
      rw [hWire] at he
      exact hBefore e he
    · rw [wireCalls]
      dsimp only
      rw [hWire]
      exact h.ordered

theorem delivered_iff_unflushed (hFresh : Function.Injective newRequestId)
    (hSound : Sound newRequestId s) (h : Delivered s) (e : SocketEvent) :
    Delivered (s.step newRequestId e) ↔ Unflushed s e := by
  obtain ⟨hUnflushed, hSame⟩ | ⟨hUnflushed, envelope, hCall, hStep⟩ |
    ⟨i, writes, v, rfl, hAble, hSame, hOpen, hStep⟩ | ⟨type, payload, write, rfl, hStep⟩ :=
    step_cases newRequestId s e
  · exact iff_of_true (h.congr hSame.wire hSame.returned) hUnflushed
  · apply iff_of_true _ hUnflushed
    rw [hStep]
    constructor
    · intro e he c hc
      obtain hOld | hNew := List.mem_append.mp he
      · exact h.identity e hOld c hc
      · rw [List.mem_singleton.mp hNew, hCall] at hc
        cases hc
    · rw [wireCalls_heartbeat hCall]
      exact h.ordered
  · rw [hStep]
    have hGrown : Grown { v with outbuffer := [] } (v.flushBuffer newRequestId writes) :=
      sendAll_grown v.outbuffer writes
    constructor
    · intro hDelivered _ hNowOpen k hk
      by_contra hWrite
      rw [Bool.not_eq_false] at hWrite
      obtain ⟨e, he, m, -, j, hj, hCall, hId⟩ := sendAll_writes newRequestId
        (s := { v with outbuffer := [] }) (hOpen.trans hNowOpen) (hSame.outbuffer ▸ hk) hWrite
      obtain ⟨id, hMessage, hGiven⟩ := hDelivered.identity e he m.call hCall
      rw [hGrown.returned] at hGiven
      have hReturned : id ∈ s.returned := hSame.returned ▸ List.mem_of_getElem? hGiven
      obtain ⟨k', hk', rfl⟩ := hSound.minted id hReturned
      rw [hId, Option.some.injEq] at hMessage
      have hEq := hFresh hMessage
      have hMinted : s.minted ≤ j := hSame.minted ▸ hj
      omega
    · intro hUnflushed
      apply h.congr _ (hGrown.returned.trans hSame.returned)
      rw [← hSame.wire]
      apply sendAll_idle (s := { v with outbuffer := [] })
      intro hNowOpen
      rw [hSame.outbuffer]
      exact hUnflushed hAble (hOpen.symm.trans hNowOpen)
  · rw [hStep]
    exact iff_of_true (h.send hSound) trivial

/-- Over every sequence of events the buffer keeps what it has to, and the messages go out
as they were sent exactly when no opening flushes a buffered one. -/
theorem messages_delivered_iff (hFresh : Function.Injective newRequestId) (events : List SocketEvent) :
    Every (step newRequestId) (fun s e => Kept s (s.step newRequestId e)) {} events ∧
    (Every (step newRequestId) (fun s e => Delivered (s.step newRequestId e)) {} events ↔
      Every (step newRequestId) Unflushed {} events) := by
  have hStart : Sound newRequestId ({} : LiveSocket M) := by
    constructor
    · exact ⟨.refl _, .nil, Nat.zero_le _, fun _ hd => by cases hd⟩
    · exact fun _ hId => by cases hId
  constructor
  · exact Every.of_kept (J := Sound newRequestId) hStart (fun s e h => h.kept e) fun s e h => h.step e
  · apply Every.iff_of_kept (J := fun s => Sound newRequestId s ∧ Delivered s)
    · exact ⟨hStart, ⟨fun _ he => (by cases he), .nil⟩⟩
    · exact fun s e h => delivered_iff_unflushed hFresh h.1 h.2 e
    · exact fun s e h hUnflushed =>
        ⟨h.1.step e, (delivered_iff_unflushed hFresh h.1 h.2 e).mpr hUnflushed⟩

end

/-- An answer goes out on an open socket, and the socket is lost and comes back. -/
def Demo.sentOnce : List SocketEvent :=
  [.connect false, .opened 0 [], .send .answerSubmit (.json "answer") true, .closed 0 1006,
    .reconnectDue false, .opened 1 []]

theorem messages_delivered_online :
    Every (step (id : Nat → Nat)) (fun s e => Delivered (s.step id e)) {} Demo.sentOnce ∧
    (Demo.sentOnce.foldl (step (id : Nat → Nat)) {}).wire =
      [⟨.answerSubmit, some 0, .json "answer", some 0⟩] := by
  refine ⟨(messages_delivered_iff (fun _ _ h => h) Demo.sentOnce).2.mpr ?_, rfl⟩
  have hEmpty : ∀ {s : LiveSocket Nat} {i : Nat}, s.outbuffer = [] → Unflushed s (.opened i []) := by
    intro s i hNone _ _ k hk
    rw [hNone] at hk
    cases hk
  exact ⟨trivial, hEmpty rfl, trivial, trivial, trivial, hEmpty rfl, trivial⟩

/-- The answer is given while the socket is connecting, and then the socket opens. -/
def Demo.sentEarly : List SocketEvent :=
  [.connect false, .send .answerSubmit (.json "answer") true, .opened 0 []]

/-- The page was given id 0, and the answer goes out with id 1. -/
theorem buffered_message_renamed :
    ¬Every (step (id : Nat → Nat)) (fun s e => Delivered (s.step id e)) {} Demo.sentEarly ∧
    (Demo.sentEarly.foldl (step (id : Nat → Nat)) {}).returned = [0] ∧
    (Demo.sentEarly.foldl (step (id : Nat → Nat)) {}).wire =
      [⟨.answerSubmit, some 1, .json "answer", some 0⟩] := by
  refine ⟨?_, rfl, rfl⟩
  rintro ⟨-, -, hLast, -⟩
  obtain ⟨i, hId, hGiven⟩ := hLast.identity ⟨.answerSubmit, some 1, .json "answer", some 0⟩
    (List.mem_singleton_self _) 0 rfl
  cases hId
  cases hGiven

end LiveSocket

end LiveQuiz.Client
