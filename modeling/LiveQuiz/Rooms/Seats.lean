import LiveQuiz.Rooms.Service
import LiveQuiz.Lib.Monitor

/-! # The seats a program takes

A join raises the counter of its room before it inserts its participant, and commits or
gives the seat back later; a new room and a rebuilt snapshot set the counter. The calls
of a program and their replies tell which of these it is about to do.
-/

namespace LiveQuiz.Rooms

open Coroutine

set_option autoImplicit false

/-- `found`, `seated` and `joining` name the code a join was asked for and the room it
has read. `seeding`: the counter of the code is set next. `broken`: a call has raised,
and a ROLLBACK is due. -/
inductive SeatPhase where
  | idle
  | found (code : String) (room : Room)
  | seated (code : String) (room : Room)
  | joining (code : String) (room : Room)
  | refused (code : String)
  | created (room : Room)
  | seeding (code : String) (n : Nat)
  | broken

namespace SeatPhase

/-- The calls without a part in this. -/
def plain : Op → Bool
  | .rateAcquire _ _ _ | .utcnow | .nextId | .generateCode | .getQuiz _ => true
  | .readSnapshot _ | .writeSnapshot _ _ => true
  | _ => false

def allows (job : Job) : SeatPhase → Op → Prop
  | .seeding c n, o => o = .countInit c n
  | .broken, o => o = .rollback
  | .refused c, o => o = .rollback ∨ o = .countRelease c
  | .idle, .getByCode _ | .idle, .activeParticipants _ | .idle, .flush (.room _) => True
  | .found c room, .countAdmit c' m => c' = c ∧ m = room.maxPlayers
  | .found c room, .activeParticipants i => job = .buildSnapshot c ∧ i = room.id
  | .seated _ room, .flush (.participant p) =>
    p.roomId = room.id ∧ p.leftAt = none ∧ p.isKicked = false
  | .joining _ _, .flush (.event _) | .joining _ _, .flush (.report _) => True
  | .joining _ _, .commit => True
  | .created _, .flush (.event _) | .created _, .commit => True
  | _, o => plain o = true ∨ o = .rollback

def next : SeatPhase → (o : Op) → Except Exn o.Res → SeatPhase
  | .idle, .getByCode c, .ok (some room) => .found c room
  | .idle, .flush (.room room), .ok _ => .created room
  | .idle, .flush (.room _), .error .integrity => .idle
  | .found c room, .countAdmit _ _, .ok n => if n = -1 then .found c room else .seated c room
  | .found c _, .activeParticipants _, .ok rows => .seeding c rows.length
  | .seated c room, .flush (.participant _), .ok _ => .joining c room
  | .seated c _, .flush (.participant _), .error .integrity => .refused c
  | .joining _ _, .commit, .ok _ => .idle
  | .created room, .commit, .ok _ => .seeding room.code 0
  | .seeding _ _, .countInit _ _, .ok _ => .idle
  | .refused _, .countRelease _, .ok _ => .idle
  | .created _, .rollback, .ok _ | .joining _ _, .rollback, .ok _ => .broken
  | s, _, .ok _ => s
  | _, _, .error _ => .broken

end SeatPhase

def seatMonitor (job : Job) : Monitor Op Op.Res Exn SeatPhase where
  allowed := SeatPhase.allows job
  next := SeatPhase.next

def SeatPhase.free : SeatPhase → Prop
  | .seeding _ _ => False
  | _ => True

def Lax {α : Type} (Q : SeatPhase → Except Exn α → Prop) : Prop := ∀ s e, s.free → Q s (.error e)

section

variable {α β : Type} {job : Job} {Q : SeatPhase → Except Exn α → Prop} {s : SeatPhase}

abbrev Seats (job : Job) (Q : SeatPhase → Except Exn α → Prop) : SeatPhase → Coro α → Prop :=
  Follows (seatMonitor job) Q

theorem Lax.bind {f : β → Coro α} (hQ : Lax Q) : Lax (Before (seatMonitor job) Q f) := hQ

theorem next_error_free (s : SeatPhase) (o : Op) (e : Exn) : (s.next o (.error e)).free := by
  cases o with
  | flush wr => cases s <;> cases wr <;> cases e <;> trivial
  | _ => cases s <;> trivial

theorem seats_call {o : Op} {f : o.Res → Coro α} (hQ : Lax Q) (hAllowed : s.allows job o)
    (h : ∀ v, Seats job Q (s.next o (.ok v)) (f v)) : Seats job Q s (ask o >>= f) := by
  refine ⟨hAllowed, fun r => ?_⟩
  cases r with
  | ok v => exact h v
  | error e => exact hQ _ e (next_error_free s o e)

theorem next_plain {o : Op} (ho : SeatPhase.plain o = true) (v : o.Res) : s.next o (.ok v) = s := by
  cases o with
  | flush wr => cases ho
  | _ => cases s <;> first | rfl | cases ho

theorem seats_plain {o : Op} {f : o.Res → Coro α} (hQ : Lax Q) (ho : SeatPhase.plain o = true)
    (hAllowed : s.allows job o) (h : ∀ v, Seats job Q s (f v)) : Seats job Q s (ask o >>= f) := by
  refine seats_call hQ hAllowed fun v => ?_
  rw [next_plain ho]
  exact h v

theorem seats_refused {c : Prop} [Decidable c] {code : String} {status : Nat} {message : String}
    {details : List (String × String)} {f : β → Coro α} {p : Coro α} (hQ : Lax Q) (hs : s.free)
    (h : Seats job Q s p) : Seats job Q s (if c then raise code status message details >>= f else p) := by
  split
  · exact hQ s _ hs
  · exact h

theorem seats_inSession {p : Coro α} (hEnd : ∀ s r, Q s r)
    (h : Seats job (fun s r => (∃ e, r = .error e) → s.free) s p) : Seats job Q s (inSession p) := by
  refine Follows.session (h.mono fun s r hr => ?_)
  cases r with
  | ok a => exact hEnd s _
  | error e =>
    have hFree : s.free := hr ⟨e, rfl⟩
    refine ⟨?_, fun r => hEnd _ _⟩
    cases s <;> first | exact hFree.elim | exact .inr rfl | exact .inl rfl | rfl

end

section

variable {α : Type} {job : Job} {Q : SeatPhase → Except Exn α → Prop} {s : SeatPhase}

theorem snapshotOf_seats {room : Room} {f : Snapshot × Nat → Coro α} (hQ : Lax Q)
    (h : ∀ a, Seats job Q .idle (f a)) : Seats job Q .idle (snapshotOf room >>= f) := by
  refine Follows.bind (seats_call hQ.bind trivial fun rows => ?_)
  exact h _

theorem allocate_seats {host : User} {quiz : Quiz} {payload : RoomCreate} {n : Nat}
    {Q : SeatPhase → Except Exn (Option Room) → Prop} (hQ : Lax Q) (hNone : Q .idle (.ok none))
    (hSome : ∀ room, Q (.created room) (.ok (some room))) :
    Seats job Q .idle (allocate host quiz payload n) := by
  induction n with
  | zero => exact hNone
  | succ n ih =>
    refine seats_plain hQ rfl (.inl rfl) fun candidate => ?_
    refine seats_plain hQ rfl (.inl rfl) fun id => ?_
    refine Follows.bind (Follows.handle ⟨trivial, fun r => ?_⟩)
    cases r with
    | ok _ => exact hSome _
    | error e =>
      cases e with
      | integrity => exact ih
      | _ => exact hQ _ _ trivial

theorem createRoom_seats {O : Outside} {host : User} {payload : RoomCreate}
    {Q : SeatPhase → Except Exn (Room × String) → Prop} (hQ : Lax Q) (hOk : ∀ s a, Q s (.ok a)) :
    Seats job Q .idle (createRoom O host payload) := by
  refine seats_plain hQ rfl (.inl rfl) fun quiz => ?_
  split
  case h_2 => exact hQ _ _ trivial
  refine seats_refused hQ trivial (seats_refused hQ trivial ?_)
  refine Follows.bind (allocate_seats hQ.bind (hQ _ _ trivial) fun room => ?_)
  refine seats_plain hQ rfl (.inl rfl) fun eventId => ?_
  refine seats_plain hQ rfl (.inl rfl) fun now => ?_
  refine seats_call hQ trivial fun _ => ?_
  refine seats_call hQ trivial fun _ => ?_
  refine seats_call hQ rfl fun _ => ?_
  refine snapshotOf_seats hQ fun a => ?_
  refine seats_plain hQ rfl (.inl rfl) fun _ => ?_
  refine seats_plain hQ rfl (.inl rfl) fun issuedAt => ?_
  exact hOk _ _

theorem autoFlag_seats {code : String} {room r : Room} {userId : Option Id} {flags : List Flag}
    {Q : SeatPhase → Except Exn Unit → Prop} (hQ : Lax Q) (hOk : Q (.joining code r) (.ok ())) :
    Seats job Q (.joining code r) (autoFlag room userId flags) := by
  induction flags with
  | nil => exact hOk
  | cons flag flags ih =>
    refine seats_plain hQ rfl (.inl rfl) fun id => ?_
    refine seats_call hQ trivial fun _ => ?_
    refine seats_plain hQ rfl (.inl rfl) fun eventId => ?_
    refine seats_plain hQ rfl (.inl rfl) fun now => ?_
    exact seats_call hQ trivial fun _ => ih

theorem joinable_seats {code ip : String} {f : Room → Coro α} (hQ : Lax Q)
    (h : ∀ room, Seats job Q (.found code room) (f room)) :
    Seats job Q .idle (joinable code ip >>= f) := by
  refine Follows.bind (seats_plain hQ.bind rfl (.inl rfl) fun rate => ?_)
  refine seats_refused hQ.bind trivial ?_
  refine seats_call hQ.bind trivial fun row => ?_
  cases row with
  | none => exact hQ _ _ trivial
  | some room => exact seats_refused hQ.bind trivial (h room)

theorem joinRoom_seats {O : Outside} {code nickname ip : String} {user : Option User}
    {Q : SeatPhase → Except Exn JoinResponse → Prop} (hQ : Lax Q) (hOk : ∀ s a, Q s (.ok a)) :
    Seats job Q .idle (joinRoom O code nickname ip user) := by
  refine joinable_seats hQ fun room => ?_
  refine seats_call hQ ⟨rfl, rfl⟩ fun count => ?_
  by_cases hFull : count = -1
  · simp only [hFull, if_true]
    exact hQ _ _ (by simp [SeatPhase.next, SeatPhase.free])
  have hSeated : SeatPhase.next (.found code room) (.countAdmit code room.maxPlayers) (.ok count) =
      .seated code room := if_neg hFull
  rw [hSeated, if_neg hFull]
  refine seats_plain hQ rfl (.inl rfl) fun id => ?_
  refine Follows.bind (Follows.handle ⟨⟨rfl, rfl, rfl⟩, fun r => ?_⟩)
  cases r with
  | ok _ =>
    refine seats_plain (s := .joining code room) hQ rfl (.inl rfl) fun eventId => ?_
    refine seats_plain hQ rfl (.inl rfl) fun now => ?_
    refine seats_call hQ trivial fun _ => ?_
    refine Follows.bind (autoFlag_seats hQ.bind ?_)
    refine seats_call (s := .joining code room) hQ trivial fun _ => ?_
    refine snapshotOf_seats hQ fun a => ?_
    refine seats_plain hQ rfl (.inl rfl) fun _ => ?_
    exact seats_plain hQ rfl (.inl rfl) fun issuedAt => hOk _ _
  | error e =>
    cases e with
    | integrity =>
      refine seats_call (s := .refused code) hQ (.inl rfl) fun _ => ?_
      exact seats_call (s := .refused code) hQ (.inr rfl) fun _ => hQ _ _ trivial
    | _ => exact hQ _ _ trivial

theorem buildSnapshot_seats {code : String} {Q : SeatPhase → Except Exn Snapshot → Prop}
    (hQ : Lax Q) (hOk : ∀ s a, Q s (.ok a)) :
    Seats (.buildSnapshot code) Q .idle (buildSnapshot code) := by
  refine seats_plain hQ rfl (.inl rfl) fun cached => ?_
  split
  · exact hOk _ _
  refine seats_call hQ trivial fun row => ?_
  cases row with
  | none => exact hQ _ _ trivial
  | some room =>
    refine Follows.bind (seats_call hQ.bind ⟨rfl, rfl⟩ fun rows => ?_)
    refine seats_call hQ rfl fun _ => ?_
    exact seats_plain hQ rfl (.inl rfl) fun _ => hOk _ _

theorem jobBody_seats (O : Outside) (job : Job) :
    Seats job (fun _ _ => True) .idle (jobBody O job) := by
  have hQ : ∀ {α : Type}, Lax (α := α) fun s r => (∃ e, r = .error e) → s.free :=
    fun _ _ hs _ => hs
  have hOk : ∀ {α : Type} (s : SeatPhase) (a : α),
      (∃ e : Exn, (Except.ok a : Except Exn α) = .error e) → s.free := by
    rintro α s a ⟨e, he⟩
    cases he
  cases job with
  | createRoom host payload =>
    exact Follows.bind (seats_inSession (fun _ r => by cases r <;> trivial) (createRoom_seats hQ hOk))
  | joinRoom code nickname ip user =>
    exact Follows.bind (seats_inSession (fun _ r => by cases r <;> trivial) (joinRoom_seats hQ hOk))
  | buildSnapshot code =>
    exact Follows.bind (seats_inSession (fun _ r => by cases r <;> trivial) (buildSnapshot_seats hQ hOk))

end

section

variable {job : Job} {s : SeatPhase} {c : String} {m : Nat}

theorem SeatPhase.allows_countInit (h : s.allows job (.countInit c m)) : s = .seeding c m := by
  cases s <;> simp_all [SeatPhase.allows, SeatPhase.plain]

theorem SeatPhase.allows_countAdmit (h : s.allows job (.countAdmit c m)) :
    ∃ room, s = .found c room ∧ m = room.maxPlayers := by
  cases s <;> simp_all [SeatPhase.allows, SeatPhase.plain]

theorem SeatPhase.allows_countRelease (h : s.allows job (.countRelease c)) : s = .refused c := by
  cases s <;> simp_all [SeatPhase.allows, SeatPhase.plain]

theorem SeatPhase.allows_commit (h : s.allows job .commit) :
    (∃ c room, s = .joining c room) ∨ ∃ room, s = .created room := by
  cases s <;> simp_all [SeatPhase.allows, SeatPhase.plain]

theorem SeatPhase.next_seeding {o : Op} {r : Except Exn o.Res} (hAllowed : s.allows job o)
    (h : s.next o r = .seeding c m) :
    (∃ room, s = .found c room ∧ o = .activeParticipants room.id ∧ job = .buildSnapshot c) ∨
    (∃ room, s = .created room ∧ o = .commit ∧ c = room.code ∧ m = 0) := by
  cases r with
  | error e =>
    have hFree := next_error_free s o e
    rw [h] at hFree
    exact hFree.elim
  | ok v =>
    cases s with
    | idle =>
      cases o with
      | flush wr => cases wr <;> cases h
      | getByCode code => cases v <;> cases h
      | _ => cases h
    | found c' room =>
      cases o with
      | countAdmit code max =>
        simp only [SeatPhase.next] at h
        split at h <;> cases h
      | activeParticipants i =>
        cases h
        obtain ⟨hJob, rfl⟩ := hAllowed
        exact .inl ⟨room, rfl, rfl, hJob⟩
      | _ => cases h
    | seated c' room =>
      cases o with
      | flush wr => cases wr <;> cases h
      | _ => cases h
    | joining c' room => cases o <;> cases h
    | refused c' => cases o <;> cases h
    | created room =>
      cases o with
      | commit =>
        cases h
        exact .inr ⟨room, rfl, rfl, rfl, rfl⟩
      | _ => cases h
    | seeding c' n =>
      obtain rfl := hAllowed
      cases h
    | broken => cases o <;> cases h

end

/-- The room that was read under this code is in the table, whatever its status is. -/
def Known (w : World) (code : String) (room : Room) : Prop :=
  ∃ r ∈ w.rooms, r.code = code ∧ r.id = room.id ∧ r.maxPlayers = room.maxPlayers

def Write.quiet : Write → Bool
  | .event _ | .report _ => true
  | _ => false

def SeatPhase.Fits (w : World) (pid : Nat) : SeatPhase → Prop
  | .idle => w.seat pid = none ∧ w.tx pid = []
  | .found c room => w.seat pid = none ∧ w.tx pid = [] ∧ Known w c room
  | .seated c room => w.seat pid = some c ∧ w.tx pid = [] ∧ Known w c room
  | .joining c room => w.seat pid = some c ∧ Known w c room ∧
    ∃ p rest, w.tx pid = .participant p :: rest ∧ p.roomId = room.id ∧ rest.all Write.quiet ∧
      p.leftAt = none ∧ p.isKicked = false
  | .refused c => w.seat pid = some c ∧ w.tx pid = []
  | .created room => w.seat pid = none ∧
    ∃ rest, w.tx pid = .room room :: rest ∧ rest.all Write.quiet
  | .seeding c _ => w.seat pid = none ∧ w.tx pid = [] ∧ ∃ r ∈ w.rooms, r.code = c
  | .broken => True

def Write.room? : Write → Option Room
  | .room row => some row
  | _ => none

def Write.participant? : Write → Option Participant
  | .participant row => some row
  | _ => none

/-- The tables and the counters of the rooms are left alone, and so are the transactions
of the other programs. -/
structure Steady (pid : Nat) (w v : World) : Prop where
  rooms : v.rooms = w.rooms
  participants : v.participants = w.participants
  counter : v.counter = w.counter
  seat : v.seat = w.seat
  tx : ∀ q, q ≠ pid → v.tx q = w.tx q

/-- The calls that are not steady. -/
def Op.seats : Op → Bool
  | .commit | .countInit _ _ | .countAdmit _ _ | .countRelease _ => true
  | _ => false

section

variable {O : Outside} {w v : World} {job : Job} {pid n : Nat} {o : Op} {d : Decision}
  {out : Answer o} {s : SeatPhase}

/-- What a COMMIT does. -/
structure Committed (pid : Nat) (w v : World) : Prop where
  rooms : v.rooms = w.rooms ++ (w.tx pid).filterMap Write.room?
  participants : v.participants = w.participants ++ (w.tx pid).filterMap Write.participant?
  counter : v.counter = w.counter
  seat : v.seat = Function.update w.seat pid none
  tx : v.tx = Function.update w.tx pid []

theorem committed (w : World) (pid : Nat) : Committed pid w (w.commit pid) := by
  refine ⟨?_, ?_, ?_, rfl, ?_⟩
  · refine Transactions.applyAll_appends (g := World.rooms) fun wr w => ?_
    cases wr <;> simp [Write.apply, Write.room?]
  · refine Transactions.applyAll_appends (g := World.participants) fun wr w => ?_
    cases wr <;> simp [Write.apply, Write.participant?]
  · exact Transactions.applyAll_same (g := World.counter) fun wr _ w => by cases wr <;> rfl
  · refine Transactions.applyAll_same (g := fun v : World => Function.update v.tx pid []) fun wr _ w => ?_
    cases wr <;> rfl

theorem flushWrite_cases {wr : Write} {age : Nat} {out : Answer (.flush wr)}
    (h : flushWrite O w pid n wr age = some out) :
    (out = ⟨w, .error .integrity, none⟩) ∨
    (((w.stored ++ w.tx pid).any (wr.collides O.lower) = false ∧ w.blocked O.lower pid n wr = false) ∧
      out = ⟨{ w with tx := Function.update w.tx pid (w.tx pid ++ [w.stamp age wr]) }, .ok (), none⟩) := by
  unfold flushWrite at h
  split at h
  · cases h
    exact .inl rfl
  next hFree =>
    split at h
    · cases h
    next hOpen =>
      cases h
      exact .inr ⟨⟨by simpa using hFree, by simpa using hOpen⟩, rfl⟩

theorem admit_cases (w : World) (pid : Nat) (c : String) (m : Nat) :
    (capacityAdmit w pid c m).shared = w ∨ (w.count c < m ∧ (capacityAdmit w pid c m).shared =
      { w.setCount c (w.count c + 1) with seat := Function.update w.seat pid (some c) }) := by
  unfold capacityAdmit
  split
  · exact .inl rfl
  next hLt => exact .inr ⟨Nat.lt_of_not_le hLt, rfl⟩

theorem release_eq {c : String} (h : 0 < w.count c) : (release w pid c).shared =
    { w.setCount c (w.count c - 1) with seat := Function.update w.seat pid none } := by
  unfold release
  rw [if_neg (by omega)]

theorem release_rows (w : World) (pid : Nat) (c : String) :
    (release w pid c).shared.rooms = w.rooms ∧
    (release w pid c).shared.participants = w.participants ∧
    (release w pid c).shared.seat = Function.update w.seat pid none := by
  unfold release
  split <;> exact ⟨rfl, rfl, rfl⟩

theorem perform_spawned (h : perform O w pid n o d = some out) : out.spawned = none := by
  cases o with
  | flush wr => obtain rfl | ⟨-, rfl⟩ := flushWrite_cases h <;> rfl
  | countAdmit c m =>
    cases h
    unfold capacityAdmit
    split <;> rfl
  | countRelease c =>
    cases h
    unfold release
    split <;> rfl
  | _ =>
    cases h
    rfl

theorem perform_steady (ho : o.seats = false) (h : perform O w pid n o d = some out) :
    Steady pid w out.shared := by
  cases o with
  | flush wr =>
    obtain rfl | ⟨-, rfl⟩ := flushWrite_cases h
    · exact ⟨rfl, rfl, rfl, rfl, fun _ _ => rfl⟩
    · exact ⟨rfl, rfl, rfl, rfl, fun q hq => Function.update_of_ne hq _ _⟩
  | rollback =>
    cases h
    exact ⟨rfl, rfl, rfl, rfl, fun q hq => Function.update_of_ne hq _ _⟩
  | commit => cases ho
  | countInit c m => cases ho
  | countAdmit c m => cases ho
  | countRelease c => cases ho
  | _ =>
    cases h
    exact ⟨rfl, rfl, rfl, rfl, fun _ _ => rfl⟩

theorem perform_tx_subset (ho : o.seats = false) (hFlush : ∀ wr, o ≠ .flush wr)
    (h : perform O w pid n o d = some out) : out.shared.tx pid ⊆ w.tx pid := by
  cases o with
  | flush wr => exact absurd rfl (hFlush wr)
  | rollback =>
    cases h
    simp [World.endTx]
  | commit => cases ho
  | countInit c m => cases ho
  | countAdmit c m => cases ho
  | countRelease c => cases ho
  | _ =>
    cases h
    exact List.Subset.refl _

theorem exec_cases (h : exec O w job pid n o d = some out) :
    (d.fault = .none ∧ perform O w pid n o d = some out) ∨
    (out.result = .error .fault ∧ out.spawned = none ∧ ((d.fault = .fail ∧ out.shared = w) ∨
        ∃ a, d.fault = .lost ∧ perform O w pid n o d = some a ∧ out.shared = a.shared)) := by
  unfold exec at h
  split at h
  next hNone => exact .inl ⟨hNone, h⟩
  next hFail =>
    split at h <;> cases h
    exact .inr ⟨rfl, rfl, .inl ⟨hFail, rfl⟩⟩
  next hLost =>
    split at h
    · obtain ⟨a, ha, rfl⟩ := Option.map_eq_some_iff.mp h
      have hNone : a.spawned = none := perform_spawned ha
      exact .inr ⟨rfl, hNone, .inr ⟨a, hLost, ha, rfl⟩⟩
    · cases h

theorem next_fault (s : SeatPhase) (o : Op) : s.next o (.error .fault) = .broken := by
  cases o with
  | flush wr => cases s <;> cases wr <;> rfl
  | _ => cases s <;> rfl

/-- The rooms of `w` are in `v`, but for their status. -/
def Kept (w v : World) : Prop :=
  ∀ r ∈ w.rooms, ∃ r' ∈ v.rooms, r'.id = r.id ∧ r'.code = r.code ∧ r'.maxPlayers = r.maxPlayers

theorem Kept.of_eq (h : v.rooms = w.rooms) : Kept w v :=
  fun r hr => ⟨r, h ▸ hr, rfl, rfl, rfl⟩

theorem Known.kept {c : String} {room : Room} (h : Known w c room) (hKept : Kept w v) :
    Known v c room := by
  obtain ⟨r, hr, hCode, hId, hMax⟩ := h
  obtain ⟨r', hr', hId', hCode', hMax'⟩ := hKept r hr
  exact ⟨r', hr', hCode'.trans hCode, hId'.trans hId, hMax'.trans hMax⟩

theorem SeatPhase.Fits.congr (h : s.Fits w pid) (hSeat : v.seat pid = w.seat pid)
    (hTx : v.tx pid = w.tx pid) (hKept : Kept w v) : s.Fits v pid := by
  cases s with
  | idle => exact ⟨hSeat.trans h.1, hTx.trans h.2⟩
  | found c room => exact ⟨hSeat.trans h.1, hTx.trans h.2.1, h.2.2.kept hKept⟩
  | seated c room => exact ⟨hSeat.trans h.1, hTx.trans h.2.1, h.2.2.kept hKept⟩
  | joining c room =>
    obtain ⟨hs, hKnown, p, rest, hw, hp⟩ := h
    exact ⟨hSeat.trans hs, hKnown.kept hKept, p, rest, hTx.trans hw, hp⟩
  | refused c => exact ⟨hSeat.trans h.1, hTx.trans h.2⟩
  | created room =>
    obtain ⟨hs, rest, hw, hRest⟩ := h
    exact ⟨hSeat.trans hs, rest, hTx.trans hw, hRest⟩
  | seeding c n =>
    obtain ⟨hs, hw, r, hr, hCode⟩ := h
    obtain ⟨r', hr', -, hCode', -⟩ := hKept r hr
    exact ⟨hSeat.trans hs, hTx.trans hw, r', hr', hCode'.trans hCode⟩
  | broken => trivial

theorem perform_plain (ho : SeatPhase.plain o = true) (h : perform O w pid n o d = some out) :
    (∃ v, out.result = .ok v) ∧ out.shared.seat pid = w.seat pid ∧
      out.shared.tx pid = w.tx pid ∧ out.shared.rooms = w.rooms := by
  cases o with
  | flush wr => cases ho
  | _ =>
    first
    | (cases h; exact ⟨⟨_, rfl⟩, rfl, rfl, rfl⟩)
    | cases ho

section

variable {c : String} {room : Room}

theorem fits_idle (hAllowed : SeatPhase.idle.allows job o) (hFits : SeatPhase.idle.Fits w pid)
    (ho : SeatPhase.plain o = false) (h : perform O w pid n o d = some out) :
    (SeatPhase.idle.next o out.result).Fits out.shared pid := by
  cases o with
  | getByCode c =>
    cases h
    change (SeatPhase.next .idle (.getByCode c) (.ok (w.rooms.find? (·.code = c)))).Fits w pid
    cases hFind : w.rooms.find? (·.code = c) with
    | none => exact hFits
    | some room =>
      have hMem := List.mem_of_find?_eq_some hFind
      have hCode : room.code = c := by simpa using List.find?_some hFind
      exact ⟨hFits.1, hFits.2, room, hMem, hCode, rfl, rfl⟩
  | activeParticipants i =>
    cases h
    exact hFits
  | rollback =>
    cases h
    exact ⟨hFits.1, Function.update_self _ _ _⟩
  | flush wr =>
    cases wr with
    | room room =>
      obtain rfl | ⟨-, rfl⟩ := flushWrite_cases h
      · exact hFits
      · refine ⟨hFits.1, [], ?_, rfl⟩
        simp [hFits.2, World.stamp]
    | _ => simp [SeatPhase.allows, SeatPhase.plain] at hAllowed
  | _ => simp_all [SeatPhase.allows]

theorem fits_found (hAllowed : (SeatPhase.found c room).allows job o)
    (hFits : (SeatPhase.found c room).Fits w pid) (ho : SeatPhase.plain o = false)
    (h : perform O w pid n o d = some out) :
    ((SeatPhase.found c room).next o out.result).Fits out.shared pid := by
  cases o with
  | countAdmit c' m =>
    obtain ⟨rfl, rfl⟩ := hAllowed
    cases h
    unfold capacityAdmit
    split
    · exact hFits
    · refine ⟨Function.update_self _ _ _, hFits.2.1, hFits.2.2⟩
  | activeParticipants i =>
    cases h
    obtain ⟨hs, hw, r, hr, hCode, -⟩ := hFits
    exact ⟨hs, hw, r, hr, hCode⟩
  | rollback =>
    cases h
    exact ⟨hFits.1, Function.update_self _ _ _, hFits.2.2⟩
  | _ => simp_all [SeatPhase.allows]

theorem fits_seated (hAllowed : (SeatPhase.seated c room).allows job o)
    (hFits : (SeatPhase.seated c room).Fits w pid) (ho : SeatPhase.plain o = false)
    (h : perform O w pid n o d = some out) :
    ((SeatPhase.seated c room).next o out.result).Fits out.shared pid := by
  cases o with
  | rollback =>
    cases h
    exact ⟨hFits.1, Function.update_self _ _ _, hFits.2.2⟩
  | flush wr =>
    cases wr with
    | participant p =>
      obtain rfl | ⟨-, rfl⟩ := flushWrite_cases h
      · exact ⟨hFits.1, hFits.2.1⟩
      · refine ⟨hFits.1, hFits.2.2, { p with joinedAt := w.now - d.age }, [], ?_, hAllowed.1, rfl,
          hAllowed.2⟩
        simp [hFits.2.1, World.stamp]
    | _ => simp [SeatPhase.allows, SeatPhase.plain] at hAllowed
  | _ => simp_all [SeatPhase.allows]

theorem fits_joining (hAllowed : (SeatPhase.joining c room).allows job o)
    (hFits : (SeatPhase.joining c room).Fits w pid) (ho : SeatPhase.plain o = false)
    (h : perform O w pid n o d = some out) :
    ((SeatPhase.joining c room).next o out.result).Fits out.shared pid := by
  obtain ⟨hs, hKnown, p, rest, hw, hRoom, hRest, hActive⟩ := hFits
  cases o with
  | rollback =>
    cases h
    trivial
  | commit =>
    cases h
    exact ⟨Function.update_self _ _ _, by rw [(committed w pid).tx, Function.update_self]⟩
  | flush wr =>
    have hNote : ∀ wr' : Write, wr'.quiet = true → w.stamp d.age wr' = wr' → ∀ v : World,
        v.tx = Function.update w.tx pid (w.tx pid ++ [w.stamp d.age wr']) →
        ∃ p rest, v.tx pid = .participant p :: rest ∧ p.roomId = room.id ∧ rest.all Write.quiet ∧
          p.leftAt = none ∧ p.isKicked = false := by
      intro wr' hQuiet hStamp v hv
      refine ⟨p, rest ++ [wr'], ?_, hRoom, ?_, hActive⟩
      · rw [hv, Function.update_self, hw, hStamp, List.cons_append]
      · rw [List.all_append, hRest]
        simp [hQuiet]
    cases wr with
    | event e =>
      obtain rfl | ⟨-, rfl⟩ := flushWrite_cases h
      · trivial
      · exact ⟨hs, hKnown, hNote (.event e) rfl rfl _ rfl⟩
    | report e =>
      obtain rfl | ⟨-, rfl⟩ := flushWrite_cases h
      · trivial
      · exact ⟨hs, hKnown, hNote (.report e) rfl rfl _ rfl⟩
    | _ => simp [SeatPhase.allows, SeatPhase.plain] at hAllowed
  | _ => simp_all [SeatPhase.allows]

theorem fits_refused (hAllowed : (SeatPhase.refused c).allows job o)
    (hFits : (SeatPhase.refused c).Fits w pid) (h : perform O w pid n o d = some out) :
    ((SeatPhase.refused c).next o out.result).Fits out.shared pid := by
  obtain rfl | rfl := hAllowed
  · cases h
    exact ⟨hFits.1, Function.update_self _ _ _⟩
  · cases h
    unfold release
    split
    · exact ⟨Function.update_self _ _ _, hFits.2⟩
    · exact ⟨Function.update_self _ _ _, hFits.2⟩

theorem fits_created (hAllowed : (SeatPhase.created room).allows job o)
    (hFits : (SeatPhase.created room).Fits w pid) (ho : SeatPhase.plain o = false)
    (h : perform O w pid n o d = some out) :
    ((SeatPhase.created room).next o out.result).Fits out.shared pid := by
  obtain ⟨hs, rest, hw, hRest⟩ := hFits
  cases o with
  | rollback =>
    cases h
    trivial
  | commit =>
    cases h
    refine ⟨Function.update_self _ _ _, by rw [(committed w pid).tx, Function.update_self], room, ?_, rfl⟩
    rw [(committed w pid).rooms, hw]
    simp [Write.room?]
  | flush wr =>
    cases wr with
    | event e =>
      obtain rfl | ⟨-, rfl⟩ := flushWrite_cases h
      · trivial
      · refine ⟨hs, rest ++ [.event e], ?_, ?_⟩
        · simp [hw, World.stamp]
        · rw [List.all_append, hRest]
          rfl
    | _ => simp [SeatPhase.allows, SeatPhase.plain] at hAllowed
  | _ => simp_all [SeatPhase.allows]

end

theorem fits_perform (hAllowed : s.allows job o) (hFits : s.Fits w pid)
    (h : perform O w pid n o d = some out) : (s.next o out.result).Fits out.shared pid := by
  cases ho : SeatPhase.plain o with
  | true =>
    obtain ⟨⟨v, hv⟩, hSeat, hTx, hRooms⟩ := perform_plain ho h
    rw [hv, next_plain ho]
    exact hFits.congr hSeat hTx (.of_eq hRooms)
  | false =>
    cases s with
    | idle => exact fits_idle hAllowed hFits ho h
    | found c room => exact fits_found hAllowed hFits ho h
    | seated c room => exact fits_seated hAllowed hFits ho h
    | joining c room => exact fits_joining hAllowed hFits ho h
    | refused c => exact fits_refused hAllowed hFits h
    | created room => exact fits_created hAllowed hFits ho h
    | seeding c m =>
      obtain rfl := hAllowed
      cases h
      exact ⟨hFits.1, hFits.2.1⟩
    | broken =>
      obtain rfl := hAllowed
      cases h
      trivial

/-- What a step of `pid` leaves to the others. -/
structure Leaves (pid : Nat) (w v : World) : Prop where
  seat : ∀ q, q ≠ pid → v.seat q = w.seat q
  tx : ∀ q, q ≠ pid → v.tx q = w.tx q
  kept : Kept w v

theorem perform_leaves (h : perform O w pid n o d = some out) : Leaves pid w out.shared := by
  by_cases ho : o.seats = false
  · have hSteady := perform_steady ho h
    exact ⟨fun q _ => by rw [hSteady.seat], hSteady.tx, .of_eq hSteady.rooms⟩
  cases o with
  | commit =>
    cases h
    have hC := committed w pid
    refine ⟨fun q hq => ?_, fun q hq => ?_, fun r hr => ⟨r, ?_, rfl, rfl, rfl⟩⟩
    · rw [hC.seat, Function.update_of_ne hq]
    · rw [hC.tx, Function.update_of_ne hq]
    · rw [hC.rooms]
      exact List.mem_append_left _ hr
  | countInit c m =>
    cases h
    exact ⟨fun _ _ => rfl, fun _ _ => rfl, .of_eq rfl⟩
  | countAdmit c m =>
    cases h
    obtain hEq | ⟨-, hEq⟩ := admit_cases w pid c m
    · rw [hEq]
      exact ⟨fun _ _ => rfl, fun _ _ => rfl, .of_eq rfl⟩
    · rw [hEq]
      exact ⟨fun q hq => Function.update_of_ne hq _ _, fun _ _ => rfl, .of_eq rfl⟩
  | countRelease c =>
    cases h
    unfold release
    split
    · exact ⟨fun q hq => Function.update_of_ne hq _ _, fun _ _ => rfl, .of_eq rfl⟩
    · exact ⟨fun q hq => Function.update_of_ne hq _ _, fun _ _ => rfl, .of_eq rfl⟩
  | _ => exact absurd rfl ho

end

end LiveQuiz.Rooms
