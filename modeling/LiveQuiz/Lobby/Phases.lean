import LiveQuiz.Lobby.Steps

/-! # Where a join and a start stand

The calls of a join and their replies tell whether it has found its room in the lobby and
whether it has committed; those of a start, whether it has the row of its room, whether it
has moved the status and whether it has committed.
-/

namespace LiveQuiz.Lobby

open Coroutine

set_option autoImplicit false

def Job.joinCode : Job → Option String
  | .room (.joinRoom code _ _ _) => some code
  | _ => none

def Job.startCode : Job → Option String
  | .startMatch _ code => some code
  | _ => none

/-- `entering` and `joined` are the stretches of a join before its COMMIT and after it,
`holding`, `moved` and `started` those of a start. -/
inductive Phase where
  | idle
  | entering (code : String)
  | joined (code : String)
  | holding (roomId : Id)
  | moved (roomId : Id)
  | started
  | over

namespace Phase

def joins (code : String) : Phase → Op → Prop
  | s, .room (.getByCode c) => s = .idle ∧ c = code
  | _, .room (.flush wr) => wr.room? = none
  | s, .room .commit => s = .entering code
  | s, .room (.writeSnapshot c _) => s = .joined code ∧ c = code
  | _, .room (.readSnapshot _) => False
  | _, .room _ => True
  | _, _ => False

def starts (code : String) : Phase → Op → Prop
  | s, .lockRoom c => s = .idle ∧ c = code
  | s, .flush ws => ∃ i, s = .holding i ∧ ∀ j st, .setRoom j st ∈ ws → j = i
  | s, .commit => ∃ i, s = .moved i
  | s, .room (.writeSnapshot c _) => s = .started ∧ c = code
  | _, .questionCount _ | _, .rollback | _, .room .nextId | _, .room (.readSnapshot _) => True
  | _, _ => False

def allows (job : Job) (s : Phase) (o : Op) : Prop :=
  (∀ code, job.joinCode = some code → s.joins code o) ∧
  (∀ code, job.startCode = some code → s.starts code o) ∧
  ∀ ws, o = .flush ws → ∀ i st, .setRoom i st ∈ ws → st ≠ .lobby

def next : Phase → (o : Op) → Except Exn o.Res → Phase
  | .idle, .room (.getByCode c), .ok (some r) => if r.status = .lobby then .entering c else .idle
  | .entering c, .room .commit, .ok _ => .joined c
  | .joined _, .room (.writeSnapshot _ _), .ok _ => .over
  | .idle, .lockRoom _, .ok (some r) => .holding r.id
  | .holding i, .flush ws, .ok _ =>
    if (ws.findSome? HostWrite.room?).isSome then .moved i else .holding i
  | .moved _, .commit, .ok _ => .started
  | _, .room .rollback, .ok _ | _, .rollback, .ok _ => .over
  | s, _, .ok _ => s
  | _, _, .error _ => .over

end Phase

def phaseMonitor (job : Job) : Monitor Op Op.Res Exn Phase where
  allowed := Phase.allows job
  next := Phase.next

def roomMonitor (job : Job) : Monitor Rooms.Op Rooms.Op.Res Exn Phase where
  allowed s o := s.allows job (.room o)
  next s o r := s.next (.room o) r

def Lax {α : Type} (Q : Phase → Except Exn α → Prop) : Prop := ∀ s e, Q s (.error e)

section

variable {α β : Type} {job : Job} {Q : Phase → Except Exn α → Prop} {s : Phase} {code : String}

abbrev Tracks (job : Job) (Q : Phase → Except Exn α → Prop) : Phase → Coro α → Prop :=
  Follows (phaseMonitor job) Q

abbrev RoomTracks (job : Job) (Q : Phase → Except Exn α → Prop) : Phase → Rooms.Coro α → Prop :=
  Follows (roomMonitor job) Q

theorem tracks_lift {p : Rooms.Coro α} (h : RoomTracks job Q s p) : Tracks job Q s (lift p) := by
  induction p generalizing s with
  | done r => exact h
  | call o k ih => exact ⟨h.1, fun r => ih r (h.2 r)⟩

theorem Lax.bind {f : β → Coro α} (hQ : Lax Q) : Lax (Before (phaseMonitor job) Q f) := hQ

theorem Lax.bind_room {f : β → Rooms.Coro α} (hQ : Lax Q) : Lax (Before (roomMonitor job) Q f) := hQ

theorem tracks_call {o : Op} {f : o.Res → Coro α} (hQ : Lax Q) (hAllowed : s.allows job o)
    (h : ∀ v, Tracks job Q (s.next o (.ok v)) (f v)) : Tracks job Q s (ask o >>= f) := by
  refine ⟨hAllowed, fun r => ?_⟩
  cases r with
  | ok v => exact h v
  | error e => exact hQ _ e

theorem tracks_refused {c : Prop} [Decidable c] {text : String} {status : Nat} {message : String}
    {details : List (String × String)} {f : β → Coro α} {p : Coro α} (hQ : Lax Q)
    (h : Tracks job Q s p) : Tracks job Q s (if c then raise text status message details >>= f else p) := by
  split
  · exact hQ s _
  · exact h

theorem rollback_allowed (hJoin : job.joinCode = none) : s.allows job .rollback := by
  refine ⟨fun code h => ?_, fun _ _ => trivial, fun ws h => by cases h⟩
  rw [hJoin] at h
  cases h

theorem tracks_inSession {p : Coro α} (hJoin : job.joinCode = none)
    (h : Tracks job (fun _ _ => True) s p) : Tracks job (fun _ _ => True) s (inSession p) := by
  refine Follows.session (h.mono fun s r _ => ?_)
  cases r with
  | ok a => trivial
  | error e => exact ⟨rollback_allowed hJoin, fun _ => trivial⟩

theorem joins_allowed {nickname ip : String} {user : Option Rooms.User} {o : Rooms.Op}
    (h : s.joins code (.room o)) : s.allows (.room (.joinRoom code nickname ip user)) (.room o) := by
  refine ⟨fun c hc => ?_, fun c hc => (by cases hc), fun ws h => by cases h⟩
  cases hc
  exact h

variable {nickname ip : String} {user : Option Rooms.User}

theorem joining_call {o : Rooms.Op} {f : o.Res → Rooms.Coro α} (hQ : Lax Q)
    (hAllowed : s.joins code (.room o))
    (h : ∀ v, RoomTracks (.room (.joinRoom code nickname ip user)) Q (s.next (.room o) (.ok v)) (f v)) :
    RoomTracks (.room (.joinRoom code nickname ip user)) Q s (Rooms.ask o >>= f) := by
  refine ⟨joins_allowed hAllowed, fun r => ?_⟩
  cases r with
  | ok v => exact h v
  | error e => exact hQ _ e

theorem joining_refused {c : Prop} [Decidable c] {text : String} {status : Nat} {message : String}
    {details : List (String × String)} {f : β → Rooms.Coro α} {p : Rooms.Coro α} (hQ : Lax Q)
    (h : RoomTracks job Q s p) :
    RoomTracks job Q s (if c then LiveQuiz.raise text status message details >>= f else p) := by
  split
  · exact hQ s _
  · exact h

theorem autoFlag_tracks {c : String} {room : Rooms.Room} {userId : Option Id}
    {flags : List Rooms.Flag} {Q : Phase → Except Exn Unit → Prop} (hQ : Lax Q)
    (hOk : Q (.entering c) (.ok ())) :
    RoomTracks (.room (.joinRoom code nickname ip user)) Q (.entering c)
      (Rooms.autoFlag room userId flags) := by
  induction flags with
  | nil => exact hOk
  | cons flag flags ih =>
    refine joining_call hQ trivial fun id => ?_
    refine joining_call (s := .entering c) hQ rfl fun _ => ?_
    refine joining_call (s := .entering c) hQ trivial fun eventId => ?_
    refine joining_call (s := .entering c) hQ trivial fun now => ?_
    exact joining_call (s := .entering c) hQ rfl fun _ => ih

theorem joinable_tracks {f : Rooms.Room → Rooms.Coro α} (hQ : Lax Q)
    (h : ∀ room, RoomTracks (.room (.joinRoom code nickname ip user)) Q (.entering code) (f room)) :
    RoomTracks (.room (.joinRoom code nickname ip user)) Q .idle (Rooms.joinable code ip >>= f) := by
  refine Follows.bind (joining_call hQ.bind_room trivial fun rate => ?_)
  refine joining_refused hQ.bind_room ?_
  refine joining_call (s := .idle) hQ.bind_room ⟨rfl, rfl⟩ fun row => ?_
  cases row with
  | none => exact hQ _ _
  | some room =>
    by_cases hLobby : room.status = .lobby
    · have hNext : Phase.next .idle (.room (.getByCode code)) (.ok (some room)) = .entering code :=
        if_pos hLobby
      rw [hNext]
      exact joining_refused hQ.bind_room (h room)
    · change Follows _ _ _ (if room.status ≠ .lobby then _ else _)
      rw [if_pos hLobby]
      exact hQ _ _

theorem joinRoom_tracks {O : Rooms.Outside} :
    RoomTracks (.room (.joinRoom code nickname ip user)) (fun _ _ => True) .idle
      (Rooms.joinRoom O code nickname ip user) := by
  have hQ : ∀ {α : Type}, Lax (α := α) fun _ _ => True := fun _ _ => trivial
  refine joinable_tracks hQ fun room => ?_
  refine joining_call hQ trivial fun count => ?_
  refine joining_refused (s := .entering code) hQ ?_
  refine joining_call (s := .entering code) hQ trivial fun id => ?_
  refine Follows.bind (Follows.handle ⟨joins_allowed rfl, fun r => ?_⟩)
  cases r with
  | ok _ =>
    refine joining_call (s := .entering code) hQ trivial fun eventId => ?_
    refine joining_call (s := .entering code) hQ trivial fun now => ?_
    refine joining_call (s := .entering code) hQ rfl fun _ => ?_
    refine Follows.bind (autoFlag_tracks hQ.bind_room ?_)
    refine joining_call (s := .entering code) hQ rfl fun _ => ?_
    refine Follows.bind (joining_call (s := .joined code) hQ.bind_room trivial fun rows => ?_)
    refine joining_call (s := .joined code) hQ ⟨rfl, rfl⟩ fun _ => ?_
    exact joining_call (s := .over) hQ trivial fun issuedAt => trivial
  | error e =>
    cases e with
    | integrity =>
      refine joining_call (s := .over) hQ trivial fun _ => ?_
      exact joining_call (s := .over) hQ trivial fun _ => trivial
    | _ => trivial

theorem starts_allowed {host : Id} {o : Op} (h : s.starts code o)
    (hFlush : ∀ ws, o = .flush ws → ∀ i st, .setRoom i st ∈ ws → st ≠ .lobby) :
    s.allows (.startMatch host code) o := by
  refine ⟨fun c hc => (by cases hc), fun c hc => ?_, hFlush⟩
  cases hc
  exact h

variable {host : Id}

theorem starting_call {o : Op} {f : o.Res → Coro α} (hQ : Lax Q) (hAllowed : s.starts code o)
    (ho : ∀ ws, o ≠ .flush ws)
    (h : ∀ v, Tracks (.startMatch host code) Q (s.next o (.ok v)) (f v)) :
    Tracks (.startMatch host code) Q s (ask o >>= f) :=
  tracks_call hQ (starts_allowed hAllowed fun ws hEq => absurd hEq (ho ws)) h

theorem startTx_tracks {f : MatchRow × Nat → Coro α} (hQ : Lax Q)
    (h : ∀ a, Tracks (.startMatch host code) Q .started (f a)) :
    Tracks (.startMatch host code) Q .idle (startTx host code >>= f) := by
  refine Follows.bind (Follows.bind ?_)
  refine starting_call hQ.bind.bind ⟨rfl, rfl⟩ (fun _ => Op.noConfusion) fun row => ?_
  cases row with
  | none => exact hQ _ _
  | some room =>
    refine tracks_refused (s := .holding room.id) hQ.bind.bind ?_
    refine tracks_refused (s := .holding room.id) hQ.bind ?_
    refine starting_call (s := .holding room.id) hQ.bind trivial (fun _ => Op.noConfusion) fun count => ?_
    refine tracks_refused (s := .holding room.id) hQ.bind ?_
    refine starting_call (s := .holding room.id) hQ.bind trivial (fun _ => Op.noConfusion) fun id => ?_
    refine tracks_call (s := .holding room.id) hQ.bind (starts_allowed ⟨_, rfl, ?_⟩ ?_) fun _ => ?_
    · intro j st hMem
      simp at hMem
    · rintro ws ⟨⟩ i st hMem
      simp at hMem
    refine tracks_call (s := .holding room.id) hQ.bind (starts_allowed ⟨_, rfl, ?_⟩ ?_) fun _ => ?_
    · intro j st hMem
      obtain ⟨⟩ := List.mem_singleton.mp hMem
      rfl
    · rintro ws ⟨⟩ i st hMem
      obtain ⟨⟩ := List.mem_singleton.mp hMem
      simp
    exact starting_call (s := .moved room.id) hQ.bind ⟨_, rfl⟩ (fun _ => Op.noConfusion) fun _ => h _

theorem startMatch_tracks :
    Tracks (.startMatch host code) (fun _ _ => True) .idle (startMatch host code) := by
  have hQ : ∀ {α : Type}, Lax (α := α) fun _ _ => True := fun _ _ => trivial
  refine tracks_inSession rfl (startTx_tracks hQ fun a => Follows.bind ?_)
  refine starting_call hQ.bind trivial (fun _ => Op.noConfusion) fun row => ?_
  cases row with
  | none => trivial
  | some cached =>
    exact ⟨starts_allowed ⟨rfl, rfl⟩ fun ws hEq => (by cases hEq), fun r => by cases r <;> trivial⟩

def Job.bystander (job : Job) : Prop := job.joinCode = none ∧ job.startCode = none

theorem bystander_allowed {o : Op} (h : job.bystander)
    (hFlush : ∀ ws, o = .flush ws → ∀ i st, .setRoom i st ∈ ws → st ≠ .lobby) : s.allows job o := by
  refine ⟨fun c hc => ?_, fun c hc => ?_, hFlush⟩
  · rw [h.1] at hc
    cases hc
  · rw [h.2] at hc
    cases hc

theorem bystander_lift {p : Rooms.Coro α} (h : job.bystander) :
    RoomTracks job (fun _ _ => True) s p := by
  induction p generalizing s with
  | done r => trivial
  | call o k ih => exact ⟨bystander_allowed h fun ws hEq => (by cases hEq), fun r => ih r⟩

theorem bystander_call {o : Op} {f : o.Res → Coro α} (h : job.bystander) (ho : ∀ ws, o ≠ .flush ws)
    (hf : ∀ s v, Tracks job (fun _ _ => True) s (f v)) :
    Tracks job (fun _ _ => True) s (ask o >>= f) :=
  tracks_call (fun _ _ => trivial) (bystander_allowed h fun ws hEq => absurd hEq (ho ws)) fun v => hf _ v

theorem bystander_flush {ws : List HostWrite} {f : Unit → Coro α} (h : job.bystander)
    (hFlush : ∀ i st, .setRoom i st ∈ ws → st ≠ .lobby)
    (hf : ∀ s v, Tracks job (fun _ _ => True) s (f v)) :
    Tracks job (fun _ _ => True) s (ask (.flush ws) >>= f) := by
  refine tracks_call (fun _ _ => trivial) (bystander_allowed h ?_) fun v => hf _ v
  rintro ws' ⟨⟩
  exact hFlush

theorem moveMatch_tracks {status target : RoomStatus} {message : String} (h : job.bystander)
    (hTarget : target ≠ .lobby) :
    Tracks job (fun _ _ => True) s (moveMatch host code status target message) := by
  refine tracks_inSession h.1 (Follows.bind ?_)
  refine tracks_call (fun _ _ => trivial) (bystander_allowed h fun ws hEq => by cases hEq) fun row => ?_
  cases row with
  | none => trivial
  | some room =>
    refine tracks_refused (fun _ _ => trivial) ?_
    refine bystander_call h (fun _ => Op.noConfusion) fun s m => ?_
    cases m with
    | none => trivial
    | some m =>
      refine tracks_refused (fun _ _ => trivial) ?_
      refine bystander_flush h (fun i st hMem => ?_) fun s _ => ?_
      · simp only [List.mem_cons, reduceCtorEq, HostWrite.setRoom.injEq, List.not_mem_nil, or_false,
          false_or] at hMem
        rw [hMem.2]
        exact hTarget
      exact bystander_call h (fun _ => Op.noConfusion) fun s _ => trivial

theorem endMatch_tracks {matchId : Id} {hostId : Option Id} (h : job.bystander) :
    Tracks job (fun _ _ => True) s (endMatch matchId hostId) := by
  have hQ : ∀ {α : Type}, Lax (α := α) fun _ _ => True := fun _ _ => trivial
  refine tracks_inSession h.1 (Follows.bind ?_)
  refine tracks_call hQ.bind (bystander_allowed h fun ws hEq => by cases hEq) fun row => ?_
  cases row with
  | none => trivial
  | some m =>
    refine tracks_call hQ.bind (bystander_allowed h fun ws hEq => by cases hEq) fun row => ?_
    cases row with
    | none => trivial
    | some room =>
      refine tracks_refused hQ.bind ?_
      split
      · exact tracks_call hQ.bind (bystander_allowed h fun ws hEq => by cases hEq) fun _ => trivial
      refine tracks_call hQ.bind (bystander_allowed h ?_) fun _ => ?_
      · rintro ws ⟨⟩ i st hMem
        simp only [List.mem_cons, reduceCtorEq, HostWrite.setRoom.injEq, List.not_mem_nil, or_false,
          false_or] at hMem
        rw [hMem.2]
        simp
      refine tracks_call hQ.bind (bystander_allowed h fun ws hEq => by cases hEq) fun _ => ?_
      refine Follows.bind (tracks_call hQ.bind (bystander_allowed h fun ws hEq => by cases hEq) fun c => ?_)
      cases c with
      | none => trivial
      | some cached =>
        exact ⟨bystander_allowed h fun ws hEq => (by cases hEq), fun r => by cases r <;> trivial⟩

theorem mute_tracks {roomId userId : Option Id} (h : job.bystander) :
    Tracks job (fun _ _ => True) s (mute roomId userId) := by
  refine tracks_inSession h.1 (tracks_refused (fun _ _ => trivial) ?_)
  refine bystander_call h (fun _ => Op.noConfusion) fun s targets => ?_
  refine bystander_flush h (fun i st hMem => ?_) fun s _ => ?_
  · obtain ⟨_, -, hEq⟩ := List.mem_map.mp hMem
    cases hEq
  exact bystander_call h (fun _ => Op.noConfusion) fun s _ => trivial

theorem jobBody_tracks (O : Rooms.Outside) (job : Job) :
    Tracks job (fun _ _ => True) .idle (jobBody O job) := by
  cases job with
  | room job =>
    refine Follows.bind (tracks_lift ?_)
    refine Follows.mono (Q := fun _ _ => True) ?_ fun s r _ => by cases r <;> trivial
    cases job with
    | createRoom user payload => exact bystander_lift ⟨rfl, rfl⟩
    | buildSnapshot code => exact bystander_lift ⟨rfl, rfl⟩
    | joinRoom code nickname ip user =>
      refine Follows.bind (Follows.handle (joinRoom_tracks.mono fun s r _ => ?_))
      cases r with
      | ok a => trivial
      | error e => exact joining_call (fun _ _ => trivial) trivial fun _ => trivial
  | startMatch host code =>
    exact Follows.bind (startMatch_tracks.mono fun s r _ => by cases r <;> trivial)
  | pauseMatch host code =>
    exact Follows.bind ((moveMatch_tracks ⟨rfl, rfl⟩ (by simp)).mono fun s r _ => by cases r <;> trivial)
  | resumeMatch host code =>
    exact Follows.bind ((moveMatch_tracks ⟨rfl, rfl⟩ (by simp)).mono fun s r _ => by cases r <;> trivial)
  | endMatch m host =>
    exact Follows.bind ((endMatch_tracks ⟨rfl, rfl⟩).mono fun s r _ => by cases r <;> trivial)
  | mute roomId userId =>
    exact Follows.bind ((mute_tracks ⟨rfl, rfl⟩).mono fun s r _ => by cases r <;> trivial)

end

end LiveQuiz.Lobby
