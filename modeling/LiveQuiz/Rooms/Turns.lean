import LiveQuiz.Rooms.Service
import LiveQuiz.Lib.Monitor

/-! # How a join ends

What the calls of a program and their replies tell about its end: with a seat in its
hands it does not end unless a call has raised, and it answers `ROOM_FULL` after its
admission was refused, or because a call has raised just that.
-/

namespace LiveQuiz.Rooms

open Coroutine

set_option autoImplicit false

/-- `held`: the counter was raised for the program, and it has neither committed nor given
the seat back. `raised`: a call has raised, and nothing has caught it. -/
inductive Turn where
  | free
  | full (code : String) (maxPlayers : Nat)
  | held
  | raised (e : Exn)

namespace Turn

def allows (job : Job) : Turn → Op → Prop
  | s, .countAdmit c _ => s = .free ∧ ∃ nickname ip user, job = .joinRoom c nickname ip user
  | _, _ => True

def expected : Op → Exn → Bool
  | .flush (.room _), .integrity | .flush (.participant _), .integrity => true
  | _, _ => false

def next : Turn → (o : Op) → Except Exn o.Res → Turn
  | s, o, .error e => if expected o e then s else .raised e
  | .free, .countAdmit c m, .ok n => if n = -1 then .full c m else .held
  | .held, .commit, .ok _ | .held, .countRelease _, .ok _ => .free
  | s, _, .ok _ => s

end Turn

def turnMonitor (job : Job) : Monitor Op Op.Res Exn Turn where
  allowed := Turn.allows job
  next := Turn.next

def isFull : Exn → Bool
  | .auth code _ _ _ => code = "ROOM_FULL"
  | _ => false

def Turn.Ends {α : Type} : Turn → Except Exn α → Prop
  | .free, .error e => isFull e = false
  | .held, _ => False
  | .raised e, .error e' => e' = e
  | _, _ => True

section

variable {α β : Type} {job : Job} {s : Turn} {Q : Turn → Except Exn α → Prop}

abbrev Turns (job : Job) (Q : Turn → Except Exn α → Prop) : Turn → Coro α → Prop :=
  Follows (turnMonitor job) Q

/-- What every way to leave by an exception meets. -/
structure Leaving (Q : Turn → Except Exn α → Prop) : Prop where
  raised : ∀ e, Q (.raised e) (.error e)
  full : ∀ c m e, Q (.full c m) (.error e)
  free : ∀ e, isFull e = false → Q .free (.error e)

theorem leaving_ends : Leaving (Turn.Ends (α := α)) := ⟨fun _ => rfl, fun _ _ _ => trivial, fun _ h => h⟩

theorem Leaving.bind {f : β → Coro α} (hQ : Leaving Q) : Leaving (Before (turnMonitor job) Q f) :=
  ⟨hQ.raised, hQ.full, hQ.free⟩

theorem turns_call {o : Op} {f : o.Res → Coro α} (hQ : Leaving Q) (hAllowed : s.allows job o)
    (hNever : ∀ e, Turn.expected o e = false) (h : ∀ v, Turns job Q (s.next o (.ok v)) (f v)) :
    Turns job Q s (ask o >>= f) := by
  refine ⟨hAllowed, fun r => ?_⟩
  cases r with
  | ok v => exact h v
  | error e =>
    have hNext : s.next o (.error e) = .raised e := by
      rw [Turn.next, hNever, if_neg Bool.false_ne_true]
    change Q (s.next o (.error e)) (.error e)
    rw [hNext]
    exact hQ.raised e

theorem turns_refused {c : Prop} [Decidable c] {code : String} {status : Nat} {message : String}
    {details : List (String × String)} {f : β → Coro α} {p : Coro α} (hQ : Leaving Q)
    (hCode : code ≠ "ROOM_FULL") (h : Turns job Q .free p) :
    Turns job Q .free (if c then raise code status message details >>= f else p) := by
  split
  · exact hQ.free _ (decide_eq_false hCode)
  · exact h

theorem turns_inSession {p : Coro α} (h : Turns job Turn.Ends s p) :
    Turns job Turn.Ends s (inSession p) := by
  refine Follows.session (h.mono fun s r hr => ?_)
  cases r with
  | ok a => exact hr
  | error e =>
    refine ⟨trivial, fun r => ?_⟩
    cases r with
    | ok u => cases s <;> exact hr
    | error e' => rfl

end

section

variable {α : Type} {job : Job} {s : Turn} {Q : Turn → Except Exn α → Prop}

theorem snapshotOf_turns {room : Room} {f : Snapshot × Nat → Coro α} (hQ : Leaving Q)
    (h : ∀ a, Turns job Q .free (f a)) : Turns job Q .free (snapshotOf room >>= f) := by
  refine Follows.bind (turns_call hQ.bind trivial (fun _ => rfl) fun rows => ?_)
  exact h _

theorem allocate_turns {host : User} {quiz : Quiz} {payload : RoomCreate} {n : Nat}
    {Q : Turn → Except Exn (Option Room) → Prop} (hQ : Leaving Q) (hOk : ∀ a, Q .free (.ok a)) :
    Turns job Q .free (allocate host quiz payload n) := by
  induction n with
  | zero => exact hOk none
  | succ n ih =>
    refine turns_call hQ trivial (fun _ => rfl) fun candidate => ?_
    refine turns_call hQ trivial (fun _ => rfl) fun id => ?_
    refine Follows.bind (Follows.handle ⟨trivial, fun r => ?_⟩)
    cases r with
    | ok _ => exact hOk _
    | error e =>
      cases e with
      | integrity => exact ih
      | _ => exact hQ.raised _

theorem createRoom_turns {O : Outside} {host : User} {payload : RoomCreate} :
    Turns job Turn.Ends .free (createRoom O host payload) := by
  have hQ := leaving_ends (α := Room × String)
  refine turns_call hQ trivial (fun _ => rfl) fun quiz => ?_
  split
  case h_2 => exact hQ.free _ rfl
  refine turns_refused hQ (by decide) (turns_refused hQ (by decide) ?_)
  refine Follows.bind (allocate_turns hQ.bind fun row => ?_)
  cases row with
  | none => exact hQ.free _ rfl
  | some room =>
    refine turns_call hQ trivial (fun _ => rfl) fun eventId => ?_
    refine turns_call hQ trivial (fun _ => rfl) fun now => ?_
    refine turns_call hQ trivial (fun _ => rfl) fun _ => ?_
    refine turns_call hQ trivial (fun _ => rfl) fun _ => ?_
    refine turns_call hQ trivial (fun _ => rfl) fun _ => ?_
    refine snapshotOf_turns hQ fun a => ?_
    refine turns_call hQ trivial (fun _ => rfl) fun _ => ?_
    exact turns_call hQ trivial (fun _ => rfl) fun issuedAt => trivial

theorem autoFlag_turns {room : Room} {userId : Option Id} {flags : List Flag}
    {Q : Turn → Except Exn Unit → Prop} (hQ : Leaving Q) (hOk : Q .held (.ok ())) :
    Turns job Q .held (autoFlag room userId flags) := by
  induction flags with
  | nil => exact hOk
  | cons flag flags ih =>
    refine turns_call hQ trivial (fun _ => rfl) fun id => ?_
    refine turns_call hQ trivial (fun _ => rfl) fun _ => ?_
    refine turns_call hQ trivial (fun _ => rfl) fun eventId => ?_
    refine turns_call hQ trivial (fun _ => rfl) fun now => ?_
    exact turns_call hQ trivial (fun _ => rfl) fun _ => ih

theorem joinable_turns {code ip : String} {f : Room → Coro α} (hQ : Leaving Q)
    (h : ∀ room, Turns job Q .free (f room)) : Turns job Q .free (joinable code ip >>= f) := by
  refine Follows.bind (turns_call hQ.bind trivial (fun _ => rfl) fun rate => ?_)
  refine turns_refused hQ.bind (by decide) ?_
  refine turns_call hQ.bind trivial (fun _ => rfl) fun row => ?_
  cases row with
  | none => exact hQ.free _ rfl
  | some room => exact turns_refused hQ.bind (by decide) (h room)

theorem joinRoom_turns {O : Outside} {code nickname ip : String} {user : Option User} :
    Turns (.joinRoom code nickname ip user) Turn.Ends .free (joinRoom O code nickname ip user) := by
  have hQ := leaving_ends (α := JoinResponse)
  refine joinable_turns hQ fun room => ?_
  refine turns_call hQ ⟨rfl, nickname, ip, user, rfl⟩ (fun _ => rfl) fun count => ?_
  by_cases hFull : count = -1
  · have hNext : Turn.next .free (.countAdmit code room.maxPlayers) (.ok count) =
        .full code room.maxPlayers := if_pos hFull
    rw [hNext, if_pos hFull]
    exact hQ.full _ _ _
  have hNext : Turn.next .free (.countAdmit code room.maxPlayers) (.ok count) = .held := if_neg hFull
  rw [hNext, if_neg hFull]
  refine turns_call hQ trivial (fun _ => rfl) fun id => ?_
  refine Follows.bind (Follows.handle ⟨trivial, fun r => ?_⟩)
  cases r with
  | ok _ =>
    refine turns_call (s := .held) hQ trivial (fun _ => rfl) fun eventId => ?_
    refine turns_call hQ trivial (fun _ => rfl) fun now => ?_
    refine turns_call hQ trivial (fun _ => rfl) fun _ => ?_
    refine Follows.bind (autoFlag_turns hQ.bind ?_)
    refine turns_call (s := .held) hQ trivial (fun _ => rfl) fun _ => ?_
    refine snapshotOf_turns hQ fun a => ?_
    refine turns_call hQ trivial (fun _ => rfl) fun _ => ?_
    exact turns_call hQ trivial (fun _ => rfl) fun issuedAt => trivial
  | error e =>
    cases e with
    | integrity =>
      refine turns_call (s := .held) hQ trivial (fun _ => rfl) fun _ => ?_
      exact turns_call (s := .held) hQ trivial (fun _ => rfl) fun _ => hQ.free _ rfl
    | _ => exact hQ.raised _

theorem buildSnapshot_turns {code : String} :
    Turns job Turn.Ends .free (buildSnapshot code) := by
  have hQ := leaving_ends (α := Snapshot)
  refine turns_call hQ trivial (fun _ => rfl) fun cached => ?_
  split
  · trivial
  refine turns_call hQ trivial (fun _ => rfl) fun row => ?_
  cases row with
  | none => exact hQ.free _ rfl
  | some room =>
    refine Follows.bind (turns_call hQ.bind trivial (fun _ => rfl) fun rows => ?_)
    refine turns_call hQ trivial (fun _ => rfl) fun _ => ?_
    exact turns_call hQ trivial (fun _ => rfl) fun _ => trivial

theorem turns_map {β : Type} {g : α → β} {p : Coro α} (h : Turns job Turn.Ends s p) :
    Turns job Turn.Ends s (g <$> p) := by
  refine Follows.bind (h.mono fun s r hr => ?_)
  cases r with
  | ok a => cases s <;> exact hr
  | error e => cases s <;> exact hr

theorem jobBody_turns (O : Outside) (job : Job) : Turns job Turn.Ends .free (jobBody O job) := by
  cases job with
  | createRoom host payload => exact turns_map (turns_inSession createRoom_turns)
  | joinRoom code nickname ip user => exact turns_map (turns_inSession joinRoom_turns)
  | buildSnapshot code => exact turns_map (turns_inSession buildSnapshot_turns)

end

end LiveQuiz.Rooms
