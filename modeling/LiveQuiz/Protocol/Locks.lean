import LiveQuiz.Lib.LockOrder
import LiveQuiz.Lib.Monitor
import LiveQuiz.Protocol.Run

/-! # Which row locks a coroutine holds

A SELECT FOR UPDATE takes the lock of the row it returns, a flush the locks of the rows it
updates, and the end of the transaction gives all of them back. So the calls of a
coroutine and their replies tell which locks it holds, and its text tells in which order
it asks for them.
-/

namespace LiveQuiz

open Coroutine

set_option autoImplicit false

/-- The order of the row locks: a match, its room, then a question. -/
def RowRef.rank : RowRef → Nat
  | .match' _ => 0
  | .room _ => 1
  | .matchQuestion _ => 2

def LockQuery.rank : LockQuery → Nat
  | .matchById _ => 0
  | .roomByCode _ | .roomById _ => 1
  | .questionAt _ _ | .questionById _ => 2

/-- `broken`: a locking call or a COMMIT has raised, and a ROLLBACK is due. -/
inductive LockPhase where
  | holds (refs : List RowRef)
  | broken

/-- A FOR UPDATE asks for a row above all that are held. A flush may ask for the row of
a match out of order. -/
def LockPhase.allows : LockPhase → Op → Prop
  | .holds refs, .selectForUpdate q => ∀ r ∈ refs, r.rank < q.rank
  | .holds refs, .flush ws => ∀ r ∈ ws.filterMap Write.target, r ∈ refs ∨ ∃ i, r = .match' i
  | .broken, .selectForUpdate _ | .broken, .flush _ => False
  | _, _ => True

/-- The calls that have nothing to do with locks. -/
def Op.plain : Op → Bool
  | .selectForUpdate _ | .flush _ | .commit | .rollback => false
  | _ => true

def LockPhase.next : LockPhase → (o : Op) → Except Exn o.Res → LockPhase
  | .holds refs, .selectForUpdate q, .ok row => .holds ((row.map q.ref).toList ++ refs)
  | .holds refs, .flush ws, .ok _ => .holds (ws.filterMap Write.target ++ refs)
  | _, .commit, .ok _ | _, .rollback, .ok _ => .holds []
  | s, _, .ok _ => s
  | s, o, .error e => if o.plain ∧ e ≠ .crashed then s else .broken

def lockMonitor : Monitor Op Op.Res Exn LockPhase where
  allowed := LockPhase.allows
  next := LockPhase.next

def Lax {α : Type} (Q : LockPhase → Except Exn α → Prop) : Prop := ∀ s e, Q s (.error e)

section

variable {α β : Type} {Q : LockPhase → Except Exn α → Prop} {s : LockPhase}
  {refs : List RowRef}

abbrev Locks (Q : LockPhase → Except Exn α → Prop) : LockPhase → Coro α → Prop :=
  Follows lockMonitor Q

theorem Lax.bind {f : β → Coro α} (hQ : Lax Q) : Lax (Before lockMonitor Q f) := hQ

theorem next_plain {o : Op} (ho : o.plain = true) (v : o.Res) : s.next o (.ok v) = s := by
  cases s <;> cases o <;> first | rfl | cases ho

theorem allows_plain {o : Op} (ho : o.plain = true) : s.allows o := by
  cases s <;> cases o <;> first | exact True.intro | cases ho

theorem locks_plain {o : Op} {f : o.Res → Coro α} (hQ : Lax Q) (ho : o.plain = true)
    (h : ∀ v, Locks Q s (f v)) : Locks Q s (ask o >>= f) := by
  refine ⟨allows_plain ho, fun r => ?_⟩
  cases r with
  | ok v =>
    change Locks Q (s.next o (.ok v)) (f v)
    rw [next_plain ho]
    exact h v
  | error e => exact hQ _ e

theorem locks_last {o : Op} {Q : LockPhase → Except Exn o.Res → Prop} (hQ : Lax Q)
    (ho : o.plain = true) (hOk : ∀ v, Q s (.ok v)) : Locks Q s (ask o) := by
  refine ⟨allows_plain ho, fun r => ?_⟩
  cases r with
  | ok v =>
    change Q (s.next o (.ok v)) (.ok v)
    rw [next_plain ho]
    exact hOk v
  | error e => exact hQ _ e

theorem locks_select {q : LockQuery} {f : Option q.Row → Coro α} (hQ : Lax Q)
    (hAllowed : ∀ r ∈ refs, r.rank < q.rank) (hNone : Locks Q (.holds refs) (f none))
    (hSome : ∀ row, Locks Q (.holds (q.ref row :: refs)) (f (some row))) :
    Locks Q (.holds refs) (selectForUpdate q >>= f) := by
  refine ⟨hAllowed, fun r => ?_⟩
  cases r with
  | ok row =>
    cases row with
    | none => exact hNone
    | some row => exact hSome row
  | error e => exact hQ _ e

theorem locks_flush {ws : List Write} {f : Unit → Coro α} (hQ : Lax Q)
    (hAllowed : ∀ r ∈ ws.filterMap Write.target, r ∈ refs ∨ ∃ i, r = .match' i)
    (h : Locks Q (.holds (ws.filterMap Write.target ++ refs)) (f ())) :
    Locks Q (.holds refs) (flush ws >>= f) := by
  refine ⟨hAllowed, fun r => ?_⟩
  cases r with
  | ok _ => exact h
  | error e => exact hQ _ e

theorem locks_commit {f : Unit → Coro α} (hQ : Lax Q) (h : Locks Q (.holds []) (f ())) :
    Locks Q s (commit >>= f) := by
  refine ⟨by cases s <;> trivial, fun r => ?_⟩
  cases r with
  | ok _ => cases s <;> exact h
  | error e => exact hQ _ e

theorem locks_refused {c : Prop} [Decidable c] {code : String} {status : Nat} {message : String}
    {details : List (String × String)} {f : β → Coro α} {p : Coro α} (hQ : Lax Q)
    (h : Locks Q s p) : Locks Q s (if c then raise code status message details >>= f else p) := by
  split
  · exact hQ s _
  · exact h

theorem locks_withSession {p : Coro α} (hQ : Lax Q) (h : Locks Q s p) :
    Locks Q s (withSession p) := by
  refine Follows.session (h.mono fun s r hr => ?_)
  cases r with
  | ok a => exact hr
  | error e => exact ⟨by cases s <;> trivial, fun _ => hQ _ _⟩

/-- The COMMIT gives the locks back, so nothing of the body's is left to ask. -/
theorem locks_inTransaction {p : Coro α} (hQ : Lax Q)
    (h : Locks (fun _ r => ∀ a, r = .ok a → Q (.holds []) (.ok a)) s p) :
    Locks Q s (inTransaction p) := by
  refine locks_withSession hQ (Follows.bind (h.mono fun s r hr => ?_))
  cases r with
  | ok a => exact locks_commit hQ (hr a rfl)
  | error e => exact hQ s e

theorem locks_exceptException {p : Coro α} {default : α} (hQ : Lax Q)
    (hDefault : ∀ s, Q s (.ok default)) (h : Locks Q s p) :
    Locks Q s (exceptException p default) := by
  refine Follows.handle (h.mono fun s r hr => ?_)
  cases r with
  | ok a => exact hr
  | error e => cases e <;> first | exact hDefault s | exact hQ s _

theorem locks_broadcast {code : String} {message : Message} {f : Unit → Coro α} (hQ : Lax Q)
    (h : Locks Q s (f ())) : Locks Q s (broadcast code message >>= f) := by
  refine Follows.bind (locks_plain hQ.bind rfl fun _ => Follows.handle ⟨allows_plain rfl, fun r => ?_⟩)
  have hOk : lockMonitor.next s (.broadcast code message) (.ok ()) = s :=
    next_plain (o := .broadcast code message) rfl ()
  have hErr : ∀ e : Exn, e ≠ .crashed →
      lockMonitor.next s (.broadcast code message) (.error e) = s := by
    intro e he
    cases s <;> exact if_pos ⟨rfl, he⟩
  cases r with
  | ok _ =>
    rw [hOk]
    exact h
  | error e =>
    cases e with
    | crashed => exact hQ _ _
    | cancelled => exact hQ _ _
    | fault =>
      rw [hErr _ (by simp)]
      exact h
    | integrity =>
      rw [hErr _ (by simp)]
      exact h
    | auth =>
      rw [hErr _ (by simp)]
      exact h

theorem locks_sleep {p : Coro Unit} {d : Micros} {Q : LockPhase → Except Exn Unit → Prop}
    (hQ : Lax Q) (hEnd : ∀ s, Q s (.ok ())) (h : Locks Q s p) :
    Locks Q s (do if ← sleepUncancelled d then p) := by
  refine Follows.bind (locks_plain hQ.bind rfl fun now => Follows.handle ⟨allows_plain rfl, fun r => ?_⟩)
  cases r with
  | ok _ =>
    have hOk : lockMonitor.next s (.sleepUntil (now + d)) (.ok ()) = s :=
      next_plain (o := .sleepUntil (now + d)) rfl ()
    rw [hOk]
    exact h
  | error e => cases e <;> first | exact hEnd _ | exact hQ _ _

theorem armTx_locks {m : Id} {p : Nat}
    {Q : LockPhase → Except Exn (Option (String × Micros × QuestionPayload)) → Prop} (hQ : Lax Q)
    (hOk : ∀ s a, Q s (.ok a)) : Locks Q (.holds []) (armTx m p) := by
  refine locks_select hQ (by simp) (hOk _ _) fun mq => ?_
  dsimp only
  split
  · exact hOk _ _
  refine locks_plain hQ rfl fun row => ?_
  split
  case h_2 => exact hOk _ _
  split
  · exact hOk _ _
  refine locks_plain hQ rfl fun row => ?_
  split
  case h_2 => exact hOk _ _
  refine locks_plain hQ rfl fun options => ?_
  refine locks_plain hQ rfl fun row => ?_
  split
  case h_2 => exact hOk _ _
  refine locks_plain hQ rfl fun startedAt => ?_
  refine locks_plain hQ rfl fun eventId => ?_
  refine locks_flush hQ (by simp [Write.target, LockQuery.ref]) ?_
  refine locks_plain hQ rfl fun serverNow => ?_
  exact hOk _ _

theorem armQuestion_locks {m : Id} {p : Nat} {Q : LockPhase → Except Exn Unit → Prop} (hQ : Lax Q)
    (hEnd : ∀ s a, Q s (.ok a)) : Locks Q (.holds []) (armQuestion m p) := by
  refine Follows.bind (locks_exceptException hQ.bind (fun s => hEnd s ()) ?_)
  refine locks_inTransaction hQ.bind (armTx_locks (fun _ _ _ h => by cases h) fun _ a b h => ?_)
  cases h
  cases a with
  | none => exact hEnd _ _
  | some a =>
    refine locks_plain hQ rfl fun _ => locks_broadcast hQ ?_
    exact locks_plain hQ rfl fun now => locks_last hQ rfl (hEnd _)

theorem endTx_locks {m : Id} {host : Option Id} {Q : LockPhase → Except Exn Ended → Prop}
    (hQ : Lax Q) (hOk : ∀ s a, Q s (.ok a)) : Locks Q (.holds []) (endTx m host) := by
  refine locks_select hQ (by simp) (hQ _ _) fun row => ?_
  refine locks_select hQ (by simp [LockQuery.ref, RowRef.rank, LockQuery.rank]) (hQ _ _)
    fun room => ?_
  refine locks_refused hQ ?_
  dsimp only
  split
  · exact hOk _ _
  refine locks_plain hQ rfl fun subs => ?_
  refine locks_plain hQ rfl fun participants => ?_
  refine locks_plain hQ rfl fun endedAt => ?_
  refine locks_plain hQ rfl fun eventId => ?_
  refine locks_flush hQ ?_ (hOk _ _)
  simp [List.filterMap_append, List.filterMap_map, Function.comp_def, Write.target, LockQuery.ref]

theorem endMatch_locks {m : Id} {host : Option Id} {Q : LockPhase → Except Exn Match → Prop}
    (hQ : Lax Q) (hOk : ∀ s a, Q s (.ok a)) : Locks Q (.holds []) (endMatch m host) := by
  refine locks_plain hQ rfl fun _ => ?_
  refine Follows.bind (locks_inTransaction hQ.bind
    (endTx_locks (fun _ _ _ h => by cases h) fun _ ended b h => ?_))
  cases h
  dsimp only [Before]
  split
  · exact hOk _ _
  refine locks_broadcast hQ (locks_plain hQ rfl fun cached => ?_)
  split
  · exact locks_plain hQ rfl fun _ => hOk _ _
  · exact hOk _ _

theorem closeTx_locks {m : Id} {p : Nat} {Q : LockPhase → Except Exn (Option Closed) → Prop}
    (hQ : Lax Q) (hOk : ∀ s a, Q s (.ok a)) : Locks Q (.holds []) (closeTx m p) := by
  refine locks_select hQ (by simp) (hOk _ _) fun mq => ?_
  dsimp only
  split
  · exact hOk _ _
  refine locks_plain hQ rfl fun row => ?_
  split
  case h_2 => exact hOk _ _
  split
  · exact hOk _ _
  refine locks_plain hQ rfl fun row => ?_
  split
  case h_2 => exact hOk _ _
  refine locks_plain hQ rfl fun options => ?_
  refine locks_plain hQ rfl fun question => ?_
  refine locks_plain hQ rfl fun closedAt => ?_
  refine locks_flush hQ (by simp [Write.target, LockQuery.ref]) ?_
  refine locks_plain hQ rfl fun all => ?_
  refine locks_plain hQ rfl fun eventId => ?_
  exact locks_flush hQ (by simp [Write.target]) (hOk _ _)

theorem closedAccuracy_locks {m : Id} {mq : MatchQuestion} {f : Option ℚ → Coro α} (hQ : Lax Q)
    (h : ∀ accuracy, Locks Q s (f accuracy)) : Locks Q s (closedAccuracy m mq >>= f) := by
  refine Follows.bind (locks_plain hQ.bind rfl fun answered => ?_)
  split
  · exact h none
  · exact locks_plain hQ.bind rfl fun correct => h _

theorem closeQuestion_locks {m : Id} {p : Nat} {Q : LockPhase → Except Exn Unit → Prop}
    (hQ : Lax Q) (hOk : ∀ s a, Q s (.ok a)) : Locks Q (.holds []) (closeQuestion m p) := by
  refine Follows.bind (locks_exceptException hQ.bind (fun s => hOk s ()) ?_)
  refine locks_inTransaction hQ.bind (closeTx_locks (fun _ _ _ h => by cases h) fun _ a b h => ?_)
  cases h
  cases a with
  | none => exact hOk _ _
  | some closed =>
    refine closedAccuracy_locks hQ fun accuracy => locks_broadcast hQ ?_
    split
    · exact Follows.bind (endMatch_locks hQ.bind fun _ _ => hOk _ _)
    · exact locks_last hQ rfl (hOk _)

theorem drawIds_locks {n : Nat} {Q : LockPhase → Except Exn (List Id) → Prop} (hQ : Lax Q)
    (hOk : ∀ ids, Q s (.ok ids)) : Locks Q s (drawIds n) := by
  induction n generalizing Q with
  | zero => exact hOk []
  | succ n ih => exact locks_plain hQ rfl fun id => Follows.bind (ih hQ.bind fun ids => hOk _)

theorem startTx_locks {host : Id} {code : String}
    {Q : LockPhase → Except Exn (Match × Room × Nat) → Prop} (hQ : Lax Q)
    (hOk : ∀ a, Q (.holds []) (.ok a)) : Locks Q (.holds []) (startTx host code) := by
  refine locks_select hQ (by simp) (hQ _ _) fun room => ?_
  refine locks_refused hQ (locks_refused hQ ?_)
  refine locks_plain hQ rfl fun quiz => ?_
  split
  case h_2 => exact hQ _ _
  refine locks_plain hQ rfl fun questions => ?_
  refine locks_refused hQ ?_
  refine locks_plain hQ rfl fun startedAt => ?_
  refine locks_plain hQ rfl fun matchId => ?_
  refine locks_flush hQ (by simp [Write.target]) ?_
  refine Follows.bind (drawIds_locks hQ.bind fun ids => ?_)
  refine locks_flush hQ (by simp [Write.target]) ?_
  refine locks_plain hQ rfl fun eventId => ?_
  refine locks_flush hQ (by simp [Write.target, LockQuery.ref]) ?_
  exact locks_commit hQ (hOk _)

theorem startMatch_locks {host : Id} {code : String} {Q : LockPhase → Except Exn Match → Prop}
    (hQ : Lax Q) (hOk : ∀ s a, Q s (.ok a)) : Locks Q (.holds []) (startMatch host code) := by
  refine locks_withSession hQ (Follows.bind (startTx_locks hQ.bind fun a => ?_))
  obtain ⟨m, room, count⟩ := a
  have hSeeded : Locks Q (.holds []) (do
      let serverNow ← utcnow
      broadcast room.code (.matchStarted m.id count serverNow)
      createTask (.armQuestion m.id 1)
      return m) :=
    locks_plain hQ rfl fun _ => locks_broadcast hQ (locks_plain hQ rfl fun _ => hOk _ _)
  have hReset : Locks (Before lockMonitor Q fun _ => do
      let serverNow ← utcnow
      broadcast room.code (.matchStarted m.id count serverNow)
      createTask (.armQuestion m.id 1)
      return m) (.holds []) 
      (resetMatchState m room count) := by
    refine locks_plain hQ.bind rfl fun _ => locks_plain hQ.bind rfl fun cached => ?_
    split
    · exact locks_last hQ.bind rfl fun _ => hSeeded
    · exact hSeeded
  refine Follows.bind (locks_plain hQ.bind rfl fun participants => ?_)
  dsimp only
  split
  · exact locks_plain hQ.bind rfl fun _ => hReset
  · exact hReset

theorem hostedMatch_locks {host : Id} {code : String} {status : RoomStatus} {message : String}
    {f : Room × Match × List MatchQuestion → Coro α} (hQ : Lax Q)
    (h : ∀ room m loaded, Locks Q (.holds [.room room.id]) (f (room, m, loaded))) :
    Locks Q (.holds []) (hostedMatch host code status message >>= f) := by
  refine Follows.bind (locks_select hQ.bind (by simp) (hQ _ _) fun room => ?_)
  refine locks_refused hQ.bind (locks_plain hQ.bind rfl fun row => ?_)
  split
  case h_2 => exact hQ _ _
  refine locks_plain hQ.bind rfl fun loaded => locks_refused hQ.bind ?_
  exact h _ _ _

theorem pauseMatch_locks {host : Id} {code : String} {Q : LockPhase → Except Exn Match → Prop}
    (hQ : Lax Q) (hOk : ∀ s a, Q s (.ok a)) : Locks Q (.holds []) (pauseMatch host code) := by
  refine locks_withSession hQ (hostedMatch_locks hQ fun room m loaded => ?_)
  refine locks_plain hQ rfl fun active => ?_
  have hRest : ∀ remaining, Locks Q (.holds [.room room.id]) (do
      flush [.updateRoom room.id .paused none none, .updateMatch m.id .paused none]
      commit
      cancelActive m.id
      redis (.setPause m.id ⟨(active.map (identityMapped loaded)).map (·.position), remaining⟩)
      return m.patch .paused none) := by
    intro remaining
    refine locks_flush hQ (by simp [Write.target]) (locks_commit hQ ?_)
    exact locks_plain hQ rfl fun _ => locks_plain hQ rfl fun _ => hOk _ _
  refine Follows.bind ?_
  unfold remainingMs
  split
  · exact hRest 0
  · exact locks_plain hQ.bind rfl fun now => hRest _

theorem rearm_locks {m : Id} {position : Option Nat} {remaining : Int}
    {Q : LockPhase → Except Exn Unit → Prop} (hQ : Lax Q) (hOk : ∀ s a, Q s (.ok a)) :
    Locks Q s (rearm m position remaining) := by
  have hNext : Locks Q s (rearm.armNext m) := by
    refine locks_plain hQ rfl fun next => ?_
    split
    · exact locks_last hQ rfl (hOk _)
    · exact hOk _ _
  unfold rearm
  split
  · split
    · exact locks_last hQ rfl (hOk _)
    · exact hNext
  · exact hNext

theorem extendDeadline_locks {m : Id} {loaded : List MatchQuestion} {position : Option Nat}
    {remaining : Int} {room : Id} {f : List Write → Coro α} (hQ : Lax Q)
    (h : ∀ refs ws, .room room ∈ refs → (∀ r ∈ ws.filterMap Write.target, r ∈ refs) →
      Locks Q (.holds refs) (f ws)) :
    Locks Q (.holds [.room room]) (extendDeadline m loaded position remaining >>= f) := by
  refine Follows.bind ?_
  unfold extendDeadline
  split
  · exact h _ [] (by simp) (by simp)
  · refine locks_select hQ.bind (by simp [RowRef.rank, LockQuery.rank]) (h _ [] (by simp) (by simp))
      fun row => ?_
    dsimp only
    split
    · exact h _ [] (by simp) (by simp)
    · exact locks_plain hQ.bind rfl fun now => h _ _ (by simp) (by simp [Write.target, LockQuery.ref])

theorem resumeMatch_locks {host : Id} {code : String} {Q : LockPhase → Except Exn Match → Prop}
    (hQ : Lax Q) (hOk : ∀ s a, Q s (.ok a)) : Locks Q (.holds []) (resumeMatch host code) := by
  refine locks_withSession hQ (hostedMatch_locks hQ fun room m loaded => ?_)
  refine locks_plain hQ rfl fun record => ?_
  refine extendDeadline_locks hQ fun refs ws hRoom hws => ?_
  refine locks_flush hQ (fun r hr => ?_) (locks_commit hQ ?_)
  · rw [List.filterMap_append, List.mem_append] at hr
    obtain hr | hr := hr
    · obtain rfl | rfl : r = .room room.id ∨ r = .match' m.id := by simpa [Write.target] using hr
      · exact .inl hRoom
      · exact .inr ⟨_, rfl⟩
    · exact .inl (hws r hr)
  · exact Follows.bind (rearm_locks hQ.bind fun _ _ => hOk _ _)

theorem admitAnswer_locks {m p mq : Id}
    {f : MatchQuestion × Match × Micros × Micros × Micros × RoomParticipant → Coro α} (hQ : Lax Q)
    (h : ∀ a refs, Locks Q (.holds refs) (f a)) :
    Locks Q (.holds []) (admitAnswer m p mq >>= f) := by
  refine Follows.bind (locks_select hQ.bind (by simp) (hQ _ _) fun row => ?_)
  refine locks_refused hQ.bind (locks_plain hQ.bind rfl fun found => ?_)
  split
  case h_2 => exact hQ _ _
  refine locks_plain hQ.bind rfl fun now => ?_
  refine locks_refused hQ.bind (locks_refused hQ.bind ?_)
  split
  case h_2 => exact hQ _ _
  refine locks_refused hQ.bind (locks_plain hQ.bind rfl fun participant => ?_)
  split
  case h_2 => exact hQ _ _
  exact locks_refused hQ.bind (h _ _)

theorem existingSubmission_locks {mq p : Id} {rid : String} {f : AnswerSubmission → Coro α}
    (hQ : Lax Q) (h : ∀ row, Locks Q s (f row)) :
    Locks Q s (existingSubmission mq p rid >>= f) := by
  refine Follows.bind (locks_plain hQ.bind rfl fun found => ?_)
  split
  · exact h _
  · refine locks_plain hQ.bind rfl fun found => ?_
    split
    · exact h _
    · exact hQ _ _

theorem submitTx_locks {m p : Id} {payload : AnswerSubmitRequest} {rid : String}
    {Q : LockPhase → Except Exn SubmitResult → Prop} (hQ : Lax Q) (hOk : ∀ s a, Q s (.ok a)) :
    Locks Q (.holds []) (submitTx m p payload rid) := by
  refine admitAnswer_locks hQ fun a refs => ?_
  obtain ⟨mq, row, now, deadlineAt, startedAt, participant⟩ := a
  refine locks_plain hQ rfl fun options => ?_
  dsimp only
  split
  case h_2 => exact hQ _ _
  refine locks_plain hQ rfl fun question => ?_
  refine locks_plain hQ rfl fun room => ?_
  refine locks_plain hQ rfl fun id => ?_
  refine Follows.bind (Follows.handle ⟨by simp [lockMonitor, LockPhase.allows, Write.target], fun r => ?_⟩)
  cases r with
  | ok _ =>
    refine locks_plain hQ rfl fun eventId => ?_
    exact locks_flush hQ (by simp [Write.target]) (hOk _ _)
  | error e =>
    cases e with
    | integrity =>
      change Locks Q .broken (do
        let existing ← existingSubmission mq.id p rid
        return .duplicate (.ofRow existing none))
      exact existingSubmission_locks hQ fun row => hOk _ _
    | _ => exact hQ _ _

theorem top_locks {m : Id} {n : Nat} {f : List LeaderboardEntry → Coro α} (hQ : Lax Q)
    (h : ∀ entries, Locks Q s (f entries)) : Locks Q s (top m n >>= f) := by
  refine Follows.bind (locks_plain hQ.bind rfl fun rows => ?_)
  dsimp only
  split
  · exact h _
  · exact locks_plain hQ.bind rfl fun nicks => h _

theorem submitHooks_locks {row : AnswerSubmission} {questionId : Id} {nickname : String}
    {roomCode : Option String} {Q : LockPhase → Except Exn Response → Prop} (hQ : Lax Q)
    (hOk : ∀ s a, Q s (.ok a)) : Locks Q s (submitHooks row questionId nickname roomCode) := by
  refine locks_plain hQ rfl fun _ => locks_plain hQ rfl fun _ => locks_plain hQ rfl fun _ => ?_
  refine top_locks hQ fun entries => locks_plain hQ rfl fun version => ?_
  split
  · exact locks_broadcast hQ (locks_plain hQ rfl fun _ => hOk _ _)
  · exact locks_plain hQ rfl fun _ => hOk _ _

theorem submitAnswer_locks {m p : Id} {payload : AnswerSubmitRequest} {rid : String}
    {Q : LockPhase → Except Exn Response → Prop} (hQ : Lax Q) (hOk : ∀ s a, Q s (.ok a)) :
    Locks Q (.holds []) (submitAnswer m p payload rid) := by
  refine locks_refused hQ (locks_plain hQ rfl fun cached => ?_)
  split
  · exact hOk _ _
  · refine Follows.bind (locks_inTransaction hQ.bind
      (submitTx_locks (fun _ _ _ h => by cases h) fun _ result b h => ?_))
    cases h
    cases result with
    | duplicate response => exact locks_plain hQ rfl fun _ => hOk _ _
    | inserted row questionId nickname roomCode => exact submitHooks_locks hQ hOk

theorem recoverAll_locks {ms : List Match} {Q : LockPhase → Except Exn Nat → Prop} (hQ : Lax Q)
    (hOk : ∀ n, Q s (.ok n)) : Locks Q s (recoverAll ms) := by
  induction ms generalizing Q with
  | nil => exact hOk 0
  | cons m ms ih =>
    have hRest : ∀ n, Locks Q s (do
        let rest ← recoverAll ms
        return n + rest) := fun n => Follows.bind (ih hQ.bind fun rest => hOk _)
    refine Follows.bind (locks_plain hQ.bind rfl fun found => ?_)
    split
    · dsimp only
      split
      · refine locks_plain hQ.bind rfl fun now => ?_
        split
        · exact locks_plain hQ.bind rfl fun _ => hRest 1
        · exact locks_plain hQ.bind rfl fun _ => hRest 1
      · exact hRest 0
    · refine locks_plain hQ.bind rfl fun next => ?_
      split
      · exact locks_plain hQ.bind rfl fun _ => hRest 1
      · exact hRest 0

theorem jobBody_locks (job : Job) : Locks (fun _ _ => True) (.holds []) (jobBody job) := by
  have hQ : @Lax Ret fun _ _ => True := fun _ _ => trivial
  cases job with
  | startMatch h c => exact Follows.bind (startMatch_locks hQ.bind fun _ _ => trivial)
  | pauseMatch h c => exact Follows.bind (pauseMatch_locks hQ.bind fun _ _ => trivial)
  | resumeMatch h c => exact Follows.bind (resumeMatch_locks hQ.bind fun _ _ => trivial)
  | endMatch m h => exact Follows.bind (endMatch_locks hQ.bind fun _ _ => trivial)
  | submitAnswer m p payload r => exact Follows.bind (submitAnswer_locks hQ.bind fun _ _ => trivial)
  | recoverRunningMatches =>
    exact Follows.bind (locks_plain hQ.bind rfl fun ms => recoverAll_locks hQ.bind fun _ => trivial)
  | armQuestion m p => exact Follows.bind (armQuestion_locks hQ.bind fun _ _ => trivial)
  | closeQuestion m p => exact Follows.bind (closeQuestion_locks hQ.bind fun _ _ => trivial)
  | closeQuestionAfter m p d =>
    exact Follows.bind (locks_sleep hQ.bind (fun _ => trivial)
      (closeQuestion_locks hQ.bind fun _ _ => trivial))
  | gapThenArm m p d =>
    exact Follows.bind (locks_sleep hQ.bind (fun _ => trivial)
      (armQuestion_locks hQ.bind fun _ _ => trivial))

end

/-- What a call does to the lock table: nothing, the end of a transaction, one row, or the
rows of a flush. Only a COMMIT changes the tables, and it gives the locks back. -/
inductive Relocks (w : World) (pid : Nat) : Op → World → Prop
  | kept (o : Op) (v : World) : v.db = w.db → v.lock = w.lock → Relocks w pid o v
  | freed (o : Op) (v : World) :
      v.db = w.db ∨ (o = .commit ∧ v.db = applyAll (w.tx pid).writes w.db) →
      (∀ r, v.lock r = if w.lock r = some pid then none else w.lock r) → Relocks w pid o v
  | row (q : LockQuery) (row : q.Row) (v : World) : q.find (w.view pid) = some row → v.db = w.db →
      w.free (q.ref row) pid = true →
      (∀ r, v.lock r = if r = q.ref row then some pid else w.lock r) →
      Relocks w pid (.selectForUpdate q) v
  | rows (ws : List Write) (v : World) : v.db = w.db →
      (∀ r ∈ ws.filterMap Write.target, w.free r pid = true) →
      (∀ r, v.lock r = if r ∈ ws.filterMap Write.target then some pid else w.lock r) →
      Relocks w pid (.flush ws) v

def LockPhase.Fits (w : World) (pid : Nat) : LockPhase → Prop
  | .holds refs => ∀ r, w.lock r = some pid ↔ r ∈ refs
  | .broken => True

section

variable {w v : World} {t : Task} {pid n : Nat} {o : Op} {d : Decision} {out : Answer o}
  {s : LockPhase}

theorem LockPhase.Fits.congr (h : s.Fits w pid) (hLock : ∀ r, v.lock r = some pid ↔ w.lock r = some pid) :
    s.Fits v pid := by
  cases s with
  | holds refs => exact fun r => (hLock r).trans (h r)
  | broken => trivial

theorem perform_plain (ho : o.plain = true) (h : perform w t pid n o d = some out) :
    out.shared.lock = w.lock ∧ out.shared.db = w.db := by
  have hCancel : ∀ (v : World) (p : Option Nat),
      (v.requestCancel p).lock = v.lock ∧ (v.requestCancel p).db = v.db := by
    intro v p
    cases p <;> exact ⟨rfl, rfl⟩
  cases o with
  | selectForUpdate q => cases ho
  | flush ws => cases ho
  | commit => cases ho
  | rollback => cases ho
  | sleepUntil u =>
    simp only [perform] at h
    split at h <;> cases h
    exact ⟨rfl, rfl⟩
  | select query =>
    cases h
    cases query <;> exact ⟨rfl, rfl⟩
  | setActive m j =>
    cases h
    exact hCancel _ _
  | cancelActive m =>
    cases h
    exact hCancel _ _
  | _ =>
    cases h
    exact ⟨rfl, rfl⟩

theorem acquireAll_lock (ws : List Write) (r : RowRef) : (w.acquireAll pid ws).lock r =
    if r ∈ ws.filterMap Write.target then some pid else w.lock r := by
  unfold World.acquireAll
  induction ws.filterMap Write.target generalizing w with
  | nil => simp
  | cons r' rs ih =>
    rw [List.foldl_cons, ih]
    by_cases hr : r = r'
    · simp [hr, World.acquire]
    · simp [hr, World.acquire]

theorem acquireAll_db (ws : List Write) : (w.acquireAll pid ws).db = w.db := by
  unfold World.acquireAll
  induction ws.filterMap Write.target generalizing w with
  | nil => rfl
  | cons r rs ih =>
    rw [List.foldl_cons, ih]
    rfl

theorem perform_relocks (h : perform w t pid n o d = some out) : Relocks w pid o out.shared := by
  cases o with
  | selectForUpdate q =>
    simp only [perform, lockRow] at h
    split at h
    · cases h
      exact .kept _ _ rfl rfl
    next row hFind =>
      split at h
      next hFree =>
        cases h
        exact .row q row _ hFind rfl hFree fun r => Function.update_apply w.lock _ _ r
      · cases h
  | flush ws =>
    simp only [perform, flushWrites] at h
    split at h
    · cases h
      exact .kept _ _ rfl rfl
    · split at h
      · cases h
      next hBlocked =>
        cases h
        refine .rows ws _ (acquireAll_db ws) (fun r hr => ?_) (acquireAll_lock ws)
        obtain ⟨wr, hwr, hTarget⟩ := List.mem_filterMap.mp hr
        exact (blocked_false (by simpa using hBlocked) hwr).1 r hTarget
  | commit =>
    cases h
    exact .freed _ _ (.inr ⟨rfl, rfl⟩) fun _ => rfl
  | rollback =>
    cases h
    exact .freed _ _ (.inl rfl) fun _ => rfl
  | _ => exact .kept _ _ (perform_plain rfl h).2 (perform_plain rfl h).1

theorem exec_relocks (h : exec w t pid n o d = some out) : Relocks w pid o out.shared := by
  obtain ⟨-, -, hOk⟩ | ⟨e, -, -, hOut⟩ := exec_cases h
  · exact perform_relocks hOk
  · generalize out.shared = v at hOut ⊢
    cases hOut with
    | crashed => exact .freed _ _ (.inl rfl) fun _ => rfl
    | cancelled => exact .kept _ _ rfl rfl
    | fault => exact .kept _ _ rfl rfl
    | cancelledAfter a _ ha =>
      have hRelocks := perform_relocks ha
      generalize a.shared = v at hRelocks ⊢
      cases hRelocks with
      | kept _ _ hDb hLock => exact .kept _ _ hDb hLock
      | freed _ _ hDb hLock => exact .freed _ _ hDb hLock
      | row q row _ hFind hDb hFree hLock => exact .row q row _ hFind hDb hFree hLock
      | rows ws _ hDb hFree hLock => exact .rows ws _ hDb hFree hLock
    | faultAfter a _ ha => exact perform_relocks ha

theorem exec_fail_relocks (h : exec w t pid n o d = some out) (hFail : d.fault = .fail) :
    Relocks w pid .rollback out.shared := by
  unfold exec at h
  split at h
  · cases h
  · cases h
    exact .freed _ _ (.inl rfl) fun _ => rfl
  · simp only [hFail] at h
    split at h
    · cases h
      exact .kept _ _ rfl rfl
    · split at h <;> cases h
      exact .kept _ _ rfl rfl

theorem Relocks.other {q : Nat} (h : Relocks w q o v) (hq : q ≠ pid) (r : RowRef) :
    v.lock r = some pid ↔ w.lock r = some pid := by
  have hFree : ∀ r, w.free r q = true → w.lock r ≠ some pid := by
    intro r hr hLock
    simp [World.free, hLock, Ne.symm hq] at hr
  cases h with
  | kept _ _ _ hLock => rw [hLock]
  | freed _ _ _ hLock =>
    rw [hLock]
    split
    next hMine => simp [hMine, hq]
    · rfl
  | row query row _ _ _ hr hLock =>
    rw [hLock]
    split
    next hEq =>
      subst hEq
      simp [hq, hFree _ hr]
    · rfl
  | rows ws _ _ hrs hLock =>
    rw [hLock]
    split
    next hMem => simp [hq, hFree _ (hrs r hMem)]
    · rfl

theorem LockPhase.next_plain_cases (ho : o.plain = true) (r : Except Exn o.Res) :
    s.next o r = s ∨ s.next o r = .broken := by
  cases r with
  | ok v => exact .inl (next_plain ho v)
  | error e =>
    have hEq : s.next o (.error e) = if o.plain ∧ e ≠ .crashed then s else .broken := by
      cases s <;> cases o <;> rfl
    rw [hEq]
    split
    · exact .inl rfl
    · exact .inr rfl

theorem fits_plain (ho : o.plain = true) (hLock : v.lock = w.lock) (h : s.Fits w pid)
    (r : Except Exn o.Res) : (s.next o r).Fits v pid := by
  obtain hEq | hEq := LockPhase.next_plain_cases (s := s) ho r
  · rw [hEq]
    exact h.congr fun r => by rw [hLock]
  · rw [hEq]
    trivial

theorem fits_perform (h : perform w t pid n o d = some out) (hFits : s.Fits w pid) :
    (s.next o out.result).Fits out.shared pid := by
  have hFreed : ∀ r, (w.endTx pid).lock r = some pid ↔ r ∈ ([] : List RowRef) := by
    intro r
    simp [World.endTx]
  by_cases ho : o.plain = true
  · exact fits_plain ho (perform_plain ho h).1 hFits _
  · cases o with
    | selectForUpdate q =>
      cases s with
      | broken => cases hr : out.result <;> trivial
      | holds refs =>
        simp only [perform, lockRow] at h
        split at h
        · cases h
          exact hFits
        next row hFind =>
          split at h <;> cases h
          intro r
          change Function.update w.lock (q.ref row) (some pid) r = some pid ↔ r ∈ q.ref row :: refs
          rw [Function.update_apply, List.mem_cons, ← hFits r]
          split <;> simp [*]
    | flush ws =>
      cases s with
      | broken => cases hr : out.result <;> trivial
      | holds refs =>
        simp only [perform, flushWrites] at h
        split at h
        · cases h
          trivial
        · split at h <;> cases h
          intro r
          change (w.acquireAll pid ws).lock r = some pid ↔ r ∈ ws.filterMap Write.target ++ refs
          rw [acquireAll_lock, List.mem_append, ← hFits r]
          split <;> simp [*]
    | commit =>
      cases h
      cases s <;> exact hFreed
    | rollback =>
      cases h
      cases s <;> exact hFreed
    | _ => exact absurd rfl ho

theorem fits_exec (h : exec w t pid n o d = some out) (hFits : s.Fits w pid) :
    (s.next o out.result).Fits out.shared pid := by
  obtain ⟨-, -, hOk⟩ | ⟨e, hErr, -, hOut⟩ := exec_cases h
  · exact fits_perform hOk hFits
  · rw [hErr]
    by_cases ho : o.plain = true
    · generalize out.shared = v at hOut ⊢
      cases hOut with
      | crashed =>
        have hBroken : s.next o (.error .crashed) = .broken := by
          cases s <;> cases o <;> rfl
        rw [hBroken]
        trivial
      | cancelled => exact fits_plain ho rfl hFits _
      | fault => exact fits_plain ho rfl hFits _
      | cancelledAfter a _ ha =>
        exact fits_plain ho (perform_plain ho ha).1 (v := a.shared.delivered pid) hFits _
      | faultAfter a _ ha => exact fits_plain ho (perform_plain ho ha).1 hFits _
    · have hBroken : s.next o (.error e) = .broken := by
        cases s <;> cases o <;> first | rfl | exact absurd rfl ho
      rw [hBroken]
      trivial

end

end LiveQuiz
