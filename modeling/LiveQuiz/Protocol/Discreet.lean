import LiveQuiz.Model.System
import LiveQuiz.Lib.Confined

/-! # Jobs of discreet calls

The rules of confined programs for the service's own ways to put a program together, and
the jobs whose calls are all discreet: they note no answer in Redis and tell no result of a
question.
-/

namespace LiveQuiz

open Coroutine

set_option autoImplicit false

section

variable {α β : Type} {ok : Op → Prop} {raises : Exn → Prop} {p : Coro α}

theorem confined_call {o : Op} {f : o.Res → Coro α} (ho : ok o)
    (hf : ∀ v, Confined ok raises (f v)) : Confined ok raises (ask o >>= f) :=
  Confined.call ho hf

theorem confined_raise {code : String} {status : Nat} {message : String}
    {details : List (String × String)} (hRaise : raises (.auth code status message details)) :
    Confined ok raises (raise code status message details : Coro α) :=
  Confined.throw hRaise

theorem confined_refused {c : Prop} [Decidable c] {code : String} {status : Nat} {message : String}
    {details : List (String × String)} {f : β → Coro α}
    (hRaise : raises (.auth code status message details)) (h : Confined ok raises p) :
    Confined ok raises (if c then raise code status message details >>= f else p) := by
  split
  · exact confined_raise hRaise
  · exact h

theorem confined_withSession (hRollback : ok .rollback) (h : Confined ok raises p) :
    Confined ok raises (withSession p) :=
  Confined.session hRollback h

theorem confined_inTransaction (hRollback : ok .rollback) (hCommit : ok .commit)
    (h : Confined ok raises p) : Confined ok raises (inTransaction p) := by
  apply confined_withSession hRollback
  apply Confined.bind h
  intro a
  exact confined_call hCommit fun _ => Confined.pure a

theorem confined_exceptException {default : α} (h : Confined ok raises p) :
    Confined ok raises (exceptException p default) := by
  apply Confined.handle h
  intro e he
  split
  · exact Confined.throw he
  · exact Confined.throw he
  · exact Confined.pure _

theorem confined_broadcast {code : String} {message : Message} (hId : ok .nextId)
    (hSend : ok (.broadcast code message)) : Confined ok raises (broadcast code message) := by
  apply confined_call hId
  intro _
  apply confined_exceptException
  exact Confined.ask hSend

theorem confined_sleepUncancelled {delay : Micros} (hNow : ok .utcnow)
    (hSleep : ∀ u, ok (.sleepUntil u)) : Confined ok raises (sleepUncancelled delay) := by
  apply confined_call hNow
  intro now
  apply Confined.handle
  · exact confined_call (hSleep _) fun _ => Confined.pure _
  intro e he
  split
  · exact Confined.pure _
  · exact Confined.throw he

end

def Op.discreet : Op → Bool
  | .redis (.markAnswered _ _ _) => false
  | .broadcast _ (.questionClosed _ _ _ _) => false
  | _ => true

abbrev Discreet {α : Type} (p : Coro α) : Prop := Confined (fun o => Op.discreet o = true) (fun _ => True) p

namespace Discreet

section

variable {α β : Type} {p : Coro α}

theorem only {o : Op} (ho : o.discreet = true) : Discreet (ask o) := Confined.ask ho

theorem call {o : Op} {f : o.Res → Coro α} (ho : o.discreet = true) (hf : ∀ v, Discreet (f v)) :
    Discreet (ask o >>= f) :=
  confined_call ho hf

theorem raise {code : String} {status : Nat} {message : String} {details : List (String × String)} :
    Discreet (raise code status message details : Coro α) :=
  confined_raise trivial

theorem refused {c : Prop} [Decidable c] {code : String} {status : Nat} {message : String}
    {details : List (String × String)} {f : β → Coro α} (h : Discreet p) :
    Discreet (if c then LiveQuiz.raise code status message details >>= f else p) :=
  confined_refused trivial h

theorem session (h : Discreet p) : Discreet (withSession p) := confined_withSession rfl h

theorem transaction (h : Discreet p) : Discreet (inTransaction p) := confined_inTransaction rfl rfl h

theorem broadcast {code : String} {message : Message}
    (hMessage : (Op.broadcast code message).discreet = true) : Discreet (broadcast code message) :=
  confined_broadcast rfl hMessage

theorem sleepUncancelled {delay : Micros} : Discreet (sleepUncancelled delay) :=
  confined_sleepUncancelled rfl fun _ => rfl

end

section

variable {m : Id} {p : Nat} {host : Id} {code : String}

theorem drawIds (k : Nat) : Discreet (drawIds k) := by
  induction k with
  | zero => exact Confined.pure _
  | succ k ih =>
    apply call rfl
    intro i
    exact Confined.bind ih fun _ => Confined.pure _

theorem startTx : Discreet (startTx host code) := by
  apply call rfl
  intro room
  split
  case h_2 => exact raise
  apply refused
  apply refused
  apply call rfl
  intro quiz
  split
  case h_2 => exact raise
  apply call rfl
  intro questions
  apply refused
  apply call rfl
  intro startedAt
  apply call rfl
  intro matchId
  apply call rfl
  intro _
  apply Confined.bind (drawIds _)
  intro ids
  apply call rfl
  intro _
  apply call rfl
  intro eventId
  apply call rfl
  intro _
  exact call rfl fun _ => Confined.pure _

theorem seedMatchState {row : Match} {room : Room} {count : Nat} :
    Discreet (seedMatchState row room count) := by
  have hRest : Discreet (resetMatchState row room count) := by
    apply call rfl
    intro _
    apply call rfl
    intro cached
    split
    · exact only rfl
    · exact Confined.pure _
  apply call rfl
  intro participants
  dsimp only
  split
  · exact call rfl fun _ => hRest
  · exact hRest

theorem startMatch : Discreet (startMatch host code) := by
  apply session
  apply Confined.bind startTx
  rintro ⟨row, room, count⟩
  apply Confined.bind seedMatchState
  intro _
  apply call rfl
  intro serverNow
  apply Confined.bind (broadcast rfl)
  intro _
  exact call rfl fun _ => Confined.pure _

theorem hostedMatch {status : RoomStatus} {message : String} :
    Discreet (hostedMatch host code status message) := by
  apply call rfl
  intro room
  split
  case h_2 => exact raise
  apply refused
  apply call rfl
  intro row
  split
  case h_2 => exact raise
  apply call rfl
  intro loaded
  exact refused (Confined.pure _)

theorem pauseMatch : Discreet (pauseMatch host code) := by
  apply session
  apply Confined.bind hostedMatch
  rintro ⟨room, row, loaded⟩
  apply call rfl
  intro active
  apply Confined.bind
  case h =>
    unfold remainingMs
    split
    · exact Confined.pure _
    · exact call rfl fun _ => Confined.pure _
  intro remaining
  apply call rfl
  intro _
  apply call rfl
  intro _
  apply call rfl
  intro _
  exact call rfl fun _ => Confined.pure _

theorem extendDeadline {loaded : List MatchQuestion} {position : Option Nat} {remaining : Int} :
    Discreet (extendDeadline m loaded position remaining) := by
  unfold LiveQuiz.extendDeadline
  split
  · exact Confined.pure _
  apply call rfl
  intro row
  split
  case h_2 => exact Confined.pure _
  split
  · exact Confined.pure _
  · exact call rfl fun _ => Confined.pure _

theorem rearm {position : Option Nat} {remaining : Int} : Discreet (rearm m position remaining) := by
  have hNext : Discreet (rearm.armNext m) := by
    apply call rfl
    intro next
    split
    · exact only rfl
    · exact Confined.pure _
  unfold LiveQuiz.rearm
  split
  · split
    · exact only rfl
    · exact hNext
  · exact hNext

theorem resumeMatch : Discreet (resumeMatch host code) := by
  apply session
  apply Confined.bind hostedMatch
  rintro ⟨room, row, loaded⟩
  apply call rfl
  intro record
  apply Confined.bind extendDeadline
  intro deadline
  apply call rfl
  intro _
  apply call rfl
  intro _
  exact Confined.bind rearm fun _ => Confined.pure _

theorem endTx {by' : Option Id} : Discreet (endTx m by') := by
  apply call rfl
  intro row
  split
  case h_2 => exact raise
  apply call rfl
  intro room
  split
  case h_2 => exact raise
  apply refused
  split
  · exact Confined.pure _
  apply call rfl
  intro subs
  apply call rfl
  intro participants
  apply call rfl
  intro endedAt
  apply call rfl
  intro eventId
  exact call rfl fun _ => Confined.pure _

theorem endMatch {by' : Option Id} : Discreet (endMatch m by') := by
  apply call rfl
  intro _
  apply Confined.bind (transaction endTx)
  intro ended
  split
  · exact Confined.pure _
  apply Confined.bind (broadcast rfl)
  intro _
  apply call rfl
  intro cached
  dsimp only
  split
  · exact call rfl fun _ => Confined.pure _
  · exact Confined.pure _

theorem recoverMatch {row : Match} : Discreet (recoverMatch row) := by
  apply call rfl
  intro open'
  split
  case h_2 =>
    apply call rfl
    intro next
    split
    · exact call rfl fun _ => Confined.pure _
    · exact Confined.pure _
  split
  case h_2 => exact Confined.pure _
  apply call rfl
  intro now
  dsimp only
  split
  · exact call rfl fun _ => Confined.pure _
  · exact call rfl fun _ => Confined.pure _

theorem recoverAll (ms : List Match) : Discreet (recoverAll ms) := by
  induction ms with
  | nil => exact Confined.pure _
  | cons row ms ih =>
    apply Confined.bind recoverMatch
    intro n
    exact Confined.bind ih fun _ => Confined.pure _

theorem recoverRunningMatches : Discreet recoverRunningMatches :=
  call rfl fun ms => recoverAll ms

theorem armTx : Discreet (armTx m p) := by
  apply call rfl
  intro mq
  split
  case h_2 => exact Confined.pure _
  split
  · exact Confined.pure _
  apply call rfl
  intro row
  split
  case h_2 => exact Confined.pure _
  split
  · exact Confined.pure _
  apply call rfl
  intro question
  split
  case h_2 => exact Confined.pure _
  apply call rfl
  intro options
  apply call rfl
  intro room
  split
  case h_2 => exact Confined.pure _
  apply call rfl
  intro startedAt
  apply call rfl
  intro eventId
  apply call rfl
  intro _
  exact call rfl fun _ => Confined.pure _

theorem armQuestion : Discreet (armQuestion m p) := by
  apply Confined.bind (confined_exceptException (transaction armTx))
  intro armed
  split
  case h_2 => exact Confined.pure _
  apply call rfl
  intro _
  apply Confined.bind (broadcast rfl)
  intro _
  apply call rfl
  intro now
  exact only rfl

theorem gapThenArm {sleep : Micros} : Discreet (gapThenArm m p sleep) := by
  apply Confined.bind (sleepUncancelled)
  intro live
  split
  · exact armQuestion
  · exact Confined.pure _

theorem closeTx : Discreet (closeTx m p) := by
  apply call rfl
  intro mq
  split
  case h_2 => exact Confined.pure _
  split
  · exact Confined.pure _
  apply call rfl
  intro row
  split
  case h_2 => exact Confined.pure _
  split
  · exact Confined.pure _
  apply call rfl
  intro room
  split
  case h_2 => exact Confined.pure _
  apply call rfl
  intro options
  apply call rfl
  intro question
  apply call rfl
  intro closedAt
  apply call rfl
  intro _
  apply call rfl
  intro all
  apply call rfl
  intro eventId
  exact call rfl fun _ => Confined.pure _

theorem insertInSavepoint {row : AnswerSubmission} : Discreet (insertInSavepoint row) := by
  apply Confined.handle
  · exact call rfl fun _ => Confined.pure _
  intro e he
  split
  · exact Confined.pure _
  · exact Confined.throw he

theorem existingSubmission {mqId participantId : Id} {rid : String} :
    Discreet (existingSubmission mqId participantId rid) := by
  apply call rfl
  intro found
  split
  · exact Confined.pure _
  apply call rfl
  intro found
  split
  · exact Confined.pure _
  · exact raise

theorem admitAnswer {participantId mqId : Id} : Discreet (admitAnswer m participantId mqId) := by
  apply call rfl
  intro mq
  split
  case h_2 => exact raise
  apply refused
  apply call rfl
  intro row
  split
  case h_2 => exact raise
  apply call rfl
  intro now
  apply refused
  apply refused
  split
  case h_2 => exact raise
  apply refused
  apply call rfl
  intro participant
  split
  case h_2 => exact raise
  exact refused (Confined.pure _)

theorem submitTx {participantId : Id} {payload : AnswerSubmitRequest} {rid : String} :
    Discreet (submitTx m participantId payload rid) := by
  apply Confined.bind admitAnswer
  rintro ⟨mq, row, now, deadlineAt, startedAt, participant⟩
  apply call rfl
  intro options
  dsimp only
  split
  case h_2 => exact raise
  apply call rfl
  intro question
  apply call rfl
  intro room
  apply call rfl
  intro id
  apply Confined.bind insertInSavepoint
  intro inserted
  split
  · apply call rfl
    intro eventId
    exact call rfl fun _ => Confined.pure _
  · exact Confined.bind existingSubmission fun _ => Confined.pure _

theorem top {n : Nat} : Discreet (top m n) := by
  apply call rfl
  intro rows
  split
  · exact Confined.pure _
  · exact call rfl fun _ => Confined.pure _

end

end Discreet

end LiveQuiz
