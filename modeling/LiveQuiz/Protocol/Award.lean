import LiveQuiz.Lib.Rounding
import LiveQuiz.Protocol.Watch
import LiveQuiz.Service.SubmitAnswer

/-! # The score and the time of a submission

A monitor keeps what `submit_answer` has been told of the question and the clock. The row
it inserts has the score of these answers, and a response time that is not negative.
-/

namespace LiveQuiz

open Coroutine

set_option autoImplicit false

theorem toMillis_nonneg {d : Micros} (h : 0 ≤ d) : 0 ≤ toMillis d := by
  have hSeconds : (0 : ℚ) ≤ (d : Int) / 1000000 := div_nonneg (Int.cast_nonneg h) (by norm_num)
  exact truncate_nonneg (nearestDouble_nonneg (mul_nonneg (nearestDouble_nonneg hSeconds) (by norm_num)))

namespace Award

/-- The last answers to a submission: the locked question, the clock, what the question is
worth and the room's mode. -/
structure Judged where
  question : Option MatchQuestion := none
  clock : Option Micros := none
  points : Int := 0
  mode : String := ""

def Judged.hear (j : Judged) : (o : Op) → Except Exn o.Res → Judged
  | .selectForUpdate (.questionById _), .ok row => { j with question := row }
  | .utcnow, .ok now => { j with clock := some now }
  | .select (.getQuestion _), .ok question => { j with points := (question.map (·.points)).getD 0 }
  | .select (.getRoom _), .ok room => { j with mode := Room.mode room }
  | _, _ => j

def Judged.Awards (j : Judged) (row : AnswerSubmission) : Prop :=
  ∀ mq startedAt deadlineAt now, j.question = some mq → mq.startedAt = some startedAt →
    mq.deadlineAt = some deadlineAt → j.clock = some now →
      row.scoreAwarded = score j.points (toMillis (max 0 (now - startedAt)))
        (toMillis (deadlineAt - startedAt)) j.mode row.isCorrect

def Judged.Allows (j : Judged) : Op → Prop
  | .flush ws => ∀ row, .insertSubmission row ∈ ws → j.Awards row ∧ 0 ≤ row.responseTimeMs
  | _ => True

def judge : Monitor Op Op.Res Exn Judged := ⟨Judged.Allows, Judged.hear⟩

section

variable {α : Type} {j : Judged} {Q : Judged → Except Exn α → Prop}

theorem admitAnswer_judge {matchId participantId mqId : Id}
    {f : MatchQuestion × Match × Micros × Micros × Micros × RoomParticipant → Coro α}
    (hQ : Watch.Lax Q)
    (hNext : ∀ (j : Judged) (mq : MatchQuestion) m now deadlineAt startedAt participant,
      j.question = some mq → mq.startedAt = some startedAt → mq.deadlineAt = some deadlineAt →
      j.clock = some now → Follows judge Q j (f (mq, m, now, deadlineAt, startedAt, participant))) :
    Follows judge Q j (admitAnswer matchId participantId mqId >>= f) := by
  apply Follows.bind
  unfold admitAnswer
  apply Watch.call hQ.bind
  · trivial
  intro row
  cases row with
  | none => exact Watch.refused hQ.bind
  | some mq =>
    apply Watch.guarded hQ.bind
    apply Watch.call hQ.bind
    · trivial
    intro m
    cases m with
    | none => exact Watch.refused hQ.bind
    | some m =>
      apply Watch.call hQ.bind
      · trivial
      intro now
      apply Watch.guarded hQ.bind
      apply Watch.guarded hQ.bind
      split
      case h_2 => exact Watch.refused hQ.bind
      case h_1 deadlineAt startedAt hTimes =>
        obtain ⟨hDeadline, hStarted⟩ := Prod.mk.inj hTimes
        apply Watch.guarded hQ.bind
        apply Watch.call hQ.bind
        · trivial
        intro participant
        cases participant with
        | none => exact Watch.refused hQ.bind
        | some participant =>
          apply Watch.guarded hQ.bind
          exact hNext _ mq m now deadlineAt startedAt participant rfl hStarted hDeadline rfl

theorem insertInSavepoint_judge {row : AnswerSubmission} {f : Bool → Coro α} (hQ : Watch.Lax Q)
    (hRow : j.Awards row ∧ 0 ≤ row.responseTimeMs) (hNext : ∀ j b, Follows judge Q j (f b)) :
    Follows judge Q j (insertInSavepoint row >>= f) := by
  apply Follows.bind
  apply Follows.handle
  constructor
  · intro row' hMem
    cases List.mem_singleton.mp hMem
    exact hRow
  intro r
  cases r with
  | ok _ => exact hNext _ true
  | error e =>
    cases e with
    | integrity => exact hNext _ false
    | _ => exact hQ _ _

theorem existingSubmission_judge {mqId participantId : Id} {requestId : String}
    {f : AnswerSubmission → Coro α} (hQ : Watch.Lax Q) (hNext : ∀ j row, Follows judge Q j (f row)) :
    Follows judge Q j (existingSubmission mqId participantId requestId >>= f) := by
  apply Follows.bind
  unfold existingSubmission
  apply Watch.call hQ.bind
  · trivial
  intro byRequest
  split
  · exact hNext _ _
  apply Watch.call hQ.bind
  · trivial
  intro once
  split
  · exact hNext _ _
  · exact Watch.refused hQ.bind

theorem submitTx_judge (matchId participantId : Id) (payload : AnswerSubmitRequest)
    (requestId : String) {f : SubmitResult → Coro α} (hQ : Watch.Lax Q)
    (hNext : ∀ j a, Follows judge Q j (f a)) :
    Follows judge Q j (submitTx matchId participantId payload requestId >>= f) := by
  apply Follows.bind
  unfold submitTx
  apply admitAnswer_judge hQ.bind
  intro j mq m now deadlineAt startedAt participant hQuestion hStarted hDeadline hClock
  apply Watch.call hQ.bind
  · trivial
  intro options
  dsimp only
  generalize gradeOptions options payload.selectedOptionIds.dedup = graded
  cases graded with
  | none => exact Watch.refused hQ.bind
  | some isCorrect =>
  apply Watch.call hQ.bind
  · trivial
  intro question
  apply Watch.call hQ.bind
  · trivial
  intro room
  apply Watch.call hQ.bind
  · trivial
  intro id
  apply insertInSavepoint_judge hQ.bind
  · refine ⟨?_, toMillis_nonneg (le_max_left 0 _)⟩
    intro mq' startedAt' deadlineAt' now' hQuestion' hStarted' hDeadline' hClock'
    cases hQuestion.symm.trans hQuestion'
    cases hStarted.symm.trans hStarted'
    cases hDeadline.symm.trans hDeadline'
    cases hClock.symm.trans hClock'
    rfl
  intro j b
  split
  · apply Watch.call hQ.bind
    · trivial
    intro eventId
    apply Watch.call hQ.bind
    · intro row hMem
      cases List.mem_singleton.mp hMem
    intro _
    exact hNext _ _
  · apply existingSubmission_judge hQ.bind
    intro j row
    exact hNext _ _

theorem top_judge {m : Id} {n : Nat} {f : List LeaderboardEntry → Coro α} (hQ : Watch.Lax Q)
    (hNext : ∀ j entries, Follows judge Q j (f entries)) : Follows judge Q j (top m n >>= f) := by
  apply Follows.bind
  unfold top
  apply Watch.call hQ.bind
  · trivial
  intro rows
  split
  · exact hNext _ _
  apply Watch.call hQ.bind
  · trivial
  intro nicks
  exact hNext _ _

theorem submitHooks_judge {row : AnswerSubmission} {questionId : Id} {nickname : String}
    {code : Option String} :
    Follows judge (fun _ _ => True) j (submitHooks row questionId nickname code) := by
  have hLax : ∀ {β : Type}, Watch.Lax (α := β) fun (_ : Judged) _ => True := fun _ _ => trivial
  have hTail : ∀ (j : Judged) rank, Follows judge (fun _ _ => True) j (do
      redis (.idemSet row.requestId (Response.ofRow row rank))
      return Response.ofRow row rank) := by
    intro j rank
    apply Watch.call hLax
    · trivial
    intro _
    trivial
  apply Watch.call hLax
  · trivial
  intro _
  apply Watch.call hLax
  · trivial
  intro _
  apply Watch.call hLax
  · trivial
  intro _
  apply top_judge hLax
  intro j top10
  apply Watch.call hLax
  · trivial
  intro version
  cases code with
  | none => exact hTail _ _
  | some code =>
    apply Watch.broadcast hLax trivial (fun _ => trivial)
    intro j
    exact hTail _ _

theorem submitAnswer_judge (matchId participantId : Id) (payload : AnswerSubmitRequest)
    (requestId : String) :
    Follows judge (fun _ _ => True) j (submitAnswer matchId participantId payload requestId) := by
  have hLax : ∀ {β : Type}, Watch.Lax (α := β) fun (_ : Judged) _ => True := fun _ _ => trivial
  unfold submitAnswer
  apply Watch.guarded hLax
  apply Watch.call hLax
  · trivial
  intro cached
  split
  · trivial
  apply Follows.bind
  apply Watch.withSession (fun _ => trivial) (Watch.Lax.bind hLax)
  apply submitTx_judge matchId participantId payload requestId (Watch.Lax.bind hLax)
  intro j a
  apply Watch.call (Watch.Lax.bind hLax)
  · trivial
  intro _
  cases a with
  | duplicate response =>
    apply Watch.call hLax
    · trivial
    intro _
    trivial
  | inserted row questionId nickname code => exact submitHooks_judge

end

end Award

end LiveQuiz
