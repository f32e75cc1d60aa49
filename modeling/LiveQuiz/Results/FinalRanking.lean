import LiveQuiz.Protocol.Award
import LiveQuiz.Protocol.Watch
import LiveQuiz.Protocol.Tables
import LiveQuiz.Results.Backends

/-! # The rows of `end_match`

The transaction writes one row for each key of its dict, in the order of the sort. A
monitor keeps the two SELECTs the dict is made of.
-/

namespace LiveQuiz

open Coroutine Grouping

set_option autoImplicit false

namespace FinalRanking

section

variable {subs : List AnswerSubmission} {participants : List RoomParticipant} {p q : Id}

/-- The quotient of the source is one of floats. Below 53 bits it truncates to the same
integer. -/
theorem averageMs_float {t : Tally} (hSum : 0 ≤ t.rtSum) (hSmall : t.rtSum < 2 ^ 53)
    (hCount : 0 < t.rtCount) :
    t.averageMs = some (truncate (nearestDouble (t.rtSum / t.rtCount))) := by
  rw [Tally.averageMs, if_pos hCount, truncate_nearestDouble_div hSum hSmall hCount,
    Int.tdiv_eq_ediv_of_nonneg hSum]

/-- The row of rank `i + 1`. -/
def rowOf (matchId : Id) (subs : List AnswerSubmission) (i : Nat) (p : Id) : FinalScore :=
  ⟨matchId, p, totalScore p subs, (tallyOf subs p).correct, (tallyOf subs p).averageMs, i + 1⟩

theorem finalScores_eq (matchId : Id) :
    finalScores matchId (perParticipant subs participants) =
      (finalOrder subs participants).mapIdx (rowOf matchId subs) := by
  rw [finalScores, sorted_perParticipant]
  apply List.ext_getElem
  · simp
  · intro i _ _
    simp [rowOf, tallyOf_participantId, (tallyOf_sums subs _).1]

theorem mem_finalScores {matchId : Id} {row : FinalScore}
    (hRow : row ∈ finalScores matchId (perParticipant subs participants)) :
    ∃ (i : Nat) (hi : i < (finalOrder subs participants).length),
      row = rowOf matchId subs i (finalOrder subs participants)[i] := by
  rw [finalScores_eq] at hRow
  obtain ⟨i, hi, hEq⟩ := List.mem_mapIdx.mp hRow
  exact ⟨i, hi, hEq.symm⟩

end

structure Aggregate where
  subs : List AnswerSubmission := []
  kept : List RoomParticipant := []

def Aggregate.hear (a : Aggregate) : (o : Op) → Except Exn o.Res → Aggregate
  | .select (.submissionsOfMatch _), .ok rows => { a with subs := rows }
  | .select (.keptParticipants _), .ok rows => { a with kept := rows }
  | _, _ => a

def Aggregate.Allows (matchId : Id) (a : Aggregate) : Op → Prop
  | .flush ws => ws.filterMap Write.finalScore? =
      finalScores matchId (perParticipant a.subs a.kept)
  | _ => True

def aggregation (matchId : Id) : Monitor Op Op.Res Exn Aggregate :=
  ⟨Aggregate.Allows matchId, Aggregate.hear⟩

def aggregated (matchId : Id) (log : List ((o : Op) × Except Exn o.Res)) : Aggregate :=
  (aggregation matchId).after {} log

/-- A row that `submit_answer` inserts. -/
def Submitted (row : AnswerSubmission) : Prop :=
  ∃ matchId participantId payload requestId before after r,
    Plays (submitAnswer matchId participantId payload requestId)
      (before ++ ⟨.flush [.insertSubmission row], .ok ()⟩ :: after) r

theorem Submitted.nonneg {row : AnswerSubmission} (h : Submitted row) : 0 ≤ row.responseTimeMs := by
  obtain ⟨matchId, participantId, payload, requestId, before, after, r, hPlays⟩ := h
  have hFollows : Follows Award.judge (fun _ _ => True) {} _ :=
    Award.submitAnswer_judge matchId participantId payload requestId
  exact (hFollows.allowed_at hPlays row List.mem_cons_self).2

namespace Demo

/-- What `submit_answer` is told: a question armed at 0, with the first of two options correct. -/
def told (id mqId : Id) (p : RoomParticipant) (now : Micros) : (o : Op) → Except Exn o.Res
  | .redis (.idemGet _) => .ok none
  | .selectForUpdate (.questionById _) => .ok (some ⟨mqId, 1, 3, 1, some 0, some 20000000, none⟩)
  | .select (.getMatch _) => .ok (some ⟨1, 2, 1, .running, 0, none⟩)
  | .utcnow => .ok now
  | .select (.participantInRoom _ _) => .ok (some p)
  | .select (.getOptions _) => .ok [⟨1, 3, 1, "", true⟩, ⟨2, 3, 2, "", false⟩]
  | .select (.getQuestion _) => .ok (some ⟨3, "", .singleChoice, 20, 1000, none⟩)
  | .select (.getRoom _) => .ok (some ⟨2, "ABC123", 9, 4, .running, none, none, none⟩)
  | .nextId => .ok id
  | .flush _ => .ok ()
  | _ => .error .fault

/-- The row of an answer with one option. -/
def answer (id mqId participantId : Id) (now : Micros) (selected : Id) (requestId : String) :
    AnswerSubmission where
  id := id
  matchId := 1
  matchQuestionId := mqId
  participantId := participantId
  selectedOptionIds := [selected]
  isCorrect := selected = 1
  scoreAwarded := score 1000 (toMillis (max 0 (now - 0))) (toMillis (20000000 - 0)) scoringModeSpeedBonus
    (selected = 1)
  responseTimeMs := toMillis (max 0 (now - 0))
  requestId := requestId

def ada : RoomParticipant := ⟨10, 2, "ada", none, false⟩

def bob : RoomParticipant := ⟨11, 2, "bob", none, false⟩

def subs : List AnswerSubmission :=
  [⟨21, 1, 5, 10, [1], true, 987, 501, "a"⟩, ⟨22, 1, 5, 11, [2], false, 0, 700, "b"⟩,
    ⟨23, 1, 6, 10, [2], false, 0, 600, "c"⟩]

/-- The second has been kicked after answering, the third has not answered. -/
def members : List RoomParticipant :=
  [ada, { bob with isKicked := true }, ⟨12, 2, "cy", none, false⟩]

def answers : (o : Op) → Except Exn o.Res
  | .utcnow => .ok 0
  | .nextId => .ok 7
  | .selectForUpdate (.matchById _) => .ok (some ⟨1, 2, 1, .running, 0, none⟩)
  | .selectForUpdate (.roomById _) => .ok (some ⟨2, "ABC123", 9, 4, .running, none, none, none⟩)
  | .select (.submissionsOfMatch _) => .ok subs
  | .select (.keptParticipants _) => .ok (members.filter (·.isKicked = false))
  | .cancelActive _ | .flush _ => .ok ()
  | _ => .error .fault

def log : List ((o : Op) × Except Exn o.Res) := (endMatch 1 none).logWith answers

def rows : List FinalScore :=
  [⟨1, 10, 987, 1, some 550, 1⟩, ⟨1, 11, 0, 0, some 700, 2⟩, ⟨1, 12, 0, 0, none, 3⟩]

def writes : List Write :=
  [.updateRoom 2 .completed none (some 0), .updateMatch 1 .completed (some 0)] ++
    rows.map .insertFinalScore ++
    [.insertEvent (matchFinishedEvent 7 ⟨1, 2, 1, .running, 0, none⟩
      ⟨2, "ABC123", 9, 4, .running, none, none, none⟩ 0 rows)]

end Demo

end FinalRanking

end LiveQuiz
