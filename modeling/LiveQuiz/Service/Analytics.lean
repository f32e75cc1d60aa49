import LiveQuiz.Lib.Grouping
import LiveQuiz.Model.Types
import LiveQuiz.Stream.Worker

/-! # The analytics of a match

The two ways to compute the body: from the pre-summed rows of ClickHouse, and from the
tables of Postgres. The final leaderboard, which is added to either, is left out.
-/

namespace LiveQuiz.Analytics

open LiveQuiz.Stream (AnswerEventsRow Outside ResponseTimes TimesRow percent truncate average timesRow)

set_option autoImplicit false

structure QuestionAccuracy where
  questionId : Int
  totalAnswers : Int
  correctAnswers : Int
  accuracyPercent : ℚ
  avgResponseMs : Int
  deriving DecidableEq, Repr

structure Body where
  matchId : Int
  questionAccuracy : List QuestionAccuracy
  responseTimes : ResponseTimes
  mostMissedQuestions : List QuestionAccuracy
  totalAnswers : Int
  deriving DecidableEq, Repr

/-- `sorted(question_accuracy, key=...)[:5]`, a stable sort. -/
def mostMissed (accuracy : List QuestionAccuracy) : List QuestionAccuracy :=
  (accuracy.insertionSort fun a b => a.accuracyPercent ≤ b.accuracyPercent).take 5

/-- `GROUP BY question_id ORDER BY question_id`. -/
def groupIds (ids : List Int) : List Int := ids.dedup.insertionSort (· ≤ ·)

/-- A row of `question_accuracy_mv`. -/
structure AccuracyMvRow where
  matchId : Int
  questionId : Int
  totalAnswers : Int
  correctAnswers : Int
  responseTimeSumMs : Int
  deriving DecidableEq, Repr

def eventsOn (m q : Int) (events : List AnswerEventsRow) : List AnswerEventsRow :=
  events.filter fun e => e.matchId = m ∧ e.questionId = q

def rowsOn (m q : Int) (rows : List AccuracyMvRow) : List AccuracyMvRow :=
  rows.filter fun r => r.matchId = m ∧ r.questionId = q

def correctOf (events : List AnswerEventsRow) : Int := (events.map fun e => (e.isCorrect : Int)).sum

def timesOf (events : List AnswerEventsRow) : Int := (events.map (·.responseTimeMs)).sum

/-- The table of the answers and the view of their sums. A row of the view counts at
least one answer. -/
structure ClickHouse where
  answerEvents : List AnswerEventsRow
  questionAccuracyMv : List AccuracyMvRow
  total : ∀ m q, ((rowsOn m q questionAccuracyMv).map (·.totalAnswers)).sum =
    (eventsOn m q answerEvents).length
  correct : ∀ m q, ((rowsOn m q questionAccuracyMv).map (·.correctAnswers)).sum =
    correctOf (eventsOn m q answerEvents)
  times : ∀ m q, ((rowsOn m q questionAccuracyMv).map (·.responseTimeSumMs)).sum =
    timesOf (eventsOn m q answerEvents)
  counted : ∀ r ∈ questionAccuracyMv, 0 < r.totalAnswers

/-- `GROUP BY match_id, question_id, occurred_at`, the last in milliseconds. -/
def mvKey (e : AnswerEventsRow) : Int × Int × Int := (e.matchId, e.questionId, e.occurredAt / 1000)

/-- What the view adds when a block of answers is inserted. -/
def mvRows (block : List AnswerEventsRow) : List AccuracyMvRow :=
  (block.map mvKey).dedup.map fun k =>
    let own := block.filter (mvKey · = k)
    ⟨k.1, k.2.1, own.length, correctOf own, timesOf own⟩

theorem sum_mvRows (block : List AnswerEventsRow) (m q : Int) (measure : AccuracyMvRow → Int)
    (f : AnswerEventsRow → Int)
    (hMeasure : ∀ k : Int × Int × Int, ∀ own : List AnswerEventsRow,
      measure ⟨k.1, k.2.1, own.length, correctOf own, timesOf own⟩ = (own.map f).sum) :
    ((rowsOn m q (mvRows block)).map measure).sum = ((eventsOn m q block).map f).sum := by
  let on : Int × Int × Int → Bool := fun k => k.1 = m ∧ k.2.1 = q
  have hRows : (rowsOn m q (mvRows block)).map measure =
      ((block.map mvKey).dedup.filter on).map fun k =>
        ((block.filter (mvKey · = k)).map f).sum := by
    rw [rowsOn, mvRows, List.filter_map, List.map_map]
    exact List.map_congr_left fun k _ => hMeasure k _
  rw [hRows, Grouping.sum_groups mvKey f ((List.nodup_dedup _).filter on) block]
  refine congrArg (fun l => (l.map f).sum) (List.filter_congr fun e he => ?_)
  have hKey : mvKey e ∈ (block.map mvKey).dedup := List.mem_dedup.mpr (List.mem_map_of_mem he)
  simp only [List.mem_filter, hKey, true_and]
  simp [on, mvKey]

theorem mvRows_counted {block : List AnswerEventsRow} {r : AccuracyMvRow} (h : r ∈ mvRows block) :
    0 < r.totalAnswers := by
  obtain ⟨k, hk, rfl⟩ := List.mem_map.mp h
  obtain ⟨e, he, hKey⟩ := List.mem_map.mp (List.mem_dedup.mp hk)
  have hOwn : e ∈ block.filter (mvKey · = k) := List.mem_filter.mpr ⟨he, by simpa using hKey⟩
  have hLength := List.length_pos_of_mem hOwn
  show (0 : Int) < ((block.filter (mvKey · = k)).length : Int)
  omega

theorem rowsOn_append (m q : Int) (rows rows' : List AccuracyMvRow) :
    rowsOn m q (rows ++ rows') = rowsOn m q rows ++ rowsOn m q rows' :=
  List.filter_append _ _

theorem eventsOn_append (m q : Int) (events events' : List AnswerEventsRow) :
    eventsOn m q (events ++ events') = eventsOn m q events ++ eventsOn m q events' :=
  List.filter_append _ _

/-- No answers yet. -/
def ClickHouse.empty : ClickHouse where
  answerEvents := []
  questionAccuracyMv := []
  total := fun _ _ => rfl
  correct := fun _ _ => rfl
  times := fun _ _ => rfl
  counted := fun _ h => absurd h List.not_mem_nil

/-- An insert into `answer_events`, which the view follows. -/
def ClickHouse.insert (c : ClickHouse) (block : List AnswerEventsRow) : ClickHouse where
  answerEvents := c.answerEvents ++ block
  questionAccuracyMv := c.questionAccuracyMv ++ mvRows block
  total := by
    intro m q
    rw [rowsOn_append, eventsOn_append, List.map_append, List.sum_append, c.total,
      sum_mvRows block m q (·.totalAnswers) (fun _ => 1) fun _ _ => by simp]
    simp
  correct := by
    intro m q
    rw [rowsOn_append, eventsOn_append, List.map_append, List.sum_append, c.correct,
      sum_mvRows block m q (·.correctAnswers) (fun e => e.isCorrect) fun _ _ => rfl]
    simp [correctOf]
  times := by
    intro m q
    rw [rowsOn_append, eventsOn_append, List.map_append, List.sum_append, c.times,
      sum_mvRows block m q (·.responseTimeSumMs) (·.responseTimeMs) fun _ _ => rfl]
    simp [timesOf]
  counted := by
    intro r hr
    exact (List.mem_append.mp hr).elim (c.counted r) mvRows_counted

def AccuracyMvRow.plus (r r' : AccuracyMvRow) : AccuracyMvRow where
  matchId := r.matchId
  questionId := r.questionId
  totalAnswers := r.totalAnswers + r'.totalAnswers
  correctAnswers := r.correctAnswers + r'.correctAnswers
  responseTimeSumMs := r.responseTimeSumMs + r'.responseTimeSumMs

theorem sum_plus {measure : AccuracyMvRow → Int} {r r' : AccuracyMvRow}
    (hKey : r.matchId = r'.matchId ∧ r.questionId = r'.questionId)
    (hPlus : measure (r.plus r') = measure r + measure r') {rows rest : List AccuracyMvRow}
    (hRows : rows.Perm (r :: r' :: rest)) (m q : Int) :
    ((rowsOn m q (r.plus r' :: rest)).map measure).sum = ((rowsOn m q rows).map measure).sum := by
  have hOn : (rowsOn m q rows).Perm (rowsOn m q (r :: r' :: rest)) := hRows.filter _
  rw [(hOn.map measure).sum_eq]
  simp only [rowsOn, List.filter_cons, AccuracyMvRow.plus] at hPlus ⊢
  rw [← hKey.1, ← hKey.2]
  split
  · rw [List.map_cons, List.sum_cons, hPlus, List.map_cons, List.map_cons, List.sum_cons,
      List.sum_cons, add_assoc]
  · rfl

/-- A merge of the SummingMergeTree adds up two rows of one key. -/
def ClickHouse.merge (c : ClickHouse) {r r' : AccuracyMvRow} {rest : List AccuracyMvRow}
    (hRows : c.questionAccuracyMv.Perm (r :: r' :: rest))
    (hKey : r.matchId = r'.matchId ∧ r.questionId = r'.questionId) : ClickHouse where
  answerEvents := c.answerEvents
  questionAccuracyMv := r.plus r' :: rest
  total := fun m q => (sum_plus hKey rfl hRows m q).trans (c.total m q)
  correct := fun m q => (sum_plus hKey rfl hRows m q).trans (c.correct m q)
  times := fun m q => (sum_plus hKey rfl hRows m q).trans (c.times m q)
  counted := by
    intro x hx
    have hOld : ∀ y ∈ r :: r' :: rest, 0 < y.totalAnswers :=
      fun y hy => c.counted y (hRows.mem_iff.mpr hy)
    obtain rfl | hx := List.mem_cons.mp hx
    · exact add_pos (hOld r (by simp)) (hOld r' (by simp))
    · exact hOld x (by simp [hx])

/-- A row of `_QUESTION_ACCURACY_SQL`. -/
structure AccuracyRow where
  questionId : Int
  totalAnswers : Int
  correctAnswers : Int
  rtSumMs : Int
  deriving DecidableEq, Repr

def accuracyRow (rows : List AccuracyMvRow) (m q : Int) : AccuracyRow where
  questionId := q
  totalAnswers := ((rowsOn m q rows).map (·.totalAnswers)).sum
  correctAnswers := ((rowsOn m q rows).map (·.correctAnswers)).sum
  rtSumMs := ((rowsOn m q rows).map (·.responseTimeSumMs)).sum

def accuracyRows (rows : List AccuracyMvRow) (m : Int) : List AccuracyRow :=
  (groupIds ((rows.filter (·.matchId = m)).map (·.questionId))).map (accuracyRow rows m)

def AccuracyRow.accuracy (r : AccuracyRow) : QuestionAccuracy where
  questionId := r.questionId
  totalAnswers := r.totalAnswers
  correctAnswers := r.correctAnswers
  accuracyPercent := percent r.correctAnswers r.totalAnswers
  avgResponseMs := if r.totalAnswers = 0 then 0 else truncate (r.rtSumMs / r.totalAnswers)

/-- Over no answers the quantiles are NaN, and `int(nan)` is a ValueError. -/
def queryClickhouse (L : Outside) (c : ClickHouse) (m : Int) : Except Stream.Exn Body := do
  let accuracy := (accuracyRows c.questionAccuracyMv m).map AccuracyRow.accuracy
  let events := c.answerEvents.filter (·.matchId = m)
  let totalAnswersAll := (accuracy.map (·.totalAnswers)).sum
  let some times := timesRow L events | throw .valueError
  return { matchId := m
           questionAccuracy := accuracy
           responseTimes := times.times
           mostMissedQuestions := mostMissed accuracy
           totalAnswers := if totalAnswersAll = 0 then events.length else totalAnswersAll }

/-- The rows of `match_questions` and `answer_submissions` with their keys: a
submission answers a question of its own match. -/
structure Tables where
  matchQuestions : List MatchQuestion
  submissions : List AnswerSubmission
  questionKey : (matchQuestions.map (·.id)).Nodup
  answered : ∀ s ∈ submissions, ∃ q ∈ matchQuestions,
    q.id = s.matchQuestionId ∧ q.matchId = s.matchId

/-- One match question with its rows of the outer join. -/
def Tables.joinedOn (t : Tables) (q : MatchQuestion) : List (Id × Option AnswerSubmission) :=
  let own := t.submissions.filter (·.matchQuestionId = q.id)
  if own = [] then [(q.questionId, none)] else own.map fun s => (q.questionId, some s)

def Tables.joined (t : Tables) (m : Id) : List (Id × Option AnswerSubmission) :=
  (t.matchQuestions.filter (·.matchId = m)).flatMap t.joinedOn

/-- A row of `per_q_stmt`; an aggregate over no values is NULL. -/
structure QuestionRow where
  questionId : Int
  total : Int
  correct : Option Int
  avgMs : Option ℚ
  deriving DecidableEq, Repr

def questionRow (joined : List (Id × Option AnswerSubmission)) (q : Int) : QuestionRow :=
  let own := (joined.filter fun r => (r.1 : Int) = q).filterMap (·.2)
  { questionId := q
    total := own.length
    correct := if own = [] then none else some (own.map fun s => if s.isCorrect then 1 else 0).sum
    avgMs := if own = [] then none else some (average (own.map (·.responseTimeMs))) }

def questionRows (joined : List (Id × Option AnswerSubmission)) : List QuestionRow :=
  (groupIds (joined.map fun r => (r.1 : Int))).map (questionRow joined)

def QuestionRow.accuracy (r : QuestionRow) : QuestionAccuracy where
  questionId := r.questionId
  totalAnswers := r.total
  correctAnswers := r.correct.getD 0
  accuracyPercent := percent (r.correct.getD 0) r.total
  avgResponseMs := truncate (r.avgMs.getD 0)

/-- `percentile_cont`: between the two values next to the place, in proportion. -/
def percentileCont (p : ℚ) (xs : List Int) : ℚ :=
  let sorted := xs.insertionSort (· ≤ ·)
  let place : ℚ := p * (xs.length - 1)
  let below : ℚ := sorted.getD ⌊place⌋.toNat 0
  let above : ℚ := sorted.getD ⌈place⌉.toNat 0
  below + (place - ⌊place⌋) * (above - below)

/-- Over no answers all four are NULL, and zero is taken. -/
def responseTimes (xs : List Int) : ResponseTimes :=
  if xs = [] then ⟨0, 0, 0, 0⟩
  else
    ⟨truncate (percentileCont (1 / 2) xs), truncate (percentileCont (19 / 20) xs),
      truncate (percentileCont (99 / 100) xs), truncate (average xs)⟩

def queryPostgres (t : Tables) (m : Id) : Body :=
  let accuracy := (questionRows (t.joined m)).map QuestionRow.accuracy
  { matchId := m
    questionAccuracy := accuracy
    responseTimes :=
      responseTimes ((t.submissions.filter (·.matchId = m)).map (·.responseTimeMs))
    mostMissedQuestions := mostMissed accuracy
    totalAnswers := (accuracy.map (·.totalAnswers)).sum }

end LiveQuiz.Analytics
