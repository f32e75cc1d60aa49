import LiveQuiz.Stream.ClickHouse
import LiveQuiz.Lib.Machine
import Mathlib.Data.List.Dedup
import Mathlib.Data.List.Sort

/-! # The world of the stream worker

The topics with their committed offsets, Redis, ClickHouse, and the memory of the
worker process: its positions and its buffers. A call is one await, or one piece
of Python under the client's lock. A restart may come between any two calls.
-/

namespace LiveQuiz.Stream

open Coroutine

set_option autoImplicit false

structure TopicPartition where
  topic : String
  partition : Nat
  deriving DecidableEq, Repr

structure ConsumerRecord where
  tp : TopicPartition
  offset : Nat
  value : Bytes
  deriving DecidableEq, Repr

structure QuestionAccuracy where
  questionId : Int
  totalAnswers : Int
  correctAnswers : Int
  accuracyPercent : ℚ
  avgResponseMs : Int
  p50ResponseMs : Int
  p95ResponseMs : Int
  deriving DecidableEq, Repr

structure ResponseTimes where
  p50 : Int
  p95 : Int
  p99 : Int
  avg : Int
  deriving DecidableEq, Repr

/-- What is cached under `cache:analytics:match:{match_id}`; its final leaderboard
is always empty. -/
structure Snapshot where
  matchId : Int
  questionAccuracy : List QuestionAccuracy
  responseTimes : ResponseTimes
  mostMissed : List QuestionAccuracy
  totalAnswers : Int
  deriving DecidableEq, Repr

/-- A row of the SELECT over one match, grouped by question. -/
structure AccuracyRow where
  questionId : Int
  total : Int
  correct : Int
  avgMs : ℚ
  p50Ms : ℚ
  p95Ms : ℚ
  deriving DecidableEq, Repr

/-- The aggregates of a match's response times. -/
structure TimesRow where
  p50 : ℚ
  p95 : ℚ
  p99 : ℚ
  avg : ℚ
  deriving DecidableEq, Repr

inductive Op where
  | stopRequested
  | getmany
  | sleep
  | claim (eventId : Int)
  | insertMany (table : String) (rows : List Row) (columns : List String)
  | maybeFlush
  | flushAll
  | insert (batch : Batch Row)
  | queryAccuracy (matchId : Int)
  | queryTimes (matchId : Int)
  | setCache (matchId : Int) (snapshot : Snapshot)
  | commit (offsets : List (TopicPartition × Nat))
  | loop
  | exit
  deriving DecidableEq, Repr

@[reducible] def Op.Res : Op → Type
  | .stopRequested | .claim _ => Bool
  | .getmany => List (TopicPartition × List ConsumerRecord)
  | .insertMany _ _ _ | .maybeFlush | .flushAll => List (Batch Row)
  | .queryAccuracy _ => List AccuracyRow
  | .queryTimes _ => Option TimesRow
  | _ => Unit

/-- The calls that leave the process and may raise. -/
def Op.fallible : Op → Bool
  | .getmany | .claim _ | .insert _ | .queryAccuracy _ | .queryTimes _ | .setCache _ _ => true
  | .commit _ => true
  | _ => false

/-- `fail`: the call raises and has no effect. `lost`: it takes effect and the reply
is lost, so it raises all the same; a poll hands over its records or does nothing. -/
inductive Fault where
  | none | fail | lost
  deriving DecidableEq, Repr

/-- `batch` says how many records a poll takes from which partition. -/
structure Decision where
  fault : Fault := .none
  batch : List (TopicPartition × Nat) := []
  deriving DecidableEq, Repr

/-- `log` holds the messages of all partitions in order of arrival, `seen` the event
ids claimed in Redis. `position` and `client` are memory of the process; `process`
is its program. `inserted` and `claimFailed` are history variables: all rows that
ClickHouse ever took, and whether a claim has raised in this process. -/
structure World where
  log : List (TopicPartition × Bytes)
  committed : TopicPartition → Nat
  seen : List Int
  tables : List (String × Row)
  cache : Int → Option Snapshot
  now : Int
  process : Option Nat
  stopping : Bool
  position : TopicPartition → Nat
  client : Client Row
  inserted : List (String × Row)
  claimFailed : Bool

/-- The messages of a partition; an offset is a place in this list. -/
def messagesOf (log : List (TopicPartition × Bytes)) (tp : TopicPartition) : List Bytes :=
  (log.filter (·.1 = tp)).map (·.2)

def World.messages (w : World) (tp : TopicPartition) : List Bytes := messagesOf w.log tp

/-- `max_records`. -/
def maxRecords : Nat := 200

/-- A poll takes at least one record from each partition of the reply, all of them
there, and `max_records` in total. -/
def World.offers (w : World) (batch : List (TopicPartition × Nat)) : Bool :=
  (batch.map (·.1)).Nodup ∧ (batch.map (·.2)).sum ≤ maxRecords ∧
    ∀ b ∈ batch, 0 < b.2 ∧ w.position b.1 + b.2 ≤ (w.messages b.1).length

def World.records (w : World) (tp : TopicPartition) (n : Nat) : List ConsumerRecord :=
  ((((w.messages tp).drop (w.position tp)).take n).zipIdx (w.position tp)).map
    fun m => ⟨tp, m.2, m.1⟩

def advanced (position : TopicPartition → Nat) (batch : List (TopicPartition × Nat)) :
    TopicPartition → Nat :=
  fun tp => position tp + (batch.lookup tp).getD 0

def World.insert (w : World) (batch : Batch Row) : World :=
  let rows := batch.rows.map fun r => (batch.table, r)
  { w with tables := w.tables ++ rows, inserted := w.inserted ++ rows }

/-- The rows of `answer_events` of a match. -/
def World.answersOf (w : World) (matchId : Int) : List AnswerEventsRow :=
  w.tables.filterMap fun
    | (table, .answer row) => if table = answerEventsTable ∧ row.matchId = matchId then some row else none
    | _ => none

def average (xs : List Int) : ℚ := (xs.sum : ℚ) / xs.length

def accuracyOf (L : Outside) (rows : List AnswerEventsRow) (questionId : Int) : AccuracyRow :=
  let own := rows.filter (·.questionId = questionId)
  let times := own.map (·.responseTimeMs)
  { questionId := questionId
    total := own.length
    correct := (own.map fun r => (r.isCorrect : Int)).sum
    avgMs := average times
    p50Ms := L.quantile (1 / 2) times
    p95Ms := L.quantile (19 / 20) times }

/-- `GROUP BY question_id ORDER BY question_id`. -/
def accuracyRows (L : Outside) (rows : List AnswerEventsRow) : List AccuracyRow :=
  ((rows.map AnswerEventsRow.questionId).dedup.insertionSort (· ≤ ·)).map (accuracyOf L rows)

/-- Over no rows the aggregates are NaN. -/
def timesRow (L : Outside) (rows : List AnswerEventsRow) : Option TimesRow :=
  let times := rows.map (·.responseTimeMs)
  if times = [] then none
  else some
    { p50 := L.quantile (1 / 2) times, p95 := L.quantile (19 / 20) times
      p99 := L.quantile (99 / 100) times, avg := average times }

abbrev Answer (o : Op) := Outcome World Unit (Except Exn o.Res)

/-- The effect and reply of a call that goes through. `loop` is the jump back to the
head of the loop, `exit` the end of the process. -/
def perform (L : Outside) (w : World) (fresh : Nat) : (o : Op) → Decision → Option (Answer o)
  | .stopRequested, _ => some ⟨w, .ok w.stopping, none⟩
  | .getmany, d =>
    if w.offers d.batch then
      some ⟨{ w with position := advanced w.position d.batch },
        .ok (d.batch.map fun b => (b.1, w.records b.1 b.2)), none⟩
    else none
  | .sleep, _ => some ⟨w, .ok (), none⟩
  | .claim i, _ =>
    if i ∈ w.seen then some ⟨w, .ok false, none⟩
    else some ⟨{ w with seen := i :: w.seen }, .ok true, none⟩
  | .insertMany table rows columns, _ =>
    let out := w.client.insertMany table rows columns w.now
    some ⟨{ w with client := out.1 }, .ok out.2, none⟩
  | .maybeFlush, _ =>
    let out := w.client.maybeFlush w.now
    some ⟨{ w with client := out.1 }, .ok out.2, none⟩
  | .flushAll, _ =>
    let out := w.client.flushAll w.now
    some ⟨{ w with client := out.1 }, .ok out.2, none⟩
  | .insert batch, _ => some ⟨w.insert batch, .ok (), none⟩
  | .queryAccuracy m, _ => some ⟨w, .ok (accuracyRows L (w.answersOf m)), none⟩
  | .queryTimes m, _ => some ⟨w, .ok (timesRow L (w.answersOf m)), none⟩
  | .setCache m s, _ =>
    some ⟨{ w with cache := Function.update w.cache m (some s) }, .ok (), none⟩
  | .commit offsets, _ =>
    some ⟨{ w with committed := fun tp => (offsets.lookup tp).getD (w.committed tp) }, .ok (), none⟩
  | .loop, _ => some ⟨{ w with process := some fresh }, .ok (), some ()⟩
  | .exit, _ => some ⟨{ w with process := none }, .ok (), none⟩

/-- The world after a call has raised. -/
def World.raised (w : World) : Op → World
  | .claim _ => { w with claimFailed := true }
  | _ => w

/-- One call of the program of the process; the programs of earlier processes and of
earlier rounds make no calls. -/
def exec (L : Outside) (w : World) (_ : Unit) (pid fresh : Nat) (o : Op) (d : Decision) :
    Option (Answer o) :=
  if w.process ≠ some pid then none
  else
    match d.fault with
    | .none => perform L w fresh o d
    | .fail => if o.fallible then some ⟨w.raised o, .error .fault, none⟩ else none
    | .lost =>
      if o.fallible ∧ o ≠ .getmany then
        (perform L w fresh o d).map fun a => ⟨a.shared.raised o, .error .fault, none⟩
      else none

inductive EnvAction where
  | produce (tp : TopicPartition) (value : Bytes)
  | restart
  | sigterm
  | expire (eventId : Int)
  | merge (i : Nat)
  | tick (dt : Nat)
  deriving DecidableEq, Repr

/-- The key of the ReplacingMergeTree `answer_events`. -/
def AnswerEventsRow.mergeKey (r : AnswerEventsRow) : Int × Int × Int × Int :=
  (r.matchId, r.questionId, r.participantId, r.eventId)

/-- A background merge may drop the `i`th row, which a later one replaces. -/
def replaced (tables : List (String × Row)) (i : Nat) : Bool :=
  match tables[i]? with
  | some (table, .answer row) => table = answerEventsTable ∧
    (tables.drop (i + 1)).any fun
      | (table', .answer row') => table' = answerEventsTable ∧ row'.mergeKey = row.mergeKey
      | _ => false
  | _ => false

def env (w : World) (fresh : Nat) : EnvAction → Option (World × Option Unit)
  | .produce tp value => some ({ w with log := w.log ++ [(tp, value)] }, none)
  | .restart =>
    some ({ w with
      process := some fresh, stopping := false, position := w.committed, client := {}
      claimFailed := false }, some ())
  | .sigterm => some ({ w with stopping := true }, none)
  | .expire i => some ({ w with seen := w.seen.filter (· ≠ i) }, none)
  | .merge i =>
    if replaced w.tables i then some ({ w with tables := w.tables.eraseIdx i }, none) else none
  | .tick dt => some ({ w with now := w.now + dt }, none)

end LiveQuiz.Stream
