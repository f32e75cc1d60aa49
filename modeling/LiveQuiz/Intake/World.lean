import LiveQuiz.Intake.Scan
import LiveQuiz.Moderation.Decide

/-! # The moderation queue

The transactions that file reports: a player's own report, and the publication of a quiz,
whose texts are scanned. A flushed INSERT is checked against its primary and foreign keys.
-/

namespace LiveQuiz.Intake

open Coroutine
open LiveQuiz.Moderation (ModerationStatus)

set_option autoImplicit false

/-- The JSON text of an automatic report is kept as its entries. -/
inductive Details where
  | text (s : String)
  | finding (context matched source : String) (more : List (String × String))
  deriving DecidableEq, Repr

/-- What a report says. -/
structure Content where
  reporterUserId : Option Id
  roomId : Option Id
  targetUserId : Option Id
  targetQuizSetId : Option Id
  reason : String
  details : Option Details
  deriving DecidableEq, Repr

structure ModerationReport where
  id : Id
  content : Content
  status : ModerationStatus
  deriving DecidableEq, Repr

inductive Payload where
  | contentReported (reportId : Id) (reporterUserId roomId targetUserId targetQuizSetId : Option Id)
      (reason : String)
  | contentFlagged (reportId : Id) (reason context matched source : String)
      (targetUserId targetQuizSetId roomId : Option Id)
  | quizPublished (quizSetId : Id) (version : Nat) (ownerId : Id) (title : String)
  deriving DecidableEq, Repr

structure OutboxEvent where
  id : Id
  aggregateType : String
  aggregateId : Id
  payload : Payload
  occurredAt : Micros
  deriving DecidableEq, Repr

/-- The events of the queue, `ContentReported` and `ContentFlagged`. -/
def OutboxEvent.files (e : OutboxEvent) : Bool :=
  match e.payload with
  | .quizPublished _ _ _ _ => false
  | _ => true

structure ReportCreate where
  reason : String
  details : Option String
  targetUserId : Option Id
  targetQuizSetId : Option Id
  roomId : Option Id
  deriving DecidableEq, Repr

/-- `host` is the address of a client that is not logged in. -/
inductive Job where
  | createReport (reporter : Option Id) (host : String) (payload : ReportCreate)
  | publish (owner quizSetId : Id)
  deriving DecidableEq, Repr

inductive Write where
  | report (row : ModerationReport)
  | updateQuiz (id : Id) (patch : Authoring.QuizPatch)
  | event (row : OutboxEvent)
  deriving DecidableEq, Repr

structure Db where
  users : List Id
  rooms : List Id
  quiz : Authoring.Db
  reports : List ModerationReport
  outbox : List OutboxEvent

def Write.apply : Write → Db → Db
  | .report row, db => { db with reports := db.reports ++ [row] }
  | .updateQuiz i p, db => { db with quiz := (Authoring.Write.updateQuiz i p).apply db.quiz }
  | .event row, db => { db with outbox := db.outbox ++ [row] }

def applyAll (ws : List Write) (db : Db) : Db := Transactions.applyAll Write.apply ws db

/-- A foreign key of the report points nowhere. -/
def Content.dangles (db : Db) (c : Content) : Bool :=
  c.reporterUserId.any (· ∉ db.users) || c.roomId.any (· ∉ db.rooms) ||
    c.targetUserId.any (· ∉ db.users) || c.targetQuizSetId.any fun i => db.quiz.quizzes.all (·.id ≠ i)

/-- What a statement raises. -/
def Write.fails (db : Db) : Write → Option Exn
  | .report row =>
    if db.reports.any (·.id = row.id) || row.content.dangles db then some .integrity else none
  | .updateQuiz i _ => if db.quiz.quizzes.all (·.id ≠ i) then some .fault else none
  | .event row => if db.outbox.any (·.id = row.id) then some .integrity else none

inductive Row where
  | report (id : Id)
  | quiz (id : Id)
  | event (id : Id)
  deriving DecidableEq, Repr

def Write.row : Write → Row
  | .report row => .report row.id
  | .updateQuiz i _ => .quiz i
  | .event row => .event row.id

/-- A committed request, with the quiz that it had read. -/
structure Entry where
  job : Job
  seen : Option Authoring.Quiz
  loaded : List Question × List AnswerOption
  deriving DecidableEq, Repr

/-- `seen` and `loaded` are history variables: the quiz row, and the questions and options,
that a program has read last. So is `log`. -/
structure World extends Transactions.Book (List Write) Row where
  db : Db
  now : Micros
  seen : Nat → Option Authoring.Quiz
  loaded : Nat → List Question × List AnswerOption
  log : List Entry

inductive Op where
  | rateAcquire (key : String) (capacity cost : Nat)
  | getQuiz (id : Id)
  | questionsOf (quizSetId : Id)
  | optionsOf (questionIds : List Id)
  | utcnow
  | nextId
  | flush (wr : Write)
  | commit
  | rollback
  deriving DecidableEq, Repr

@[reducible] def Op.Res : Op → Type
  | .rateAcquire _ _ _ => Bool × Nat
  | .getQuiz _ => Option Authoring.Quiz
  | .questionsOf _ => List Question
  | .optionsOf _ => List AnswerOption
  | .utcnow => Micros
  | .nextId => Id
  | _ => Unit

def Op.fallible : Op → Bool
  | .utcnow | .rollback => false
  | _ => true

/-- `value` is the drawn id, `rate` the verdict of the rate limiter. -/
structure Decision where
  fault : Fault := .none
  value : Nat := 0
  rate : Bool × Nat := (true, 0)
  deriving DecidableEq, Repr

namespace World

def view (w : World) (pid : Nat) : Db := applyAll (w.tx pid) w.db

def endTx (w : World) (pid : Nat) : World :=
  { w with toBook := w.toBook.endTx [] pid }

def commit (w : World) (job : Job) (pid : Nat) : World :=
  { w.endTx pid with
    db := w.view pid
    log := w.log ++ [⟨job, w.seen pid, w.loaded pid⟩] }

def write (w : World) (pid : Nat) (wr : Write) : World :=
  { w with toBook := (w.take pid (· = wr.row)).append pid [wr] }

end World

abbrev Answer (o : Op) := Outcome World Job (Except Exn o.Res)

/-- A statement waits for a row that another transaction has written. -/
def flushed (w : World) (pid : Nat) (wr : Write) : Option (Answer (.flush wr)) :=
  if w.heldByOther pid wr.row then none
  else match wr.fails (w.view pid) with
  | some e => some ⟨w, .error e, none⟩
  | none => some ⟨w.write pid wr, .ok (), none⟩

def perform (w : World) (job : Job) (pid : Nat) : (o : Op) → Decision → Option (Answer o)
  | .rateAcquire _ _ _, d => some ⟨w, .ok d.rate, none⟩
  | .getQuiz i, _ =>
    let z := (w.view pid).quiz.quizzes.find? (·.id = i)
    some ⟨{ w with seen := Function.update w.seen pid z }, .ok z, none⟩
  | .questionsOf i, _ =>
    let qs := (w.view pid).quiz.questionsOf i
    some ⟨{ w with loaded := Function.update w.loaded pid (qs, []) }, .ok qs, none⟩
  | .optionsOf is, _ =>
    let os := (w.view pid).quiz.optionsOf is
    some ⟨{ w with loaded := Function.update w.loaded pid ((w.loaded pid).1, os) }, .ok os, none⟩
  | .utcnow, _ => some ⟨w, .ok w.now, none⟩
  | .nextId, d => some ⟨w, .ok d.value, none⟩
  | .flush wr, _ => flushed w pid wr
  | .commit, _ => some ⟨w.commit job pid, .ok (), none⟩
  | .rollback, _ => some ⟨w.endTx pid, .ok (), none⟩

def exec (w : World) (job : Job) (pid _fresh : Nat) (o : Op) (d : Decision) : Option (Answer o) :=
  faulty d.fault o.fallible w (perform w job pid o d)

/-- The requests, the clock, what other services do to the rows that reports point at and to
the texts of quizzes, and the decisions on reports. -/
inductive EnvAction where
  | tick (dt : Nat)
  | request (job : Job)
  | put (users rooms : List Id) (quiz : Authoring.Db)
  | decide (reportId : Id) (status : ModerationStatus)

def env (w : World) (_fresh : Nat) : EnvAction → Option (World × Option Job)
  | .tick dt => some ({ w with now := w.now + dt }, none)
  | .request j => some (w, some j)
  | .put users rooms quiz =>
    some ({ w with db := { w.db with users := users, rooms := rooms, quiz := quiz } }, none)
  | .decide i status =>
    some ({ w with db := { w.db with
      reports := updateWhere ModerationReport.id i (fun r => { r with status := status }) w.db.reports } }, none)

end LiveQuiz.Intake
