import LiveQuiz.Lib.Transactions
import LiveQuiz.Model.Faults

/-! # `decide`

A moderator's decision on a report: one transaction over the report, the quiz, the
participants or the user it is about, the audit log and the outbox, then the notices to
the kicked participants. Reads take no lock; an UPDATE locks its row until the end of the
transaction.
-/

namespace LiveQuiz.Moderation

open Coroutine

set_option autoImplicit false

inductive ModerationStatus where
  | pending | dismissed | actionTaken
  deriving DecidableEq, Repr

def ModerationStatus.value : ModerationStatus → String
  | .pending => "pending"
  | .dismissed => "dismissed"
  | .actionTaken => "action_taken"

inductive DecisionKind where
  | dismiss | hide | mute | ban
  deriving DecidableEq, Repr

def DecisionKind.value : DecisionKind → String
  | .dismiss => "dismiss"
  | .hide => "hide"
  | .mute => "mute"
  | .ban => "ban"

structure Report where
  id : Id
  roomId : Option Id
  targetUserId : Option Id
  targetQuizSetId : Option Id
  status : ModerationStatus
  reviewedBy : Option Id
  reviewedAt : Option Micros
  deriving DecidableEq, Repr

structure Quiz where
  id : Id
  visibility : QuizVisibility
  isPublished : Bool
  version : Nat
  deriving DecidableEq, Repr

/-- A participant with the code of its room. -/
structure Participant where
  id : Id
  roomId : Id
  roomCode : String
  userId : Option Id
  leftAt : Option Micros
  isKicked : Bool
  deriving DecidableEq, Repr

structure User where
  id : Id
  isActive : Bool
  deriving DecidableEq, Repr

/-- What a decision has changed, as the audit row and the event carry it. -/
inductive Change where
  | nothing
  | hidden (quizSetId : Id) (version : Nat)
  | muted (participants : List (String × Id))
  | banned (userId : Id)
  deriving DecidableEq, Repr

structure Affected where
  decision : DecisionKind
  reason : Option String
  change : Change
  deriving DecidableEq, Repr

structure AuditLog where
  id : Id
  actorUserId : Id
  action : String
  entityId : Id
  metadata : Affected
  deriving DecidableEq, Repr

/-- A `ModerationDecisionMade` row; the aggregate is the report. -/
structure DecisionEvent where
  id : Id
  aggregateId : Id
  decision : DecisionKind
  reason : Option String
  moderatorUserId : Id
  status : ModerationStatus
  affected : Affected
  occurredAt : Micros
  deriving DecidableEq, Repr

/-- The flushed statements. The UPDATE of a hidden quiz sets the columns that differ from
the loaded row, and the version. -/
inductive Write where
  | hideQuiz (id : Id) (visibility isPublished : Bool) (version : Nat)
  | kick (participantIds : List Id)
  | deactivate (userId : Id)
  | review (reportId : Id) (status : ModerationStatus) (reviewer : Id) (at' : Micros)
  | audit (row : AuditLog)
  | event (row : DecisionEvent)
  deriving DecidableEq, Repr

inductive Row where
  | report (id : Id)
  | quiz (id : Id)
  | participant (id : Id)
  | user (id : Id)
  deriving DecidableEq, Repr

inductive Job where
  | decide (moderatorId reportId : Id) (decision : DecisionKind) (reason : Option String)
  deriving DecidableEq, Repr

def Job.report : Job → Id
  | .decide _ i _ _ => i

/-- A committed decision. -/
structure Entry where
  pid : Nat
  job : Job
  writes : List Write
  deriving DecidableEq, Repr

/-- `holding` and `log` are history variables: the report a program has found pending, until
its transaction ends, and the committed decisions. -/
structure World extends Transactions.Book (List Write) Row where
  reports : List Report
  quizzes : List Quiz
  participants : List Participant
  users : List User
  audits : List AuditLog
  outbox : List DecisionEvent
  now : Micros
  holding : Nat → Option Id
  log : List Entry

inductive Op where
  | getReport (id : Id)
  | getQuiz (id : Id)
  | activeRows (roomId userId : Option Id)
  | getUser (id : Id)
  | utcnow
  | nextId
  | flush (ws : List Write)
  | commit
  | rollback
  | publish (code : String) (participantId reportId : Id)
  deriving DecidableEq, Repr

@[reducible] def Op.Res : Op → Type
  | .getReport _ => Option Report
  | .getQuiz _ => Option Quiz
  | .activeRows _ _ => List Participant
  | .getUser _ => Option User
  | .utcnow => Micros
  | .nextId => Id
  | _ => Unit

def Op.fallible : Op → Bool
  | .utcnow | .rollback => false
  | _ => true

def Write.rows : Write → List Row
  | .hideQuiz i _ _ _ => [.quiz i]
  | .kick ids => ids.map .participant
  | .deactivate i => [.user i]
  | .review i _ _ _ => [.report i]
  | _ => []

def Write.apply : Write → World → World
  | .hideQuiz i visibility isPublished version, w =>
    { w with quizzes := updateWhere Quiz.id i (fun q =>
        { q with
          visibility := if visibility then .priv else q.visibility
          isPublished := if isPublished then false else q.isPublished
          version := version }) w.quizzes }
  | .kick ids, w =>
    { w with participants := w.participants.map fun p =>
        if p.id ∈ ids then { p with isKicked := true } else p }
  | .deactivate i, w =>
    { w with users := updateWhere User.id i (fun u => { u with isActive := false }) w.users }
  | .review i status reviewer at', w =>
    { w with reports := updateWhere Report.id i (fun r =>
        { r with status := status, reviewedBy := some reviewer, reviewedAt := some at' }) w.reports }
  | .audit row, w => { w with audits := w.audits ++ [row] }
  | .event row, w => { w with outbox := w.outbox ++ [row] }

/-- The primary keys of the inserted rows. -/
def Write.collides (w : World) : Write → Bool
  | .audit row => w.audits.any (·.id = row.id)
  | .event row => w.outbox.any (·.id = row.id)
  | _ => false

namespace World

def endTx (w : World) (pid : Nat) : World :=
  { w with
    toBook := w.toBook.endTx [] pid
    holding := Function.update w.holding pid none }

def commit (w : World) (job : Job) (pid : Nat) : World :=
  { (Transactions.applyAll Write.apply (w.tx pid) w).endTx pid with
    log := w.log ++ [⟨pid, job, w.tx pid⟩] }

def hold (w : World) (pid : Nat) : Option Report → World
  | some r => if r.status = .pending then { w with holding := Function.update w.holding pid (some r.id) } else w
  | none => w

/-- The active participants of the room, of the user, or of both. -/
def active (w : World) (roomId userId : Option Id) : List Participant :=
  w.participants.filter fun p => p.leftAt.isNone ∧ p.isKicked = false ∧
    roomId.all (· = p.roomId) ∧ userId.all (p.userId = some ·)

end World

abbrev Answer (o : Op) := Outcome World Job (Except Exn o.Res)

def perform (w : World) (job : Job) (pid : Nat) : (o : Op) → Decision → Option (Answer o)
  | .getReport i, _ =>
    some ⟨w.hold pid (w.reports.find? (·.id = i)), .ok (w.reports.find? (·.id = i)), none⟩
  | .getQuiz i, _ => some ⟨w, .ok (w.quizzes.find? (·.id = i)), none⟩
  | .activeRows r u, _ => some ⟨w, .ok (w.active r u), none⟩
  | .getUser i, _ => some ⟨w, .ok (w.users.find? (·.id = i)), none⟩
  | .utcnow, _ => some ⟨w, .ok w.now, none⟩
  | .nextId, d => some ⟨w, .ok d.value, none⟩
  | .flush ws, _ =>
    if ws.any (·.collides w) then some ⟨w, .error .integrity, none⟩
    else if ws.any fun wr => wr.rows.any (w.heldByOther pid) then none
    else some ⟨{ w with toBook := (w.take pid fun row => ws.any (row ∈ ·.rows)).append pid ws }, .ok (), none⟩
  | .commit, _ => some ⟨w.commit job pid, .ok (), none⟩
  | .rollback, _ => some ⟨w.endTx pid, .ok (), none⟩
  | .publish _ _ _, _ => some ⟨w, .ok (), none⟩

def exec (w : World) (job : Job) (pid _fresh : Nat) (o : Op) (d : Decision) : Option (Answer o) :=
  faulty d.fault o.fallible w (perform w job pid o d)

/-- The requests, the clock, new reports, and what other services do to the quizzes, the
participants and the users. -/
inductive EnvAction where
  | tick (dt : Nat)
  | request (job : Job)
  | addReport (id : Id) (roomId targetUserId targetQuizSetId : Option Id)
  | putQuizzes (quizzes : List Quiz)
  | putParticipants (participants : List Participant)
  | putUsers (users : List User)
  deriving DecidableEq, Repr

def env (w : World) (_fresh : Nat) : EnvAction → Option (World × Option Job)
  | .tick dt => some ({ w with now := w.now + dt }, none)
  | .request j => some (w, some j)
  | .addReport i room user quiz =>
    if w.reports.any (·.id = i) then none
    else some ({ w with reports := w.reports ++ [⟨i, room, user, quiz, .pending, none, none⟩] }, none)
  | .putQuizzes qs => some ({ w with quizzes := qs }, none)
  | .putParticipants ps => some ({ w with participants := ps }, none)
  | .putUsers us => some ({ w with users := us }, none)

abbrev Coro := Prog Op Op.Res Exn

abbrev ask (o : Op) : Coro o.Res := Prog.perform o

/-- The request's session: leaving by an exception rolls back. -/
def inSession {α : Type} (body : Coro α) : Coro α := body.session .rollback

def applyHide (report : Report) : Coro Change := do
  let some quizId := report.targetQuizSetId
    | raise "VALIDATION_ERROR" 422 "hide requires a target_quiz_set_id" [("report_id", toString report.id)]
  let some quiz ← ask (.getQuiz quizId)
    | raise "VALIDATION_ERROR" 404 "target quiz set not found" [("target_quiz_set_id", toString quizId)]
  let version := (if quiz.version = 0 then 1 else quiz.version) + 1
  ask (.flush [.hideQuiz quiz.id (quiz.visibility ≠ .priv) quiz.isPublished version])
  return .hidden quiz.id version

def applyMute (report : Report) : Coro Change := do
  if report.roomId.isNone && report.targetUserId.isNone then
    raise "VALIDATION_ERROR" 422 "mute requires room_id and/or target_user_id" [("report_id", toString report.id)]
  let rows ← ask (.activeRows report.roomId report.targetUserId)
  ask (.flush [.kick (rows.map (·.id))])
  return .muted (rows.map fun p => (p.roomCode, p.id))

def applyBan (report : Report) : Coro Change := do
  let some userId := report.targetUserId
    | raise "VALIDATION_ERROR" 422 "ban requires a target_user_id" [("report_id", toString report.id)]
  let some user ← ask (.getUser userId)
    | raise "VALIDATION_ERROR" 404 "target user not found" [("target_user_id", toString userId)]
  ask (.flush [.deactivate user.id])
  return .banned user.id

def applyDecision (report : Report) : DecisionKind → Coro Change
  | .dismiss => return .nothing
  | .hide => applyHide report
  | .mute => applyMute report
  | .ban => applyBan report

def newStatus : DecisionKind → ModerationStatus
  | .dismiss => .dismissed
  | _ => .actionTaken

/-- The best-effort notices after the COMMIT. -/
def broadcastKicks (reportId : Id) : List (String × Id) → Coro Unit
  | [] => return
  | (code, participantId) :: rest => do
    let _messageId ← ask .nextId
    Prog.handle (ask (.publish code participantId reportId)) fun _ => return ()
    broadcastKicks reportId rest

def Change.targets : Change → List (String × Id)
  | .muted participants => participants
  | _ => []

/-- The rows of the transaction after the action itself. -/
def record (moderatorId : Id) (report : Report) (decision : DecisionKind) (reason : Option String)
    (change : Change) : Coro Unit := do
  let affected : Affected := ⟨decision, reason, change⟩
  let now ← ask .utcnow
  ask (.flush [.review report.id (newStatus decision) moderatorId now])
  let auditId ← ask .nextId
  ask (.flush [.audit ⟨auditId, moderatorId, "moderation.decide." ++ decision.value, report.id, affected⟩])
  let eventId ← ask .nextId
  let occurredAt ← ask .utcnow
  ask (.flush [.event ⟨eventId, report.id, decision, reason, moderatorId, newStatus decision, affected,
    occurredAt⟩])

def decide (moderatorId reportId : Id) (decision : DecisionKind) (reason : Option String) :
    Coro ModerationStatus :=
  inSession do
    let some report ← ask (.getReport reportId)
      | raise "VALIDATION_ERROR" 404 "report not found" [("report_id", toString reportId)]
    if report.status ≠ .pending then
      raise "VALIDATION_ERROR" 409 "report already decided" [("status", report.status.value)]
    let change ← applyDecision report decision
    record moderatorId report decision reason change
    ask .commit
    broadcastKicks report.id change.targets
    return newStatus decision

def jobBody : Job → Coro ModerationStatus
  | .decide m i d r => decide m i d r

def moderation : Machine World Op Op.Res Exn ModerationStatus Job Decision EnvAction where
  exec := exec
  env := env
  body := jobBody

abbrev SysState := State World Op Op.Res Exn ModerationStatus Job

abbrev SysLabel := Label Decision EnvAction

def initial : SysState where
  shared :=
    { reports := [], quizzes := [], participants := [], users := [], audits := [], outbox := []
      tx := fun _ => [], lock := fun _ => none, now := 0, holding := fun _ => none, log := [] }
  procs := []

end LiveQuiz.Moderation
