import LiveQuiz.Model.System
import LiveQuiz.Protocol.Tables
import LiveQuiz.Lib.Contract

/-! # The contract of the match service

What holds in every state, what a coroutine may rely on between two of its calls,
and what each of its calls is allowed to be: the transactions that are committed,
the tasks that are created, the Redis keys that are written. Everything later is
derived from these; no claim about single jobs is repeated.
-/

namespace LiveQuiz

open Coroutine

set_option autoImplicit false

/-- The request a stored row or a cached response answers. -/
def Answers (w : World) (requestId : String) (row : AnswerSubmission) : Prop :=
  ∃ m payload, Job.submitAnswer m row.participantId payload requestId ∈ w.requests ∧
    payload.matchQuestionId = row.matchQuestionId

def HasStarted (w : World) (m : Id) (p : Nat) : Prop :=
  ∃ q ∈ w.db.matchQuestions, q.matchId = m ∧ q.position = p ∧ q.startedAt.isSome

def HasClosed (w : World) (m : Id) (p : Nat) : Prop :=
  ∃ q ∈ w.db.matchQuestions, q.matchId = m ∧ q.position = p ∧ q.closedAt.isSome

/-- `p` is a position of the match and no earlier question is unstarted. -/
def Next (w : World) (m : Id) (p : Nat) : Prop :=
  (∃ q ∈ w.db.matchQuestions, q.matchId = m ∧ q.position = p) ∧
    ∀ q ∈ w.db.matchQuestions, q.matchId = m → q.position < p → q.startedAt.isSome

/-- A commit of `pid` inserted the row. -/
def Wrote (w : World) (pid : Nat) (row : AnswerSubmission) : Prop :=
  ∃ ws, (pid, ws) ∈ w.wal ∧ .insertSubmission row ∈ ws

/-- Where a response for `(p, q)` under the id `r` comes from: the caller's own
insert, or the row behind a unique violation. -/
def Sourced (w : World) (pid : Nat) (p q : Id) (r : String) (resp : Response) : Prop :=
  (∃ row rank, Wrote w pid row ∧ row.requestId = r ∧ resp = .ofRow row rank) ∨
  ∃ row ∈ w.db.submissions, resp = .ofRow row none ∧ (row.requestId = r ∨
    (row.matchQuestionId = q ∧ row.participantId = p))

/-- A commit of `pid` inserted the match. -/
def Created (w : World) (pid : Nat) (m : Id) : Prop :=
  ∃ ws row, (pid, ws) ∈ w.wal ∧ .insertMatch row ∈ ws ∧ row.id = m

def Silent (w : World) (pid : Nat) : Prop := ∀ ws, (pid, ws) ∉ w.wal

/-- The timer of a task is in the scheduler's registry, or has been told to stop. -/
def Registered (w : World) (replica : Nat) (m : Id) (pid : Nat) : Prop :=
  w.active replica m = some pid ∨ w.cancelling pid = true

inductive Arms : Job → Id → Nat → Prop
  | arm (m : Id) (p : Nat) : Arms (.armQuestion m p) m p
  | gap (m : Id) (p : Nat) (s : Micros) : Arms (.gapThenArm m p s) m p

inductive Closes : Job → Id → Nat → Prop
  | close (m : Id) (p : Nat) : Closes (.closeQuestion m p) m p
  | after (m : Id) (p : Nat) (d : Micros) : Closes (.closeQuestionAfter m p d) m p

def Job.question? : Job → Option Id
  | .armQuestion m _ | .gapThenArm m _ _ => some m
  | .closeQuestion m _ | .closeQuestionAfter m _ _ => some m
  | _ => none

theorem Arms.question {job : Job} {m : Id} {p : Nat} (h : Arms job m p) : job.question? = some m := by
  cases h <;> rfl

theorem Closes.question {job : Job} {m : Id} {p : Nat} (h : Closes job m p) : job.question? = some m := by
  cases h <;> rfl

/-- The jobs that can complete a match. A timer in the registry is not one. -/
inductive Finishes : Job → Id → Prop
  | host (m : Id) (h : Option Id) : Finishes (.endMatch m h) m
  | last (m : Id) (p : Nat) : Finishes (.closeQuestion m p) m

/-- The jobs that take a match off the scheduler. -/
inductive Cancels : Job → Id → Prop
  | pause (host : Id) (code : String) (m : Id) : Cancels (.pauseMatch host code) m
  | host (m : Id) (h : Option Id) : Cancels (.endMatch m h) m
  | own (job : Job) (m : Id) : job.question? = some m → Cancels job m

theorem Finishes.cancels {job : Job} {m : Id} (h : Finishes job m) : Cancels job m := by
  cases h with
  | host => exact .host m _
  | last _ p => exact .own _ m rfl

def startWrites (m : Match) (mqs : List MatchQuestion) (room : Room) (quiz : QuizSet)
    (eventId : Id) : List Write :=
  .insertMatch m :: (mqs.map .insertMatchQuestion ++
    [.updateRoom room.id .running (some m.startedAt) none,
      .insertEvent (matchStartedEvent eventId m room quiz mqs.length)])

def armWrites (mq : MatchQuestion) (question : QuestionContent) (eventId : Id)
    (startedAt deadlineAt : Micros) : List Write :=
  [.updateMatchQuestion mq.id (some startedAt) (some deadlineAt) none,
    .insertEvent (questionStartedEvent eventId mq question startedAt deadlineAt)]

def closeWrites (mq : MatchQuestion) (eventId : Id) (closedAt : Micros) (correctIds : List Id) :
    List Write :=
  [.updateMatchQuestion mq.id none none (some closedAt),
    .insertEvent (questionClosedEvent eventId mq closedAt correctIds)]

def finishWrites (m : Match) (room : Room) (scores : List FinalScore) (endedAt : Micros)
    (eventId : Id) : List Write :=
  [.updateRoom room.id .completed none (some endedAt),
    .updateMatch m.id .completed (some endedAt)] ++ scores.map .insertFinalScore ++
    [.insertEvent (matchFinishedEvent eventId m room endedAt scores)]

def submitWrites (row : AnswerSubmission) (roomId questionId eventId : Id) (now : Micros) :
    List Write :=
  [.insertSubmission row, .insertEvent (answerSubmittedEvent eventId row roomId questionId now)]

/-- The transactions a job commits, with what holds when it does. -/
inductive Commit (w : World) (pid : Nat) : Job → List Write → Prop
  | empty (job : Job) : Commit w pid job []
  | start (host : Id) (code : String) (matchId : Id) (room : Room) (quiz : QuizSet)
      (questions : List Question) (ids : List Id) (startedAt : Micros) (eventId : Id) :
      room ∈ w.db.rooms → room.status = .lobby → w.lock (.room room.id) = some pid →
      Commit w pid (.startMatch host code)
        (startWrites ⟨matchId, room.id, quiz.version, .running, startedAt, none⟩
          (matchQuestionRows matchId ids questions) room quiz eventId)
  | arm (job : Job) (mq : MatchQuestion) (question : QuestionContent) (eventId : Id)
      (startedAt deadlineAt : Micros) :
      Arms job mq.matchId mq.position → mq ∈ w.db.matchQuestions →
      w.lock (.matchQuestion mq.id) = some pid → mq.closedAt = none → Silent w pid →
      Commit w pid job (armWrites mq question eventId startedAt deadlineAt)
  | close (job : Job) (mq : MatchQuestion) (eventId : Id) (closedAt : Micros)
      (correctIds : List Id) :
      Closes job mq.matchId mq.position → mq ∈ w.db.matchQuestions →
      w.lock (.matchQuestion mq.id) = some pid → mq.closedAt = none → mq.startedAt.isSome →
      Silent w pid → Commit w pid job (closeWrites mq eventId closedAt correctIds)
  | pause (host : Id) (code : String) (m : Match) :
      m ∈ w.db.matches' → w.lock (.room m.roomId) = some pid → m.status = .running →
      Commit w pid (.pauseMatch host code)
        [.updateRoom m.roomId .paused none none, .updateMatch m.id .paused none]
  | resume (host : Id) (code : String) (m : Match) (deadline : List Write) :
      m ∈ w.db.matches' → w.lock (.room m.roomId) = some pid → m.status = .paused →
      (deadline = [] ∨ ∃ i u, (∃ q ∈ w.db.matchQuestions, q.id = i ∧ q.matchId = m.id ∧
        w.lock (.matchQuestion i) = some pid) ∧
        deadline = [.updateMatchQuestion i none (some u) none]) →
      Commit w pid (.resumeMatch host code)
        ([.updateRoom m.roomId .running none none, .updateMatch m.id .running none] ++ deadline)
  | finish (job : Job) (m : Match) (room : Room) (subs : List AnswerSubmission)
      (participants : List RoomParticipant) (endedAt : Micros) (eventId : Id) :
      Finishes job m.id → m ∈ w.db.matches' → w.lock (.match' m.id) = some pid →
      m.status ≠ .completed → room.id = m.roomId →
      (w.tx pid).aggregated = some (m.id, subs) →
      Commit w pid job
        (finishWrites m room (finalScores m.id (perParticipant subs participants)) endedAt eventId)
  | submit (row : AnswerSubmission) (payload : AnswerSubmitRequest) (mq : MatchQuestion)
      (roomId questionId eventId : Id) (now : Micros) :
      payload.matchQuestionId = row.matchQuestionId →
      Answers w row.requestId row →
      mq ∈ w.db.matchQuestions → mq.id = row.matchQuestionId → mq.matchId = row.matchId →
      w.lock (.matchQuestion mq.id) = some pid → mq.closedAt = none →
      Commit w pid (.submitAnswer row.matchId row.participantId payload row.requestId)
        (submitWrites row roomId questionId eventId now)

/-- The tasks a job creates, with what holds when it does. -/
inductive Spawn (w : World) : Job → Job → Prop
  | first (host : Id) (code : String) (m : Match) :
      m ∈ w.db.matches' → Spawn w (.startMatch host code) (.armQuestion m.id 1)
  | resumed (host : Id) (code : String) (m : Id) (p : Nat) :
      Next w m p → Spawn w (.resumeMatch host code) (.armQuestion m p)
  | recovered (m : Id) (p : Nat) :
      Next w m p → Spawn w .recoverRunningMatches (.armQuestion m p)
  | timer (job : Job) (m : Id) (p : Nat) (d : Micros) :
      Arms job m p → HasStarted w m p → Spawn w job (.closeQuestionAfter m p d)
  | restarted (host : Id) (code : String) (m : Id) (p : Nat) (d : Micros) :
      HasStarted w m p → Spawn w (.resumeMatch host code) (.closeQuestionAfter m p d)
  | rescheduled (m : Id) (p : Nat) (d : Micros) :
      HasStarted w m p → Spawn w .recoverRunningMatches (.closeQuestionAfter m p d)
  | overdue (m : Id) (p : Nat) :
      HasStarted w m p → Spawn w .recoverRunningMatches (.closeQuestion m p)
  | gap (job : Job) (m : Id) (p : Nat) (s : Micros) :
      Closes job m p → HasStarted w m p → HasClosed w m p →
      Spawn w job (.gapThenArm m (p + 1) s)

/-- What one state tells about every later one. -/
structure Later (w w' : World) : Prop where
  matchQuestions : ∀ q ∈ w.db.matchQuestions, ∃ q' ∈ w'.db.matchQuestions, q.Later q'
  matches' : ∀ m ∈ w.db.matches', ∃ m' ∈ w'.db.matches', m'.id = m.id ∧ m'.roomId = m.roomId
  questionsOf : ∀ m ∈ w.db.matches', ∀ q' ∈ w'.db.matchQuestions, q'.matchId = m.id →
    ∃ q ∈ w.db.matchQuestions, q.Later q'
  submissions : w.db.submissions ⊆ w'.db.submissions
  requests : w.requests ⊆ w'.requests
  wal : w.wal ⊆ w'.wal

structure Inv (n : Nat) (w : World) : Prop where
  keys : w.db.Keys
  idle : ∀ pid, n ≤ pid → w.tx pid = {}
  silent : ∀ pid, n ≤ pid → Silent w pid
  locked : ∀ pid, ∀ wr ∈ (w.tx pid).writes, ∀ r, wr.target = some r → w.lock r = some pid
  roomLocked : ∀ pid i st ea, .updateMatch i st ea ∈ (w.tx pid).writes →
    ∃ m ∈ w.db.matches', m.id = i ∧ w.lock (.room m.roomId) = some pid
  uncollided : ∀ pid, ∀ wr ∈ (w.tx pid).writes, wr.collides w.db = false
  apart : ∀ pid, (w.tx pid).writes.Pairwise fun a b => a.collidesWith b = false
  disjoint : ∀ p q, p ≠ q → ∀ a ∈ (w.tx p).writes, ∀ b ∈ (w.tx q).writes, a.collidesWith b = false
  matchOf : ∀ q ∈ w.db.matchQuestions, ∃ m ∈ w.db.matches', m.id = q.matchId
  positive : ∀ q ∈ w.db.matchQuestions, 1 ≤ q.position
  paused : ∀ m rec p, w.redis.pause m = some rec → rec.position = some p → HasStarted w m p
  answered : ∀ row ∈ w.db.submissions, Answers w row.requestId row
  cached : ∀ r resp, w.redis.idem r = some resp →
    ∃ row ∈ w.db.submissions, ∃ rank, resp = .ofRow row rank ∧ Answers w r row
  applied : ∀ i ∈ w.redis.applied, ∃ row ∈ w.db.submissions, row.id = i
  wrote : ∀ pid row, Wrote w pid row → row ∈ w.db.submissions
  author : ∀ p q row, Wrote w p row → Wrote w q row → p = q

/-- What `pid` knows from its row locks, its commits and the scheduler is still so. -/
structure Holds (pid : Nat) (w w' : World) : Prop where
  later : Later w w'
  lock : ∀ r, w.lock r = some pid → w'.lock r = some pid
  lockedRoom : ∀ r ∈ w.db.rooms, w.lock (.room r.id) = some pid → r ∈ w'.db.rooms
  lockedMatch : ∀ m ∈ w.db.matches',
    w.lock (.match' m.id) = some pid ∨ w.lock (.room m.roomId) = some pid → m ∈ w'.db.matches'
  lockedQuestion : ∀ q ∈ w.db.matchQuestions,
    w.lock (.matchQuestion q.id) = some pid → q ∈ w'.db.matchQuestions
  wal : ∀ ws, (pid, ws) ∈ w'.wal → (pid, ws) ∈ w.wal
  applied : ∀ row, Wrote w pid row → row.id ∈ w'.redis.applied → row.id ∈ w.redis.applied
  registered : ∀ r m, Registered w r m pid → Registered w' r m pid
  cancelling : w.cancelling pid = true → w'.cancelling pid = true

/-- What the others leave alone between two calls of `pid`. -/
structure Rely (pid : Nat) (w w' : World) : Prop extends Holds pid w w' where
  tx : w'.tx pid = w.tx pid

def Req (pid : Nat) (t : Task) (w : World) : Op → Prop
  | .commit => Commit w pid t.job (w.tx pid).writes
  | .createTask j => Spawn w t.job j ∧ ∀ m p d, j ≠ .closeQuestionAfter m p d
  | .setActive m j => Spawn w t.job j ∧ j.question? = some m
  | .cancelActive m => Cancels t.job m
  | .flush ws => ∀ i st ea, .updateMatch i st ea ∈ ws →
    ∃ m ∈ w.db.matches', m.id = i ∧ w.lock (.room m.roomId) = some pid
  | .select (.getQuestion i) | .select (.getOptions i) =>
    ∃ mq ∈ w.db.matchQuestions, mq.questionId = i ∧ mq.closedAt = none
  | .select (.getQuizSet _) | .select (.questionsOfQuiz _) =>
    (∃ h c, t.job = .startMatch h c) ∧ Silent w pid
  | .redis (.setPause m rec) => ∀ p, rec.position = some p → HasStarted w m p
  | .redis (.idemSet r resp) => (∃ m p payload, t.job = .submitAnswer m p payload r ∧
      Sourced w pid p payload.matchQuestionId r resp) ∧
    ∃ row ∈ w.db.submissions, ∃ rank, resp = .ofRow row rank ∧ Answers w r row
  | .redis (.zaddTotal m p d i) => ∃ row, Wrote w pid row ∧ row.matchId = m ∧
    row.participantId = p ∧ row.scoreAwarded = d ∧ row.id = i ∧ i ∉ w.redis.applied
  | .redis (.resetLeaderboard m) => Created w pid m
  | .broadcast _ (.questionClosed i _ _ _) =>
    ∃ q ∈ w.db.matchQuestions, q.id = i ∧ q.closedAt.isSome
  | _ => True

/-- An accepted answer is a stored row of a call with its request id. -/
def Post (_pid : Nat) (t : Task) (r : Except Exn Ret) (w : World) : Prop :=
  ∀ m p payload rid resp, t.job = .submitAnswer m p payload rid → r = .ok (.response resp) →
    ∃ row ∈ w.db.submissions, ∃ rank, resp = .ofRow row rank ∧ Answers w rid row

def contract : Contract World Op Exn Ret Task where
  inv := Inv
  rely := Rely
  req := Req
  post := Post

/-- What is true when a job starts as program `pid`. -/
structure Begin (w : World) (pid : Nat) (t : Task) : Prop where
  tx : w.tx pid = {}
  silent : Silent w pid
  requested : ∀ m p payload r, t.job = .submitAnswer m p payload r → t.job ∈ w.requests
  started : ∀ m p, Closes t.job m p → HasStarted w m p
  registered : ∀ m p d, t.job = .closeQuestionAfter m p d → Registered w t.replica m pid

section

variable {w w' w'' : World} {pid : Nat} {m : Id} {p : Nat}

theorem Later.refl (w : World) : Later w w :=
  ⟨fun q hq => ⟨q, hq, .refl q⟩, fun m hm => ⟨m, hm, rfl, rfl⟩, fun _ _ q hq _ => ⟨q, hq, .refl q⟩,
    fun _ h => h, fun _ h => h, fun _ h => h⟩

theorem Later.trans (h : Later w w') (h' : Later w' w'') : Later w w'' where
  matchQuestions q hq := by
    obtain ⟨q', hq', hLater⟩ := h.matchQuestions q hq
    obtain ⟨q'', hq'', hLater'⟩ := h'.matchQuestions q' hq'
    exact ⟨q'', hq'', hLater.trans hLater'⟩
  matches' m hm := by
    obtain ⟨m', hm', hId, hRoom⟩ := h.matches' m hm
    obtain ⟨m'', hm'', hId', hRoom'⟩ := h'.matches' m' hm'
    exact ⟨m'', hm'', hId'.trans hId, hRoom'.trans hRoom⟩
  questionsOf m hm q'' hq'' hOf := by
    obtain ⟨m', hm', hId, -⟩ := h.matches' m hm
    obtain ⟨q', hq', hLater'⟩ := h'.questionsOf m' hm' q'' hq'' (hOf.trans hId.symm)
    obtain ⟨q, hq, hLater⟩ := h.questionsOf m hm q' hq' (hLater'.matchId.symm.trans hOf)
    exact ⟨q, hq, hLater.trans hLater'⟩
  submissions := fun _ hr => h'.submissions (h.submissions hr)
  requests := fun _ hr => h'.requests (h.requests hr)
  wal := fun _ hr => h'.wal (h.wal hr)

theorem Answers.later {r : String} {row : AnswerSubmission} (h : Answers w r row)
    (hLater : Later w w') : Answers w' r row := by
  obtain ⟨m, payload, hReq, hQuestion⟩ := h
  exact ⟨m, payload, hLater.requests hReq, hQuestion⟩

theorem Created.later (h : Created w pid m) (hLater : Later w w') : Created w' pid m := by
  obtain ⟨ws, row, hWal, hRow⟩ := h
  exact ⟨ws, row, hLater.wal hWal, hRow⟩

theorem HasStarted.later (h : HasStarted w m p) (hLater : Later w w') : HasStarted w' m p := by
  obtain ⟨q, hq, hm, hp, hs⟩ := h
  obtain ⟨q', hq', hL⟩ := hLater.matchQuestions q hq
  exact ⟨q', hq', hL.matchId.trans hm, hL.position.trans hp, hL.started hs⟩

theorem HasClosed.later (h : HasClosed w m p) (hLater : Later w w') : HasClosed w' m p := by
  obtain ⟨q, hq, hm, hp, hs⟩ := h
  obtain ⟨q', hq', hL⟩ := hLater.matchQuestions q hq
  exact ⟨q', hq', hL.matchId.trans hm, hL.position.trans hp, hL.closed hs⟩

theorem Next.later {n : Nat} (hInv : Inv n w) (h : Next w m p) (hLater : Later w w') :
    Next w' m p := by
  obtain ⟨⟨q, hq, hm, hp⟩, hBelow⟩ := h
  obtain ⟨q', hq', hL⟩ := hLater.matchQuestions q hq
  refine ⟨⟨q', hq', hL.matchId.trans hm, hL.position.trans hp⟩, fun x' hx' hxm hxp => ?_⟩
  obtain ⟨row, hRow, hRowId⟩ := hInv.matchOf q hq
  obtain ⟨x, hx, hxL⟩ := hLater.questionsOf row hRow x' hx' (by rw [hxm, hRowId, hm])
  exact hxL.started (hBelow x hx (hxL.matchId ▸ hxm) (hxL.position ▸ hxp))

theorem Wrote.later {row : AnswerSubmission} (h : Wrote w pid row) (hLater : Later w w') :
    Wrote w' pid row := by
  obtain ⟨ws, hws, hRow⟩ := h
  exact ⟨ws, hLater.wal hws, hRow⟩

theorem Holds.refl (pid : Nat) (w : World) : Holds pid w w :=
  ⟨.refl w, fun _ h => h, fun _ h _ => h, fun _ h _ => h, fun _ h _ => h, fun _ h => h,
    fun _ _ h => h, fun _ _ h => h, fun h => h⟩

theorem Holds.trans (h : Holds pid w w') (h' : Holds pid w' w'') : Holds pid w w'' where
  later := h.later.trans h'.later
  lock r hr := h'.lock r (h.lock r hr)
  lockedRoom r hr hl := h'.lockedRoom r (h.lockedRoom r hr hl) (h.lock _ hl)
  lockedMatch m hm hl := h'.lockedMatch m (h.lockedMatch m hm hl) (hl.imp (h.lock _) (h.lock _))
  lockedQuestion q hq hl := h'.lockedQuestion q (h.lockedQuestion q hq hl) (h.lock _ hl)
  wal ws hws := h.wal ws (h'.wal ws hws)
  applied row hRow ha := h.applied row hRow (h'.applied row (hRow.later h.later) ha)
  registered r m hr := h'.registered r m (h.registered r m hr)
  cancelling hc := h'.cancelling (h.cancelling hc)

theorem Rely.refl (pid : Nat) (w : World) : Rely pid w w := ⟨.refl pid w, rfl⟩

theorem Rely.trans (h : Rely pid w w') (h' : Rely pid w' w'') : Rely pid w w'' :=
  ⟨h.toHolds.trans h'.toHolds, h'.tx.trans h.tx⟩

theorem Silent.holds (h : Silent w pid) (hHolds : Holds pid w w') : Silent w' pid :=
  fun ws hws => h ws (hHolds.wal ws hws)

theorem Inv.mono {n n' : Nat} (h : Inv n w) (hn : n ≤ n') : Inv n' w :=
  { h with
    idle := fun pid hp => h.idle pid (hn.trans hp)
    silent := fun pid hp => h.silent pid (hn.trans hp) }

theorem Post.rely {t : Task} {r : Except Exn Ret} (h : Post pid t r w) (hLater : Later w w') :
    Post pid t r w' := by
  intro m p payload rid resp hJob hr
  obtain ⟨row, hRow, rank, hResp, hAns⟩ := h m p payload rid resp hJob hr
  exact ⟨row, hLater.submissions hRow, rank, hResp, hAns.later hLater⟩

end

end LiveQuiz
