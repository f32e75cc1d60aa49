import LiveQuiz.Protocol.Course
import LiveQuiz.Protocol.Handover
import LiveQuiz.Results.OpenQuestion
import LiveQuiz.Results.Positions

/-! # The courses of a match

As long as the calls of the programs that may hold a match are regular and go through, each of
them is somewhere in its course: what the course says of its locks, its transaction, its commits
and the rows it has read is true of the world.
-/

namespace LiveQuiz

open Coroutine

set_option autoImplicit false

/-- What program `pid` has committed, without its empty transactions. -/
def World.commits (w : World) (pid : Nat) : List (List Write) :=
  w.wal.filterMap fun c => if c.1 = pid ∧ c.2 ≠ [] then some c.2 else none

def Job.tends : Job → Bool
  | .startMatch _ _ | .resumeMatch _ _ | .endMatch _ _ => true
  | job => job.question?.isSome

def Job.isResume : Job → Bool
  | .resumeMatch _ _ => true
  | _ => false

def Job.isPause : Job → Bool
  | .pauseMatch _ _ => true
  | _ => false

/-- The ids drawn are new, the question of an armed row is stored, a resume looks for an
unstarted question while none is open, `end_match` is called by the host, a task that comes
onto the scheduler has an unclosed question, and a pause that takes a match off the scheduler
finds it still paused. -/
def Op.regular (w : World) (pid : Nat) (job : Job) : Op → Bool
  | .flush ws => !job.tends || !violates ws (w.view pid)
  | .select (.getQuestion i) => !job.tends || w.db.questions.any (·.id = i)
  | .select (.nextUnstarted m) =>
    !job.isResume || w.db.matchQuestions.all fun q => q.matchId ≠ m ∨ q.isOpen = false
  | .selectForUpdate (.roomById i) => w.db.rooms.all fun r => r.id ≠ i ∨ job.admits r.hostId
  | .setActive m j => w.db.matchQuestions.any fun q =>
      q.matchId = m ∧ j.position = some q.position ∧ q.closedAt = none
  | .cancelActive m => !job.isPause || w.db.matches'.all fun x => x.id ≠ m ∨ x.status ≠ .running
  | _ => true

/-- The calls of the programs that may hold a match go through, but for the broadcasts and for
the Redis commands that do not come between a commit and the call that hands the match on. -/
def Op.heeded (w : World) (pid : Nat) (job : Job) : Op → Decision → Bool
  | .broadcast _ _, _ => true
  | .redis _, d => d.fault = .none || !job.tends || (w.commits pid).length ≠ 1
  | _, d => d.fault = .none || !job.tends

/-- No replica crashes, no question is armed beside an open one, and calls are regular and
heeded. -/
def keepsHold (S : SysState) : SysLabel → Bool
  | .op pid d =>
    armsUnopened S (.op pid d) && match S.procs[pid]? with
      | some ⟨t, .call o _⟩ => o.regular S.shared pid t.job && o.heeded S.shared pid t.job d
      | _ => true
  | .env (.crash _) => false
  | .env _ => true

section

variable {C : SysState → SysLabel → Prop} {seed : Seed} {S S' : SysState} {l : SysLabel}
  {pid : Nat} {t : Task}

theorem commits_of_silent {w : World} (h : Silent w pid) : w.commits pid = [] := by
  rw [World.commits, List.filterMap_eq_nil_iff]
  rintro ⟨q, ws⟩ hMem
  have hNe : q ≠ pid := by
    rintro rfl
    exact h ws hMem
  simp [hNe]

theorem mem_commits {w : World} {ws : List Write} :
    ws ∈ w.commits pid ↔ (pid, ws) ∈ w.wal ∧ ws ≠ [] := by
  simp only [World.commits, List.mem_filterMap, Option.ite_none_right_eq_some, Option.some.injEq]
  constructor
  · rintro ⟨⟨q, ws'⟩, hMem, ⟨hq, hNe⟩, hEq⟩
    dsimp only at hq hNe hEq
    subst hq hEq
    exact ⟨hMem, hNe⟩
  · rintro ⟨hMem, hNe⟩
    exact ⟨(pid, ws), hMem, ⟨rfl, hNe⟩, rfl⟩

theorem commits_commit (w : World) (hNe : (w.tx pid).writes ≠ []) :
    (w.commit pid).commits pid = w.commits pid ++ [(w.tx pid).writes] := by
  unfold World.commits
  rw [World.commit, List.filterMap_append]
  simp [hNe]

theorem commits_other (hS : Held S) (hStep : service.step S l = some S')
    (hOther : ∀ d, l ≠ .op pid d) : S'.shared.commits pid = S.shared.commits pid := by
  unfold World.commits
  obtain hSame | ⟨q, u, hC⟩ := step_cases hS hStep
  · rw [hSame.wal]
  · obtain ⟨d, rfl⟩ := hC.label
    have hNe : q ≠ pid := by
      rintro rfl
      exact hOther d rfl
    rw [hC.wal, List.filterMap_append]
    simp [hNe]

end

/-- No question of the match comes after position `n`, when that many have been counted. -/
def HasCount (w : World) (m : Id) (count : Option Nat) : Prop :=
  ∀ n, count = some n → (∃ x ∈ w.db.matches', x.id = m) ∧
    ∀ q ∈ w.db.matchQuestions, q.matchId = m → q.position ≤ n

def HasRoom (w : World) (room : Option Id) : Prop :=
  ∀ i, room = some i → ∃ r ∈ w.db.rooms, r.id = i

def AllClosed (w : World) (m : Id) : Prop :=
  (∃ x ∈ w.db.matches', x.id = m) ∧
    ∀ q ∈ w.db.matchQuestions, q.matchId = m → q.closedAt.isSome

/-- A commit of `pid` set the match running again. -/
def HasResumed (w : World) (pid : Nat) (m : Id) : Prop :=
  ∃ ws, (pid, ws) ∈ w.wal ∧ .updateMatch m .running none ∈ ws

/-- Whose commit the match waits for the successor of, and the position it is for. -/
inductive Leads (w : World) (pid : Nat) (m : Id) : Job → Option Nat → Prop
  | start (host : Id) (code : String) : Created w pid m → Leads w pid m (.startMatch host code) (some 1)
  | resume (host : Id) (code : String) (p : Option Nat) : HasResumed w pid m →
      Leads w pid m (.resumeMatch host code) p
  | task (job : Job) : job.question? = some m → Leads w pid m job job.successor

def Course.Fits (m : Id) (w : World) (pid : Nat) (job : Job) : Course → Prop
  | .asks ws => job.question? = none ∧ (w.tx pid).writes = ws ∧ w.commits pid = []
  | .tries ws room count => job.question? = some m ∧ (w.tx pid).writes = ws ∧
      ws.all Write.marks = true ∧ w.commits pid = [] ∧ (∃ x ∈ w.db.matches', x.id = m) ∧
      HasRoom w room ∧ HasCount w m count
  | .hands p count => (w.tx pid).writes = [] ∧ (w.commits pid).length = 1 ∧
      (∀ n, count = some n → ∃ b, p = some b ∧ ClosedBelow w m b) ∧ HasCount w m count ∧
      Leads w pid m job p
  | .ends ws room => (∃ host, job = .endMatch m host) ∧ (w.tx pid).writes = ws ∧ HasRoom w room
  | .shut => (w.tx pid).writes = []
  | .left => True
  | .past => job.question? = some m ∧ ¬Silent w pid ∧ AllClosed w m

section

variable {n : Nat} {w w' : World} {m : Id} {pid : Nat} {job : Job} {count room : Option Nat}

theorem HasCount.later (h : HasCount w m count) (hLater : Later w w') : HasCount w' m count := by
  intro n hn
  obtain ⟨⟨x, hx, hId⟩, hBelow⟩ := h n hn
  obtain ⟨x', hx', hId', -⟩ := hLater.matches' x hx
  refine ⟨⟨x', hx', hId'.trans hId⟩, fun q' hq' hm => ?_⟩
  obtain ⟨q, hq, hL⟩ := hLater.questionsOf x hx q' hq' (hm.trans hId.symm)
  exact hL.position ▸ hBelow q hq (hL.matchId.symm.trans hm)

theorem AllClosed.later (h : AllClosed w m) (hLater : Later w w') : AllClosed w' m := by
  obtain ⟨⟨x, hx, hId⟩, hAll⟩ := h
  obtain ⟨x', hx', hId', -⟩ := hLater.matches' x hx
  refine ⟨⟨x', hx', hId'.trans hId⟩, fun q' hq' hm => ?_⟩
  obtain ⟨q, hq, hL⟩ := hLater.questionsOf x hx q' hq' (hm.trans hId.symm)
  exact hL.closed (hAll q hq (hL.matchId.symm.trans hm))

theorem HasResumed.later (h : HasResumed w pid m) (hLater : Later w w') : HasResumed w' pid m := by
  obtain ⟨ws, hWal, hRow⟩ := h
  exact ⟨ws, hLater.wal hWal, hRow⟩

theorem Leads.later {p : Option Nat} (h : Leads w pid m job p) (hLater : Later w w') :
    Leads w' pid m job p := by
  cases h with
  | start host code hCreated => exact .start host code (hCreated.later hLater)
  | resume host code p hResumed => exact .resume host code p (hResumed.later hLater)
  | task _ hTask => exact .task job hTask

theorem not_silent_later (h : ¬Silent w pid) (hLater : Later w w') : ¬Silent w' pid :=
  fun hSilent => h fun ws hws => hSilent ws (hLater.wal hws)

end

section

variable {C : SysState → SysLabel → Prop} {seed : Seed} {S S' : SysState} {l : SysLabel}
  {pid : Nat} {t : Task} {m : Id} {room : Option Id}

theorem HasRoom.step (hS : Held S) (h : HasRoom S.shared room)
    (hStep : service.step S l = some S') : HasRoom S'.shared room := by
  intro i hi
  obtain ⟨r, hr, hId⟩ := h i hi
  obtain ⟨hDb, -⟩ | ⟨e, out, -, hEnv, hEq⟩ | ⟨q, u, hC⟩ := step_effect hS hStep
  · exact ⟨r, hDb ▸ hr, hId⟩
  · exact ⟨r, hEq ▸ (env_same (n := S.procs.length) hEnv).rooms hr, hId⟩
  · obtain ⟨r', hr', hId', -⟩ := later_room (S.shared.tx q).writes hr
    exact ⟨r', hC.db ▸ hr', hId'.trans hId⟩

theorem Course.Fits.keep {s : Course} (hS : Held S) (hStep : service.step S l = some S')
    (hTx : (S'.shared.tx pid).writes = (S.shared.tx pid).writes)
    (hCommits : S'.shared.commits pid = S.shared.commits pid) (h : s.Fits m S.shared pid t.job) :
    s.Fits m S'.shared pid t.job := by
  have hLater := step_later hS hStep
  cases s with
  | asks ws =>
    obtain ⟨hJob, hWrites, hNone⟩ := h
    exact ⟨hJob, hTx.trans hWrites, hCommits.trans hNone⟩
  | tries ws room count =>
    obtain ⟨hJob, hWrites, hMarks, hNone, ⟨x, hx, hId⟩, hRoom, hCount⟩ := h
    obtain ⟨x', hx', hId', -⟩ := hLater.matches' x hx
    exact ⟨hJob, hTx.trans hWrites, hMarks, hCommits.trans hNone, ⟨x', hx', hId'.trans hId⟩,
      hRoom.step hS hStep, hCount.later hLater⟩
  | hands p count =>
    obtain ⟨hWrites, hOne, hBelow, hCount, hLeads⟩ := h
    refine ⟨hTx.trans hWrites, by rw [hCommits, hOne], fun n hn => ?_, hCount.later hLater,
      hLeads.later hLater⟩
    obtain ⟨b, hb, hClosed⟩ := hBelow n hn
    exact ⟨b, hb, hClosed.later hLater⟩
  | ends ws room =>
    obtain ⟨hJob, hWrites, hRoom⟩ := h
    exact ⟨hJob, hTx.trans hWrites, hRoom.step hS hStep⟩
  | shut => exact hTx.trans h
  | left => trivial
  | past => exact ⟨h.1, not_silent_later h.2.1 hLater, h.2.2.later hLater⟩

theorem Course.Fits.other {s : Course} (hS : Held S) (hStep : service.step S l = some S')
    (hPid : pid < S.procs.length) (hOther : ∀ d, l ≠ .op pid d) (h : s.Fits m S.shared pid t.job) :
    s.Fits m S'.shared pid t.job :=
  h.keep hS hStep (by rw [(step_rely hS hStep hPid hOther).tx]) (commits_other hS hStep hOther)

theorem view_nil {w : World} (h : (w.tx pid).writes = []) : w.view pid = w.db := by
  rw [World.view, h]
  rfl

theorem exec_ok {w : World} {n : Nat} {o : Op} {d : Decision} {out : Answer o} {v : o.Res}
    (h : exec w t pid n o d = some out) (hr : out.result = .ok v) :
    perform w t pid n o d = some out ∧ (o.suspends = true → w.cancelling pid = false) := by
  obtain ⟨-, hLive, hOk⟩ | ⟨e, hErr, -⟩ := exec_cases h
  · exact ⟨hOk, hLive⟩
  · rw [hErr] at hr
    cases hr

theorem selected {w : World} {n : Nat} {q : Query} {d : Decision} {out : Answer (.select q)}
    {v : q.Rows} (h : exec w t pid n (.select q) d = some out) (hr : out.result = .ok v) :
    v = q.run (w.view pid) := by
  have hOk := (exec_ok h hr).1
  cases hOk
  cases hr
  rfl

theorem lock_found {w : World} {n : Nat} {q : LockQuery} {d : Decision}
    {out : Answer (.selectForUpdate q)} {v : Option q.Row}
    (h : exec w t pid n (.selectForUpdate q) d = some out) (hr : out.result = .ok v) :
    v = q.find (w.view pid) := by
  have hOk := (exec_ok h hr).1
  simp only [perform, lockRow] at hOk
  split at hOk
  next hNone =>
    cases hOk
    cases hr
    exact hNone.symm
  next row hRow =>
    split at hOk <;> cases hOk
    cases hr
    exact hRow.symm

section

variable {o : Op} {k : Except Exn o.Res → Coro Ret} {k' : Except Exn Unit → Coro Ret}
  {d : Decision} {out : Answer o}

theorem Course.Fits.inside {s : Course} {v : o.Res} (hS : Held S)
    (hStep : service.step S l = some S') (hExec : exec S.shared t pid S.procs.length o d = some out)
    (hShared : S'.shared = out.shared) (hr : out.result = .ok v) (ho : o.inside = true)
    (h : s.Fits m S.shared pid t.job) : s.Fits m S'.shared pid t.job := by
  have hc : o ≠ .commit := by
    rintro rfl
    cases ho
  refine h.keep hS hStep ?_ ?_
  · rw [hShared, (perform_tx ho (exec_ok hExec hr).1).1]
  · rw [hShared, World.commits, (exec_tables hc hExec).2]
    rfl

theorem committed {out : Answer .commit} (hExec : exec S.shared t pid S.procs.length .commit d = some out)
    (hr : out.result = .ok ()) (hNone : S.shared.commits pid = [])
    (hNe : (S.shared.tx pid).writes ≠ []) :
    (out.shared.tx pid).writes = [] ∧ (out.shared.commits pid).length = 1 ∧
      (pid, (S.shared.tx pid).writes) ∈ out.shared.wal ∧
      out.shared.db = applyAll (S.shared.tx pid).writes S.shared.db := by
  have hOk := (exec_ok hExec hr).1
  cases hOk
  refine ⟨by simp [World.commit, World.endTx], ?_, ?_, rfl⟩
  · rw [commits_commit _ hNe, hNone]
    rfl
  · exact List.mem_append_right _ (List.mem_singleton_self _)

theorem Commit.resumes {w : World} {job : Job} {ws : List Write} (h : Commit w pid job ws)
    (hRow : .updateMatch m .running none ∈ ws) : ∃ host code, job = .resumeMatch host code := by
  cases h with
  | resume host code => exact ⟨host, code, rfl⟩
  | _ => simp [startWrites, armWrites, closeWrites, finishWrites, submitWrites] at hRow

theorem fits_committed {ws : List Write} {out : Answer .commit} (hS : Held S)
    (hProc : S.procs[pid]? = some ⟨t, .call .commit k'⟩)
    (hExec : exec S.shared t pid S.procs.length .commit d = some out) (hr : out.result = .ok ())
    (h : (Course.asks ws).Fits m S.shared pid t.job) :
    (Course.committed m ws).Fits m out.shared pid t.job := by
  obtain ⟨-, rfl, hNone⟩ := h
  have hShape : Commit S.shared pid t.job (S.shared.tx pid).writes := hS.req sound hProc
  have hDone := committed hExec hr hNone
  unfold Course.committed
  split
  next hCreates =>
    obtain ⟨wr, hwr, hCreate⟩ := List.any_eq_true.mp hCreates
    obtain ⟨hWrites, hOne, hWal, -⟩ := hDone (List.ne_nil_of_mem hwr)
    cases wr with
    | insertMatch row =>
      obtain ⟨host, code, hJob⟩ := hShape.starts hwr
      refine ⟨hWrites, hOne, by simp, by simp [HasCount], ?_⟩
      rw [hJob]
      exact .start host code ⟨_, row, hWal, hwr, of_decide_eq_true hCreate⟩
    | _ => cases hCreate
  · split
    next hRow =>
      obtain ⟨hWrites, hOne, hWal, -⟩ := hDone (List.ne_nil_of_mem hRow)
      obtain ⟨host, code, hJob⟩ := hShape.resumes hRow
      refine ⟨hWrites, hOne, by simp, by simp [HasCount], ?_⟩
      rw [hJob]
      exact .resume host code none ⟨_, hWal, hRow⟩
    · trivial

theorem fits_handing {ws : List Write} {count : Option Nat} {out : Answer .commit} (hS : Held S)
    (hOrder : InOrder S) (hStep : service.step S l = some S') (hS' : Held S')
    (hProc : S.procs[pid]? = some ⟨t, .call .commit k'⟩) (hShared : S'.shared = out.shared)
    (hExec : exec S.shared t pid S.procs.length .commit d = some out) (hr : out.result = .ok ())
    (hNe : ws ≠ []) (h : (Course.tries ws room count).Fits m S.shared pid t.job) :
    (Course.hands t.job.successor count).Fits m S'.shared pid t.job := by
  obtain ⟨hJob, rfl, hMarks, hNone, -, -, hCount⟩ := h
  have hShape : Commit S.shared pid t.job (S.shared.tx pid).writes := hS.req sound hProc
  obtain ⟨hWrites, hOne, hWal, hDb⟩ := committed hExec hr hNone hNe
  have hLater := step_later hS hStep
  rw [← hShared] at hWrites hOne hWal hDb
  refine ⟨hWrites, hOne, fun _ _ => ?_, hCount.later hLater, .task _ hJob⟩
  generalize hWs : (S.shared.tx pid).writes = ws at hShape hMarks hNe hDb
  generalize hTask : t.job = job at hShape hJob
  cases hShape with
  | empty => exact absurd rfl hNe
  | arm _ mq question eventId startedAt deadlineAt hArms =>
    have hBelow := hOrder.tasks _ (List.mem_of_getElem? hProc) mq.matchId mq.position (hTask ▸ hArms)
    obtain rfl : mq.matchId = m := Option.some.inj (hArms.question.symm.trans hJob)
    refine ⟨mq.position, ?_, hBelow.later hLater⟩
    cases hArms <;> rfl
  | close _ mq eventId closedAt correctIds hCloses hMem _ _ hStarted =>
    obtain rfl : mq.matchId = m := Option.some.inj (hCloses.question.symm.trans hJob)
    refine ⟨mq.position + 1, by cases hCloses <;> rfl, ?_⟩
    refine ((hOrder.rows mq hMem hStarted).later hLater).succ hS'.inv ?_
    rw [HasClosed, hDb]
    exact ⟨_, mem_updateWhere_of_eq hMem rfl, rfl, rfl, rfl⟩
  | finish => simp [finishWrites, Write.marks] at hMarks
  | start => simp [Job.question?] at hJob
  | pause => simp [Job.question?] at hJob
  | resume => simp [Job.question?] at hJob
  | submit => simp [Job.question?] at hJob

theorem hasRoom_of {Seen : Id → List Question → Prop} {w : World} (h : Outlined Seen w.db) {x : Match}
    (hx : x ∈ w.db.matches') : HasRoom w (some x.roomId) := by
  intro i hi
  cases hi
  obtain ⟨r, hr, hId, -⟩ := h x hx
  exact ⟨r, hr, hId⟩

theorem counted_of {Seen : Id → List Question → Prop} {w : World} (h : Outlined Seen w.db) {x : Match}
    (hx : x ∈ w.db.matches') (hMarks : (w.tx pid).writes.all Write.marks = true) :
    HasCount w x.id (some (Query.run (w.view pid) (.questionsOfMatch x.id)).length) := by
  intro n hn
  cases hn
  refine ⟨⟨x, hx, rfl⟩, fun q hq hm => ?_⟩
  obtain ⟨-, -, -, questions, -, hOutline⟩ := h x hx
  have hNone : (w.tx pid).writes.filterMap Write.matchQuestion? = [] := by
    rw [List.filterMap_eq_nil_iff]
    intro wr hwr
    have := List.all_eq_true.mp hMarks wr hwr
    cases wr <;> first | rfl | cases this
  have hLength : (Query.run (w.view pid) (.questionsOfMatch x.id)).length = questions.length := by
    have hView : (w.view pid).outline x.id = numbered questions := by
      rw [World.view, outline_applyAll, hNone, hOutline]
      exact List.append_nil _
    have := congrArg List.length hView
    simpa [Query.run, sortBy, Db.outline, numbered] using this
  have hMem : (q.position, q.questionId) ∈ w.db.outline x.id :=
    List.mem_map.mpr ⟨q, List.mem_filter.mpr ⟨hq, decide_eq_true hm⟩, rfl⟩
  rw [hOutline] at hMem
  obtain ⟨i, hi, hEq⟩ := List.mem_mapIdx.mp hMem
  have hPos := congrArg Prod.fst hEq
  dsimp only at hPos
  rw [hLength]
  omega

theorem fits_tries {Seen : Id → List Question → Prop} {ws : List Write} {count : Option Nat}
    {v : o.Res} (hS : Held S) (hOutline : Outlined Seen S.shared.db)
    (hStep : service.step S l = some S') (hExec : exec S.shared t pid S.procs.length o d = some out)
    (hShared : S'.shared = out.shared) (hr : out.result = .ok v) (hc : o ≠ .commit)
    (hAllowed : (Course.tries ws room count).allows m t.job o)
    (h : (Course.tries ws room count).Fits m S.shared pid t.job) :
    ((Course.tries ws room count).after m t.job o v).Fits m S'.shared pid t.job := by
  have hSame : o.inside = true → (Course.tries ws room count).Fits m S'.shared pid t.job :=
    fun ho => h.inside hS hStep hExec hShared hr ho
  have hShut : ws = [] → o.inside = true → Course.shut.Fits m S'.shared pid t.job :=
    fun hNil ho => (hSame ho).2.1.trans hNil
  obtain ⟨hJob, hWrites, hMarks, hNone, ⟨x, hx, hId⟩, hRoom, hCount⟩ := h
  cases o with
  | utcnow | nextId | sleepUntil _ => exact hSame rfl
  | commit => exact absurd rfl hc
  | selectForUpdate q =>
    cases q with
    | questionAt i p =>
      dsimp only [Course.after]
      split
      · exact hSame rfl
      · exact hShut hAllowed.1 rfl
    | _ => exact hAllowed.elim
  | select q =>
    have hRow := selected hExec hr
    cases q with
    | getMatch i =>
      obtain ⟨rfl, rfl⟩ := hAllowed
      rw [view_nil hWrites] at hRow
      dsimp only [Course.after]
      split
      next y =>
        have hy : y ∈ S.shared.db.matches' := List.mem_of_find?_eq_some hRow.symm
        split
        · obtain ⟨hJob', hWrites', hMarks', hNone', hx', -, hCount'⟩ := hSame rfl
          exact ⟨hJob', hWrites', hMarks', hNone', hx', (hasRoom_of hOutline hy).step hS hStep,
            hCount'⟩
        · exact hShut rfl rfl
      · exact hShut rfl rfl
    | getRoom i =>
      dsimp only [Course.after]
      split
      · exact hSame rfl
      · exact hShut hAllowed.1 rfl
    | getQuestion i =>
      dsimp only [Course.after]
      split
      · exact hShut hAllowed rfl
      · exact hSame rfl
    | getOptions i => exact hSame rfl
    | questionsOfMatch i =>
      obtain rfl : i = m := hAllowed
      obtain ⟨hJob', hWrites', hMarks', hNone', hx', hRoom', -⟩ := hSame rfl
      refine ⟨hJob', hWrites', hMarks', hNone', hx', hRoom', ?_⟩
      rw [hRow, ← hId]
      exact (counted_of hOutline hx (hWrites ▸ hMarks)).later (step_later hS hStep)
    | _ => exact hAllowed.elim
  | flush ws' =>
    obtain ⟨hErr, -⟩ | ⟨-, -, hTx⟩ := perform_flush (exec_ok hExec hr).1
    · rw [hErr] at hr
      cases hr
    · obtain ⟨x', hx', hId', -⟩ := (step_later hS hStep).matches' x hx
      refine ⟨hJob, ?_, ?_, ?_, ⟨x', hx', hId'.trans hId⟩, hRoom.step hS hStep,
        hCount.later (step_later hS hStep)⟩
      · rw [hShared, hTx, hWrites]
      · rw [List.all_append, hMarks]
        exact hAllowed
      · rw [hShared, World.commits, (exec_tables hc hExec).2]
        exact hNone
  | _ => exact hAllowed.elim

theorem fits_asks {ws : List Write} {v : o.Res} (hS : Held S)
    (hProc : S.procs[pid]? = some ⟨t, .call o k⟩) (hHold : t.job.mayHold m = true)
    (hStep : service.step S l = some S') (hExec : exec S.shared t pid S.procs.length o d = some out)
    (hShared : S'.shared = out.shared) (hr : out.result = .ok v) (hc : o ≠ .commit)
    (hAllowed : (Course.asks ws).allows m t.job o)
    (h : (Course.asks ws).Fits m S.shared pid t.job) :
    ((Course.asks ws).after m t.job o v).Fits m S'.shared pid t.job := by
  have hSame : o.inside = true → (Course.asks ws).Fits m S'.shared pid t.job :=
    fun ho => h.inside hS hStep hExec hShared hr ho
  cases o with
  | commit => exact absurd rfl hc
  | rollback => trivial
  | flush ws' =>
    obtain ⟨hJob, hWrites, hNone⟩ := h
    obtain ⟨hErr, -⟩ | ⟨-, -, hTx⟩ := perform_flush (exec_ok hExec hr).1
    · rw [hErr] at hr
      cases hr
    · refine ⟨hJob, ?_, ?_⟩
      · rw [hShared, hTx, hWrites]
      · rw [hShared, World.commits, (exec_tables hc hExec).2]
        exact hNone
  | cancelActive i =>
    obtain rfl : i = m := hAllowed
    obtain ⟨hJob, hWrites, -⟩ := hSame rfl
    refine ⟨?_, hWrites, by simp [HasRoom]⟩
    have hReq : Cancels t.job i := hS.req sound hProc
    generalize t.job = job at hReq hHold hJob
    cases hReq with
    | pause => simp [Job.mayHold, Job.question?] at hHold
    | host _ host => exact ⟨host, rfl⟩
    | own _ _ hOwn =>
      rw [hOwn] at hJob
      cases hJob
  | _ => exact hSame rfl

theorem fits_hands {p count : Option Nat} {v : o.Res} (hS : Held S)
    (hProc : S.procs[pid]? = some ⟨t, .call o k⟩) (hHold : t.job.mayHold m = true)
    (hStep : service.step S l = some S') (hExec : exec S.shared t pid S.procs.length o d = some out)
    (hShared : S'.shared = out.shared) (hr : out.result = .ok v)
    (hAllowed : (Course.hands p count).allows m t.job o)
    (h : (Course.hands p count).Fits m S.shared pid t.job) :
    ((Course.hands p count).after m t.job o v).Fits m S'.shared pid t.job := by
  have hSame : o.inside = true → (Course.hands p count).Fits m S'.shared pid t.job :=
    fun ho => h.inside hS hStep hExec hShared hr ho
  cases o with
  | commit | rollback => exact hAllowed.elim
  | flush ws => exact hAllowed.elim
  | createTask j => trivial
  | setActive i j => trivial
  | cancelActive i =>
    obtain ⟨-, hOne, hBelow, hCount, hLeads⟩ := h
    obtain ⟨rfl, b, n, hb, hn, hLt⟩ := hAllowed
    obtain ⟨b', hb', hClosed⟩ := hBelow n hn
    obtain ⟨hMatch, hMost⟩ := hCount n hn
    obtain rfl : b = b' := Option.some.inj (hb.symm.trans hb')
    have hLater := step_later hS hStep
    refine ⟨?_, not_silent_later ?_ hLater, AllClosed.later ⟨hMatch, fun q hq hm => ?_⟩ hLater⟩
    · have hReq : Cancels t.job i := hS.req sound hProc
      generalize t.job = job at hReq hHold hLeads
      cases hReq with
      | pause => simp [Job.mayHold, Job.question?] at hHold
      | host => cases hLeads with | task _ hTask => cases hTask
      | own _ _ hOwn => exact hOwn
    · intro hSilent
      rw [commits_of_silent hSilent] at hOne
      cases hOne
    · exact hClosed.2 q hq hm (by have := hMost q hq hm; omega)
  | select q =>
    cases q with
    | nextUnstarted i =>
      obtain ⟨-, rfl⟩ := hAllowed
      obtain ⟨hWrites, hOne, hBelow, hCount, hLeads⟩ := hSame rfl
      dsimp only [Course.after]
      split
      next row =>
        refine ⟨hWrites, hOne, fun n hn => ?_, hCount, ?_⟩
        · obtain ⟨b, hb, -⟩ := hBelow n hn
          cases hb
        · generalize t.job = job at hLeads
          generalize hNone : (none : Option Nat) = p at hLeads
          cases hLeads with
          | start => cases hNone
          | resume host code _ hResumed => exact .resume host code _ hResumed
          | task _ hTask =>
            cases job <;> first | exact absurd hNone (Option.some_ne_none _).symm | cases hTask
      · trivial
    | _ => exact hSame rfl
  | _ => exact hSame rfl

theorem fits_ends {Seen : Id → List Question → Prop} {ws : List Write} {v : o.Res} (hS : Held S)
    (hOutline : Outlined Seen S.shared.db) (hStep : service.step S l = some S')
    (hExec : exec S.shared t pid S.procs.length o d = some out) (hShared : S'.shared = out.shared)
    (hr : out.result = .ok v) (hc : o ≠ .commit) (hAllowed : (Course.ends ws room).allows m t.job o)
    (h : (Course.ends ws room).Fits m S.shared pid t.job) :
    ((Course.ends ws room).after m t.job o v).Fits m S'.shared pid t.job := by
  have hSame : o.inside = true → (Course.ends ws room).Fits m S'.shared pid t.job :=
    fun ho => h.inside hS hStep hExec hShared hr ho
  obtain ⟨hJob, hWrites, hRoom⟩ := h
  cases o with
  | commit => exact absurd rfl hc
  | utcnow | nextId | select _ => exact hSame rfl
  | selectForUpdate q =>
    have hRow := lock_found hExec hr
    cases q with
    | matchById i =>
      obtain ⟨rfl, rfl⟩ := hAllowed
      rw [view_nil hWrites] at hRow
      dsimp only [Course.after]
      split
      next x =>
        have hx : x ∈ S.shared.db.matches' := List.mem_of_find?_eq_some hRow.symm
        split
        · exact (hSame rfl).2.1
        · exact ⟨hJob, (hSame rfl).2.1, (hasRoom_of hOutline hx).step hS hStep⟩
      · trivial
    | roomById i =>
      dsimp only [Course.after]
      split
      · exact hSame rfl
      · trivial
    | _ => exact hAllowed.elim
  | flush ws' =>
    obtain ⟨hErr, -⟩ | ⟨-, -, hTx⟩ := perform_flush (exec_ok hExec hr).1
    · rw [hErr] at hr
      cases hr
    · exact ⟨hJob, by rw [hShared, hTx, hWrites], hRoom.step hS hStep⟩
  | _ => exact hAllowed.elim

theorem fits_shut {v : o.Res} (hS : Held S) (hStep : service.step S l = some S')
    (hExec : exec S.shared t pid S.procs.length o d = some out) (hShared : S'.shared = out.shared)
    (hr : out.result = .ok v) (hAllowed : Course.shut.allows m t.job o)
    (h : Course.shut.Fits m S.shared pid t.job) :
    (Course.shut.after m t.job o v).Fits m S'.shared pid t.job := by
  cases o with
  | commit => trivial
  | rollback => trivial
  | flush ws => exact hAllowed.elim
  | _ => exact h.inside hS hStep hExec hShared hr rfl

theorem broadcast_raised {w : World} {n : Nat} {code : String} {message : Message} {e : Exn}
    {out : Answer (.broadcast code message)} (h : exec w t pid n (.broadcast code message) d = some out)
    (hr : out.result = .error e) (he : e ≠ .cancelled ∧ e ≠ .crashed) : out.shared.tx = w.tx := by
  obtain ⟨-, -, hOk⟩ | ⟨e', hErr, -, hOut⟩ := exec_cases h
  · cases hOk
    rfl
  · obtain rfl : e' = e := Except.error.inj (hErr.symm.trans hr)
    generalize out.shared = v at hOut
    cases hOut with
    | crashed => exact absurd rfl he.2
    | cancelled => exact absurd rfl he.1
    | fault => rfl
    | cancelledAfter => exact absurd rfl he.1
    | faultAfter a _ ha =>
      cases ha
      rfl

theorem fits_past (hS : Held S) (hStep : service.step S l = some S')
    (h : Course.past.Fits m S.shared pid t.job) : Course.past.Fits m S'.shared pid t.job :=
  ⟨h.1, not_silent_later h.2.1 (step_later hS hStep), h.2.2.later (step_later hS hStep)⟩

theorem fits_raised {s : Course} {e : Exn} (hS : Held S) (hStep : service.step S l = some S')
    (hExec : exec S.shared t pid S.procs.length o d = some out) (hShared : S'.shared = out.shared)
    (hr : out.result = .error e) (h : s.Fits m S.shared pid t.job) :
    (s.raised o e).Fits m S'.shared pid t.job := by
  cases s with
  | past => exact fits_past hS hStep h
  | hands p count =>
    cases o with
    | broadcast code message =>
      have hStay : e ≠ .cancelled ∧ e ≠ .crashed →
          (Course.hands p count).Fits m S'.shared pid t.job := by
        intro he
        refine h.keep hS hStep ?_ ?_
        · rw [hShared, broadcast_raised hExec hr he]
        · rw [hShared, World.commits, (exec_tables (by simp) hExec).2]
          rfl
      cases e with
      | cancelled => trivial
      | crashed => trivial
      | _ => exact hStay (by simp)
    | _ => trivial
  | _ => trivial

theorem fits_next {Seen : Id → List Question → Prop} {s : Course} (hS : Held S) (hS' : Held S')
    (hOrder : InOrder S) (hOutline : Outlined Seen S.shared.db)
    (hProc : S.procs[pid]? = some ⟨t, .call o k⟩) (hHold : t.job.mayHold m = true)
    (hStep : service.step S l = some S') (hExec : exec S.shared t pid S.procs.length o d = some out)
    (hShared : S'.shared = out.shared) (hAllowed : s.allows m t.job o)
    (h : s.Fits m S.shared pid t.job) :
    ((courseMonitor m t.job).next s o out.result).Fits m S'.shared pid t.job := by
  cases hr : out.result with
  | error e => exact fits_raised hS hStep hExec hShared hr h
  | ok v =>
    by_cases hc : o = .commit
    · subst hc
      cases s with
      | asks ws =>
        change (Course.committed m ws).Fits m S'.shared pid t.job
        rw [hShared]
        exact fits_committed hS hProc hExec hr h
      | tries ws room count =>
        exact fits_handing hS hOrder hStep hS' hProc hShared hExec hr hAllowed h
      | past => exact fits_past hS hStep h
      | hands p count => exact hAllowed.elim
      | _ => trivial
    · cases s with
      | asks ws => exact fits_asks hS hProc hHold hStep hExec hShared hr hc hAllowed h
      | tries ws room count =>
        exact fits_tries hS hOutline hStep hExec hShared hr hc hAllowed h
      | hands p count => exact fits_hands hS hProc hHold hStep hExec hShared hr hAllowed h
      | ends ws room => exact fits_ends hS hOutline hStep hExec hShared hr hc hAllowed h
      | shut => exact fits_shut hS hStep hExec hShared hr hAllowed h
      | left => trivial
      | past => exact fits_past hS hStep h

end

theorem Job.question_cases {job : Job} (h : job.question? = some m) :
    ∃ p, job.position = some p ∧ (Arms job m p ∨ Closes job m p) := by
  cases job with
  | armQuestion i p => cases h; exact ⟨p, rfl, .inl (.arm m p)⟩
  | gapThenArm i p d => cases h; exact ⟨p, rfl, .inl (.gap m p d)⟩
  | closeQuestion i p => cases h; exact ⟨p, rfl, .inr (.close m p)⟩
  | closeQuestionAfter i p d => cases h; exact ⟨p, rfl, .inr (.after m p d)⟩
  | _ => cases h

theorem Spawn.started {w : World} {job j : Job} {p : Nat} (h : Spawn w job j) (hj : Closes j m p) :
    HasStarted w m p := by
  cases h <;> cases hj <;> assumption

theorem InOrder.launched (hS : Held S) (h : InOrder S) (hCond : armsUnopened S l = true)
    (hNew : Launched S l t) (hJob : t.job.question? = some m) :
    ∃ p, t.job.position = some p ∧ ClosedBelow S.shared m p := by
  obtain ⟨p, hPos, hArms | hCloses⟩ := Job.question_cases hJob
  · exact ⟨p, hPos, inOrder_tasks hS h hCond hNew hArms⟩
  · refine ⟨p, hPos, ?_⟩
    cases hNew with
    | created _ _ _ _ _ _ _ _ hSpawn =>
      obtain ⟨q, hq, rfl, rfl, hs⟩ := hSpawn.started hCloses
      exact h.rows q hq hs
    | requested r j hReq => cases hCloses <;> cases hReq
    | booted r => cases hCloses

/-- Every program that may hold `m` is somewhere in its course. -/
def Courses (m : Id) (S : SysState) : Prop :=
  ∀ pid pr, S.procs[pid]? = some pr → pr.task.job.mayHold m = true →
    ∃ s, Course.Walks m pr.task.job Course.over s pr.prog ∧ s.Fits m S.shared pid pr.task.job

theorem mayHold_question {job : Job} (h : job.mayHold m = true)
    (hQuestion : job.question?.isSome = true) : job.question? = some m := by
  cases job <;> first | exact of_decide_eq_true h | cases hQuestion

theorem fits_start (hS : Held S) (h : InOrder S) (hCond : armsUnopened S l = true)
    (hStep : service.step S l = some S') (hNew : Launched S l t) (hHold : t.job.mayHold m = true) :
    (Course.start t.job).Fits m S'.shared S.procs.length t.job := by
  obtain ⟨hTx, hSilent⟩ := step_fresh hS hStep
  unfold Course.start
  split
  next hQuestion =>
    have hJob := mayHold_question hHold hQuestion
    obtain ⟨p, -, hBelow⟩ := h.launched hS hCond hNew hJob
    refine ⟨hJob, by rw [hTx], rfl, commits_of_silent hSilent, (hBelow.later (step_later hS hStep)).1,
      by simp [HasRoom], by simp [HasCount]⟩
  next hQuestion =>
    exact ⟨by simpa using hQuestion, by rw [hTx], commits_of_silent hSilent⟩

theorem keepsHold_armsUnopened (h : keepsHold S l = true) : armsUnopened S l = true := by
  cases l with
  | op pid d => exact (Bool.and_eq_true_iff.mp h).1
  | env e => rfl

theorem courses_step {Seen : Id → List Question → Prop} (hS : Held S) (hS' : Held S')
    (hOrder : InOrder S) (hOutline : Outlined Seen S.shared.db) (hCond : keepsHold S l = true)
    (hStep : service.step S l = some S') (h : Courses m S) : Courses m S' := by
  intro pid pr hp hHold
  obtain ⟨hOld, hOther⟩ | ⟨d, t, o, k, out, rfl, hOld, hExec, rfl, hShared⟩ | ⟨rfl, hBody, hNew⟩ :=
    step_procs hS hStep hp
  · obtain ⟨s, hWalks, hFits⟩ := h pid pr hOld hHold
    exact ⟨s, hWalks, hFits.other hS hStep (List.getElem?_eq_some_iff.mp hOld).1 hOther⟩
  · obtain ⟨s, hWalks, hFits⟩ := h pid _ hOld hHold
    exact ⟨_, hWalks.2 out.result,
      fits_next hS hS' hOrder hOutline hOld hHold hStep hExec hShared hWalks.1 hFits⟩
  · exact ⟨_, hBody ▸ Course.jobBody_walks hHold,
      fits_start hS hOrder (keepsHold_armsUnopened hCond) hStep hNew hHold⟩

end

end LiveQuiz
