import LiveQuiz.Protocol.Handover

/-! # Recovery after a crash

When every process is gone and a new one starts, nobody but the recovery and the tasks it
creates works on the matches. So what it reads of a match is still so when it creates the
match's task, and the rows at the start decide which task that is. A match whose
questions are all closed gets none.
-/

namespace LiveQuiz

open Coroutine

set_option autoImplicit false

def Db.IsOpen (db : Db) (m : Id) (q : MatchQuestion) : Prop :=
  q ∈ db.matchQuestions ∧ q.matchId = m ∧ q.startedAt.isSome ∧ q.closedAt = none

def Db.IsUnstarted (db : Db) (m : Id) (q : MatchQuestion) : Prop :=
  q ∈ db.matchQuestions ∧ q.matchId = m ∧ q.startedAt = none

/-- The task that takes a running match up again: it closes the open question, arms the
first unstarted one where none is open, or finishes the match where all are closed. -/
inductive Resumes (db : Db) (m : Id) : Job → Prop
  | closes (job : Job) (q : MatchQuestion) :
      db.IsOpen m q → Closes job m q.position → Resumes db m job
  | arms (q : MatchQuestion) : (∀ x, ¬db.IsOpen m x) → db.IsUnstarted m q →
      (∀ x, db.IsUnstarted m x → q.position ≤ x.position) →
      Resumes db m (.armQuestion m q.position)
  | finishes : (∀ q ∈ db.matchQuestions, q.matchId = m → q.closedAt.isSome) →
      Resumes db m (.endMatch m none)

/-- `waiting`: the match is still to be looked at. `looking`: it has no open question.
`due`, `next`: the row a task is created for. `past`: the match has had its turn. `void`
is where a call has raised, `astray` where no answer of the database leads. -/
inductive RecoverPhase where
  | scanning
  | waiting
  | looking
  | due (q : MatchQuestion)
  | next (q : MatchQuestion)
  | past
  | void
  | astray

def RecoverPhase.allows (m : Id) : RecoverPhase → Op → Prop
  | .scanning, o => o = .select .runningMatches
  | .waiting, o => o.inside = true ∧ ∀ j, o.launches = some j → j.question? ≠ some m
  | .looking, o => o = .select (.nextUnstarted m)
  | .due q, o => o.inside = true ∧ ∀ j, o.launches = some j → Closes j m q.position
  | .next q, o => o = .createTask (.armQuestion m q.position)
  | .past, o => o.inside = true ∧ ∀ j, o.launches = some j → j.question? ≠ some m
  | .void, _ => False
  | .astray, _ => True

def RecoverPhase.after (m : Id) : RecoverPhase → (o : Op) → o.Res → RecoverPhase
  | .scanning, .select .runningMatches, ms =>
    if (ms.map Match.id).Nodup then if m ∈ ms.map Match.id then .waiting else .past else .astray
  | .waiting, .select (.openQuestion i), r =>
    if i = m then
      match r with
      | none => .looking
      | some q => if q.deadlineAt.isSome then .due q else .past
    else .waiting
  | .looking, .select (.nextUnstarted _), r =>
    match r with
    | none => .past
    | some q => .next q
  | .due _, .createTask _, _ | .due _, .setActive _ _, _ | .next _, _, _ => .past
  | s, _, _ => s

def recoverMonitor (m : Id) : Monitor Op Op.Res Exn RecoverPhase where
  allowed := RecoverPhase.allows m
  next
    | .astray, _, _ => .astray
    | s, o, .ok v => s.after m o v
    | _, _, .error _ => .void

def RecoverPhase.ends {α : Type} : RecoverPhase → Except Exn α → Prop
  | .past, .ok _ => True
  | .void, .error _ => True
  | .astray, _ => True
  | _, _ => False

section

variable {m : Id} {α β : Type} {Q : RecoverPhase → Except Exn α → Prop}

abbrev Recovers (m : Id) (Q : RecoverPhase → Except Exn α → Prop) : RecoverPhase → Coro α → Prop :=
  Follows (recoverMonitor m) Q

theorem after_past (o : Op) (v : o.Res) : RecoverPhase.past.after m o v = .past := by
  unfold RecoverPhase.after
  split <;> first | rfl | contradiction

theorem after_waiting {o : Op} (hOpen : o ≠ .select (.openQuestion m)) (v : o.Res) :
    RecoverPhase.waiting.after m o v = .waiting := by
  unfold RecoverPhase.after
  split <;> try first | rfl | contradiction
  next i _ _ =>
    have hNe : i ≠ m := by
      rintro rfl
      exact hOpen rfl
    rw [if_neg hNe]

theorem recovers_other {s : RecoverPhase} {o : Op} {f : o.Res → Coro α}
    (hs : s = .waiting ∨ s = .past) (hIn : o.inside = true)
    (hLaunch : ∀ j, o.launches = some j → j.question? ≠ some m)
    (hOpen : o ≠ .select (.openQuestion m)) (hErr : ∀ e, Q .void (.error e))
    (h : ∀ v, Recovers m Q s (f v)) : Recovers m Q s (ask o >>= f) := by
  have hAfter : ∀ v, s.after m o v = s := by
    intro v
    obtain rfl | rfl := hs
    · exact after_waiting hOpen v
    · exact after_past o v
  refine ⟨?_, fun r => ?_⟩
  · obtain rfl | rfl := hs <;> exact ⟨hIn, hLaunch⟩
  · cases r with
    | ok v =>
      have hNext : (recoverMonitor m).next s o (.ok v) = s := by
        obtain rfl | rfl := hs <;> exact hAfter v
      rw [hNext]
      exact h v
    | error e =>
      have hNext : (recoverMonitor m).next s o (.error e) = .void := by
        obtain rfl | rfl := hs <;> rfl
      rw [hNext]
      exact hErr e

theorem recoverMatch_other {s : RecoverPhase} {x : Match} {f : Nat → Coro α}
    (hs : s = .waiting ∨ s = .past) (hNe : x.id ≠ m) (hErr : ∀ e, Q .void (.error e))
    (h : ∀ n, Recovers m Q s (f n)) : Recovers m Q s (recoverMatch x >>= f) := by
  have hErr' : ∀ e, Before (recoverMonitor m) Q f .void (.error e) := hErr
  refine Follows.bind (recovers_other hs rfl (by simp [Op.launches]) (by simpa using hNe) hErr' ?_)
  intro row
  cases row with
  | none =>
    refine recovers_other hs rfl (by simp [Op.launches]) (by simp) hErr' fun row => ?_
    cases row with
    | none => exact h 0
    | some next =>
      refine recovers_other hs rfl ?_ (by simp) hErr' fun _ => h 1
      intro j hj
      cases hj
      simpa [Job.question?] using hNe
  | some mq =>
    dsimp only
    split
    next deadlineAt _ =>
      refine recovers_other hs rfl (by simp [Op.launches]) (by simp) hErr' fun now => ?_
      split
      · refine recovers_other hs rfl ?_ (by simp) hErr' fun _ => h 1
        intro j hj
        cases hj
        simpa [Job.question?] using hNe
      · refine recovers_other hs rfl ?_ (by simp) hErr' fun _ => h 1
        intro j hj
        cases hj
        simpa [Job.question?] using hNe
    · exact h 0

theorem recoverMatch_turn {x : Match} {f : Nat → Coro α} (hErr : ∀ e, Q .void (.error e))
    (h : ∀ n, Recovers x.id Q .past (f n)) : Recovers x.id Q .waiting (recoverMatch x >>= f) := by
  refine Follows.bind ⟨⟨rfl, by simp [Op.launches]⟩, fun r => ?_⟩
  cases r with
  | error e => exact hErr e
  | ok row =>
    cases row with
    | none =>
      change Recovers x.id _ (if x.id = x.id then .looking else .waiting) _
      rw [if_pos rfl]
      refine ⟨rfl, fun r => ?_⟩
      cases r with
      | error e => exact hErr e
      | ok row =>
        cases row with
        | none => exact h 0
        | some next =>
          refine ⟨rfl, fun r => ?_⟩
          cases r with
          | error e => exact hErr e
          | ok _ => exact h 1
    | some mq =>
      change Recovers x.id _ (if x.id = x.id then (if mq.deadlineAt.isSome then .due mq else .past)
        else .waiting) _
      rw [if_pos rfl]
      obtain ⟨i, matchId, questionId, position, startedAt, deadline, closedAt⟩ := mq
      cases deadline with
      | none => exact h 0
      | some deadlineAt =>
        refine ⟨⟨rfl, by simp [Op.launches]⟩, fun r => ?_⟩
        cases r with
        | error e => exact hErr e
        | ok now =>
          change Recovers x.id _ (.due _) (if deadlineAt - now ≤ 0 then _ else _)
          split
          · refine ⟨⟨rfl, fun j hj => ?_⟩, fun r => ?_⟩
            · cases hj
              exact .close x.id position
            · cases r with
              | error e => exact hErr e
              | ok _ => exact h 1
          · refine ⟨⟨rfl, fun j hj => ?_⟩, fun r => ?_⟩
            · cases hj
              exact .after x.id position _
            · cases r with
              | error e => exact hErr e
              | ok _ => exact h 1

theorem recoverAll_past {ms : List Match} {Q : RecoverPhase → Except Exn Nat → Prop}
    (hMs : m ∉ ms.map Match.id) (hErr : ∀ e, Q .void (.error e)) (hQ : ∀ n, Q .past (.ok n)) :
    Recovers m Q .past (recoverAll ms) := by
  induction ms generalizing Q with
  | nil => exact hQ 0
  | cons x ms ih =>
    rw [List.map_cons, List.mem_cons, not_or] at hMs
    refine recoverMatch_other (.inr rfl) (Ne.symm hMs.1) hErr fun n => ?_
    exact Follows.bind (ih hMs.2 hErr fun k => hQ (n + k))

theorem recoverAll_waiting {ms : List Match} {Q : RecoverPhase → Except Exn Nat → Prop}
    (hMs : (ms.map Match.id).Nodup) (hm : m ∈ ms.map Match.id) (hErr : ∀ e, Q .void (.error e))
    (hQ : ∀ n, Q .past (.ok n)) : Recovers m Q .waiting (recoverAll ms) := by
  induction ms generalizing Q with
  | nil => cases hm
  | cons x ms ih =>
    rw [List.map_cons, List.nodup_cons] at hMs
    by_cases hEq : x.id = m
    · subst hEq
      refine recoverMatch_turn hErr fun n => ?_
      exact Follows.bind (recoverAll_past hMs.1 hErr fun k => hQ (n + k))
    · have hm' : m ∈ ms.map Match.id := (List.mem_cons.mp hm).resolve_left (Ne.symm hEq)
      refine recoverMatch_other (.inl rfl) hEq hErr fun n => ?_
      exact Follows.bind (ih hMs.2 hm' hErr fun k => hQ (n + k))

theorem recovers_astray (h : ∀ r, Q .astray r) (p : Coro α) : Recovers m Q .astray p := by
  induction p with
  | done r => exact h r
  | call o k ih => exact ⟨trivial, ih⟩

theorem jobBody_recovers : Recovers m RecoverPhase.ends .scanning (jobBody .recoverRunningMatches) := by
  refine Follows.bind ⟨rfl, fun r => ?_⟩
  cases r with
  | error e => trivial
  | ok ms =>
    change Recovers m _ (if (ms.map Match.id).Nodup then
      if m ∈ ms.map Match.id then .waiting else .past else .astray) (recoverAll ms)
    split
    next hNodup =>
      split
      next hm => exact recoverAll_waiting hNodup hm (fun _ => trivial) fun _ => trivial
      next hm => exact recoverAll_past hm (fun _ => trivial) fun _ => trivial
    · refine recovers_astray (fun r => ?_) _
      cases r <;> trivial

end

/-- No request is taken and no other process starts. -/
def startingUp : SysLabel → Bool
  | .env (.request _ _) | .env (.boot _) => false
  | _ => true

/-- A program started after `pid` works on the match. -/
def Served (S : SysState) (pid : Nat) (m : Id) : Prop :=
  ∃ q pr, pid < q ∧ S.procs[q]? = some pr ∧ pr.task.job.question? = some m

def Resumed (db : Db) (m : Id) (pid : Nat) (S : SysState) : Prop :=
  ∃ q pr, pid < q ∧ S.procs[q]? = some pr ∧ Resumes db m pr.task.job

def RecoverPhase.Fits (db : Db) (m : Id) (served : Prop) : RecoverPhase → Prop
  | .scanning | .waiting => ¬served
  | .looking => ¬served ∧ ∀ x, ¬db.IsOpen m x
  | .due q => ¬served ∧ db.IsOpen m q
  | .next q => ¬served ∧ (∀ x, ¬db.IsOpen m x) ∧ db.IsUnstarted m q ∧
      ∀ x, db.IsUnstarted m x → q.position ≤ x.position
  | .past => served ∨ ∀ q ∈ db.matchQuestions, q.matchId = m → q.closedAt.isSome
  | .void => True
  | .astray => False

/-- The state during a recovery `pid` that began with the tables `db`. -/
structure RecoverRun (db : Db) (m : Id) (pid : Nat) (S : SysState) : Prop where
  dead : ∀ q pr, q < pid → S.procs[q]? = some pr → S.shared.phase pr.task.replica = .crashed
  heirs : ∀ q pr, pid < q → S.procs[q]? = some pr → pr.task.job.question?.isSome = true
  resumed : Served S pid m → Resumed db m pid S
  rows : ¬Served S pid m → S.shared.db.matchQuestions.filter (·.matchId = m) =
    db.matchQuestions.filter (·.matchId = m)
  running : ¬Served S pid m → ∃ x ∈ S.shared.db.matches', x.id = m ∧ x.status = .running
  writes : (S.shared.tx pid).writes = []
  phase : ∃ pr s, S.procs[pid]? = some pr ∧ pr.task.job = .recoverRunningMatches ∧
    Recovers m RecoverPhase.ends s pr.prog ∧ s.Fits db m (Served S pid m)

section

variable {db : Db} {m : Id} {pid : Nat} {S S' : SysState} {l : SysLabel}

theorem mem_rows {db db' : Db} (h : db'.matchQuestions.filter (·.matchId = m) =
    db.matchQuestions.filter (·.matchId = m)) {q : MatchQuestion} (hOf : q.matchId = m) :
    q ∈ db'.matchQuestions ↔ q ∈ db.matchQuestions := by
  have hMem : ∀ db : Db, q ∈ db.matchQuestions ↔ q ∈ db.matchQuestions.filter (·.matchId = m) := by
    intro db
    rw [List.mem_filter, decide_eq_true_iff]
    exact ⟨fun h => ⟨h, hOf⟩, fun h => h.1⟩
  rw [hMem db', hMem db, h]

theorem isOpen_congr {db db' : Db} (h : db'.matchQuestions.filter (·.matchId = m) =
    db.matchQuestions.filter (·.matchId = m)) (q : MatchQuestion) :
    db'.IsOpen m q ↔ db.IsOpen m q := by
  constructor
  · rintro ⟨hMem, hOf, hRest⟩
    exact ⟨(mem_rows h hOf).mp hMem, hOf, hRest⟩
  · rintro ⟨hMem, hOf, hRest⟩
    exact ⟨(mem_rows h hOf).mpr hMem, hOf, hRest⟩

theorem isUnstarted_congr {db db' : Db} (h : db'.matchQuestions.filter (·.matchId = m) =
    db.matchQuestions.filter (·.matchId = m)) (q : MatchQuestion) :
    db'.IsUnstarted m q ↔ db.IsUnstarted m q := by
  constructor
  · rintro ⟨hMem, hOf, hRest⟩
    exact ⟨(mem_rows h hOf).mp hMem, hOf, hRest⟩
  · rintro ⟨hMem, hOf, hRest⟩
    exact ⟨(mem_rows h hOf).mpr hMem, hOf, hRest⟩

theorem openQuestion_some {q : MatchQuestion} (h : Query.run db (.openQuestion m) = some q) :
    db.IsOpen m q := by
  have hMem := (minBy?_spec h).1
  rw [List.mem_filter, decide_eq_true_iff, Option.isNone_iff_eq_none] at hMem
  exact hMem

theorem openQuestion_none (h : Query.run db (.openQuestion m) = none) (q : MatchQuestion) :
    ¬db.IsOpen m q := by
  rintro ⟨hMem, hOf, hStarted, hClosed⟩
  have hNil := minBy?_none h
  have hIn := List.filter_eq_nil_iff.mp hNil q hMem
  exact hIn (decide_eq_true ⟨hOf, hStarted, by rw [hClosed]; rfl⟩)

theorem nextUnstarted_some {q : MatchQuestion} (h : Query.run db (.nextUnstarted m) = some q) :
    db.IsUnstarted m q ∧ ∀ x, db.IsUnstarted m x → q.position ≤ x.position := by
  obtain ⟨hMem, hMin⟩ := minBy?_spec h
  rw [List.mem_filter, decide_eq_true_iff, Option.isNone_iff_eq_none] at hMem
  refine ⟨hMem, fun x ⟨hx, hOf, hNone⟩ => ?_⟩
  have hLe := hMin x (List.mem_filter.mpr ⟨hx, decide_eq_true ⟨hOf, by rw [hNone]; rfl⟩⟩)
  omega

theorem nextUnstarted_none (h : Query.run db (.nextUnstarted m) = none) (q : MatchQuestion) :
    ¬db.IsUnstarted m q := by
  rintro ⟨hMem, hOf, hNone⟩
  have hIn := List.filter_eq_nil_iff.mp (minBy?_none h) q hMem
  exact hIn (decide_eq_true ⟨hOf, by rw [hNone]; rfl⟩)

theorem Commit.elsewhere {n : Nat} {w : World} {job : Job} {ws : List Write}
    (hC : Commit w pid job ws) (hInv : Inv n w) {a : Id} (hJob : job.question? = some a)
    (hNe : a ≠ m) :
    (applyAll ws w.db).matchQuestions.filter (·.matchId = m) =
      w.db.matchQuestions.filter (·.matchId = m) ∧
    ∀ x ∈ w.db.matches', x.id = m → x ∈ (applyAll ws w.db).matches' := by
  have hUpdate : ∀ {mq : MatchQuestion} {f : MatchQuestion → MatchQuestion},
      mq ∈ w.db.matchQuestions → mq.matchId = a → (∀ q, (f q).matchId = q.matchId) →
      (updateWhere MatchQuestion.id mq.id f w.db.matchQuestions).filter (·.matchId = m) =
        w.db.matchQuestions.filter (·.matchId = m) := by
    intro mq f hMem hOf hf
    refine filter_updateWhere fun q hq hId => ?_
    obtain rfl := hInv.keys.matchQuestion_eq hq hMem (.inl hId)
    rw [hf, hOf]
    exact ⟨decide_eq_false hNe, decide_eq_false hNe⟩
  cases hC with
  | empty => exact ⟨rfl, fun _ hx _ => hx⟩
  | arm _ mq question eventId startedAt deadlineAt hArms hMem =>
    have hOf : mq.matchId = a := Option.some.inj (hArms.question.symm.trans hJob)
    exact ⟨hUpdate hMem hOf fun _ => rfl, fun _ hx _ => hx⟩
  | close _ mq eventId closedAt correctIds hCloses hMem =>
    have hOf : mq.matchId = a := Option.some.inj (hCloses.question.symm.trans hJob)
    exact ⟨hUpdate hMem hOf fun _ => rfl, fun _ hx _ => hx⟩
  | finish _ x room subs participants endedAt eventId hFin =>
    rw [applyAll_finishWrites]
    have hOf : x.id = a := by
      cases hFin with
      | host => cases hJob
      | last => exact Option.some.inj hJob
    refine ⟨rfl, fun y hy hId => mem_updateWhere_of_ne hy ?_⟩
    rw [hId, hOf]
    exact Ne.symm hNe
  | start => cases hJob
  | pause => cases hJob
  | resume => cases hJob
  | submit => cases hJob

theorem Spawn.question {w : World} {job j : Job} (h : Spawn w job j) :
    j.question?.isSome = true ∧ ∀ a, job.question? = some a → j.question? = some a := by
  cases h with
  | timer _ x p d hArms =>
    refine ⟨rfl, fun a ha => ?_⟩
    rw [hArms.question] at ha
    exact ha
  | gap _ x p s hCloses =>
    refine ⟨rfl, fun a ha => ?_⟩
    rw [hCloses.question] at ha
    exact ha
  | _ => exact ⟨rfl, fun a ha => by cases ha⟩

theorem launching_up {q : Nat} {d : Decision} {pr : Proc Op Op.Res Exn Ret Task}
    (hStep : service.step S (.op q d) = some S') (hq : S.procs[q]? = some pr)
    (hNew : S.procs.length < S'.procs.length) : S.shared.phase pr.task.replica = .up := by
  obtain ⟨q', d', t, o, k, out, hEq, hProc, hExec, rfl⟩ | ⟨e, out, hEq, -⟩ :=
    Machine.step_cases hStep
  · cases hEq
    rw [hProc] at hq
    cases hq
    obtain ⟨hUp, -⟩ | ⟨e, -, hNone, -⟩ := exec_cases hExec
    · exact hUp
    · simp [hNone] at hNew
  · cases hEq

theorem launched_at {t : Task} {o : Op} {k : Except Exn o.Res → Coro Ret} {d : Decision}
    {out : Answer o} {j : Job} (hStep : service.step S (.op pid d) = some S')
    (hProc : S.procs[pid]? = some ⟨t, .call o k⟩)
    (hOk : perform S.shared t pid S.procs.length o d = some out) (ho : o.launches = some j)
    (hExec : exec S.shared t pid S.procs.length o d = some out) :
    S'.procs[S.procs.length]? = some (service.start ⟨t.replica, j⟩) := by
  have hSpawned : out.spawned = some ⟨t.replica, j⟩ := by
    cases o with
    | createTask j' =>
      cases ho
      cases hOk
      rfl
    | setActive m' j' =>
      cases ho
      cases hOk
      rfl
    | _ => cases ho
  obtain ⟨q, d', t', o', k', out', hEq, hProc', hExec', rfl⟩ | ⟨e, out', hEq, -⟩ :=
    Machine.step_cases hStep
  · cases hEq
    rw [hProc] at hProc'
    cases hProc'
    change exec S.shared t pid S.procs.length o d = some out' at hExec'
    rw [hExec] at hExec'
    cases hExec'
    rw [hSpawned, List.getElem?_append_right (by simp)]
    simp
  · cases hEq

theorem Served.step (h : Served S pid m) (hStep : service.step S l = some S') : Served S' pid m := by
  obtain ⟨q, pr, hLt, hq, hJob⟩ := h
  obtain ⟨pr', hq', hTask⟩ := step_task hStep hq
  exact ⟨q, pr', hLt, hq', hTask ▸ hJob⟩

theorem Resumed.step (h : Resumed db m pid S) (hStep : service.step S l = some S') :
    Resumed db m pid S' := by
  obtain ⟨q, pr, hLt, hq, hJob⟩ := h
  obtain ⟨pr', hq', hTask⟩ := step_task hStep hq
  exact ⟨q, pr', hLt, hq', hTask ▸ hJob⟩

theorem RecoverRun.launched (h : RecoverRun db m pid S) (hS : Held S) (hCond : startingUp l = true)
    (hStep : service.step S l = some S') {q : Nat} {pr : Proc Op Op.Res Exn Ret Task}
    (hNew : S.procs.length ≤ q) (hq : S'.procs[q]? = some pr) :
    pr.task.job.question?.isSome = true ∧
      ((∃ a, pr.task.job.question? = some a ∧ Served S pid a) ∨
        ∃ d t o k j, l = .op pid d ∧ S.procs[pid]? = some ⟨t, .call o k⟩ ∧ o.launches = some j ∧
          pr.task = ⟨t.replica, j⟩) := by
  obtain ⟨p₀, hOld, -⟩ | ⟨hLen, -, hLaunched⟩ := step_proc hS hStep hq
  · have := (List.getElem?_eq_some_iff.mp hOld).1
    omega
  generalize hTask : pr.task = task at hLaunched
  cases hLaunched with
  | requested => cases hCond
  | booted => cases hCond
  | created p₀ d t o k j hProc ho hSpawn =>
    have hLt := (List.getElem?_eq_some_iff.mp hq).1
    have hUp := launching_up hStep hProc (by omega)
    obtain hBelow | rfl | hAbove := Nat.lt_trichotomy p₀ pid
    · rw [h.dead p₀ _ hBelow hProc] at hUp
      cases hUp
    · exact ⟨hSpawn.question.1, .inr ⟨d, t, o, k, j, rfl, hProc, ho, rfl⟩⟩
    · obtain ⟨a, ha⟩ := Option.isSome_iff_exists.mp (h.heirs p₀ _ hAbove hProc)
      exact ⟨hSpawn.question.1, .inl ⟨a, hSpawn.question.2 a ha, p₀, _, hAbove, hProc, ha⟩⟩

theorem RecoverPhase.Fits.resumes {s : RecoverPhase} {served : Prop} {o : Op} {j : Job}
    (h : s.Fits db m served) (hAllowed : s.allows m o) (ho : o.launches = some j)
    (hJob : j.question? = some m) : Resumes db m j := by
  cases s with
  | scanning => cases hAllowed; cases ho
  | waiting => exact absurd hJob (hAllowed.2 j ho)
  | looking => cases hAllowed; cases ho
  | due q => exact .closes j q h.2 (hAllowed.2 j ho)
  | next q =>
    cases hAllowed
    cases ho
    exact .arms q h.2.1 h.2.2.1 h.2.2.2
  | past => exact absurd hJob (hAllowed.2 j ho)
  | void => cases hAllowed
  | astray => cases h

theorem RecoverRun.served_back (h : RecoverRun db m pid S) (hS : Held S)
    (hCond : startingUp l = true) (hStep : service.step S l = some S') (hServed : Served S' pid m) :
    Served S pid m ∨ (Resumed db m pid S' ∧ ∃ d t o k j, l = .op pid d ∧
      S.procs[pid]? = some ⟨t, .call o k⟩ ∧ o.launches = some j ∧ j.question? = some m) := by
  obtain ⟨q, pr, hLt, hq, hJob⟩ := hServed
  by_cases hOld : q < S.procs.length
  · obtain ⟨p₀, hp₀, hTask⟩ | ⟨hLen, -⟩ := step_proc hS hStep hq
    · exact .inl ⟨q, p₀, hLt, hp₀, hTask ▸ hJob⟩
    · omega
  · obtain ⟨-, ⟨a, ha, hServed⟩ | ⟨d, t, o, k, j, hl, hProc, ho, hTask⟩⟩ :=
      h.launched hS hCond hStep (by omega) hq
    · rw [hJob] at ha
      cases ha
      exact .inl hServed
    · obtain ⟨pr₀, s, hp, -, hWalks, hFits⟩ := h.phase
      rw [hProc] at hp
      cases hp
      rw [hTask] at hJob
      refine .inr ⟨⟨q, pr, hLt, hq, ?_⟩, d, t, o, k, j, hl, hProc, ho, hJob⟩
      rw [hTask]
      exact hFits.resumes hWalks.1 ho hJob

theorem RecoverPhase.Fits.inside {s : RecoverPhase} {served : Prop} {o : Op}
    (h : s.Fits db m served) (hAllowed : s.allows m o) : o.inside = true := by
  cases s with
  | scanning => cases hAllowed; rfl
  | waiting => exact hAllowed.1
  | looking => cases hAllowed; rfl
  | due q => exact hAllowed.1
  | next q => cases hAllowed; rfl
  | past => exact hAllowed.1
  | void => cases hAllowed
  | astray => cases h

theorem RecoverRun.same_rows (h : RecoverRun db m pid S) (hS : Held S)
    (hStep : service.step S l = some S') (hNot : ¬Served S pid m) :
    S'.shared.db.matchQuestions.filter (·.matchId = m) =
      S.shared.db.matchQuestions.filter (·.matchId = m) ∧
    ∀ x ∈ S.shared.db.matches', x.id = m → x ∈ S'.shared.db.matches' := by
  obtain hSame | ⟨q, t, hC⟩ := step_cases hS hStep
  · exact ⟨by rw [hSame.matchQuestions], fun x hx _ => hSame.matches' ▸ hx⟩
  obtain ⟨k, hProc⟩ := hC.proc
  obtain hBelow | rfl | hAbove := Nat.lt_trichotomy q pid
  · have hUp := hC.up
    rw [h.dead q _ hBelow hProc] at hUp
    cases hUp
  · obtain ⟨pr, s, hp, -, hWalks, hFits⟩ := h.phase
    rw [hProc] at hp
    cases hp
    cases hFits.inside hWalks.1
  · obtain ⟨a, ha⟩ := Option.isSome_iff_exists.mp (h.heirs q _ hAbove hProc)
    have hNe : a ≠ m := by
      rintro rfl
      exact hNot ⟨q, _, hAbove, hProc, ha⟩
    rw [hC.db]
    exact hC.shape.elsewhere hS.inv ha hNe

theorem exec_no_writes {w : World} {t : Task} {n : Nat} {o : Op} {d : Decision} {out : Answer o}
    (ho : o.inside = true) (h : exec w t pid n o d = some out) (hNil : (w.tx pid).writes = []) :
    (out.shared.tx pid).writes = [] := by
  obtain ⟨-, -, hOk⟩ | ⟨e, -, -, hOut⟩ := exec_cases h
  · rw [(perform_tx ho hOk).1, hNil]
  · generalize out.shared = v at hOut ⊢
    cases hOut with
    | crashed => simp [World.endTx]
    | cancelled => exact hNil
    | fault => exact hNil
    | cancelledAfter a _ ha => exact (perform_tx ho ha).1.trans hNil
    | faultAfter a _ ha => exact (perform_tx ho ha).1.trans hNil

theorem RecoverPhase.Fits.keep {s : RecoverPhase} {served served' : Prop} (h : s.Fits db m served)
    (hForth : served → served') (hBack : ¬served → ¬served') : s.Fits db m served' := by
  cases s with
  | scanning => exact hBack h
  | waiting => exact hBack h
  | looking => exact ⟨hBack h.1, h.2⟩
  | due q => exact ⟨hBack h.1, h.2⟩
  | next q => exact ⟨hBack h.1, h.2⟩
  | past => exact h.imp_left hForth
  | void => trivial
  | astray => exact h

theorem after_open_none : RecoverPhase.waiting.after m (.select (.openQuestion m)) none = .looking :=
  if_pos rfl

theorem after_open_some {q : MatchQuestion} (hDue : q.deadlineAt.isSome) :
    RecoverPhase.waiting.after m (.select (.openQuestion m)) (some q) = .due q :=
  (if_pos rfl).trans (if_pos hDue)

theorem after_looking_none : RecoverPhase.looking.after m (.select (.nextUnstarted m)) none = .past :=
  rfl

theorem RecoverPhase.Fits.answer {s : RecoverPhase} {served served' : Prop} {w : World} {t : Task}
    {n : Nat} {o : Op} {d : Decision} {out : Answer o} {v : o.Res} (h : s.Fits db m served)
    (hKeys : w.db.Keys) (hRows : ¬served → w.db.matchQuestions.filter (·.matchId = m) =
      db.matchQuestions.filter (·.matchId = m))
    (hRunning : ¬served → ∃ x ∈ w.db.matches', x.id = m ∧ x.status = .running)
    (hDeadline : ∀ q ∈ db.matchQuestions, q.startedAt.isSome → q.deadlineAt.isSome)
    (hNil : (w.tx pid).writes = []) (hAllowed : s.allows m o)
    (hOk : perform w t pid n o d = some out) (hv : out.result = .ok v)
    (hForth : served → served') (hBack : (∀ j, o.launches = some j → j.question? ≠ some m) →
      ¬served → ¬served')
    (hLaunch : ∀ j, o.launches = some j → j.question? = some m → served') :
    (s.after m o v).Fits db m served' := by
  have hView : w.view pid = w.db := by
    rw [World.view, hNil]
    rfl
  cases s with
  | scanning =>
    cases hAllowed
    cases hOk
    cases hv
    obtain ⟨x, hx, hId, hStatus⟩ := hRunning h
    have hNodup : ((Query.run w.db .runningMatches : List Match).map Match.id).Nodup := by
      rw [List.Nodup, List.pairwise_map]
      exact (hKeys.matches'.filter _).imp fun h => h.1
    have hMem : m ∈ (Query.run w.db .runningMatches : List Match).map Match.id :=
      List.mem_map.mpr ⟨x, List.mem_filter.mpr ⟨hx, decide_eq_true hStatus⟩, hId⟩
    rw [hView]
    change (if (Query.run w.db .runningMatches |>.map Match.id).Nodup then
      if m ∈ (Query.run w.db .runningMatches).map Match.id then RecoverPhase.waiting else .past
      else .astray).Fits db m served'
    rw [if_pos hNodup, if_pos hMem]
    exact hBack (fun j hj => by cases hj) h
  | waiting =>
    by_cases hOpen : o = .select (.openQuestion m)
    · subst hOpen
      cases hOk
      cases hv
      rw [hView]
      have hNot := hBack (fun j hj => by cases hj) h
      have hIsOpen := isOpen_congr (hRows h)
      cases hRow : Query.run w.db (.openQuestion m) with
      | none =>
        rw [after_open_none]
        exact ⟨hNot, fun x hx => openQuestion_none hRow x ((hIsOpen x).mpr hx)⟩
      | some q =>
        have hq := (hIsOpen q).mp (openQuestion_some hRow)
        rw [after_open_some (hDeadline q hq.1 hq.2.2.1)]
        exact ⟨hNot, hq⟩
    · rw [after_waiting hOpen]
      exact hBack hAllowed.2 h
  | looking =>
    cases hAllowed
    cases hOk
    cases hv
    rw [hView]
    have hNot := hBack (fun j hj => by cases hj) h.1
    have hIs := isUnstarted_congr (hRows h.1)
    cases hRow : Query.run w.db (.nextUnstarted m) with
    | none =>
      rw [after_looking_none]
      refine .inr fun q hq hOf => ?_
      by_contra hClosed
      have hNone : q.closedAt = none := by simpa using hClosed
      cases hStarted : q.startedAt with
      | none => exact nextUnstarted_none hRow q ((hIs q).mpr ⟨hq, hOf, hStarted⟩)
      | some u => exact h.2 q ⟨hq, hOf, by rw [hStarted]; rfl, hNone⟩
    | some q =>
      obtain ⟨hq, hMin⟩ := nextUnstarted_some hRow
      exact ⟨hNot, h.2, (hIs q).mp hq, fun x hx => hMin x ((hIs x).mpr hx)⟩
  | due q =>
    cases ho : o.launches with
    | some j =>
      have hServed := hLaunch j ho (hAllowed.2 j ho).question
      cases o with
      | createTask j' => exact .inl hServed
      | setActive m' j' => exact .inl hServed
      | _ => cases ho
    | none =>
      have hStay : (RecoverPhase.due q).after m o v = .due q := by
        cases o <;> first | rfl | cases ho
      rw [hStay]
      exact ⟨hBack (fun j hj => by rw [ho] at hj; cases hj) h.1, h.2⟩
  | next q =>
    cases hAllowed
    exact .inl (hLaunch _ rfl rfl)
  | past =>
    rw [after_past]
    exact h.imp_left hForth
  | void => cases hAllowed
  | astray => cases h

theorem RecoverRun.turn (h : RecoverRun db m pid S) (hS : Held S)
    (hDeadline : ∀ q ∈ db.matchQuestions, q.startedAt.isSome → q.deadlineAt.isSome)
    (hCond : startingUp l = true) (hStep : service.step S l = some S') :
    (S'.shared.tx pid).writes = [] ∧
      ∃ pr s, S'.procs[pid]? = some pr ∧ pr.task.job = .recoverRunningMatches ∧
        Recovers m RecoverPhase.ends s pr.prog ∧ s.Fits db m (Served S' pid m) := by
  obtain ⟨pr, s, hp, hJob, hWalks, hFits⟩ := h.phase
  have hPid := (List.getElem?_eq_some_iff.mp hp).1
  have hForth : Served S pid m → Served S' pid m := fun hServed => hServed.step hStep
  obtain ⟨pr', hp', hTask⟩ := step_task hStep hp
  obtain ⟨hOld, hOther⟩ | ⟨d, t, o, k, out, rfl, hOld, hExec, hEq, hShared⟩ | ⟨hLen, -⟩ :=
    step_procs hS hStep hp'
  · have hBack : ¬Served S pid m → ¬Served S' pid m := by
      intro hNot hServed
      obtain hOld | ⟨-, d, t, o, k, j, rfl, -⟩ := h.served_back hS hCond hStep hServed
      · exact hNot hOld
      · exact hOther d rfl
    rw [hp] at hOld
    cases hOld
    constructor
    · rw [(step_rely hS hStep hPid hOther).tx]
      exact h.writes
    · exact ⟨pr, s, hp', hJob, hWalks, hFits.keep hForth hBack⟩
  · rw [hp] at hOld
    cases hOld
    have hIn := hFits.inside hWalks.1
    constructor
    · rw [hShared]
      exact exec_no_writes hIn hExec h.writes
    refine ⟨pr', (recoverMonitor m).next s o out.result, hp', by rw [hTask]; exact hJob, ?_, ?_⟩
    · rw [hEq]
      exact hWalks.2 out.result
    cases hr : out.result with
    | error e =>
      cases s with
      | astray => cases hFits
      | _ => trivial
    | ok v =>
      have hOk : perform S.shared t pid S.procs.length o d = some out := by
        obtain ⟨-, -, hOk⟩ | ⟨e, hErr, -⟩ := exec_cases hExec
        · exact hOk
        · rw [hErr] at hr
          cases hr
      have hNext : (recoverMonitor m).next s o (.ok v) = s.after m o v := by
        cases s with
        | astray => cases hFits
        | _ => rfl
      rw [hNext]
      refine hFits.answer hS.inv.keys h.rows h.running hDeadline h.writes hWalks.1 hOk hr hForth ?_ ?_
      · intro hNo hNot hServed
        obtain hOld | ⟨-, d', t', o', k', j, -, hProc, ho, hj⟩ := h.served_back hS hCond hStep hServed
        · exact hNot hOld
        · rw [hp] at hProc
          cases hProc
          exact hNo j ho hj
      · intro j ho hj
        exact ⟨_, _, hPid, launched_at hStep hp hOk ho hExec, hj⟩
  · omega

theorem RecoverRun.step (h : RecoverRun db m pid S) (hS : Held S)
    (hDeadline : ∀ q ∈ db.matchQuestions, q.startedAt.isSome → q.deadlineAt.isSome)
    (hCond : startingUp l = true) (hStep : service.step S l = some S') : RecoverRun db m pid S' := by
  obtain ⟨pr, s, hp, hJob, hWalks, hFits⟩ := h.phase
  have hPid := (List.getElem?_eq_some_iff.mp hp).1
  have hForth : Served S pid m → Served S' pid m := fun hServed => hServed.step hStep
  have hStays : ¬Served S' pid m → ¬Served S pid m := fun hNot hServed => hNot (hForth hServed)
  have hTurn := h.turn hS hDeadline hCond hStep
  refine ⟨?_, ?_, ?_, ?_, ?_, hTurn.1, hTurn.2⟩
  · intro q pr' hLt hq
    obtain ⟨p₀, hp₀, hTask⟩ | ⟨hLen, -⟩ := step_proc hS hStep hq
    · exact step_crashed hStep (hTask ▸ h.dead q p₀ hLt hp₀)
    · omega
  · intro q pr' hLt hq
    by_cases hOld : q < S.procs.length
    · obtain ⟨p₀, hp₀, hTask⟩ | ⟨hLen, -⟩ := step_proc hS hStep hq
      · exact hTask ▸ h.heirs q p₀ hLt hp₀
      · omega
    · exact (h.launched hS hCond hStep (by omega) hq).1
  · intro hServed
    obtain hOld | ⟨hNew, -⟩ := h.served_back hS hCond hStep hServed
    · exact (h.resumed hOld).step hStep
    · exact hNew
  · intro hNot
    exact (h.same_rows hS hStep (hStays hNot)).1.trans (h.rows (hStays hNot))
  · intro hNot
    obtain ⟨x, hx, hId, hStatus⟩ := h.running (hStays hNot)
    exact ⟨x, (h.same_rows hS hStep (hStays hNot)).2 x hx hId, hId, hStatus⟩

/-- A question has a deadline when it is started, and is started when it is closed. -/
structure Stamped (db : Db) : Prop where
  deadline : ∀ q ∈ db.matchQuestions, q.startedAt.isSome → q.deadlineAt.isSome
  started : ∀ q ∈ db.matchQuestions, q.closedAt.isSome → q.startedAt.isSome

theorem stamped_reach {C : SysState → SysLabel → Prop} {seed : Seed}
    (h : service.Reach C (initial seed) S) : Stamped S.shared.db := by
  induction h with
  | refl =>
    constructor
    · intro q hq
      cases hq
    · intro q hq
      cases hq
  | tail hReach _ hStep ih =>
    have hS := held_of_reach hReach
    obtain hSame | ⟨pid, t, hC⟩ := step_cases hS hStep
    · constructor
      · rw [hSame.matchQuestions]
        exact ih.deadline
      · rw [hSame.matchQuestions]
        exact ih.started
    · rw [hC.db]
      constructor
      · intro q' hq' hStarted
        obtain ⟨q, hq, hMove⟩ | ⟨-, hNone⟩ := hC.shape.question_back hS.inv hq'
        · cases hMove with
          | same => exact ih.deadline q' hq hStarted
          | armed => rfl
          | closed => exact ih.deadline q hq hStarted
          | extended => rfl
        · rw [hNone] at hStarted
          cases hStarted
      · intro q' hq' hClosed
        obtain ⟨q, hq, hMove⟩ | ⟨hIns, -⟩ := hC.shape.question_back hS.inv hq'
        · cases hMove with
          | same => exact ih.started q' hq hClosed
          | armed => rfl
          | closed _ _ _ hStarted => exact hStarted
          | extended => exact ih.started q hq hClosed
        · obtain ⟨-, -, -, -, -, hNone⟩ := hC.shape.inserted_matchQuestion hIns
          rw [hNone] at hClosed
          cases hClosed

theorem recoverRun_boot {S₀ S₁ : SysState} {r : Nat} {x : Match} (hS : Held S₀)
    (hDead : ∀ pr ∈ S₀.procs, S₀.shared.phase pr.task.replica = .crashed)
    (hBoot : service.step S₀ (.env (.boot r)) = some S₁)
    (hx : x ∈ S₁.shared.db.matches') (hStatus : x.status = .running) :
    RecoverRun S₁.shared.db x.id S₀.procs.length S₁ := by
  have hProcs : S₁.procs = S₀.procs ++ [service.start ⟨r, .recoverRunningMatches⟩] := by
    obtain ⟨q, d, t, o, k, out, hEq, -⟩ | ⟨e, out, hEq, hEnv, rfl⟩ := Machine.step_cases hBoot
    · cases hEq
    · cases hEq
      change env S₀.shared S₀.procs.length (.boot r) = some out at hEnv
      simp only [env] at hEnv
      split at hEnv <;> cases hEnv
      rfl
  have hNone : ∀ q pr, S₀.procs.length < q → S₁.procs[q]? ≠ some pr := by
    intro q pr hLt hq
    have := (List.getElem?_eq_some_iff.mp hq).1
    rw [hProcs] at this
    simp at this
    omega
  have hNot : ¬Served S₁ S₀.procs.length x.id := by
    rintro ⟨q, pr, hLt, hq, -⟩
    exact hNone q pr hLt hq
  refine ⟨?_, ?_, ?_, ?_, ?_, ?_, ?_⟩
  · intro q pr hLt hq
    rw [hProcs, List.getElem?_append_left hLt] at hq
    exact step_crashed hBoot (hDead pr (List.mem_of_getElem? hq))
  · exact fun q pr hLt hq => absurd hq (hNone q pr hLt)
  · exact fun hServed => absurd hServed hNot
  · exact fun _ => rfl
  · exact fun _ => ⟨x, hx, rfl, hStatus⟩
  · rw [(step_fresh hS hBoot).1]
  · refine ⟨service.start ⟨r, .recoverRunningMatches⟩, .scanning, ?_, rfl, jobBody_recovers, hNot⟩
    rw [hProcs, List.getElem?_append_right le_rfl, Nat.sub_self]
    rfl

/-- Every process is gone, and replica `r` starts: when its recovery returns, a running
match has the task that takes it up again if and only if one of its questions is not
closed. -/
theorem recovery_resumes {seed : Seed} {S₀ S₁ : SysState} {r : Nat} {x : Match} {result : Ret}
    (h : service.Reach (fun _ _ => True) (initial seed) S₀)
    (hDead : ∀ pr ∈ S₀.procs, S₀.shared.phase pr.task.replica = .crashed)
    (hBoot : service.step S₀ (.env (.boot r)) = some S₁)
    (hRun : service.Reach (fun _ l => startingUp l = true) S₁ S)
    (hEnd : outcome S S₀.procs.length = some (⟨r, .recoverRunningMatches⟩, .ok result))
    (hx : x ∈ S₁.shared.db.matches') (hStatus : x.status = .running) :
    (∃ q pr, S₀.procs.length < q ∧ S.procs[q]? = some pr ∧
      Resumes S₁.shared.db x.id pr.task.job) ↔
    ∃ q ∈ S₁.shared.db.matchQuestions, q.matchId = x.id ∧ q.closedAt = none := by
  have hBooted : service.Reach (fun _ _ => True) (initial seed) S₁ := h.tail trivial hBoot
  have hStamped := stamped_reach hBooted
  have hRecover : RecoverRun S₁.shared.db x.id S₀.procs.length S := by
    clear hEnd
    induction hRun with
    | refl => exact recoverRun_boot (held_of_reach h) hDead hBoot hx hStatus
    | tail hReach hCond hStep ih =>
      exact ih.step (sound.kept (held_of_reach hBooted) hReach) hStamped.deadline hCond hStep
  constructor
  · rintro ⟨q, pr, hLt, hq, hResumes⟩
    have hHeir := hRecover.heirs q pr hLt hq
    generalize pr.task.job = job at hResumes hHeir
    cases hResumes with
    | closes _ mq hOpen => exact ⟨mq, hOpen.1, hOpen.2.1, hOpen.2.2.2⟩
    | arms mq _ hUnstarted =>
      refine ⟨mq, hUnstarted.1, hUnstarted.2.1, ?_⟩
      by_contra hClosed
      have hStarted := hStamped.started mq hUnstarted.1 (Option.isSome_iff_ne_none.mpr hClosed)
      rw [hUnstarted.2.2] at hStarted
      cases hStarted
    | finishes => cases hHeir
  · rintro ⟨q, hq, hOf, hOpen⟩
    obtain ⟨pr, s, hp, -, hWalks, hFits⟩ := hRecover.phase
    rw [outcome_spec hEnd] at hp
    cases hp
    cases s with
    | past =>
      refine hRecover.resumed (hFits.resolve_right fun hAll => ?_)
      have hClosed := hAll q hq hOf
      rw [hOpen] at hClosed
      cases hClosed
    | astray => cases hFits
    | _ => cases hWalks

end

/-- Replica 0 is lost while question 56 is open. -/
def Demo.crashed : List SysLabel := Demo.opening ++ [.env (.crash 0)]

theorem recovery_resumes_open : ∃ S₁ S : SysState,
    (∃ q ∈ S₁.shared.db.matchQuestions, q.matchId = 54 ∧ q.closedAt = none) ∧
    ∃ q pr, 4 < q ∧ S.procs[q]? = some pr ∧ Resumes S₁.shared.db 54 pr.task.job := by
  have hRun : (service.run (initial Demo.seed) Demo.crashed).any (fun S₀ =>
      (∀ pr ∈ S₀.procs, S₀.shared.phase pr.task.replica = .crashed) ∧ S₀.procs.length = 4 ∧
      (service.step S₀ (.env (.boot 1))).any (fun S₁ =>
        (∃ x ∈ S₁.shared.db.matches', x.id = 54 ∧ x.status = .running) ∧
        (∃ q ∈ S₁.shared.db.matchQuestions, q.matchId = 54 ∧ q.closedAt = none) ∧
        (service.runWhile (fun _ l => startingUp l) S₁ (Demo.calls 4 4 200)).any (fun S =>
          outcome S 4 = some (⟨1, .recoverRunningMatches⟩, .ok (.count 1))))) = true := by
    decide +kernel
  obtain ⟨S₀, hReach, hS₀⟩ := Machine.Reach.exists_of_run hRun
  obtain ⟨hDead, hLen, hBoot⟩ := of_decide_eq_true hS₀
  obtain ⟨S₁, hBoot, hS₁⟩ := (Option.any_eq_true _ _).mp hBoot
  obtain ⟨⟨x, hx, hId, hStatus⟩, hOpen, hRun'⟩ := of_decide_eq_true hS₁
  obtain ⟨S, hReach', hEnd⟩ := Machine.Reach.exists_of_runWhile hRun'
  have hEnd := of_decide_eq_true hEnd
  rw [← hLen] at hEnd ⊢
  rw [← hId] at hOpen ⊢
  exact ⟨S₁, S, hOpen, (recovery_resumes hReach hDead hBoot hReach' hEnd hx hStatus).mpr hOpen⟩

/-- A quiz of one question. -/
def Demo.single : Seed :=
  { Demo.seed with questions := [⟨100, 5, 1, "2+2", .singleChoice, 20, 1000, none⟩] }

def Demo.crashedClosed : List SysLabel :=
  [.env (.boot 0)] ++ calls 0 1 0 ++ [.env (.request 0 (.startMatch 7 "AB"))] ++ calls 1 19 50 ++
    calls 2 15 80 ++ calls 3 1 100 ++ [.env (.tick 20000000)] ++ calls 3 12 101 ++ [.env (.crash 0)]

/-- The recovery returns, and nothing takes up the running match. -/
theorem recovery_forgets_closed : ∃ S₀ S₁ S : SysState,
    service.Reach (fun _ _ => True) (initial Demo.single) S₀ ∧
    (∀ pr ∈ S₀.procs, S₀.shared.phase pr.task.replica = .crashed) ∧
    service.step S₀ (.env (.boot 1)) = some S₁ ∧
    service.Reach (fun _ l => startingUp l = true) S₁ S ∧
    outcome S S₀.procs.length = some (⟨1, .recoverRunningMatches⟩, .ok (.count 0)) ∧
    (∃ x ∈ S₁.shared.db.matches', x.id = 54 ∧ x.status = .running) ∧
    ¬∃ q pr, S₀.procs.length < q ∧ S.procs[q]? = some pr ∧
      Resumes S₁.shared.db 54 pr.task.job := by
  have hRun : (service.run (initial Demo.single) Demo.crashedClosed).any (fun S₀ =>
      (∀ pr ∈ S₀.procs, S₀.shared.phase pr.task.replica = .crashed) ∧
      (service.step S₀ (.env (.boot 1))).any (fun S₁ =>
        (∃ x ∈ S₁.shared.db.matches', x.id = 54 ∧ x.status = .running) ∧
        (service.runWhile (fun _ l => startingUp l) S₁ (Demo.calls 4 3 200)).any (fun S =>
          outcome S S₀.procs.length = some (⟨1, .recoverRunningMatches⟩, .ok (.count 0)) ∧
          S.procs.length ≤ S₀.procs.length + 1))) = true := by
    decide +kernel
  obtain ⟨S₀, hReach, hS₀⟩ := Machine.Reach.exists_of_run hRun
  obtain ⟨hDead, hBoot⟩ := of_decide_eq_true hS₀
  obtain ⟨S₁, hBoot, hS₁⟩ := (Option.any_eq_true _ _).mp hBoot
  obtain ⟨hRunning, hRun'⟩ := of_decide_eq_true hS₁
  obtain ⟨S, hReach', hS⟩ := Machine.Reach.exists_of_runWhile hRun'
  obtain ⟨hEnd, hLen⟩ := of_decide_eq_true hS
  refine ⟨S₀, S₁, S, hReach, hDead, hBoot, hReach', hEnd, hRunning, ?_⟩
  rintro ⟨q, pr, hLt, hq, -⟩
  have := (List.getElem?_eq_some_iff.mp hq).1
  omega

end LiveQuiz
