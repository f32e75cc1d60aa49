import LiveQuiz.Results.Holders

/-! # No match is left behind

Every committed start, arm and close has its successor in every state of a run, as long
as what it calls in between returns. The calls that may raise there without a guard are
the ones that tell Redis about the commit.
-/

namespace LiveQuiz

open Coroutine

set_option autoImplicit false

/-- From its commit to the call that hands the match on, no call of a start, an arm or a
close raises, unless it is a broadcast. -/
def passesOn (S : SysState) : SysLabel → Bool
  | .op pid d =>
    match S.procs[pid]? with
    | some ⟨t, .call o _⟩ =>
      !t.job.carries || match S.shared.commits pid with
      | [] => o ≠ .commit || d.fault ≠ .lost
      | [_] => !o.aftermath || (S.shared.tx pid).aggregated.isSome ||
        (S.shared.phase t.replica ≠ .crashed && !(o.suspends && S.shared.cancelling pid) &&
          (o.isBroadcast || d.fault = .none))
      | _ => true
    | _ => true
  | .env _ => true

/-- The task a program of this job leaves the match to. -/
inductive Continues (w : World) (pid : Nat) : Job → Job → Prop
  | first (host : Id) (code : String) (m : Id) :
      (∀ m', Created w pid m' ↔ m' = m) →
      Continues w pid (.startMatch host code) (.armQuestion m 1)
  | timer (job : Job) (m : Id) (p : Nat) (d : Micros) :
      Arms job m p → Continues w pid job (.closeQuestionAfter m p d)
  | gap (job : Job) (m : Id) (p : Nat) (s : Micros) :
      Closes job m p → Continues w pid job (.gapThenArm m (p + 1) s)

/-- On the way to `S` the program, which closes a question of `m`, was about to call
`end_match`, whose first statement takes the match off the scheduler. -/
def CallsEnd (C : SysState → SysLabel → Prop) (seed : Seed) (S : SysState) (pid : Nat) (t : Task)
    (m : Id) : Prop :=
  (∃ p, Closes t.job m p) ∧ ∃ S₁ k, service.Reach C (initial seed) S₁ ∧ service.Reach C S₁ S ∧
    S₁.procs[pid]? = some ⟨t, .call (.cancelActive m) k⟩

/-- The successor is there. -/
def HandedOn (C : SysState → SysLabel → Prop) (seed : Seed) (S : SysState) (pid : Nat) (t : Task) :
    Prop :=
  (∃ j q pr, pid < q ∧ S.procs[q]? = some pr ∧ pr.task = ⟨t.replica, j⟩ ∧
    Continues S.shared pid t.job j) ∨ ∃ m, CallsEnd C seed S pid t m

def HandPhase.Fits (C : SysState → SysLabel → Prop) (seed : Seed) (S : SysState) (pid : Nat)
    (t : Task) : HandPhase → Prop
  | .working ws => S.shared.commits pid = [] ∧ (S.shared.tx pid).writes = ws
  | .leaving ws => S.shared.commits pid = [ws] ∧ S.shared.tx pid = {}
  | .handed => HandedOn C seed S pid t ∧ t.job.question?.isSome = true
  | .gone => HandedOn C seed S pid t
  | .idle => S.shared.commits pid = []
  | .void => False

section

variable {C : SysState → SysLabel → Prop} {seed : Seed} {S S' : SysState} {l : SysLabel}
  {pid : Nat} {t : Task}

theorem created_iff {w : World} {m : Id} : Created w pid m ↔
    ∃ ws ∈ w.commits pid, ∃ row, .insertMatch row ∈ ws ∧ row.id = m := by
  constructor
  · rintro ⟨ws, row, hMem, hIns, hId⟩
    exact ⟨ws, mem_commits.mpr ⟨hMem, List.ne_nil_of_mem hIns⟩, row, hIns, hId⟩
  · rintro ⟨ws, hws, row, hIns, hId⟩
    exact ⟨ws, row, (mem_commits.mp hws).1, hIns, hId⟩

theorem HandedOn.step (hC : C S l) (hStep : service.step S l = some S')
    (hKeep : t.job.question?.isSome = true ∨ S'.shared.commits pid = S.shared.commits pid)
    (h : HandedOn C seed S pid t) : HandedOn C seed S' pid t := by
  obtain ⟨j, q, pr, hLt, hq, hTask, hCont⟩ | ⟨m, hCloses, S₁, k, hReach, hOn, hProc⟩ := h
  · obtain ⟨pr', hq', hTask'⟩ := step_task hStep hq
    refine .inl ⟨j, q, pr', hLt, hq', hTask'.trans hTask, ?_⟩
    generalize t.job = job at hCont hKeep ⊢
    cases hCont with
    | first host code m hCreated =>
      have hSame := hKeep.resolve_left (by simp [Job.question?])
      refine .first host code m fun m' => ?_
      rw [created_iff, hSame, ← created_iff]
      exact hCreated m'
    | timer _ m p d hArms => exact .timer _ m p d hArms
    | gap _ m p s hCloses => exact .gap _ m p s hCloses
  · exact .inr ⟨m, hCloses, S₁, k, hReach, hOn.tail hC hStep, hProc⟩

theorem HandPhase.Fits.other {s : HandPhase} (hS : Held S) (hC : C S l)
    (hStep : service.step S l = some S') (hPid : pid < S.procs.length)
    (hOther : ∀ d, l ≠ .op pid d) (h : s.Fits C seed S pid t) : s.Fits C seed S' pid t := by
  have hCommits := commits_other hS hStep hOther
  have hTx := (step_rely hS hStep hPid hOther).tx
  cases s with
  | working ws => exact ⟨hCommits.trans h.1, by rw [hTx]; exact h.2⟩
  | leaving ws => exact ⟨hCommits.trans h.1, hTx.trans h.2⟩
  | handed => exact ⟨h.1.step hC hStep (.inl h.2), h.2⟩
  | gone => exact HandedOn.step hC hStep (.inr hCommits) h
  | idle => exact hCommits.trans h
  | void => exact h

theorem fits_working {ws : List Write} {o : Op} {k : Except Exn o.Res → Coro Ret} {d : Decision}
    {out : Answer o} (hProc : S.procs[pid]? = some ⟨t, .call o k⟩) (hJob : t.job.carries = true)
    (hCond : passesOn S (.op pid d) = true)
    (hExec : exec S.shared t pid S.procs.length o d = some out) (hShared : S'.shared = out.shared)
    (h : (HandPhase.working ws).Fits C seed S pid t) :
    (afterWorking ws o out.result).Fits C seed S' pid t := by
  obtain ⟨hNone, hWrites⟩ := h
  by_cases hc : o = .commit
  · subst hc
    have hLost : d.fault ≠ .lost := by
      simpa [passesOn, hProc, hJob, hNone] using hCond
    cases hr : out.result with
    | error e =>
      change S'.shared.commits pid = []
      rw [hShared, World.commits, exec_commit_failed hExec hLost hr]
      exact hNone
    | ok v =>
      have hOut : out.shared = S.shared.commit pid := by
        obtain ⟨-, -, hOk⟩ | ⟨e, hErr, -⟩ := exec_cases hExec
        · cases hOk
          rfl
        · rw [hErr] at hr
          cases hr
      have hCommits : (S.shared.commit pid).commits pid = if ws = [] then [] else [ws] := by
        unfold World.commits at hNone ⊢
        rw [World.commit, List.filterMap_append, hNone, hWrites]
        split <;> simp [*]
      replace hShared := hShared.trans hOut
      change HandPhase.Fits C seed S' pid t (if ws = [] then .idle else .leaving ws)
      split
      next hNil =>
        change S'.shared.commits pid = []
        rw [hShared, hCommits, if_pos hNil]
      next hCons =>
        refine ⟨?_, ?_⟩
        · rw [hShared, hCommits, if_neg hCons]
        · rw [hShared]
          simp [World.commit, World.endTx]
  · have hCommits : S'.shared.commits pid = [] := by
      rw [hShared, World.commits, (exec_tables hc hExec).2]
      exact hNone
    cases hr : out.result with
    | error e =>
      have hIdle : afterWorking ws o (.error e) = .idle := by cases o <;> rfl
      rw [hIdle]
      exact hCommits
    | ok v =>
      have hOk : perform S.shared t pid S.procs.length o d = some out := by
        obtain ⟨-, -, hOk⟩ | ⟨e, hErr, -⟩ := exec_cases hExec
        · exact hOk
        · rw [hErr] at hr
          cases hr
      by_cases hIn : o.inside = true
      · have hSame : afterWorking ws o (.ok v) = .working ws := by
          cases o <;> first | rfl | cases hIn
        rw [hSame]
        refine ⟨hCommits, ?_⟩
        rw [hShared, (perform_tx hIn hOk).1, hWrites]
      · cases o with
        | rollback => exact hCommits
        | commit => exact absurd rfl hc
        | flush ws' =>
          obtain ⟨hErr, -⟩ | ⟨-, -, hTx⟩ := perform_flush hOk
          · rw [hErr] at hr
            cases hr
          · refine ⟨hCommits, ?_⟩
            rw [hShared, hTx, hWrites]
        | _ => exact absurd rfl hIn

theorem fits_leaving {ws : List Write} {o : Op} {k : Except Exn o.Res → Coro Ret} {d : Decision}
    {out : Answer o} (hReach : service.Reach C (initial seed) S)
    (hProc : S.procs[pid]? = some ⟨t, .call o k⟩) (hJob : t.job.carries = true)
    (hC : C S (.op pid d)) (hCond : passesOn S (.op pid d) = true)
    (hExec : exec S.shared t pid S.procs.length o d = some out)
    (hStep : service.step S (.op pid d) = some S') (hShared : S'.shared = out.shared)
    (hProcs : S'.procs = S.procs.set pid ⟨t, k out.result⟩ ++ out.spawned.toList.map service.start)
    (hAllowed : (HandPhase.leaving ws).allows t.job o)
    (h : (HandPhase.leaving ws).Fits C seed S pid t) :
    (afterLeaving ws o out.result).Fits C seed S' pid t := by
  obtain ⟨hOne, hTx⟩ := h
  have hLt := (List.getElem?_eq_some_iff.mp hProc).1
  have hGo : S.shared.phase t.replica ≠ .crashed ∧
      (o.suspends = false ∨ S.shared.cancelling pid = false) ∧
      (o.isBroadcast = true ∨ d.fault = .none) := by
    simpa [passesOn, hProc, hJob, hOne, hTx, hAllowed.1, and_assoc] using hCond
  obtain ⟨hUp, hLive, hFault⟩ := hGo
  have hNot : ¬(o.suspends = true ∧ S.shared.cancelling pid = true) := by
    rintro ⟨hs, hCancel⟩
    obtain h | h := hLive
    · rw [hs] at h
      cases h
    · rw [hCancel] at h
      cases h
  have hc : o ≠ .commit := by
    rintro rfl
    cases hAllowed.1
  have hIn : o.inside = true := by
    have := hAllowed.1
    cases o <;> first | rfl | cases this
  have hCommits : S'.shared.commits pid = [ws] := by
    rw [hShared, World.commits, (exec_tables hc hExec).2]
    exact hOne
  have hStay : S'.shared.tx pid = {} → (HandPhase.leaving ws).Fits C seed S' pid t :=
    fun hTx' => ⟨hCommits, hTx'⟩
  obtain hOk | ⟨hb, hErr, hSame⟩ := exec_unhindered hExec hUp hNot hFault
  · have hTx' : S'.shared.tx pid = {} := by
      rw [hShared, (perform_tx hIn hOk).2 hAllowed.1, hTx]
    have hLaunch : ∀ j, out.spawned = some ⟨t.replica, j⟩ → Continues S'.shared pid t.job j →
        HandedOn C seed S' pid t := by
      intro j hj hCont
      refine .inl ⟨j, S.procs.length, service.start ⟨t.replica, j⟩, hLt, ?_, rfl, hCont⟩
      rw [hProcs, hj, List.getElem?_append_right (by simp)]
      simp
    obtain ⟨v, hv⟩ : ∃ v, out.result = .ok v := perform_ok hIn hOk
    rw [hv, afterLeaving]
    by_cases hs : o.schedules = true
    · have hHands := hAllowed.2 hs
      generalize hJob' : t.job = job at hHands hLaunch
      cases hHands with
      | first host code m _ hIns hOnly =>
        cases hOk
        refine hLaunch _ rfl (.first host code m.id fun m' => ?_)
        rw [created_iff, hCommits]
        constructor
        · rintro ⟨ws', hws', row, hRow, rfl⟩
          rw [List.mem_singleton.mp hws'] at hRow
          rw [hOnly row hRow]
        · rintro rfl
          exact ⟨ws, List.mem_singleton_self ws, m, hIns, rfl⟩
      | timer _ m p d' _ hArms =>
        cases hOk
        exact ⟨hLaunch _ rfl (.timer _ m p d' hArms), by rw [hJob', hArms.question]; rfl⟩
      | gap _ m p s _ hCloses =>
        cases hOk
        exact ⟨hLaunch _ rfl (.gap _ m p s hCloses), by rw [hJob', hCloses.question]; rfl⟩
      | finish _ m p _ hCloses =>
        refine ⟨.inr ⟨m, ⟨p, hJob' ▸ hCloses⟩, S, k, hReach, ?_, hProc⟩, ?_⟩
        · exact Machine.Reach.refl.tail hC hStep
        · rw [hJob', hCloses.question]
          rfl
    · have hCreate : o.isCreate = false := by
        cases o <;> first | rfl | exact absurd rfl hs
      rw [hCreate, if_neg (by simp), if_neg hs]
      exact hStay hTx'
  · rw [hErr, afterLeaving, if_pos ⟨hb, rfl⟩]
    refine hStay ?_
    obtain hSame | ⟨a, ha, hSame⟩ := hSame
    · rw [hShared, hSame, hTx]
    · rw [hShared, hSame, (perform_tx hIn ha).2 hAllowed.1, hTx]

theorem fits_own {s : HandPhase} {o : Op} {k : Except Exn o.Res → Coro Ret} {d : Decision}
    (hReach : service.Reach C (initial seed) S)
    (hProc : S.procs[pid]? = some ⟨t, .call o k⟩) (hJob : t.job.carries = true)
    (hC : C S (.op pid d)) (hCond : passesOn S (.op pid d) = true)
    (hStep : service.step S (.op pid d) = some S')
    (hWalks : Hands.Walks t.job HandPhase.ends s (.call o k)) (h : s.Fits C seed S pid t) :
    ∃ r, S'.procs[pid]? = some ⟨t, k r⟩ ∧ ((handMonitor t.job).next s o r).Fits C seed S' pid t := by
  obtain ⟨out, hExec, rfl⟩ : ∃ out, exec S.shared t pid S.procs.length o d = some out ∧
      (⟨out.shared, S.procs.set pid ⟨t, k out.result⟩ ++ out.spawned.toList.map service.start⟩ :
        SysState) = S' := by
    simpa [Machine.step, hProc, Machine.advance, service] using hStep
  have hLt := (List.getElem?_eq_some_iff.mp hProc).1
  refine ⟨out.result, ?_, ?_⟩
  · rw [List.getElem?_append_left (by simpa using hLt), List.getElem?_set_self hLt]
  · cases s with
    | working ws => exact fits_working hProc hJob hCond hExec rfl h
    | leaving ws =>
      exact fits_leaving hReach hProc hJob hC hCond hExec hStep rfl rfl hWalks.1 h
    | handed => exact ⟨h.1.step hC hStep (.inl h.2), h.2⟩
    | gone =>
      refine HandedOn.step hC hStep (.inr ?_) h
      rw [World.commits, (exec_tables hWalks.1 hExec).2]
      rfl
    | idle =>
      change World.commits _ pid = []
      rw [World.commits, (exec_tables hWalks.1.1 hExec).2]
      exact h
    | void => exact h

theorem fits_reach (h : service.Reach (fun S l => passesOn S l = true) (initial seed) S)
    {pr : Proc Op Op.Res Exn Ret Task} (hp : S.procs[pid]? = some pr)
    (hJob : pr.task.job.carries = true) :
    ∃ s : HandPhase, Hands.Walks pr.task.job HandPhase.ends s pr.prog ∧
      s.Fits (fun S l => passesOn S l = true) seed S pid pr.task := by
  induction h generalizing pr with
  | refl => cases hp
  | tail hReach hCond hStep ih =>
    have hS := held_of_reach hReach
    obtain ⟨hOld, hOther⟩ | ⟨d, t, o, k, out, rfl, hOld, -, hEq, -⟩ | ⟨rfl, hBody, -⟩ :=
      step_procs hS hStep hp
    · obtain ⟨s, hWalks, hFits⟩ := ih hOld hJob
      exact ⟨s, hWalks, hFits.other hS hCond hStep (List.getElem?_eq_some_iff.mp hOld).1 hOther⟩
    · rw [hEq] at hJob
      obtain ⟨s, hWalks, hFits⟩ := ih hOld hJob
      obtain ⟨r, hr, hNext⟩ := fits_own hReach hOld hJob hCond hCond hStep hWalks hFits
      rw [hr] at hp
      cases hp
      exact ⟨_, hWalks.2 r, hNext⟩
    · obtain ⟨hTx, hSilent⟩ := step_fresh hS hStep
      refine ⟨.working [], hBody ▸ jobBody_hands hJob, commits_of_silent hSilent, ?_⟩
      rw [hTx]

/-- While no call outside the broadcasts raises between a commit and its successor, every
start, arm and close that has committed and ended has its successor. While the calls of the
programs that may hold a match are heeded, none is stranded: of a running match with an unclosed
question, the first one has a pending program. -/
theorem redis_failure_hands_on (seed : Seed) :
    (∀ S, service.Reach (fun S l => passesOn S l = true) (initial seed) S →
      ∀ pid t r, S.procs[pid]? = some ⟨t, .done r⟩ → t.job.carries = true →
        S.shared.commits pid ≠ [] → HandedOn (fun S l => passesOn S l = true) seed S pid t) ∧
    ∀ S, service.Reach (fun S l => keepsHold S l = true) (initial seed) S →
      ∀ x ∈ S.shared.db.matches', x.status = .running →
        ∀ q ∈ S.shared.db.matchQuestions, q.matchId = x.id → q.closedAt = none →
          ∃ first ∈ S.shared.db.matchQuestions, first.matchId = x.id ∧ first.closedAt = none ∧
            first.position ≤ q.position ∧
            ∃ pid t, Pending S pid t ∧ SeesTo S.shared pid x.id first.position t.job := by
  constructor
  · intro S h pid t r hDone hJob hCommits
    obtain ⟨s, hWalks, hFits⟩ := fits_reach h hDone hJob
    cases s with
    | working ws => exact absurd hFits.1 hCommits
    | leaving ws => cases hWalks
    | handed => exact hFits.1
    | gone => exact hFits
    | idle => exact absurd hFits hCommits
    | void => cases hFits
  · intro S h x hx hStatus q hq hm hOpen
    obtain ⟨b, hLe, hFront⟩ := exists_frontier ⟨x, hx, rfl⟩ hq hm hOpen
    obtain ⟨pid, hCarries⟩ := manned_reach h ⟨x, hx, rfl, hStatus⟩ b hFront
    obtain ⟨t, hPending, hSees⟩ := hCarries.pending (inHand_reach h)
    obtain ⟨first, hFirst, hOf, rfl, hUnclosed⟩ := hFront.unclosed
    exact ⟨first, hFirst, hOf, hUnclosed, hLe, pid, t, hPending, hSees⟩

end

/-- The host pauses five seconds into question 1 and resumes at once. -/
def Demo.pausedInTime : List SysLabel :=
  opening ++ calls 3 1 100 ++ [.env (.tick 5000000)] ++ [.env (.request 0 (.pauseMatch 7 "AB"))] ++
    calls 4 9 110 ++ calls 3 1 115 ++ [.env (.request 0 (.resumeMatch 7 "AB"))] ++ calls 5 9 120

/-- The arm of question 1 has created its timer; after a pause and a resume, with the first timer
cancelled, question 1 has a pending program. -/
theorem redis_failure_hands_on_opening :
    (∃ (S : SysState) (r : Except Exn Ret), S.procs[2]? = some ⟨⟨0, .armQuestion 54 1⟩, .done r⟩ ∧
      S.shared.commits 2 ≠ [] ∧
      HandedOn (fun S l => passesOn S l = true) Demo.seed S 2 ⟨0, .armQuestion 54 1⟩) ∧
    ∃ (S : SysState) (x : Match), (outcome S 3).isSome ∧ (outcome S 5).isSome ∧
      x ∈ S.shared.db.matches' ∧ x.status = .running ∧
      ∃ first ∈ S.shared.db.matchQuestions, first.matchId = x.id ∧ first.closedAt = none ∧
        first.position ≤ 1 ∧
        ∃ pid t, Pending S pid t ∧ SeesTo S.shared pid x.id first.position t.job := by
  constructor
  · have hRun : (service.runWhile passesOn (initial Demo.seed) Demo.opening).any (fun S =>
        (outcome S 2).any (·.1 = ⟨0, .armQuestion 54 1⟩) ∧ S.shared.commits 2 ≠ []) = true := by
      decide +kernel
    obtain ⟨S, hReach, hS⟩ := Machine.Reach.exists_of_runWhile hRun
    obtain ⟨hOut, hCommits⟩ := of_decide_eq_true hS
    obtain ⟨⟨t, r⟩, hOut, hTask⟩ := (Option.any_eq_true _ _).mp hOut
    obtain rfl := of_decide_eq_true hTask
    have hProc := outcome_spec hOut
    exact ⟨S, r, hProc, hCommits,
      (redis_failure_hands_on Demo.seed).1 S hReach 2 _ r hProc rfl hCommits⟩
  · have hRun : (service.runWhile keepsHold (initial Demo.seed) Demo.pausedInTime).any (fun S =>
        (outcome S 3).isSome ∧ (outcome S 5).isSome ∧
        ∃ x ∈ S.shared.db.matches', x.status = .running ∧
          ∃ q ∈ S.shared.db.matchQuestions, q.matchId = x.id ∧ q.position = 1 ∧
            q.closedAt = none) = true := by
      decide +kernel
    obtain ⟨S, hReach, hS⟩ := Machine.Reach.exists_of_runWhile hRun
    obtain ⟨hTimer, hResume, x, hx, hStatus, q, hq, hm, hPos, hOpen⟩ := of_decide_eq_true hS
    refine ⟨S, x, hTimer, hResume, hx, hStatus, ?_⟩
    rw [← hPos]
    exact (redis_failure_hands_on Demo.seed).2 S hReach x hx hStatus q hq hm hOpen

/-- Nothing raises but Redis commands, and no process is lost. -/
def onlyRedisFails (S : SysState) : SysLabel → Bool
  | .op pid d =>
    match S.procs[pid]? with
    | some ⟨_, .call (.redis _) _⟩ => true
    | _ => d.fault = .none
  | .env (.crash _) => false
  | .env _ => true

/-- The first arm commits; then the SET of the current question fails. -/
def Demo.armWithoutRedis : List SysLabel :=
  [.env (.boot 0)] ++ calls 0 1 0 ++ [.env (.request 0 (.startMatch 7 "AB"))] ++ calls 1 20 50 ++
    calls 2 10 80 ++ [.op 2 { fault := .fail }]

/-- Question 1 of the running match is open, and no program is left. -/
theorem stranded_by_redis : ∃ S : SysState,
    service.Reach (fun S l => onlyRedisFails S l = true) (initial Demo.seed) S ∧
    (∃ x ∈ S.shared.db.matches', x.id = 54 ∧ x.status = .running) ∧
    (∃ q ∈ S.shared.db.matchQuestions, q.matchId = 54 ∧ q.startedAt.isSome ∧ q.closedAt = none) ∧
    ∀ pr ∈ S.procs, ∃ r, pr.prog = .done r := by
  have hRun : (service.runWhile onlyRedisFails (initial Demo.seed) Demo.armWithoutRedis).any
      (fun S => (∃ x ∈ S.shared.db.matches', x.id = 54 ∧ x.status = .running) ∧
        (∃ q ∈ S.shared.db.matchQuestions, q.matchId = 54 ∧ q.startedAt.isSome ∧ q.closedAt = none) ∧
        ∀ pid ∈ List.range S.procs.length, (outcome S pid).isSome) = true := by
    decide +kernel
  obtain ⟨S, hReach, hS⟩ := Machine.Reach.exists_of_runWhile hRun
  obtain ⟨hMatch, hOpen, hEnded⟩ := of_decide_eq_true hS
  refine ⟨S, hReach, hMatch, hOpen, fun pr hpr => ?_⟩
  obtain ⟨pid, hPid⟩ := List.mem_iff_getElem?.mp hpr
  have hLt := (List.getElem?_eq_some_iff.mp hPid).1
  obtain ⟨⟨t, r⟩, hOut⟩ := Option.isSome_iff_exists.mp (hEnded pid (List.mem_range.mpr hLt))
  rw [outcome_spec hOut] at hPid
  cases hPid
  exact ⟨r, rfl⟩

end LiveQuiz
