import LiveQuiz.Results.Lifecycle

/-! # A question is armed once

`arm_question` checks that its question is not closed; it does not check that it
has not been started. So a question is armed once exactly as long as no second
task is sent to arm it while the first may still do so or has done so.
-/

namespace LiveQuiz

open Coroutine

set_option autoImplicit false

def EventPayload.startsQuestion (matchId : Id) (position : Nat) : EventPayload → Bool
  | .questionStarted m _ _ p _ _ _ => m = matchId ∧ p = position
  | _ => false

def Job.armed : Job → Option (Id × Nat)
  | .armQuestion m p | .gapThenArm m p _ => some (m, p)
  | _ => none

/-- A task is created to arm a question only if the question is closed already, or
is unstarted and no other task may still arm it. -/
def armsAnew (S : SysState) : SysLabel → Bool
  | .op pid _ =>
    match S.procs[pid]? with
    | some ⟨_, .call o _⟩ =>
      match o.launches.bind Job.armed with
      | some (m, p) => S.shared.db.matchQuestions.all fun q =>
        ¬(q.matchId = m ∧ q.position = p) ∨ q.closedAt.isSome ∨
          (q.startedAt.isNone ∧ S.procs.all fun pr =>
            pr.task.job.armed ≠ some (m, p) ∨ live S pr = false)
      | none => true
    | _ => true
  | _ => true

section

variable {seed : Seed} {S S' : SysState} {l : SysLabel} {m : Id} {p q : Nat} {job : Job}
  {pr : Proc Op Op.Res Exn Ret Task}

theorem arms_iff : Arms job m p ↔ job.armed = some (m, p) := by
  constructor
  · intro h
    cases h <;> rfl
  · intro h
    cases job with
    | armQuestion => cases h; exact .arm m p
    | gapThenArm => cases h; exact .gap m p _
    | _ => cases h

theorem step_live (hS : Held S) (hStep : service.step S l = some S')
    (hq : S'.procs[q]? = some pr) (hLive : live S' pr = true) :
    (∃ pr₀, S.procs[q]? = some pr₀ ∧ pr₀.task = pr.task ∧ live S pr₀ = true) ∨
    (q = S.procs.length ∧ Launched S l pr.task) := by
  obtain ⟨⟨t, prog⟩, hOld, hTask⟩ | ⟨hLen, -, hNew⟩ := step_proc hS hStep hq
  · refine .inl ⟨_, hOld, hTask, ?_⟩
    have hPhase : S.shared.phase t.replica ≠ .crashed := by
      intro hCrashed
      have hAfter := step_crashed hStep hCrashed
      simp only at hTask
      rw [hTask] at hAfter
      unfold live at hLive
      split at hLive
      · cases hLive
      · exact of_decide_eq_true hLive hAfter
    cases prog with
    | call o k => simpa [live] using hPhase
    | done r =>
      have hDone := step_done hStep hOld
      rw [hDone] at hq
      cases hq
      cases hLive
  · exact .inr ⟨hLen, hNew⟩

/-- `q` may still arm the question. -/
def MayArm (S : SysState) (q : Nat) (m : Id) (p : Nat) : Prop :=
  ∃ pr, S.procs[q]? = some pr ∧ Arms pr.task.job m p ∧ live S pr = true

/-- At most one task may arm an unclosed question, and once the question is started
that task has done so. -/
structure ArmedBy (S : SysState) : Prop where
  known : ∀ pr ∈ S.procs, ∀ m p, Arms pr.task.job m p → ∃ x ∈ S.shared.db.matches', x.id = m
  one : ∀ x ∈ S.shared.db.matchQuestions, x.closedAt = none → ∀ q q',
    MayArm S q x.matchId x.position → MayArm S q' x.matchId x.position → q = q'
  spent : ∀ x ∈ S.shared.db.matchQuestions, x.closedAt = none → x.startedAt.isSome → ∀ q,
    MayArm S q x.matchId x.position → ¬Silent S.shared q

theorem Spawn.known {n : Nat} {w : World} {j : Job} (hInv : Inv n w) (h : Spawn w job j)
    (hArms : Arms j m p) : ∃ x ∈ w.db.matches', x.id = m := by
  cases h with
  | first host code x hx => cases hArms; exact ⟨x, hx, rfl⟩
  | resumed host code _ _ hNext =>
    cases hArms
    obtain ⟨⟨y, hy, rfl, -⟩, -⟩ := hNext
    exact hInv.matchOf y hy
  | recovered _ _ hNext =>
    cases hArms
    obtain ⟨⟨y, hy, rfl, -⟩, -⟩ := hNext
    exact hInv.matchOf y hy
  | gap _ _ _ _ _ hStarted =>
    cases hArms
    obtain ⟨y, hy, rfl, -⟩ := hStarted
    exact hInv.matchOf y hy
  | timer => cases hArms
  | restarted => cases hArms
  | rescheduled => cases hArms
  | overdue => cases hArms

theorem Launched.known {t : Task} (hS : Held S) (h : Launched S l t) (hArms : Arms t.job m p) :
    ∃ x ∈ S.shared.db.matches', x.id = m := by
  cases h with
  | created pid d t₀ o k j hProc ho hSpawn => exact hSpawn.known hS.inv hArms
  | requested r j hReq => cases hArms <;> cases hReq
  | booted r => cases hArms

theorem Launched.anew {t : Task} (h : Launched S l t) (hCond : armsAnew S l = true)
    {x : MatchQuestion} (hx : x ∈ S.shared.db.matchQuestions)
    (hArms : Arms t.job x.matchId x.position) (hOpen : x.closedAt = none) :
    x.startedAt = none ∧ ∀ q, ¬MayArm S q x.matchId x.position := by
  cases h with
  | created pid d t₀ o k j hProc ho hSpawn =>
    have hArmed : o.launches.bind Job.armed = some (x.matchId, x.position) := by
      rw [ho]
      exact arms_iff.mp hArms
    simp only [armsAnew, hProc, hArmed, List.all_eq_true, decide_eq_true_eq] at hCond
    obtain hElse | hClosed | ⟨hNone, hAll⟩ := hCond x hx
    · exact absurd ⟨rfl, rfl⟩ hElse
    · rw [hOpen] at hClosed
      cases hClosed
    · refine ⟨by simpa using hNone, ?_⟩
      rintro q ⟨pr, hq, hPr, hLive⟩
      obtain hNe | hDead := hAll pr (List.mem_of_getElem? hq)
      · exact hNe (arms_iff.mp hPr)
      · rw [hLive] at hDead
        cases hDead
  | requested r j hReq => cases hArms <;> cases hReq
  | booted r => cases hArms

theorem MayArm.back (hS : Held S) (hStep : service.step S l = some S') (h : MayArm S' q m p) :
    MayArm S q m p ∨ (q = S.procs.length ∧ ∃ t, Launched S l t ∧ Arms t.job m p) := by
  obtain ⟨pr, hq, hArms, hLive⟩ := h
  obtain ⟨pr₀, hOld, hTask, hLive₀⟩ | ⟨hLen, hNew⟩ := step_live hS hStep hq hLive
  · exact .inl ⟨pr₀, hOld, hTask ▸ hArms, hLive₀⟩
  · exact .inr ⟨hLen, _, hNew, hArms⟩

/-- The question this row was before the step, if the match is not just started. -/
theorem ArmedBy.row_back (h : ArmedBy S) (hS : Held S) (hStep : service.step S l = some S')
    {x' : MatchQuestion} (hx' : x' ∈ S'.shared.db.matchQuestions) (hOpen : x'.closedAt = none)
    (hMay : MayArm S' q x'.matchId x'.position) :
    ∃ x ∈ S.shared.db.matchQuestions, x.closedAt = none ∧ x.Later x' := by
  have hKnown : ∃ y ∈ S.shared.db.matches', y.id = x'.matchId := by
    obtain ⟨pr, hq, hArms, -⟩ | ⟨-, t, hNew, hArms⟩ := hMay.back hS hStep
    · exact h.known pr (List.mem_of_getElem? hq) _ _ hArms
    · exact hNew.known hS hArms
  obtain ⟨y, hy, hId⟩ := hKnown
  obtain ⟨x, hx, hL⟩ := (step_later hS hStep).questionsOf y hy x' hx' hId.symm
  refine ⟨x, hx, ?_, hL⟩
  by_contra hClosed
  have := hL.closed (Option.isSome_iff_ne_none.mpr hClosed)
  rw [hOpen] at this
  cases this

theorem armedBy_one (hS : Held S) (h : ArmedBy S) (hCond : armsAnew S l = true)
    (hStep : service.step S l = some S') {x' : MatchQuestion}
    (hx' : x' ∈ S'.shared.db.matchQuestions) (hOpen' : x'.closedAt = none) {q q' : Nat}
    (hq : MayArm S' q x'.matchId x'.position) (hq' : MayArm S' q' x'.matchId x'.position) :
    q = q' := by
  obtain ⟨x, hx, hOpen, hL⟩ := h.row_back hS hStep hx' hOpen' hq
  have hBack := hq.back hS hStep
  have hBack' := hq'.back hS hStep
  rw [hL.matchId, hL.position] at hBack hBack'
  obtain hOld | ⟨hLen, t, hNew, hArms⟩ := hBack
  · obtain hOld' | ⟨-, t, hNew, hArms⟩ := hBack'
    · exact h.one x hx hOpen q q' hOld hOld'
    · exact absurd hOld ((hNew.anew hCond hx hArms hOpen).2 q)
  · obtain hOld' | ⟨hLen', -⟩ := hBack'
    · exact absurd hOld' ((hNew.anew hCond hx hArms hOpen).2 q')
    · exact hLen.trans hLen'.symm

theorem Commits.mayArm {pid : Nat} {t : Task} (hC : Commits S l S' pid t) (hArms : Arms t.job m p) :
    MayArm S pid m p := by
  obtain ⟨k, hProc⟩ := hC.proc
  exact ⟨_, hProc, hArms, by simp [live, hC.up]⟩

theorem started_by (hS : Held S) (hStep : service.step S l = some S') {x x' : MatchQuestion}
    (hx : x ∈ S.shared.db.matchQuestions) (hx' : x' ∈ S'.shared.db.matchQuestions)
    (hL : x.Later x') (hNone : x.startedAt = none) (hStarted : x'.startedAt.isSome) :
    ∃ pid t, Commits S l S' pid t ∧ Arms t.job x.matchId x.position := by
  obtain hSame | ⟨pid, t, hC⟩ := step_cases hS hStep
  · rw [hSame.matchQuestions] at hx'
    rw [hS.inv.keys.matchQuestion_eq hx' hx (.inl hL.id), hNone] at hStarted
    cases hStarted
  · rw [hC.db] at hx'
    obtain ⟨y, hy, hMove⟩ | ⟨-, hUnstarted⟩ := hC.shape.question_back hS.inv hx'
    · obtain rfl := hS.inv.keys.matchQuestion_eq hy hx (.inl (hMove.later.id.symm.trans hL.id))
      cases hMove with
      | same => simp [hNone] at hStarted
      | armed startedAt deadlineAt hArms => exact ⟨pid, t, hC, hArms⟩
      | closed _ _ _ hs => simp [hNone] at hs
      | extended deadlineAt => simp [MatchQuestion.patch, hNone] at hStarted
    · rw [hUnstarted] at hStarted
      cases hStarted

theorem armedBy_spent (hS : Held S) (h : ArmedBy S) (hCond : armsAnew S l = true)
    (hStep : service.step S l = some S') {x' : MatchQuestion}
    (hx' : x' ∈ S'.shared.db.matchQuestions) (hOpen' : x'.closedAt = none)
    (hStarted' : x'.startedAt.isSome) {q : Nat} (hq : MayArm S' q x'.matchId x'.position) :
    ¬Silent S'.shared q := by
  obtain ⟨x, hx, hOpen, hL⟩ := h.row_back hS hStep hx' hOpen' hq
  have hBack := hq.back hS hStep
  rw [hL.matchId, hL.position] at hBack
  cases hs : x.startedAt with
  | some s =>
    obtain hOld | ⟨-, t, hNew, hArms⟩ := hBack
    · intro hSilent
      refine h.spent x hx hOpen (by simp [hs]) q hOld fun ws hws => ?_
      exact hSilent ws ((step_later hS hStep).wal hws)
    · rw [(hNew.anew hCond hx hArms hOpen).1] at hs
      cases hs
  | none =>
    obtain ⟨pid, t, hC, hArms⟩ := started_by hS hStep hx hx' hL hs hStarted'
    obtain hOld | ⟨-, t', hNew, hArms'⟩ := hBack
    · obtain rfl := h.one x hx hOpen q pid hOld (hC.mayArm hArms)
      intro hSilent
      refine hSilent (S.shared.tx q).writes ?_
      rw [hC.wal]
      exact List.mem_append_right _ (List.mem_singleton_self _)
    · exact absurd (hC.mayArm hArms) ((hNew.anew hCond hx hArms' hOpen).2 pid)

theorem armedBy_step (hS : Held S) (h : ArmedBy S) (hCond : armsAnew S l = true)
    (hStep : service.step S l = some S') : ArmedBy S' := by
  constructor
  · intro pr hpr m p hArms
    obtain ⟨q, hq⟩ := List.mem_iff_getElem?.mp hpr
    have hKnown : ∃ x ∈ S.shared.db.matches', x.id = m := by
      obtain ⟨pr₀, hOld, hTask⟩ | ⟨-, -, hNew⟩ := step_proc hS hStep hq
      · exact h.known pr₀ (List.mem_of_getElem? hOld) m p (hTask ▸ hArms)
      · exact hNew.known hS hArms
    obtain ⟨x, hx, hId⟩ := hKnown
    obtain ⟨x', hx', hId', -⟩ := (step_later hS hStep).matches' x hx
    exact ⟨x', hx', hId'.trans hId⟩
  · exact fun x hx hOpen q q' => armedBy_one hS h hCond hStep hx hOpen
  · exact fun x hx hOpen hs q => armedBy_spent hS h hCond hStep hx hOpen hs

theorem ArmedBy.unstarted (h : ArmedBy S) {pid : Nat} {t : Task} (hC : Commits S l S' pid t)
    {x : MatchQuestion} (hx : x ∈ S.shared.db.matchQuestions)
    (hArms : Arms t.job x.matchId x.position) (hOpen : x.closedAt = none)
    (hSilent : Silent S.shared pid) : x.startedAt = none := by
  by_contra hs
  exact h.spent x hx hOpen (Option.isSome_iff_ne_none.mpr hs) pid (hC.mayArm hArms) hSilent

/-- Each QuestionStarted event is the only one of its question, which is started. -/
structure StartedOnce (w : World) : Prop where
  started : ∀ e ∈ w.db.outbox, ∀ m p, e.payload.startsQuestion m p → HasStarted w m p
  once : ∀ m p, (w.db.events (EventPayload.startsQuestion m p)).length ≤ 1

theorem Announces.startedQuestion {w : World} {pid : Nat} {ws : List Write} {e : EventPayload}
    (h : Announces w pid job ws e) (hp : e.startsQuestion m p) :
    ∃ x ∈ (applyAll ws w.db).matchQuestions, x.matchId = m ∧ x.position = p ∧ x.startedAt.isSome := by
  cases h with
  | questionStarted mq question eventId startedAt deadlineAt hMem _ _ _ hEq =>
    subst hEq
    have hAt : mq.matchId = m ∧ mq.position = p := by
      simpa [EventPayload.startsQuestion] using hp
    exact ⟨_, mem_updateWhere_of_eq hMem rfl, hAt.1, hAt.2, rfl⟩
  | _ => simp [EventPayload.startsQuestion] at hp

theorem startedOnce_step (hS : Held S) (h : ArmedBy S) (hOnce : StartedOnce S.shared)
    (hStep : service.step S l = some S') : StartedOnce S'.shared := by
  have hLater := step_later hS hStep
  obtain hSame | ⟨pid, t, hC⟩ := step_cases hS hStep
  · constructor
    · intro e he m p hp
      exact (hOnce.started e (hSame.outbox ▸ he) m p hp).later hLater
    · unfold Db.events
      rw [hSame.outbox]
      exact hOnce.once
  · constructor
    · intro e he m p hp
      rw [hC.db] at he
      obtain hOld | hAnn := hC.shape.outbox_back he
      · exact (hOnce.started e hOld m p hp).later hLater
      · unfold HasStarted
        rw [hC.db]
        exact hAnn.startedQuestion hp
    · intro m p
      rw [hC.db]
      refine one_event_commit hC.shape (hOnce.once m p) fun e hAnn hp x hx hxp => ?_
      obtain ⟨y, hy, hym, hyp, hys⟩ := hOnce.started x hx m p hxp
      cases hAnn with
      | questionStarted mq question eventId startedAt deadlineAt hMem hArms hOpen hSilent =>
        have hAt : mq.matchId = m ∧ mq.position = p := by
          simpa [EventPayload.startsQuestion] using hp
        obtain rfl := hS.inv.keys.matchQuestion_eq hy hMem
          (.inr ⟨hym.trans hAt.1.symm, hyp.trans hAt.2.symm⟩)
        rw [h.unstarted hC hMem hArms hOpen hSilent] at hys
        cases hys
      | _ => simp [EventPayload.startsQuestion] at hp

theorem armed_reach (h : service.Reach (fun S l => armsAnew S l = true) (initial seed) S) :
    ArmedBy S ∧ StartedOnce S.shared := by
  induction h with
  | refl =>
    refine ⟨⟨?_, ?_, ?_⟩, ?_, ?_⟩
    · intro pr hpr
      cases hpr
    · intro x hx
      cases hx
    · intro x hx
      cases hx
    · intro e he
      cases he
    · intro m p
      exact Nat.zero_le 1
  | tail hReach hCond hStep ih =>
    have hS := held_of_reach hReach
    exact ⟨armedBy_step hS ih.1 hCond hStep, startedOnce_step hS ih.1 ih.2 hStep⟩

theorem startedAt_step (hS : Held S) (h : ArmedBy S) (hStep : service.step S l = some S')
    {x : MatchQuestion} (hx : x ∈ S.shared.db.matchQuestions) (hs : x.startedAt.isSome) :
    ∃ x' ∈ S'.shared.db.matchQuestions, x'.id = x.id ∧ x'.startedAt = x.startedAt := by
  obtain hSame | ⟨pid, t, hC⟩ := step_cases hS hStep
  · exact ⟨x, hSame.matchQuestions ▸ hx, rfl, rfl⟩
  · rw [hC.db]
    obtain ⟨x', hx', hMove⟩ := hC.shape.question_forth hS.inv hx
    refine ⟨x', hx', hMove.later.id, ?_⟩
    cases hMove with
    | same => rfl
    | armed startedAt deadlineAt hArms hOpen hSilent =>
      rw [h.unstarted hC hx hArms hOpen hSilent] at hs
      cases hs
    | closed => rfl
    | extended => rfl

/-- While no task is sent to arm a question that another task may still arm or has
armed, each question has one QuestionStarted event and keeps its `started_at`. -/
theorem armed_once (h : service.Reach (fun S l => armsAnew S l = true) (initial seed) S)
    (h' : service.Reach (fun S l => armsAnew S l = true) S S') :
    (∀ m p, (S'.shared.db.events (EventPayload.startsQuestion m p)).length ≤ 1) ∧
    ∀ x ∈ S.shared.db.matchQuestions, x.startedAt.isSome →
      ∃ x' ∈ S'.shared.db.matchQuestions, x'.id = x.id ∧ x'.startedAt = x.startedAt := by
  refine ⟨(armed_reach (h.trans h')).2.once, fun x hx hs => ?_⟩
  induction h' with
  | refl => exact ⟨x, hx, rfl, rfl⟩
  | tail hReach _ hStep ih =>
    obtain ⟨y, hy, hId, hEq⟩ := ih
    obtain ⟨z, hz, hId', hEq'⟩ := startedAt_step (held_of_reach (h.trans hReach))
      (armed_reach (h.trans hReach)).1 hStep hy (hEq ▸ hs)
    exact ⟨z, hz, hId'.trans hId, hEq'.trans hEq⟩

end

/-- Question 1 is armed, and question 2 once the timer has closed question 1. -/
theorem armed_once_opening : ∃ S S' : SysState,
    service.Reach (fun S l => armsAnew S l = true) (initial Demo.seed) S ∧
    service.Reach (fun S l => armsAnew S l = true) S S' ∧
    S.shared.db.matchQuestions.map (·.startedAt) = [some 0, none] ∧
    S'.shared.db.matchQuestions.map (·.startedAt) = [some 0, some 23000000] ∧
    (∀ m p, (S'.shared.db.events (EventPayload.startsQuestion m p)).length ≤ 1) ∧
    ∀ x ∈ S.shared.db.matchQuestions, x.startedAt.isSome →
      ∃ x' ∈ S'.shared.db.matchQuestions, x'.id = x.id ∧ x'.startedAt = x.startedAt := by
  have hRun : (service.runWhile armsAnew (initial Demo.seed) Demo.opening).any (fun S =>
      S.shared.db.matchQuestions.map (·.startedAt) = [some 0, none] ∧
      (service.runWhile armsAnew S (Demo.calls 3 1 100 ++ [.env (.tick 20000000)] ++
        Demo.calls 3 16 101 ++ Demo.calls 4 1 120 ++ [.env (.tick 3000000)] ++ Demo.calls 4 16 121)).any
          fun S' => S'.shared.db.matchQuestions.map (·.startedAt) = [some 0, some 23000000]) = true := by
    decide +kernel
  obtain ⟨S, hReach, hS⟩ := Machine.Reach.exists_of_runWhile hRun
  obtain ⟨hFirst, hRun'⟩ := of_decide_eq_true hS
  obtain ⟨S', hReach', hS'⟩ := Machine.Reach.exists_of_runWhile hRun'
  exact ⟨S, S', hReach, hReach', hFirst, of_decide_eq_true hS', armed_once hReach hReach'⟩

/-- The start has created its arming task; before that task runs, the host pauses
and resumes, and the resume creates a second one. -/
def Demo.twoArms : List SysLabel :=
  [.env (.boot 0)] ++ calls 0 1 0 ++ [.env (.request 0 (.startMatch 7 "AB"))] ++ calls 1 20 50 ++
    [.env (.request 0 (.pauseMatch 7 "AB"))] ++ calls 3 8 100 ++
    [.env (.request 0 (.resumeMatch 7 "AB"))] ++ calls 4 8 110 ++ calls 2 15 120

/-- Both tasks arm question 1, the second a second later. -/
theorem armed_twice : ∃ S S', service.Reach (fun _ _ => True) (initial Demo.seed) S ∧
    service.Reach (fun _ _ => True) S S' ∧
    S.shared.db.matchQuestions.map (·.startedAt) = [some 0, none] ∧
    S'.shared.db.matchQuestions.map (·.startedAt) = [some 1000000, none] ∧
    (S'.shared.db.events (EventPayload.startsQuestion 54 1)).length = 2 := by
  have hRun : (service.run (initial Demo.seed) Demo.twoArms).any (fun S =>
      S.shared.db.matchQuestions.map (·.startedAt) = [some 0, none] ∧
      (service.run S ([.env (.tick 1000000)] ++ Demo.calls 5 15 140)).any (fun S' =>
        S'.shared.db.matchQuestions.map (·.startedAt) = [some 1000000, none] ∧
        (S'.shared.db.events (EventPayload.startsQuestion 54 1)).length = 2)) = true := by
    decide +kernel
  obtain ⟨S, hReach, hS⟩ := Machine.Reach.exists_of_run hRun
  obtain ⟨hFirst, hRun'⟩ := of_decide_eq_true hS
  obtain ⟨S', hReach', hS'⟩ := Machine.Reach.exists_of_run hRun'
  obtain ⟨hSecond, hTwo⟩ := of_decide_eq_true hS'
  exact ⟨S, S', hReach, hReach', hFirst, hSecond, hTwo⟩

end LiveQuiz
