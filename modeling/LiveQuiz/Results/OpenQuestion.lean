import LiveQuiz.Protocol.Moves

/-! # One open question

Questions are opened in order: a task that arms position `p` finds every earlier
question closed. A start and a gap establish that; a resume and a recovery arm the
first unstarted question, which is enough only when no question is still open.
-/

namespace LiveQuiz

open Coroutine

set_option autoImplicit false

def MatchQuestion.isOpen (q : MatchQuestion) : Bool := q.startedAt.isSome && q.closedAt.isNone

def Db.openQuestions (db : Db) (m : Id) : List MatchQuestion :=
  db.matchQuestions.filter fun q => q.matchId = m ∧ q.isOpen

/-- A resume or a recovery arms a question of a match with none open. -/
def armsUnopened (S : SysState) : SysLabel → Bool
  | .op pid _ =>
    match S.procs[pid]? with
    | some ⟨t, .call o _⟩ =>
      match t.job, o.launches with
      | .resumeMatch _ _, some (.armQuestion m _) | .recoverRunningMatches, some (.armQuestion m _) =>
        S.shared.db.matchQuestions.all fun q => q.matchId ≠ m ∨ q.isOpen = false
      | _, _ => true
    | _ => true
  | _ => true

/-- The match exists, and its questions before position `p` are closed. -/
def ClosedBelow (w : World) (m : Id) (p : Nat) : Prop :=
  (∃ x ∈ w.db.matches', x.id = m) ∧
    ∀ q ∈ w.db.matchQuestions, q.matchId = m → q.position < p → q.closedAt.isSome

/-- Questions are opened in order, and the arming tasks keep to it. -/
structure InOrder (S : SysState) : Prop where
  tasks : ∀ pr ∈ S.procs, ∀ m p, Arms pr.task.job m p → ClosedBelow S.shared m p
  rows : ∀ q ∈ S.shared.db.matchQuestions, q.startedAt.isSome →
    ClosedBelow S.shared q.matchId q.position

section

variable {n : Nat} {w w' : World} {m : Id} {p : Nat} {seed : Seed} {S S' : SysState} {l : SysLabel}

theorem ClosedBelow.later (h : ClosedBelow w m p) (hLater : Later w w') : ClosedBelow w' m p := by
  obtain ⟨⟨x, hx, hId⟩, hBelow⟩ := h
  constructor
  · obtain ⟨x', hx', hId', -⟩ := hLater.matches' x hx
    exact ⟨x', hx', hId'.trans hId⟩
  · intro q' hq' hm hp
    obtain ⟨q, hq, hL⟩ := hLater.questionsOf x hx q' hq' (hm.trans hId.symm)
    exact hL.closed (hBelow q hq (hL.matchId.symm.trans hm) (hL.position ▸ hp))

theorem closedBelow_first (hInv : Inv n w) {x : Match} (hx : x ∈ w.db.matches') :
    ClosedBelow w x.id 1 := by
  refine ⟨⟨x, hx, rfl⟩, fun q hq _ hp => ?_⟩
  have := hInv.positive q hq
  omega

theorem Next.closedBelow (hInv : Inv n w) (h : Next w m p)
    (hNone : ∀ q ∈ w.db.matchQuestions, q.matchId = m → q.isOpen = false) : ClosedBelow w m p := by
  obtain ⟨⟨q, hq, hm, -⟩, hBelow⟩ := h
  obtain ⟨x, hx, hId⟩ := hInv.matchOf q hq
  refine ⟨⟨x, hx, hId.trans hm⟩, fun y hy hym hyp => ?_⟩
  have hStarted := hBelow y hy hym hyp
  have hShut := hNone y hy hym
  rw [MatchQuestion.isOpen, hStarted, Bool.true_and] at hShut
  simpa using hShut

theorem ClosedBelow.succ (hInv : Inv n w) (h : ClosedBelow w m p) (hClosed : HasClosed w m p) :
    ClosedBelow w m (p + 1) := by
  obtain ⟨q, hq, hm, hp, hc⟩ := hClosed
  refine ⟨h.1, fun y hy hym hyp => ?_⟩
  obtain hLt | hEq := Nat.lt_succ_iff_lt_or_eq.mp hyp
  · exact h.2 y hy hym hLt
  · rw [hInv.keys.matchQuestion_eq hy hq (.inr ⟨hym.trans hm.symm, hEq.trans hp.symm⟩)]
    exact hc

theorem InOrder.spawn (h : InOrder S) (hInv : Inv n S.shared) {job j : Job}
    (hSpawn : Spawn S.shared job j) (hArms : Arms j m p)
    (hNone : (∃ host code, job = .resumeMatch host code) ∨ job = .recoverRunningMatches →
      ∀ q ∈ S.shared.db.matchQuestions, q.matchId = m → q.isOpen = false) :
    ClosedBelow S.shared m p := by
  cases hSpawn with
  | first host code x hx =>
    cases hArms
    exact closedBelow_first hInv hx
  | resumed host code _ _ hNext =>
    cases hArms
    exact hNext.closedBelow hInv (hNone (.inl ⟨host, code, rfl⟩))
  | recovered _ _ hNext =>
    cases hArms
    exact hNext.closedBelow hInv (hNone (.inr rfl))
  | gap _ _ p₀ _ _ hStarted hClosed =>
    cases hArms
    obtain ⟨q, hq, rfl, rfl, hs⟩ := hStarted
    exact (h.rows q hq hs).succ hInv hClosed
  | timer => cases hArms
  | restarted => cases hArms
  | rescheduled => cases hArms
  | overdue => cases hArms

theorem armsUnopened_spec {pid : Nat} {d : Decision} {t : Task} {o : Op}
    {k : Except Exn o.Res → Coro Ret} (h : armsUnopened S (.op pid d) = true)
    (hProc : S.procs[pid]? = some ⟨t, .call o k⟩) (ho : o.launches = some (.armQuestion m p))
    (hJob : (∃ host code, t.job = .resumeMatch host code) ∨ t.job = .recoverRunningMatches) :
    ∀ q ∈ S.shared.db.matchQuestions, q.matchId = m → q.isOpen = false := by
  intro q hq hm
  simp only [armsUnopened, hProc, ho] at h
  obtain ⟨host, code, hEq⟩ | hEq := hJob
  all_goals
    simp only [hEq, List.all_eq_true, decide_eq_true_eq] at h
    exact (h q hq).resolve_left fun hne => hne hm

theorem inOrder_tasks (hS : Held S) (h : InOrder S) (hCond : armsUnopened S l = true)
    {t : Task} (hNew : Launched S l t) (hArms : Arms t.job m p) : ClosedBelow S.shared m p := by
  cases hNew with
  | created pid d t₀ o k j hProc ho hSpawn =>
    refine h.spawn hS.inv hSpawn hArms fun hJob => ?_
    obtain ⟨m, p⟩ | ⟨m, p, s⟩ := hArms
    · exact armsUnopened_spec hCond hProc ho hJob
    · generalize t₀.job = job at hSpawn hJob
      cases hSpawn with
      | gap _ _ _ _ hCloses =>
        obtain ⟨host, code, rfl⟩ | rfl := hJob
        · cases hCloses
        · cases hCloses
  | requested r j hReq => cases hArms <;> cases hReq
  | booted r => cases hArms

theorem inOrder_rows (hS : Held S) (h : InOrder S) (hStep : service.step S l = some S')
    {q' : MatchQuestion} (hq' : q' ∈ S'.shared.db.matchQuestions) (hs : q'.startedAt.isSome) :
    ClosedBelow S.shared q'.matchId q'.position := by
  obtain hSame | ⟨pid, t, hC⟩ := step_cases hS hStep
  · exact h.rows q' (hSame.matchQuestions ▸ hq') hs
  · rw [hC.db] at hq'
    obtain ⟨q, hq, hMove⟩ | ⟨-, hNone⟩ := hC.shape.question_back hS.inv hq'
    · cases hMove with
      | same => exact h.rows q' hq hs
      | armed startedAt deadlineAt hArms =>
        obtain ⟨k, hProc⟩ := hC.proc
        exact h.tasks _ (List.mem_of_getElem? hProc) _ _ hArms
      | closed closedAt _ _ hStarted => exact h.rows q hq hStarted
      | extended deadlineAt => exact h.rows q hq hs
    · rw [hNone] at hs
      cases hs

theorem inOrder_step (hS : Held S) (h : InOrder S) (hCond : armsUnopened S l = true)
    (hStep : service.step S l = some S') : InOrder S' := by
  have hLater := step_later hS hStep
  constructor
  · intro pr hpr m p hArms
    obtain ⟨q, hq⟩ := List.mem_iff_getElem?.mp hpr
    obtain ⟨pr₀, hOld, hTask⟩ | ⟨-, -, hNew⟩ := step_proc hS hStep hq
    · exact (h.tasks pr₀ (List.mem_of_getElem? hOld) m p (hTask ▸ hArms)).later hLater
    · exact (inOrder_tasks hS h hCond hNew hArms).later hLater
  · intro q' hq' hs
    exact (inOrder_rows hS h hStep hq' hs).later hLater

theorem inOrder_reach (h : service.Reach (fun S l => armsUnopened S l = true) (initial seed) S) :
    InOrder S := by
  induction h with
  | refl =>
    constructor
    · intro pr hpr
      cases hpr
    · intro q hq
      cases hq
  | tail hReach hCond hStep ih => exact inOrder_step (held_of_reach hReach) ih hCond hStep

theorem InOrder.not_lt (h : InOrder S) {q q' : MatchQuestion}
    (hq : q ∈ S.shared.db.matchQuestions) (hq' : q' ∈ S.shared.db.matchQuestions)
    (hMatch : q.matchId = q'.matchId) (hOpen : q.isOpen = true) (hOpen' : q'.isOpen = true) :
    ¬q.position < q'.position := by
  intro hLt
  obtain ⟨hStarted, -⟩ := Bool.and_eq_true_iff.mp hOpen'
  obtain ⟨-, hUnclosed⟩ := Bool.and_eq_true_iff.mp hOpen
  have hClosed := (h.rows q' hq' hStarted).2 q hq hMatch hLt
  rw [Option.isNone_iff_eq_none.mp hUnclosed] at hClosed
  cases hClosed

/-- While no resume and no recovery arms a question beside an open one, at most
one question of a match is open. -/
theorem one_open_question
    (h : service.Reach (fun S l => armsUnopened S l = true) (initial seed) S) (m : Id) :
    (S.shared.db.openQuestions m).length ≤ 1 := by
  have hOrder := inOrder_reach h
  have hApart := (held_of_reach h).inv.keys.matchQuestions.filter
    (fun q => decide (q.matchId = m ∧ q.isOpen))
  by_contra hTwo
  match hOpen : S.shared.db.openQuestions m with
  | [] => simp [hOpen] at hTwo
  | [q] => simp [hOpen] at hTwo
  | q :: q' :: rest =>
    have hMem : ∀ x ∈ [q, q'], x ∈ S.shared.db.matchQuestions ∧ x.matchId = m ∧ x.isOpen = true := by
      intro x hx
      have hx' : x ∈ S.shared.db.openQuestions m := by
        rw [hOpen]
        simp only [List.mem_cons, List.not_mem_nil, or_false] at hx ⊢
        exact hx.imp_right .inl
      simpa [Db.openQuestions] using hx'
    obtain ⟨hq, hm, ho⟩ := hMem q (by simp)
    obtain ⟨hq', hm', ho'⟩ := hMem q' (by simp)
    have hLe := hOrder.not_lt hq hq' (hm.trans hm'.symm) ho ho'
    have hGe := hOrder.not_lt hq' hq (hm'.trans hm.symm) ho' ho
    have hNe : ¬(q.matchId = q'.matchId ∧ q.position = q'.position) := by
      rw [Db.openQuestions] at hOpen
      rw [hOpen] at hApart
      exact ((List.pairwise_cons.mp hApart).1 q' List.mem_cons_self).2
    exact hNe ⟨hm.trans hm'.symm, by omega⟩

end

theorem one_open_question_opening : ∃ S : SysState,
    S.shared.db.openQuestions 54 ≠ [] ∧ (S.shared.db.openQuestions 54).length ≤ 1 := by
  have hRun : (service.runWhile armsUnopened (initial Demo.seed) Demo.opening).any
      (fun S => S.shared.db.openQuestions 54 ≠ []) = true := by
    decide +kernel
  obtain ⟨S, hReach, hS⟩ := Machine.Reach.exists_of_runWhile hRun
  exact ⟨S, of_decide_eq_true hS, one_open_question hReach 54⟩

/-- Question 1 reaches its deadline and its timer is late. The host pauses, with no
time left on record, and resumes: question 2 is armed beside question 1. -/
theorem two_open_after_resume : ∃ S, service.Reach (fun _ _ => True) (initial Demo.seed) S ∧
    (S.shared.db.openQuestions 54).map (·.position) = [1, 2] := by
  have hRun : (service.run (initial Demo.seed)
      (Demo.opening ++ Demo.calls 3 1 100 ++ [.env (.tick 20000000)] ++
        [.env (.request 0 (.pauseMatch 7 "AB"))] ++ Demo.calls 4 9 110 ++
        [.env (.request 0 (.resumeMatch 7 "AB"))] ++ Demo.calls 5 10 120 ++
        Demo.calls 6 15 130)).any
      (fun S => (S.shared.db.openQuestions 54).map (·.position) = [1, 2]) = true := by
    decide +kernel
  obtain ⟨S, hReach, hS⟩ := Machine.Reach.exists_of_run hRun
  exact ⟨S, hReach, of_decide_eq_true hS⟩

end LiveQuiz
