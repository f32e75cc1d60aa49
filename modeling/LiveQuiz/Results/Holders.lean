import LiveQuiz.Protocol.Scheduler
import LiveQuiz.Results.Courses

/-! # Every running match is held

The first unclosed question of a running match has its program: a start or a resume on its
way to create the task, a task that arms or closes the question, the task that has closed the
question before it, or an `end_match`. A step that lets go of the match either hands it to
another such program or leaves nothing to do.
-/

namespace LiveQuiz

open Coroutine

set_option autoImplicit false

/-- The first unclosed question of the match is the one at position `b`. -/
structure Frontier (w : World) (m : Id) (b : Nat) : Prop where
  unclosed : ∃ q ∈ w.db.matchQuestions, q.matchId = m ∧ q.position = b ∧ q.closedAt = none
  below : ClosedBelow w m b

def Running (w : World) (m : Id) : Prop := ∃ x ∈ w.db.matches', x.id = m ∧ x.status = .running

/-- In this phase the program leads to the task for position `b`. -/
def Course.brings (b : Nat) (job : Job) : Course → Prop
  | .tries _ _ _ => job.position = some b
  | .hands p _ => p = none ∨ p = some b
  | .ends _ _ => True
  | _ => False

section

variable {w : World} {m : Id} {b b' n pid : Nat} {job : Job} {room count : Option Nat}

theorem Frontier.unique (h : Frontier w m b) (h' : Frontier w m b') : b = b' := by
  obtain ⟨q, hq, hm, rfl, hOpen⟩ := h.unclosed
  obtain ⟨q', hq', hm', rfl, hOpen'⟩ := h'.unclosed
  by_contra hNe
  obtain hLt | hLt := Nat.lt_or_gt_of_ne hNe
  · have hClosed := h'.below.2 q hq hm hLt
    simp [hOpen] at hClosed
  · have hClosed := h.below.2 q' hq' hm' hLt
    simp [hOpen'] at hClosed

theorem Frontier.not_allClosed (h : Frontier w m b) : ¬AllClosed w m := by
  obtain ⟨q, hq, hm, -, hOpen⟩ := h.unclosed
  intro hAll
  have hClosed := hAll.2 q hq hm
  simp [hOpen] at hClosed

theorem Frontier.row (hInv : Inv n w) (h : Frontier w m b) {row : Option MatchQuestion}
    (hRow : row = LockQuery.find w.db (.questionAt m b)) : row.any (·.closedAt.isNone) = true := by
  obtain ⟨q, hq, hm, hb, hOpen⟩ := h.unclosed
  cases hFind : LockQuery.find w.db (.questionAt m b) with
  | none =>
    have := List.find?_eq_none.mp hFind q hq
    simp [hm, hb] at this
  | some q' =>
    have hq' := List.mem_of_find?_eq_some hFind
    have hAt : q'.matchId = m ∧ q'.position = b := by simpa using List.find?_some hFind
    have hEq := hInv.keys.matchQuestion_eq hq' hq (.inr ⟨hAt.1.trans hm.symm, hAt.2.trans hb.symm⟩)
    rw [hRow, hFind, hEq]
    simp [hOpen]

theorem Running.row (hInv : Inv n w) (h : Running w m) {row : Option Match}
    (hRow : row = w.db.matches'.find? (·.id = m)) : ∃ x, row = some x ∧ x.status = .running := by
  obtain ⟨x, hx, hId, hStatus⟩ := h
  cases hFind : w.db.matches'.find? (·.id = m) with
  | none =>
    have := List.find?_eq_none.mp hFind x hx
    simp [hId] at this
  | some x' =>
    have hId' : x'.id = m := by simpa using List.find?_some hFind
    have hEq := hInv.keys.match_eq (List.mem_of_find?_eq_some hFind) hx (.inl (hId'.trans hId.symm))
    exact ⟨x', hRow.trans hFind, hEq ▸ hStatus⟩

theorem HasRoom.row {i : Id} (h : HasRoom w (some i)) {row : Option Room}
    (hRow : row = w.db.rooms.find? (·.id = i)) : ∃ r ∈ w.db.rooms, row = some r ∧ r.id = i := by
  obtain ⟨r, hr, hId⟩ := h i rfl
  cases hFind : w.db.rooms.find? (·.id = i) with
  | none =>
    have := List.find?_eq_none.mp hFind r hr
    simp [hId] at this
  | some r' =>
    exact ⟨r', List.mem_of_find?_eq_some hFind, hRow.trans hFind, by simpa using List.find?_some hFind⟩

theorem Frontier.next (hInv : Inv n w) (h : Frontier w m b)
    (hClosed : ∀ q ∈ w.db.matchQuestions, q.closedAt.isSome → q.startedAt.isSome)
    (hNone : ∀ q ∈ w.db.matchQuestions, q.matchId = m → q.isOpen = false)
    {row : Option MatchQuestion} (hRow : row = Query.run w.db (.nextUnstarted m)) :
    ∃ next, row = some next ∧ next.position = b := by
  obtain ⟨q, hq, hm, hb, hOpen⟩ := h.unclosed
  have hUnstarted : q.startedAt.isNone = true := by
    have := hNone q hq hm
    rw [MatchQuestion.isOpen, hOpen] at this
    simpa using this
  cases hRun : Query.run w.db (.nextUnstarted m) with
  | none =>
    have hEmpty := minBy?_none hRun
    have := List.filter_eq_nil_iff.mp hEmpty q hq
    simp [hm, hUnstarted] at this
  | some next =>
    refine ⟨next, hRow.trans hRun, ?_⟩
    have hNext := run_nextUnstarted hRun
    obtain ⟨hMem, hProp⟩ := List.mem_filter.mp (minBy?_spec hRun).1
    have hOf : next.matchId = m ∧ next.startedAt.isNone = true := by simpa using hProp
    have hUnclosed : next.closedAt = none := by
      cases hc : next.closedAt with
      | none => rfl
      | some c =>
        have := hClosed next hMem (by rw [hc]; rfl)
        rw [Option.isNone_iff_eq_none.mp hOf.2] at this
        cases this
    exact Frontier.unique ⟨⟨next, hMem, hOf.1, rfl, hUnclosed⟩, hNext.closedBelow hInv hNone⟩ h

end

/-- What the programs of a run rely on. -/
structure InHand (m : Id) (Seen : Id → List Question → Prop) (S : SysState) : Prop where
  held : Held S
  order : InOrder S
  noGap : NoGap S
  outline : Outlined Seen S.shared.db
  registry : Registry S
  marked : ∀ q, S.shared.cancelling q = true → ∃ i, Attending S i q
  up : ∀ r, S.shared.phase r ≠ .crashed
  courses : Courses m S

/-- A program on its way to the task for position `b`, which nothing keeps from going on. -/
def Carries (S : SysState) (m : Id) (b pid : Nat) : Prop :=
  ∃ t prog s, S.procs[pid]? = some ⟨t, prog⟩ ∧ t.job.mayHold m = true ∧
    Course.Walks m t.job Course.over s prog ∧ s.Fits m S.shared pid t.job ∧ s.brings b t.job ∧
    S.shared.cancelling pid = false

section

variable {Seen : Id → List Question → Prop} {S S' : SysState} {l : SysLabel} {pid b : Nat}
  {t : Task} {m : Id} {o : Op} {k : Except Exn o.Res → Coro Ret} {k' : Except Exn Unit → Coro Ret}
  {d : Decision} {out : Answer o} {prog : Coro Ret}

theorem Job.mayHold_tends {job : Job} (h : job.mayHold m = true) : job.tends = true := by
  cases job <;> first | rfl | cases h

/-- A reply does not turn a program away from the first unclosed question of a running match. -/
theorem brings_tries {ws : List Write} {room count : Option Nat} {v : o.Res}
    (hW : InHand m Seen S) (hRunning : Running S.shared m) (hFront : Frontier S.shared m b)
    (hHold : t.job.mayHold m = true) (hExec : exec S.shared t pid S.procs.length o d = some out)
    (hr : out.result = .ok v) (hc : o ≠ .commit) (hReg : o.regular S.shared pid t.job = true)
    (hAllowed : (Course.tries ws room count).allows m t.job o)
    (h : (Course.tries ws room count).Fits m S.shared pid t.job)
    (hBrings : (Course.tries ws room count).brings b t.job) :
    ((Course.tries ws room count).after m t.job o v).brings b t.job := by
  obtain ⟨-, hWrites, -, -, -, hRoom, -⟩ := h
  cases o with
  | utcnow | nextId | sleepUntil _ => exact hBrings
  | flush ws' => exact hBrings
  | commit => exact absurd rfl hc
  | selectForUpdate q =>
    have hRow := lock_found hExec hr
    cases q with
    | questionAt i p =>
      obtain ⟨rfl, rfl, hPos⟩ := hAllowed
      obtain rfl : p = b := Option.some.inj (hPos.symm.trans hBrings)
      rw [view_nil hWrites] at hRow
      simp only [Course.after, hFront.row hW.held.inv hRow, if_true]
      exact hBrings
    | _ => exact hAllowed.elim
  | select q =>
    have hRow := selected hExec hr
    cases q with
    | getMatch i =>
      obtain ⟨rfl, rfl⟩ := hAllowed
      rw [view_nil hWrites] at hRow
      obtain ⟨x, rfl, hStatus⟩ := hRunning.row hW.held.inv hRow
      simp only [Course.after, hStatus, if_true]
      exact hBrings
    | getRoom i =>
      obtain ⟨rfl, rfl⟩ := hAllowed
      rw [view_nil hWrites] at hRow
      obtain ⟨r, -, rfl, -⟩ := hRoom.row hRow
      exact hBrings
    | getQuestion i =>
      obtain rfl : ws = [] := hAllowed
      rw [view_nil hWrites] at hRow
      have hStored : S.shared.db.questions.any (·.id = i) = true := by
        simpa [Op.regular, Job.mayHold_tends hHold] using hReg
      have hSome : v.isNone = false := by
        obtain ⟨x, hx, hId⟩ := List.any_eq_true.mp hStored
        have hFound : (S.shared.db.questions.find? (·.id = i)).isSome :=
          List.find?_isSome.mpr ⟨x, hx, hId⟩
        rw [hRow]
        simp only [Query.run, Option.isNone_map]
        simpa using hFound
      simp only [Course.after, hSome, Bool.false_eq_true, false_and, if_false]
      exact hBrings
    | getOptions i => exact hBrings
    | questionsOfMatch i => exact hBrings
    | _ => exact hAllowed.elim
  | _ => exact hAllowed.elim

theorem brings_ends {ws : List Write} {room : Option Id} {v : o.Res}
    (hW : InHand m Seen S) (hRunning : Running S.shared m)
    (hExec : exec S.shared t pid S.procs.length o d = some out) (hr : out.result = .ok v)
    (hc : o ≠ .commit) (hReg : o.regular S.shared pid t.job = true)
    (hAllowed : (Course.ends ws room).allows m t.job o)
    (h : (Course.ends ws room).Fits m S.shared pid t.job) :
    ((Course.ends ws room).after m t.job o v).brings b t.job := by
  obtain ⟨-, hWrites, hRoom⟩ := h
  cases o with
  | utcnow | nextId | select _ => trivial
  | flush ws' => trivial
  | commit => exact absurd rfl hc
  | selectForUpdate q =>
    have hRow := lock_found hExec hr
    cases q with
    | matchById i =>
      obtain ⟨rfl, rfl⟩ := hAllowed
      rw [view_nil hWrites] at hRow
      obtain ⟨x, rfl, hStatus⟩ := hRunning.row hW.held.inv hRow
      have hNot : x.status ≠ .completed := by simp [hStatus]
      simp only [Course.after, hNot, if_false]
      trivial
    | roomById i =>
      obtain ⟨rfl, rfl⟩ := hAllowed
      rw [view_nil hWrites] at hRow
      obtain ⟨r, hMem, rfl, hId⟩ := hRoom.row hRow
      have hAdmits : t.job.admits r.hostId = true := by
        have := List.all_eq_true.mp hReg r hMem
        simpa [hId] using this
      simp only [Course.after, Option.any_some, hAdmits, if_true]
      trivial
    | _ => exact hAllowed.elim
  | _ => exact hAllowed.elim

theorem brings_hands {p count : Option Nat} {v : o.Res} (hW : InHand m Seen S)
    (hFront : Frontier S.shared m b) (hExec : exec S.shared t pid S.procs.length o d = some out)
    (hr : out.result = .ok v) (ho : o.schedules = false) (hReg : o.regular S.shared pid t.job = true)
    (hAllowed : (Course.hands p count).allows m t.job o)
    (h : (Course.hands p count).Fits m S.shared pid t.job)
    (hBrings : (Course.hands p count).brings b t.job) :
    ((Course.hands p count).after m t.job o v).brings b t.job := by
  obtain ⟨hWrites, -, -, -, hLeads⟩ := h
  cases o with
  | createTask | setActive | cancelActive => cases ho
  | select q =>
    cases q with
    | nextUnstarted i =>
      obtain ⟨rfl, rfl⟩ := hAllowed
      have hRow := selected hExec hr
      rw [view_nil hWrites] at hRow
      have hResume : t.job.isResume = true := by
        generalize t.job = job at hLeads
        generalize hNone : (none : Option Nat) = p at hLeads
        cases hLeads with
        | start => cases hNone
        | resume => rfl
        | task _ hTask =>
          cases job <;> first | exact absurd hNone (Option.some_ne_none _).symm | cases hTask
      have hShut : ∀ q ∈ S.shared.db.matchQuestions, q.matchId = i → q.isOpen = false := by
        have hAll : ∀ q ∈ S.shared.db.matchQuestions, ¬q.matchId = i ∨ q.isOpen = false := by
          simpa [Op.regular, hResume] using hReg
        exact fun q hq hm => (hAll q hq).resolve_left fun hNe => hNe hm
      obtain ⟨next, rfl, hPos⟩ := hFront.next hW.held.inv hW.noGap.closed hShut hRow
      exact .inr (congrArg some hPos)
    | _ => exact hBrings
  | sleepUntil | selectForUpdate | flush | commit | rollback => exact hAllowed.elim
  | _ => exact hBrings

theorem mayHold_of_question {job : Job} (h : job.question? = some m) : job.mayHold m = true := by
  cases job <;> first | exact decide_eq_true h | cases h

theorem InHand.uncancelled (hW : InHand m Seen S) (hProc : S.procs[pid]? = some ⟨t, prog⟩)
    (hJob : t.job.question? = none) : S.shared.cancelling pid = false := by
  cases hCancel : S.shared.cancelling pid with
  | false => rfl
  | true =>
    obtain ⟨i, pr, hq, hQuestion⟩ := hW.marked pid hCancel
    rw [hProc] at hq
    cases hq
    rw [hJob] at hQuestion
    cases hQuestion

theorem fresh_uncancelled (hW : InHand m Seen S) (hStep : service.step S l = some S') :
    S'.shared.cancelling S.procs.length = false := by
  cases hCancel : S'.shared.cancelling S.procs.length with
  | false => rfl
  | true =>
    have hNot : ∀ i, ¬Attending S i S.procs.length := by
      rintro i ⟨pr, hq, -⟩
      have := (List.getElem?_eq_some_iff.mp hq).1
      omega
    obtain hOld | ⟨-, -, -, -, -, i, -, -, hAtt, -⟩ := step_cancelling hW.registry hStep hCancel
    · obtain ⟨i, hAtt⟩ := hW.marked _ hOld
      exact absurd hAtt (hNot i)
    · exact absurd hAtt (hNot i)

theorem launched_of (hS : Held S) (hStep : service.step S l = some S')
    {pr : Proc Op Op.Res Exn Ret Task} (hq : S'.procs[S.procs.length]? = some pr) :
    Launched S l pr.task ∧ pr.prog = jobBody pr.task.job := by
  have hNone : S.procs[S.procs.length]? = none := List.getElem?_eq_none le_rfl
  obtain ⟨hOld, -⟩ | ⟨d, t, o, k, out, -, hOld, -⟩ | ⟨-, hBody, hNew⟩ := step_procs hS hStep hq
  · rw [hNone] at hOld
    cases hOld
  · rw [hNone] at hOld
    cases hOld
  · exact ⟨hNew, hBody⟩

theorem fresh_carries (hW : InHand m Seen S) (hCond : keepsHold S l = true)
    (hStep : service.step S l = some S') (hq : S'.procs[S.procs.length]? = some (service.start t))
    (hJob : t.job.question? = some m) (hPos : t.job.position = some b) :
    Carries S' m b S.procs.length := by
  have hHold := mayHold_of_question hJob
  have hNew := (launched_of hW.held hStep hq).1
  have hFits := fits_start hW.held hW.order (keepsHold_armsUnopened hCond) hStep hNew hHold
  refine ⟨t, jobBody t.job, Course.start t.job, hq, hHold, Course.jobBody_walks hHold, hFits, ?_,
    fresh_uncancelled hW hStep⟩
  unfold Course.start
  rw [if_pos (by rw [hJob]; rfl)]
  exact hPos

theorem keepsHold_call (hCond : keepsHold S (.op pid d) = true)
    (hProc : S.procs[pid]? = some ⟨t, .call o k⟩) :
    o.regular S.shared pid t.job = true ∧ o.heeded S.shared pid t.job d = true := by
  have h := (Bool.and_eq_true_iff.mp hCond).2
  rw [hProc] at h
  exact Bool.and_eq_true_iff.mp h

theorem scheduled_carries {i : Id} {j : Job} (hW : InHand m Seen S)
    (hCond : keepsHold S (.op pid d) = true) (hStep : service.step S (.op pid d) = some S')
    (hProc : S.procs[pid]? = some ⟨t, .call (.setActive i j) k'⟩)
    (hq : S'.procs[S.procs.length]? = some (service.start ⟨t.replica, j⟩))
    (hJob : j.question? = some m) (hFront : Frontier S.shared m b) :
    Carries S' m b S.procs.length := by
  have hReq : Spawn S.shared t.job j ∧ j.question? = some i := hW.held.req sound hProc
  obtain rfl : i = m := Option.some.inj (hReq.2.symm.trans hJob)
  obtain ⟨q, hq', hAt⟩ := List.any_eq_true.mp (keepsHold_call hCond hProc).1
  obtain ⟨hm, hPos, hOpen⟩ : q.matchId = i ∧ j.position = some q.position ∧ q.closedAt = none := by
    simpa using hAt
  obtain ⟨p, hPos', hBelow⟩ := hW.order.launched hW.held (keepsHold_armsUnopened hCond)
    (launched_of hW.held hStep hq).1 hJob
  obtain rfl : p = q.position := Option.some.inj (hPos'.symm.trans hPos)
  obtain rfl : q.position = b := Frontier.unique ⟨⟨q, hq', hm, rfl, hOpen⟩, hBelow⟩ hFront
  exact fresh_carries hW hCond hStep hq hJob hPos

theorem own_step (hStep : service.step S (.op pid d) = some S')
    (hProc : S.procs[pid]? = some ⟨t, .call o k⟩) :
    ∃ out, exec S.shared t pid S.procs.length o d = some out ∧ S'.shared = out.shared ∧
      S'.procs[pid]? = some ⟨t, k out.result⟩ ∧
      ∀ u, out.spawned = some u → S'.procs[S.procs.length]? = some (service.start u) := by
  obtain ⟨out, hExec, rfl⟩ : ∃ out, exec S.shared t pid S.procs.length o d = some out ∧
      (⟨out.shared, S.procs.set pid ⟨t, k out.result⟩ ++ out.spawned.toList.map service.start⟩ :
        SysState) = S' := by
    simpa [Machine.step, hProc, Machine.advance, service] using hStep
  have hLt := (List.getElem?_eq_some_iff.mp hProc).1
  refine ⟨out, hExec, rfl, ?_, fun u hu => spawned_at hu⟩
  rw [List.getElem?_append_left (by simpa using hLt), List.getElem?_set_self hLt]

/-- Nothing keeps a call of a program that carries a match from going through, but that a
fan-out may fail. -/
theorem carries_goes {s : Course} (hW : InHand m Seen S) (hHold : t.job.mayHold m = true)
    (hExec : exec S.shared t pid S.procs.length o d = some out)
    (hHeed : o.heeded S.shared pid t.job d = true) (hAllowed : s.allows m t.job o)
    (h : s.Fits m S.shared pid t.job) (hBrings : s.brings b t.job)
    (hLive : o.suspends = true → S.shared.cancelling pid = false) :
    perform S.shared t pid S.procs.length o d = some out ∨
      (o.isBroadcast = true ∧ out.result = .error .fault) := by
  have hTends := Job.mayHold_tends hHold
  have hFault : o.isBroadcast = true ∨ d.fault = .none := by
    cases o with
    | broadcast => exact .inl rfl
    | redis c =>
      right
      have hOne : (S.shared.commits pid).length = 1 := by
        cases s with
        | hands p count => exact h.2.1
        | tries => exact hAllowed.elim
        | ends => exact hAllowed.elim
        | _ => exact hBrings.elim
      simpa [Op.heeded, hTends, hOne] using hHeed
    | _ => exact .inr (by simpa [Op.heeded, hTends] using hHeed)
  obtain hOk | ⟨hb, hErr, -⟩ := exec_unhindered hExec (hW.up _)
    (fun hc => by rw [hLive hc.1] at hc; cases hc.2) hFault
  · exact .inl hOk
  · exact .inr ⟨hb, hErr⟩

theorem perform_done (hHold : t.job.tends = true) (hReg : o.regular S.shared pid t.job = true)
    (h : perform S.shared t pid S.procs.length o d = some out) : ∃ v, out.result = .ok v := by
  by_cases ho : o.inside = true
  · exact perform_ok ho h
  · cases o with
    | commit => cases h; exact ⟨(), rfl⟩
    | rollback => cases h; exact ⟨(), rfl⟩
    | flush ws =>
      have hFree : violates ws (S.shared.view pid) = false := by
        simpa [Op.regular, hHold] using hReg
      simp only [perform, flushWrites, hFree, Bool.false_eq_true, if_false] at h
      split at h <;> cases h
      exact ⟨(), rfl⟩
    | _ => exact absurd rfl ho

theorem ending_carries (hW : InHand m Seen S) (hS' : Held S') (hCond : keepsHold S (.op pid d) = true)
    (hStep : service.step S (.op pid d) = some S')
    (hProc : S.procs[pid]? = some ⟨t, .call (.cancelActive m) k'⟩) {host : Option Id}
    (hJob : t.job = .endMatch m host) : Carries S' m b pid := by
  have hHold : t.job.mayHold m = true := by rw [hJob]; exact decide_eq_true rfl
  have hNone : t.job.question? = none := by rw [hJob]; rfl
  obtain ⟨s, hWalks, hFits⟩ := hW.courses pid _ hProc hHold
  obtain ⟨out, hExec, hShared, hProc', -⟩ := own_step hStep hProc
  have hNext := fits_next hW.held hS' hW.order hW.outline hProc hHold hStep hExec hShared hWalks.1
    hFits
  have hDone : out.result = .ok () := by
    obtain hOk | ⟨hb, -⟩ := exec_unhindered hExec (hW.up _) (by simp [Op.suspends]) (.inr (by
      simpa [Op.heeded, Job.mayHold_tends hHold] using (keepsHold_call hCond hProc).2))
    · cases hOk
      rfl
    · cases hb
  refine ⟨t, k' out.result, _, hProc', hHold, hWalks.2 out.result, hNext, ?_, ?_⟩
  · rw [hDone]
    have hAllowed := hWalks.1
    cases s with
    | asks ws => trivial
    | past =>
      have hQuestion := hFits.1
      rw [hNone] at hQuestion
      cases hQuestion
    | hands p count =>
      have hLeads := hFits.2.2.2.2
      dsimp only at hLeads
      rw [hJob] at hLeads
      cases hLeads with | task _ hTask => cases hTask
    | _ => exact hAllowed.elim
  · cases hCancel : S'.shared.cancelling pid with
    | false => rfl
    | true =>
      obtain hOld | ⟨-, -, -, -, -, i, -, -, ⟨pr, hq, hQuestion⟩, -⟩ :=
        step_cancelling hW.registry hStep hCancel
      · rw [hW.uncancelled hProc hNone] at hOld
        cases hOld
      · rw [hProc] at hq
        cases hq
        rw [hNone] at hQuestion
        cases hQuestion

theorem hands_allClosed {w : World} {p count : Option Nat}
    (hAllowed : (Course.hands p count).allows m t.job (.cancelActive m))
    (h : (Course.hands p count).Fits m w pid t.job) : AllClosed w m := by
  obtain ⟨-, -, hBelow, hCount, -⟩ := h
  obtain ⟨-, b, n, hb, hn, hLt⟩ := hAllowed
  obtain ⟨b', hb', hClosed⟩ := hBelow n hn
  obtain ⟨hMatch, hMost⟩ := hCount n hn
  obtain rfl : b = b' := Option.some.inj (hb.symm.trans hb')
  exact ⟨hMatch, fun q hq hm => hClosed.2 q hq hm (by have := hMost q hq hm; omega)⟩

theorem removed_carries (hW : InHand m Seen S) (hS' : Held S') (hCond : keepsHold S (.op pid d) = true)
    (hStep : service.step S (.op pid d) = some S') (hRunning : Running S.shared m)
    (hFront : Frontier S.shared m b)
    (hProc : S.procs[pid]? = some ⟨t, .call (.cancelActive m) k'⟩) : Carries S' m b pid := by
  have hReq : Cancels t.job m := hW.held.req sound hProc
  generalize hJob : t.job = job at hReq
  cases hReq with
  | host _ host => exact ending_carries hW hS' hCond hStep hProc hJob
  | pause host code =>
    obtain ⟨x, hx, hId, hStatus⟩ := hRunning
    have hReg := (keepsHold_call hCond hProc).1
    rw [hJob] at hReg
    have := List.all_eq_true.mp hReg x hx
    simp [hId, hStatus] at this
  | own _ _ hOwn =>
    have hQuestion : t.job.question? = some m := hJob ▸ hOwn
    obtain ⟨s, hWalks, hFits⟩ := hW.courses pid _ hProc (mayHold_of_question hQuestion)
    have hAllowed := hWalks.1
    cases s with
    | asks ws =>
      have hNone := hFits.1
      rw [hQuestion] at hNone
      cases hNone
    | hands p count => exact absurd (hands_allClosed hAllowed hFits) hFront.not_allClosed
    | past => exact absurd hFits.2.2 hFront.not_allClosed
    | _ => exact hAllowed.elim

theorem carries_other (hW : InHand m Seen S) (hS' : Held S') (hCond : keepsHold S l = true)
    (hStep : service.step S l = some S') (hRunning : Running S.shared m)
    (hFront : Frontier S.shared m b) (hOther : ∀ d, l ≠ .op pid d) (h : Carries S m b pid) :
    ∃ q, Carries S' m b q := by
  obtain ⟨t, prog, s, hProc, hHold, hWalks, hFits, hBrings, hLive⟩ := h
  have hPid := (List.getElem?_eq_some_iff.mp hProc).1
  obtain ⟨pr, hProc', -⟩ := step_task hStep hProc
  obtain rfl : pr = ⟨t, prog⟩ := by
    obtain ⟨hOld, -⟩ | ⟨d, -, -, -, -, hEq, -⟩ | ⟨hNew, -, -⟩ := step_procs hW.held hStep hProc'
    · exact Option.some.inj (hOld.symm.trans hProc)
    · exact absurd hEq (hOther d)
    · omega
  cases hCancel : S'.shared.cancelling pid with
  | false =>
    exact ⟨pid, t, prog, s, hProc', hHold, hWalks, hFits.other hW.held hStep hPid hOther, hBrings,
      hCancel⟩
  | true =>
    obtain hOld | ⟨q, d, u, o, k, i, rfl, hq, ⟨pr, hpr, hQuestion⟩, hCall⟩ :=
      step_cancelling hW.registry hStep hCancel
    · rw [hLive] at hOld
      cases hOld
    · rw [hProc] at hpr
      cases hpr
      obtain rfl : i = m := by
        have := mayHold_question hHold (by rw [hQuestion]; rfl)
        exact Option.some.inj (hQuestion.symm.trans this)
      obtain rfl | ⟨j, rfl, hNew⟩ := hCall
      · exact ⟨q, removed_carries hW hS' hCond hStep hRunning hFront hq⟩
      · have hReq : Spawn S.shared u.job j ∧ j.question? = some i := hW.held.req sound hq
        exact ⟨_, scheduled_carries hW hCond hStep hq hNew hReq.2 hFront⟩

theorem carries_own (hW : InHand m Seen S) (hS' : Held S') (hCond : keepsHold S (.op pid d) = true)
    (hStep : service.step S (.op pid d) = some S') (hRunning : Running S.shared m)
    (hFront : Frontier S.shared m b) (hProc : S.procs[pid]? = some ⟨t, .call o k⟩)
    (hc : o ≠ .commit) (h : Carries S m b pid) : ∃ q, Carries S' m b q := by
  obtain ⟨u, prog, s, hProc₀, hHold, hWalks, hFits, hBrings, hLive⟩ := h
  rw [hProc] at hProc₀
  cases hProc₀
  obtain ⟨out, hExec, hShared, hProc', hNew⟩ := own_step hStep hProc
  obtain ⟨hReg, hHeed⟩ := keepsHold_call hCond hProc
  have hNext := fits_next hW.held hS' hW.order hW.outline hProc hHold hStep hExec hShared hWalks.1
    hFits
  -- Unless the call is one of the scheduler's, the program is not cancelled by it.
  have hStays : (∀ i, o ≠ .cancelActive i) → (∀ i j, o ≠ .setActive i j) →
      ((courseMonitor m t.job).next s o out.result).brings b t.job → ∃ q, Carries S' m b q := by
    intro hRemoves hSets hOn
    refine ⟨pid, t, k out.result, _, hProc', hHold, hWalks.2 out.result, hNext, hOn, ?_⟩
    cases hCancel : S'.shared.cancelling pid with
    | false => rfl
    | true =>
      obtain hOld | ⟨q, d', u, o', k', i, hEq, hq, -, hCall⟩ :=
        step_cancelling hW.registry hStep hCancel
      · rw [hLive] at hOld
        cases hOld
      · cases hEq
        rw [hProc] at hq
        cases hq
        obtain rfl | ⟨j, rfl, -⟩ := hCall
        · exact absurd rfl (hRemoves i)
        · exact absurd rfl (hSets i j)
  obtain hOk | ⟨hb, hErr⟩ := carries_goes hW hHold hExec hHeed hWalks.1 hFits hBrings fun _ => hLive
  · obtain ⟨v, hr⟩ := perform_done (Job.mayHold_tends hHold) hReg hOk
    have hAllowed := hWalks.1
    cases s with
    | tries ws room count =>
      refine hStays (fun i hEq => by subst hEq; exact hAllowed.elim)
        (fun i j hEq => by subst hEq; exact hAllowed.elim) ?_
      rw [hr]
      exact brings_tries hW hRunning hFront hHold hExec hr hc hReg hAllowed hFits hBrings
    | ends ws room =>
      refine hStays (fun i hEq => by subst hEq; exact hAllowed.elim)
        (fun i j hEq => by subst hEq; exact hAllowed.elim) ?_
      rw [hr]
      exact brings_ends hW hRunning hExec hr hc hReg hAllowed hFits
    | hands p count =>
      cases o with
      | cancelActive i =>
        obtain rfl : i = m := hAllowed.1
        exact absurd (hands_allClosed hAllowed hFits) hFront.not_allClosed
      | setActive i j =>
        obtain rfl : i = m := hAllowed
        have hReq : Spawn S.shared t.job j ∧ j.question? = some i := hW.held.req sound hProc
        cases hOk
        exact ⟨_, scheduled_carries hW hCond hStep hProc (hNew _ rfl) hReq.2 hFront⟩
      | createTask j =>
        obtain ⟨p', rfl, rfl⟩ := hAllowed
        obtain rfl : p' = b := by simpa [Course.brings] using hBrings
        cases hOk
        exact ⟨_, fresh_carries hW hCond hStep (hNew _ rfl) rfl rfl⟩
      | _ =>
        refine hStays (by simp) (by simp) ?_
        rw [hr]
        exact brings_hands hW hFront hExec hr rfl hReg hAllowed hFits hBrings
    | _ => exact hBrings.elim
  · cases s with
    | hands p count =>
      cases o with
      | broadcast code message =>
        refine hStays (by simp) (by simp) ?_
        rw [hErr]
        exact hBrings
      | _ => cases hb
    | tries => cases o <;> first | exact hWalks.1.elim | cases hb
    | ends => cases o <;> first | exact hWalks.1.elim | cases hb
    | _ => exact hBrings.elim

end

section

variable {C : SysState → SysLabel → Prop} {seed : Seed} {S S' : SysState} {m : Id}

theorem marked_reach (h : service.Reach C (initial seed) S) :
    ∀ q, S.shared.cancelling q = true → ∃ i, Attending S i q := by
  induction h with
  | refl =>
    intro q hq
    cases hq
  | tail hReach _ hStep ih =>
    intro q hq
    obtain hOld | ⟨-, -, -, -, -, i, -, -, hAtt, -⟩ :=
      step_cancelling (registry_reach hReach) hStep hq
    · obtain ⟨i, hAtt⟩ := ih q hOld
      exact ⟨i, hAtt.step hStep⟩
    · exact ⟨i, hAtt.step hStep⟩

theorem env_up {w : World} {n : Nat} {e : EnvAction} {out : World × Option Task}
    (h : env w n e = some out) (he : ∀ r, e ≠ .crash r) (hUp : ∀ r, w.phase r ≠ .crashed) (r : Nat) :
    out.1.phase r ≠ .crashed := by
  cases e with
  | crash r' => exact absurd rfl (he r')
  | boot r' =>
    simp only [env] at h
    split at h <;> cases h
    by_cases hr : r = r'
    · simp [hr]
    · simpa [hr] using hUp r
  | request r' j =>
    simp only [env] at h
    split at h <;> cases h
    exact hUp r
  | createRoom room =>
    simp only [env] at h
    split at h <;> cases h
    exact hUp r
  | join participant =>
    simp only [env] at h
    split at h <;> cases h
    exact hUp r
  | edit e =>
    obtain ⟨db, -, rfl⟩ := Option.map_eq_some_iff.mp h
    exact hUp r
  | _ =>
    cases h
    exact hUp r

theorem up_reach (h : service.Reach (fun S l => keepsHold S l = true) (initial seed) S) (r : Nat) :
    S.shared.phase r ≠ .crashed := by
  induction h generalizing r with
  | refl => simp [initial, World.genesis]
  | tail _ hCond hStep ih =>
    obtain ⟨pid, d, t, o, k, out, -, -, hExec, rfl⟩ | ⟨e, out, rfl, hEnv, rfl⟩ :=
      Machine.step_cases hStep
    · rw [(exec_requests hExec).2]
      exact ih r
    · refine env_up (n := 0) hEnv ?_ ih r
      rintro r' rfl
      cases hCond

theorem courses_reach (h : service.Reach (fun S l => keepsHold S l = true) (initial seed) S) :
    Courses m S := by
  induction h with
  | refl =>
    intro pid pr hp
    cases hp
  | @tail S₁ S₂ l hReach hCond hStep ih =>
    have hFree := hReach.mono fun _ _ _ => trivial
    have hS := held_of_reach hReach
    exact courses_step hS (held_of_reach (hReach.tail hCond hStep))
      (inOrder_reach (hReach.mono fun _ _ => keepsHold_armsUnopened)) (outlined_reach hFree .refl)
      hCond hStep ih

theorem inHand_reach (h : service.Reach (fun S l => keepsHold S l = true) (initial seed) S) :
    InHand m (SeenBefore seed S) S := by
  have hFree := h.mono fun _ _ _ => trivial
  exact ⟨held_of_reach h, inOrder_reach (h.mono fun _ _ => keepsHold_armsUnopened),
    noGap_reach hFree, outlined_reach hFree .refl, registry_reach h, marked_reach h, up_reach h,
    courses_reach h⟩

end

section

variable {w w' : World} {m : Id} {b n pid : Nat} {job : Job} {ws : List Write}
  {Seen : Id → List Question → Prop}

theorem Closes.unique {p p' : Nat} (h : Closes job m p) (h' : Closes job m p') : p = p' := by
  cases h <;> cases h' <;> rfl

theorem QuestionMove.unclosed {q q' : MatchQuestion} (h : QuestionMove w pid job q q')
    (hNot : ¬Closes job q.matchId q.position) : q'.closedAt = q.closedAt := by
  cases h with
  | closed _ hCloses => exact absurd hCloses hNot
  | _ => rfl

theorem Frontier.back (hInv : Inv n w) (hC : Commit w pid job ws) (hDb : w'.db = applyAll ws w.db)
    (hNot : ∀ p, ¬Closes job m p) (hOld : ∀ q, .insertMatchQuestion q ∈ ws → q.matchId ≠ m)
    (hRunning : Running w m) (h : Frontier w' m b) : Frontier w m b := by
  obtain ⟨⟨q', hq', hm', hb', hOpen⟩, -, hBelow⟩ := h
  rw [hDb] at hq' hBelow
  obtain ⟨x, hx, hId, -⟩ := hRunning
  refine ⟨?_, ⟨x, hx, hId⟩, fun q hq hm hLt => ?_⟩
  · obtain ⟨q, hq, hMove⟩ | ⟨hIns, -⟩ := hC.question_back hInv hq'
    · have hOf := hMove.later.matchId.symm.trans hm'
      refine ⟨q, hq, hOf, hMove.later.position.symm.trans hb', ?_⟩
      rw [← hMove.unclosed fun hCloses => hNot _ (hOf ▸ hCloses), hOpen]
    · exact absurd hm' (hOld q' hIns)
  · obtain ⟨y, hy, hMove⟩ := hC.question_forth hInv hq
    rw [← hMove.unclosed fun hCloses => hNot _ (hm ▸ hCloses)]
    exact hBelow y hy (hMove.later.matchId.trans hm) (hMove.later.position ▸ hLt)

theorem running_of_updateWhere {i : Id} {status : RoomStatus} {endedAt : Option Micros}
    {rows : List Match} (hNe : i ≠ m)
    (h : ∃ x ∈ updateWhere Match.id i (Match.patch status endedAt) rows, x.id = m ∧ x.status = .running) :
    ∃ x ∈ rows, x.id = m ∧ x.status = .running := by
  obtain ⟨x, hx, hId, hStatus⟩ := h
  obtain ⟨hMem, -⟩ | ⟨y, -, hy, rfl⟩ := mem_updateWhere.mp hx
  · exact ⟨x, hMem, hId, hStatus⟩
  · exact absurd (hy.symm.trans hId) hNe

theorem Outlined.has (h : Outlined Seen w.db) {x : Match} (hx : x ∈ w.db.matches')
    {q : MatchQuestion} (hq : q ∈ w.db.matchQuestions) (hm : q.matchId = x.id) {p : Nat}
    (hOne : 1 ≤ p) (hLe : p ≤ q.position) :
    ∃ q' ∈ w.db.matchQuestions, q'.matchId = x.id ∧ q'.position = p := by
  obtain ⟨-, -, -, questions, -, hOutline⟩ := h x hx
  have hMem : (q.position, q.questionId) ∈ w.db.outline x.id :=
    List.mem_map.mpr ⟨q, List.mem_filter.mpr ⟨hq, decide_eq_true hm⟩, rfl⟩
  rw [hOutline] at hMem
  obtain ⟨i, hi, hEq⟩ := List.mem_mapIdx.mp hMem
  have hPos : i + 1 = q.position := congrArg Prod.fst hEq
  have hAt : p - 1 < questions.length := by omega
  have hIn : (p, questions[p - 1].id) ∈ w.db.outline x.id := by
    rw [hOutline]
    exact List.mem_mapIdx.mpr ⟨p - 1, hAt, by rw [show p - 1 + 1 = p by omega]⟩
  obtain ⟨q', hq', hEq'⟩ := List.mem_map.mp hIn
  obtain ⟨hMem', hOf⟩ := List.mem_filter.mp hq'
  exact ⟨q', hMem', of_decide_eq_true hOf, congrArg Prod.fst hEq'⟩

end

section

variable {Seen Seen' : Id → List Question → Prop} {S S' : SysState} {l : SysLabel} {pid b : Nat}
  {t : Task} {m : Id} {ws : List Write}

theorem commit_done (hW : InHand m Seen S) (hCond : keepsHold S l = true)
    (hStep : service.step S l = some S') (hC : Commits S l S' pid t) (hHold : t.job.mayHold m = true) :
    ∃ (d : Decision) (k : Except Exn Unit → Coro Ret) (out : Answer .commit), l = .op pid d ∧
      S.procs[pid]? = some ⟨t, .call .commit k⟩ ∧
      exec S.shared t pid S.procs.length .commit d = some out ∧ S'.shared = out.shared ∧
      S'.procs[pid]? = some ⟨t, k out.result⟩ ∧ out.result = .ok () ∧
      S'.shared.cancelling pid = false := by
  obtain ⟨d, rfl⟩ := hC.label
  obtain ⟨k, hProc⟩ := hC.proc
  obtain ⟨out, hExec, hShared, hProc', -⟩ := own_step hStep hProc
  have hFault : d.fault = .none := by
    simpa [Op.heeded, Job.mayHold_tends hHold] using (keepsHold_call hCond hProc).2
  cases hr : out.result with
  | error e =>
    have hSame := exec_commit_failed hExec (by rw [hFault]; simp) hr
    have hWal := hC.wal
    rw [hShared, hSame] at hWal
    simp at hWal
  | ok v =>
    refine ⟨d, k, out, rfl, hProc, hExec, hShared, hr ▸ hProc', hr, ?_⟩
    have hLive := (exec_ok hExec hr).2 rfl
    cases hCancel : S'.shared.cancelling pid with
    | false => rfl
    | true =>
      obtain hOld | ⟨q, d', u, o, k', i, hEq, hq, -, hCall⟩ :=
        step_cancelling hW.registry hStep hCancel
      · rw [hLive] at hOld
        cases hOld
      · cases hEq
        rw [hProc] at hq
        cases hq
        obtain h | ⟨j, h, -⟩ := hCall <;> cases h

theorem commit_brings {s : Course} {k : Except Exn Unit → Coro Ret} (hW : InHand m Seen S)
    (hS' : Held S') (hCond : keepsHold S l = true) (hStep : service.step S l = some S')
    (hC : Commits S l S' pid t) (hHold : t.job.mayHold m = true)
    (hProc : S.procs[pid]? = some ⟨t, .call .commit k⟩)
    (hWalks : Course.Walks m t.job Course.over s (.call .commit k))
    (hFits : s.Fits m S.shared pid t.job) (h : (s.after m t.job .commit ()).brings b t.job) :
    Carries S' m b pid := by
  obtain ⟨d, k', out, rfl, hProc', hExec, hShared, hDone, hr, hLive⟩ :=
    commit_done hW hCond hStep hC hHold
  rw [hProc] at hProc'
  cases hProc'
  have hNext := fits_next hW.held hS' hW.order hW.outline hProc hHold hStep hExec hShared hWalks.1
    hFits
  have hOn := hWalks.2 out.result
  rw [hr] at hNext hOn hDone
  exact ⟨t, k (.ok ()), _, hDone, hHold, hOn, hNext, h, hLive⟩

/-- A commit that leads to position `b` in whatever phase the program can be. -/
theorem commit_carries (hW : InHand m Seen S) (hS' : Held S') (hCond : keepsHold S l = true)
    (hStep : service.step S l = some S') (hC : Commits S l S' pid t) (hHold : t.job.mayHold m = true)
    (h : ∀ s : Course, s.allows m t.job .commit → s.Fits m S.shared pid t.job →
      (s.after m t.job .commit ()).brings b t.job) : Carries S' m b pid := by
  obtain ⟨k, hProc⟩ := hC.proc
  obtain ⟨s, hWalks, hFits⟩ := hW.courses pid _ hProc hHold
  exact commit_brings hW hS' hCond hStep hC hHold hProc hWalks hFits (h s hWalks.1 hFits)

theorem start_carries (hW : InHand m Seen S) (hW' : InHand m Seen' S') (hCond : keepsHold S l = true)
    (hStep : service.step S l = some S') (hC : Commits S l S' pid t) {row : Match}
    (hIns : .insertMatch row ∈ (S.shared.tx pid).writes) (hId : row.id = m)
    (hFront : Frontier S'.shared m b) : Carries S' m b pid := by
  obtain ⟨host, code, hJob⟩ := hC.shape.starts hIns
  have hNone : t.job.question? = none := by rw [hJob]; rfl
  have hFirst : b = 1 := by
    obtain ⟨q, hq, hm, hb, -⟩ := hFront.unclosed
    obtain ⟨x, hx, hxId⟩ := hW'.held.inv.matchOf q hq
    have hPos := hW'.held.inv.positive q hq
    by_contra hNe
    obtain ⟨y, hy, hym, hyp⟩ := hW'.outline.has hx hq hxId.symm le_rfl hPos
    have hym' : y.matchId = m := hym.trans (hxId.trans hm)
    have hStarted := hW'.noGap.closed y hy (hFront.below.2 y hy hym' (by omega))
    rw [hC.db] at hy
    obtain ⟨z, hz, hMove⟩ | ⟨-, hUnstarted⟩ := hC.shape.question_back hW.held.inv hy
    · obtain ⟨x₀, hx₀, hx₀Id⟩ := hW.held.inv.matchOf z hz
      have hFree := List.any_eq_false.mp (hW.held.inv.uncollided pid _ hIns) x₀ hx₀
      have hSame : x₀.id = row.id := hx₀Id.trans (hMove.later.matchId.symm.trans (hym'.trans hId.symm))
      simp [hSame] at hFree
    · rw [hUnstarted] at hStarted
      cases hStarted
  refine commit_carries hW hW'.held hCond hStep hC (by rw [hJob]; rfl) fun s hAllowed hFits => ?_
  cases s with
  | asks ws =>
    obtain ⟨-, rfl, -⟩ := hFits
    have hAny : (S.shared.tx pid).writes.any (Write.creates m) = true :=
      List.any_eq_true.mpr ⟨_, hIns, decide_eq_true hId⟩
    simp only [Course.after, Course.committed, hAny, if_true]
    exact .inr (congrArg some hFirst.symm)
  | tries ws room count =>
    have hQuestion := hFits.1
    rw [hNone] at hQuestion
    cases hQuestion
  | ends ws room =>
    obtain ⟨host', hEnd⟩ := hFits.1
    rw [hJob] at hEnd
    cases hEnd
  | shut =>
    have hNil : (S.shared.tx pid).writes = [] := hFits
    rw [hNil] at hIns
    cases hIns
  | past =>
    have hQuestion := hFits.1
    rw [hNone] at hQuestion
    cases hQuestion
  | _ => exact hAllowed.elim

theorem resume_carries (hW : InHand m Seen S) (hS' : Held S') (hCond : keepsHold S l = true)
    (hStep : service.step S l = some S') (hC : Commits S l S' pid t)
    (hRow : .updateMatch m .running none ∈ (S.shared.tx pid).writes)
    (hCreates : (S.shared.tx pid).writes.any (Write.creates m) = false) : Carries S' m b pid := by
  obtain ⟨host, code, hJob⟩ := hC.shape.resumes hRow
  have hNone : t.job.question? = none := by rw [hJob]; rfl
  refine commit_carries hW hS' hCond hStep hC (by rw [hJob]; rfl) fun s hAllowed hFits => ?_
  cases s with
  | asks ws =>
    obtain ⟨-, rfl, -⟩ := hFits
    simp only [Course.after, Course.committed, hCreates, Bool.false_eq_true, if_false, hRow, if_true]
    exact .inl rfl
  | tries ws room count =>
    have hQuestion := hFits.1
    rw [hNone] at hQuestion
    cases hQuestion
  | ends ws room =>
    obtain ⟨host', hEnd⟩ := hFits.1
    rw [hJob] at hEnd
    cases hEnd
  | shut =>
    have hNil : (S.shared.tx pid).writes = [] := hFits
    rw [hNil] at hRow
    cases hRow
  | past =>
    have hQuestion := hFits.1
    rw [hNone] at hQuestion
    cases hQuestion
  | _ => exact hAllowed.elim

theorem close_carries (hW : InHand m Seen S) (hW' : InHand m Seen' S') (hCond : keepsHold S l = true)
    (hStep : service.step S l = some S') (hC : Commits S l S' pid t) {q : MatchQuestion} {p : Nat}
    (hCloses : Closes t.job m p) (hq : q ∈ S.shared.db.matchQuestions) (hm : q.matchId = m)
    (hp : q.position = p) (hOpen : q.closedAt = none) (hStarted : q.startedAt.isSome)
    (hSilent : Silent S.shared pid) (hNe : (S.shared.tx pid).writes ≠ [])
    (hClosed : HasClosed S'.shared m p) (hFront : Frontier S'.shared m b) : Carries S' m b pid := by
  subst hm hp
  have hBelow := hW.order.rows q hq hStarted
  have hNext : b = q.position + 1 := by
    obtain ⟨y, hy, hym, rfl, hyOpen⟩ := hFront.unclosed
    have hAbove : q.position + 1 ≤ y.position := by
      by_contra hLt
      have hUpTo := (hBelow.later (step_later hW.held hStep)).succ hW'.held.inv hClosed
      have := hUpTo.2 y hy hym (by omega)
      simp [hyOpen] at this
    by_contra hFar
    obtain ⟨x, hx, hxId⟩ := hW'.held.inv.matchOf y hy
    obtain ⟨z, hz, hzm, hzp⟩ := hW'.outline.has hx hy hxId.symm (Nat.le_add_left 1 q.position) hAbove
    have hzClosed := hFront.below.2 z hz (hzm.trans (hxId.trans hym)) (by omega)
    rw [hC.db] at hz
    obtain ⟨z₀, hz₀, hMove⟩ | ⟨hIns, -⟩ := hC.shape.question_back hW.held.inv hz
    · have hOf : z₀.matchId = q.matchId := hMove.later.matchId.symm.trans (hzm.trans (hxId.trans hym))
      have hAt : z₀.position = q.position + 1 := hMove.later.position.symm.trans hzp
      have hzClosed₀ : z₀.closedAt.isSome := by
        rw [← hMove.unclosed fun hz => ?_]
        · exact hzClosed
        · rw [hOf] at hz
          have := hz.unique hCloses
          omega
      have := (hW.order.rows z₀ hz₀ (hW.noGap.closed z₀ hz₀ hzClosed₀)).2 q hq hOf.symm (by omega)
      simp [hOpen] at this
    · obtain ⟨x₀, hRow, -⟩ := hC.shape.inserted_matchQuestion hIns
      obtain ⟨host, code, hJob⟩ := hC.shape.starts hRow
      rw [hJob] at hCloses
      cases hCloses
  refine commit_carries hW hW'.held hCond hStep hC (mayHold_of_question hCloses.question)
    fun s hAllowed hFits => ?_
  cases s with
  | asks ws =>
    have hQuestion := hFits.1
    rw [hCloses.question] at hQuestion
    cases hQuestion
  | tries ws room count =>
    right
    have hSucc : t.job.successor = some (q.position + 1) := by
      generalize t.job = job at hCloses
      cases hCloses <;> rfl
    rw [hSucc, hNext]
  | ends ws room =>
    obtain ⟨host, hEnd⟩ := hFits.1
    rw [hEnd] at hCloses
    cases hCloses
  | shut => exact absurd hFits hNe
  | past => exact absurd hSilent hFits.2.1
  | _ => exact hAllowed.elim

theorem arm_carries (hW : InHand m Seen S) (hS' : Held S') (hCond : keepsHold S l = true)
    (hStep : service.step S l = some S') (hC : Commits S l S' pid t) (hNot : ∀ p, ¬Closes t.job m p)
    (hFinish : ¬Finishes t.job m) (h : Carries S m b pid) : Carries S' m b pid := by
  obtain ⟨u, prog, s, hProc, hHold, hWalks, hFits, hBrings, -⟩ := h
  obtain ⟨k, hProc₀⟩ := hC.proc
  rw [hProc] at hProc₀
  cases hProc₀
  refine commit_brings hW hS' hCond hStep hC hHold hProc hWalks hFits ?_
  have hAllowed := hWalks.1
  cases s with
  | tries ws room count =>
    obtain ⟨p, hPos, hArms | hCloses⟩ := Job.question_cases hFits.1
    · obtain rfl : p = b := Option.some.inj (hPos.symm.trans hBrings)
      right
      generalize t.job = job at hArms
      cases hArms <;> rfl
    · exact absurd hCloses (hNot p)
  | ends ws room =>
    obtain ⟨host, hEnd⟩ := hFits.1
    exact absurd (hEnd ▸ .host m host) hFinish
  | hands p count => exact hAllowed.elim
  | _ => exact hBrings.elim

/-- While the match runs, some program carries it to its first unclosed question. -/
def Manned (S : SysState) (m : Id) : Prop :=
  Running S.shared m → ∀ b, Frontier S.shared m b → ∃ pid, Carries S m b pid

theorem manned_quiet (hW : InHand m Seen S) (hS' : Held S') (hCond : keepsHold S l = true)
    (hStep : service.step S l = some S') (hC : Commits S l S' pid t) (h : Manned S m)
    (hRunning : Running S'.shared m → Running S.shared m)
    (hFront : Running S.shared m → ∀ b, Frontier S'.shared m b → Frontier S.shared m b)
    (hOwn : ∀ b, Carries S m b pid → Carries S' m b pid) : Manned S' m := by
  intro hRun b hb
  have hb₀ := hFront (hRunning hRun) b hb
  obtain ⟨q, hCarries⟩ := h (hRunning hRun) b hb₀
  obtain ⟨d, rfl⟩ := hC.label
  by_cases hq : q = pid
  · subst hq
    exact ⟨q, hOwn b hCarries⟩
  · refine carries_other hW hS' hCond hStep (hRunning hRun) hb₀ (fun d' hEq => ?_) hCarries
    cases hEq
    exact hq rfl

theorem manned_aside (hW : InHand m Seen S) (hS' : Held S') (hCond : keepsHold S l = true)
    (hStep : service.step S l = some S') (hC : Commits S l S' pid t) (h : Manned S m)
    (hRunning : Running S'.shared m → Running S.shared m) (hNot : ∀ p, ¬Closes t.job m p)
    (hFinish : ¬Finishes t.job m)
    (hOld : ∀ q, .insertMatchQuestion q ∈ (S.shared.tx pid).writes → q.matchId ≠ m) : Manned S' m :=
  manned_quiet hW hS' hCond hStep hC h hRunning
    (fun hRun _ hb => hb.back hW.held.inv hC.shape hC.db hNot hOld hRun)
    fun _ => arm_carries hW hS' hCond hStep hC hNot hFinish

theorem empty_not_carried (hC : Commits S l S' pid t) (hNil : (S.shared.tx pid).writes = []) :
    ¬Carries S m b pid := by
  rintro ⟨u, prog, s, hProc, -, hWalks, hFits, hBrings, -⟩
  obtain ⟨k, hProc₀⟩ := hC.proc
  rw [hProc] at hProc₀
  cases hProc₀
  have hAllowed := hWalks.1
  cases s with
  | tries ws room count => exact hAllowed (hFits.2.1.symm.trans hNil)
  | ends ws room => exact hAllowed (hFits.2.1.symm.trans hNil)
  | hands p count => exact hAllowed.elim
  | _ => exact hBrings.elim

theorem stopped_of {i : Id} {status : RoomStatus} {endedAt : Option Micros} {rows : List Match}
    (hStatus : status ≠ .running) :
    ¬∃ x ∈ updateWhere Match.id i (Match.patch status endedAt) rows, x.id = i ∧ x.status = .running := by
  rintro ⟨x, hx, hId, hRun⟩
  obtain ⟨-, hNe⟩ | ⟨y, -, -, rfl⟩ := mem_updateWhere.mp hx
  · exact hNe hId
  · exact hStatus hRun

theorem Finishes.of_closes {job : Job} {i : Id} {p : Nat} (h : Closes job i p)
    (h' : Finishes job m) : i = m := by
  cases h' with
  | host => cases h
  | last => cases h; rfl

theorem Closes.of_finishes {job : Job} {i : Id} {p : Nat} (h : Finishes job i)
    (h' : Closes job m p) : i = m := by
  cases h with
  | host => cases h'
  | last => cases h'; rfl

theorem manned_commit (hW : InHand m Seen S) (hW' : InHand m Seen' S') (hCond : keepsHold S l = true)
    (hStep : service.step S l = some S') (hC : Commits S l S' pid t) (h : Manned S m) :
    Manned S' m := by
  have hS' := hW'.held
  have hShape := hC.shape
  have hDb := hC.db
  have hAside := manned_aside hW hS' hCond hStep hC h
  generalize hWs : (S.shared.tx pid).writes = ws at hShape hDb hAside
  generalize hJob : t.job = job at hShape hAside
  cases hShape with
  | empty =>
    refine manned_quiet hW hS' hCond hStep hC h (fun hRun => ?_) (fun _ b hb => ?_)
      fun b hCarries => absurd hCarries (empty_not_carried hC hWs)
    · rw [Running, hDb] at hRun
      exact hRun
    · obtain ⟨hOpen, hBelow⟩ := hb
      rw [ClosedBelow, hDb] at hBelow
      rw [hDb] at hOpen
      exact ⟨hOpen, hBelow⟩
  | start host code matchId room quiz questions ids startedAt eventId =>
    by_cases hm : matchId = m
    · intro _ b hb
      let row : Match := ⟨matchId, room.id, quiz.version, .running, startedAt, none⟩
      have hIns : .insertMatch row ∈ (S.shared.tx pid).writes := by
        rw [hWs]
        exact List.mem_cons_self
      exact ⟨pid, start_carries hW hW' hCond hStep hC hIns hm hb⟩
    · refine hAside (fun hRun => ?_) (fun p hp => by cases hp) (fun hf => by cases hf) ?_
      · obtain ⟨x, hx, hId, hStatus⟩ := hRun
        rw [hDb, applyAll_startWrites] at hx
        obtain hx | hx := List.mem_append.mp hx
        · exact ⟨x, hx, hId, hStatus⟩
        · rw [List.mem_singleton.mp hx] at hId
          exact absurd hId hm
      · intro q hq
        have hRow : q ∈ matchQuestionRows matchId ids questions := by simpa [startWrites] using hq
        rw [(mem_matchQuestionRows hRow).1]
        exact hm
  | arm _ mq question eventId startedAt deadlineAt hArms =>
    refine hAside (fun hRun => ?_) (fun p hp => by cases hArms <;> cases hp)
      (fun hf => by cases hArms <;> cases hf) (by simp [armWrites])
    rw [Running, hDb] at hRun
    exact hRun
  | close _ mq eventId closedAt correctIds hCloses hMem _ hOpen hStarted hSilent =>
    by_cases hm : mq.matchId = m
    · intro _ b hb
      refine ⟨pid, close_carries hW hW' hCond hStep hC (hJob ▸ hm ▸ hCloses) hMem hm rfl hOpen hStarted
        hSilent (by simp [hWs, closeWrites]) ?_ hb⟩
      rw [HasClosed, hDb]
      exact ⟨_, mem_updateWhere_of_eq hMem rfl, hm, rfl, rfl⟩
    · refine hAside (fun hRun => ?_) (fun p hp => ?_) (fun hf => hm (hf.of_closes hCloses))
        (by simp [closeWrites])
      · rw [Running, hDb] at hRun
        exact hRun
      · exact hm (Option.some.inj (hCloses.question.symm.trans hp.question))
  | submit row payload mq roomId questionId eventId now =>
    refine hAside (fun hRun => ?_) (fun p hp => by cases hp) (fun hf => by cases hf)
      (by simp [submitWrites])
    rw [Running, hDb] at hRun
    exact hRun
  | pause host code x =>
    by_cases hm : x.id = m
    · intro hRun
      rw [Running, hDb] at hRun
      subst hm
      exact absurd hRun (stopped_of (by simp))
    · refine hAside (fun hRun => ?_) (fun p hp => by cases hp) (fun hf => by cases hf) (by simp)
      rw [Running, hDb] at hRun
      exact running_of_updateWhere hm hRun
  | finish _ x room subs participants endedAt eventId hFin =>
    by_cases hm : x.id = m
    · intro hRun
      rw [Running, hDb, applyAll_finishWrites] at hRun
      subst hm
      exact absurd hRun (stopped_of (by simp))
    · refine hAside (fun hRun => ?_) (fun p hp => hm (hp.of_finishes hFin)) (fun hf => ?_)
        (by simp [finishWrites])
      · rw [Running, hDb, applyAll_finishWrites] at hRun
        exact running_of_updateWhere hm hRun
      · cases hFin <;> cases hf <;> exact hm rfl
  | resume host code x deadline hx _ hPaused hDeadline =>
    by_cases hm : x.id = m
    · intro _ b _
      refine ⟨pid, resume_carries hW hS' hCond hStep hC ?_ ?_⟩
      · rw [hWs, ← hm]
        simp
      · rw [hWs]
        obtain rfl | ⟨i, u, -, rfl⟩ := hDeadline <;> simp [Write.creates]
    · have hMatches : (applyAll ([.updateRoom x.roomId .running none none,
          .updateMatch x.id .running none] ++ deadline) S.shared.db).matches' =
          updateWhere Match.id x.id (Match.patch .running none) S.shared.db.matches' := by
        obtain rfl | ⟨i, u, -, rfl⟩ := hDeadline <;> rfl
      refine hAside (fun hRun => ?_) (fun p hp => by cases hp) (fun hf => by cases hf) ?_
      · rw [Running, hDb, hMatches] at hRun
        exact running_of_updateWhere hm hRun
      · obtain rfl | ⟨i, u, -, rfl⟩ := hDeadline <;> simp

theorem manned_calm (hW : InHand m Seen S) (hS' : Held S') (hCond : keepsHold S l = true)
    (hStep : service.step S l = some S') (hSame : SameRows S.shared S'.shared) (h : Manned S m) :
    Manned S' m := by
  intro hRun b hb
  have hRun₀ : Running S.shared m := by
    rw [Running, hSame.matches'] at hRun
    exact hRun
  have hb₀ : Frontier S.shared m b := by
    obtain ⟨hOpen, hBelow⟩ := hb
    rw [ClosedBelow, hSame.matches', hSame.matchQuestions] at hBelow
    rw [hSame.matchQuestions] at hOpen
    exact ⟨hOpen, hBelow⟩
  obtain ⟨q, hCarries⟩ := h hRun₀ b hb₀
  by_cases hOwn : ∃ d, l = .op q d
  · obtain ⟨d, rfl⟩ := hOwn
    obtain ⟨t, prog, s, hProc, hHold, hWalks, hFits, hBrings, hLive⟩ := id hCarries
    cases prog with
    | done r => simp [Machine.step, hProc, Machine.advance] at hStep
    | call o k =>
      refine carries_own hW hS' hCond hStep hRun₀ hb₀ hProc ?_ hCarries
      rintro rfl
      obtain ⟨out, hExec, hShared, -, -⟩ := own_step hStep hProc
      obtain hOk | ⟨hb, -⟩ := carries_goes hW hHold hExec (keepsHold_call hCond hProc).2 hWalks.1
        hFits hBrings fun _ => hLive
      · have hWal := hSame.wal
        cases hOk
        rw [hShared] at hWal
        simp [World.commit] at hWal
      · cases hb
  · exact carries_other hW hS' hCond hStep hRun₀ hb₀ (fun d hEq => hOwn ⟨d, hEq⟩) hCarries

theorem manned_reach {seed : Seed}
    (h : service.Reach (fun S l => keepsHold S l = true) (initial seed) S) : Manned S m := by
  induction h with
  | refl =>
    rintro ⟨x, hx, -⟩
    cases hx
  | tail hReach hCond hStep ih =>
    have hW := inHand_reach (m := m) hReach
    have hW' := inHand_reach (m := m) (hReach.tail hCond hStep)
    obtain hSame | ⟨pid, t, hC⟩ := step_cases hW.held hStep
    · exact manned_calm hW hW'.held hCond hStep hSame ih
    · exact manned_commit hW hW' hCond hStep hC ih

/-- What a program of a job still does for the question at position `b` of match `m`: arm or
close it, create its task, or end the match. -/
inductive SeesTo (w : World) (pid : Nat) (m : Id) (b : Nat) : Job → Prop
  | task (job : Job) : job.question? = some m → job.position = some b → w.commits pid = [] →
      SeesTo w pid m b job
  | next (job : Job) : job.question? = some m → job.successor = some b → w.commits pid ≠ [] →
      SeesTo w pid m b job
  | start (host : Id) (code : String) : b = 1 → Created w pid m →
      SeesTo w pid m b (.startMatch host code)
  | resume (host : Id) (code : String) : HasResumed w pid m → SeesTo w pid m b (.resumeMatch host code)
  | ending (host : Option Id) : SeesTo w pid m b (.endMatch m host)

/-- The program has calls left, on a replica that has not crashed, and is not cancelled. -/
def Pending (S : SysState) (pid : Nat) (t : Task) : Prop :=
  (∃ o k, S.procs[pid]? = some ⟨t, .call o k⟩) ∧ S.shared.phase t.replica ≠ .crashed ∧
    S.shared.cancelling pid = false

theorem Leads.seesTo {w : World} {job : Job} {p : Option Nat} (h : Leads w pid m job p)
    (hOne : (w.commits pid).length = 1) (hBrings : p = none ∨ p = some b) : SeesTo w pid m b job := by
  cases h with
  | start host code hCreated => exact .start host code (by simpa [eq_comm] using hBrings) hCreated
  | resume host code _ hResumed => exact .resume host code hResumed
  | task _ hTask =>
    refine .next job hTask ?_ fun hNil => by rw [hNil] at hOne; cases hOne
    refine hBrings.resolve_left fun hNone => ?_
    cases job <;> first | exact absurd hNone (Option.some_ne_none _) | cases hTask

theorem Carries.pending (hW : InHand m Seen S) (h : Carries S m b pid) :
    ∃ t, Pending S pid t ∧ SeesTo S.shared pid m b t.job := by
  obtain ⟨t, prog, s, hProc, hHold, hWalks, hFits, hBrings, hLive⟩ := h
  refine ⟨t, ⟨?_, hW.up _, hLive⟩, ?_⟩
  · cases prog with
    | call o k => exact ⟨o, k, hProc⟩
    | done r => cases s <;> first | exact hWalks.elim | exact hBrings.elim
  · cases s with
    | tries ws room count =>
      obtain ⟨hJob, -, -, hNone, -⟩ := hFits
      exact .task t.job hJob hBrings hNone
    | hands p count => exact hFits.2.2.2.2.seesTo hFits.2.1 hBrings
    | ends ws room =>
      obtain ⟨⟨host, hJob⟩, -⟩ := hFits
      rw [hJob]
      exact .ending host
    | _ => exact hBrings.elim

theorem exists_frontier {w : World} (hMatch : ∃ x ∈ w.db.matches', x.id = m) {q : MatchQuestion}
    (hq : q ∈ w.db.matchQuestions) (hm : q.matchId = m) (hOpen : q.closedAt = none) :
    ∃ b ≤ q.position, Frontier w m b := by
  induction hp : q.position using Nat.strong_induction_on generalizing q with
  | _ p ih =>
    by_cases hBelow : ∀ y ∈ w.db.matchQuestions, y.matchId = m → y.position < p → y.closedAt.isSome
    · exact ⟨p, le_rfl, ⟨q, hq, hm, hp, hOpen⟩, hMatch, hBelow⟩
    · push Not at hBelow
      obtain ⟨y, hy, hym, hLt, hyOpen⟩ := hBelow
      obtain ⟨b, hLe, hFront⟩ := ih y.position hLt hy hym (by simpa using hyOpen) rfl
      exact ⟨b, by omega, hFront⟩

end

end LiveQuiz
