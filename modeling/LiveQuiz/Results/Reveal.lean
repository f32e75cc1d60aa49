import LiveQuiz.Protocol.Moves

/-! # No answer after the reveal

Submitters and closers lock the same row before they look at `closed_at`, and a
closer tells the answer only after its commit. So the answers to a question are
final as soon as it is closed, and a question is closed before its answer is told.
-/

namespace LiveQuiz

open Coroutine

set_option autoImplicit false

def Db.answersTo (db : Db) (matchQuestionId : Id) : List AnswerSubmission :=
  db.submissions.filter (·.matchQuestionId = matchQuestionId)

def Db.IsClosed (db : Db) (matchQuestionId : Id) : Prop :=
  ∃ q ∈ db.matchQuestions, q.id = matchQuestionId ∧ q.closedAt.isSome

def Message.reveals (matchQuestionId : Id) : Message → Bool
  | .questionClosed i _ _ _ => i = matchQuestionId
  | _ => false

def EventPayload.reveals (matchQuestionId : Id) : EventPayload → Bool
  | .questionClosed _ i _ _ _ _ => i = matchQuestionId
  | _ => false

/-- A broadcast or an event has told the correct options. -/
def World.Revealed (w : World) (matchQuestionId : Id) : Prop :=
  (∃ s ∈ w.sent, s.2.reveals matchQuestionId) ∨
    ∃ e ∈ w.db.outbox, e.payload.reveals matchQuestionId

section

variable {C : SysState → SysLabel → Prop} {seed : Seed} {S S' : SysState} {l : SysLabel} {i : Id}

theorem isClosed_step (hS : Held S) (hStep : service.step S l = some S')
    (h : S.shared.db.IsClosed i) : S'.shared.db.IsClosed i := by
  obtain ⟨q, hq, hId, hc⟩ := h
  obtain ⟨q', hq', hL⟩ := (step_later hS hStep).matchQuestions q hq
  exact ⟨q', hq', hL.id.trans hId, hL.closed hc⟩

theorem Commit.answers_open {n pid : Nat} {w : World} {job : Job} {ws : List Write}
    (hC : Commit w pid job ws) (hInv : Inv n w) {row : AnswerSubmission}
    (hRow : row ∈ ws.filterMap Write.submission?) : ¬w.db.IsClosed row.matchQuestionId := by
  rintro ⟨q, hq, hId, hc⟩
  obtain ⟨wr, hwr, hIns⟩ := List.mem_filterMap.mp hRow
  cases wr with
  | insertSubmission r =>
    cases hIns
    cases hC with
    | submit row' payload mq roomId questionId eventId now _ _ hMem hOf _ _ hOpen =>
      have hSame : row = row' := by simpa [submitWrites] using hwr
      subst hSame
      rw [hInv.keys.matchQuestion_eq hq hMem (.inl (hId.trans hOf.symm)), hOpen] at hc
      cases hc
    | start => simp [startWrites] at hwr
    | arm => simp [armWrites] at hwr
    | close => simp [closeWrites] at hwr
    | finish => simp [finishWrites] at hwr
    | pause => simp at hwr
    | resume _ _ _ deadline _ _ _ hDeadline =>
      obtain rfl | ⟨j, u, -, rfl⟩ := hDeadline <;> simp at hwr
    | empty => cases hwr
  | _ => cases hIns

theorem Commit.answersTo {n pid : Nat} {w : World} {job : Job} {ws : List Write}
    (hC : Commit w pid job ws) (hInv : Inv n w) (h : w.db.IsClosed i) :
    (applyAll ws w.db).answersTo i = w.db.answersTo i := by
  unfold Db.answersTo
  have hNone : (ws.filterMap Write.submission?).filter (·.matchQuestionId = i) = [] := by
    rw [List.filter_eq_nil_iff]
    intro row hRow hi
    have hOpen := hC.answers_open hInv hRow
    rw [of_decide_eq_true hi] at hOpen
    exact hOpen h
  rw [applyAll_submissions, List.filter_append, hNone, List.append_nil]

theorem answersTo_step (hS : Held S) (hStep : service.step S l = some S')
    (h : S.shared.db.IsClosed i) : S'.shared.db.answersTo i = S.shared.db.answersTo i := by
  obtain hSame | ⟨pid, t, hC⟩ := step_cases hS hStep
  · rw [Db.answersTo, hSame.submissions]
    rfl
  · rw [hC.db]
    exact hC.shape.answersTo hS.inv h

theorem answersTo_reach (hS : Held S) (h : service.Reach C S S') (hClosed : S.shared.db.IsClosed i) :
    S'.shared.db.answersTo i = S.shared.db.answersTo i ∧ S'.shared.db.IsClosed i := by
  induction h with
  | refl => exact ⟨rfl, hClosed⟩
  | tail hReach _ hStep ih =>
    have hS' := sound.kept hS hReach
    exact ⟨(answersTo_step hS' hStep ih.2).trans ih.1, isClosed_step hS' hStep ih.2⟩

theorem step_sent (hS : Held S) (hStep : service.step S l = some S') {s : String × Message}
    (hs : s ∈ S'.shared.sent) : s ∈ S.shared.sent ∨
      (s.2.reveals i = true → S.shared.db.IsClosed i) := by
  obtain ⟨pid, d, t, o, k, out, -, hProc, hExec, rfl⟩ | ⟨e, out, -, hEnv, rfl⟩ :=
    Machine.step_cases hStep
  · have hReq : Req pid t S.shared o := hS.req sound hProc
    obtain hSame | ⟨code, message, rfl, hSent⟩ := (exec_effect hExec).1.sent
    · exact .inl (hSame ▸ hs)
    · rw [hSent] at hs
      refine (List.mem_append.mp hs).imp_right fun hNew => ?_
      rw [List.mem_singleton.mp hNew]
      cases message with
      | questionClosed j ids explanation accuracy =>
        intro hi
        have hj : j = i := of_decide_eq_true hi
        exact hj ▸ hReq
      | _ => exact fun hi => by cases hi
  · refine .inl ?_
    change env S.shared S.procs.length e = some out at hEnv
    rwa [(env_sent_now hEnv).1] at hs

theorem Announces.reveals {w : World} {pid : Nat} {job : Job} {ws : List Write} {e : EventPayload}
    (h : Announces w pid job ws e) (hi : e.reveals i) : (applyAll ws w.db).IsClosed i := by
  cases h with
  | questionClosed mq eventId closedAt correctIds hMem _ hEq =>
    subst hEq
    exact ⟨_, mem_updateWhere_of_eq hMem rfl, of_decide_eq_true hi, rfl⟩
  | _ => cases hi

theorem revealed_closed (h : service.Reach C (initial seed) S) (hi : S.shared.Revealed i) :
    S.shared.db.IsClosed i := by
  induction h with
  | refl =>
    obtain ⟨s, hs, -⟩ | ⟨e, he, -⟩ := hi
    · cases hs
    · cases he
  | tail hReach _ hStep ih =>
    have hS := held_of_reach hReach
    obtain ⟨s, hs, hsi⟩ | ⟨e, he, hei⟩ := hi
    · obtain hOld | hClosed := step_sent (i := i) hS hStep hs
      · exact isClosed_step hS hStep (ih (.inl ⟨s, hOld, hsi⟩))
      · exact isClosed_step hS hStep (hClosed hsi)
    · obtain hSame | ⟨pid, t, hC⟩ := step_cases hS hStep
      · exact isClosed_step hS hStep (ih (.inr ⟨e, hSame.outbox ▸ he, hei⟩))
      · rw [hC.db] at he
        obtain hOld | hAnn := hC.shape.outbox_back he
        · exact isClosed_step hS hStep (ih (.inr ⟨e, hOld, hei⟩))
        · rw [hC.db]
          exact hAnn.reveals hei

/-- From the commit of `closed_at` on, and so from the reveal on, no answer to the
question is committed. -/
theorem no_answer_after_reveal (h : service.Reach (fun _ _ => True) (initial seed) S)
    (h' : service.Reach (fun _ _ => True) S S')
    (hClosed : S.shared.db.IsClosed i ∨ S.shared.Revealed i) :
    S'.shared.db.answersTo i = S.shared.db.answersTo i := by
  have hNow : S.shared.db.IsClosed i := hClosed.elim id (revealed_closed h)
  exact (answersTo_reach (held_of_reach h) h' hNow).1

end

/-- Ann has answered, and the timer closes question 56 and tells the answer. -/
def Demo.revealing : List SysLabel :=
  Demo.annAnswers ++ Demo.calls 3 1 400 ++ [.env (.tick 20000000)] ++ Demo.calls 3 17 401

def Demo.lateJob : Job := .submitAnswer 54 22 ⟨56, [201]⟩ "m2"

/-- Bob's answer comes too late. -/
theorem no_answer_after_reveal_bob : ∃ S S',
    service.Reach (fun _ _ => True) (initial Demo.seed) S ∧
    service.Reach (fun _ _ => True) S S' ∧
    S.shared.sent.any (·.2.reveals 56) = true ∧ (S.shared.db.answersTo 56).length = 1 ∧
    Demo.lateJob ∈ S'.shared.requests ∧
    S'.shared.db.answersTo 56 = S.shared.db.answersTo 56 := by
  have hRun : (service.run (initial Demo.seed) Demo.revealing).any (fun S =>
      S.shared.sent.any (·.2.reveals 56) ∧ (S.shared.db.answersTo 56).length = 1 ∧
      (service.run S ([.env (.request 0 Demo.lateJob)] ++ Demo.calls 6 5 500)).any (fun S' =>
        Demo.lateJob ∈ S'.shared.requests)) = true := by
    decide +kernel
  obtain ⟨S, hReach, hS⟩ := Machine.Reach.exists_of_run hRun
  obtain ⟨hSent, hOne, hRun'⟩ := of_decide_eq_true hS
  obtain ⟨S', hReach', hBob⟩ := Machine.Reach.exists_of_run hRun'
  refine ⟨S, S', hReach, hReach', hSent, hOne, of_decide_eq_true hBob, ?_⟩
  exact no_answer_after_reveal hReach hReach' (.inr (.inl (List.any_eq_true.mp hSent)))

end LiveQuiz
