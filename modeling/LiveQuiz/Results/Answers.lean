import LiveQuiz.Protocol.Moves

/-! # Whose answer a response describes

A request id is global and chosen by the client, and the cache and the
unique-violation lookup go by it alone. So a response describes the caller's own
row exactly as long as request ids are not reused for another answer.
-/

namespace LiveQuiz

open Coroutine

set_option autoImplicit false

/-- A stored row answers this call, and the response carries its values. -/
def OwnRow (db : Db) (participantId matchQuestionId : Id) (resp : Response) : Prop :=
  ∃ row ∈ db.submissions, row.matchQuestionId = matchQuestionId ∧
    row.participantId = participantId ∧ resp.submissionId = row.id ∧
    resp.isCorrect = row.isCorrect ∧ resp.scoreAwarded = row.scoreAwarded ∧
    resp.responseTimeMs = row.responseTimeMs

/-- An arriving submission whose request id was used before is for the same
participant and question as then. -/
def keepsRequestId (S : SysState) : SysLabel → Bool
  | .env (.request _ (.submitAnswer _ p payload r)) => S.shared.requests.all fun
    | .submitAnswer _ p' payload' r' =>
      r' ≠ r ∨ (p' = p ∧ payload'.matchQuestionId = payload.matchQuestionId)
    | _ => true
  | _ => true

/-- Two submissions with one request id agree on participant and question. -/
def RequestsAgree (requests : List Job) : Prop :=
  ∀ m p payload r m' p' payload', Job.submitAnswer m p payload r ∈ requests →
    Job.submitAnswer m' p' payload' r ∈ requests →
    p' = p ∧ payload'.matchQuestionId = payload.matchQuestionId

section

variable {C : SysState → SysLabel → Prop} {seed : Seed} {S S' : SysState} {l : SysLabel}

theorem keepsRequestId_spec {m p m' p' : Id} {payload payload' : AnswerSubmitRequest} {r : String}
    (h : keepsRequestId S l = true) (hNew : .submitAnswer m p payload r ∈ requestedBy l)
    (hOld : .submitAnswer m' p' payload' r ∈ S.shared.requests) :
    p' = p ∧ payload'.matchQuestionId = payload.matchQuestionId := by
  cases l with
  | op => cases hNew
  | env e =>
    cases e with
    | request rep j =>
      cases List.mem_singleton.mp hNew
      simpa using List.all_eq_true.mp h _ hOld
    | _ => cases hNew

theorem requestsAgree_reach
    (h : service.Reach (fun S l => keepsRequestId S l = true) (initial seed) S) :
    RequestsAgree S.shared.requests := by
  induction h with
  | refl => exact fun _ _ _ _ _ _ _ h => by cases h
  | @tail S S' l hReach hKeeps hStep ih =>
    rw [step_requests hStep]
    intro m p payload r m' p' payload' h h'
    obtain h | h := List.mem_append.mp h <;> obtain h' | h' := List.mem_append.mp h'
    · exact ih m p payload r m' p' payload' h h'
    · have hSame := keepsRequestId_spec hKeeps h' h
      exact ⟨hSame.1.symm, hSame.2.symm⟩
    · exact keepsRequestId_spec hKeeps h h'
    · have hOne : ∀ j ∈ requestedBy l, ∀ j' ∈ requestedBy l, j' = j := by
        cases l with
        | op => simp [requestedBy]
        | env e => cases e <;> simp [requestedBy, EnvAction.requested]
      cases hOne _ h _ h'
      exact ⟨rfl, rfl⟩

/-- While no request id is reused for another participant or question, a response
of `submit_answer` describes a committed row of that very call. -/
theorem accepted_own_row
    (h : service.Reach (fun S l => keepsRequestId S l = true) (initial seed) S)
    {pid replica : Nat} {m p : Id} {payload : AnswerSubmitRequest} {r : String} {resp : Response}
    (hDone : S.procs[pid]? =
      some ⟨⟨replica, .submitAnswer m p payload r⟩, .done (.ok (.response resp))⟩) :
    OwnRow S.shared.db p payload.matchQuestionId resp := by
  obtain ⟨row, hRow, rank, rfl, m', payload', hReq, hQuestion⟩ :=
    (held_of_reach h).post hDone m p payload r resp rfl rfl
  obtain ⟨hp, hmq⟩ := requestsAgree_reach h m p payload r m' row.participantId payload'
    (requested_reach h hDone) hReq
  exact ⟨row, hRow, hQuestion.symm.trans hmq, hp, rfl, rfl, rfl, rfl⟩

end

theorem accepted_own_row_ann : ∃ S : SysState,
    S.procs[4]? = some ⟨⟨0, Demo.annJob⟩, .done (.ok (.response Demo.annResponse))⟩ ∧
    OwnRow S.shared.db 21 56 Demo.annResponse := by
  have hRun : (service.runWhile keepsRequestId (initial Demo.seed) Demo.annAnswers).any
      (fun S => outcome S 4 = some (⟨0, Demo.annJob⟩, .ok (.response Demo.annResponse))) = true := by
    decide +kernel
  obtain ⟨S, hReach, hOut⟩ := Machine.Reach.exists_of_runWhile hRun
  have hProc := outcome_spec (of_decide_eq_true hOut)
  exact ⟨S, hProc, accepted_own_row hReach hProc⟩

/-- Bob answers the same question under the same id: his call is accepted with
Ann's row, and he has none. -/
theorem foreign_row_of_reused_id : ∃ S,
    service.Reach (fun _ _ => True) (initial Demo.seed) S ∧
    S.procs[5]? = some ⟨⟨0, Demo.bobJob⟩, .done (.ok (.response Demo.annResponse))⟩ ∧
    Demo.annResponse.accepted = true ∧ ¬OwnRow S.shared.db 22 56 Demo.annResponse := by
  have hRun : (service.run (initial Demo.seed)
      (Demo.annAnswers ++ [.env (.request 0 Demo.bobJob)] ++ Demo.calls 5 1 400)).any
      (fun S => outcome S 5 = some (⟨0, Demo.bobJob⟩, .ok (.response Demo.annResponse)) ∧
        ∀ row ∈ S.shared.db.submissions, row.participantId ≠ 22) = true := by decide +kernel
  obtain ⟨S, hReach, hS⟩ := Machine.Reach.exists_of_run hRun
  obtain ⟨hOut, hNone⟩ := of_decide_eq_true hS
  refine ⟨S, hReach, outcome_spec hOut, rfl, ?_⟩
  rintro ⟨row, hRow, -, hp, -⟩
  exact hNone row hRow hp

end LiveQuiz
