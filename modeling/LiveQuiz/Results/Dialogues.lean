import LiveQuiz.Dialogue.Sound
import LiveQuiz.Results.Answers

/-! # Frames, replies and stored answers

A connection's frames are answered one by one in the order in which they arrive, and an
`answer.accepted` is for the answer that its frame asked for, which is in the tables.
-/

namespace LiveQuiz.Dialogue

open Coroutine
open LiveQuiz.Attempts (AnswerSubmitPayload)

set_option autoImplicit false

def serviceLabel (S : DialogueState) : DialogueLabel → Option SysLabel
  | .op pid _ =>
    match S.procs[pid]? with
    | some ⟨c, .call (.submitAnswer m request messageId) _⟩ => some (c.request m request messageId)
    | _ => none
  | .env (.service l) => some l
  | .env _ => none

/-- A message id that was used before is used for the same participant and question as then,
over all sockets and the REST endpoint. -/
def keepsMessageIds (S : DialogueState) (l : DialogueLabel) : Bool :=
  (serviceLabel S l).all fun l => keepsRequestId S.shared.service l

section

variable {O : Outside} {C : DialogueState → DialogueLabel → Prop} {seed : Seed} {S S' : DialogueState}
  {l : DialogueLabel} {w : World} {c c' : Conn} {pid n i i' : Nat} {o : Op} {d : Decision}

theorem round_of_conn (h : (sockets O).Reach C (start seed) S) (hConn : S.shared.conns i = some c) :
    ∃ k p, S.shared.turn i = some k ∧ S.procs[k]? = some ⟨c, p⟩ := by
  have hS := kept_of_reach h
  obtain ⟨rfl, ⟨k, hTurn⟩, -⟩ := hS.inv.open' i c hConn
  have hLt := hS.inv.turns _ k hTurn
  obtain ⟨⟨c', p⟩, hProc⟩ : ∃ pr, S.procs[k]? = some pr := ⟨_, List.getElem?_eq_getElem hLt⟩
  have hNamed : Named k c' S.shared := by
    cases p with
    | done r => exact (hS.post hProc).1
    | call o f => exact named_of_req (hS.req (sound O) hProc)
  have hId := hNamed.only _ hTurn
  have hSame := hNamed.conn
  rw [← hId, hConn] at hSame
  cases hSame
  exact ⟨k, p, hTurn, hProc⟩

/-- The frames of an open connection are answered one by one in the order of arrival, each by
a reply to it, or to the end of the program it has started; the one that is not answered is in
the hands of the current round, which has not returned. -/
theorem frames_answered (h : (sockets O).Reach C (start seed) S) (hConn : S.shared.conns i = some c) :
    ∃ pending, S.shared.log i = transcript (exchanges (S.shared.log i)) pending ∧
      (exchanges (S.shared.log i)).map (·.raw) ++ pending.toList.map (·.1) ++ S.shared.inbox i = S.shared.arrived i ∧
      (∀ x ∈ exchanges (S.shared.log i), Answers O S.shared.service c x.raw x.asked x.reply) ∧
      (pending.isSome → ∃ k p, S.shared.turn i = some k ∧ S.procs[k]? = some ⟨c, p⟩ ∧
        ∀ a, p ≠ .done (.ok a)) := by
  have hS := kept_of_reach h
  obtain ⟨k, p, hTurn, hProc⟩ := round_of_conn h hConn
  obtain ⟨rfl, -, pending, xs, hLog, hAnswers⟩ := hS.inv.open' i c hConn
  have hXs : exchanges (S.shared.log c.id) = xs := by
    rw [hLog]
    exact exchanges_transcript xs pending
  rw [hXs]
  refine ⟨pending, hLog, ?_, hAnswers, fun hSome => ⟨k, p, hTurn, hProc, ?_⟩⟩
  · rw [← hS.inv.arrived c.id, hLog, heardIn_transcript]
  · rintro a rfl
    obtain ⟨ys, hDone, -⟩ := (hS.post hProc).2 a rfl hTurn
    have hPending := pending_of_transcript (hLog.symm.trans hDone)
    rw [hPending] at hSome
    cases hSome

theorem exec_service {out : Answer o} (h : exec w c pid n o d = some out) :
    out.shared.service = w.service ∨ ∃ m payload messageId, o = .submitAnswer m payload messageId ∧
      service.step w.service (c.request m payload messageId) = some out.shared.service := by
  have hFaulty : ∀ {ρ : Type} {a : Outcome World Conn (Except Exn ρ)} {out : Outcome World Conn (Except Exn ρ)},
      a.shared.service = w.service → faulty d.fault true w (some a) = some out →
      out.shared.service = w.service := by
    intro ρ a out hSame hOut
    obtain hShared | ⟨b, hb, -, hShared⟩ := faulty_shared hOut
    · rw [hShared]
    · cases hb
      rw [hShared, hSame]
  cases o with
  | receiveText =>
    simp only [exec] at h
    split at h
    · cases h
      exact .inl rfl
    · split at h <;> cases h
      exact .inl rfl
  | wsRateCheck => exact .inl (hFaulty rfl h)
  | hostRateCheck => exact .inl (hFaulty rfl h)
  | incr key => exact .inl (hFaulty rfl h)
  | expire key => exact .inl (hFaulty rfl h)
  | serverNow =>
    cases h
    exact .inl rfl
  | send r =>
    cases h
    exact .inl rfl
  | submitAnswer m payload messageId =>
    obtain ⟨S, hStep, rfl⟩ := Option.map_eq_some_iff.mp h
    exact .inr ⟨m, payload, messageId, rfl, hStep⟩
  | result k =>
    simp only [exec] at h
    split at h <;> cases h <;> exact .inl rfl
  | loop =>
    cases h
    exact .inl rfl

theorem service_step (hStep : (sockets O).step S l = some S') :
    S'.shared.service = S.shared.service ∨ ∃ l', serviceLabel S l = some l' ∧
      service.step S.shared.service l' = some S'.shared.service := by
  obtain ⟨pid, d, c, o, k, out, rfl, hProc, hExec, rfl⟩ | ⟨e, out, rfl, hEnv, rfl⟩ := Machine.step_cases hStep
  · change exec S.shared c pid S.procs.length o d = some out at hExec
    obtain hSame | ⟨m, payload, messageId, rfl, hService⟩ := exec_service hExec
    · exact .inl hSame
    · refine .inr ⟨_, ?_, hService⟩
      simp only [serviceLabel, hProc]
  · change env S.shared S.procs.length e = some out at hEnv
    cases e with
    | service l =>
      obtain ⟨S₁, hService, rfl⟩ := Option.map_eq_some_iff.mp hEnv
      exact .inr ⟨l, rfl, hService⟩
    | connect replica participantId isHost =>
      cases hEnv
      exact .inl rfl
    | arrive i raw =>
      simp only [env] at hEnv
      split at hEnv <;> cases hEnv
      exact .inl rfl
    | hangUp i =>
      cases hEnv
      exact .inl rfl

theorem service_reach (h : (sockets O).Reach (fun S l => keepsMessageIds S l = true) (start seed) S) :
    service.Reach (fun S l => keepsRequestId S l = true) (initial seed) S.shared.service := by
  induction h with
  | refl => exact .refl
  | tail _ hKeeps hStep ih =>
    obtain hSame | ⟨l', hLabel, hService⟩ := service_step hStep
    · rw [hSame]
      exact ih
    · refine ih.tail ?_ hService
      simpa only [keepsMessageIds, hLabel, Option.all_some] using hKeeps

theorem answers_accepted {S : SysState} {raw messageId : String} {id : Id} {accepted : Bool} {score time : Int}
    {asked : Option Nat}
    (h : Answers O S c raw asked (.answerAccepted messageId id accepted score time)) :
    ∃ payload call k result, O.validateJson raw = some (.answerSubmit messageId payload) ∧
      O.request payload = some call ∧ Submits S c messageId call k (.done (.ok (.response result))) ∧
      id = result.submissionId ∧ accepted = result.accepted ∧ score = result.scoreAwarded ∧
      time = result.responseTimeMs := by
  cases h with
  | accepted _ payload call k result hRaw hIds hDone =>
    exact ⟨payload, call, k, result, hRaw, hIds, hDone, rfl, rfl, rfl, rfl⟩

/-- The answer that this participant has given to this question. -/
structure AnswerOf (db : Db) (participantId matchQuestionId : Id) (row : AnswerSubmission) : Prop where
  stored : row ∈ db.submissions
  participant : row.participantId = participantId
  question : row.matchQuestionId = matchQuestionId
  only : ∀ row' ∈ db.submissions, row'.participantId = participantId → row'.matchQuestionId = matchQuestionId →
    row' = row

/-- While no message id is reused for another participant or question, an acknowledgement is
for the answer that its own frame asked for: the one that this connection's participant has
given to that question, whichever socket or replica it came through. -/
theorem accepted_answers_stored
    (h : (sockets O).Reach (fun S l => keepsMessageIds S l = true) (start seed) S)
    (hConn : S.shared.conns i = some c) {x : Exchange} (hx : x ∈ exchanges (S.shared.log i))
    {messageId : String} {id : Id} {accepted : Bool} {score time : Int}
    (hReply : x.reply = .answerAccepted messageId id accepted score time) :
    ∃ payload m request row, O.validateJson x.raw = some (.answerSubmit messageId payload) ∧
      O.request payload = some (m, request) ∧
      AnswerOf S.shared.service.shared.db c.participantId request.matchQuestionId row ∧
      id = row.id ∧ accepted = true ∧ score = row.scoreAwarded ∧ time = row.responseTimeMs := by
  have hService := service_reach h
  have hHeld := held_of_reach hService
  obtain ⟨rfl, -, pending, xs, hLog, hAnswers⟩ := (kept_of_reach h).inv.open' i c hConn
  rw [hLog, exchanges_transcript] at hx
  have hAnswer := hAnswers x hx
  rw [hReply] at hAnswer
  obtain ⟨payload, ⟨m, request⟩, k, result, hRaw, hIds, hDone, rfl, rfl, rfl, rfl⟩ := answers_accepted hAnswer
  obtain ⟨row, hRow, rank, rfl, m', request', hReq, hQuestion⟩ :=
    hHeld.post hDone m c.participantId request messageId result rfl rfl
  obtain ⟨hParticipant, hSame⟩ := requestsAgree_reach hService m c.participantId request messageId m'
    row.participantId request' (requested_reach hService hDone) hReq
  have hMq : row.matchQuestionId = request.matchQuestionId := hQuestion.symm.trans hSame
  refine ⟨payload, m, request, row, hRaw, hIds, ⟨hRow, hParticipant, hMq, ?_⟩, rfl, rfl, rfl, rfl⟩
  intro row' hRow' hParticipant' hMq'
  exact hHeld.inv.keys.submission_eq hRow' hRow
    (.inr (.inr ⟨hMq'.trans hMq.symm, hParticipant'.trans hParticipant.symm⟩))

end

namespace Demo

def frame : Json.Value := .obj [("type", .str "answer.submit"), ("message_id", .str "m1"),
  ("payload", .obj [("match_id", .str "54"), ("match_question_id", .str "56"),
    ("selected_option_ids", .arr [.str "201"])])]

def outside : Outside where
  parse raw := [("answer", frame)].lookup raw
  laxInt _ := none
  parseInt s := [("54", 54), ("56", 56), ("201", 201)].lookup s

def rounds (pid k : Nat) : List DialogueLabel := (List.range k).map fun _ => .op pid {}

def served (ls : List SysLabel) : List DialogueLabel := ls.map fun l => .env (.service l)

/-- Ann sends her answer, a frame that is none, and her answer again. -/
def answers : List DialogueLabel :=
  served LiveQuiz.Demo.opening ++
    [.env (.connect 0 21 false), .env (.arrive 0 "answer"), .env (.arrive 0 "junk"), .env (.arrive 0 "answer")] ++
    rounds 0 5 ++ served (LiveQuiz.Demo.calls 4 22 300) ++ rounds 0 3 ++ rounds 1 4 ++ rounds 2 2

def accepted : Exchange := ⟨"answer", some 4, .answerAccepted "m1" 308 true 1000 0, true⟩

def invalid : Exchange := ⟨"junk", none, .error none "VALIDATION_ERROR" "invalid message" none, true⟩

theorem answers_run : ((sockets outside).runWhile keepsMessageIds (start LiveQuiz.Demo.seed) answers).any (fun S =>
    S.shared.conns 0 = some ⟨0, 0, 21, false⟩ ∧
    S.shared.log 0 = transcript [accepted, invalid] (some ("answer", none))) = true := by
  decide +kernel

end Demo

theorem frames_answered_ann : ∃ S : DialogueState, exchanges (S.shared.log 0) = [Demo.accepted, Demo.invalid] ∧
    ∃ pending, S.shared.log 0 = transcript (exchanges (S.shared.log 0)) pending ∧
      (exchanges (S.shared.log 0)).map (·.raw) ++ pending.toList.map (·.1) ++ S.shared.inbox 0 = S.shared.arrived 0 ∧
      (∀ x ∈ exchanges (S.shared.log 0), Answers Demo.outside S.shared.service ⟨0, 0, 21, false⟩ x.raw
        x.asked x.reply) ∧
      (pending.isSome → ∃ k p, S.shared.turn 0 = some k ∧ S.procs[k]? = some ⟨⟨0, 0, 21, false⟩, p⟩ ∧
        ∀ a, p ≠ .done (.ok a)) := by
  obtain ⟨S, hReach, hS⟩ := Machine.Reach.exists_of_runWhile Demo.answers_run
  obtain ⟨hConn, hLog⟩ := of_decide_eq_true hS
  refine ⟨S, ?_, frames_answered hReach hConn⟩
  rw [hLog, exchanges_transcript]

theorem accepted_answers_stored_ann : ∃ S : DialogueState, Demo.accepted ∈ exchanges (S.shared.log 0) ∧
    ∃ payload m request row, Demo.outside.validateJson "answer" = some (.answerSubmit "m1" payload) ∧
      Demo.outside.request payload = some (m, request) ∧
      AnswerOf S.shared.service.shared.db 21 request.matchQuestionId row ∧
      308 = row.id ∧ true = true ∧ 1000 = row.scoreAwarded ∧ 0 = row.responseTimeMs := by
  obtain ⟨S, hReach, hS⟩ := Machine.Reach.exists_of_runWhile Demo.answers_run
  obtain ⟨hConn, hLog⟩ := of_decide_eq_true hS
  have hMem : Demo.accepted ∈ exchanges (S.shared.log 0) := by
    rw [hLog, exchanges_transcript]
    exact List.mem_cons_self
  exact ⟨S, hMem, accepted_answers_stored hReach hConn hMem rfl⟩

end LiveQuiz.Dialogue
