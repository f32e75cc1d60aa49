import LiveQuiz.Protocol.Attribution
import LiveQuiz.Publisher.Producers
import LiveQuiz.Results.Counting
import LiveQuiz.Results.WireFormat
import LiveQuiz.Stream.Careful

/-! # From the submission to the fact row

An answer goes from the tables of the match service through its event, the outbox row, the
publisher's message and the worker's handler into ClickHouse. What arrives is what was stored.
-/

namespace LiveQuiz

open Coroutine

set_option autoImplicit false

section

variable {seed : Seed} {S S' : SysState} {l : SysLabel} {C : SysState → SysLabel → Prop}

/-- The event is about a stored answer, and attributes it as the tables do. -/
structure OutboxEvent.Reports (w : World) (e : OutboxEvent) (row : AnswerSubmission)
    (roomId questionId : Id) : Prop where
  event : e = answerSubmittedEvent e.id row roomId questionId e.occurredAt
  stored : row ∈ w.db.submissions
  attributed : Attributed w row roomId questionId

def EventsReport (w : World) : Prop :=
  ∀ e ∈ w.db.outbox, e.answer?.isSome → ∃ row roomId questionId, e.Reports w row roomId questionId

theorem OutboxEvent.Reports.later {w w' : World} {e : OutboxEvent} {row : AnswerSubmission}
    {roomId questionId : Id} (h : e.Reports w row roomId questionId) (hLater : Later w w')
    (hStay : Stay w w') : e.Reports w' row roomId questionId where
  event := h.event
  stored := hLater.submissions h.stored
  attributed := h.attributed.later hLater (hStay _ _ h.attributed.member)

theorem Announces.answered {w : World} {pid : Nat} {job : Job} {ws : List Write} {e : OutboxEvent}
    (h : Announces w pid job ws e.payload) (hAnswer : e.answer?.isSome) :
    ∃ row roomId questionId eventId now, ws = submitWrites row roomId questionId eventId now := by
  unfold OutboxEvent.answer? at hAnswer
  cases hPayload : e.payload with
  | answerSubmitted i m room mq q p correct score rt at' =>
    rw [hPayload] at h
    cases h with
    | answerSubmitted row roomId questionId eventId now hWrites => exact ⟨_, _, _, _, _, hWrites⟩
  | _ => simp [hPayload] at hAnswer

theorem eventsReport_step (hReach : service.Reach C (initial seed) S) (h : EventsReport S.shared)
    (hStep : service.step S l = some S') : EventsReport S'.shared := by
  have hS := held_of_reach hReach
  have hLater := step_later hS hStep
  have hStay := step_stay hS hStep
  have hOld : ∀ e ∈ S.shared.db.outbox, e.answer?.isSome →
      ∃ row roomId questionId, e.Reports S'.shared row roomId questionId := by
    intro e he hAnswer
    obtain ⟨row, roomId, questionId, hReports⟩ := h e he hAnswer
    exact ⟨row, roomId, questionId, hReports.later hLater hStay⟩
  intro e he hAnswer
  obtain ⟨hDb, -⟩ | ⟨a, out, -, hEnv, hEq⟩ | ⟨pid, t, hC⟩ := step_effect hS hStep
  · exact hOld e (hDb ▸ he) hAnswer
  · rw [hEq, (env_same hEnv).outbox] at he
    exact hOld e he hAnswer
  · have hOutbox := he
    rw [hC.db] at hOutbox
    obtain hBefore | hNew := hC.shape.outbox_back hOutbox
    · exact hOld e hBefore hAnswer
    · obtain ⟨row, roomId, questionId, eventId, now, hWrites⟩ := hNew.answered hAnswer
      have hAttributed := commits_attributed hReach hC hWrites
      rw [hWrites, applyAll_outbox] at hOutbox
      obtain hBefore | hEvent := List.mem_append.mp hOutbox
      · exact hOld e hBefore hAnswer
      · obtain rfl : e = answerSubmittedEvent eventId row roomId questionId now :=
          List.mem_singleton.mp hEvent
        refine ⟨row, roomId, questionId, rfl, ?_, hAttributed.later hLater (hStay _ _ hAttributed.member)⟩
        rw [hC.db, applyAll_submissions, hWrites]
        exact List.mem_append_right _ List.mem_cons_self

theorem eventsReport_reach (h : service.Reach C (initial seed) S) : EventsReport S.shared := by
  induction h with
  | refl =>
    intro e he
    cases he
  | tail hReach _ hStep ih => exact eventsReport_step hReach ih hStep

end

namespace Stream

open LiveQuiz.Publisher (OutboxRow buildEnvelope)

section

variable {R : Reader} {row : OutboxRow} {items : List (String × Json.Value)}

theorem lookup_of_mem {α : Type} {l : List (String × α)} {key : String} {v : α}
    (hKeys : (l.map (·.1)).Nodup) (h : (key, v) ∈ l) : l.lookup key = some v := by
  induction l with
  | nil => cases h
  | cons i l ih =>
    rw [List.map_cons, List.nodup_cons] at hKeys
    obtain rfl | hTail := List.mem_cons.mp h
    · rw [List.lookup_cons_self]
    · have hNe : key ≠ i.1 := fun hEq => hKeys.1 (hEq ▸ List.mem_map_of_mem hTail)
      obtain ⟨k, u⟩ := i
      rw [List.lookup_cons, beq_false_of_ne hNe]
      exact ih hKeys.2 hTail

theorem received_lookup (hR : R.Lawful) (h : Readable R row items) {dict : List (String × Json.Value)}
    (hItems : items.Perm dict) {key : String} {v : Json.Value} (hv : (key, v) ∈ dict) :
    (received R row items).payload.lookup key = some (R.value v) := by
  have hPlain := Json.plain_loads hR.float h.payload
  have hKeys : ((items.map fun i => (i.1, R.value i.2)).map (·.1)).Nodup := by
    rw [List.map_map]
    exact hPlain.1
  exact lookup_of_mem hKeys (List.mem_map.mpr ⟨(key, v), hItems.mem_iff.mpr hv, rfl⟩)

theorem toString_ne (n : Nat) : toString n ≠ "" := by
  intro hEmpty
  have hList : (toString n).toList = Nat.toDigits 10 n := Nat.toList_repr
  rw [hEmpty] at hList
  exact Nat.toDigits_ne_nil hList.symm

theorem optInt_idText (hR : R.Lawful) (quantile : ℚ → List Int → ℚ) (i : Id) :
    optInt (R.outside quantile) (R.value (idText i)) = .ok (some (i : Int)) := by
  have hInt : pyInt (R.outside quantile) (.str (toString i)) = .ok (i : Int) := by
    change ((R.intOfStr (toString i)).map Except.ok).getD (.error Exn.valueError) = _
    rw [hR.int]
    rfl
  change (if toString i = "" then .ok none
    else orDefault none (some <$> pyInt (R.outside quantile) (.str (toString i)))) = _
  rw [if_neg (toString_ne i), hInt]
  rfl

/-- The time is one a `datetime` can have. -/
def InRange (t : Micros) : Prop := 0 ≤ t + unixEpoch ∧ t + unixEpoch < dateTimeEnd

theorem occurredAtAware_received (h : InRange row.occurredAt) :
    occurredAtAware (received R row items) = .ok (row.occurredAt + unixEpoch) := by
  simp only [occurredAtAware, received, Int.sub_zero]
  exact if_pos h

/-- The fact row that belongs to a stored answer. -/
def factOf (e : OutboxEvent) (answer : AnswerSubmission) (roomId questionId : Id) : AnswerEventsRow where
  eventId := e.id
  matchId := answer.matchId
  roomId := roomId
  participantId := answer.participantId
  questionId := questionId
  isCorrect := if answer.isCorrect then 1 else 0
  scoreAwarded := answer.scoreAwarded
  responseTimeMs := max 0 answer.responseTimeMs
  occurredAt := e.occurredAt + unixEpoch

/-- Its audit row. -/
def rawOf (R : Reader) (row : OutboxRow) (items : List (String × Json.Value))
    (answer : AnswerSubmission) (roomId questionId : Id) : EventsRawRow where
  eventId := row.id
  eventType := row.eventType
  aggregateType := row.aggregateType
  aggregateId := row.aggregateId
  roomId := some roomId
  matchId := some answer.matchId
  participantId := some answer.participantId
  questionId := some questionId
  occurredAt := row.occurredAt + unixEpoch
  payload := items.map fun i => (i.1, R.value i.2)

/-- The row is the event's, its payload column holds the event's payload, and its time is read. -/
structure Recorded (R : Reader) (e : OutboxEvent) (row : OutboxRow)
    (items : List (String × Json.Value)) : Prop where
  registers : Publisher.BackendEvent.Registers (.match' e) row
  readable : Readable R row items
  payload : items.Perm (eventDict e.payload)
  time : InRange row.occurredAt

theorem rowsOf_recorded (hR : R.Lawful) (quantile : ℚ → List Int → ℚ) {w : LiveQuiz.World}
    {e : OutboxEvent} {answer : AnswerSubmission} {roomId questionId : Id}
    (hReports : e.Reports w answer roomId questionId) (h : Recorded R e row items) :
    rowsOf (R.outside quantile) (received R row items) =
      .ok [(eventsRawTable, .raw (rawOf R row items answer roomId questionId)),
        (answerEventsTable, .answer (factOf e answer roomId questionId))] := by
  have hPayload : e.payload = .answerSubmitted answer.id answer.matchId roomId answer.matchQuestionId
      questionId answer.participantId answer.isCorrect answer.scoreAwarded answer.responseTimeMs
      e.occurredAt := congrArg OutboxEvent.payload hReports.event
  have hDict := h.payload
  rw [hPayload] at hDict
  have hLookup := fun key v => @received_lookup R row items hR h.readable _ hDict key v
  have hId : ∀ key i, (key, idText i) ∈ eventDict (.answerSubmitted answer.id answer.matchId roomId
      answer.matchQuestionId questionId answer.participantId answer.isCorrect answer.scoreAwarded
      answer.responseTimeMs e.occurredAt) →
      optInt (R.outside quantile) ((received R row items).payload.get key) = .ok (some (i : Int)) := by
    intro key i hi
    rw [Payload.get, hLookup key _ hi, Option.getD_some, optInt_idText hR]
  have hRoom := hId "room_id" roomId (by simp [eventDict])
  have hMatch := hId "match_id" answer.matchId (by simp [eventDict])
  have hParticipant := hId "participant_id" answer.participantId (by simp [eventDict])
  have hQuestion := hId "question_id" questionId (by simp [eventDict])
  have hAware : occurredAtAware (received R row items) = _ := occurredAtAware_received h.time
  have hRaw : envelopeToRawRow (R.outside quantile) (received R row items) =
      .ok (rawOf R row items answer roomId questionId) := by
    simp only [envelopeToRawRow, hRoom, hMatch, hParticipant, hQuestion, hAware]
    rfl
  have hFact : answerEventsRow (R.outside quantile) (received R row items) answer.matchId roomId
      answer.participantId questionId = .ok (factOf e answer roomId questionId) := by
    have hCorrect := hLookup "is_correct" (.bool answer.isCorrect) (by simp [eventDict])
    have hScore := hLookup "score_awarded" (.int answer.scoreAwarded) (by simp [eventDict])
    have hTime := hLookup "response_time_ms" (.int answer.responseTimeMs) (by simp [eventDict])
    have hEvent : (received R row items).eventId = (e.id : Int) := congrArg Int.ofNat h.registers.id
    have hAt : row.occurredAt = e.occurredAt := h.registers.occurredAt
    simp only [answerEventsRow, hScore, hTime, hAware, hEvent, hAt, Payload.get, hCorrect]
    rfl
  have hType : (received R row items).eventType ∈ answerEventTypes := by
    have hName : row.eventType = "AnswerSubmitted" := by
      rw [h.registers.eventType, Publisher.BackendEvent.eventType, hPayload]
    exact List.mem_singleton.mpr hName
  simp only [rowsOf, hRaw, if_pos hType]
  change (do
    let fact ← answerEventsRow (R.outside quantile) (received R row items) answer.matchId roomId
      answer.participantId questionId
    return [(eventsRawTable, Row.raw (rawOf R row items answer roomId questionId)),
      (answerEventsTable, .answer fact)]) = _
  rw [hFact]
  rfl

/-- In every state that the match service reaches, each AnswerSubmitted event belongs to a stored
answer, and whatever the publisher sends for it, the worker stores as that answer: its match, the
match's room, a participant of that room, the question of its match question, its grade, score
and time. -/
theorem answers_reach_clickhouse {seed : Seed} {S : SysState} (hR : R.Lawful)
    (quantile : ℚ → List Int → ℚ) (h : service.Reach (fun _ _ => True) (initial seed) S)
    {e : OutboxEvent} (he : e ∈ S.shared.db.outbox) (hAnswer : e.answer?.isSome)
    (hRow : Recorded R e row items) :
    ∃ answer ∈ S.shared.db.submissions, ∃ roomId questionId,
      Attributed S.shared answer roomId questionId ∧ e.aggregateId = answer.id ∧
      ∃ bytes env, envelopeBytes R.float (buildEnvelope row) = some bytes ∧
        R.parseEnvelope bytes = .ok env ∧
        rowsOf (R.outside quantile) env =
          .ok [(eventsRawTable, .raw (rawOf R row items answer roomId questionId)),
            (answerEventsTable, .answer (factOf e answer roomId questionId))] := by
  obtain ⟨answer, roomId, questionId, hReports⟩ := eventsReport_reach h e he hAnswer
  obtain ⟨bytes, hBytes, hParsed⟩ := parseEnvelope_envelopeBytes hR hRow.readable
  have hRows := rowsOf_recorded hR quantile hReports hRow
  exact ⟨answer, hReports.stored, roomId, questionId, hReports.attributed,
    congrArg OutboxEvent.aggregateId hReports.event, bytes, _, hBytes, hParsed, hRows⟩

end

namespace FactDemo

def event : OutboxEvent where
  id := 310
  aggregateType := .answerAggregate
  aggregateId := 308
  payload := .answerSubmitted 308 54 1 56 100 21 true 1000 0 0
  occurredAt := 0

def row : OutboxRow where
  id := 310
  aggregateType := "answer"
  aggregateId := 308
  eventType := "AnswerSubmitted"
  payload := Json.dumps (.obj (eventDict event.payload))
  occurredAt := 0
  publishedAt := none
  publishAttempts := 0

theorem row_recorded : Recorded WireDemo.reader event row (eventDict event.payload) where
  registers := ⟨rfl, rfl, rfl, rfl, rfl⟩
  readable :=
    { payload := Json.loads_dumps _
        ⟨by decide, trivial, trivial, trivial, trivial, trivial, trivial, trivial, trivial, trivial,
          trivial, trivial⟩
      time := by
        have hText : isoZ row.occurredAt = "1970-01-01T00:00:00Z" := by decide +kernel
        rw [hText]
        rfl }
  payload := .refl _
  time := ⟨by decide, by decide⟩

end FactDemo

theorem answers_reach_clickhouse_ann : ∃ S : SysState,
    ∃ answer ∈ S.shared.db.submissions, ∃ roomId questionId,
      Attributed S.shared answer roomId questionId ∧ FactDemo.event.aggregateId = answer.id ∧
      ∃ bytes env, envelopeBytes WireDemo.reader.float (buildEnvelope FactDemo.row) = some bytes ∧
        WireDemo.reader.parseEnvelope bytes = .ok env ∧
        rowsOf (WireDemo.reader.outside fun _ xs => xs.headD 0) env =
          .ok [(eventsRawTable, .raw (rawOf WireDemo.reader FactDemo.row
              (eventDict FactDemo.event.payload) answer roomId questionId)),
            (answerEventsTable, .answer (factOf FactDemo.event answer roomId questionId))] := by
  have hRun : (service.run (initial Demo.seed) Demo.annAnswers).any
      (fun S => FactDemo.event ∈ S.shared.db.outbox) = true := by decide +kernel
  obtain ⟨S, hReach, hS⟩ := Machine.Reach.exists_of_run hRun
  exact ⟨S, answers_reach_clickhouse WireDemo.reader_lawful _ hReach (of_decide_eq_true hS) rfl
    FactDemo.row_recorded⟩

end Stream

end LiveQuiz
