import LiveQuiz.Stream.Rounds

/-! # No event is lost behind a commit

A committed offset covers only messages whose rows ClickHouse has taken, in every run
in which a claimed event always gets its rows through. One restart between the claim
and the flush is enough to lose an event.
-/

namespace LiveQuiz.Stream

open Coroutine

set_option autoImplicit false

section

variable {L : Outside} {S : WorkerState}

theorem inv_reach
    (h : (worker L).Reach (fun S l => Machine.admits carefulOp (carefulEnv L) S l = true) blank S) :
    Inv L S.shared :=
  ((sound L).kept (kept_blank L) h.restrict).inv

theorem Written.rows {w : World} {env : Envelope} (h : Written L w env) :
    ∃ raw, envelopeToRawRow L env = .ok raw ∧ (eventsRawTable, .raw raw) ∈ w.inserted ∧
      (env.eventType ∈ answerEventTypes → ∀ m r p q, raw.matchId = some m → raw.roomId = some r →
        raw.participantId = some p → raw.questionId = some q →
        ∃ row, answerEventsRow L env m r p q = .ok row ∧
          (answerEventsTable, .answer row) ∈ w.inserted) := by
  obtain ⟨rows, hRows, hIn⟩ := h
  obtain ⟨raw, rest, hRaw, rfl, -⟩ := rowsOf_raw hRows
  refine ⟨raw, hRaw, hIn _ (List.mem_cons_self ..), fun hType m r p q hm hr hp hq => ?_⟩
  obtain ⟨m', r', p', q', row, hIds, hRow, hTwo⟩ | ⟨hIds, -⟩ := rowsOf_answer hRows hRaw hType
  · rw [hm, hr, hp, hq] at hIds
    cases hIds
    refine ⟨row, hRow, hIn _ ?_⟩
    rw [hTwo]
    simp
  · exact absurd (by rw [hm, hr, hp, hq]) (hIds m r p q)

/-- While inserts do not raise, a failed claim has no effect and is followed by a
restart, restarts find the rows of all claimed events written, and messages with one
event id have one envelope that can be made into rows: a message below the committed
offset has its `events_raw` row in ClickHouse, and an answer with all four ids its
`answer_events` row. -/
theorem committed_is_stored
    (h : (worker L).Reach (fun S l => Machine.admits carefulOp (carefulEnv L) S l = true) blank S)
    {tp : TopicPartition} {i : Nat} {value : Bytes} {env : Envelope}
    (hOffset : i < S.shared.committed tp) (hValue : (S.shared.messages tp)[i]? = some value)
    (hEnv : L.parseEnvelope value = .ok env) (hVersion : env.schemaVersion = currentSchemaVersion) :
    ∃ raw, envelopeToRawRow L env = .ok raw ∧ (eventsRawTable, .raw raw) ∈ S.shared.inserted ∧
      (env.eventType ∈ answerEventTypes → ∀ m r p q, raw.matchId = some m → raw.roomId = some r →
        raw.participantId = some p → raw.questionId = some q →
        ∃ row, answerEventsRow L env m r p q = .ok row ∧
          (answerEventsTable, .answer row) ∈ S.shared.inserted) := by
  have hStorable : storable L value = some env := by
    simp only [storable, hEnv, hVersion, if_true]
  exact (((inv_reach h).committed tp).2 i value env hOffset hValue hStorable).rows

end

namespace Demo

/-- The bytes of
`{"event_id":7,"event_type":"AnswerSubmitted","aggregate_type":"match","aggregate_id":54,
"occurred_at":0,"producer":"api","schema_version":1,"payload":{"match_id":54,"room_id":1,
"participant_id":21,"question_id":100}}`. -/
def answerMessage : Bytes :=
  [123, 34, 101, 118, 101, 110, 116, 95, 105, 100, 34, 58, 55, 44, 34, 101, 118, 101, 110, 116,
    95, 116, 121, 112, 101, 34, 58, 34, 65, 110, 115, 119, 101, 114, 83, 117, 98, 109, 105, 116,
    116, 101, 100, 34, 44, 34, 97, 103, 103, 114, 101, 103, 97, 116, 101, 95, 116, 121, 112, 101,
    34, 58, 34, 109, 97, 116, 99, 104, 34, 44, 34, 97, 103, 103, 114, 101, 103, 97, 116, 101, 95,
    105, 100, 34, 58, 53, 52, 44, 34, 111, 99, 99, 117, 114, 114, 101, 100, 95, 97, 116, 34, 58,
    48, 44, 34, 112, 114, 111, 100, 117, 99, 101, 114, 34, 58, 34, 97, 112, 105, 34, 44, 34, 115,
    99, 104, 101, 109, 97, 95, 118, 101, 114, 115, 105, 111, 110, 34, 58, 49, 44, 34, 112, 97,
    121, 108, 111, 97, 100, 34, 58, 123, 34, 109, 97, 116, 99, 104, 95, 105, 100, 34, 58, 53, 52,
    44, 34, 114, 111, 111, 109, 95, 105, 100, 34, 58, 49, 44, 34, 112, 97, 114, 116, 105, 99, 105,
    112, 97, 110, 116, 95, 105, 100, 34, 58, 50, 49, 44, 34, 113, 117, 101, 115, 116, 105, 111,
    110, 95, 105, 100, 34, 58, 49, 48, 48, 125, 125]

def answerEnvelope : Envelope where
  eventId := 7
  eventType := "AnswerSubmitted"
  aggregateType := "match"
  aggregateId := 54
  occurredAt := ⟨62135596800000000, some 0⟩
  producer := "api"
  schemaVersion := 1
  payload := [("match_id", .int 54), ("room_id", .int 1), ("participant_id", .int 21),
    ("question_id", .int 100)]

/-- The parser on that message. -/
def outside : Outside where
  parseEnvelope value := if value = answerMessage then .ok answerEnvelope else .error .invalid
  intOfStr _ := none
  quantile _ xs := xs.headD 0

theorem outside_parse : outside.parseEnvelope answerMessage = .ok answerEnvelope := by
  simp [outside]

def answers : TopicPartition := ⟨"livequiz.events.answer", 0⟩

def roundOf (pid n : Nat) : List WorkerLabel := List.replicate n (.op pid { batch := [(answers, 1)] })

def answered : List WorkerLabel := [.env (.produce answers answerMessage), .env .restart]

end Demo

/-- One answer goes all the way. -/
theorem committed_is_stored_answer : ∃ S : WorkerState, S.shared.committed Demo.answers = 1 ∧
    ∃ raw, envelopeToRawRow Demo.outside Demo.answerEnvelope = .ok raw ∧
      (eventsRawTable, .raw raw) ∈ S.shared.inserted := by
  have hRun : ((worker Demo.outside).runWhile
      (Machine.admits carefulOp (carefulEnv Demo.outside)) blank
      (Demo.answered ++ Demo.roundOf 0 9)).any (fun S => S.shared.committed Demo.answers = 1 ∧
        (S.shared.messages Demo.answers)[0]? = some Demo.answerMessage) = true := by decide +kernel
  obtain ⟨S, hReach, hS⟩ := Machine.Reach.exists_of_runWhile hRun
  obtain ⟨hCommitted, hValue⟩ := of_decide_eq_true hS
  obtain ⟨raw, hRaw, hIn, -⟩ :=
    committed_is_stored hReach (by rw [hCommitted]; decide) hValue Demo.outside_parse rfl
  exact ⟨S, hCommitted, raw, hRaw, hIn⟩

/-- The process restarts after the answer has been claimed and buffered: the answer
is read again, taken for a duplicate and committed, and no row of it exists. -/
theorem claimed_and_lost : ∃ S,
    (worker Demo.outside).Reach (fun _ _ => True) blank S ∧
    S.shared.committed Demo.answers = 1 ∧
    (S.shared.messages Demo.answers)[0]? = some Demo.answerMessage ∧
    (∃ env, Demo.outside.parseEnvelope Demo.answerMessage = .ok env ∧
      env.schemaVersion = currentSchemaVersion) ∧ S.shared.inserted = [] := by
  have hRun : ((worker Demo.outside).run blank
      (Demo.answered ++ Demo.roundOf 0 5 ++ [.env .restart] ++ Demo.roundOf 1 5)).any (fun S =>
        S.shared.committed Demo.answers = 1 ∧
        (S.shared.messages Demo.answers)[0]? = some Demo.answerMessage ∧ S.shared.inserted = []) = true := by
    decide +kernel
  obtain ⟨S, hReach, hS⟩ := Machine.Reach.exists_of_run hRun
  obtain ⟨hCommitted, hValue, hNone⟩ := of_decide_eq_true hS
  exact ⟨S, hReach, hCommitted, hValue, ⟨_, Demo.outside_parse, rfl⟩, hNone⟩

end LiveQuiz.Stream
