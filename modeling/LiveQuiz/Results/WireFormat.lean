import LiveQuiz.Publisher.Sources
import LiveQuiz.Stream.Wire

/-! # The worker reads what the publisher writes

Whatever the payload of a row, its message is parsed into the row's own values, and the
broker holds the messages of rows only.
-/

namespace LiveQuiz.Stream

open Coroutine
open LiveQuiz.Publisher (OutboxRow PublisherState buildEnvelope producerName topicFor
  topicDeadLetter publisher)

set_option autoImplicit false

variable {R : Reader}

theorem decode_encode (s : String) : decode (encode s) = some s := by
  have hBytes : (⟨(encode s).toArray⟩ : ByteArray) = s.toByteArray := rfl
  rw [decode, hBytes, String.fromUTF8?, dif_pos s.isValidUTF8]
  rfl

/-- What the worker is to make of the row. -/
def received (R : Reader) (row : OutboxRow) (items : List (String × Json.Value)) : Envelope where
  eventId := row.id
  eventType := row.eventType
  aggregateType := row.aggregateType
  aggregateId := row.aggregateId
  occurredAt := ⟨row.occurredAt + unixEpoch, some 0⟩
  producer := producerName
  schemaVersion := currentSchemaVersion
  payload := items.map fun i => (i.1, R.value i.2)

/-- The row's payload is a dict, and pydantic reads its time. -/
structure Readable (R : Reader) (row : OutboxRow) (items : List (String × Json.Value)) : Prop where
  payload : Json.loads R.float row.payload = some (.obj items)
  time : R.datetime (.str (isoZ row.occurredAt)) = some ⟨row.occurredAt + unixEpoch, some 0⟩

theorem plain_envelopeDict {e : Publisher.Envelope} {payload : Json.Value}
    (h : payload.Plain R.float) : (envelopeDict e payload).Plain R.float := by
  refine ⟨by simp, (Json.plainMembers_iff _).mpr fun i hi => ?_⟩
  simp only [List.mem_cons, List.not_mem_nil, or_false] at hi
  rcases hi with rfl | rfl | rfl | rfl | rfl | rfl | rfl | rfl
  case inr.inr.inr.inr.inr.inr.inr => exact h
  all_goals trivial

theorem modelValidate_envelopeDict (hR : R.Lawful) {row : OutboxRow}
    {items : List (String × Json.Value)} (h : Readable R row items) :
    R.modelValidate (envelopeDict (buildEnvelope row) (.obj items)) = .ok (received R row items) := by
  have hInt (i : Id) : R.coerceInt (idText i) = .ok (i : Int) := by
    rw [idText, Reader.coerceInt, hR.int]
    rfl
  have hTime : R.readDatetime (.str (isoZ row.occurredAt)) =
      .ok ⟨row.occurredAt + unixEpoch, some 0⟩ := by
    rw [Reader.readDatetime, h.time]
    rfl
  have hVersion : R.readInt (.int Publisher.schemaVersion) = .ok currentSchemaVersion := by
    rw [Reader.readInt, hR.laxInt]
    rfl
  simp [Reader.modelValidate, envelopeDict, Reader.field, List.lookup_cons, buildEnvelope, hInt, hTime,
    hVersion, Reader.uncaught, Reader.readStr, Reader.readPayload, Reader.fieldNames, received]
  rfl

theorem parseEnvelope_envelopeBytes (hR : R.Lawful) {row : OutboxRow}
    {items : List (String × Json.Value)} (h : Readable R row items) :
    ∃ bytes, envelopeBytes R.float (buildEnvelope row) = some bytes ∧
      R.parseEnvelope bytes = .ok (received R row items) := by
  have hPayload : Json.loads R.float (buildEnvelope row).payload = some (.obj items) := h.payload
  refine ⟨_, by rw [envelopeBytes, hPayload, Option.map_some], ?_⟩
  have hPlain := plain_envelopeDict (e := buildEnvelope row) (Json.plain_loads hR.float h.payload)
  rw [Reader.parseEnvelope, decode_encode, Option.bind_some, Json.loads_dumps _ hPlain]
  exact modelValidate_envelopeDict hR h

/-- The record with these bytes is the row's, and the worker reads it as the row. -/
structure Carries (R : Reader) (bytes : Bytes) (topic : String) (row : OutboxRow) : Prop where
  routed : topic = topicFor row.eventType ∨ topic = topicDeadLetter
  written : envelopeBytes R.float (buildEnvelope row) = some bytes
  parsed : ∃ items, Json.loads R.float row.payload = some (.obj items) ∧
    R.parseEnvelope bytes = .ok (received R row items)

/-- In every run of any number of publishers, with any failures and crashes: what the broker
has acknowledged are records of rows of the table, each of which the worker parses into that
row's ids, types, time and payload, and every row that is marked published has such a record. -/
theorem worker_reads_outbox {S : PublisherState} (hR : R.Lawful)
    (h : publisher.Reach (fun _ _ => True) Publisher.blank S)
    (hRows : ∀ row ∈ S.shared.table, ∃ items, Readable R row items) :
    (∀ r topic e, (r, .acked topic e) ∈ S.shared.log →
      ∃ row ∈ S.shared.table, ∃ bytes, envelopeBytes R.float e = some bytes ∧
        Carries R bytes topic row) ∧
    ∀ row ∈ S.shared.table, row.publishedAt.isSome → ∃ r topic e bytes,
      (r, .acked topic e) ∈ S.shared.log ∧ envelopeBytes R.float e = some bytes ∧
        Carries R bytes topic row := by
  constructor
  · intro r topic e he
    obtain ⟨⟨row, hRow, rfl⟩, hTopic⟩ := Publisher.sourced_of_reach h r topic e he
    obtain ⟨items, hItems⟩ := hRows row hRow
    obtain ⟨bytes, hBytes, hParsed⟩ := parseEnvelope_envelopeBytes hR hItems
    exact ⟨row, hRow, bytes, hBytes, hTopic, hBytes, items, hItems.payload, hParsed⟩
  · intro row hRow hPublished
    obtain ⟨r, topic, hAcked, hTopic⟩ := (Publisher.kept_of_reach h).inv.published row hRow hPublished
    obtain ⟨items, hItems⟩ := hRows row hRow
    obtain ⟨bytes, hBytes, hParsed⟩ := parseEnvelope_envelopeBytes hR hItems
    exact ⟨r, topic, _, bytes, hAcked, hBytes, hTopic, hBytes, items, hItems.payload, hParsed⟩

namespace WireDemo

def float (token : String) : Json.Value := if token = "1.5" then .real "1.5" else .nan

/-- The reader on the texts of the runs: 1.5 is the only float, and there are two times. -/
def reader : Reader where
  float := float
  rational token := if token = "1.5" then 3 / 2 else 0
  intOfStr s :=
    if s.toList.all Char.isDigit ∧ s ≠ "" then some (Nat.ofDigitChars 10 s.toList 0 : Nat) else none
  laxInt
    | .int n => some n
    | _ => none
  datetime
    | .str s =>
      if s = "1970-01-01T00:00:00Z" then some ⟨0 + unixEpoch, some 0⟩
      else if s = "1970-01-01T00:00:01.500000Z" then some ⟨1500000 + unixEpoch, some 0⟩
      else none
    | _ => none

theorem float_text : Json.readNumber float "1.5".toList = some (.real "1.5", []) := rfl

theorem reader_lawful : reader.Lawful where
  float token := by
    change (float token).Plain float
    unfold float
    split
    · exact float_text
    · trivial
  int n := by
    have hList : (toString n).toList = Nat.toDigits 10 n := Nat.toList_repr
    have hDigits : (Nat.toDigits 10 n).all Char.isDigit := by
      rw [List.all_eq_true]
      exact fun c hc => Nat.isDigit_of_mem_toDigits (by omega) (by omega) hc
    have hSome : toString n ≠ "" := by
      intro hEmpty
      rw [hEmpty] at hList
      exact Nat.toDigits_ne_nil hList.symm
    change (if (toString n).toList.all Char.isDigit ∧ toString n ≠ "" then
      some ((Nat.ofDigitChars 10 (toString n).toList 0 : Nat) : Int) else none) = some (n : Int)
    rw [if_pos ⟨hList ▸ hDigits, hSome⟩, hList, Nat.ofDigitChars_ten_toDigits]
  laxInt _ := rfl

def items : List (String × Json.Value) := [("match_id", .str "54"), ("speed", .real "1.5")]

def row : OutboxRow where
  id := 7
  aggregateType := "match"
  aggregateId := 54
  eventType := "MatchStarted"
  payload := Json.dumps (.obj items)
  occurredAt := 1500000
  publishedAt := none
  publishAttempts := 0

theorem row_readable (r : OutboxRow) (hPayload : r.payload = row.payload)
    (hTime : r.occurredAt = row.occurredAt) : Readable reader r items where
  payload := by
    rw [hPayload]
    exact Json.loads_dumps _ ⟨by decide, trivial, float_text, trivial⟩
  time := by
    rw [hTime]
    have hText : isoZ row.occurredAt = "1970-01-01T00:00:01.500000Z" := by decide +kernel
    rw [hText]
    rfl

/-- The row is inserted, published and marked. -/
def published : List Publisher.PublisherLabel :=
  [.env (.insert row), .env (.boot 0)] ++ List.replicate 7 (.op 0 {})

end WireDemo

theorem worker_reads_outbox_published : ∃ S : PublisherState,
    S.shared.table.map (fun row => (row.id, row.publishedAt)) = [(7, some 0)] ∧
    ∀ row ∈ S.shared.table, row.publishedAt.isSome → ∃ r topic e bytes,
      (r, .acked topic e) ∈ S.shared.log ∧ envelopeBytes WireDemo.reader.float e = some bytes ∧
        Carries WireDemo.reader bytes topic row := by
  have hRun : (publisher.run Publisher.blank WireDemo.published).any (fun S =>
      S.shared.table.map (fun row => (row.id, row.publishedAt)) = [(7, some 0)] ∧
      ∀ row ∈ S.shared.table, row.payload = WireDemo.row.payload ∧
        row.occurredAt = WireDemo.row.occurredAt) = true := by decide +kernel
  obtain ⟨S, hReach, hS⟩ := Machine.Reach.exists_of_run hRun
  obtain ⟨hTable, hRows⟩ := of_decide_eq_true hS
  refine ⟨S, hTable, (worker_reads_outbox WireDemo.reader_lawful hReach fun row hRow => ?_).2⟩
  exact ⟨WireDemo.items, WireDemo.row_readable row (hRows row hRow).1 (hRows row hRow).2⟩

end LiveQuiz.Stream
