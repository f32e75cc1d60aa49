import LiveQuiz.Publisher.Refusals
import LiveQuiz.Publisher.Producers

/-! # The dead-letter topic

An event is sent there when its attempts are exhausted, or when the routing table does
not know its type. Of all that the backend registers, this is the publishing of a quiz.
-/

namespace LiveQuiz.Publisher

open Coroutine

set_option autoImplicit false

/-- Every inserted row is that of a backend event of this kind. -/
def Inserts (kind : BackendEvent → Prop) : PublisherLabel → Prop
  | .env (.insert row) => ∃ event, BackendEvent.Registers event row ∧ kind event
  | _ => True

theorem admits_of_inserts {S : PublisherState} {l : PublisherLabel}
    (h : Inserts (fun event => event.isQuizPublished = false) l) :
    Machine.admits (fun _ _ _ => true) routedEnv S l = true := by
  cases l with
  | op pid d =>
    simp only [Machine.admits]
    split <;> rfl
  | env a =>
    cases a with
    | insert row =>
      obtain ⟨event, hRow, hKind⟩ := h
      apply decide_eq_true
      rw [hRow.eventType]
      intro hDead
      rw [event.topicFor_dead_iff, hKind] at hDead
      cases hDead
    | _ => rfl

/-- In every run of backend operations and of any number of publishers in which no quiz
is published. -/
theorem only_exhausted_dead_lettered {S : PublisherState}
    (h : publisher.Reach (fun _ l => Inserts (fun event => event.isQuizPublished = false) l)
      blank S) : OnlyExhausted S.shared.log :=
  (tallied_of_reach (h.mono fun _ _ hl => admits_of_inserts hl)).exhausted

namespace Demo

def roomCreated : BackendEvent :=
  .room ⟨1, 54, .roomCreated 54 "ABC123" 7 10 50 [], 0⟩

def quizPublished : BackendEvent := .quizPublished ⟨1, 10, 2, 7, "sums", 0⟩

def rowOf (event : BackendEvent) : OutboxRow :=
  ⟨event.id, event.aggregateType, event.aggregateId, event.eventType, "\x7b\x7d", event.occurredAt,
    none, 0⟩

def insertsOnly (event : BackendEvent) (_ : PublisherState) : PublisherLabel → Bool
  | .env (.insert row) => row = rowOf event
  | _ => true

def rounds (pid k : Nat) : List PublisherLabel := List.replicate k (.op pid {})

def refusedRound (pid : Nat) : List PublisherLabel :=
  rounds pid 3 ++ [.op pid { fault := .fail .kafka }] ++ rounds pid 6

/-- Ten refused sends, and the send of the eleventh round. -/
def exhausted : List PublisherLabel :=
  [.env (.insert (rowOf roomCreated)), .env (.boot 0)] ++
    (List.range 10).flatMap refusedRound ++ rounds 10 4

def unrouted : List PublisherLabel :=
  [.env (.insert (rowOf quizPublished)), .env (.boot 0)] ++ rounds 0 4

end Demo

theorem inserts_of_insertsOnly {event : BackendEvent} {kind : BackendEvent → Prop}
    {S : PublisherState} {l : PublisherLabel} (hKind : kind event)
    (h : Demo.insertsOnly event S l = true) : Inserts kind l := by
  cases l with
  | op pid d => trivial
  | env a =>
    cases a with
    | insert row =>
      obtain rfl : row = Demo.rowOf event := of_decide_eq_true h
      exact ⟨event, ⟨rfl, rfl, rfl, rfl, rfl⟩, hKind⟩
    | _ => trivial

theorem only_exhausted_dead_lettered_room : ∃ S : PublisherState, OnlyExhausted S.shared.log ∧
    (0, .acked topicDeadLetter (buildEnvelope (Demo.rowOf Demo.roomCreated))) ∈ S.shared.log := by
  have hRun : (publisher.runWhile (Demo.insertsOnly Demo.roomCreated) blank Demo.exhausted).any
      (fun S => (0, .acked topicDeadLetter (buildEnvelope (Demo.rowOf Demo.roomCreated))) ∈
        S.shared.log) = true := by
    decide +kernel
  obtain ⟨S, hReach, hS⟩ := Machine.Reach.exists_of_runWhile hRun
  exact ⟨S, only_exhausted_dead_lettered (hReach.mono fun _ _ hl => inserts_of_insertsOnly rfl hl),
    of_decide_eq_true hS⟩

/-- The event of a published quiz goes to the dead-letter topic at once. -/
theorem published_quiz_dead_lettered : ∃ S, publisher.Reach (fun _ l => Inserts (fun _ => True) l)
    blank S ∧ ¬ OnlyExhausted S.shared.log := by
  have hRun : (publisher.runWhile (Demo.insertsOnly Demo.quizPublished) blank Demo.unrouted).any
      (fun S => S.shared.log =
        [(0, .acked topicDeadLetter (buildEnvelope (Demo.rowOf Demo.quizPublished)))]) = true := by
    decide +kernel
  obtain ⟨S, hReach, hS⟩ := Machine.Reach.exists_of_runWhile hRun
  refine ⟨S, hReach.mono fun _ _ hl => inserts_of_insertsOnly trivial hl, fun hOnly => ?_⟩
  rw [of_decide_eq_true hS] at hOnly
  have hMany := hOnly 0 0 _ _ rfl (.inl rfl)
  simp [refusals, maxPublishAttempts] at hMany

end LiveQuiz.Publisher
