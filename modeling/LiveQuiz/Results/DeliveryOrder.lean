import LiveQuiz.Publisher.Order
import LiveQuiz.Results.Published

/-! # The order of deliveries

The first deliveries of the events of one aggregate come on their topic in the order of
`occurred_at`, as long as no refused send leaves an event behind a later one of its batch.
-/

namespace LiveQuiz.Publisher

open Coroutine

set_option autoImplicit false

variable {S : PublisherState}

/-- In every run of one publisher in which events of an aggregate and topic are committed
with increasing `occurred_at`, and no send to the event's own topic raises a KafkaError
while a later event of its aggregate and topic is in the batch. -/
theorem delivered_in_order
    (h : publisher.Reach (fun S l => Machine.admits inOrderOp inOrderEnv S l = true) blank S)
    {topic : String} {a b : Envelope} (ha : a ∈ delivered S.shared topic)
    (hb : b ∈ delivered S.shared topic) (haTopic : topicFor a.eventType = topic)
    (hbTopic : topicFor b.eventType = topic) (hKey : a.aggregateId = b.aggregateId)
    (hLt : a.occurredAt < b.occurredAt) :
    (delivered S.shared topic).idxOf a < (delivered S.shared topic).idxOf b := by
  have hPrecedes : a.precedes b = true :=
    decide_eq_true ⟨hKey, haTopic.trans hbTopic.symm, hLt⟩
  exact (ordered_of_reach h).order topic a ha b hb haTopic hPrecedes

namespace Demo

def startOfMatch : Envelope := buildEnvelope (event 1 "MatchStarted")

def startOfQuestion : Envelope := buildEnvelope (event 2 "QuestionStarted")

def twoEvents : List PublisherLabel :=
  [.env (.insert (event 1 "MatchStarted")), .env (.insert (event 2 "QuestionStarted")),
    .env (.boot 0)] ++ calls 0 3

/-- The first send is refused, the second goes through; the next round sends the first
event. -/
def refusedOnce : List PublisherLabel :=
  twoEvents ++ [.op 0 { fault := .fail .kafka }] ++ calls 0 7 ++ calls 1 4

def lastRefused : List PublisherLabel :=
  twoEvents ++ calls 0 2 ++ [.op 0 { fault := .fail .kafka }] ++ calls 0 5 ++ calls 1 4

end Demo

theorem delivered_in_order_last_refused : ∃ S : PublisherState,
    delivered S.shared topicMatch = [Demo.startOfMatch, Demo.startOfQuestion] ∧
      (delivered S.shared topicMatch).idxOf Demo.startOfMatch <
        (delivered S.shared topicMatch).idxOf Demo.startOfQuestion := by
  have hRun : (publisher.runWhile (Machine.admits inOrderOp inOrderEnv) blank
      Demo.lastRefused).any (fun S =>
        delivered S.shared topicMatch = [Demo.startOfMatch, Demo.startOfQuestion]) = true := by
    decide +kernel
  obtain ⟨S, hReach, hS⟩ := Machine.Reach.exists_of_runWhile hRun
  have hDelivered := of_decide_eq_true hS
  refine ⟨S, hDelivered, delivered_in_order hReach ?_ ?_ ?_ ?_ rfl (by decide)⟩
  · simp [hDelivered]
  · simp [hDelivered]
  · decide
  · decide

/-- The start of the match is refused once while the start of its first question goes
through: they come on their topic the wrong way round. -/
theorem delivered_out_of_order : ∃ S, publisher.Reach (fun _ _ => True) blank S ∧
    delivered S.shared topicMatch = [Demo.startOfQuestion, Demo.startOfMatch] ∧
    Demo.startOfMatch.aggregateId = Demo.startOfQuestion.aggregateId ∧
    Demo.startOfMatch.occurredAt < Demo.startOfQuestion.occurredAt := by
  have hRun : (publisher.run blank Demo.refusedOnce).any (fun S =>
      delivered S.shared topicMatch = [Demo.startOfQuestion, Demo.startOfMatch]) = true := by
    decide +kernel
  obtain ⟨S, hReach, hS⟩ := Machine.Reach.exists_of_run hRun
  exact ⟨S, hReach, of_decide_eq_true hS, rfl, by decide⟩

end LiveQuiz.Publisher
