import LiveQuiz.Stream.Once
import LiveQuiz.Results.NoLoss

/-! # No event is stored twice

However often a message is delivered or published again, whatever fails and restarts: an
event has at most one row in each of its tables, while the claims persist.
-/

namespace LiveQuiz.Stream

open Coroutine

set_option autoImplicit false

section

variable {L : Outside} {S : WorkerState}

/-- Over every run in which no claim expires, of all the rows ClickHouse ever took. -/
theorem stored_at_most_once
    (h : (worker L).Reach (fun S l =>
      Machine.admits (fun _ _ _ => true) Once.keepsClaims S l = true) blank S) (i : Int) :
    tally eventsRawTable i S.shared.inserted ≤ 1 ∧
      tally answerEventsTable i S.shared.inserted ≤ 1 := by
  have hInv := ((Once.sound L).kept (Once.kept_blank L) h.restrict).inv
  have hAny : ∀ table, tally table i S.shared.inserted ≤ 1 := by
    intro table
    have hWithin := hInv.within table i
    have hOne : (if i ∈ S.shared.seen then 1 else 0) ≤ 1 := by
      split <;> omega
    omega
  exact ⟨hAny _, hAny _⟩

end

/-- One answer is published twice; the process restarts after its first flush and before
the commit, and reads both messages again. -/
theorem stored_at_most_once_again : ∃ S : WorkerState,
    (tally eventsRawTable 7 S.shared.inserted ≤ 1 ∧
      tally answerEventsTable 7 S.shared.inserted ≤ 1) ∧
    S.shared.committed Demo.answers = 2 ∧ tally eventsRawTable 7 S.shared.inserted = 1 := by
  have hRun : ((worker Demo.outside).runWhile
      (Machine.admits (fun _ _ _ => true) Once.keepsClaims) blank
      ([.env (.produce Demo.answers Demo.answerMessage)] ++ Demo.answered ++ Demo.roundOf 0 8 ++
        [.env .restart] ++ Demo.roundOf 1 6 ++ Demo.roundOf 2 6)).any (fun S =>
          S.shared.committed Demo.answers = 2 ∧ tally eventsRawTable 7 S.shared.inserted = 1) = true := by
    decide +kernel
  obtain ⟨S, hReach, hS⟩ := Machine.Reach.exists_of_runWhile hRun
  obtain ⟨hCommitted, hOne⟩ := of_decide_eq_true hS
  exact ⟨S, stored_at_most_once hReach 7, hCommitted, hOne⟩

end LiveQuiz.Stream
