import LiveQuiz.Publisher.Run

/-! # The outbox publisher loses nothing

A row is marked published only after the broker's acknowledgement, no row is in two open
batches, and the attempts stop at their limit, on any number of replicas.
-/

namespace LiveQuiz.Publisher

open Coroutine

set_option autoImplicit false

/-- The open transaction of program `pid` has selected the row. -/
def SelectedBy (w : World) (pid : Nat) (i : Id) : Prop := ∃ tx, w.tx pid = some tx ∧ i ∈ tx.selected

variable {S : PublisherState}

/-- In every run of any number of publishers, with any failures and crashes. -/
theorem outbox_no_loss (h : publisher.Reach (fun _ _ => True) blank S) :
    (∀ row ∈ S.shared.table, row.publishedAt.isSome → Acked S.shared row) ∧
    (∀ p q i, SelectedBy S.shared p i → SelectedBy S.shared q i → p = q) ∧
    ∀ row ∈ S.shared.table, row.publishAttempts ≤ maxPublishAttempts := by
  have hInv := (kept_of_reach h).inv
  refine ⟨hInv.published, ?_, hInv.attempts⟩
  rintro p q i ⟨tx, hTx, hMem⟩ ⟨tx', hTx', hMem'⟩
  have hLock := (hInv.tx p tx hTx).selected i hMem
  have hLock' := (hInv.tx q tx' hTx').selected i hMem'
  rw [hLock] at hLock'
  exact Option.some.inj hLock'

namespace Demo

def event (i : Id) (type : String) : OutboxRow :=
  ⟨i, "match", 54, type, "\x7b\x7d", i, none, 0⟩

def calls (pid k : Nat) : List PublisherLabel := List.replicate k (.op pid {})

/-- Two replicas select while the other's batch is open; one send is refused, and the
second replica dies inside its batch. -/
def twoReplicas : List PublisherLabel :=
  [.env (.insert (event 1 "MatchStarted")), .env (.insert (event 2 "QuestionStarted")),
    .env (.boot 0), .env (.boot 1)] ++ calls 0 3 ++
    [.env (.insert (event 3 "Unknown"))] ++ calls 1 3 ++ calls 0 2 ++
    [.op 0 { fault := .fail .kafka }] ++ calls 0 4 ++ calls 1 1 ++ [.env (.crash 1)]

end Demo

theorem outbox_no_loss_two_replicas : ∃ S, publisher.Reach (fun _ _ => True) blank S ∧
    ((∀ row ∈ S.shared.table, row.publishedAt.isSome → Acked S.shared row) ∧
      (∀ p q i, SelectedBy S.shared p i → SelectedBy S.shared q i → p = q) ∧
      ∀ row ∈ S.shared.table, row.publishAttempts ≤ maxPublishAttempts) ∧
    S.shared.table.map (fun row => (row.id, row.publishedAt, row.publishAttempts)) =
      [(1, some 0, 0), (2, none, 1), (3, none, 0)] ∧
    (S.shared.tx 1).map (·.selected) = some [3] := by
  have hRun : (publisher.run blank Demo.twoReplicas).any (fun S =>
      S.shared.table.map (fun row => (row.id, row.publishedAt, row.publishAttempts)) =
        [(1, some 0, 0), (2, none, 1), (3, none, 0)] ∧
      (S.shared.tx 1).map (·.selected) = some [3]) = true := by
    decide +kernel
  obtain ⟨S, hReach, hS⟩ := Machine.Reach.exists_of_run hRun
  exact ⟨S, hReach, outbox_no_loss hReach, of_decide_eq_true hS⟩

end LiveQuiz.Publisher
