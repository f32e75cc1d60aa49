import LiveQuiz.Results.Lifecycle

/-! # Who ends a match

`close_question` on the last position calls `end_match`, whose first act is to
cancel the scheduler's entry for the match. For a timer that entry is the timer
itself, so its next statement raises CancelledError and nothing is committed: a
match ends by the host's request or by the close task of a recovery, and by
nothing else.
-/

namespace LiveQuiz

open Coroutine

set_option autoImplicit false

/-- The transaction is the one of `end_match` for this match. -/
def EndsMatch (m : Id) (ws : List Write) : Prop :=
  ∃ e, .insertEvent e ∈ ws ∧ e.payload.finishesMatch m = true

section

variable {n pid : Nat} {w : World} {job : Job} {ws : List Write} {m : Id}

theorem endsMatch_iff : EndsMatch m ws ↔
    ∃ e ∈ ws.filterMap Write.event?, e.payload.finishesMatch m = true := by
  constructor
  · rintro ⟨e, he, hm⟩
    exact ⟨e, List.mem_filterMap.mpr ⟨_, he, rfl⟩, hm⟩
  · rintro ⟨e, he, hm⟩
    obtain ⟨wr, hwr, hEq⟩ := List.mem_filterMap.mp he
    cases wr with
    | insertEvent e' =>
      cases hEq
      exact ⟨e, hwr, hm⟩
    | _ => cases hEq

theorem Commit.finishes_of_ends (h : Commit w pid job ws) (hEnds : EndsMatch m ws) :
    Finishes job m := by
  obtain ⟨e, he, hm⟩ := endsMatch_iff.mp hEnds
  obtain hNil | ⟨e', hOne, hAnn⟩ := h.announces
  · rw [hNil] at he
    cases he
  · rw [hOne, List.mem_singleton] at he
    rw [← he] at hAnn
    generalize e.payload = payload at hAnn hm
    cases hAnn with
    | matchFinished m₀ room scores endedAt eventId hFin =>
      have hId : m₀.id = m := by simpa [EventPayload.finishesMatch] using hm
      exact hId ▸ hFin
    | _ => simp [EventPayload.finishesMatch] at hm

/-- A traced end of the match: a completed row, a final score or the event. -/
def HasEnded (db : Db) (m : Id) : Prop :=
  (∃ x ∈ db.matches', x.id = m ∧ x.status = .completed) ∨ db.scoresOf m ≠ [] ∨
    db.events (EventPayload.finishesMatch m) ≠ []

theorem Commit.ended_back (hInv : Inv n w) (h : Commit w pid job ws)
    (hEnded : HasEnded (applyAll ws w.db) m) : HasEnded w.db m ∨ EndsMatch m ws := by
  by_cases hEnds : EndsMatch m ws
  · exact .inr hEnds
  · have hNil : (ws.filterMap Write.event?).filter (fun e => e.payload.finishesMatch m) = [] :=
      List.filter_eq_nil_iff.mpr fun e he hm => hEnds (endsMatch_iff.mpr ⟨e, he, hm⟩)
    refine .inl ?_
    obtain ⟨x', hx', hId, hStatus⟩ | hScores | hEvents := hEnded
    · obtain ⟨x, hx, hMove⟩ | ⟨-, hRun, -⟩ := h.match_back hInv hx'
      · cases hMove with
        | same => exact .inl ⟨x', hx, hId, hStatus⟩
        | paused => cases hStatus
        | resumed => cases hStatus
        | finished room scores endedAt eventId _ hws =>
          refine absurd (endsMatch_iff.mpr ⟨matchFinishedEvent eventId x room endedAt scores, ?_, ?_⟩)
            hEnds
          · rw [hws, finishWrites_events]
            exact List.mem_singleton_self _
          · have hId' : x.id = m := hId
            simp [matchFinishedEvent, EventPayload.finishesMatch, hId']
      · rw [hRun] at hStatus
        cases hStatus
    · unfold Db.scoresOf at hScores
      rw [applyAll_finalScores, List.filter_append, h.scores, hNil, List.flatMap_nil,
        List.append_nil] at hScores
      exact .inr (.inl hScores)
    · unfold Db.events at hEvents
      rw [applyAll_outbox, List.filter_append, hNil, List.append_nil] at hEvents
      exact .inr (.inr hEvents)

end

section

variable {C : SysState → SysLabel → Prop} {seed : Seed} {S S' : SysState} {l : SysLabel}

/-- The tasks behind the ends on record, and the records behind the ended matches. -/
structure EndsKnown (S : SysState) : Prop where
  byTask : ∀ pid ws m, (pid, ws) ∈ S.shared.wal → EndsMatch m ws →
    ∃ p, S.procs[pid]? = some p ∧ Finishes p.task.job m
  onRecord : ∀ m, HasEnded S.shared.db m → ∃ pid ws, (pid, ws) ∈ S.shared.wal ∧ EndsMatch m ws

theorem endsKnown_step (hS : Held S) (h : EndsKnown S) (hStep : service.step S l = some S') :
    EndsKnown S' := by
  have hTask : ∀ pid ws m, (pid, ws) ∈ S.shared.wal → EndsMatch m ws →
      ∃ p, S'.procs[pid]? = some p ∧ Finishes p.task.job m := by
    intro pid ws m hWal hEnds
    obtain ⟨p, hp, hFin⟩ := h.byTask pid ws m hWal hEnds
    obtain ⟨p', hp', hEq⟩ := step_task hStep hp
    exact ⟨p', hp', hEq ▸ hFin⟩
  obtain hSame | ⟨pid, t, hC⟩ := step_cases hS hStep
  · refine ⟨fun pid ws m hWal => hTask pid ws m (hSame.wal ▸ hWal), fun m hEnded => ?_⟩
    rw [hSame.wal]
    refine h.onRecord m ?_
    unfold HasEnded Db.scoresOf Db.events at *
    rwa [← hSame.matches', ← hSame.finalScores, ← hSame.outbox]
  · refine ⟨fun q ws m hWal hEnds => ?_, fun m hEnded => ?_⟩
    · rw [hC.wal] at hWal
      obtain hOld | hNew := List.mem_append.mp hWal
      · exact hTask q ws m hOld hEnds
      · obtain ⟨rfl, rfl⟩ := Prod.mk.inj (List.mem_singleton.mp hNew)
        obtain ⟨k, hProc⟩ := hC.proc
        obtain ⟨p', hp', hEq⟩ := step_task hStep hProc
        exact ⟨p', hp', hEq ▸ hC.shape.finishes_of_ends hEnds⟩
    · rw [hC.db] at hEnded
      rw [hC.wal]
      obtain hOld | hNew := hC.shape.ended_back hS.inv hEnded
      · obtain ⟨q, ws, hWal, hEnds⟩ := h.onRecord m hOld
        exact ⟨q, ws, List.mem_append_left _ hWal, hEnds⟩
      · exact ⟨pid, _, List.mem_append_right _ (List.mem_singleton_self _), hNew⟩

theorem endsKnown_reach (h : service.Reach C (initial seed) S) : EndsKnown S := by
  induction h with
  | refl =>
    refine ⟨fun _ _ _ hWal => (by cases hWal), fun m hEnded => ?_⟩
    simp [HasEnded, initial, World.genesis, emptyDb, Db.scoresOf, Db.events] at hEnded
  | tail hReach _ hStep ih => exact endsKnown_step (held_of_reach hReach) ih hStep

/-- No timer commits `end_match`; and where no host and no recovery does, the
match never ends, whatever its timers do. -/
theorem timer_never_ends_match (h : service.Reach (fun _ _ => True) (initial seed) S) (m : Id) :
    (∀ pid replica p delay prog ws,
      S.procs[pid]? = some ⟨⟨replica, .closeQuestionAfter m p delay⟩, prog⟩ →
      (pid, ws) ∈ S.shared.wal → ¬EndsMatch m ws) ∧
    ((∀ pr ∈ S.procs, ¬Finishes pr.task.job m) → ¬HasEnded S.shared.db m) := by
  have hKnown := endsKnown_reach h
  constructor
  · intro pid replica p delay prog ws hProc hWal hEnds
    obtain ⟨p', hp', hFin⟩ := hKnown.byTask pid ws m hWal hEnds
    rw [hProc] at hp'
    cases hp'
    cases hFin
  · intro hNone hEnded
    obtain ⟨pid, ws, hWal, hEnds⟩ := hKnown.onRecord m hEnded
    obtain ⟨p, hp, hFin⟩ := hKnown.byTask pid ws m hWal hEnds
    exact hNone p (List.mem_of_getElem? hp) hFin

end

/-- Nothing fails and no replica is lost. -/
def faultless : SysLabel → Bool
  | .op _ d => d.fault = .none
  | .env (.crash _) => false
  | _ => true

def Demo.soloSeed : Seed := { Demo.seed with questions := Demo.seed.questions.take 1 }

def Demo.soloTimer : Task := ⟨0, .closeQuestionAfter 54 1 20000000⟩

/-- The host starts the match, its only question is armed and its timer runs. -/
def Demo.soloRun : List SysLabel :=
  [.env (.boot 0)] ++ calls 0 1 0 ++ [.env (.request 0 (.startMatch 7 "AB"))] ++ calls 1 19 50 ++
    calls 2 15 80 ++ calls 3 1 100 ++ [.env (.tick 20000000)] ++ calls 3 18 100

theorem timer_never_ends_match_solo : ∃ S : SysState,
    outcome S 3 = some (Demo.soloTimer, .error .cancelled) ∧
    (∃ ws, (3, ws) ∈ S.shared.wal) ∧ ∀ ws, (3, ws) ∈ S.shared.wal → ¬EndsMatch 54 ws := by
  have hRun : (service.run (initial Demo.soloSeed) Demo.soloRun).any
      (fun S => outcome S 3 = some (Demo.soloTimer, .error .cancelled) ∧
        ∃ x ∈ S.shared.wal, x.1 = 3) = true := by
    decide +kernel
  obtain ⟨S, hReach, hS⟩ := Machine.Reach.exists_of_run hRun
  obtain ⟨hOut, ⟨pid, ws⟩, hWal, rfl⟩ := of_decide_eq_true hS
  exact ⟨S, hOut, ⟨ws, hWal⟩, fun ws hws =>
    (timer_never_ends_match hReach 54).1 3 _ _ _ _ ws (outcome_spec hOut) hws⟩

/-- Nothing fails, the host only starts the match, and the timer of the last
question closes it; then it cancels itself, and the match is left running. -/
theorem last_timer_cancels_itself : ∃ S,
    service.Reach (fun _ l => faultless l = true) (initial Demo.soloSeed) S ∧
    S.shared.requests = [.startMatch 7 "AB"] ∧
    S.procs[3]? = some ⟨Demo.soloTimer, .done (.error .cancelled)⟩ ∧
    HasClosed S.shared 54 1 ∧ (S.shared.db.matchQuestions.length = 1) ∧
    S.shared.db.matches'.map (fun m => (m.id, m.status)) = [(54, .running)] ∧
    ¬HasEnded S.shared.db 54 := by
  have hRun : (service.runWhile (fun _ l => faultless l) (initial Demo.soloSeed) Demo.soloRun).any
      (fun S => outcome S 3 = some (Demo.soloTimer, .error .cancelled) ∧
        S.shared.requests = [.startMatch 7 "AB"] ∧
        (∃ q ∈ S.shared.db.matchQuestions, q.matchId = 54 ∧ q.position = 1 ∧ q.closedAt.isSome) ∧
        S.shared.db.matchQuestions.length = 1 ∧
        S.shared.db.matches'.map (fun m => (m.id, m.status)) = [(54, .running)] ∧
        ¬((∃ x ∈ S.shared.db.matches', x.id = 54 ∧ x.status = .completed) ∨
          S.shared.db.scoresOf 54 ≠ [] ∨
          S.shared.db.events (EventPayload.finishesMatch 54) ≠ [])) = true := by
    decide +kernel
  obtain ⟨S, hReach, hS⟩ := Machine.Reach.exists_of_runWhile hRun
  obtain ⟨hOut, hReq, hClosed, hOne, hStatus, hEnded⟩ := of_decide_eq_true hS
  exact ⟨S, hReach, hReq, outcome_spec hOut, hClosed, hOne, hStatus, hEnded⟩

end LiveQuiz
