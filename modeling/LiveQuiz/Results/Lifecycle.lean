import LiveQuiz.Protocol.Moves

/-! # Lifecycle events happen once

One match per room, one close per position, one end per match, and what these
commits write is final. The row locks and the re-checks under them are the reason:
they are the side conditions of the committed transactions.
-/

namespace LiveQuiz

open Coroutine

set_option autoImplicit false

namespace EventPayload

def startsRoom (roomId : Id) : EventPayload → Bool
  | .matchStarted _ r _ _ _ _ _ => r = roomId
  | _ => false

def closesQuestion (matchId : Id) (position : Nat) : EventPayload → Bool
  | .questionClosed m _ _ p _ _ => m = matchId ∧ p = position
  | _ => false

def finishesMatch (matchId : Id) : EventPayload → Bool
  | .matchFinished m _ _ _ => m = matchId
  | _ => false

end EventPayload

def Db.events (db : Db) (p : EventPayload → Bool) : List OutboxEvent :=
  db.outbox.filter fun e => p e.payload

def Db.scoresOf (db : Db) (matchId : Id) : List FinalScore :=
  db.finalScores.filter (·.matchId = matchId)

def EventPayload.scores : EventPayload → List FinalScore
  | .matchFinished _ _ _ scores => scores
  | _ => []

/-- Each lifecycle step of the committed rows has been taken at most once. -/
structure Once (db : Db) : Prop where
  oneMatch : ∀ r, (db.matches'.filter (·.roomId = r)).length ≤ 1
  oneStarted : ∀ r, (db.events (EventPayload.startsRoom r)).length ≤ 1
  oneClosed : ∀ m p, (db.events (EventPayload.closesQuestion m p)).length ≤ 1
  oneFinished : ∀ m, (db.events (EventPayload.finishesMatch m)).length ≤ 1
  oneScores : ∀ m, db.scoresOf m = (db.events (EventPayload.finishesMatch m)).flatMap (·.payload.scores)

/-- What the lifecycle commits of `db` wrote is the same in `db'`. -/
structure Final (db db' : Db) : Prop where
  closedAt : ∀ q ∈ db.matchQuestions, q.closedAt.isSome →
    ∃ q' ∈ db'.matchQuestions, q'.id = q.id ∧ q'.closedAt = q.closedAt
  endedAt : ∀ m ∈ db.matches', m.endedAt.isSome →
    ∃ m' ∈ db'.matches', m'.id = m.id ∧ m'.endedAt = m.endedAt
  completed : ∀ m ∈ db.matches', m.status = .completed → m ∈ db'.matches'
  scores : ∀ m ∈ db.matches', m.status = .completed → db'.scoresOf m.id = db.scoresOf m.id

/-- The rows that account for the lifecycle events of a state. -/
structure Accounted (w : World) : Prop where
  started : ∀ e ∈ w.db.outbox, ∀ r, e.payload.startsRoom r → ∃ m ∈ w.db.matches', m.roomId = r
  closed : ∀ e ∈ w.db.outbox, ∀ m p, e.payload.closesQuestion m p → HasClosed w m p
  finished : ∀ e ∈ w.db.outbox, ∀ m, e.payload.finishesMatch m →
    ∃ x ∈ w.db.matches', x.id = m ∧ x.status = .completed
  ended : ∀ m ∈ w.db.matches', m.endedAt.isSome → m.status = .completed
  once : Once w.db

theorem length_filter_append {ρ : Type} {p : ρ → Bool} {rows : List ρ} {r : ρ}
    (h : (rows.filter p).length ≤ 1) (hNew : p r → ∀ x ∈ rows, ¬p x) :
    ((rows ++ [r]).filter p).length ≤ 1 := by
  rw [List.filter_append, List.length_append]
  cases hp : p r with
  | false => simpa [hp] using h
  | true =>
    have hNil : rows.filter p = [] := List.filter_eq_nil_iff.mpr (hNew hp)
    simp [hNil, hp]

theorem length_filter_of_pairwise {ρ β : Type} [DecidableEq β] {f : ρ → β} {rows : List ρ}
    (h : rows.Pairwise fun a b => f a ≠ f b) (b : β) : (rows.filter (f · = b)).length ≤ 1 := by
  induction rows with
  | nil => simp
  | cons r rows ih =>
    obtain ⟨hr, hRows⟩ := List.pairwise_cons.mp h
    by_cases hb : f r = b
    · have hNil : rows.filter (f · = b) = [] :=
        List.filter_eq_nil_iff.mpr fun x hx => by simpa [← hb] using (hr x hx).symm
      simp [hb, hNil]
    · simpa [hb] using ih hRows

section

variable {n pid : Nat} {w w' : World} {job : Job} {ws : List Write}

theorem finalScores_matchId {m : Id} {ts : List Tally} {f : FinalScore}
    (h : f ∈ finalScores m ts) : f.matchId = m := by
  unfold finalScores at h
  obtain ⟨i, hi, rfl⟩ := List.mem_mapIdx.mp h
  rfl

theorem Accounted.sameRows (h : Accounted w) (hSame : SameRows w w') : Accounted w' := by
  obtain ⟨hm, hq, -, hf, ho, -⟩ := hSame
  refine ⟨?_, ?_, ?_, ?_, ?_, ?_, ?_, ?_, ?_⟩
  · rw [ho, hm]
    exact h.started
  · unfold HasClosed
    rw [ho, hq]
    exact h.closed
  · rw [ho, hm]
    exact h.finished
  · rw [hm]
    exact h.ended
  · rw [hm]
    exact h.once.oneMatch
  · unfold Db.events
    rw [ho]
    exact h.once.oneStarted
  · unfold Db.events
    rw [ho]
    exact h.once.oneClosed
  · unfold Db.events
    rw [ho]
    exact h.once.oneFinished
  · unfold Db.events Db.scoresOf
    rw [ho, hf]
    exact h.once.oneScores

theorem one_event_commit (hC : Commit w pid job ws) {p : EventPayload → Bool}
    (h : (w.db.events p).length ≤ 1)
    (hNew : ∀ e, Announces w pid job ws e → p e → ∀ x ∈ w.db.outbox, ¬p x.payload) :
    (Db.events (applyAll ws w.db) p).length ≤ 1 := by
  unfold Db.events at *
  rw [applyAll_outbox]
  obtain hNil | ⟨e, hOne, hAnn⟩ := hC.announces
  · rw [hNil, List.append_nil]
    exact h
  · rw [hOne]
    exact length_filter_append h (hNew e.payload hAnn)

theorem Accounted.no_started (h : Accounted w) (hFresh : ∀ wr ∈ ws, wr.collides w.db = false)
    {e : EventPayload} (hAnn : Announces w pid job ws e) {r : Id} (hr : e.startsRoom r) :
    ∀ x ∈ w.db.outbox, ¬x.payload.startsRoom r := by
  intro x hx hxr
  obtain ⟨m', hm', hRoom'⟩ := h.started x hx r hxr
  cases hAnn with
  | matchStarted m code quizSetId version count hIns =>
    have hFree := List.any_eq_false.mp (hFresh _ hIns) m' hm'
    have hRoom : m.roomId = r := by simpa [EventPayload.startsRoom] using hr
    simp [hRoom', hRoom] at hFree
  | _ => simp [EventPayload.startsRoom] at hr

theorem Accounted.no_closed (h : Accounted w) (hInv : Inv n w) {e : EventPayload}
    (hAnn : Announces w pid job ws e) {m : Id} {p : Nat} (hp : e.closesQuestion m p) :
    ∀ x ∈ w.db.outbox, ¬x.payload.closesQuestion m p := by
  intro x hx hxp
  obtain ⟨q, hq, hqm, hqp, hqc⟩ := h.closed x hx m p hxp
  cases hAnn with
  | questionClosed mq eventId closedAt correctIds hMem hOpen =>
    have hEq : mq.matchId = m ∧ mq.position = p := by
      simpa [EventPayload.closesQuestion] using hp
    rw [hInv.keys.matchQuestion_eq hq hMem
      (.inr ⟨hqm.trans hEq.1.symm, hqp.trans hEq.2.symm⟩), hOpen] at hqc
    cases hqc
  | _ => simp [EventPayload.closesQuestion] at hp

theorem Accounted.no_finished (h : Accounted w) (hInv : Inv n w) {e : EventPayload}
    (hAnn : Announces w pid job ws e) {m : Id} (hm : e.finishesMatch m) :
    ∀ x ∈ w.db.outbox, ¬x.payload.finishesMatch m := by
  intro x hx hxm
  obtain ⟨y, hy, hyId, hyStatus⟩ := h.finished x hx m hxm
  cases hAnn with
  | matchFinished m₀ room scores endedAt eventId _ hMem hStatus =>
    have hEq : m₀.id = m := by simpa [EventPayload.finishesMatch] using hm
    rw [hInv.keys.match_eq hy hMem (.inl (hyId.trans hEq.symm))] at hyStatus
    exact hStatus hyStatus
  | _ => simp [EventPayload.finishesMatch] at hm

theorem Announces.started {e : EventPayload} (h : Announces w pid job ws e) {r : Id}
    (hr : e.startsRoom r) (db : Db) : ∃ m ∈ (applyAll ws db).matches', m.roomId = r := by
  cases h with
  | matchStarted m code quizSetId version count hIns =>
    obtain ⟨m', hm', -, hRoom⟩ := inserted_match db hIns
    exact ⟨m', hm', hRoom.trans (by simpa [EventPayload.startsRoom] using hr)⟩
  | _ => simp [EventPayload.startsRoom] at hr

theorem Announces.closed {e : EventPayload} (h : Announces w pid job ws e) {m : Id} {p : Nat}
    (hp : e.closesQuestion m p) : ∃ q ∈ (applyAll ws w.db).matchQuestions,
      q.matchId = m ∧ q.position = p ∧ q.closedAt.isSome := by
  cases h with
  | questionClosed mq eventId closedAt correctIds hMem hOpen hEq =>
    subst hEq
    have hAt : mq.matchId = m ∧ mq.position = p := by
      simpa [EventPayload.closesQuestion] using hp
    exact ⟨_, mem_updateWhere_of_eq hMem rfl, hAt.1, hAt.2, rfl⟩
  | _ => simp [EventPayload.closesQuestion] at hp

theorem Announces.finished {e : EventPayload} (h : Announces w pid job ws e) {m : Id}
    (hm : e.finishesMatch m) : ∃ x ∈ (applyAll ws w.db).matches',
      x.id = m ∧ x.status = .completed := by
  cases h with
  | matchFinished m₀ room scores endedAt eventId _ hMem hStatus hEq =>
    subst hEq
    have hId : m₀.id = m := by simpa [EventPayload.finishesMatch] using hm
    rw [applyAll_finishWrites]
    exact ⟨_, mem_updateWhere_of_eq hMem rfl, hId, rfl⟩
  | _ => simp [EventPayload.finishesMatch] at hm

theorem Commit.scores (h : Commit w pid job ws) (m : Id) :
    (ws.filterMap Write.finalScore?).filter (·.matchId = m) =
      ((ws.filterMap Write.event?).filter fun e => e.payload.finishesMatch m).flatMap
        (·.payload.scores) := by
  cases h with
  | start host code matchId room quiz questions ids startedAt eventId =>
    have hNone : (startWrites ⟨matchId, room.id, quiz.version, .running, startedAt, none⟩
        (matchQuestionRows matchId ids questions) room quiz eventId).filterMap Write.finalScore? = [] := by
      rw [List.filterMap_eq_nil_iff]
      intro wr hwr
      simp only [startWrites, List.mem_cons, List.mem_append, List.mem_map, List.not_mem_nil,
        or_false] at hwr
      obtain rfl | ⟨q, -, rfl⟩ | rfl | rfl := hwr <;> rfl
    rw [hNone, startWrites_events]
    simp [matchStartedEvent, EventPayload.finishesMatch]
  | finish _ m₀ room subs participants endedAt eventId =>
    have hScores : ∀ scores : List FinalScore,
        (finishWrites m₀ room scores endedAt eventId).filterMap Write.finalScore? = scores := by
      intro scores
      have hMap : (scores.map Write.insertFinalScore).filterMap Write.finalScore? = scores := by
        rw [List.filterMap_map]
        exact List.filterMap_some
      simp [finishWrites, List.filterMap_cons, List.filterMap_append, hMap, Write.finalScore?]
    rw [hScores, finishWrites_events]
    by_cases hm : m₀.id = m
    · have hAll : ∀ f ∈ finalScores m₀.id (perParticipant subs participants), f.matchId = m :=
        fun f hf => (finalScores_matchId hf).trans hm
      rw [List.filter_eq_self.mpr (by simpa using hAll)]
      simp [matchFinishedEvent, EventPayload.finishesMatch, EventPayload.scores, hm]
    · have hNone : ∀ f ∈ finalScores m₀.id (perParticipant subs participants), f.matchId ≠ m :=
        fun f hf => finalScores_matchId hf ▸ hm
      rw [List.filter_eq_nil_iff.mpr (by simpa using hNone)]
      simp [matchFinishedEvent, EventPayload.finishesMatch, hm]
  | resume _ _ _ deadline _ _ _ hDeadline =>
    obtain rfl | ⟨i, u, -, rfl⟩ := hDeadline <;> rfl
  | _ => rfl

theorem Accounted.commit (h : Accounted w) (hInv : Inv n w) (hC : Commit w pid job ws)
    (hFresh : ∀ wr ∈ ws, wr.collides w.db = false) (hKeys : w'.db.Keys)
    (hDb : w'.db = applyAll ws w.db) (hLater : Later w w') : Accounted w' := by
  have hOutbox : w'.db.outbox = w.db.outbox ++ ws.filterMap Write.event? := by
    rw [hDb, applyAll_outbox]
  have hNew : ∀ e ∈ w'.db.outbox, e ∈ w.db.outbox ∨ Announces w pid job ws e.payload :=
    fun e he => hC.outbox_back (hDb ▸ he)
  have hCompleted : ∀ m ∈ w.db.matches', m.status = .completed → m ∈ w'.db.matches' := by
    intro m hm hStatus
    obtain ⟨m', hm', hMove⟩ := hC.match_forth hInv hm
    rw [hDb, ← hMove.completed hStatus]
    exact hm'
  refine ⟨?_, ?_, ?_, ?_, ?_, ?_, ?_, ?_, ?_⟩
  · intro e he r hr
    obtain hOld | hAnn := hNew e he
    · obtain ⟨m, hm, hRoom⟩ := h.started e hOld r hr
      obtain ⟨m', hm', -, hRoom'⟩ := hLater.matches' m hm
      exact ⟨m', hm', hRoom'.trans hRoom⟩
    · rw [hDb]
      exact hAnn.started hr w.db
  · intro e he m p hp
    obtain hOld | hAnn := hNew e he
    · exact (h.closed e hOld m p hp).later hLater
    · unfold HasClosed
      rw [hDb]
      exact hAnn.closed hp
  · intro e he m hm
    obtain hOld | hAnn := hNew e he
    · obtain ⟨x, hx, hId, hStatus⟩ := h.finished e hOld m hm
      exact ⟨x, hCompleted x hx hStatus, hId, hStatus⟩
    · rw [hDb]
      exact hAnn.finished hm
  · intro m' hm' hEnded
    rw [hDb] at hm'
    obtain ⟨m, hm, hMove⟩ | ⟨-, -, hNone⟩ := hC.match_back hInv hm'
    · cases hMove with
      | same => exact h.ended m' hm hEnded
      | paused hStatus =>
        have := h.ended m hm hEnded
        simp [hStatus] at this
      | resumed hStatus =>
        have := h.ended m hm hEnded
        simp [hStatus] at this
      | finished => rfl
    · rw [hNone] at hEnded
      cases hEnded
  · exact fun r => length_filter_of_pairwise (hKeys.matches'.imp fun h => h.2) r
  · intro r
    rw [hDb]
    exact one_event_commit hC (h.once.oneStarted r) fun e hAnn hr => h.no_started hFresh hAnn hr
  · intro m p
    rw [hDb]
    exact one_event_commit hC (h.once.oneClosed m p) fun e hAnn hp => h.no_closed hInv hAnn hp
  · intro m
    rw [hDb]
    exact one_event_commit hC (h.once.oneFinished m) fun e hAnn hm => h.no_finished hInv hAnn hm
  · intro m
    unfold Db.scoresOf Db.events
    rw [hOutbox, hDb, applyAll_finalScores, List.filter_append, List.filter_append,
      List.flatMap_append, hC.scores]
    congr 1
    exact h.once.oneScores m

theorem Final.refl (db : Db) : Final db db :=
  ⟨fun q hq _ => ⟨q, hq, rfl, rfl⟩, fun m hm _ => ⟨m, hm, rfl, rfl⟩, fun _ hm _ => hm,
    fun _ _ _ => rfl⟩

theorem Final.trans {a b c : Db} (h : Final a b) (h' : Final b c) : Final a c where
  closedAt q hq hs := by
    obtain ⟨q', hq', hId, hEq⟩ := h.closedAt q hq hs
    obtain ⟨q'', hq'', hId', hEq'⟩ := h'.closedAt q' hq' (hEq ▸ hs)
    exact ⟨q'', hq'', hId'.trans hId, hEq'.trans hEq⟩
  endedAt m hm hs := by
    obtain ⟨m', hm', hId, hEq⟩ := h.endedAt m hm hs
    obtain ⟨m'', hm'', hId', hEq'⟩ := h'.endedAt m' hm' (hEq ▸ hs)
    exact ⟨m'', hm'', hId'.trans hId, hEq'.trans hEq⟩
  completed m hm hs := h'.completed m (h.completed m hm hs) hs
  scores m hm hs := (h'.scores m (h.completed m hm hs) hs).trans (h.scores m hm hs)

theorem Commit.final (hC : Commit w pid job ws) (hInv : Inv n w) (h : Accounted w) :
    Final w.db (applyAll ws w.db) := by
  have hCompleted : ∀ m ∈ w.db.matches', m.status = .completed → m ∈ (applyAll ws w.db).matches' := by
    intro m hm hStatus
    obtain ⟨m', hm', hMove⟩ := hC.match_forth hInv hm
    rw [← hMove.completed hStatus]
    exact hm'
  refine ⟨fun q hq hs => ?_, fun m hm hs => ?_, hCompleted, fun m hm hs => ?_⟩
  · obtain ⟨q', hq', hMove⟩ := hC.question_forth hInv hq
    exact ⟨q', hq', hMove.later.id, hMove.closedAt hs⟩
  · exact ⟨m, hCompleted m hm (h.ended m hm hs), rfl, rfl⟩
  · unfold Db.scoresOf
    rw [applyAll_finalScores, List.filter_append, hC.scores]
    obtain hNil | ⟨e, hOne, hAnn⟩ := hC.announces
    · simp [hNil]
    · have hNot : ¬e.payload.finishesMatch m.id := by
        intro hFin
        cases hAnn' : e.payload with
        | matchFinished m₀ r t scores =>
          rw [hAnn'] at hAnn hFin
          cases hAnn with
          | matchFinished m₁ room _ _ _ _ hMem hStatus =>
            have hId : m₁.id = m.id := by simpa [EventPayload.finishesMatch] using hFin
            exact hStatus (hInv.keys.match_eq hMem hm (.inl hId) ▸ hs)
        | _ => simp [hAnn', EventPayload.finishesMatch] at hFin
      simp [hOne, hNot]

end

section

variable {C : SysState → SysLabel → Prop} {seed : Seed} {S S' : SysState} {l : SysLabel}

theorem accounted_initial (seed : Seed) : Accounted (.genesis seed) := by
  refine ⟨?_, ?_, ?_, ?_, ?_, ?_, ?_, ?_, ?_⟩ <;>
    simp [World.genesis, emptyDb, Db.events, Db.scoresOf]

theorem accounted_step (hS : Held S) (h : Accounted S.shared) (hStep : service.step S l = some S') :
    Accounted S'.shared ∧ Final S.shared.db S'.shared.db := by
  obtain hSame | ⟨pid, t, hC⟩ := step_cases hS hStep
  · refine ⟨h.sameRows hSame, ?_⟩
    obtain ⟨hm, hq, -, hf, -, -⟩ := hSame
    refine ⟨?_, ?_, ?_, ?_⟩
    · rw [hq]
      exact (Final.refl _).closedAt
    · rw [hm]
      exact (Final.refl _).endedAt
    · rw [hm]
      exact (Final.refl _).completed
    · unfold Db.scoresOf
      rw [hf]
      exact fun _ _ _ => rfl
  · have hS' := sound.kept_step hS hStep
    refine ⟨h.commit hS.inv hC.shape (hS.inv.uncollided pid) hS'.inv.keys hC.db
      (step_later hS hStep), ?_⟩
    rw [hC.db]
    exact hC.shape.final hS.inv h

theorem accounted_reach (h : service.Reach C (initial seed) S) : Accounted S.shared := by
  induction h with
  | refl => exact accounted_initial seed
  | tail hReach _ hStep ih => exact (accounted_step (held_of_reach hReach) ih hStep).1

theorem final_reach (hS : Held S) (h : Accounted S.shared) (hReach : service.Reach C S S') :
    Accounted S'.shared ∧ Final S.shared.db S'.shared.db := by
  induction hReach with
  | refl => exact ⟨h, .refl _⟩
  | tail hReach _ hStep ih =>
    obtain ⟨hAcc, hFinal⟩ := accounted_step (sound.kept hS hReach) ih.1 hStep
    exact ⟨hAcc, ih.2.trans hFinal⟩

/-- In every interleaving of every job on every replica: one match and one
MatchStarted per room, one QuestionClosed per position, one MatchFinished and one
set of final scores per match; what these commits wrote stays as it is. -/
theorem lifecycle_once (h : service.Reach (fun _ _ => True) (initial seed) S)
    (h' : service.Reach (fun _ _ => True) S S') :
    Once S'.shared.db ∧ Final S.shared.db S'.shared.db := by
  obtain ⟨hAcc, hFinal⟩ := final_reach (held_of_reach h) (accounted_reach h) h'
  exact ⟨hAcc.once, hFinal⟩

def Demo.closing : List SysLabel :=
  Demo.opening ++ Demo.calls 3 1 100 ++ [.env (.tick 20000000)] ++ Demo.calls 3 16 101

def Demo.endsMatch (pid value : Nat) : List SysLabel :=
  [.env (.request 0 (.endMatch 54 (some 7)))] ++ Demo.calls pid 11 value

theorem lifecycle_once_ended : ∃ S S', service.Reach (fun _ _ => True) (initial Demo.seed) S ∧
    service.Reach (fun _ _ => True) S S' ∧
    S.shared.db.matchQuestions.map (·.closedAt) = [some 20000000, none] ∧
    S.shared.db.matches'.map (·.status) = [.running] ∧
    S'.shared.db.matches'.map (·.status) = [.completed] ∧
    (S'.shared.db.events (EventPayload.finishesMatch 54)).length = 1 ∧
    Once S'.shared.db ∧ Final S.shared.db S'.shared.db := by
  have hRun : (service.run (initial Demo.seed) Demo.closing).any (fun S =>
      (S.shared.db.matchQuestions.map (·.closedAt) = [some 20000000, none] ∧
        S.shared.db.matches'.map (·.status) = [.running]) ∧
      (service.run S (Demo.endsMatch 5 140)).any fun S' => S'.shared.db.matches'.map (·.status) = [.completed] ∧
        (S'.shared.db.events (EventPayload.finishesMatch 54)).length = 1) = true := by
    decide +kernel
  obtain ⟨S, hReach, hS⟩ := Machine.Reach.exists_of_run hRun
  obtain ⟨⟨hClosed, hRunning⟩, hRun'⟩ := of_decide_eq_true hS
  obtain ⟨S', hReach', hS'⟩ := Machine.Reach.exists_of_run hRun'
  obtain ⟨hDone, hOne⟩ := of_decide_eq_true hS'
  exact ⟨S, S', hReach, hReach', hClosed, hRunning, hDone, hOne, lifecycle_once hReach hReach'⟩

end

end LiveQuiz
