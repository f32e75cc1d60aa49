import LiveQuiz.Results.Lifecycle

/-! # What the final scores count

`end_match` reads the submissions once, in the middle of its transaction, and
`submit_answer` takes no lock that `end_match` takes. So the final scores are the
sums over all answers exactly as long as no answer is committed behind that read.
-/

namespace LiveQuiz

open Coroutine

set_option autoImplicit false

def Db.submissionsOf (db : Db) (matchId : Id) : List AnswerSubmission :=
  db.submissions.filter (·.matchId = matchId)

def totalScore (participantId : Id) (subs : List AnswerSubmission) : Int :=
  ((subs.filter (·.participantId = participantId)).map (·.scoreAwarded)).sum

def correctCount (participantId : Id) (subs : List AnswerSubmission) : Nat :=
  (subs.filter fun s => s.participantId = participantId ∧ s.isCorrect).length

/-- The final scores of the match are the sums over all its committed answers, and
no participant with an answer is missing. -/
structure CountsAll (db : Db) (matchId : Id) : Prop where
  total : ∀ f ∈ db.scoresOf matchId,
    f.totalScore = totalScore f.participantId (db.submissionsOf matchId)
  correct : ∀ f ∈ db.scoresOf matchId,
    f.correctCount = correctCount f.participantId (db.submissionsOf matchId)
  everyone : ∀ s ∈ db.submissionsOf matchId,
    ∃ f ∈ db.scoresOf matchId, f.participantId = s.participantId

section

variable {subs : List AnswerSubmission} {s : AnswerSubmission} {ts : List Tally} {p : Id}

theorem totalScore_append : totalScore p (subs ++ [s]) =
    totalScore p subs + if s.participantId = p then s.scoreAwarded else 0 := by
  unfold totalScore
  by_cases h : s.participantId = p <;> simp [h]

theorem correctCount_append : correctCount p (subs ++ [s]) =
    correctCount p subs + if s.participantId = p ∧ s.isCorrect then 1 else 0 := by
  unfold correctCount
  by_cases h : s.participantId = p ∧ s.isCorrect <;> simp [h]

/-- The dict after the submissions read so far. -/
structure Tallied (subs : List AnswerSubmission) (ts : List Tally) : Prop where
  total : ∀ t ∈ ts, t.total = totalScore t.participantId subs
  correct : ∀ t ∈ ts, t.correct = correctCount t.participantId subs
  everyone : ∀ s ∈ subs, ∃ t ∈ ts, t.participantId = s.participantId

theorem mem_setDefault {t : Tally} : t ∈ setDefault ts p ↔
    t ∈ ts ∨ ((∀ x ∈ ts, x.participantId ≠ p) ∧ t = { participantId := p }) := by
  unfold setDefault
  split
  next h =>
    obtain ⟨x, hx, hp⟩ := List.any_eq_true.mp h
    constructor
    · exact .inl
    · rintro (ht | ⟨hNone, -⟩)
      · exact ht
      · exact absurd (of_decide_eq_true hp) (hNone x hx)
  next h =>
    have hNone : ∀ x ∈ ts, x.participantId ≠ p := by
      intro x hx hp
      exact h (List.any_eq_true.mpr ⟨x, hx, decide_eq_true hp⟩)
    rw [List.mem_append, List.mem_singleton]
    constructor
    · exact Or.imp_right fun ht => ⟨hNone, ht⟩
    · exact Or.imp_right And.right

theorem exists_setDefault (ts : List Tally) (p : Id) : ∃ t ∈ setDefault ts p, t.participantId = p := by
  by_cases h : ∀ x ∈ ts, x.participantId ≠ p
  · exact ⟨_, mem_setDefault.mpr (.inr ⟨h, rfl⟩), rfl⟩
  · push Not at h
    obtain ⟨x, hx, hp⟩ := h
    exact ⟨x, mem_setDefault.mpr (.inl hx), hp⟩

theorem Tallied.unseen (h : Tallied subs ts) (hNone : ∀ x ∈ ts, x.participantId ≠ p) :
    ∀ s ∈ subs, s.participantId ≠ p := by
  intro s hs hp
  obtain ⟨t, ht, htp⟩ := h.everyone s hs
  exact hNone t ht (htp.trans hp)

theorem Tallied.setDefault (h : Tallied subs ts) (p : Id) : Tallied subs (setDefault ts p) := by
  constructor
  · intro t ht
    obtain ht | ⟨hNone, rfl⟩ := mem_setDefault.mp ht
    · exact h.total t ht
    · have hNil : subs.filter (·.participantId = p) = [] :=
        List.filter_eq_nil_iff.mpr (by simpa using h.unseen hNone)
      simp [totalScore, hNil]
  · intro t ht
    obtain ht | ⟨hNone, rfl⟩ := mem_setDefault.mp ht
    · exact h.correct t ht
    · have hNil : subs.filter (fun s => s.participantId = p ∧ s.isCorrect) = [] :=
        List.filter_eq_nil_iff.mpr fun s hs hp => h.unseen hNone s hs (of_decide_eq_true hp).1
      rw [correctCount, hNil]
      rfl
  · intro s hs
    obtain ⟨t, ht, hp⟩ := h.everyone s hs
    exact ⟨t, mem_setDefault.mpr (.inl ht), hp⟩

theorem Tallied.add (h : Tallied subs ts) (s : AnswerSubmission) :
    Tallied (subs ++ [s]) (tallySubmission ts s) := by
  have hDefault := h.setDefault s.participantId
  unfold tallySubmission
  constructor
  · intro t ht
    obtain ⟨t₀, ht₀, rfl⟩ := List.mem_map.mp ht
    rw [totalScore_append]
    split
    next hp => simp [Tally.add, hDefault.total t₀ ht₀, hp]
    next hp => simp [hDefault.total t₀ ht₀, Ne.symm hp]
  · intro t ht
    obtain ⟨t₀, ht₀, rfl⟩ := List.mem_map.mp ht
    rw [correctCount_append]
    split
    next hp => simp [Tally.add, hDefault.correct t₀ ht₀, hp]
    next hp => simp [hDefault.correct t₀ ht₀, Ne.symm hp]
  · intro x hx
    have hEntry : ∃ t ∈ LiveQuiz.setDefault ts s.participantId, t.participantId = x.participantId := by
      obtain hOld | hNew := List.mem_append.mp hx
      · exact hDefault.everyone x hOld
      · rw [List.mem_singleton.mp hNew]
        exact exists_setDefault ts s.participantId
    obtain ⟨t, ht, hp⟩ := hEntry
    refine ⟨_, List.mem_map_of_mem ht, ?_⟩
    split
    · exact hp
    · exact hp

theorem Tallied.foldl (h : Tallied subs ts) (more : List AnswerSubmission) :
    Tallied (subs ++ more) (more.foldl tallySubmission ts) := by
  induction more generalizing subs ts with
  | nil => simpa using h
  | cons s more ih =>
    have := ih (h.add s)
    rwa [List.append_assoc] at this

theorem Tallied.setDefaults (h : Tallied subs ts) (ps : List Id) :
    Tallied subs (ps.foldl LiveQuiz.setDefault ts) := by
  induction ps generalizing ts with
  | nil => exact h
  | cons p ps ih => exact ih (h.setDefault p)

theorem tallied_perParticipant (subs : List AnswerSubmission) (participants : List RoomParticipant) :
    Tallied subs (perParticipant subs participants) := by
  have hNil : Tallied [] [] := ⟨by simp, by simp, by simp⟩
  exact (hNil.foldl subs).setDefaults _

theorem mem_finalScores {m : Id} {f : FinalScore} (h : f ∈ finalScores m ts) :
    ∃ t ∈ ts, f.participantId = t.participantId ∧ f.totalScore = t.total ∧
      f.correctCount = t.correct := by
  obtain ⟨i, hi, rfl⟩ := List.mem_mapIdx.mp h
  exact ⟨_, (List.perm_insertionSort _ ts).mem_iff.mp (List.getElem_mem hi), rfl, rfl, rfl⟩

theorem exists_finalScores {m : Id} {t : Tally} (h : t ∈ ts) :
    ∃ f ∈ finalScores m ts, f.participantId = t.participantId := by
  obtain ⟨i, hi, hEq⟩ :=
    List.getElem_of_mem ((List.perm_insertionSort (fun a b => a.ranksBefore b) ts).mem_iff.mpr h)
  refine ⟨_, List.mem_mapIdx.mpr ⟨i, hi, rfl⟩, ?_⟩
  simp only [hEq]

end

theorem countsAll_of_scores {db : Db} {m : Id} {participants : List RoomParticipant}
    (h : db.scoresOf m = finalScores m (perParticipant (db.submissionsOf m) participants)) :
    CountsAll db m := by
  have hTallied := tallied_perParticipant (db.submissionsOf m) participants
  constructor
  · intro f hf
    rw [h] at hf
    obtain ⟨t, ht, hp, hTotal, -⟩ := mem_finalScores hf
    rw [hTotal, hp, hTallied.total t ht]
  · intro f hf
    rw [h] at hf
    obtain ⟨t, ht, hp, -, hCorrect⟩ := mem_finalScores hf
    rw [hCorrect, hp, hTallied.correct t ht]
  · intro s hs
    obtain ⟨t, ht, hp⟩ := hTallied.everyone s hs
    obtain ⟨f, hf, hfp⟩ := exists_finalScores (m := m) ht
    rw [h]
    exact ⟨f, hf, hfp.trans hp⟩

/-- An `end_match` commits with every committed answer among those it has read, and
a `submit_answer` commits into a match that is not completed. -/
def commitsInOrder (S : SysState) : SysLabel → Bool
  | .op pid _ =>
    match S.procs[pid]? with
    | some ⟨_, .call .commit _⟩ =>
      (match (S.shared.tx pid).aggregated with
        | some (m, subs) => S.shared.db.submissionsOf m = subs
        | none => true) &&
      ((S.shared.tx pid).writes.filterMap Write.submission?).all fun row =>
        S.shared.db.matches'.all fun m => m.id ≠ row.matchId ∨ m.status ≠ .completed
    | _ => true
  | _ => true

def Standing (db : Db) : Prop :=
  ∀ m ∈ db.matches', m.status = .completed → ∃ participants,
    db.scoresOf m.id = finalScores m.id (perParticipant (db.submissionsOf m.id) participants)

theorem submissionsOf_applyAll {ws : List Write} {db : Db} {m : Id}
    (h : ∀ row ∈ ws.filterMap Write.submission?, row.matchId ≠ m) :
    (applyAll ws db).submissionsOf m = db.submissionsOf m := by
  have hNil : (ws.filterMap Write.submission?).filter (·.matchId = m) = [] :=
    List.filter_eq_nil_iff.mpr (by simpa using h)
  unfold Db.submissionsOf
  rw [applyAll_submissions, List.filter_append, hNil, List.append_nil]

theorem Accounted.no_scores {n : Nat} {w : World} (h : Accounted w) (hInv : Inv n w) {m : Match}
    (hm : m ∈ w.db.matches') (hStatus : m.status ≠ .completed) : w.db.scoresOf m.id = [] := by
  have hNone : w.db.events (EventPayload.finishesMatch m.id) = [] := by
    refine List.filter_eq_nil_iff.mpr fun e he hFin => ?_
    obtain ⟨x, hx, hId, hDone⟩ := h.finished e he m.id hFin
    exact hStatus (hInv.keys.match_eq hx hm (.inl hId) ▸ hDone)
  rw [h.once.oneScores, hNone]
  rfl

section

variable {n pid : Nat} {w : World} {job : Job} {ws : List Write} {seed : Seed} {S S' : SysState}
  {l : SysLabel}

theorem Commit.standing_finished (hC : Commit w pid job ws) (hInv : Inv n w) (hAcc : Accounted w)
    (hRead : ∀ m subs, (w.tx pid).aggregated = some (m, subs) → w.db.submissionsOf m = subs)
    {m : Match} {room : Room} {scores : List FinalScore} {endedAt : Micros} {eventId : Id}
    (hws : ws = finishWrites m room scores endedAt eventId) : ∃ participants,
      (applyAll ws w.db).scoresOf m.id =
        finalScores m.id (perParticipant ((applyAll ws w.db).submissionsOf m.id) participants) := by
  cases hC with
  | finish _ m₀ room₀ subs participants _ _ _ hMem _ hStatus _ hAgg =>
    have hId : m₀.id = m.id := by
      simp only [finishWrites, List.cons_append, List.cons.injEq, Write.updateMatch.injEq] at hws
      exact hws.2.1.1
    rw [← hId]
    refine ⟨participants, ?_⟩
    rw [submissionsOf_applyAll (by simp [finishWrites_submissions]), hRead _ _ hAgg,
      applyAll_finishWrites]
    unfold Db.scoresOf
    have hOld := hAcc.no_scores hInv hMem hStatus
    unfold Db.scoresOf at hOld
    rw [List.filter_append, hOld, List.nil_append, List.filter_eq_self]
    simpa using fun f hf => finalScores_matchId hf
  | start => simp [startWrites, finishWrites] at hws
  | arm => simp [armWrites, finishWrites] at hws
  | close => simp [closeWrites, finishWrites] at hws
  | submit => simp [submitWrites, finishWrites] at hws
  | pause => simp [finishWrites] at hws
  | resume => simp [finishWrites] at hws
  | empty => simp [finishWrites] at hws

theorem Commit.standing (hC : Commit w pid job ws) (hInv : Inv n w) (hAcc : Accounted w)
    (hRead : ∀ m subs, (w.tx pid).aggregated = some (m, subs) → w.db.submissionsOf m = subs)
    (hOpen : ∀ row ∈ ws.filterMap Write.submission?, ∀ m ∈ w.db.matches', m.id = row.matchId →
      m.status ≠ .completed) (h : Standing w.db) : Standing (applyAll ws w.db) := by
  intro m' hm' hDone
  obtain ⟨m, hm, hMove⟩ | ⟨-, hRunning, -⟩ := hC.match_back hInv hm'
  · cases hMove with
    | same =>
      obtain ⟨participants, hScores⟩ := h m' hm hDone
      refine ⟨participants, ?_⟩
      rw [(hC.final hInv hAcc).scores m' hm hDone, hScores, submissionsOf_applyAll]
      intro row hRow hEq
      exact hOpen row hRow m' hm hEq.symm hDone
    | paused => cases hDone
    | resumed => cases hDone
    | finished room scores endedAt eventId _ hws =>
      exact hC.standing_finished hInv hAcc hRead hws
  · rw [hRunning] at hDone
    cases hDone

theorem commitsInOrder_spec {d : Decision} {t : Task}
    {k : Except Exn Unit → Coro Ret} (h : commitsInOrder S (.op pid d) = true)
    (hProc : S.procs[pid]? = some ⟨t, .call .commit k⟩) :
    (∀ m subs, (S.shared.tx pid).aggregated = some (m, subs) → S.shared.db.submissionsOf m = subs) ∧
    ∀ row ∈ (S.shared.tx pid).writes.filterMap Write.submission?, ∀ m ∈ S.shared.db.matches',
      m.id = row.matchId → m.status ≠ .completed := by
  simp only [commitsInOrder, hProc, Bool.and_eq_true, List.all_eq_true, decide_eq_true_eq] at h
  constructor
  · intro m subs hAgg
    rw [hAgg] at h
    exact of_decide_eq_true h.1
  · intro row hRow m hm hId
    exact (h.2 row hRow m hm).resolve_left fun hne => hne hId

theorem standing_reach
    (h : service.Reach (fun S l => commitsInOrder S l = true) (initial seed) S) :
    Standing S.shared.db := by
  induction h with
  | refl => exact fun m hm => by cases hm
  | tail hReach hOrder hStep ih =>
    have hS := held_of_reach hReach
    obtain hSame | ⟨pid, t, hC⟩ := step_cases hS hStep
    · unfold Standing Db.scoresOf Db.submissionsOf
      rw [hSame.matches', hSame.finalScores, hSame.submissions]
      exact ih
    · obtain ⟨d, rfl⟩ := hC.label
      obtain ⟨k, hProc⟩ := hC.proc
      obtain ⟨hRead, hOpen⟩ := commitsInOrder_spec hOrder hProc
      rw [hC.db]
      exact hC.shape.standing hS.inv (accounted_reach hReach) hRead hOpen ih

/-- While no answer is committed behind the aggregation, the final scores of a
completed match are the sums over all its committed answers. -/
theorem final_scores_count_all
    (h : service.Reach (fun S l => commitsInOrder S l = true) (initial seed) S) {m : Match}
    (hm : m ∈ S.shared.db.matches') (hDone : m.status = .completed) :
    CountsAll S.shared.db m.id := by
  obtain ⟨participants, hScores⟩ := standing_reach h m hm hDone
  exact countsAll_of_scores hScores

end

def Demo.hostEnds : List SysLabel := [.env (.request 0 (.endMatch 54 (some 7)))]

theorem final_scores_count_all_ann : ∃ (S : SysState) (m : Match),
    m ∈ S.shared.db.matches' ∧ m.status = .completed ∧ S.shared.db.submissionsOf m.id ≠ [] ∧
    CountsAll S.shared.db m.id := by
  have hRun : (service.runWhile commitsInOrder (initial Demo.seed)
      (Demo.annAnswers ++ Demo.hostEnds ++ Demo.calls 5 11 400)).any
      (fun S => ∃ m ∈ S.shared.db.matches', m.status = .completed ∧
        S.shared.db.submissionsOf m.id ≠ []) = true := by
    decide +kernel
  obtain ⟨S, hReach, hS⟩ := Machine.Reach.exists_of_runWhile hRun
  obtain ⟨m, hm, hDone, hSubs⟩ := of_decide_eq_true hS
  exact ⟨S, m, hm, hDone, hSubs, final_scores_count_all hReach hm hDone⟩

/-- Ann's call has seen a running match; then the host ends it, and her answer is
inserted and committed, worth 1000 points that her final score lacks. -/
theorem answer_behind_the_count : ∃ S, service.Reach (fun _ _ => True) (initial Demo.seed) S ∧
    (∃ m ∈ S.shared.db.matches', m.id = 54 ∧ m.status = .completed) ∧
    outcome S 4 = some (⟨0, Demo.annJob⟩, .ok (.response ⟨308, true, true, 1000, 0, some 1⟩)) ∧
    ¬CountsAll S.shared.db 54 := by
  have hRun : (service.run (initial Demo.seed)
      (Demo.opening ++ [.env (.request 0 Demo.annJob)] ++ Demo.calls 4 3 300 ++ Demo.hostEnds ++
        Demo.calls 5 11 400 ++ Demo.calls 4 19 303)).any
      (fun S => (∃ m ∈ S.shared.db.matches', m.id = 54 ∧ m.status = .completed) ∧
        outcome S 4 = some (⟨0, Demo.annJob⟩, .ok (.response ⟨308, true, true, 1000, 0, some 1⟩)) ∧
        ∃ f ∈ S.shared.db.scoresOf 54,
          f.totalScore ≠ totalScore f.participantId (S.shared.db.submissionsOf 54)) = true := by
    decide +kernel
  obtain ⟨S, hReach, hS⟩ := Machine.Reach.exists_of_run hRun
  obtain ⟨hDone, hOut, f, hf, hTotal⟩ := of_decide_eq_true hS
  exact ⟨S, hReach, hDone, hOut, fun hAll => hTotal (hAll.total f hf)⟩

end LiveQuiz
