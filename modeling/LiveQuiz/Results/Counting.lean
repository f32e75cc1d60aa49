import LiveQuiz.Results.Lifecycle

/-! # Answers are counted once

The unique keys make an answer a single row, the transaction adds its event with
it, and only the call that inserted the row runs the ZINCRBY behind the commit. The
sorted set shows these sums as long as `start_match`, whose DEL comes behind its own
COMMIT, empties it before the first of them.
-/

namespace LiveQuiz

open Coroutine

set_option autoImplicit false

/-- What the counted answers of one participant add up to. -/
def countedScore (subs : List AnswerSubmission) (applied : List Id) (m p : Id) : Int :=
  ((subs.filter fun r => r.matchId = m ∧ r.participantId = p ∧ r.id ∈ applied).map
    (·.scoreAwarded)).sum

section

variable {members : List (Id × Int)} {subs : List AnswerSubmission} {applied : List Id}
  {row : AnswerSubmission} {m p q : Id}

theorem zscore_cons (x : Id × Int) (xs : List (Id × Int)) (q : Id) :
    zscore (x :: xs) q = if x.1 = q then x.2 else zscore xs q := by
  unfold zscore
  by_cases h : x.1 = q <;> simp [h]

theorem zscore_append (d : Int) (h : ∀ x ∈ members, x.1 ≠ p) :
    zscore (members ++ [(p, d)]) q = zscore members q + if p = q then d else 0 := by
  induction members with
  | nil =>
    rw [List.nil_append, zscore_cons]
    simp [zscore]
  | cons x xs ih =>
    obtain ⟨hx, hxs⟩ := List.forall_mem_cons.mp h
    rw [List.cons_append, zscore_cons, zscore_cons, ih hxs]
    by_cases hq : x.1 = q
    · have hp : p ≠ q := fun hp => hx (hq.trans hp.symm)
      simp [hq, hp]
    · simp [hq]

theorem zscore_map_ne (d : Int) (h : p ≠ q) :
    zscore (members.map fun x => if x.1 = p then (x.1, x.2 + d) else x) q = zscore members q := by
  induction members with
  | nil => rfl
  | cons x xs ih =>
    rw [List.map_cons, zscore_cons, zscore_cons, ih]
    by_cases hx : x.1 = p <;> simp [hx, h]

theorem zscore_map_self (d : Int) (h : ∃ x ∈ members, x.1 = p) :
    zscore (members.map fun x => if x.1 = p then (x.1, x.2 + d) else x) p =
      zscore members p + d := by
  induction members with
  | nil => simp at h
  | cons x xs ih =>
    rw [List.map_cons, zscore_cons, zscore_cons]
    by_cases hx : x.1 = p
    · simp [hx]
    · rw [if_neg hx, if_neg hx, if_neg hx]
      refine ih ?_
      obtain ⟨y, hy, hp⟩ := h
      obtain rfl | hy := List.mem_cons.mp hy
      · exact absurd hp hx
      · exact ⟨y, hy, hp⟩

theorem zscore_zincrby (members : List (Id × Int)) (p : Id) (d : Int) (q : Id) :
    zscore (zincrby members p d) q = zscore members q + if p = q then d else 0 := by
  unfold zincrby
  split
  next h =>
    by_cases hq : p = q
    · subst hq
      obtain ⟨x, hx, hp⟩ := List.any_eq_true.mp h
      rw [zscore_map_self d ⟨x, hx, of_decide_eq_true hp⟩, if_pos rfl]
    · rw [zscore_map_ne d hq, if_neg hq, Int.add_zero]
  next h =>
    refine zscore_append d fun x hx hp => h ?_
    exact List.any_eq_true.mpr ⟨x, hx, decide_eq_true hp⟩

theorem countedScore_cons (r : AnswerSubmission) (subs : List AnswerSubmission) (applied : List Id)
    (m p : Id) : countedScore (r :: subs) applied m p =
      (if r.matchId = m ∧ r.participantId = p ∧ r.id ∈ applied then r.scoreAwarded else 0) +
        countedScore subs applied m p := by
  unfold countedScore
  by_cases h : r.matchId = m ∧ r.participantId = p ∧ r.id ∈ applied <;> simp [h]

theorem countedScore_uncounted {i : Id} (h : ∀ r ∈ subs, r.id ≠ i) :
    countedScore subs (applied ++ [i]) m p = countedScore subs applied m p := by
  induction subs with
  | nil => rfl
  | cons r subs ih =>
    obtain ⟨hr, hSubs⟩ := List.forall_mem_cons.mp h
    rw [countedScore_cons, countedScore_cons, ih hSubs]
    simp [hr]

theorem countedScore_count (hKeys : subs.Pairwise fun a b => a.id ≠ b.id) (hRow : row ∈ subs)
    (hNew : row.id ∉ applied) : countedScore subs (applied ++ [row.id]) m p =
      countedScore subs applied m p +
        if row.matchId = m ∧ row.participantId = p then row.scoreAwarded else 0 := by
  induction subs with
  | nil => cases hRow
  | cons r subs ih =>
    obtain ⟨hr, hSubs⟩ := List.pairwise_cons.mp hKeys
    rw [countedScore_cons, countedScore_cons]
    obtain rfl | hRow := List.mem_cons.mp hRow
    · rw [countedScore_uncounted fun x hx => (hr x hx).symm]
      simp only [List.mem_append, hNew, List.mem_singleton, or_true, and_true, and_false, if_false]
      omega
    · have hId : r.id ≠ row.id := hr row hRow
      rw [ih hSubs hRow]
      simp only [List.mem_append, List.mem_singleton, hId, or_false]
      omega

theorem countedScore_insert {more : List AnswerSubmission} (h : ∀ r ∈ more, r.id ∉ applied) :
    countedScore (subs ++ more) applied m p = countedScore subs applied m p := by
  have hNil : more.filter (fun r => r.matchId = m ∧ r.participantId = p ∧ r.id ∈ applied) = [] :=
    List.filter_eq_nil_iff.mpr fun r hr hc => h r hr (of_decide_eq_true hc).2.2
  unfold countedScore
  rw [List.filter_append, hNil, List.append_nil]

end

/-- No answer that scored has been counted yet when a start empties its leaderboard. -/
def resetsFirst (S : SysState) : SysLabel → Bool
  | .op pid _ =>
    match S.procs[pid]? with
    | some ⟨_, .call (.redis (.resetLeaderboard m)) _⟩ => S.shared.db.submissions.all fun row =>
      row.matchId ≠ m ∨ row.id ∉ S.shared.redis.applied ∨ row.scoreAwarded = 0
    | _ => true
  | .env _ => true

/-- The leaderboards after a step: as before, one more row counted by the call that
inserted it, or one emptied by a start. -/
inductive BoardMove (S : SysState) (l : SysLabel) (r : Redis) : Prop
  | same : r.leaderboard = S.shared.redis.leaderboard → r.applied = S.shared.redis.applied →
      BoardMove S l r
  | counted (pid : Nat) (row : AnswerSubmission) : Wrote S.shared pid row →
      row.id ∉ S.shared.redis.applied →
      r.leaderboard = Function.update S.shared.redis.leaderboard row.matchId
        (zincrby (S.shared.redis.leaderboard row.matchId) row.participantId row.scoreAwarded) →
      r.applied = S.shared.redis.applied ++ [row.id] → BoardMove S l r
  | emptied (m : Id) :
      (resetsFirst S l = true → ∀ row ∈ S.shared.db.submissions, row.matchId = m →
        row.id ∈ S.shared.redis.applied → row.scoreAwarded = 0) →
      r.leaderboard = Function.update S.shared.redis.leaderboard m [] →
      r.applied = S.shared.redis.applied → BoardMove S l r

section

variable {C : SysState → SysLabel → Prop} {seed : Seed} {S S' : SysState} {l : SysLabel} {m p : Id}

theorem exec_board {t : Task} {pid n : Nat} {o : Op} {d : Decision} {out : Answer o}
    {k : Except Exn o.Res → Coro Ret} (hProc : S.procs[pid]? = some ⟨t, .call o k⟩)
    (hReq : Req pid t S.shared o) (h : exec S.shared t pid n o d = some out) :
    BoardMove S (.op pid d) out.shared.redis := by
  obtain hSame | ⟨-, c, rfl, hRun⟩ := exec_redis h
  · rw [hSame]
    exact .same rfl rfl
  · rw [hRun]
    cases c with
    | zaddTotal m p d i =>
      obtain ⟨row, hWrote, rfl, rfl, rfl, rfl, hNew⟩ := hReq
      exact .counted pid row hWrote hNew rfl rfl
    | resetLeaderboard m =>
      refine .emptied m (fun hFirst row hRow hm hIn => ?_) rfl rfl
      simp only [resetsFirst, hProc, List.all_eq_true, decide_eq_true_eq] at hFirst
      exact ((hFirst row hRow).resolve_left (not_not_intro hm)).resolve_left (not_not_intro hIn)
    | idemSet key resp =>
      cases hOld : S.shared.redis.idem key with
      | none => exact .same (by simp [RedisCmd.run, hOld]) (by simp [RedisCmd.run, hOld])
      | some r => exact .same (by simp [RedisCmd.run, hOld]) (by simp [RedisCmd.run, hOld])
    | _ => exact .same rfl rfl

theorem env_board {e : EnvAction} {out : World × Option Task} {n : Nat}
    (h : env S.shared n e = some out) : BoardMove S (.env e) out.1.redis := by
  cases e with
  | edit q =>
    obtain ⟨db, -, rfl⟩ := Option.map_eq_some_iff.mp h
    exact .same rfl rfl
  | boot r =>
    simp only [env] at h
    split at h <;> cases h
    exact .same rfl rfl
  | crash r =>
    simp only [env] at h
    split at h <;> cases h
    exact .same rfl rfl
  | request r j =>
    simp only [env] at h
    split at h <;> cases h
    exact .same rfl rfl
  | createRoom room =>
    simp only [env] at h
    split at h <;> cases h
    exact .same rfl rfl
  | join participant =>
    simp only [env] at h
    split at h <;> cases h
    exact .same rfl rfl
  | _ =>
    cases h
    exact .same rfl rfl

theorem step_board (hS : Held S) (hStep : service.step S l = some S') :
    BoardMove S l S'.shared.redis := by
  obtain ⟨pid, d, t, o, k, out, rfl, hProc, hExec, rfl⟩ | ⟨e, out, rfl, hEnv, rfl⟩ :=
    Machine.step_cases hStep
  · exact exec_board hProc (hS.req sound hProc) hExec
  · exact env_board (n := S.procs.length) hEnv

end

/-- What an AnswerSubmitted event and its row have in common. -/
structure AnswerFacts where
  submissionId : Id
  matchId : Id
  matchQuestionId : Id
  participantId : Id
  isCorrect : Bool
  scoreAwarded : Int
  responseTimeMs : Int
  deriving DecidableEq

def AnswerSubmission.facts (r : AnswerSubmission) : AnswerFacts :=
  ⟨r.id, r.matchId, r.matchQuestionId, r.participantId, r.isCorrect, r.scoreAwarded,
    r.responseTimeMs⟩

def OutboxEvent.answer? (e : OutboxEvent) : Option AnswerFacts :=
  match e.payload with
  | .answerSubmitted i m _ mq _ p correct score rt _ => some ⟨i, m, mq, p, correct, score, rt⟩
  | _ => none

theorem Commit.answers {w : World} {pid : Nat} {job : Job} {ws : List Write}
    (h : Commit w pid job ws) : (ws.filterMap Write.event?).filterMap OutboxEvent.answer? =
      (ws.filterMap Write.submission?).map AnswerSubmission.facts := by
  cases h with
  | start host code matchId room quiz questions ids startedAt eventId =>
    have hNone : ∀ mqs : List MatchQuestion,
        (mqs.map Write.insertMatchQuestion).filterMap Write.submission? = [] := by
      intro mqs
      simp [List.filterMap_eq_nil_iff, Write.submission?]
    rw [startWrites_events]
    simp [startWrites, List.filterMap_cons, List.filterMap_append, hNone, Write.submission?,
      matchStartedEvent, OutboxEvent.answer?]
  | finish =>
    rw [finishWrites_events, finishWrites_submissions]
    rfl
  | resume _ _ _ deadline _ _ _ hDeadline =>
    obtain rfl | ⟨i, u, -, rfl⟩ := hDeadline <;> rfl
  | _ => rfl

/-- What holds of the counting in every state. -/
structure Counted (w : World) : Prop where
  events : w.db.outbox.filterMap OutboxEvent.answer? = w.db.submissions.map AnswerSubmission.facts
  once : w.redis.applied.Nodup

/-- The leaderboards show the counted answers. -/
def ShowsCounted (w : World) : Prop :=
  ∀ m p, zscore (w.redis.leaderboard m) p = countedScore w.db.submissions w.redis.applied m p

section

variable {C : SysState → SysLabel → Prop} {seed : Seed} {S S' : SysState} {l : SysLabel} {m p : Id}

theorem counted_step (hS : Held S) (h : Counted S.shared) (hStep : service.step S l = some S') :
    Counted S'.shared := by
  obtain hSame | ⟨pid, t, hC⟩ := step_cases hS hStep
  · refine ⟨by rw [hSame.outbox, hSame.submissions, h.events], ?_⟩
    cases step_board hS hStep with
    | same hl ha => exact ha ▸ h.once
    | counted pid row hWrote hNew hl ha =>
      rw [ha]
      exact h.once.append (List.nodup_singleton _) (by simpa using hNew)
    | emptied m _ hl ha => exact ha ▸ h.once
  · refine ⟨?_, hC.redis ▸ h.once⟩
    rw [hC.db, applyAll_outbox, applyAll_submissions, List.filterMap_append, List.map_append,
      h.events, hC.shape.answers]

theorem counted_reach (h : service.Reach C (initial seed) S) : Counted S.shared := by
  induction h with
  | refl => exact ⟨rfl, .nil⟩
  | tail hReach _ hStep ih => exact counted_step (held_of_reach hReach) ih hStep

theorem countedScore_eq_zero {subs : List AnswerSubmission} {applied : List Id}
    (h : ∀ row ∈ subs, row.matchId = m → row.id ∈ applied → row.scoreAwarded = 0) :
    countedScore subs applied m p = 0 := by
  refine List.sum_eq_zero fun d hd => ?_
  obtain ⟨row, hRow, rfl⟩ := List.mem_map.mp hd
  obtain ⟨hMem, hCond⟩ := List.mem_filter.mp hRow
  obtain ⟨hm, -, hIn⟩ := of_decide_eq_true hCond
  exact h row hMem hm hIn

theorem showsCounted_step (hS : Held S) (h : ShowsCounted S.shared)
    (hFirst : resetsFirst S l = true) (hStep : service.step S l = some S') :
    ShowsCounted S'.shared := by
  intro m p
  obtain hSame | ⟨pid, t, hC⟩ := step_cases hS hStep
  · rw [hSame.submissions]
    cases step_board hS hStep with
    | same hl ha =>
      rw [hl, ha]
      exact h m p
    | counted pid row hWrote hNew hl ha =>
      have hKeys := hS.inv.keys.submissions.imp fun h => h.1
      rw [hl, ha, countedScore_count hKeys (hS.inv.wrote pid row hWrote) hNew, ← h m p]
      by_cases hm : row.matchId = m
      · subst hm
        rw [Function.update_self, zscore_zincrby]
        simp
      · rw [Function.update_of_ne (Ne.symm hm)]
        simp [hm]
    | emptied m' hUnscored hl ha =>
      rw [hl, ha]
      by_cases hm : m = m'
      · subst hm
        rw [Function.update_self, countedScore_eq_zero (hUnscored hFirst)]
        rfl
      · rw [Function.update_of_ne hm]
        exact h m p
  · rw [hC.redis, hC.db, applyAll_submissions, countedScore_insert]
    · exact h m p
    · intro r hr hIn
      obtain ⟨wr, hwr, hEq⟩ := List.mem_filterMap.mp hr
      obtain ⟨x, hx, hId⟩ := hS.inv.applied r.id hIn
      cases wr with
      | insertSubmission row =>
        cases hEq
        have hFree := List.any_eq_false.mp (hS.inv.uncollided pid _ hwr) x hx
        simp [hId] at hFree
      | _ => cases hEq

theorem showsCounted_reach (h : service.Reach (fun S l => resetsFirst S l = true) (initial seed) S) :
    ShowsCounted S.shared := by
  induction h with
  | refl => exact fun _ _ => rfl
  | tail hReach hFirst hStep ih => exact showsCounted_step (held_of_reach hReach) ih hFirst hStep

/-- One row per answer and per request id, one event per row with its values, and one
ZINCRBY at most per row. -/
structure ExactlyOnce (w : World) : Prop where
  perQuestion : ∀ q p, (w.db.submissions.filter
    fun r => (r.matchQuestionId, r.participantId) = (q, p)).length ≤ 1
  perRequest : ∀ rid, (w.db.submissions.filter (·.requestId = rid)).length ≤ 1
  events : w.db.outbox.filterMap OutboxEvent.answer? = w.db.submissions.map AnswerSubmission.facts
  counted : ∀ i ∈ w.redis.applied, ∃ row ∈ w.db.submissions, row.id = i
  once : w.redis.applied.Nodup

/-- Answers are accounted for exactly once in every state; and every leaderboard is the sum
of the counted ones, as long as no start empties it behind an answer that scored. -/
theorem answers_exactly_once :
    (∀ S, service.Reach (fun _ _ => True) (initial seed) S → ExactlyOnce S.shared) ∧
    ∀ S, service.Reach (fun S l => resetsFirst S l = true) (initial seed) S →
      ShowsCounted S.shared := by
  refine ⟨fun S h => ?_, fun S h => showsCounted_reach h⟩
  have hS := held_of_reach h
  have hCounted := counted_reach h
  refine ⟨fun q p => ?_, fun rid => ?_, hCounted.events, hS.inv.applied, hCounted.once⟩
  · refine length_filter_of_pairwise (hS.inv.keys.submissions.imp fun hab hEq => hab.2.1 ?_) (q, p)
    exact Prod.mk.inj hEq
  · exact length_filter_of_pairwise (hS.inv.keys.submissions.imp fun hab => hab.2.2) rid

end

theorem answers_exactly_once_ann : ∃ S : SysState,
    service.Reach (fun S l => resetsFirst S l = true) (initial Demo.seed) S ∧
    S.shared.redis.applied = [308] ∧ ExactlyOnce S.shared ∧ ShowsCounted S.shared := by
  have hRun : (service.runWhile resetsFirst (initial Demo.seed) Demo.annAnswers).any
      (fun S => S.shared.redis.applied = [308]) = true := by
    decide +kernel
  obtain ⟨S, hReach, hS⟩ := Machine.Reach.exists_of_runWhile hRun
  exact ⟨S, hReach, of_decide_eq_true hS, answers_exactly_once.1 S (hReach.mono fun _ _ _ => trivial),
    answers_exactly_once.2 S hReach⟩

/-- Behind the COMMIT of the start, before its DEL, the host pauses and resumes; question 1
is armed and Ann's answer to it is counted. -/
def Demo.answeredBeforeReset : List SysLabel :=
  [.env (.boot 0)] ++ calls 0 1 0 ++ [.env (.request 0 (.startMatch 7 "AB"))] ++ calls 1 13 50 ++
    [.env (.request 0 (.pauseMatch 7 "AB"))] ++ calls 2 8 100 ++
    [.env (.request 0 (.resumeMatch 7 "AB"))] ++ calls 3 8 120 ++ calls 4 15 140 ++
    [.env (.request 0 annJob)] ++ calls 6 22 300

/-- The start goes on with its DEL: the leaderboard has lost Ann's 1000 points. -/
theorem counted_answer_dropped : ∃ S : SysState,
    service.Reach (fun _ _ => True) (initial Demo.seed) S ∧ 308 ∈ S.shared.redis.applied ∧
    countedScore S.shared.db.submissions S.shared.redis.applied 54 21 = 1000 ∧
    zscore (S.shared.redis.leaderboard 54) 21 = 0 := by
  have hRun : (service.run (initial Demo.seed) (Demo.answeredBeforeReset ++ Demo.calls 1 2 400)).any
      (fun S => 308 ∈ S.shared.redis.applied ∧
        countedScore S.shared.db.submissions S.shared.redis.applied 54 21 = 1000 ∧
        zscore (S.shared.redis.leaderboard 54) 21 = 0) = true := by
    decide +kernel
  obtain ⟨S, hReach, hS⟩ := Machine.Reach.exists_of_run hRun
  exact ⟨S, hReach, of_decide_eq_true hS⟩

end LiveQuiz
