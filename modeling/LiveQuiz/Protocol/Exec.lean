import LiveQuiz.Protocol.Steps

/-! # One step keeps the contract

COMMIT, the Redis commands and the actions of the environment; then every call
under every decision of the scheduler.
-/

namespace LiveQuiz

open Coroutine

set_option autoImplicit false

section

variable {n pid q : Nat} {w w' : World} {job : Job} {ws : List Write}

theorem mem_matchQuestionRows {matchId : Id} {ids : List Id} {questions : List Question}
    {mq : MatchQuestion} (h : mq ∈ matchQuestionRows matchId ids questions) :
    mq.matchId = matchId ∧ 1 ≤ mq.position ∧ mq.startedAt = none ∧ mq.closedAt = none := by
  unfold matchQuestionRows at h
  obtain ⟨i, hi, rfl⟩ := List.mem_mapIdx.mp h
  exact ⟨rfl, Nat.le_add_left 1 i, rfl, rfl⟩

theorem Commit.inserted_matchQuestion (h : Commit w pid job ws) {mq : MatchQuestion}
    (hmq : .insertMatchQuestion mq ∈ ws) : ∃ m, .insertMatch m ∈ ws ∧ m.id = mq.matchId ∧
      1 ≤ mq.position ∧ mq.startedAt = none ∧ mq.closedAt = none := by
  cases h with
  | start host code matchId room quiz questions ids startedAt eventId =>
    have hRow : mq ∈ matchQuestionRows matchId ids questions := by
      simpa [startWrites] using hmq
    obtain ⟨hMatch, hRest⟩ := mem_matchQuestionRows hRow
    exact ⟨_, List.mem_cons_self, hMatch.symm, hRest⟩
  | resume host code m deadline _ _ _ hDeadline =>
    obtain rfl | ⟨i, u, -, rfl⟩ := hDeadline <;> simp at hmq
  | _ => simp [armWrites, closeWrites, finishWrites, submitWrites] at hmq

theorem Commit.inserted_submission (h : Commit w pid job ws) {row : AnswerSubmission}
    (hRow : .insertSubmission row ∈ ws) : Answers w row.requestId row := by
  cases h with
  | submit row' payload mq roomId questionId eventId now _ hAns =>
    have hEq : row = row' := by simpa [submitWrites] using hRow
    rw [hEq]
    exact hAns
  | resume host code m deadline _ _ _ hDeadline =>
    obtain rfl | ⟨i, u, -, rfl⟩ := hDeadline <;> simp at hRow
  | _ => simp [startWrites, armWrites, closeWrites, finishWrites] at hRow

theorem later_commit (hInv : Inv n w) (hC : Commit w pid job (w.tx pid).writes) :
    Later w (w.commit pid) where
  matchQuestions _ hq := later_matchQuestion _ hq
  matches' _ hm := later_match _ hm
  questionsOf m hm q' hq' hOf := by
    obtain hOld | ⟨q, hq, hLater⟩ := earlier_matchQuestion _ hq'
    · exact hOld
    · obtain ⟨m', hm', hId, -⟩ := hC.inserted_matchQuestion hq
      have hFree := List.any_eq_false.mp (hInv.uncollided pid _ hm') m hm
      have hSame : m.id = m'.id := by rw [hId, ← hOf, hLater.matchId]
      simp [hSame] at hFree
  submissions := by
    unfold World.commit
    rw [applyAll_submissions]
    exact List.subset_append_left _ _
  requests := fun _ h => h
  wal := List.subset_append_left _ _

theorem rely_commit (hInv : Inv n w) (hC : Commit w pid job (w.tx pid).writes) (hq : q ≠ pid) :
    Rely q w (w.commit pid) where
  later := later_commit hInv hC
  tx := by simp [World.commit, World.endTx, hq]
  lock := (rely_endTx hq).lock
  lockedRoom r hr hl := by
    refine mem_applyAll_room hr fun wr hwr hTarget => hq ?_
    have hPid := hInv.locked pid wr hwr _ hTarget
    exact Option.some.inj (hl.symm.trans hPid)
  lockedMatch m hm hl := by
    refine mem_applyAll_match hm fun wr hwr hTarget => hq ?_
    obtain hl | hl := hl
    · have hPid := hInv.locked pid wr hwr _ hTarget
      exact Option.some.inj (hl.symm.trans hPid)
    · cases wr with
      | updateMatch i st ea =>
        obtain ⟨m', hm', hId, hLock⟩ := hInv.roomLocked pid i st ea hwr
        have hi : i = m.id := by simpa [Write.target] using hTarget
        rw [hInv.keys.match_eq hm' hm (.inl (hId.trans hi)), hl] at hLock
        exact Option.some.inj hLock
      | _ => simp [Write.target] at hTarget
  lockedQuestion x hx hl := by
    refine mem_applyAll_matchQuestion hx fun wr hwr hTarget => hq ?_
    have hPid := hInv.locked pid wr hwr _ hTarget
    exact Option.some.inj (hl.symm.trans hPid)
  wal ws hws := by
    obtain h | h := List.mem_append.mp hws
    · exact h
    · exact absurd (Prod.mk.inj (List.mem_singleton.mp h)).1 hq
  applied _ _ h := h
  registered _ _ h := h
  cancelling h := h

theorem wrote_commit {p : Nat} {row : AnswerSubmission} (h : Wrote (w.commit pid) p row) :
    Wrote w p row ∨ (p = pid ∧ .insertSubmission row ∈ (w.tx pid).writes) := by
  obtain ⟨ws, hws, hRow⟩ := h
  obtain h | h := List.mem_append.mp hws
  · exact .inl ⟨ws, h, hRow⟩
  · obtain ⟨rfl, rfl⟩ := Prod.mk.inj (List.mem_singleton.mp h)
    exact .inr ⟨rfl, hRow⟩

theorem inv_commit (hInv : Inv n w) (hPid : pid < n) (hC : Commit w pid job (w.tx pid).writes) :
    Inv n (w.commit pid) := by
  have hLater := later_commit hInv hC
  have hEnd : Inv n (w.endTx pid) := inv_endTx hInv
  have hNewRow : ∀ row, .insertSubmission row ∈ (w.tx pid).writes →
      row ∈ (w.commit pid).db.submissions := by
    intro row hRow
    unfold World.commit
    rw [applyAll_submissions]
    exact List.mem_append_right _ (List.mem_filterMap.mpr ⟨_, hRow, rfl⟩)
  have hOther : ∀ p, ∀ wr ∈ ((w.endTx pid).tx p).writes, p ≠ pid ∧ wr ∈ (w.tx p).writes := by
    intro p wr hwr
    by_cases hp : p = pid
    · simp [World.endTx, hp] at hwr
    · exact ⟨hp, by simpa [World.endTx, hp] using hwr⟩
  have hFresh : ∀ p row, Wrote w p row → .insertSubmission row ∉ (w.tx pid).writes := by
    intro p row hWrote hRow
    have hCol := List.any_eq_false.mp (hInv.uncollided pid _ hRow) row (hInv.wrote p row hWrote)
    simp at hCol
  constructor
  · exact hInv.keys.applyAll (hInv.uncollided pid) (hInv.apart pid)
  · exact hEnd.idle
  · intro p hp ws hws
    obtain h | h := List.mem_append.mp hws
    · exact hInv.silent p hp ws h
    · have hEq := (Prod.mk.inj (List.mem_singleton.mp h)).1
      omega
  · exact hEnd.locked
  · intro p i st ea hwr
    obtain ⟨m, hm, hi, hl⟩ := hEnd.roomLocked p i st ea hwr
    obtain ⟨m', hm', hId, hRoom⟩ := hLater.matches' m hm
    exact ⟨m', hm', hId.trans hi, hRoom ▸ hl⟩
  · intro p wr hwr
    obtain ⟨hp, hwr⟩ := hOther p wr hwr
    have hAny : (w.tx pid).writes.any (wr.collidesWith ·) = false := by
      rw [List.any_eq_false]
      intro b hb
      simp [hInv.disjoint p pid hp wr hwr b hb]
    unfold World.commit
    rw [collides_applyAll, hInv.uncollided p wr hwr, hAny]
    rfl
  · exact hEnd.apart
  · exact hEnd.disjoint
  · intro x hx
    obtain ⟨y, hy, hL⟩ | ⟨y, hy, hL⟩ := earlier_matchQuestion _ hx
    · obtain ⟨m, hm, hId⟩ := hInv.matchOf y hy
      obtain ⟨m', hm', hId', -⟩ := hLater.matches' m hm
      exact ⟨m', hm', by rw [hId', hId, hL.matchId]⟩
    · obtain ⟨m, hm, hId, -⟩ := hC.inserted_matchQuestion hy
      obtain ⟨m', hm', hId', -⟩ := inserted_match w.db hm
      exact ⟨m', hm', by rw [hId', hId, hL.matchId]⟩
  · intro x hx
    obtain ⟨y, hy, hL⟩ | ⟨y, hy, hL⟩ := earlier_matchQuestion _ hx
    · rw [hL.position]
      exact hInv.positive y hy
    · obtain ⟨m, -, -, hPos, -⟩ := hC.inserted_matchQuestion hy
      rw [hL.position]
      exact hPos
  · exact fun m rec p hrec hp => (hInv.paused m rec p hrec hp).later hLater
  · intro row hRow
    unfold World.commit at hRow
    rw [applyAll_submissions] at hRow
    obtain h | h := List.mem_append.mp hRow
    · exact (hInv.answered row h).later hLater
    · obtain ⟨wr, hwr, hEq⟩ := List.mem_filterMap.mp h
      cases wr with
      | insertSubmission row' =>
        cases hEq
        exact (hC.inserted_submission hwr).later hLater
      | _ => cases hEq
  · intro r resp hr
    obtain ⟨row, hRow, rank, hResp, hAns⟩ := hInv.cached r resp hr
    exact ⟨row, hLater.submissions hRow, rank, hResp, hAns.later hLater⟩
  · intro i hi
    obtain ⟨row, hRow, hId⟩ := hInv.applied i hi
    exact ⟨row, hLater.submissions hRow, hId⟩
  · intro p row hWrote
    obtain h | ⟨-, h⟩ := wrote_commit hWrote
    · exact hLater.submissions (hInv.wrote p row h)
    · exact hNewRow row h
  · intro p p' row hp hp'
    obtain h | ⟨rfl, h⟩ := wrote_commit hp <;> obtain h' | ⟨rfl, h'⟩ := wrote_commit hp'
    · exact hInv.author p p' row h h'
    · exact absurd h' (hFresh p row h)
    · exact absurd h (hFresh p' row h')
    · rfl

theorem inv_setRedis {r : Redis} (hInv : Inv n w)
    (hPause : ∀ m rec p, r.pause m = some rec → rec.position = some p → HasStarted w m p)
    (hIdem : ∀ k resp, r.idem k = some resp →
      ∃ row ∈ w.db.submissions, ∃ rank, resp = .ofRow row rank ∧ Answers w k row)
    (hApplied : ∀ i ∈ r.applied, ∃ row ∈ w.db.submissions, row.id = i) :
    Inv n { w with redis := r } :=
  { hInv with paused := hPause, cached := hIdem, applied := hApplied }

theorem inv_redis {t : Task} {c : RedisCmd} (hInv : Inv n w) (hReq : Req pid t w (.redis c)) :
    Inv n { w with redis := (c.run w.redis).1 } := by
  cases c with
  | setPause m rec =>
    refine inv_setRedis hInv (fun m' rec' p hrec hp => ?_) hInv.cached hInv.applied
    by_cases hm : m' = m
    · subst hm
      have hEq : rec = rec' := by simpa [RedisCmd.run] using hrec
      exact hReq p (hEq ▸ hp)
    · exact hInv.paused m' rec' p (by simpa [RedisCmd.run, hm] using hrec) hp
  | idemSet k resp =>
    obtain ⟨-, hRow⟩ := hReq
    cases hOld : w.redis.idem k with
    | some old =>
      have hSame : (RedisCmd.run w.redis (.idemSet k resp)).1 = w.redis := by
        simp [RedisCmd.run, hOld]
      rw [hSame]
      exact hInv
    | none =>
      refine inv_setRedis hInv ?_ (fun k' resp' hr => ?_) ?_
      · simpa [RedisCmd.run, hOld] using hInv.paused
      · by_cases hk : k' = k
        · subst hk
          have hEq : resp = resp' := by simpa [RedisCmd.run, hOld] using hr
          exact hEq ▸ hRow
        · exact hInv.cached k' resp' (by simpa [RedisCmd.run, hOld, hk] using hr)
      · simpa [RedisCmd.run, hOld] using hInv.applied
  | zaddTotal m p d i =>
    obtain ⟨row, hWrote, -, -, -, hId, -⟩ := hReq
    refine inv_setRedis hInv hInv.paused hInv.cached fun i' hi' => ?_
    obtain h | h := List.mem_append.mp hi'
    · exact hInv.applied i' h
    · exact ⟨row, hInv.wrote pid row hWrote, hId.trans (List.mem_singleton.mp h).symm⟩
  | _ => exact inv_setRedis hInv hInv.paused hInv.cached hInv.applied

theorem rely_redis {t : Task} {c : RedisCmd} (hInv : Inv n w) (hReq : Req pid t w (.redis c))
    (hq : q ≠ pid) : Rely q w { w with redis := (c.run w.redis).1 } := by
  refine { Rely.refl q w with later := { Later.refl w with }, applied := fun row hRow h => ?_ }
  cases c with
  | zaddTotal m p d i =>
    obtain ⟨row', hWrote, -, -, -, hId, -⟩ := hReq
    obtain h | h := List.mem_append.mp h
    · exact h
    · have hSame : row' = row := hInv.keys.submission_eq (hInv.wrote pid row' hWrote)
        (hInv.wrote q row hRow) (.inl (hId.trans (List.mem_singleton.mp h).symm))
      exact absurd (hInv.author q pid row hRow (hSame ▸ hWrote)) hq
  | idemSet k resp =>
    cases hOld : w.redis.idem k with
    | some old => simpa [RedisCmd.run, hOld] using h
    | none => simpa [RedisCmd.run, hOld] using h
  | _ => exact h

theorem perform_kept {t : Task} {o : Op} {d : Decision} {out : Answer o} (hInv : Inv n w)
    (hReq : Req pid t w o) (hPid : pid < n) (h : perform w t pid n o d = some out) :
    Inv n out.shared ∧ ∀ q, q ≠ pid → Rely q w out.shared := by
  cases o with
  | sleepUntil u =>
    simp only [perform] at h
    split at h
    · cases h
      exact ⟨hInv, fun q _ => .refl q w⟩
    · cases h
  | select query =>
    cases h
    exact ⟨inv_noteRead hInv hPid query, fun q hq => rely_noteRead hq query⟩
  | selectForUpdate query =>
    simp only [perform, lockRow] at h
    split at h
    · cases h
      exact ⟨hInv, fun q _ => .refl q w⟩
    · split at h
      next hFree =>
        cases h
        exact ⟨inv_acquire hInv hFree, fun q _ => rely_acquire hFree⟩
      · cases h
  | flush ws =>
    simp only [perform, flushWrites] at h
    split at h
    · cases h
      exact ⟨hInv, fun q _ => .refl q w⟩
    next hViolates =>
      split at h
      · cases h
      next hBlocked =>
        cases h
        have hOk : Flushable w pid n ws :=
          ⟨by simpa using hViolates, by simpa using hBlocked⟩
        exact ⟨inv_flush hInv hPid hOk hReq, fun q hq => rely_flush hOk hq⟩
  | commit =>
    cases h
    exact ⟨inv_commit hInv hPid hReq, fun q hq => rely_commit hInv hReq hq⟩
  | rollback =>
    cases h
    exact ⟨inv_endTx hInv, fun q hq => rely_endTx hq⟩
  | redis c =>
    cases h
    exact ⟨inv_redis hInv hReq, fun q hq => rely_redis hInv hReq hq⟩
  | broadcast code m =>
    cases h
    have hSame : SameCore w { w with sent := w.sent ++ [(code, m)] } :=
      ⟨rfl, rfl, rfl, rfl, rfl, fun _ h => h⟩
    exact ⟨hSame.inv hInv, fun q _ => hSame.rely (fun _ _ h => h) fun h => h⟩
  | setActive m j =>
    cases h
    have hSame := sameCore_schedule w (Function.update w.active t.replica
      (Function.update (w.active t.replica) m (some n))) (w.active t.replica m)
    exact ⟨hSame.inv hInv, fun q _ => hSame.rely (fun r m h => registered_requestCancel r m h)
      fun h => cancelling_requestCancel _ _ h⟩
  | cancelActive m =>
    cases h
    have hSame := sameCore_schedule w (Function.update w.active t.replica
      (Function.update (w.active t.replica) m none)) (w.active t.replica m)
    exact ⟨hSame.inv hInv, fun q _ => hSame.rely (fun r m h => registered_requestCancel r m h)
      fun h => cancelling_requestCancel _ _ h⟩
  | _ =>
    cases h
    exact ⟨hInv, fun q _ => .refl q w⟩

theorem perform_spawned_none {t : Task} {o : Op} {d : Decision} {out : Answer o}
    (h : perform w t pid n o d = some out) (ho : o.suspends = true ∨ o.fallible = true) :
    out.spawned = none := by
  cases o with
  | sleepUntil u =>
    simp only [perform] at h
    split at h
    · cases h; rfl
    · cases h
  | selectForUpdate query =>
    simp only [perform, lockRow] at h
    split at h
    · cases h; rfl
    · split at h
      · cases h; rfl
      · cases h
  | flush ws =>
    simp only [perform, flushWrites] at h
    split at h
    · cases h; rfl
    · split at h
      · cases h
      · cases h; rfl
  | createTask j => simp [Op.suspends, Op.fallible] at ho
  | setActive m j => simp [Op.suspends, Op.fallible] at ho
  | _ => cases h; rfl

/-- What a call leaves behind that raises without the program's doing: nothing of
its own, or its whole effect. -/
inductive Outage (w : World) (t : Task) (pid n : Nat) (o : Op) (d : Decision) :
    Exn → World → Prop
  | crashed : w.phase t.replica = .crashed → Outage w t pid n o d .crashed (w.endTx pid)
  | cancelled : Outage w t pid n o d .cancelled (w.delivered pid)
  | fault : w.phase t.replica = .up → (o.suspends = true → w.cancelling pid = false) →
      Outage w t pid n o d .fault w
  | cancelledAfter (a : Answer o) : w.phase t.replica = .up → perform w t pid n o d = some a →
      Outage w t pid n o d .cancelled (a.shared.delivered pid)
  | faultAfter (a : Answer o) : w.phase t.replica = .up → perform w t pid n o d = some a →
      (o.suspends = true → w.cancelling pid = false) → Outage w t pid n o d .fault a.shared

theorem exec_cases {t : Task} {o : Op} {d : Decision} {out : Answer o}
    (h : exec w t pid n o d = some out) :
    (w.phase t.replica = .up ∧ (o.suspends = true → w.cancelling pid = false) ∧
      perform w t pid n o d = some out) ∨
    ∃ e, out.result = .error e ∧ out.spawned = none ∧ Outage w t pid n o d e out.shared := by
  unfold exec at h
  cases hPhase : w.phase t.replica with
  | off => simp [hPhase] at h
  | crashed =>
    simp only [hPhase, Option.some.injEq] at h
    subst h
    exact .inr ⟨_, rfl, rfl, .crashed hPhase⟩
  | up =>
    simp only [hPhase] at h
    split at h
    next hCancel =>
      simp only [Bool.and_eq_true] at hCancel
      split at h
      · obtain ⟨a, ha, rfl⟩ := Option.map_eq_some_iff.mp h
        have hNone := perform_spawned_none ha (.inl hCancel.1)
        exact .inr ⟨_, rfl, hNone, .cancelledAfter a hPhase ha⟩
      · cases h
        exact .inr ⟨_, rfl, rfl, .cancelled⟩
    next hCancel =>
      have hLive : o.suspends = true → w.cancelling pid = false := fun hs => by simpa [hs] using hCancel
      split at h
      · exact .inl ⟨rfl, hLive, h⟩
      · split at h
        · cases h
          exact .inr ⟨_, rfl, rfl, .fault hPhase hLive⟩
        · cases h
      · split at h
        next hFallible =>
          obtain ⟨a, ha, rfl⟩ := Option.map_eq_some_iff.mp h
          have hNone := perform_spawned_none ha (.inr hFallible)
          exact .inr ⟨_, rfl, hNone, .faultAfter a hPhase ha hLive⟩
        · cases h

theorem exec_kept {t : Task} {o : Op} {d : Decision} {out : Answer o} (hInv : Inv n w)
    (hReq : Req pid t w o) (hPid : pid < n) (h : exec w t pid n o d = some out) :
    Inv n out.shared ∧ ∀ q, q ≠ pid → Rely q w out.shared := by
  have hDelivered : ∀ v : World, Inv n v ∧ (∀ q, q ≠ pid → Rely q w v) →
      Inv n (v.delivered pid) ∧ ∀ q, q ≠ pid → Rely q w (v.delivered pid) := by
    rintro v ⟨hv, hRely⟩
    refine ⟨sameCore_delivered.inv hv, fun q hq => (hRely q hq).trans ?_⟩
    exact sameCore_delivered.rely (registered_delivered hq) (by simp [World.delivered, hq])
  obtain ⟨-, -, hOk⟩ | ⟨e, -, -, hOut⟩ := exec_cases h
  · exact perform_kept hInv hReq hPid hOk
  · generalize out.shared = v at hOut ⊢
    cases hOut with
    | crashed => exact ⟨inv_endTx hInv, fun q hq => rely_endTx hq⟩
    | cancelled => exact hDelivered w ⟨hInv, fun q _ => .refl q w⟩
    | fault => exact ⟨hInv, fun q _ => .refl q w⟩
    | cancelledAfter a _ ha => exact hDelivered a.shared (perform_kept hInv hReq hPid ha)
    | faultAfter a _ ha => exact perform_kept hInv hReq hPid ha

theorem Spawn.not_request {j : Job} (h : Spawn w job j) : j.isRequest = false := by
  cases h <;> rfl

theorem Spawn.begin {j : Job} {r : Nat} (hInv : Inv n w) (hSame : SameCore w w')
    (h : Spawn w job j)
    (hReg : ∀ m p d, j = .closeQuestionAfter m p d → Registered w' r m n) :
    Begin w' n ⟨r, j⟩ where
  tx := by
    rw [hSame.tx]
    exact hInv.idle n le_rfl
  silent ws hws := hInv.silent n le_rfl ws (hSame.wal ▸ hws)
  requested m p payload r' hJob := by
    subst hJob
    cases h
  started m p hCloses := by
    refine HasStarted.later ?_ hSame.later
    cases hCloses with
    | close => cases h with | overdue _ _ hs => exact hs
    | after =>
      cases h with
      | timer _ _ _ _ _ hs => exact hs
      | restarted _ _ _ _ _ hs => exact hs
      | rescheduled _ _ _ hs => exact hs
  registered m p d hJob := hReg m p d hJob

theorem exec_begin {t t' : Task} {o : Op} {d : Decision} {out : Answer o} (hInv : Inv n w)
    (hReq : Req pid t w o) (h : exec w t pid n o d = some out) (hSpawn : out.spawned = some t') :
    Begin out.shared n t' := by
  obtain ⟨-, -, hOk⟩ | ⟨e, -, hNone, -⟩ := exec_cases h
  · by_cases ho : o.suspends = true ∨ o.fallible = true
    · rw [perform_spawned_none hOk ho] at hSpawn
      cases hSpawn
    · cases o with
      | createTask j =>
        cases hOk
        cases hSpawn
        exact hReq.1.begin hInv ⟨rfl, rfl, rfl, rfl, rfl, fun _ h => h⟩
          fun m p d hJob => absurd hJob (hReq.2 m p d)
      | setActive m j =>
        cases hOk
        cases hSpawn
        refine hReq.1.begin hInv (sameCore_schedule _ _ _) fun m' p d hJob => .inl ?_
        have hOf := hReq.2
        rw [hJob] at hOf
        rw [Option.some.inj hOf]
        cases w.active t.replica m <;> simp [World.requestCancel]
      | utcnow => cases hOk; cases hSpawn
      | cancelActive m => cases hOk; cases hSpawn
      | rollback => cases hOk; cases hSpawn
      | _ => simp [Op.suspends, Op.fallible] at ho
  · rw [hNone] at hSpawn
    cases hSpawn

theorem QuizEdit.apply_eq {e : QuizEdit} {db db' : Db} (h : e.apply db = some db') :
    ∃ qs xs os, db' = { db with quizSets := qs, questions := xs, options := os } := by
  cases e with
  | updateQuestion o i u ids =>
    simp only [QuizEdit.apply, LiveQuiz.updateQuestion, Option.bind_eq_bind,
      Option.bind_eq_some_iff, Option.pure_def, Option.some.injEq] at h
    obtain ⟨x, -, y, -, -, -, xs, -, os, -, rfl⟩ := h
    exact ⟨_, _, _, rfl⟩
  | addQuestion o s i c ids =>
    simp only [QuizEdit.apply, LiveQuiz.addQuestion, Option.bind_eq_bind,
      Option.bind_eq_some_iff, Option.pure_def, Option.some.injEq] at h
    obtain ⟨x, -, -, -, -, -, ys, -, xs, -, os, -, rfl⟩ := h
    exact ⟨_, _, _, rfl⟩
  | updateQuizSet o s u =>
    simp only [QuizEdit.apply, LiveQuiz.updateQuizSet, Option.bind_eq_bind,
      Option.bind_eq_some_iff, Option.pure_def, Option.some.injEq] at h
    obtain ⟨x, -, -, -, rfl⟩ := h
    exact ⟨_, _, _, rfl⟩

/-- The tables of the match service are as they were, but for new rooms. -/
structure SameMatches (w w' : World) : Prop where
  rooms : w.db.rooms ⊆ w'.db.rooms
  matches' : w'.db.matches' = w.db.matches'
  matchQuestions : w'.db.matchQuestions = w.db.matchQuestions
  submissions : w'.db.submissions = w.db.submissions
  finalScores : w'.db.finalScores = w.db.finalScores
  outbox : w'.db.outbox = w.db.outbox
  tx : w'.tx = w.tx
  lock : w'.lock = w.lock
  wal : w'.wal = w.wal
  requests : w.requests ⊆ w'.requests
  applied : w'.redis.applied = w.redis.applied
  idem : ∀ k resp, w'.redis.idem k = some resp → w.redis.idem k = some resp
  pause : ∀ m rec, w'.redis.pause m = some rec → w.redis.pause m = some rec
  active : w'.active = w.active
  cancelling : w'.cancelling = w.cancelling

theorem env_same {e : EnvAction} {out : World × Option Task} (h : env w n e = some out) :
    SameMatches w out.1 := by
  have hSelf : ∀ v : World, v.db = w.db → v.tx = w.tx → v.lock = w.lock → v.wal = w.wal →
      w.requests ⊆ v.requests → v.redis = w.redis → v.active = w.active →
      v.cancelling = w.cancelling → SameMatches w v := by
    intro v hdb htx hlock hwal hreq hredis hactive hcancel
    refine ⟨?_, by rw [hdb], by rw [hdb], by rw [hdb], by rw [hdb], by rw [hdb], htx, hlock, hwal,
      hreq, by rw [hredis], by rw [hredis]; exact fun _ _ h => h, by rw [hredis]; exact fun _ _ h => h,
      hactive, hcancel⟩
    rw [hdb]
    exact fun _ hr => hr
  have hDb : ∀ db : Db, w.db.rooms ⊆ db.rooms → db.matches' = w.db.matches' →
      db.matchQuestions = w.db.matchQuestions → db.submissions = w.db.submissions →
      db.finalScores = w.db.finalScores → db.outbox = w.db.outbox → SameMatches w { w with db := db } :=
    fun db hr hm hq hs hf ho => ⟨hr, hm, hq, hs, hf, ho, rfl, rfl, rfl, fun _ h => h, rfl,
      fun _ _ h => h, fun _ _ h => h, rfl, rfl⟩
  cases e with
  | tick dt =>
    cases h
    exact hSelf _ rfl rfl rfl rfl (fun _ h => h) rfl rfl rfl
  | boot r =>
    simp only [env] at h
    split at h
    · cases h
      exact hSelf _ rfl rfl rfl rfl (fun _ h => h) rfl rfl rfl
    · cases h
  | request r j =>
    simp only [env] at h
    split at h
    · cases h
      exact hSelf _ rfl rfl rfl rfl (List.subset_append_left _ _) rfl rfl rfl
    · cases h
  | crash r =>
    simp only [env] at h
    split at h
    · cases h
      exact hSelf _ rfl rfl rfl rfl (fun _ h => h) rfl rfl rfl
    · cases h
  | expireIdem k =>
    cases h
    refine { hSelf w rfl rfl rfl rfl (fun _ h => h) rfl rfl rfl with idem := fun k' resp hk => ?_ }
    by_cases hEq : k' = k
    · simp [hEq] at hk
    · simpa [hEq] using hk
  | expirePause m =>
    cases h
    refine { hSelf w rfl rfl rfl rfl (fun _ h => h) rfl rfl rfl with pause := fun m' rec hm => ?_ }
    by_cases hEq : m' = m
    · simp [hEq] at hm
    · simpa [hEq] using hm
  | edit e =>
    obtain ⟨db, hEdit, rfl⟩ := Option.map_eq_some_iff.mp h
    obtain ⟨qs, xs, os, rfl⟩ := QuizEdit.apply_eq hEdit
    exact hDb _ (fun _ h => h) rfl rfl rfl rfl rfl
  | createRoom r =>
    simp only [env] at h
    split at h
    · cases h
      exact hDb _ (List.subset_append_left _ _) rfl rfl rfl rfl rfl
    · cases h
  | join p =>
    simp only [env] at h
    split at h
    · cases h
      exact hDb _ (fun _ h => h) rfl rfl rfl rfl rfl
    · cases h
  | kick i =>
    cases h
    exact hDb _ (fun _ h => h) rfl rfl rfl rfl rfl

theorem SameMatches.later (h : SameMatches w w') : Later w w' where
  matchQuestions q hq := ⟨q, h.matchQuestions ▸ hq, .refl q⟩
  matches' m hm := ⟨m, h.matches' ▸ hm, rfl, rfl⟩
  questionsOf _ _ q hq _ := ⟨q, h.matchQuestions ▸ hq, .refl q⟩
  submissions := h.submissions ▸ fun _ hr => hr
  requests := h.requests
  wal := h.wal ▸ fun _ hr => hr

theorem SameMatches.rely (h : SameMatches w w') : Rely q w w' where
  later := h.later
  tx := by rw [h.tx]
  lock _ hr := h.lock ▸ hr
  lockedRoom _ hr _ := h.rooms hr
  lockedMatch _ hm _ := h.matches' ▸ hm
  lockedQuestion _ hx _ := h.matchQuestions ▸ hx
  wal _ hws := h.wal ▸ hws
  applied _ _ ha := h.applied ▸ ha
  registered r m hr := by
    unfold Registered
    rw [h.active, h.cancelling]
    exact hr
  cancelling hc := h.cancelling ▸ hc

theorem collides_congr (wr : Write) {db db' : Db} (hm : db'.matches' = db.matches')
    (hq : db'.matchQuestions = db.matchQuestions) (hs : db'.submissions = db.submissions)
    (hf : db'.finalScores = db.finalScores) (ho : db'.outbox = db.outbox) :
    wr.collides db' = wr.collides db := by
  cases wr <;> simp only [Write.collides, hm, hq, hs, hf, ho]

theorem SameMatches.inv (h : SameMatches w w') (hInv : Inv n w) : Inv n w' := by
  have hLater := h.later
  constructor
  · exact ⟨h.matches' ▸ hInv.keys.matches', h.matchQuestions ▸ hInv.keys.matchQuestions,
      h.submissions ▸ hInv.keys.submissions, h.finalScores ▸ hInv.keys.finalScores,
      h.outbox ▸ hInv.keys.outbox⟩
  · exact h.tx ▸ hInv.idle
  · exact fun p hp ws hws => hInv.silent p hp ws (h.wal ▸ hws)
  · rw [h.tx, h.lock]
    exact hInv.locked
  · rw [h.tx, h.lock, h.matches']
    exact hInv.roomLocked
  · intro p wr hwr
    rw [collides_congr wr h.matches' h.matchQuestions h.submissions h.finalScores h.outbox]
    exact hInv.uncollided p wr (h.tx ▸ hwr)
  · exact h.tx ▸ hInv.apart
  · exact h.tx ▸ hInv.disjoint
  · rw [h.matchQuestions, h.matches']
    exact hInv.matchOf
  · exact h.matchQuestions ▸ hInv.positive
  · exact fun m rec p hrec hp => (hInv.paused m rec p (h.pause m rec hrec) hp).later hLater
  · exact fun row hRow => (hInv.answered row (h.submissions ▸ hRow)).later hLater
  · intro r resp hr
    obtain ⟨row, hRow, rank, hResp, hAns⟩ := hInv.cached r resp (h.idem r resp hr)
    exact ⟨row, hLater.submissions hRow, rank, hResp, hAns.later hLater⟩
  · rw [h.applied, h.submissions]
    exact hInv.applied
  · unfold Wrote
    rw [h.wal, h.submissions]
    exact hInv.wrote
  · unfold Wrote
    rw [h.wal]
    exact hInv.author

theorem env_spawned {e : EnvAction} {out : World × Option Task} {t : Task}
    (h : env w n e = some out) (ht : out.2 = some t) :
    (∃ r j, e = .request r j ∧ t = ⟨r, j⟩ ∧ j.isRequest = true ∧
      out.1.requests = w.requests ++ [j]) ∨
      ∃ r, e = .boot r ∧ t = ⟨r, .recoverRunningMatches⟩ := by
  cases e with
  | boot r =>
    simp only [env] at h
    split at h
    · cases h
      cases ht
      exact .inr ⟨r, rfl, rfl⟩
    · cases h
  | request r j =>
    simp only [env] at h
    split at h
    next hReq =>
      cases h
      cases ht
      exact .inl ⟨r, j, rfl, rfl, hReq.2, rfl⟩
    · cases h
  | crash r =>
    simp only [env] at h
    split at h
    · cases h
      cases ht
    · cases h
  | edit e =>
    obtain ⟨db, -, rfl⟩ := Option.map_eq_some_iff.mp h
    cases ht
  | createRoom r =>
    simp only [env] at h
    split at h
    · cases h
      cases ht
    · cases h
  | join p =>
    simp only [env] at h
    split at h
    · cases h
      cases ht
    · cases h
  | _ =>
    cases h
    cases ht

def EnvAction.requested : EnvAction → List Job
  | .request _ j => [j]
  | _ => []

theorem env_requests {e : EnvAction} {out : World × Option Task} (h : env w n e = some out) :
    out.1.requests = w.requests ++ e.requested := by
  cases e with
  | boot r =>
    simp only [env] at h
    split at h
    · cases h
      exact (List.append_nil _).symm
    · cases h
  | request r j =>
    simp only [env] at h
    split at h
    · cases h
      rfl
    · cases h
  | crash r =>
    simp only [env] at h
    split at h
    · cases h
      exact (List.append_nil _).symm
    · cases h
  | edit e =>
    obtain ⟨db, -, rfl⟩ := Option.map_eq_some_iff.mp h
    exact (List.append_nil _).symm
  | createRoom r =>
    simp only [env] at h
    split at h
    · cases h
      exact (List.append_nil _).symm
    · cases h
  | join p =>
    simp only [env] at h
    split at h
    · cases h
      exact (List.append_nil _).symm
    · cases h
  | _ =>
    cases h
    exact (List.append_nil _).symm

theorem env_begin {e : EnvAction} {out : World × Option Task} {t : Task} (hInv : Inv n w)
    (h : env w n e = some out) (ht : out.2 = some t) : Begin out.1 n t := by
  have hSame := env_same h
  have hTx : out.1.tx n = {} := by
    rw [hSame.tx]
    exact hInv.idle n le_rfl
  have hSilent : Silent out.1 n := fun ws hws => hInv.silent n le_rfl ws (hSame.wal ▸ hws)
  obtain ⟨r, j, rfl, rfl, hReq, hNew⟩ | ⟨r, rfl, rfl⟩ := env_spawned (n := n) h ht
  · refine ⟨hTx, hSilent, fun _ _ _ _ _ => ?_, fun _ _ hJob => ?_, fun _ _ _ hJob => ?_⟩
    · rw [hNew]
      exact List.mem_append_right _ (List.mem_singleton_self j)
    · cases hJob <;> simp [Job.isRequest] at hReq
    · subst hJob
      simp [Job.isRequest] at hReq
  · exact ⟨hTx, hSilent, fun _ _ _ _ hJob => (by cases hJob), fun _ _ hJob => (by cases hJob),
      fun _ _ _ hJob => (by cases hJob)⟩

end

end LiveQuiz
