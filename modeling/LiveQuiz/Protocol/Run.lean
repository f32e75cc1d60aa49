import LiveQuiz.Protocol.Host

/-! # What a run does

Every state of a run keeps the contract. One step leaves the rows of the match
tables alone or commits one of the listed transactions; it starts a listed task
or a request.
-/

namespace LiveQuiz

open Coroutine

set_option autoImplicit false

theorem inv_genesis (seed : Seed) : Inv 0 (.genesis seed) := by
  have hNone : ∀ pid row, ¬Wrote (.genesis seed) pid row := by
    rintro pid row ⟨ws, hws, -⟩
    cases hws
  constructor
  · exact ⟨.nil, .nil, .nil, .nil, .nil⟩
  · exact fun _ _ => rfl
  · exact fun _ _ _ hws => by cases hws
  · exact fun _ _ hwr => by cases hwr
  · exact fun _ _ _ _ hwr => by cases hwr
  · exact fun _ _ hwr => by cases hwr
  · exact fun _ => .nil
  · exact fun _ _ _ _ ha => by cases ha
  · exact fun _ hq => by cases hq
  · exact fun _ hq => by cases hq
  · exact fun _ _ _ hrec => by cases hrec
  · exact fun _ hRow => by cases hRow
  · exact fun _ _ hr => by cases hr
  · exact fun _ hi => by cases hi
  · exact fun pid row h => absurd h (hNone pid row)
  · exact fun p _ row h => absurd h (hNone p row)

abbrev Held := Kept service contract

theorem held_initial (seed : Seed) : Held (initial seed) :=
  ⟨inv_genesis seed, fun _ _ hp => by cases hp⟩

section

variable {C : SysState → SysLabel → Prop} {seed : Seed} {S S' : SysState} {l : SysLabel}

theorem held_of_reach (h : service.Reach C (initial seed) S) : Held S :=
  sound.kept (held_initial seed) h

/-- The tables of the match service have the same rows. -/
structure SameRows (w w' : World) : Prop where
  matches' : w'.db.matches' = w.db.matches'
  matchQuestions : w'.db.matchQuestions = w.db.matchQuestions
  submissions : w'.db.submissions = w.db.submissions
  finalScores : w'.db.finalScores = w.db.finalScores
  outbox : w'.db.outbox = w.db.outbox
  wal : w'.wal = w.wal

/-- Program `pid` commits its transaction in this step. -/
structure Commits (S : SysState) (l : SysLabel) (S' : SysState) (pid : Nat) (t : Task) : Prop where
  label : ∃ d, l = .op pid d
  proc : ∃ k, S.procs[pid]? = some ⟨t, .call .commit k⟩
  up : S.shared.phase t.replica = .up
  shape : Commit S.shared pid t.job (S.shared.tx pid).writes
  db : S'.shared.db = applyAll (S.shared.tx pid).writes S.shared.db
  wal : S'.shared.wal = S.shared.wal ++ [(pid, (S.shared.tx pid).writes)]
  redis : S'.shared.redis = S.shared.redis

/-- What only COMMIT and the environment change. -/
structure Untouched (w w' : World) : Prop where
  db : w'.db = w.db
  wal : w'.wal = w.wal
  requests : w'.requests = w.requests
  phase : w'.phase = w.phase

theorem Untouched.refl (w : World) : Untouched w w := ⟨rfl, rfl, rfl, rfl⟩

theorem untouched_schedule (w : World) (active : Nat → Id → Option Nat) (o : Option Nat) :
    Untouched w ({ w with active := active }.requestCancel o) := by
  cases o with
  | none => exact ⟨rfl, rfl, rfl, rfl⟩
  | some p => exact ⟨rfl, rfl, rfl, rfl⟩

theorem perform_untouched {w : World} {t : Task} {pid n : Nat} {o : Op} {d : Decision}
    {out : Answer o} (ho : o ≠ .commit) (h : perform w t pid n o d = some out) :
    Untouched w out.shared := by
  cases o with
  | commit => exact absurd rfl ho
  | sleepUntil u =>
    simp only [perform] at h
    split at h
    · cases h
      exact .refl w
    · cases h
  | select query =>
    cases h
    obtain h | ⟨a, h⟩ := noteRead_cases w pid query
    · rw [h]
      exact .refl w
    · rw [h]
      exact ⟨rfl, rfl, rfl, rfl⟩
  | selectForUpdate query =>
    simp only [perform, lockRow] at h
    split at h
    · cases h
      exact .refl w
    · split at h
      · cases h
        exact ⟨rfl, rfl, rfl, rfl⟩
      · cases h
  | flush ws =>
    simp only [perform, flushWrites] at h
    split at h
    · cases h
      exact .refl w
    · split at h
      · cases h
      next hBlocked =>
        cases h
        obtain ⟨⟨l, hl⟩, -⟩ := acquireAll_spec
          fun wr hwr => (blocked_false (by simpa using hBlocked) hwr).1
        rw [hl]
        exact ⟨rfl, rfl, rfl, rfl⟩
  | setActive m j =>
    cases h
    exact untouched_schedule _ _ _
  | cancelActive m =>
    cases h
    exact untouched_schedule _ _ _
  | _ =>
    cases h
    exact ⟨rfl, rfl, rfl, rfl⟩

/-- What a call does outside the tables, the transactions and the scheduler. -/
structure Effect (w : World) (o : Op) (w' : World) : Prop where
  now : w'.now = w.now
  phase : w'.phase = w.phase
  requests : w'.requests = w.requests
  redis : w'.redis = w.redis ∨ ∃ c, o = .redis c ∧ w'.redis = (c.run w.redis).1
  sent : w'.sent = w.sent ∨ ∃ c m, o = .broadcast c m ∧ w'.sent = w.sent ++ [(c, m)]

theorem Effect.refl (w : World) (o : Op) : Effect w o w := ⟨rfl, rfl, rfl, .inl rfl, .inl rfl⟩

theorem effect_schedule (w : World) (o : Op) (active : Nat → Id → Option Nat) (p : Option Nat) :
    Effect w o ({ w with active := active }.requestCancel p) := by
  cases p with
  | none => exact ⟨rfl, rfl, rfl, .inl rfl, .inl rfl⟩
  | some p => exact ⟨rfl, rfl, rfl, .inl rfl, .inl rfl⟩

theorem perform_effect {w : World} {t : Task} {pid n : Nat} {o : Op} {d : Decision} {out : Answer o}
    (h : perform w t pid n o d = some out) : Effect w o out.shared := by
  cases o with
  | redis c =>
    cases h
    exact ⟨rfl, rfl, rfl, .inr ⟨c, rfl, rfl⟩, .inl rfl⟩
  | broadcast code message =>
    cases h
    exact ⟨rfl, rfl, rfl, .inl rfl, .inr ⟨code, message, rfl, rfl⟩⟩
  | select query =>
    cases h
    obtain h | ⟨a, h⟩ := noteRead_cases w pid query
    · rw [h]
      exact .refl w _
    · rw [h]
      exact ⟨rfl, rfl, rfl, .inl rfl, .inl rfl⟩
  | sleepUntil u =>
    simp only [perform] at h
    split at h
    · cases h
      exact .refl w _
    · cases h
  | selectForUpdate query =>
    simp only [perform, lockRow] at h
    split at h
    · cases h
      exact .refl w _
    · split at h
      · cases h
        exact ⟨rfl, rfl, rfl, .inl rfl, .inl rfl⟩
      · cases h
  | flush ws =>
    simp only [perform, flushWrites] at h
    split at h
    · cases h
      exact .refl w _
    · split at h
      · cases h
      next hBlocked =>
        cases h
        obtain ⟨⟨l, hl⟩, -⟩ := acquireAll_spec
          fun wr hwr => (blocked_false (by simpa using hBlocked) hwr).1
        rw [hl]
        exact ⟨rfl, rfl, rfl, .inl rfl, .inl rfl⟩
  | setActive m j =>
    cases h
    exact effect_schedule _ _ _ _
  | cancelActive m =>
    cases h
    exact effect_schedule _ _ _ _
  | _ =>
    cases h
    exact ⟨rfl, rfl, rfl, .inl rfl, .inl rfl⟩

theorem exec_effect {w : World} {t : Task} {pid n : Nat} {o : Op} {d : Decision} {out : Answer o}
    (h : exec w t pid n o d = some out) :
    Effect w o out.shared ∧ (w.phase t.replica = .up ∨
      (out.shared.redis = w.redis ∧ out.shared.sent = w.sent)) := by
  obtain ⟨hUp, -, hOk⟩ | ⟨e, -, -, hOut⟩ := exec_cases h
  · exact ⟨perform_effect hOk, .inl hUp⟩
  · generalize out.shared = v at hOut ⊢
    cases hOut with
    | crashed => exact ⟨⟨rfl, rfl, rfl, .inl rfl, .inl rfl⟩, .inr ⟨rfl, rfl⟩⟩
    | cancelled => exact ⟨⟨rfl, rfl, rfl, .inl rfl, .inl rfl⟩, .inr ⟨rfl, rfl⟩⟩
    | fault => exact ⟨.refl w o, .inr ⟨rfl, rfl⟩⟩
    | cancelledAfter a hUp ha =>
      obtain ⟨hNow, hPhase, hRequests, hRedis, hSent⟩ := perform_effect ha
      exact ⟨⟨hNow, hPhase, hRequests, hRedis, hSent⟩, .inl hUp⟩
    | faultAfter a hUp ha => exact ⟨perform_effect ha, .inl hUp⟩

theorem exec_wal {w : World} {t : Task} {pid n : Nat} {o : Op} {d : Decision} {out : Answer o}
    (h : exec w t pid n o d = some out) : w.wal ⊆ out.shared.wal := by
  have hPerform : ∀ {a : Answer o}, perform w t pid n o d = some a → w.wal ⊆ a.shared.wal := by
    intro a ha
    by_cases ho : o = .commit
    · subst ho
      cases ha
      exact List.subset_append_left _ _
    · rw [(perform_untouched ho ha).wal]
      exact List.Subset.refl _
  obtain ⟨-, -, hOk⟩ | ⟨e, -, -, hOut⟩ := exec_cases h
  · exact hPerform hOk
  · generalize out.shared = v at hOut ⊢
    cases hOut with
    | cancelledAfter a _ ha => exact hPerform ha
    | faultAfter a _ ha => exact hPerform ha
    | _ => exact List.Subset.refl _

theorem exec_redis {w : World} {t : Task} {pid n : Nat} {o : Op} {d : Decision} {out : Answer o}
    (h : exec w t pid n o d = some out) : out.shared.redis = w.redis ∨
      (w.phase t.replica = .up ∧ ∃ c, o = .redis c ∧ out.shared.redis = (c.run w.redis).1) := by
  obtain ⟨hEffect, hUp | ⟨hSame, -⟩⟩ := exec_effect h
  · exact hEffect.redis.imp_right fun hc => ⟨hUp, hc⟩
  · exact .inl hSame

theorem exec_requests {w : World} {t : Task} {pid n : Nat} {o : Op} {d : Decision}
    {out : Answer o} (h : exec w t pid n o d = some out) :
    out.shared.requests = w.requests ∧ out.shared.phase = w.phase :=
  ⟨(exec_effect h).1.requests, (exec_effect h).1.phase⟩

theorem env_sent_now {w : World} {n : Nat} {e : EnvAction} {out : World × Option Task}
    (h : env w n e = some out) : out.1.sent = w.sent ∧ w.now ≤ out.1.now := by
  cases e with
  | tick dt =>
    cases h
    exact ⟨rfl, Int.le_add_of_nonneg_right (Int.natCast_nonneg dt)⟩
  | boot r =>
    simp only [env] at h
    split at h <;> cases h
    exact ⟨rfl, le_rfl⟩
  | request r j =>
    simp only [env] at h
    split at h <;> cases h
    exact ⟨rfl, le_rfl⟩
  | crash r =>
    simp only [env] at h
    split at h <;> cases h
    exact ⟨rfl, le_rfl⟩
  | createRoom r =>
    simp only [env] at h
    split at h <;> cases h
    exact ⟨rfl, le_rfl⟩
  | join p =>
    simp only [env] at h
    split at h <;> cases h
    exact ⟨rfl, le_rfl⟩
  | edit e =>
    obtain ⟨db, -, rfl⟩ := Option.map_eq_some_iff.mp h
    exact ⟨rfl, le_rfl⟩
  | _ =>
    cases h
    exact ⟨rfl, le_rfl⟩

theorem exec_tables {w : World} {t : Task} {pid n : Nat} {o : Op} {d : Decision} {out : Answer o}
    (ho : o ≠ .commit) (h : exec w t pid n o d = some out) :
    out.shared.db = w.db ∧ out.shared.wal = w.wal := by
  obtain ⟨-, -, hOk⟩ | ⟨e, -, -, hOut⟩ := exec_cases h
  · exact ⟨(perform_untouched ho hOk).db, (perform_untouched ho hOk).wal⟩
  · generalize out.shared = v at hOut ⊢
    cases hOut with
    | crashed => exact ⟨rfl, rfl⟩
    | cancelled => exact ⟨rfl, rfl⟩
    | fault => exact ⟨rfl, rfl⟩
    | cancelledAfter a _ ha => exact ⟨(perform_untouched ho ha).db, (perform_untouched ho ha).wal⟩
    | faultAfter a _ ha => exact ⟨(perform_untouched ho ha).db, (perform_untouched ho ha).wal⟩

theorem exec_db {w : World} {t : Task} {pid n : Nat} {o : Op} {d : Decision} {out : Answer o}
    (h : exec w t pid n o d = some out) : out.shared.db = w.db ∨
      (o = .commit ∧ out.shared.db = applyAll (w.tx pid).writes w.db) := by
  by_cases ho : o = .commit
  · subst ho
    obtain ⟨-, -, hOk⟩ | ⟨e, -, -, hOut⟩ := exec_cases h
    · cases hOk
      exact .inr ⟨rfl, rfl⟩
    · generalize out.shared = v at hOut ⊢
      cases hOut with
      | crashed => exact .inl rfl
      | cancelled => exact .inl rfl
      | fault => exact .inl rfl
      | cancelledAfter a _ ha =>
        cases ha
        exact .inr ⟨rfl, rfl⟩
      | faultAfter a _ ha =>
        cases ha
        exact .inr ⟨rfl, rfl⟩
  · exact .inl (exec_tables ho h).1

theorem step_effect (hS : Held S) (hStep : service.step S l = some S') :
    (S'.shared.db = S.shared.db ∧ S'.shared.wal = S.shared.wal) ∨
    (∃ e out, l = .env e ∧ env S.shared S.procs.length e = some out ∧ S'.shared = out.1) ∨
    ∃ pid t, Commits S l S' pid t := by
  obtain ⟨pid, d, t, o, k, out, rfl, hProc, hExec, rfl⟩ | ⟨e, out, rfl, hEnv, rfl⟩ :=
    Machine.step_cases hStep
  · have hReq : Req pid t S.shared o := hS.req sound hProc
    by_cases ho : o = .commit
    · subst ho
      have hCommit : ∀ {a : Answer .commit} (v : World), S.shared.phase t.replica = .up →
          perform S.shared t pid S.procs.length .commit d = some a →
          v.db = a.shared.db → v.wal = a.shared.wal → v.redis = a.shared.redis →
          ∀ procs, Commits S (.op pid d) ⟨v, procs⟩ pid t := by
        intro a v hUp ha hdb hwal hredis procs
        cases ha
        exact ⟨⟨d, rfl⟩, ⟨k, hProc⟩, hUp, hReq, hdb, hwal, hredis⟩
      obtain ⟨hUp, -, hOk⟩ | ⟨e, -, -, hOut⟩ := exec_cases hExec
      · exact .inr (.inr ⟨pid, t, hCommit _ hUp hOk rfl rfl rfl _⟩)
      · dsimp only
        generalize out.shared = v at hOut ⊢
        cases hOut with
        | crashed => exact .inl ⟨rfl, rfl⟩
        | cancelled => exact .inl ⟨rfl, rfl⟩
        | fault => exact .inl ⟨rfl, rfl⟩
        | cancelledAfter a hUp ha =>
          exact .inr (.inr ⟨pid, t, hCommit (a.shared.delivered pid) hUp ha rfl rfl rfl _⟩)
        | faultAfter a hUp ha => exact .inr (.inr ⟨pid, t, hCommit _ hUp ha rfl rfl rfl _⟩)
    · exact .inl (exec_tables ho hExec)
  · exact .inr (.inl ⟨e, out, rfl, hEnv, rfl⟩)

theorem step_cases (hS : Held S) (hStep : service.step S l = some S') :
    SameRows S.shared S'.shared ∨ ∃ pid t, Commits S l S' pid t := by
  obtain ⟨hDb, hWal⟩ | ⟨e, out, -, hEnv, hEq⟩ | hCommits := step_effect hS hStep
  · exact .inl (by constructor <;> simp only [hDb, hWal])
  · have hSame := env_same (n := S.procs.length) hEnv
    rw [hEq]
    exact .inl ⟨hSame.matches', hSame.matchQuestions, hSame.submissions, hSame.finalScores,
      hSame.outbox, hSame.wal⟩
  · exact .inr hCommits

theorem step_later (hS : Held S) (hStep : service.step S l = some S') :
    Later S.shared S'.shared := by
  obtain ⟨pid, d, t, o, k, out, -, hProc, hExec, rfl⟩ | ⟨e, out, -, hEnv, rfl⟩ :=
    Machine.step_cases hStep
  · have hPid := (List.getElem?_eq_some_iff.mp hProc).1
    have hKept := exec_kept hS.inv (hS.req sound hProc) hPid hExec
    exact (hKept.2 (pid + 1) (by omega)).later
  · exact (env_same (n := S.procs.length) hEnv).later

def Op.launches : Op → Option Job
  | .createTask j | .setActive _ j => some j
  | _ => none

/-- How a task comes to run. -/
inductive Launched (S : SysState) : SysLabel → Task → Prop
  | created (pid : Nat) (d : Decision) (t : Task) (o : Op)
      (k : Except Exn o.Res → Coro Ret) (j : Job) :
      S.procs[pid]? = some ⟨t, .call o k⟩ → o.launches = some j →
      Spawn S.shared t.job j → Launched S (.op pid d) ⟨t.replica, j⟩
  | requested (r : Nat) (j : Job) : j.isRequest = true → Launched S (.env (.request r j)) ⟨r, j⟩
  | booted (r : Nat) : Launched S (.env (.boot r)) ⟨r, .recoverRunningMatches⟩

/-- A program of the state after a step was not concerned, or made the call, or has
just been launched. -/
theorem step_procs (hS : Held S) (hStep : service.step S l = some S') {q : Nat}
    {p : Proc Op Op.Res Exn Ret Task} (hq : S'.procs[q]? = some p) :
    (S.procs[q]? = some p ∧ ∀ d, l ≠ .op q d) ∨
    (∃ d t o k out, l = .op q d ∧ S.procs[q]? = some ⟨t, .call o k⟩ ∧
      exec S.shared t q S.procs.length o d = some out ∧ p = ⟨t, k out.result⟩ ∧
      S'.shared = out.shared) ∨
    (q = S.procs.length ∧ p.prog = jobBody p.task.job ∧ Launched S l p.task) := by
  obtain ⟨pid, d, t, o, k, out, rfl, hProc, hExec, rfl⟩ | ⟨e, out, rfl, hEnv, rfl⟩ :=
    Machine.step_cases hStep
  · have hPid := (List.getElem?_eq_some_iff.mp hProc).1
    obtain hOld | ⟨rfl, t', hsp, rfl⟩ := getElem?_append_spawned hq
    · by_cases hqp : q = pid
      · subst hqp
        rw [List.getElem?_set_self hPid] at hOld
        cases hOld
        exact .inr (.inl ⟨d, t, o, k, out, rfl, hProc, hExec, rfl, rfl⟩)
      · rw [List.getElem?_set_ne (Ne.symm hqp)] at hOld
        refine .inl ⟨hOld, fun d' hEq => hqp ?_⟩
        cases hEq
        rfl
    · refine .inr (.inr ⟨List.length_set, rfl, ?_⟩)
      have hReq : Req pid t S.shared o := hS.req sound hProc
      obtain ⟨-, -, hOk⟩ | ⟨e, -, hNone, -⟩ := exec_cases hExec
      · by_cases ho : o.suspends = true ∨ o.fallible = true
        · rw [perform_spawned_none hOk ho] at hsp
          cases hsp
        · cases o with
          | createTask j =>
            cases hOk
            cases hsp
            exact .created pid d t _ k j hProc rfl hReq.1
          | setActive m j =>
            cases hOk
            cases hsp
            exact .created pid d t _ k j hProc rfl hReq.1
          | utcnow => cases hOk; cases hsp
          | cancelActive m => cases hOk; cases hsp
          | rollback => cases hOk; cases hsp
          | _ => simp [Op.suspends, Op.fallible] at ho
      · rw [hNone] at hsp
        cases hsp
  · obtain hOld | ⟨rfl, t', hsp, rfl⟩ := getElem?_append_spawned hq
    · exact .inl ⟨hOld, fun d hEq => by cases hEq⟩
    · refine .inr (.inr ⟨rfl, rfl, ?_⟩)
      have hTask := env_spawned (n := S.procs.length) hEnv hsp
      obtain ⟨r, j, rfl, rfl, hReq, -⟩ | ⟨r, rfl, rfl⟩ := hTask
      · exact .requested r j hReq
      · exact .booted r

theorem step_proc (hS : Held S) (hStep : service.step S l = some S') {q : Nat}
    {p : Proc Op Op.Res Exn Ret Task} (hq : S'.procs[q]? = some p) :
    (∃ p₀, S.procs[q]? = some p₀ ∧ p₀.task = p.task) ∨
    (q = S.procs.length ∧ p.prog = jobBody p.task.job ∧ Launched S l p.task) := by
  obtain ⟨hOld, -⟩ | ⟨d, t, o, k, out, -, hOld, -, rfl, -⟩ | hNew := step_procs hS hStep hq
  · exact .inl ⟨p, hOld, rfl⟩
  · exact .inl ⟨_, hOld, rfl⟩
  · exact .inr hNew

theorem step_fresh (hS : Held S) (hStep : service.step S l = some S') :
    S'.shared.tx S.procs.length = {} ∧ Silent S'.shared S.procs.length := by
  have hIdle := hS.inv.idle _ le_rfl
  have hSilent := hS.inv.silent _ le_rfl
  obtain ⟨pid, d, t, o, k, out, rfl, hProc, hExec, rfl⟩ | ⟨e, out, rfl, hEnv, rfl⟩ :=
    Machine.step_cases hStep
  · have hPid := (List.getElem?_eq_some_iff.mp hProc).1
    have hRely := (exec_kept hS.inv (hS.req sound hProc) hPid hExec).2 S.procs.length (by omega)
    exact ⟨hRely.tx.trans hIdle, hSilent.holds hRely.toHolds⟩
  · have hSame := env_same (n := S.procs.length) hEnv
    exact ⟨by rw [hSame.tx]; exact hIdle, fun ws hws => hSilent ws (hSame.wal ▸ hws)⟩

theorem step_rely (hS : Held S) (hStep : service.step S l = some S') {pid : Nat} (hPid : pid < S.procs.length)
    (hOther : ∀ d, l ≠ .op pid d) : Rely pid S.shared S'.shared := by
  obtain ⟨q, d, t, o, k, out, rfl, hProc, hExec, rfl⟩ | ⟨e, out, rfl, hEnv, rfl⟩ :=
    Machine.step_cases hStep
  · have hLt := (List.getElem?_eq_some_iff.mp hProc).1
    refine (sound.exec _ _ _ _ _ _ _ hS.inv (hS.req sound hProc) hLt hExec).2.1 pid hPid ?_
    rintro rfl
    exact hOther d rfl
  · exact (sound.env _ _ _ _ hS.inv hEnv).2.1 pid hPid

theorem step_task (hStep : service.step S l = some S') {q : Nat}
    {p : Proc Op Op.Res Exn Ret Task} (hq : S.procs[q]? = some p) :
    ∃ p', S'.procs[q]? = some p' ∧ p'.task = p.task := by
  obtain ⟨pid, d, t, o, k, out, rfl, hProc, hExec, rfl⟩ | ⟨e, out, rfl, hEnv, rfl⟩ :=
    Machine.step_cases hStep
  · have hLt := (List.getElem?_eq_some_iff.mp hq).1
    have hPid := (List.getElem?_eq_some_iff.mp hProc).1
    by_cases hqp : q = pid
    · subst hqp
      rw [hProc] at hq
      cases hq
      refine ⟨⟨t, k out.result⟩, ?_, rfl⟩
      rw [List.getElem?_append_left (by simpa using hLt), List.getElem?_set_self hPid]
    · refine ⟨p, ?_, rfl⟩
      rw [List.getElem?_append_left (by simpa using hLt), List.getElem?_set_ne (Ne.symm hqp), hq]
  · have hLt := (List.getElem?_eq_some_iff.mp hq).1
    exact ⟨p, by rw [List.getElem?_append_left hLt, hq], rfl⟩

theorem step_done (hStep : service.step S l = some S') {q : Nat} {t : Task} {r : Except Exn Ret}
    (hq : S.procs[q]? = some ⟨t, .done r⟩) : S'.procs[q]? = some ⟨t, .done r⟩ := by
  have hLt := (List.getElem?_eq_some_iff.mp hq).1
  obtain ⟨pid, d, t', o, k, out, rfl, hProc, hExec, rfl⟩ | ⟨e, out, rfl, hEnv, rfl⟩ :=
    Machine.step_cases hStep
  · have hNe : pid ≠ q := by
      rintro rfl
      rw [hProc] at hq
      cases hq
    rw [List.getElem?_append_left (by simpa using hLt), List.getElem?_set_ne hNe, hq]
  · rw [List.getElem?_append_left hLt, hq]

/-- The program has not ended and its replica has not crashed. -/
def live (S : SysState) (pr : Proc Op Op.Res Exn Ret Task) : Bool :=
  match pr.prog with
  | .done _ => false
  | .call _ _ => S.shared.phase pr.task.replica ≠ .crashed

theorem env_crashed {w : World} {n : Nat} {e : EnvAction} {out : World × Option Task}
    (h : env w n e = some out) {r : Nat} (hCrashed : w.phase r = .crashed) :
    out.1.phase r = .crashed := by
  cases e with
  | boot r' =>
    simp only [env] at h
    split at h
    next hOff =>
      cases h
      have hNe : r ≠ r' := by
        rintro rfl
        rw [hCrashed] at hOff
        cases hOff
      simpa [hNe] using hCrashed
    · cases h
  | crash r' =>
    simp only [env] at h
    split at h
    · cases h
      by_cases hEq : r = r'
      · simp [hEq]
      · simpa [hEq] using hCrashed
    · cases h
  | edit q =>
    obtain ⟨db, -, rfl⟩ := Option.map_eq_some_iff.mp h
    exact hCrashed
  | request r' j =>
    simp only [env] at h
    split at h <;> cases h
    exact hCrashed
  | createRoom room =>
    simp only [env] at h
    split at h <;> cases h
    exact hCrashed
  | join part =>
    simp only [env] at h
    split at h <;> cases h
    exact hCrashed
  | _ => cases h; exact hCrashed

theorem step_crashed (hStep : service.step S l = some S') {r : Nat}
    (h : S.shared.phase r = .crashed) : S'.shared.phase r = .crashed := by
  obtain ⟨pid, d, t, o, k, out, -, hProc, hExec, rfl⟩ | ⟨e, out, -, hEnv, rfl⟩ :=
    Machine.step_cases hStep
  · rw [(exec_requests hExec).2]
    exact h
  · exact env_crashed (n := S.procs.length) hEnv h

def requestedBy : SysLabel → List Job
  | .env e => e.requested
  | _ => []

theorem step_requests (hStep : service.step S l = some S') :
    S'.shared.requests = S.shared.requests ++ requestedBy l := by
  obtain ⟨pid, d, t, o, k, out, rfl, hProc, hExec, rfl⟩ | ⟨e, out, rfl, hEnv, rfl⟩ :=
    Machine.step_cases hStep
  · rw [(exec_requests hExec).1]
    exact (List.append_nil _).symm
  · exact env_requests (n := S.procs.length) hEnv

theorem reach_later (hS : Held S) (h : service.Reach C S S') : Later S.shared S'.shared := by
  induction h with
  | refl => exact .refl _
  | tail hReach _ hStep ih => exact ih.trans (step_later (sound.kept hS hReach) hStep)

theorem requested_reach (h : service.Reach C (initial seed) S) {q r : Nat}
    {prog : Coro Ret} {m p : Id} {payload : AnswerSubmitRequest} {rid : String}
    (hq : S.procs[q]? = some ⟨⟨r, .submitAnswer m p payload rid⟩, prog⟩) :
    .submitAnswer m p payload rid ∈ S.shared.requests := by
  induction h generalizing prog with
  | refl => cases hq
  | tail hReach _ hStep ih =>
    have hS := held_of_reach hReach
    obtain ⟨⟨task, prog₀⟩, hOld, hTask⟩ | ⟨-, -, hNew⟩ := step_proc hS hStep hq
    · simp only at hTask
      subst hTask
      exact (step_later hS hStep).requests (ih hOld)
    · rw [step_requests hStep]
      generalize hJob : Job.submitAnswer m p payload rid = job at hNew ⊢
      cases hNew with
      | created pid d t o k j _ _ hSpawn =>
        have hNot := hSpawn.not_request
        rw [← hJob] at hNot
        cases hNot
      | requested r j hReq => exact List.mem_append_right _ (List.mem_singleton_self _)
      | booted => cases hJob

end

/-- The task of a program that has ended, with what it returned or raised. -/
def outcome (S : SysState) (pid : Nat) : Option (Task × Except Exn Ret) :=
  match S.procs[pid]? with
  | some ⟨t, .done r⟩ => some (t, r)
  | _ => none

theorem outcome_spec {S : SysState} {pid : Nat} {t : Task} {r : Except Exn Ret}
    (h : outcome S pid = some (t, r)) : S.procs[pid]? = some ⟨t, .done r⟩ := by
  unfold outcome at h
  split at h
  next t' r' hProc =>
    cases h
    exact hProc
  · cases h

namespace Demo

def seed : Seed where
  rooms := [⟨1, "AB", 7, 5, .lobby, none, none, none⟩]
  participants := [⟨21, 1, "ann", none, false⟩, ⟨22, 1, "bob", none, false⟩]
  quizSets := [⟨5, 7, "sums", none, .pub, 1, []⟩]
  questions := [⟨100, 5, 1, "2+2", .singleChoice, 20, 1000, none⟩,
    ⟨101, 5, 2, "3+3", .singleChoice, 20, 1000, none⟩]
  options := [⟨201, 100, 1, "4", true⟩, ⟨202, 100, 2, "5", false⟩, ⟨203, 101, 1, "6", true⟩]

/-- `k` calls of one program, with ids counted up from `value`. -/
def calls (pid k value : Nat) : List SysLabel :=
  (List.range k).map fun i => .op pid { value := value + i }

/-- Replica 0 boots, the host starts match 54, and question 56 is armed. -/
def opening : List SysLabel :=
  [.env (.boot 0)] ++ calls 0 1 0 ++ [.env (.request 0 (.startMatch 7 "AB"))] ++ calls 1 20 50 ++
    calls 2 15 80

def annJob : Job := .submitAnswer 54 21 ⟨56, [201]⟩ "m1"

def bobJob : Job := .submitAnswer 54 22 ⟨56, [202]⟩ "m1"

def annResponse : Response := ⟨308, true, true, 1000, 0, some 1⟩

def annAnswers : List SysLabel := opening ++ [.env (.request 0 annJob)] ++ calls 4 22 300

end Demo

end LiveQuiz
