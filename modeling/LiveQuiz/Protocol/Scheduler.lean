import LiveQuiz.Protocol.Run

/-! # What the scheduler knows

`MatchScheduler` keeps one task for each match, and cancels the one it replaces or removes.
The tasks it cancels are therefore always tasks that arm or close a question of that match.
-/

namespace LiveQuiz

open Coroutine

set_option autoImplicit false

/-- What a call does to the scheduler of its replica. -/
inductive Scheduled (w : World) (t : Task) (n : Nat) (o : Op) (out : Answer o) : Prop
  | same : out.shared.active = w.active →
      (∀ q, out.shared.cancelling q = true → w.cancelling q = true) → Scheduled w t n o out
  | replaced (m : Id) (j : Job) : o = .setActive m j → out.spawned = some ⟨t.replica, j⟩ →
      out.shared.active = Function.update w.active t.replica
        (Function.update (w.active t.replica) m (some n)) →
      (∀ q, out.shared.cancelling q = true → w.cancelling q = true ∨ w.active t.replica m = some q) →
      Scheduled w t n o out
  | removed (m : Id) : o = .cancelActive m → out.shared.active = Function.update w.active t.replica
        (Function.update (w.active t.replica) m none) →
      (∀ q, out.shared.cancelling q = true → w.cancelling q = true ∨ w.active t.replica m = some q) →
      Scheduled w t n o out

section

variable {w : World} {t : Task} {pid n : Nat} {o : Op} {d : Decision} {out : Answer o}

theorem cancelling_after {v : World} {p : Option Nat} {q : Nat}
    (h : (v.requestCancel p).cancelling q = true) (hv : v.cancelling = w.cancelling) :
    w.cancelling q = true ∨ p = some q := by
  rw [← hv]
  cases p with
  | none => exact .inl h
  | some p =>
    by_cases hq : q = p
    · exact .inr (congrArg some hq.symm)
    · simp only [World.requestCancel, Function.update_of_ne hq] at h
      exact .inl h

theorem active_after (v : World) (p : Option Nat) : (v.requestCancel p).active = v.active := by
  cases p <;> rfl

theorem Scheduled.of_same (ha : out.shared.active = w.active)
    (hc : out.shared.cancelling = w.cancelling) : Scheduled w t n o out :=
  .same ha fun _ hq => hc ▸ hq

theorem perform_aside (ho : o.suspends = true ∨ o.fallible = true)
    (h : perform w t pid n o d = some out) :
    out.shared.active = w.active ∧ out.shared.cancelling = w.cancelling := by
  cases o with
  | sleepUntil u =>
    simp only [perform] at h
    split at h <;> cases h
    exact ⟨rfl, rfl⟩
  | select query =>
    cases h
    obtain h | ⟨a, h⟩ := noteRead_cases w pid query
    · exact ⟨by rw [h], by rw [h]⟩
    · exact ⟨by rw [h], by rw [h]⟩
  | selectForUpdate query =>
    simp only [perform, lockRow] at h
    split at h
    · cases h
      exact ⟨rfl, rfl⟩
    · split at h <;> cases h
      exact ⟨rfl, rfl⟩
  | flush ws =>
    simp only [perform, flushWrites] at h
    split at h
    · cases h
      exact ⟨rfl, rfl⟩
    · split at h
      · cases h
      next hBlocked =>
        cases h
        obtain ⟨⟨l, hl⟩, -⟩ := acquireAll_spec
          fun wr hwr => (blocked_false (by simpa using hBlocked) hwr).1
        exact ⟨by rw [hl]; rfl, by rw [hl]; rfl⟩
  | setActive m j => simp [Op.suspends, Op.fallible] at ho
  | cancelActive m => simp [Op.suspends, Op.fallible] at ho
  | _ =>
    cases h
    exact ⟨rfl, rfl⟩

theorem perform_scheduled (hs : o.suspends = false) (h : perform w t pid n o d = some out) :
    Scheduled w t n o out := by
  cases o with
  | setActive m j =>
    cases h
    exact .replaced m j rfl rfl (active_after _ _) fun q hq => cancelling_after hq rfl
  | cancelActive m =>
    cases h
    exact .removed m rfl (active_after _ _) fun q hq => cancelling_after hq rfl
  | utcnow | nextId | createTask _ =>
    cases h
    exact .of_same rfl rfl
  | rollback =>
    cases h
    exact .of_same rfl rfl
  | _ => cases hs

theorem cancelling_delivered (v : World) {q : Nat} (h : (v.delivered pid).cancelling q = true) :
    v.cancelling q = true := by
  by_cases hq : q = pid
  · simp [World.delivered, hq] at h
  · simpa [World.delivered, hq] using h

theorem exec_scheduled (h : exec w t pid n o d = some out) : Scheduled w t n o out := by
  by_cases ho : o.suspends = true ∨ o.fallible = true
  · obtain ⟨-, -, hOk⟩ | ⟨e, -, -, hOut⟩ := exec_cases h
    · exact .of_same (perform_aside ho hOk).1 (perform_aside ho hOk).2
    · generalize hShared : out.shared = v at hOut
      cases hOut with
      | crashed => exact .of_same (by rw [hShared]; rfl) (by rw [hShared]; rfl)
      | cancelled =>
        refine .same (by rw [hShared]; rfl) fun q hq => ?_
        rw [hShared] at hq
        exact cancelling_delivered w hq
      | fault => exact .of_same (by rw [hShared]) (by rw [hShared])
      | cancelledAfter a _ ha =>
        obtain ⟨hActive, hCancelling⟩ := perform_aside ho ha
        refine .same (by rw [hShared]; exact hActive) fun q hq => ?_
        rw [hShared] at hq
        exact hCancelling ▸ cancelling_delivered _ hq
      | faultAfter a _ ha =>
        exact .of_same (hShared ▸ (perform_aside ho ha).1) (hShared ▸ (perform_aside ho ha).2)
  · obtain ⟨hs, hf⟩ := not_or.mp ho
    unfold exec at h
    split at h
    · cases h
    · cases h
      exact .of_same rfl rfl
    · rw [if_neg (by simp [hs])] at h
      split at h
      · exact perform_scheduled (by simpa using hs) h
      · rw [if_neg hf] at h
        cases h
      · rw [if_neg hf] at h
        cases h

end

/-- A question task of match `m`. -/
def Attending (S : SysState) (m : Id) (q : Nat) : Prop :=
  ∃ pr, S.procs[q]? = some pr ∧ pr.task.job.question? = some m

/-- What is on the scheduler arms or closes a question of its match. -/
def Registry (S : SysState) : Prop :=
  ∀ r m q, S.shared.active r m = some q → Attending S m q

section

variable {C : SysState → SysLabel → Prop} {seed : Seed} {S S' : SysState} {l : SysLabel} {m : Id}
  {q : Nat}

theorem Attending.step (h : Attending S m q) (hStep : service.step S l = some S') :
    Attending S' m q := by
  obtain ⟨pr, hq, hJob⟩ := h
  obtain ⟨pr', hq', hTask⟩ := step_task hStep hq
  exact ⟨pr', hq', hTask ▸ hJob⟩

theorem spawned_at {pid : Nat} {t t' : Task} {o : Op} {k : Except Exn o.Res → Coro Ret}
    {out : Answer o} (hSpawned : out.spawned = some t') :
    (S.procs.set pid ⟨t, k out.result⟩ ++ out.spawned.toList.map service.start)[S.procs.length]? =
      some (service.start t') := by
  rw [hSpawned, List.getElem?_append_right (by simp)]
  simp

theorem registry_step (hS : Held S) (h : Registry S) (hStep : service.step S l = some S') :
    Registry S' := by
  intro r m q hq
  have hOld : S.shared.active r m = some q → Attending S' m q := fun hOld => (h r m q hOld).step hStep
  obtain ⟨pid, d, t, o, k, out, rfl, hProc, hExec, rfl⟩ | ⟨e, out, rfl, hEnv, rfl⟩ :=
    Machine.step_cases hStep
  · cases exec_scheduled hExec with
    | same hActive => exact hOld (hActive ▸ hq)
    | replaced m' j ho hSpawned hActive =>
      subst ho
      simp only [hActive] at hq
      by_cases hr : r = t.replica
      · subst hr
        by_cases hm : m = m'
        · subst hm
          simp only [Function.update_self, Option.some.injEq] at hq
          subst hq
          exact ⟨_, spawned_at hSpawned, (hS.req sound hProc).2⟩
        · simp only [Function.update_self, Function.update_of_ne hm] at hq
          exact hOld hq
      · simp only [Function.update_of_ne hr] at hq
        exact hOld hq
    | removed m' ho hActive =>
      simp only [hActive] at hq
      by_cases hr : r = t.replica
      · subst hr
        by_cases hm : m = m'
        · subst hm
          simp at hq
        · simp only [Function.update_self, Function.update_of_ne hm] at hq
          exact hOld hq
      · simp only [Function.update_of_ne hr] at hq
        exact hOld hq
  · exact hOld ((env_same (n := S.procs.length) hEnv).active ▸ hq)

theorem registry_reach (h : service.Reach C (initial seed) S) : Registry S := by
  induction h with
  | refl =>
    intro r m q hq
    cases hq
  | tail hReach _ hStep ih => exact registry_step (held_of_reach hReach) ih hStep

theorem step_cancelling (h : Registry S) (hStep : service.step S l = some S')
    (hCancel : S'.shared.cancelling q = true) : S.shared.cancelling q = true ∨
      ∃ pid d t o k m, l = .op pid d ∧ S.procs[pid]? = some ⟨t, .call o k⟩ ∧ Attending S m q ∧
        (o = .cancelActive m ∨ ∃ j, o = .setActive m j ∧
          S'.procs[S.procs.length]? = some (service.start ⟨t.replica, j⟩)) := by
  obtain ⟨pid, d, t, o, k, out, rfl, hProc, hExec, rfl⟩ | ⟨e, out, rfl, hEnv, rfl⟩ :=
    Machine.step_cases hStep
  · cases exec_scheduled hExec with
    | same _ hSame => exact .inl (hSame q hCancel)
    | replaced m j ho hSpawned _ hFrom =>
      refine (hFrom q hCancel).imp_right fun hq => ?_
      exact ⟨pid, d, t, o, k, m, rfl, hProc, h _ _ _ hq, .inr ⟨j, ho, spawned_at hSpawned⟩⟩
    | removed m ho _ hFrom =>
      refine (hFrom q hCancel).imp_right fun hq => ?_
      exact ⟨pid, d, t, o, k, m, rfl, hProc, h _ _ _ hq, .inl ho⟩
  · exact .inl ((env_same (n := S.procs.length) hEnv).cancelling ▸ hCancel)

end

end LiveQuiz
