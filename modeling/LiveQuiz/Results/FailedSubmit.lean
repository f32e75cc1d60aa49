import LiveQuiz.Results.Counting
import LiveQuiz.Lib.Monitor

/-! # What a failed submission leaves behind

Before its COMMIT a call of `submit_answer` may fail and leave nothing. Behind it stand
the hooks: none of them is guarded but the fan-out, so a fault there raises out of a call
whose row is stored.
-/

namespace LiveQuiz

open Coroutine

set_option autoImplicit false

/-- No row of the call, no event and no increment. -/
structure LeavesNothing (w : World) (pid : Nat) : Prop where
  rows : ∀ row ∈ w.db.submissions, ¬Wrote w pid row
  events : ∀ ws, (pid, ws) ∈ w.wal → ∀ e, .insertEvent e ∈ ws → e.answer? = none
  increments : ∀ i ∈ w.redis.applied, ∀ row, Wrote w pid row → row.id ≠ i

/-- `except Exception` around the fan-out. -/
def Op.swallows : Op → Exn → Bool
  | .broadcast _ _, .cancelled | .broadcast _ _, .crashed => false
  | .broadcast _ _, _ => true
  | _, _ => false

def Job.isSubmit : Job → Bool
  | .submitAnswer _ _ _ _ => true
  | _ => false

/-- The COMMIT of a submission stores its row and loses its reply, or a call behind the
COMMIT raises. -/
inductive Strikes (S : SysState) (pid : Nat) : SysLabel → Prop
  | lost (t : Task) (k : Except Exn Unit → Coro Ret) (d : Decision) (row : AnswerSubmission) :
      S.procs[pid]? = some ⟨t, .call .commit k⟩ → t.job.isSubmit = true →
      S.shared.phase t.replica = .up → d.fault = .lost →
      .insertSubmission row ∈ (S.shared.tx pid).writes → Strikes S pid (.op pid d)
  | hook (t : Task) (o : Op) (k : Except Exn o.Res → Coro Ret) (d : Decision) (out : Answer o)
      (e : Exn) (row : AnswerSubmission) :
      S.procs[pid]? = some ⟨t, .call o k⟩ → t.job.isSubmit = true → Wrote S.shared pid row →
      exec S.shared t pid S.procs.length o d = some out → out.result = .error e →
      o.swallows e = false → Strikes S pid (.op pid d)

/-- `settled`: the COMMIT has returned. `doomed`: it has raised, or a hook has. -/
inductive Outlook where
  | working | settled | doomed
  deriving DecidableEq

def Outlook.next : Outlook → (o : Op) → Except Exn o.Res → Outlook
  | .working, o, .ok _ => if o = .commit then .settled else .working
  | .working, o, .error _ => if o = .commit then .doomed else .working
  | .settled, _, .ok _ => .settled
  | .settled, o, .error e => if o.swallows e then .settled else .doomed
  | .doomed, _, _ => .doomed

def commitMonitor : Monitor Op Op.Res Exn Outlook where
  allowed s o := s ≠ .working → o ≠ .commit
  next := Outlook.next

def Outlook.ends {α : Type} : Outlook → Except Exn α → Prop
  | .working, _ => True
  | .settled, r => ∃ a, r = .ok a
  | .doomed, r => ∃ e, r = .error e

/-- The ends that raising needs. -/
structure Excuses {α : Type} (Q : Outlook → Except Exn α → Prop) : Prop where
  working : ∀ e, Q .working (.error e)
  doomed : ∀ e, Q .doomed (.error e)

section

variable {α β : Type} {Q : Outlook → Except Exn α → Prop}

abbrev Stands (Q : Outlook → Except Exn α → Prop) : Outlook → Coro α → Prop :=
  Follows commitMonitor Q

theorem excuses_ends : Excuses (Outlook.ends (α := α)) := ⟨fun _ => trivial, fun e => ⟨e, rfl⟩⟩

theorem Excuses.bind {f : β → Coro α} (hQ : Excuses Q) : Excuses (Before commitMonitor Q f) :=
  ⟨hQ.working, hQ.doomed⟩

theorem Stands.work {o : Op} {f : o.Res → Coro α} (hQ : Excuses Q) (ho : o ≠ .commit)
    (h : ∀ v, Stands Q .working (f v)) : Stands Q .working (ask o >>= f) := by
  refine ⟨fun hNot => absurd rfl hNot, fun r => ?_⟩
  cases r with
  | ok v =>
    change Follows commitMonitor Q (if o = .commit then .settled else .working) (f v)
    rw [if_neg ho]
    exact h v
  | error e =>
    change Q (if o = .commit then .doomed else .working) (.error e)
    rw [if_neg ho]
    exact hQ.working e

theorem Stands.hook {o : Op} {f : o.Res → Coro α} (hQ : Excuses Q) (ho : o ≠ .commit)
    (hSwallows : ∀ e, o.swallows e = false) (h : ∀ v, Stands Q .settled (f v)) :
    Stands Q .settled (ask o >>= f) := by
  refine ⟨fun _ => ho, fun r => ?_⟩
  cases r with
  | ok v => exact h v
  | error e =>
    change Q (if o.swallows e then .settled else .doomed) (.error e)
    rw [hSwallows e]
    exact hQ.doomed e

theorem stands_refused {c : Prop} [Decidable c] {code : String} {status : Nat} {message : String}
    {details : List (String × String)} {f : β → Coro α} {p : Coro α} (hQ : Excuses Q)
    (h : Stands Q .working p) :
    Stands Q .working (if c then raise code status message details >>= f else p) := by
  split
  · exact hQ.working _
  · exact h

theorem stands_rollback (hQ : Excuses Q) {s : Outlook} {e : Exn} (hs : s ≠ .settled) :
    Stands Q s (do rollback; throw e) := by
  cases s with
  | settled => exact absurd rfl hs
  | working => exact Stands.work hQ (by simp) fun _ => hQ.working e
  | doomed =>
    refine ⟨fun _ => by simp, fun r => ?_⟩
    cases r <;> exact hQ.doomed _

def Outlook.bodyEnds (Q : Outlook → Except Exn α → Prop) : Outlook → Except Exn α → Prop
  | .working, .ok a => Q .settled (.ok a)
  | .working, .error _ => True
  | _, .ok _ => False
  | s, .error _ => s ≠ .settled

theorem excuses_bodyEnds (Q : Outlook → Except Exn α → Prop) : Excuses (Outlook.bodyEnds Q) :=
  ⟨fun _ => trivial, fun _ => by simp [Outlook.bodyEnds]⟩

theorem stands_inTransaction {p : Coro α} (hQ : Excuses Q)
    (h : Stands (Outlook.bodyEnds Q) .working p) : Stands Q .working (inTransaction p) := by
  apply Follows.handle
  apply Follows.bind
  apply h.mono
  intro s r hr
  cases r with
  | error e =>
    apply stands_rollback hQ
    cases s with
    | working => simp
    | settled => exact hr
    | doomed => simp
  | ok a =>
    cases s with
    | settled => exact hr.elim
    | doomed => exact hr.elim
    | working =>
      refine ⟨fun hNot => absurd rfl hNot, fun r => ?_⟩
      cases r with
      | ok _ => exact hr
      | error e => exact stands_rollback hQ (by simp [commitMonitor, Outlook.next])

theorem stands_broadcast {code : String} {message : Message} {f : Unit → Coro α} (hQ : Excuses Q)
    (h : Stands Q .settled (f ())) : Stands Q .settled (broadcast code message >>= f) := by
  apply Follows.bind
  apply Stands.hook hQ.bind (by simp) fun _ => rfl
  intro _
  apply Follows.handle
  refine ⟨fun _ => by simp, fun r => ?_⟩
  cases r with
  | ok _ => exact h
  | error e =>
    cases e with
    | cancelled => exact hQ.doomed _
    | crashed => exact hQ.doomed _
    | _ => exact h

theorem stands_store {rid : String} {resp : Response} :
    Stands Outlook.ends .settled (do redis (.idemSet rid resp); return resp) :=
  Stands.hook excuses_ends (by simp) (fun _ => rfl) fun _ => ⟨resp, rfl⟩

end

theorem admitAnswer_stands {matchId participantId mqId : Id}
    {Q : Outlook → Except Exn (MatchQuestion × Match × Micros × Micros × Micros × RoomParticipant) →
      Prop} (hQ : Excuses Q) (h : ∀ a, Q .working (.ok a)) :
    Stands Q .working (admitAnswer matchId participantId mqId) := by
  apply Stands.work hQ (by simp)
  intro mq
  split
  case h_2 => exact hQ.working _
  apply stands_refused hQ
  apply Stands.work hQ (by simp)
  intro m
  split
  case h_2 => exact hQ.working _
  apply Stands.work hQ (by simp)
  intro now
  apply stands_refused hQ
  apply stands_refused hQ
  split
  case h_2 => exact hQ.working _
  apply stands_refused hQ
  apply Stands.work hQ (by simp)
  intro participant
  split
  case h_2 => exact hQ.working _
  exact stands_refused hQ (h _)

theorem submitTx_stands {matchId participantId : Id} {payload : AnswerSubmitRequest} {rid : String}
    {Q : Outlook → Except Exn SubmitResult → Prop} (hQ : Excuses Q) (h : ∀ a, Q .working (.ok a)) :
    Stands Q .working (submitTx matchId participantId payload rid) := by
  apply Follows.bind
  apply admitAnswer_stands hQ.bind
  rintro ⟨mq, m, now, deadlineAt, startedAt, participant⟩
  apply Stands.work hQ (by simp)
  intro options
  dsimp only
  split
  case h_2 => exact hQ.working _
  apply Stands.work hQ (by simp)
  intro question
  apply Stands.work hQ (by simp)
  intro room
  apply Stands.work hQ (by simp)
  intro id
  apply Follows.bind
  apply Follows.handle
  refine ⟨fun hNot => absurd rfl hNot, fun r => ?_⟩
  have hDuplicate : Stands Q .working (do
      let existing ← existingSubmission mq.id participantId rid
      return .duplicate (Response.ofRow existing none)) := by
    apply Follows.bind
    apply Stands.work hQ.bind (by simp)
    intro found
    split
    · exact h _
    · apply Stands.work hQ.bind (by simp)
      intro found
      split
      · exact h _
      · exact hQ.working _
  cases r with
  | ok _ =>
    apply Stands.work hQ (by simp)
    intro eventId
    exact Stands.work hQ (by simp) fun _ => h _
  | error e =>
    cases e with
    | integrity => exact hDuplicate
    | _ => exact hQ.working _

theorem top_stands {matchId : Id} {n : Nat} {Q : Outlook → Except Exn (List LeaderboardEntry) → Prop}
    (hQ : Excuses Q) (h : ∀ entries, Q .settled (.ok entries)) : Stands Q .settled (top matchId n) := by
  apply Stands.hook hQ (by simp) fun _ => rfl
  intro rows
  dsimp only
  split
  · exact h _
  · exact Stands.hook hQ (by simp) (fun _ => rfl) fun nicks => h _

theorem submitHooks_stands {row : AnswerSubmission} {questionId : Id} {nickname : String}
    {code : Option String} :
    Stands Outlook.ends .settled (submitHooks row questionId nickname code) := by
  apply Stands.hook excuses_ends (by simp) fun _ => rfl
  intro _
  apply Stands.hook excuses_ends (by simp) fun _ => rfl
  intro _
  apply Stands.hook excuses_ends (by simp) fun _ => rfl
  intro _
  apply Follows.bind
  apply top_stands excuses_ends.bind
  intro top10
  apply Stands.hook excuses_ends (by simp) fun _ => rfl
  intro version
  dsimp only
  split
  · exact stands_broadcast excuses_ends stands_store
  · exact stands_store

theorem submitAnswer_stands (matchId participantId : Id) (payload : AnswerSubmitRequest)
    (rid : String) : Stands Outlook.ends .working
      (jobBody (.submitAnswer matchId participantId payload rid)) := by
  apply Follows.bind
  have hCall : Stands Outlook.ends .working (submitAnswer matchId participantId payload rid) := by
    unfold submitAnswer
    split
    · exact trivial
    apply Stands.work excuses_ends (by simp)
    intro cached
    split
    · exact trivial
    apply Follows.bind
    apply stands_inTransaction excuses_ends.bind
    apply submitTx_stands (excuses_bodyEnds _)
    intro result
    cases result with
    | duplicate resp => exact stands_store
    | inserted row questionId nickname code => exact submitHooks_stands
  apply hCall.mono
  intro s r hr
  cases s with
  | working => cases r <;> exact trivial
  | settled =>
    obtain ⟨a, rfl⟩ := hr
    exact ⟨_, rfl⟩
  | doomed =>
    obtain ⟨e, rfl⟩ := hr
    exact ⟨e, rfl⟩

/-- The program stands at `s`; while it works it has committed nothing. -/
def StandsAt (S : SysState) (pid : Nat) (s : Outlook) : Prop :=
  ∃ t prog, S.procs[pid]? = some ⟨t, prog⟩ ∧ t.job.isSubmit = true ∧ Stands Outlook.ends s prog ∧
    (s = .working → Silent S.shared pid)

def Unstruck (S : SysState) (pid : Nat) : Prop :=
  ∃ s, StandsAt S pid s ∧ (s = .doomed → ∀ row, ¬Wrote S.shared pid row)

def Stained (S : SysState) (pid : Nat) : Prop :=
  StandsAt S pid .doomed ∧ ∃ row, Wrote S.shared pid row

section

variable {C : SysState → SysLabel → Prop} {seed : Seed} {S S' : SysState} {l : SysLabel}
  {w : World} {t : Task} {pid n : Nat} {d : Decision}

theorem exec_commit_error {out : Answer .commit} {e : Exn} (h : exec w t pid n .commit d = some out)
    (he : out.result = .error e) : out.shared.wal = w.wal ∨
      (w.phase t.replica = .up ∧ d.fault = .lost ∧
        out.shared.wal = w.wal ++ [(pid, (w.tx pid).writes)]) := by
  unfold exec at h
  cases hPhase : w.phase t.replica with
  | off => simp [hPhase] at h
  | crashed =>
    simp only [hPhase, Option.some.injEq] at h
    subst h
    exact .inl rfl
  | up =>
    cases hFault : d.fault with
    | lost =>
      simp only [hPhase, hFault, perform] at h
      split at h <;> cases h <;> exact .inr ⟨rfl, rfl, rfl⟩
    | fail =>
      simp only [hPhase, hFault] at h
      split at h <;> cases h <;> exact .inl rfl
    | none =>
      simp only [hPhase, hFault, perform] at h
      split at h <;> cases h
      · exact .inl rfl
      · cases he

theorem exec_commit_lost {out : Answer .commit} (h : exec w t pid n .commit d = some out)
    (hUp : w.phase t.replica = .up) (hLost : d.fault = .lost) :
    (∃ e, out.result = .error e) ∧ out.shared.wal = w.wal ++ [(pid, (w.tx pid).writes)] := by
  unfold exec at h
  simp only [hUp, hLost, perform] at h
  split at h <;> cases h <;> exact ⟨⟨_, rfl⟩, rfl⟩

theorem Silent.not_wrote (h : Silent w pid) (row : AnswerSubmission) : ¬Wrote w pid row := by
  rintro ⟨ws, hWal, -⟩
  exact h ws hWal

theorem StandsAt.idle {s : Outlook} (hS : Held S) (h : StandsAt S pid s)
    (hStep : service.step S l = some S') (hOther : ∀ d, l ≠ .op pid d) :
    StandsAt S' pid s ∧ ∀ row, Wrote S'.shared pid row → Wrote S.shared pid row := by
  obtain ⟨t, prog, hProc, hSubmit, hStands, hSilent⟩ := h
  have hLt := (List.getElem?_eq_some_iff.mp hProc).1
  have hRely := step_rely hS hStep hLt hOther
  constructor
  · obtain ⟨⟨t', prog'⟩, hProc', -⟩ := step_task hStep hProc
    obtain ⟨hOld, -⟩ | ⟨d, _, _, _, _, hEq, -⟩ | ⟨hNew, -⟩ := step_procs hS hStep hProc'
    · rw [hProc] at hOld
      cases hOld
      exact ⟨t, prog, hProc', hSubmit, hStands, fun hs => (hSilent hs).holds hRely.toHolds⟩
    · exact absurd hEq (hOther d)
    · omega
  · rintro row ⟨ws, hWal, hRow⟩
    exact ⟨ws, hRely.wal ws hWal, hRow⟩

/-- A call of the submission. -/
structure Called (S S' : SysState) (pid : Nat) (d : Decision) (s : Outlook) (t : Task) (o : Op)
    (k : Except Exn o.Res → Coro Ret) (out : Answer o) : Prop where
  proc : S.procs[pid]? = some ⟨t, .call o k⟩
  submit : t.job.isSubmit = true
  exec : exec S.shared t pid S.procs.length o d = some out
  proc' : S'.procs[pid]? = some ⟨t, k out.result⟩
  shared : S'.shared = out.shared
  commits : s ≠ .working → o ≠ .commit
  stands : Stands Outlook.ends (s.next o out.result) (k out.result)
  silent : s = .working → Silent S.shared pid

theorem StandsAt.call {s : Outlook} (hS : Held S) (h : StandsAt S pid s)
    (hStep : service.step S (.op pid d) = some S') :
    ∃ t o k out, Called S S' pid d s t o k out := by
  obtain ⟨t, prog, hProc, hSubmit, hStands, hSilent⟩ := h
  have hLt := (List.getElem?_eq_some_iff.mp hProc).1
  obtain ⟨⟨t', prog'⟩, hProc', -⟩ := step_task hStep hProc
  obtain ⟨-, hOther⟩ | ⟨d', u, o, k, out, hEq, hOld, hExec, hNew, hShared⟩ | ⟨hNew, -⟩ :=
    step_procs hS hStep hProc'
  · exact absurd rfl (hOther d)
  · cases hEq
    cases hNew
    rw [hProc] at hOld
    cases hOld
    exact ⟨_, o, k, out, hProc, hSubmit, hExec, hProc', hShared, hStands.1, hStands.2 _, hSilent⟩
  · omega

theorem Called.wrote {s : Outlook} {o : Op} {k : Except Exn o.Res → Coro Ret} {out : Answer o}
    (h : Called S S' pid d s t o k out) (ho : o ≠ .commit) {row : AnswerSubmission}
    (hRow : Wrote S'.shared pid row) : Wrote S.shared pid row := by
  rw [h.shared] at hRow
  obtain ⟨ws, hWal, hIns⟩ := hRow
  rw [(exec_tables ho h.exec).2] at hWal
  exact ⟨ws, hWal, hIns⟩

theorem Unstruck.step (hS : Held S) (h : Unstruck S pid) (hStep : service.step S l = some S')
    (hSpared : ¬Strikes S pid l) : Unstruck S' pid := by
  obtain ⟨s, hAt, hDoomed⟩ := h
  by_cases hOwn : ∃ d, l = .op pid d
  case neg =>
    obtain ⟨hAt', hWrote⟩ := hAt.idle hS hStep fun d hEq => hOwn ⟨d, hEq⟩
    exact ⟨s, hAt', fun hs row hRow => hDoomed hs row (hWrote row hRow)⟩
  case pos =>
    obtain ⟨d, rfl⟩ := hOwn
    obtain ⟨t, o, k, out, hCall⟩ := hAt.call hS hStep
    have hNext : ∀ s', s.next o out.result = s' → (s' = .working → Silent S'.shared pid) →
        (s' = .doomed → ∀ row, ¬Wrote S'.shared pid row) → Unstruck S' pid := by
      rintro s' rfl hSilent hNone
      exact ⟨_, ⟨t, _, hCall.proc', hCall.submit, hCall.stands, hSilent⟩, hNone⟩
    cases s with
    | doomed =>
      apply hNext .doomed rfl
      · exact fun hs => by cases hs
      · exact fun _ row hRow => hDoomed rfl row (hCall.wrote (hCall.commits (by simp)) hRow)
    | settled =>
      have ho := hCall.commits (by simp)
      cases hRes : out.result with
      | ok v =>
        apply hNext .settled (by rw [hRes]; rfl)
        · exact fun hs => by cases hs
        · exact fun hs => by cases hs
      | error e =>
        cases hSwallows : o.swallows e with
        | true =>
          apply hNext .settled (by simp [hRes, Outlook.next, hSwallows])
          · exact fun hs => by cases hs
          · exact fun hs => by cases hs
        | false =>
          apply hNext .doomed (by simp [hRes, Outlook.next, hSwallows])
          · exact fun hs => by cases hs
          · intro _ row hRow
            exact hSpared (.hook t o k d out e row hCall.proc hCall.submit (hCall.wrote ho hRow)
              hCall.exec hRes hSwallows)
    | working =>
      have hSilent := hCall.silent rfl
      by_cases ho : o = .commit
      · subst ho
        cases hRes : out.result with
        | ok v =>
          apply hNext .settled (by simp [hRes, Outlook.next])
          · exact fun hs => by cases hs
          · exact fun hs => by cases hs
        | error e =>
          apply hNext .doomed (by simp [hRes, Outlook.next])
          · exact fun hs => by cases hs
          · rintro - row ⟨ws, hWal, hIns⟩
            rw [hCall.shared] at hWal
            obtain hSame | ⟨hUp, hLost, hMore⟩ := exec_commit_error hCall.exec hRes
            · exact hSilent ws (hSame ▸ hWal)
            · rw [hMore] at hWal
              obtain hOld | hNew := List.mem_append.mp hWal
              · exact hSilent ws hOld
              · cases List.mem_singleton.mp hNew
                exact hSpared (.lost t k d row hCall.proc hCall.submit hUp hLost hIns)
      · apply hNext .working (by cases hRes : out.result <;> simp [Outlook.next, ho])
        · intro _ ws hWal
          rw [hCall.shared, (exec_tables ho hCall.exec).2] at hWal
          exact hSilent ws hWal
        · exact fun hs => by cases hs

theorem Stained.step (hS : Held S) (h : Stained S pid) (hStep : service.step S l = some S') :
    Stained S' pid := by
  obtain ⟨hAt, row, hRow⟩ := h
  refine ⟨?_, row, hRow.later (step_later hS hStep)⟩
  by_cases hOwn : ∃ d, l = .op pid d
  case neg => exact (hAt.idle hS hStep fun d hEq => hOwn ⟨d, hEq⟩).1
  case pos =>
    obtain ⟨d, rfl⟩ := hOwn
    obtain ⟨t, o, k, out, hCall⟩ := hAt.call hS hStep
    exact ⟨t, _, hCall.proc', hCall.submit, hCall.stands, fun hs => by cases hs⟩

theorem Strikes.stains (hS : Held S) (h : Unstruck S pid) (hStep : service.step S l = some S')
    (hStrikes : Strikes S pid l) : Stained S' pid := by
  obtain ⟨s, hAt, -⟩ := h
  have hOwn : ∃ d, l = .op pid d := by
    cases hStrikes with
    | lost _ _ d => exact ⟨d, rfl⟩
    | hook _ _ _ d => exact ⟨d, rfl⟩
  obtain ⟨d, rfl⟩ := hOwn
  obtain ⟨t, o, k, out, hCall⟩ := hAt.call hS hStep
  have hNext : s.next o out.result = .doomed → StandsAt S' pid .doomed := fun hs =>
    ⟨t, _, hCall.proc', hCall.submit, hs ▸ hCall.stands, fun hw => by cases hw⟩
  cases hStrikes with
  | lost t' k' _ row hProc _ hUp hLost hRow =>
    have hEq := hCall.proc.symm.trans hProc
    cases hEq
    obtain ⟨⟨e, hRes⟩, hWal⟩ := exec_commit_lost hCall.exec hUp hLost
    have hs : s = .working := by
      by_contra hNe
      exact hCall.commits hNe rfl
    refine ⟨hNext ?_, row, (S.shared.tx pid).writes, ?_, hRow⟩
    · simp [hs, hRes, Outlook.next]
    · rw [hCall.shared, hWal]
      exact List.mem_append_right _ (List.mem_singleton_self _)
  | hook t' o' k' _ out' e row hProc _ hRow hExec hRes hSwallows =>
    have hEq := hCall.proc.symm.trans hProc
    cases hEq
    have hOut := hCall.exec.symm.trans hExec
    cases hOut
    refine ⟨hNext ?_, row, hRow.later (step_later hS hStep)⟩
    cases s with
    | working => exact absurd hRow ((hCall.silent rfl).not_wrote row)
    | settled => simp [hRes, Outlook.next, hSwallows]
    | doomed => rfl

theorem unstruck_launched (hS : Held S) (hStep : service.step S l = some S')
    {prog : Coro Ret} (hProc : S'.procs[pid]? = some ⟨t, prog⟩) (hSubmit : t.job.isSubmit = true)
    (hNew : pid = S.procs.length) (hBody : prog = jobBody t.job) : Unstruck S' pid := by
  refine ⟨.working, ⟨t, prog, hProc, hSubmit, ?_, fun _ => ?_⟩, fun hs => by cases hs⟩
  · cases hJob : t.job with
    | submitAnswer m p payload rid =>
      rw [hBody, hJob]
      exact submitAnswer_stands m p payload rid
    | _ =>
      rw [hJob] at hSubmit
      cases hSubmit
  · rw [hNew]
    exact (step_fresh hS hStep).2

theorem unstruck_reach (h : service.Reach (fun S l => ¬Strikes S pid l) (initial seed) S)
    {prog : Coro Ret} (hProc : S.procs[pid]? = some ⟨t, prog⟩) (hSubmit : t.job.isSubmit = true) :
    Unstruck S pid := by
  induction h generalizing prog with
  | refl => cases hProc
  | tail hReach hSpared hStep ih =>
    have hS := held_of_reach hReach
    obtain ⟨⟨u, prog₀⟩, hOld, hTask⟩ | ⟨hNew, hBody, -⟩ := step_proc hS hStep hProc
    · cases hTask
      exact (ih hOld).step hS hStep hSpared
    · exact unstruck_launched hS hStep hProc hSubmit hNew hBody

theorem stained_or_spared (h : service.Reach (fun _ _ => True) (initial seed) S) :
    Stained S pid ∨ service.Reach (fun S l => ¬Strikes S pid l) (initial seed) S := by
  induction h with
  | refl => exact .inr .refl
  | @tail S₁ S₂ l hReach _ hStep ih =>
    have hS := held_of_reach hReach
    obtain hStained | hSpared := ih
    · exact .inl (hStained.step hS hStep)
    · by_cases hStrikes : Strikes S₁ pid l
      · left
        have hUnstruck : Unstruck S₁ pid := by
          cases hStrikes with
          | lost t k d row hProc hSubmit => exact unstruck_reach hSpared hProc hSubmit
          | hook t o k d out e row hProc hSubmit => exact unstruck_reach hSpared hProc hSubmit
        exact hStrikes.stains hS hUnstruck hStep
      · exact .inr (hSpared.tail hStrikes hStep)

theorem wal_answers (h : service.Reach C (initial seed) S) {ws : List Write}
    (hWal : (pid, ws) ∈ S.shared.wal) : (ws.filterMap Write.event?).filterMap OutboxEvent.answer? =
      (ws.filterMap Write.submission?).map AnswerSubmission.facts := by
  induction h with
  | refl => cases hWal
  | tail hReach _ hStep ih =>
    obtain hSame | ⟨q, u, hC⟩ := step_cases (held_of_reach hReach) hStep
    · exact ih (hSame.wal ▸ hWal)
    · rw [hC.wal] at hWal
      obtain hOld | hNew := List.mem_append.mp hWal
      · exact ih hOld
      · cases List.mem_singleton.mp hNew
        exact hC.shape.answers

theorem LeavesNothing.of_unwritten (h : service.Reach C (initial seed) S)
    (hNone : ∀ row, ¬Wrote S.shared pid row) : LeavesNothing S.shared pid where
  rows row _ := hNone row
  events ws hWal e hEvent := by
    have hAnswers := wal_answers h hWal
    have hRows : ws.filterMap Write.submission? = [] := by
      rw [List.filterMap_eq_nil_iff]
      intro wr hwr
      cases wr with
      | insertSubmission row => exact absurd ⟨ws, hWal, hwr⟩ (hNone row)
      | _ => rfl
    rw [hRows, List.map_nil, List.filterMap_eq_nil_iff] at hAnswers
    exact hAnswers e (List.mem_filterMap.mpr ⟨_, hEvent, rfl⟩)
  increments i _ row hRow := absurd hRow (hNone row)

/-- A call that raises has left nothing behind if and only if the run has not struck it
behind its COMMIT. -/
theorem raised_leaves_nothing_iff (h : service.Reach (fun _ _ => True) (initial seed) S)
    {replica : Nat} {m p : Id} {payload : AnswerSubmitRequest} {rid : String} {r : Except Exn Ret}
    (hEnded : S.procs[pid]? = some ⟨⟨replica, .submitAnswer m p payload rid⟩, .done r⟩) :
    ((∃ e, r = .error e) → LeavesNothing S.shared pid) ↔
      service.Reach (fun S l => ¬Strikes S pid l) (initial seed) S := by
  constructor
  · intro hNothing
    have hCases : Stained S pid ∨ _ := stained_or_spared h
    obtain hStained | hSpared := hCases
    · obtain ⟨⟨t, prog, hProc, -, hStands, -⟩, row, hRow⟩ := hStained
      rw [hEnded] at hProc
      cases hProc
      exact absurd hRow ((hNothing hStands).rows row ((held_of_reach h).inv.wrote pid row hRow))
    · exact hSpared
  · rintro hSpared ⟨e, rfl⟩
    obtain ⟨s, ⟨t, prog, hProc, -, hStands, hSilent⟩, hDoomed⟩ := unstruck_reach hSpared hEnded rfl
    rw [hEnded] at hProc
    cases hProc
    apply LeavesNothing.of_unwritten h
    cases s with
    | working => exact (hSilent rfl).not_wrote
    | settled =>
      obtain ⟨a, ha⟩ := hStands
      cases ha
    | doomed => exact hDoomed rfl

end

/-- The flush of the event of Ann's call fails, in front of its COMMIT. -/
def Demo.annFailsEarly : List SysLabel :=
  Demo.opening ++ [.env (.request 0 Demo.annJob)] ++ Demo.calls 4 11 300 ++
    [.op 4 { fault := .fail }, .op 4 {}]

/-- The program has written nothing yet, and the call keeps its reply. -/
def unwritten (pid : Nat) (S : SysState) : SysLabel → Bool
  | .op _ d => S.shared.wal.all (·.1 ≠ pid) && d.fault ≠ .lost
  | .env _ => true

theorem not_strikes {pid : Nat} {S : SysState} {l : SysLabel} (h : unwritten pid S l = true) :
    ¬Strikes S pid l := by
  intro hStrikes
  cases hStrikes with
  | lost t k d row _ _ _ hLost _ => simp [unwritten, hLost] at h
  | hook t o k d out e row _ _ hWrote _ _ _ =>
    obtain ⟨ws, hWal, -⟩ := hWrote
    exact of_decide_eq_true (List.all_eq_true.mp (Bool.and_eq_true_iff.mp h).1 _ hWal) rfl

/-- A call that returns has not been struck, and one that raises early leaves nothing. -/
theorem raised_leaves_nothing_ann :
    (∃ S : SysState,
      S.procs[4]? = some ⟨⟨0, Demo.annJob⟩, .done (.ok (.response Demo.annResponse))⟩ ∧
      service.Reach (fun S l => ¬Strikes S 4 l) (initial Demo.seed) S) ∧
    ∃ S : SysState, S.procs[4]? = some ⟨⟨0, Demo.annJob⟩, .done (.error .fault)⟩ ∧
      LeavesNothing S.shared 4 := by
  constructor
  · have hRun : (service.run (initial Demo.seed) Demo.annAnswers).any
        (fun S => outcome S 4 = some (⟨0, Demo.annJob⟩, .ok (.response Demo.annResponse))) = true := by
      decide +kernel
    obtain ⟨S, hReach, hOut⟩ := Machine.Reach.exists_of_run hRun
    have hEnded := outcome_spec (of_decide_eq_true hOut)
    refine ⟨S, hEnded, (raised_leaves_nothing_iff hReach hEnded).mp ?_⟩
    rintro ⟨e, he⟩
    cases he
  · have hRun : (service.runWhile (unwritten 4) (initial Demo.seed) Demo.annFailsEarly).any
        (fun S => outcome S 4 = some (⟨0, Demo.annJob⟩, .error .fault)) = true := by
      decide +kernel
    obtain ⟨S, hReach, hOut⟩ := Machine.Reach.exists_of_runWhile hRun
    have hEnded := outcome_spec (of_decide_eq_true hOut)
    have hSpared := hReach.mono fun _ _ h => not_strikes h
    have hAll := hReach.mono fun _ _ _ => trivial
    exact ⟨S, hEnded, (raised_leaves_nothing_iff hAll hEnded).mpr hSpared ⟨_, rfl⟩⟩

/-- The SADD of Ann's call fails, behind its COMMIT and its ZINCRBY. -/
def Demo.annFails : List SysLabel :=
  Demo.opening ++ [.env (.request 0 Demo.annJob)] ++ Demo.calls 4 14 300 ++
    [.op 4 { fault := .fail }]

def Demo.hasWritten (S : SysState) (pid : Nat) : Bool :=
  S.shared.db.submissions.any fun row =>
    S.shared.wal.any fun entry => entry.1 = pid && entry.2.contains (.insertSubmission row)

theorem raised_with_row : ∃ S, service.Reach (fun _ _ => True) (initial Demo.seed) S ∧
    S.procs[4]? = some ⟨⟨0, Demo.annJob⟩, .done (.error .fault)⟩ ∧ ¬LeavesNothing S.shared 4 := by
  have hRun : (service.run (initial Demo.seed) Demo.annFails).any
      (fun S => outcome S 4 = some (⟨0, Demo.annJob⟩, .error .fault) ∧
        Demo.hasWritten S 4 = true) = true := by
    decide +kernel
  obtain ⟨S, hReach, hS⟩ := Machine.Reach.exists_of_run hRun
  obtain ⟨hOut, hWritten⟩ := of_decide_eq_true hS
  refine ⟨S, hReach, outcome_spec hOut, fun hNothing => ?_⟩
  obtain ⟨row, hRow, hAny⟩ := List.any_eq_true.mp hWritten
  obtain ⟨⟨pid, ws⟩, hWal, hEntry⟩ := List.any_eq_true.mp hAny
  obtain ⟨hPid, hIns⟩ := Bool.and_eq_true_iff.mp hEntry
  obtain rfl : pid = 4 := of_decide_eq_true hPid
  exact hNothing.rows row hRow ⟨ws, hWal, List.contains_iff_mem.mp hIns⟩

end LiveQuiz
