import LiveQuiz.Protocol.Discreet
import LiveQuiz.Lib.History
import LiveQuiz.Results.Recovery
import LiveQuiz.Results.Grace

/-! # What a resume leaves behind

`resume_match` decides from the record of the pause which task takes the match up again,
while the rows say which one is needed. Every program keeps the record it read, the
tables of its last commit, the tables it last looked into and the task it created.
-/

namespace LiveQuiz

open Coroutine

set_option autoImplicit false

structure Rearming where
  record : Option PauseRecord := none
  committed : Option Db := none
  seen : Option Db := none
  launched : Option Job := none

def Rearming.note (r : Rearming) (pid : Nat) (o : Op) (w : World) : Rearming :=
  match o with
  | .redis (.getPause m) => { r with record := w.redis.pause m }
  | .commit => { r with committed := some (w.view pid), seen := some (w.view pid), launched := none }
  | .select (.nextUnstarted _) => { r with seen := some (w.view pid) }
  | .createTask j => { r with launched := some j }
  | .setActive _ j => { r with launched := some j }
  | _ => r

abbrev Noted := World × (Nat → Rearming)

abbrev rearming : Machine Noted Op Op.Res Exn Ret Task Decision EnvAction :=
  service.noting (personal Rearming.note)

/-- The record names an open question and leaves it time, or it names none with time left
and the match is between two questions. -/
def Continuing (record : PauseRecord) (db : Db) (m : Id) : Prop :=
  (∃ p, record.position = some p ∧ 0 < record.remainingMs ∧ ∃ q, db.IsOpen m q ∧ q.position = p) ∨
  ((record.position = none ∨ record.remainingMs ≤ 0) ∧ (∀ q, ¬db.IsOpen m q) ∧
    ∃ q, db.IsUnstarted m q)

/-- What the resume of match `m` has left: the match runs, and its task is the one that
takes the match up again exactly when the record fits the rows. -/
structure Rearming.Settled (r : Rearming) (m : Id) : Prop where
  running : ∃ db, r.committed = some db ∧ ∃ x ∈ db.matches', x.id = m ∧ x.status = .running
  resumes : ∃ db, r.seen = some db ∧
    ((∃ j, r.launched = some j ∧ LiveQuiz.Resumes db m j) ↔
      Continuing (r.record.getD ⟨none, 0⟩) db m)

def rearmingContract : Contract Noted Op Exn Ret Task :=
  contract.personal fun pid t r s => ∀ host code x,
    t.job = .resumeMatch host code → r = .ok (.matchRow x) → (s.2 pid).Settled x.id

def Op.unnoted : Op → Bool
  | .redis (.getPause _) | .commit | .select (.nextUnstarted _) | .createTask _ | .setActive _ _ => false
  | _ => true

abbrev Unnoted {α : Type} (p : Coro α) : Prop :=
  Confined (fun o => Op.unnoted o = true) (fun _ => True) p

/-- Every normal end meets `Q`, whatever the calls require. -/
def Tells {α : Type} (pid : Nat) (t : Task) (p : Coro α) (Q : α → Noted → Prop) (s : Noted) : Prop :=
  wp rearming rearmingContract.lenient pid t p (fun r s' => ∀ a, r = .ok a → Q a s') s

section

variable {pid : Nat} {t : Task} {m : Id} {s s' : Noted} {α β : Type}

theorem note_unnoted {o : Op} (ho : o.unnoted = true) (r : Rearming) (w : World) :
    r.note pid o w = r := by
  cases o with
  | select query => cases query <;> first | rfl | cases ho
  | redis c => cases c <;> first | rfl | cases ho
  | _ => first | rfl | cases ho

namespace Tells

theorem pure {a : α} {Q : α → Noted → Prop} (h : Q a s) : Tells pid t (Pure.pure a) Q s := by
  intro a' ha
  cases ha
  exact h

theorem bind {p : Coro α} {f : α → Coro β} {Q : β → Noted → Prop}
    (h : Tells pid t p (fun a s => Tells pid t (f a) Q s) s) : Tells pid t (p >>= f) Q s := by
  apply wp_bind
  apply wp_mono h
  intro r s' hr
  cases r with
  | ok a => exact hr a rfl
  | error e =>
    intro a ha
    cases ha

theorem mono {p : Coro α} {Q Q' : α → Noted → Prop} (h : Tells pid t p Q s)
    (hQ : ∀ a s, Q a s → Q' a s) : Tells pid t p Q' s :=
  wp_mono h fun _ _ hr a ha => hQ _ _ (hr a ha)

theorem ask {o : Op} {Q : o.Res → Noted → Prop}
    (h : ∀ w₁ s₂ n d out v, Rely pid s.1 w₁ → perform w₁ t pid n o d = some out →
      out.result = .ok v → s₂.1 = out.shared → s₂.2 pid = (s.2 pid).note pid o w₁ → Q v s₂) :
    Tells pid t (LiveQuiz.ask o) Q s := by
  apply wp_perform
  intro s₁ n _ hRely _
  refine ⟨trivial, fun d out hExec v hv => ?_⟩
  obtain ⟨hNotes, hExec'⟩ := noting_exec hExec
  obtain ⟨-, -, hOk⟩ | ⟨e, hErr, -⟩ := exec_cases hExec'
  · apply h s₁.1 out.shared n d _ v hRely.1 hOk hv rfl
    rw [hNotes, personal_self, hRely.2]
  · rw [hv] at hErr
    cases hErr

theorem unnoted {p : Coro α} {Q : α → World → Prop} (h : Runs pid t p Q s.1) (hp : Unnoted p) :
    Tells pid t p (fun a s' => Q a s'.1 ∧ s'.2 pid = s.2 pid) s := by
  have hNotes : wp rearming rearmingContract.lenient pid t p
      (fun r s' => s'.2 pid = s.2 pid ∧ ∀ e, r = .error e → True) s := by
    apply wp_confined (J := fun s' : Noted => s'.2 pid = s.2 pid) hp rfl
    case hReq => exact fun _ _ _ _ => trivial
    case hRely => exact fun s₁ s₂ hJ hRely => hRely.2.trans hJ
    case hExec =>
      intro s₁ n o d out ho hJ hExec
      refine ⟨?_, fun _ _ => trivial⟩
      rw [(noting_exec hExec).1, personal_self, note_unnoted ho, hJ]
  apply wp_mono (wp_relax (wp_lenient (wp_personal h) hNotes))
  rintro r s' ⟨hr, hSame, -⟩ a ha
  exact ⟨hr a ha, hSame⟩

theorem withSession {p : Coro α} {Q : α → Noted → Prop} (h : Tells pid t p Q s) :
    Tells pid t (withSession p) Q s := by
  apply wp_session
  apply wp_mono h
  intro r s' hr
  cases r with
  | ok a => exact hr
  | error e =>
    apply wp_perform
    intro s₁ n _ _ _
    refine ⟨trivial, fun d out _ a ha => ?_⟩
    cases ha

end Tells

theorem unnoted_call {o : Op} {f : o.Res → Coro α} (ho : o.unnoted = true) (hf : ∀ v, Unnoted (f v)) :
    Unnoted (ask o >>= f) :=
  confined_call ho hf

theorem hostedMatch_unnoted {host : Id} {code : String} {status : RoomStatus} {message : String} :
    Unnoted (hostedMatch host code status message) := by
  apply unnoted_call rfl
  intro found
  split
  case h_2 => exact confined_raise trivial
  case h_1 room =>
  apply confined_refused trivial
  apply unnoted_call rfl
  intro found
  split
  case h_2 => exact confined_raise trivial
  case h_1 x =>
  apply unnoted_call rfl
  intro loaded
  exact confined_refused trivial (Confined.pure _)

theorem extendDeadline_unnoted {loaded : List MatchQuestion} {position : Option Nat} {remaining : Int} :
    Unnoted (extendDeadline m loaded position remaining) := by
  unfold extendDeadline
  split
  · exact Confined.pure _
  apply unnoted_call rfl
  intro found
  split
  case h_2 => exact Confined.pure _
  case h_1 row =>
  split
  · exact Confined.pure _
  · exact unnoted_call rfl fun _ => Confined.pure _

theorem continuing_timed {record : PauseRecord} {db : Db} {p : Nat} (hPos : record.position = some p)
    (hLeft : 0 < record.remainingMs) :
    Continuing record db m ↔ ∃ q, db.IsOpen m q ∧ q.position = p := by
  constructor
  · rintro (⟨p', hPos', -, hOpen⟩ | ⟨hNone | hLess, -⟩)
    · rw [hPos] at hPos'
      cases hPos'
      exact hOpen
    · rw [hPos] at hNone
      cases hNone
    · omega
  · exact fun hOpen => .inl ⟨p, hPos, hLeft, hOpen⟩

theorem continuing_between {record : PauseRecord} {db : Db}
    (h : record.position = none ∨ record.remainingMs ≤ 0) :
    Continuing record db m ↔ (∀ q, ¬db.IsOpen m q) ∧ ∃ q, db.IsUnstarted m q := by
  constructor
  · rintro (⟨p, hPos, hLeft, -⟩ | ⟨-, hRest⟩)
    · obtain hNone | hLess := h
      · rw [hPos] at hNone
        cases hNone
      · omega
    · exact hRest
  · exact fun hRest => .inr ⟨h, hRest⟩

theorem resumes_timer {db : Db} {p : Nat} {d : Micros} :
    Resumes db m (.closeQuestionAfter m p d) ↔ ∃ q, db.IsOpen m q ∧ q.position = p := by
  constructor
  · generalize hJob : Job.closeQuestionAfter m p d = job
    rintro (⟨_, q, hOpen, hCloses⟩ | _ | _)
    · subst hJob
      cases hCloses
      exact ⟨q, hOpen, rfl⟩
    · cases hJob
    · cases hJob
  · rintro ⟨q, hOpen, rfl⟩
    exact .closes _ q hOpen (.after m q.position d)

theorem resumes_arm {db : Db} {q : MatchQuestion}
    (hNext : Query.run db (.nextUnstarted m) = some q) :
    Resumes db m (.armQuestion m q.position) ↔ ∀ x, ¬db.IsOpen m x := by
  obtain ⟨hUnstarted, hMin⟩ := nextUnstarted_some hNext
  constructor
  · generalize hJob : Job.armQuestion m q.position = job
    rintro (⟨_, x, -, hCloses⟩ | ⟨x, hNone, -⟩ | _)
    · subst hJob
      cases hCloses
    · exact hNone
    · cases hJob
  · exact fun hNone => .arms q hNone hUnstarted hMin

theorem armNext_settled {r : Rearming} (h : s.2 pid = r)
    (hBetween : (r.record.getD ⟨none, 0⟩).position = none ∨ (r.record.getD ⟨none, 0⟩).remainingMs ≤ 0)
    (hNone : r.launched = none) (hRunning : ∃ db, r.committed = some db ∧
      ∃ x ∈ db.matches', x.id = m ∧ x.status = .running) :
    Tells pid t (rearm.armNext m) (fun _ s' => (s'.2 pid).Settled m) s := by
  apply Tells.bind
  apply Tells.ask
  intro w₁ s₁ n d out found _ hOk hFound _ hNote
  rw [h] at hNote
  change s₁.2 pid = { r with seen := some (w₁.view pid) } at hNote
  cases hOk
  cases hFound
  split
  case h_2 hNothing =>
    apply Tells.pure
    rw [hNote]
    refine ⟨hRunning, w₁.view pid, rfl, ?_⟩
    change (∃ j, r.launched = some j ∧ _) ↔ Continuing (r.record.getD ⟨none, 0⟩) _ m
    rw [continuing_between hBetween]
    constructor
    · rintro ⟨j, hj, -⟩
      cases hNone.symm.trans hj
    · rintro ⟨-, q, hUnstarted⟩
      exact absurd hUnstarted (nextUnstarted_none (Option.eq_none_iff_forall_ne_some.mpr hNothing) q)
  case h_1 q hNext =>
    apply Tells.ask
    intro w₂ s₂ _ _ _ _ _ _ _ _ hNote₂
    rw [hNote₂, hNote]
    refine ⟨hRunning, w₁.view pid, rfl, ?_⟩
    change (∃ j, some (Job.armQuestion m q.position) = some j ∧ _) ↔
      Continuing (r.record.getD ⟨none, 0⟩) _ m
    rw [continuing_between hBetween]
    constructor
    · rintro ⟨j, hj, hResumes⟩
      cases hj
      exact ⟨(resumes_arm hNext).mp hResumes, q, (nextUnstarted_some hNext).1⟩
    · rintro ⟨hClosed, -⟩
      exact ⟨_, rfl, (resumes_arm hNext).mpr hClosed⟩

theorem rearm_settled {r : Rearming} {db : Db} {record : PauseRecord} (h : s.2 pid = r)
    (hRecord : r.record.getD ⟨none, 0⟩ = record) (hNone : r.launched = none)
    (hCommitted : r.committed = some db) (hSeen : r.seen = some db)
    (hRunning : ∃ x ∈ db.matches', x.id = m ∧ x.status = .running) :
    Tells pid t (rearm m record.position record.remainingMs) (fun _ s' => (s'.2 pid).Settled m) s := by
  have hNext := armNext_settled (m := m) (t := t) h
  rw [hRecord] at hNext
  unfold rearm
  split
  case h_2 hPos => exact hNext (.inl hPos) hNone ⟨db, hCommitted, hRunning⟩
  case h_1 p hPos =>
  split
  case isFalse hLeft => exact hNext (.inr (by omega)) hNone ⟨db, hCommitted, hRunning⟩
  case isTrue hLeft =>
    apply Tells.ask
    intro w₁ s₁ _ _ _ _ _ _ _ _ hNote
    rw [hNote, h]
    refine ⟨⟨db, hCommitted, hRunning⟩, db, hSeen, ?_⟩
    change (∃ j, some (Job.closeQuestionAfter m p (ofMillis record.remainingMs)) = some j ∧
      Resumes db m j) ↔ Continuing (r.record.getD ⟨none, 0⟩) db m
    rw [hRecord, continuing_timed hPos hLeft, ← resumes_timer (d := ofMillis record.remainingMs)]
    constructor
    · rintro ⟨j, hj, hResumes⟩
      cases hj
      exact hResumes
    · exact fun hResumes => ⟨_, rfl, hResumes⟩

theorem running_resumed {w : World} {x : Match} {deadline : List Write} (hx : x ∈ w.db.matches')
    (hTx : (w.tx pid).writes = [.updateRoom x.roomId .running none none,
      .updateMatch x.id .running none] ++ deadline)
    (hDeadline : deadline = [] ∨ ∃ i u, deadline = [.updateMatchQuestion i none (some u) none]) :
    ∃ y ∈ (w.view pid).matches', y.id = x.id ∧ y.status = .running := by
  refine ⟨x.patch .running none, ?_, rfl, rfl⟩
  have hPatched : x.patch .running none ∈
      updateWhere Match.id x.id (Match.patch .running none) w.db.matches' :=
    mem_updateWhere_of_eq hx rfl
  rw [World.view, hTx]
  obtain rfl | ⟨i, u, rfl⟩ := hDeadline
  · exact hPatched
  · exact hPatched

theorem resumeMatch_settled {host : Id} {code : String} (hTx : s.1.tx pid = {}) :
    Tells pid t (resumeMatch host code) (fun x s' => (s'.2 pid).Settled x.id) s := by
  apply Tells.withSession
  apply Tells.bind
  apply Tells.mono (Tells.unnoted (hostedMatch_runs hTx) hostedMatch_unnoted)
  rintro ⟨room, m, loaded⟩ s₁ ⟨⟨hTx, hMem, hRoom, hLock, -⟩, -⟩
  simp only at hMem hRoom hLock
  apply Tells.bind
  apply Tells.ask
  intro w₁ s₂ n d out record hRely hOk hRec hShared hNote
  have hKnown : Rely pid s₁.1 s₂.1 := by
    rw [hShared]
    exact hRely.trans (perform_quiet rfl hOk)
  have hRecord : (s₂.2 pid).record = record := by
    cases hOk
    cases hRec
    rw [hNote]
    rfl
  clear hOk hRec hShared hNote
  replace hMem := hKnown.lockedMatch m hMem (.inr hLock)
  replace hLock := hKnown.lock _ hLock
  apply Tells.bind
  apply Tells.mono (Tells.unnoted (extendDeadline_runs (hKnown.tx.trans hTx)) extendDeadline_unnoted)
  rintro deadline s₃ ⟨⟨h₃, hTx, hDeadline⟩, hSame⟩
  rw [← hSame] at hRecord
  replace hMem := h₃.lockedMatch m hMem (.inr hLock)
  replace hLock := h₃.lock _ hLock
  apply Tells.bind
  apply Tells.ask
  intro w₃ s₄ _ _ _ _ hRely hOk hDone hShared hNote
  obtain ⟨hErr, -⟩ | ⟨-, h₄, hTx₄⟩ := perform_flush hOk
  · rw [hDone] at hErr
    cases hErr
  rw [← hShared] at h₄ hTx₄
  rw [hRely.tx, hTx] at hTx₄
  replace hNote : s₄.2 pid = s₃.2 pid := hNote
  rw [← hNote] at hRecord
  have hHolds := hRely.toHolds.trans h₄
  apply Tells.bind
  apply Tells.ask
  intro w₅ s₅ _ _ _ _ hRely hOk _ _ hNote
  have hWrites : (w₅.tx pid).writes = [.updateRoom m.roomId .running none none,
      .updateMatch m.id .running none] ++ deadline := by
    rw [hRely.tx, hTx₄, ← hRoom]
    rfl
  have hRunning := running_resumed ((hHolds.trans hRely.toHolds).lockedMatch m hMem (.inr hLock))
    hWrites (hDeadline.imp_right fun ⟨i, u, _, hEq⟩ => ⟨i, u, hEq⟩)
  apply Tells.bind
  refine Tells.mono (rearm_settled hNote ?_ rfl rfl rfl hRunning) fun _ _ hSettled => Tells.pure hSettled
  exact congrArg (Option.getD · ⟨none, 0⟩) hRecord

theorem resumeMatch_begins (h : Begin s.1 pid t) : Tells pid t (jobBody t.job)
    (fun r s' => ∀ host code x, t.job = .resumeMatch host code → r = .matchRow x →
      (s'.2 pid).Settled x.id) s := by
  cases hJob : t.job with
  | resumeMatch host code =>
    apply Tells.bind
    apply Tells.mono (resumeMatch_settled h.tx)
    intro x s' hSettled
    apply Tells.pure
    intro _ _ x' _ hEq
    cases hEq
    exact hSettled
  | _ => exact wp_free (fun _ _ => trivial) fun _ _ _ _ _ _ _ hSame => by cases hSame

theorem rearming_sound : Sound rearming rearmingContract := by
  apply sound.personal
  case hStable =>
    intro pid t r s s' h hRely host code x hJob hr
    rw [hRely.2]
    exact h host code x hJob hr
  case hBody =>
    intro fresh t s hStarts
    have hBegin : Begin s.1 fresh t := by
      cases hStarts with
      | exec w₀ t₀ pid o d out hInv hReq hExec hSpawned hShared =>
        exact hShared ▸ exec_begin hInv hReq hExec hSpawned
      | env w₀ e out hInv hEnv hSpawned hShared => exact hShared ▸ env_begin hInv hEnv hSpawned
    apply wp_mono (resumeMatch_begins hBegin)
    intro r s' hr host code x hJob hEq
    exact hr _ hEq host code x hJob rfl

/-- The notes of the programs, and the task each has noted is there unless its replica is
gone. -/
structure Attended (S : State Noted Op Op.Res Exn Ret Task) : Prop where
  unwritten : ∀ q, S.procs.length ≤ q → S.shared.2 q = {}
  launched : ∀ q pr j, S.procs[q]? = some pr → (S.shared.2 q).launched = some j →
    S.shared.1.phase pr.task.replica ≠ .crashed →
      ∃ (q' : Nat) (pr' : Proc Op Op.Res Exn Ret Task), S.procs[q']? = some pr' ∧ pr'.task = ⟨pr.task.replica, j⟩

theorem note_launches {r : Rearming} {w : World} {o : Op} {j : Job}
    (h : (r.note pid o w).launched = some j) : o.launches = some j ∨ r.launched = some j := by
  cases o with
  | select query => cases query <;> exact .inr h
  | redis c => cases c <;> exact .inr h
  | commit => cases h
  | createTask j' => exact .inl h
  | setActive i j' => exact .inl h
  | _ => exact .inr h

theorem exec_launches {w : World} {n : Nat} {o : Op} {d : Decision} {out : Answer o} {j : Job}
    (h : exec w t pid n o d = some out) (ho : o.launches = some j)
    (hUp : w.phase t.replica ≠ .crashed) : out.spawned = some ⟨t.replica, j⟩ := by
  cases o with
  | createTask j' =>
    cases ho
    cases exec_plain h rfl rfl hUp
    rfl
  | setActive i j' =>
    cases ho
    cases exec_plain h rfl rfl hUp
    rfl
  | _ => cases ho

theorem Attended.op {S : State Noted Op Op.Res Exn Ret Task} (h : Attended S) {o : Op} {d : Decision}
    {k : Except Exn o.Res → Coro Ret} {out : Outcome Noted Task (Except Exn o.Res)}
    (hProc : S.procs[pid]? = some ⟨t, .call o k⟩)
    (hExec : rearming.exec S.shared t pid S.procs.length o d = some out) :
    Attended ⟨out.shared, S.procs.set pid ⟨t, k out.result⟩ ++ out.spawned.toList.map rearming.start⟩ := by
  obtain ⟨hNotes, hExec'⟩ := noting_exec hExec
  have hPid := (List.getElem?_eq_some_iff.mp hProc).1
  have hPhase := (exec_requests hExec').2
  have hStays : ∀ {task : Task}, (∃ (q : Nat) (pr : Proc Op Op.Res Exn Ret Task),
      S.procs[q]? = some pr ∧ pr.task = task) → ∃ (q : Nat) (pr : Proc Op Op.Res Exn Ret Task),
      (S.procs.set pid ⟨t, k out.result⟩ ++ out.spawned.toList.map rearming.start)[q]? = some pr ∧
        pr.task = task := by
    rintro task ⟨q, pr, hq, hTask⟩
    have hLt := (List.getElem?_eq_some_iff.mp hq).1
    by_cases hEq : q = pid
    · subst hEq
      rw [hProc] at hq
      cases hq
      refine ⟨q, ⟨t, k out.result⟩, ?_, hTask⟩
      rw [List.getElem?_append_left (by simpa using hLt), List.getElem?_set_self hPid]
    · refine ⟨q, pr, ?_, hTask⟩
      rw [List.getElem?_append_left (by simpa using hLt), List.getElem?_set_ne (Ne.symm hEq), hq]
  constructor
  case unwritten =>
    intro q hq
    have hLen : S.procs.length ≤ q := by
      simp only [List.length_append, List.length_set] at hq
      omega
    change out.shared.2 q = {}
    rw [hNotes, personal_of_ne (by omega)]
    exact h.unwritten q hLen
  case launched =>
    intro q pr j hq hNote hUp
    change (out.shared.2 q).launched = some j at hNote
    change out.shared.1.phase pr.task.replica ≠ .crashed at hUp
    rw [hNotes] at hNote
    rw [hPhase] at hUp
    obtain hOld | ⟨rfl, t', hSpawned, rfl⟩ := getElem?_append_spawned hq
    case inr =>
      rw [personal_of_ne (by simp; omega), h.unwritten _ (by simp)] at hNote
      cases hNote
    by_cases hEq : q = pid
    · subst hEq
      rw [List.getElem?_set_self hPid] at hOld
      cases hOld
      rw [personal_self] at hNote
      obtain ho | hBefore := note_launches hNote
      · refine ⟨S.procs.length, rearming.start ⟨t.replica, j⟩, ?_, rfl⟩
        rw [show out.spawned = _ from exec_launches hExec' ho hUp,
          List.getElem?_append_right (by simp)]
        simp
      · exact hStays (h.launched q ⟨t, .call o k⟩ j hProc hBefore hUp)
    · rw [List.getElem?_set_ne (Ne.symm hEq)] at hOld
      rw [personal_of_ne hEq] at hNote
      exact hStays (h.launched q pr j hOld hNote hUp)

theorem Attended.env {S : State Noted Op Op.Res Exn Ret Task} (h : Attended S) {e : EnvAction}
    {out : Noted × Option Task} (hEnv : rearming.env S.shared S.procs.length e = some out) :
    Attended ⟨out.1, S.procs ++ out.2.toList.map rearming.start⟩ := by
  obtain ⟨hNotes, hEnv'⟩ := noting_env hEnv
  constructor
  case unwritten =>
    intro q hq
    change out.1.2 q = {}
    rw [hNotes]
    apply h.unwritten q
    simp only [List.length_append] at hq
    omega
  case launched =>
    intro q pr j hq hNote hUp
    change (out.1.2 q).launched = some j at hNote
    rw [hNotes] at hNote
    obtain hOld | ⟨rfl, t', -, rfl⟩ := getElem?_append_spawned hq
    case inr =>
      rw [h.unwritten _ le_rfl] at hNote
      cases hNote
    have hStill := h.launched q pr j hOld hNote fun hCrashed =>
      hUp (env_crashed (n := S.procs.length) hEnv' hCrashed)
    obtain ⟨q', pr', hq', hTask⟩ := hStill
    exact ⟨q', pr', by rw [List.getElem?_append_left (List.getElem?_eq_some_iff.mp hq').1, hq'], hTask⟩

theorem attended_reach {seed : Seed} {S : State Noted Op Op.Res Exn Ret Task}
    (h : rearming.Reach (fun _ _ => True) ((initial seed).noted fun _ => {}) S) : Attended S := by
  induction h with
  | refl => exact ⟨fun _ _ => rfl, fun _ _ _ hp => by cases hp⟩
  | tail _ _ hStep ih =>
    obtain ⟨pid, d, t, o, k, out, -, hProc, hExec, rfl⟩ | ⟨e, out, -, hEnv, rfl⟩ :=
      Machine.step_cases hStep
    · exact ih.op hProc hExec
    · exact ih.env hEnv

end

/-- The resume has left match `m` running, and a task on its replica that takes the match up
again. -/
def TakenUp (S : State Noted Op Op.Res Exn Ret Task) (pid replica : Nat) (m : Id) : Prop :=
  (∃ db, (S.shared.2 pid).committed = some db ∧ ∃ x ∈ db.matches', x.id = m ∧ x.status = .running) ∧
  ∃ (db : Db) (job : Job) (q : Nat) (pr : Proc Op Op.Res Exn Ret Task),
    (S.shared.2 pid).seen = some db ∧ (S.shared.2 pid).launched = some job ∧
    Resumes db m job ∧ S.procs[q]? = some pr ∧ pr.task = ⟨replica, job⟩

/-- A resume that returns has left the match its task exactly when the record of the pause
fits the rows. -/
theorem resume_hands_on_iff {seed : Seed} {S : State Noted Op Op.Res Exn Ret Task}
    {pid replica : Nat} {host : Id} {code : String} {x : Match}
    (h : rearming.Reach (fun _ _ => True) ((initial seed).noted fun _ => {}) S)
    (hProc : S.procs[pid]? = some ⟨⟨replica, .resumeMatch host code⟩, .done (.ok (.matchRow x))⟩)
    (hUp : S.shared.1.phase replica ≠ .crashed) :
    TakenUp S pid replica x.id ↔ ∃ db, (S.shared.2 pid).seen = some db ∧
      Continuing ((S.shared.2 pid).record.getD ⟨none, 0⟩) db x.id := by
  have hInitial : Kept rearming rearmingContract ((initial seed).noted fun _ => {}) :=
    ⟨inv_genesis seed, fun _ _ hp => by cases hp⟩
  have hKept := rearming_sound.kept hInitial h
  obtain ⟨hRunning, db, hSeen, hIff⟩ := (hKept.post hProc).2 host code x rfl rfl
  constructor
  · rintro ⟨-, db', job, q, pr, hSeen', hLaunched, hResumes, -⟩
    rw [hSeen] at hSeen'
    cases hSeen'
    exact ⟨db, hSeen, hIff.mp ⟨job, hLaunched, hResumes⟩⟩
  · rintro ⟨db', hSeen', hContinuing⟩
    rw [hSeen] at hSeen'
    cases hSeen'
    obtain ⟨job, hLaunched, hResumes⟩ := hIff.mpr hContinuing
    obtain ⟨q, pr, hq, hTask⟩ := (attended_reach h).launched pid _ job hProc hLaunched hUp
    exact ⟨hRunning, db, job, q, pr, hSeen, hLaunched, hResumes, hq, hTask⟩

def Demo.resumed : List SysLabel :=
  opening ++ [.env (.request 0 (.pauseMatch 7 "AB"))] ++ calls 4 9 100 ++
    [.env (.request 0 (.resumeMatch 7 "AB"))] ++ calls 5 9 120

theorem resume_hands_on_open : ∃ S,
    rearming.Reach (fun _ _ => True) ((initial Demo.seed).noted fun _ => {}) S ∧
    TakenUp S 5 0 54 := by
  have hRun : (rearming.run ((initial Demo.seed).noted fun _ => {}) Demo.resumed).any (fun S =>
      outcome ⟨S.shared.1, S.procs⟩ 5 =
        some (⟨0, .resumeMatch 7 "AB"⟩, .ok (.matchRow ⟨54, 1, 1, .running, 0, none⟩)) ∧
      S.shared.1.phase 0 = .up ∧ (S.shared.2 5).record = some ⟨some 1, 20000⟩ ∧
      (S.shared.2 5).seen.any fun db => ∃ q ∈ db.matchQuestions,
        (q.matchId = 54 ∧ q.startedAt.isSome ∧ q.closedAt = none) ∧ q.position = 1) = true := by
    decide +kernel
  obtain ⟨S, hReach, hS⟩ := Machine.Reach.exists_of_run hRun
  obtain ⟨hOut, hUp, hRecord, hSeen⟩ := of_decide_eq_true hS
  obtain ⟨db, hSeen, hOpen⟩ := (Option.any_eq_true _ _).mp hSeen
  obtain ⟨q, hq, hRest, hPos⟩ := of_decide_eq_true hOpen
  refine ⟨S, hReach, (resume_hands_on_iff hReach (outcome_spec hOut) (by rw [hUp]; simp)).mpr ?_⟩
  refine ⟨db, hSeen, .inl ⟨1, ?_, ?_, q, ⟨hq, hRest⟩, hPos⟩⟩
  · rw [hRecord]
    rfl
  · rw [hRecord]
    decide

/-- The host pauses after the deadline of the only question, before its timer has run, and
resumes. -/
def Demo.forsaken : List SysLabel :=
  [.env (.boot 0)] ++ calls 0 1 0 ++ [.env (.request 0 (.startMatch 7 "AB"))] ++ calls 1 19 50 ++
    calls 2 15 80 ++ calls 3 1 100 ++ [.env (.tick 20000000)] ++
    [.env (.request 0 (.pauseMatch 7 "AB"))] ++ calls 4 9 100 ++ calls 3 1 110 ++
    [.env (.request 0 (.resumeMatch 7 "AB"))] ++ calls 5 9 120

/-- The resume has returned, the match runs with its question open, and nothing is left to run. -/
theorem resume_strands : ∃ S, service.Reach (fun _ _ => True) (initial Demo.single) S ∧
    S.procs[5]? = some ⟨⟨0, .resumeMatch 7 "AB"⟩,
      .done (.ok (.matchRow ⟨54, 1, 1, .running, 0, none⟩))⟩ ∧
    (∃ x ∈ S.shared.db.matches', x.id = 54 ∧ x.status = .running) ∧
    (∃ q, S.shared.db.IsOpen 54 q) ∧ S.shared.phase 0 = .up ∧
    ∀ pr ∈ S.procs, pr.ended = true := by
  have hRun : (service.run (initial Demo.single) Demo.forsaken).any (fun S =>
      outcome S 5 =
        some (⟨0, .resumeMatch 7 "AB"⟩, .ok (.matchRow ⟨54, 1, 1, .running, 0, none⟩)) ∧
      (∃ x ∈ S.shared.db.matches', x.id = 54 ∧ x.status = .running) ∧
      (∃ q ∈ S.shared.db.matchQuestions, q.matchId = 54 ∧ q.startedAt.isSome ∧ q.closedAt = none) ∧
      S.shared.phase 0 = .up ∧ ∀ pr ∈ S.procs, pr.ended = true) = true := by
    decide +kernel
  obtain ⟨S, hReach, hS⟩ := Machine.Reach.exists_of_run hRun
  obtain ⟨hOut, hRunning, ⟨q, hq, hOpen⟩, hUp, hEnded⟩ := of_decide_eq_true hS
  exact ⟨S, hReach, outcome_spec hOut, hRunning, ⟨q, hq, hOpen⟩, hUp, hEnded⟩

end LiveQuiz
