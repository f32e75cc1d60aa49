import LiveQuiz.Protocol.Phases
import LiveQuiz.Protocol.Run
import LiveQuiz.Protocol.Discreet
import LiveQuiz.Lib.History

/-! # The grace of a submission

`submit_answer` grants 200 ms behind the deadline, but the timer of `close_question` does
not: it goes off at the deadline itself. So the grace is worth as much as the question
stays open. What a submission reads before its time check is kept as history.
-/

namespace LiveQuiz

open Coroutine

set_option autoImplicit false

/-- What a submission has read: the question under its lock, the status of the match, the
time of its check. -/
structure Reading where
  row : Option MatchQuestion := none
  status : Option RoomStatus := none
  now : Option Micros := none
  deriving DecidableEq

def Reading.read (r : Reading) (w : World) (pid : Nat) : Op → Reading
  | .selectForUpdate (.questionById i) => { r with row := LockQuery.find (w.view pid) (.questionById i) }
  | .select (.getMatch i) =>
    { r with status := (Query.run (w.view pid) (.getMatch i)).map Match.status }
  | .utcnow => { r with now := some w.now }
  | _ => r

def reading (h : Nat → Reading) (pid : Nat) (o : Op) (w : World) : Nat → Reading :=
  Function.update h pid ((h pid).read w pid o)

abbrev watched : Machine (World × (Nat → Reading)) Op Op.Res Exn Ret Task Decision EnvAction :=
  service.noting reading

/-- The time check was made for an armed question of the running match, within the grace. -/
structure InGrace (m : Id) (r : Reading) (mq : MatchQuestion) : Prop where
  row : r.row = some mq
  ofMatch : mq.matchId = m
  started : mq.startedAt.isSome = true
  status : r.status = some .running
  inTime : ∃ deadlineAt now, mq.deadlineAt = some deadlineAt ∧ r.now = some now ∧
    now ≤ deadlineAt + ofMillis deadlineGraceMs

def Exn.Spares (e : Exn) : Prop :=
  ∀ status message details, e ≠ .auth "QUESTION_CLOSED" status message details

def Accepts {α : Type} (r : Except Exn α) : Prop := ∀ e, r = .error e → e.Spares

/-- On a replica that is still there, a call in its grace is spared exactly when it found
the question open. -/
def Judged {α : Type} (m : Id) (replica pid : Nat) (r : Except Exn α)
    (s : World × (Nat → Reading)) : Prop :=
  s.1.phase replica ≠ .crashed → ∀ mq, InGrace m (s.2 pid) mq → (Accepts r ↔ mq.closedAt = none)

structure Watch.Rely (pid : Nat) (s s' : World × (Nat → Reading)) : Prop where
  reading : s'.2 pid = s.2 pid
  crashed : ∀ r, s.1.phase r = .crashed → s'.1.phase r = .crashed

def graceContract : Contract (World × (Nat → Reading)) Op Exn Ret Task where
  inv n s := ∀ q, n ≤ q → s.2 q = {}
  rely := Watch.Rely
  req _ _ _ _ := True
  post pid t r s := ∀ m p payload rid, t.job = .submitAnswer m p payload rid →
    Judged m t.replica pid r s

def Op.unread : Op → Bool
  | .selectForUpdate (.questionById _) | .select (.getMatch _) | .utcnow => false
  | _ => true

abbrev Calm {α : Type} (p : Coro α) : Prop := Confined (fun o => Op.unread o = true) Exn.Spares p

section

variable {α β : Type} {m : Id} {pid n : Nat} {t : Task} {w : World} {o : Op} {d : Decision}
  {s s' : World × (Nat → Reading)}

theorem read_unread {r : Reading} (ho : o.unread = true) : r.read w pid o = r := by
  cases o with
  | utcnow => cases ho
  | select query => cases query <;> first | rfl | cases ho
  | selectForUpdate query => cases query <;> first | rfl | cases ho
  | _ => rfl

theorem reading_self (h : Nat → Reading) (o : Op) (w : World) :
    reading h pid o w pid = (h pid).read w pid o := Function.update_self _ _ _

theorem reading_of_ne {q : Nat} (hq : q ≠ pid) (h : Nat → Reading) (o : Op) (w : World) :
    reading h pid o w q = h q := Function.update_of_ne hq _ _

theorem exec_spares {out : Answer o} {e : Exn} (h : exec w t pid n o d = some out)
    (he : out.result = .error e) : e.Spares := by
  intro status message details hEq
  by_cases ho : ∃ ws, o = .flush ws
  · obtain ⟨ws, rfl⟩ := ho
    obtain ⟨-, -, hOk⟩ | ⟨e', hErr, -, hOut⟩ := exec_cases h
    · obtain ⟨hIntegrity, -⟩ | ⟨hRes, -⟩ := perform_flush hOk
      · rw [he, hEq] at hIntegrity
        cases hIntegrity
      · rw [he] at hRes
        cases hRes
    · rw [he, hEq] at hErr
      cases hErr
      generalize out.shared = v at hOut
      cases hOut
  · have hOutage := exec_outage h he fun ws hFlush => ho ⟨ws, hFlush⟩
    rw [hEq] at hOutage
    cases hOutage

theorem Watch.Rely.refl (pid : Nat) (s : World × (Nat → Reading)) : Watch.Rely pid s s :=
  ⟨rfl, fun _ h => h⟩

theorem Watch.Rely.trans {s'' : World × (Nat → Reading)} (h : Watch.Rely pid s s')
    (h' : Watch.Rely pid s' s'') : Watch.Rely pid s s'' :=
  ⟨h'.reading.trans h.reading, fun r hr => h'.crashed r (h.crashed r hr)⟩

theorem watched_exec {out : Outcome (World × (Nat → Reading)) Task (Except Exn o.Res)}
    (h : watched.exec s t pid n o d = some out) :
    out.shared.2 = reading s.2 pid o s.1 ∧ out.shared.1.phase = s.1.phase ∧
      exec s.1 t pid n o d = some ⟨out.shared.1, out.result, out.spawned⟩ := by
  obtain ⟨hRead, hExec⟩ := noting_exec h
  exact ⟨hRead, (exec_requests hExec).2, hExec⟩

theorem judged_calm {p : Coro α} (h : Calm p)
    (hOpen : s.1.phase t.replica ≠ .crashed → ∀ mq, InGrace m (s.2 pid) mq → mq.closedAt = none) :
    wp watched graceContract pid t p (Judged m t.replica pid) s := by
  apply wp_mono (wp_confined h (Watch.Rely.refl pid s) (fun _ _ _ _ => trivial) ?_ ?_)
  · rintro r s' ⟨hRely, hSpares⟩ hUp mq hGrace
    rw [hRely.reading] at hGrace
    have hNone := hOpen (fun hCrashed => hUp (hRely.crashed _ hCrashed)) mq hGrace
    exact ⟨fun _ => hNone, fun _ => hSpares⟩
  · exact fun s₁ s₂ h₁ h₂ => h₁.trans h₂
  · intro s₁ fresh o d out ho h₁ hExec
    obtain ⟨hRead, hPhase, hExec'⟩ := watched_exec hExec
    refine ⟨h₁.trans ⟨?_, fun r hr => by rw [hPhase]; exact hr⟩, fun e he => exec_spares hExec' he⟩
    rw [hRead, reading_self, read_unread ho]

theorem judged_bind {p : Coro α} {f : α → Coro β}
    (h : wp watched graceContract pid t p (Judged m t.replica pid) s) (hf : ∀ a, Calm (f a)) :
    wp watched graceContract pid t (p >>= f) (Judged m t.replica pid) s := by
  apply wp_bind
  apply wp_mono h
  intro r s' hJudged
  cases r with
  | ok a =>
    apply judged_calm (hf a)
    exact fun hUp mq hGrace => (hJudged hUp mq hGrace).mp fun e he => by cases he
  | error e =>
    intro hUp mq hGrace
    rw [← hJudged hUp mq hGrace]
    exact ⟨fun hA e' he => hA e' (by cases he; rfl), fun hA e' he => hA e' (by cases he; rfl)⟩

theorem exec_plain {out : Answer o} (h : exec w t pid n o d = some out) (hs : o.suspends = false)
    (hf : o.fallible = false) (hUp : w.phase t.replica ≠ .crashed) :
    perform w t pid n o d = some out := by
  unfold exec at h
  cases hPhase : w.phase t.replica with
  | off => simp [hPhase] at h
  | crashed => exact absurd hPhase hUp
  | up =>
    simp only [hPhase, hs, hf, Bool.false_and, Bool.false_eq_true, if_false] at h
    split at h
    · exact h
    · cases h
    · cases h

theorem judged_withSession {p : Coro α}
    (h : wp watched graceContract pid t p (Judged m t.replica pid) s) :
    wp watched graceContract pid t (withSession p) (Judged m t.replica pid) s := by
  apply wp_session
  apply wp_mono h
  intro r s' hJudged
  cases r with
  | ok a => exact hJudged
  | error e =>
    refine wp_perform fun s₁ fresh _ hRely _ => ⟨trivial, fun d out hExec => ?_⟩
    obtain ⟨hRead, hPhase, hExec'⟩ := watched_exec hExec
    have hSame : ∀ res : Except Exn Unit, Judged m t.replica pid
        (.error e : Except Exn α) out.shared := by
      intro _ hUp mq hGrace
      rw [hPhase] at hUp
      rw [hRead, reading_self, read_unread rfl, hRely.reading] at hGrace
      exact hJudged (fun hCrashed => hUp (hRely.crashed _ hCrashed)) mq hGrace
    cases hRes : out.result with
    | ok _ => exact hSame (.ok ())
    | error e' =>
      intro hUp
      rw [hPhase] at hUp
      have hOk := Option.some.inj (exec_plain hExec' rfl rfl hUp)
      have hResult := congrArg Outcome.result hOk
      cases hResult.trans hRes

theorem judged_unread {r : Except Exn α} (h : (s.2 pid).now = none) :
    Judged m t.replica pid r s := by
  rintro - mq hGrace
  obtain ⟨_, _, _, hNow, _⟩ := hGrace.inTime
  rw [h] at hNow
  cases hNow

theorem judged_call {f : o.Res → Coro α} (hNow : (s.2 pid).now = none) (ho : o ≠ .utcnow)
    (h : ∀ w₁ s₂ v, s₂.2 pid = (s.2 pid).read w₁ pid o →
      ∀ n d out, exec w₁ t pid n o d = some out → out.result = .ok v →
        wp watched graceContract pid t (f v) (Judged m t.replica pid) s₂) :
    wp watched graceContract pid t (ask o >>= f) (Judged m t.replica pid) s := by
  intro s₁ fresh _ hRely _
  refine ⟨trivial, fun d out hExec => ?_⟩
  obtain ⟨hRead, -, hExec'⟩ := watched_exec hExec
  have hReading : out.shared.2 pid = (s.2 pid).read s₁.1 pid o := by
    rw [hRead, reading_self, hRely.reading]
  cases hRes : out.result with
  | ok v => exact h s₁.1 out.shared v hReading fresh d _ hExec' hRes
  | error e =>
    apply judged_unread
    rw [hReading]
    cases o with
    | utcnow => exact absurd rfl ho
    | select query => cases query <;> exact hNow
    | selectForUpdate query => cases query <;> exact hNow
    | _ => exact hNow

theorem exec_found {query : LockQuery} {out : Answer (.selectForUpdate query)} {v : Option query.Row}
    (h : exec w t pid n (.selectForUpdate query) d = some out) (hv : out.result = .ok v) :
    v = query.find (w.view pid) := by
  obtain ⟨-, -, hOk⟩ | ⟨e, hErr, -⟩ := exec_cases h
  · simp only [perform, lockRow] at hOk
    split at hOk
    case h_1 hNone =>
      cases hOk
      cases hv
      exact hNone.symm
    case h_2 row hSome =>
      split at hOk <;> cases hOk
      cases hv
      exact hSome.symm
  · rw [hv] at hErr
    cases hErr

theorem exec_selected {query : Query} {out : Answer (.select query)} {v : query.Rows}
    (h : exec w t pid n (.select query) d = some out) (hv : out.result = .ok v) :
    v = query.run (w.view pid) := by
  obtain ⟨-, -, hOk⟩ | ⟨e, hErr, -⟩ := exec_cases h
  · cases hOk
    cases hv
    rfl
  · rw [hv] at hErr
    cases hErr

theorem judged_utcnow {f : Micros → Coro α}
    (h : ∀ s₂ now, s₂.2 pid = { s.2 pid with now := some now } →
      wp watched graceContract pid t (f now) (Judged m t.replica pid) s₂) :
    wp watched graceContract pid t (utcnow >>= f) (Judged m t.replica pid) s := by
  intro s₁ fresh _ hRely _
  refine ⟨trivial, fun d out hExec => ?_⟩
  obtain ⟨hRead, hPhase, hExec'⟩ := watched_exec hExec
  have hReading : out.shared.2 pid = { s.2 pid with now := some s₁.1.now } := by
    rw [hRead, reading_self, hRely.reading]
    rfl
  cases hRes : out.result with
  | ok now =>
    obtain rfl : now = s₁.1.now := by
      obtain ⟨-, -, hOk⟩ | ⟨e, hErr, -⟩ := exec_cases hExec'
      · have hResult := congrArg Outcome.result (Option.some.inj hOk)
        cases hResult.trans hRes
        rfl
      · rw [hRes] at hErr
        cases hErr
    exact h out.shared _ hReading
  | error e =>
    intro hUp
    rw [hPhase] at hUp
    have hResult := congrArg Outcome.result (Option.some.inj (exec_plain hExec' rfl rfl hUp))
    cases hResult.trans hRes

theorem spares_of_code {code : String} {status : Nat} {message : String}
    {details : List (String × String)} (h : code ≠ "QUESTION_CLOSED") :
    (Exn.auth code status message details).Spares := by
  rintro s m' d' hEq
  cases hEq
  exact h rfl

theorem judged_none {r : Except Exn α} (h : ∀ mq, ¬InGrace m (s.2 pid) mq) :
    Judged m t.replica pid r s :=
  fun _ mq hGrace => absurd hGrace (h mq)

theorem judged_refused {c : Prop} [Decidable c] {code : String} {status : Nat} {message : String}
    {details : List (String × String)} {f : β → Coro α} {p : Coro α}
    (hRefused : c → Judged m t.replica pid
      (.error (.auth code status message details) : Except Exn α) s)
    (h : ¬c → wp watched graceContract pid t p (Judged m t.replica pid) s) :
    wp watched graceContract pid t (if c then raise code status message details >>= f else p)
      (Judged m t.replica pid) s := by
  split
  case isTrue hc => exact hRefused hc
  case isFalse hc => exact h hc

theorem calm_call {f : o.Res → Coro α} (ho : o.unread = true) (hf : ∀ v, Calm (f v)) :
    Calm (ask o >>= f) :=
  confined_call ho hf

theorem calm_raise {code : String} {status : Nat} {message : String}
    {details : List (String × String)} (hCode : code ≠ "QUESTION_CLOSED") :
    Calm (raise code status message details : Coro α) :=
  confined_raise (spares_of_code hCode)

theorem calm_refused {c : Prop} [Decidable c] {code : String} {status : Nat} {message : String}
    {details : List (String × String)} {f : β → Coro α} {p : Coro α} (hCode : code ≠ "QUESTION_CLOSED")
    (h : Calm p) : Calm (if c then raise code status message details >>= f else p) :=
  confined_refused (spares_of_code hCode) h

theorem admitAnswer_judged {participantId mqId : Id} (hNow : (s.2 pid).now = none) :
    wp watched graceContract pid t (admitAnswer m participantId mqId)
      (Judged m t.replica pid) s := by
  unfold admitAnswer
  apply judged_call hNow (by simp)
  rintro w₁ s₂ found hRead₁ n₁ d₁ out₁ hExec₁ hFound
  have hRow := exec_found hExec₁ hFound
  split
  case h_2 => exact judged_unread (by rw [hRead₁]; exact hNow)
  case h_1 mq =>
  apply judged_refused
  case hRefused => exact fun _ => judged_unread (by rw [hRead₁]; exact hNow)
  intro hMatch
  apply judged_call (by rw [hRead₁]; exact hNow) (by simp)
  rintro w₂ s₃ found hRead₂ n₂ d₂ out₂ hExec₂ hFound
  have hStatus := exec_selected hExec₂ hFound
  split
  case h_2 => exact judged_unread (by rw [hRead₂, hRead₁]; exact hNow)
  case h_1 row =>
  apply judged_utcnow
  intro s₄ now hRead₃
  have hGraced : ∀ mq', InGrace m (s₄.2 pid) mq' → mq' = mq ∧ row.status = .running ∧
      mq.startedAt.isSome = true ∧ ∃ deadlineAt, mq.deadlineAt = some deadlineAt ∧
        now ≤ deadlineAt + ofMillis deadlineGraceMs := by
    rintro mq' ⟨hRow', -, hStarted, hStatus', deadlineAt, now', hDeadline, hNow', hIn⟩
    rw [hRead₃, hRead₂, hRead₁] at hRow' hStatus' hNow'
    have hSame : some mq = some mq' := hRow.trans hRow'
    cases hSame
    change (Query.run (w₂.view pid) (.getMatch m)).map Match.status = _ at hStatus'
    rw [← hStatus] at hStatus'
    cases hNow'
    exact ⟨rfl, Option.some.inj hStatus', hStarted, deadlineAt, hDeadline, hIn⟩
  apply judged_refused
  case hRefused =>
    exact fun hRunning => judged_none fun mq' hGrace => hRunning (hGraced mq' hGrace).2.1
  intro _
  apply judged_refused
  case hRefused =>
    intro hClosed _ mq' hGrace
    obtain rfl := (hGraced mq' hGrace).1
    constructor
    · exact fun hAccepts => absurd rfl (hAccepts _ rfl _ _ _)
    · exact fun hNone => by simp [hNone] at hClosed
  intro hOpen
  split
  case h_2 hNever =>
    apply judged_none
    intro mq' hGrace
    obtain ⟨-, -, hStarted, deadlineAt, hDeadline, -⟩ := hGraced mq' hGrace
    obtain ⟨startedAt, hStarted⟩ := Option.isSome_iff_exists.mp hStarted
    exact hNever deadlineAt startedAt (by rw [hDeadline, hStarted])
  case h_1 deadlineAt startedAt hArmed =>
  apply judged_refused
  case hRefused =>
    intro hLate
    apply judged_none
    intro mq' hGrace
    obtain ⟨-, -, -, deadlineAt', hDeadline, hIn⟩ := hGraced mq' hGrace
    obtain rfl : deadlineAt' = deadlineAt := by
      rw [hDeadline] at hArmed
      exact Option.some.inj (congrArg Prod.fst hArmed)
    exact absurd hLate (not_lt.mpr hIn)
  intro _
  have hNone : mq.closedAt = none := by simpa using hOpen
  apply judged_calm
  case hOpen =>
    rintro - mq' hGrace
    obtain rfl := (hGraced mq' hGrace).1
    exact hNone
  apply calm_call rfl
  intro participant
  split
  case h_2 => exact calm_raise (by decide)
  apply calm_refused (by decide)
  exact Confined.pure _

theorem existingSubmission_calm {mqId participantId : Id} {rid : String} :
    Calm (existingSubmission mqId participantId rid) := by
  apply calm_call rfl
  intro found
  split
  · exact Confined.pure _
  apply calm_call rfl
  intro found
  split
  · exact Confined.pure _
  · exact calm_raise (by decide)

theorem insertInSavepoint_calm {row : AnswerSubmission} : Calm (insertInSavepoint row) := by
  apply Confined.handle
  · exact calm_call rfl fun _ => Confined.pure _
  intro e he
  split
  · exact Confined.pure _
  · exact Confined.throw he

theorem submitTx_judged {participantId : Id} {payload : AnswerSubmitRequest} {rid : String}
    (hNow : (s.2 pid).now = none) :
    wp watched graceContract pid t (submitTx m participantId payload rid)
      (Judged m t.replica pid) s := by
  apply judged_bind (admitAnswer_judged hNow)
  rintro ⟨mq, row, now, deadlineAt, startedAt, participant⟩
  apply calm_call rfl
  intro options
  dsimp only
  split
  case h_2 => exact calm_raise (by decide)
  apply calm_call rfl
  intro question
  apply calm_call rfl
  intro room
  apply calm_call rfl
  intro id
  apply Confined.bind insertInSavepoint_calm
  intro inserted
  split
  · apply calm_call rfl
    intro eventId
    exact calm_call rfl fun _ => Confined.pure _
  · exact Confined.bind existingSubmission_calm fun _ => Confined.pure _

theorem top_calm {k : Nat} : Calm (top m k) := by
  apply calm_call rfl
  intro rows
  split
  · exact Confined.pure _
  · exact calm_call rfl fun _ => Confined.pure _

theorem submitHooks_calm {row : AnswerSubmission} {questionId : Id} {nickname : String}
    {roomCode : Option String} : Calm (submitHooks row questionId nickname roomCode) := by
  apply calm_call rfl
  intro _
  apply calm_call rfl
  intro _
  apply calm_call rfl
  intro _
  apply Confined.bind top_calm
  intro top10
  apply calm_call rfl
  intro version
  have hCached : ∀ response, Calm (do
      redis (.idemSet row.requestId response)
      return response) :=
    fun _ => calm_call rfl fun _ => Confined.pure _
  dsimp only
  split
  · exact Confined.bind (confined_broadcast rfl rfl) fun _ => hCached _
  · exact hCached _

theorem submitAnswer_judged {participantId : Id} {payload : AnswerSubmitRequest} {rid : String}
    (hNow : (s.2 pid).now = none) :
    wp watched graceContract pid t (submitAnswer m participantId payload rid)
      (Judged m t.replica pid) s := by
  unfold submitAnswer
  apply judged_refused
  case hRefused => exact fun _ => judged_unread hNow
  intro _
  apply judged_call hNow (by simp)
  rintro w₁ s₂ cached hRead - - - - -
  split
  · exact judged_unread (by rw [hRead]; exact hNow)
  apply judged_bind
  case hf =>
    intro result
    split
    · exact calm_call rfl fun _ => Confined.pure _
    · exact submitHooks_calm
  apply judged_withSession
  apply judged_bind (submitTx_judged (by rw [hRead]; exact hNow))
  exact fun _ => calm_call rfl fun _ => Confined.pure _

theorem jobBody_judged (hNow : (s.2 pid).now = none) :
    wp watched graceContract pid t (jobBody t.job) (graceContract.post pid t) s := by
  cases hJob : t.job with
  | submitAnswer m' participantId payload rid =>
    apply wp_mono (judged_bind (submitAnswer_judged hNow) fun _ => Confined.pure _)
    intro r s' hJudged m p payload' rid' hSame
    rw [hJob] at hSame
    cases hSame
    exact hJudged
  | _ => exact wp_free (fun _ _ => trivial) fun _ _ _ _ _ _ hSame => by cases hJob.symm.trans hSame

theorem graceContract_sound : Sound watched graceContract where
  rely_trans pid s₁ s₂ s₃ h h' := h.trans h'
  rely_refl := Watch.Rely.refl
  post_rely pid t r s s' h hRely := by
    intro m p payload rid hJob hUp mq hGrace
    rw [hRely.reading] at hGrace
    exact h m p payload rid hJob (fun hCrashed => hUp (hRely.crashed _ hCrashed)) mq hGrace
  exec s t pid fresh o d out hInv _ hPid hExec := by
    obtain ⟨hRead, hPhase, -⟩ := watched_exec hExec
    have hFresh : ∀ q, fresh ≤ q → out.shared.2 q = {} := by
      intro q hq
      rw [hRead, reading_of_ne (by omega)]
      exact hInv q hq
    refine ⟨fun q hq => hFresh q (by omega), fun q _ hq => ⟨?_, fun r hr => ?_⟩, fun t' _ => ?_⟩
    · rw [hRead, reading_of_ne hq]
    · rw [hPhase]
      exact hr
    · exact jobBody_judged (by rw [hFresh fresh le_rfl])
  env s fresh e out hInv hEnv := by
    obtain ⟨hRead, hEnv'⟩ := noting_env hEnv
    refine ⟨fun q hq => ?_, fun q _ => ⟨by rw [hRead], fun r hr => env_crashed (n := fresh) hEnv' hr⟩,
      fun t _ => ?_⟩
    · rw [hRead]
      exact hInv q (by omega)
    · exact jobBody_judged (by rw [hRead, hInv fresh le_rfl])

end

/-- A submission in its grace is spared exactly when it found the question open. -/
theorem grace_honoured_iff {seed : Seed} {S : State (World × (Nat → Reading)) Op Op.Res Exn Ret Task}
    {pid : Nat} {t : Task} {m p : Id} {payload : AnswerSubmitRequest} {rid : String}
    {r : Except Exn Ret} {mq : MatchQuestion}
    (h : watched.Reach (fun _ _ => True) ((initial seed).noted fun _ => {}) S)
    (hProc : S.procs[pid]? = some ⟨t, .done r⟩) (hJob : t.job = .submitAnswer m p payload rid)
    (hUp : S.shared.1.phase t.replica ≠ .crashed) (hGrace : InGrace m (S.shared.2 pid) mq) :
    Accepts r ↔ mq.closedAt = none := by
  have hKept : Kept watched graceContract S := graceContract_sound.kept
    ⟨fun _ _ => rfl, fun _ _ hp => by cases hp⟩ h
  exact hKept.post hProc m p payload rid hJob hUp mq hGrace

namespace Demo

def armed : MatchQuestion where
  id := 56
  matchId := 54
  questionId := 100
  position := 1
  startedAt := some 0
  deadlineAt := some 20000000
  closedAt := none

def closed : MatchQuestion := { armed with closedAt := some 20000000 }

theorem armed_inGrace : InGrace 54 ⟨some armed, some .running, some 0⟩ armed :=
  ⟨rfl, rfl, rfl, rfl, 20000000, 0, rfl, rfl, by decide⟩

theorem closed_inGrace : InGrace 54 ⟨some closed, some .running, some 20000000⟩ closed :=
  ⟨rfl, rfl, rfl, rfl, 20000000, 20000000, rfl, rfl, by decide⟩

end Demo

theorem grace_honoured_ann : ∃ S,
    S.procs[4]? = some ⟨⟨0, Demo.annJob⟩, .done (.ok (.response Demo.annResponse))⟩ ∧
    watched.Reach (fun _ _ => True) ((initial Demo.seed).noted fun _ => {}) S ∧
    (Accepts (.ok (.response Demo.annResponse) : Except Exn Ret) ↔ Demo.armed.closedAt = none) := by
  have hRun : (watched.run ((initial Demo.seed).noted fun _ => {}) Demo.annAnswers).any (fun S =>
      outcome ⟨S.shared.1, S.procs⟩ 4 = some (⟨0, Demo.annJob⟩, .ok (.response Demo.annResponse)) ∧
      S.shared.1.phase 0 = .up ∧ S.shared.2 4 = ⟨some Demo.armed, some .running, some 0⟩) = true := by
    decide +kernel
  obtain ⟨S, hReach, hS⟩ := Machine.Reach.exists_of_run hRun
  obtain ⟨hOut, hUp, hRead⟩ := of_decide_eq_true hS
  have hEnded := outcome_spec hOut
  refine ⟨S, hEnded, hReach, grace_honoured_iff hReach hEnded rfl ?_ ?_⟩
  · rw [hUp]
    simp
  · rw [hRead]
    exact Demo.armed_inGrace

/-- The timer closes question 56 at its deadline, before Bob's answer arrives. -/
def Demo.cutShort : List SysLabel :=
  opening ++ calls 3 1 400 ++ [.env (.tick 20000000)] ++ calls 3 15 401 ++
    [.env (.request 0 bobJob)] ++ calls 4 5 500

/-- Bob sits in the room, his option is one of the question's, and his 200 ms have just begun. -/
theorem grace_cut_short : ∃ S, watched.Reach (fun _ _ => True) ((initial Demo.seed).noted fun _ => {}) S ∧
    InGrace 54 (S.shared.2 4) Demo.closed ∧
    ⟨22, 1, "bob", none, false⟩ ∈ S.shared.1.db.participants ∧
    gradeOptions (Query.run S.shared.1.db (.getOptions 100)) [202] = some false ∧
    S.procs[4]? = some ⟨⟨0, Demo.bobJob⟩,
      .done (.error (.auth "QUESTION_CLOSED" 409 "question closed" []))⟩ := by
  have hRun : (watched.run ((initial Demo.seed).noted fun _ => {}) Demo.cutShort).any (fun S =>
      outcome ⟨S.shared.1, S.procs⟩ 4 =
        some (⟨0, Demo.bobJob⟩, .error (.auth "QUESTION_CLOSED" 409 "question closed" [])) ∧
      S.shared.2 4 = ⟨some Demo.closed, some .running, some 20000000⟩ ∧
      ⟨22, 1, "bob", none, false⟩ ∈ S.shared.1.db.participants ∧
      gradeOptions (Query.run S.shared.1.db (.getOptions 100)) [202] = some false) = true := by
    decide +kernel
  obtain ⟨S, hReach, hS⟩ := Machine.Reach.exists_of_run hRun
  obtain ⟨hOut, hRead, hBob, hGrade⟩ := of_decide_eq_true hS
  refine ⟨S, hReach, ?_, hBob, hGrade, outcome_spec hOut⟩
  rw [hRead]
  exact Demo.closed_inGrace

end LiveQuiz
