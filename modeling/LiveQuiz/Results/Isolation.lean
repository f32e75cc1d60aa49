import LiveQuiz.Protocol.Moves
import LiveQuiz.Lib.Lockstep

/-! # Quiz edits during a match

A match stores the ids of its questions only, so every call that arms, scores or
closes one reads the quiz tables again. The match is isolated from the edits that
leave the questions still to be closed as they are.
-/

namespace LiveQuiz

open Coroutine

set_option autoImplicit false

/-- The tables of `db` with the quiz tables of `quiz`. -/
def Db.withQuiz (db quiz : Db) : Db :=
  { db with quizSets := quiz.quizSets, questions := quiz.questions, options := quiz.options }

def World.withQuiz (w : World) (quiz : Db) : World := { w with db := w.db.withQuiz quiz }

def Query.readsQuiz : Query → Bool
  | .getQuestion _ | .getOptions _ | .getQuizSet _ | .questionsOfQuiz _ => true
  | _ => false

section

variable {db quiz : Db} {w : World} {pid : Nat}

theorem Write.apply_withQuiz (wr : Write) :
    wr.apply (db.withQuiz quiz) = (wr.apply db).withQuiz quiz := by
  cases wr <;> rfl

theorem applyAll_withQuiz (ws : List Write) :
    applyAll ws (db.withQuiz quiz) = (applyAll ws db).withQuiz quiz := by
  induction ws generalizing db with
  | nil => rfl
  | cons wr ws ih =>
    change applyAll ws (wr.apply (db.withQuiz quiz)) = _
    rw [Write.apply_withQuiz, ih]
    rfl

theorem Write.collides_withQuiz (wr : Write) :
    wr.collides (db.withQuiz quiz) = wr.collides db := by
  cases wr <;> rfl

theorem violates_withQuiz (ws : List Write) :
    violates ws (db.withQuiz quiz) = violates ws db := by
  induction ws generalizing db with
  | nil => rfl
  | cons wr ws ih => rw [violates, violates, Write.apply_withQuiz, Write.collides_withQuiz, ih]

theorem World.view_withQuiz : (w.withQuiz quiz).view pid = (w.view pid).withQuiz quiz :=
  applyAll_withQuiz _

theorem Query.run_withQuiz {q : Query} (h : q.readsQuiz = false) :
    q.run (db.withQuiz quiz) = q.run db := by
  cases q <;> first | rfl | cases h

theorem Query.run_quiz {q : Query} (h : q.readsQuiz = true) :
    q.run (db.withQuiz quiz) = q.run quiz := by
  cases q <;> first | rfl | cases h

theorem Query.run_view {q : Query} (h : q.readsQuiz = true) : q.run (w.view pid) = q.run w.db := by
  have hView : (w.withQuiz w.db).view pid = (w.view pid).withQuiz w.db := World.view_withQuiz
  change q.run ((w.withQuiz w.db).view pid) = _
  rw [hView, Query.run_quiz h]

theorem LockQuery.find_withQuiz (q : LockQuery) : q.find (db.withQuiz quiz) = q.find db := by
  cases q <;> rfl

theorem World.noteRead_withQuiz (q : Query) :
    (w.withQuiz quiz).noteRead pid q = (w.noteRead pid q).withQuiz quiz := by
  cases q with
  | submissionsOfMatch m =>
    simp only [World.noteRead, World.view_withQuiz, Query.run_withQuiz (q := .submissionsOfMatch m) rfl]
    rfl
  | _ => rfl

theorem World.acquireAll_withQuiz (ws : List Write) :
    (w.withQuiz quiz).acquireAll pid ws = (w.acquireAll pid ws).withQuiz quiz := by
  unfold World.acquireAll
  generalize ws.filterMap Write.target = rs
  induction rs generalizing w with
  | nil => rfl
  | cons r rs ih => exact ih (w := w.acquire r pid)

theorem World.active_withQuiz : (w.withQuiz quiz).active = w.active := rfl

theorem World.commit_withQuiz : (w.withQuiz quiz).commit pid = (w.commit pid).withQuiz quiz :=
  congrArg (fun db => { w.commit pid with db := db }) (applyAll_withQuiz _)

def swapQuiz {o : Op} (quiz : Db) (a : Answer o) : Answer o :=
  { a with shared := a.shared.withQuiz quiz }

theorem perform_withQuiz {t : Task} {n : Nat} {o : Op} {d : Decision}
    (hReply : ∀ q, o = .select q → q.run ((w.withQuiz quiz).view pid) = q.run (w.view pid)) :
    perform (w.withQuiz quiz) t pid n o d = (perform w t pid n o d).map (swapQuiz quiz) := by
  cases o with
  | select q =>
    simp only [perform, World.noteRead_withQuiz, hReply q rfl]
    rfl
  | sleepUntil u =>
    simp only [perform]
    change (if u ≤ w.now then _ else _) = _
    split <;> rfl
  | selectForUpdate q =>
    simp only [perform, lockRow, World.view_withQuiz, LockQuery.find_withQuiz]
    cases q.find (w.view pid) with
    | none => rfl
    | some row =>
      change (if w.free (q.ref row) pid then _ else _) = _
      dsimp only
      split <;> rfl
  | flush ws =>
    simp only [perform, flushWrites, World.view_withQuiz, violates_withQuiz,
      World.acquireAll_withQuiz]
    split
    · rfl
    · change (if w.blocked pid n ws then _ else _) = _
      split <;> rfl
  | commit =>
    simp only [perform, World.commit_withQuiz]
    rfl
  | setActive m j =>
    simp only [perform, World.active_withQuiz]
    cases w.active t.replica m <;> rfl
  | cancelActive m =>
    simp only [perform, World.active_withQuiz]
    cases w.active t.replica m <;> rfl
  | _ => rfl

theorem exec_withQuiz {t : Task} {n : Nat} {o : Op} {d : Decision}
    (hReply : ∀ q, o = .select q → q.run ((w.withQuiz quiz).view pid) = q.run (w.view pid)) :
    exec (w.withQuiz quiz) t pid n o d = (exec w t pid n o d).map (swapQuiz quiz) := by
  have hPerform := perform_withQuiz (t := t) (n := n) (d := d) hReply
  unfold exec
  have hPhase : (w.withQuiz quiz).phase = w.phase := rfl
  rw [hPhase]
  cases w.phase t.replica with
  | off => rfl
  | crashed => rfl
  | up =>
    dsimp only
    change (if o.suspends && w.cancelling pid then _ else _) = _
    rw [hPerform]
    split
    · cases d.fault with
      | lost => cases perform w t pid n o d <;> rfl
      | _ => rfl
    · cases d.fault with
      | none => rfl
      | fail =>
        dsimp only
        split <;> rfl
      | lost =>
        dsimp only
        split
        · cases perform w t pid n o d <;> rfl
        · rfl

theorem env_withQuiz {n : Nat} {e : EnvAction} (he : ∀ edit, e ≠ .edit edit) :
    env (w.withQuiz quiz) n e = (env w n e).map fun out => (out.1.withQuiz quiz, out.2) := by
  cases e with
  | edit edit => exact absurd rfl (he edit)
  | boot r =>
    change (if w.phase r = .off then _ else _) = Option.map _ (if w.phase r = .off then _ else _)
    split <;> rfl
  | request r j =>
    change (if w.phase r = .up ∧ j.isRequest then _ else _) = Option.map _ (env w n (.request r j))
    simp only [env]
    split <;> rfl
  | crash r =>
    change (if w.phase r = .up then _ else _) = Option.map _ (if w.phase r = .up then _ else _)
    split <;> rfl
  | createRoom room =>
    change (if room.status = .lobby ∧ w.db.rooms.all (fun r => r.id ≠ room.id ∧ r.code ≠ room.code)
      then _ else _) = Option.map _ (env w n (.createRoom room))
    simp only [env]
    split <;> rfl
  | join part =>
    change (if w.db.participants.all (·.id ≠ part.id) then _ else _) =
      Option.map _ (env w n (.join part))
    simp only [env]
    split <;> rfl
  | _ => rfl

end

def replaceQuiz (S : SysState) (quiz : Db) : SysState := ⟨S.shared.withQuiz quiz, S.procs⟩

def isEdit : SysLabel → Bool
  | .env (.edit _) => true
  | _ => false

section

variable {S S' : SysState} {l : SysLabel} {quiz : Db}

theorem step_replaceQuiz (hVisible : isEdit l = false)
    (hReply : ∀ (pid : Nat) (d : Decision) (t : Task) (q : Query) k, l = .op pid d →
      S.procs[pid]? = some ⟨t, .call (.select q) k⟩ →
      q.run ((S.shared.withQuiz quiz).view pid) = q.run (S.shared.view pid)) :
    service.step (replaceQuiz S quiz) l = (service.step S l).map (replaceQuiz · quiz) := by
  cases l with
  | op pid d =>
    change S.procs[pid]?.bind (service.advance (replaceQuiz S quiz) pid d) =
      (S.procs[pid]?.bind (service.advance S pid d)).map _
    cases hProc : S.procs[pid]? with
    | none => rfl
    | some pr =>
      obtain ⟨t, prog⟩ := pr
      cases prog with
      | done r => rfl
      | call o k =>
        have hExec : exec (S.shared.withQuiz quiz) t pid S.procs.length o d = _ := exec_withQuiz
          (by rintro q rfl; exact hReply pid d t q k rfl hProc)
        change Option.map _ (exec (S.shared.withQuiz quiz) t pid S.procs.length o d) =
          Option.map _ (Option.map _ (exec S.shared t pid S.procs.length o d))
        rw [hExec, Option.map_map, Option.map_map]
        rfl
  | env e =>
    have hEnv : env (S.shared.withQuiz quiz) S.procs.length e = _ := env_withQuiz (by
      rintro edit rfl
      cases hVisible)
    change Option.map _ (env (S.shared.withQuiz quiz) S.procs.length e) =
      Option.map _ (Option.map _ (env S.shared S.procs.length e))
    rw [hEnv, Option.map_map, Option.map_map]
    rfl

theorem step_quiz (hStep : service.step S l = some S') (hVisible : isEdit l = false) :
    S'.shared.db = S'.shared.db.withQuiz S.shared.db := by
  have hSelf : service.step (replaceQuiz S S.shared.db) l =
      (service.step S l).map (replaceQuiz · S.shared.db) :=
    step_replaceQuiz hVisible fun _ _ _ _ _ _ _ => rfl
  change service.step S l = _ at hSelf
  rw [hStep] at hSelf
  exact congrArg (fun U : SysState => U.shared.db) (Option.some.inj hSelf)

theorem edit_quiz {e : QuizEdit} (hStep : service.step S (.env (.edit e)) = some S') :
    e.apply S.shared.db = some S'.shared.db ∧ S' = replaceQuiz S S'.shared.db := by
  obtain ⟨_, _, _, _, _, _, hl, -⟩ | ⟨e', out, hl, hEnv, rfl⟩ := Machine.step_cases hStep
  · cases hl
  · cases hl
    obtain ⟨db, hEdit, rfl⟩ := Option.map_eq_some_iff.mp hEnv
    refine ⟨hEdit, ?_⟩
    obtain ⟨qs, xs, os, rfl⟩ := QuizEdit.apply_eq hEdit
    simp [replaceQuiz, World.withQuiz, Db.withQuiz]

end

def sameContent (db db' : Db) (i : Id) : Bool :=
  (Query.getQuestion i).run db = (Query.getQuestion i).run db' ∧
    (Query.getOptions i).run db = (Query.getOptions i).run db'

/-- An edit leaves the questions of the match questions not yet closed alone. A
match that is started meanwhile finds its quiz as it was in `db₀`. -/
def keepsContent (db₀ : Db) (S : SysState) : SysLabel → Bool
  | .env (.edit e) => (e.apply S.shared.db).all fun db => S.shared.db.matchQuestions.all fun mq =>
    mq.closedAt.isSome || sameContent S.shared.db db mq.questionId
  | .op pid _ =>
    match S.procs[pid]? with
    | some ⟨_, .call (.select (.getQuizSet i)) _⟩ =>
      (Query.getQuizSet i).run db₀ = (Query.getQuizSet i).run S.shared.db
    | some ⟨_, .call (.select (.questionsOfQuiz i)) _⟩ =>
      (Query.questionsOfQuiz i).run db₀ = (Query.questionsOfQuiz i).run S.shared.db
    | some ⟨_, .call .commit _⟩ => (S.shared.tx pid).writes.all fun
      | .insertMatchQuestion row => sameContent db₀ S.shared.db row.questionId
      | _ => true
    | _ => true
  | _ => true

/-- The questions still to be closed read as they did in `db₀`. -/
def Frozen (db₀ : Db) (S : SysState) : Prop :=
  ∀ mq ∈ S.shared.db.matchQuestions, mq.closedAt = none →
    sameContent db₀ S.shared.db mq.questionId = true

section

variable {db₀ db db' quiz : Db} {S S' : SysState} {l : SysLabel} {i : Id}

theorem sameContent_iff : sameContent db db' i = true ↔
    (Query.getQuestion i).run db = (Query.getQuestion i).run db' ∧
      (Query.getOptions i).run db = (Query.getOptions i).run db' :=
  decide_eq_true_iff

theorem sameContent_trans {db'' : Db} (h : sameContent db db' i = true)
    (h' : sameContent db' db'' i = true) : sameContent db db'' i = true := by
  rw [sameContent_iff] at h h' ⊢
  exact ⟨h.1.trans h'.1, h.2.trans h'.2⟩

theorem sameContent_withQuiz : sameContent db' (db.withQuiz quiz) i = sameContent db' quiz i := rfl

theorem question_unclosed (hS : Held S) (hStep : service.step S l = some S') {q' : MatchQuestion}
    (hq' : q' ∈ S'.shared.db.matchQuestions) (hOpen : q'.closedAt = none) :
    (∃ q ∈ S.shared.db.matchQuestions, q.closedAt = none ∧ q.questionId = q'.questionId) ∨
      ∃ pid t, Commits S l S' pid t ∧ .insertMatchQuestion q' ∈ (S.shared.tx pid).writes := by
  obtain hSame | ⟨pid, t, hC⟩ := step_cases hS hStep
  · rw [hSame.matchQuestions] at hq'
    exact .inl ⟨q', hq', hOpen, rfl⟩
  · rw [hC.db] at hq'
    obtain ⟨q, hq, hMove⟩ | ⟨hIns, -⟩ := hC.shape.question_back hS.inv hq'
    · refine .inl ⟨q, hq, ?_, hMove.later.questionId.symm⟩
      cases hClosed : q.closedAt with
      | none => rfl
      | some c =>
        have := hMove.later.closed (by simp [hClosed])
        simp [hOpen] at this
    · exact .inr ⟨pid, t, hC, hIns⟩

theorem frozen_step (hS : Held S) (h : Frozen db₀ S) (hCond : keepsContent db₀ S l = true)
    (hStep : service.step S l = some S') : Frozen db₀ S' := by
  intro q' hq' hOpen
  cases hEdit : isEdit l with
  | false =>
    rw [step_quiz hStep hEdit, sameContent_withQuiz]
    obtain ⟨q, hq, hOpen', hId⟩ | ⟨pid, t, hC, hIns⟩ := question_unclosed hS hStep hq' hOpen
    · rw [← hId]
      exact h q hq hOpen'
    · obtain ⟨d, rfl⟩ := hC.label
      obtain ⟨k, hProc⟩ := hC.proc
      simp only [keepsContent, hProc, List.all_eq_true] at hCond
      exact hCond _ hIns
  | true =>
    unfold isEdit at hEdit
    split at hEdit
    next e =>
      obtain ⟨hApply, hReplaced⟩ := edit_quiz hStep
      have hq : q' ∈ S.shared.db.matchQuestions := by
        rw [hReplaced] at hq'
        exact hq'
      simp only [keepsContent, hApply, Option.all_some, List.all_eq_true, Bool.or_eq_true] at hCond
      refine sameContent_trans (h q' hq hOpen) ((hCond q' hq).resolve_left ?_)
      simp [hOpen]
    · cases hEdit

theorem select_frozen (hS : Held S) (h : Frozen db₀ S) {pid : Nat} {d : Decision} {t : Task}
    {q : Query} {k : Except Exn (Op.select q).Res → Coro Ret}
    (hCond : keepsContent db₀ S (.op pid d) = true)
    (hProc : S.procs[pid]? = some ⟨t, .call (.select q) k⟩) (hReads : q.readsQuiz = true) :
    q.run S.shared.db = q.run db₀ := by
  have hReq : Req pid t S.shared (.select q) := hS.req sound hProc
  cases q with
  | getQuestion i =>
    obtain ⟨mq, hMq, rfl, hOpen⟩ := hReq
    exact (sameContent_iff.mp (h mq hMq hOpen)).1.symm
  | getOptions i =>
    obtain ⟨mq, hMq, rfl, hOpen⟩ := hReq
    exact (sameContent_iff.mp (h mq hMq hOpen)).2.symm
  | getQuizSet i =>
    simp only [keepsContent, hProc, decide_eq_true_eq] at hCond
    exact hCond.symm
  | questionsOfQuiz i =>
    simp only [keepsContent, hProc, decide_eq_true_eq] at hCond
    exact hCond.symm
  | _ => cases hReads

/-- The states of two runs that differ in edits only. -/
structure Parted (db₀ : Db) (S S' : SysState) : Prop where
  held : Held S
  held' : Held S'
  frozen : Frozen db₀ S
  frozen' : Frozen db₀ S'
  replaced : ∃ quiz, S' = replaceQuiz S quiz

theorem isEdit_iff : isEdit l = true ↔ ∃ e, l = .env (.edit e) := by
  constructor
  · intro h
    unfold isEdit at h
    split at h
    next e => exact ⟨e, rfl⟩
    · cases h
  · rintro ⟨e, rfl⟩
    rfl

theorem parted_lockstep (db₀ : Db) :
    Lockstep service (keepsContent db₀) isEdit (Parted db₀) where
  left h hEdit hCond hStep := by
    obtain ⟨quiz, hReplaced⟩ := h.replaced
    refine ⟨sound.kept_step h.held hStep, h.held', frozen_step h.held h.frozen hCond hStep,
      h.frozen', quiz, ?_⟩
    obtain ⟨e, rfl⟩ := isEdit_iff.mp hEdit
    rw [(edit_quiz hStep).2]
    exact hReplaced
  right {S S' S₁ l} h hEdit hCond hStep := by
    obtain ⟨quiz, rfl⟩ := h.replaced
    refine ⟨h.held, sound.kept_step h.held' hStep, h.frozen,
      frozen_step h.held' h.frozen' hCond hStep, S₁.shared.db, ?_⟩
    obtain ⟨e, rfl⟩ := isEdit_iff.mp hEdit
    exact (edit_quiz hStep).2
  both {S S' S₁ S₁' l} h hVisible hCond hCond' hStep hStep' := by
    obtain ⟨quiz, rfl⟩ := h.replaced
    refine ⟨sound.kept_step h.held hStep, sound.kept_step h.held' hStep',
      frozen_step h.held h.frozen hCond hStep, frozen_step h.held' h.frozen' hCond' hStep', quiz, ?_⟩
    have hBoth : service.step (replaceQuiz S quiz) l =
        (service.step S l).map (replaceQuiz · quiz) := by
      refine step_replaceQuiz hVisible ?_
      rintro pid d t q k rfl hProc
      cases hReads : q.readsQuiz with
      | false => rw [World.view_withQuiz, Query.run_withQuiz hReads]
      | true =>
        rw [Query.run_view hReads, Query.run_view hReads]
        exact (select_frozen h.held' h.frozen' hCond' hProc hReads).trans
          (select_frozen h.held h.frozen hCond hProc hReads).symm
    rw [hStep, hStep'] at hBoth
    exact Option.some.inj hBoth

variable {C : SysState → SysLabel → Prop} {seed : Seed} {S₀ : SysState} {ls ls' : List SysLabel}

/-- Two runs that part in a reachable state and differ in edits only, each of which
leaves the questions still to be closed alone: every payload that is sent, every
event, every stored answer and every reply is the same in both. -/
theorem isolated_from_edits (h₀ : service.Reach C (initial seed) S₀)
    (hRun : service.runWhile (keepsContent S₀.shared.db) S₀ ls = some S)
    (hRun' : service.runWhile (keepsContent S₀.shared.db) S₀ ls' = some S')
    (hSame : ls.filter (!isEdit ·) = ls'.filter (!isEdit ·)) :
    S'.shared.sent = S.shared.sent ∧ S'.shared.db.outbox = S.shared.db.outbox ∧
      S'.shared.db.submissions = S.shared.db.submissions ∧ S'.procs = S.procs := by
  have hS₀ := held_of_reach h₀
  have hFrozen : Frozen S₀.shared.db S₀ := fun _ _ _ => sameContent_iff.mpr ⟨rfl, rfl⟩
  have hStart : Parted S₀.shared.db S₀ S₀ := ⟨hS₀, hS₀, hFrozen, hFrozen, S₀.shared.db, rfl⟩
  obtain ⟨quiz, rfl⟩ := ((parted_lockstep _).run hStart hRun hRun' hSame).replaced
  exact ⟨rfl, rfl, rfl, rfl⟩

end

namespace Demo

/-- Match 54 has been started and its first question is still to be armed. -/
def starting : List SysLabel :=
  [.env (.boot 0)] ++ calls 0 1 0 ++ [.env (.request 0 (.startMatch 7 "AB"))] ++ calls 1 20 50

def annPlays : List SysLabel := calls 2 15 80 ++ [.env (.request 0 annJob)] ++ calls 4 22 300

def retitle : SysLabel := .env (.edit (.updateQuizSet 7 5 { title := some "more sums" }))

def rescore : SysLabel :=
  .env (.edit (.updateQuestion 7 100 { timeLimitSeconds := some 30, points := some 2000 } []))

end Demo

theorem isolated_from_edits_retitled : ∃ S₀ S S' : SysState,
    (∃ m ∈ S₀.shared.db.matches', m.id = 54 ∧ m.status = .running) ∧
    service.runWhile (keepsContent S₀.shared.db) S₀ Demo.annPlays = some S ∧
    service.runWhile (keepsContent S₀.shared.db) S₀ (Demo.retitle :: Demo.annPlays) = some S' ∧
    S.shared.db.submissions.map (·.scoreAwarded) = [1000] ∧ S'.shared.sent = S.shared.sent ∧
    S'.shared.db.submissions = S.shared.db.submissions := by
  have hRun : (service.run (initial Demo.seed) Demo.starting).any (fun S₀ =>
      (∃ m ∈ S₀.shared.db.matches', m.id = 54 ∧ m.status = .running) ∧
      (service.runWhile (keepsContent S₀.shared.db) S₀ Demo.annPlays).any (fun S =>
        S.shared.db.submissions.map (·.scoreAwarded) = [1000]) = true ∧
      (service.runWhile (keepsContent S₀.shared.db) S₀ (Demo.retitle :: Demo.annPlays)).isSome =
        true) = true := by
    decide +kernel
  obtain ⟨S₀, hReach, hS₀⟩ := Machine.Reach.exists_of_run hRun
  obtain ⟨hStarted, hS, hS'⟩ := of_decide_eq_true hS₀
  obtain ⟨S, hLeft, hS⟩ := (Option.any_eq_true _ _).mp hS
  obtain ⟨S', hRight⟩ := Option.isSome_iff_exists.mp hS'
  obtain ⟨hSent, -, hRows, -⟩ := isolated_from_edits hReach hLeft hRight rfl
  exact ⟨S₀, S, S', hStarted, hLeft, hRight, of_decide_eq_true hS, hSent, hRows⟩

/-- The host doubles the points of the first question after the match has started:
its payload has another deadline and Ann's answer another score. -/
theorem edit_reaches_match : ∃ (S₀ S S' : SysState) (ls ls' : List SysLabel),
    service.Reach (fun _ _ => True) (initial Demo.seed) S₀ ∧
    (∃ m ∈ S₀.shared.db.matches', m.id = 54 ∧ m.status = .running) ∧
    service.run S₀ ls = some S ∧ service.run S₀ ls' = some S' ∧
    ls.filter (!isEdit ·) = ls'.filter (!isEdit ·) ∧ S'.shared.sent ≠ S.shared.sent ∧
    S.shared.db.submissions.map (·.scoreAwarded) = [1000] ∧
    S'.shared.db.submissions.map (·.scoreAwarded) = [2000] := by
  have hRun : (service.run (initial Demo.seed) Demo.starting).any (fun S₀ =>
      (∃ m ∈ S₀.shared.db.matches', m.id = 54 ∧ m.status = .running) ∧
      (service.run S₀ Demo.annPlays).any (fun S =>
        S.shared.db.submissions.map (·.scoreAwarded) = [1000] ∧
        (service.run S₀ (Demo.rescore :: Demo.annPlays)).any (fun S' =>
          S'.shared.sent ≠ S.shared.sent ∧
          S'.shared.db.submissions.map (·.scoreAwarded) = [2000]) = true) = true) = true := by
    decide +kernel
  obtain ⟨S₀, hReach, hS₀⟩ := Machine.Reach.exists_of_run hRun
  obtain ⟨hStarted, hS⟩ := of_decide_eq_true hS₀
  obtain ⟨S, hLeft, hS⟩ := (Option.any_eq_true _ _).mp hS
  obtain ⟨hScore, hS'⟩ := of_decide_eq_true hS
  obtain ⟨S', hRight, hS'⟩ := (Option.any_eq_true _ _).mp hS'
  obtain ⟨hSent, hScore'⟩ := of_decide_eq_true hS'
  exact ⟨S₀, S, S', _, _, hReach, hStarted, hLeft, hRight, rfl, hSent, hScore, hScore'⟩

end LiveQuiz
