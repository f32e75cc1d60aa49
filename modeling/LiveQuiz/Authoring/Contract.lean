import LiveQuiz.Authoring.Service
import LiveQuiz.Lib.Triple

/-! # What a request writes

A request writes rows of its own kind only, and commits what it has read up to: the new
version of the quiz is one more than the version it loaded, a published quiz is one whose
loaded questions have no issues, and the statements of an edit come to its payload.
-/

namespace LiveQuiz.Authoring

open Coroutine

set_option autoImplicit false

/-- How far a request is with its invalidation. -/
inductive Phase where
  | idle | due | under
  deriving DecidableEq, Repr

def Sweep.phase : Sweep → Phase
  | .idle => .idle
  | .due => .due
  | .under _ _ => .under

/-- What only the program itself changes. -/
structure Own where
  tx : List Write
  seen : Option Quiz
  loaded : List Question × List AnswerOption
  phase : Phase
  first : First

def World.own (pid : Nat) (w : World) : Own :=
  ⟨w.tx pid, w.seen pid, w.loaded pid, (w.sweep pid).phase, w.first pid⟩

def Own.none : Own := ⟨[], .none, ([], []), .idle, {}⟩

def Sweep.Shrinks : Sweep → Sweep → Prop
  | .idle, .idle | .due, .due => True
  | .under owed returned, .under owed' returned' => owed' ⊆ owed ∧ returned' ⊆ returned
  | _, _ => False

def Job.may : Job → Write → Prop
  | .create _ _ _, .insertQuiz row => row.isPublished = false
  | .create _ _ _, .insertTags _ _ | .create _ _ _, .deleteTags _ _ => True
  | .patch _ i _ _, .updateQuiz j p => j = i ∧ p.isPublished = none
  | .patch _ i _ _, .insertTags j _ | .patch _ i _ _, .deleteTags j _ => j = i
  | .publish _ i _, .updateQuiz j _ => j = i
  | .publish _ _ _, .insertEvent _ => True
  | .hide i, .updateQuiz j p => j = i ∧ p.isPublished ≠ some true
  | .addQuestion _ _ _ _, .insertQuestion _ | .addQuestion _ _ _ _, .insertOptions _ => True
  | .addQuestion _ _ _ _, .setPositions _ _ => True
  | .patchQuestion _ i _ _, .updateQuestion _ j _ | .patchQuestion _ i _ _, .deleteOptions j _ => j = i
  | .patchQuestion _ _ _ _, .insertOptions _ | .patchQuestion _ _ _ _, .setPositions _ _ => True
  | .deleteQuestion _ i _, .deleteQuestion j | .deleteQuestion _ i _, .deleteOptions j _ => j = i
  | .deleteQuestion _ _ _, .setPositions _ _ => True
  | _, _ => False

def versionSet (i : Id) : List Write → Option Nat
  | [] => none
  | .updateQuiz j p :: ws => versionSet i ws <|> (if j = i then p.version else none)
  | _ :: ws => versionSet i ws

def Write.tagsOnly (i : Id) : Write → Prop
  | .insertTags j _ | .deleteTags j _ => j = i
  | _ => False

def Job.bump (job : Job) (v : Nat) : Nat :=
  match job with
  | .hide _ => (if v = 0 then 1 else v) + 1
  | _ => v + 1

/-- The transaction sets the version of the quiz it loaded, one up. -/
def Bumped (job : Job) (i : Id) (x : Own) : Prop :=
  ∃ z, x.seen = some z ∧ z.id = i ∧ versionSet i x.tx = some (job.bump z.version)

def QuestionPatch.over (p p' : QuestionPatch) : QuestionPatch where
  position := p.position <|> p'.position
  body := p.body <|> p'.body
  type := p.type <|> p'.type
  timeLimitSeconds := p.timeLimitSeconds <|> p'.timeLimitSeconds
  points := p.points <|> p'.points
  explanation := p.explanation <|> p'.explanation

/-- What the statements of an edit come to. -/
structure Draft where
  added : List Question := []
  patch : QuestionPatch := {}
  deleted : List Id := []
  options : List Write := []
  shifted : List Id := []

def Draft.step (d : Draft) : Write → Draft
  | .insertQuestion row => { d with added := d.added ++ [row] }
  | .updateQuestion _ _ p => { d with patch := p.over d.patch }
  | .deleteQuestion i => { d with deleted := d.deleted ++ [i] }
  | .insertOptions rows => { d with options := d.options ++ [.insertOptions rows] }
  | .deleteOptions i ids => { d with options := d.options ++ [.deleteOptions i ids] }
  | .setPositions i _ => { d with shifted := d.shifted ++ [i] }
  | _ => d

def draft (ws : List Write) : Draft := ws.foldl Draft.step {}

theorem draft_append (ws : List Write) (wr : Write) : draft (ws ++ [wr]) = (draft ws).step wr := by
  simp [draft]

def Renders (questionId : Id) (options : List OptionCreate) (rows : List AnswerOption) : Prop :=
  rows.map (fun o => (o.questionId, o.isCorrect)) = options.map fun o => (questionId, o.isCorrect)

def AddDone (quizSetId : Id) (payload : QuestionCreate) (d : Draft) : Prop :=
  (∀ i ∈ d.shifted, i = quizSetId) ∧
  ∃ row rows, d.added = [row] ∧ row.quizSetId = quizSetId ∧ row.type = payload.type ∧
    Renders row.id payload.options rows ∧ d.options = rows.map fun o => .insertOptions [o]

def OptionsDone (questionId : Id) (f : First) (options : List Write) : Option (List OptionCreate) → Prop
  | none => options = []
  | some os => ∃ old rows, f.options = some old ∧ Renders questionId os rows ∧
    options = [.deleteOptions questionId (old.map (·.id)), .insertOptions rows]

def PatchDone (questionId : Id) (payload : QuestionUpdate) (f : First) (d : Draft) : Prop :=
  ∃ q, f.question = some q ∧ q.id = questionId ∧ (∀ i ∈ d.shifted, i = q.quizSetId) ∧
    (moves payload q = none → d.shifted = []) ∧ d.added = [] ∧
    d.patch = { questionChanges payload q with position := moves payload q } ∧
    OptionsDone questionId f d.options payload.options

def DeleteDone (questionId : Id) (f : First) (d : Draft) : Prop :=
  d.added = [] ∧ d.deleted = [questionId] ∧
  ∃ q, f.question = some q ∧ q.id = questionId ∧ ∀ i ∈ d.shifted, i = q.quizSetId

def Ready (job : Job) (x : Own) : Prop :=
  (∀ wr ∈ x.tx, job.may wr) ∧
  match job with
  | .list _ _ => True
  | .create _ _ _ => ∃ row rest, x.tx = .insertQuiz row :: rest ∧ ∀ wr ∈ rest, wr.tagsOnly row.id
  | .patch _ i _ _ | .hide i => Bumped job i x
  | .publish _ i _ => Bumped job i x ∧ validatePublish x.loaded.1 x.loaded.2 = []
  | .addQuestion _ i payload _ => AddDone i payload (draft x.tx)
  | .patchQuestion _ i payload _ => PatchDone i payload x.first (draft x.tx)
  | .deleteQuestion _ i _ => DeleteDone i x.first (draft x.tx)

def Job.edits : Job → Prop
  | .addQuestion _ _ _ _ | .patchQuestion _ _ _ _ | .deleteQuestion _ _ _ => True
  | _ => False

def Req (pid : Nat) (job : Job) (w : World) : Op → Prop
  | .flush ws => ∀ wr ∈ ws, job.may wr
  | .shift _ _ _ => job.edits
  | .commit => Ready job (w.own pid)
  | .scan cursor => cursor ≠ 0 → (w.own pid).phase = .under
  | _ => True

def contract : Contract World Op Exn Reply Job where
  inv n w := ∀ q, n ≤ q → w.own q = .none
  rely pid w v := v.own pid = w.own pid ∧ (w.sweep pid).Shrinks (v.sweep pid)
  req := Req
  post _ _ _ _ := True

/-- The calls that leave what a program has read and written as it is. -/
def Op.quiet : Op → Bool
  | .getQuiz _ | .questionsOf _ | .optionsOf _ | .getQuestion _ => false
  | .shift _ _ _ | .flush _ | .commit | .rollback | .scan _ => false
  | _ => true

section

variable {G : Trigram} {w v : World} {job : Job} {pid q : Nat} {o : Op} {d : Decision} {out : Answer o}
  {ws : List Write}

theorem statement_cases {r : Except Exn Unit} (h : statement w pid ws = some (v, r)) :
    (v = w.write pid ws ∧ r = .ok ()) ∨ (v = w ∧ ∃ e, r = .error e) := by
  unfold statement at h
  split at h
  · cases h
  split at h
  · cases h
    exact .inr ⟨rfl, _, rfl⟩
  split at h
  · cases h
    exact .inr ⟨rfl, _, rfl⟩
  split at h
  · cases h
    exact .inl ⟨rfl, rfl⟩
  · cases h
    exact .inr ⟨rfl, _, rfl⟩

theorem perform_flush {out : Answer (.flush ws)} (h : perform G w job pid (.flush ws) d = some out) :
    out.spawned = none ∧ ((out.shared = w.write pid ws ∧ out.result = .ok ()) ∨
      (out.shared = w ∧ ∃ e, out.result = .error e)) := by
  obtain ⟨⟨v, r⟩, hStmt, rfl⟩ := Option.map_eq_some_iff.mp h
  exact ⟨rfl, statement_cases hStmt⟩

theorem perform_shift {ids : List Id} {s : Span} {delta : Int} {out : Answer (.shift ids s delta)}
    (h : perform G w job pid (.shift ids s delta) d = some out) :
    out.spawned = none ∧ ∃ rows, (out.shared = w.write pid [.setPositions s.quizSetId rows] ∧
      out.result = .ok ()) ∨ (out.shared = w ∧ ∃ e, out.result = .error e) := by
  simp only [perform] at h
  split at h
  · cases h
  obtain ⟨⟨v, r⟩, hStmt, rfl⟩ := Option.map_eq_some_iff.mp h
  exact ⟨rfl, _, statement_cases hStmt⟩

theorem scanned_eq {cursor next : Nat} {batch : List Key} (h : scanned w pid cursor next batch = some v) :
    ∃ s, v = { w with sweep := Function.update w.sweep pid s } := by
  obtain ⟨-, hEq⟩ := Option.ite_none_right_eq_some.mp h
  exact ⟨_, (Option.some.inj hEq).symm⟩

theorem perform_db (ho : o ≠ .commit) (h : perform G w job pid o d = some out) :
    out.shared.db = w.db := by
  cases o with
  | flush ws =>
    obtain ⟨-, ⟨hEq, -⟩ | ⟨hEq, -⟩⟩ := perform_flush h
    · rw [hEq]
      rfl
    · rw [hEq]
  | shift ids s delta =>
    obtain ⟨-, rows, ⟨hEq, -⟩ | ⟨hEq, -⟩⟩ := perform_shift h
    · rw [hEq]
      rfl
    · rw [hEq]
  | commit => exact absurd rfl ho
  | scan cursor =>
    obtain ⟨v, hScan, rfl⟩ := Option.map_eq_some_iff.mp h
    obtain ⟨s, rfl⟩ := scanned_eq hScan
    rfl
  | stall => cases h
  | _ =>
    cases h
    rfl

theorem perform_spawned (h : perform G w job pid o d = some out) : out.spawned = none := by
  cases o with
  | flush ws => exact (perform_flush h).1
  | shift ids s delta => exact (perform_shift h).1
  | scan cursor =>
    obtain ⟨v, -, rfl⟩ := Option.map_eq_some_iff.mp h
    rfl
  | stall => cases h
  | _ =>
    cases h
    rfl

theorem Sweep.Shrinks.refl (s : Sweep) : s.Shrinks s := by
  cases s with
  | under owed returned => exact ⟨List.Subset.refl _, List.Subset.refl _⟩
  | _ => trivial

theorem Sweep.Shrinks.trans {s s' s'' : Sweep} (h : s.Shrinks s') (h' : s'.Shrinks s'') : s.Shrinks s'' := by
  cases s <;> cases s' <;> cases s'' <;> try trivial
  exact ⟨List.Subset.trans h'.1 h.1, List.Subset.trans h'.2 h.2⟩

theorem Sweep.shrinks_without (s : Sweep) (ks : List Key) : s.Shrinks (s.without ks) := by
  cases s with
  | under owed returned => exact ⟨List.filter_subset_self _, List.filter_subset_self _⟩
  | _ => trivial

theorem Sweep.phase_without (s : Sweep) (ks : List Key) : (s.without ks).phase = s.phase := by
  cases s <;> rfl

theorem own_remove (w : World) (ks : List Key) (q : Nat) : (w.remove ks).own q = w.own q := by
  simp [World.own, World.remove, Sweep.phase_without]

theorem perform_quiet (ho : o.quiet = true) (h : perform G w job pid o d = some out) (q : Nat) :
    out.shared.own q = w.own q := by
  cases o with
  | getQuiz i => cases ho
  | questionsOf i => cases ho
  | optionsOf is => cases ho
  | getQuestion i => cases ho
  | shift ids s delta => cases ho
  | flush ws => cases ho
  | commit => cases ho
  | rollback => cases ho
  | scan cursor => cases ho
  | unlink ks =>
    cases h
    exact own_remove w ks q
  | stall => cases h
  | _ =>
    cases h
    rfl

theorem own_write_self (w : World) (pid : Nat) (ws : List Write) :
    (w.write pid ws).own pid = { w.own pid with tx := (w.own pid).tx ++ ws } := by
  simp [World.own, World.write]

theorem own_write_of_ne (w : World) {pid q : Nat} (ws : List Write) (h : q ≠ pid) :
    (w.write pid ws).own q = w.own q := by
  simp [World.own, World.write, h]

theorem perform_own_of_ne (h : perform G w job pid o d = some out) (hq : q ≠ pid) :
    out.shared.own q = w.own q := by
  by_cases ho : o.quiet = true
  · exact perform_quiet ho h q
  cases o with
  | flush ws =>
    obtain ⟨-, ⟨hEq, -⟩ | ⟨hEq, -⟩⟩ := perform_flush h
    · rw [hEq]
      exact own_write_of_ne w ws hq
    · rw [hEq]
  | shift ids s delta =>
    obtain ⟨-, rows, ⟨hEq, -⟩ | ⟨hEq, -⟩⟩ := perform_shift h
    · rw [hEq]
      exact own_write_of_ne w _ hq
    · rw [hEq]
  | getQuiz i =>
    cases h
    simp [World.own, hq]
  | questionsOf i =>
    cases h
    simp [World.own, hq]
  | optionsOf is =>
    cases h
    simp [World.own, hq]
  | getQuestion i =>
    cases h
    simp [World.own, hq]
  | commit =>
    cases h
    simp [World.own, World.commit, World.endTx, hq]
  | rollback =>
    cases h
    simp [World.own, World.endTx, hq]
  | scan cursor =>
    obtain ⟨v, hScan, rfl⟩ := Option.map_eq_some_iff.mp h
    obtain ⟨s, rfl⟩ := scanned_eq hScan
    simp [World.own, hq]
  | _ => exact absurd rfl ho

theorem perform_shrinks_of_ne (h : perform G w job pid o d = some out) (hq : q ≠ pid) :
    (w.sweep q).Shrinks (out.shared.sweep q) := by
  have hSame : out.shared.sweep q = w.sweep q → (w.sweep q).Shrinks (out.shared.sweep q) := by
    intro hEq
    rw [hEq]
    exact Sweep.Shrinks.refl _
  cases o with
  | flush ws =>
    apply hSame
    obtain ⟨-, ⟨hEq, -⟩ | ⟨hEq, -⟩⟩ := perform_flush h
    · rw [hEq]
      rfl
    · rw [hEq]
  | shift ids s delta =>
    apply hSame
    obtain ⟨-, rows, ⟨hEq, -⟩ | ⟨hEq, -⟩⟩ := perform_shift h
    · rw [hEq]
      rfl
    · rw [hEq]
  | commit =>
    cases h
    exact hSame (Function.update_of_ne hq _ _)
  | scan cursor =>
    obtain ⟨v, hScan, rfl⟩ := Option.map_eq_some_iff.mp h
    obtain ⟨s, rfl⟩ := scanned_eq hScan
    exact hSame (Function.update_of_ne hq _ _)
  | unlink ks =>
    cases h
    exact Sweep.shrinks_without _ ks
  | stall => cases h
  | _ =>
    cases h
    exact hSame rfl

def Op.sweeps : Op → Bool
  | .commit | .scan _ => true
  | _ => false

theorem perform_phase (ho : o.sweeps = false) (h : perform G w job pid o d = some out) :
    (out.shared.own pid).phase = (w.own pid).phase := by
  by_cases hQuiet : o.quiet = true
  · rw [perform_quiet hQuiet h]
  cases o with
  | flush ws =>
    obtain ⟨-, ⟨hEq, -⟩ | ⟨hEq, -⟩⟩ := perform_flush h
    · rw [hEq]
      rfl
    · rw [hEq]
  | shift ids s delta =>
    obtain ⟨-, rows, ⟨hEq, -⟩ | ⟨hEq, -⟩⟩ := perform_shift h
    · rw [hEq]
      rfl
    · rw [hEq]
  | commit => cases ho
  | scan cursor => cases ho
  | getQuiz i =>
    cases h
    rfl
  | questionsOf i =>
    cases h
    rfl
  | optionsOf is =>
    cases h
    rfl
  | getQuestion i =>
    cases h
    rfl
  | rollback =>
    cases h
    rfl
  | _ => exact absurd rfl hQuiet

theorem exec_rely_of_ne (fresh : Nat) (h : exec G w job pid fresh o d = some out) (hq : q ≠ pid) :
    contract.rely q w out.shared := by
  obtain hEq | ⟨a, ha, -, hEq⟩ := faulty_shared h
  · rw [hEq]
    exact ⟨rfl, Sweep.Shrinks.refl _⟩
  · rw [hEq]
    exact ⟨perform_own_of_ne ha hq, perform_shrinks_of_ne ha hq⟩

theorem exec_spawned (fresh : Nat) (h : exec G w job pid fresh o d = some out) : out.spawned = none :=
  faulty_spawned h fun _ ha => perform_spawned ha

theorem env_db (fresh : Nat) {e : EnvAction} {res : World × Option Job} (h : env w fresh e = some res) :
    res.1.db = w.db := by
  cases e <;> cases h <;> rfl

theorem env_rely (fresh : Nat) {e : EnvAction} {res : World × Option Job} (h : env w fresh e = some res)
    (q : Nat) : contract.rely q w res.1 := by
  cases e with
  | expire k =>
    cases h
    exact ⟨own_remove w [k] q, Sweep.shrinks_without _ [k]⟩
  | _ =>
    cases h
    exact ⟨rfl, Sweep.Shrinks.refl _⟩

end

section

variable {job : Job} {ws : List Write}

theorem applyAll_cons (wr : Write) (ws : List Write) (db : Db) :
    applyAll (wr :: ws) db = applyAll ws (wr.apply db) := rfl

theorem applyAll_questions (hJob : ¬job.edits) (h : ∀ wr ∈ ws, job.may wr) (db : Db) :
    (applyAll ws db).questions = db.questions ∧ (applyAll ws db).options = db.options := by
  induction ws generalizing db with
  | nil => exact ⟨rfl, rfl⟩
  | cons wr ws ih =>
    obtain ⟨hQuestions, hOptions⟩ := ih (fun wr' hwr' => h wr' (List.mem_cons_of_mem _ hwr')) (wr.apply db)
    rw [applyAll_cons, hQuestions, hOptions]
    have hMay := h wr List.mem_cons_self
    cases job <;> first | exact absurd trivial hJob | (cases wr <;> first | exact ⟨rfl, rfl⟩ | cases hMay)

theorem applyAll_quizzes (hJob : job.edits) (h : ∀ wr ∈ ws, job.may wr) (db : Db) :
    (applyAll ws db).quizzes = db.quizzes ∧ (applyAll ws db).tags = db.tags := by
  induction ws generalizing db with
  | nil => exact ⟨rfl, rfl⟩
  | cons wr ws ih =>
    obtain ⟨hQuizzes, hTags⟩ := ih (fun wr' hwr' => h wr' (List.mem_cons_of_mem _ hwr')) (wr.apply db)
    rw [applyAll_cons, hQuizzes, hTags]
    have hMay := h wr List.mem_cons_self
    cases job <;> first | exact hJob.elim | (cases wr <;> first | exact ⟨rfl, rfl⟩ | cases hMay)

end

end LiveQuiz.Authoring
