import LiveQuiz.Authoring.Edits
import LiveQuiz.Authoring.Walk

/-! # The version of a quiz and its content

`update_quiz_set`, `publish_quiz_set` and the moderator's hiding write the version they
have read, one up, so two of them at once leave one version for two contents; the edits of
questions leave the version alone. A run in which neither happens to a quiz never shows
two contents of it under one version.
-/

namespace LiveQuiz.Authoring

open Coroutine

set_option autoImplicit false

variable {G : Trigram}

structure Content where
  title : String
  description : Option String
  visibility : QuizVisibility
  tags : List String
  questions : List Question
  options : List AnswerOption
  deriving DecidableEq, Repr

def Db.content (db : Db) (z : Quiz) : Content where
  title := z.title
  description := z.description
  visibility := z.visibility
  tags := (db.tags.filter (·.1 = z.id)).map (·.2)
  questions := db.questionsOf z.id
  options := db.optionsOf ((db.questionsOf z.id).map (·.id))

def Write.inserted? : Write → Option Id
  | .insertQuiz row => some row.id
  | _ => none

section

variable {db : Db} {ws : List Write} {wr : Write}

theorem ids_updateWhere (i : Id) (p : QuizPatch) (zs : List Quiz) :
    (updateWhere Quiz.id i p.patch zs).map Quiz.id = zs.map Quiz.id := by
  unfold updateWhere
  rw [List.map_map]
  refine List.map_congr_left fun z _ => ?_
  simp only [Function.comp_apply]
  split <;> rfl

theorem ids_applyAll (ws : List Write) (db : Db) : (applyAll ws db).quizzes.map Quiz.id =
    db.quizzes.map Quiz.id ++ ws.filterMap Write.inserted? := by
  refine Transactions.applyAll_appends (g := fun db : Db => db.quizzes.map Quiz.id) fun wr db => ?_
  cases wr with
  | updateQuiz i p => simp [Write.apply, Write.inserted?, ids_updateWhere]
  | _ => simp [Write.apply, Write.inserted?]

theorem quiz_unique (h : (db.quizzes.map Quiz.id).Nodup) {z z' : Quiz} (hz : z ∈ db.quizzes)
    (hz' : z' ∈ db.quizzes) (hId : z.id = z'.id) : z = z' :=
  List.inj_on_of_nodup_map h hz hz' hId

end

/-- An id in use is not inserted again: a pending insert holds it, and it is in no row. -/
structure Keys (w : World) : Prop where
  unique : (w.db.quizzes.map Quiz.id).Nodup
  held : ∀ pid, ∀ row, Write.insertQuiz row ∈ w.tx pid → w.lock (.quiz row.id) = some pid
  fresh : ∀ pid, ∀ row, Write.insertQuiz row ∈ w.tx pid → row.id ∉ w.db.quizzes.map Quiz.id

section

variable {w v : World} {job : Job} {pid : Nat} {o : Op} {d : Decision} {ws : List Write}

theorem Keys.congr (h : Keys w) (hDb : v.db = w.db) (hTx : v.tx = w.tx) (hLock : v.lock = w.lock) :
    Keys v := by
  constructor
  · rw [hDb]
    exact h.unique
  · rw [hTx, hLock]
    exact h.held
  · rw [hTx, hDb]
    exact h.fresh

theorem mem_inserted {row : Quiz} (h : Write.insertQuiz row ∈ ws) :
    row.id ∈ ws.filterMap Write.inserted? := List.mem_filterMap.mpr ⟨_, h, rfl⟩

theorem Keys.write (h : Keys w) (hFree : ∀ wr ∈ ws, ∀ row ∈ wr.rows, w.heldByOther pid row = false)
    (hUnique : (applyAll ws (w.view pid)).unique = true) : Keys (w.write pid ws) := by
  have hNodup : ((applyAll ws (w.view pid)).quizzes.map Quiz.id).Nodup := by
    simp only [Db.unique, Bool.and_eq_true, decide_eq_true_eq] at hUnique
    exact hUnique.1.1.1.1.1.1
  rw [ids_applyAll, World.view, ids_applyAll, List.append_assoc, List.nodup_append] at hNodup
  have hTx : ∀ q row, Write.insertQuiz row ∈ (w.write pid ws).tx q →
      Write.insertQuiz row ∈ w.tx q ∨ (q = pid ∧ Write.insertQuiz row ∈ ws) := by
    intro q row hRow
    by_cases hq : q = pid
    · subst hq
      simp only [World.write, Transactions.Book.append_tx, Transactions.Book.take_tx, Function.update_self] at hRow
      obtain hRow | hRow := List.mem_append.mp hRow
      · exact .inl hRow
      · exact .inr ⟨rfl, hRow⟩
    · simp only [World.write, Transactions.Book.append_tx, Transactions.Book.take_tx,
        Function.update_of_ne hq] at hRow
      exact .inl hRow
  constructor
  · exact h.unique
  · intro q row hRow
    change (w.take pid fun row => ws.any (row ∈ ·.rows)).lock (.quiz row.id) = some q
    rw [Transactions.Book.take_lock]
    obtain hOld | ⟨rfl, hNew⟩ := hTx q row hRow
    · have hLock := h.held q row hOld
      split
      next hAny =>
        obtain ⟨wr, hwr, hMem⟩ := List.any_eq_true.mp hAny
        have hOther := hFree wr hwr _ (of_decide_eq_true hMem)
        rw [Transactions.Book.heldByOther_eq_false.mp hOther q hLock]
      · exact hLock
    · rw [if_pos (List.any_eq_true.mpr ⟨_, hNew, by simp [Write.rows]⟩)]
  · intro q row hRow hId
    obtain hOld | ⟨rfl, hNew⟩ := hTx q row hRow
    · exact h.fresh q row hOld hId
    · exact hNodup.2.2 _ hId _ (List.mem_append_right _ (mem_inserted hNew)) rfl

theorem inserted_ready (h : Ready job (w.own pid)) :
    (w.tx pid).filterMap Write.inserted? = [] ∨
    ∃ row, Write.insertQuiz row ∈ w.tx pid ∧ (w.tx pid).filterMap Write.inserted? = [row.id] := by
  obtain ⟨hMay, hJob⟩ := h
  change ∀ wr ∈ w.tx pid, job.may wr at hMay
  have hNone : (∀ row, ¬job.may (.insertQuiz row)) → (w.tx pid).filterMap Write.inserted? = [] := by
    intro hNot
    refine List.filterMap_eq_nil_iff.mpr fun wr hwr => ?_
    cases wr with
    | insertQuiz row => exact absurd (hMay _ hwr) (hNot row)
    | _ => rfl
  cases job with
  | create owner payload scans =>
    obtain ⟨row, rest, hTx, hRest⟩ := hJob
    change w.tx pid = _ at hTx
    refine .inr ⟨row, hTx ▸ List.mem_cons_self, ?_⟩
    have hEmpty : rest.filterMap Write.inserted? = [] := by
      refine List.filterMap_eq_nil_iff.mpr fun wr hwr => ?_
      have hTag := hRest wr hwr
      cases wr <;> first | rfl | exact hTag.elim
    rw [hTx, List.filterMap_cons, hEmpty]
    rfl
  | _ => exact .inl (hNone fun row h => h)

theorem endTx_inserted {q : Nat} {row : Quiz} (h : Write.insertQuiz row ∈ (w.endTx pid).tx q) :
    q ≠ pid ∧ Write.insertQuiz row ∈ w.tx q := by
  change Write.insertQuiz row ∈ Function.update w.tx pid [] q at h
  by_cases hq : q = pid
  · subst hq
    rw [Function.update_self] at h
    cases h
  · rw [Function.update_of_ne hq] at h
    exact ⟨hq, h⟩

theorem Keys.endTx_held {q : Nat} {row : Quiz} (h : Keys w)
    (hRow : Write.insertQuiz row ∈ (w.endTx pid).tx q) : (w.endTx pid).lock (.quiz row.id) = some q := by
  obtain ⟨hq, hOld⟩ := endTx_inserted hRow
  exact Transactions.Book.endTx_lock.mpr ⟨h.held q row hOld, hq⟩

theorem Keys.commit (h : Keys w) (hReady : Ready job (w.own pid)) : Keys (w.commit job pid) := by
  have hIds : (w.commit job pid).db.quizzes.map Quiz.id =
      w.db.quizzes.map Quiz.id ++ (w.tx pid).filterMap Write.inserted? := ids_applyAll _ _
  constructor
  · rw [hIds]
    obtain hNone | ⟨row, hRow, hOne⟩ := inserted_ready hReady
    · rw [hNone, List.append_nil]
      exact h.unique
    · rw [hOne, List.nodup_append]
      refine ⟨h.unique, List.nodup_singleton _, fun i hi j hj => ?_⟩
      rw [List.mem_singleton.mp hj]
      rintro rfl
      exact h.fresh pid row hRow hi
  · exact fun q row hRow => h.endTx_held hRow
  · intro q row hRow hId
    obtain ⟨hq, hOld⟩ := endTx_inserted hRow
    rw [hIds] at hId
    obtain hId | hId := List.mem_append.mp hId
    · exact h.fresh q row hOld hId
    · obtain hNone | ⟨row', hRow', hOne⟩ := inserted_ready hReady
      · rw [hNone] at hId
        cases hId
      · rw [hOne, List.mem_singleton] at hId
        have hLock := h.held q row hOld
        rw [hId, h.held pid row' hRow'] at hLock
        exact hq (Option.some.inj hLock).symm

theorem Keys.rollback (h : Keys w) : Keys (w.endTx pid) :=
  ⟨h.unique, fun _ _ hRow => h.endTx_held hRow, fun q row hRow => h.fresh q row (endTx_inserted hRow).2⟩

theorem statement_keys {r : Except Exn Unit} (h : Keys w) (hStmt : statement w pid ws = some (v, r)) :
    Keys v := by
  unfold statement at hStmt
  split at hStmt
  · cases hStmt
  next hFree =>
    split at hStmt
    · cases hStmt
      exact h
    split at hStmt
    · cases hStmt
      exact h
    split at hStmt
    next hUnique =>
      cases hStmt
      refine h.write (fun wr hwr row hRow => ?_) hUnique
      by_contra hHeld
      exact hFree (List.any_eq_true.mpr ⟨wr, hwr, List.any_eq_true.mpr ⟨row, hRow, by simpa using hHeld⟩⟩)
    · cases hStmt
      exact h

theorem perform_keys {out : Answer o} (h : Keys w) (hReq : Req pid job w o)
    (hOk : perform G w job pid o d = some out) : Keys out.shared := by
  cases o with
  | flush ws =>
    obtain ⟨⟨v, r⟩, hStmt, rfl⟩ := Option.map_eq_some_iff.mp hOk
    exact statement_keys h hStmt
  | shift ids s delta =>
    simp only [perform] at hOk
    split at hOk
    · cases hOk
    obtain ⟨⟨v, r⟩, hStmt, rfl⟩ := Option.map_eq_some_iff.mp hOk
    exact statement_keys h hStmt
  | commit =>
    cases hOk
    exact h.commit hReq
  | rollback =>
    cases hOk
    exact h.rollback
  | scan cursor =>
    obtain ⟨v, hScan, rfl⟩ := Option.map_eq_some_iff.mp hOk
    obtain ⟨s, rfl⟩ := scanned_eq hScan
    exact h.congr rfl rfl rfl
  | stall => cases hOk
  | _ =>
    cases hOk
    exact h.congr rfl rfl rfl

theorem keys_of_reach {C : SysState → SysLabel → Prop} {S : SysState}
    (h : (authoring G).Reach C initial S) : Keys S.shared := by
  induction h with
  | refl =>
    constructor
    · exact List.nodup_nil
    · intro pid row hRow
      cases hRow
    · intro pid row hRow
      cases hRow
  | @tail S₁ _ _ hReach _ hStep ih =>
    have hKept := kept_of_reach hReach
    obtain ⟨pid, d, t, o, k, out, rfl, hProc, hExec, rfl⟩ | ⟨e, res, rfl, hEnv, rfl⟩ :=
      Machine.step_cases hStep
    · obtain hEq | ⟨a, ha, -, hEq⟩ := faulty_shared hExec
      · rw [hEq]
        exact ih
      · rw [hEq]
        exact perform_keys ih (hKept.req (sound G) hProc) ha
    · cases e <;> cases hEnv <;> exact ih.congr rfl rfl rfl

end

section

variable {db : Db} {ws : List Write} {z : Quiz} {i : Id}

theorem version_apply (wr : Write) (hz : z ∈ db.quizzes) : ∃ z' ∈ (wr.apply db).quizzes,
    z'.id = z.id ∧ z'.version = (versionSet z.id [wr]).getD z.version := by
  cases wr with
  | insertQuiz row => exact ⟨z, List.mem_append_left _ hz, rfl, rfl⟩
  | updateQuiz j p =>
    refine ⟨_, List.mem_map_of_mem hz, ?_⟩
    by_cases hj : z.id = j
    · rw [if_pos hj]
      refine ⟨rfl, ?_⟩
      simp [versionSet, hj, QuizPatch.patch]
    · rw [if_neg hj]
      refine ⟨rfl, ?_⟩
      simp [versionSet, Ne.symm hj]
  | _ => exact ⟨z, hz, rfl, rfl⟩

theorem version_applyAll (ws : List Write) (hz : z ∈ db.quizzes) : ∃ z' ∈ (applyAll ws db).quizzes,
    z'.id = z.id ∧ z'.version = (versionSet z.id ws).getD z.version := by
  induction ws generalizing db z with
  | nil => exact ⟨z, hz, rfl, rfl⟩
  | cons wr ws ih =>
    obtain ⟨z₁, hz₁, hId₁, hVersion₁⟩ := version_apply wr hz
    obtain ⟨z₂, hz₂, hId₂, hVersion₂⟩ := ih hz₁
    refine ⟨z₂, hz₂, hId₂.trans hId₁, ?_⟩
    have hSplit : versionSet z.id (wr :: ws) = (versionSet z.id ws <|> versionSet z.id [wr]) :=
      versionSet_append z.id [wr] ws
    rw [hVersion₂, hId₁, hVersion₁, hSplit]
    cases versionSet z.id ws <;> rfl

def Write.about (i : Id) : Write → Prop
  | .insertQuiz row => row.id = i
  | .updateQuiz j _ | .insertTags j _ | .deleteTags j _ => j = i
  | .insertEvent _ => True
  | _ => False

theorem content_congr {db' : Db} (hQuestions : db'.questions = db.questions)
    (hOptions : db'.options = db.options)
    (hTags : db'.tags.filter (·.1 = z.id) = db.tags.filter (·.1 = z.id)) :
    db'.content z = db.content z := by
  unfold Db.content Db.questionsOf Db.optionsOf
  rw [hQuestions, hOptions, hTags]

theorem other_apply {wr : Write} (h : wr.about i) (hi : z.id ≠ i) (hz : z ∈ db.quizzes) :
    z ∈ (wr.apply db).quizzes ∧ (wr.apply db).content z = db.content z := by
  cases wr with
  | insertQuiz row => exact ⟨List.mem_append_left _ hz, rfl⟩
  | updateQuiz j p =>
    obtain rfl : j = i := h
    refine ⟨List.mem_map.mpr ⟨z, hz, if_neg hi⟩, rfl⟩
  | insertTags j names =>
    obtain rfl : j = i := h
    refine ⟨hz, content_congr rfl rfl ?_⟩
    simp [Write.apply, List.filter_append, List.filter_map, Function.comp_def, Ne.symm hi]
  | deleteTags j names =>
    obtain rfl : j = i := h
    refine ⟨hz, content_congr rfl rfl ?_⟩
    change (db.tags.filter _).filter _ = _
    rw [List.filter_filter]
    refine List.filter_congr fun t _ => ?_
    by_cases ht : t.1 = z.id
    · simp [ht, hi]
    · simp [ht]
  | insertEvent row => exact ⟨hz, rfl⟩
  | _ => exact h.elim

theorem other_applyAll (h : ∀ wr ∈ ws, wr.about i) (hi : z.id ≠ i) (hz : z ∈ db.quizzes) :
    z ∈ (applyAll ws db).quizzes ∧ (applyAll ws db).content z = db.content z := by
  refine Transactions.applyAll_keeps
    (P := fun u : Db => z ∈ u.quizzes ∧ u.content z = db.content z) (fun wr hwr u hu => ?_) ⟨hz, rfl⟩
  obtain ⟨hz₁, hContent₁⟩ := hu
  obtain ⟨hz₂, hContent₂⟩ := other_apply (h wr hwr) hi hz₁
  exact ⟨hz₂, hContent₂.trans hContent₁⟩

end

/-- Of a quiz, the version its row has is the one the program has read. -/
def stillCurrent (w : World) (pid i : Nat) : Bool :=
  w.db.quizzes.all fun z => z.id ≠ i || (w.seen pid).all (·.version = z.version)

def agrees (u : QuestionUpdate) (q : Question) : Bool :=
  u.body.all (· = q.body) && u.type.all (· = q.type) && u.timeLimitSeconds.all (· = q.timeLimitSeconds) &&
  u.points.all (· = q.points) && u.explanation.all (some · = q.explanation)

/-- The payload leaves the question as it is stored, and its options. -/
def changesNothing (i : Id) (w : World) (pid questionId : Nat) (payload : QuestionUpdate) : Bool :=
  (w.db.questionsOf i).all (fun q => q.id ≠ questionId || agrees payload q) &&
  (w.first pid).question.all (fun q => moves payload q = none) &&
  payload.options.all fun os => os = [] ∧ w.db.options.all (·.questionId ≠ questionId)

def commitVersioned (i : Id) (w : World) (pid : Nat) : Job → Bool
  | .addQuestion _ j _ _ => j ≠ i && (draft (w.tx pid)).added.all (unusedId w.db)
  | .patchQuestion _ j payload _ => elsewhere i w.db (w.first pid) j || changesNothing i w pid j payload
  | .deleteQuestion _ j _ => elsewhere i w.db (w.first pid) j
  | .patch _ _ _ _ | .publish _ _ _ | .hide _ => (w.seen pid).all (·.id ≠ i) || stillCurrent w pid i
  | _ => true

/-- For one quiz: an edit of questions that commits is of another quiz, or asks for what is
there, and what sets the version commits on the version it has read. -/
def versioned (i : Id) (S : SysState) : SysLabel → Bool
  | .op pid d =>
    match S.procs[pid]? with
    | some ⟨job, .call .commit _⟩ => d.fault = .fail || commitVersioned i S.shared pid job
    | _ => true
  | .env _ => true

/-- The quiz is there, with the same content or a greater version. -/
def Onward (i : Id) (db db' : Db) : Prop :=
  ∀ z ∈ db.quizzes, z.id = i → ∃ z' ∈ db'.quizzes, z'.id = i ∧ z.version ≤ z'.version ∧
    (z'.version = z.version → db'.content z' = db.content z)

theorem Onward.refl (i : Id) (db : Db) : Onward i db db :=
  fun z hz hi => ⟨z, hz, hi, le_rfl, fun _ => rfl⟩

theorem Onward.trans {i : Id} {db db' db'' : Db} (h : Onward i db db') (h' : Onward i db' db'') :
    Onward i db db'' := by
  intro z hz hi
  obtain ⟨z₁, hz₁, hi₁, hLe₁, hSame₁⟩ := h z hz hi
  obtain ⟨z₂, hz₂, hi₂, hLe₂, hSame₂⟩ := h' z₁ hz₁ hi₁
  refine ⟨z₂, hz₂, hi₂, hLe₁.trans hLe₂, fun hEq => ?_⟩
  have hEq₂ : z₂.version = z₁.version := by omega
  have hEq₁ : z₁.version = z.version := by omega
  exact (hSame₂ hEq₂).trans (hSame₁ hEq₁)

section

variable {w : World} {pid i : Nat} {job : Job}

theorem bump_gt (job : Job) (v : Nat) : v < job.bump v := by
  cases job with
  | hide j =>
    simp only [Job.bump]
    split <;> omega
  | _ => exact Nat.lt_succ_self v

theorem onward_about {j : Id} (h : ∀ wr ∈ w.tx pid, wr.about j) (hij : i ≠ j) :
    Onward i w.db (w.view pid) := by
  intro z hz hi
  obtain ⟨hz', hContent⟩ := other_applyAll h (hi ▸ hij) hz
  exact ⟨z, hz', hi, le_rfl, fun _ => hContent⟩

theorem onward_bumped {j : Id} (hBumped : Bumped job j (w.own pid)) (hAbout : ∀ wr ∈ w.tx pid, wr.about j)
    (hCond : ((w.seen pid).all (·.id ≠ i) || stillCurrent w pid i) = true) :
    Onward i w.db (w.view pid) := by
  obtain ⟨y, hSeen, hId, hSet⟩ := hBumped
  change w.seen pid = some y at hSeen
  change versionSet j (w.tx pid) = _ at hSet
  by_cases hij : i = j
  swap
  · exact onward_about hAbout hij
  subst hij
  intro z hz hi
  obtain ⟨z', hz', hId', hVersion⟩ := version_applyAll (w.tx pid) hz
  rw [hi, hSet, Option.getD_some] at hVersion
  have hCurrent : y.version = z.version := by
    rw [hSeen] at hCond
    simp only [Option.all_some, hId, ne_eq, not_true_eq_false, decide_false, Bool.false_or] at hCond
    have hz := List.all_eq_true.mp hCond z hz
    rw [hSeen] at hz
    simpa [hi] using hz
  have hGt := bump_gt job y.version
  refine ⟨z', hz', hId'.trans hi, by omega, fun hEq => ?_⟩
  omega

theorem onward_edit (hMay : ∀ wr ∈ w.tx pid, job.may wr) (hEdits : job.edits)
    (hQuestions : (w.view pid).questionsOf i = w.db.questionsOf i)
    (hOptions : (w.view pid).optionsOf ((w.db.questionsOf i).map (·.id)) =
      w.db.optionsOf ((w.db.questionsOf i).map (·.id))) : Onward i w.db (w.view pid) := by
  obtain ⟨hQuizzes, hTags⟩ := applyAll_quizzes hEdits hMay w.db
  intro z hz hi
  subst hi
  refine ⟨z, ?_, rfl, le_rfl, fun _ => ?_⟩
  · change z ∈ (applyAll _ _).quizzes
    rw [hQuizzes]
    exact hz
  · unfold Db.content
    rw [hQuestions, hOptions, show (w.view pid).tags = w.db.tags from hTags]

theorem getD_filter_of_all {α : Type} [DecidableEq α] {o : Option α} {a : α} (p : α → Bool)
    (h : o.all (· = a) = true) : (o.filter p).getD a = a := by
  cases o with
  | none => rfl
  | some b =>
    obtain rfl : b = a := of_decide_eq_true h
    cases hp : p b <;> simp [Option.filter, hp]

theorem patch_of_agrees {u : QuestionUpdate} {q read : Question} (h : agrees u q = true)
    (hMoves : moves u read = none) :
    { questionChanges u read with position := moves u read }.patch q = q := by
  simp only [agrees, Bool.and_eq_true] at h
  obtain ⟨⟨⟨⟨hBody, hType⟩, hLimit⟩, hPoints⟩, hExplanation⟩ := h
  have hText : (u.explanation.filter (some · ≠ read.explanation) <|> q.explanation) = q.explanation := by
    cases hu : u.explanation with
    | none => rfl
    | some e =>
      rw [hu] at hExplanation
      have hEq : some e = q.explanation := of_decide_eq_true hExplanation
      rw [← hEq]
      by_cases hRead : some e = read.explanation <;> simp [Option.filter, hRead]
  unfold QuestionPatch.patch questionChanges
  rw [hMoves]
  simp only [getD_filter_of_all _ hBody, getD_filter_of_all _ hType, getD_filter_of_all _ hLimit,
    getD_filter_of_all _ hPoints, hText, Option.getD_none]

theorem part_of_nothing {owner j : Id} {payload : QuestionUpdate} {scans : Nat}
    (hMay : ∀ wr ∈ w.tx pid, (Job.patchQuestion owner j payload scans).may wr)
    (hDone : PatchDone j payload (w.first pid) (draft (w.tx pid)))
    (hNothing : changesNothing i w pid j payload = true) :
    (w.view pid).questionsOf i = w.db.questionsOf i ∧ (w.view pid).options = w.db.options := by
  obtain ⟨read, hRead, -, -, hStill, -, hPatch, hOptions⟩ := hDone
  obtain ⟨hFields, hReplaced⟩ := Bool.and_eq_true_iff.mp hNothing
  obtain ⟨hAgrees, hMoves⟩ := Bool.and_eq_true_iff.mp hFields
  rw [hRead] at hMoves
  have hMove : moves payload read = none := of_decide_eq_true hMoves
  constructor
  · refine questionsOf_map (fun q => ?_) (fun q hq => ?_) (questions_unmoved hMay (hStill hMove))
    · split <;> rfl
    · split
      next hId =>
        have hq' := List.all_eq_true.mp hAgrees q hq
        rw [hPatch]
        refine patch_of_agrees ?_ hMove
        simpa [hId] using hq'
      · rfl
  · rw [World.view, options_applyAll]
    cases hPayload : payload.options with
    | none =>
      rw [hPayload] at hOptions
      rw [show (draft (w.tx pid)).options = [] from hOptions]
      rfl
    | some os =>
      rw [hPayload] at hOptions hReplaced
      obtain ⟨rfl, hNone⟩ := of_decide_eq_true hReplaced
      obtain ⟨old, rows, -, hRows, hDraft⟩ := hOptions
      obtain rfl : rows = [] := List.map_eq_nil_iff.mp hRows
      rw [hDraft]
      simp only [applyAll, Transactions.applyAll_cons, Transactions.applyAll_nil, Write.apply, List.append_nil]
      refine List.filter_eq_self.mpr fun o ho => decide_eq_true fun hGone => ?_
      exact of_decide_eq_true (List.all_eq_true.mp hNone o ho) hGone.1

theorem onward_commit (hKeys : Keys w) (hReady : Ready job (w.own pid))
    (hCond : commitVersioned i w pid job = true) : Onward i w.db (w.view pid) := by
  obtain ⟨hMay, hJob⟩ := hReady
  change ∀ wr ∈ w.tx pid, job.may wr at hMay
  cases job with
  | list viewer f =>
    exact onward_about (fun wr hwr => (hMay wr hwr).elim) (Nat.ne_of_lt (Nat.lt_succ_self i))
  | create owner payload scans =>
    obtain ⟨row, rest, hTx, hRest⟩ := hJob
    change w.tx pid = _ at hTx
    by_cases hij : i = row.id
    · intro z hz hi
      have hMem : Write.insertQuiz row ∈ w.tx pid := hTx ▸ List.mem_cons_self
      refine absurd ?_ (hKeys.fresh pid row hMem)
      rw [← hij, ← hi]
      exact List.mem_map_of_mem hz
    · refine onward_about (j := row.id) (fun wr hwr => ?_) hij
      rw [hTx] at hwr
      obtain rfl | hwr := List.mem_cons.mp hwr
      · rfl
      · have hTag := hRest wr hwr
        cases wr <;> first | exact hTag | exact hTag.elim
  | patch owner j payload scans =>
    refine onward_bumped hJob (fun wr hwr => ?_) hCond
    have hWr := hMay wr hwr
    cases wr <;> first | exact hWr | exact hWr.1 | exact hWr.elim
  | publish owner j scans =>
    refine onward_bumped hJob.1 (fun wr hwr => ?_) hCond
    have hWr := hMay wr hwr
    cases wr <;> first | exact hWr | exact hWr.elim
  | hide j =>
    refine onward_bumped hJob (fun wr hwr => ?_) hCond
    have hWr := hMay wr hwr
    cases wr <;> first | exact hWr.1 | exact hWr.elim
  | addQuestion owner j payload scans =>
    obtain ⟨hj, hUnused⟩ := Bool.and_eq_true_iff.mp hCond
    have hPart := part_of_avoids (avoids_added hMay hJob hUnused (of_decide_eq_true hj))
    exact onward_edit hMay trivial hPart.1 hPart.2
  | patchQuestion owner j payload scans =>
    obtain hElse | hNothing := Bool.or_eq_true_iff.mp hCond
    · have hOptionsOf := PatchDone.optionsOf hJob hMay
      obtain ⟨q, hRead, -, hShifted, -, hAdded, -⟩ := hJob
      have hPart := part_of_avoids
        (avoids_of_elsewhere hElse hRead hShifted hOptionsOf (fun wr hwr k hk => ?_) hAdded)
      · exact onward_edit hMay trivial hPart.1 hPart.2
      · obtain rfl | ⟨s, p, rfl⟩ := hk
        · exact (hMay _ hwr).elim
        · exact hMay _ hwr
    · obtain ⟨hQuestions, hOptions⟩ := part_of_nothing hMay hJob hNothing
      exact onward_edit hMay trivial hQuestions (by rw [Db.optionsOf, hOptions]; rfl)
  | deleteQuestion owner j scans =>
    obtain ⟨hAdded, -, q, hRead, -, hShifted⟩ := hJob
    have hPart := part_of_avoids (avoids_of_elsewhere hCond hRead hShifted (optionsOf_delete hMay)
      (fun wr hwr k hk => ?_) hAdded)
    · exact onward_edit hMay trivial hPart.1 hPart.2
    · obtain rfl | ⟨s, p, rfl⟩ := hk
      · exact hMay _ hwr
      · exact (hMay _ hwr).elim

theorem onward_reach {C : SysState → SysLabel → Prop} {S S' : SysState} (h : (authoring G).Reach C initial S)
    (h' : (authoring G).Reach (fun S l => versioned i S l = true) S S') :
    Onward i S.shared.db S'.shared.db := by
  induction h' with
  | refl => exact Onward.refl i _
  | @tail S₁ _ _ hReach hCond hStep ih =>
    have hAll : (authoring G).Reach (fun _ _ => True) initial S₁ :=
      (h.mono fun _ _ _ => trivial).trans (hReach.mono fun _ _ _ => trivial)
    have hKept := kept_of_reach hAll
    refine ih.trans ?_
    obtain ⟨pid, d, t, o, k, out, rfl, hProc, hExec, rfl⟩ | ⟨e, res, rfl, hEnv, rfl⟩ :=
      Machine.step_cases hStep
    · obtain hEq | ⟨a, ha, hEffect, hEq⟩ := faulty_shared hExec
      · rw [hEq]
        exact Onward.refl i _
      · rw [hEq]
        by_cases ho : o = .commit
        · subst ho
          cases ha
          simp only [versioned, hProc, Bool.or_eq_true, decide_eq_true_eq] at hCond
          exact onward_commit (keys_of_reach hAll) (hKept.req (sound G) hProc) (hCond.resolve_left hEffect)
        · rw [perform_db ho ha]
          exact Onward.refl i _
    · rw [env_db S₁.procs.length hEnv]
      exact Onward.refl i _

end

/-- Two states of a run show one content of a quiz under one version. -/
theorem version_identifies_content {S S' : SysState} (h : (authoring G).Reach (fun _ _ => True) initial S)
    {i : Id} (h' : (authoring G).Reach (fun S l => versioned i S l = true) S S') {z z' : Quiz}
    (hz : z ∈ S.shared.db.quizzes) (hz' : z' ∈ S'.shared.db.quizzes) (hi : z.id = i) (hi' : z'.id = i)
    (hVersion : z.version = z'.version) : S.shared.db.content z = S'.shared.db.content z' := by
  obtain ⟨y, hy, hId, -, hSame⟩ := onward_reach h h' z hz hi
  have hAll : (authoring G).Reach (fun _ _ => True) initial S' := h.trans (h'.mono fun _ _ _ => trivial)
  obtain rfl := quiz_unique (keys_of_reach hAll).unique hy hz' (hId.trans hi'.symm)
  exact (hSame hVersion.symm).symm

namespace Demo

def drafted : List SysLabel :=
  request (.create 1 ⟨"sums", none, .pub, []⟩ 1) :: calls 0 [10, 0, 0, 0, 0]

def firstQuestion : List SysLabel :=
  request (.addQuestion 1 10 question 1) :: calls 1 [0, 0, 20, 0, 21, 0, 22, 0, 0, 0, 0, 0]

def renamed : List SysLabel :=
  drafted ++ firstQuestion ++ request (.patch 1 10 { title := some "a" } 1) :: calls 2 [0, 0, 0]

/-- Its question is given the points it has, and a second quiz its first question. -/
def secondQuiz : List SysLabel :=
  request (.patchQuestion 1 20 { points := some 1000 } 1) :: calls 3 [0, 0, 0, 0, 0] ++
  request (.create 1 ⟨"products", none, .pub, []⟩ 1) :: calls 4 [11, 0, 0, 0, 0] ++
  request (.addQuestion 1 11 question 1) :: calls 5 [0, 0, 30, 0, 31, 0, 32, 0, 0, 0, 0, 0]

/-- Two updates read the row; the first commits, and then the second. -/
def updatedTwice : List SysLabel :=
  [request (.patch 1 10 { title := some "a" } 1), request (.patch 1 10 { title := some "b" } 1)] ++
  calls 1 [0] ++ calls 2 [0] ++ calls 1 [0, 0]

def secondUpdate : List SysLabel := calls 2 [0, 0]

def shows (S : SysState) (version : Nat) (title : String) (questions : List Id) : Bool :=
  S.shared.db.quizzes.any (fun z => z.id = 10 ∧ z.version = version ∧ z.title = title) &&
  decide ((S.shared.db.questionsOf 10).map (·.id) = questions)

end Demo

theorem shows_spec {S : SysState} {version : Nat} {title : String} {questions : List Id}
    (h : Demo.shows S version title questions = true) : ∃ z ∈ S.shared.db.quizzes,
      z.id = 10 ∧ z.version = version ∧ (S.shared.db.content z).title = title ∧
      (S.shared.db.content z).questions.map (·.id) = questions := by
  obtain ⟨hAny, hQuestions⟩ := Bool.and_eq_true_iff.mp h
  obtain ⟨z, hz, hEq⟩ := List.any_eq_true.mp hAny
  obtain ⟨hId, hVersion, hTitle⟩ := of_decide_eq_true hEq
  refine ⟨z, hz, hId, hVersion, hTitle, ?_⟩
  change (S.shared.db.questionsOf z.id).map (·.id) = questions
  rw [hId]
  exact of_decide_eq_true hQuestions

theorem version_identifies_content_beside : ∃ S S' : SysState,
    Demo.machine.Reach (fun _ _ => True) initial S ∧
    Demo.machine.Reach (fun S l => versioned 10 S l = true) S S' ∧
    S.shared.log = [0, 1, 2] ∧ S'.shared.log = [0, 1, 2, 3, 4, 5] ∧
    S'.shared.db.questions.map (·.quizSetId) = [10, 11] ∧
    ∃ z ∈ S.shared.db.quizzes, ∃ z' ∈ S'.shared.db.quizzes, z.id = 10 ∧ z'.id = 10 ∧ z.version = 2 ∧
      z'.version = 2 ∧ S.shared.db.content z = S'.shared.db.content z' := by
  have hRun : (Demo.machine.run initial Demo.renamed).any (fun S =>
      Demo.shows S 2 "a" [20] && decide (S.shared.log = [0, 1, 2]) &&
      (Demo.machine.runWhile (versioned 10) S Demo.secondQuiz).any fun S' =>
        Demo.shows S' 2 "a" [20] && decide (S'.shared.log = [0, 1, 2, 3, 4, 5] ∧
          S'.shared.db.questions.map (·.quizSetId) = [10, 11])) = true := by
    decide +kernel
  obtain ⟨S, hReach, hS⟩ := Machine.Reach.exists_of_run hRun
  obtain ⟨hStart, hNext⟩ := Bool.and_eq_true_iff.mp hS
  obtain ⟨hBefore, hLog⟩ := Bool.and_eq_true_iff.mp hStart
  obtain ⟨S', hReach', hS'⟩ := Machine.Reach.exists_of_runWhile hNext
  obtain ⟨hAfter, hEnd⟩ := Bool.and_eq_true_iff.mp hS'
  obtain ⟨hLog', hOther⟩ := of_decide_eq_true hEnd
  obtain ⟨z, hz, hId, hVersion, -, -⟩ := shows_spec hBefore
  obtain ⟨z', hz', hId', hVersion', -, -⟩ := shows_spec hAfter
  refine ⟨S, S', hReach, hReach', of_decide_eq_true hLog, hLog', hOther, z, hz, z', hz', hId, hId', hVersion,
    hVersion', ?_⟩
  exact version_identifies_content hReach hReach' hz hz' hId hId' (hVersion.trans hVersion'.symm)

/-- One version with and without a question, and one version with two titles. -/
theorem version_with_two_contents :
    (∃ S S' : SysState, Demo.machine.Reach (fun _ _ => True) initial S ∧
      Demo.machine.Reach (fun _ _ => True) S S' ∧
      ∃ z ∈ S.shared.db.quizzes, ∃ z' ∈ S'.shared.db.quizzes, z.id = z'.id ∧ z.version = z'.version ∧
        (S.shared.db.content z).questions.map (·.id) = [] ∧
        (S'.shared.db.content z').questions.map (·.id) = [20]) ∧
    ∃ S S' : SysState, Demo.machine.Reach (fun _ _ => True) initial S ∧
      Demo.machine.Reach (fun _ _ => True) S S' ∧
      ∃ z ∈ S.shared.db.quizzes, ∃ z' ∈ S'.shared.db.quizzes, z.id = z'.id ∧ z.version = z'.version ∧
        (S.shared.db.content z).title = "a" ∧ (S'.shared.db.content z').title = "b" := by
  have hTwo : ∀ (before after : List SysLabel) (v : Nat) (title title' : String) (qs qs' : List Id),
      (Demo.machine.run initial before).any (fun S => Demo.shows S v title qs &&
        (Demo.machine.run S after).any fun S' => Demo.shows S' v title' qs') = true →
      ∃ S S' : SysState, Demo.machine.Reach (fun _ _ => True) initial S ∧
        Demo.machine.Reach (fun _ _ => True) S S' ∧ Demo.shows S v title qs = true ∧
        Demo.shows S' v title' qs' = true := by
    intro before after v title title' qs qs' hRun
    obtain ⟨S, hReach, hS⟩ := Machine.Reach.exists_of_run hRun
    obtain ⟨hBefore, hNext⟩ := Bool.and_eq_true_iff.mp hS
    obtain ⟨S', hReach', hAfter⟩ := Machine.Reach.exists_of_run hNext
    exact ⟨S, S', hReach, hReach', hBefore, hAfter⟩
  constructor
  · obtain ⟨S, S', hReach, hReach', hBefore, hAfter⟩ :=
      hTwo Demo.drafted Demo.firstQuestion 1 "sums" "sums" [] [20] (by decide +kernel)
    obtain ⟨z, hz, hId, hVersion, -, hQuestions⟩ := shows_spec hBefore
    obtain ⟨z', hz', hId', hVersion', -, hQuestions'⟩ := shows_spec hAfter
    exact ⟨S, S', hReach, hReach', z, hz, z', hz', hId.trans hId'.symm, hVersion.trans hVersion'.symm,
      hQuestions, hQuestions'⟩
  · obtain ⟨S, S', hReach, hReach', hBefore, hAfter⟩ :=
      hTwo (Demo.drafted ++ Demo.updatedTwice) Demo.secondUpdate 2 "a" "b" [] [] (by decide +kernel)
    obtain ⟨z, hz, hId, hVersion, hTitle, -⟩ := shows_spec hBefore
    obtain ⟨z', hz', hId', hVersion', hTitle', -⟩ := shows_spec hAfter
    exact ⟨S, S', hReach, hReach', z, hz, z', hz', hId.trans hId'.symm, hVersion.trans hVersion'.symm,
      hTitle, hTitle'⟩

end LiveQuiz.Authoring
