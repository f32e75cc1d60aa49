import LiveQuiz.Authoring.Edits
import LiveQuiz.Authoring.Walk

/-! # Published quizzes stay playable

`validate_publish` is called when a quiz is published and never again, so an edit of a
published quiz may leave it without a question, or with a question nobody can answer. Where
the payload of such an edit passes the same check, and the rows it was made for are still
those stored, every published quiz is playable in every state.
-/

namespace LiveQuiz.Authoring

open Coroutine

set_option autoImplicit false

variable {G : Trigram}

section

variable {q q' : Question} {os os' : List AnswerOption} {db : Db} {i : Id}

/-- What `validate_publish` asks of a question: enough options, and the right number of
correct ones. -/
def answerable (type : QuestionType) (correct : List Bool) : Bool :=
  match type with
  | .singleChoice => 2 ≤ correct.length ∧ correct.count true = 1
  | .multipleChoice => 2 ≤ correct.length ∧ 1 ≤ correct.count true ∧ correct.count true < correct.length
  | .trueFalse => correct.length = 2 ∧ correct.count true = 1

theorem questionIssues_eq_nil :
    questionIssues q os = [] ↔ answerable q.type (os.map (·.isCorrect)) = true := by
  have hCount : (os.map (·.isCorrect)).count true = os.countP (·.isCorrect) := by
    rw [List.count, List.countP_map]
    exact List.countP_congr fun o _ => by simp
  unfold questionIssues answerable
  cases q.type with
  | singleChoice | multipleChoice =>
    simp only [hCount, List.length_map, List.append_eq_nil_iff, ite_eq_right_iff, decide_eq_true_eq]
    simp only [reduceCtorEq, imp_false, not_not, not_lt]
  | trueFalse => simp [hCount]

theorem questionIssues_perm (h : os.Perm os') : questionIssues q os = questionIssues q os' := by
  unfold questionIssues
  rw [h.length_eq, h.countP_eq]

theorem optionsIn_congr {options : List AnswerOption} (hId : q.id = q'.id) :
    optionsIn options q = optionsIn options q' := by
  unfold optionsIn
  rw [hId]

theorem questionIssues_congr (hId : q.id = q'.id) (hType : q.type = q'.type) :
    questionIssues q os = questionIssues q' os := by
  unfold questionIssues
  rw [hId, hType]

theorem optionsIn_optionsOf {is : List Id} (h : q.id ∈ is) :
    (optionsIn (db.optionsOf is) q).Perm (optionsIn db.options q) := by
  have hPerm : (optionsIn (db.optionsOf is) q).Perm
      (optionsIn (db.options.filter (·.questionId ∈ is)) q) := (List.perm_insertionSort _ _).filter _
  have hEq : optionsIn (db.options.filter (·.questionId ∈ is)) q = optionsIn db.options q := by
    unfold optionsIn
    rw [List.filter_filter]
    refine List.filter_congr fun o _ => ?_
    by_cases ho : o.questionId = q.id
    · simp [ho, h]
    · simp [ho]
  rw [hEq] at hPerm
  exact hPerm

theorem issues_eq_nil : db.issues i = [] ↔ (∃ q ∈ db.questions, q.quizSetId = i) ∧
    ∀ q ∈ db.questions, q.quizSetId = i → questionIssues q (optionsIn db.options q) = [] := by
  have hEach : ∀ q ∈ db.questionsOf i,
      questionIssues q (optionsIn (db.optionsOf ((db.questionsOf i).map (·.id))) q) =
        questionIssues q (optionsIn db.options q) :=
    fun q hq => questionIssues_perm (optionsIn_optionsOf (List.mem_map_of_mem hq))
  unfold Db.issues validatePublish
  cases hqs : db.questionsOf i with
  | nil =>
    constructor
    · intro h
      cases h
    · rintro ⟨⟨q, hq, hi⟩, -⟩
      have hMem := mem_questionsOf.mpr ⟨hq, hi⟩
      rw [hqs] at hMem
      cases hMem
  | cons q qs =>
    dsimp only
    rw [List.flatMap_eq_nil_iff, ← hqs]
    constructor
    · intro h
      refine ⟨⟨q, mem_questionsOf.mp (hqs ▸ List.mem_cons_self)⟩, fun q' hq' hi => ?_⟩
      have hMem := mem_questionsOf.mpr ⟨hq', hi⟩
      rw [← hEach q' hMem]
      exact h q' hMem
    · rintro ⟨-, h⟩ q' hq'
      rw [hEach q' hq']
      exact h q' (mem_questionsOf.mp hq').1 (mem_questionsOf.mp hq').2

theorem issues_congr {db' : Db} (hQuestions : db'.questions = db.questions)
    (hOptions : db'.options = db.options) (i : Id) : db'.issues i = db.issues i := by
  unfold Db.issues Db.questionsOf Db.optionsOf
  rw [hQuestions, hOptions]

end

section

variable {job : Job} {wr : Write} {ws : List Write} {db : Db}

theorem published_of_updateWhere {i : Id} {p : QuizPatch} {zs : List Quiz} {z : Quiz}
    (hz : z ∈ updateWhere Quiz.id i p.patch zs) (hPub : z.isPublished = true) :
    ∃ y ∈ zs, y.id = z.id ∧ (y.isPublished = true ∨ (z.id = i ∧ p.isPublished = some true)) := by
  obtain ⟨y, hy, rfl⟩ := List.mem_map.mp hz
  refine ⟨y, hy, ?_⟩
  split at hPub
  next hId =>
    rw [if_pos hId]
    refine ⟨rfl, ?_⟩
    change p.isPublished.getD y.isPublished = true at hPub
    cases hp : p.isPublished with
    | none =>
      rw [hp] at hPub
      exact .inl hPub
    | some b =>
      rw [hp] at hPub
      exact .inr ⟨hId, congrArg some hPub⟩
  next hId =>
    rw [if_neg hId]
    exact ⟨rfl, .inl hPub⟩

theorem published_apply {z : Quiz} (hMay : job.may wr) (hz : z ∈ (wr.apply db).quizzes)
    (hPub : z.isPublished = true) : (∃ y ∈ db.quizzes, y.id = z.id ∧ y.isPublished = true) ∨
      ∃ owner scans, job = .publish owner z.id scans := by
  have hSame : (wr.apply db).quizzes = db.quizzes →
      (∃ y ∈ db.quizzes, y.id = z.id ∧ y.isPublished = true) := by
    intro hEq
    rw [hEq] at hz
    exact ⟨z, hz, rfl, hPub⟩
  cases wr with
  | insertQuiz row =>
    obtain hz | hz := List.mem_append.mp hz
    · exact .inl ⟨z, hz, rfl, hPub⟩
    · rw [List.mem_singleton.mp hz] at hPub
      cases job <;> first | (rw [show row.isPublished = false from hMay] at hPub; cases hPub) | cases hMay
  | updateQuiz i p =>
    obtain ⟨y, hy, hId, hOld | ⟨hi, hNew⟩⟩ := published_of_updateWhere hz hPub
    · exact .inl ⟨y, hy, hId, hOld⟩
    · cases job with
      | publish owner j scans => exact .inr ⟨owner, scans, by rw [hi, show i = j from hMay]⟩
      | patch owner j payload scans =>
        have hNone : p.isPublished = none := hMay.2
        rw [hNone] at hNew
        cases hNew
      | hide j => exact absurd hNew hMay.2
      | _ => cases hMay
  | _ => exact .inl (hSame rfl)

theorem published_applyAll {z : Quiz} (h : ∀ wr ∈ ws, job.may wr) (hz : z ∈ (applyAll ws db).quizzes)
    (hPub : z.isPublished = true) : (∃ y ∈ db.quizzes, y.id = z.id ∧ y.isPublished = true) ∨
      ∃ owner scans, job = .publish owner z.id scans := by
  induction ws generalizing db with
  | nil => exact .inl ⟨z, hz, rfl, hPub⟩
  | cons wr ws ih =>
    obtain ⟨y, hy, hId, hOld⟩ | hNew := ih (fun wr' hwr' => h wr' (List.mem_cons_of_mem _ hwr')) hz
    · obtain ⟨x, hx, hId', hOlder⟩ | ⟨owner, scans, hNew⟩ := published_apply (h wr List.mem_cons_self) hy hOld
      · exact .inl ⟨x, hx, hId'.trans hId, hOlder⟩
      · exact .inr ⟨owner, scans, by rw [hNew, hId]⟩
    · exact .inr hNew

end

def Db.publishes (db : Db) (quizSetId : Id) : Bool :=
  db.quizzes.any fun z => z.id = quizSetId ∧ z.isPublished

def addChecked (w : World) (pid quizSetId : Nat) (payload : QuestionCreate) : Bool :=
  (draft (w.tx pid)).added.all (unusedId w.db) &&
  (!w.db.publishes quizSetId || answerable payload.type (payload.options.map (·.isCorrect)))

def readCurrent (w : World) (pid : Nat) (payload : QuestionUpdate) (q : Question) : Bool :=
  (payload.type.isNone || (w.first pid).question.any (·.type = q.type)) &&
  (payload.options.isNone || (w.first pid).options = some (w.db.optionsOf [q.id]))

def answerableAfter (db : Db) (payload : QuestionUpdate) (q : Question) : Bool :=
  answerable (payload.type.getD q.type)
    ((payload.options.map (·.map (·.isCorrect))).getD ((optionsIn db.options q).map (·.isCorrect)))

def patchChecked (w : World) (pid questionId : Nat) (payload : QuestionUpdate) : Bool :=
  (w.db.questions.filter (·.id = questionId)).all fun q =>
    !w.db.publishes q.quizSetId || (payload.type.isNone && payload.options.isNone) ||
    (readCurrent w pid payload q && answerableAfter w.db payload q)

def deleteChecked (db : Db) (questionId : Id) : Bool :=
  (db.questions.filter (·.id = questionId)).all fun q =>
    !db.publishes q.quizSetId || db.questions.any fun q' => q'.quizSetId = q.quizSetId ∧ q'.id ≠ questionId

/-- The questions and the options are those the program has loaded. -/
def stillLoaded (w : World) (pid : Nat) (quizSetId : Id) : Bool :=
  decide (w.loaded pid = (w.db.questionsOf quizSetId,
    w.db.optionsOf ((w.db.questionsOf quizSetId).map (·.id))))

def commitChecked (w : World) (pid : Nat) : Job → Bool
  | .addQuestion _ i payload _ => addChecked w pid i payload
  | .patchQuestion _ i payload _ => patchChecked w pid i payload
  | .deleteQuestion _ i _ => deleteChecked w.db i
  | .publish _ i _ => stillLoaded w pid i
  | _ => true

/-- A commit that takes effect passes the check. -/
def checkedEdits (S : SysState) : SysLabel → Bool
  | .op pid d =>
    match S.procs[pid]? with
    | some ⟨job, .call .commit _⟩ => d.fault = .fail || commitChecked S.shared pid job
    | _ => true
  | .env _ => true

def Playable (db : Db) : Prop := ∀ z ∈ db.quizzes, z.isPublished = true → db.issues z.id = []

section

variable {w : World} {pid : Nat} {job : Job}

theorem publishes_eq {db : Db} {z : Quiz} {i : Id} (hz : z ∈ db.quizzes) (hPub : z.isPublished = true)
    (hi : i = z.id) : db.publishes i = true :=
  List.any_eq_true.mpr ⟨z, hz, decide_eq_true ⟨hi.symm, hPub⟩⟩

theorem playable_edited {db : Db} {ws : List Write} (h : Playable db) (hEdits : job.edits)
    (hMay : ∀ wr ∈ ws, job.may wr)
    (hKeeps : ∀ q ∈ db.questions, db.publishes q.quizSetId = true →
      ∃ q' ∈ (applyAll ws db).questions, q'.quizSetId = q.quizSetId)
    (hEach : ∀ q' ∈ (applyAll ws db).questions, db.publishes q'.quizSetId = true →
      (∀ q ∈ db.questions, q.quizSetId = q'.quizSetId → questionIssues q (optionsIn db.options q) = []) →
      questionIssues q' (optionsIn (applyAll ws db).options q') = []) : Playable (applyAll ws db) := by
  intro z hz hPub
  rw [(applyAll_quizzes hEdits hMay db).1] at hz
  obtain ⟨⟨q, hq, hSet⟩, hValid⟩ := issues_eq_nil.mp (h z hz hPub)
  refine issues_eq_nil.mpr ⟨?_, fun q' hq' hSet' => ?_⟩
  · obtain ⟨q', hq', hSet'⟩ := hKeeps q hq (publishes_eq hz hPub hSet)
    exact ⟨q', hq', hSet'.trans hSet⟩
  · exact hEach q' hq' (publishes_eq hz hPub hSet') fun q hq hEq => hValid q hq (hEq.trans hSet')

theorem playable_added {owner i scans : Nat} {payload : QuestionCreate} (h : Playable w.db)
    (hMay : ∀ wr ∈ w.tx pid, (Job.addQuestion owner i payload scans).may wr)
    (hDone : AddDone i payload (draft (w.tx pid))) (hChecked : addChecked w pid i payload = true) :
    Playable (w.view pid) := by
  have hEdits : (Job.addQuestion owner i payload scans).edits := trivial
  obtain ⟨-, row, rows, hAdded, hSet, hType, hRows, hOptions⟩ := hDone
  obtain ⟨hUnused, hPayload⟩ := Bool.and_eq_true_iff.mp hChecked
  rw [hAdded, List.all_cons, List.all_nil, Bool.and_true] at hUnused
  obtain ⟨hNew, hFree⟩ := Bool.and_eq_true_iff.mp hUnused
  have hOptionsOf := AddDone.optionsOf hRows hOptions hMay fun _ _ h => h
  refine playable_edited h hEdits hMay (fun q hq _ => ?_) fun q' hq' hPub hValid => ?_
  · exact question_stays (fun _ _ _ hEq => by cases hEq) hMay hq
  obtain ⟨q, hq, hId, hSet', hType'⟩ := question_of_edit (fun _ _ _ _ hEq => by cases hEq) hMay hq'
  rw [hAdded] at hq
  rw [questionIssues_congr hId hType']
  obtain hOld | hAdd := List.mem_append.mp hq
  · have hNe : q'.id ≠ row.id := hId ▸ of_decide_eq_true (List.all_eq_true.mp hNew q hOld)
    rw [optionsIn_of_ne hOptionsOf hNe, optionsIn_congr hId]
    exact hValid q hOld hSet'.symm
  · obtain rfl := List.mem_singleton.mp hAdd
    have hFree' : ∀ o ∈ w.db.options, o.questionId ≠ q.id :=
      fun o ho => of_decide_eq_true (List.all_eq_true.mp hFree o ho)
    rw [optionsIn_added hRows hOptions hFree' hId, questionIssues_eq_nil, hRows.correct, hType]
    rw [hSet'.trans hSet] at hPub
    simpa [hPub] using hPayload

theorem playable_patched {owner i scans : Nat} {payload : QuestionUpdate} (h : Playable w.db)
    (hMay : ∀ wr ∈ w.tx pid, (Job.patchQuestion owner i payload scans).may wr)
    (hDone : PatchDone i payload (w.first pid) (draft (w.tx pid)))
    (hChecked : patchChecked w pid i payload = true) : Playable (w.view pid) := by
  have hEdits : (Job.patchQuestion owner i payload scans).edits := trivial
  have hOptionsOf := hDone.optionsOf hMay
  obtain ⟨read, hRead, -, -, -, -, hPatch, hOptions⟩ := hDone
  refine playable_edited h hEdits hMay (fun q hq _ => ?_) fun q' hq' hPub hValid => ?_
  · exact question_stays (fun _ _ _ hEq => by cases hEq) hMay hq
  obtain ⟨q, hq, hId, hSet, hType⟩ := question_of_patch hMay hq'
  have hOld : questionIssues q (optionsIn w.db.options q) = [] := hValid q hq hSet.symm
  by_cases hi : q.id = i
  swap
  · rw [if_neg hi] at hType
    rw [questionIssues_congr hId hType, optionsIn_of_ne hOptionsOf (hId ▸ hi), optionsIn_congr hId]
    exact hOld
  rw [if_pos hi, hPatch] at hType
  change q'.type = (payload.type.filter (· ≠ read.type)).getD q.type at hType
  have hCond := List.all_eq_true.mp hChecked q (List.mem_filter.mpr ⟨hq, decide_eq_true hi⟩)
  rw [← hSet, hPub] at hCond
  simp only [Bool.not_true, Bool.false_or, Bool.or_eq_true, Bool.and_eq_true,
    Option.isNone_iff_eq_none] at hCond
  obtain ⟨hNoType, hNoOptions⟩ | ⟨hCurrent, hAnswerable⟩ := hCond
  · rw [hNoType] at hType
    rw [hNoOptions] at hOptions
    have hSame : (w.view pid).options = w.db.options := by
      rw [World.view, options_applyAll, show (draft (w.tx pid)).options = [] from hOptions]
      rfl
    change questionIssues q' (optionsIn (w.view pid).options q') = []
    rw [hSame, questionIssues_congr hId hType, optionsIn_congr hId]
    exact hOld
  obtain ⟨hTypeRead, hOptionsRead⟩ := Bool.and_eq_true_iff.mp hCurrent
  have hNewType : q'.type = payload.type.getD q.type := by
    rw [hType]
    cases hPayload : payload.type with
    | none => rfl
    | some t =>
      rw [hPayload, hRead] at hTypeRead
      have hSame : read.type = q.type := by simpa using hTypeRead
      rw [hSame]
      exact getD_changed _ _
  have hNewOptions : (optionsIn (applyAll (w.tx pid) w.db).options q').map (·.isCorrect) =
      (payload.options.map (·.map (·.isCorrect))).getD ((optionsIn w.db.options q).map (·.isCorrect)) := by
    cases hPayload : payload.options with
    | none =>
      rw [hPayload] at hOptions
      rw [options_applyAll, show (draft (w.tx pid)).options = [] from hOptions, optionsIn_congr hId]
      rfl
    | some os =>
      rw [hPayload] at hOptions hOptionsRead
      obtain ⟨old, rows, hFirst, hRows, hDraft⟩ := hOptions
      have hStored : old = w.db.optionsOf [i] := by
        rw [hFirst, hi] at hOptionsRead
        simpa using hOptionsRead
      rw [hStored] at hDraft
      rw [optionsIn_replaced hRows hDraft (hId.trans hi), hRows.correct]
      rfl
  rw [questionIssues_eq_nil, hNewType, hNewOptions]
  exact hAnswerable

theorem playable_deleted {owner i scans : Nat} (h : Playable w.db)
    (hMay : ∀ wr ∈ w.tx pid, (Job.deleteQuestion owner i scans).may wr)
    (hDone : DeleteDone i (w.first pid) (draft (w.tx pid))) (hChecked : deleteChecked w.db i = true) :
    Playable (w.view pid) := by
  have hEdits : (Job.deleteQuestion owner i scans).edits := trivial
  obtain ⟨hAdded, hDeleted, -⟩ := hDone
  have hStays : ∀ q ∈ w.db.questions, q.id ≠ i →
      ∃ q' ∈ (applyAll (w.tx pid) w.db).questions, q'.quizSetId = q.quizSetId := by
    intro q hq hi
    refine question_stays ?_ hMay hq
    rintro _ _ _ ⟨⟩
    exact hi
  refine playable_edited h hEdits hMay (fun q hq hPub => ?_) fun q' hq' hPub hValid => ?_
  · by_cases hi : q.id = i
    swap
    · exact hStays q hq hi
    have hCond := List.all_eq_true.mp hChecked q (List.mem_filter.mpr ⟨hq, decide_eq_true hi⟩)
    rw [hPub, Bool.not_true, Bool.false_or] at hCond
    obtain ⟨other, hOther, hEq⟩ := List.any_eq_true.mp hCond
    obtain ⟨hSet, hNe⟩ := of_decide_eq_true hEq
    obtain ⟨q', hq', hSet'⟩ := hStays other hOther hNe
    exact ⟨q', hq', hSet'.trans hSet⟩
  · obtain ⟨q, hq, hId, hSet, hType⟩ := question_of_edit (fun _ _ _ _ hEq => by cases hEq) hMay hq'
    rw [hAdded, List.append_nil] at hq
    have hNe : q'.id ≠ i := question_deleted hMay (hDeleted ▸ List.mem_singleton_self i) hq'
    rw [questionIssues_congr hId hType, optionsIn_of_ne (optionsOf_delete hMay) hNe, optionsIn_congr hId]
    exact hValid q hq hSet.symm

theorem playable_commit (h : Playable w.db) (hReady : Ready job (w.own pid))
    (hChecked : commitChecked w pid job = true) : Playable (w.view pid) := by
  obtain ⟨hMay, hJob⟩ := hReady
  change ∀ wr ∈ w.tx pid, job.may wr at hMay
  have hOther : ¬job.edits → (∀ owner i scans, job = .publish owner i scans → w.db.issues i = []) →
      Playable (w.view pid) := by
    intro hNot hPublish z hz hPub
    obtain ⟨hQuestions, hOptions⟩ := applyAll_questions hNot hMay w.db
    have hIssues : (w.view pid).issues z.id = w.db.issues z.id := issues_congr hQuestions hOptions z.id
    rw [hIssues]
    obtain ⟨y, hy, hId, hOld⟩ | ⟨owner, scans, hNew⟩ := published_applyAll hMay hz hPub
    · rw [← hId]
      exact h y hy hOld
    · exact hPublish owner z.id scans hNew
  cases job with
  | publish owner i scans =>
    refine hOther id ?_
    rintro _ _ _ ⟨⟩
    have hLoaded : w.loaded pid = _ := of_decide_eq_true hChecked
    have hValid : validatePublish (w.loaded pid).1 (w.loaded pid).2 = [] := hJob.2
    rw [hLoaded] at hValid
    exact hValid
  | addQuestion owner i payload scans => exact playable_added h hMay hJob hChecked
  | patchQuestion owner i payload scans => exact playable_patched h hMay hJob hChecked
  | deleteQuestion owner i scans => exact playable_deleted h hMay hJob hChecked
  | _ => exact hOther id fun _ _ _ hEq => by cases hEq

theorem playable_reach {S : SysState}
    (h : (authoring G).Reach (fun S l => checkedEdits S l = true) initial S) : Playable S.shared.db := by
  induction h with
  | refl => exact fun z hz => by cases hz
  | @tail S₁ _ _ hReach hCond hStep ih =>
    have hKept := kept_of_reach hReach
    obtain ⟨pid, d, t, o, k, out, rfl, hProc, hExec, rfl⟩ | ⟨e, res, rfl, hEnv, rfl⟩ :=
      Machine.step_cases hStep
    · obtain hEq | ⟨a, ha, hEffect, hEq⟩ := faulty_shared hExec
      · rw [hEq]
        exact ih
      · rw [hEq]
        by_cases ho : o = .commit
        · subst ho
          cases ha
          simp only [checkedEdits, hProc, Bool.or_eq_true, decide_eq_true_eq] at hCond
          exact playable_commit ih (hKept.req (sound G) hProc) (hCond.resolve_left hEffect)
        · rw [perform_db ho ha]
          exact ih
    · rw [env_db S₁.procs.length hEnv]
      exact ih

end

/-- A published quiz passes `validate_publish`, in every state. -/
theorem published_quiz_playable {S : SysState}
    (h : (authoring G).Reach (fun S l => checkedEdits S l = true) initial S) {z : Quiz}
    (hz : z ∈ S.shared.db.quizzes) (hPub : z.isPublished = true) : S.shared.db.issues z.id = [] :=
  playable_reach h z hz hPub

namespace Demo

/-- A quiz with one question, published. -/
def published : List SysLabel :=
  request (.create 1 ⟨"sums", none, .pub, []⟩ 1) :: calls 0 [10, 0, 0, 0, 0] ++
  request (.addQuestion 1 10 question 1) :: calls 1 [0, 0, 20, 0, 21, 0, 22, 0, 0, 0, 0, 0] ++
  request (.publish 1 10 1) :: calls 2 [0, 0, 0, 0, 0, 30, 0, 0, 0, 0]

def threeOptions : QuestionUpdate where
  type := some .multipleChoice
  options := some [⟨1, "4", true⟩, ⟨2, "5", false⟩, ⟨3, "2 * 2", true⟩]

/-- Its owner then changes the type and the options, or drops the options. -/
def retouched : List SysLabel :=
  published ++ request (.patchQuestion 1 20 threeOptions 1) ::
    calls 3 [0, 0, 23, 24, 25, 0, 0, 0, 0, 0, 0, 0, 0]

def emptied : List SysLabel :=
  published ++ request (.patchQuestion 1 20 { options := some [] } 1) :: calls 3 [0, 0, 0, 0, 0, 0, 0, 0, 0]

end Demo

theorem published_quiz_playable_retouched : ∃ S : SysState,
    Demo.machine.Reach (fun S l => checkedEdits S l = true) initial S ∧
    S.shared.db.quizzes.map (fun z => (z.id, z.isPublished)) = [(10, true)] ∧
    S.shared.db.questions.map (·.type) = [.multipleChoice] ∧
    S.shared.db.options.map (·.isCorrect) = [true, false, true] ∧ S.shared.db.issues 10 = [] := by
  have hRun : (Demo.machine.runWhile checkedEdits initial Demo.retouched).any (fun S =>
      S.shared.db.quizzes.map (fun z => (z.id, z.isPublished)) = [(10, true)] ∧
      S.shared.db.questions.map (·.type) = [.multipleChoice] ∧
      S.shared.db.options.map (·.isCorrect) = [true, false, true]) = true := by
    decide +kernel
  obtain ⟨S, hReach, hS⟩ := Machine.Reach.exists_of_runWhile hRun
  obtain ⟨hQuizzes, hType, hCorrect⟩ := of_decide_eq_true hS
  refine ⟨S, hReach, hQuizzes, hType, hCorrect, ?_⟩
  have hMem : (10, true) ∈ S.shared.db.quizzes.map (fun z => (z.id, z.isPublished)) := by
    rw [hQuizzes]
    exact List.mem_singleton_self _
  obtain ⟨z, hz, hEq⟩ := List.mem_map.mp hMem
  obtain ⟨hId, hPub⟩ := Prod.mk.inj hEq
  rw [← hId]
  exact published_quiz_playable hReach hz hPub

/-- A published quiz whose only question has no options. -/
theorem published_quiz_unplayable : ∃ S : SysState, Demo.machine.Reach (fun _ _ => True) initial S ∧
    S.shared.db.quizzes.map (fun z => (z.id, z.isPublished)) = [(10, true)] ∧
    (S.shared.db.issues 10).map (·.code) = ["INSUFFICIENT_OPTIONS", "EXPECTED_ONE_CORRECT"] := by
  have hRun : (Demo.machine.run initial Demo.emptied).any (fun S =>
      S.shared.db.quizzes.map (fun z => (z.id, z.isPublished)) = [(10, true)] ∧
      (S.shared.db.issues 10).map (·.code) = ["INSUFFICIENT_OPTIONS", "EXPECTED_ONE_CORRECT"]) = true := by
    decide +kernel
  obtain ⟨S, hReach, hS⟩ := Machine.Reach.exists_of_run hRun
  exact ⟨S, hReach, of_decide_eq_true hS⟩

end LiveQuiz.Authoring
