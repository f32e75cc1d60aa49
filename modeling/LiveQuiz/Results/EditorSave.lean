import LiveQuiz.Protocol.Tables
import LiveQuiz.Results.Validation

/-! # Saving a question and loading it again

The editor sends every field, and the server merges them into the stored row, where a
field that is `null` means that the stored value stays. An emptied explanation is sent as
`null`, so it comes back.
-/

namespace LiveQuiz.Client

set_option autoImplicit false

/-- The limits of `QuestionUpdate` and of its options. -/
def schemaAllows (u : QuestionUpdate) : Bool :=
  u.position.all (1 ≤ ·) &&
  u.body.all (fun b => 1 ≤ b.length && b.length ≤ 2000) &&
  u.timeLimitSeconds.all (fun t => 5 ≤ t && t ≤ 120) &&
  u.points.all (fun p => 0 ≤ p && p ≤ 10000) &&
  u.explanation.all (·.length ≤ 2000) &&
  u.options.all (·.all fun o =>
    1 ≤ o.position && o.position ≤ 20 && 1 ≤ o.body.length && o.body.length ≤ 500)

/-- The body of the PATCH that `save` sends. -/
def saveBody (d : DraftQuestion) : QuestionUpdate where
  body := some (trim d.body)
  type := some d.type
  timeLimitSeconds := some d.timeLimitSeconds
  points := some d.points
  explanation := if hasText d.explanation then some (trim d.explanation) else none
  options := some (d.options.mapIdx fun i o => ⟨i + 1, trim o.body, o.isCorrect⟩)

/-- The option rows that the server makes of it, under the ids drawn for them. -/
def savedRows (d : DraftQuestion) (ids : List Id) : List AnswerOption :=
  optionRows d.id ids (d.options.mapIdx fun i o => ⟨i + 1, trim o.body, o.isCorrect⟩)

/-- `save` and the endpoint behind it, with the ids it draws for the options. -/
def save (ownerId : Id) (d : DraftQuestion) (ids : List Id) (db : Db) : Option Db :=
  if validateQuestion d = [] ∧ schemaAllows (saveBody d) then
    updateQuestion ownerId d.id (saveBody d) ids db
  else none

/-- The question as the API answers it. -/
def reload (questionId : Id) (db : Db) : Option QuestionDetail :=
  (db.questions.find? (·.id = questionId)).map fun q =>
    Authoring.detail q (sortBy (·.position) (db.options.filter (·.questionId = questionId)))

namespace DraftQuestion

def trimmed (d : DraftQuestion) : DraftQuestion :=
  { d with
    body := trim d.body
    explanation := trim d.explanation
    options := d.options.map fun o => { o with body := trim o.body } }

def withoutIds (d : DraftQuestion) : DraftQuestion :=
  { d with options := d.options.map fun o => { o with id := none } }

end DraftQuestion

section

variable {d : DraftQuestion} {db db' : Db} {q : Question} {ownerId questionId : Id} {ids : List Id}

theorem saved_sorted (d : DraftQuestion) (ids : List Id) :
    (savedRows d ids).Pairwise fun a b => a.position ≤ b.position := by
  rw [List.pairwise_iff_getElem]
  intro i j hi hj hLt
  simp only [savedRows, optionRows, List.getElem_map, List.getElem_zip, List.getElem_mapIdx]
  omega

theorem saved_options (hIds : ids.length = d.options.length) :
    ((savedRows d ids).map fun o => (⟨none, o.body, o.isCorrect⟩ : DraftOption)) =
      d.trimmed.withoutIds.options := by
  apply List.ext_getElem
  · simp [savedRows, optionRows, DraftQuestion.trimmed, DraftQuestion.withoutIds, hIds]
  · intro i hi hi'
    simp [savedRows, optionRows, DraftQuestion.trimmed, DraftQuestion.withoutIds]

theorem toDraft_detail {options : List AnswerOption}
    (hSorted : options.Pairwise fun a b => a.position ≤ b.position) :
    toDraft (Authoring.detail q options) =
      ⟨q.id, q.position, q.body, q.type, q.timeLimitSeconds, q.points, q.explanation.getD "",
        options.map fun o => ⟨some o.id, o.body, o.isCorrect⟩⟩ := by
  have hDetails : (options.map fun o => (⟨o.id, o.position, o.body, o.isCorrect⟩ : OptionDetail)).Pairwise
      (fun a b => a.position ≤ b.position) := List.pairwise_map.mpr hSorted
  unfold toDraft Authoring.detail sortBy
  rw [hDetails.insertionSort_eq, List.map_map]
  rfl

theorem trim_of_blank {s : String} (h : hasText s = false) : trim s = "" := by
  simpa [hasText] using h

theorem filter_replaced (options : List AnswerOption) (creates : List OptionCreate) :
    (options.filter (·.questionId ≠ questionId) ++ optionRows questionId ids creates).filter
      (·.questionId = questionId) = optionRows questionId ids creates := by
  have hOld : (options.filter (·.questionId ≠ questionId)).filter (·.questionId = questionId) = [] := by
    rw [List.filter_eq_nil_iff]
    intro o ho hEq
    exact of_decide_eq_true (List.mem_filter.mp ho).2 (of_decide_eq_true hEq)
  rw [List.filter_append, hOld, List.nil_append, List.filter_eq_self]
  intro o ho
  obtain ⟨x, -, rfl⟩ := List.mem_map.mp ho
  exact decide_eq_true rfl

theorem reload_save (hStored : db.questions.find? (·.id = d.id) = some q)
    (hSave : save ownerId d ids db = some db') :
    reload d.id db' = some (Authoring.detail ((saveBody d).patch q) (savedRows d ids)) := by
  have hUpdate : updateQuestion ownerId d.id (saveBody d) ids db = some db' := by
    unfold save at hSave
    split at hSave
    · exact hSave
    · cases hSave
  simp only [updateQuestion, hStored, Option.bind_eq_bind, Option.bind_some, Option.bind_eq_some_iff,
    Option.pure_def, Option.some.injEq, Option.guard_eq_some'] at hUpdate
  obtain ⟨parent, -, -, -, questions, hMoved, options, hOptions, rfl⟩ := hUpdate
  have hId : q.id = d.id := by simpa using List.find?_some hStored
  have hQuestions : updateWhere Question.id d.id (saveBody d).patch db.questions = questions :=
    Option.some.inj hMoved
  have hRows : db.options.filter (·.questionId ≠ d.id) ++ savedRows d ids = options := by
    change checkedOptions _ = some options at hOptions
    unfold checkedOptions at hOptions
    split at hOptions
    · exact Option.some.inj hOptions
    · cases hOptions
  have hFound : questions.find? (·.id = d.id) = some ((saveBody d).patch q) := by
    have hKey : ∀ r, Question.id ((saveBody d).patch r) = Question.id r := fun r => by
      simp only [QuestionUpdate.patch]
    rw [← hQuestions, find?_updateWhere hKey, hStored, Option.map_some, if_pos hId]
  have hSorted : sortBy (·.position) (options.filter (·.questionId = d.id)) = savedRows d ids := by
    rw [← hRows, savedRows, filter_replaced]
    exact (saved_sorted d ids).insertionSort_eq
  unfold reload
  dsimp only
  rw [hFound, Option.map_some, hSorted]

/-- Once a save has committed, the reloaded question is the draft with its texts trimmed
exactly when the draft has an explanation or the stored question had none. -/
theorem save_reload_iff (hStored : db.questions.find? (·.id = d.id) = some q)
    (hPosition : d.position = q.position) (hIds : ids.length = d.options.length)
    (hSave : save ownerId d ids db = some db') :
    (∃ r, reload d.id db' = some r ∧ (toDraft r).withoutIds = d.trimmed.withoutIds) ↔
      hasText d.explanation = true ∨ q.explanation.getD "" = "" := by
  have hId : q.id = d.id := by simpa using List.find?_some hStored
  have hDraft : (toDraft (Authoring.detail ((saveBody d).patch q) (savedRows d ids))).withoutIds =
      { d.trimmed.withoutIds with explanation := ((saveBody d).patch q).explanation.getD "" } := by
    have hOptions := saved_options hIds
    rw [toDraft_detail (saved_sorted d ids)]
    simp only [DraftQuestion.withoutIds, DraftQuestion.trimmed, saveBody, QuestionUpdate.patch,
      Option.getD_some, List.map_map, DraftQuestion.mk.injEq, true_and] at hOptions ⊢
    exact ⟨hId, hPosition.symm, hOptions⟩
  have hKept : (toDraft (Authoring.detail ((saveBody d).patch q) (savedRows d ids))).withoutIds =
      d.trimmed.withoutIds ↔ ((saveBody d).patch q).explanation.getD "" = trim d.explanation := by
    rw [hDraft]
    constructor
    · intro hEq
      simpa only [DraftQuestion.withoutIds, DraftQuestion.trimmed] using congrArg DraftQuestion.explanation hEq
    · intro hEq
      rw [hEq]
      simp only [DraftQuestion.withoutIds, DraftQuestion.trimmed]
  have hReload := reload_save hStored hSave
  constructor
  · rintro ⟨r, hr, hEq⟩
    rw [hReload, Option.some.injEq] at hr
    subst hr
    have hExplanation := hKept.mp hEq
    cases hText : hasText d.explanation with
    | true => exact .inl rfl
    | false =>
      right
      rw [trim_of_blank hText] at hExplanation
      simpa [saveBody, QuestionUpdate.patch, hText] using hExplanation
  · intro hOr
    refine ⟨_, hReload, hKept.mpr ?_⟩
    cases hText : hasText d.explanation with
    | true => simp [saveBody, QuestionUpdate.patch, hText]
    | false =>
      rw [trim_of_blank hText]
      have hNone := hOr.resolve_left (by simp [hText])
      simpa [saveBody, QuestionUpdate.patch, hText] using hNone

end

namespace Demo

def stored : Question := ⟨100, 1, 1, "2 + 2?", .singleChoice, 20, 1000, some "It is four."⟩

def quiz : Db where
  rooms := []
  participants := []
  quizSets := [⟨1, 7, "Sums", none, .priv, 1, []⟩]
  questions := [stored]
  options := [⟨201, 100, 1, "4", true⟩, ⟨202, 100, 2, "5", false⟩]
  matches' := []
  matchQuestions := []
  submissions := []
  finalScores := []
  outbox := []

/-- The draft with new options, and this explanation. -/
def draft (explanation : String) : DraftQuestion :=
  ⟨100, 1, " 2 + 3? ", .singleChoice, 30, 1000, explanation, [⟨none, "5", true⟩, ⟨some 201, " 4", false⟩]⟩

end Demo

theorem save_reload_reworded : ∃ db', save 7 (Demo.draft " Five.") [301, 302] Demo.quiz = some db' ∧
    ∃ r, reload 100 db' = some r ∧
      (toDraft r).withoutIds = (Demo.draft " Five.").trimmed.withoutIds := by
  have hSome : (save 7 (Demo.draft " Five.") [301, 302] Demo.quiz).isSome = true := by decide +kernel
  obtain ⟨db', hSave⟩ := Option.isSome_iff_exists.mp hSome
  refine ⟨db', hSave, ?_⟩
  exact (save_reload_iff (by decide : Demo.quiz.questions.find? (·.id = 100) = some Demo.stored) rfl rfl
    hSave).mpr (.inl (by decide +kernel))

/-- The explanation is deleted and saved, and is there again. -/
theorem deleted_explanation_returns : ∃ db' r,
    validateQuestion (Demo.draft "") = [] ∧ schemaAllows (saveBody (Demo.draft "")) = true ∧
    save 7 (Demo.draft "") [301, 302] Demo.quiz = some db' ∧ reload 100 db' = some r ∧
    (toDraft r).explanation = "It is four." ∧
    (toDraft r).withoutIds ≠ (Demo.draft "").trimmed.withoutIds := by
  have hAll : (validateQuestion (Demo.draft "") = [] ∧ schemaAllows (saveBody (Demo.draft "")) = true) ∧
      (save 7 (Demo.draft "") [301, 302] Demo.quiz).any (fun db' => (reload 100 db').any fun r =>
        decide ((toDraft r).explanation = "It is four." ∧
          (toDraft r).withoutIds ≠ (Demo.draft "").trimmed.withoutIds)) = true := by
    decide +kernel
  obtain ⟨⟨hValid, hSchema⟩, hRun⟩ := hAll
  obtain ⟨db', hSave, hDb⟩ := (Option.any_eq_true _ _).mp hRun
  obtain ⟨r, hReload, hEnd⟩ := (Option.any_eq_true _ _).mp hDb
  obtain ⟨hBack, hNe⟩ := of_decide_eq_true hEnd
  exact ⟨db', r, hValid, hSchema, hSave, hReload, hBack, hNe⟩

end LiveQuiz.Client
