import LiveQuiz.Client.Validation
import LiveQuiz.Results.Playable

/-! # The builder's validation and the server's

Both demand the same numbers of options and correct answers, up to two rules that only
one side has: the builder refuses texts of white space, the server a multiple-choice
question all of whose options are correct.
-/

namespace LiveQuiz.Authoring

open Client

set_option autoImplicit false

/-- A question with its options, as the API answers. -/
def detail (q : Question) (options : List AnswerOption) : QuestionDetail :=
  ⟨q.id, q.position, q.body, q.type, q.timeLimitSeconds, q.points, q.explanation,
    options.map fun o => ⟨o.id, o.position, o.body, o.isCorrect⟩⟩

/-- The questions of the quiz as the owner's builder gets them. -/
def Db.details (db : Db) (quizSetId : Id) : List QuestionDetail :=
  (db.questionsOf quizSetId).map fun q =>
    detail q (optionsIn (db.optionsOf ((db.questionsOf quizSetId).map (·.id))) q)

/-- What the schemas check of every stored question. -/
def Admitted (q : Question) : Prop :=
  5 ≤ q.timeLimitSeconds ∧ q.timeLimitSeconds ≤ 120 ∧ 0 ≤ q.points ∧ q.points ≤ 10000

/-- The rules that both sides have. -/
def Counted (q : Question) (options : List AnswerOption) : Prop :=
  match q.type with
  | .singleChoice => 2 ≤ options.length ∧ options.countP (·.isCorrect) = 1
  | .multipleChoice => 2 ≤ options.length ∧ 1 ≤ options.countP (·.isCorrect)
  | .trueFalse => options.length = 2 ∧ options.countP (·.isCorrect) = 1

/-- No text of the question is blank. -/
def Worded (q : Question) (options : List AnswerOption) : Prop :=
  hasText q.body ∧ ∀ o ∈ options, hasText o.body

/-- Not every option of a multiple-choice question is correct. -/
def Selective (q : Question) (options : List AnswerOption) : Prop :=
  q.type = .multipleChoice → ∃ o ∈ options, o.isCorrect = false

section

variable {q : Question} {options : List AnswerOption}

theorem countP_lt_length {options : List AnswerOption} :
    options.countP (·.isCorrect) < options.length ↔ ∃ o ∈ options, o.isCorrect = false := by
  rw [List.countP_le_length.lt_iff_ne, ne_eq, List.countP_eq_length]
  simp

theorem server_iff : questionIssues q options = [] ↔ Counted q options ∧ Selective q options := by
  unfold questionIssues Counted Selective
  cases q.type with
  | singleChoice =>
    simp only [List.append_eq_nil_iff, ite_eq_right_iff, imp_false, not_lt, not_not, List.cons_ne_nil,
      ne_eq, reduceCtorEq, false_implies, and_true]
  | multipleChoice =>
    rw [← countP_lt_length]
    simp only [List.append_eq_nil_iff, ite_eq_right_iff, imp_false, not_lt, not_not,
      true_implies, and_assoc, List.cons_ne_nil]
  | trueFalse => simp

theorem draft_perm (q : Question) (options : List AnswerOption) :
    (toDraft (detail q options)).options.Perm
      (options.map fun o => (⟨some o.id, o.body, o.isCorrect⟩ : DraftOption)) := by
  have hSorted := (List.perm_insertionSort (fun a b : OptionDetail => a.position ≤ b.position)
    (detail q options).options).map fun o => (⟨some o.id, o.body, o.isCorrect⟩ : DraftOption)
  rw [detail, List.map_map] at hSorted
  exact hSorted

theorem validateQuestion_eq_nil {d : DraftQuestion} : validateQuestion d = [] ↔
    hasText d.body = true ∧ 2 ≤ (d.options.filter fun o => hasText o.body).length ∧
      (∀ o ∈ d.options, hasText o.body = true) ∧
      (if d.type = .multipleChoice then 1 ≤ correctCount d else correctCount d = 1) ∧
      (d.type = .trueFalse → d.options.length = 2) ∧
      (5 ≤ d.timeLimitSeconds ∧ d.timeLimitSeconds ≤ 120) ∧ 0 ≤ d.points ∧ d.points ≤ 10000 := by
  simp only [validateQuestion, List.append_eq_nil_iff, ite_eq_right_iff, List.cons_ne_nil,
    imp_false, List.any_eq_true, not_exists, not_and, and_assoc, Bool.not_eq_true',
    Bool.not_eq_false, not_or, not_lt, ne_eq, not_not]
  split <;> simp [Nat.one_le_iff_ne_zero]

theorem client_iff (hAdmitted : Admitted q) :
    validateQuestion (toDraft (detail q options)) = [] ↔ Counted q options ∧ Worded q options := by
  have hPerm := draft_perm q options
  have hLength : (toDraft (detail q options)).options.length = options.length := by
    simpa using hPerm.length_eq
  have hCorrect : correctCount (toDraft (detail q options)) = options.countP (·.isCorrect) := by
    rw [correctCount, ← List.countP_eq_length_filter, hPerm.countP_eq, List.countP_map]
    rfl
  have hTexts : (∀ o ∈ (toDraft (detail q options)).options, hasText o.body = true) ↔
      ∀ o ∈ options, hasText o.body = true := by
    simp [hPerm.mem_iff]
  have hFilled : (∀ o ∈ (toDraft (detail q options)).options, hasText o.body = true) →
      ((toDraft (detail q options)).options.filter fun o => hasText o.body).length =
        options.length := by
    intro hAll
    rw [List.filter_eq_self.mpr hAll, hLength]
  obtain ⟨hLow, hHigh, hPoints, hMost⟩ := hAdmitted
  rw [validateQuestion_eq_nil, hCorrect, hLength]
  constructor
  · rintro ⟨hBody, hTwo, hAll, hCount, hPair, -⟩
    rw [hFilled hAll] at hTwo
    have hCount' : if q.type = .multipleChoice then 1 ≤ options.countP (·.isCorrect)
      else options.countP (·.isCorrect) = 1 := hCount
    have hPair' : q.type = .trueFalse → options.length = 2 := hPair
    refine ⟨?_, hBody, hTexts.mp hAll⟩
    unfold Counted
    cases hType : q.type <;> simp_all
  · rintro ⟨hCounted, hBody, hAll⟩
    have hAllDraft := hTexts.mpr hAll
    rw [hFilled hAllDraft]
    refine ⟨hBody, ?_, hAllDraft, ?_, ?_, ⟨hLow, hHigh⟩, hPoints, hMost⟩
    · unfold Counted at hCounted
      split at hCounted <;> omega
    · change if q.type = .multipleChoice then _ else _
      unfold Counted at hCounted
      cases hType : q.type <;> simp_all
    · intro hType
      have hTrueFalse : q.type = .trueFalse := hType
      unfold Counted at hCounted
      rw [hTrueFalse] at hCounted
      exact hCounted.1

end

/-- The questions of the quiz with their options. -/
def Db.parts (db : Db) (quizSetId : Id) : List (Question × List AnswerOption) :=
  (db.questionsOf quizSetId).map fun q =>
    (q, optionsIn (db.optionsOf ((db.questionsOf quizSetId).map (·.id))) q)

theorem issues_iff (db : Db) (quizSetId : Id) : db.issues quizSetId = [] ↔
    db.parts quizSetId ≠ [] ∧
      ∀ x ∈ db.parts quizSetId, Counted x.1 x.2 ∧ Selective x.1 x.2 := by
  unfold Db.issues Db.parts validatePublish
  generalize db.optionsOf ((db.questionsOf quizSetId).map (·.id)) = options
  cases db.questionsOf quizSetId with
  | nil => simp
  | cons q qs => simp only [List.flatMap_eq_nil_iff, server_iff]; simp

theorem details_eq (db : Db) (quizSetId : Id) :
    db.details quizSetId = (db.parts quizSetId).map fun x => detail x.1 x.2 := by
  rw [Db.details, Db.parts, List.map_map]
  rfl

theorem parts_mem {db : Db} {quizSetId : Id} {x : Question × List AnswerOption}
    (hMem : x ∈ db.parts quizSetId) : x.1 ∈ db.questions := by
  obtain ⟨q, hq, rfl⟩ := List.mem_map.mp hMem
  exact (mem_questionsOf.mp hq).1

theorem details_nodup {db : Db} (quizSetId : Id) (hKeys : (db.questions.map (·.id)).Nodup) :
    ((db.details quizSetId).map (·.id)).Nodup := by
  have hIds : (db.details quizSetId).map (·.id) = (db.questionsOf quizSetId).map (·.id) := by
    rw [Db.details, List.map_map]
    rfl
  rw [hIds, Db.questionsOf, ((List.perm_insertionSort _ _).map _).nodup_iff]
  exact hKeys.sublist (List.filter_sublist.map _)

theorem details_ok_iff {db : Db} {quizSetId : Id} (hKeys : (db.questions.map (·.id)).Nodup)
    (hAdmitted : ∀ q ∈ db.questions, Admitted q) :
    (validateQuizSet (db.details quizSetId)).ok = true ↔
      db.parts quizSetId ≠ [] ∧ ∀ x ∈ db.parts quizSetId, Counted x.1 x.2 ∧ Worded x.1 x.2 := by
  rw [validateQuizSet_ok (details_nodup quizSetId hKeys), details_eq, List.forall_mem_map, ne_eq,
    List.map_eq_nil_iff]
  apply and_congr_right
  intro _
  apply forall₂_congr
  intro x hx
  exact client_iff (hAdmitted x.1 (parts_mem hx))

/-- Either the quiz breaks a rule of both sides, or it has a blank text exactly if it has
a multiple-choice question with correct options alone. -/
def SameVerdict (parts : List (Question × List AnswerOption)) : Prop :=
  (parts = [] ∨ ∃ x ∈ parts, ¬ Counted x.1 x.2) ∨
    ((∃ x ∈ parts, ¬ Worded x.1 x.2) ↔ ∃ x ∈ parts, ¬ Selective x.1 x.2)

theorem validators_agree_iff (db : Db) (quizSetId : Id)
    (hKeys : (db.questions.map (·.id)).Nodup) (hAdmitted : ∀ q ∈ db.questions, Admitted q) :
    ((validateQuizSet (db.details quizSetId)).ok = true ↔ db.issues quizSetId = []) ↔
      SameVerdict (db.parts quizSetId) := by
  rw [details_ok_iff hKeys hAdmitted, issues_iff, SameVerdict]
  generalize db.parts quizSetId = parts
  by_cases hShared : parts = [] ∨ ∃ x ∈ parts, ¬ Counted x.1 x.2
  · have hFail : ∀ P : Question × List AnswerOption → Prop,
        ¬ (parts ≠ [] ∧ ∀ x ∈ parts, Counted x.1 x.2 ∧ P x) := by
      rintro P ⟨hSome, hAll⟩
      obtain hNil | ⟨x, hx, hNot⟩ := hShared
      · exact hSome hNil
      · exact hNot (hAll x hx).1
    have hClient := hFail fun x => Worded x.1 x.2
    have hServer := hFail fun x => Selective x.1 x.2
    constructor
    · exact fun _ => .inl hShared
    · exact fun _ => ⟨fun h => absurd h hClient, fun h => absurd h hServer⟩
  · obtain ⟨hSome, hNone⟩ := not_or.mp hShared
    have hCounted : ∀ x ∈ parts, Counted x.1 x.2 := by
      intro x hx
      by_contra hNot
      exact hNone ⟨x, hx, hNot⟩
    have hSplit : ∀ P : Question × List AnswerOption → Prop,
        (parts ≠ [] ∧ ∀ x ∈ parts, Counted x.1 x.2 ∧ P x) ↔ ¬ ∃ x ∈ parts, ¬ P x := by
      intro P
      constructor
      · rintro ⟨-, hAll⟩ ⟨x, hx, hNot⟩
        exact hNot (hAll x hx).2
      · intro hAll
        refine ⟨hSome, fun x hx => ⟨hCounted x hx, ?_⟩⟩
        by_contra hNot
        exact hAll ⟨x, hx, hNot⟩
    rw [hSplit fun x => Worded x.1 x.2, hSplit fun x => Selective x.1 x.2, not_iff_not]
    exact (or_iff_right hShared).symm

namespace Demo

/-- One multiple-choice question with two options, `A` correct and `B` as given. -/
def pair (correct : Bool) : Db where
  quizzes := []
  tags := []
  questions := [⟨3, 1, 1, "?", .multipleChoice, 20, 1000, none⟩]
  options := [⟨4, 3, 1, "A", true⟩, ⟨5, 3, 2, "B", correct⟩]
  events := []

end Demo

/-- With both options correct the builder offers to publish, and the server refuses. -/
theorem validators_disagree : ¬ ∀ (db : Db) (quizSetId : Id),
    (db.questions.map (·.id)).Nodup → (∀ q ∈ db.questions, Admitted q) →
      ((validateQuizSet (db.details quizSetId)).ok = true ↔ db.issues quizSetId = []) := by
  intro hAgree
  have hBoth := hAgree (Demo.pair true) 1 (by decide) (by simp [Demo.pair, Admitted])
  have hClient : (validateQuizSet ((Demo.pair true).details 1)).ok = true := by decide +kernel
  exact absurd (hBoth.mp hClient) (by decide +kernel)

theorem validators_agree_pair :
    ((validateQuizSet ((Demo.pair false).details 1)).ok = true ↔
      (Demo.pair false).issues 1 = []) := by
  have hParts : (Demo.pair false).parts 1 =
      [(⟨3, 1, 1, "?", .multipleChoice, 20, 1000, none⟩,
        [⟨4, 3, 1, "A", true⟩, ⟨5, 3, 2, "B", false⟩])] := by decide +kernel
  have hSame : SameVerdict ((Demo.pair false).parts 1) := by
    rw [hParts]
    apply Or.inr
    apply iff_of_false
    · rintro ⟨x, hx, hNot⟩
      rw [List.mem_singleton.mp hx] at hNot
      exact hNot ⟨by decide +kernel, by decide +kernel⟩
    · rintro ⟨x, hx, hNot⟩
      rw [List.mem_singleton.mp hx] at hNot
      exact hNot fun _ => ⟨⟨5, 3, 2, "B", false⟩, by simp, rfl⟩
  exact (validators_agree_iff (Demo.pair false) 1 (by decide)
    (by simp [Demo.pair, Admitted])).mpr hSame

end LiveQuiz.Authoring
