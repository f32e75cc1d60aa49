import LiveQuiz.Model.Store

/-! # Validation in the quiz builder

`validation.ts`: what the builder checks of a quiz before it offers to publish it.
-/

namespace LiveQuiz.Client

set_option autoImplicit false

structure OptionDetail where
  id : Id
  position : Int
  body : String
  isCorrect : Bool
  deriving DecidableEq, Repr

structure QuestionDetail where
  id : Id
  position : Int
  body : String
  type : QuestionType
  timeLimitSeconds : Int
  points : Int
  explanation : Option String
  options : List OptionDetail
  deriving DecidableEq, Repr

structure DraftOption where
  id : Option Id
  body : String
  isCorrect : Bool
  deriving DecidableEq, Repr

structure DraftQuestion where
  id : Id
  position : Int
  body : String
  type : QuestionType
  timeLimitSeconds : Int
  points : Int
  explanation : String
  options : List DraftOption
  deriving DecidableEq, Repr

def toDraft (q : QuestionDetail) : DraftQuestion where
  id := q.id
  position := q.position
  body := q.body
  type := q.type
  timeLimitSeconds := q.timeLimitSeconds
  points := q.points
  explanation := q.explanation.getD ""
  options := (sortBy (·.position) q.options).map fun o => ⟨some o.id, o.body, o.isCorrect⟩

/-- WhiteSpace and LineTerminator of ECMAScript. -/
def isSpace (c : Char) : Bool :=
  c.toNat ∈ [0x9, 0xa, 0xb, 0xc, 0xd, 0x20, 0xa0, 0x1680, 0x2000, 0x2001, 0x2002, 0x2003, 0x2004,
    0x2005, 0x2006, 0x2007, 0x2008, 0x2009, 0x200a, 0x2028, 0x2029, 0x202f, 0x205f, 0x3000, 0xfeff]

/-- `String.prototype.trim`. -/
def trim (s : String) : String :=
  String.ofList ((s.toList.dropWhile isSpace).reverse.dropWhile isSpace).reverse

/-- A string is truthy unless it is empty. -/
def hasText (s : String) : Bool := trim s ≠ ""

def correctCount (q : DraftQuestion) : Nat :=
  (q.options.filter (·.isCorrect)).length

def validateQuestion (q : DraftQuestion) : List String :=
  (if !hasText q.body then ["Question text is required."] else []) ++
  (if (q.options.filter fun o => hasText o.body).length < 2 then
    ["At least 2 answer options are required."] else []) ++
  (if q.options.any fun o => !hasText o.body then ["Every option needs text."] else []) ++
  (if q.type = .multipleChoice then
    if correctCount q < 1 then ["Mark at least one correct answer."] else []
  else if correctCount q ≠ 1 then ["Mark exactly one correct answer."] else []) ++
  (if q.type = .trueFalse ∧ q.options.length ≠ 2 then
    ["True/false questions need exactly two options."] else []) ++
  (if q.timeLimitSeconds < 5 ∨ 120 < q.timeLimitSeconds then
    ["Time limit must be between 5 and 120 seconds."] else []) ++
  (if q.points < 0 ∨ 10000 < q.points then ["Points must be between 0 and 10000."] else [])

/-- `record[key] = value`. -/
def assign {β : Type} (record : List (Id × β)) (key : Id) (value : β) : List (Id × β) :=
  if record.any (·.1 = key) then record.map fun x => if x.1 = key then (key, value) else x
  else record ++ [(key, value)]

structure Validation where
  ok : Bool
  globalIssues : List String
  perQuestion : List (Id × List String)
  deriving DecidableEq, Repr

def validateQuizSet (questions : List QuestionDetail) : Validation :=
  let globalIssues := if questions.length = 0 then ["Add at least one question."] else []
  let perQuestion := questions.foldl
    (fun record q => assign record q.id (validateQuestion (toDraft q))) []
  ⟨globalIssues.length = 0 && perQuestion.all fun x => x.2.length = 0, globalIssues, perQuestion⟩

section

variable {β : Type} {q : DraftQuestion}

theorem foldl_assign {α : Type} (key : α → Id) (value : α → β) (items : List α)
    (record : List (Id × β)) (hNodup : (record.map (·.1) ++ items.map key).Nodup) :
    items.foldl (fun record x => assign record (key x) (value x)) record =
      record ++ items.map fun x => (key x, value x) := by
  induction items generalizing record with
  | nil => simp
  | cons x items ih =>
    have hNew : record.any (·.1 = key x) = false := by
      obtain ⟨-, -, hApart⟩ := List.nodup_append.mp hNodup
      simp only [List.any_eq_false, decide_eq_true_eq]
      intro entry hEntry
      exact hApart _ (List.mem_map_of_mem hEntry) _ List.mem_cons_self
    rw [List.foldl_cons, assign, if_neg (by simp [hNew]), ih]
    · simp
    · simpa using hNodup

theorem validateQuizSet_ok {questions : List QuestionDetail}
    (hNodup : (questions.map (·.id)).Nodup) : (validateQuizSet questions).ok = true ↔
      questions ≠ [] ∧ ∀ q ∈ questions, validateQuestion (toDraft q) = [] := by
  have hRecord := foldl_assign (·.id) (fun q => validateQuestion (toDraft q)) questions []
    (by simpa using hNodup)
  simp only [validateQuizSet, hRecord]
  cases questions with
  | nil => simp
  | cons q questions => simp

end

end LiveQuiz.Client
